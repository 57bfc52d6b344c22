import XPath.Proofs.Lexical

/-!
# Watched runs

A watch asks something of every execution of an expression, and of every item that a loop binds. The watched
machine does what the machine does as long as it gets what is asked, and has no result otherwise. So a watched
run that ends like the run itself has seen nothing amiss: that is how a statement about each execution in the
course of a run is made here.
-/

namespace XPath

structure Watch where
  /-- Of an execution: the expression with its focus, the store before, the outcome and the store after. -/
  execution : Program → ExprId → Focus → Store → Except Error Cursor → Store → Prop
  /-- Of an item that a loop binds. -/
  item : Binding → Item → Prop

def Watch.idle : Watch :=
  ⟨fun _ _ _ _ _ _ => True, fun _ _ => True⟩

/-- The run if it ends as is asked. -/
noncomputable def Eval.provided {α : Type} (x : Eval α) (ok : Store → Except Error α → Store → Prop) :
    Eval α := fun s =>
  open Classical in (x s).filter fun r => decide (ok s r.1 r.2)

namespace Watch

/-- Variables whose items are watched. -/
noncomputable def vars (w : Watch) (v : Variables) : Variables :=
  open Classical in
  { v with
    iterate := fun b item focus run =>
      if w.item b item then v.iterate b item focus run else ExceptT.lift outOfFuel }

/-- The operations at most `fuel` calls deep, under a watch. -/
noncomputable def machine (w : Watch) (keeper : Program → Variables) : Nat → Program → Calls
  | 0, p => .spent (w.vars (keeper p))
  | fuel + 1, p =>
    { fuel := fuel
      next := Calls.pullScoped (fun q => (w.machine keeper fuel q).pull q) p
      clone := Calls.copyScoped (fun q => (w.machine keeper fuel q).copy q) p
      execute := fun e focus =>
        ((w.machine keeper fuel p).perform p e focus).provided (w.execution p e focus)
      vars := w.vars (keeper p) }

end Watch

section

variable {α : Type} {x : Eval α} {ok : Store → Except Error α → Store → Prop} {s : Store}

theorem Eval.provided_of_none (h : x s = none) : x.provided ok s = none := by
  unfold Eval.provided
  rw [h]
  rfl

theorem Eval.provided_of_some (h : x s = some (r, s')) (hok : ok s r s') : x.provided ok s = some (r, s') := by
  unfold Eval.provided
  rw [h]
  exact Option.filter_some_pos (by simpa using hok)

theorem Eval.provided_of_not (h : x s = some (r, s')) (hok : ¬ ok s r s') : x.provided ok s = none := by
  unfold Eval.provided
  rw [h]
  exact Option.filter_some_neg (by simpa using hok)

end

namespace Watch

variable {w : Watch} {keeper : Program → Variables} {n : Nat} {p q : Program}

theorem iterate_of_item {item : Item} (h : w.item b item) (focus : Focus)
    (run : Focus → Eval Cursor) : (w.vars v).iterate b item focus run = v.iterate b item focus run :=
  if_pos h

theorem iterate_of_not_item {item : Item} (h : ¬ w.item b item) (focus : Focus)
    (run : Focus → Eval Cursor) : (w.vars v).iterate b item focus run = ExceptT.lift outOfFuel :=
  if_neg h

theorem fuel_machine : (w.machine keeper n p).fuel = n - 1 := by
  cases n <;> rfl

theorem vars_machine : (w.machine keeper n p).vars = w.vars (keeper p) := by
  cases n <;> rfl

theorem execute_succ (e : ExprId) (focus : Focus) : (w.machine keeper (n + 1) p).execute e focus =
      ((w.machine keeper n p).perform p e focus).provided (w.execution p e focus) :=
  rfl

theorem next_scope (σ : Slots) (c : Cursor) (s : Store) : (w.machine keeper n p).next (.scope q σ c) s =
      ((w.machine keeper n q).next c { s with slots := σ }).map fun r =>
        ((.scope q r.2.slots r.1.1, r.1.2), { r.2 with slots := s.slots }) := by
  cases n with
  | zero => rfl
  | succ n =>
    change ((onSlots σ ((w.machine keeper (n + 1) q).next c) s).bind _) = _
    rw [onSlots_apply]
    cases (w.machine keeper (n + 1) q).next c { s with slots := σ } <;> rfl

theorem clone_scope (σ : Slots) (c : Cursor) (s : Store) : (w.machine keeper n p).clone (.scope q σ c) s =
      ((w.machine keeper n q).clone c { s with slots := σ }).map fun r =>
        (r.1, { r.2 with slots := s.slots }) := by
  cases n with
  | zero => rfl
  | succ n =>
    change ((onSlots σ ((w.machine keeper (n + 1) q).clone c) s).bind _) = _
    rw [onSlots_apply]
    cases (w.machine keeper (n + 1) q).clone c { s with slots := σ } <;> rfl

theorem next_bare (hc : ∀ q σ c₀, c ≠ .scope q σ c₀) :
    (w.machine keeper (n + 1) p).next c = (w.machine keeper n p).pull p c := by
  cases c with
  | scope q σ c₀ => exact absurd rfl (hc q σ c₀)
  | _ => rfl

theorem clone_bare (hc : ∀ q σ c₀, c ≠ .scope q σ c₀) :
    (w.machine keeper (n + 1) p).clone c = (w.machine keeper n p).copy p c := by
  cases c with
  | scope q σ c₀ => exact absurd rfl (hc q σ c₀)
  | _ => rfl

/-- Under the idle watch the machine is the one without a watch. -/
theorem machine_idle (keeper : Program → Variables) (n : Nat) : Watch.idle.machine keeper n = machineWith keeper n := by
  have hvars : ∀ v, Watch.idle.vars v = v := by
    intro v
    unfold vars
    congr 1
    funext b item focus run
    exact if_pos trivial
  induction n with
  | zero =>
    funext p
    unfold machine machineWith
    rw [hvars]
  | succ n ih =>
    funext p
    unfold machine machineWith
    rw [hvars, ih]
    congr 1
    funext e focus s
    cases h : (machineWith keeper n p).perform p e focus s with
    | none => exact Eval.provided_of_none h
    | some r => exact Eval.provided_of_some h trivial

end Watch

/-! ## Both ways of keeping variables -/

structure Watches where
  slots : Watch
  scopes : Watch
  item : scopes.item = slots.item

namespace Watches

def idle : Watches :=
  ⟨.idle, .idle, rfl⟩

noncomputable def slotMachine (w : Watches) : Nat → Program → Calls :=
  w.slots.machine fun _ => .inSlots

noncomputable def scopeMachine (w : Watches) : Nat → Program → Calls :=
  w.scopes.machine Variables.lexical

theorem slotMachine_idle : idle.slotMachine = machine := by
  funext n
  exact Watch.machine_idle _ n

theorem scopeMachine_idle : idle.scopeMachine = lexicalMachine := by
  funext n
  exact Watch.machine_idle _ n

end Watches

end XPath
