import XPath.Proofs.LexicalContracts
import XPath.Proofs.Scoping

/-!
# Compiled expressions keep their contracts

A compiled expression runs on slots as it does with environments, and what a contract says of each execution there
can be asked of each execution on slots. `Query.evaluateUnder` is the evaluation under a watch; if the watch asks
no more than a lawful contract promises, it is the evaluation itself (`Query.evaluateUnder_eq`).
-/

namespace XPath

open Program

variable {values : List (ExpandedName × List Item)}

/-! ## What compiling provides -/

/-- An operator still has its operands once it has been bound. -/
theorem Form.Fits.operands {q : Program} {children : List ExprId} {form new : Form} (h : form.Fits children)
    (hnew : form.Fills q children new) : new.Operands children := by
  cases form with
  | «variable» name b =>
    obtain ⟨b, -, rfl⟩ := hnew
    trivial
  | call name f =>
    obtain ⟨f, -, rfl⟩ := hnew
    trivial
  | path plan =>
    obtain rfl : new = _ := hnew
    trivial
  | filter steps =>
    obtain rfl : new = _ := hnew
    exact fuse_filters _ h.2
  | forEach var b | quantified k var b =>
    obtain ⟨b, -, rfl⟩ := hnew
    exact h.2
  | union =>
    obtain rfl : new = _ := hnew
    trivial
  | _ =>
    obtain rfl : new = _ := hnew
    exact h

theorem operands_of_compile {c : StaticContext} {x : Expr} {q : Query} (h : compile c x = .ok q) (e : ExprId)
    (form : Form) (hform : q.program.form? e = some form) : form.Operands (q.program.children e) := by
  obtain ⟨p, raw, -, -, -, hfits, hfills⟩ := raw_of_compile h hform
  exact hfits.operands hfills

/-- The slots of the external variables hold the values that are given for them, and the other slots are as they
were. -/
theorem Query.fillSlots_get? {names : List ExpandedName} :
    ∀ {slot : Nat} {slots slots' : Slots}, fillSlots values names slot slots = .ok slots' →
      (∀ i name, names[i]? = some name → ∃ items, values.lookup name = some items ∧
        slots'.get? (slot + i) = some items) ∧
      ∀ i, i < slot ∨ slot + names.length ≤ i → slots'.get? i = slots.get? i := by
  induction names with
  | nil =>
    intro slot slots slots' h
    cases h
    exact ⟨by simp, fun _ _ => rfl⟩
  | cons name names ih =>
    intro slot slots slots' h
    unfold fillSlots at h
    cases hvalue : values.lookup name with
    | none =>
      rw [hvalue] at h
      cases h
    | some value =>
      rw [hvalue] at h
      obtain ⟨hheld, hrest⟩ := ih h
      refine ⟨fun i found hi => ?_, fun i hi => ?_⟩
      · cases i with
        | zero =>
          cases hi
          exact ⟨value, hvalue, (hrest slot (.inl .refl)).trans (Slots.get?_set_self ..)⟩
        | succ i =>
          obtain ⟨items, hlookup, hget⟩ := hheld i found hi
          exact ⟨items, hlookup, by rw [← hget]; congr 1; omega⟩
      · rw [List.length_cons] at hi
        rw [hrest i (by omega), Slots.get?_set_ne _ (by omega)]

/-- The environment of an evaluation provides the external variables. -/
theorem Query.provides_environment {c : StaticContext} {x : Expr} {q : Query} (h : compile c x = .ok q)
    {slots : Slots} (hslots : q.createSlots values = .ok slots)
    {K : Contract} (hK : ∀ b, b.itemType = .any → ∀ i, K.Var b i) : K.Provides q.program [] (q.environment slots) := by
  obtain ⟨hstatic, hexternal, -⟩ := compiled_of_compile h
  subst hstatic
  intro name b hb
  obtain ⟨slot, hslot, rfl⟩ := Option.map_eq_some_iff.mp hb
  have hlt := (List.findIdx?_eq_some_iff_getElem.mp hslot).1
  obtain ⟨items, -, hitems⟩ := (fillSlots_get? hslots).1 slot _ (List.getElem?_eq_getElem hlt)
  rw [Nat.zero_add] at hitems
  have hagrees := q.agrees_environment hexternal slots name _ hb
  exact ⟨items, hagrees.symm.trans hitems, fun i _ => hK _ rfl i⟩

/-! ## Evaluations under a watch -/

/-- All items of the result of a watched evaluation. -/
noncomputable def Query.evaluateUnder (w : Watch) (fuel : Nat) (q : Query) (focus : Snapshot) (slots : Slots) :
    Option (Except Error (List Item)) :=
  let m := w.machine (fun _ => .inSlots) fuel q.program
  let run : Eval (List Item) := do m.drain (← m.execute q.root (.fixed focus))
  (run.run.run (.ofSlots slots)).map (·.1)

section

variable {c : StaticContext} {x : Expr} {q : Query} {K : Contract} {w : Watches} {focus : Snapshot} {slots : Slots}

theorem Query.evaluateUnder_eq (hq : compile c x = .ok q) (hf : ∀ f, c.Callable f → f.KeepsReply)
    (hFit : K.Fit = c.Callable) (hL : K.Lawful q.program) (hw : w.Concur q.program c.Callable)
    (hgrants : w.scopes.Grants K q.program) (hprovides : K.Provides q.program [] (q.environment slots))
    (hfocus : ∀ err, focus.last = .error err → K.Err err) (fuel : Nat) :
    q.evaluateUnder w.slots fuel focus slots = (q.evaluateOn fuel focus slots).map (·.1) ∧
      ∀ r, (q.evaluateOn fuel focus slots).map (·.1) = some r →
        Fulfils K.Err (fun items => ∀ i ∈ items, K.Value q.root i) r := by
  obtain ⟨hstatic, hexternal, ⟨top, htop, hplaced⟩, -⟩ := compiled_of_compile hq
  subst hstatic
  have hslots := ((inStep_watched hw hf fuel).evaluate focus hplaced htop
    (q.agrees_environment hexternal slots) q.program.scopeBelow_nil).value_eq fun _ _ _ _ h => h
  have hscoped : K.Scoped q.program [] q.root := ⟨_, top, hFit ▸ hplaced⟩
  obtain ⟨hwatched, hrun⟩ := hL.evaluate hgrants fuel hscoped (s := .ofSlots (q.environment slots)) hprovides hfocus
  have hlexical : (q.evaluateOn fuel focus slots).map (·.1) =
      q.evaluateLexically fuel focus (q.environment slots) :=
    evaluateOn_of_placed hf hexternal htop hplaced fuel focus slots
  rw [hlexical]
  refine ⟨hslots.trans (congrArg _ hwatched), ?_⟩
  intro r hr
  obtain ⟨⟨r, s⟩, hs, rfl⟩ := Option.map_eq_some_iff.mp hr
  exact hrun _ _ hs

end

end XPath
