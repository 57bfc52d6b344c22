import XPath.Proofs.ContractForms

/-!
# Accords on slots

On the machine with slots a loop writes the slot of its variable in place. An accord that admits every item and
every error asks only which slots are written and which caches are read (`Accord.Free`); it is lawful if the slots
of a scope stay as they should when a loop writes one.

The first case is a run that leaves the caches of others alone: whatever is done with a cursor over own caches,
other caches are neither read nor changed (`next_framed`).
-/

namespace XPath

variable {vars : List Binding} {q : Program}

/-- Every item and every error may occur, and every expression of a program that may be executed at all. -/
structure Accord.Free (A : Accord) : Prop where
  err : ∀ e, A.Err e
  value : ∀ e i, A.Value e i
  var : ∀ b i, A.Var b i
  every : ∀ {q : Program} {vars : List Binding} {e : ExprId}, A.Scoped q vars e → ∀ e', A.Scoped q vars e'
  /-- A loop may bind what its expression says. -/
  loop : ∀ {q : Program} {vars : List Binding} {e : ExprId} {form : Form} {b : Binding}, A.Scoped q vars e →
    q.form? e = some form → form.loopBinding? = some b → ∀ body, A.Looped q vars b body
  body : ∀ {q : Program} {vars : List Binding} {b : Binding} {body : ExprId}, A.Looped q vars b body →
    A.Scoped q vars body
  write : ∀ {q : Program} {vars : List Binding} {b : Binding} {body : ExprId} {σ : Slots}, A.Looped q vars b body →
    A.Provides q vars σ → ∀ item : Item, A.Provides q vars (b.set σ [item])

section

variable {A : Accord} {w : Watch}

/-- Such an accord is lawful on slots. -/
theorem Accord.Free.lawful (h : A.Free) (hown : ∀ {id : Nat}, A.Own id → A.Shares)
    (hitem : ∀ {q : Program} {vars : List Binding} {b : Binding} {body : ExprId} {item : Item},
      A.Looped q vars b body → w.item b item)
    (hexecution : ∀ q e focus s r s', w.execution q e focus s r s') : A.Lawful (fun _ => .inSlots) w where
  dynamic := fun e _ => h.err e
  own := hown
  missing := fun _ _ => h.err _
  kept := fun he _ hform =>
    Form.kept_of_free h.err (h.every he) h.var (h.value _) fun _ hb => h.loop he hform hb
  lookup := by
    intro q vars e name binding _ _
    refine Serving.given (fun _ => h.err _) fun b _ => .get fun s t hst => ?_
    rw [← hst.1.slots]
    exact (EnsuresEval.checked fun e _ => h.err e).mono fun _ _ i _ => h.value e i
  iterate := by
    intro q vars b body item focus run run' hloop _ hfocus hrun
    refine .modify (fun s t hst => ?_) (hrun (h.body hloop) hfocus)
    rw [← hst.1.slots]
    exact ⟨hst.1.withSlots _, h.write hloop hst.2 item⟩
  item := fun hloop _ => hitem hloop
  execution := fun _ _ _ _ _ _ => hexecution _ _ _ _ _ _

structure Accord.Open (A : Accord) (vars : List Binding) : Prop where
  provides : ∀ q σ, A.Provides q vars σ
  executes : ∀ q e, A.Scoped q vars e
  looped : ∀ q b body, A.Looped q vars b body

/-- In an open scope a cursor is sound if it reads own caches only. -/
theorem Cursor.Within.sound {c : Cursor} (h : c.Within A.Own) (hfree : A.Free)
    (hopen : A.Open vars) : Sound A q vars (fun _ => True) c := by
  induction h generalizing q with
  | empty => exact .leaf .empty
  | items all rest cur pos fin => exact .leaf (.items fun _ _ => trivial)
  | range first last upcoming cur pos => exact .leaf (.range (fun _ => trivial) ..)
  | buffered taken cur pos fin own => exact .buffered taken cur pos fin own fun _ => trivial
  | concat pos fin spent left ihSpent ihLeft =>
    exact .concat pos fin (fun c hc => ihSpent c hc) fun c hc => ihLeft c hc
  | nodesOnly fin input ih => exact .stage .nodesOnly fin (fun _ _ => trivial) ih
  | axis ax test walk cur pos fin source ih => exact .stage (.axis ax test walk cur pos) fin (fun _ => trivial) ih
  | descent tests walk cur pos fin source ih => exact .stage (.descent tests walk cur pos) fin (fun _ => trivial) ih
  | nth n perGroup inputPos done pos fin input ih =>
    exact .stage (.nth n perGroup inputPos done pos) fin (fun _ _ => trivial) ih
  | predicate e inputPos fixed size pos fin input ih =>
    exact .predicate inputPos fixed size pos fin (hopen.executes q e) ih
  | forEach body b focus pos fin source inner ihSource ihInner =>
    exact .loop (l := .forEach body b focus) pos fin ⟨hopen.looped q b body, fun _ _ => hfree.err _,
      fun _ _ => trivial, fun i _ => hfree.var b i⟩ ihSource (fun i k hrun => ihInner i k hrun) fun _ _ => hfree.err _
  | step e pos fin source inner ihSource ihInner =>
    exact .loop (l := .step e) pos fin ⟨hopen.executes q e, fun _ _ => trivial⟩ ihSource
      (fun i k hrun => ihInner i k hrun) fun _ _ => hfree.err _
  | unsorted unique cur pos fin input ih =>
    exact .stage (.unsorted unique cur pos) fin ⟨fun _ _ => trivial, fun _ _ => trivial⟩ ih
  | sorted unique all rest cur pos fin => exact .leaf (.sorted fun _ _ => trivial)
  | scope p σ inner ih => exact .scope (hopen.provides p σ) ih

end

/-! ## Own caches -/

def Accord.ofCaches (Own : Nat → Prop) (others others' : Array Cache) : Accord where
  Own := Own
  others := others
  others' := others'
  Err := fun _ => True
  Provides := fun _ _ _ => True
  Scoped := fun _ _ _ => True
  Looped := fun _ _ _ _ => True
  Value := fun _ _ => True
  Var := fun _ _ => True

section

variable {Own : Nat → Prop} {others others' : Array Cache} {c : Cursor}

theorem Accord.ofCaches_free : (Accord.ofCaches Own others others').Free := by
  constructor <;> intros <;> trivial

theorem Cursor.Within.sound_ofCaches (h : c.Within Own) :
    Sound (.ofCaches Own others others') q vars (fun _ => True) c := by
  have hwithin : c.Within (Accord.ofCaches Own others others').Own := h
  exact hwithin.sound Accord.ofCaches_free ⟨fun _ _ => trivial, fun _ _ => trivial, fun _ _ _ => trivial⟩

theorem Accord.ofCaches_lawful : (Accord.ofCaches Own others others').Lawful (fun _ => .inSlots) .idle :=
  Accord.ofCaches_free.lawful (fun _ => ⟨fun _ => trivial, fun h => h.sound_ofCaches⟩) (fun _ => trivial)
    fun _ _ _ _ _ _ => trivial

/-- A pull of a cursor over own caches ends the same on stores that differ in other caches only. -/
theorem next_framed {n : Nat} {p : Program} {s t : Store} (hc : c.Within Own) (hst : Framed Own others others' s t) :
    Related False (fun x s y t => x = y ∧ x.1.Within Own ∧ Framed Own others others' s t)
      ((machine n p).next c s) ((machine n p).next c t) := by
  have hm := (@Accord.ofCaches_lawful Own others others').serving n
  rw [Watch.machine_idle] at hm
  have hsound : Sound (.ofCaches Own others others') p [] (fun _ => True) c := hc.sound_ofCaches
  refine (hm.next hsound s t ⟨hst, trivial⟩).mono ?_
  rintro x s' y t' ⟨⟨hxy, hsound, -⟩, hst', -⟩
  exact ⟨hxy, hsound.within, hst'⟩

end

end XPath
