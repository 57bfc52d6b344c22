import XPath.Proofs.Pulling

/-!
# Cursors that let items through

A position, a predicate and a check for nodes pull their input until an item is let through. What pulls of the
input and judgements on its items keep to, holds of the input when an item has been let through
(`Cursor.SiftsFrom.next`).
-/

namespace XPath

/-- What holds of the input before a pull (`P`) and on an item (`Q`), whatever the item is judged by. -/
structure Calls.Sifts (M : Calls) (P Q : Cursor → Store → Prop) : Prop where
  pull : ∀ {c s c' s'}, P c s → M.next c s = some ((c', .ok true), s') → Q c' s'
  judge : ∀ {p e c fixed size s x s'}, Q c s → M.verdict p e c fixed size s = some (x, s') → Q c s'
  resume : ∀ {c s}, Q c s → P c s

inductive Cursor.SiftsFrom : Cursor → Cursor → Prop
  | nth {k : Nat} {perGroup : Bool} {c : Cursor} {inputPos : Nat} {done : Bool} {pos : Nat} {fin : Bool} :
      SiftsFrom (.nth k perGroup c inputPos done pos fin) c
  | predicate {e : ExprId} {c : Cursor} {inputPos : Nat} {fixed : Option Selection} {size : Option Nat} {pos : Nat}
      {fin : Bool} : SiftsFrom (.predicate e c inputPos fixed size pos fin) c
  | nodesOnly {c : Cursor} {fin : Bool} : SiftsFrom (.nodesOnly c fin) c

section

variable {M : Calls} {P Q : Cursor → Store → Prop} {c w : Cursor} {s s' : Store} {fuel inputPos pos : Nat}

theorem nthNext_sifts (h : M.Sifts P Q) {k : Nat} {perGroup done : Bool} (hc : P c s)
    (hrun : M.nthNext k perGroup fuel c inputPos done pos s = some ((w, .ok true), s')) :
    ∃ d inputPos' pos', w = .nth k perGroup d inputPos' true pos' false ∧ Q d s' := by
  induction fuel generalizing c inputPos done pos s with
  | zero => cases hrun
  | succ fuel ih =>
    unfold Calls.nthNext at hrun
    split at hrun
    · cases hrun
    · obtain ⟨⟨d, r⟩, s₁, hpull, hrun⟩ := Run.of_bind hrun
      obtain err | _ | _ := r
      · cases hrun
      · cases hrun
      · have hd := h.pull hc hpull
        dsimp only at hrun
        split at hrun
        · cases hrun
          exact ⟨d, _, _, rfl, hd⟩
        · exact ih (h.resume hd) hrun

/-- If no item is let through and nothing fails, the input has come to its end. -/
theorem predicateNext_sifts (h : M.Sifts P Q) {p : Program} {e : ExprId} {fixed : Option Selection}
    {size : Option Nat} {x : Pulled} (hc : P c s)
    (hrun : M.predicateNext p e fuel c inputPos fixed size pos s = some (x, s')) :
    match x.2 with
    | .ok true => ∃ d inputPos' fixed' size' pos', x.1 = .predicate e d inputPos' fixed' size' pos' false ∧ Q d s'
    | .ok false => ∃ d t d', P d t ∧ M.next d t = some ((d', .ok false), s')
    | .error _ => True := by
  induction fuel generalizing c inputPos fixed size pos s with
  | zero => cases hrun
  | succ fuel ih =>
    rw [Calls.predicateNext_succ] at hrun
    obtain ⟨⟨d, r⟩, s₁, hpull, hrun⟩ := Run.of_bind hrun
    match r with
    | .error err =>
      cases hrun
      trivial
    | .ok false =>
      cases hrun
      exact ⟨c, s, d, hc, hpull⟩
    | .ok true =>
      obtain ⟨⟨verdict, fixed', size'⟩, s₂, hverdict, hrun⟩ := Run.of_bind hrun
      have hd := h.judge (h.pull hc hpull) hverdict
      cases verdict with
      | error err =>
        cases hrun
        trivial
      | ok sel =>
        dsimp only at hrun
        split at hrun
        · cases hrun
          exact ⟨d, _, _, _, _, rfl, hd⟩
        · exact ih (h.resume hd) hrun

theorem of_nodesOnlyNext {w : Cursor} {b : Bool} (h : M.nodesOnlyNext c s = some ((w, .ok b), s')) :
    ∃ c', M.next c s = some ((c', .ok b), s') ∧
      (b = true → w = .nodesOnly c' false ∧ ∀ i, c'.current = some i → i.isNode = true) := by
  obtain ⟨⟨c', res⟩, s₁, hpull, h⟩ := Run.of_bind h
  match res with
  | .error err => cases h
  | .ok false =>
    cases h
    exact ⟨c', hpull, nofun⟩
  | .ok true =>
    dsimp only at h
    cases hcurrent : c'.current with
    | none =>
      rw [hcurrent] at h
      cases h
      exact ⟨c', hpull, fun _ => ⟨rfl, fun _ h => nomatch hcurrent.symm.trans h⟩⟩
    | some i =>
      rw [hcurrent] at h
      cases i with
      | atomic a => cases h
      | node x =>
        cases h
        refine ⟨c', hpull, fun _ => ⟨rfl, fun i hi => ?_⟩⟩
        rw [← Option.some.inj (hcurrent.symm.trans hi)]
        rfl

theorem Cursor.SiftsFrom.next {keeper : Program → Variables} {n : Nat} {p : Program} {w' : Cursor}
    (h : (machineWith keeper n p).Sifts P Q) (hw : SiftsFrom w c) (hc : P c s)
    (hrun : (machineWith keeper (n + 1) p).next w s = some ((w', .ok true), s')) :
    ∃ d, SiftsFrom w' d ∧ w'.current = d.current ∧ Q d s' := by
  cases hw with
  | @nth _ _ _ _ _ _ fin =>
    cases fin with
    | true => cases hrun
    | false =>
      obtain ⟨d, _, _, rfl, hd⟩ := nthNext_sifts h hc hrun
      exact ⟨d, .nth, rfl, hd⟩
  | @predicate _ _ _ _ _ _ fin =>
    cases fin with
    | true => cases hrun
    | false =>
      obtain ⟨d, _, _, _, _, rfl, hd⟩ := predicateNext_sifts h hc hrun
      exact ⟨d, .predicate, rfl, hd⟩
  | @nodesOnly _ fin =>
    cases fin with
    | true => cases hrun
    | false =>
      obtain ⟨d, hpull, hitem⟩ := of_nodesOnlyNext hrun
      obtain ⟨rfl, -⟩ := hitem rfl
      exact ⟨d, .nodesOnly, rfl, h.pull hc hpull⟩

end

end XPath
