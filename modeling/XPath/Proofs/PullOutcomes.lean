import XPath.Proofs.Wandering

/-!
# What a pull leaves behind

After an item a cursor has a current item, and its position is one more than before, or one where a group
begins (`Cursor.Onto`). After the end or an error it has none, and nothing comes from it any more
(`Cursor.Spent`).
-/

namespace XPath

open Option

/-- The cursor stands on an item, which follows the one at the given position or begins a group. -/
structure Cursor.Onto (pos : Nat) (c : Cursor) : Prop where
  current : c.current.isSome = true
  unfinished : c.isFinished = false
  position : c.position = pos + 1 ∨ c.position = 1

def Cursor.Spent : Cursor → Prop
  | .items _ rest current _ finished => rest = [] ∧ current = none ∧ finished = true
  | .forEach _ _ _ _ run _ finished | .step _ _ run _ finished => finished = true ∧ run = .idle
  | .scope _ _ c => c.Spent
  | c => c.isFinished = true ∧ c.current = none

def Cursor.After (pos : Nat) : Except Error Bool → Cursor → Prop
  | .ok true, c => c.Onto pos
  | _, c => c.Spent

/-- A cursor that says it is finished is. -/
def Cursor.Tidy (c : Cursor) : Prop :=
  c.isFinished = true → c.Spent

theorem Cursor.Onto.tidy {c : Cursor} (h : c.Onto pos) : c.Tidy := by
  intro hfinished
  cases h.unfinished.symm.trans hfinished

theorem Cursor.current_of_spent : ∀ c : Cursor, c.Spent → c.current = none
  | .items .., h => h.2.1
  | .forEach .., h | .step .., h => congrArg BodyRun.current h.2
  | .scope _ _ c, h => current_of_spent c h
  | .empty, h | .range .., h | .buffered .., h | .concat .., h | .nodesOnly .., h | .axis .., h
  | .descent .., h | .nth .., h | .predicate .., h | .ordered .., h => h.2

theorem Cursor.After.tidy {r : Except Error Bool} {c : Cursor} (h : c.After pos r) : c.Tidy := by
  match r with
  | .ok true => exact Onto.tidy h
  | .ok false | .error e => exact fun _ => h

theorem Cursor.After.spent {c : Cursor} (h : c.After pos r) (hr : r ≠ .ok true) : c.Spent := by
  match r with
  | .ok true => exact absurd rfl hr
  | .ok false | .error e => exact h

/-- Where positions began again on the way, the item begins a group or follows one of the new group. -/
theorem Cursor.After.restart {c : Cursor} (h : c.After pos' r) (hpos : pos' = pos ∨ pos' = 0) : c.After pos r := by
  match r with
  | .ok true =>
    obtain ⟨hcurrent, hunfinished, hposition⟩ := h
    refine ⟨hcurrent, hunfinished, ?_⟩
    rcases hpos with rfl | rfl
    · exact hposition
    · exact .inr (hposition.elim id id)
  | .ok false | .error e => exact h

section

variable {keeper : Program → Variables} {m : Calls} {n pos : Nat} {p : Program} {c c' : Cursor}
  {s s' : Store} {r : Except Error Bool}

theorem next_of_spent (p : Program) (c : Cursor) (h : c.Spent) (s : Store) :
    (machineWith keeper (n + 1) p).next c s = some ((c, .ok false), s) := by
  match c with
  | .items all rest current pos finished =>
    obtain ⟨rfl, rfl, rfl⟩ := h
    rfl
  | .range first last upcoming current pos =>
    obtain ⟨hfinished, -⟩ := h
    obtain ⟨hupcoming, hcurrent⟩ := Bool.and_eq_true_iff.mp hfinished
    obtain rfl := isNone_iff_eq_none.mp hupcoming
    obtain rfl := isNone_iff_eq_none.mp hcurrent
    rfl
  | .scope q σ c =>
    rw [next_scope, next_of_spent q c h]
    rfl
  | .empty => rfl
  | .buffered .. | .concat .. | .nodesOnly .. | .axis .. | .descent .. | .nth .. | .predicate ..
  | .forEach .. | .step .. | .ordered .. =>
    obtain ⟨hfinished, -⟩ := h
    cases hfinished
    rfl

/-! ## One pull of each cursor -/

def Calls.Advances (m : Calls) : Prop :=
  ∀ {c : Cursor} {s : Store} {c' : Cursor} {s' : Store},
    m.next c s = some ((c', .ok true), s') → c'.Onto c.position

theorem concatNext_after (hm : m.Advances)
    (h : m.concatNext pos spent rest s = some ((c', r), s')) : c'.After pos r := by
  induction rest generalizing spent s with
  | nil =>
    cases h
    exact ⟨rfl, rfl⟩
  | cons c rest ih =>
    obtain ⟨⟨c₁, r₁⟩, s₁, hpull, h⟩ := Run.of_bind h
    match r₁ with
    | .ok true =>
      cases h
      exact ⟨(hm hpull).current, rfl, .inl rfl⟩
    | .ok false => exact ih h
    | .error e =>
      cases h
      exact ⟨rfl, rfl⟩

theorem nodesOnlyNext_after (hm : m.Advances) (h : m.nodesOnlyNext c s = some ((c', r), s')) :
    c'.After c.position r := by
  obtain ⟨⟨c₁, r₁⟩, s₁, hpull, h⟩ := Run.of_bind h
  match r₁ with
  | .ok true =>
    obtain ⟨hcurrent, -, hposition⟩ := hm hpull
    obtain ⟨i, hi⟩ := isSome_iff_exists.mp hcurrent
    dsimp only at h
    rw [hi] at h
    match i with
    | .node k =>
      cases h
      exact ⟨hcurrent, rfl, hposition⟩
    | .atomic a =>
      cases h
      exact ⟨rfl, rfl⟩
  | .ok false | .error e =>
    cases h
    exact ⟨rfl, rfl⟩

theorem Wander.after (ω : Wander) (hspent : ∀ c pos, (ω.wrap c ω.stop none pos true).Spent) {w : ω.W}
    (hrun : ω.next m fuel c w pos s = some ((c', r), s')) : c'.After pos r := by
  refine ω.induct (P := fun _ _ _ pos x _ => x.1.After pos x.2) ?_ ?_ ?_ ?_ hrun
  · intro c s w pos n w' _
    exact ⟨by rw [ω.current]; rfl, ω.unfinished, .inl ω.position⟩
  · exact fun _ _ hafter => hafter.restart (.inr rfl)
  · exact fun _ _ => hspent _ _
  · intro c s w pos c' r s' _ hr
    match r with
    | .ok true => exact absurd rfl hr
    | .ok false | .error e => exact hspent _ _

theorem nthNext_after (hm : m.Advances)
    (h : m.nthNext k perGroup fuel c inputPos groupDone pos s = some ((c', r), s')) : c'.After 0 r := by
  induction fuel generalizing c inputPos groupDone pos s with
  | zero => cases h
  | succ fuel ih =>
    unfold Calls.nthNext at h
    split at h
    · cases h
      exact ⟨rfl, rfl⟩
    · obtain ⟨⟨c₁, r₁⟩, s₁, hpull, h⟩ := Run.of_bind h
      match r₁ with
      | .ok true =>
        dsimp only at h
        split at h
        · cases h
          exact ⟨(hm hpull).current, rfl, .inr rfl⟩
        · exact ih h
      | .ok false | .error e =>
        cases h
        exact ⟨rfl, rfl⟩

theorem predicateNext_after (hm : m.Advances) {fixed : Option Selection} {size : Option Nat}
    (h : m.predicateNext p e fuel c inputPos fixed size pos s = some ((c', r), s')) : c'.After pos r := by
  induction fuel generalizing c inputPos fixed size pos s with
  | zero => cases h
  | succ fuel ih =>
    obtain ⟨⟨c₁, r₁⟩, s₁, hpull, h⟩ := Run.of_bind h
    match r₁ with
    | .ok true =>
      have hcurrent := (hm hpull).current
      have hpos : (if c₁.position ≤ inputPos then 0 else pos) = pos ∨
          (if c₁.position ≤ inputPos then 0 else pos) = 0 := by
        split
        · exact .inr rfl
        · exact .inl rfl
      dsimp only at h
      split at h
      · split at h
        · cases h
          exact Cursor.After.restart ⟨hcurrent, rfl, .inl rfl⟩ hpos
        · exact (ih h).restart hpos
      · obtain ⟨⟨r₂, counted⟩, s₂, -, h⟩ := Run.of_bind h
        match r₂ with
        | .error err =>
          cases h
          exact ⟨rfl, rfl⟩
        | .ok sel =>
          dsimp only at h
          split at h
          · cases h
            exact Cursor.After.restart ⟨hcurrent, rfl, .inl rfl⟩ hpos
          · exact (ih h).restart hpos
    | .ok false | .error e =>
      cases h
      exact ⟨rfl, rfl⟩

/-- The cursors of loops and of expression steps show what their state says. -/
structure Wraps (wrap : Cursor → BodyRun → Nat → Bool → Cursor) : Prop where
  current : ∀ source run pos fin, (wrap source run pos fin).current = run.current
  position : ∀ source run pos fin, (wrap source run pos fin).position = pos
  finished : ∀ source run pos fin, (wrap source run pos fin).isFinished = fin
  spent : ∀ source pos, (wrap source .idle pos true).Spent

theorem wraps_forEach (body : ExprId) (b : Binding) (snap : Snapshot) : Wraps (.forEach body b snap) :=
  ⟨fun _ _ _ _ => rfl, fun _ _ _ _ => rfl, fun _ _ _ _ => rfl, fun _ _ => ⟨rfl, rfl⟩⟩

theorem wraps_step (e : ExprId) : Wraps (.step e) :=
  ⟨fun _ _ _ _ => rfl, fun _ _ _ _ => rfl, fun _ _ _ _ => rfl, fun _ _ => ⟨rfl, rfl⟩⟩

theorem bodyNext_after (hm : m.Advances)
    {wrap : Cursor → BodyRun → Nat → Bool → Cursor} (hwrap : Wraps wrap) {fuel : Nat} {run : BodyRun}
    (h : m.bodyNext start grouped wrap fuel c run pos s = some ((c', r), s')) : c'.After pos r := by
  induction fuel generalizing c run pos s with
  | zero => cases h
  | succ fuel ih =>
    match run with
    | .failed e =>
      cases h
      exact hwrap.spent _ _
    | .running inner consumed =>
      obtain ⟨⟨c₁, r₁⟩, s₁, hpull, h⟩ := Run.of_bind h
      match r₁ with
      | .ok true =>
        cases h
        refine ⟨?_, hwrap.finished _ _ _ _, .inl (hwrap.position _ _ _ _)⟩
        rw [hwrap.current]
        exact (hm hpull).current
      | .ok false => exact ih h
      | .error e =>
        cases h
        exact hwrap.spent _ _
    | .idle =>
      obtain ⟨⟨c₁, r₁⟩, s₁, hpull, h⟩ := Run.of_bind h
      match r₁ with
      | .ok true =>
        obtain ⟨begun, s₂, -, h⟩ := Run.of_bind h
        match begun with
        | .ok (some inner) =>
          refine (ih h).restart ?_
          cases grouped with
          | true => exact .inr rfl
          | false => exact .inl rfl
        | .ok none => exact ih h
        | .error e =>
          cases h
          exact hwrap.spent _ _
      | .ok false | .error e =>
        cases h
        exact hwrap.spent _ _

theorem bufferedNext_after {id taken : Nat} (h : m.bufferedNext id taken pos s = some ((c', r), s')) :
    c'.After pos r := by
  obtain ⟨s₀, s₁, -, h⟩ := Run.of_bind h
  match hcache : s₀.caches[id]? with
  | none =>
    rw [hcache] at h
    cases h
    exact ⟨rfl, rfl⟩
  | some cache =>
    rw [hcache] at h
    obtain ⟨⟨cache, r₁⟩, s₂, -, h⟩ := Run.of_bind h
    obtain ⟨-, s₃, -, h⟩ := Run.of_bind h
    match r₁ with
    | .ok (some item) =>
      cases h
      exact ⟨rfl, rfl, .inl rfl⟩
    | .ok none | .error e =>
      cases h
      exact ⟨rfl, rfl⟩

theorem orderedNext_after (h : m.orderedNext unique pos supply s = some ((c', r), s')) : c'.After pos r := by
  match supply with
  | .sorted all (item :: rest) =>
    cases h
    exact ⟨rfl, rfl, .inl rfl⟩
  | .sorted all [] =>
    cases h
    exact ⟨rfl, rfl⟩
  | .unsorted input =>
    obtain ⟨r₁, s₁, -, h⟩ := Run.of_bind h
    match r₁ with
    | .ok (item :: rest) =>
      cases h
      exact ⟨rfl, rfl, .inl rfl⟩
    | .ok [] | .error e =>
      cases h
      exact ⟨rfl, rfl⟩

/-- A pull moves the cursor, unless it was finished before. -/
theorem pull_after (hm : m.Advances) (hc : ∀ q σ c₀, c ≠ .scope q σ c₀)
    (h : m.pull p c s = some ((c', r), s')) (htidy : r = .ok true ∨ c.Tidy) : c'.After c.position r := by
  -- A finished cursor stays as it is.
  have hstays : c.isFinished = true → (c, Except.ok false) = (c', r) → c'.After c.position r := by
    intro hfinished heq
    cases heq
    exact (htidy.resolve_left nofun) hfinished
  match c with
  | .items all (item :: rest) _ pos _ =>
    cases h
    exact ⟨rfl, rfl, .inl rfl⟩
  | .items all [] _ pos _ =>
    cases h
    exact ⟨rfl, rfl, rfl⟩
  | .range first last (some i) _ pos =>
    cases h
    exact ⟨rfl, Bool.and_false _, .inl rfl⟩
  | .range first last none _ pos =>
    cases h
    exact ⟨rfl, rfl⟩
  | .buffered id taken _ pos false => exact bufferedNext_after h
  | .concat spent rest pos false => exact concatNext_after hm h
  | .nodesOnly input false => exact nodesOnlyNext_after (c := input) hm h
  | .axis axis test source walk _ pos false =>
    exact (Wander.axis axis test).after (fun _ _ => ⟨rfl, rfl⟩) h
  | .descent tests source walk _ pos false =>
    exact (Wander.descent tests).after (fun _ _ => ⟨rfl, rfl⟩) h
  | .nth k perGroup input inputPos done pos false => exact (nthNext_after hm h).restart (.inr rfl)
  | .predicate e input inputPos fixed size pos false => exact predicateNext_after hm h
  | .forEach body binding focus source run pos false =>
    exact bodyNext_after hm (wraps_forEach body binding focus) h
  | .step e source run pos false => exact bodyNext_after hm (wraps_step e) h
  | .ordered unique supply _ pos false => exact orderedNext_after h
  | .empty | .buffered _ _ _ _ true | .concat _ _ _ true | .nodesOnly _ true | .axis _ _ _ _ _ _ true
  | .descent _ _ _ _ _ true | .nth _ _ _ _ _ _ true | .predicate _ _ _ _ _ _ true
  | .forEach _ _ _ _ _ _ true | .step _ _ _ _ true | .ordered _ _ _ _ true =>
    exact hstays rfl (Prod.mk.inj (some.inj h)).1
  | .scope q σ c₀ => exact absurd rfl (hc q σ c₀)

/-- Scopes are peeled off without going deeper. -/
theorem next_after_of_advances (hm : ∀ q, (machineWith keeper n q).Advances) :
    ∀ (c : Cursor) {p : Program} {s : Store} {c' : Cursor} {r : Except Error Bool} {s' : Store},
      (machineWith keeper (n + 1) p).next c s = some ((c', r), s') → r = .ok true ∨ c.Tidy →
        c'.After c.position r
  | .scope q σ c, p, s, c', r, s', h, htidy => by
    rw [next_scope] at h
    obtain ⟨⟨⟨c₁, r₁⟩, s₁⟩, hinner, heq⟩ := map_eq_some_iff.mp h
    cases heq
    have hc₁ : c₁.After c.position r₁ := next_after_of_advances hm c hinner htidy
    match r₁ with
    | .ok true => exact ⟨hc₁.current, hc₁.unfinished, hc₁.position⟩
    | .ok false | .error e => exact hc₁
  | .empty, p, _, _, _, _, h, htidy | .items .., p, _, _, _, _, h, htidy
  | .range .., p, _, _, _, _, h, htidy | .buffered .., p, _, _, _, _, h, htidy
  | .concat .., p, _, _, _, _, h, htidy | .nodesOnly .., p, _, _, _, _, h, htidy
  | .axis .., p, _, _, _, _, h, htidy | .descent .., p, _, _, _, _, h, htidy
  | .nth .., p, _, _, _, _, h, htidy | .predicate .., p, _, _, _, _, h, htidy
  | .forEach .., p, _, _, _, _, h, htidy | .step .., p, _, _, _, _, h, htidy
  | .ordered .., p, _, _, _, _, h, htidy =>
    pull_after (p := p) (hm p) nofun h htidy

theorem advances_machineWith (keeper : Program → Variables) (n : Nat) (p : Program) :
    (machineWith keeper n p).Advances := by
  induction n generalizing p with
  | zero =>
    intro c s c' s' h
    cases h
  | succ n ih =>
    intro c s c' s' h
    exact next_after_of_advances ih c h (.inl rfl)

theorem current_of_next (h : (machineWith keeper n p).next c s = some ((c', r), s')) (hr : r = .ok true) :
    ∃ i, c'.current = some i := by
  subst hr
  exact isSome_iff_exists.mp (advances_machineWith keeper n p h).current

/-- What a pull leaves behind. -/
theorem Cursor.Tidy.next (hc : c.Tidy) (h : (machineWith keeper n p).next c s = some ((c', r), s')) :
    c'.After c.position r := by
  cases n with
  | zero => cases h
  | succ n => exact next_after_of_advances (advances_machineWith keeper n) c h (.inr hc)

end

/-! ## What a cache finds -/

/-- What a pull of the source leaves in its cache. -/
def Cache.drawing (cache : Cache) (y : Cursor) : Except Error Bool → Cache
  | .ok true => { cache with source := some y, items := cache.items ++ y.current.toList }
  | .ok false => { cache with source := none }
  | .error e => { cache with source := none, error := some e }

namespace Calls

variable {M : Calls} {cache : Cache} {x y : Cursor} {item : Item} {i fuel : Nat} {s s' : Store}

theorem fetch_of_known (hi : cache.items[i]? = some item) (hfuel : 1 ≤ fuel) :
    M.fetch i fuel cache s = some ((cache, .ok (some item)), s) := by
  obtain ⟨fuel, rfl⟩ := Nat.exists_eq_add_of_le' hfuel
  rw [fetch, hi]
  rfl

theorem fetch_of_used (hi : i = cache.items.size) (hsource : cache.source = none) (hfuel : 1 ≤ fuel) :
    M.fetch i fuel cache s = some ((cache, match cache.error with
      | some e => .error e
      | none => .ok none), s) := by
  obtain ⟨fuel, rfl⟩ := Nat.exists_eq_add_of_le' hfuel
  rw [fetch, Array.getElem?_eq_none (Nat.le_of_eq hi.symm), hsource]
  cases cache.error <;> rfl

theorem fetch_of_pull (hi : i = cache.items.size) (hsource : cache.source = some x)
    (herror : cache.error = none) (hpull : M.next x s = some ((y, r), s'))
    (hcurrent : r = .ok true → y.current.isSome = true) (hfuel : 2 ≤ fuel) : M.fetch i fuel cache s =
      some ((cache.drawing y r, r.map fun more => if more then y.current else none), s') := by
  obtain ⟨source, items, error⟩ := cache
  obtain rfl : source = some x := hsource
  obtain rfl : error = none := herror
  obtain ⟨fuel, rfl⟩ := Nat.exists_eq_add_of_le' hfuel
  rw [fetch, Array.getElem?_eq_none (Nat.le_of_eq hi.symm)]
  refine (Run.bind_of_some hpull).trans ?_
  match r with
  | .ok true =>
    obtain ⟨item, hy⟩ := isSome_iff_exists.mp (hcurrent rfl)
    have hfound : (Cache.drawing ⟨some x, items, none⟩ y (.ok true)).items[i]? = some item := by
      simp [Cache.drawing, hy, hi]
    refine (fetch_of_known hfound (Nat.le_add_left 1 fuel)).trans ?_
    rw [← hy]
    rfl
  | .ok false => exact fetch_of_used hi rfl (Nat.le_add_left 1 fuel)
  | .error e => rfl

end Calls

end XPath
