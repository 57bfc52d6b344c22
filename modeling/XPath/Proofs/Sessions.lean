import XPath.Eval.Session
import XPath.Proofs.Refinement
import XPath.Proofs.Replicas

/-!
# Cursors of a session and their copies

The cursor of a query is pulled and copied in any order, and so are its copies. Each of them delivers what
the cursor would have delivered if no copy had been made: `Handle` relates a cursor of the session to the
one that a run without copies has after as many pulls. That run is followed in environments, at the depth
at which it is known to get so far.
-/

namespace XPath

open List Option Array

/-! ## Uses of a session -/

namespace Session

inductive Use where
  | pull (i : Nat)
  | copy (i : Nat)

def use (s : Session) : Use → Option Session
  | .pull i => (s.next i).map (·.2)
  | .copy i => s.clone i

def uses (s : Session) : List Use → Option Session
  | [] => some s
  | u :: us => (s.use u).bind (·.uses us)

/-- What can be seen of a cursor: its current item and position. -/
def view (s : Session) (i : Nat) : Option (Option Item × Nat) :=
  (s.cursor? i).map fun c => (c.current, c.position)

/-- How the next pull of a cursor ends: with an item, at the end or with an error. -/
def outcome (s : Session) (i : Nat) : Option (Except Error Bool) :=
  (s.next i).map (·.1)

/-- How many pulls lead to each cursor, those made before it was copied included. -/
def lineage (counts : List Nat) : List Use → Option (List Nat)
  | [] => some counts
  | .pull i :: us => (counts[i]?).bind fun k => lineage (counts.set i (k + 1)) us
  | .copy i :: us => (counts[i]?).bind fun k => lineage (counts ++ [k]) us

end Session

/-! ## A run without copies -/

def Calls.course (m : Calls) (σ : Slots) (c : Cursor) : Nat → Option Cursor
  | 0 => some c
  | k + 1 => (m.course σ c k).bind fun c => (m.next c (.ofSlots σ)).map (·.1.1)

theorem Calls.course_succ (m : Calls) (σ : Slots) (c : Cursor) (k : Nat) :
    m.course σ c (k + 1) = (m.next c (.ofSlots σ)).bind fun r => m.course σ r.1.1 k := by
  induction k with
  | zero =>
    change (m.next c (.ofSlots σ)).map (·.1.1) = _
    cases m.next c (.ofSlots σ) <;> rfl
  | succ k ih =>
    rw [course, ih]
    cases m.next c (.ofSlots σ) <;> rfl

theorem Calls.exists_course_of_le {m : Calls}
    (hx : m.course σ c n = some x) (hk : k ≤ n) : ∃ y, m.course σ c k = some y := by
  induction n generalizing x with
  | zero =>
    obtain rfl := Nat.le_zero.mp hk
    exact ⟨x, hx⟩
  | succ n ih =>
    rcases Nat.le_succ_iff.mp hk with hk | rfl
    · obtain ⟨y, hy, -⟩ := bind_eq_some_iff.mp hx
      exact ih hy hk
    · exact ⟨x, hx⟩

theorem Calls.exists_course_size (m : Calls) (σ : Slots) (c : Cursor) (n : Nat) :
    ∃ size, ∀ k ≤ n, ∀ x, m.course σ c k = some x → sizeOf x ≤ size := by
  induction n with
  | zero =>
    refine ⟨sizeOf c, fun k hk x hx => ?_⟩
    obtain rfl := Nat.le_zero.mp hk
    cases hx
    exact .refl
  | succ n ih =>
    obtain ⟨size, hsize⟩ := ih
    refine ⟨size + ((m.course σ c (n + 1)).map sizeOf).getD 0, fun k hk x hx => ?_⟩
    rcases Nat.le_succ_iff.mp hk with hk | rfl
    · exact Nat.le_add_right_of_le (hsize k hk x hx)
    · rw [hx]
      exact Nat.le_add_left _ _

/-! ## Cursors of the session -/

section

variable {p p' : Program} {Fit : FunctionEntry → Prop} {N F k : Nat} {x₀ h : Cursor} {s : Store}

/-- A cursor that stands alone, as the cursor of a session does: nothing around it matters. -/
abbrev Alone (p : Program) (Fit : FunctionEntry → Prop) : Cursor → Cursor → Prop :=
  Sim p Fit anyOrigin (some (.ofSize 0)) none 0 0 (.ofSize 0)

/-- A cursor of a session with slots, where a run without copies that starts with `x₀` is after `k`
pulls. -/
structure Handle (p : Program) (Fit : FunctionEntry → Prop) (N : Nat) (x₀ : Cursor) (k : Nat)
    (h x d : Cursor) : Prop where
  reached : (lexicalMachine N p).course (.ofSize 0) x₀ k = some x
  alone : Alone p Fit h d
  copies : StandsFor p N (.ofSize 0) (.ofSize 0) x d

theorem Handle.view (hh : Handle p Fit N x₀ k h x d) : h.current = x.current ∧ h.position = x.position :=
  ⟨hh.alone.current_eq.trans hh.copies.current_eq.symm,
    hh.alone.position_eq.trans hh.copies.position_eq.symm⟩

theorem Sim.alone (hsim : Sim p Fit anyOrigin (some σ) none 0 0 env h d) :
    Sim p Fit anyOrigin (some (.ofSize 0)) none 0 0 env h d := by
  refine hsim.mono (fun _ _ _ _ _ h => h) (.slots ?_) .refl .refl
  intro i _ hi
  exact absurd hi (Nat.not_lt_zero i)

theorem Alone.next (hFit : ∀ f, Fit f → f.KeepsReply) (halone : Alone p Fit h d) (caches : Array Cache) :
    Related False (fun y _ z _ => y.2 = z.2 ∧ Alone p Fit y.1 z.1)
      ((machine F p').next h ⟨.ofSize 0, caches, none⟩)
      ((lexicalMachine F p).next d (.ofSlots (.ofSize 0))) := by
  have hambient : Ambient p p' none 0 (.ofSize 0) (.ofSize 0) := nofun
  have hnext := (inStep hFit F).next (s := ⟨.ofSize 0, caches, none⟩) (t := .ofSlots (.ofSize 0))
    (traced_anyOrigin _ p) hambient rfl halone
  rw [Watches.slotMachine_idle, Watches.scopeMachine_idle] at hnext
  refine hnext.mono ?_
  intro y s' z t' hyz
  exact ⟨hyz.outcome, hyz.rel.1.alone⟩

theorem Alone.clone (hFit : ∀ f, Fit f → f.KeepsReply) (halone : Alone p Fit h d) (caches : Array Cache) :
    Related False (fun y _ z _ => Alone p Fit y z)
      ((machine F p').clone h ⟨.ofSize 0, caches, none⟩)
      ((lexicalMachine F p).clone d (.ofSlots (.ofSize 0))) := by
  have hambient : Ambient p p' none 0 (.ofSize 0) (.ofSize 0) := nofun
  have hclone := (inStep hFit F).clone (s := ⟨.ofSize 0, caches, none⟩) (t := .ofSlots (.ofSize 0))
    hambient rfl halone.dormant
  rw [Watches.slotMachine_idle, Watches.scopeMachine_idle] at hclone
  refine hclone.mono ?_
  intro y s' z t' hyz
  exact hyz.1 _ _ _ _ _

/-- A pull of the cursor is the next pull of the run without copies. -/
theorem Handle.next (hp : p.Pure) (hFit : ∀ f, Fit f → f.KeepsReply) (hF : N ≤ F) (hh : Handle p Fit N x₀ k h x d)
    (hpull : (lexicalMachine N p).next x (.ofSlots (.ofSize 0)) = some ((x', r), s')) (caches : Array Cache) :
    ∃ h' d' t, (machine F p').next h ⟨.ofSize 0, caches, none⟩ = some ((h', r), t) ∧
      Handle p Fit N x₀ (k + 1) h' x' d' := by
  obtain ⟨d', t, hright, hcopies, -, -⟩ :=
    hh.copies.next hp .refl hF (t := .ofSlots (.ofSize 0)) rfl rfl hpull
  obtain ⟨⟨h', r'⟩, t', hleft, hr, halone⟩ := (hh.alone.next hFit caches).of_some_right hright
  obtain rfl : r' = r := hr
  have hreached : (lexicalMachine N p).course (.ofSize 0) x₀ (k + 1) = some x' := by
    rw [Calls.course, hh.reached, bind_some, hpull]
    rfl
  exact ⟨h', d', t', hleft, hreached, halone, hcopies⟩

theorem Handle.clone (hp : p.Pure) (hFit : ∀ f, Fit f → f.KeepsReply)
    (hF : N + sizeOf x ≤ F) (hh : Handle p Fit N x₀ k h x d) (caches : Array Cache) :
    ∃ h' d' t, (machine F p').clone h ⟨.ofSize 0, caches, none⟩ = some (h', t) ∧
      Handle p Fit N x₀ k h' x d' := by
  obtain ⟨d', t, hright, -, hcopies⟩ := hh.copies.clone hp hF (t := .ofSlots (.ofSize 0)) rfl
  obtain ⟨h', t', hleft, halone⟩ := (hh.alone.clone hFit caches).of_some_right hright
  exact ⟨h', d', t', hleft, hh.reached, halone, hcopies _⟩

end

/-! ## Sessions -/

namespace Session

variable {s s' : Session} {i k n : Nat} {h h' : Cursor}

theorem next_of_pull (hi : s.cursors[i]? = some h)
    (hpull : (machine s.fuel (.empty s.static)).next h ⟨.ofSize 0, s.caches, none⟩ =
      some ((h', r), t)) :
    s.next i = some (r, { s with caches := t.caches, cursors := s.cursors.setIfInBounds i h' }) := by
  unfold next cursor? perform
  rw [hi]
  change ((((machine s.fuel (.empty s.static)).next h) ⟨.ofSize 0, s.caches, none⟩).map _).bind _ = _
  rw [hpull]
  rfl

theorem pull_of_next (hi : s.cursors[i]? = some h) (hnext : s.next i = some (r, s')) :
    ∃ h' t, (machine s.fuel (.empty s.static)).next h ⟨.ofSize 0, s.caches, none⟩ = some ((h', r), t) ∧
      s' = { s with caches := t.caches, cursors := s.cursors.setIfInBounds i h' } := by
  cases hpull : (machine s.fuel (.empty s.static)).next h ⟨.ofSize 0, s.caches, none⟩ with
  | none =>
    unfold next cursor? perform at hnext
    rw [hi] at hnext
    change ((((machine s.fuel (.empty s.static)).next h) ⟨.ofSize 0, s.caches, none⟩).map _).bind _ = _
      at hnext
    rw [hpull] at hnext
    cases hnext
  | some y =>
    obtain ⟨⟨h', r'⟩, t⟩ := y
    rw [next_of_pull hi hpull] at hnext
    cases hnext
    exact ⟨h', t, rfl, rfl⟩

theorem clone_of_copy (hi : s.cursors[i]? = some h)
    (hcopy : (machine s.fuel (.empty s.static)).clone h ⟨.ofSize 0, s.caches, none⟩ = some (h', t)) :
    s.clone i = some { s with caches := t.caches, cursors := s.cursors.push h' } := by
  unfold clone cursor? perform
  rw [hi]
  change ((((machine s.fuel (.empty s.static)).clone h) ⟨.ofSize 0, s.caches, none⟩).map _).bind _ = _
  rw [hcopy]
  rfl

theorem openSource_expr (s : Session) (e : Expr) : s.openSource (.expr e) = match compile s.static e with
      | .error err => some (.error err)
      | .ok q => (q.stream s.fuel s.dynamic).map fun r =>
        r.map fun c => { s with cursors := s.cursors.push c } := by
  unfold openSource build ofQuery
  cases compile s.static e with
  | error err => rfl
  | ok q =>
    dsimp only
    change Option.map _ ((q.stream s.fuel s.dynamic).bind _) = _
    rcases q.stream s.fuel s.dynamic with _ | _ | _
    · rfl
    · rfl
    · rfl

end Session

/-! ## Uses in any order -/

namespace Session

theorem le_of_lineage : ∀ {counts counts' : List Nat}, lineage counts us = some counts' →
    ∀ (i k : Nat), counts[i]? = some k → ∃ k', counts'[i]? = some k' ∧ k ≤ k' := by
  induction us with
  | nil =>
    intro counts counts' h i k hi
    cases h
    exact ⟨k, hi, .refl⟩
  | cons u us ih =>
    intro counts counts' h i k hi
    cases u with
    | pull j =>
      obtain ⟨l, hj, h⟩ := bind_eq_some_iff.mp h
      by_cases hij : i = j
      · subst hij
        cases hi.symm.trans hj
        have hlt : i < counts.length := (List.getElem?_eq_some_iff.mp hi).1
        obtain ⟨k', hk', hle⟩ := ih h i (k + 1) (by simp [hlt])
        exact ⟨k', hk', Nat.le_of_succ_le hle⟩
      · exact ih h i k (by rwa [getElem?_set_ne (Ne.symm hij)])
    | copy j =>
      obtain ⟨l, hj, h⟩ := bind_eq_some_iff.mp h
      have hlt : i < counts.length := (List.getElem?_eq_some_iff.mp hi).1
      exact ih h i k (by rwa [List.getElem?_append_left hlt])

/-- Every cursor of the session is where as many pulls lead as its lineage has. -/
structure Follows (s : Session) (p : Program) (Fit : FunctionEntry → Prop) (N : Nat) (x₀ : Cursor)
    (counts : List Nat) : Prop where
  size : s.cursors.size = counts.length
  handles : ∀ (i : Nat) h k, s.cursors[i]? = some h → counts[i]? = some k →
    ∃ x d, Handle p Fit N x₀ k h x d

namespace Follows

variable {p : Program} {Fit : FunctionEntry → Prop} {N n i k : Nat} {x₀ : Cursor} {counts : List Nat}
  {s : Session}

section

variable (hs : s.Follows p Fit N x₀ counts)

include hs

theorem exists_handle (hi : counts[i]? = some k) : ∃ h x d, s.cursors[i]? = some h ∧ Handle p Fit N x₀ k h x d := by
  have hlt : i < s.cursors.size := hs.size ▸ (List.getElem?_eq_some_iff.mp hi).1
  obtain ⟨x, d, hh⟩ := hs.handles i _ k (getElem?_eq_getElem hlt) hi
  exact ⟨s.cursors[i], x, d, getElem?_eq_getElem hlt, hh⟩

theorem next (hp : p.Pure) (hFit : ∀ f, Fit f → f.KeepsReply) (hF : N ≤ s.fuel) (hi : counts[i]? = some k)
    (hx : (lexicalMachine N p).course (.ofSize 0) x₀ k = some x)
    (hpull : (lexicalMachine N p).next x (.ofSlots (.ofSize 0)) = some ((x', r), t)) :
    ∃ s', s.next i = some (r, s') ∧ s'.fuel = s.fuel ∧ s'.Follows p Fit N x₀ (counts.set i (k + 1)) := by
  obtain ⟨h, y, d, hcursor, hh⟩ := hs.exists_handle hi
  cases hh.reached.symm.trans hx
  obtain ⟨h', d', t', hpull', hh'⟩ := hh.next hp hFit hF hpull s.caches
  refine ⟨_, next_of_pull hcursor hpull', rfl, ?_, ?_⟩
  · simp [hs.size]
  · intro j g l hj hl
    have hlt : i < s.cursors.size := (Array.getElem?_eq_some_iff.mp hcursor).1
    by_cases hij : i = j
    · subst hij
      have hlt' : i < counts.length := hs.size ▸ hlt
      simp only [getElem?_setIfInBounds_self, hlt, if_true, some.injEq] at hj
      simp only [List.getElem?_set_self hlt', Option.some.injEq] at hl
      subst hj hl
      exact ⟨x', d', hh'⟩
    · rw [getElem?_setIfInBounds_ne hij] at hj
      rw [getElem?_set_ne hij] at hl
      exact hs.handles j g l hj hl

theorem clone (hp : p.Pure) (hFit : ∀ f, Fit f → f.KeepsReply) (hi : counts[i]? = some k)
    (hsize : ∀ x, (lexicalMachine N p).course (.ofSize 0) x₀ k = some x → N + sizeOf x ≤ s.fuel) :
    ∃ s', s.clone i = some s' ∧ s'.fuel = s.fuel ∧ s'.Follows p Fit N x₀ (counts ++ [k]) := by
  obtain ⟨h, x, d, hcursor, hh⟩ := hs.exists_handle hi
  obtain ⟨h', d', t', hcopy, hh'⟩ := hh.clone hp hFit (hsize x hh.reached) s.caches
  refine ⟨_, clone_of_copy hcursor hcopy, rfl, ?_, ?_⟩
  · simp [hs.size]
  · intro j g l hj hl
    rw [getElem?_push] at hj
    split at hj
    · next heq =>
      cases hj
      rw [heq, hs.size, List.getElem?_append_right .refl, Nat.sub_self] at hl
      cases hl
      exact ⟨x, d', hh'⟩
    · have hlt : j < counts.length := hs.size ▸ (Array.getElem?_eq_some_iff.mp hj).1
      rw [List.getElem?_append_left hlt] at hl
      exact hs.handles j g l hj hl

end

/-- Uses that lead no cursor beyond `n` pulls. -/
theorem uses (hp : p.Pure) (hFit : ∀ f, Fit f → f.KeepsReply) {x : Cursor}
    (hx : (lexicalMachine N p).course (.ofSize 0) x₀ n = some x) (hF : N ≤ F)
    (hsize : ∀ k ≤ n, ∀ x, (lexicalMachine N p).course (.ofSize 0) x₀ k = some x → N + sizeOf x ≤ F) :
    ∀ {s : Session} {counts counts' : List Nat}, s.Follows p Fit N x₀ counts →
      s.fuel = F → lineage counts us = some counts' → (∀ k ∈ counts', k ≤ n) →
        ∃ s', s.uses us = some s' ∧ s'.fuel = F ∧ s'.Follows p Fit N x₀ counts' := by
  induction us with
  | nil =>
    intro s counts counts' hs hfuel hcounts hle
    cases hcounts
    exact ⟨s, rfl, hfuel, hs⟩
  | cons u us ih =>
    intro s counts counts' hs hfuel hcounts hle
    have hbound : ∀ {counts : List Nat}, lineage counts us = some counts' → ∀ (i k : Nat),
        counts[i]? = some k → k ≤ n := by
      intro counts hcounts i k hi
      obtain ⟨k', hk', hkk'⟩ := le_of_lineage hcounts i k hi
      exact Nat.le_trans hkk' (hle k' (mem_of_getElem? hk'))
    cases u with
    | pull i =>
      obtain ⟨k, hi, hcounts⟩ := bind_eq_some_iff.mp hcounts
      have hlt : i < counts.length := (List.getElem?_eq_some_iff.mp hi).1
      have hk : k + 1 ≤ n := hbound hcounts i (k + 1) (getElem?_set_self hlt)
      obtain ⟨x', hx'⟩ := Calls.exists_course_of_le hx hk
      obtain ⟨y, hy, hpulled⟩ := bind_eq_some_iff.mp hx'
      obtain ⟨⟨⟨_, r⟩, t⟩, hpull, -⟩ := map_eq_some_iff.mp hpulled
      obtain ⟨s', hnext, hfuel', hs'⟩ := hs.next hp hFit (hfuel ▸ hF) hi hy hpull
      obtain ⟨s'', huses, hfinal⟩ := ih hs' (hfuel'.trans hfuel) hcounts hle
      refine ⟨s'', ?_, hfinal⟩
      change ((s.next i).map (·.2)).bind _ = _
      rw [hnext]
      exact huses
    | copy i =>
      obtain ⟨k, hi, hcounts⟩ := bind_eq_some_iff.mp hcounts
      have hlt : i < counts.length := (List.getElem?_eq_some_iff.mp hi).1
      have hk : k ≤ n := hbound hcounts i k (by rwa [List.getElem?_append_left hlt])
      obtain ⟨s', hclone, hfuel', hs'⟩ := hs.clone hp hFit hi (hfuel ▸ hsize k hk)
      obtain ⟨s'', huses, hfinal⟩ := ih hs' (hfuel'.trans hfuel) hcounts hle
      refine ⟨s'', ?_, hfinal⟩
      change (s.clone i).bind _ = _
      rw [hclone]
      exact huses

end Follows

theorem lineage_pulls (k l : Nat) : lineage [l] (replicate k (.pull 0)) = some [l + k] := by
  induction k generalizing l with
  | zero => rfl
  | succ k ih =>
    rw [List.replicate_succ]
    change lineage [l + 1] _ = _
    rw [ih, Nat.add_assoc, Nat.add_comm 1 k]

/-- The pulls that a session with one cursor makes, followed in environments. -/
theorem exists_course (hFit : ∀ f, Fit f → f.KeepsReply) :
    ∀ {s : Session} {h y : Cursor}, s.fuel = N → s.cursors[0]? = some h →
      Alone p Fit h y → (s.uses (replicate n (.pull 0))).isSome = true →
        ∃ x, (lexicalMachine N p).course (.ofSize 0) y n = some x := by
  induction n with
  | zero => exact fun _ _ _ _ => ⟨_, rfl⟩
  | succ n ih =>
    intro s h y hfuel hh halone hrun
    obtain ⟨final, hfinal⟩ := isSome_iff_exists.mp hrun
    obtain ⟨_, huse, hrest⟩ := bind_eq_some_iff.mp hfinal
    obtain ⟨⟨r, s'⟩, hnext, rfl⟩ := map_eq_some_iff.mp huse
    obtain ⟨h', t, hpull, rfl⟩ := pull_of_next hh hnext
    subst hfuel
    obtain ⟨⟨y', r'⟩, t', hpull', -, halone'⟩ := (halone.next hFit s.caches).of_some hpull
    have hlt : 0 < s.cursors.size := (Array.getElem?_eq_some_iff.mp hh).1
    obtain ⟨x, hx⟩ := @ih { s with caches := t.caches, cursors := s.cursors.setIfInBounds 0 h' } h' y' rfl
      (by simp [hlt]) halone' (isSome_iff_exists.mpr ⟨final, hrest⟩)
    refine ⟨x, ?_⟩
    rw [Calls.course_succ, hpull']
    exact hx

end Session

/-! ## The cursor of a query -/

/-- A query is executed on fresh slots, and its cursor keeps them. -/
theorem Query.stream_eq_some {q : Query} :
    q.stream F dyn = some (.ok h) ↔ ∃ slots c s, q.createSlots dyn.values = .ok slots ∧
      (machine F q.program).execute q.root (.fixed (.single dyn.contextItem)) (.ofSlots slots) =
        some (.ok c, s) ∧ h = .scope q.program s.slots c := by
  unfold stream
  cases q.createSlots dyn.values with
  | error err =>
    constructor
    · intro h
      cases h
    · intro ⟨_, _, _, h, _⟩
      cases h
  | ok slots =>
    constructor
    · intro hstream
      obtain ⟨⟨r, s⟩, hrun, hr⟩ := map_eq_some_iff.mp hstream
      cases r with
      | error err => cases hr
      | ok c =>
        cases hr
        exact ⟨slots, c, s, rfl, hrun, rfl⟩
    · intro ⟨slots', c, s, hslots, hrun, hh⟩
      cases hslots
      rw [hh]
      exact congrArg (Option.map _) hrun

/-- Executing a query on slots and in the environment gives cursors that agree, each in its scope. -/
theorem Compiled.execute_alone (hq : Compiled c q)
    (hf : ∀ f, c.Callable f → f.KeepsReply) (F : Nat) (focus : Snapshot) (slots : Slots) : RelatedEval .strict
      (fun x s y _ => Alone q.program c.Callable (.scope q.program s.slots x)
        (.scope q.program (q.environment slots) y)) (fun _ _ => True)
      ((machine F q.program).execute q.root (.fixed focus))
      ((lexicalMachine F q.program).execute q.root (.fixed focus))
      (.ofSlots slots) (.ofSlots (q.environment slots)) := by
  obtain ⟨top, htop, hplaced⟩ := hq.placed
  have hexternal := hq.external
  obtain rfl := hq.static
  have hagrees := q.agrees_environment hexternal slots
  have hbelow := q.program.scopeBelow_nil
  have hsizes : SizesFor (.fixed focus) fun _ _ => True := nofun
  have hexec := (inStep hf F).execute (s := .ofSlots slots) (t := .ofSlots (q.environment slots))
    (traced_anyOrigin _ q.program) hplaced htop hagrees hbelow rfl (.fixed focus) hsizes trivial
  rw [Watches.slotMachine_idle, Watches.scopeMachine_idle] at hexec
  refine hexec.mono ?_ fun _ _ _ => trivial
  intro x s y t hxy
  exact .scope (hagrees.frame hbelow hxy.2.frame) hbelow (hxy.1 _)

theorem Compiled.pure (hq : Compiled c q) (hf : ∀ f, c.Callable f → f.KeepsReply ∧ f.Grows) : q.program.Pure := by
  have hcallable : ∀ e name f, q.program.form? e = some (.call name (some f)) → c.Callable f := by
    intro e name f hform
    have hfilled : q.program.static.Callable f := hq.filled e _ hform
    rwa [hq.static] at hfilled
  exact ⟨fun e name f hform => (hf f (hcallable e name f hform)).2,
    fun e name f hform => (hf f (hcallable e name f hform)).1⟩

/-- The cursors of a query at a depth where there is one and at larger depths. -/
theorem Compiled.exists_stream {c : StaticContext} (hq : Compiled c q)
    (hf : ∀ f, c.Callable f → f.KeepsReply) (hp : q.program.Pure) (hstream : q.stream N dyn = some (.ok h₀)) :
    ∃ x₀, Alone q.program c.Callable h₀ x₀ ∧ ∀ F ≥ N, ∃ h d, q.stream F dyn = some (.ok h) ∧
      Handle q.program c.Callable N x₀ 0 h x₀ d := by
  obtain ⟨slots, c₀, s₀, hslots, hrun₀, rfl⟩ := Query.stream_eq_some.mp hstream
  have hexec := fun F => hq.execute_alone hf F (.single dyn.contextItem) slots
  obtain ⟨r, t₀, hlexical, hr⟩ := Related.of_some (hexec N) hrun₀
  match r with
  | .ok d₀ =>
  refine ⟨.scope q.program (q.environment slots) d₀, hr.value, ?_⟩
  intro F hF
  have hst : Abreast (.deeper q.program) (some (q.environment slots, q.environment slots)) Eq
    (.ofSlots (q.environment slots)) (.ofSlots (q.environment slots)) := abreast_deeper rfl rfl rfl
  have hfoci : FociFor (.deeper q.program) Eq (some (q.environment slots, q.environment slots)) q.root
    (.fixed (.single dyn.contextItem)) (.fixed (.single dyn.contextItem)) :=
      fun _ => .fixed fun _ _ => trivial
  have hdeeper := (hp.deeper.steady hF).execute (recorded_begun q.program .refl) rfl
    (Envs.level_some rfl) (rfl : q.root = q.root) hfoci _ _ hst
  obtain ⟨r, t, hright, halike⟩ := Related.of_some hdeeper hlexical
  match r with
  | .ok d =>
  obtain ⟨r, s, hleft, halone⟩ := Related.of_some_right (hexec F) hright
  match r with
  | .ok x =>
  refine ⟨.scope q.program s.slots x, .scope q.program (q.environment slots) d, ?_, rfl, halone.value, ?_⟩
  · exact Query.stream_eq_some.mpr ⟨slots, x, s, hslots, hleft, rfl⟩
  · exact .scopeBoth (fun _ _ _ _ _ => trivial) halike.value.1

/-- A cursor of the session shows what the run without copies does. -/
theorem Session.Follows.view {s : Session} (hs : s.Follows p Fit N x₀ counts) (hi : counts[i]? = some k)
    (hx : (lexicalMachine N p).course (.ofSize 0) x₀ k = some x) : s.view i = some (x.current, x.position) := by
  obtain ⟨h, y, d, hcursor, hh⟩ := hs.exists_handle hi
  cases hh.reached.symm.trans hx
  obtain ⟨hcurrent, hposition⟩ := hh.view
  unfold Session.view cursor?
  rw [hcursor, map_some, hcurrent, hposition]

/-- Where an expression can be opened, its cursor is opened at all larger depths, and a run without copies
can be followed in environments as far as it goes. -/
theorem Session.exists_follows (hf : ∀ f, c.Callable f → f.KeepsReply ∧ f.Grows)
    (hopen : (Session.new N c dyn).openSource (.expr e) = some (.ok s₀))
    (hrun : (s₀.uses (replicate n (.pull 0))).isSome = true) : ∃ (p : Program) (x₀ x : Cursor), p.Pure ∧
      (lexicalMachine N p).course (.ofSize 0) x₀ n = some x ∧
      ∀ F ≥ N, ∃ s, (Session.new F c dyn).openSource (.expr e) = some (.ok s) ∧ s.fuel = F ∧
        s.Follows p c.Callable N x₀ [0] := by
  have hopens : ∀ F, (Session.new F c dyn).openSource (.expr e) = _ :=
    fun F => openSource_expr (Session.new F c dyn) e
  simp only [Session.new] at hopens hopen
  cases hq : compile c e with
  | error err =>
    rw [hopens, hq] at hopen
    cases hopen
  | ok q =>
    simp only [hq] at hopens
    rw [hopens] at hopen
    obtain ⟨r, hstream, hr⟩ := map_eq_some_iff.mp hopen
    obtain ⟨h₀, rfl⟩ : ∃ h₀, r = .ok h₀ := by
      cases r with
      | error err => cases hr
      | ok h₀ => exact ⟨h₀, rfl⟩
    cases hr
    have hreply : ∀ f, c.Callable f → f.KeepsReply := fun f hcall => (hf f hcall).1
    have hcompiled := compiled_of_compile hq
    have hp := hcompiled.pure hf
    obtain ⟨x₀, halone, hstreams⟩ := hcompiled.exists_stream hreply hp hstream
    obtain ⟨x, hx⟩ := exists_course hreply rfl rfl halone hrun
    refine ⟨q.program, x₀, x, hp, hx, fun F hF => ?_⟩
    obtain ⟨h, d, hstreamF, hh⟩ := hstreams F hF
    refine ⟨⟨c, dyn, F, #[], #[h]⟩, ?_, rfl, rfl, ?_⟩
    · simp only [Session.new]
      rw [hopens, hstreamF]
      rfl
    · intro i g k hi hk
      obtain rfl : i = 0 := by
        have := (Array.getElem?_eq_some_iff.mp hi).1
        simpa using this
      cases hi
      cases hk
      exact ⟨x₀, d, hh⟩

/-- Copies are faithful and independent. The cursor of an expression and copies of it, copies of copies
included, are pulled in any order. Each of them shows the item and the position that the cursor has after as
many pulls in a session without copies, and the next pull ends the same, be it with an item, at the end or
with an error. A new copy shows what the cursor shows. It takes a depth that suffices for all of this; it
depends on how far the cursor is read, not on what is copied when. -/
theorem Session.copies_deliver_same {c : StaticContext} {e : Expr} {dyn : DynamicContext} {N n : Nat}
    {s₀ : Session} (hf : ∀ f, c.Callable f → f.KeepsReply ∧ f.Grows)
    (hopen : (Session.new N c dyn).openSource (.expr e) = some (.ok s₀))
    (hrun : (s₀.uses (replicate n (.pull 0))).isSome = true) :
    ∃ depth, ∀ F ≥ depth, ∃ s, (Session.new F c dyn).openSource (.expr e) = some (.ok s) ∧
      ∀ us counts, lineage [0] us = some counts → (∀ k ∈ counts, k ≤ n) →
        ∃ s', s.uses us = some s' ∧ s'.cursors.size = counts.length ∧
          ∀ (i k : Nat), counts[i]? = some k →
            (∃ alone, s.uses (replicate k (.pull 0)) = some alone ∧ s'.view i = alone.view 0 ∧
              (k < n → ∃ r, s'.outcome i = some r ∧ alone.outcome 0 = some r)) ∧
            ∃ s'', s'.clone i = some s'' ∧ s''.view s'.cursors.size = s'.view i := by
  obtain ⟨p, x₀, x, hp, hx, hopens⟩ := exists_follows hf hopen hrun
  have hreply : ∀ f, c.Callable f → f.KeepsReply := fun f hcall => (hf f hcall).1
  obtain ⟨size, hsize⟩ := (lexicalMachine N p).exists_course_size (.ofSize 0) x₀ n
  refine ⟨N + size, fun F hF => ?_⟩
  have hN : N ≤ F := by omega
  have hfuels : ∀ k ≤ n, ∀ x, (lexicalMachine N p).course (.ofSize 0) x₀ k = some x →
      N + sizeOf x ≤ F := by
    intro k hk x hx
    have := hsize k hk x hx
    omega
  obtain ⟨s, hopenF, hfuel, hs⟩ := hopens F hN
  refine ⟨s, hopenF, ?_⟩
  intro us counts hcounts hle
  obtain ⟨s', huses, hfuel', hs'⟩ := hs.uses hp hreply hx hN hfuels hfuel hcounts hle
  refine ⟨s', huses, hs'.size, ?_⟩
  intro i k hi
  have hk : k ≤ n := hle k (mem_of_getElem? hi)
  obtain ⟨y, hy⟩ := Calls.exists_course_of_le hx hk
  have hkpulls : lineage [0] (replicate k (.pull 0)) = some [k] := by
    rw [lineage_pulls, Nat.zero_add]
  obtain ⟨alone, hpulls, hfuelAlone, halone⟩ := hs.uses hp hreply hx hN hfuels hfuel hkpulls
    (by simpa using hk)
  refine ⟨⟨alone, hpulls, ?_, ?_⟩, ?_⟩
  · rw [hs'.view hi hy, halone.view rfl hy]
  · intro hlt
    obtain ⟨y', hy'⟩ := Calls.exists_course_of_le hx hlt
    rw [Calls.course, hy, bind_some] at hy'
    obtain ⟨⟨⟨_, r⟩, t⟩, hpull, -⟩ := map_eq_some_iff.mp hy'
    obtain ⟨_, hnext, -⟩ := hs'.next hp hreply (hfuel' ▸ hN) hi hy hpull
    obtain ⟨_, hnextAlone, -⟩ := halone.next hp hreply (hfuelAlone ▸ hN) (i := 0) rfl hy hpull
    refine ⟨r, ?_, ?_⟩
    · rw [outcome, hnext, map_some]
    · rw [outcome, hnextAlone, map_some]
  · obtain ⟨s'', hclone, -, hs''⟩ := hs'.clone hp hreply hi (hfuel' ▸ hfuels k hk)
    refine ⟨s'', hclone, ?_⟩
    have hlast : (counts ++ [k])[s'.cursors.size]? = some k := by
      rw [hs'.size, List.getElem?_append_right .refl, Nat.sub_self]
      rfl
    rw [hs''.view hlast hy, hs'.view hi hy]

/-- `for $x in (1, 2) return ($x, $x)` -/
def repeatingLoop : Expr :=
  let number (i : Int64) : Expr := .literal (.integer i)
  let x : Expr := .variable (.unprefixed "x")
  .forEach [.mk (.unprefixed "x") (.sequence [number 1, number 2])] (.sequence [x, x])

/-- A copy is made in the middle of the first item's body and a copy of it in that of the second. -/
theorem Session.copies_repeatingLoop :
    (∀ f, StaticContext.standard.Callable f → f.KeepsReply ∧ f.Grows) ∧
      ∃ s₀, (Session.new 40 .standard .empty).openSource (.expr repeatingLoop) = some (.ok s₀) ∧
        (s₀.uses (replicate 5 (.pull 0))).isSome = true ∧
        ∃ depth, ∀ F ≥ depth, ∃ s,
          (Session.new F .standard .empty).openSource (.expr repeatingLoop) = some (.ok s) ∧
          ∃ s', s.uses [.pull 0, .copy 0, .pull 0, .pull 1, .pull 1, .copy 1, .pull 2] = some s' ∧
            ∃ alone, s.uses (replicate 4 (.pull 0)) = some alone ∧ s'.view 2 = alone.view 0 ∧
              ∃ r, s'.outcome 2 = some r ∧ alone.outcome 0 = some r := by
  have hfunctions : ∀ f, StaticContext.standard.Callable f → f.KeepsReply ∧ f.Grows :=
    fun _ => CoreFunction.standard_keepsReply_grows
  have hrun : (((Session.new 40 .standard .empty).openSource (.expr repeatingLoop)).any
      (·.toOption.any fun s => (s.uses (replicate 5 (.pull 0))).isSome)) = true := by decide +kernel
  obtain ⟨s₀, hopen, hrun⟩ := exists_some_ok_of_check hrun
  refine ⟨hfunctions, s₀, hopen, hrun, ?_⟩
  obtain ⟨depth, hdepth⟩ := copies_deliver_same hfunctions hopen hrun
  refine ⟨depth, fun F hF => ?_⟩
  obtain ⟨s, hs, hall⟩ := hdepth F hF
  obtain ⟨s', huses, -, hviews⟩ := hall
    [.pull 0, .copy 0, .pull 0, .pull 1, .pull 1, .copy 1, .pull 2] [2, 3, 4] rfl (by decide)
  obtain ⟨⟨alone, hpulls, hview, houtcome⟩, -⟩ := hviews 2 4 rfl
  exact ⟨s, hs, s', huses, alone, hpulls, hview, houtcome (by decide)⟩

end XPath
