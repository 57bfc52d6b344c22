import XPath.Proofs.Filters
import XPath.Proofs.Primed

/-!
# Groups

The positions of what a cursor delivers begin again with every group. So the items read from a computed
cursor fall into groups that are counted from one (`exists_groups`). A filter works group by group: a
predicate is asked about every item with its index in the group and the size of the group, and what it
leaves of a group is counted from one again (`letThrough_inGroups_iff`); a position picks one item of every
group, or of a sequence that is one group, from which nothing is pulled after that item.
-/

namespace XPath

open List

variable {pos lo hi fuel inputPos : Nat} {Fit : FunctionEntry → Prop} {scope : List Binding} {M : Calls}
  {perGroup done : Bool} {before : List Item} {i : Item}

/-- The items of groups one after the other, each group counted from one. -/
def inGroups (groups : List (List Item)) : List (Item × Nat) :=
  groups.flatMap (·.zipIdx 1)

@[simp]
theorem inGroups_nil : inGroups [] = [] := rfl

@[simp]
theorem inGroups_cons (g : List Item) (groups : List (List Item)) :
    inGroups (g :: groups) = g.zipIdx 1 ++ inGroups groups := rfl

/-! ## Positions -/

/-- Every position is one more than the one before, or one. -/
def Counted : Nat → List (Item × Nat) → Prop
  | _, [] => True
  | pos, (_, k) :: rest => (k = pos + 1 ∨ k = 1) ∧ Counted k rest

/-- What is left of the group at hand, and the groups after it. -/
theorem Counted.exists_rest (h : Counted pos out) :
    ∃ (g : List Item) (groups : List (List Item)), (∀ g ∈ groups, g ≠ []) ∧
      out = g.zipIdx (pos + 1) ++ inGroups groups := by
  induction out generalizing pos with
  | nil => exact ⟨[], [], nofun, rfl⟩
  | cons x out ih =>
    obtain ⟨i, k⟩ := x
    obtain ⟨hk, hout⟩ := h
    obtain ⟨g, groups, hgroups, rfl⟩ := ih hout
    rcases hk with rfl | rfl
    · exact ⟨i :: g, groups, hgroups, rfl⟩
    · refine ⟨[], (i :: g) :: groups, ?_, rfl⟩
      exact forall_mem_cons.mpr ⟨cons_ne_nil i g, hgroups⟩

theorem Counted.exists_groups (h : Counted 0 out) :
    ∃ groups : List (List Item), (∀ g ∈ groups, g ≠ []) ∧ out = inGroups groups := by
  obtain ⟨g, groups, hgroups, rfl⟩ := h.exists_rest
  cases g with
  | nil => exact ⟨groups, hgroups, rfl⟩
  | cons i g => exact ⟨(i :: g) :: groups, forall_mem_cons.mpr ⟨cons_ne_nil i g, hgroups⟩, rfl⟩

section

variable {keeper : Program → Variables} {m : Calls} {n : Nat} {p : Program} {c c' : Cursor} {s s' : Store}
  {out : List (Item × Nat)} {r : Except Error Unit}

theorem Calls.Reads.counted (hc : c.Tidy) (h : (machineWith keeper n p).Reads c s out r) : Counted c.position out := by
  unfold Calls.Reads at h
  generalize hx : (machineWith keeper n p).next c s = x at h
  induction h generalizing c s with
  | ended | failed => trivial
  | item hcurrent rest ih =>
    have hafter := hc.next hx
    exact ⟨hafter.position, ih hafter.tidy rfl⟩

/-- What is read from a computed cursor falls into groups. -/
theorem Cursor.Primed.exists_groups (hc : c.Primed p Fit scope lo hi) (h : (machineWith keeper n p).Reads c s out r) :
    ∃ groups : List (List Item), (∀ g ∈ groups, g ≠ []) ∧ out = inGroups groups := by
  have hcounted := h.counted hc.tidy
  rw [hc.position] at hcounted
  exact hcounted.exists_groups

end

/-! ## Picking by position -/

/-- The item of a group at a position, counted from one. -/
def ordinal (g : List Item) : Nat → Option Item
  | 0 => none
  | k + 1 => g[k]?

/-- What is picked of these items, where the item before them stood at the given position and the item of
its group may have been found already. -/
def pickFrom (k inputPos : Nat) (done : Bool) : List (Item × Nat) → List Item
  | [] => []
  | (i, pos) :: rest =>
    if (!(done && !decide (pos ≤ inputPos)) && pos == k) = true then i :: pickFrom k pos true rest
    else pickFrom k pos (done && !decide (pos ≤ inputPos)) rest

theorem pickFrom_zipIdx_of_done : ∀ (g : List Item) (pos : Nat),
      pickFrom k pos true (g.zipIdx (pos + 1) ++ ins) = pickFrom k (pos + g.length) true ins
  | [], pos => rfl
  | i :: g, pos => by
    rw [zipIdx_cons, cons_append, pickFrom, if_neg (by simp)]
    have hdone : (true && !decide (pos + 1 ≤ pos)) = true := by simp
    rw [hdone, pickFrom_zipIdx_of_done g (pos + 1), length_cons]
    congr 1
    omega

theorem pickFrom_zipIdx (hk : 0 < k) : ∀ (g : List Item) (pos : Nat), pos < k →
      pickFrom k pos false (g.zipIdx (pos + 1) ++ ins) =
        (g[k - (pos + 1)]?).toList ++
          pickFrom k (pos + g.length) (g[k - (pos + 1)]?).isSome ins
  | [], pos, hpos => rfl
  | i :: g, pos, hpos => by
    rw [zipIdx_cons, cons_append, pickFrom]
    by_cases hfound : pos + 1 = k
    · rw [if_pos (by simp [hfound]), pickFrom_zipIdx_of_done, hfound, Nat.sub_self]
      simp only [getElem?_cons_zero, Option.toList_some, singleton_append, Option.isSome_some,
        length_cons]
      congr 2
      omega
    · rw [if_neg (by simp [hfound]), Bool.false_and, pickFrom_zipIdx hk g (pos + 1) (by omega)]
      have hindex : k - (pos + 1) = k - (pos + 1 + 1) + 1 := by omega
      rw [hindex, getElem?_cons_succ, length_cons]
      congr 2
      omega

theorem pickFrom_of_forall_ne : ∀ {ins : List (Item × Nat)} (pos : Nat) (done : Bool),
    (∀ x ∈ ins, x.2 ≠ k) → pickFrom k pos done ins = []
  | [], _, _, _ => rfl
  | (i, j) :: ins, pos, done, h => by
    obtain ⟨hj, hins⟩ := forall_mem_cons.mp h
    rw [pickFrom, if_neg (by simp [hj]), pickFrom_of_forall_ne j _ hins]

theorem pos_of_mem_inGroups (h : x ∈ inGroups groups) : x.2 ≠ 0 := by
  obtain ⟨g, -, hx⟩ := mem_flatMap.mp h
  have := (mem_zipIdx hx).1
  omega

/-- One item is picked of every group that has one there. -/
theorem pickFrom_inGroups (k : Nat) (hgroups : ∀ g ∈ groups, g ≠ []) :
    ∀ (pos : Nat) {done : Bool}, 1 ≤ pos ∨ done = false →
      pickFrom k pos done (inGroups groups) = groups.filterMap (ordinal · k) := by
  cases k with
  | zero =>
    intro pos done _
    rw [pickFrom_of_forall_ne pos done fun x hx => pos_of_mem_inGroups hx]
    exact (filterMap_eq_nil_iff.mpr fun _ _ => rfl).symm
  | succ k =>
    induction groups with
    | nil => exact fun _ _ _ => rfl
    | cons g groups ih =>
      obtain ⟨hg, hgroups⟩ := forall_mem_cons.mp hgroups
      intro pos done hpos
      -- the first item of a group is treated as if nothing had come before it
      have hnew : pickFrom (k + 1) pos done (g.zipIdx 1 ++ inGroups groups) =
          pickFrom (k + 1) 0 false (g.zipIdx 1 ++ inGroups groups) := by
        obtain ⟨i, g, rfl⟩ := exists_cons_of_ne_nil hg
        rw [zipIdx_cons, cons_append, pickFrom, pickFrom]
        have hdone : (done && !decide (1 ≤ pos)) = false := by
          rcases hpos with hpos | rfl
          · simp [hpos]
          · rfl
        rw [hdone, Bool.false_and]
      have hlength : 1 ≤ 0 + g.length := by
        have := length_pos_of_ne_nil hg
        omega
      rw [inGroups_cons, hnew, pickFrom_zipIdx (Nat.succ_pos k) g 0 (Nat.succ_pos k),
        ih hgroups _ (.inl hlength), filterMap_cons]
      change (g[k]?).toList ++ _ = _
      cases hk : g[k]? with
      | none =>
        rw [show ordinal g (k + 1) = none from hk]
        rfl
      | some i =>
        rw [show ordinal g (k + 1) = some i from hk]
        rfl

section

variable {keeper : Program → Variables} {m n k : Nat} {p : Program} {c c' input input' : Cursor}
  {s s' : Store} {ins out : List (Item × Nat)} {r : Except Error Unit}

theorem nthNext_of_end (hpull : M.next input s = some ((input', res), s'))
    (hres : res ≠ .ok true) (hgo : (done && !perGroup) = false) :
    M.nthNext k perGroup (fuel + 1) input inputPos done pos s =
      some ((.nth k perGroup input' inputPos done pos true, res), s') := by
  unfold Calls.nthNext
  rw [hgo, if_neg Bool.false_ne_true, Run.bind_of_some hpull]
  obtain err | _ | _ := res
  · rfl
  · rfl
  · exact absurd rfl hres

theorem nthNext_of_item (hpull : M.next input s = some ((input', .ok true), s'))
    (hgo : (done && !perGroup) = false) : M.nthNext k perGroup (fuel + 1) input inputPos done pos s =
      if (!(done && !decide (input'.position ≤ inputPos)) && input'.position == k) = true then
        some ((.nth k perGroup input' input'.position true 1 false, .ok true), s')
      else M.nthNext k perGroup fuel input' input'.position
        (done && !decide (input'.position ≤ inputPos))
        (if input'.position ≤ inputPos then 0 else pos) s' := by
  rw [Calls.nthNext, hgo, if_neg Bool.false_ne_true, Run.bind_of_some hpull]
  dsimp only
  split <;> rfl

theorem reading_nthNext (hM : ∀ {input : Cursor} {s : Store} {inputPos pos : Nat} {done : Bool},
      (machineWith keeper (m + 1) p).next (.nth k true input inputPos done pos false) s =
        M.nthNext k true M.fuel input inputPos done pos s) (h : M.Reads input s ins r)
    (hroom : ins.length < M.fuel) (hfuel : ins.length < fuel) (inputPos pos : Nat) (done : Bool) :
    (machineWith keeper (m + 1) p).Reading (M.nthNext k true fuel input inputPos done pos s)
      ((pickFrom k inputPos done ins).map (·, 1)) r := by
  have hgo : ∀ done : Bool, (done && !true) = false := fun done => Bool.and_false done
  unfold Calls.Reads at h
  generalize hx : M.next input s = x at h
  induction h generalizing input s fuel inputPos pos done with
  | ended | failed =>
    obtain ⟨fuel, rfl⟩ := exists_succ_of_lt hfuel
    rw [nthNext_of_end hx nofun (hgo done)]
    constructor
  | @item input' s' i out r hcurrent rest ih =>
    obtain ⟨fuel, rfl⟩ := Nat.exists_eq_add_of_lt hfuel
    rw [nthNext_of_item hx (hgo done), pickFrom]
    by_cases hfound : (!(done && !decide (input'.position ≤ inputPos)) && input'.position == k) = true
    · rw [if_pos hfound, if_pos hfound]
      refine .item hcurrent ?_
      rw [hM]
      exact ih (Nat.lt_of_succ_lt hroom) (Nat.lt_of_succ_lt hroom) _ _ _ rfl
    · rw [if_neg hfound, if_neg hfound]
      exact ih (Nat.lt_of_succ_lt hroom) (Nat.lt_of_succ_lt_succ hfuel) _ _ _ rfl

/-- A position in a path picks the item there of every group that has one. -/
theorem reads_pick_perGroup {groups : List (List Item)} (hgroups : ∀ g ∈ groups, g ≠ [])
    (h : (machineWith keeper m p).Reads input s (inGroups groups) r) (hroom : (inGroups groups).length + 1 < m) :
    (machineWith keeper (m + 1) p).Reads (.pick k true input) s
      ((groups.filterMap (ordinal · k)).map (·, 1)) r := by
  rw [← pickFrom_inGroups k hgroups 0 (.inr rfl)]
  have hfuel : (inGroups groups).length < (machineWith keeper m p).fuel := by
    rw [fuel_machineWith]
    omega
  exact reading_nthNext (fun {_ _ _ _ _} => rfl) h hfuel hfuel 0 0 false

/-! ## One group -/

def Cursor.OneGroup : Cursor → Prop
  | .concat .. => True
  | .nth _ perGroup _ _ done pos _ => perGroup = false ∧ (done = false → pos = 0)
  | .predicate _ input inputPos _ _ _ _ => input.OneGroup ∧ inputPos = input.position
  | _ => False

theorem Cursor.Flat.oneGroup (h : c.Flat) (hc : c.Primed p Fit scope lo hi) : c.OneGroup := by
  induction h generalizing hi with
  | ofParts parts => trivial
  | pick n input ih => exact ⟨rfl, fun _ => rfl⟩
  | filter e input ih =>
    cases hc with
    | filter nested placed hinput => exact ⟨ih hinput, hinput.position.symm⟩

def Calls.GoesOn (M : Calls) : Prop :=
  ∀ {c : Cursor} {s : Store} {c' : Cursor} {s' : Store}, c.OneGroup →
    M.next c s = some ((c', .ok true), s') → c'.OneGroup ∧ c'.position = c.position + 1

theorem concatNext_goesOn (h : M.concatNext pos spent rest s = some ((c', .ok true), s')) :
    c'.OneGroup ∧ c'.position = pos + 1 := by
  induction rest generalizing spent s with
  | nil => cases h
  | cons c rest ih =>
    obtain ⟨⟨c₁, r₁⟩, s₁, hpull, h⟩ := Run.of_bind h
    match r₁ with
    | .ok true =>
      cases h
      exact ⟨trivial, rfl⟩
    | .ok false => exact ih h
    | .error e => cases h

theorem nthNext_goesOn (hpos : done = false → pos = 0)
    (h : M.nthNext k false fuel input inputPos done pos s = some ((c', .ok true), s')) :
    c'.OneGroup ∧ c'.position = pos + 1 := by
  induction fuel generalizing input inputPos done pos s with
  | zero => cases h
  | succ fuel ih =>
    cases done with
    | true => cases h
    | false =>
      obtain rfl := hpos rfl
      obtain ⟨⟨c₁, r₁⟩, s₁, hpull, h'⟩ := Run.of_bind h
      match r₁ with
      | .ok true =>
        rw [nthNext_of_item hpull rfl, Bool.false_and, ite_self] at h
        split at h
        · cases h
          exact ⟨⟨rfl, nofun⟩, rfl⟩
        · exact ih (fun _ => rfl) h
      | .ok false | .error e => cases h'

theorem predicateNext_goesOn (hM : M.GoesOn) (hinput : input.OneGroup) (hpos : inputPos = input.position)
    (h : M.predicateNext p e fuel input inputPos fixed size pos s = some ((c', .ok true), s')) :
    c'.OneGroup ∧ c'.position = pos + 1 := by
  induction fuel generalizing input inputPos fixed size pos s with
  | zero => cases h
  | succ fuel ih =>
    rw [Calls.predicateNext_succ] at h
    obtain ⟨⟨c₁, r₁⟩, s₁, hpull, h⟩ := Run.of_bind h
    match r₁ with
    | .ok true =>
      obtain ⟨hone, hnext⟩ := hM hinput hpull
      have hgroup : ¬ c₁.position ≤ inputPos := by omega
      obtain ⟨⟨x, fixed', size'⟩, s₂, hverdict, h⟩ := Run.of_bind h
      cases x with
      | error err => cases h
      | ok sel =>
        dsimp only at h
        rw [if_neg hgroup] at h
        split at h
        · cases h
          exact ⟨⟨hone, rfl⟩, rfl⟩
        · exact ih hone rfl h
    | .ok false | .error e => cases h

theorem goesOn_machineWith (keeper : Program → Variables) (n : Nat) (p : Program) :
    (machineWith keeper n p).GoesOn := by
  induction n generalizing p with
  | zero =>
    intro c s c' s' _ h
    cases h
  | succ n ih =>
    intro c s c' s' hc h
    cases c with
    | concat spent rest pos fin =>
      cases fin with
      | true => cases h
      | false => exact concatNext_goesOn h
    | nth k perGroup input inputPos done pos fin =>
      obtain ⟨rfl, hpos⟩ := hc
      cases fin with
      | true => cases h
      | false => exact nthNext_goesOn hpos h
    | predicate e input inputPos fixed size pos fin =>
      cases fin with
      | true => cases h
      | false => exact predicateNext_goesOn (ih p) hc.1 hc.2 h
    | _ => exact hc.elim

/-- Pulling the cursor so many times gives these items. -/
inductive Calls.Takes (M : Calls) : Cursor → Store → List Item → Cursor → Store → Prop
  | nothing {c : Cursor} {s : Store} : Takes M c s [] c s
  | item {c c₁ c' : Cursor} {s s₁ s' : Store} {i : Item} {items : List Item}
      (pull : M.next c s = some ((c₁, .ok true), s₁)) (current : c₁.current = some i)
      (rest : Takes M c₁ s₁ items c' s') : Takes M c s (i :: items) c' s'

/-- The item at a position is found when so many items have been taken. -/
theorem nthNext_of_takes (hM : M.GoesOn) (h : M.Takes input s (before ++ [i]) input' s')
    (hinput : input.OneGroup) (hfuel : before.length < fuel) (hk : input.position + before.length + 1 = k) :
    M.nthNext k false fuel input input.position false pos s =
        some ((.nth k false input' input'.position true 1 false, .ok true), s') ∧
      input'.current = some i := by
  induction before generalizing input s fuel pos with
  | nil =>
    obtain ⟨fuel, rfl⟩ := exists_succ_of_lt hfuel
    cases h with
    | item pull current rest =>
      cases rest
      obtain ⟨-, hnext⟩ := hM hinput pull
      refine ⟨?_, current⟩
      rw [nthNext_of_item pull rfl, if_pos]
      rw [Bool.false_and, Bool.not_false, Bool.true_and, beq_iff_eq, hnext]
      exact hk
  | cons j before ih =>
    obtain ⟨fuel, rfl⟩ := Nat.exists_eq_add_of_lt hfuel
    cases h with
    | item pull current rest =>
      obtain ⟨hone, hnext⟩ := hM hinput pull
      rw [nthNext_of_item pull rfl, if_neg, Bool.false_and]
      · refine ih rest hone (Nat.lt_of_succ_lt_succ hfuel) ?_
        rw [hnext, ← hk, length_cons]
        omega
      · rw [Bool.false_and, Bool.not_false, Bool.true_and, beq_iff_eq, hnext, ← hk, length_cons]
        omega

theorem reading_nthNext_of_few {M' : Calls} (hM : M.GoesOn) (h : M.Reads input s ins r)
    (hinput : input.OneGroup) (hfuel : ins.length < fuel) (hk : input.position + ins.length < k) :
    M'.Reading (M.nthNext k false fuel input input.position false pos s) [] r := by
  unfold Calls.Reads at h
  generalize hx : M.next input s = x at h
  induction h generalizing input s fuel pos with
  | ended | failed =>
    obtain ⟨fuel, rfl⟩ := exists_succ_of_lt hfuel
    rw [nthNext_of_end hx nofun rfl]
    constructor
  | @item input' s' i out r hcurrent rest ih =>
    obtain ⟨fuel, rfl⟩ := Nat.exists_eq_add_of_lt hfuel
    obtain ⟨hone, hnext⟩ := hM hinput hx
    rw [length_cons] at hk
    rw [nthNext_of_item hx rfl, if_neg, Bool.false_and]
    · exact ih hone (Nat.lt_of_succ_lt_succ hfuel) (by omega) rfl
    · rw [Bool.false_and, Bool.not_false, Bool.true_and, beq_iff_eq, hnext]
      omega

/-- A position that filters one group picks the item there and pulls nothing after it. -/
theorem next_pick_of_takes (hinput : input.OneGroup) (hzero : input.position = 0)
    (h : (machineWith keeper m p).Takes input s (before ++ [i]) input' s') (hm : before.length + 1 < m) :
    ∃ d, (machineWith keeper (m + 1) p).next (.pick (before.length + 1) false input) s =
        some ((d, .ok true), s') ∧ d.current = some i ∧ d.position = 1 ∧
      ∀ n t, ∃ d', (machineWith keeper (n + 3) p).next d t = some ((d', .ok false), t) := by
  have hfuel : before.length < (machineWith keeper m p).fuel := by
    rw [fuel_machineWith]
    omega
  have hgoes : (machineWith keeper m p).GoesOn := goesOn_machineWith keeper m p
  obtain ⟨hnext, hcurrent⟩ := nthNext_of_takes (k := before.length + 1) hgoes h hinput hfuel (by omega)
  rw [hzero] at hnext
  exact ⟨_, hnext, hcurrent, rfl, fun n t => ⟨_, rfl⟩⟩

/-- Where there is no item at the position, the end of the group is that of its input. -/
theorem reads_pick_of_few (hinput : input.OneGroup) (hzero : input.position = 0)
    (h : (machineWith keeper m p).Reads input s ins r) (hk : ins.length < k) (hm : k < m) :
    (machineWith keeper (m + 1) p).Reads (.pick k false input) s [] r := by
  have hfuel : ins.length < (machineWith keeper m p).fuel := by
    rw [fuel_machineWith]
    omega
  have hgoes : (machineWith keeper m p).GoesOn := goesOn_machineWith keeper m p
  change (machineWith keeper (m + 1) p).Reading
    ((machineWith keeper m p).nthNext k false (machineWith keeper m p).fuel input 0 false 0 s) [] r
  rw [← hzero]
  exact reading_nthNext_of_few hgoes h hinput hfuel (by omega)

end

/-! ## Predicates, group by group -/

section

variable {V : Snapshot → Except Error Selection → Prop} {r r' : Except Error Unit} {size : Except Error Nat}
  {g left : List Item} {groups : List (List Item)} {out : List (Item × Nat)} {k j : Nat}

/-- The size of a group, which is not known if it is the last one and does not come to its end. -/
def groupSize (g : List Item) (later : List (List Item)) (r : Except Error Unit) : Except Error Nat :=
  if later.isEmpty then r.map fun _ => g.length else .ok g.length

/-- What a predicate leaves of a group of the given size, from the item at an index on: the items that the
selections at their indexes accept, up to a selection that fails. -/
inductive LeavesOf (V : Snapshot → Except Error Selection → Prop) (size : Except Error Nat) :
    Nat → List Item → List Item → Except Error Unit → Prop
  | done {k : Nat} : LeavesOf V size k [] [] (.ok ())
  | failed {k : Nat} {i : Item} {g : List Item} {err : Error} (h : V ⟨some i, k, size⟩ (.error err)) :
      LeavesOf V size k (i :: g) [] (.error err)
  | kept {k : Nat} {i : Item} {g left : List Item} {sel : Selection} {r : Except Error Unit}
      (h : V ⟨some i, k, size⟩ (.ok sel)) (accepts : sel.accepts k = true)
      (rest : LeavesOf V size (k + 1) g left r) : LeavesOf V size k (i :: g) (i :: left) r
  | dropped {k : Nat} {i : Item} {g left : List Item} {sel : Selection} {r : Except Error Unit}
      (h : V ⟨some i, k, size⟩ (.ok sel)) (accepts : sel.accepts k = false)
      (rest : LeavesOf V size (k + 1) g left r) : LeavesOf V size k (i :: g) left r

/-- What a predicate leaves of groups that end as `r` says: something of each of them, up to a selection
that fails. -/
inductive LeavesOfGroups (V : Snapshot → Except Error Selection → Prop) (r : Except Error Unit) :
    List (List Item) → List (List Item) → Except Error Unit → Prop
  | done : LeavesOfGroups V r [] [] r
  | failed {g left : List Item} {groups : List (List Item)} {err : Error}
      (h : LeavesOf V (groupSize g groups r) 1 g left (.error err)) :
      LeavesOfGroups V r (g :: groups) [left] (.error err)
  | group {g left : List Item} {groups lefts : List (List Item)} {r' : Except Error Unit}
      (h : LeavesOf V (groupSize g groups r) 1 g left (.ok ()))
      (rest : LeavesOfGroups V r groups lefts r') : LeavesOfGroups V r (g :: groups) (left :: lefts) r'

section

variable (hgroups : ∀ g ∈ groups, g ≠ [])

include hgroups

/-- Counting on from an item gives the size of its group. -/
theorem groupEnd_zipIdx (hk : 1 ≤ k) : groupEnd k (g.zipIdx (k + 1) ++ inGroups groups) r =
      if groups.isEmpty then r.map fun _ => k + g.length else .ok (k + g.length) := by
  induction g generalizing k with
  | nil =>
    cases groups with
    | nil => rfl
    | cons g groups =>
      obtain ⟨i, g, rfl⟩ := exists_cons_of_ne_nil (forall_mem_cons.mp hgroups).1
      exact if_pos hk
  | cons i g ih =>
    rw [zipIdx_cons, cons_append, groupEnd, if_neg (Nat.not_succ_le_self k),
      ih (Nat.le_add_left 1 k), length_cons, Nat.add_right_comm k 1, Nat.add_assoc]

/-- Where a group begins, what has come before it does not matter. -/
theorem letThrough_restart (hk : 1 ≤ k) :
    LetThrough V r k j (inGroups groups) out r' ↔ LetThrough V r 0 0 (inGroups groups) out r' := by
  cases groups with
  | nil =>
    constructor
    all_goals
      intro h
      cases h
      exact .done
  | cons g groups =>
    obtain ⟨i, g, rfl⟩ := exists_cons_of_ne_nil (forall_mem_cons.mp hgroups).1
    rw [inGroups_cons, zipIdx_cons, cons_append]
    have hswap : ∀ {k j k' j' : Nat}, (if 1 ≤ k then 0 else j) = (if 1 ≤ k' then 0 else j') → ∀ {rest out},
        LetThrough V r k j ((i, 1) :: rest) out r' → LetThrough V r k' j' ((i, 1) :: rest) out r' := by
      intro k j k' j' hnew rest out h
      cases h with
      | failed h => exact .failed h
      | kept h accepts rest =>
        rw [hnew] at rest ⊢
        exact .kept h accepts rest
      | dropped h accepts rest =>
        rw [hnew] at rest
        exact .dropped h accepts rest
    have hnew : (if 1 ≤ k then 0 else j) = if 1 ≤ 0 then 0 else 0 := by
      rw [if_pos hk, ite_self]
    exact ⟨hswap hnew, hswap hnew.symm⟩

/-- What is let through of the rest of a group is counted on from what has been let through of it. -/
theorem LetThrough.exists_left
    (hsize : size = if groups.isEmpty then r.map fun _ => k + g.length else .ok (k + g.length))
    (h : LetThrough V r k j (g.zipIdx (k + 1) ++ inGroups groups) out r') :
    (∃ left err, LeavesOf V size (k + 1) g left (.error err) ∧ out = left.zipIdx (j + 1) ∧
        r' = .error err) ∨
      ∃ left rest, LeavesOf V size (k + 1) g left (.ok ()) ∧ out = left.zipIdx (j + 1) ++ rest ∧
        LetThrough V r (k + g.length) (j + left.length) (inGroups groups) rest r' := by
  induction g generalizing k j out with
  | nil => exact .inr ⟨[], out, .done, rfl, h⟩
  | cons i g ih =>
    have hlength : k + (i :: g).length = k + 1 + g.length := by
      rw [length_cons]
      omega
    rw [hlength] at hsize
    have hend := groupEnd_zipIdx (g := g) (r := r) hgroups (Nat.le_add_left 1 k)
    rw [← hsize] at hend
    rw [zipIdx_cons, cons_append] at h
    cases h with
    | failed h =>
      rw [hend] at h
      exact .inl ⟨[], _, .failed h, rfl, rfl⟩
    | kept h accepts rest =>
      rw [hend] at h
      rw [if_neg (Nat.not_succ_le_self k)] at rest ⊢
      rcases ih hsize rest with ⟨left, err, hleft, rfl, rfl⟩ | ⟨left, out', hleft, rfl, hout⟩
      · exact .inl ⟨i :: left, err, .kept h accepts hleft, rfl, rfl⟩
      · refine .inr ⟨i :: left, out', .kept h accepts hleft, rfl, ?_⟩
        rw [hlength, length_cons, Nat.add_comm left.length, ← Nat.add_assoc]
        exact hout
    | dropped h accepts rest =>
      rw [hend] at h
      rw [if_neg (Nat.not_succ_le_self k)] at rest
      rcases ih hsize rest with ⟨left, err, hleft, rfl, rfl⟩ | ⟨left, out', hleft, rfl, hout⟩
      · exact .inl ⟨left, err, .dropped h accepts hleft, rfl, rfl⟩
      · refine .inr ⟨left, out', .dropped h accepts hleft, rfl, ?_⟩
        rw [hlength]
        exact hout

/-- The converse, for a group that comes to its end and for one that fails. -/
theorem LeavesOf.letThrough (hsize : size = if groups.isEmpty then r.map fun _ => k + g.length else .ok (k + g.length))
    (h : LeavesOf V size (k + 1) g left stop)
    (hok : stop = .ok () → LetThrough V r (k + g.length) (j + left.length) (inGroups groups) out r')
    (herror : ∀ err, stop = .error err → out = [] ∧ r' = .error err) :
    LetThrough V r k j (g.zipIdx (k + 1) ++ inGroups groups) (left.zipIdx (j + 1) ++ out) r' := by
  generalize hk' : k + 1 = k' at h ⊢
  induction h generalizing k j with
  | done => exact hok rfl
  | @failed _ i g err h =>
    subst hk'
    obtain ⟨rfl, rfl⟩ := herror err rfl
    have hend := groupEnd_zipIdx (g := g) (r := r) hgroups (Nat.le_add_left 1 k)
    rw [length_cons, Nat.add_comm g.length, ← Nat.add_assoc, ← hend] at hsize
    rw [hsize] at h
    exact .failed h
  | @kept _ i g left sel stop h accepts rest ih =>
    subst hk'
    have hend := groupEnd_zipIdx (g := g) (r := r) hgroups (Nat.le_add_left 1 k)
    rw [length_cons, Nat.add_comm g.length, ← Nat.add_assoc] at hsize
    rw [hsize, ← hend] at h
    have hinner : LetThrough V r (k + 1) (j + 1) (g.zipIdx (k + 1 + 1) ++ inGroups groups)
        (left.zipIdx (j + 1 + 1) ++ out) r' := by
      refine ih hsize ?_ herror rfl
      intro hstop
      have hrest := hok hstop
      rw [length_cons, length_cons] at hrest
      rw [Nat.add_right_comm k, Nat.add_right_comm j]
      exact hrest
    have hpos : (if k + 1 ≤ k then 0 else j) = j := if_neg (Nat.not_succ_le_self k)
    rw [← hpos] at hinner
    have hkept := LetThrough.kept h accepts hinner
    rw [hpos] at hkept
    exact hkept
  | @dropped _ i g left sel stop h accepts rest ih =>
    subst hk'
    have hend := groupEnd_zipIdx (g := g) (r := r) hgroups (Nat.le_add_left 1 k)
    rw [length_cons, Nat.add_comm g.length, ← Nat.add_assoc] at hsize
    rw [hsize, ← hend] at h
    have hpos : (if k + 1 ≤ k then 0 else j) = j := if_neg (Nat.not_succ_le_self k)
    refine .dropped h accepts ?_
    rw [hpos]
    refine ih hsize ?_ herror rfl
    intro hstop
    have hrest := hok hstop
    rw [length_cons] at hrest
    rw [Nat.add_right_comm k]
    exact hrest

/-- A predicate lets through what it leaves of every group. -/
theorem letThrough_inGroups_iff : LetThrough V r 0 0 (inGroups groups) out r' ↔
      ∃ lefts, LeavesOfGroups V r groups lefts r' ∧ out = inGroups lefts := by
  induction groups generalizing out with
  | nil =>
    constructor
    · intro h
      cases h
      exact ⟨[], .done, rfl⟩
    · rintro ⟨lefts, h, rfl⟩
      cases h
      exact .done
  | cons g groups ih =>
    obtain ⟨hg, hgroups⟩ := forall_mem_cons.mp hgroups
    have hlength : 1 ≤ 0 + g.length := by
      have := length_pos_of_ne_nil hg
      omega
    have hsize : groupSize g groups r =
        if groups.isEmpty then r.map fun _ => 0 + g.length else .ok (0 + g.length) := by
      rw [Nat.zero_add]
      rfl
    rw [inGroups_cons]
    constructor
    · intro h
      rcases h.exists_left hgroups hsize with ⟨left, err, hleft, rfl, rfl⟩ | ⟨left, rest, hleft, rfl, hrest⟩
      · exact ⟨[left], .failed hleft, (append_nil _).symm⟩
      · obtain ⟨lefts, hlefts, rfl⟩ := (ih hgroups).mp ((letThrough_restart hgroups hlength).mp hrest)
        exact ⟨left :: lefts, .group hleft hlefts, rfl⟩
    · rintro ⟨lefts, h, rfl⟩
      cases h with
      | failed hleft =>
        refine hleft.letThrough hgroups hsize nofun ?_
        intro err herr
        obtain rfl := Except.error.inj herr
        exact ⟨rfl, rfl⟩
      | group hleft hlefts =>
        refine hleft.letThrough hgroups hsize (fun _ => ?_) nofun
        exact (letThrough_restart hgroups hlength).mpr ((ih hgroups).mpr ⟨_, hlefts, rfl⟩)

end

end

end XPath
