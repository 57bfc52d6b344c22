import Mathlib.Data.List.ProdSigma
import XPath.Proofs.Groups

/-!
# General comparisons

A general comparison asks about pairs of items, one of each side. `CompOp.scan` goes over the pairs row by row: a
pair that compares false is passed over, the first one that does not decides. Executing the comparison comes to
the same (`execute_generalComparison`), although the rows read the right side from a cache that is filled as far as
some row has got: the first row draws what it needs, and the rows after it find everything there.
-/

namespace XPath

open List

variable {a b : Item} {d : Except Error Bool} {more : List Item} {i : Nat} {err : Error}
  {outs : List (Item × Nat)} {stop : Except Error Unit}

/-! ## Scanning pairs -/

/-- What a pair decides. A pair that compares false leaves the decision to those after it. -/
def CompOp.decision (op : CompOp) (x : Item × Item) : Option (Except Error Bool) :=
  match generalCompare op x.1.typedValue x.2.typedValue with
  | .ok false => none
  | decided => some decided

/-- What the pairs decide, row by row, where the right side delivers some items and then ends or fails. If it
fails, the first row does not get past that. -/
def CompOp.scan (op : CompOp) : List Item → List Item → Except Error Unit → Except Error Bool
  | [], _, _ => .ok false
  | left :: _, rights, .error err => ((rights.map (left, ·)).findSome? op.decision).getD (.error err)
  | left :: more, rights, .ok () => (((left :: more) ×ˢ rights).findSome? op.decision).getD (.ok false)

theorem CompOp.decision_eq_some_iff :
    op.decision (a, b) = some d ↔ generalCompare op a.typedValue b.typedValue = d ∧ d ≠ .ok false := by
  unfold decision
  split
  · rename_i h
    rw [h]
    exact ⟨nofun, fun ⟨h, hne⟩ => absurd h.symm hne⟩
  · rename_i x h
    constructor
    · rintro ⟨⟩
      exact ⟨rfl, h⟩
    · rintro ⟨rfl, -⟩
      rfl

theorem CompOp.decision_eq_none_iff :
    op.decision (a, b) = none ↔ generalCompare op a.typedValue b.typedValue = .ok false := by
  unfold decision
  split
  · rename_i h
    exact iff_of_true rfl h
  · rename_i x h
    exact iff_of_false nofun h

theorem CompOp.ne_of_findSome?_decision {op : CompOp} {pairs : List (Item × Item)}
    (h : pairs.findSome? op.decision = some d) : d ≠ .ok false := by
  obtain ⟨⟨a, b⟩, -, hab⟩ := exists_of_findSome?_eq_some h
  exact (decision_eq_some_iff.1 hab).2

theorem CompOp.scan_ok (op : CompOp) (lefts rights : List Item) :
    op.scan lefts rights (.ok ()) = ((lefts ×ˢ rights).findSome? op.decision).getD (.ok false) := by
  cases lefts <;> rfl

/-- The first row decides, whatever comes after the pair that does. -/
theorem CompOp.scan_of_early {op : CompOp}
    (h : (rights.map (left, ·)).findSome? op.decision = some d) (stop : Except Error Unit) :
    op.scan (left :: more) rights stop = d := by
  cases stop with
  | error err => rw [scan, h, Option.getD_some]
  | ok => rw [scan_ok, product_cons, findSome?_append, h, Option.some_or, Option.getD_some]

theorem CompOp.scan_of_undecided {op : CompOp}
    (h : (rights.map (left, ·)).findSome? op.decision = none) (stop : Except Error Unit) :
    op.scan (left :: more) rights stop =
      stop.bind fun _ => ((more ×ˢ rights).findSome? op.decision).getD (.ok false) := by
  cases stop with
  | error err => rw [scan, h]; rfl
  | ok => rw [scan_ok, product_cons, findSome?_append, h, Option.none_or]; rfl

/-- Where no pair fails, some pair decides if some pair compares true. -/
theorem CompOp.scan_of_ok (h : ∀ a ∈ lefts, ∀ b ∈ rights, ∃ v, generalCompare op a.typedValue b.typedValue = .ok v) :
    ∃ v, op.scan lefts rights (.ok ()) = .ok v ∧
      (v = true ↔ ∃ a ∈ lefts, ∃ b ∈ rights, generalCompare op a.typedValue b.typedValue = .ok true) := by
  rw [scan_ok]
  cases hfirst : (lefts ×ˢ rights).findSome? op.decision with
  | none =>
    refine ⟨false, rfl, iff_of_false nofun ?_⟩
    rintro ⟨a, ha, b, hb, hab⟩
    have hnone := findSome?_eq_none_iff.1 hfirst (a, b) (mem_product.2 ⟨ha, hb⟩)
    rw [decision_eq_none_iff, hab] at hnone
    cases hnone
  | some d =>
    obtain ⟨⟨a, b⟩, hmem, hab⟩ := exists_of_findSome?_eq_some hfirst
    obtain ⟨ha, hb⟩ := mem_product.1 hmem
    obtain ⟨rfl, hd⟩ := decision_eq_some_iff.1 hab
    obtain ⟨v, hv⟩ := h a ha b hb
    rw [hv] at hd
    cases v with
    | false => exact absurd rfl hd
    | true => exact ⟨true, hv, iff_of_true rfl ⟨a, ha, b, hb, hv⟩⟩

namespace Calls

variable {M : Calls} {op : CompOp} {left r : Item} {c c' rc : Cursor} {s s' t : Store}
  {done mid rights lefts : List Item} {fuel : Nat} {right right' : Cache}

theorem takes_concat : M.Takes c s (mid ++ [r]) c' s' ↔
      ∃ c₁ s₁, M.Takes c s mid c₁ s₁ ∧ M.next c₁ s₁ = some ((c', .ok true), s') ∧ c'.current = some r := by
  induction mid generalizing c s with
  | nil =>
    constructor
    · rintro (_ | ⟨hpull, hcurrent, _ | _⟩)
      exact ⟨c, s, .nothing, hpull, hcurrent⟩
    · rintro ⟨_, _, _ | _, hpull, hcurrent⟩
      exact .item hpull hcurrent .nothing
  | cons i mid ih =>
    constructor
    · rintro (_ | ⟨hpull, hcurrent, hrest⟩)
      obtain ⟨c₁, s₁, hmid, hlast⟩ := ih.1 hrest
      exact ⟨c₁, s₁, .item hpull hcurrent hmid, hlast⟩
    · rintro ⟨c₁, s₁, _ | ⟨hpull, hcurrent, hmid⟩, hlast⟩
      exact .item hpull hcurrent (ih.2 ⟨c₁, s₁, hmid, hlast⟩)

/-! ## Drawing from the cache -/

theorem fetch_of_item (hpull : M.next c s = some ((c', .ok true), s')) (hr : c'.current = some r) (hfuel : 2 ≤ fuel) :
    M.fetch done.length fuel ⟨some c, done.toArray, none⟩ s =
      some ((⟨some c', (done ++ [r]).toArray, none⟩, .ok (some r)), s') := by
  refine Eq.trans (fetch_of_pull (by simp) rfl rfl hpull (fun _ => hr ▸ rfl) hfuel) ?_
  simp [Cache.drawing, Except.map, hr]

/-! ## One row -/

theorem compareRow_of_undecided (hfetch : M.fetch i M.fuel right s = some ((right', .ok (some r)), s'))
    (h : op.decision (left, r) = none) :
    M.compareRow op left.typedValue (fuel + 1) i right s = M.compareRow op left.typedValue fuel (i + 1) right' s' := by
  rw [compareRow, Eval.bind_of_ok (Eval.lift_of_some hfetch)]
  have hcompare := CompOp.decision_eq_none_iff.1 h
  change (liftM (generalCompare op left.typedValue r.typedValue) >>= _ : Eval _) s' = _
  rw [hcompare]
  rfl

theorem compareRow_of_decided (hfetch : M.fetch i M.fuel right s = some ((right', .ok (some r)), s'))
    (h : op.decision (left, r) = some d) :
    M.compareRow op left.typedValue (fuel + 1) i right s = some (d.map (right', ·), s') := by
  rw [compareRow, Eval.bind_of_ok (Eval.lift_of_some hfetch)]
  obtain ⟨hcompare, hd⟩ := CompOp.decision_eq_some_iff.1 h
  change (liftM (generalCompare op left.typedValue r.typedValue) >>= _ : Eval _) s' = _
  rw [hcompare]
  match d, hd with
  | .ok true, _ | .error err, _ => rfl
  | .ok false, hd => exact absurd rfl hd

theorem compareRow_of_end (hfetch : M.fetch i M.fuel right s = some ((right', .ok none), s')) :
    M.compareRow op left.typedValue (fuel + 1) i right s = some (.ok (right', false), s') := by
  rw [compareRow, Eval.bind_of_ok (Eval.lift_of_some hfetch)]
  rfl

theorem compareRow_of_failure (hfetch : M.fetch i M.fuel right s = some ((right', .error err), s')) :
    M.compareRow op left.typedValue (fuel + 1) i right s = some (.error err, s') := by
  rw [compareRow, Eval.bind_of_ok (Eval.lift_of_some hfetch)]
  rfl

/-- Items that are drawn without a decision. -/
theorem compareRow_of_takes (htakes : M.Takes c s mid c' s') (hmid : ∀ x ∈ mid, op.decision (left, x) = none)
    (hM : 2 ≤ M.fuel) : ∀ (done : List Item) (fuel : Nat),
      M.compareRow op left.typedValue (fuel + mid.length) done.length ⟨some c, done.toArray, none⟩ s =
        M.compareRow op left.typedValue fuel (done ++ mid).length ⟨some c', (done ++ mid).toArray, none⟩ s' := by
  induction htakes with
  | nothing =>
    intro done fuel
    rw [append_nil]
    rfl
  | @item c c₁ c' s s₁ s' i items pull current rest ih =>
    obtain ⟨hi, hitems⟩ := forall_mem_cons.1 hmid
    intro done fuel
    rw [length_cons, ← Nat.add_assoc, compareRow_of_undecided (fetch_of_item pull current hM) hi]
    have hrest := ih hitems (done ++ [i]) fuel
    rw [length_append, append_assoc, singleton_append] at hrest
    exact hrest

/-- The first row, after items that are drawn without a decision. -/
theorem compareRow_ofSource (htakes : M.Takes c s mid c' s') (hmid : ∀ x ∈ mid, op.decision (left, x) = none)
    (hM : mid.length + 1 < M.fuel)
    (h : ∀ fuel, M.compareRow op left.typedValue (fuel + 1) mid.length ⟨some c', mid.toArray, none⟩ s' = y) :
    M.compareRow op left.typedValue M.fuel 0 (.ofSource c) s = y := by
  obtain ⟨fuel, hfuel⟩ := Nat.exists_eq_add_of_lt (Nat.lt_of_succ_lt hM)
  rw [hfuel, Nat.add_assoc, Nat.add_comm mid.length]
  exact (compareRow_of_takes htakes hmid (by omega) [] (fuel + 1)).trans (h fuel)

theorem compareRow_of_full (hM : 1 ≤ M.fuel) : ∀ (rights done : List Item) (fuel : Nat), rights.length < fuel →
      M.compareRow op left.typedValue fuel done.length ⟨none, (done ++ rights).toArray, none⟩ s =
        some ((((rights.map (left, ·)).findSome? op.decision).getD (.ok false)).map
          (⟨none, (done ++ rights).toArray, none⟩, ·), s) := by
  intro rights
  induction rights with
  | nil =>
    intro done fuel hfuel
    obtain ⟨fuel, rfl⟩ := Nat.exists_eq_add_of_lt hfuel
    rw [append_nil, compareRow_of_end (fetch_of_used (by simp) rfl hM)]
    rfl
  | cons r rights ih =>
    intro done fuel hfuel
    obtain ⟨fuel, rfl⟩ := exists_succ_of_lt hfuel
    have hfetch : M.fetch done.length M.fuel ⟨none, (done ++ r :: rights).toArray, none⟩ s =
        some ((⟨none, (done ++ r :: rights).toArray, none⟩, .ok (some r)), s) :=
      fetch_of_known (by simp) hM
    rw [map_cons, findSome?_cons]
    cases hdecision : op.decision (left, r) with
    | some d => exact compareRow_of_decided hfetch hdecision
    | none =>
      rw [compareRow_of_undecided hfetch hdecision]
      have hrest := ih (done ++ [r]) fuel (Nat.lt_of_succ_lt_succ hfuel)
      rw [length_append, append_assoc, singleton_append] at hrest
      exact hrest

/-! ## All rows -/

theorem compareRows_of_decided (hd : d ≠ .ok false)
    (hrow : M.compareRow op left.typedValue M.fuel 0 right s = some (d.map (right', ·), s')) :
    M.compareRows op (left :: lefts) right s = some (d, s') := by
  rw [compareRows]
  match d, hd with
  | .ok true, _ => exact Eval.bind_of_ok hrow
  | .error err, _ => exact Eval.bind_of_error hrow
  | .ok false, hd => exact absurd rfl hd

theorem compareRows_of_undecided
    (hrow : M.compareRow op left.typedValue M.fuel 0 right s = some (.ok (right', false), s')) :
    M.compareRows op (left :: lefts) right s = M.compareRows op lefts right' s' := by
  rw [compareRows, Eval.bind_of_ok hrow]
  rfl

theorem compareRows_of_full (hM : rights.length < M.fuel) (lefts : List Item) :
    M.compareRows op lefts ⟨none, rights.toArray, none⟩ s =
      some (((lefts ×ˢ rights).findSome? op.decision).getD (.ok false), s) := by
  induction lefts with
  | nil => rfl
  | cons left lefts ih =>
    have hrow : M.compareRow op left.typedValue M.fuel 0 ⟨none, rights.toArray, none⟩ s =
        some ((((rights.map (left, ·)).findSome? op.decision).getD (.ok false)).map
          (⟨none, rights.toArray, none⟩, ·), s) :=
      compareRow_of_full (Nat.lt_of_le_of_lt (Nat.zero_le _) hM) rights [] M.fuel hM
    rw [product_cons, findSome?_append]
    cases hdecision : (rights.map (left, ·)).findSome? op.decision with
    | none =>
      rw [hdecision] at hrow
      rw [compareRows_of_undecided hrow]
      exact ih
    | some d =>
      rw [hdecision] at hrow
      exact compareRows_of_decided (CompOp.ne_of_findSome?_decision hdecision) hrow

/-- The first row decides with what it has drawn so far. -/
theorem compareRows_of_early (htakes : M.Takes c s (mid ++ [r]) c' s')
    (hmid : ∀ x ∈ mid, op.decision (left, x) = none) (hr : op.decision (left, r) = some d)
    (hM : mid.length + 1 < M.fuel) : M.compareRows op (left :: lefts) (.ofSource c) s = some (d, s') := by
  obtain ⟨c₁, s₁, htakes, hpull, hcurrent⟩ := takes_concat.1 htakes
  have hrow := compareRow_ofSource htakes hmid hM fun _ =>
    compareRow_of_decided (fetch_of_item hpull hcurrent (by omega)) hr
  exact compareRows_of_decided (CompOp.decision_eq_some_iff.1 hr).2 hrow

/-- The first row comes to the end of the right side or to an error of it. After the end, the other rows are on a
cache that has everything. -/
theorem compareRows_of_stop (htakes : M.Takes rc s rights c s')
    (hpull : M.next c s' = some ((c', stop.map fun _ => false), t))
    (hrights : ∀ x ∈ rights, op.decision (left, x) = none) (hM : rights.length + 1 < M.fuel) :
    M.compareRows op (left :: lefts) (.ofSource rc) s =
      some (stop.bind fun _ => ((lefts ×ˢ rights).findSome? op.decision).getD (.ok false), t) := by
  cases stop with
  | error err =>
    have hrow := compareRow_ofSource htakes hrights hM fun _ =>
      compareRow_of_failure (fetch_of_pull (by simp) rfl rfl hpull nofun (by omega))
    exact Eval.bind_of_error hrow
  | ok =>
    have hrow := compareRow_ofSource htakes hrights hM fun _ =>
      compareRow_of_end (fetch_of_pull (by simp) rfl rfl hpull nofun (by omega))
    rw [compareRows_of_undecided hrow]
    exact compareRows_of_full (Nat.lt_of_succ_lt hM) lefts

/-- The first item of a stream that decides a row, or its end. -/
theorem Reads.first_decision (h : M.Reads c s outs stop) (op : CompOp) (left : Item) :
    (∃ mid r rest d c' t, outs.map Prod.fst = mid ++ r :: rest ∧ (∀ x ∈ mid, op.decision (left, x) = none) ∧
        op.decision (left, r) = some d ∧ M.Takes c s (mid ++ [r]) c' t) ∨
      (∀ x ∈ outs.map Prod.fst, op.decision (left, x) = none) ∧
        ∃ c' s' c'' t, M.Takes c s (outs.map Prod.fst) c' s' ∧
          M.next c' s' = some ((c'', stop.map fun _ => false), t) := by
  unfold Reads at h
  generalize hx : M.next c s = x at h
  induction h generalizing c s with
  | ended | failed => exact .inr ⟨nofun, c, s, _, _, .nothing, hx⟩
  | @item c₁ s₁ i outs stop hcurrent rest ih =>
    cases hi : op.decision (left, i) with
    | some d => exact .inl ⟨[], i, _, d, c₁, s₁, rfl, nofun, hi, .item hx hcurrent .nothing⟩
    | none =>
      obtain ⟨mid, r, rest, d, c', t, hsplit, hmid, hr, htakes⟩ |
        ⟨hall, c', s', c'', t, htakes, hpull⟩ := ih rfl
      · refine .inl ⟨i :: mid, r, rest, d, c', t, ?_, ?_, hr, .item hx hcurrent htakes⟩
        · rw [map_cons, hsplit, cons_append]
        · exact forall_mem_cons.2 ⟨hi, hmid⟩
      · refine .inr ⟨?_, c', s', c'', t, .item hx hcurrent htakes, hpull⟩
        exact forall_mem_cons.2 ⟨hi, hall⟩

/-- The store is left by pulling the cursor, which delivers these items, until it has delivered some of them or
until it has no more. -/
inductive DrawnOnce (M : Calls) (c : Cursor) (s : Store) (items : List Item) : Store → Prop
  | part {drawn rest : List Item} {c' : Cursor} {t : Store} (items_eq : items = drawn ++ rest)
      (takes : M.Takes c s drawn c' t) : DrawnOnce M c s items t
  | all {c' c'' : Cursor} {s' t : Store} {r : Except Error Bool} (takes : M.Takes c s items c' s')
      (last : M.next c' s' = some ((c'', r), t)) (stopped : r ≠ .ok true) : DrawnOnce M c s items t

/-- Rows on a stream that is read to its end, which is pulled once. -/
theorem compareRows_of_reads (h : M.Reads rc s outs stop) (hM : outs.length + 1 < M.fuel) (lefts : List Item) :
    ∃ t, M.compareRows op lefts (.ofSource rc) s = some (op.scan lefts (outs.map Prod.fst) stop, t) ∧
      M.DrawnOnce rc s (outs.map Prod.fst) t := by
  cases lefts with
  | nil => exact ⟨s, rfl, .part rfl .nothing⟩
  | cons left more =>
    obtain ⟨mid, r, rest, d, c', t, hsplit, hmid, hr, htakes⟩ |
      ⟨hall, c', s', c'', t, htakes, hpull⟩ := h.first_decision op left
    · have hlength : (outs.map Prod.fst).length = mid.length + (rest.length + 1) := by
        rw [hsplit, length_append, length_cons]
      rw [length_map] at hlength
      have hfirst : ((outs.map Prod.fst).map (left, ·)).findSome? op.decision = some d := by
        have hnone : (mid.map (left, ·)).findSome? op.decision = none :=
          findSome?_eq_none_iff.2 (forall_mem_map.2 hmid)
        rw [hsplit, map_append, map_cons, findSome?_append, hnone, Option.none_or,
          findSome?_cons, hr]
      refine ⟨t, ?_, .part (hsplit.trans (append_cons mid r rest)) htakes⟩
      rw [CompOp.scan_of_early hfirst]
      exact compareRows_of_early htakes hmid hr (by omega)
    · have hnone : ((outs.map Prod.fst).map (left, ·)).findSome? op.decision = none :=
        findSome?_eq_none_iff.2 (forall_mem_map.2 hall)
      have hroom : (outs.map Prod.fst).length + 1 < M.fuel := by rwa [length_map]
      refine ⟨t, ?_, .all htakes hpull ?_⟩
      · rw [CompOp.scan_of_undecided hnone]
        exact compareRows_of_stop htakes hpull hall hroom
      · cases stop <;> nofun

end Calls

/-! ## The expression -/

section

variable {keeper : Program → Variables} {n : Nat} {p : Program} {e l r : ExprId} {op : CompOp} {focus : Focus}
  {s s₁ s₂ s₃ : Store} {lc rc : Cursor} {lefts : List Item}

theorem execute_of_compareRows (hform : p.form? e = some (.compare .general op)) (hchildren : p.children e = [l, r])
    (hleft : (machineWith keeper n p).execute l focus s = some (.ok lc, s₁))
    (hdrain : (machineWith keeper n p).drain lc s₁ = some (.ok lefts, s₂))
    (hright : (machineWith keeper n p).execute r focus s₂ = some (.ok rc, s₃))
    (h : (machineWith keeper n p).compareRows op lefts (.ofSource rc) s₃ = some (x, t)) :
    (machineWith keeper (n + 1) p).execute e focus s =
      some (x.map fun b => .ofItem (.ofBool b), t) := by
  have hl : (liftM (Calls.childAt [l, r] 0) : Eval ExprId) s = some (.ok l, s) := rfl
  have hr : (liftM (Calls.childAt [l, r] 1) : Eval ExprId) s₂ = some (.ok r, s₂) := rfl
  have hcomparison : (machineWith keeper n p).generalComparison focus op [l, r] s =
      some (x.map fun b => .ofItem (.ofBool b), t) := by
    rw [Calls.generalComparison, Eval.bind_of_ok hl, Eval.bind_of_ok hleft, Eval.bind_of_ok hdrain,
      Eval.bind_of_ok hr, Eval.bind_of_ok hright]
    cases x with
    | error err => exact Eval.bind_of_error h
    | ok b => exact Eval.bind_of_ok h
  change (machineWith keeper n p).perform p e focus s = _
  unfold Calls.perform
  rw [hform, hchildren]
  exact hcomparison

/-- A general comparison whose left side drains to some items, and whose right side executes to a cursor. With no
items on the left nothing of the right side is pulled. A pair of the first row decides as soon as it is drawn, if
the pairs before it compare false. Where the right side is read to its end or to an error, the outcome is that of
scanning the pairs row by row, and the right side has been pulled through once at most; in particular, if no pair
and no operand fails, the outcome is whether some pair compares true. -/
theorem execute_generalComparison (hform : p.form? e = some (.compare .general op))
    (hchildren : p.children e = [l, r])
    (hleft : (machineWith keeper n p).execute l focus s = some (.ok lc, s₁))
    (hdrain : (machineWith keeper n p).drain lc s₁ = some (.ok lefts, s₂))
    (hright : (machineWith keeper n p).execute r focus s₂ = some (.ok rc, s₃)) :
    let M := machineWith keeper n p
    let result := (machineWith keeper (n + 1) p).execute e focus s
    (lefts = [] → result = some (.ok (.ofItem (.ofBool false)), s₃)) ∧
    (∀ left more mid last d c t, lefts = left :: more → M.Takes rc s₃ (mid ++ [last]) c t →
      (∀ x ∈ mid, op.decision (left, x) = none) → op.decision (left, last) = some d → mid.length + 2 < n →
      result = some (d.map fun b => .ofItem (.ofBool b), t)) ∧
    (∀ outs stop, M.Reads rc s₃ outs stop → outs.length + 2 < n →
      ∃ t, result = some ((op.scan lefts (outs.map Prod.fst) stop).map fun b => .ofItem (.ofBool b), t) ∧
        M.DrawnOnce rc s₃ (outs.map Prod.fst) t) ∧
    (∀ outs, M.Reads rc s₃ outs (.ok ()) → outs.length + 2 < n →
      (∀ a ∈ lefts, ∀ x ∈ outs, ∃ v, generalCompare op a.typedValue x.1.typedValue = .ok v) →
      ∃ v t, result = some (.ok (.ofItem (.ofBool v)), t) ∧
        (v = true ↔ ∃ a ∈ lefts, ∃ x ∈ outs, generalCompare op a.typedValue x.1.typedValue = .ok true)) := by
  intro M result
  have hfuel : M.fuel = n - 1 := fuel_machineWith keeper n p
  have hresult {x : Except Error Bool} {t : Store}
      (h : M.compareRows op lefts (.ofSource rc) s₃ = some (x, t)) :
      result = some (x.map fun b => .ofItem (.ofBool b), t) :=
    execute_of_compareRows hform hchildren hleft hdrain hright h
  refine ⟨?_, ?_, ?_, ?_⟩
  · rintro rfl
    exact hresult rfl
  · rintro left more mid last d c t rfl htakes hmid hlast hroom
    exact hresult (Calls.compareRows_of_early htakes hmid hlast (by omega))
  · intro outs stop hreads hroom
    obtain ⟨t, hrows, honce⟩ := Calls.compareRows_of_reads hreads (by omega) lefts
    exact ⟨t, hresult hrows, honce⟩
  · intro outs hreads hroom hpairs
    obtain ⟨t, hrows, -⟩ := Calls.compareRows_of_reads hreads (by omega) lefts
    obtain ⟨v, hscan, hv⟩ : ∃ v, op.scan lefts (outs.map Prod.fst) (.ok ()) = .ok v ∧ _ :=
      CompOp.scan_of_ok fun a ha => forall_mem_map.2 (hpairs a ha)
    rw [hscan] at hrows
    refine ⟨v, t, hresult hrows, hv.trans (exists_congr fun a => and_congr_right fun _ => ?_)⟩
    simp only [mem_map, exists_exists_and_eq_and]

/-- `(1, 3) = (2, 3)` -/
def Program.twoByTwo : Program :=
  let leaf (i : Nat) : ExprNode := ⟨.literal (.integer (.ofNat i)), [], none, false, true⟩
  ⟨.standard, #[leaf 1, leaf 3, ⟨.sequence, [0, 1], none, false, true⟩,
    leaf 2, leaf 3, ⟨.sequence, [3, 4], none, false, true⟩, ⟨.compare .general .eq, [2, 5], none, false, true⟩]⟩

/-- The last pair decides. -/
theorem execute_generalComparison_lastPair :
    let M := machineWith (fun _ => .inSlots) 7 .twoByTwo
    ∃ rc s₃ t, M.execute 5 (.fixed (.single none)) (.ofSlots (.ofSize 0)) = some (.ok rc, s₃) ∧
      M.Reads rc s₃ [(.ofNat 2, 1), (.ofNat 3, 2)] (.ok ()) ∧
      CompOp.eq.scan [.ofNat 1, .ofNat 3] [.ofNat 2, .ofNat 3] (.ok ()) = .ok true ∧
      (machineWith (fun _ => .inSlots) 8 .twoByTwo).execute 6 (.fixed (.single none)) (.ofSlots (.ofSize 0)) =
        some (.ok (.ofItem (.ofBool true)), t) := by
  intro M
  have hreads : ∀ {rc s₃}, M.execute 5 (.fixed (.single none)) (.ofSlots (.ofSize 0)) = some (.ok rc, s₃) →
      M.Reads rc s₃ [(.ofNat 2, 1), (.ofNat 3, 2)] (.ok ()) := by
    rintro _ _ ⟨⟩
    exact .item rfl (.item rfl .ended)
  have hscan : CompOp.eq.scan [.ofNat 1, .ofNat 3] [.ofNat 2, .ofNat 3] (.ok ()) = .ok true := rfl
  obtain ⟨-, -, hrows, -⟩ := @execute_generalComparison (fun _ => .inSlots) 7 .twoByTwo 6 2 5 .eq
    (.fixed (.single none)) (.ofSlots (.ofSize 0)) _ _ _ _ _ _ rfl rfl rfl rfl rfl
  obtain ⟨t, hresult, -⟩ := hrows _ _ (hreads rfl) (by decide)
  exact ⟨_, _, t, rfl, hreads rfl, hscan, hresult⟩

end

end XPath
