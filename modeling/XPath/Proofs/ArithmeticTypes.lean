import XPath.Eval.Execute
import XPath.Plan.Typing

/-!
# The categories of arithmetic

The static table `arithmeticType` and the operators `arithmetic` and `negate` were written apart. Here they agree:
what an operator gives for operands of two categories is of the category in the table (`arithmetic_type`).
-/

namespace XPath

variable {v a b : AtomicValue} {op : ArithOp} {l r : ResultType} {x : Item}

/-- An item is of a category; the open one admits everything. -/
def ResultType.Has (t : ResultType) (i : Item) : Prop :=
  t = .any ∨ i.resultType = t

def Makes (t : ResultType) (r : Except Error AtomicValue) : Prop :=
  ∀ v, r = .ok v → v.resultType = t

namespace Makes

variable {t : ResultType} {α : Type}

theorem error (e : Error) : Makes t (.error e) :=
  nofun

theorem map {r : Except Error α} (h : ∀ a, (f a).resultType = t) : Makes t (f <$> r) := by
  intro v hv
  cases r with
  | error e => cases hv
  | ok a =>
    cases hv
    exact h a

theorem bind {r : Except Error α} (h : ∀ a, Makes t (f a)) : Makes t (r >>= f) := by
  intro v hv
  cases r with
  | error e => cases hv
  | ok a => exact h a v hv

theorem ok (h : v.resultType = t) : Makes t (.ok v) := by
  rintro _ ⟨⟩
  exact h

end Makes

/-! ## Operators -/

theorem integerArith_makes (op : ArithOp) (x y : Int64) : Makes .number (integerArith op x y) := by
  cases op with
  | add | sub | mul => exact .map fun _ => rfl
  | div =>
    unfold integerArith
    dsimp only
    split
    · exact .error _
    · exact .ok rfl
  | idiv =>
    unfold integerArith
    dsimp only
    split
    · exact .error _
    · exact .map fun _ => rfl
  | mod =>
    unfold integerArith
    dsimp only
    split
    · exact .error _
    · exact .bind fun _ => .map fun _ => rfl

theorem floatArith_makes (op : ArithOp) (x y : Float) (double : Bool) : Makes .number (floatArith op x y double) := by
  unfold floatArith
  dsimp only
  split
  · split
    · exact .error _
    · exact .map fun _ => rfl
  · split
    · exact .error _
    · split
      · exact .ok rfl
      · split
        · exact .ok rfl
        · exact .error _

theorem numericArith_makes (op : ArithOp) (a b : AtomicValue) : Makes .number (numericArith op a b) := by
  unfold numericArith
  split
  · exact integerArith_makes op _ _
  · exact floatArith_makes op _ _ _

theorem scaleBy_makes (op : ArithOp) (d n : AtomicValue) : Makes .duration (scaleBy op d n) := by
  unfold scaleBy
  split
  · exact .bind fun _ => .bind fun _ => .map fun _ => rfl
  · exact .bind fun _ => .map fun _ => rfl
  · exact .error _

theorem difference_makes (x y : Option Calendar.DateTime) : Makes .duration (difference x y) :=
  .bind fun _ => .bind fun _ => .ok rfl

theorem quotient_makes (op : ArithOp) (x y : Int) : Makes .number (quotient op x y) := by
  unfold quotient
  split
  · exact .error _
  · exact .ok rfl

/-- Only a date or a time can be shifted, only by a duration, and it stays what it was. -/
theorem shiftBy_type (h : shiftBy op a b = .ok v) : v.resultType = a.resultType ∧ b.resultType = .duration ∧
      (a.resultType = .dateTime ∨ a.resultType = .date ∨ a.resultType = .time) := by
  unfold shiftBy at h
  split at h
  · refine ⟨(?_ : Makes .dateTime _) v h, rfl, .inl rfl⟩
    exact .bind fun _ => .map fun _ => rfl
  · refine ⟨(?_ : Makes .date _) v h, rfl, .inr (.inl rfl)⟩
    exact .bind fun _ => .bind fun _ => .ok rfl
  · refine ⟨(?_ : Makes .time _) v h, rfl, .inr (.inr rfl)⟩
    exact .bind fun _ => .ok rfl
  · refine ⟨(?_ : Makes .dateTime _) v h, rfl, .inl rfl⟩
    exact .map fun _ => rfl
  · refine ⟨(?_ : Makes .date _) v h, rfl, .inr (.inl rfl)⟩
    exact .map fun _ => rfl
  · cases h

theorem AtomicValue.resultType_of_isNumeric (h : a.isNumeric = true) : a.resultType = .number := by
  cases a with
  | integer i | decimal x | double x => rfl
  | _ => cases h

theorem AtomicValue.resultType_of_isDuration (h : a.isDuration = true) : a.resultType = .duration := by
  cases a with
  | yearMonthDuration m | dayTimeDuration s => rfl
  | _ => cases h

/-- The result of an operator on operands of known categories. -/
theorem arithmetic_resultType (h : arithmetic op a b = .ok v) :
    arithmeticType op a.resultType b.resultType = v.resultType := by
  unfold arithmetic at h
  split at h
  · rename_i hnumeric
    obtain ⟨ha, hb⟩ := (Bool.and_eq_true _ _).mp hnumeric
    rw [AtomicValue.resultType_of_isNumeric ha, AtomicValue.resultType_of_isNumeric hb,
      numericArith_makes op a b v h]
    rfl
  · split at h
    case h_1 | h_2 | h_3 | h_4 =>
      refine ((?_ : Makes .duration _) v h).symm
      exact .map fun _ => rfl
    case h_5 | h_6 => exact (quotient_makes _ _ _ v h).symm
    case h_7 | h_8 | h_9 => exact (difference_makes _ _ v h).symm
    case h_10 =>
      split at h
      · rename_i hduration
        obtain ⟨ha, -⟩ := (Bool.and_eq_true _ _).mp hduration
        have ha := AtomicValue.resultType_of_isDuration ha
        split at h
        · rw [ha, (shiftBy_type h).1]
          rfl
        · rw [ha, (shiftBy_type h).1]
          rfl
        · split at h
          · rw [ha, (shiftBy_type h).1]
            rfl
          · cases h
        · cases h
      · obtain ⟨hv, hb, ha⟩ := shiftBy_type h
        rw [hv, hb]
        rcases ha with ha | ha | ha <;> rw [ha] <;> rfl
    case h_11 =>
      obtain ⟨hv, hb, ha⟩ := shiftBy_type h
      rw [hv, hb]
      rcases ha with ha | ha | ha <;> rw [ha] <;> rfl
    case h_12 =>
      split at h
      · rename_i hscale
        obtain ⟨ha, hb⟩ := (Bool.and_eq_true _ _).mp hscale
        rw [AtomicValue.resultType_of_isDuration ha, AtomicValue.resultType_of_isNumeric hb,
          scaleBy_makes _ _ _ v h]
        rfl
      · split at h
        · rename_i hscale
          obtain ⟨ha, hb⟩ := (Bool.and_eq_true _ _).mp hscale
          rw [AtomicValue.resultType_of_isNumeric ha, AtomicValue.resultType_of_isDuration hb,
            scaleBy_makes _ _ _ v h]
          rfl
        · cases h
    case h_13 =>
      split at h
      · rename_i hscale
        obtain ⟨ha, hb⟩ := (Bool.and_eq_true _ _).mp hscale
        rw [AtomicValue.resultType_of_isDuration ha, AtomicValue.resultType_of_isNumeric hb,
          scaleBy_makes _ _ _ v h]
        rfl
      · cases h
    case h_14 => cases h

theorem negate_resultType (h : negate a = .ok v) : v.resultType = negatedType a.resultType := by
  unfold negate at h
  split at h
  case h_6 => cases h
  case h_1 =>
    refine (?_ : Makes .number _) v h
    exact .map fun _ => rfl
  case h_2 | h_3 =>
    cases h
    rfl
  case h_4 | h_5 =>
    refine (?_ : Makes .duration _) v h
    exact .map fun _ => rfl

/-! ## Operands -/

/-- A category whose items are taken by arithmetic as they are. -/
def ResultType.IsExact (t : ResultType) : Prop :=
  t ≠ .any ∧ t ≠ .nodeSet ∧ t ≠ .atomic

theorem ResultType.Has.operand (h : t.Has i) (ht : t.IsExact)
    (ha : numericOperand i.typedValue = .ok a) : a.resultType = t := by
  obtain ⟨hany, hnode, hatomic⟩ := ht
  have hi : i.resultType = t := h.resolve_left hany
  cases i with
  | node n => exact absurd hi.symm hnode
  | atomic b =>
    cases b with
    | untypedAtomic s => exact absurd hi.symm hatomic
    | _ =>
      cases ha
      exact hi

/-- The table knows of exact categories only. -/
theorem arithmeticType_exact (h : arithmeticType op l r ≠ .any) : l.IsExact ∧ r.IsExact := by
  unfold arithmeticType at h
  split at h
  case h_20 => exact absurd rfl h
  all_goals exact ⟨⟨nofun, nofun, nofun⟩, nofun, nofun, nofun⟩

theorem negatedType_exact (h : negatedType t ≠ .any) : t.IsExact := by
  unfold negatedType at h
  split at h
  · exact ⟨nofun, nofun, nofun⟩
  · exact ⟨nofun, nofun, nofun⟩
  · exact absurd rfl h

/-- What an operator gives is of the category that the table says. -/
theorem arithmetic_type (hx : l.Has x) (hy : r.Has y) (ha : numericOperand x.typedValue = .ok a)
    (hb : numericOperand y.typedValue = .ok b) (h : arithmetic op a b = .ok v) :
    (arithmeticType op l r).Has (.atomic v) := by
  by_cases hany : arithmeticType op l r = .any
  · exact .inl hany
  · obtain ⟨hl, hr⟩ := arithmeticType_exact hany
    refine .inr ?_
    rw [← hx.operand hl ha, ← hy.operand hr hb]
    exact (arithmetic_resultType h).symm

theorem negate_type (hx : t.Has x) (ha : numericOperand x.typedValue = .ok a)
    (h : negate a = .ok v) : (negatedType t).Has (.atomic v) := by
  by_cases hany : negatedType t = .any
  · exact .inl hany
  · refine .inr ?_
    rw [← hx.operand (negatedType_exact hany) ha]
    exact negate_resultType h

end XPath
