import Mathlib.Algebra.Group.Int.Defs
import XPath.Atomic.Arithmetic

/-!
# Integer arithmetic

Two integers give the exact result of an operator wherever 64 bits can hold it, and overflow elsewhere
(`arithmetic_integers`). One remainder is refused although it is zero: that of the smallest integer by -1, whose
quotient does not fit.
-/

namespace XPath

variable {op : ArithOp} {i : Int}

/-- The result of an operator on whole numbers; quotients are cut toward zero. -/
def ArithOp.exact : ArithOp → Int → Int → Int
  | add, x, y => x + y
  | sub, x, y => x - y
  | mul, x, y => x * y
  | div, x, y | idiv, x, y => x.tdiv y
  | mod, x, y => x - y * x.tdiv y

/-- The remainder is smaller than the divisor and has the sign of the dividend. -/
theorem ArithOp.exact_idiv_mod (x : Int) {y : Int} (hy : y ≠ 0) :
    x = y * idiv.exact x y + mod.exact x y ∧ (mod.exact x y).natAbs < y.natAbs ∧ 0 ≤ mod.exact x y * x := by
  have hmod : mod.exact x y = x.tmod y := by rw [exact, Int.tmod_def]
  refine ⟨?_, ?_, ?_⟩
  · simp only [exact]
    omega
  · rw [hmod, Int.natAbs_tmod]
    exact Nat.mod_lt _ (Int.natAbs_pos.2 hy)
  · rw [hmod]
    rcases Int.le_total 0 x with hx | hx
    · exact Int.mul_nonneg (Int.tmod_nonneg y hx) hx
    · have hneg : 0 ≤ (-x).tmod y := Int.tmod_nonneg y (by omega)
      rw [Int.neg_tmod] at hneg
      exact Int.mul_nonneg_of_nonpos_of_nonpos (by omega) hx

/-! ## What fits -/

/-- Some 64-bit integer is this number. -/
def FitsInt64 (i : Int) : Prop :=
  -2 ^ 63 ≤ i ∧ i < 2 ^ 63

instance (i : Int) : Decidable (FitsInt64 i) :=
  inferInstanceAs (Decidable (_ ∧ _))

theorem fitsInt64_toInt (x : Int64) : FitsInt64 x.toInt :=
  ⟨Int64.le_toInt x, Int64.toInt_lt x⟩

theorem toInt64?_eq (i : Int) : Text.toInt64? i = if FitsInt64 i then some (Int64.ofInt i) else none := by
  have hbounds : (Int64.minValue.toInt ≤ i ∧ i ≤ Int64.maxValue.toInt) = FitsInt64 i :=
    propext ⟨fun h => ⟨h.1, Int.lt_add_one_of_le h.2⟩, fun h => ⟨h.1, Int.le_of_lt_add_one h.2⟩⟩
  simp only [Text.toInt64?, hbounds]

/-- A quotient fits unless it is that of the smallest integer by -1. -/
theorem fitsInt64_tdiv_iff (x : Int64) {y : Int64} (hy : y ≠ 0) :
    FitsInt64 (x.toInt.tdiv y.toInt) ↔ ¬(x = Int64.minValue ∧ y = -1) := by
  obtain ⟨hlow, hhigh⟩ := fitsInt64_toInt x
  have hzero : y.toInt ≠ 0 := fun h => hy (Int64.toInt_inj.1 h)
  have habs : (x.toInt.tdiv y.toInt).natAbs = x.toInt.natAbs / y.toInt.natAbs := Int.natAbs_tdiv _ _
  have hmin : x = Int64.minValue ↔ x.toInt = -2 ^ 63 := Int64.toInt_inj.symm
  have hone : y = -1 ↔ y.toInt = -1 := Int64.toInt_inj.symm
  rw [hmin, hone]
  unfold FitsInt64
  by_cases hneg : y.toInt = -1
  · rw [hneg, Int.tdiv_neg, Int.tdiv_one]
    omega
  by_cases hpos : y.toInt = 1
  · rw [hpos, Int.tdiv_one]
    omega
  have : x.toInt.natAbs / y.toInt.natAbs ≤ x.toInt.natAbs / 2 := Nat.div_le_div_left (by omega) (by omega)
  omega

/-! ## The operators -/

def ArithOp.DividesByZero (op : ArithOp) (y : Int64) : Prop :=
  (op = .idiv ∨ op = .mod) ∧ y = 0

/-- The one remainder that is refused. -/
def ArithOp.RefusesRemainder (op : ArithOp) (x y : Int64) : Prop :=
  op = .mod ∧ x = Int64.minValue ∧ y = -1

instance (op : ArithOp) (y : Int64) : Decidable (op.DividesByZero y) :=
  inferInstanceAs (Decidable (_ ∧ _))

instance (op : ArithOp) (x y : Int64) : Decidable (op.RefusesRemainder x y) :=
  inferInstanceAs (Decidable (_ ∧ _))

theorem integerArith_eq (hop : op ≠ .div) (x y : Int64) : integerArith op x y =
      if op.DividesByZero y then .error (divisionByZero op)
      else if op.RefusesRemainder x y then .error (overflow op)
      else .integer <$> checkedInt64 op (op.exact x.toInt y.toInt) := by
  cases op with
  | div => exact absurd rfl hop
  | add | sub | mul | idiv => simp [ArithOp.DividesByZero, ArithOp.RefusesRemainder, integerArith, ArithOp.exact]
  | mod =>
    by_cases hy : y = 0
    · simp [ArithOp.DividesByZero, integerArith, hy]
    -- the quotient is checked first, and only the refused remainder's does not fit
    have hmod : integerArith .mod x y = checkedInt64 .mod (x.toInt.tdiv y.toInt) >>= fun _ =>
        .integer <$> checkedInt64 .mod (x.toInt.tmod y.toInt) := if_neg hy
    have hquotient := fitsInt64_tdiv_iff x hy
    rw [if_neg fun h => hy h.2, hmod, checkedInt64, toInt64?_eq, Int.tmod_def]
    by_cases hrefused : x = Int64.minValue ∧ y = -1
    · rw [if_neg fun h => hquotient.1 h hrefused, if_pos ⟨rfl, hrefused⟩]
      rfl
    · rw [if_pos (hquotient.2 hrefused), if_neg fun h => hrefused h.2]
      rfl

theorem integer_checkedInt64 (op : ArithOp) (i : Int) : AtomicValue.integer <$> checkedInt64 op i =
      if FitsInt64 i then .ok (.integer (Int64.ofInt i)) else .error (overflow op) := by
  rw [checkedInt64, toInt64?_eq]
  split <;> rfl

theorem toInt_eq_iff {z : Int64} : z.toInt = i ↔ FitsInt64 i ∧ Int64.ofInt i = z := by
  constructor
  · rintro rfl
    exact ⟨fitsInt64_toInt z, Int64.ofInt_toInt z⟩
  · rintro ⟨hfits, rfl⟩
    exact Int64.toInt_ofInt_of_le hfits.1 hfits.2

/-- Arithmetic on integers is exact, but for division by zero, overflow and the one refused remainder. -/
theorem arithmetic_integers (hop : op ≠ .div) (x y : Int64) :
    (∀ v, arithmetic op (.integer x) (.integer y) = .ok v ↔
      ¬op.DividesByZero y ∧ ¬op.RefusesRemainder x y ∧
        ∃ z : Int64, z.toInt = op.exact x.toInt y.toInt ∧ .integer z = v) ∧
    ((∃ e, arithmetic op (.integer x) (.integer y) = .error e ∧ e.code = ErrorCode.FOAR0001.name) ↔
      op.DividesByZero y) ∧
    ((∃ e, arithmetic op (.integer x) (.integer y) = .error e ∧ e.code = ErrorCode.FOAR0002.name) ↔
      ¬op.DividesByZero y ∧ (op.RefusesRemainder x y ∨ ¬FitsInt64 (op.exact x.toInt y.toInt))) ∧
    (y ≠ 0 → x.toInt = y.toInt * ArithOp.idiv.exact x.toInt y.toInt + ArithOp.mod.exact x.toInt y.toInt ∧
      (ArithOp.mod.exact x.toInt y.toInt).natAbs < y.toInt.natAbs ∧
      0 ≤ ArithOp.mod.exact x.toInt y.toInt * x.toInt) := by
  have heq : arithmetic op (.integer x) (.integer y) = _ := integerArith_eq hop x y
  have hzero : (divisionByZero op).code = ErrorCode.FOAR0001.name := rfl
  have hover : (overflow op).code = ErrorCode.FOAR0002.name := rfl
  have hcodes : ErrorCode.FOAR0001.name ≠ ErrorCode.FOAR0002.name := by decide
  rw [integer_checkedInt64] at heq
  rw [heq]
  refine ⟨fun v => ?_, ?_, ?_, fun hy => ArithOp.exact_idiv_mod _ fun h => hy (Int64.toInt_inj.1 h)⟩
  all_goals
    by_cases hdiv : op.DividesByZero y
    · simp [hdiv, hzero, hcodes]
    by_cases hrefused : op.RefusesRemainder x y
    · simp [hdiv, hrefused, hover, hcodes.symm]
    by_cases hfits : FitsInt64 (op.exact x.toInt y.toInt)
    · simp [hdiv, hrefused, hfits, toInt_eq_iff]
    · simp [hdiv, hrefused, hfits, toInt_eq_iff, hover, hcodes.symm]

theorem arithmetic_integers_smallest :
    ArithOp.idiv ≠ .div ∧
      ∃ e, arithmetic .idiv (.integer Int64.minValue) (.integer (-1)) = .error e ∧ e.code = ErrorCode.FOAR0002.name :=
  ⟨by decide, (arithmetic_integers (by decide) Int64.minValue (-1)).2.2.1.2 (by decide)⟩

/-- The remainder of the smallest integer by -1 is zero, and it is refused. -/
theorem arithmetic_refusedRemainder :
    ArithOp.mod.exact Int64.minValue.toInt (-1 : Int64).toInt = (0 : Int64).toInt ∧
      arithmetic .mod (.integer Int64.minValue) (.integer (-1)) = .error (overflow .mod) :=
  ⟨by decide, rfl⟩

end XPath
