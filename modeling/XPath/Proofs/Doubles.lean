import Mathlib.Algebra.Group.Nat.Defs
import XPath.Atomic.Compare

/-!
# Doubles

What the library's model of the binary format says of the numbers that are compared: whole numbers are not NaN
(`isNaN_ofInt`), and the order of two numbers is that of the standard (`compareFloats_swap`,
`compareFloats_eq_none_iff`).
-/

namespace XPath

open Float.Model Float.Model.UnpackedFloat

/-! ## NaN -/

theorem unpackExponent_of_isNaN {b : BitVec Format.binary64.numBits}
    (h : (UnpackedFloat.unpack .binary64 b).isNaN = true) : unpackExponent b = -1#_ ∧ unpackMantissa b ≠ 0#_ := by
  delta UnpackedFloat.unpack at h
  dsimp only at h
  by_cases hexponent : unpackExponent b = -1#_
  · refine ⟨hexponent, fun hmantissa => ?_⟩
    rw [if_pos hexponent, if_pos hmantissa] at h
    cases h
  · rw [if_neg hexponent] at h
    by_cases hzero : unpackExponent b = 0#_
    · rw [if_pos hzero] at h
      by_cases hmantissa : unpackMantissa b = 0#_
      · rw [dif_pos hmantissa] at h
        cases h
      · rw [dif_neg hmantissa] at h
        cases h
    · rw [if_neg hzero] at h
      cases h

theorem isNaN_pack {x : UnpackedFloat} (hx : x.isNaN = false) : (Float.Model.pack x).isNaN = false := by
  refine Bool.eq_false_iff.2 fun h => ?_
  obtain ⟨hexponent, hmantissa⟩ := unpackExponent_of_isNaN h
  change unpackExponent (UnpackedFloat.pack .binary64 x) = _ at hexponent
  change unpackMantissa (UnpackedFloat.pack .binary64 x) ≠ _ at hmantissa
  cases x with
  | notANumber => cases hx
  | infinity s => exact hmantissa unpackMantissa_packComponents
  | zero s => exact hmantissa unpackMantissa_packComponents
  | finite s m e hm =>
    delta UnpackedFloat.pack at hexponent hmantissa
    dsimp only at hexponent hmantissa
    split at hexponent
    · rw [if_pos ‹_›] at hmantissa
      exact hmantissa unpackMantissa_packComponents
    rename_i hbiased
    split at hexponent
    · rw [unpackExponent_packComponents] at hexponent
      have hall : _ % 2 ^ 11 = 2047 := congrArg BitVec.toNat hexponent
      omega
    · rw [unpackExponent_packComponents] at hexponent
      exact absurd hexponent (by decide)

theorem isNaN_dite {p : Prop} [Decidable p] {f : p → UnpackedFloat} {g : ¬p → UnpackedFloat}
    (hf : ∀ h, (f h).isNaN = false) (hg : ∀ h, (g h).isNaN = false) : (dite p f g).isNaN = false := by
  by_cases h : p
  · rw [dif_pos h]
    exact hf h
  · rw [dif_neg h]
    exact hg h

theorem isNaN_ite {p : Prop} [Decidable p] {x y : UnpackedFloat} (hx : p → x.isNaN = false)
    (hy : ¬p → y.isNaN = false) : (ite p x y).isNaN = false := by
  by_cases h : p
  · rw [if_pos h]
    exact hx h
  · rw [if_neg h]
    exact hy h

theorem isNaN_roundWithAccuracy (sign : Sign) (m : Nat) (e : Int) (a : Accuracy) :
    (UnpackedFloat.roundWithAccuracy .binary64 sign m e a).isNaN = false :=
  isNaN_dite (fun _ => rfl) fun _ => rfl

theorem isNaN_round (sign : Sign) (m : Nat) (e : Int) : (UnpackedFloat.round .binary64 sign m e).isNaN = false :=
  isNaN_roundWithAccuracy ..

theorem isNaN_normalize (m e : Int) (s : Sign) : (UnpackedFloat.normalize .binary64 m e s).isNaN = false := by
  unfold UnpackedFloat.normalize
  split
  · exact isNaN_round ..
  · rfl
  · exact isNaN_round ..

theorem isNaN_mul {x : UnpackedFloat} (hx : x.isNaN = false) {s : Sign} {m : Nat} {e : Int} {hm : 0 < m} :
    (x.mul .binary64 (.finite s m e hm)).isNaN = false := by
  cases x with
  | notANumber => cases hx
  | infinity s | zero s => rfl
  | finite s m e h => exact isNaN_roundWithAccuracy ..

theorem isNaN_neg {x : Float} (hx : x.isNaN = false) : (Float.neg x).isNaN = false := by
  refine isNaN_pack ?_
  have hx : x.toModel.unpack.isNaN = false := hx
  generalize x.toModel.unpack = u at *
  cases u with
  | notANumber => cases hx
  | infinity s | zero s | finite s m e h => rfl

theorem isNaN_mul_one {x : Float} (hx : x.isNaN = false) : (x * Float.ofBits 0x3FF0000000000000).isNaN = false := by
  have hone : (Float.ofBits 0x3FF0000000000000).toModel.unpack = .finite .positive (2 ^ 52) (-52) (by decide) := rfl
  refine isNaN_pack ?_
  rw [hone]
  exact isNaN_mul hx

theorem isNaN_ofNat (n : Nat) : (Float.ofNat n).isNaN = false := by
  unfold Float.ofNat OfScientific.ofScientific instOfScientificFloat Float.ofScientific
  dsimp only
  split
  · simp only [Bool.false_eq_true, ↓reduceIte]
    refine isNaN_mul_one (isNaN_pack ?_)
    exact isNaN_normalize ..
  · refine isNaN_pack ?_
    rw [if_neg Bool.false_ne_true]
    unfold UnpackedFloat.ofScientific
    refine isNaN_dite (fun _ => rfl) fun _ => isNaN_ite (fun _ => rfl) fun _ => isNaN_ite (fun _ => rfl) fun _ => ?_
    -- a division takes place only under a negative exponent
    exact isNaN_ite (fun _ => isNaN_mul rfl) fun h => absurd (Int.natCast_nonneg 0) h

theorem isNaN_ofInt (i : Int) : (Float.ofInt i).isNaN = false := by
  cases i with
  | ofNat n => exact isNaN_ofNat n
  | negSucc n => exact isNaN_neg (isNaN_ofNat _)

/-! ## Order -/

theorem unpacked_compare_swap (x y : UnpackedFloat) : y.compare x = (x.compare y).map Ordering.swap := by
  rcases x with (_ | _) | _ | _ | ⟨_ | _, m, e, _⟩ <;> rcases y with (_ | _) | _ | _ | ⟨_ | _, m', e', _⟩ <;>
    try rfl
  all_goals
    dsimp only [UnpackedFloat.compare]
    simp only [Option.map_some, Ordering.swap_then, ← @Std.OrientedCmp.eq_swap Int, ← @Std.OrientedCmp.eq_swap Nat]

theorem unpacked_compare_eq_none_iff {x y : UnpackedFloat} : x.compare y = none ↔ x.isNaN ∨ y.isNaN := by
  rcases x with (_ | _) | _ | _ | ⟨_ | _, m, e, _⟩ <;> rcases y with (_ | _) | _ | _ | ⟨_ | _, m', e', _⟩ <;>
    first
    | exact iff_of_true rfl (.inl rfl)
    | exact iff_of_true rfl (.inr rfl)
    | exact iff_of_false (Option.some_ne_none _) (Or.rec Bool.false_ne_true Bool.false_ne_true)

/-- Comparing doubles with the three operators is the comparison of the standard. -/
theorem compareFloats_eq (x y : Float) : compareFloats x y = x.toModel.compare y.toModel := by
  have hlt : ∀ x y : Float, x < y ↔ x.toModel.compare y.toModel = some .lt := by
    intro x y
    change decide ((x.toModel.compare y.toModel == some .lt) = true) = true ↔ _
    rw [decide_eq_true_iff, beq_iff_eq]
  have heq : x == y ↔ x.toModel.compare y.toModel = some .eq := by
    change (x.toModel.compare y.toModel == some .eq) = true ↔ _
    rw [beq_iff_eq]
  have hswap : y.toModel.compare x.toModel = (x.toModel.compare y.toModel).map Ordering.swap :=
    unpacked_compare_swap _ _
  simp only [compareFloats, hlt, heq, hswap]
  match x.toModel.compare y.toModel with
  | none | some .lt | some .eq | some .gt => rfl

theorem compareFloats_swap (x y : Float) : compareFloats y x = (compareFloats x y).map Ordering.swap := by
  rw [compareFloats_eq, compareFloats_eq]
  exact unpacked_compare_swap _ _

theorem compareFloats_eq_none_iff {x y : Float} : compareFloats x y = none ↔ x.isNaN ∨ y.isNaN := by
  rw [compareFloats_eq]
  exact unpacked_compare_eq_none_iff

end XPath
