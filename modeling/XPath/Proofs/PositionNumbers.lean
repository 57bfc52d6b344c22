import Mathlib
import XPath.Plan.Bind

/-!
# Positions as numbers

A predicate that comes to a number accepts the item at that position. The number is a double, and so is the
position that it is compared with. Positions below `2 ^ 53` are doubles exactly (`unpack_ofNat`), so a literal
that stands for a position accepts this one and no other (`Program.accepts_of_literalPosition`).
-/

namespace XPath

open Float.Model Float.Model.UnpackedFloat

/-! ## Rounding -/

section

variable {m n k : Nat} {e : Int}

theorem log2_of_mantissa (hlo : 2 ^ 52 ≤ m) (hhi : m < 2 ^ 53) : m.log2 = 52 :=
  (Nat.log2_eq_iff (by omega)).mpr ⟨hlo, hhi⟩

theorem log2_mul_two_pow (hm : m ≠ 0) (k : Nat) : (m * 2 ^ k).log2 = m.log2 + k := by
  induction k with
  | zero => rw [Nat.pow_zero, Nat.mul_one, Nat.add_zero]
  | succ k ih =>
    have hne : m * 2 ^ k ≠ 0 := Nat.mul_ne_zero hm (Nat.ne_of_gt (Nat.two_pow_pos k))
    rw [Nat.pow_succ, ← Nat.mul_assoc, Nat.mul_comm _ 2, Nat.log2_two_mul hne, ih, Nat.add_assoc]

/-- A number below `2 ^ 53`, shifted so that it has 53 digits. -/
theorem mantissa_of_lt (hn : n ≠ 0) (hlt : n < 2 ^ 53) :
    n.log2 ≤ 52 ∧ 2 ^ 52 ≤ n * 2 ^ (52 - n.log2) ∧ n * 2 ^ (52 - n.log2) < 2 ^ 53 := by
  have hlog : n.log2 ≤ 52 := Nat.le_of_lt_succ ((Nat.log2_lt hn).mpr hlt)
  have hne : n * 2 ^ (52 - n.log2) ≠ 0 := Nat.mul_ne_zero hn (Nat.ne_of_gt (Nat.two_pow_pos _))
  refine ⟨hlog, (Nat.log2_eq_iff hne).mp ?_⟩
  rw [log2_mul_two_pow hn]
  omega

theorem targetExponent_eq (m : Nat) (e : Int) :
    Format.binary64.targetExponent (totalExponent m e) = max (m.log2 + e - 52) (-1074) := by
  simp only [Format.targetExponent, totalExponent, Format.mantissaBits, Format.minExponent]
  omega

theorem mantissa_shiftRight (em : ExtendedMantissa) (k : Nat) : (em >>> k).mantissa = em.mantissa / 2 ^ k := by
  change (k.repeat ExtendedMantissa.shiftRightOne em).mantissa = _
  induction k with
  | zero => rw [Nat.pow_zero, Nat.div_one, Nat.repeat]
  | succ k ih =>
    rw [Nat.repeat, ExtendedMantissa.shiftRightOne, ih, Nat.div_div_eq_div_mul, Nat.pow_succ]

theorem shiftRight_mul_two_pow (m k : Nat) :
    (⟨m * 2 ^ k, false, false⟩ : ExtendedMantissa) >>> k = ⟨m, false, false⟩ := by
  change k.repeat ExtendedMantissa.shiftRightOne _ = _
  induction k generalizing m with
  | zero => rw [Nat.pow_zero, Nat.mul_one, Nat.repeat]
  | succ k ih =>
    rw [Nat.repeat, Nat.pow_succ, Nat.mul_comm (2 ^ k), ← Nat.mul_assoc, ih]
    simp [ExtendedMantissa.shiftRightOne]

theorem roundedMantissa_bounds (em : ExtendedMantissa) :
    em.mantissa ≤ em.roundedMantissa ∧ em.roundedMantissa ≤ em.mantissa + 1 := by
  obtain ⟨m, roundBit, stickyBit⟩ := em
  cases roundBit <;> cases stickyBit <;>
    simp [ExtendedMantissa.roundedMantissa, ExtendedMantissa.accuracy, Accuracy.roundToNearestEven]
  omega

/-- Zeros at the end are shifted out. -/
theorem shiftToTargetExponent_mul_two_pow (hlo : 2 ^ 52 ≤ m) (hhi : m < 2 ^ 53) (k : Nat) (he : -1074 ≤ e + k) :
    shiftToTargetExponent .binary64 (m * 2 ^ k) e .exact = (⟨m, false, false⟩, e + k) := by
  have hshift : (Format.binary64.targetExponent (totalExponent (m * 2 ^ k) e) - e).toNat = k := by
    rw [targetExponent_eq, log2_mul_two_pow (by omega), log2_of_mantissa hlo hhi]
    omega
  simp only [shiftToTargetExponent, shiftToExponent, hshift]
  exact Prod.ext (shiftRight_mul_two_pow m k) rfl

theorem shiftToTargetExponent_of_mantissa (hlo : 2 ^ 52 ≤ m) (hhi : m < 2 ^ 53) (he : -1074 ≤ e) :
    shiftToTargetExponent .binary64 m e .exact = (⟨m, false, false⟩, e) := by
  have h := shiftToTargetExponent_mul_two_pow (e := e) hlo hhi 0 (by omega)
  rwa [Nat.pow_zero, Nat.mul_one, Int.natCast_zero, Int.add_zero] at h

theorem roundWithAccuracy_mul_two_pow (hlo : 2 ^ 52 ≤ m) (hhi : m < 2 ^ 53) (hm : 0 < m) (he : -1074 ≤ e + k) :
    roundWithAccuracy .binary64 .positive (m * 2 ^ k) e .exact = .finite .positive m (e + k) hm := by
  unfold roundWithAccuracy
  rw [shiftToTargetExponent_mul_two_pow hlo hhi k he]
  change (match shiftToTargetExponent .binary64 m (e + k) .exact with
    | (em, e') => if h : em.mantissa = 0 then UnpackedFloat.zero .positive
        else .finite .positive em.mantissa e' (Nat.pos_of_ne_zero h)) = _
  rw [shiftToTargetExponent_of_mantissa hlo hhi he]
  exact dif_neg (Nat.ne_of_gt hm)

/-- What comes out has 53 digits and is at least as large as its shift says. -/
theorem exists_roundWithAccuracy (hm : 52 + k = m.log2) (he : -1074 ≤ e + k) :
    ∃ (r : Nat) (hr : 0 < r) (e' : Int), 2 ^ 52 ≤ r ∧ r < 2 ^ 53 ∧ e + k ≤ e' ∧ e' ≤ e + k + 1 ∧
      roundWithAccuracy .binary64 .positive m e .exact = .finite .positive r e' hr := by
  have hne : m ≠ 0 := by
    rintro rfl
    simp at hm
  have hshift : (Format.binary64.targetExponent (totalExponent m e) - e).toNat = k := by
    rw [targetExponent_eq]
    omega
  obtain ⟨em, hfirst, hmantissa⟩ : ∃ em : ExtendedMantissa,
      shiftToTargetExponent .binary64 m e .exact = (em, e + k) ∧ em.mantissa = m / 2 ^ k := by
    simp only [shiftToTargetExponent, shiftToExponent, hshift]
    exact ⟨_, rfl, mantissa_shiftRight _ k⟩
  have hquotient : 2 ^ 52 ≤ m / 2 ^ k ∧ m / 2 ^ k < 2 ^ 53 := by
    obtain ⟨hlo, hhi⟩ := (Nat.log2_eq_iff hne).mp hm.symm
    rw [Nat.le_div_iff_mul_le (Nat.two_pow_pos k), Nat.div_lt_iff_lt_mul (Nat.two_pow_pos k), ← Nat.pow_add,
      ← Nat.pow_add]
    refine ⟨hlo, ?_⟩
    rwa [Nat.add_right_comm] at hhi
  obtain ⟨hlower, hupper⟩ := roundedMantissa_bounds em
  unfold roundWithAccuracy
  rw [hfirst]
  dsimp only
  by_cases hsmall : em.roundedMantissa < 2 ^ 53
  · rw [shiftToTargetExponent_of_mantissa (by omega) hsmall he]
    have hpos : 0 < em.roundedMantissa := by omega
    exact ⟨em.roundedMantissa, hpos, e + k, by omega, hsmall, by omega, by omega,
      dif_neg (Nat.ne_of_gt hpos)⟩
  · -- the carry of the rounding makes one digit more
    have hcarry : em.roundedMantissa = 2 ^ 52 * 2 ^ 1 := by omega
    refine ⟨2 ^ 52, by decide, e + k + 1, by decide, by decide, by omega, by omega, ?_⟩
    rw [hcarry, shiftToTargetExponent_mul_two_pow (by decide) (by decide) 1 (by omega)]
    rfl

/-! ## Packed numbers -/

theorem toNat_unpackMantissa (b : BitVec 64) : (@unpackMantissa .binary64 b).toNat = b.toNat % 2 ^ 52 := by
  simp [unpackMantissa]

theorem toNat_unpackExponent (b : BitVec 64) : (@unpackExponent .binary64 b).toNat = b.toNat / 2 ^ 52 % 2 ^ 11 := by
  simp [unpackExponent, Nat.shiftRight_eq_div_pow]

theorem toNat_unpackSign (b : BitVec 64) : (@unpackSign .binary64 b).toNat = b.toNat / 2 ^ 63 % 2 := by
  simp [unpackSign, Nat.shiftRight_eq_div_pow]

/-- A double whose field for the exponent is neither empty nor full. -/
theorem unpack_of_fields {b : BitVec 64} (field : Nat) (hsign : b.toNat / 2 ^ 63 ≠ 1)
    (hfield : b.toNat / 2 ^ 52 % 2 ^ 11 = field) (hfull : field ≠ 2047) (hempty : field ≠ 0)
    (hm : b.toNat % 2 ^ 52 + 2 ^ 52 = m) (hpos : 0 < m) :
    UnpackedFloat.unpack .binary64 b = .finite .positive m ((field : Int) - 1075) hpos := by
  have hfull' : @unpackExponent .binary64 b ≠ -1#11 := by
    intro h
    have := congrArg BitVec.toNat h
    rw [toNat_unpackExponent, hfield] at this
    exact hfull this
  have hempty' : @unpackExponent .binary64 b ≠ 0#11 := by
    intro h
    have := congrArg BitVec.toNat h
    rw [toNat_unpackExponent, hfield] at this
    exact hempty this
  have hpositive : @unpackSign .binary64 b = 0#1 := by
    apply BitVec.eq_of_toNat_eq
    rw [toNat_unpackSign]
    change _ = 0
    omega
  have hmantissa : (1#1 ++ @unpackMantissa .binary64 b).toNat = m := by
    rw [BitVec.toNat_append, ← Nat.shiftLeft_add_eq_or_of_lt (@unpackMantissa .binary64 b).isLt,
      Nat.shiftLeft_eq, toNat_unpackMantissa, ← hm]
    change 1 * 2 ^ 52 + _ = _
    omega
  have hexponent : ((@unpackExponent .binary64 b).toNat : Int) -
      (Format.binary64.exponentBias + (52 : Nat)) = field - 1075 := by
    rw [toNat_unpackExponent, hfield]
    rfl
  simp only [UnpackedFloat.unpack]
  rw [if_neg hfull', if_neg hempty', hpositive]
  simp only [hmantissa, hexponent]
  rfl

/-- A number with 53 digits is the same after packing. -/
theorem unpack_pack_of_mantissa (hlo : 2 ^ 52 ≤ m) (hhi : m < 2 ^ 53) (hm : 0 < m) (helo : -1074 ≤ e)
    (hehi : e ≤ 971) : (Float.Model.pack (.finite .positive m e hm)).unpack = .finite .positive m e hm := by
  have hbiased : (e + Format.binary64.exponentBias +
      Format.binary64.mantissaBitsWithoutImplicit).toNat = (e + 1075).toNat := by
    change (e + (2 ^ (11 - 1) - 1 : Nat) + (52 : Nat)).toNat = (e + 1075).toNat
    omega
  have hpack : UnpackedFloat.pack .binary64 (.finite .positive m e hm) =
      packComponents .binary64 .positive (BitVec.ofNat 11 (e + 1075).toNat) (BitVec.ofNat 52 m) := by
    simp only [UnpackedFloat.pack, hbiased, log2_of_mantissa hlo hhi]
    rw [if_neg (by omega), if_pos (by rfl)]
  change UnpackedFloat.unpack .binary64 (UnpackedFloat.pack .binary64 (.finite .positive m e hm)) = _
  rw [hpack, unpack_of_fields (e + 1075).toNat ?_ ?_ (by omega) (by omega) ?_ hm]
  · have hexponent : ((e + 1075).toNat : Int) - 1075 = e := by omega
    simp only [hexponent]
  · have hsign : @unpackSign .binary64 (packComponents .binary64 .positive
        (BitVec.ofNat 11 (e + 1075).toNat) (BitVec.ofNat 52 m)) = 0#1 := by
      simp only [unpackSign, packComponents, BitVec.extractLsb]
      rw [BitVec.extractLsb'_append_eq_of_le (by omega), BitVec.extractLsb'_append_eq_of_le (by omega)]
      rfl
    have hzero := congrArg BitVec.toNat hsign
    rw [toNat_unpackSign] at hzero
    change _ = 0 at hzero
    omega
  · rw [← toNat_unpackExponent, unpackExponent_packComponents]
    exact Nat.mod_eq_of_lt (by omega)
  · rw [← toNat_unpackMantissa, unpackMantissa_packComponents]
    change m % 2 ^ 52 + 2 ^ 52 = m
    omega

/-! ## Natural numbers -/

theorem unpack_toFloat (hn : 0 < n) (hlt : n < 2 ^ 53) (hm : 0 < n * 2 ^ (52 - n.log2)) :
    n.toUInt64.toFloat.toModel.unpack = .finite .positive (n * 2 ^ (52 - n.log2)) (n.log2 - 52) hm := by
  obtain ⟨hlog, hlo, hhi⟩ := mantissa_of_lt (Nat.ne_of_gt hn) hlt
  have hround : UnpackedFloat.ofUInt64 .binary64 n.toUInt64 =
      .finite .positive (n * 2 ^ (52 - n.log2)) (n.log2 - 52) hm := by
    have hto : n.toUInt64.toNat = n := Nat.mod_eq_of_lt (by omega)
    have hcompare : compare (n : Int) 0 = .gt := by
      rw [Int.compare_eq_gt]
      omega
    have htarget : Format.binary64.targetExponent (totalExponent n 0) = n.log2 - 52 := by
      rw [targetExponent_eq]
      omega
    simp only [UnpackedFloat.ofUInt64, UnpackedFloat.ofNat, UnpackedFloat.ofInt, hto, UnpackedFloat.normalize, hcompare,
      UnpackedFloat.round, Int.toNat_natCast, htarget, decreaseExponent]
    have hshift : (0 - ((n.log2 : Int) - 52)).toNat = 52 - n.log2 := by omega
    have hexponent : 0 - ((52 - n.log2 : Nat) : Int) = n.log2 - 52 := by omega
    rw [hshift, hexponent, Nat.shiftLeft_eq]
    have hexact := roundWithAccuracy_mul_two_pow (k := 0) (e := n.log2 - 52) hlo hhi hm (by omega)
    rwa [Nat.pow_zero, Nat.mul_one, Int.natCast_zero, Int.add_zero] at hexact
  change (Float.Model.pack (UnpackedFloat.ofUInt64 .binary64 n.toUInt64)).unpack = _
  rw [hround]
  exact unpack_pack_of_mantissa hlo hhi hm (by omega) (by omega)

/-- A position below `2 ^ 53` is a double exactly. -/
theorem unpack_ofNat (hn : 0 < n) (hlt : n < 2 ^ 53) (hm : 0 < n * 2 ^ (52 - n.log2)) :
    (Float.ofNat n).toModel.unpack = .finite .positive (n * 2 ^ (52 - n.log2)) (n.log2 - 52) hm := by
  obtain ⟨hlog, hlo, hhi⟩ := mantissa_of_lt (Nat.ne_of_gt hn) hlt
  have hof : Float.ofNat n = n.toUInt64.toFloat * Float.ofBits 0x3FF0000000000000 := by
    change Float.ofScientific n false 0 = _
    unfold Float.ofScientific
    rw [dif_pos ⟨hlt, Nat.zero_le 22⟩]
    rfl
  have hunit : (Float.ofBits 0x3FF0000000000000).toModel.unpack =
      .finite .positive (2 ^ 52) (-52) (by decide) := rfl
  rw [hof]
  change (Float.Model.pack (UnpackedFloat.mul .binary64 n.toUInt64.toFloat.toModel.unpack
    (Float.ofBits 0x3FF0000000000000).toModel.unpack)).unpack = _
  rw [unpack_toFloat hn hlt hm, hunit]
  change (Float.Model.pack (roundWithAccuracy .binary64 .positive (n * 2 ^ (52 - n.log2) * 2 ^ 52)
    (n.log2 - 52 + -52) .exact)).unpack = _
  have hexponent : (n.log2 : Int) - 52 + -52 + (52 : Nat) = n.log2 - 52 := by omega
  rw [roundWithAccuracy_mul_two_pow hlo hhi hm (by omega)]
  simp only [hexponent]
  exact unpack_pack_of_mantissa hlo hhi hm (by omega) (by omega)

/-- A larger number is rounded to a double with a positive exponent. -/
theorem exists_unpack_ofNat (hlo : 2 ^ 53 ≤ n) (hhi : n < 2 ^ 64) :
    ∃ (m : Nat) (e : Int) (hm : 0 < m), 1 ≤ e ∧ (Float.ofNat n).toModel.unpack = .finite .positive m e hm := by
  have hne : n ≠ 0 := by omega
  have hlog : 53 ≤ n.log2 ∧ n.log2 < 64 := ⟨(Nat.le_log2 hne).mpr hlo, (Nat.log2_lt hne).mpr hhi⟩
  have hof : Float.ofNat n = Float.ofModel (Float.Model.ofScientific n 0) := by
    change Float.ofScientific n false 0 = _
    unfold Float.ofScientific
    rw [dif_neg (by omega)]
    rfl
  have hround : UnpackedFloat.ofScientific .binary64 n 0 =
      roundWithAccuracy .binary64 .positive (n * 2 ^ 53) (-53) .exact := by
    have hsmall : ¬ (0 : Int) < -((2 ^ 11 : Int) + n.log2) := by omega
    unfold UnpackedFloat.ofScientific
    rw [dif_neg hne, if_neg (by decide), if_neg hsmall, if_pos (Int.le_refl 0)]
    change roundWithAccuracy .binary64 .positive (n <<< 53 * 1) (-53 + 0) .exact = _
    rw [Nat.mul_one, Nat.shiftLeft_eq]
    rfl
  obtain ⟨m, hm, e, hmlo, hmhi, helo, hehi, hrounded⟩ :=
    exists_roundWithAccuracy (m := n * 2 ^ 53) (k := n.log2 + 1) (e := -53)
      (by rw [log2_mul_two_pow hne]; omega) (by omega)
  refine ⟨m, e, hm, by omega, ?_⟩
  rw [hof]
  change (Float.Model.pack (UnpackedFloat.ofScientific .binary64 n 0)).unpack = _
  rw [hround, hrounded]
  exact unpack_pack_of_mantissa hmlo hmhi hm (by omega) (by omega)

/-! ## Comparing with a position -/

theorem beq_of_unpack {x y : Float} {m' : Nat} {e' : Int} {hm : 0 < m} {hm' : 0 < m'}
    (hx : x.toModel.unpack = .finite .positive m e hm) (hy : y.toModel.unpack = .finite .positive m' e' hm') :
    (x == y) = decide (e = e' ∧ m = m') := by
  change (x.toModel.unpack.compare y.toModel.unpack == some .eq) = _
  rw [hx, hy]
  change (some ((compare e e').then (compare m m')) == some .eq) = _
  by_cases he : e = e'
  · by_cases hmm : m = m'
    · simp [he, hmm]
    · simp [he, hmm]
  · have hcompare : compare e e' ≠ .eq := fun h => he (Int.compare_eq_eq.mp h)
    cases hc : compare e e' with
    | eq => exact absurd hc hcompare
    | lt | gt => simp [he]

/-- The double is the number `n`, written with 53 digits. -/
def IsNumber (x : Float) (n : Nat) : Prop :=
  ∃ (m : Nat) (e : Int) (hm : 0 < m), x.toModel.unpack = .finite .positive m e hm ∧ 2 ^ 52 ≤ m ∧
    m < 2 ^ 53 ∧ m * 2 ^ e.toNat = n * 2 ^ (-e).toNat

theorem isNumber_ofNat (hn : 0 < n) (hlt : n < 2 ^ 53) : IsNumber (Float.ofNat n) n := by
  have hm : 0 < n * 2 ^ (52 - n.log2) := Nat.mul_pos hn (Nat.two_pow_pos _)
  obtain ⟨hlog, hlo, hhi⟩ := mantissa_of_lt (Nat.ne_of_gt hn) hlt
  refine ⟨_, _, hm, unpack_ofNat hn hlt hm, hlo, hhi, ?_⟩
  have htop : ((n.log2 : Int) - 52).toNat = 0 := by omega
  have hbottom : (-((n.log2 : Int) - 52)).toNat = 52 - n.log2 := by omega
  rw [htop, hbottom, Nat.pow_zero, Nat.mul_one]

/-- Of the positions below `2 ^ 53`, a double is equal to the one whose number it is. -/
theorem IsNumber.beq_ofNat {x : Float} (h : IsNumber x n) (hpos : 0 < k) (hk : k < 2 ^ 53) :
    (x == Float.ofNat k) = (k == n) := by
  obtain ⟨m, e, hm, hx, hlo, hhi, hvalue⟩ := h
  have hkm : 0 < k * 2 ^ (52 - k.log2) := Nat.mul_pos hpos (Nat.two_pow_pos _)
  have hlog : k.log2 ≤ 52 := Nat.le_of_lt_succ ((Nat.log2_lt (Nat.ne_of_gt hpos)).mpr hk)
  rw [beq_of_unpack hx (unpack_ofNat hpos hk hkm), Bool.eq_iff_iff, decide_eq_true_iff, beq_iff_eq]
  constructor
  · rintro ⟨rfl, rfl⟩
    have htop : ((k.log2 : Int) - 52).toNat = 0 := by omega
    have hbottom : (-((k.log2 : Int) - 52)).toNat = 52 - k.log2 := by omega
    rw [htop, hbottom, Nat.pow_zero, Nat.mul_one] at hvalue
    exact Nat.eq_of_mul_eq_mul_right (Nat.two_pow_pos _) hvalue
  · rintro rfl
    have hdigits := congrArg Nat.log2 hvalue
    rw [log2_mul_two_pow (Nat.ne_of_gt hm), log2_mul_two_pow (Nat.ne_of_gt hpos),
      log2_of_mantissa hlo hhi] at hdigits
    have he : e = k.log2 - 52 := by omega
    have htop : e.toNat = 0 := by omega
    have hbottom : (-e).toNat = 52 - k.log2 := by omega
    rw [htop, hbottom, Nat.pow_zero, Nat.mul_one] at hvalue
    exact ⟨he, hvalue⟩

theorem ofNat_beq_ofNat (hn : 0 < n) (hlt : n < 2 ^ 64) (hpos : 0 < k) (hk : k < 2 ^ 53) :
    (Float.ofNat n == Float.ofNat k) = (k == n) := by
  by_cases hsmall : n < 2 ^ 53
  · exact (isNumber_ofNat hn hsmall).beq_ofNat hpos hk
  · obtain ⟨m, e, hm, he, hx⟩ := exists_unpack_ofNat (Nat.le_of_not_lt hsmall) hlt
    have hkm : 0 < k * 2 ^ (52 - k.log2) := Nat.mul_pos hpos (Nat.two_pow_pos _)
    have hlog : k.log2 ≤ 52 := Nat.le_of_lt_succ ((Nat.log2_lt (Nat.ne_of_gt hpos)).mpr hk)
    have hne : ¬ e = k.log2 - 52 := by omega
    rw [beq_of_unpack hx (unpack_ofNat hpos hk hkm), beq_eq_false_iff_ne.mpr (by omega)]
    exact decide_eq_false fun h => hne h.1

end

/-! ## Literals -/

section

variable {x : Float} {n k : Nat}

/-- Where nothing is cut off, the integer part is the whole number. -/
theorem whole_eq {q : Decimal.Parts} (h : q.isIntegral = true) :
    q.mantissa * 2 ^ q.exponent.toNat = q.whole * 2 ^ (-q.exponent).toNat := by
  unfold Decimal.Parts.whole
  by_cases he : 0 ≤ q.exponent
  · have hbottom : (-q.exponent).toNat = 0 := by omega
    rw [if_pos he, hbottom, Nat.pow_zero, Nat.mul_one]
  · have htop : q.exponent.toNat = 0 := by omega
    have hmod : q.mantissa % 2 ^ (-q.exponent).toNat = 0 := by
      simpa [Decimal.Parts.isIntegral, he] using h
    rw [if_neg he, htop, Nat.pow_zero, Nat.mul_one, Nat.div_mul_cancel (Nat.dvd_of_mod_eq_zero hmod)]

theorem whole_of_one_le_truncate {q : Decimal.Parts} (h : 1 ≤ q.truncate) :
    q.negative = false ∧ q.truncate.toNat = q.whole ∧ 1 ≤ q.whole := by
  unfold Decimal.Parts.truncate Decimal.Parts.signed at h ⊢
  cases hsign : q.negative with
  | true =>
    rw [hsign, if_pos rfl] at h
    omega
  | false =>
    rw [hsign, if_neg Bool.false_ne_true] at h
    exact ⟨rfl, by rw [if_neg Bool.false_ne_true, Int.toNat_natCast], by omega⟩

/-- A double without a fraction is the number that it is cut to. -/
theorem isNumber_of_truncate {i : Int} (htruncate : Decimal.truncate? x = some i)
    (hintegral : Decimal.isIntegral x = true) (hone : 1 ≤ i) : IsNumber x i.toNat := by
  obtain ⟨q, hq, rfl⟩ := Option.map_eq_some_iff.mp htruncate
  unfold Decimal.isIntegral at hintegral
  rw [hq] at hintegral
  obtain ⟨hnegative, htoNat, hwhole⟩ := whole_of_one_le_truncate hone
  have hvalue := whole_eq hintegral
  rw [← htoNat] at hvalue
  unfold Decimal.parts? at hq
  dsimp only at hq
  split at hq
  · cases hq
  next hfull =>
    split at hq
    · -- a number that small is cut to zero
      cases hq
      have hsmall : ∀ digits, 52 ≤ digits → x.toBits.toNat % 2 ^ 52 / 2 ^ digits = 0 := fun digits hdigits =>
        Nat.div_eq_of_lt (Nat.lt_of_lt_of_le (Nat.mod_lt _ (by decide))
          (Nat.pow_le_pow_right (by decide) hdigits))
      have hzero : Decimal.Parts.whole ⟨x.toBits.toNat / 2 ^ 63 == 1, x.toBits.toNat % 2 ^ 52, -1074⟩ = 0 :=
        hsmall (-(-1074 : Int)).toNat (by decide)
      omega
    · next hempty =>
      cases hq
      have hsign : x.toBits.toNat / 2 ^ 63 ≠ 1 := beq_eq_false_iff_ne.mp hnegative
      exact ⟨_, _, Nat.add_pos_right _ (by decide), unpack_of_fields _ hsign rfl hfull hempty rfl _,
        Nat.le_add_left _ _, by omega, hvalue⟩

/-- A literal that stands for a position accepts this one and no other. -/
theorem Program.accepts_of_literalPosition {p : Program} {e : ExprId} (h : p.literalPosition e = some n) :
    ∃ a sel, p.form? e = some (.literal a) ∧ Selection.ofItems [.atomic a] = .ok sel ∧
      ∀ k, 0 < k → k < 2 ^ 53 → sel.accepts k = (k == n) := by
  have hfloat : ∀ {y : Float}, ∀ {i : Int}, Decimal.truncate? y = some i →
      (if Decimal.isIntegral y ∧ 1 ≤ i ∧ i < 2 ^ 64 then some i.toNat else none) = some n →
      ∀ k, 0 < k → k < 2 ^ 53 → (y == Float.ofNat k) = (k == n) := by
    intro y i htruncate hy
    split at hy
    · next hi =>
      cases hy
      exact fun k => (isNumber_of_truncate htruncate hi.1 hi.2.1).beq_ofNat
    · cases hy
  unfold literalPosition at h
  split at h
  · next i hform =>
    split at h
    · next hone =>
      cases h
      have hpos : 1 ≤ i.toInt := Int64.le_iff_toInt_le.mp hone
      have hlt : i.toInt < 2 ^ 63 := Int64.toInt_lt i
      obtain ⟨n, hn⟩ := Int.eq_ofNat_of_zero_le (a := i.toInt) (by omega)
      refine ⟨_, _, hform, rfl, fun k hk hk' => ?_⟩
      rw [hn]
      exact ofNat_beq_ofNat (by omega) (by omega) hk hk'
    · cases h
  · next y hform =>
    split at h
    · next i htruncate => exact ⟨_, _, hform, rfl, hfloat htruncate h⟩
    · cases h
  · next y hform =>
    split at h
    · next i htruncate => exact ⟨_, _, hform, rfl, hfloat htruncate h⟩
    · cases h
  · cases h

end

end XPath
