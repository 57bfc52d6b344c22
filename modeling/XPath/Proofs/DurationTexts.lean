import Mathlib.Data.List.TakeWhile
import XPath.Atomic.Cast
import XPath.Proofs.Messages

/-!
# Durations are read back

The text of a duration is made of fields, each a numeral with its unit, and every field adds to the totals of the scan
what it stands for (`adds_field`). So a duration is read back from its text, unless its magnitude is the one that has
no positive counterpart.
-/

namespace XPath.Duration

open List

open Text

variable {step : Scan → Char → Option Scan} {cs ds date time : List Char} {a b : Bool} {n m t m' t' : Nat} {unit : Char}

def yearMonthBody (n : Nat) : List Char :=
  field (n / 12) 'Y' ++ field (n % 12) 'M'

def clockBody (n : Nat) : List Char :=
  field (n / 3600) 'H' ++ field (n / 60 % 60) 'M' ++ field (n % 60) 'S'

/-- A date with a time after it, if there is one. -/
def bodyText (date time : List Char) : List Char :=
  date ++ if time = [] then [] else 'T' :: time

/-! ## Fields -/

/-- The character stands within a part of the text. -/
def isInner (c : Char) : Bool :=
  !isBlank c && c != 'T'

/-- Reading the text adds months and seconds to the totals, and leaves no digits over. -/
structure Adds (step : Scan → Char → Option Scan) (cs : List Char) (any : Bool) (months seconds : Nat) : Prop where
  inner : ∀ c ∈ cs, isInner c
  scan : ∀ b m t, cs.foldlM step ⟨[], b, m, t⟩ = some ⟨[], b || any, m + months, t + seconds⟩

theorem adds_nil : Adds step [] false 0 0 :=
  ⟨nofun, fun b m t => by simp⟩

theorem Adds.append (h : Adds step cs a m t) (h' : Adds step ds b m' t') :
    Adds step (cs ++ ds) (a || b) (m + m') (t + t') := by
  refine ⟨forall_mem_append.mpr ⟨h.inner, h'.inner⟩, fun any m₀ t₀ => ?_⟩
  rw [foldlM_append, h.scan]
  exact (h'.scan _ _ _).trans (by simp only [Bool.or_assoc, Nat.add_assoc])

theorem isInner_of_isDigit {d : Char} (hd : isDigit d) : isInner d := by
  simp only [isDigit, Bool.and_eq_true, decide_eq_true_eq] at hd
  have : 48 ≤ d.toNat := hd.1
  have : d.toNat ≤ 57 := hd.2
  have hne : d ≠ 'T' := by
    rintro rfl
    simp at this
  simp [isInner, isBlank, hne]
  omega

theorem foldlM_digits (hstep : ∀ s d, isDigit d → step s d = some (s.push d)) :
    ∀ {ds : List Char} (s : Scan), (∀ d ∈ ds, isDigit d) →
      ds.foldlM step s = some { s with pending := ds.reverse ++ s.pending }
  | [], _, _ => rfl
  | d :: ds, s, h => by
    obtain ⟨hd, hds⟩ := forall_mem_cons.mp h
    rw [foldlM_cons, hstep s d hd]
    exact (foldlM_digits hstep (s.push d) hds).trans (by simp [Scan.push])

/-- A field that is left out stands for nothing. -/
theorem adds_field {k l : Nat} (hstep : ∀ s d, isDigit d → step s d = some (s.push d)) (hinner : isInner unit)
    (hunit : ∀ b m t, step ⟨(natDigits n).reverse, b, m, t⟩ unit = some ⟨[], true, m + k * n, t + l * n⟩) :
    Adds step (field n unit) (n != 0) (k * n) (l * n) := by
  unfold field
  split
  · rename_i hn
    simpa [hn] using adds_nil
  · rename_i hn
    refine ⟨forall_mem_append.mpr ⟨fun d hd => isInner_of_isDigit (isDigit_of_mem_natDigits hd),
      forall_mem_singleton.mpr hinner⟩, fun b m t => ?_⟩
    rw [foldlM_append, foldlM_digits hstep _ fun d => isDigit_of_mem_natDigits]
    simp [hunit, hn]

theorem count?_natDigits : Scan.count? ⟨(natDigits n).reverse, b, m, t⟩ = some n := by
  have hempty : (natDigits n).isEmpty = false := isEmpty_eq_false_iff.mpr Nat.toDigits_ne_nil
  have hall : (natDigits n).all isDigit = true := all_eq_true.mpr fun d => isDigit_of_mem_natDigits
  have hvalue : digitsValue (natDigits n) = n := Nat.ofDigitChars_toDigits (by omega) (by omega)
  simp [Scan.count?, readNat?, hempty, hall, hvalue]

/-- Seconds of a minute are read exactly. -/
theorem wholeSeconds?_natDigits (hn : n < 60) : Scan.wholeSeconds? ⟨(natDigits n).reverse, b, m, t⟩ = some n := by
  have hread : ∀ n < 60, Scan.wholeSeconds? ⟨(natDigits n).reverse, true, 0, 0⟩ = some n := by decide +kernel
  exact hread n hn

theorem dateChar_digit (s : Scan) (d : Char) (hd : isDigit d) : s.dateChar d = some (s.push d) :=
  if_pos hd

theorem timeChar_digit (s : Scan) (d : Char) (hd : isDigit d) : s.timeChar d = some (s.push d) :=
  if_pos (by rw [hd]; rfl)

theorem adds_yearMonth (hn : n ≠ 0) : Adds Scan.dateChar (yearMonthBody n) true n 0 := by
  have hyears : Adds Scan.dateChar (field (n / 12) 'Y') _ (12 * (n / 12)) (0 * (n / 12)) :=
    adds_field dateChar_digit rfl fun b m t => by simp [Scan.dateChar, isDigit, count?_natDigits, Scan.addMonths]
  have hmonths : Adds Scan.dateChar (field (n % 12) 'M') _ (1 * (n % 12)) (0 * (n % 12)) :=
    adds_field dateChar_digit rfl fun b m t => by simp [Scan.dateChar, isDigit, count?_natDigits, Scan.addMonths]
  unfold yearMonthBody
  convert hyears.append hmonths using 1
  · simp
    omega
  · omega
  · omega

theorem adds_days : Adds Scan.dateChar (field n 'D') (n != 0) 0 (86400 * n) := by
  have hdays : Adds Scan.dateChar (field n 'D') _ (0 * n) (86400 * n) :=
    adds_field dateChar_digit rfl fun b m t => by simp [Scan.dateChar, isDigit, count?_natDigits, Scan.addSeconds]
  rwa [Nat.zero_mul] at hdays

theorem adds_clock (n : Nat) : Adds Scan.timeChar (clockBody n) (n != 0) 0 n := by
  have hhours : Adds Scan.timeChar (field (n / 3600) 'H') _ (0 * (n / 3600)) (3600 * (n / 3600)) :=
    adds_field timeChar_digit rfl fun b m t => by simp [Scan.timeChar, isDigit, count?_natDigits, Scan.addSeconds]
  have hminutes : Adds Scan.timeChar (field (n / 60 % 60) 'M') _ (0 * (n / 60 % 60)) (60 * (n / 60 % 60)) :=
    adds_field timeChar_digit rfl fun b m t => by simp [Scan.timeChar, isDigit, count?_natDigits, Scan.addSeconds]
  have hseconds : Adds Scan.timeChar (field (n % 60) 'S') _ (0 * (n % 60)) (1 * (n % 60)) :=
    adds_field timeChar_digit rfl fun b m t => by
      simp [Scan.timeChar, isDigit, wholeSeconds?_natDigits (Nat.mod_lt n (by omega : 60 > 0)), Scan.addSeconds]
  unfold clockBody
  convert (hhours.append hminutes).append hseconds using 1
  · rw [Bool.eq_iff_iff]
    simp
    omega
  · omega
  · omega

/-! ## Texts -/

theorem splitAtT?_bodyText (h : ∀ c ∈ date, isInner c) : splitAtT? (bodyText date time) = some (date, time) := by
  have hdate : ∀ c ∈ date, (c != 'T') = true := fun c hc => (Bool.and_eq_true_iff.mp (h c hc)).2
  unfold bodyText splitAtT?
  rw [dropWhile_append_of_pos hdate, takeWhile_append_of_pos hdate]
  cases time <;> simp

theorem isBlank_of_isInner {c : Char} (h : isInner c) : isBlank c = false :=
  Bool.not_eq_true' _ ▸ (Bool.and_eq_true_iff.mp h).1

theorem trimChars_eq_self (h : ∀ c ∈ cs, isBlank c = false) : trimChars cs = cs := by
  have hdrop : ∀ cs : List Char, (∀ c ∈ cs, isBlank c = false) → cs.dropWhile isBlank = cs :=
    fun cs h => dropWhile_eq_self_iff.mpr fun hlen => by simp [h _ (getElem_mem hlen)]
  rw [trimChars, trimStart, hdrop cs h, trimEnd, hdrop _ (by simpa using h), reverse_reverse]

theorem read?_text (i : Int) (hdate : Adds Scan.dateChar date a m t) (htime : Adds Scan.timeChar time b m' t')
    (hany : (a || b) = true) : read? (String.ofList (signText i ++ 'P' :: bodyText date time)) =
      (toInt32? ↑(m + m')).bind fun months => (toInt64? ↑(t + t')).map fun seconds =>
        if i < 0 then (-months, -seconds) else (months, seconds) := by
  have htrim : trimChars (signText i ++ 'P' :: bodyText date time) = signText i ++ 'P' :: bodyText date time := by
    refine trimChars_eq_self ?_
    simp only [forall_mem_append, forall_mem_cons, bodyText]
    refine ⟨?_, rfl, fun c hc => isBlank_of_isInner (hdate.inner c hc), ?_⟩
    · unfold signText
      split <;> simp [isBlank]
    · split
      · simp
      · exact forall_mem_cons.mpr ⟨rfl, fun c hc => isBlank_of_isInner (htime.inner c hc)⟩
  have hread : readMagnitude? (bodyText date time) =
      (toInt32? ↑(m + m')).bind fun months => (toInt64? ↑(t + t')).bind fun seconds => some (months, seconds) := by
    simp [readMagnitude?, splitAtT?_bodyText hdate.inner, Scan.start, hdate.scan, htime.scan, hany]
  rw [read?, String.toList_ofList, htrim]
  by_cases hi : i < 0
  · simp only [signText, hi, if_true, singleton_append, hread]
    cases toInt32? ↑(m + m') <;> cases toInt64? ↑(t + t') <;> rfl
  · simp only [signText, hi, if_false, nil_append, hread]
    cases toInt32? ↑(m + m') <;> cases toInt64? ↑(t + t') <;> rfl

/-! ## Magnitudes -/

/-- The magnitude of a number is in the range, unless it is that of the least number. -/
theorem some_magnitude {α : Type} [Neg α] {ofInt : Int → α} {i low high : Int} {x : α} (hx : ofInt i = x)
    (hneg : ofInt (-i) = -x) (hlow : low ≤ i) (hhigh : i ≤ high) (hrange : high = -low - 1) :
    (if low ≤ ↑i.natAbs ∧ ↑i.natAbs ≤ high then some (ofInt i.natAbs) else none) =
      if i = low then none else some (if i < 0 then -x else x) := by
  by_cases hi : i < 0
  · rw [Int.ofNat_natAbs_of_nonpos (by omega), if_pos hi, hneg]
    split_ifs <;> first | rfl | omega
  · rw [Int.natAbs_of_nonneg (by omega), if_pos (by omega), if_neg (by omega), if_neg hi, hx]

theorem toInt32?_natAbs (m : Int32) : toInt32? m.toInt.natAbs =
    if m = Int32.minValue then none else some (if m.toInt < 0 then -m else m) := by
  rw [toInt32?, some_magnitude (Int32.ofInt_toInt m) (by rw [Int32.ofInt_neg, Int32.ofInt_toInt])
    (Int32.minValue_le_toInt m) (Int32.toInt_le m) rfl]
  simp only [Int32.toInt_inj]

theorem toInt64?_natAbs (s : Int64) : toInt64? s.toInt.natAbs =
    if s = Int64.minValue then none else some (if s.toInt < 0 then -s else s) := by
  rw [toInt64?, some_magnitude (Int64.ofInt_toInt s) (by rw [Int64.ofInt_neg, Int64.ofInt_toInt])
    (Int64.minValue_le_toInt s) (Int64.toInt_le s) rfl]
  simp only [Int64.toInt_inj]

theorem read?_yearMonthText (m : Int32) :
    read? (AtomicValue.yearMonthDuration m).text = if m = Int32.minValue then none else some (m, 0) := by
  by_cases hn : m.toInt.natAbs = 0
  · obtain rfl : m = 0 := Int32.toInt_inj.mp (Int.natAbs_eq_zero.mp hn)
    decide
  · have htext : yearMonthText m = signText m.toInt ++ 'P' :: bodyText (yearMonthBody m.toInt.natAbs) [] := by
      simp [yearMonthText, hn, bodyText, yearMonthBody]
    change read? (String.ofList (yearMonthText m)) = _
    rw [htext, read?_text m.toInt (adds_yearMonth hn) adds_nil rfl, Nat.add_zero, toInt32?_natAbs,
      show toInt64? (0 + 0 : Nat) = some 0 from rfl]
    split_ifs <;> simp

theorem read?_dayTimeText (s : Int64) :
    read? (AtomicValue.dayTimeDuration s).text = if s = Int64.minValue then none else some (0, s) := by
  by_cases hn : s.toInt.natAbs = 0
  · obtain rfl : s = 0 := Int64.toInt_inj.mp (Int.natAbs_eq_zero.mp hn)
    decide +kernel
  · have htext : dayTimeText s = signText s.toInt ++ 'P' ::
        bodyText (field (s.toInt.natAbs / 86400) 'D') (clockBody (s.toInt.natAbs % 86400)) := by
      have hempty : clockBody (s.toInt.natAbs % 86400) = [] ↔ s.toInt.natAbs % 86400 = 0 := by
        refine ⟨fun hnil => ?_, fun hclock => by simp [clockBody, hclock, field]⟩
        have hscan := (adds_clock (s.toInt.natAbs % 86400)).scan false 0 0
        simp [hnil] at hscan
        exact hscan.1
      simp only [dayTimeText, hn, bodyText, hempty]
      simp [clockBody]
    change read? (String.ofList (dayTimeText s)) = _
    rw [htext, read?_text s.toInt adds_days (adds_clock _) (by simp; omega), Nat.div_add_mod, toInt64?_natAbs,
      show toInt32? (0 + 0 : Nat) = some 0 from rfl]
    split_ifs <;> simp

/-- Durations are read back from their texts, but for the two whose magnitudes do not fit. -/
theorem text_read_back :
    (∀ m, read? (AtomicValue.yearMonthDuration m).text = if m = Int32.minValue then none else some (m, 0)) ∧
    (∀ s, read? (AtomicValue.dayTimeDuration s).text = if s = Int64.minValue then none else some (0, s)) ∧
    (∀ d : AtomicValue, d.isDuration → d ≠ .yearMonthDuration Int32.minValue →
      d ≠ .dayTimeDuration Int64.minValue → castUntyped d.text d.type = .ok d) ∧
    Function.Injective (fun m => (AtomicValue.yearMonthDuration m).text) ∧
    Function.Injective (fun s => (AtomicValue.dayTimeDuration s).text) := by
  refine ⟨read?_yearMonthText, read?_dayTimeText, fun d hd hmonths hseconds => ?_, fun m m' h => ?_, fun s s' h => ?_⟩
  · cases d with
    | yearMonthDuration m =>
      have hm : m ≠ Int32.minValue := fun h => hmonths (h ▸ rfl)
      simp [castUntyped, AtomicValue.ofText?, AtomicValue.type, read?_yearMonthText, hm]
    | dayTimeDuration s =>
      have hs : s ≠ Int64.minValue := fun h => hseconds (h ▸ rfl)
      simp [castUntyped, AtomicValue.ofText?, AtomicValue.type, read?_dayTimeText, hs]
    | _ => cases hd
  all_goals
    have hread := congrArg read? h
    simp only [read?_yearMonthText, read?_dayTimeText] at hread
    split_ifs at hread <;> simp_all

theorem text_read_back_days : castUntyped (AtomicValue.dayTimeDuration (-93784)).text .dayTimeDuration =
    .ok (.dayTimeDuration (-93784)) :=
  text_read_back.2.2.1 (.dayTimeDuration (-93784)) rfl (by rintro ⟨⟩) fun h =>
    absurd (AtomicValue.dayTimeDuration.inj h) (by decide)

end XPath.Duration
