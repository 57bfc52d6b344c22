import XPath.Atomic.Arithmetic

/-!
# Differences of dates and times

A moment outside leap seconds is a count of seconds with a fraction (`Moment.count`). The clock that an offset shows
has the count moved by the offset, adding seconds adds to the count, and the difference of two moments is that of
their counts if the fractions agree. The laws of differences and sums are those of integers.
-/

namespace XPath

open Calendar

/-- So many seconds can be added. -/
def IsElapsed (i : Int) : Prop :=
  i.natAbs ≤ 9223372036854775

theorem IsElapsed.toInt_ofInt {i : Int} (h : IsElapsed i) : (Int64.ofInt i).toInt = i := by
  unfold IsElapsed at h
  exact Int64.toInt_ofInt_of_le (by omega) (by omega)

namespace Calendar

variable {m a b : Moment} {s : Int}

/-- A time of day that is not in a leap second. -/
structure Time.Ordinary (t : Time) : Prop where
  seconds_lt : t.seconds < secondsPerDay
  nanos_lt : t.nanos < nanosPerSecond

structure Moment.Ordinary (m : Moment) : Prop where
  inRange : m.date.inRange
  time : m.time.Ordinary

def Offset.IsValid (o : Offset) : Prop :=
  -86400 < o.seconds ∧ o.seconds < 86400

theorem Time.Ordinary.isLeap_eq {t : Time} (h : t.Ordinary) : t.isLeap = false :=
  decide_eq_false (Nat.not_le.mpr h.nanos_lt)

namespace Moment

def count (m : Moment) : Int :=
  m.date.day * secondsPerDay + m.time.seconds

theorem seconds_shift_lt (m : Moment) (s : Int) : (m.shift s).time.seconds < secondsPerDay := by
  simp only [shift, Time.turn, secondsPerDay]
  omega

theorem count_shift (m : Moment) (s : Int) : (m.shift s).count = m.count + s := by
  simp only [count, shift, Time.turn, secondsPerDay]
  omega

theorem ordinary_shift_time (h : m.time.nanos < nanosPerSecond) (s : Int) : (m.shift s).time.Ordinary :=
  ⟨m.seconds_shift_lt s, h⟩

theorem eq_of_count (ha : a.time.seconds < secondsPerDay) (hb : b.time.seconds < secondsPerDay)
    (hnanos : a.time.nanos = b.time.nanos) (hcount : a.count = b.count) : a = b := by
  obtain ⟨⟨day⟩, ⟨seconds, nanos⟩⟩ := a
  obtain ⟨⟨day'⟩, ⟨seconds', nanos'⟩⟩ := b
  simp only [count, secondsPerDay] at *
  obtain rfl : day = day' := by omega
  obtain rfl : seconds = seconds' := by omega
  rw [hnanos]

theorem addSeconds?_eq (h : m.time.Ordinary) :
    m.addSeconds? s = if (m.shift s).date.inRange then some (m.shift s) else none := by
  have hadd : m.time.add s = m.time.turn s := by
    rw [Time.add, h.isLeap_eq, if_neg (by decide)]
  simp only [addSeconds?, hadd, Date.addDays?, shift, apply_ite (Option.map _)]
  rfl

theorem secondsSince_eq (ha : a.time.Ordinary) (hb : b.time.Ordinary) (hnanos : a.time.nanos = b.time.nanos) :
    a.secondsSince b = a.count - b.count := by
  have hnanosSince : a.nanosSince b = (a.count - b.count) * nanosPerSecond := by
    simp only [nanosSince, Time.nanosSince, ha.isLeap_eq, hb.isLeap_eq, hnanos, count, secondsPerDay, nanosPerSecond]
    simp only [Bool.false_eq_true, and_false, if_false]
    omega
  rw [secondsSince, hnanosSince, Int.mul_tdiv_cancel _ (by decide)]

/-- The range of dates is short enough for differences to be added. -/
theorem isElapsed_sub (ha : a.Ordinary) (hb : b.Ordinary) : IsElapsed (a.count - b.count) := by
  have hfirst : -100000000 ≤ Date.first := by decide
  have hlast : Date.last ≤ 100000000 := by decide
  have hra := ha.inRange
  have hrb := hb.inRange
  have hsa := ha.time.seconds_lt
  have hsb := hb.time.seconds_lt
  simp only [Date.inRange, Bool.and_eq_true, decide_eq_true_eq, count, secondsPerDay, IsElapsed] at *
  omega

theorem addSeconds?_sub (ha : a.Ordinary) (hb : b.Ordinary) (hnanos : a.time.nanos = b.time.nanos) :
    a.addSeconds? (b.count - a.count) = some b := by
  have hshift : a.shift (b.count - a.count) = b :=
    eq_of_count (seconds_shift_lt _ _) hb.time.seconds_lt hnanos (by rw [count_shift]; omega)
  rw [addSeconds?_eq ha.time, hshift, if_pos hb.inRange]

end Moment

theorem DateTime.ofClock?_eq_some {clock : Moment} {offset : Offset} {t : DateTime}
    (h : DateTime.ofClock? clock offset = some t) : t.utc = clock.shift (-offset.seconds) := by
  obtain ⟨-, h⟩ := Option.ite_none_right_eq_some.mp h
  cases h
  rfl

end Calendar

section

variable {α β : Type} {op : ArithOp} {b : β}

theorem bind_elapsed_iff {s : Int64} {f : Int → Except Error β} :
    (elapsed .add s >>= f) = .ok b ↔ IsElapsed s.toInt ∧ f s.toInt = .ok b := by
  unfold elapsed IsElapsed
  split
  · rename_i h
    exact ⟨fun hf => ⟨h, hf⟩, And.right⟩
  · rename_i h
    exact ⟨nofun, fun hf => absurd hf.1 h⟩

theorem bind_orOverflow_iff {o : Option α} {f : α → Except Error β} :
    (orOverflow op o >>= f) = .ok b ↔ ∃ a, o = some a ∧ f a = .ok b := by
  cases o with
  | none => exact ⟨nofun, nofun⟩
  | some a => simp [orOverflow, bind, Except.bind]

end

theorem difference_some {x y : DateTime} (hx : x.utc.time.Ordinary) (hy : y.utc.time.Ordinary)
    (hnanos : x.utc.time.nanos = y.utc.time.nanos) :
    difference (some x) (some y) = .ok (.dayTimeDuration (Int64.ofInt (x.utc.count - y.utc.count))) := by
  rw [← Moment.secondsSince_eq hx hy hnanos]
  rfl

theorem difference_eq_ok {x y : Option DateTime} {v : AtomicValue} (h : difference x y = .ok v) :
    ∃ a b, x = some a ∧ y = some b ∧ v = .dayTimeDuration (Int64.ofInt (a.utc.secondsSince b.utc)) := by
  obtain ⟨a, hx, h⟩ := bind_orOverflow_iff.mp h
  obtain ⟨b, hy, h⟩ := bind_orOverflow_iff.mp h
  exact ⟨a, b, hx, hy, (Except.ok.inj h).symm⟩

section

variable {x y : DateTime} {d e : Date} {t u : Time} {zone : Option Offset} {v w : AtomicValue} {s : Int64}

theorem shiftBy_dateTime_iff : shiftBy .add (.dateTime x) (.dayTimeDuration s) = .ok v ↔
    IsElapsed s.toInt ∧ ∃ u, x.utc.addSeconds? s.toInt = some u ∧ v = .dateTime ⟨u, x.offset⟩ := by
  refine bind_elapsed_iff.trans (and_congr_right fun _ => ?_)
  rw [DateTime.addSeconds?]
  cases x.utc.addSeconds? s.toInt with
  | none => exact ⟨nofun, nofun⟩
  | some u => simp [orOverflow, Functor.map, Except.map, eq_comm]

theorem shiftBy_date_iff : shiftBy .add (.date d zone) (.dayTimeDuration s) = .ok v ↔
    IsElapsed s.toInt ∧ ∃ m, Moment.addSeconds? ⟨d, .midnight⟩ s.toInt = some m ∧ v = .date m.date zone := by
  refine bind_elapsed_iff.trans (and_congr_right fun _ => bind_orOverflow_iff.trans ?_)
  exact exists_congr fun m => and_congr_right fun _ => ⟨fun h => (Except.ok.inj h).symm, congrArg _ ∘ Eq.symm⟩

theorem midnight_ordinary (d : Date) : Time.Ordinary (Moment.time ⟨d, .midnight⟩) :=
  ⟨Nat.zero_lt_succ _, Nat.zero_lt_succ _⟩

theorem Calendar.Moment.count_midnight (d : Date) : Moment.count ⟨d, .midnight⟩ = d.day * 86400 :=
  Int.add_zero _

/-- The moment of a date is its midnight at the offset. -/
theorem dateInstant_eq_some (h : dateInstant d zone = some x) : x.utc.time.Ordinary ∧ x.utc.time.nanos = 0 ∧
    x.utc.count = d.day * 86400 - (zone.getD .utc).seconds := by
  have hutc := DateTime.ofClock?_eq_some h
  rw [hutc, Moment.count_shift]
  refine ⟨Moment.ordinary_shift_time (midnight_ordinary d).nanos_lt _, rfl, ?_⟩
  rw [Moment.count_midnight]
  rfl

theorem difference_dates (h : difference (dateInstant e zone) (dateInstant d zone) = .ok v) :
    v = .dayTimeDuration (Int64.ofInt ((e.day - d.day) * 86400)) := by
  obtain ⟨a, b, ha, hb, rfl⟩ := difference_eq_ok h
  obtain ⟨hta, hna, hca⟩ := dateInstant_eq_some ha
  obtain ⟨htb, hnb, hcb⟩ := dateInstant_eq_some hb
  rw [Moment.secondsSince_eq hta htb (hna.trans hnb.symm), hca, hcb]
  congr 2
  omega

theorem exists_timeInstant (ht : t.Ordinary) (hzone : ∀ o ∈ zone, o.IsValid) : ∃ x, timeInstant t zone = some x ∧
    x.utc.time.Ordinary ∧ x.utc.time.nanos = t.nanos ∧
    x.utc.count = dayNumber ⟨1972, 12, 31⟩ * 86400 + t.seconds - (zone.getD .utc).seconds := by
  have hseconds := ht.seconds_lt
  have hoffset : (zone.getD .utc).IsValid := by
    cases zone with
    | none => exact ⟨by decide, by decide⟩
    | some o => exact hzone o rfl
  have hrange : (Moment.shift ⟨⟨dayNumber ⟨1972, 12, 31⟩⟩, t⟩ (-(zone.getD .utc).seconds)).date.inRange := by
    have hfirst : Date.first ≤ 0 := by decide
    have hlast : 2000 ≤ Date.last := by decide
    have hday : dayNumber ⟨1972, 12, 31⟩ = 1095 := by decide
    simp only [Offset.IsValid, Date.inRange, Moment.shift, Time.turn, secondsPerDay, hday, Bool.and_eq_true,
      decide_eq_true_eq] at *
    omega
  refine ⟨_, if_pos hrange, Moment.ordinary_shift_time ht.nanos_lt _, rfl, ?_⟩
  rw [Moment.count_shift]
  rfl

theorem turn_sub (ht : t.Ordinary) (hu : u.Ordinary) (hnanos : t.nanos = u.nanos) :
    (t.add ((u.seconds : Int) - t.seconds)).1 = u := by
  have hseconds := hu.seconds_lt
  obtain ⟨seconds, nanos⟩ := u
  rw [Time.add, ht.isLeap_eq, if_neg (by decide), Time.turn]
  simp only [secondsPerDay] at *
  rw [hnanos]
  congr 1
  omega

end

/-- What is added to a date or time to get from one to another is their difference, and the difference of what is
added is what was added, in whole days for a date. -/
theorem arithmetic_differences :
    (∀ x y : DateTime, x.utc.Ordinary → y.utc.Ordinary → x.utc.time.nanos = y.utc.time.nanos → ∃ s z,
      arithmetic .sub (.dateTime y) (.dateTime x) = .ok s ∧ arithmetic .add (.dateTime x) s = .ok (.dateTime z) ∧
        z.utc = y.utc) ∧
    (∀ (d e : Date) zone s, d.inRange → e.inRange → arithmetic .sub (.date e zone) (.date d zone) = .ok s →
      arithmetic .add (.date d zone) s = .ok (.date e zone)) ∧
    (∀ (t u : Time) (zone : Option Offset), t.Ordinary → u.Ordinary → t.nanos = u.nanos →
      (∀ o ∈ zone, o.IsValid) → ∃ s, arithmetic .sub (.time u zone) (.time t zone) = .ok s ∧
        arithmetic .add (.time t zone) s = .ok (.time u zone)) ∧
    (∀ (x : DateTime) s z, x.utc.Ordinary → arithmetic .add (.dateTime x) (.dayTimeDuration s) = .ok z →
      arithmetic .sub z (.dateTime x) = .ok (.dayTimeDuration s)) ∧
    ∀ (d : Date) zone s v w, arithmetic .add (.date d zone) (.dayTimeDuration s) = .ok v →
      arithmetic .sub v (.date d zone) = .ok w →
        ∃ n, w = .dayTimeDuration n ∧ n.toInt = 86400 * (s.toInt / 86400) := by
  refine ⟨?_, ?_, ?_, ?_, ?_⟩
  · intro x y hx hy hnanos
    have helapsed := Moment.isElapsed_sub hy hx
    refine ⟨_, ⟨y.utc, x.offset⟩, difference_some hy.time hx.time hnanos.symm, shiftBy_dateTime_iff.mpr ?_, rfl⟩
    rw [helapsed.toInt_ofInt]
    exact ⟨helapsed, y.utc, Moment.addSeconds?_sub hx hy hnanos, rfl⟩
  · intro d e zone s hd he h
    have hmid : ∀ d : Date, d.inRange → Moment.Ordinary ⟨d, .midnight⟩ := fun d hd => ⟨hd, midnight_ordinary d⟩
    have helapsed := Moment.isElapsed_sub (hmid e he) (hmid d hd)
    have hadd := Moment.addSeconds?_sub (hmid d hd) (hmid e he) rfl
    rw [Moment.count_midnight, Moment.count_midnight, ← Int.sub_mul] at helapsed hadd
    rw [difference_dates h]
    refine shiftBy_date_iff.mpr ?_
    rw [helapsed.toInt_ofInt]
    exact ⟨helapsed, _, hadd, rfl⟩
  · intro t u zone ht hu hnanos hzone
    obtain ⟨x, hx, htx, hnx, hcx⟩ := exists_timeInstant ht hzone
    obtain ⟨y, hy, hty, hny, hcy⟩ := exists_timeInstant hu hzone
    have hcount : y.utc.count - x.utc.count = (u.seconds : Int) - t.seconds := by omega
    have helapsed : IsElapsed ((u.seconds : Int) - t.seconds) := by
      have hst := ht.seconds_lt
      have hsu := hu.seconds_lt
      simp only [secondsPerDay, IsElapsed] at *
      omega
    refine ⟨.dayTimeDuration (Int64.ofInt ((u.seconds : Int) - t.seconds)), ?_, ?_⟩
    · rw [← hcount, ← difference_some hty htx (hny.trans (hnanos.symm.trans hnx.symm)), ← hx, ← hy]
      rfl
    · refine bind_elapsed_iff.mpr ⟨?_, ?_⟩ <;> rw [helapsed.toInt_ofInt]
      · exact helapsed
      · rw [turn_sub ht hu hnanos]
        rfl
  · intro x s z hx h
    obtain ⟨-, u, hadd, rfl⟩ := shiftBy_dateTime_iff.mp h
    rw [Moment.addSeconds?_eq hx.time] at hadd
    obtain ⟨-, hadd⟩ := Option.ite_none_right_eq_some.mp hadd
    cases hadd
    have htime := Moment.ordinary_shift_time hx.time.nanos_lt s.toInt
    refine (difference_some (x := ⟨x.utc.shift s.toInt, x.offset⟩) htime hx.time rfl).trans ?_
    rw [Moment.count_shift, Int.add_comm, Int.add_sub_cancel, Int64.ofInt_toInt]
  · intro d zone s v w hv hw
    obtain ⟨helapsed, m, hadd, rfl⟩ := shiftBy_date_iff.mp hv
    rw [Moment.addSeconds?_eq (midnight_ordinary d)] at hadd
    obtain ⟨-, hadd⟩ := Option.ite_none_right_eq_some.mp hadd
    cases hadd
    have hday : ((Moment.shift ⟨d, .midnight⟩ s.toInt).date.day - d.day) * 86400 = 86400 * (s.toInt / 86400) := by
      simp only [Moment.shift, Time.turn, Time.midnight, secondsPerDay]
      omega
    refine ⟨_, difference_dates hw, ?_⟩
    unfold IsElapsed at helapsed
    rw [hday, Int64.toInt_ofInt_of_le] <;> omega

/-- Over the leap day of 2024, and over midnight. -/
theorem arithmetic_differences_leapDay :
    (∃ s z, arithmetic .sub (.dateTime ⟨⟨⟨19783⟩, ⟨60, 5⟩⟩, .utc⟩) (.dateTime ⟨⟨⟨19781⟩, ⟨86340, 5⟩⟩, ⟨3600⟩⟩) = .ok s ∧
      arithmetic .add (.dateTime ⟨⟨⟨19781⟩, ⟨86340, 5⟩⟩, ⟨3600⟩⟩) s = .ok (.dateTime z) ∧ z.utc = ⟨⟨19783⟩, ⟨60, 5⟩⟩) ∧
    arithmetic .add (.date ⟨19783⟩ (some ⟨3600⟩)) (.dayTimeDuration (-172800)) = .ok (.date ⟨19781⟩ (some ⟨3600⟩)) ∧
    (∃ s, arithmetic .sub (.time ⟨60, 5⟩ (some ⟨7200⟩)) (.time ⟨86340, 5⟩ (some ⟨7200⟩)) = .ok s ∧
      arithmetic .add (.time ⟨86340, 5⟩ (some ⟨7200⟩)) s = .ok (.time ⟨60, 5⟩ (some ⟨7200⟩))) ∧
    arithmetic .sub (.dateTime ⟨⟨⟨19783⟩, ⟨60, 5⟩⟩, ⟨3600⟩⟩) (.dateTime ⟨⟨⟨19781⟩, ⟨86340, 5⟩⟩, ⟨3600⟩⟩) =
      .ok (.dayTimeDuration 86520) ∧
    ∃ n : Int64, AtomicValue.dayTimeDuration (-86400) = .dayTimeDuration n ∧ n.toInt = 86400 * (-1 / 86400) :=
  ⟨arithmetic_differences.1 ⟨⟨⟨19781⟩, ⟨86340, 5⟩⟩, ⟨3600⟩⟩ ⟨⟨⟨19783⟩, ⟨60, 5⟩⟩, .utc⟩
      ⟨by decide, by decide, by decide⟩ ⟨by decide, by decide, by decide⟩ rfl,
    arithmetic_differences.2.1 ⟨19783⟩ ⟨19781⟩ (some ⟨3600⟩) (.dayTimeDuration (-172800)) (by decide) (by decide) rfl,
    arithmetic_differences.2.2.1 ⟨86340, 5⟩ ⟨60, 5⟩ (some ⟨7200⟩) ⟨by decide, by decide⟩ ⟨by decide, by decide⟩ rfl
      (by rintro _ ⟨⟩; exact ⟨by decide, by decide⟩),
    arithmetic_differences.2.2.2.1 ⟨⟨⟨19781⟩, ⟨86340, 5⟩⟩, ⟨3600⟩⟩ 86520 _ ⟨by decide, by decide, by decide⟩ rfl,
    arithmetic_differences.2.2.2.2 ⟨19783⟩ none (-1) (.date ⟨19782⟩ none) (.dayTimeDuration (-86400)) rfl rfl⟩

end XPath
