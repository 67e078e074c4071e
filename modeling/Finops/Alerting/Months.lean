import Finops.Base.Text
import Finops.Attribution.Forecast
import Finops.Alerting.State

/-!
# The month of a key and the month of a window

`periodKey` names the month that the clock of a moment shows, `monthBounds` cuts the months
in UTC.  A clock less than a day ahead or behind shows the month of UTC or one next to it
(`monthIndex_date`), so two moments agree in both or in neither as long as their clocks are
the same number of months ahead, and else only when both tell them apart (`keysAgree_iff`).
On clocks of UTC the two always name the same month (`keysAgree_of_utc`).
-/

namespace Finops

open Calendar Text

/-- The keys of two moments are the same when their windows are, and the window of a moment
holds it. -/
structure KeysAgree (a b : Moment) : Prop where
  key_eq_iff : periodKey a = periodKey b ↔ monthBounds a = monthBounds b
  contains : ∃ start stop, monthBounds a = .ok (start, stop) ∧ start.utc ≤ a.utc ∧
    a.utc < stop.utc

/-- How many months a clock shows that is so far ahead of the clock `u` of UTC. -/
def monthsAhead (u : Moment) (offset : ℤ) : ℤ :=
  if (u.date.startOfMonth.toOrdinal - 1 + u.date.monthLength) * (microsPerDay : ℤ) ≤
      u.clock + offset then 1
  else if u.clock + offset < (u.date.startOfMonth.toOrdinal - 1) * (microsPerDay : ℤ) then -1
  else 0

/-- Two moments whose clocks are the same number of months ahead, or that are in different
months both in UTC and on their clocks. -/
def SameOrApart (u v : Moment) (offset offset' : ℤ) : Prop :=
  monthsAhead u offset = monthsAhead v offset' ∨
    (u.date.monthIndex : ℤ) ≠ v.date.monthIndex ∧
      u.date.monthIndex + monthsAhead u offset ≠ v.date.monthIndex + monthsAhead v offset'

instance (u v : Moment) (offset offset' : ℤ) : Decidable (SameOrApart u v offset offset') := by
  unfold SameOrApart; infer_instance

/-! ### Keys -/

theorem periodKey_monthly (a : Moment) :
    periodKey a = zeroPad 4 a.date.year ++ "-" ++ zeroPad 2 a.date.month := rfl

theorem periodKey_eq_iff {a b : Moment} :
    periodKey a = periodKey b ↔ a.date.monthIndex = b.date.monthIndex := by
  obtain ⟨⟨_, hy⟩, _⟩ := a.date.valid
  obtain ⟨⟨_, hy'⟩, _⟩ := b.date.valid
  rw [Date.monthIndex_eq_iff, periodKey_monthly, periodKey_monthly]
  constructor
  · intro h
    have hlen : (zeroPad 4 a.date.year ++ "-").length = (zeroPad 4 b.date.year ++ "-").length := by
      rw [String.length_append, String.length_append, length_zeroPad (by decide) (by omega),
        length_zeroPad (by decide) (by omega)]
    obtain ⟨hyear, hmonth⟩ := append_injective (.inl hlen) h
    exact ⟨zeroPad_injective (append_injective (.inr rfl) hyear).1, zeroPad_injective hmonth⟩
  · rintro ⟨hyear, hmonth⟩
    rw [hyear, hmonth]

/-! ### Windows -/

theorem startOfMonth_eq_of_midnight_eq {d e : Date}
    (h : d.startOfMonth.midnight = e.startOfMonth.midnight) : d.monthIndex = e.monthIndex := by
  have hclock : (d.startOfMonth.toOrdinal - 1) * microsPerDay =
      (e.startOfMonth.toOrdinal - 1) * microsPerDay := congrArg Moment.clock h
  have hpos := d.startOfMonth.toOrdinal_pos
  have hpos' := e.startOfMonth.toOrdinal_pos
  have hordinal := Nat.eq_of_mul_eq_mul_right (by decide) hclock
  have hlen : 28 ≤ e.monthLength := (Date.daysInMonth_bounds _ _).1
  have hmem : d.startOfMonth.monthIndex = e.monthIndex :=
    Date.monthIndex_eq_of_mem (by omega) (by omega)
  exact hmem

theorem monthBounds_eq_ok {a u : Moment} (ha : a.toUtc? = some u) (hu : u.date.year ≤ 9998) :
    ∃ f, u.date.nextMonth? = some f ∧
      monthBounds a = .ok (u.date.startOfMonth.midnight, f.midnight) := by
  obtain ⟨f, hf⟩ : ∃ f, u.date.nextMonth? = some f := by
    unfold Date.nextMonth?
    split
    · rw [dif_pos (by omega)]
      exact ⟨_, rfl⟩
    · exact ⟨_, rfl⟩
  refine ⟨f, hf, ?_⟩
  rw [monthBounds, ha]
  show (orRaise _ u.date.nextMonth? >>= _) = _
  rw [hf]
  rfl

theorem monthBounds_eq_iff {a b u v : Moment} (ha : a.toUtc? = some u) (hb : b.toUtc? = some v)
    (hu : u.date.year ≤ 9998) (hv : v.date.year ≤ 9998) :
    monthBounds a = monthBounds b ↔ u.date.monthIndex = v.date.monthIndex := by
  obtain ⟨f, hf, hwindow⟩ := monthBounds_eq_ok ha hu
  obtain ⟨g, hg, hwindow'⟩ := monthBounds_eq_ok hb hv
  rw [hwindow, hwindow']
  constructor
  · intro h
    have hpair := Except.ok.inj h
    exact startOfMonth_eq_of_midnight_eq (congrArg Prod.fst hpair)
  · intro h
    have hstart := Date.startOfMonth_eq_iff.mpr h
    rw [← Date.nextMonth?_startOfMonth, hstart, Date.nextMonth?_startOfMonth, hg] at hf
    cases hf
    rw [hstart]

/-! ### Clocks that are ahead or behind -/

theorem monthIndex_date {a u : Moment} (ha : a.toUtc? = some u) :
    (a.date.monthIndex : ℤ) = u.date.monthIndex + monthsAhead u a.offset := by
  obtain ⟨hutc, hzero⟩ := Moment.utc_of_toUtc? ha
  have hclock : (a.clock : ℤ) = u.clock + a.offset := by
    rw [Moment.utc, Moment.utc, hzero] at hutc
    omega
  have hoffset := abs_lt.mp a.offset_lt
  have hpos := u.date.startOfMonth.toOrdinal_pos
  have hfirst := Moment.midnight_startOfMonth_le u
  have hbegin : (u.date.startOfMonth.toOrdinal - 1) * microsPerDay ≤ u.clock := hfirst
  have hordinal := u.toOrdinal_date
  have hend := u.date.toOrdinal_lt_startOfMonth_add
  have hlocal := a.toOrdinal_date
  have hlen : 28 ≤ u.date.monthLength := (Date.daysInMonth_bounds _ _).1
  rw [monthsAhead, ← hclock]
  unfold microsPerDay at *
  split
  · rename_i hafter
    have hindex := Date.monthIndex_eq_succ (d := a.date) (e := u.date) (by omega) (by omega)
    omega
  · rename_i hafter
    split
    · rename_i hbefore
      have hindex := Date.succ_monthIndex_eq (d := a.date) (e := u.date) (by omega) (by omega)
      omega
    · rename_i hbefore
      have hindex := Date.monthIndex_eq_of_mem (d := a.date) (e := u.date) (by omega) (by omega)
      omega

section

variable {a b u v : Moment} (ha : a.toUtc? = some u) (hb : b.toUtc? = some v)
  (hu : u.date.year ≤ 9998) (hv : v.date.year ≤ 9998)

include ha hb hu hv

theorem key_eq_iff_monthBounds_eq : (periodKey a = periodKey b ↔ monthBounds a = monthBounds b) ↔
    SameOrApart u v a.offset b.offset := by
  have hlocal := monthIndex_date ha
  have hlocal' := monthIndex_date hb
  rw [periodKey_eq_iff, monthBounds_eq_iff ha hb hu hv, SameOrApart]
  omega

/-- **Where key and window name the same months.**  For moments whose clocks are the same
number of months ahead of UTC, and for those that are in different months either way. -/
theorem keysAgree_iff : KeysAgree a b ↔ SameOrApart u v a.offset b.offset := by
  rw [← key_eq_iff_monthBounds_eq ha hb hu hv]
  refine ⟨fun h => h.key_eq_iff, fun h => ⟨h, ?_⟩⟩
  obtain ⟨f, _, hwindow⟩ := monthBounds_eq_ok ha hu
  exact ⟨_, _, hwindow, monthBounds_contains hwindow⟩

end

/-! ### Two ends of August -/

/-- 2026-08-31 23:30 on a clock two hours behind. -/
def lastOfAugust : Moment where
  clock := 739858 * microsPerDay + 84600000000
  offset := -7200000000
  clock_lt := by decide
  offset_lt := by decide

/-- 2026-09-01 02:00 on the clock of UTC. -/
def firstOfSeptember : Moment where
  clock := 739859 * microsPerDay + 7200000000
  clock_lt := by decide
  offset_lt := zero_offset_lt

/-- The last of August, where it is September in UTC. -/
theorem not_keysAgree_lastOfAugust :
    (∃ u v, lastOfAugust.toUtc? = some u ∧ u.date.year ≤ 9998 ∧
      firstOfSeptember.toUtc? = some v ∧ v.date.year ≤ 9998) ∧
    ¬KeysAgree lastOfAugust firstOfSeptember := by
  refine ⟨⟨⟨739859 * microsPerDay + 5400000000, 0, by decide, zero_offset_lt⟩, firstOfSeptember,
    by decide +kernel, by decide +kernel, by decide +kernel, by decide +kernel⟩, fun h => ?_⟩
  have hbounds : monthBounds lastOfAugust = monthBounds firstOfSeptember := by decide +kernel
  exact absurd (h.key_eq_iff.mpr hbounds) (by decide +kernel)

/-- 2026-08-20 noon, on a clock two hours ahead. -/
def midAugust : Moment where
  clock := 739847 * microsPerDay + 43200000000
  offset := 7200000000
  clock_lt := by decide
  offset_lt := by decide

theorem keysAgree_midAugust :
    ∃ u v, midAugust.toUtc? = some u ∧ u.date.year ≤ 9998 ∧
      firstOfSeptember.toUtc? = some v ∧ v.date.year ≤ 9998 ∧
      (KeysAgree midAugust firstOfSeptember ↔
        SameOrApart u v midAugust.offset firstOfSeptember.offset) ∧
      SameOrApart u v midAugust.offset firstOfSeptember.offset :=
  have hu : midAugust.toUtc? =
      some ⟨739847 * microsPerDay + 36000000000, 0, by decide, zero_offset_lt⟩ := by decide +kernel
  have hv : firstOfSeptember.toUtc? = some firstOfSeptember := by decide +kernel
  ⟨_, _, hu, by decide +kernel, hv, by decide +kernel,
    keysAgree_iff hu hv (by decide +kernel) (by decide +kernel), by decide +kernel⟩

/-! ### Clocks of UTC -/

theorem monthsAhead_zero (u : Moment) : monthsAhead u 0 = 0 := by
  have hpos := u.date.startOfMonth.toOrdinal_pos
  have hbegin : (u.date.startOfMonth.toOrdinal - 1) * microsPerDay ≤ u.clock :=
    Moment.midnight_startOfMonth_le u
  have hordinal := u.toOrdinal_date
  have hend := u.date.toOrdinal_lt_startOfMonth_add
  unfold monthsAhead microsPerDay at *
  rw [if_neg (by omega), if_neg (by omega)]

theorem keysAgree_of_utc {a b u v : Moment} (ha : a.toUtc? = some u) (hb : b.toUtc? = some v)
    (hu : u.date.year ≤ 9998) (hv : v.date.year ≤ 9998) (hoff : a.offset = 0)
    (hoff' : b.offset = 0) : periodKey a = periodKey b ↔ monthBounds a = monthBounds b := by
  refine (key_eq_iff_monthBounds_eq ha hb hu hv).mpr (.inl ?_)
  rw [hoff, hoff', monthsAhead_zero, monthsAhead_zero]

end Finops
