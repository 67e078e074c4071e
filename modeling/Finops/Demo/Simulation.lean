import Finops.Base.Block
import Finops.Base.Calendar
import Finops.Base.Text
import Finops.Attribution.Timeseries

/-!
# The hourly simulation

`hourlyBuckets since till` is the loop over the whole hours from one instant up to
another, the second excluded.  The hours come one after the other
(`hourlyBuckets_eq`), and none is left out (`mem_hourlyBuckets`).

An hour has a text, `isoformat`, which is in the keys of the records and seeds the
draws.  Different hours have different texts, all of one length.
-/

namespace Finops

open Numerics Calendar Block Text

def HOUR : ℤ := microsPerHour

/-- Past the last microsecond that `datetime` has. -/
def endOfTime : ℤ := maxOrdinal * microsPerDay

/-- Truncate a timestamp to the top of its hour, in UTC.  A naive one is taken as
UTC. -/
def floorHour (moment : Instant) : Instant := truncate HOUR moment

/-- `while bucket < stop`, for at most so many turns. -/
def bucketsFrom (stop : Instant) : ℕ → Instant → List Instant
  | 0, _ => []
  | turns + 1, bucket =>
    if bucket < stop then bucket :: bucketsFrom stop turns (bucket + HOUR) else []

/-- Every whole hour in the half-open interval since..till. -/
def hourlyBuckets (since till : Instant) : List Instant :=
  bucketsFrom (floorHour till) ((floorHour till - floorHour since) / HOUR).toNat (floorHour since)

/-- A whole hour that `datetime` has. -/
structure WholeHour (t : ℤ) : Prop where
  whole : HOUR ∣ t
  nonneg : 0 ≤ t
  lt_end : t < endOfTime

def isoDate (year month day : ℕ) : String :=
  zeroPad 4 year ++ "-" ++ zeroPad 2 month ++ "-" ++ zeroPad 2 day

def isoformat (moment : Instant) : String :=
  let micros := moment.toNat
  let date := ord2ymd (micros / microsPerDay)
  let fraction := if micros % 1000000 = 0 then "" else "." ++ zeroPad 6 (micros % 1000000)
  isoDate date.1 date.2.1 date.2.2 ++ "T" ++ zeroPad 2 (micros / 3600000000 % 24) ++ ":"
    ++ zeroPad 2 (micros / 60000000 % 60) ++ ":" ++ zeroPad 2 (micros / 1000000 % 60)
    ++ fraction ++ "+00:00"

/-- The generator seeded from the given parts, as its values of `random()`.
`random` is what SHA-256 and the generator make of a text. -/
def seededRng (random : String → ℕ → ℚ) (parts : List String) : ℕ → ℚ :=
  random ("|".intercalate parts)

def uniform (num : Arith) (r : ℚ) (bounds : ℚ × ℚ) : ℚ :=
  num.flt (bounds.1 + num.flt (num.flt (bounds.2 - bounds.1) * r))

def BUSINESS_HOURS : List ℕ := List.range' 8 11
def BUSINESS_HOURS_MULTIPLIER : ℚ := 16 / 10
def WEEKEND_MULTIPLIER : ℚ := 45 / 100
def SATURDAY : ℕ := 5

/-- Scale usage by time of day and day of week.  0001-01-01 was a Monday. -/
def demandMultiplier (num : Arith) (bucket : Instant) : ℚ :=
  let hour := bucket.toNat / 3600000000 % 24
  let weekday := bucket.toNat / microsPerDay % 7
  let multiplier := if hour ∈ BUSINESS_HOURS then num.flt BUSINESS_HOURS_MULTIPLIER else 1
  if SATURDAY ≤ weekday then num.flt (multiplier * num.flt WEEKEND_MULTIPLIER) else multiplier

/-- `str(value)` of a decimal: plain digits, or an exponent where it has too many
zeros for them. -/
def decimalStr (value : Literal) : String :=
  let digits := (toString value.coeff.natAbs).toList
  let leftdigits : ℤ := value.exp + digits.length
  let dotplace : ℤ := if value.exp ≤ 0 ∧ -6 < leftdigits then leftdigits else 1
  let number :=
    if dotplace ≤ 0 then ['0', '.'] ++ List.replicate (-dotplace).toNat '0' ++ digits
    else if digits.length ≤ dotplace then
      digits ++ List.replicate (dotplace - digits.length).toNat '0'
    else digits.take dotplace.toNat ++ '.' :: digits.drop dotplace.toNat
  let exponent :=
    if leftdigits = dotplace then ""
    else "E" ++ (if dotplace < leftdigits then "+" else "") ++ toString (leftdigits - dotplace)
  (if value.coeff < 0 then "-" else "") ++ String.ofList number ++ exponent

example : decimalStr ⟨122400, -4⟩ = "12.2400" := by decide +kernel

example : decimalStr ⟨-25, -9⟩ = "-2.5E-8" := by decide +kernel

/-! ### The loop over the hours -/

theorem hour_pos : 0 < HOUR := by decide

theorem dvd_floorHour (t : Instant) : HOUR ∣ floorHour t := Int.dvd_self_sub_emod

theorem floorHour_le (t : Instant) : floorHour t ≤ t := by
  exact Int.sub_le_self t (Int.emod_nonneg t hour_pos.ne')

theorem floorHour_of_dvd {t : Instant} (h : HOUR ∣ t) : floorHour t = t := by
  rw [floorHour, truncate, Int.emod_eq_zero_of_dvd h, sub_zero]

theorem floorHour_nonneg {t : Instant} (h : 0 ≤ t) : 0 ≤ floorHour t := by
  have hnn := Int.mul_nonneg hour_pos.le (Int.ediv_nonneg h hour_pos.le)
  have hsplit := Int.mul_ediv_add_emod t HOUR
  rw [floorHour, truncate]
  linarith

theorem bucketsFrom_eq (stop : Instant) (n : ℕ) : ∀ start : Instant, start + n * HOUR = stop →
    bucketsFrom stop n start = block HOUR start n := by
  induction n with
  | zero => intro start _; rfl
  | succ n ih =>
    intro start h
    have hpos := hour_pos
    have hnn : 0 ≤ (n : ℤ) * HOUR := by positivity
    push_cast at h
    rw [bucketsFrom, if_pos (by linarith), ih _ (by linarith), block_succ]

theorem toNat_ediv_hour {d : ℤ} (h : d ≤ 0) : (d / HOUR).toNat = 0 :=
  Int.toNat_eq_zero.mpr (Int.ediv_nonpos_of_nonpos_of_neg h hour_pos)

/-- **The hours come one after the other.** -/
theorem hourlyBuckets_eq (since till : Instant) : hourlyBuckets since till =
    block HOUR (floorHour since) ((floorHour till - floorHour since) / HOUR).toNat := by
  unfold hourlyBuckets
  rcases Int.le_total (floorHour since) (floorHour till) with h | h
  · refine bucketsFrom_eq _ _ _ ?_
    have hdvd : HOUR ∣ floorHour till - floorHour since :=
      Int.dvd_sub (dvd_floorHour till) (dvd_floorHour since)
    rw [Int.toNat_of_nonneg (Int.ediv_nonneg (by omega) hour_pos.le), Int.ediv_mul_cancel hdvd,
      add_sub_cancel]
  · rw [toNat_ediv_hour (by omega)]
    rfl

/-- **No whole hour is left out.** -/
theorem mem_hourlyBuckets {since till t : Instant} : t ∈ hourlyBuckets since till ↔
    HOUR ∣ t ∧ floorHour since ≤ t ∧ t < floorHour till := by
  have hdvd : HOUR ∣ floorHour till - floorHour since :=
    Int.dvd_sub (dvd_floorHour till) (dvd_floorHour since)
  rw [hourlyBuckets_eq, mem_block_iff hour_pos, dvd_sub_left (dvd_floorHour since)]
  refine and_congr_right fun _ => and_congr_right fun hle => ?_
  rcases Int.le_total (floorHour since) (floorHour till) with h | h
  · rw [Int.toNat_of_nonneg (Int.ediv_nonneg (by omega) hour_pos.le), Int.ediv_mul_cancel hdvd,
      add_sub_cancel]
  · rw [toNat_ediv_hour (by omega), Nat.cast_zero, zero_mul, add_zero]
    exact iff_of_false (not_lt.mpr hle) (not_lt.mpr (h.trans hle))

/-! ### The text of an hour -/

section

variable {year month day year' month' day' : ℕ}

theorem isDate_lt (h : IsDate year month day) :
    year < 10 ^ 4 ∧ month < 10 ^ 2 ∧ day < 10 ^ 2 := by
  obtain ⟨⟨_, hy⟩, ⟨_, hm⟩, _, hd⟩ := h
  have := (Date.daysInMonth_bounds (isLeap year) month).2
  omega

theorem length_isoDate (h : IsDate year month day) : (isoDate year month day).length = 10 := by
  obtain ⟨hy, hm, hd⟩ := isDate_lt h
  simp only [isoDate, String.length_append, length_zeroPad (by decide) hy,
    length_zeroPad (by decide) hm, length_zeroPad (by decide) hd]
  rfl

theorem isoDate_injective (h : IsDate year month day) (h' : IsDate year' month' day')
    (he : isoDate year month day = isoDate year' month' day') :
    year = year' ∧ month = month' ∧ day = day' := by
  obtain ⟨hy, hm, hd⟩ := isDate_lt h
  obtain ⟨hy', hm', hd'⟩ := isDate_lt h'
  have hyear : (zeroPad 4 year).length = (zeroPad 4 year').length := by
    rw [length_zeroPad (by decide) hy, length_zeroPad (by decide) hy']
  have hmonth : (zeroPad 2 month).length = (zeroPad 2 month').length := by
    rw [length_zeroPad (by decide) hm, length_zeroPad (by decide) hm']
  unfold isoDate at he
  simp only [String.append_assoc] at he
  obtain ⟨hy, he⟩ := append_injective (.inl hyear) he
  obtain ⟨_, he⟩ := append_injective (.inl rfl) he
  obtain ⟨hmon, he⟩ := append_injective (.inl hmonth) he
  obtain ⟨_, hday⟩ := append_injective (.inl rfl) he
  exact ⟨zeroPad_injective hy, zeroPad_injective hmon, zeroPad_injective hday⟩

end

theorem WholeHour.exists_eq {t : ℤ} (h : WholeHour t) : ∃ days hour : ℕ,
    days < maxOrdinal ∧ hour < 24 ∧ t = ((days * 24 + hour : ℕ) : ℤ) * HOUR := by
  obtain ⟨⟨k, hk⟩, hnn, hlt⟩ := h
  rw [show HOUR = 3600000000 from rfl] at hk ⊢
  rw [show endOfTime = 315537897600000000 from rfl] at hlt
  refine ⟨(k / 24).toNat, (k % 24).toNat, ?_, by omega, by omega⟩
  rw [maxOrdinal]
  omega

theorem clock_hour {n days hour : ℕ} (h : hour < 24) (hn : n = (days * 24 + hour) * 3600000000) :
    n / microsPerDay = days ∧ n / 3600000000 % 24 = hour ∧ n / 60000000 % 60 = 0 ∧
      n / 1000000 % 60 = 0 ∧ n % 1000000 = 0 := by
  rw [show microsPerDay = 86400000000 from rfl]
  refine ⟨?_, ?_, ?_, ?_, ?_⟩ <;> omega

theorem isoformat_hour (days : ℕ) {hour : ℕ} (h : hour < 24) :
    isoformat (((days * 24 + hour : ℕ) : ℤ) * HOUR) =
      isoDate (ord2ymd days).1 (ord2ymd days).2.1 (ord2ymd days).2.2 ++ "T" ++ zeroPad 2 hour
        ++ ":" ++ zeroPad 2 0 ++ ":" ++ zeroPad 2 0 ++ "" ++ "+00:00" := by
  have hn : (((days * 24 + hour : ℕ) : ℤ) * HOUR).toNat = (days * 24 + hour) * 3600000000 := by
    rw [show HOUR = ((3600000000 : ℕ) : ℤ) from rfl, ← Nat.cast_mul, Int.toNat_natCast]
  obtain ⟨hday, hhour, hminute, hsecond, hmicro⟩ := clock_hour h hn
  simp only [isoformat, hday, hhour, hminute, hsecond, hmicro, if_true]

theorem length_isoformat {t : ℤ} (h : WholeHour t) : (isoformat t).length = 25 := by
  obtain ⟨days, hour, hd, hh, rfl⟩ := h.exists_eq
  rw [isoformat_hour days hh]
  simp only [String.length_append, length_isoDate (ord2ymd_spec hd).1,
    length_zeroPad (show 0 < 2 by decide) (show hour < 10 ^ 2 by omega)]
  rfl

/-- **Different hours have different texts.** -/
theorem isoformat_injective {t u : ℤ} (ht : WholeHour t) (hu : WholeHour u)
    (h : isoformat t = isoformat u) : t = u := by
  obtain ⟨days, hour, hd, hh, rfl⟩ := ht.exists_eq
  obtain ⟨days', hour', hd', hh', rfl⟩ := hu.exists_eq
  rw [isoformat_hour days hh, isoformat_hour days' hh'] at h
  obtain ⟨hdate, hord⟩ := ord2ymd_spec hd
  obtain ⟨hdate', hord'⟩ := ord2ymd_spec hd'
  have hlen := length_isoDate hdate
  rw [← length_isoDate hdate'] at hlen
  have hhour : (zeroPad 2 hour).length = (zeroPad 2 hour').length := by
    rw [length_zeroPad (by decide) (by omega), length_zeroPad (by decide) (by omega)]
  simp only [String.append_assoc] at h
  obtain ⟨he, h⟩ := append_injective (.inl hlen) h
  obtain ⟨_, h⟩ := append_injective (.inl rfl) h
  obtain ⟨hz, _⟩ := append_injective (.inl hhour) h
  obtain ⟨hy, hm, hday⟩ := isoDate_injective hdate hdate' he
  rw [hy, hm, hday, hord'] at hord
  rw [Nat.succ_injective hord, zeroPad_injective hz]

end Finops
