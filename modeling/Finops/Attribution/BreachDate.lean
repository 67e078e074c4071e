import Finops.Base.Floats
import Finops.Attribution.Forecast

/-!
# When a forecast comes out, and the date it names

For amounts that fit their columns, in a month, every quantized amount of a forecast
fits the precision (`amountsFit_cpython`): the elapsed time is an hour at least, so
the run rate stays below `10 ^ 12`.  A breach date that comes out is not before the
moment of the forecast and is before the end of the month (`mem_period_of_breach`).

What is left is the addition of the days left, before they are compared with the end
of the month.  `forecasts_iff` says that a forecast comes out exactly when that is in
the range of dates.
-/

namespace Finops

open Numerics Calendar

/-- What a column of 18 digits, 8 of them after the point, holds from zero on. -/
structure IsMoney (v : ℚ) : Prop where
  nonneg : 0 ≤ v
  scale : HasScale 8 v
  lt : v < 10 ^ 10

/-- The forecast comes out, and a breach date is in what is left of the period. -/
def Forecasts (num : Arith) (team : String) (spend limit : ℚ) (asOf start stop : Moment) : Prop :=
  ∃ f, buildForecast num team spend asOf start stop (some limit) = .ok f ∧
    ∀ t, f.breachDate = some t → asOf.utc ≤ t.utc ∧ t.utc < stop.utc

variable {spend limit : ℚ} {asOf start stop : Moment}

/-! ### Where roundings keep the order

What is not negative stays so. -/

section Ordered

variable {num : Arith}

theorem inDays_nonneg (hnum : num.Ordered) {micros : ℤ} (h : 0 ≤ micros) :
    0 ≤ inDays num micros := by
  have hseconds : (0 : ℚ) ≤ micros / 1000000 := div_nonneg (Int.cast_nonneg h) (by norm_num)
  exact hnum.flt_nonneg (div_nonneg (hnum.flt_nonneg hseconds) (by norm_num))

theorem elapsedDays_nonneg (hnum : num.Ordered) (asOf start : Moment) :
    0 ≤ num.str (inDays num (max (asOf.utc - start.utc) MIN_ELAPSED)) := by
  have hhour : (0 : ℤ) ≤ max (asOf.utc - start.utc) MIN_ELAPSED :=
    le_max_of_le_right (by decide)
  exact hnum.str_nonneg _ (inDays_nonneg hnum hhour)

theorem runRate_nonneg (hnum : num.Ordered) {spend : ℚ} (h : 0 ≤ spend) (asOf start : Moment) :
    0 ≤ runRate num spend asOf start :=
  toExp_halfEven_nonneg _ (hnum.dec_nonneg (div_nonneg h (elapsedDays_nonneg hnum asOf start)))

theorem daysToMicros_eq (num : Arith) {days : ℚ} (h : 0 ≤ days) :
    daysToMicros num days = ⌊days⌋ * microsPerDay +
      halfEven (num.flt (Int.fract days * microsPerDay)) := by
  rw [daysToMicros, down_of_nonneg h]
  rfl

theorem restOfDay_bounds (hnum : num.Ordered) (days : ℚ) :
    0 ≤ halfEven (num.flt (Int.fract days * microsPerDay)) ∧
      halfEven (num.flt (Int.fract days * microsPerDay)) ≤ microsPerDay := by
  have hday : (0 : ℚ) ≤ microsPerDay := Nat.cast_nonneg _
  have hrest : 0 ≤ Int.fract days * microsPerDay := mul_nonneg (Int.fract_nonneg days) hday
  have hle : Int.fract days * microsPerDay ≤ microsPerDay :=
    mul_le_of_le_one_left hday (Int.fract_lt_one days).le
  refine ⟨halfEven_nonneg (hnum.flt_nonneg hrest), ?_⟩
  calc halfEven (num.flt (Int.fract days * microsPerDay))
      ≤ halfEven (num.flt microsPerDay) := halfEven_mono (hnum.flt_mono _ _ hrest hle)
    _ = halfEven (((microsPerDay : ℕ) : ℤ) : ℚ) := by
        rw [hnum.flt_natCast _ (by decide), Int.cast_natCast]
    _ = microsPerDay := halfEven_intCast _

theorem daysToMicros_nonneg (hnum : num.Ordered) {days : ℚ} (h : 0 ≤ days) :
    0 ≤ daysToMicros num days := by
  rw [daysToMicros_eq num h]
  exact add_nonneg (mul_nonneg (Int.floor_nonneg.mpr h) (Int.natCast_nonneg _))
    (restOfDay_bounds hnum days).1

def daysLeft (num : Arith) (spend rate limit : ℚ) : ℚ :=
  num.flt (num.dec (num.dec (limit - spend) / rate))

theorem daysLeft_nonneg (hnum : num.Ordered) {spend rate limit : ℚ} (hspend : spend ≤ limit)
    (hrate : 0 ≤ rate) : 0 ≤ daysLeft num spend rate limit :=
  hnum.flt_nonneg (hnum.dec_nonneg
    (div_nonneg (hnum.dec_nonneg (sub_nonneg.mpr hspend)) hrate))

end Ordered

/-! ### Days as floats and as decimals -/

theorem str_inDays {m : ℤ} (h : 0 ≤ m) :
    99 / 100 * ((m : ℚ) / 1000000 / 86400) ≤ reprFloat (inDays .cpython m) ∧
      reprFloat (inDays .cpython m) ≤ 101 / 100 * ((m : ℚ) / 1000000 / 86400) := by
  have hmicros : (0 : ℚ) ≤ m / 1000000 := div_nonneg (by exact_mod_cast h) (by norm_num)
  have hseconds := abs_binary64_sub_le ((m : ℚ) / 1000000)
  have hseconds0 := binary64_nonneg hmicros
  rw [abs_of_nonneg hmicros, abs_le] at hseconds
  have hdays := abs_binary64_sub_le (binary64 ((m : ℚ) / 1000000) / 86400)
  have hdays0 := binary64_nonneg (div_nonneg hseconds0 (by norm_num : (0 : ℚ) ≤ 86400))
  rw [abs_of_nonneg (div_nonneg hseconds0 (by norm_num)), abs_le] at hdays
  have hstr := abs_reprFloat_sub_le (inDays .cpython m)
  have hdef : inDays .cpython m = binary64 (binary64 ((m : ℚ) / 1000000) / 86400) := rfl
  rw [hdef] at hstr ⊢
  set days := binary64 (binary64 ((m : ℚ) / 1000000) / 86400)
  have hstr0 : 0 ≤ reprFloat days := by
    by_contra hneg
    rw [abs_of_neg (not_le.mp hneg), abs_le] at hstr
    linarith [hstr.1, not_le.mp hneg]
  rw [abs_of_nonneg hstr0, abs_le] at hstr
  constructor <;> linarith

/-! ### The amounts of a forecast -/

theorem runRate_cpython (hspend : IsMoney spend) (asOf start : Moment) :
    0 ≤ runRate .cpython spend asOf start ∧ runRate .cpython spend asOf start < 10 ^ 12 := by
  set elapsed := max (asOf.utc - start.utc) MIN_ELAPSED
  have hhour : (3600000000 : ℤ) ≤ elapsed := le_max_right _ _
  have hhourq : (3600000000 : ℚ) ≤ elapsed := by exact_mod_cast hhour
  obtain ⟨hlow, _⟩ := str_inDays (m := elapsed) (by omega)
  set days := reprFloat (inDays .cpython elapsed)
  have hdays : 1 / 25 ≤ days := by linarith
  have hquot0 : 0 ≤ spend / days := div_nonneg hspend.nonneg (by linarith)
  have hquot : spend / days ≤ 25 * 10 ^ 10 := by
    rw [div_le_iff₀ (by linarith)]
    linarith [hspend.lt, hspend.nonneg]
  have hdec := abs_decimal_sub_le binary64 reprFloat (spend / days)
  rw [abs_of_nonneg hquot0, abs_le] at hdec
  have hexp := abs_le.mp (abs_toExp_halfEven_sub_le (-8)
    ((Arith.decimal binary64 reprFloat).dec (spend / days)))
  have hrate : runRate .cpython spend asOf start =
      toExp halfEven (-8) ((Arith.decimal binary64 reprFloat).dec (spend / days)) := rfl
  rw [hrate]
  refine ⟨runRate_nonneg ordered_cpython hspend.nonneg asOf start, ?_⟩
  norm_num at hexp hdec hquot ⊢
  linarith

theorem fits_cpython {e : ℤ} (he : e = -8 ∨ e = CENT.exp) {v : ℚ} (h0 : 0 ≤ v)
    (h : v < 10 ^ 15) : Arith.cpython.fits e (toExp halfEven e v) = true := by
  refine (decimal_fits binary64 reprFloat e _).mpr ?_
  have herr := (abs_le.mp (abs_toExp_halfEven_sub_le e v)).2
  rw [abs_of_nonneg (toExp_halfEven_nonneg e h0)]
  rcases he with rfl | rfl
  · norm_num at herr ⊢
    linarith
  · norm_num [CENT] at herr ⊢
    linarith

/-- **The quantized amounts fit the precision**, in a month's forecast. -/
theorem amountsFit_cpython (hb : monthBounds asOf = .ok (start, stop)) (hspend : IsMoney spend) :
    AmountsFit .cpython spend asOf start stop := by
  obtain ⟨hrate0, hrate⟩ := runRate_cpython hspend asOf start
  obtain ⟨days, ⟨_, hle⟩, hdays⟩ := monthBounds_days hb
  have hspendlt := hspend.lt
  have hlength : stop.utc - start.utc ≤ 31 * microsPerDay := by
    rw [hdays]
    exact_mod_cast Nat.mul_le_mul_right _ hle
  have hlengthq : ((stop.utc - start.utc : ℤ) : ℚ) ≤ 2678400000000 := by
    have : stop.utc - start.utc ≤ 2678400000000 := hlength
    exact_mod_cast this
  have hnn : 0 ≤ stop.utc - start.utc := by
    rw [hdays]
    exact mul_nonneg (Int.natCast_nonneg _) (Int.natCast_nonneg _)
  have hnnq : (0 : ℚ) ≤ ((stop.utc - start.utc : ℤ) : ℚ) := by exact_mod_cast hnn
  obtain ⟨hlow, hup⟩ := str_inDays hnn
  set total := reprFloat (inDays .cpython (stop.utc - start.utc))
  have htotal0 : 0 ≤ total := by linarith
  have htotal : total ≤ 32 := by linarith
  have hprod0 : 0 ≤ runRate .cpython spend asOf start * total := mul_nonneg hrate0 htotal0
  have hprod : runRate .cpython spend asOf start * total ≤ 10 ^ 12 * 32 :=
    mul_le_mul hrate.le htotal htotal0 (by norm_num)
  have hdec := abs_decimal_sub_le binary64 reprFloat
    (runRate .cpython spend asOf start * total)
  rw [abs_of_nonneg hprod0, abs_le] at hdec
  refine ⟨?_, ?_, ?_, ?_⟩
  · refine (decimal_fits binary64 reprFloat _ _).mpr ?_
    rw [abs_of_nonneg hrate0]
    norm_num at hrate ⊢
    linarith
  · refine fits_cpython (.inr rfl) (roundSig_nonneg (by decide) 28 hprod0) ?_
    show (Arith.decimal binary64 reprFloat).dec (runRate .cpython spend asOf start * total) < _
    norm_num at hdec hprod ⊢
    linarith
  · refine fits_cpython (.inr rfl) hspend.nonneg ?_
    norm_num at hspendlt ⊢
    linarith
  · refine fits_cpython (.inr rfl) hrate0 ?_
    norm_num at hrate ⊢
    linarith

/-! ### The date -/

/-- **A breach date that comes out** is in what is left of the period. -/
theorem mem_period_of_breach {rate : ℚ} {b : Option Moment} (hlimit : 0 < limit)
    (hlt : asOf.utc < stop.utc)
    (h : breachDate .cpython asOf stop spend rate (some limit) = .ok b) :
    ∀ t, b = some t → asOf.utc ≤ t.utc ∧ t.utc < stop.utc := by
  rintro t rfl
  rcases breachDate_cases hlimit h with ⟨_, hb⟩ | ⟨_, _, hb⟩ | ⟨hspent, hrate, u, hu, hb⟩
  · obtain rfl := Option.some.inj hb
    exact ⟨le_rfl, hlt⟩
  · cases hb
  · split at hb
    · rename_i hbefore
      obtain rfl := Option.some.inj hb
      have hnn := daysToMicros_nonneg ordered_cpython
        (daysLeft_nonneg ordered_cpython hspent.le hrate.le)
      refine ⟨?_, hbefore⟩
      rw [hu]
      exact le_add_of_nonneg_right hnn
    · cases hb

/-- **When a forecast comes out**: when the days left are a `timedelta`, and lead to a
date. -/
theorem forecasts_iff (team : String) (hb : monthBounds asOf = .ok (start, stop))
    (hspend : IsMoney spend) (hlimit : IsMoney limit ∧ 0 < limit) :
    Forecasts .cpython team spend limit asOf start stop ↔
      BreachFits .cpython spend asOf start limit := by
  constructor
  · rintro ⟨f, hf, _⟩
    exact ((exists_buildForecast_eq_ok team).mp ⟨f, hf⟩).2
  · intro h
    obtain ⟨f, hf⟩ := (exists_buildForecast_eq_ok team).mpr ⟨amountsFit_cpython hb hspend, h⟩
    obtain ⟨_, _, hbreach, _⟩ := buildForecast_eq_ok hf
    exact ⟨f, hf, mem_period_of_breach hlimit.2 (monthBounds_contains hb).2 hbreach⟩

/-! A day into August 2026.  At a dollar a day a budget of a hundred runs out in
November; at two millionths of a cent, one of a billion would in 137 trillion years. -/

def august : Date := ⟨2026, 8, 1, by decide⟩

def september : Date := ⟨2026, 9, 1, by decide⟩

def august2 : Moment where
  clock := 739829 * microsPerDay
  clock_lt := by decide
  offset_lt := zero_offset_lt

theorem monthBounds_august2 :
    monthBounds august2 = .ok (august.midnight, september.midnight) := by decide +kernel

theorem forecasts_dollar :
    Forecasts .cpython "research" 1 100 august2 august.midnight september.midnight := by
  refine (forecasts_iff "research" monthBounds_august2
    ⟨by decide, ⟨100000000, by norm_num⟩, by norm_num⟩
    ⟨⟨by decide, ⟨10000000000, by norm_num⟩, by norm_num⟩, by decide⟩).mpr fun _ _ _ => ?_
  unfold BreachInRange
  decide +kernel

theorem forecast_overflows :
    monthBounds august2 = .ok (august.midnight, september.midnight) ∧
      IsMoney (2 / 10 ^ 8) ∧ IsMoney (10 ^ 9) ∧
      ¬ Forecasts .cpython "research" (2 / 10 ^ 8) (10 ^ 9) august2 august.midnight
        september.midnight := by
  refine ⟨monthBounds_august2, ⟨by norm_num, ⟨2, by norm_num⟩, by norm_num⟩,
    ⟨by norm_num, ⟨10 ^ 17, by norm_num⟩, by norm_num⟩, ?_⟩
  rintro ⟨f, hf, _⟩
  have hraises : (buildForecast .cpython "research" (2 / 10 ^ 8) august2 august.midnight
      september.midnight (some (10 ^ 9))).toOption.isNone = true := by decide +kernel
  rw [hf] at hraises
  cases hraises

end Finops
