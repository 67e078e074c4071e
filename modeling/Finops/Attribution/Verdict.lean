import Finops.Attribution.BreachDate
import Mathlib.Tactic.NormNum

/-!
# The breach date and the projection

A forecast answers twice whether a budget will be used up: the projection is the run
rate times the length of the month, and the breach date is what is left of the budget
divided by the run rate.  With days as exact rationals the two agree up to rounding
(`Estimates`): the rate to eight digits, the projection to cents, the breach to
microseconds.

Two things keep them apart.  In the first hour the rate is that of a whole hour, but
the days left start now, so a breach is reported for a budget that the projection
misses by what would be spent in the rest of the hour.  And half a microsecond at a
rate of billions a day is worth more than a cent.  `verdict_agrees` allows for both.
-/

namespace Finops

open Numerics Calendar

/-- The arithmetic in question: 28 digits, days as exact rationals. -/
def exactDays : Arith := .decimal id id

/-- The breach date and the projection agree, to a cent. -/
def VerdictAgrees (limit : ℚ) (f : Forecast) : Prop :=
  (f.breachDate.isSome = true → limit - 1 / 100 ≤ f.projectedTotal) ∧
    (limit + 1 / 100 < f.projectedTotal → f.breachDate.isSome = true)

/-- The part of the first hour that is still to come. -/
def restOfHour (asOf start : Moment) : ℚ :=
  max 0 (1 - (asOf.utc - start.utc) / MIN_ELAPSED)

/-- They agree but for the rest of the first hour and for large amounts. -/
def VerdictNear (spend limit : ℚ) (asOf start : Moment) (f : Forecast) : Prop :=
  (f.breachDate.isSome = true →
    limit - 1 / 100 - spend * restOfHour asOf start ≤ f.projectedTotal) ∧
    (limit + max (1 / 100) (limit / 10 ^ 12) < f.projectedTotal → f.breachDate.isSome = true)

/-! ### Estimates -/

/-- A rate over `e` days of a spend `s`, and a total projected to `T` days. -/
structure Estimates (s e T rate total : ℚ) : Prop where
  nonneg : 0 ≤ rate
  lt : rate < 10 ^ 20
  spend : |rate * e - s| ≤ 2 / 10 ^ 6
  projected : |total - rate * T| ≤ 51 / 10 ^ 4

theorem exactDays_dec {v : ℚ} (h : 0 ≤ v) :
    -(5 / 10 ^ 28 * v) ≤ exactDays.dec v - v ∧ exactDays.dec v - v ≤ 5 / 10 ^ 28 * v := by
  have herr : |exactDays.dec v - v| ≤ 5 / 10 ^ 28 * |v| := abs_decimal_sub_le _ _ v
  rw [abs_of_nonneg h] at herr
  exact abs_le.mp herr

theorem estimates {s e T : ℚ} (hs : 0 ≤ s) (he : 0 < e) (he' : e ≤ 31) (hT : 0 ≤ T)
    (hT' : T ≤ 31) (hfits : exactDays.fits (-8) (toExp halfEven (-8) (exactDays.dec (s / e)))) :
    Estimates s e T (toExp halfEven (-8) (exactDays.dec (s / e)))
      (toExp halfEven CENT.exp (exactDays.dec
        (toExp halfEven (-8) (exactDays.dec (s / e)) * T))) := by
  have hquot : 0 ≤ s / e := div_nonneg hs he.le
  have hdec0 : 0 ≤ exactDays.dec (s / e) := roundSig_nonneg (by decide) 28 hquot
  obtain ⟨hdec1, hdec2⟩ := exactDays_dec hquot
  have hexp := abs_le.mp (abs_toExp_halfEven_sub_le (-8) (exactDays.dec (s / e)))
  have hrate0 := toExp_halfEven_nonneg (-8) hdec0
  set rate := toExp halfEven (-8) (exactDays.dec (s / e))
  have hlt : rate < 10 ^ 20 := by
    have h := (decimal_fits id id _ _).mp hfits
    rw [abs_of_nonneg hrate0] at h
    norm_num at h ⊢
    exact h
  have hprod0 : 0 ≤ rate * T := mul_nonneg hrate0 hT
  have hprod : rate * T ≤ 10 ^ 20 * 31 := mul_le_mul hlt.le hT' hT (by norm_num)
  obtain ⟨htotal1, htotal2⟩ := exactDays_dec hprod0
  have hcents := abs_le.mp (abs_toExp_halfEven_sub_le CENT.exp (exactDays.dec (rate * T)))
  have hcent : (10 : ℚ) ^ CENT.exp = 1 / 100 := by norm_num [CENT]
  rw [hcent] at hcents
  norm_num at hexp hlt
  have hclose : |rate - s / e| ≤ 6 / 10 ^ 8 := by
    rw [abs_le]
    norm_num at hdec1 hdec2 ⊢
    constructor <;> linarith
  refine ⟨hrate0, by norm_num; exact hlt, ?_, ?_⟩
  · have hmul : rate * e - s = (rate - s / e) * e := by
      rw [sub_mul, div_mul_cancel₀ _ he.ne']
    rw [hmul, abs_mul, abs_of_pos he]
    calc |rate - s / e| * e ≤ 6 / 10 ^ 8 * 31 :=
          mul_le_mul hclose he' he.le (by norm_num)
      _ ≤ 2 / 10 ^ 6 := by norm_num
  · rw [abs_le]
    norm_num at htotal1 htotal2 hprod ⊢
    constructor <;> linarith

theorem daysLeft_near {rest rate : ℚ} (hrest : 0 ≤ rest) (hrate : 0 < rate) :
    rest ≤ (1 + 2 / 10 ^ 27) * (rate * exactDays.dec (exactDays.dec rest / rate)) ∧
      rate * exactDays.dec (exactDays.dec rest / rate) ≤ (1 + 2 / 10 ^ 27) * rest := by
  have hdec0 : 0 ≤ exactDays.dec rest := roundSig_nonneg (by decide) 28 hrest
  obtain ⟨h1, h2⟩ := exactDays_dec hrest
  obtain ⟨h3, h4⟩ := exactDays_dec (div_nonneg hdec0 hrate.le)
  set days := exactDays.dec (exactDays.dec rest / rate)
  have hmul : rate * (exactDays.dec rest / rate) = exactDays.dec rest :=
    mul_div_cancel₀ _ hrate.ne'
  have h5 := mul_le_mul_of_nonneg_left h3 hrate.le
  have h6 := mul_le_mul_of_nonneg_left h4 hrate.le
  have hfactor : rate * (5 / 10 ^ 28 * (exactDays.dec rest / rate)) =
      5 / 10 ^ 28 * exactDays.dec rest := by
    rw [mul_left_comm, hmul]
  rw [mul_neg, hfactor, mul_sub, hmul] at h5
  rw [hfactor, mul_sub, hmul] at h6
  norm_num at h1 h2 h5 h6 ⊢
  constructor <;> linarith

theorem abs_daysToMicros_sub_le (days : ℚ) :
    |(daysToMicros exactDays days : ℚ) - days * microsPerDay| ≤ 1 / 2 := by
  have h := abs_halfEven_sub_le ((days - down days) * microsPerDay)
  have hdef : (daysToMicros exactDays days : ℚ) - days * microsPerDay =
      halfEven ((days - down days) * microsPerDay) - (days - down days) * microsPerDay := by
    rw [daysToMicros]
    push_cast
    show (_ : ℚ) + ((halfEven ((days - down days) * microsPerDay) : ℤ) : ℚ) - _ = _
    ring
  rw [hdef]
  exact h

/-! ### The two answers -/

section Answers

variable {s e t T L rate total : ℚ} (h : Estimates s e T rate total)

include h

theorem limit_le_of_spent (heT : e ≤ T) (hspent : L ≤ s) : L - 1 / 100 ≤ total := by
  have h1 := (abs_le.mp h.spend).1
  have h2 := (abs_le.mp h.projected).1
  have hmono : rate * e ≤ rate * T := mul_le_mul_of_nonneg_left heT h.nonneg
  norm_num at h1 h2 ⊢
  linarith

theorem rate_mul_rest_le (he : e = max t (1 / 24)) (ht : 0 ≤ t) :
    rate * (e - t) ≤ s * max 0 (1 - 24 * t) + 2 / 10 ^ 6 := by
  rcases le_total (1 / 24) t with hhour | hhour
  · rw [he, max_eq_left hhour, sub_self, mul_zero, max_eq_left (by linarith), mul_zero]
    norm_num
  · rw [max_eq_right hhour] at he
    have hrest : 0 ≤ 1 - 24 * t := by linarith
    have h1 := (abs_le.mp h.spend).2
    have hsplit : rate * (e - t) = rate * e * (1 - 24 * t) := by rw [he]; ring
    rw [hsplit, max_eq_right hrest]
    calc rate * e * (1 - 24 * t) ≤ (s + 2 / 10 ^ 6) * (1 - 24 * t) :=
          mul_le_mul_of_nonneg_right (by linarith) hrest
      _ ≤ s * (1 - 24 * t) + 2 / 10 ^ 6 := by norm_num; linarith

/-- **A breach before the end of the month** is projected, but for the rest of the
first hour. -/
theorem limit_le_of_breach (he : e = max t (1 / 24)) (ht : 0 ≤ t) (htT : t ≤ T) (hT : T ≤ 31)
    {days : ℚ} (hdays : L - s ≤ (1 + 2 / 10 ^ 27) * (rate * days)) (hbefore : days ≤ T - t) :
    L - 1 / 100 - s * max 0 (1 - 24 * t) ≤ total := by
  have h1 := (abs_le.mp h.spend).1
  have h2 := (abs_le.mp h.projected).1
  have hmono : rate * days ≤ rate * (T - t) := mul_le_mul_of_nonneg_left hbefore h.nonneg
  have hsmall : rate * (T - t) ≤ 10 ^ 20 * 31 :=
    mul_le_mul h.lt.le (by linarith) (by linarith) (by norm_num)
  have hrest := rate_mul_rest_le h he ht
  have hsplit : rate * (T - t) = rate * T - rate * e + rate * (e - t) := by ring
  norm_num at h1 h2 hdays hsmall hrest ⊢
  linarith

/-- **A budget that lasts the month**, or all but half a microsecond of it, is projected
to. -/
theorem total_le_of_no_breach (hs : 0 ≤ s) (hL : 0 < L) (hte : t ≤ e) (hT : 28 ≤ T) {d : ℚ}
    (hdays : rate * d ≤ (1 + 2 / 10 ^ 27) * (L - s))
    (hlate : T - t - 1 / (2 * microsPerDay) ≤ d) :
    total ≤ L + max (1 / 100) (L / 10 ^ 12) := by
  have h1 := (abs_le.mp h.spend).2
  have h2 := (abs_le.mp h.projected).2
  have hmicro : (1 : ℚ) / (2 * microsPerDay) = 1 / 172800000000 := by norm_num [microsPerDay]
  rw [hmicro] at hlate
  have hmono := mul_le_mul_of_nonneg_left hlate h.nonneg
  have hmono' : rate * t ≤ rate * e := mul_le_mul_of_nonneg_left hte h.nonneg
  have hlong : rate * 28 ≤ rate * T := mul_le_mul_of_nonneg_left hT h.nonneg
  have hsplit : rate * (T - t - 1 / 172800000000) =
      rate * T - rate * t - rate / 172800000000 := by ring
  rw [hsplit] at hmono
  have hrate : rate ≤ L / 27 + 1 / 10 ^ 6 := by
    norm_num at h1 hdays ⊢
    linarith
  rcases le_total L (10 ^ 10) with hsize | hsize
  · have hcent : L + 1 / 100 ≤ L + max (1 / 100) (L / 10 ^ 12) := by
      linarith [le_max_left (1 / 100) (L / 10 ^ 12)]
    refine le_trans ?_ hcent
    norm_num at h1 h2 hdays hrate hsize ⊢
    linarith
  · have hpart : L + L / 10 ^ 12 ≤ L + max (1 / 100) (L / 10 ^ 12) := by
      linarith [le_max_right (1 / 100) (L / 10 ^ 12)]
    refine le_trans ?_ hpart
    norm_num at h1 h2 hdays hrate hsize ⊢
    linarith

end Answers

/-! ### Forecasts -/

variable {spend limit : ℚ} {moment asOf start stop : Moment} {f : Forecast}

theorem inDays_exactDays (micros : ℤ) : inDays exactDays micros = micros / microsPerDay := by
  show (micros : ℚ) / 1000000 / 86400 = micros / microsPerDay
  rw [div_div]
  norm_num [microsPerDay]

theorem inDays_elapsed (micros : ℤ) : inDays exactDays (max micros MIN_ELAPSED) =
    max ((micros : ℚ) / microsPerDay) (1 / 24) := by
  have hhour : (1 : ℚ) / 24 = (MIN_ELAPSED : ℚ) / microsPerDay := by
    norm_num [MIN_ELAPSED, microsPerDay]
  have hpos : (0 : ℚ) ≤ microsPerDay := by norm_num [microsPerDay]
  rw [inDays_exactDays, hhour, max_div_div_right hpos]
  push_cast
  rfl

theorem before_iff (asOf : Moment) {days T : ℚ} {micros : ℤ}
    (hm : micros = daysToMicros exactDays days)
    (hT : ((stop.utc - start.utc : ℤ) : ℚ) = T * microsPerDay) :
    (asOf.utc + micros < stop.utc →
      days ≤ T - ((asOf.utc - start.utc : ℤ) : ℚ) / microsPerDay) ∧
    (stop.utc ≤ asOf.utc + micros →
      T - ((asOf.utc - start.utc : ℤ) : ℚ) / microsPerDay - 1 / (2 * microsPerDay) ≤ days) := by
  have hD : (0 : ℚ) < microsPerDay := by norm_num [microsPerDay]
  have hnear := abs_le.mp (abs_daysToMicros_sub_le days)
  rw [← hm] at hnear
  have hT' : (stop.utc : ℚ) - start.utc = T * microsPerDay := by exact_mod_cast hT
  have ht : ((asOf.utc - start.utc : ℤ) : ℚ) / microsPerDay * microsPerDay =
      asOf.utc - start.utc := by
    rw [div_mul_cancel₀ _ hD.ne']
    push_cast
    rfl
  have hhalf : (1 : ℚ) / (2 * microsPerDay) * microsPerDay = 1 / 2 := by
    field_simp
  constructor
  · intro hbefore
    have hbefore : (asOf.utc : ℚ) + micros + 1 ≤ stop.utc := by
      exact_mod_cast Int.add_one_le_iff.mpr hbefore
    refine le_of_mul_le_mul_right ?_ hD
    rw [sub_mul, ht]
    linarith
  · intro hlate
    have hlate : (stop.utc : ℚ) ≤ asOf.utc + micros := by exact_mod_cast hlate
    refine le_of_mul_le_mul_right ?_ hD
    rw [sub_mul, sub_mul, ht, hhalf]
    linarith

/-- The days of a moment in a month: `t` since its start, `e` that count as elapsed,
and `T` in all. -/
structure MonthDays (asOf start stop : Moment) (t e T : ℚ) : Prop where
  since : ((asOf.utc - start.utc : ℤ) : ℚ) / microsPerDay = t
  elapsed : inDays exactDays (max (asOf.utc - start.utc) MIN_ELAPSED) = e
  length : ((stop.utc - start.utc : ℤ) : ℚ) = T * microsPerDay
  hour : e = max t (1 / 24)
  nonneg : 0 ≤ t
  le_total : e ≤ T
  month : 28 ≤ T ∧ T ≤ 31

namespace MonthDays

variable {t e T : ℚ} (h : MonthDays asOf start stop t e T)

include h

theorem since_le : t ≤ e := h.hour ▸ le_max_left _ _

theorem elapsed_pos : 0 < e := by
  have hle : 1 / 24 ≤ e := h.hour ▸ le_max_right _ _
  linarith

theorem total : inDays exactDays (stop.utc - start.utc) = T := by
  have hD : (microsPerDay : ℚ) ≠ 0 := by norm_num [microsPerDay]
  rw [inDays_exactDays, h.length, mul_div_assoc, div_self hD, mul_one]

theorem restOfHour_eq : restOfHour asOf start = max 0 (1 - 24 * t) := by
  rw [restOfHour, ← h.since]
  push_cast
  congr 2
  norm_num [MIN_ELAPSED, microsPerDay]
  ring

end MonthDays

theorem exists_monthDays (hb : monthBounds moment = .ok (start, stop))
    (hin : start.utc ≤ asOf.utc ∧ asOf.utc < stop.utc) :
    ∃ t e T, MonthDays asOf start stop t e T := by
  obtain ⟨T, ⟨hmin, hmax⟩, hdays⟩ := monthBounds_days hb
  have hD : (0 : ℚ) < microsPerDay := by norm_num [microsPerDay]
  have hlength : ((stop.utc - start.utc : ℤ) : ℚ) = (T : ℚ) * microsPerDay := by
    rw [hdays]
    push_cast
    rfl
  have hT28 : (28 : ℚ) ≤ T := by exact_mod_cast hmin
  have hT31 : (T : ℚ) ≤ 31 := by exact_mod_cast hmax
  have htT : ((asOf.utc - start.utc : ℤ) : ℚ) / microsPerDay ≤ T := by
    rw [div_le_iff₀ hD, ← hlength]
    exact_mod_cast Int.sub_le_sub_right hin.2.le _
  have he := inDays_elapsed (asOf.utc - start.utc)
  refine ⟨_, _, T, rfl, rfl, hlength, he, ?_, ?_, hT28, hT31⟩
  · exact div_nonneg (by exact_mod_cast sub_nonneg.mpr hin.1) hD.le
  · rw [he]
    exact max_le htT (by linarith)

/-- **The breach date and the projection agree** but for the rest of the first hour and
for large amounts. -/
theorem verdict_agrees (team : String) (hb : monthBounds moment = .ok (start, stop))
    (hin : start.utc ≤ asOf.utc ∧ asOf.utc < stop.utc) (hspend : 0 ≤ spend) (hlimit : 0 < limit)
    (hf : buildForecast exactDays team spend asOf start stop (some limit) = .ok f) :
    VerdictNear spend limit asOf start f := by
  obtain ⟨hfits, htotal, hbreach, _⟩ := buildForecast_eq_ok hf
  obtain ⟨t, e, T, hd⟩ := exists_monthDays hb hin
  obtain ⟨hT28, hT31⟩ := hd.month
  have heT := hd.le_total
  have htT := hd.since_le.trans heT
  have hest : Estimates spend e T (runRate exactDays spend asOf start) f.projectedTotal := by
    have hfit := hfits.1
    rw [runRate, hd.elapsed] at hfit
    rw [htotal, hd.total, runRate, hd.elapsed]
    exact estimates hspend hd.elapsed_pos (heT.trans hT31) (by linarith) hT31 hfit
  rw [VerdictNear, hd.restOfHour_eq]
  rcases breachDate_cases hlimit hbreach with ⟨hspent, hnow⟩ | ⟨hspent, hrate, hnone⟩ |
    ⟨hspent, hrate, u, hu, hif⟩
  · rw [hnow]
    refine ⟨fun _ => ?_, fun _ => rfl⟩
    have hle := limit_le_of_spent hest heT hspent
    have hnn := mul_nonneg hspend (le_max_left 0 (1 - 24 * t))
    linarith
  · rw [hnone]
    refine ⟨fun h => (by cases h), fun h => absurd ?_ (not_le.mpr h)⟩
    refine total_le_of_no_breach hest hspend hlimit hd.since_le hT28 (d := T - t) ?_ ?_
    · rw [le_antisymm hrate hest.nonneg, zero_mul]
      exact mul_nonneg (by norm_num) (by linarith)
    · have : (0 : ℚ) ≤ 1 / (2 * microsPerDay) := by positivity
      linarith
  · obtain ⟨hleft, hright⟩ := daysLeft_near (sub_nonneg.mpr hspent.le) hrate
    obtain ⟨hbefore, hlate⟩ := before_iff asOf rfl hd.length
    rw [hd.since] at hbefore hlate
    rw [hif]
    by_cases hend : u.utc < stop.utc
    · rw [if_pos hend]
      rw [hu] at hend
      exact ⟨fun _ => limit_le_of_breach hest hd.hour hd.nonneg htT hT31 hleft (hbefore hend),
        fun _ => rfl⟩
    · rw [if_neg hend]
      rw [hu] at hend
      refine ⟨fun h => (by cases h), fun h => absurd ?_ (not_le.mpr h)⟩
      exact total_le_of_no_breach hest hspend hlimit hd.since_le hT28 hright
        (hlate (not_lt.mp hend))

/-! August 2026: a hundred dollars on the first day, and a hundred in the first minute,
which are 74400 by the rate of an hour.  And ten billion on the first day. -/

def firstMinute : Moment where
  clock := 739828 * microsPerDay + 60000000
  clock_lt := by decide
  offset_lt := zero_offset_lt

/-- The forecast of a limit on a spend in August. -/
def augustForecast (asOf : Moment) (spend limit : ℚ) : Except PyError Forecast :=
  buildForecast exactDays "research" spend asOf august.midnight september.midnight (some limit)

theorem augustForecast_eq (asOf : Moment) (spend limit : ℚ) {total : ℚ} {b : Bool}
    (h : (augustForecast asOf spend limit).toOption.map
      (fun f => (f.breachDate.isSome, f.projectedTotal)) = some (b, total)) :
    ∃ f, augustForecast asOf spend limit = .ok f ∧ f.breachDate.isSome = b ∧
      f.projectedTotal = total := by
  cases hf : augustForecast asOf spend limit with
  | error e => rw [hf] at h; cases h
  | ok f =>
    rw [hf] at h
    obtain ⟨hb, ht⟩ := Prod.mk.inj (Option.some.inj h)
    exact ⟨f, rfl, hb, ht⟩

theorem verdict_agrees_august : ∃ f, augustForecast august2 100 2000 = .ok f ∧
    VerdictNear 100 2000 august2 august.midnight f := by
  obtain ⟨f, hf, _⟩ := augustForecast_eq august2 100 2000
    (show _ = some (true, (3100 : ℚ)) by decide +kernel)
  refine ⟨f, hf, verdict_agrees "research" monthBounds_august2 ?_ (by norm_num) (by norm_num) hf⟩
  decide +kernel

theorem verdicts_disagree :
    (∃ f, augustForecast firstMinute 100 74450 = .ok f ∧ ¬ VerdictAgrees 74450 f) ∧
      ∃ f, augustForecast august2 (10 ^ 10) (309999999999 + 95 / 100) = .ok f ∧
        ¬ VerdictAgrees (309999999999 + 95 / 100) f := by
  constructor
  · obtain ⟨f, hf, hb, ht⟩ := augustForecast_eq firstMinute 100 74450
      (show _ = some (true, (74400 : ℚ)) by decide +kernel)
    refine ⟨f, hf, fun h => ?_⟩
    have hle := h.1 hb
    rw [ht] at hle
    norm_num at hle
  · obtain ⟨f, hf, hb, ht⟩ := augustForecast_eq august2 (10 ^ 10) (309999999999 + 95 / 100)
      (show _ = some (false, (310000000000 : ℚ)) by decide +kernel)
    refine ⟨f, hf, fun h => ?_⟩
    have hset := h.2 (by rw [ht]; norm_num)
    rw [hb] at hset
    cases hset

end Finops
