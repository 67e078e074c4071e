import Finops.Base.Batch
import Finops.Base.Calendar
import Finops.Attribution.Models

/-!
# Spend forecasting

A straight-line projection of a month's run rate to the end of the month, and
the date a budget would be breached if that rate holds.

Three things can go wrong: the month has no bounds in UTC, a quantized amount
has more digits than the precision, or the days left lead out of the range of
`timedelta` or of `datetime`.  `exists_buildForecast_eq_ok` says when a forecast
comes out.
-/

namespace Finops

open Numerics Calendar

def CENT : Literal := ⟨1, -2⟩

def MIN_ELAPSED : ℤ := 3600000000

def LOW_CONFIDENCE_DAYS : ℚ := 3
def MEDIUM_CONFIDENCE_DAYS : ℚ := 10

inductive ForecastConfidence
  | low
  | medium
  | high
  deriving DecidableEq, Repr

structure Forecast where
  team : String
  periodStart : Moment
  periodEnd : Moment
  asOf : Moment
  spendToDate : ℚ
  elapsedDays : ℚ
  dailyRunRate : ℚ
  projectedTotal : ℚ
  confidence : ForecastConfidence
  budgetLimit : Option ℚ := none
  projectedUtilization : Option ℚ := none
  breachDate : Option Moment := none

/-- What a library call that can fail has come back with. -/
def orRaise {α : Type*} (e : PyError) : Option α → Except PyError α
  | none => .error e
  | some a => .ok a

/-- First instant of the month containing `moment`, and of the next one. -/
def monthBounds (moment : Moment) : Except PyError (Moment × Moment) := do
  let utc ← orRaise .overflowError moment.toUtc?
  let next ← orRaise (.valueError "year 10000 is out of range") utc.date.nextMonth?
  return (utc.date.startOfMonth.midnight, next.midnight)

def confidence (elapsedDays : ℚ) : ForecastConfidence :=
  if elapsedDays < LOW_CONFIDENCE_DAYS then .low
  else if elapsedDays < MEDIUM_CONFIDENCE_DAYS then .medium
  else .high

def quantize (num : Arith) (e : ℤ) (v : ℚ) : Except PyError ℚ :=
  if num.fits e (toExp halfEven e v) = true then .ok (toExp halfEven e v)
  else .error .invalidOperation

/-- The microseconds of a `timedelta` of so many days: the whole days exactly,
the rest as a float. -/
def daysToMicros (num : Arith) (days : ℚ) : ℤ :=
  down days * microsPerDay + halfEven (num.flt ((days - down days) * microsPerDay))

def timedelta (num : Arith) (days : ℚ) : Except PyError ℤ :=
  if |daysToMicros num days / (microsPerDay : ℤ)| ≤ 999999999 then .ok (daysToMicros num days)
  else .error .overflowError

/-- `delta.total_seconds() / 86400.0`. -/
def inDays (num : Arith) (micros : ℤ) : ℚ := num.flt (num.flt (micros / 1000000) / 86400)

/-- When the budget runs out, if it does before the period ends. -/
def breachDate (num : Arith) (asOf periodEnd : Moment) (spendToDate dailyRunRate : ℚ) :
    Option ℚ → Except PyError (Option Moment)
  | none => .ok none
  | some budgetLimit =>
    if budgetLimit ≤ 0 then .ok none
    else if budgetLimit ≤ spendToDate then .ok (some asOf)
    else if dailyRunRate ≤ 0 then .ok none
    else do
      let remaining := num.dec (budgetLimit - spendToDate)
      let daysLeft := num.dec (remaining / dailyRunRate)
      let left ← timedelta num (num.flt daysLeft)
      let breach ← orRaise .overflowError (asOf.add? left)
      return if breach.utc < periodEnd.utc then some breach else none

/-- Project spend to the end of the period at the observed run rate. -/
def buildForecast (num : Arith) (team : String) (spendToDate : ℚ)
    (asOf periodStart periodEnd : Moment) (budgetLimit : Option ℚ) :
    Except PyError Forecast := do
  let elapsed := max (asOf.utc - periodStart.utc) MIN_ELAPSED
  let elapsedDays := inDays num elapsed
  let totalDays := inDays num (periodEnd.utc - periodStart.utc)
  let dailyRunRate ← quantize num (-8) (num.dec (spendToDate / num.str elapsedDays))
  let projected ← quantize num CENT.exp (num.dec (dailyRunRate * num.str totalDays))
  let utilization := (budgetLimit.filter (0 < ·)).map fun limit =>
    num.flt (toExp halfEven (-4) (num.flt (num.dec (projected / limit))))
  let spendCents ← quantize num CENT.exp spendToDate
  let rateCents ← quantize num CENT.exp dailyRunRate
  let breach ← breachDate num asOf periodEnd spendToDate dailyRunRate budgetLimit
  return {
    team := team
    periodStart := periodStart
    periodEnd := periodEnd
    asOf := asOf
    spendToDate := spendCents
    elapsedDays := num.flt (toExp halfEven (-3) elapsedDays)
    dailyRunRate := rateCents
    projectedTotal := projected
    confidence := confidence elapsedDays
    budgetLimit := budgetLimit
    projectedUtilization := utilization
    breachDate := breach }

/-! ### The bounds of a month -/

variable {num : Arith} {moment start stop : Moment}

/-- **A month holds its moments.** -/
theorem monthBounds_contains (h : monthBounds moment = .ok (start, stop)) :
    start.utc ≤ moment.utc ∧ moment.utc < stop.utc := by
  unfold monthBounds at h
  cases hu : moment.toUtc? with
  | none => rw [hu] at h; cases h
  | some utc =>
    cases hn : utc.date.nextMonth? with
    | none => rw [hu] at h; simp only [orRaise, bind, Except.bind, hn] at h; cases h
    | some next =>
      rw [hu] at h
      simp only [orRaise, bind, Except.bind, hn] at h
      cases h
      obtain ⟨hutc, hoff⟩ := Moment.utc_of_toUtc? hu
      have hle := utc.midnight_startOfMonth_le
      have hlt := Moment.lt_midnight_nextMonth hn
      rw [← hutc]
      show ((_ : ℕ) : ℤ) - 0 ≤ (utc.clock : ℤ) - utc.offset ∧
        (utc.clock : ℤ) - utc.offset < ((_ : ℕ) : ℤ) - 0
      omega

theorem monthBounds_days (h : monthBounds moment = .ok (start, stop)) :
    ∃ days : ℕ, (28 ≤ days ∧ days ≤ 31) ∧ stop.utc - start.utc = days * microsPerDay := by
  unfold monthBounds at h
  cases hu : moment.toUtc? with
  | none => rw [hu] at h; cases h
  | some utc =>
    cases hn : utc.date.nextMonth? with
    | none => rw [hu] at h; simp only [orRaise, bind, Except.bind, hn] at h; cases h
    | some next =>
      rw [hu] at h
      simp only [orRaise, bind, Except.bind, hn] at h
      cases h
      obtain ⟨days, hle, hdays⟩ := Moment.midnight_nextMonth hn
      refine ⟨days, hle, ?_⟩
      show ((next.midnight.clock : ℕ) : ℤ) - 0 - ((_ : ℕ) - 0) = _
      omega

/-! ### When a forecast comes out -/

/-- A breach so many days ahead is a `timedelta` and a `datetime`. -/
def BreachInRange (num : Arith) (asOf : Moment) (days : ℚ) : Prop :=
  |daysToMicros num days / (microsPerDay : ℤ)| ≤ 999999999 ∧
    0 ≤ asOf.clock + daysToMicros num days ∧
    asOf.clock + daysToMicros num days < (maxOrdinal * microsPerDay : ℕ)

def runRate (num : Arith) (spendToDate : ℚ) (asOf periodStart : Moment) : ℚ :=
  toExp halfEven (-8) (num.dec (spendToDate /
    num.str (inDays num (max (asOf.utc - periodStart.utc) MIN_ELAPSED))))

def AmountsFit (num : Arith) (spendToDate : ℚ) (asOf periodStart periodEnd : Moment) : Prop :=
  num.fits (-8) (runRate num spendToDate asOf periodStart) = true ∧
    num.fits CENT.exp (toExp halfEven CENT.exp (num.dec (runRate num spendToDate asOf periodStart *
      num.str (inDays num (periodEnd.utc - periodStart.utc))))) = true ∧
    num.fits CENT.exp (toExp halfEven CENT.exp spendToDate) = true ∧
    num.fits CENT.exp (toExp halfEven CENT.exp (runRate num spendToDate asOf periodStart)) = true

/-- A budget that is not used up, but would be at the run rate, is used up
within the range of dates. -/
def BreachFits (num : Arith) (spendToDate : ℚ) (asOf periodStart : Moment)
    (budgetLimit : ℚ) : Prop :=
  0 < budgetLimit → spendToDate < budgetLimit → 0 < runRate num spendToDate asOf periodStart →
    BreachInRange num asOf (num.flt (num.dec
      (num.dec (budgetLimit - spendToDate) / runRate num spendToDate asOf periodStart)))

theorem quantize_eq_ok {e : ℤ} {v q : ℚ} : quantize num e v = .ok q ↔
    num.fits e (toExp halfEven e v) = true ∧ toExp halfEven e v = q := by
  unfold quantize
  by_cases h : num.fits e (toExp halfEven e v) = true
  · rw [if_pos h, Except.ok.injEq, and_iff_right h]
  · rw [if_neg h]; simp [h]

theorem exists_breach_eq_ok {asOf : Moment} {days : ℚ} :
    (∃ left, timedelta num days = .ok left ∧ ∃ t, orRaise .overflowError (asOf.add? left) = .ok t) ↔
      BreachInRange num asOf days := by
  unfold timedelta BreachInRange Moment.add? Moment.ofClock?
  by_cases hd : |daysToMicros num days / (microsPerDay : ℤ)| ≤ 999999999
  · rw [if_pos hd]
    constructor
    · rintro ⟨left, hl, t, ht⟩
      obtain rfl := Except.ok.inj hl
      split at ht
      · rename_i hr; exact ⟨hd, hr⟩
      · cases ht
    · rintro ⟨_, hr⟩
      exact ⟨_, rfl, by rw [dif_pos hr]; exact ⟨_, rfl⟩⟩
  · rw [if_neg hd]
    simp [hd]

theorem exists_breachDate_eq_ok {asOf : Moment} (periodEnd : Moment) {spend rate limit : ℚ} :
    (∃ b, breachDate num asOf periodEnd spend rate (some limit) = .ok b) ↔
      (0 < limit → spend < limit → 0 < rate →
        BreachInRange num asOf (num.flt (num.dec (num.dec (limit - spend) / rate)))) := by
  unfold breachDate
  dsimp only
  by_cases hl : limit ≤ 0
  · rw [if_pos hl]; simp [not_lt.mpr hl]
  rw [if_neg hl, imp_iff_right (not_le.mp hl)]
  by_cases hs : limit ≤ spend
  · rw [if_pos hs]; simp [not_lt.mpr hs]
  rw [if_neg hs, imp_iff_right (not_le.mp hs)]
  by_cases hr : rate ≤ 0
  · rw [if_pos hr]; simp [not_lt.mpr hr]
  rw [if_neg hr, imp_iff_right (not_le.mp hr), ← exists_breach_eq_ok, Batch.exists_bind_eq_ok]
  simp only [Batch.exists_bind_eq_ok]
  simp [pure, Except.pure]

/-- **When a forecast comes out**, for a budget with a limit. -/
theorem exists_buildForecast_eq_ok (team : String) {spend limit : ℚ}
    {asOf periodStart periodEnd : Moment} :
    (∃ f, buildForecast num team spend asOf periodStart periodEnd (some limit) = .ok f) ↔
      AmountsFit num spend asOf periodStart periodEnd ∧
        BreachFits num spend asOf periodStart limit := by
  unfold buildForecast AmountsFit BreachFits
  simp only [Batch.exists_bind_eq_ok, quantize_eq_ok]
  constructor
  · rintro ⟨_, ⟨h1, rfl⟩, _, ⟨h2, rfl⟩, _, ⟨h3, rfl⟩, _, ⟨h4, rfl⟩, b, hb, _⟩
    exact ⟨⟨h1, h2, h3, h4⟩, (exists_breachDate_eq_ok periodEnd).mp ⟨b, hb⟩⟩
  · rintro ⟨⟨h1, h2, h3, h4⟩, h5⟩
    obtain ⟨b, hb⟩ := (exists_breachDate_eq_ok periodEnd).mpr h5
    exact ⟨_, ⟨h1, rfl⟩, _, ⟨h2, rfl⟩, _, ⟨h3, rfl⟩, _, ⟨h4, rfl⟩, b, hb, _, rfl⟩

/-! ### What a forecast says -/

theorem utc_add? {t u : Moment} {micros : ℤ} (h : t.add? micros = some u) :
    u.utc = t.utc + micros := by
  unfold Moment.add? Moment.ofClock? at h
  split at h
  · rename_i hr
    obtain rfl := Option.some.inj h
    show (((t.clock + micros).toNat : ℕ) : ℤ) - t.offset = t.clock - t.offset + micros
    omega
  · cases h

/-- **The breach date**, where it comes out: now, or never, or so many days ahead. -/
theorem breachDate_cases {asOf periodEnd : Moment} {spend rate limit : ℚ} {b : Option Moment}
    (hlimit : 0 < limit)
    (h : breachDate num asOf periodEnd spend rate (some limit) = .ok b) :
    (limit ≤ spend ∧ b = some asOf) ∨ (spend < limit ∧ rate ≤ 0 ∧ b = none) ∨
      (spend < limit ∧ 0 < rate ∧ ∃ t : Moment,
        t.utc = asOf.utc +
          daysToMicros num (num.flt (num.dec (num.dec (limit - spend) / rate))) ∧
        b = if t.utc < periodEnd.utc then some t else none) := by
  unfold breachDate at h
  dsimp only at h
  rw [if_neg (not_le.mpr hlimit)] at h
  split at h
  · rename_i hspent
    exact .inl ⟨hspent, (Except.ok.inj h).symm⟩
  rename_i hspent
  split at h
  · rename_i hrate
    exact .inr (.inl ⟨not_le.mp hspent, hrate, (Except.ok.inj h).symm⟩)
  rename_i hrate
  refine .inr (.inr ⟨not_le.mp hspent, not_le.mp hrate, ?_⟩)
  obtain ⟨left, hleft, h⟩ := Batch.bind_eq_ok.mp h
  obtain ⟨t, ht, h⟩ := Batch.bind_eq_ok.mp h
  unfold timedelta at hleft
  split at hleft
  · obtain rfl := Except.ok.inj hleft
    cases hadd : asOf.add? (daysToMicros num (num.flt (num.dec (num.dec (limit - spend) / rate))))
      with
    | none => rw [hadd] at ht; cases ht
    | some u =>
      rw [hadd] at ht
      obtain rfl := Except.ok.inj ht
      exact ⟨u, utc_add? hadd, (Except.ok.inj h).symm⟩
  · cases hleft

/-- **A forecast**: its projection, its breach date and its run rate. -/
theorem buildForecast_eq_ok {team : String} {spend : ℚ} {limit : Option ℚ}
    {asOf periodStart periodEnd : Moment} {f : Forecast}
    (h : buildForecast num team spend asOf periodStart periodEnd limit = .ok f) :
    AmountsFit num spend asOf periodStart periodEnd ∧
      f.projectedTotal = toExp halfEven CENT.exp (num.dec (runRate num spend asOf periodStart *
        num.str (inDays num (periodEnd.utc - periodStart.utc)))) ∧
      breachDate num asOf periodEnd spend (runRate num spend asOf periodStart) limit =
        .ok f.breachDate ∧
      f.dailyRunRate = toExp halfEven CENT.exp (runRate num spend asOf periodStart) := by
  unfold buildForecast at h
  simp only [Batch.bind_eq_ok, quantize_eq_ok] at h
  obtain ⟨_, ⟨h1, rfl⟩, _, ⟨h2, rfl⟩, _, ⟨h3, rfl⟩, _, ⟨h4, rfl⟩, breach, hbreach, hf⟩ := h
  obtain rfl := Except.ok.inj hf
  exact ⟨⟨h1, h2, h3, h4⟩, rfl, hbreach, rfl⟩

end Finops
