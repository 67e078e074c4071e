import Finops.Attribution.BreachDate

/-!
# Forecasts are monotone

In an arithmetic whose roundings keep the order (`Arith.Ordered`), as `Arith.exact` and
`Arith.cpython` are, more spend gives no lower a run rate and projection, and no later a
breach date; a higher limit gives no earlier a breach date (`buildForecast_mono`).

Two forecasts need not come about in the same way: the budget of one can be used up already
while that of the other lasts to some day, or past the end of the period.  What compares
them is the number of days left, which is never negative and rounds in the same order
(`daysToMicros_mono`, `breachDate_mono`).
-/

namespace Finops

open Numerics Calendar

variable {num : Arith} {start stop asOf : Moment}

/-- If there is the first date there is the second, and it is no later. -/
def NoLater (b b' : Option Moment) : Prop := ∀ t, b = some t → ∃ t', b' = some t' ∧ t'.utc ≤ t.utc

/-! ### Days into microseconds -/

/-- **More days are no fewer microseconds.** -/
theorem daysToMicros_mono (hnum : num.Ordered) {days more : ℚ} (h : 0 ≤ days) (hle : days ≤ more) :
    daysToMicros num days ≤ daysToMicros num more := by
  rw [daysToMicros_eq num h, daysToMicros_eq num (h.trans hle)]
  have hday : (0 : ℚ) ≤ microsPerDay := Nat.cast_nonneg _
  rcases (Int.floor_le_floor hle).eq_or_lt with heq | hlt
  · have hfract : Int.fract days ≤ Int.fract more := by
      rw [Int.fract, Int.fract, heq]
      linarith
    have hrest := mul_le_mul_of_nonneg_right hfract hday
    rw [heq]
    exact Int.add_le_add_left (halfEven_mono (hnum.flt_mono _ _
      (mul_nonneg (Int.fract_nonneg days) hday) hrest)) _
  · have hwhole : (⌊days⌋ + 1) * (microsPerDay : ℤ) ≤ ⌊more⌋ * microsPerDay :=
      mul_le_mul_of_nonneg_right hlt (Int.natCast_nonneg _)
    have hfirst := (restOfDay_bounds hnum days).2
    have hsecond := (restOfDay_bounds hnum more).1
    rw [add_mul, one_mul] at hwhole
    linarith

/-! ### The breach date -/

theorem daysLeft_mono (hnum : num.Ordered) {spend spend' rate rate' limit limit' : ℚ}
    (hspend : spend' ≤ limit') (hleft : limit' - spend' ≤ limit - spend) (hrate : 0 < rate)
    (hrates : rate ≤ rate') : daysLeft num spend' rate' limit' ≤ daysLeft num spend rate limit := by
  have hzero : 0 ≤ num.dec (limit' - spend') := hnum.dec_nonneg (sub_nonneg.mpr hspend)
  have hrest : num.dec (limit' - spend') ≤ num.dec (limit - spend) :=
    hnum.dec_mono _ _ (sub_nonneg.mpr hspend) hleft
  have hquot : num.dec (limit' - spend') / rate' ≤ num.dec (limit - spend) / rate :=
    div_le_div₀ (hzero.trans hrest) hrest hrate hrates
  have hquot0 : 0 ≤ num.dec (limit' - spend') / rate' := div_nonneg hzero (hrate.le.trans hrates)
  exact hnum.flt_mono _ _ (hnum.dec_nonneg hquot0) (hnum.dec_mono _ _ hquot0 hquot)

/-- **The breach date comes no later** when less of the budget is left and the rate is higher. -/
theorem breachDate_mono (hnum : num.Ordered) {spend spend' rate rate' limit limit' : ℚ}
    {b b' : Option Moment} (hlimit : 0 < limit) (hlimit' : 0 < limit')
    (hleft : limit' - spend' ≤ limit - spend) (hrates : rate ≤ rate')
    (hb : breachDate num asOf stop spend rate (some limit) = .ok b)
    (hb' : breachDate num asOf stop spend' rate' (some limit') = .ok b') : NoLater b b' := by
  rintro t rfl
  rcases breachDate_cases hlimit hb with ⟨hspent, hnow⟩ | ⟨_, _, hnone⟩ |
    ⟨hspent, hrate, u, hu, hif⟩
  · rcases breachDate_cases hlimit' hb' with ⟨_, hnow'⟩ | ⟨hspent', _, _⟩ | ⟨hspent', _, _⟩
    · exact ⟨asOf, hnow', by rw [Option.some.inj hnow]⟩
    · linarith
    · linarith
  · cases hnone
  · split at hif
    · rename_i hbefore
      obtain rfl := Option.some.inj hif
      have hlasts := daysLeft_nonneg hnum hspent.le hrate.le
      rcases breachDate_cases hlimit' hb' with ⟨_, hnow'⟩ | ⟨_, hrate', _⟩ |
        ⟨hspent', hrate', u', hu', hif'⟩
      · have hahead := daysToMicros_nonneg hnum hlasts
        refine ⟨asOf, hnow', ?_⟩
        rw [hu]
        exact le_add_of_nonneg_right hahead
      · exact absurd (hrate.trans_le hrates) (not_lt.mpr hrate')
      · have hdays : daysToMicros num (daysLeft num spend' rate' limit') ≤
            daysToMicros num (daysLeft num spend rate limit) :=
          daysToMicros_mono hnum (daysLeft_nonneg hnum hspent'.le hrate'.le)
            (daysLeft_mono hnum hspent'.le hleft hrate hrates)
        have hearlier : u'.utc ≤ t.utc := by
          rw [hu, hu']
          exact Int.add_le_add_left hdays _
        rw [if_pos (hearlier.trans_lt hbefore)] at hif'
        exact ⟨u', hif', hearlier⟩
    · cases hif

/-! ### The forecast -/

theorem runRate_mono (hnum : num.Ordered) {spend spend' : ℚ} (h : 0 ≤ spend)
    (hle : spend ≤ spend') (asOf start : Moment) :
    runRate num spend asOf start ≤ runRate num spend' asOf start := by
  have hdays := elapsedDays_nonneg hnum asOf start
  exact toExp_mono _ (hnum.dec_mono _ _ (div_nonneg h hdays)
    (div_le_div_of_nonneg_right hle hdays))

theorem noLater_none (b : Option Moment) : NoLater none b := fun _ h => by cases h

/-- **Forecasts are monotone.**  In the spend, for a period that does not end before it
begins, and in the limit. -/
theorem buildForecast_mono (hnum : num.Ordered) (hperiod : start.utc ≤ stop.utc) (team : String) :
    (∀ spend spend' limit f f', 0 ≤ spend → spend ≤ spend' →
      buildForecast num team spend asOf start stop limit = .ok f →
      buildForecast num team spend' asOf start stop limit = .ok f' →
        f.dailyRunRate ≤ f'.dailyRunRate ∧ f.projectedTotal ≤ f'.projectedTotal ∧
          NoLater f.breachDate f'.breachDate) ∧
    (∀ spend limit limit' f f', 0 < limit → limit ≤ limit' →
      buildForecast num team spend asOf start stop (some limit) = .ok f →
      buildForecast num team spend asOf start stop (some limit') = .ok f' →
        NoLater f'.breachDate f.breachDate) := by
  constructor
  · intro spend spend' limit f f' hspend hle hf hf'
    obtain ⟨_, htotal, hbreach, hrate⟩ := buildForecast_eq_ok hf
    obtain ⟨_, htotal', hbreach', hrate'⟩ := buildForecast_eq_ok hf'
    have hrates := runRate_mono hnum hspend hle asOf start
    have hdays := hnum.str_nonneg _ (inDays_nonneg hnum (sub_nonneg.mpr hperiod))
    refine ⟨?_, ?_, ?_⟩
    · rw [hrate, hrate']
      exact toExp_mono _ hrates
    · rw [htotal, htotal']
      exact toExp_mono _ (hnum.dec_mono _ _ (mul_nonneg (runRate_nonneg hnum hspend asOf start)
        hdays) (mul_le_mul_of_nonneg_right hrates hdays))
    · cases limit with
      | none =>
        rw [← Except.ok.inj hbreach]
        exact noLater_none _
      | some limit =>
        by_cases hlimit : 0 < limit
        · exact breachDate_mono hnum hlimit hlimit (by linarith) hrates hbreach hbreach'
        · rw [breachDate, if_pos (not_lt.mp hlimit)] at hbreach
          rw [← Except.ok.inj hbreach]
          exact noLater_none _
  · intro spend limit limit' f f' hlimit hle hf hf'
    obtain ⟨_, _, hbreach, _⟩ := buildForecast_eq_ok hf
    obtain ⟨_, _, hbreach', _⟩ := buildForecast_eq_ok hf'
    exact breachDate_mono hnum (hlimit.trans_le hle) hlimit (by linarith) (le_refl _) hbreach'
      hbreach

/-- August, from a dollar or two on its first day, against a hundred dollars or fifty. -/
theorem buildForecast_mono_august :
    Arith.cpython.Ordered ∧ august.midnight.utc ≤ september.midnight.utc ∧
    ∃ f f' g, buildForecast .cpython "research" 1 august2 august.midnight september.midnight
        (some 50) = .ok f ∧
      buildForecast .cpython "research" 2 august2 august.midnight september.midnight
        (some 50) = .ok f' ∧
      buildForecast .cpython "research" 2 august2 august.midnight september.midnight
        (some 100) = .ok g ∧
      f.projectedTotal ≤ f'.projectedTotal ∧ NoLater f.breachDate f'.breachDate ∧
      NoLater g.breachDate f'.breachDate := by
  have hperiod : august.midnight.utc ≤ september.midnight.utc := by decide
  have hok : ∀ e : Except PyError Forecast, e.toOption.isSome = true → ∃ f, e = .ok f := by
    rintro (_ | f) h
    · cases h
    · exact ⟨f, rfl⟩
  obtain ⟨f, hf⟩ := hok (buildForecast .cpython "research" 1 august2 august.midnight
    september.midnight (some 50)) (by decide +kernel)
  obtain ⟨f', hf'⟩ := hok (buildForecast .cpython "research" 2 august2 august.midnight
    september.midnight (some 50)) (by decide +kernel)
  obtain ⟨g, hg⟩ := hok (buildForecast .cpython "research" 2 august2 august.midnight
    september.midnight (some 100)) (by decide +kernel)
  obtain ⟨hspend, hlimit⟩ := buildForecast_mono ordered_cpython hperiod "research"
  obtain ⟨_, htotal, hbreach⟩ := hspend 1 2 _ f f' (by norm_num) (by norm_num) hf hf'
  exact ⟨ordered_cpython, hperiod, f, f', g, hf, hf', hg, htotal, hbreach,
    hlimit 2 50 100 f' g (by norm_num) (by norm_num) hf' hg⟩

end Finops
