import Finops.Alerting.Slack
import Finops.Alerting.Delivery
import Finops.Alerting.Thresholds
import Finops.Attribution.BreachDate

/-!
# What the messages say

A message is all that the people who get it see.  `notices_coherent` is about every
message that is posted in a run of evaluations: it can be read, its figures fit together
(`Notice.Coherent`), and they are those of an evaluation of the run (`Notice.Reports`).
A percentage in the header is reached by the percentage in the text.  A budget called
exhausted has a full bar, nothing left, and runs out on the day of the message, although
the utilisation is a float and the amounts are decimals: what is compared with the
thresholds is the percentage spent but for one part in `10 ^ 15` (`abs_percent_sub_le`).
That is half a cent only from `10 ^ 12` dollars on, so this is said of budgets of
`Ordinary` size.

`notices_escalate` is about all messages of a run that are answered.  Those about one team
and period show higher and higher percentages, until the budget is exhausted, and no
percentage after that.
-/

namespace Finops

open Numerics Calendar HighWater Runs Text

namespace Slack

/-! ### Roundings of a quotient -/

def Notice.Ordinary (n : Notice) : Prop :=
  1 / 100 ≤ n.limit ∧ n.limit ≤ 10 ^ 12 ∧ |n.spent| ≤ 10 ^ 12

/-- **The figures fit together.** -/
structure Notice.Coherent (n : Notice) : Prop where
  reached : ∀ t ∈ n.level, t ≤ n.percent
  full : n.level = none → 100 ≤ n.percent ∧ n.filled = BAR_WIDTH
  bar : |5 * (n.filled : ℤ) - max 0 (min n.percent 100)| ≤ 3
  adds : n.Ordinary → |n.spent + n.left - max n.limit n.spent| ≤ 1 / 100
  quotient : n.Ordinary →
    |n.percent * n.limit - 100 * n.spent| ≤ n.limit / 2 + |(n.percent : ℚ)| / 200 + 1
  nothingLeft : n.Ordinary → n.level = none → n.left = 0 ∧ n.runsOut ≠ none

section Figures

variable {S L u : ℚ}

theorem abs_percent_sub_le (hL : 0 < L) :
    |binary64 (utilizationOf .cpython S L * 100) * L - 100 * S| ≤ |S| / 10 ^ 13 := by
  have hdec := abs_decimal_sub_le binary64 reprFloat (S / L)
  have hflt := abs_sub_le_of_rounded (by norm_num) hdec (abs_binary64_sub_le _)
  set d := (Arith.decimal binary64 reprFloat).dec (S / L)
  have hu : utilizationOf .cpython S L = binary64 d := if_pos hL
  rw [hu]
  have hscaled : |binary64 d * 100 - S / L * 100| ≤
      (5 / 10 ^ 28 + 1 / 2 ^ 53 + 1 / 2 ^ 53 * (5 / 10 ^ 28)) * |S / L * 100| := by
    rw [← sub_mul, abs_mul, abs_mul, ← mul_assoc]
    gcongr
  have hall := abs_sub_le_of_rounded (by norm_num) hscaled (abs_binary64_sub_le _)
  have hfactor : binary64 (binary64 d * 100) * L - 100 * S =
      (binary64 (binary64 d * 100) - S / L * 100) * L := by
    field_simp
  have hsize : |S / L * 100| * L = 100 * |S| := by
    rw [abs_mul, abs_div, abs_of_pos hL, abs_of_pos (by norm_num : (0 : ℚ) < 100)]
    field_simp
  rw [hfactor, abs_mul, abs_of_pos hL]
  calc |binary64 (binary64 d * 100) - S / L * 100| * L
      ≤ 1 / 10 ^ 15 * |S / L * 100| * L := by
        gcongr
        exact hall.trans (by gcongr; norm_num)
    _ = |S| / 10 ^ 13 := by rw [mul_assoc, hsize]; ring

theorem limit_le_of_hundred (hL : 0 < L)
    (h : 100 ≤ binary64 (utilizationOf .cpython S L * 100)) : 0 < S ∧ L ≤ S + S / 10 ^ 15 := by
  have herr := (abs_le.mp (abs_percent_sub_le (S := S) hL)).2
  have hle : 100 * L ≤ 100 * S + |S| / 10 ^ 13 := by nlinarith
  have hS : 0 < S := by
    by_contra hneg
    rw [abs_of_nonpos (not_lt.mp hneg)] at hle
    linarith [not_lt.mp hneg]
  rw [abs_of_pos hS] at hle
  exact ⟨hS, by linarith⟩

theorem utilization_of_hundred (h : 100 ≤ binary64 (u * 100)) : 1 - 1 / 10 ^ 15 ≤ u := by
  have herr := (abs_le.mp (abs_binary64_sub_le (u * 100))).2
  have hu : 0 < u := by
    by_contra hneg
    have hle := binary64_monotone (a := u * 100) (b := 0) (by linarith [not_lt.mp hneg])
    rw [binary64_zero] at hle
    linarith
  rw [abs_of_pos (by linarith)] at herr
  linarith

theorem filled_of_hundred (h : 100 ≤ binary64 (u * 100)) :
    filled .cpython u BAR_WIDTH = BAR_WIDTH := by
  have hu := utilization_of_hundred h
  have hlow : 1 - 1 / 10 ^ 15 ≤ max 0 (min u 1) := le_max_of_le_right (le_min hu (by norm_num))
  have hhigh : max 0 (min u 1) ≤ 1 := max_le zero_le_one (min_le_right _ _)
  have herr := abs_le.mp (abs_binary64_sub_le (max 0 (min u 1) * (BAR_WIDTH : ℕ)))
  have hplaces : ((BAR_WIDTH : ℕ) : ℚ) = 20 := rfl
  rw [hplaces, abs_of_nonneg (by linarith)] at herr
  have hround : halfEven (binary64 (max 0 (min u 1) * (BAR_WIDTH : ℕ))) = (BAR_WIDTH : ℕ) := by
    refine halfEven_eq_of_abs_lt ?_
    rw [Int.cast_natCast, hplaces, abs_lt]
    constructor <;> linarith
  rw [filled, cpython_flt, hround, Int.toNat_natCast]

theorem abs_bar_sub_le (u : ℚ) : |5 * (filled .cpython u BAR_WIDTH : ℤ) -
    max 0 (min (halfEven (binary64 (u * 100))) 100)| ≤ 3 := by
  have hplaces : ((BAR_WIDTH : ℕ) : ℚ) = 20 := rfl
  rcases le_or_gt u 0 with hu | hu
  · have hfilled : filled .cpython u BAR_WIDTH = 0 := by
      have hzero : max 0 (min u 1) = 0 := max_eq_left (min_le_of_left_le hu)
      rw [filled, hzero, zero_mul, cpython_flt, binary64_zero]
      decide +kernel
    have hpercent : halfEven (binary64 (u * 100)) ≤ 0 := by
      have hle := binary64_monotone (a := u * 100) (b := 0) (by linarith)
      rw [binary64_zero] at hle
      have h := halfEven_mono hle
      rwa [← Int.cast_zero, halfEven_intCast] at h
    rw [hfilled, max_eq_left (min_le_of_left_le hpercent)]
    decide
  rcases le_or_gt 1 u with h1 | h1
  · have hhundred : 100 ≤ binary64 (u * 100) := by
      have h100 : binary64 ((100 : ℕ) : ℚ) = (100 : ℕ) :=
        ordered_cpython.flt_natCast 100 (by decide)
      calc (100 : ℚ) = binary64 ((100 : ℕ) : ℚ) := by rw [h100]; norm_num
        _ ≤ binary64 (u * 100) := binary64_monotone (by push_cast; linarith)
    have hpercent : 100 ≤ halfEven (binary64 (u * 100)) := by
      have h := halfEven_mono hhundred
      rwa [show (100 : ℚ) = ((100 : ℤ) : ℚ) by norm_num, halfEven_intCast] at h
    rw [filled_of_hundred hhundred, min_eq_right hpercent]
    decide
  · have hratio : max 0 (min u 1) = u := by rw [min_eq_left h1.le, max_eq_right hu.le]
    have hbar0 : 0 ≤ halfEven (binary64 (u * (BAR_WIDTH : ℕ))) :=
      halfEven_nonneg (binary64_nonneg (by positivity))
    have hfilled : (filled .cpython u BAR_WIDTH : ℤ) =
        halfEven (binary64 (u * (BAR_WIDTH : ℕ))) := by
      rw [filled, hratio, cpython_flt, Int.toNat_of_nonneg hbar0]
    have hp0 : 0 ≤ halfEven (binary64 (u * 100)) :=
      halfEven_nonneg (binary64_nonneg (by positivity))
    have hbarerr := abs_le.mp (abs_binary64_sub_le (u * (BAR_WIDTH : ℕ)))
    have hbarhalf := abs_le.mp (abs_halfEven_sub_le (binary64 (u * (BAR_WIDTH : ℕ))))
    have herr := abs_le.mp (abs_binary64_sub_le (u * 100))
    have hhalf := abs_le.mp (abs_halfEven_sub_le (binary64 (u * 100)))
    rw [hplaces] at hbarerr hbarhalf
    rw [abs_of_pos (by positivity)] at hbarerr herr
    rw [hfilled, hplaces]
    set b := halfEven (binary64 (u * 20))
    set p := halfEven (binary64 (u * 100))
    have hp100 : p < 101 := by
      have h : (p : ℚ) < 101 := by linarith
      exact_mod_cast h
    rw [min_eq_left (by omega), max_eq_right hp0, abs_le]
    have hlow : ((-4 : ℤ) : ℚ) < ((5 * b - p : ℤ) : ℚ) := by push_cast; linarith
    have hhigh : ((5 * b - p : ℤ) : ℚ) < ((4 : ℤ) : ℚ) := by push_cast; linarith
    have hlow' : -4 < 5 * b - p := by exact_mod_cast hlow
    have hhigh' : 5 * b - p < 4 := by exact_mod_cast hhigh
    omega

theorem abs_cents_sub_le (v : ℚ) : |cents v - v| ≤ 1 / 200 := by
  have h := abs_toExp_halfEven_sub_le (-2) v
  norm_num at h
  exact h

theorem cents_eq (v : ℚ) : ∃ k : ℤ, cents v = k / 100 :=
  ⟨halfEven (v / (10 : ℚ) ^ (-2 : ℤ)), by rw [cents, toExp]; norm_num; ring⟩

theorem cents_mono {v w : ℚ} (h : v ≤ w) : cents v ≤ cents w := toExp_mono (-2) h

theorem cents_of_small {v : ℚ} (h0 : 0 ≤ v) (h : v < 1 / 200) : cents v = 0 := by
  have hdiv : v / (10 : ℚ) ^ (-2 : ℤ) = 100 * v := by norm_num; ring
  have hround : halfEven (v / (10 : ℚ) ^ (-2 : ℤ)) = 0 := by
    refine halfEven_eq_of_abs_lt ?_
    rw [hdiv, Int.cast_zero, sub_zero, abs_of_nonneg (by linarith)]
    linarith
  rw [cents, toExp, hround, Int.cast_zero, zero_mul]

theorem abs_cents_add_sub_le {left : ℚ} (hleft : left = max (Arith.cpython.dec (L - S)) 0)
    (hL : |L| ≤ 10 ^ 13) (hS : |S| ≤ 10 ^ 13) :
    |cents S + cents left - max (cents L) (cents S)| ≤ 1 / 100 := by
  have herr := abs_decimal_sub_le binary64 reprFloat (L - S)
  change |Arith.cpython.dec (L - S) - (L - S)| ≤ _ at herr
  rcases le_or_gt S L with h | h
  · have hdec : 0 ≤ Arith.cpython.dec (L - S) := roundSig_nonneg (by decide) 28 (sub_nonneg.mpr h)
    have hsize : |L - S| ≤ 2 * 10 ^ 13 := by linarith [abs_sub L S]
    rw [max_eq_left hdec] at hleft
    rw [hleft, max_eq_left (cents_mono h)]
    have herr' := abs_le.mp (herr.trans (by linarith : 5 / 10 ^ 28 * |L - S| ≤ 1 / 10 ^ 13))
    have hcL := abs_le.mp (abs_cents_sub_le L)
    have hcS := abs_le.mp (abs_cents_sub_le S)
    have hcl := abs_le.mp (abs_cents_sub_le (Arith.cpython.dec (L - S)))
    obtain ⟨a, ha⟩ := cents_eq S
    obtain ⟨b, hb⟩ := cents_eq L
    obtain ⟨c, hc⟩ := cents_eq (Arith.cpython.dec (L - S))
    rw [ha] at hcS ⊢
    rw [hb] at hcL ⊢
    rw [hc] at hcl ⊢
    have hlow : -2 < a + c - b := by
      have h : ((-2 : ℤ) : ℚ) < ((a + c - b : ℤ) : ℚ) := by push_cast; linarith
      exact_mod_cast h
    have hhigh : a + c - b < 2 := by
      have h : ((a + c - b : ℤ) : ℚ) < ((2 : ℤ) : ℚ) := by push_cast; linarith
      exact_mod_cast h
    have hlow' : (-1 : ℚ) ≤ a + c - b := by exact_mod_cast (by omega : -1 ≤ a + c - b)
    have hhigh' : (a + c - b : ℚ) ≤ 1 := by exact_mod_cast (by omega : a + c - b ≤ 1)
    rw [abs_le]
    constructor <;> linarith
  · have hdec : Arith.cpython.dec (L - S) ≤ 0 :=
      le_of_lt ((roundSig_neg_iff (by decide) (by decide)).mpr (sub_neg.mpr h))
    rw [max_eq_right hdec] at hleft
    rw [hleft, max_eq_right (cents_mono h.le), cents_of_small (le_refl 0) (by norm_num),
      add_zero, sub_self, abs_zero]
    norm_num

theorem abs_quotient_sub_le (hL : 0 < L) (hS : |S| ≤ 2 * 10 ^ 12) {p : ℤ}
    (hp : p = halfEven (binary64 (utilizationOf .cpython S L * 100))) :
    |p * cents L - 100 * cents S| ≤ cents L / 2 + |(p : ℚ)| / 200 + 1 := by
  set x := binary64 (utilizationOf .cpython S L * 100) with hx
  have herr : |x * L - 100 * S| ≤ 1 / 5 := by
    refine (abs_percent_sub_le hL).trans ?_
    linarith
  have hhalf : |(p : ℚ) - x| ≤ 1 / 2 := hp ▸ abs_halfEven_sub_le x
  have hround : |((p : ℚ) - x) * L| ≤ L / 2 := by
    rw [abs_mul, abs_of_pos hL]
    nlinarith
  have hlimit : |p * (cents L - L)| ≤ |(p : ℚ)| / 200 := by
    rw [abs_mul]
    nlinarith [abs_cents_sub_le L, abs_nonneg (p : ℚ)]
  have hcL := abs_le.mp (abs_cents_sub_le L)
  have hcS := abs_le.mp (abs_cents_sub_le S)
  have hsum : p * cents L - 100 * cents S =
      p * (cents L - L) + (p - x) * L + (x * L - 100 * S) - 100 * (cents S - S) := by ring
  rw [abs_le] at herr hround hlimit ⊢
  rw [hsum]
  constructor <;> linarith

theorem cents_left_of_hundred (hL : 0 < L) (hhigh : L ≤ 2 * 10 ^ 12)
    (h : 100 ≤ binary64 (utilizationOf .cpython S L * 100)) :
    cents (max (Arith.cpython.dec (L - S)) 0) = 0 := by
  obtain ⟨hS, hLS⟩ := limit_le_of_hundred hL h
  refine cents_of_small (le_max_right _ _) (max_lt ?_ (by norm_num))
  rcases le_or_gt L S with hle | hgt
  · have hmono : Arith.cpython.dec (L - S) ≤ Arith.cpython.dec 0 :=
      roundSig_monotone (by decide) (by decide) (sub_nonpos.mpr hle)
    rw [ordered_cpython.dec_zero] at hmono
    linarith
  · have herr := (abs_le.mp (abs_decimal_sub_le binary64 reprFloat (L - S))).2
    change Arith.cpython.dec (L - S) - (L - S) ≤ _ at herr
    rw [abs_of_pos (sub_pos.mpr hgt)] at herr
    linarith

/-! ### The day it runs out on -/

theorem breachDate_of_zero {num : Arith} {asOf stop : Moment} {rate : ℚ} (hL : 0 < L)
    (hS : S < L) (hrate : 0 < rate) (hlt : asOf.utc < stop.utc)
    (hzero : daysToMicros num (daysLeft num S rate L) = 0) :
    breachDate num asOf stop S rate (some L) = .ok (some asOf) := by
  have hdelta : timedelta num (num.flt (num.dec (num.dec (L - S) / rate))) = .ok 0 := by
    have hrange : |(0 : ℤ) / (microsPerDay : ℤ)| ≤ 999999999 := by
      rw [Int.zero_ediv, abs_zero]
      norm_num
    unfold daysLeft at hzero
    rw [timedelta, hzero, if_pos hrange]
  unfold breachDate
  dsimp only
  rw [if_neg (not_le.mpr hL), if_neg (not_le.mpr hS), if_neg (not_le.mpr hrate), hdelta,
    Batch.bind_eq_ok]
  refine ⟨0, rfl, Batch.bind_eq_ok.mpr
    ⟨asOf, congrArg (orRaise .overflowError) (Moment.add?_zero asOf), ?_⟩⟩
  rw [if_pos hlt]
  rfl

theorem daysToMicros_of_small {days : ℚ} (h0 : 0 ≤ days) (h : days ≤ 1 / 10 ^ 12) :
    daysToMicros .cpython days = 0 := by
  have hdown : down days = 0 := by
    rw [down_of_nonneg h0, Int.floor_eq_zero_iff]
    exact ⟨h0, by linarith⟩
  have hmicros : ((microsPerDay : ℕ) : ℚ) = 86400000000 := rfl
  have herr := abs_le.mp (abs_binary64_sub_le (days * 86400000000))
  have hnonneg : 0 ≤ days * 86400000000 := by positivity
  rw [abs_of_nonneg hnonneg] at herr
  have hround : halfEven (binary64 (days * 86400000000)) = 0 := by
    refine halfEven_eq_of_abs_lt ?_
    rw [Int.cast_zero, abs_lt]
    constructor <;> linarith
  rw [daysToMicros, hdown, Int.cast_zero, sub_zero, hmicros, cpython_flt, hround, zero_mul,
    zero_add]

theorem le_runRate {asOf start : Moment} (hS : 1 / 1000 ≤ S)
    (hmonth : asOf.utc - start.utc ≤ 31 * microsPerDay) :
    S / 32 ≤ runRate .cpython S asOf start := by
  set elapsed := max (asOf.utc - start.utc) MIN_ELAPSED
  have hhour : (3600000000 : ℤ) ≤ elapsed := le_max_right _ _
  have hhourq : (3600000000 : ℚ) ≤ elapsed := by exact_mod_cast hhour
  have hmonth' : elapsed ≤ 31 * (microsPerDay : ℕ) := max_le hmonth (by decide)
  have hmonthq : (elapsed : ℚ) ≤ 31 * 86400000000 := by exact_mod_cast hmonth'
  obtain ⟨hlow, hhigh⟩ := str_inDays (m := elapsed) (by omega)
  set days := reprFloat (inDays .cpython elapsed)
  have hdays0 : 0 < days := by linarith
  have hdays : days ≤ 3131 / 100 := by linarith
  have hquot : S * (100 / 3131) ≤ S / days := by
    rw [le_div_iff₀ hdays0]
    nlinarith
  have hquot0 : 0 ≤ S / days := by linarith
  have hdec := abs_decimal_sub_le binary64 reprFloat (S / days)
  rw [abs_of_nonneg hquot0, abs_le] at hdec
  have hexp := abs_le.mp (abs_toExp_halfEven_sub_le (-8)
    ((Arith.decimal binary64 reprFloat).dec (S / days)))
  have hrate : runRate .cpython S asOf start =
      toExp halfEven (-8) ((Arith.decimal binary64 reprFloat).dec (S / days)) := rfl
  rw [hrate]
  norm_num at hexp hdec ⊢
  linarith

theorem daysLeft_le {rate : ℚ} (hS : S ≤ L) (hrate : 0 < rate) :
    daysLeft .cpython S rate L ≤ 8 * ((L - S) / rate) := by
  have hdec : ∀ v, 0 ≤ v → Arith.cpython.dec v ≤ 2 * v := by
    intro v hv
    have herr := (abs_le.mp (abs_decimal_sub_le binary64 reprFloat v)).2
    rw [abs_of_nonneg hv] at herr
    change Arith.cpython.dec v - v ≤ _ at herr
    linarith
  have hflt : ∀ v, 0 ≤ v → binary64 v ≤ 2 * v := by
    intro v hv
    have herr := (abs_le.mp (abs_binary64_sub_le v)).2
    rw [abs_of_nonneg hv] at herr
    linarith
  have hrest : 0 ≤ L - S := sub_nonneg.mpr hS
  have hquot : 0 ≤ Arith.cpython.dec (L - S) / rate :=
    div_nonneg (ordered_cpython.dec_nonneg hrest) hrate.le
  calc daysLeft .cpython S rate L
      ≤ 2 * Arith.cpython.dec (Arith.cpython.dec (L - S) / rate) :=
        hflt _ (ordered_cpython.dec_nonneg hquot)
    _ ≤ 2 * (2 * (Arith.cpython.dec (L - S) / rate)) := by gcongr; exact hdec _ hquot
    _ ≤ 2 * (2 * (2 * (L - S) / rate)) := by gcongr; exact hdec _ hrest
    _ = 8 * ((L - S) / rate) := by ring

/-- **A budget that is spent runs out now.** -/
theorem breachDate_of_hundred {asOf start stop : Moment} (hL : 1 / 200 ≤ L)
    (h : 100 ≤ binary64 (utilizationOf .cpython S L * 100)) (hlt : asOf.utc < stop.utc)
    (hmonth : asOf.utc - start.utc ≤ 31 * microsPerDay) :
    breachDate .cpython asOf stop S (runRate .cpython S asOf start) (some L) =
      .ok (some asOf) := by
  have hL0 : 0 < L := by linarith
  obtain ⟨hS0, hLS⟩ := limit_le_of_hundred hL0 h
  rcases le_or_gt L S with hle | hgt
  · unfold breachDate
    dsimp only
    rw [if_neg (not_le.mpr hL0), if_pos hle]
  · have hrate := @le_runRate S asOf start (by linarith) hmonth
    set rate := runRate .cpython S asOf start
    have hrate0 : 0 < rate := by linarith
    have hleft : (L - S) / rate ≤ 32 / 10 ^ 15 := by
      rw [div_le_iff₀ hrate0]
      linarith
    refine breachDate_of_zero hL0 hgt hrate0 hlt (daysToMicros_of_small
      (daysLeft_nonneg ordered_cpython hgt.le hrate0.le)
      ((daysLeft_le hgt.le hrate0).trans ?_))
    linarith

end Figures

/-! ### The notice of an alert -/

structure Grounded (alert : BudgetAlert) (now start stop : Moment) : Prop where
  utilization : alert.utilization = utilizationOf .cpython alert.spendToDate alert.budgetLimit
  reached : (alert.threshold : ℚ) ≤ binary64 (alert.utilization * 100)
  before : now.utc < stop.utc
  month : now.utc - start.utc ≤ 31 * microsPerDay
  breach : breachDate .cpython now stop alert.spendToDate
    (runRate .cpython alert.spendToDate now start) (some alert.budgetLimit) = .ok alert.breachDate

section Grounded

variable {alert : BudgetAlert} {now start stop : Moment}

theorem level_eq_none_iff : (notice .cpython alert).level = none ↔ 100 ≤ alert.threshold := by
  unfold notice BudgetAlert.isExhausted
  dsimp only
  split
  · rename_i h
    exact iff_of_true rfl (of_decide_eq_true h)
  · rename_i h
    exact iff_of_false (by simp) fun hle => h (decide_eq_true hle)

theorem mem_level {t : ℤ} (h : t ∈ (notice .cpython alert).level) : t = alert.threshold := by
  unfold notice at h
  dsimp only at h
  split at h
  · cases h
  · exact (Option.some.inj h).symm

theorem Grounded.hundred (h : Grounded alert now start stop)
    (hlevel : (notice .cpython alert).level = none) :
    0 < alert.budgetLimit ∧ 100 ≤ binary64 (alert.utilization * 100) := by
  have hthreshold : (100 : ℚ) ≤ alert.threshold := by exact_mod_cast level_eq_none_iff.mp hlevel
  have hhundred := hthreshold.trans h.reached
  refine ⟨?_, hhundred⟩
  by_contra hneg
  rw [h.utilization, utilizationOf, if_neg hneg, zero_mul, binary64_zero] at hhundred
  linarith

theorem Ordinary.bounds (h : (notice .cpython alert).Ordinary) :
    1 / 200 ≤ alert.budgetLimit ∧ alert.budgetLimit ≤ 2 * 10 ^ 12 ∧
      |alert.spendToDate| ≤ 2 * 10 ^ 12 := by
  obtain ⟨hlow, hhigh, hspent⟩ := h
  change 1 / 100 ≤ cents alert.budgetLimit at hlow
  change cents alert.budgetLimit ≤ 10 ^ 12 at hhigh
  change |cents alert.spendToDate| ≤ 10 ^ 12 at hspent
  have hL := abs_le.mp (abs_cents_sub_le alert.budgetLimit)
  have hS := abs_le.mp (abs_cents_sub_le alert.spendToDate)
  rw [abs_le] at hspent
  refine ⟨by linarith, by linarith, abs_le.mpr ⟨by linarith, by linarith⟩⟩

theorem Grounded.runsOut (h : Grounded alert now start stop)
    (hord : (notice .cpython alert).Ordinary) (hlevel : (notice .cpython alert).level = none) :
    (notice .cpython alert).runsOut = some (dayOf now) := by
  have hhundred := (h.hundred hlevel).2
  rw [h.utilization] at hhundred
  have hbreach := breachDate_of_hundred (Ordinary.bounds hord).1 hhundred h.before h.month
  have hnow : alert.breachDate = some now := Except.ok.inj (h.breach.symm.trans hbreach)
  rw [notice, hnow]
  rfl

/-- **The figures of a notice fit together.** -/
theorem Grounded.coherent (h : Grounded alert now start stop) :
    (notice .cpython alert).Coherent where
  reached t ht := by
    have hround := halfEven_mono h.reached
    rw [halfEven_intCast] at hround
    rw [mem_level ht]
    exact hround
  full hlevel := by
    obtain ⟨_, hhundred⟩ := h.hundred hlevel
    have hround := halfEven_mono hhundred
    rw [show (100 : ℚ) = ((100 : ℤ) : ℚ) by norm_num, halfEven_intCast] at hround
    exact ⟨hround, filled_of_hundred hhundred⟩
  bar := abs_bar_sub_le alert.utilization
  adds hord := by
    obtain ⟨hlow, hhigh, hspent⟩ := Ordinary.bounds hord
    exact abs_cents_add_sub_le rfl (by rw [abs_of_nonneg] <;> linarith) (by linarith)
  quotient hord := by
    obtain ⟨hlow, _, hspent⟩ := Ordinary.bounds hord
    exact abs_quotient_sub_le (by linarith) hspent (h.utilization ▸ rfl)
  nothingLeft hord hlevel := by
    obtain ⟨hlow, hhigh, _⟩ := Ordinary.bounds hord
    obtain ⟨hL, hhundred⟩ := h.hundred hlevel
    refine ⟨cents_left_of_hundred hL hhigh (h.utilization ▸ hhundred), ?_⟩
    rw [h.runsOut hord hlevel]
    exact Option.some_ne_none _

end Grounded

/-! ### What is posted in a run -/

variable {σ : Type*}

def posted (ev : Evaluator σ) : List (Payload × Except PyError Bool) :=
  ev.sent.map fun s => (buildPayload .cpython s.1, s.2)

/-- The notice is about the budget, the month and the spend of an evaluation. -/
structure Notice.Reports (n : Notice) (e : Evaluation) : Prop where
  team : n.team = e.budget.team
  period : n.period = e.key
  limit : n.limit = cents e.budget.limitUsd
  spent : ∃ a, assess .cpython e.rows e.budget e.now = .ok a ∧ n.spent = cents a.spend
  today : n.Ordinary → n.level = none → n.runsOut = some (dayOf e.now)

theorem isWord_periodKey (moment : Moment) (period : String) :
    IsWord (periodKey moment period) := by
  have hdash : IsWord "-" ∧ IsWord "-W" := by decide
  unfold periodKey
  dsimp only
  split
  · simp only [isWord_append, isWord_zeroPad, hdash.1, and_self]
  · split
    · simp only [isWord_append, isWord_zeroPad, hdash.2, and_true]
      exact isWord_repr _
    · simp only [isWord_append, isWord_zeroPad, hdash.1, and_self]

variable {store : AlertStateStore σ} {ev : Evaluator σ} {e : Evaluation} {alert : BudgetAlert}

theorem grounded_of_sends (h : e.Sends .cpython store ev alert) :
    ∃ start stop, Grounded alert e.now start stop := by
  obtain ⟨a, ha, ht, _, hb⟩ := h
  obtain ⟨hbounds, _, _, hutil⟩ := assess_eq_ok ha
  obtain ⟨f, drivers, hf, he⟩ := forecast_of_buildAlert hb
  obtain ⟨_, _, hbreach, _⟩ := buildForecast_eq_ok hf
  obtain ⟨hle, hlt⟩ := monthBounds_contains hbounds
  obtain ⟨days, ⟨_, hdays⟩, hlength⟩ := monthBounds_days hbounds
  obtain ⟨thresholds, _, hcrossed⟩ := threshold_of_assess ha
  rw [hcrossed] at ht
  have hmem := (isMax_crossedThreshold _ _ thresholds).2 _ ht
  have hreached := of_decide_eq_true (List.mem_filter.mp hmem).2
  have hmonth : e.now.utc - a.start.utc ≤ 31 * microsPerDay := by
    have hdaysz : (days : ℤ) * microsPerDay ≤ 31 * microsPerDay := by
      exact_mod_cast Nat.mul_le_mul_right _ hdays
    linarith
  rw [he]
  exact ⟨a.start, a.stop, hutil, hutil ▸ hreached, hlt, hmonth, hbreach⟩

theorem reports_of_sends (h : e.Sends .cpython store ev alert) :
    (notice .cpython alert).Reports e := by
  obtain ⟨start, stop, hgrounded⟩ := grounded_of_sends h
  obtain ⟨a, ha, _, _, hb⟩ := h
  obtain ⟨f, drivers, _, he⟩ := forecast_of_buildAlert hb
  have hspent : alert.spendToDate = a.spend := by rw [he]
  have hlimit : alert.budgetLimit = e.budget.limitUsd := by rw [he]
  have hteam : alert.team = e.budget.team := by rw [he]
  exact ⟨hteam, (buildAlert_eq_ok hb).2.1, congrArg cents hlimit, ⟨a, ha, congrArg cents hspent⟩,
    hgrounded.runsOut⟩

theorem exists_of_mem_sent {num : Arith} {es : List Evaluation} :
    ∀ s ∈ (after (evaluate num store) (.fresh store) es).sent,
      ∃ e ∈ es, ∃ ev, e.Sends num store ev s.1 := by
  refine invariant_of_mem (G := fun e => e ∈ es) (I := fun ev : Evaluator σ => ∀ s ∈ ev.sent,
    ∃ e ∈ es, ∃ ev, e.Sends num store ev s.1) (fun ev e hI he => ?_)
    (fun s hs => absurd hs List.not_mem_nil) fun e he => he
  intro s hs
  by_cases hq : ∃ alert, e.Sends num store ev alert
  · obtain ⟨alert, ha⟩ := hq
    rw [sent_evaluate ha, List.mem_append, List.mem_singleton] at hs
    rcases hs with hs | rfl
    · exact hI s hs
    · exact ⟨e, he, ev, ha⟩
  · rw [evaluate_of_quiet (not_exists.mp hq)] at hs
    exact hI s hs

/-- **Every message of a run can be read**: its figures fit together, and are those of an
evaluation of the run. -/
theorem notices_coherent (store : AlertStateStore σ) (es : List Evaluation) :
    ∀ p ∈ posted (after (evaluate .cpython store) (.fresh store) es),
      ∃ n e, readPayload? p.1 = some n ∧ n.Coherent ∧ e ∈ es ∧ n.Reports e := by
  intro p hp
  obtain ⟨s, hs, rfl⟩ := List.mem_map.mp hp
  obtain ⟨e, he, ev, hsends⟩ := exists_of_mem_sent s hs
  obtain ⟨start, stop, hgrounded⟩ := grounded_of_sends hsends
  have hkey : IsWord s.1.periodKey := hsends.fields.2 ▸ isWord_periodKey _ _
  exact ⟨notice .cpython s.1, e, readPayload?_buildPayload s.1 hkey, hgrounded.coherent, he,
    reports_of_sends hsends⟩

/-- **One evaluation** sends an alert above all that were answered for its budget and
period. -/
theorem pairwise_sent (store : AlertStateStore σ) (num : Arith) (es : List Evaluation) :
    (after (evaluate num store) (.fresh store) es).sent.Pairwise fun s s' =>
      ∀ b, s.2 = .ok b → s.1.budgetId = s'.1.budgetId → s.1.periodKey = s'.1.periodKey →
        s.1.threshold < s'.1.threshold := by
  refine (invariant (I := fun ev : Evaluator σ => Recorded store ev ∧ ev.sent.Pairwise fun s s' =>
    ∀ b, s.2 = .ok b → s.1.budgetId = s'.1.budgetId → s.1.periodKey = s'.1.periodKey →
      s.1.threshold < s'.1.threshold) (fun ev e hI => ⟨hI.1.evaluate, ?_⟩)
    ⟨(marksDelivered_fresh store).2, List.Pairwise.nil⟩).2
  by_cases hq : ∃ alert, e.Sends num store ev alert
  · obtain ⟨alert, ha⟩ := hq
    rw [sent_evaluate ha, List.pairwise_append]
    refine ⟨hI.2, List.pairwise_singleton _ _, fun s hs s' hs' b hb hid hkey => ?_⟩
    obtain rfl := List.mem_singleton.mp hs'
    obtain ⟨m, hm, hle⟩ := hI.1 s.1 b (hb ▸ hs)
    rw [hid, hkey] at hm
    exact hle.trans_lt (ha.above m hm)
  · rw [evaluate_of_quiet (not_exists.mp hq)]
    exact hI.2

/-- The later notice says a percentage only where the earlier one says a lower one. -/
def Notice.Escalates (n n' : Notice) : Prop := ∀ t' ∈ n'.level, ∃ t ∈ n.level, t < t'

theorem escalates_of_lt {alert alert' : BudgetAlert} (h : alert.threshold < alert'.threshold) :
    (notice .cpython alert).Escalates (notice .cpython alert') := by
  intro t ht
  have hnone : (notice .cpython alert').level ≠ none := fun he => by
    rw [he] at ht
    cases ht
  have hnot : ¬ 100 ≤ alert'.threshold := fun hle => hnone (level_eq_none_iff.mpr hle)
  have hsome : (notice .cpython alert).level = some alert.threshold :=
    if_neg fun he => hnot ((of_decide_eq_true he).trans h.le)
  exact ⟨alert.threshold, hsome, (mem_level ht).symm ▸ h⟩

/-- **What a channel shows of a budget escalates.** -/
theorem notices_escalate (store : AlertStateStore σ) (es : List Evaluation)
    (hids : ∀ e ∈ es, ∀ e' ∈ es, e.budget.team = e'.budget.team → e.key = e'.key →
      e.budget.id = e'.budget.id) :
    (posted (after (evaluate .cpython store) (.fresh store) es)).Pairwise fun p p' =>
      ∀ n n', readPayload? p.1 = some n → readPayload? p'.1 = some n' → n.team = n'.team →
        n.period = n'.period → ∀ b, p.2 = .ok b → n.Escalates n' := by
  rw [posted, List.pairwise_map]
  refine (pairwise_sent store .cpython es).imp_of_mem fun {s s'} hs hs' hlt => ?_
  intro n n' hn hn' hteam hperiod b hb
  obtain ⟨e, he, ev, hsends⟩ := exists_of_mem_sent s hs
  obtain ⟨e', he', ev', hsends'⟩ := exists_of_mem_sent s' hs'
  obtain ⟨hid, hkey⟩ := hsends.fields
  obtain ⟨hid', hkey'⟩ := hsends'.fields
  rw [readPayload?_buildPayload s.1 (hkey ▸ isWord_periodKey _ _)] at hn
  rw [readPayload?_buildPayload s'.1 (hkey' ▸ isWord_periodKey _ _)] at hn'
  obtain rfl := Option.some.inj hn
  obtain rfl := Option.some.inj hn'
  have hteams : e.budget.team = e'.budget.team :=
    (reports_of_sends hsends).team.symm.trans (hteam.trans (reports_of_sends hsends').team)
  have hkeys : e.key = e'.key := hkey.symm.trans (Eq.trans hperiod hkey')
  have hids' : s.1.budgetId = s'.1.budgetId :=
    hid.trans ((hids e he e' he' hteams hkeys).trans hid'.symm)
  exact escalates_of_lt (hlt b hb hids' hperiod)

/-! ### A budget that is warned about and then overspent -/

def warned : Evaluation where
  rows := [spent 0 85]
  budget := research 100 [80, 100]
  now := august16
  send := SlackNotifier.posting .cpython fun _ => .accepted

def overspent : Evaluation := { warned with rows := [spent 0 85, spent 1 40] }

theorem texts_posted : (posted (after (evaluate .cpython InMemoryAlertState)
    (.fresh InMemoryAlertState) [warned, overspent])).map (fun p => p.1.text) =
      ["research budget 85% ($85.00 of $100.00)", "research budget 125% ($125.00 of $100.00)"] := by
  decide +kernel

theorem notices_coherent_overspent : ∃ p ∈ posted (after (evaluate .cpython InMemoryAlertState)
    (.fresh InMemoryAlertState) [warned, overspent]),
      p.1.text = "research budget 125% ($125.00 of $100.00)" ∧
      ∃ n e, readPayload? p.1 = some n ∧ n.Coherent ∧ e ∈ [warned, overspent] ∧ n.Reports e := by
  have hmem : "research budget 125% ($125.00 of $100.00)" ∈
      (posted (after (evaluate .cpython InMemoryAlertState) (.fresh InMemoryAlertState)
        [warned, overspent])).map fun p => p.1.text := by
    rw [texts_posted]
    exact List.mem_cons_of_mem _ (List.mem_singleton_self _)
  obtain ⟨p, hp, htext⟩ := List.mem_map.mp hmem
  exact ⟨p, hp, htext, notices_coherent InMemoryAlertState [warned, overspent] p hp⟩

theorem notices_escalate_overspent : (posted (after (evaluate .cpython InMemoryAlertState)
    (.fresh InMemoryAlertState) [warned, overspent])).Pairwise fun p p' =>
      ∀ n n', readPayload? p.1 = some n → readPayload? p'.1 = some n' → n.team = n'.team →
        n.period = n'.period → ∀ b, p.2 = .ok b → n.Escalates n' := by
  have hid : ∀ e ∈ [warned, overspent], e.budget.id = 1 := by
    simp [warned, overspent, research]
  exact notices_escalate InMemoryAlertState [warned, overspent]
    fun e he e' he' _ _ => (hid e he).trans (hid e' he').symm

end Slack

end Finops
