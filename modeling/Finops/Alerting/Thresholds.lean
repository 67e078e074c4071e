import Finops.Base.Floats
import Finops.Alerting.Evaluator
import Mathlib.Data.Nat.Log

/-!
# Budgets exactly on a threshold

The comparison of a threshold is meant to be inclusive.  It is made on floats: the quotient
of spend and limit is rounded to one, and once more when it is multiplied by 100.  Where
spend is `p` percent of the limit, what is compared with the thresholds is `floatPercent p`.

Below `2 ^ 52` percent this is less than 1 off (`abs_floatPercent_sub_lt`), so it matters for
the threshold `p` alone, and only where it is too small.  Shifting the leading binary digit to
`2 ^ 56` gives an integer, `aligned p`, and the remainder of that by 25 says what the two
roundings do: 29 percent comes out low, 80 and 100 do not (`floatPercent_lt_iff`).
`reachesExactly_iff` is what follows for the highest threshold reached.
-/

namespace Finops

open Numerics Calendar HighWater

/-- The threshold found is the highest of those reached in exact arithmetic. -/
def ReachesExactly (spend limit : ℚ) (thresholds : List ℤ) : Prop :=
  IsMax (crossedThreshold .cpython (utilizationOf .cpython spend limit) thresholds)
    (thresholds.filter fun threshold : ℤ => (threshold : ℚ) * limit ≤ 100 * spend)

/-- What is compared with the thresholds at `p` percent. -/
def floatPercent (p : ℕ) : ℚ := binary64 (binary64 (roundSig 10 28 (p / 100)) * 100)

/-- `p` with its leading binary digit at `2 ^ 56`. -/
def aligned (p : ℕ) : ℕ := p * 2 ^ (56 - Nat.log 2 p)

/-- The first rounding is down by nine to twelve 25ths, where the second keeps it down. -/
def ComesOutLow (p : ℕ) : Prop :=
  25 * 2 ^ 52 ≤ aligned p ∧ 9 ≤ aligned p % 25 ∧ aligned p % 25 ≤ 12

/-- A threshold stays on the side of `p` percent that it is on.  From `2 ^ 52` on the floats
are whole percents or more apart. -/
def KeepsSide (p : ℕ) (threshold : ℤ) : Prop :=
  if threshold < 2 ^ 52 then ComesOutLow p → threshold ≠ p
  else ((threshold : ℚ) ≤ floatPercent p ↔ threshold ≤ p)

instance (p : ℕ) : Decidable (ComesOutLow p) := by
  unfold ComesOutLow
  infer_instance

instance (p : ℕ) (threshold : ℤ) : Decidable (KeepsSide p threshold) := by
  unfold KeepsSide
  infer_instance

/-! ### The two roundings

Of `n` percent, where `n` has its leading binary digit at `2 ^ 56`. -/

section Aligned

variable {n : ℕ}

theorem halfEven_div (k : ℕ) : halfEven ((k : ℚ) / 25) =
    if k % 25 ≤ 12 then ((k / 25 : ℕ) : ℤ) else ((k / 25 + 1 : ℕ) : ℤ) := by
  have hsplit : (k : ℚ) = 25 * (k / 25 : ℕ) + (k % 25 : ℕ) := by
    exact_mod_cast (Nat.div_add_mod k 25).symm
  split
  · rename_i h
    have hr : ((k % 25 : ℕ) : ℚ) ≤ 12 := by exact_mod_cast h
    have hr0 : (0 : ℚ) ≤ ((k % 25 : ℕ) : ℚ) := Nat.cast_nonneg _
    refine halfEven_eq_of_abs_lt ?_
    rw [Int.cast_natCast, abs_lt]
    constructor <;> linarith
  · rename_i h
    have hr : (13 : ℚ) ≤ ((k % 25 : ℕ) : ℚ) := by exact_mod_cast not_le.mp h
    have hr24 : ((k % 25 : ℕ) : ℚ) ≤ 24 := by
      exact_mod_cast Nat.lt_succ_iff.mp (Nat.mod_lt k (by decide))
    refine halfEven_eq_of_abs_lt ?_
    rw [Int.cast_natCast, Nat.cast_add, Nat.cast_one, abs_lt]
    constructor <;> linarith

theorem binary64_div (hlow : 2 ^ 56 ≤ n) (hhigh : n < 2 ^ 57) :
    binary64 ((n : ℚ) / 100) =
      if 25 * 2 ^ 52 ≤ n then (halfEven ((n : ℚ) / 25) : ℚ) / 4
      else (halfEven (((2 * n : ℕ) : ℚ) / 25) : ℚ) / 8 := by
  have hl : ((2 : ℚ)) ^ 56 ≤ n := by exact_mod_cast hlow
  have hh : (n : ℚ) < 2 ^ 57 := by exact_mod_cast hhigh
  split
  · rename_i h
    have hn : 25 * (2 : ℚ) ^ 52 ≤ n := by exact_mod_cast h
    have hround := binary64_eq_of_bounds (v := (n : ℚ) / 100) (e := 50)
      (by norm_num; linarith) (by norm_num; linarith)
    have hquot : (n : ℚ) / 100 / 2 ^ (50 - 52 : ℤ) = n / 25 := by
      norm_num
      ring
    rw [hround, hquot]
    norm_num
    ring
  · rename_i h
    have hn : (n : ℚ) < 25 * (2 : ℚ) ^ 52 := by exact_mod_cast not_le.mp h
    have hround := binary64_eq_of_bounds (v := (n : ℚ) / 100) (e := 49)
      (by norm_num; linarith) (by norm_num; linarith)
    have hquot : (n : ℚ) / 100 / 2 ^ (49 - 52 : ℤ) = ((2 * n : ℕ) : ℚ) / 25 := by
      push_cast
      norm_num
      ring
    rw [hround, hquot]
    norm_num
    ring

theorem binary64_div_mul_of_le (hhigh : n < 2 ^ 57) (h : 25 * 2 ^ 52 ≤ n) (hr : n % 25 ≤ 12) :
    binary64 ((n : ℚ) / 100) * 100 = n - (n % 25 : ℕ) := by
  have hsplit : (n : ℚ) = 25 * (n / 25 : ℕ) + (n % 25 : ℕ) := by
    exact_mod_cast (Nat.div_add_mod n 25).symm
  rw [binary64_div (by omega) hhigh, if_pos h, halfEven_div, if_pos hr, Int.cast_natCast]
  linarith

theorem binary64_div_mul_of_not (hlow : 2 ^ 56 ≤ n) (hhigh : n < 2 ^ 57)
    (hnot : ¬ (25 * 2 ^ 52 ≤ n ∧ n % 25 ≤ 12)) :
    (n : ℚ) ≤ binary64 ((n : ℚ) / 100) * 100 ∨
      2 ^ 56 < n ∧ (n : ℚ) - 8 ≤ binary64 ((n : ℚ) / 100) * 100 := by
  have hlt : ∀ k : ℕ, ((k % 25 : ℕ) : ℚ) ≤ 25 := fun k => by
    exact_mod_cast (Nat.mod_lt k (by decide)).le
  have hsplit : ∀ k : ℕ, (k : ℚ) = 25 * (k / 25 : ℕ) + (k % 25 : ℕ) := fun k => by
    exact_mod_cast (Nat.div_add_mod k 25).symm
  rw [binary64_div hlow hhigh]
  by_cases h : 25 * 2 ^ 52 ≤ n
  · have hr : ¬ n % 25 ≤ 12 := fun hr => hnot ⟨h, hr⟩
    rw [if_pos h, halfEven_div, if_neg hr, Int.cast_natCast, Nat.cast_add, Nat.cast_one]
    exact .inl (by linarith [hlt n, hsplit n])
  · have htwice : 2 * (n : ℚ) = 25 * (2 * n / 25 : ℕ) + (2 * n % 25 : ℕ) := by
      exact_mod_cast hsplit (2 * n)
    rw [if_neg h, halfEven_div]
    by_cases hr : 2 * n % 25 ≤ 12
    · have hle : ((2 * n % 25 : ℕ) : ℚ) ≤ 12 := by exact_mod_cast hr
      rw [if_pos hr, Int.cast_natCast]
      exact .inr ⟨by omega, by linarith⟩
    · rw [if_neg hr, Int.cast_natCast, Nat.cast_add, Nat.cast_one]
      exact .inl (by linarith [hlt (2 * n)])

theorem binary64_of_top {x : ℚ} (hx : 2 ^ 56 ≤ x) (hx' : x < 2 ^ 57) :
    binary64 x = halfEven (x / 16) * 16 := by
  have h := binary64_eq_of_bounds (v := x) (e := 56) (by exact_mod_cast hx)
    (by exact_mod_cast hx')
  norm_num at h
  exact h

theorem binary64_of_dvd (hhigh : n < 2 ^ 57) (h32 : 32 ∣ n) : binary64 (n : ℚ) = n := by
  obtain ⟨k, hk⟩ := h32
  have hcast : (n : ℚ) = 32 * k := by exact_mod_cast hk
  have hh : (n : ℚ) < 2 ^ 57 := by exact_mod_cast hhigh
  refine binary64_of_multiple (e := 5) (k := k) ?_ ?_
  · rw [hcast]
    norm_num
    ring
  · rw [Nat.abs_cast]
    norm_num
    linarith

theorem binary64_sub_eight (hlow : 2 ^ 56 < n) (hhigh : n < 2 ^ 57) (h32 : 32 ∣ n) :
    binary64 ((n : ℚ) - 8) = n := by
  obtain ⟨k, hk⟩ := h32
  have hcast : (n : ℚ) = 32 * k := by exact_mod_cast hk
  have hh : (n : ℚ) < 2 ^ 57 := by exact_mod_cast hhigh
  have hge : (2 : ℚ) ^ 56 + 32 ≤ n := by
    have hge : 2 ^ 56 + 32 ≤ n := by omega
    exact_mod_cast hge
  have hquot : ((n : ℚ) - 8) / 16 = ((2 * k : ℤ) : ℚ) - 1 / 2 := by
    rw [hcast]
    push_cast
    ring
  rw [binary64_of_top (by linarith) (by linarith), hquot, halfEven_sub_half (by omega), hcast]
  push_cast
  ring

theorem binary64_sub_nine_lt (h : 25 * 2 ^ 52 ≤ n) (hhigh : n < 2 ^ 57) (h32 : 32 ∣ n) :
    binary64 ((n : ℚ) - 9) < n := by
  obtain ⟨k, hk⟩ := h32
  have hcast : (n : ℚ) = 32 * k := by exact_mod_cast hk
  have hh : (n : ℚ) < 2 ^ 57 := by exact_mod_cast hhigh
  have hn : 25 * (2 : ℚ) ^ 52 ≤ n := by exact_mod_cast h
  have hhalf : halfEven (((n : ℚ) - 9) / 16) = 2 * k - 1 := by
    refine halfEven_eq_of_abs_lt ?_
    rw [hcast, abs_lt]
    push_cast
    constructor <;> linarith
  rw [binary64_of_top (by linarith) (by linarith), hhalf, hcast]
  push_cast
  linarith

/-- **Both roundings**, of a multiple of 32. -/
theorem le_binary64_iff (hlow : 2 ^ 56 ≤ n) (hhigh : n < 2 ^ 57) (h32 : 32 ∣ n) :
    (n : ℚ) ≤ binary64 (binary64 ((n : ℚ) / 100) * 100) ↔
      ¬ (25 * 2 ^ 52 ≤ n ∧ 9 ≤ n % 25 ∧ n % 25 ≤ 12) := by
  have hn : (2 : ℚ) ^ 56 ≤ n := by exact_mod_cast hlow
  have hup : 2 ^ 56 < n → ∀ x : ℚ, (n : ℚ) - 8 ≤ x → (n : ℚ) ≤ binary64 x := fun hlt x hx =>
    (binary64_sub_eight hlt hhigh h32).symm.trans_le (binary64_mono (by linarith) hx)
  by_cases h : 25 * 2 ^ 52 ≤ n ∧ n % 25 ≤ 12
  · rw [binary64_div_mul_of_le hhigh h.1 h.2]
    by_cases hr : 9 ≤ n % 25
    · refine iff_of_false (not_le.mpr ?_) fun hnot => hnot ⟨h.1, hr, h.2⟩
      have hr9 : (9 : ℚ) ≤ (n % 25 : ℕ) := by exact_mod_cast hr
      have hr12 : ((n % 25 : ℕ) : ℚ) ≤ 12 := by exact_mod_cast h.2
      have hle := binary64_mono (v := (n : ℚ) - (n % 25 : ℕ)) (w := n - 9) (by linarith)
        (by linarith)
      exact hle.trans_lt (binary64_sub_nine_lt h.1 hhigh h32)
    · refine iff_of_true (hup (by omega) _ ?_) fun hlow' => hr hlow'.2.1
      have hr8 : ((n % 25 : ℕ) : ℚ) ≤ 8 := by exact_mod_cast Nat.lt_succ_iff.mp (not_le.mp hr)
      linarith
  · refine iff_of_true ?_ fun hlow' => h ⟨hlow'.1, hlow'.2.2⟩
    rcases binary64_div_mul_of_not hlow hhigh h with hx | ⟨hlt, hx⟩
    · exact (binary64_of_dvd hhigh h32).symm.trans_le (binary64_mono (by linarith) hx)
    · exact hup hlt _ hx

end Aligned

/-! ### Percentages below `2 ^ 52` -/

section Percent

variable {p : ℕ}

theorem floatPercent_of_lt (hp : p < 2 ^ 52) :
    floatPercent p = binary64 (binary64 ((p : ℚ) / 100) * 100) := by
  have hlt : (p : ℚ) < 2 ^ 52 := by exact_mod_cast hp
  have hexact : roundSig 10 28 ((p : ℚ) / 100) = p / 100 := by
    refine roundSig_of_multiple (b := 10) (n := 28) (e := -2) (k := p) (by decide) ?_ ?_
    · norm_num
      ring
    · rw [abs_of_nonneg (by positivity)]
      norm_num
      linarith
  rw [floatPercent, hexact]

theorem abs_floatPercent_sub_lt (hp : p < 2 ^ 52) : |floatPercent p - p| < 1 := by
  have hle : (p : ℚ) ≤ 2 ^ 52 - 1 := by
    have h : p + 1 ≤ 2 ^ 52 := hp
    have hcast : (p : ℚ) + 1 ≤ 2 ^ 52 := by exact_mod_cast h
    linarith
  have hp0 : (0 : ℚ) ≤ p := Nat.cast_nonneg p
  have hquot : (0 : ℚ) ≤ p / 100 := by positivity
  have h1 := abs_binary64_sub_le ((p : ℚ) / 100)
  have h2 := abs_binary64_sub_le (binary64 ((p : ℚ) / 100) * 100)
  have hnn : 0 ≤ binary64 ((p : ℚ) / 100) * 100 := mul_nonneg (binary64_nonneg hquot) (by norm_num)
  rw [abs_of_nonneg hquot, abs_le] at h1
  rw [abs_of_nonneg hnn, abs_le] at h2
  rw [floatPercent_of_lt hp, abs_lt]
  constructor <;> linarith

theorem aligned_bounds (h0 : 0 < p) (hp : p < 2 ^ 52) :
    2 ^ 56 ≤ aligned p ∧ aligned p < 2 ^ 57 ∧ 32 ∣ aligned p := by
  have hlog : Nat.log 2 p < 52 := (Nat.log_lt_iff_lt_pow (by decide) h0.ne').mpr hp
  have hlow := Nat.pow_log_le_self 2 h0.ne'
  have hhigh := Nat.lt_pow_succ_log_self (b := 2) (by decide) p
  have hpos : 0 < 2 ^ (56 - Nat.log 2 p) := by positivity
  refine ⟨?_, ?_, ?_⟩
  · calc 2 ^ 56 = 2 ^ Nat.log 2 p * 2 ^ (56 - Nat.log 2 p) := by
          rw [← pow_add]
          congr 1
          omega
      _ ≤ aligned p := Nat.mul_le_mul_right _ hlow
  · calc aligned p < 2 ^ (Nat.log 2 p + 1) * 2 ^ (56 - Nat.log 2 p) :=
          Nat.mul_lt_mul_of_pos_right hhigh hpos
      _ = 2 ^ 57 := by
          rw [← pow_add]
          congr 1
          omega
  · have hpow : 32 ∣ 2 ^ (56 - Nat.log 2 p) := pow_dvd_pow 2 (by omega : 5 ≤ 56 - Nat.log 2 p)
    exact hpow.mul_left p

/-- **Which percentages come out too small.** -/
theorem floatPercent_lt_iff (hp : p < 2 ^ 52) : floatPercent p < p ↔ ComesOutLow p := by
  rcases Nat.eq_zero_or_pos p with rfl | h0
  · have hzero : floatPercent 0 = 0 := by
      rw [floatPercent_of_lt hp, Nat.cast_zero, zero_div]
      have h : binary64 0 = 0 := roundSig_zero 2 53
      rw [h, zero_mul, h]
    rw [hzero]
    exact iff_of_false (by simp) (by decide)
  · obtain ⟨hlow, hhigh, h32⟩ := aligned_bounds h0 hp
    have hn0 : (0 : ℚ) < aligned p := by
      have hpos : 0 < aligned p := (by decide : 0 < 2 ^ 56).trans_le hlow
      exact_mod_cast hpos
    let c : ℚ := (2 : ℚ) ^ (-((56 - Nat.log 2 p : ℕ) : ℤ))
    have hc : 0 < c := zpow_pos (by norm_num) _
    have hscale : (p : ℚ) = aligned p * c := by
      show (p : ℚ) = _ * (2 : ℚ) ^ (-((56 - Nat.log 2 p : ℕ) : ℤ))
      rw [aligned, Nat.cast_mul, Nat.cast_pow, Nat.cast_ofNat, mul_assoc, zpow_neg, zpow_natCast,
        mul_inv_cancel₀ (by positivity), mul_one]
    have hquot : (p : ℚ) / 100 = aligned p / 100 * c := by
      rw [hscale]
      ring
    have hv : 0 < binary64 ((aligned p : ℚ) / 100) :=
      (roundSig_pos_iff (by decide) (by decide)).mpr (by positivity)
    have hfloat : floatPercent p =
        binary64 (binary64 ((aligned p : ℚ) / 100) * 100) * c := by
      rw [floatPercent_of_lt hp, hquot, binary64_mul_zpow (by positivity), mul_right_comm,
        binary64_mul_zpow (by positivity)]
    rw [← not_le, hfloat]
    conv_lhs => rw [hscale]
    rw [mul_le_mul_iff_left₀ hc, le_binary64_iff hlow hhigh h32, not_not]
    rfl

/-- The percentages from 0 to 119 that do. -/
example : ((List.range 120).filter fun p => ComesOutLow p) = [29, 57, 58, 113, 114, 115, 116] := by
  decide +kernel

theorem le_floatPercent_iff_of_lt (hp : p < 2 ^ 52) (threshold : ℤ) :
    ((threshold : ℚ) ≤ floatPercent p ↔ threshold ≤ p) ↔
      (ComesOutLow p → threshold ≠ p) := by
  have herr := abs_lt.mp (abs_floatPercent_sub_lt hp)
  rcases lt_trichotomy threshold p with hlt | rfl | hgt
  · have hle : (threshold : ℚ) ≤ p - 1 := by
      have h : threshold ≤ (p : ℤ) - 1 := by omega
      exact_mod_cast h
    exact iff_of_true (iff_of_true (by linarith) hlt.le) fun _ => hlt.ne
  · rw [Int.cast_natCast, iff_true_right (le_refl _), ← not_lt, floatPercent_lt_iff hp]
    exact ⟨fun h hlow => absurd hlow h, fun h hlow => h hlow rfl⟩
  · have hge : (p : ℚ) + 1 ≤ threshold := by
      have h : (p : ℤ) + 1 ≤ threshold := hgt
      exact_mod_cast h
    exact iff_of_true (iff_of_false (by linarith) (not_le.mpr hgt)) fun _ => hgt.ne'

end Percent

/-! ### All percentages -/

theorem floatPercent_mono {p q : ℕ} (h : p ≤ q) : floatPercent p ≤ floatPercent q := by
  have hcast : (p : ℚ) / 100 ≤ q / 100 := by
    have hpq : (p : ℚ) ≤ q := by exact_mod_cast h
    linarith
  have hp : (0 : ℚ) ≤ (p : ℚ) / 100 := by positivity
  have hdec := ordered_cpython.dec_mono _ _ hp hcast
  have hdec0 := ordered_cpython.dec_nonneg hp
  have hflt := ordered_cpython.flt_mono _ _ hdec0 hdec
  have hflt0 := ordered_cpython.flt_nonneg hdec0
  exact ordered_cpython.flt_mono _ _ (mul_nonneg hflt0 (by norm_num))
    (mul_le_mul_of_nonneg_right hflt (by norm_num))

/-- **When a threshold stays on its side.** -/
theorem le_floatPercent_iff (p : ℕ) (threshold : ℤ) :
    ((threshold : ℚ) ≤ floatPercent p ↔ threshold ≤ p) ↔ KeepsSide p threshold := by
  unfold KeepsSide
  split
  · rename_i hlt
    rcases lt_or_ge p (2 ^ 52) with hp | hp
    · exact le_floatPercent_iff_of_lt hp threshold
    · have hlarge : (2 : ℚ) ^ 52 ≤ floatPercent p := by
        have hpow : (2 : ℚ) ^ 52 ≤ floatPercent (2 ^ 52) := by decide +kernel
        exact hpow.trans (floatPercent_mono hp)
      have hlow : threshold < p := by omega
      have hcast : (threshold : ℚ) < 2 ^ 52 := by exact_mod_cast hlt
      exact iff_of_true (iff_of_true (hcast.le.trans hlarge) hlow.le) fun _ => hlow.ne
  · exact Iff.rfl

/-! ### The threshold that is found -/

theorem isMax_crossedThreshold (num : Arith) (utilization : ℚ) (thresholds : List ℤ) :
    IsMax (crossedThreshold num utilization thresholds)
      (thresholds.filter fun threshold : ℤ => (threshold : ℚ) ≤ num.flt (utilization * 100)) := by
  have hsorted := (List.pairwise_insertionSort (· ≤ ·) thresholds).filter fun threshold : ℤ =>
    decide ((threshold : ℚ) ≤ num.flt (utilization * 100))
  have hperm := (List.perm_insertionSort (· ≤ ·) thresholds).filter fun threshold : ℤ =>
    decide ((threshold : ℚ) ≤ num.flt (utilization * 100))
  obtain ⟨hall, hmem⟩ := isMax_getLast? hsorted
  exact ⟨fun s hs => hall s (hperm.mem_iff.mpr hs), fun m hm => hperm.mem_iff.mp (hmem m hm)⟩

theorem threshold_of_assess {num : Arith} {rows : List CostRow} {budget : Budget} {now : Moment}
    {a : Assessment} (h : assess num rows budget now = .ok a) :
    ∃ thresholds, budget.alertThresholds = some thresholds ∧ a.threshold =
      crossedThreshold num (utilizationOf num a.spend budget.limitUsd) thresholds := by
  unfold assess at h
  obtain ⟨⟨start, stop⟩, _, h⟩ := Batch.bind_eq_ok.mp h
  obtain ⟨window, _, h⟩ := Batch.bind_eq_ok.mp h
  obtain ⟨thresholds, ht, h⟩ := Batch.bind_eq_ok.mp h
  obtain rfl := Except.ok.inj h
  cases hb : budget.alertThresholds with
  | none =>
    rw [hb] at ht
    cases ht
  | some l =>
    rw [hb] at ht
    obtain rfl := Except.ok.inj ht
    exact ⟨l, rfl, rfl⟩

/-- **At `p` percent the highest threshold reached is found** exactly where every threshold stays
on its side: below `2 ^ 52`, where none that is `p` comes out low. -/
theorem reachesExactly_iff {spend limit : ℚ} {p : ℕ} (hlimit : 0 < limit)
    (hp : 100 * spend = p * limit) (thresholds : List ℤ) :
    ReachesExactly spend limit thresholds ↔ ∀ threshold ∈ thresholds, KeepsSide p threshold := by
  have hquot : spend / limit = p / 100 := by
    rw [div_eq_div_iff hlimit.ne' (by norm_num)]
    linarith
  have hutil : Arith.cpython.flt (utilizationOf .cpython spend limit * 100) = floatPercent p := by
    rw [utilizationOf, if_pos hlimit, hquot]
    rfl
  have hexact : ∀ threshold : ℤ, (threshold : ℚ) * limit ≤ 100 * spend ↔ threshold ≤ p := by
    intro threshold
    rw [hp, mul_le_mul_iff_left₀ hlimit]
    exact_mod_cast Iff.rfl
  have hmax := isMax_crossedThreshold .cpython (utilizationOf .cpython spend limit) thresholds
  simp only [hutil] at hmax
  unfold ReachesExactly
  simp only [hexact]
  rw [hmax.filter_iff (fun s t hst ht => (Int.cast_le.mpr hst).trans ht)
    fun s t hst ht => hst.trans ht]
  simp only [le_floatPercent_iff]

theorem reachesExactly_eighty : ReachesExactly 80 100 [80, 100] :=
  (reachesExactly_iff (p := 80) (by norm_num) (by norm_num) [80, 100]).mpr (by decide +kernel)

theorem not_reachesExactly_twentyNine : ¬ ReachesExactly 29 100 [29] := by
  rintro ⟨hall, _⟩
  have hnone : crossedThreshold .cpython (utilizationOf .cpython 29 100) [29] = none := by
    decide +kernel
  have hreached : (29 : ℤ) ∈ [29].filter fun threshold : ℤ => (threshold : ℚ) * 100 ≤ 100 * 29 := by
    norm_num
  obtain ⟨m, hm, _⟩ := hall 29 hreached
  rw [hnone] at hm
  cases hm

end Finops
