import Finops.Base.Numerics
import Mathlib.Data.Int.Log
import Mathlib.Tactic.NormNum
import Mathlib.Tactic.GCongr

/-!
# Rounding to significant digits

`roundSig b n v` is `v` to `n` significant digits in base `b`, a tie to the even
digit.  A decimal operation rounds its exact result so in base 10, a binary one in
base 2; the range of the exponent is not bounded here.

The error is at most half a unit in the last place (`abs_roundSig_sub_le`), so
relative to `v` at most half of `b ^ (1 - n)` (`abs_roundSig_sub_le_mul`), and a
value that needs no more digits is kept (`roundSig_of_multiple`).
-/

namespace Numerics

/-! ### Half to even -/

variable {v : ℚ}

theorem abs_halfEven_sub_le (v : ℚ) : |(halfEven v : ℚ) - v| ≤ 1 / 2 := by
  have hle := Int.floor_le v
  have hlt := Int.lt_floor_add_one v
  unfold halfEven
  rw [abs_le]
  split
  · constructor <;> linarith
  · rename_i h1
    split
    · push_cast; constructor <;> linarith
    · rename_i h2
      split
      · constructor <;> linarith
      · push_cast; constructor <;> linarith

theorem halfEven_intCast (k : ℤ) : halfEven (k : ℚ) = k := by
  unfold halfEven
  rw [Int.floor_intCast, sub_self, if_pos (by norm_num)]

theorem halfEven_nonneg {v : ℚ} (h : 0 ≤ v) : 0 ≤ halfEven v := by
  have hf : 0 ≤ ⌊v⌋ := Int.floor_nonneg.mpr h
  unfold halfEven
  split
  · exact hf
  · split
    · omega
    · split
      · exact hf
      · omega

theorem halfEven_cases (v : ℚ) : halfEven v = ⌊v⌋ ∨ halfEven v = ⌊v⌋ + 1 := by
  unfold halfEven
  split
  · exact .inl rfl
  · split
    · exact .inr rfl
    · split
      · exact .inl rfl
      · exact .inr rfl

/-- **Rounding keeps the order.** -/
theorem halfEven_mono {v w : ℚ} (h : v ≤ w) : halfEven v ≤ halfEven w := by
  have hfloor := Int.floor_le_floor h
  rcases Int.lt_or_eq_of_le hfloor with hlt | heq
  · rcases halfEven_cases v with hv | hv <;> rcases halfEven_cases w with hw | hw <;> omega
  · unfold halfEven
    rw [heq]
    have hfrac : v - ⌊w⌋ ≤ w - ⌊w⌋ := by linarith
    by_cases hw : w - ⌊w⌋ < 1 / 2
    · rw [if_pos hw, if_pos (hfrac.trans_lt hw)]
    · rw [if_neg hw]
      by_cases hw' : 1 / 2 < w - ⌊w⌋
      · rw [if_pos hw']
        split
        · omega
        · split
          · omega
          · split <;> omega
      · rw [if_neg hw']
        split
        · split <;> omega
        · rw [if_neg fun hv' => hw' (hv'.trans_le hfrac)]

theorem halfEven_eq_of_abs_lt {k : ℤ} (h : |v - k| < 1 / 2) : halfEven v = k := by
  have herr := abs_le.mp (abs_halfEven_sub_le v)
  have hnear := abs_lt.mp h
  have hlow : ((k - 1 : ℤ) : ℚ) < halfEven v := by push_cast; linarith
  have hhigh : ((halfEven v : ℤ) : ℚ) < (k + 1 : ℤ) := by push_cast; linarith
  have h1 : k - 1 < halfEven v := Int.cast_lt.mp hlow
  have h2 : halfEven v < k + 1 := Int.cast_lt.mp hhigh
  omega

theorem halfEven_sub_half {k : ℤ} (hk : k % 2 = 0) : halfEven ((k : ℚ) - 1 / 2) = k := by
  have hfloor : ⌊(k : ℚ) - 1 / 2⌋ = k - 1 := by
    rw [Int.floor_eq_iff]
    push_cast
    constructor <;> linarith
  have hhalf : (k : ℚ) - 1 / 2 - (k - 1 : ℤ) = 1 / 2 := by push_cast; ring
  unfold halfEven
  rw [hfloor, hhalf, if_neg (lt_irrefl _), if_neg (lt_irrefl _), if_neg (by omega)]
  omega

theorem toExp_mono (e : ℤ) {v w : ℚ} (h : v ≤ w) : toExp halfEven e v ≤ toExp halfEven e w := by
  have hu : (0 : ℚ) < (10 : ℚ) ^ e := by positivity
  have hdiv : v / (10 : ℚ) ^ e ≤ w / (10 : ℚ) ^ e := div_le_div_of_nonneg_right h hu.le
  exact mul_le_mul_of_nonneg_right (Int.cast_le.mpr (halfEven_mono hdiv)) hu.le

theorem abs_toExp_halfEven_sub_le (e : ℤ) (v : ℚ) :
    |toExp halfEven e v - v| ≤ (10 : ℚ) ^ e / 2 := by
  have hu : (0 : ℚ) < (10 : ℚ) ^ e := by positivity
  have hsplit : toExp halfEven e v - v =
      ((halfEven (v / (10 : ℚ) ^ e) : ℚ) - v / (10 : ℚ) ^ e) * (10 : ℚ) ^ e := by
    rw [toExp, sub_mul, div_mul_cancel₀ _ hu.ne']
  rw [hsplit, abs_mul, abs_of_pos hu]
  calc |(halfEven (v / (10 : ℚ) ^ e) : ℚ) - v / (10 : ℚ) ^ e| * (10 : ℚ) ^ e
      ≤ 1 / 2 * (10 : ℚ) ^ e := by gcongr; exact abs_halfEven_sub_le _
    _ = (10 : ℚ) ^ e / 2 := by ring

theorem toExp_halfEven_nonneg (e : ℤ) {v : ℚ} (h : 0 ≤ v) : 0 ≤ toExp halfEven e v := by
  have hu : (0 : ℚ) < (10 : ℚ) ^ e := by positivity
  exact mul_nonneg (Int.cast_nonneg (halfEven_nonneg (div_nonneg h hu.le))) hu.le

theorem abs_sub_le_of_rounded {x y z ε δ : ℚ} (hδ : 0 ≤ δ) (hy : |y - x| ≤ ε * |x|)
    (hz : |z - y| ≤ δ * |y|) : |z - x| ≤ (ε + δ + δ * ε) * |x| := by
  have habs : |y| ≤ |x| + |y - x| := by
    have h := abs_add_le x (y - x)
    rwa [add_sub_cancel] at h
  calc |z - x| ≤ |z - y| + |y - x| := abs_sub_le z y x
    _ ≤ δ * (|x| + |y - x|) + |y - x| := by gcongr; exact hz.trans (by gcongr)
    _ ≤ δ * (|x| + ε * |x|) + ε * |x| := by gcongr
    _ = (ε + δ + δ * ε) * |x| := by ring

/-! ### Significant digits -/

/-- The unit in the last place of `v`, of `n` digits in base `b`. -/
def ulp (b n : ℕ) (v : ℚ) : ℚ := (b : ℚ) ^ (Int.log b |v| + 1 - n)

/-- `v` to `n` significant digits in base `b`. -/
def roundSig (b n : ℕ) (v : ℚ) : ℚ := halfEven (v / ulp b n v) * ulp b n v

variable {b n : ℕ}

theorem ulp_pos (hb : 1 < b) (n : ℕ) (v : ℚ) : 0 < ulp b n v := by
  have : (0 : ℚ) < b := by exact_mod_cast Nat.zero_lt_of_lt hb
  exact zpow_pos this _

@[simp] theorem roundSig_zero (b n : ℕ) : roundSig b n 0 = 0 := by
  rw [roundSig, zero_div, ← Int.cast_zero, halfEven_intCast, Int.cast_zero, zero_mul]

theorem log_eq_of_bounds (hb : 1 < b) {e : ℤ} (hlow : (b : ℚ) ^ e ≤ v)
    (hhigh : v < (b : ℚ) ^ (e + 1)) : Int.log b v = e := by
  have hpos : 0 < v := (zpow_pos (by exact_mod_cast Nat.zero_lt_of_lt hb) e).trans_le hlow
  have h1 := (Int.zpow_le_iff_le_log hb hpos).mp hlow
  have h2 := (Int.lt_zpow_iff_log_lt hb hpos).mp hhigh
  omega

theorem roundSig_eq_of_bounds (hb : 1 < b) {e : ℤ} (hlow : (b : ℚ) ^ e ≤ v)
    (hhigh : v < (b : ℚ) ^ (e + 1)) : roundSig b n v =
      halfEven (v / (b : ℚ) ^ (e + 1 - n)) * (b : ℚ) ^ (e + 1 - n) := by
  have hpos : 0 < v := (zpow_pos (by exact_mod_cast Nat.zero_lt_of_lt hb) e).trans_le hlow
  rw [roundSig, ulp, abs_of_pos hpos, log_eq_of_bounds hb hlow hhigh]

theorem roundSig_mul_zpow (hb : 1 < b) (n : ℕ) (hv : 0 < v) (m : ℤ) :
    roundSig b n (v * (b : ℚ) ^ m) = roundSig b n v * (b : ℚ) ^ m := by
  have hb0 : (b : ℚ) ≠ 0 := by exact_mod_cast (Nat.zero_lt_of_lt hb).ne'
  have hm : (0 : ℚ) < (b : ℚ) ^ m := zpow_pos (by exact_mod_cast Nat.zero_lt_of_lt hb) m
  have hlog : Int.log b (v * (b : ℚ) ^ m) = Int.log b v + m := by
    refine log_eq_of_bounds hb ?_ ?_
    · rw [zpow_add₀ hb0]
      exact mul_le_mul_of_nonneg_right (Int.zpow_log_le_self hb hv) hm.le
    · rw [add_right_comm, zpow_add₀ hb0]
      exact mul_lt_mul_of_pos_right (Int.lt_zpow_succ_log_self hb v) hm
  have hulp : ulp b n (v * (b : ℚ) ^ m) = ulp b n v * (b : ℚ) ^ m := by
    rw [ulp, ulp, abs_of_pos (mul_pos hv hm), abs_of_pos hv, hlog, ← zpow_add₀ hb0]
    congr 1
    ring
  rw [roundSig, roundSig, hulp, mul_div_mul_right _ _ hm.ne', mul_assoc]

/-- **The error** is at most half a unit in the last place. -/
theorem abs_roundSig_sub_le (hb : 1 < b) (n : ℕ) (v : ℚ) :
    |roundSig b n v - v| ≤ ulp b n v / 2 := by
  have hu := ulp_pos hb n v
  have hsplit : roundSig b n v - v =
      ((halfEven (v / ulp b n v) : ℚ) - v / ulp b n v) * ulp b n v := by
    rw [roundSig, sub_mul, div_mul_cancel₀ _ hu.ne']
  rw [hsplit, abs_mul, abs_of_pos hu]
  calc |(halfEven (v / ulp b n v) : ℚ) - v / ulp b n v| * ulp b n v
      ≤ 1 / 2 * ulp b n v := by gcongr; exact abs_halfEven_sub_le _
    _ = ulp b n v / 2 := by ring

theorem ulp_le (hb : 1 < b) (n : ℕ) (hv : v ≠ 0) : ulp b n v ≤ |v| * (b : ℚ) ^ (1 - n : ℤ) := by
  have hb0 : (b : ℚ) ≠ 0 := by exact_mod_cast (Nat.zero_lt_of_lt hb).ne'
  have hpos : (0 : ℚ) < (b : ℚ) ^ (1 - n : ℤ) :=
    zpow_pos (by exact_mod_cast Nat.zero_lt_of_lt hb) _
  rw [ulp, add_sub_assoc, zpow_add₀ hb0]
  exact mul_le_mul_of_nonneg_right (Int.zpow_log_le_self hb (abs_pos.mpr hv)) hpos.le

theorem abs_roundSig_sub_le_mul (hb : 1 < b) (n : ℕ) (v : ℚ) :
    |roundSig b n v - v| ≤ (b : ℚ) ^ (1 - n : ℤ) / 2 * |v| := by
  rcases eq_or_ne v 0 with rfl | hv
  · simp
  · have h1 := abs_roundSig_sub_le hb n v
    have h2 := ulp_le hb n hv
    linarith

theorem roundSig_nonneg (hb : 1 < b) (n : ℕ) (h : 0 ≤ v) : 0 ≤ roundSig b n v := by
  have hu := ulp_pos hb n v
  exact mul_nonneg (Int.cast_nonneg (halfEven_nonneg (div_nonneg h hu.le))) hu.le

/-- **What needs no rounding**: a multiple of a power of the base, of at most `n`
digits. -/
theorem roundSig_of_multiple (hb : 1 < b) {e k : ℤ} (hv : v = k * (b : ℚ) ^ e)
    (h : |v| < (b : ℚ) ^ (e + n)) : roundSig b n v = v := by
  rcases eq_or_ne v 0 with rfl | hne
  · exact roundSig_zero b n
  have hb0 : (b : ℚ) ≠ 0 := by exact_mod_cast (Nat.zero_lt_of_lt hb).ne'
  have hlog := (Int.lt_zpow_iff_log_lt hb (abs_pos.mpr hne)).mp h
  obtain ⟨m, hm⟩ : ∃ m : ℕ, e = Int.log b |v| + 1 - n + m :=
    ⟨(e - (Int.log b |v| + 1 - n)).toNat, by omega⟩
  have hu := ulp_pos hb n v
  have hquot : v / ulp b n v = ((k * (b : ℤ) ^ m : ℤ) : ℚ) := by
    have hpow : (b : ℚ) ^ e = ulp b n v * (b : ℚ) ^ m := by
      rw [ulp, ← zpow_natCast, ← zpow_add₀ hb0, ← hm]
    rw [div_eq_iff hu.ne']
    conv_lhs => rw [hv, hpow]
    push_cast
    ring
  rw [roundSig, hquot, halfEven_intCast, ← hquot, div_mul_cancel₀ _ hu.ne']

theorem roundSig_bounds (hb : 1 < b) (hn : 0 < n) (hv : 0 < v) :
    (b : ℚ) ^ Int.log b v ≤ roundSig b n v ∧ roundSig b n v ≤ (b : ℚ) ^ (Int.log b v + 1) := by
  have hb0 : (b : ℚ) ≠ 0 := by exact_mod_cast (Nat.zero_lt_of_lt hb).ne'
  have hu := ulp_pos hb n v
  have hunit : ∀ m : ℕ, ((b : ℤ) ^ m : ℤ) * ulp b n v = (b : ℚ) ^ (Int.log b v + 1 - n + m) := by
    intro m
    rw [ulp, abs_of_pos hv, Int.cast_pow, Int.cast_natCast, ← zpow_natCast, ← zpow_add₀ hb0]
    congr 1
    omega
  have hlow : (b : ℚ) ^ Int.log b v = ((b : ℤ) ^ (n - 1) : ℤ) * ulp b n v := by
    rw [hunit]
    congr 1
    omega
  have hhigh : (b : ℚ) ^ (Int.log b v + 1) = ((b : ℤ) ^ n : ℤ) * ulp b n v := by
    rw [hunit]
    congr 1
    omega
  rw [hlow, hhigh, roundSig]
  refine ⟨mul_le_mul_of_nonneg_right (Int.cast_le.mpr ?_) hu.le,
    mul_le_mul_of_nonneg_right (Int.cast_le.mpr ?_) hu.le⟩
  · rw [← halfEven_intCast ((b : ℤ) ^ (n - 1))]
    refine halfEven_mono ((le_div_iff₀ hu).mpr ?_)
    rw [← hlow]
    exact Int.zpow_log_le_self hb hv
  · rw [← halfEven_intCast ((b : ℤ) ^ n)]
    refine halfEven_mono ((div_le_iff₀ hu).mpr ?_)
    rw [← hhigh]
    exact (Int.lt_zpow_succ_log_self hb v).le

/-- **Rounding keeps the order** of values that are not negative. -/
theorem roundSig_mono {w : ℚ} (hb : 1 < b) (hn : 0 < n) (hv : 0 ≤ v) (h : v ≤ w) :
    roundSig b n v ≤ roundSig b n w := by
  rcases hv.eq_or_lt with rfl | hpos
  · rw [roundSig_zero]
    exact roundSig_nonneg hb n h
  have hb1 : (1 : ℚ) ≤ b := by exact_mod_cast hb.le
  have hwpos := hpos.trans_le h
  rcases (Int.log_mono_right hpos h).eq_or_lt with heq | hlt
  · have hu := ulp_pos hb n w
    have hulp : ulp b n v = ulp b n w := by
      rw [ulp, ulp, abs_of_pos hpos, abs_of_pos hwpos, heq]
    rw [roundSig, roundSig, hulp]
    exact mul_le_mul_of_nonneg_right
      (Int.cast_le.mpr (halfEven_mono (div_le_div_of_nonneg_right h hu.le))) hu.le
  · calc roundSig b n v ≤ (b : ℚ) ^ (Int.log b v + 1) := (roundSig_bounds hb hn hpos).2
      _ ≤ (b : ℚ) ^ Int.log b w := zpow_le_zpow_right₀ hb1 hlt
      _ ≤ roundSig b n w := (roundSig_bounds hb hn hwpos).1

theorem abs_sum_map_sub_le {f g : ℚ → ℚ} {κ : ℚ} {l : List ℚ}
    (h : ∀ v ∈ l, |f v - g v| ≤ κ * |g v|) :
    |(l.map f).sum - (l.map g).sum| ≤ κ * (l.map fun v => |g v|).sum := by
  induction l with
  | nil => simp
  | cons v l ih =>
    have hv := h v List.mem_cons_self
    have hl := ih fun w hw => h w (List.mem_cons_of_mem v hw)
    simp only [List.map_cons, List.sum_cons]
    rw [abs_le] at hv hl ⊢
    constructor <;> linarith

/-! Rounding keeps the sign. -/

theorem roundSig_pos_iff (hb : 1 < b) (hn : 0 < n) : 0 < roundSig b n v ↔ 0 < v := by
  have hb1 : (1 : ℚ) ≤ b := by exact_mod_cast hb.le
  have hpow : (b : ℚ) ^ (1 - n : ℤ) ≤ 1 := zpow_le_one_of_nonpos₀ hb1 (by omega)
  have herr := abs_le.mp (abs_roundSig_sub_le_mul hb n v)
  constructor
  · intro h
    by_contra hv
    rw [abs_of_nonpos (not_lt.mp hv)] at herr
    nlinarith [not_lt.mp hv]
  · intro hv
    rw [abs_of_pos hv] at herr
    nlinarith

theorem roundSig_neg_iff (hb : 1 < b) (hn : 0 < n) : roundSig b n v < 0 ↔ v < 0 := by
  have hb1 : (1 : ℚ) ≤ b := by exact_mod_cast hb.le
  have hpow : (b : ℚ) ^ (1 - n : ℤ) ≤ 1 := zpow_le_one_of_nonpos₀ hb1 (by omega)
  have herr := abs_le.mp (abs_roundSig_sub_le_mul hb n v)
  constructor
  · intro h
    by_contra hv
    exact absurd (roundSig_nonneg hb n (not_lt.mp hv)) (not_le.mpr h)
  · intro hv
    rw [abs_of_neg hv] at herr
    nlinarith

/-! ### Negative values -/

theorem halfEven_neg (v : ℚ) : halfEven (-v) = -halfEven v := by
  rcases eq_or_ne (v : ℚ) ⌊v⌋ with hint | hne
  · rw [hint, ← Int.cast_neg, halfEven_intCast, halfEven_intCast]
  · have hlt : (⌊v⌋ : ℚ) < v := lt_of_le_of_ne (Int.floor_le v) (Ne.symm hne)
    have hgt := Int.lt_floor_add_one v
    have hfloor : ⌊-v⌋ = -⌊v⌋ - 1 := by
      rw [Int.floor_eq_iff]
      push_cast
      constructor <;> linarith
    rcases lt_trichotomy (v - ⌊v⌋) (1 / 2) with h | h | h
    · have hv : halfEven v = ⌊v⌋ := if_pos h
      rw [hv]
      refine halfEven_eq_of_abs_lt ?_
      rw [Int.cast_neg, abs_lt]
      constructor <;> linarith
    · have hv : halfEven v = if ⌊v⌋ % 2 = 0 then ⌊v⌋ else ⌊v⌋ + 1 := by
        rw [halfEven, if_neg (by linarith), if_neg (by linarith)]
      have hnv : halfEven (-v) = if ⌊-v⌋ % 2 = 0 then ⌊-v⌋ else ⌊-v⌋ + 1 := by
        have hfract : -v - (⌊-v⌋ : ℚ) = 1 / 2 := by
          rw [hfloor]
          push_cast
          linarith
        rw [halfEven, if_neg (by linarith), if_neg (by linarith)]
      rw [hnv, hv, hfloor]
      split_ifs <;> omega
    · have hv : halfEven v = ⌊v⌋ + 1 := by
        rw [halfEven, if_neg (by linarith), if_pos h]
      rw [hv]
      refine halfEven_eq_of_abs_lt ?_
      push_cast
      rw [abs_lt]
      constructor <;> linarith

theorem roundSig_neg (b n : ℕ) (v : ℚ) : roundSig b n (-v) = -roundSig b n v := by
  have hulp : ulp b n (-v) = ulp b n v := by rw [ulp, ulp, abs_neg]
  rw [roundSig, roundSig, hulp, neg_div, halfEven_neg, Int.cast_neg, neg_mul]

/-- **Rounding keeps the order** of all values. -/
theorem roundSig_monotone (hb : 1 < b) (hn : 0 < n) : Monotone (roundSig b n) := by
  intro v w h
  rcases le_or_gt 0 v with hv | hv
  · exact roundSig_mono hb hn hv h
  rcases le_or_gt 0 w with hw | hw
  · exact ((roundSig_neg_iff hb hn).mpr hv).le.trans (roundSig_nonneg hb n hw)
  · have hneg := roundSig_mono (n := n) hb hn (neg_nonneg.mpr hw.le) (neg_le_neg h)
    rw [roundSig_neg, roundSig_neg] at hneg
    exact neg_le_neg_iff.mp hneg

/-- Decimal operations to 28 significant digits, around some conversion of floats.
A quantized value may have no more digits than that. -/
def Arith.decimal (flt str : ℚ → ℚ) : Arith :=
  ⟨roundSig 10 28, flt, str, fun e v => |v| < (10 : ℚ) ^ (28 + e)⟩

variable {flt str : ℚ → ℚ}

@[simp] theorem decimal_dec (flt str : ℚ → ℚ) :
    (Arith.decimal flt str).dec = roundSig 10 28 := rfl

@[simp] theorem decimal_fits (flt str : ℚ → ℚ) (e : ℤ) (v : ℚ) :
    (Arith.decimal flt str).fits e v = true ↔ |v| < (10 : ℚ) ^ (28 + e) := decide_eq_true_iff

/-- The relative error of one operation. -/
theorem abs_decimal_sub_le (flt str : ℚ → ℚ) (v : ℚ) :
    |(Arith.decimal flt str).dec v - v| ≤ 5 / 10 ^ 28 * |v| := by
  have h := abs_roundSig_sub_le_mul (b := 10) (by decide) 28 v
  norm_num at h ⊢
  exact h

theorem decimal_of_multiple {e k : ℤ} {v : ℚ} (hv : v = k * (10 : ℚ) ^ e)
    (h : |v| < (10 : ℚ) ^ (e + 28)) : (Arith.decimal flt str).dec v = v :=
  roundSig_of_multiple (b := 10) (n := 28) (by decide) (by exact_mod_cast hv)
    (by exact_mod_cast h)

theorem decimal_sum {e : ℤ} {l : List ℚ} (hl : ∀ v ∈ l, ∃ k : ℤ, v = k * (10 : ℚ) ^ e)
    (h : (l.map abs).sum < (10 : ℚ) ^ (e + 28)) : (Arith.decimal flt str).sum l = l.sum := by
  have aux : ∀ (l : List ℚ), (∀ v ∈ l, ∃ k : ℤ, v = k * (10 : ℚ) ^ e) →
      ∀ k : ℤ, |k * (10 : ℚ) ^ e| + (l.map abs).sum < (10 : ℚ) ^ (e + 28) →
        l.foldl (fun acc v => (Arith.decimal flt str).dec (acc + v)) (k * (10 : ℚ) ^ e) =
          k * (10 : ℚ) ^ e + l.sum := by
    intro l
    induction l with
    | nil => intro _ k _; simp
    | cons v l ih =>
      intro hl k hlt
      obtain ⟨j, hj⟩ := hl v List.mem_cons_self
      have hrest : 0 ≤ (l.map abs).sum := List.sum_nonneg fun a ha => by
        obtain ⟨w, _, rfl⟩ := List.mem_map.mp ha
        exact abs_nonneg w
      have hkj : k * (10 : ℚ) ^ e + v = ((k + j : ℤ) : ℚ) * (10 : ℚ) ^ e := by
        rw [hj]; push_cast; ring
      have habs := abs_add_le (k * (10 : ℚ) ^ e) v
      rw [List.map_cons, List.sum_cons] at hlt
      have hdec : (Arith.decimal flt str).dec (k * (10 : ℚ) ^ e + v) =
          k * (10 : ℚ) ^ e + v := decimal_of_multiple hkj (by linarith)
      rw [List.foldl_cons, hdec, List.sum_cons, ← add_assoc, hkj]
      refine ih (fun w hw => hl w (List.mem_cons_of_mem v hw)) (k + j) ?_
      rw [← hkj]
      linarith
  have h0 := aux l hl 0 (by simpa using h)
  simpa [Arith.sum] using h0

end Numerics
