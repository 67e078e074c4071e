import Finops.Base.Significant

/-!
# Binary floats and what they print as

`binary64 v` is the float nearest to `v`, for values that are neither too large for a
float nor subnormal.  A float prints as the shortest decimal that is read back as it,
`reprFloat`, so the two differ by no more than reading it back rounds off
(`abs_reprFloat_sub_le`).
-/

namespace Numerics

/-- The nearest float: 53 digits in base 2. -/
def binary64 (v : ℚ) : ℚ := roundSig 2 53 v

/-- The decimals of `n` digits next to `x`, the nearest first. -/
def decimalsNear (n : ℕ) (x : ℚ) : List ℚ :=
  [roundSig 10 n x, ⌊x / ulp 10 n x⌋ * ulp 10 n x, ⌈x / ulp 10 n x⌉ * ulp 10 n x]

/-- The shortest decimal that is read back as `x`; 17 digits are enough for a float. -/
def reprFloat (x : ℚ) : ℚ :=
  (((List.range' 1 17).flatMap fun n => decimalsNear n x).find? fun y => binary64 y = x).getD x

/-- Decimals of 28 digits beside binary floats. -/
def Arith.cpython : Arith := .decimal binary64 reprFloat

@[simp] theorem cpython_dec : Arith.cpython.dec = roundSig 10 28 := rfl

@[simp] theorem cpython_flt : Arith.cpython.flt = binary64 := rfl

@[simp] theorem cpython_str : Arith.cpython.str = reprFloat := rfl

theorem abs_binary64_sub_le (v : ℚ) : |binary64 v - v| ≤ 1 / 2 ^ 53 * |v| := by
  have h := abs_roundSig_sub_le_mul (b := 2) (by decide) 53 v
  norm_num at h ⊢
  exact h

theorem binary64_nonneg {v : ℚ} (h : 0 ≤ v) : 0 ≤ binary64 v :=
  roundSig_nonneg (by decide) 53 h

theorem binary64_eq_of_bounds {v : ℚ} {e : ℤ} (hlow : (2 : ℚ) ^ e ≤ v)
    (hhigh : v < (2 : ℚ) ^ (e + 1)) :
    binary64 v = halfEven (v / (2 : ℚ) ^ (e - 52)) * (2 : ℚ) ^ (e - 52) := by
  have h := roundSig_eq_of_bounds (b := 2) (n := 53) (by decide) (by exact_mod_cast hlow)
    (by exact_mod_cast hhigh)
  have hexp : e + 1 - (53 : ℕ) = e - 52 := by
    push_cast
    ring
  rw [hexp] at h
  exact_mod_cast h

theorem binary64_mul_zpow {v : ℚ} (hv : 0 < v) (m : ℤ) :
    binary64 (v * (2 : ℚ) ^ m) = binary64 v * (2 : ℚ) ^ m :=
  mod_cast roundSig_mul_zpow (b := 2) (by decide) 53 hv m

theorem binary64_of_multiple {e k : ℤ} {v : ℚ} (hv : v = k * (2 : ℚ) ^ e)
    (h : |v| < (2 : ℚ) ^ (e + 53)) : binary64 v = v :=
  roundSig_of_multiple (b := 2) (n := 53) (by decide) (by exact_mod_cast hv)
    (by exact_mod_cast h)

theorem binary64_mono {v w : ℚ} (hv : 0 ≤ v) (h : v ≤ w) : binary64 v ≤ binary64 w :=
  roundSig_mono (by decide) (by decide) hv h

theorem binary64_monotone : Monotone binary64 := roundSig_monotone (by decide) (by decide)

@[simp] theorem binary64_zero : binary64 0 = 0 := roundSig_zero 2 53

theorem reprFloat_cases (x : ℚ) : reprFloat x = x ∨ binary64 (reprFloat x) = x := by
  unfold reprFloat
  cases h : ((List.range' 1 17).flatMap fun n => decimalsNear n x).find?
      fun y => binary64 y = x with
  | none => exact .inl rfl
  | some y => exact .inr (by simpa using List.find?_some h)

theorem abs_reprFloat_sub_le (x : ℚ) : |reprFloat x - x| ≤ 1 / 2 ^ 53 * |reprFloat x| := by
  rcases reprFloat_cases x with h | h
  · rw [h, sub_self, abs_zero]
    positivity
  · have herr := abs_binary64_sub_le (reprFloat x)
    rw [h, abs_sub_comm] at herr
    exact herr

theorem reprFloat_nonneg {x : ℚ} (hx : 0 ≤ x) : 0 ≤ reprFloat x := by
  unfold reprFloat
  cases h : ((List.range' 1 17).flatMap fun n => decimalsNear n x).find?
      fun y => binary64 y = x with
  | none => exact hx
  | some y =>
    obtain ⟨n, _, hn⟩ := List.mem_flatMap.mp (List.mem_of_find?_eq_some h)
    have hu := ulp_pos (b := 10) (by decide) n x
    have hquot : 0 ≤ x / ulp 10 n x := div_nonneg hx hu.le
    simp only [decimalsNear, List.mem_cons, List.not_mem_nil, or_false] at hn
    rw [Option.getD_some]
    rcases hn with rfl | rfl | rfl
    · exact roundSig_nonneg (by decide) n hx
    · exact mul_nonneg (Int.cast_nonneg (Int.floor_nonneg.mpr hquot)) hu.le
    · exact mul_nonneg (Int.cast_nonneg (Int.ceil_nonneg hquot)) hu.le

theorem ordered_cpython : Arith.cpython.Ordered where
  dec_mono _ _ hv h := roundSig_mono (by decide) (by decide) hv h
  dec_zero := roundSig_zero 10 28
  flt_mono _ _ hv h := binary64_mono hv h
  flt_natCast k hk := by
    have hlt : |(k : ℚ)| < ((2 : ℕ) : ℚ) ^ ((0 : ℤ) + (53 : ℕ)) := by
      rw [Nat.abs_cast]
      exact_mod_cast hk
    exact roundSig_of_multiple (by decide) (e := 0) (k := (k : ℤ)) (by simp) hlt
  str_nonneg _ h := reprFloat_nonneg h

/-! The floats next to a tenth and to a third. -/

example : reprFloat (binary64 (1 / 10)) = 1 / 10 := by decide +kernel

example : reprFloat (binary64 (1 / 3)) = 3333333333333333 / 10000000000000000 := by decide +kernel

end Numerics
