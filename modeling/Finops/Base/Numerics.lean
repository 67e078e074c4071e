import Mathlib.Data.Rat.Floor
import Mathlib.Algebra.Order.Field.Power
import Mathlib.Tactic.Linarith
import Mathlib.Tactic.Positivity
import Mathlib.Tactic.FieldSimp
import Mathlib.Tactic.Ring

/-!
# Decimal values and the roundings of an arithmetic

Amounts are rationals.  What an arithmetic does to the exact result of one
operation is an `Arith`: the rounding of a decimal operation, the rounding to a
binary float, the decimal a float prints as, and whether a quantized value still
fits the precision.  `Arith.exact` rounds nothing.

`toExp rnd e v` is `v` to the exponent `e`, rounded to an integer coefficient by
`rnd`; the three roundings in use are toward zero, half to even and half away
from zero.
-/

namespace Numerics

/-- A decimal literal, the coefficient times ten to the exponent. -/
structure Literal where
  coeff : ℤ
  exp : ℤ
  deriving DecidableEq, Repr

def Literal.value (d : Literal) : ℚ := d.coeff * (10 : ℚ) ^ d.exp

/-- Toward zero. -/
def down (v : ℚ) : ℤ := if 0 ≤ v then ⌊v⌋ else ⌈v⌉

/-- To the nearest integer, a tie to the even one. -/
def halfEven (v : ℚ) : ℤ :=
  if v - ⌊v⌋ < 1 / 2 then ⌊v⌋
  else if 1 / 2 < v - ⌊v⌋ then ⌊v⌋ + 1
  else if ⌊v⌋ % 2 = 0 then ⌊v⌋ else ⌊v⌋ + 1

/-- To the nearest integer, a tie away from zero. -/
def halfAway (v : ℚ) : ℤ := if 0 ≤ v then ⌊v + 1 / 2⌋ else ⌈v - 1 / 2⌉

/-- `v` to the exponent `e`. -/
def toExp (rnd : ℚ → ℤ) (e : ℤ) (v : ℚ) : ℚ := rnd (v / (10 : ℚ) ^ e) * (10 : ℚ) ^ e

/-- What an arithmetic does to the exact result of an operation. -/
structure Arith where
  /-- the result of one decimal operation -/
  dec : ℚ → ℚ
  /-- the nearest binary float -/
  flt : ℚ → ℚ
  /-- the decimal that a float prints as -/
  str : ℚ → ℚ
  /-- whether a value quantized to an exponent is within the precision -/
  fits : ℤ → ℚ → Bool

/-- The arithmetic that rounds nothing. -/
def Arith.exact : Arith := ⟨id, id, id, fun _ _ => true⟩

@[simp] theorem exact_dec (v : ℚ) : Arith.exact.dec v = v := rfl

/-- Its roundings keep the order of values that are not negative, and integers that a float
holds are kept. -/
structure Arith.Ordered (num : Arith) : Prop where
  dec_mono : ∀ v w, 0 ≤ v → v ≤ w → num.dec v ≤ num.dec w
  dec_zero : num.dec 0 = 0
  flt_mono : ∀ v w, 0 ≤ v → v ≤ w → num.flt v ≤ num.flt w
  flt_natCast : ∀ k : ℕ, k < 2 ^ 53 → num.flt k = k
  str_nonneg : ∀ v, 0 ≤ v → 0 ≤ num.str v

theorem ordered_exact : Arith.exact.Ordered where
  dec_mono _ _ _ h := h
  dec_zero := rfl
  flt_mono _ _ _ h := h
  flt_natCast _ _ := rfl
  str_nonneg _ h := h

variable {num : Arith}

theorem Arith.Ordered.dec_nonneg (h : num.Ordered) {v : ℚ} (hv : 0 ≤ v) : 0 ≤ num.dec v :=
  h.dec_zero.symm.trans_le (h.dec_mono 0 v (le_refl 0) hv)

theorem Arith.Ordered.flt_nonneg (h : num.Ordered) {v : ℚ} (hv : 0 ≤ v) : 0 ≤ num.flt v := by
  have hzero : num.flt 0 = 0 := h.flt_natCast 0 (by decide)
  exact hzero.symm.trans_le (h.flt_mono 0 v (le_refl 0) hv)

/-- A sum, one addition at a time. -/
def Arith.sum (num : Arith) (l : List ℚ) : ℚ := l.foldl (fun acc v => num.dec (acc + v)) 0

theorem exact_sum (l : List ℚ) : Arith.exact.sum l = l.sum := by
  have aux : ∀ (l : List ℚ) (acc : ℚ),
      l.foldl (fun acc v => Arith.exact.dec (acc + v)) acc = acc + l.sum := by
    intro l
    induction l with
    | nil => intro acc; simp
    | cons v l ih => intro acc; rw [List.foldl_cons, ih, List.sum_cons, exact_dec, add_assoc]
  rw [Arith.sum, aux, zero_add]

/-! ### Values that need no rounding -/

theorem down_of_nonneg {v : ℚ} (h : 0 ≤ v) : down v = ⌊v⌋ := if_pos h

theorem down_intCast (k : ℤ) : down (k : ℚ) = k := by
  unfold down
  split
  · exact Int.floor_intCast k
  · exact Int.ceil_intCast k

theorem halfAway_intCast (k : ℤ) : halfAway (k : ℚ) = k := by
  unfold halfAway
  split
  · rw [Int.floor_eq_iff]; constructor <;> linarith
  · rw [Int.ceil_eq_iff]; constructor <;> linarith

theorem toExp_multiple {rnd : ℚ → ℤ} (hrnd : ∀ k : ℤ, rnd (k : ℚ) = k) (e k : ℤ) :
    toExp rnd e (k * (10 : ℚ) ^ e) = k * (10 : ℚ) ^ e := by
  have h : (10 : ℚ) ^ e ≠ 0 := by positivity
  rw [toExp, mul_div_assoc, div_self h, mul_one, hrnd]

theorem toExp_halfAway_nonneg (e : ℤ) {v : ℚ} (hv : 0 ≤ v) : 0 ≤ toExp halfAway e v := by
  have hstep : (0 : ℚ) < (10 : ℚ) ^ e := by positivity
  have hnn : 0 ≤ v / (10 : ℚ) ^ e := div_nonneg hv hstep.le
  rw [toExp, halfAway, if_pos hnn]
  refine mul_nonneg (Int.cast_nonneg (Int.floor_nonneg.mpr ?_)) hstep.le
  linarith

/-- So many digits after the point, at most. -/
def HasScale (scale : ℤ) (v : ℚ) : Prop := ∃ k : ℤ, v = k * (10 : ℚ) ^ (-scale)

theorem hasScale_toExp (rnd : ℚ → ℤ) (scale : ℤ) (v : ℚ) : HasScale scale (toExp rnd (-scale) v) :=
  ⟨_, rfl⟩

theorem toExp_of_hasScale {rnd : ℚ → ℤ} (hrnd : ∀ k : ℤ, rnd (k : ℚ) = k) {scale : ℤ} {v : ℚ}
    (h : HasScale scale v) : toExp rnd (-scale) v = v := by
  obtain ⟨k, rfl⟩ := h
  exact toExp_multiple hrnd (-scale) k

theorem HasScale.sum {scale : ℤ} {l : List ℚ} (h : ∀ v ∈ l, HasScale scale v) :
    HasScale scale l.sum := by
  induction l with
  | nil => exact ⟨0, by simp⟩
  | cons v l ih =>
    obtain ⟨j, hj⟩ := h v List.mem_cons_self
    obtain ⟨k, hk⟩ := ih fun a ha => h a (List.mem_cons_of_mem v ha)
    exact ⟨j + k, by rw [List.sum_cons, hj, hk, Int.cast_add, add_mul]⟩

end Numerics
