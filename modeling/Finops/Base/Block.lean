import Mathlib.Data.List.Basic
import Mathlib.Data.List.Nodup
import Mathlib.Algebra.Order.Ring.Int
import Mathlib.Tactic.Ring
import Mathlib.Tactic.Linarith

/-!
# Blocks of equally spaced points

`block width start n` is the `n` points `start`, `start + width`, and so on.  A block
goes on where a shorter one ends (`block_add`), its first points are a block
(`take_block`), and its last point is above all others (`le_of_mem_block_succ`).  Among
the points that lie a multiple of `width` from `start`, a block is an interval
(`mem_block_iff`).
-/

namespace Block

/-- `n` points from `start` on, each `width` after the one before. -/
def block (width : ℤ) : ℤ → ℕ → List ℤ
  | _, 0 => []
  | start, n + 1 => start :: block width (start + width) n

variable {width start t : ℤ} {n : ℕ}

@[simp] theorem block_zero (width start : ℤ) : block width start 0 = [] := rfl

theorem block_succ (width start : ℤ) (n : ℕ) :
    block width start (n + 1) = start :: block width (start + width) n := rfl

@[simp] theorem length_block (width : ℤ) : ∀ (n : ℕ) (start : ℤ),
    (block width start n).length = n := by
  intro n
  induction n with
  | zero => intro start; rfl
  | succ n ih => intro start; rw [block_succ, List.length_cons, ih]

theorem block_add (width : ℤ) (m n : ℕ) : ∀ start : ℤ,
    block width start (m + n) = block width start m ++ block width (start + m * width) n := by
  induction m with
  | zero => intro start; simp
  | succ m ih =>
    intro start
    have hstart : start + ((m + 1 : ℕ) : ℤ) * width = start + width + m * width := by
      push_cast; ring
    rw [Nat.add_right_comm, block_succ, ih, block_succ, List.cons_append, hstart]

theorem block_succ_eq_append (width start : ℤ) (n : ℕ) :
    block width start (n + 1) = block width start n ++ [start + n * width] :=
  block_add width n 1 start

theorem getLast?_block_succ (width start : ℤ) (n : ℕ) :
    (block width start (n + 1)).getLast? = some (start + n * width) := by
  rw [block_succ_eq_append, List.getLast?_append, List.getLast?_singleton]
  rfl

theorem take_block (width : ℤ) (k n : ℕ) (start : ℤ) :
    (block width start n).take k = block width start (min k n) := by
  rcases Nat.le_total n k with h | h
  · rw [List.take_of_length_le (by rwa [length_block]), Nat.min_eq_right h]
  · obtain ⟨m, rfl⟩ := Nat.exists_eq_add_of_le h
    rw [block_add, List.take_append_of_le_length (by rw [length_block]),
      List.take_of_length_le (by rw [length_block]), Nat.min_eq_left h]

theorem mem_block : ∀ {n : ℕ} {start : ℤ},
    t ∈ block width start n ↔ ∃ i : ℕ, i < n ∧ t = start + i * width := by
  intro n
  induction n with
  | zero => intro start; simp
  | succ n ih =>
    intro start
    rw [block_succ_eq_append, List.mem_append, ih, List.mem_singleton]
    constructor
    · rintro (⟨i, hi, rfl⟩ | rfl)
      · exact ⟨i, Nat.lt_succ_of_lt hi, rfl⟩
      · exact ⟨n, Nat.lt_succ_self n, rfl⟩
    · rintro ⟨i, hi, rfl⟩
      rcases Nat.lt_succ_iff_lt_or_eq.mp hi with h | rfl
      · exact .inl ⟨i, h, rfl⟩
      · exact .inr rfl

/-- **A block is an interval** of the points that lie whole widths from its start. -/
theorem mem_block_iff (hw : 0 < width) : t ∈ block width start n ↔
    width ∣ t - start ∧ start ≤ t ∧ t < start + n * width := by
  rw [mem_block]
  constructor
  · rintro ⟨i, hi, rfl⟩
    have hle : (i : ℤ) + 1 ≤ n := by exact_mod_cast hi
    have hpos : 0 ≤ (i : ℤ) * width := by positivity
    have hlast : ((i : ℤ) + 1) * width ≤ n * width := Int.mul_le_mul_of_nonneg_right hle hw.le
    exact ⟨⟨i, by ring⟩, by linarith, by linarith⟩
  · rintro ⟨⟨k, hk⟩, hle, hlt⟩
    have hnn : 0 ≤ k := by
      by_contra hneg
      have := Int.mul_neg_of_pos_of_neg hw (not_le.mp hneg)
      linarith
    have hkn : k < n := by
      by_contra hge
      have := Int.mul_le_mul_of_nonneg_left (not_lt.mp hge) hw.le
      linarith
    obtain ⟨i, rfl⟩ := Int.eq_ofNat_of_zero_le hnn
    exact ⟨i, by exact_mod_cast hkn, by linarith⟩

theorem mem_block_succ (width start : ℤ) (n : ℕ) :
    start + n * width ∈ block width start (n + 1) := mem_block.mpr ⟨n, Nat.lt_succ_self n, rfl⟩

theorem le_of_mem_block_succ (hw : 0 < width) (h : t ∈ block width start (n + 1)) :
    t ≤ start + n * width := by
  obtain ⟨i, hi, rfl⟩ := mem_block.mp h
  have hle : (i : ℤ) ≤ n := by exact_mod_cast Nat.le_of_lt_succ hi
  have := Int.mul_le_mul_of_nonneg_right hle hw.le
  linarith

theorem nodup_block (hw : 0 < width) : ∀ (n : ℕ) (start : ℤ), (block width start n).Nodup := by
  intro n
  induction n with
  | zero => intro start; exact List.nodup_nil
  | succ n ih =>
    intro start
    rw [block_succ, List.nodup_cons]
    refine ⟨fun h => ?_, ih _⟩
    obtain ⟨_, hle, _⟩ := (mem_block_iff hw).mp h
    linarith

end Block
