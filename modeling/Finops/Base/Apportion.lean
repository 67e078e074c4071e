import Finops.Base.Dict
import Mathlib.Data.Rat.Floor
import Mathlib.Algebra.Order.BigOperators.Group.List
import Mathlib.Tactic.Linarith
import Mathlib.Tactic.FieldSimp
import Mathlib.Tactic.Ring

/-!
# Apportionment by largest remainders

Exact shares are rounded down to multiples of a unit `u`, and what is left of
the whole is handed out one unit at a time, to names that are pairwise distinct.

`sum_award` is the whole of the bookkeeping: awarding a unit to each of `ks`
adds `ks.length` units.  `leftover_le_countP` says that one round is enough: where the
shares miss the whole by less than a unit, the units left are no more than the shares
that rounding makes smaller.
-/

namespace Apportion

variable {ν : Type*}

/-- `v` rounded down to a multiple of `u`. -/
def floorTo (u v : ℚ) : ℚ := ⌊v / u⌋ * u

/-- `v` is a whole number of units, not negative. -/
def Whole (u v : ℚ) : Prop := ∃ k : ℕ, v = k * u

theorem Whole.nonneg {u v : ℚ} (hu : 0 < u) (h : Whole u v) : 0 ≤ v := by
  obtain ⟨k, rfl⟩ := h
  positivity

theorem whole_zero (u : ℚ) : Whole u 0 := ⟨0, by simp⟩

theorem Whole.add {u v w : ℚ} (hv : Whole u v) (hw : Whole u w) : Whole u (v + w) := by
  obtain ⟨j, rfl⟩ := hv
  obtain ⟨k, rfl⟩ := hw
  exact ⟨j + k, by push_cast; ring⟩

theorem whole_self (u : ℚ) : Whole u u := ⟨1, by simp⟩

theorem Whole.sum {u : ℚ} {l : List ℚ} (h : ∀ v ∈ l, Whole u v) : Whole u l.sum := by
  induction l with
  | nil => exact whole_zero u
  | cons v l ih =>
    rw [List.sum_cons]
    exact (h v List.mem_cons_self).add (ih fun w hw => h w (List.mem_cons_of_mem v hw))

/-! ### Rounding down -/

theorem floorTo_le {u : ℚ} (hu : 0 < u) (v : ℚ) : floorTo u v ≤ v := by
  have h := Int.floor_le (v / u)
  rwa [le_div_iff₀ hu] at h

theorem lt_floorTo_add {u : ℚ} (hu : 0 < u) (v : ℚ) : v < floorTo u v + u := by
  have h := Int.lt_floor_add_one (v / u)
  rw [div_lt_iff₀ hu] at h
  unfold floorTo
  linarith

theorem whole_floorTo {u v : ℚ} (hu : 0 < u) (hv : 0 ≤ v) : Whole u (floorTo u v) := by
  refine ⟨⌊v / u⌋.toNat, ?_⟩
  have h : 0 ≤ ⌊v / u⌋ := Int.floor_nonneg.mpr (div_nonneg hv hu.le)
  rw [floorTo, ← Int.cast_natCast, Int.toNat_of_nonneg h]

theorem sum_floorTo_le {u : ℚ} (hu : 0 < u) (l : List ℚ) : (l.map (floorTo u)).sum ≤ l.sum := by
  induction l with
  | nil => simp
  | cons v l ih =>
    rw [List.map_cons, List.sum_cons, List.sum_cons]
    exact add_le_add (floorTo_le hu v) ih

/-- Rounding off less than a unit of each share takes off no more units than there are
shares that it makes smaller. -/
theorem sum_sub_sum_map_le {u : ℚ} {f : ℚ → ℚ} {l : List ℚ} (h : ∀ v ∈ l, v < f v + u) :
    l.sum - (l.map f).sum ≤ l.countP (fun v => f v < v) * u := by
  induction l with
  | nil => simp
  | cons v l ih =>
    have hv := h v List.mem_cons_self
    have hl := ih fun w hw => h w (List.mem_cons_of_mem v hw)
    rw [List.map_cons, List.sum_cons, List.sum_cons]
    by_cases hlt : f v < v
    · rw [List.countP_cons_of_pos (by simpa using hlt)]
      push_cast
      linarith
    · rw [List.countP_cons_of_neg (by simpa using hlt)]
      linarith [not_lt.mp hlt]

/-- **What is left over** of a whole that the shares sum to, or miss by less than a
unit: no more units than there are shares that rounding makes smaller. -/
theorem leftover_le_countP {u amount : ℚ} (hu : 0 < u) {f : ℚ → ℚ} {l : List ℚ}
    (h : ∀ v ∈ l, v < f v + u) (hnear : |l.sum - amount| < u) {k : ℤ}
    (hk : amount - (l.map f).sum = k * u) : k ≤ l.countP fun v => f v < v := by
  have hle := sum_sub_sum_map_le h
  have hlt := (abs_lt.mp hnear).1
  have hlt : (k : ℚ) * u < (l.countP (fun v => f v < v) + 1) * u := by linarith
  exact Int.lt_add_one_iff.mp (by exact_mod_cast lt_of_mul_lt_mul_right hlt hu.le)

/-! ### Handing out units -/

variable [DecidableEq ν]

/-- One unit more for each name of `ks`. -/
def award (u : ℚ) (ks : List ν) (d : Dict ν ℚ) : Dict ν ℚ :=
  ks.foldl (fun d k => d.adjust k (· + u)) d

@[simp] theorem keys_award (u : ℚ) (ks : List ν) :
    ∀ d : Dict ν ℚ, (award u ks d).keys = d.keys := by
  induction ks with
  | nil => intro d; rfl
  | cons k ks ih => intro d; exact (ih _).trans (Dict.keys_adjust d k _)

/-- **Awarding adds as many units as there are names.** -/
theorem sum_award (u : ℚ) {ks : List ν} :
    ∀ {d : Dict ν ℚ}, (∀ k ∈ ks, k ∈ d.keys) →
      (award u ks d).values.sum = d.values.sum + ks.length * u := by
  induction ks with
  | nil => intro d _; simp [award]
  | cons k ks ih =>
    intro d h
    obtain ⟨v, hv⟩ := Dict.mem_keys_iff.mp (h k List.mem_cons_self)
    have hk := Dict.sum_values_adjust (· + u) hv
    have hrest : ∀ j ∈ ks, j ∈ (d.adjust k (· + u)).keys := by
      intro j hj
      rw [Dict.keys_adjust]
      exact h j (List.mem_cons_of_mem k hj)
    have hsum := ih hrest
    rw [award, List.foldl_cons]
    rw [award] at hsum
    rw [hsum, List.length_cons]
    push_cast
    linarith

theorem get?_award (u : ℚ) {ks : List ν} :
    ∀ {d : Dict ν ℚ}, ks.Nodup → ∀ k, (award u ks d).get? k =
      (d.get? k).map fun v => if k ∈ ks then v + u else v := by
  induction ks with
  | nil => intro d _ k; simp [award]
  | cons j ks ih =>
    intro d hnd k
    obtain ⟨hj, hks⟩ := List.nodup_cons.mp hnd
    rw [award, List.foldl_cons]
    refine (ih hks k).trans ?_
    by_cases hk : k = j
    · subst hk
      rw [Dict.get?_adjust_self, Option.map_map]
      simp [Function.comp_def, hj]
    · rw [Dict.get?_adjust_of_ne d hk]
      simp [hk]

theorem foldl_adjust_eq_award {u : ℚ} {g : ℚ → ℚ} {ks : List ν} :
    ∀ {d : Dict ν ℚ}, ks.Nodup → (∀ k ∈ ks, ∀ v, d.get? k = some v → g v = v + u) →
      ks.foldl (fun d k => d.adjust k g) d = award u ks d := by
  induction ks with
  | nil => intro d _ _; rfl
  | cons j ks ih =>
    intro d hnd h
    obtain ⟨hj, hks⟩ := List.nodup_cons.mp hnd
    have hstep : d.adjust j g = d.adjust j (· + u) := by
      refine Dict.ext (List.map_congr_left fun e he => ?_)
      dsimp only
      by_cases hk : e.1 = j
      · rw [if_pos hk, if_pos hk, h j List.mem_cons_self e.2]
        rw [← hk]
        exact Dict.get?_eq_some.mpr he
      · rw [if_neg hk, if_neg hk]
    rw [List.foldl_cons, hstep, award, List.foldl_cons]
    refine ih hks fun k hk v hv => h k (List.mem_cons_of_mem j hk) v ?_
    have hne : k ≠ j := fun he => hj (he ▸ hk)
    rwa [Dict.get?_adjust_of_ne d hne] at hv

theorem whole_award {u : ℚ} {ks : List ν} :
    ∀ {d : Dict ν ℚ}, (∀ v ∈ d.values, Whole u v) → ∀ v ∈ (award u ks d).values, Whole u v := by
  induction ks with
  | nil => intro d h; exact h
  | cons k ks ih =>
    intro d h
    refine ih fun v hv => ?_
    change v ∈ (d.mapVals fun j w => if j = k then w + u else w).values at hv
    rw [Dict.values_mapVals] at hv
    obtain ⟨e, he, rfl⟩ := List.mem_map.mp hv
    have hw := h e.2 (List.mem_map.mpr ⟨e, he, rfl⟩)
    split
    · exact hw.add (whole_self u)
    · exact hw

end Apportion
