import Finops.Base.Significant
import Finops.Attribution.Fair

/-!
# Splits in 28 digits

The product and the quotient of a computed share are both rounded to 28 digits, so it
is off by a few parts in `10 ^ 28` (`abs_share_sub_le`).  Where the weights are added up
exactly (`Weighable`) and none is worth minus three steps or less, all shares together miss
the amount by far less than a step (`abs_sum_computedShares_sub_lt`).  Everything
else is done on whole steps of at most 28 digits, and exactly (`stepsExact_decimal`).
So the split by weights that are not negative comes out and sums to the amount
(`splitAmount_decimal`).
-/

namespace Finops

open Numerics Apportion

def Steps (n : ℕ) (v : ℚ) : Prop := ∃ k : ℕ, k < n ∧ v = k * STEP.value

/-- Weights that 28 digits add up exactly: multiples of one power of ten that come to
fewer than `10 ^ 28` of it, whatever their signs. -/
structure Weighable (weights : Dict String ℚ) : Prop where
  few : weights.keys.length ≤ 10 ^ 9
  digits : ∃ e : ℤ, |e| ≤ 1000 ∧ (∀ w ∈ weights.values, ∃ k : ℤ, w = k * (10 : ℚ) ^ e) ∧
    (weights.values.map abs).sum < (10 : ℚ) ^ (e + 28)

variable {flt str : ℚ → ℚ} {amount : ℚ} {weights shares : Dict String ℚ}

theorem Steps.whole {n : ℕ} {v : ℚ} (h : Steps n v) : Whole STEP.value v := by
  obtain ⟨k, _, hk⟩ := h
  exact ⟨k, hk⟩

theorem Steps.lt {n : ℕ} {v : ℚ} (h : Steps n v) : v < n * STEP.value := by
  obtain ⟨k, hk, rfl⟩ := h
  exact mul_lt_mul_of_pos_right (by exact_mod_cast hk) (value_pos rfl)

theorem step_eq : STEP.value = 1 / 10 ^ 8 := by norm_num [STEP, Literal.value]

theorem length_values (d : Dict String ℚ) : d.values.length = d.keys.length := by
  rw [Dict.values, Dict.keys, List.length_map, List.length_map]

/-! ### One share -/

def decimalShare (flt str : ℚ → ℚ) (amount total w : ℚ) : ℚ :=
  (Arith.decimal flt str).dec ((Arith.decimal flt str).dec (amount * w) / total)

/-- **How far off a computed share is**: two roundings. -/
theorem abs_share_sub_le {total : ℚ} (ht : 0 < total) (w : ℚ) :
    |decimalShare flt str amount total w - amount * w / total| ≤
      1 / 10 ^ 26 * |amount * w / total| := by
  have hprod := abs_decimal_sub_le flt str (amount * w)
  have hquot := abs_decimal_sub_le flt str
    ((Arith.decimal flt str).dec (amount * w) / total)
  have hdiv : |(Arith.decimal flt str).dec (amount * w) / total - amount * w / total| ≤
      5 / 10 ^ 28 * |amount * w / total| := by
    rw [← sub_div, abs_div, abs_div, abs_of_pos ht, ← mul_div_assoc]
    exact div_le_div_of_nonneg_right hprod ht.le
  have hboth := abs_sub_le_of_rounded (by norm_num) hdiv hquot
  refine hboth.trans (mul_le_mul_of_nonneg_right ?_ (abs_nonneg _))
  norm_num

theorem share_nonneg {total w : ℚ} (ha : 0 ≤ amount) (hw : 0 ≤ w) (ht : 0 < total) :
    0 ≤ decimalShare flt str amount total w := by
  refine roundSig_nonneg (by decide) 28 (div_nonneg ?_ ht.le)
  exact roundSig_nonneg (by decide) 28 (mul_nonneg ha hw)

/-! ### Whole steps -/

theorem whole_toExp_down {c : ℚ} (hc : 0 ≤ c) : Whole STEP.value (toExp down STEP.exp c) := by
  rw [toExp_down rfl hc]
  exact whole_floorTo (value_pos rfl) hc

theorem abs_toExp_down_le (e : ℤ) (v : ℚ) : |toExp down e v| ≤ |v| := by
  have hu : (0 : ℚ) < (10 : ℚ) ^ e := by positivity
  have hdown : ∀ x : ℚ, |(down x : ℚ)| ≤ |x| := by
    intro x
    unfold down
    split
    · rename_i hx
      have hfloor : (0 : ℚ) ≤ ⌊x⌋ := Int.cast_nonneg (Int.floor_nonneg.mpr hx)
      rw [abs_of_nonneg hx, abs_of_nonneg hfloor]
      exact Int.floor_le x
    · rename_i hx
      have hceil : ((⌈x⌉ : ℤ) : ℚ) ≤ 0 := by
        exact_mod_cast Int.ceil_le.mpr (by exact_mod_cast (not_le.mp hx).le)
      rw [abs_of_neg (not_le.mp hx), abs_of_nonpos hceil]
      exact neg_le_neg (Int.le_ceil x)
  calc |toExp down e v| = |(down (v / (10 : ℚ) ^ e) : ℚ)| * (10 : ℚ) ^ e := by
        rw [toExp, abs_mul, abs_of_pos hu]
    _ ≤ |v / (10 : ℚ) ^ e| * (10 : ℚ) ^ e := mul_le_mul_of_nonneg_right (hdown _) hu.le
    _ = |v| := by rw [abs_div, abs_of_pos hu, div_mul_cancel₀ _ hu.ne']

theorem decimal_of_steps {k : ℤ} (h : |(k : ℚ) * STEP.value| < 10 ^ 20) :
    (Arith.decimal flt str).dec (k * STEP.value) = k * STEP.value := by
  have hexp : STEP.exp + 28 = ((20 : ℕ) : ℤ) := rfl
  refine decimal_of_multiple (e := STEP.exp) (by rw [STEP_value]) ?_
  rw [hexp, zpow_natCast]
  exact h

theorem RoundedNear.whole {computed : Dict String ℚ} (h : RoundedNear STEP computed shares)
    (hc : ∀ c ∈ computed.values, 0 ≤ c) {v : ℚ} (hv : v ∈ shares.values) :
    Whole STEP.value v := by
  obtain ⟨e, he, rfl⟩ := List.mem_map.mp hv
  have hget := Dict.get?_eq_some.mpr he
  obtain ⟨c, hname⟩ : ∃ c, computed.get? e.1 = some c := by
    rw [← Dict.mem_keys_iff, ← h.keys]
    exact Dict.mem_keys_iff.mpr ⟨_, hget⟩
  have hfloor := whole_toExp_down (hc c (mem_values hname))
  rcases h.near e.1 c hname with hv | ⟨_, hv⟩
  · rw [hget] at hv
    exact Option.some.inj hv ▸ hfloor
  · rw [hget] at hv
    exact Option.some.inj hv ▸ hfloor.add (whole_self STEP.value)

/-! ### All shares -/

theorem Weighable.decimal_sum (hw : Weighable weights) (flt str : ℚ → ℚ) :
    (Arith.decimal flt str).sum weights.values = weights.values.sum := by
  obtain ⟨e, _, hmultiple, hlt⟩ := hw.digits
  exact Numerics.decimal_sum hmultiple hlt

section Split

variable (flt str) (hamount : Steps (10 ^ 18) amount) (hw : Weighable weights)
  (htotal : 0 < weights.values.sum)
  (hlow : ∀ w ∈ weights.values, -(3 * STEP.value * weights.values.sum) < amount * w)

include hamount hw htotal hlow

theorem sum_abs_exactShares_le :
    (weights.values.map fun w => |amount * w / weights.values.sum|).sum ≤ 10 ^ 11 := by
  have hone : ∀ w ∈ weights.values, |amount * w / weights.values.sum| ≤
      amount * w / weights.values.sum + 6 * STEP.value := by
    intro w hmem
    have hx : -(3 * STEP.value) < amount * w / weights.values.sum := by
      rw [lt_div_iff₀ htotal]
      linarith [hlow w hmem]
    have hpos : 0 < STEP.value := value_pos rfl
    rw [abs_le]
    constructor <;> linarith
  have hall := List.sum_le_sum hone
  have hconst : (weights.values.map fun _ => 6 * STEP.value).sum =
      weights.values.length * (6 * STEP.value) := by
    rw [List.map_const', List.sum_replicate, nsmul_eq_mul]
  have hexact := sum_exactShares amount htotal
  rw [values_exactShares] at hexact
  rw [List.sum_map_add, hexact, hconst] at hall
  have hlen : (weights.values.length : ℚ) ≤ 1000000000 := by
    rw [length_values]
    exact_mod_cast hw.few
  have hlt := hamount.lt
  rw [step_eq] at hlt hall
  norm_num at hlt hall ⊢
  linarith

theorem sum_abs_computedShares_le :
    ((computedShares (.decimal flt str) amount weights).values.map abs).sum ≤ 10 ^ 12 := by
  have hone : ∀ w ∈ weights.values, |decimalShare flt str amount weights.values.sum w| ≤
      2 * |amount * w / weights.values.sum| := by
    intro w _
    have herr := @abs_share_sub_le flt str amount _ htotal w
    have habs := abs_sub_abs_le_abs_sub (decimalShare flt str amount weights.values.sum w)
      (amount * w / weights.values.sum)
    have hnn := abs_nonneg (amount * w / weights.values.sum)
    linarith
  have hall := List.sum_le_sum hone
  rw [List.sum_map_mul_left] at hall
  rw [values_computedShares, hw.decimal_sum, List.map_map]
  have hexact := sum_abs_exactShares_le hamount hw htotal hlow
  refine hall.trans ?_
  norm_num at hexact ⊢
  linarith

theorem abs_computedShare_le {c : ℚ}
    (hc : c ∈ (computedShares (.decimal flt str) amount weights).values) : |c| ≤ 10 ^ 12 := by
  refine le_trans ?_ (sum_abs_computedShares_le flt str hamount hw htotal hlow)
  refine List.single_le_sum (fun a ha => ?_) _ (List.mem_map_of_mem hc)
  obtain ⟨v, _, rfl⟩ := List.mem_map.mp ha
  exact abs_nonneg v

/-- **All shares together** miss the amount by less than a step. -/
theorem abs_sum_computedShares_sub_lt :
    |(computedShares (.decimal flt str) amount weights).values.sum - amount| < STEP.value := by
  have hsum := sum_exactShares amount htotal
  rw [values_exactShares] at hsum
  have herr := abs_sum_map_sub_le (f := decimalShare flt str amount weights.values.sum)
    (g := fun w => amount * w / weights.values.sum) (l := weights.values)
    fun w _ => @abs_share_sub_le flt str amount _ htotal w
  have hexact := sum_abs_exactShares_le hamount hw htotal hlow
  rw [hsum] at herr
  rw [values_computedShares, hw.decimal_sum]
  refine herr.trans_lt ?_
  rw [step_eq]
  norm_num at hexact ⊢
  linarith

theorem sum_abs_roundedShares_le :
    ((roundedShares (.decimal flt str) amount weights STEP).values.map abs).sum ≤ 10 ^ 12 := by
  rw [values_roundedShares, List.map_map]
  exact (List.sum_le_sum fun c _ => abs_toExp_down_le STEP.exp c).trans
    (sum_abs_computedShares_le flt str hamount hw htotal hlow)

theorem decimal_sum_roundedShares : (Arith.decimal flt str).sum
    (roundedShares (.decimal flt str) amount weights STEP).values =
      (roundedShares (.decimal flt str) amount weights STEP).values.sum := by
  have hexp : STEP.exp + 28 = ((20 : ℕ) : ℤ) := rfl
  refine decimal_sum (e := STEP.exp) (fun v hv => ?_) ?_
  · rw [values_roundedShares] at hv
    obtain ⟨c, _, rfl⟩ := List.mem_map.mp hv
    exact ⟨down (c / (10 : ℚ) ^ STEP.exp), rfl⟩
  · rw [hexp, zpow_natCast]
    refine (sum_abs_roundedShares_le flt str hamount hw htotal hlow).trans_lt ?_
    norm_num

/-- **28 digits handle whole steps exactly.** -/
theorem stepsExact_decimal : StepsExact (.decimal flt str) amount weights STEP := by
  have hpos : 0 < STEP.value := value_pos rfl
  obtain ⟨k, hk⟩ := @exists_sub_sum_roundedShares (.decimal flt str) amount weights STEP rfl
    hamount.whole
  have hsum := decimal_sum_roundedShares flt str hamount hw htotal hlow
  refine ⟨hpos, abs_sum_computedShares_sub_lt flt str hamount hw htotal hlow, ?_, ⟨k, hk⟩, ?_,
    ?_, ?_⟩
  · intro c _
    rw [STEP_value]
    exact lt_toExp_down_add STEP.exp c
  · have hsmall : |(k : ℚ) * STEP.value| < 10 ^ 13 := by
      have habs := List.le_sum_of_subadditive abs abs_zero.le abs_add_le
        (roundedShares (.decimal flt str) amount weights STEP).values
      have hle := sum_abs_roundedShares_le flt str hamount hw htotal hlow
      have hnn := hamount.whole.nonneg hpos
      have hlt := hamount.lt
      have hsub := abs_sub amount (roundedShares (.decimal flt str) amount weights STEP).values.sum
      rw [abs_of_nonneg hnn, hk] at hsub
      rw [step_eq] at hlt
      norm_num at hlt hle
      refine hsub.trans_lt ?_
      norm_num
      linarith
    have hdigits : |(k : ℚ)| < 10 ^ (0 + 28 : ℤ) := by
      rw [abs_mul, abs_of_pos hpos, step_eq] at hsmall
      norm_num at hsmall ⊢
      linarith
    rw [hsum, hk, decimal_of_steps (hsmall.trans (by norm_num)), mul_div_assoc,
      div_self hpos.ne', mul_one]
    exact decimal_of_multiple (e := 0) (by rw [zpow_zero, mul_one]) hdigits
  · intro c hc
    have hle := (abs_toExp_down_le STEP.exp c).trans
      (abs_computedShare_le flt str hamount hw htotal hlow hc)
    have habs := abs_add_le (toExp down STEP.exp c) STEP.value
    have hstep : toExp down STEP.exp c + STEP.value =
        ((down (c / (10 : ℚ) ^ STEP.exp) + 1 : ℤ) : ℚ) * STEP.value := by
      rw [toExp, ← STEP_value]
      push_cast
      ring
    rw [hstep] at habs ⊢
    refine decimal_of_steps (habs.trans_lt ?_)
    rw [abs_of_pos hpos, step_eq]
    norm_num at hle ⊢
    linarith
  · intro c _
    rw [decimal_dec, roundSig_neg_iff (by decide) (by decide), neg_lt_zero,
      roundSig_pos_iff (by decide) (by decide), sub_pos]

/-- **The split comes out.** -/
theorem exists_splitAmount_decimal :
    ∃ shares, splitAmount (.decimal flt str) amount weights STEP = .ok shares := by
  refine ⟨_, splitAmount_eq_ok.mpr ⟨hamount.whole.nonneg (value_pos rfl), keys_ne_nil htotal, ?_,
    fun c hc => ?_, rfl⟩⟩
  · rw [hw.decimal_sum]
    exact htotal
  · have hle := abs_computedShare_le flt str hamount hw htotal hlow hc
    have hexp : (28 : ℤ) + STEP.exp = ((20 : ℕ) : ℤ) := rfl
    rw [decimal_fits, hexp, zpow_natCast]
    refine hle.trans_lt ?_
    norm_num

end Split

/-! ### Weights that are not negative -/

theorem low_of_nonneg (hamount : Steps (10 ^ 18) amount) (hw : ∀ w ∈ weights.values, 0 ≤ w)
    (htotal : 0 < weights.values.sum) :
    ∀ w ∈ weights.values, -(3 * STEP.value * weights.values.sum) < amount * w := by
  intro w hmem
  have hpos : 0 < STEP.value := value_pos rfl
  have haw := mul_nonneg (hamount.whole.nonneg hpos) (hw w hmem)
  have hright : 0 < 3 * STEP.value * weights.values.sum := by positivity
  linarith

theorem computedShare_nonneg (hamount : Steps (10 ^ 18) amount) (hw : Weighable weights)
    (hnn : ∀ w ∈ weights.values, 0 ≤ w) (htotal : 0 < weights.values.sum) {c : ℚ}
    (hc : c ∈ (computedShares (.decimal flt str) amount weights).values) : 0 ≤ c := by
  rw [values_computedShares, hw.decimal_sum] at hc
  obtain ⟨w, hmem, rfl⟩ := List.mem_map.mp hc
  exact share_nonneg (hamount.whole.nonneg (value_pos rfl)) (hnn w hmem) htotal

theorem sum_roundedShares_decimal_le (flt str : ℚ → ℚ) (hamount : Steps (10 ^ 18) amount)
    (hw : Weighable weights) (hnn : ∀ w ∈ weights.values, 0 ≤ w)
    (htotal : 0 < weights.values.sum) :
    (roundedShares (.decimal flt str) amount weights STEP).values.sum ≤ amount := by
  have hpos : 0 < STEP.value := value_pos rfl
  have hc : ∀ c ∈ (computedShares (.decimal flt str) amount weights).values, 0 ≤ c :=
    fun c hc => computedShare_nonneg hamount hw hnn htotal hc
  have h := stepsExact_decimal flt str hamount hw htotal (low_of_nonneg hamount hnn htotal)
  have hle : (roundedShares (.decimal flt str) amount weights STEP).values.sum ≤
      (computedShares (.decimal flt str) amount weights).values.sum := by
    rw [values_roundedShares, List.map_congr_left fun c hmem => toExp_down rfl (hc c hmem)]
    exact sum_floorTo_le hpos _
  obtain ⟨k, hk⟩ := h.whole
  have hnear := (abs_lt.mp h.near).2
  have hlow : (-1 : ℚ) * STEP.value < k * STEP.value := by linarith
  have hk0 : (-1 : ℤ) < k := by exact_mod_cast lt_of_mul_lt_mul_right hlow hpos.le
  have hnonneg : 0 ≤ (k : ℚ) * STEP.value :=
    mul_nonneg (Int.cast_nonneg (Int.le_of_lt_add_one (by omega))) hpos.le
  linarith

theorem weighable_of_steps (hlen : weights.keys.length ≤ 1000)
    (hw : ∀ w ∈ weights.values, Steps (10 ^ 18) w) : Weighable weights := by
  have hpos : 0 < STEP.value := value_pos rfl
  refine ⟨hlen.trans (by decide), STEP.exp, by decide, fun w hmem => ?_, ?_⟩
  · obtain ⟨k, _, rfl⟩ := hw w hmem
    exact ⟨k, by rw [STEP_value, Int.cast_natCast]⟩
  · have hle : ∀ v ∈ weights.values.map abs, v ≤ 10 ^ 10 := by
      intro v hv
      obtain ⟨w, hmem, rfl⟩ := List.mem_map.mp hv
      have hlt := (hw w hmem).lt
      rw [step_eq] at hlt
      rw [abs_of_nonneg ((hw w hmem).whole.nonneg hpos)]
      norm_num at hlt ⊢
      exact hlt.le
    have hsum := List.sum_le_card_nsmul _ _ hle
    have hlen' : (weights.values.length : ℚ) ≤ 1000 := by
      rw [length_values]
      exact_mod_cast hlen
    have hexp : STEP.exp + 28 = ((20 : ℕ) : ℤ) := rfl
    rw [nsmul_eq_mul, List.length_map] at hsum
    rw [hexp, zpow_natCast]
    refine hsum.trans_lt ?_
    norm_num
    linarith

/-- **Splits in 28 digits**: they come out, in whole steps that sum to the amount, and
a weight of zero gets nothing. -/
theorem splitAmount_decimal (flt str : ℚ → ℚ) (hamount : Steps (10 ^ 18) amount)
    (hlen : weights.keys.length ≤ 1000) (hw : ∀ w ∈ weights.values, Steps (10 ^ 18) w)
    (htotal : 0 < weights.values.sum) :
    ∃ shares, splitAmount (.decimal flt str) amount weights STEP = .ok shares ∧
      shares.keys = weights.keys ∧ (∀ v ∈ shares.values, Whole STEP.value v) ∧
      shares.values.sum = amount ∧
      ∀ name, weights.get? name = some 0 → shares.get? name = some 0 := by
  have hnn := fun w hmem => (hw w hmem).whole.nonneg (value_pos rfl)
  have hweigh := weighable_of_steps hlen hw
  have hlow := low_of_nonneg hamount hnn htotal
  have h := stepsExact_decimal flt str hamount hweigh htotal hlow
  obtain ⟨shares, hs⟩ := exists_splitAmount_decimal flt str hamount hweigh htotal hlow
  have hnear := h.roundedNear hs
  have hkeys : shares.keys = weights.keys := by rw [hnear.keys, keys_computedShares]
  refine ⟨shares, hs, hkeys,
    fun v hv => hnear.whole (fun c hc => computedShare_nonneg hamount hweigh hnn htotal hc) hv,
    (h.sum_eq_iff hs).mpr (sum_roundedShares_decimal_le flt str hamount hweigh hnn htotal),
    fun name hname => hnear.get?_eq_zero ?_⟩
  rw [get?_computedShares, hname, Option.map_some, mul_zero, decimal_dec, roundSig_zero,
    zero_div, roundSig_zero]

/-! Ten dollars in three. -/

theorem splitAmount_decimal_thirds :
    ∃ shares, splitAmount (.decimal id id) 10
        (evenWeights ["search", "support-bot", "research"]) STEP = .ok shares ∧
      shares.keys = (evenWeights ["search", "support-bot", "research"]).keys ∧
      (∀ v ∈ shares.values, Whole STEP.value v) ∧ shares.values.sum = 10 ∧
      ∀ name, (evenWeights ["search", "support-bot", "research"]).get? name = some 0 →
        shares.get? name = some 0 := by
  refine splitAmount_decimal id id ⟨1000000000, by norm_num, by norm_num [step_eq]⟩
    (by decide) ?_ (by decide +kernel)
  exact values_ofKeys_forall fun _ _ => ⟨100000000, by norm_num, by norm_num [step_eq]⟩

end Finops
