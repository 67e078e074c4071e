import Finops.Attribution.Remainders
import Mathlib.Tactic.NormNum

/-!
# Fair splits

In exact arithmetic the computed shares are `amount * w / W` and sum to the amount,
so `RoundedNear` says how close each share is to them.  What the ranking adds is
that a larger weight never gets less (`le_of_weight_lt`).  The result does not depend
on the order of the weights (`splitAmount_congr`) nor on their scale
(`splitAmount_scale`).

`quantize` looks at the exponent of the step only.  A step with another coefficient
than 1 is kept to where rounding to its exponent happens to give multiples of it, and
`splitsFairly_iff` says that this is all that can go wrong.
-/

namespace Finops

open Numerics Apportion

variable {amount : ℚ} {weights shares : Dict String ℚ} {step : Literal}

structure FairSplit (amount : ℚ) (weights : Dict String ℚ) (step : ℚ) (shares : Dict String ℚ) :
    Prop where
  keys : shares.keys = weights.keys
  whole : ∀ v ∈ shares.values, Whole step v
  sum : shares.values.sum = amount
  near : ∀ name w v, weights.get? name = some w → shares.get? name = some v →
    (v = floorTo step (amount * w / weights.values.sum) ∨
      v = floorTo step (amount * w / weights.values.sum) + step) ∧
      |v - amount * w / weights.values.sum| < step
  zero : ∀ name, weights.get? name = some 0 → shares.get? name = some 0
  mono : ∀ a b wa wb va vb, weights.get? a = some wa → weights.get? b = some wb → wa < wb →
    shares.get? a = some va → shares.get? b = some vb → va ≤ vb

/-- Rounding `v` down to the exponent of the step gives a multiple of the step. -/
def RoundsToStep (step : Literal) (v : ℚ) : Prop := step.coeff ∣ ⌊v / (10 : ℚ) ^ step.exp⌋

/-! ### Rounding down to the exponent -/

theorem coeff_pos (hs : 0 < step.value) : 0 < step.coeff := by
  have hu : (0 : ℚ) < (10 : ℚ) ^ step.exp := by positivity
  exact_mod_cast (mul_pos_iff_of_pos_right hu).mp hs

theorem pow_exp_le_value (hs : 0 < step.value) : (10 : ℚ) ^ step.exp ≤ step.value := by
  have hu : (0 : ℚ) < (10 : ℚ) ^ step.exp := by positivity
  have hc : (1 : ℚ) ≤ step.coeff := by exact_mod_cast coeff_pos hs
  rw [Literal.value]
  nlinarith

theorem toExp_down_le (e : ℤ) {v : ℚ} (hv : 0 ≤ v) : toExp down e v ≤ v := by
  have hu : (0 : ℚ) < (10 : ℚ) ^ e := by positivity
  rw [toExp, down_of_nonneg (div_nonneg hv hu.le)]
  exact floorTo_le hu v

theorem lt_toExp_down_add (e : ℤ) (v : ℚ) : v < toExp down e v + (10 : ℚ) ^ e := by
  have hu : (0 : ℚ) < (10 : ℚ) ^ e := by positivity
  unfold toExp down
  split
  · exact lt_floorTo_add hu v
  · have hceil := Int.le_ceil (v / (10 : ℚ) ^ e)
    rw [div_le_iff₀ hu] at hceil
    linarith

theorem floorTo_eq {u v x : ℚ} (hu : 0 < u) {k : ℤ} (hx : x = k * u) (hle : x ≤ v)
    (hlt : v < x + u) : floorTo u v = x := by
  have hk : ⌊v / u⌋ = k := by
    rw [Int.floor_eq_iff, le_div_iff₀ hu, div_lt_iff₀ hu]
    constructor <;> linarith
  rw [floorTo, hk, hx]

theorem roundsToStep_iff (hs : 0 < step.value) {v : ℚ} (hv : 0 ≤ v) :
    RoundsToStep step v ↔ toExp down step.exp v = floorTo step.value v := by
  have hu : (0 : ℚ) < (10 : ℚ) ^ step.exp := by positivity
  have hdown : toExp down step.exp v = ⌊v / (10 : ℚ) ^ step.exp⌋ * (10 : ℚ) ^ step.exp := by
    rw [toExp, down_of_nonneg (div_nonneg hv hu.le)]
  constructor
  · rintro ⟨k, hk⟩
    have hstep := pow_exp_le_value hs
    have hlt := lt_toExp_down_add step.exp v
    refine (floorTo_eq hs (k := k) ?_ (toExp_down_le step.exp hv) (by linarith)).symm
    rw [hdown, hk, Literal.value]
    push_cast
    ring
  · intro h
    rw [hdown, floorTo, Literal.value, ← mul_assoc] at h
    have hk := mul_right_cancel₀ hu.ne' h
    exact ⟨⌊v / (step.coeff * (10 : ℚ) ^ step.exp)⌋, by rw [mul_comm]; exact_mod_cast hk⟩

theorem roundsToStep_of_coeff_one (h : step.coeff = 1) (v : ℚ) : RoundsToStep step v := by
  rw [RoundsToStep, h]
  exact one_dvd _

/-! ### Exact shares -/

theorem computedShares_exact (amount : ℚ) (weights : Dict String ℚ) :
    computedShares .exact amount weights = exactShares amount weights := by
  rw [computedShares, exact_sum]; rfl

theorem get?_exactShares (amount : ℚ) (weights : Dict String ℚ) (name : String) :
    (exactShares amount weights).get? name =
      (weights.get? name).map fun w => amount * w / weights.values.sum := Dict.get?_mapVals _ _ _

theorem stepsExact_exact (hs : 0 < step.value) (htotal : 0 < weights.values.sum)
    (hwhole : ∃ k : ℤ, amount - (roundedShares .exact amount weights step).values.sum =
      k * step.value) : StepsExact .exact amount weights step := by
  have hstep := pow_exp_le_value hs
  refine ⟨hs, ?_, fun c _ => ?_, hwhole, ?_, fun c _ => exact_dec _, fun c _ => ?_⟩
  · rw [computedShares_exact, sum_exactShares amount htotal, sub_self, abs_zero]
    exact hs
  · exact (lt_toExp_down_add step.exp c).trans_le (by linarith)
  · rw [exact_dec, exact_dec, exact_sum]
  · rw [exact_dec, exact_dec, neg_lt_zero, sub_pos]

theorem splitAmount_exact_eq_ok : splitAmount .exact amount weights step = .ok shares ↔
    0 ≤ amount ∧ weights.keys ≠ [] ∧ 0 < weights.values.sum ∧
      shares = award step.value (awarded .exact amount weights step)
        (roundedShares .exact amount weights step) := by
  rw [splitAmount_eq_ok, exact_sum]
  have hfits : ∀ v ∈ (computedShares .exact amount weights).values,
      Arith.exact.fits step.exp v = true := fun _ _ => rfl
  rw [and_iff_right hfits]
  rfl

theorem keys_ne_nil (htotal : 0 < weights.values.sum) : weights.keys ≠ [] := by
  intro h
  have he : weights.entries = [] := List.map_eq_nil_iff.mp h
  rw [Dict.values, he] at htotal
  exact absurd htotal (lt_irrefl 0)

theorem exists_splitAmount_eq_ok (hamount : 0 ≤ amount) (htotal : 0 < weights.values.sum)
    (step : Literal) : ∃ shares, splitAmount .exact amount weights step = .ok shares :=
  ⟨_, splitAmount_exact_eq_ok.mpr ⟨hamount, keys_ne_nil htotal, htotal, rfl⟩⟩

theorem sum_roundedShares_le (hamount : 0 ≤ amount) (hw : ∀ w ∈ weights.values, 0 ≤ w)
    (htotal : 0 < weights.values.sum) (step : Literal) :
    (roundedShares .exact amount weights step).values.sum ≤ amount := by
  have hle : ∀ l : List ℚ, (∀ c ∈ l, 0 ≤ c) → (l.map (toExp down step.exp)).sum ≤ l.sum := by
    intro l
    induction l with
    | nil => intro _; exact le_refl _
    | cons c l ih =>
      intro h
      rw [List.map_cons, List.sum_cons, List.sum_cons]
      exact add_le_add (toExp_down_le step.exp (h c List.mem_cons_self))
        (ih fun c' hc' => h c' (List.mem_cons_of_mem c hc'))
  have hsum := sum_exactShares amount htotal
  rw [values_roundedShares, computedShares_exact]
  exact (hle _ (exactShares_nonneg hamount hw htotal)).trans_eq hsum

/-- **Under weights of any sign**, the shares sum to the amount exactly when rounding
down gives no more than it. -/
theorem sum_splitAmount_iff (hs : step.coeff = 1) (hamount : Whole step.value amount)
    (h : splitAmount .exact amount weights step = .ok shares) :
    shares.values.sum = amount ↔
      (roundedShares .exact amount weights step).values.sum ≤ amount := by
  obtain ⟨_, _, htotal, _⟩ := splitAmount_exact_eq_ok.mp h
  exact (stepsExact_exact (value_pos hs) htotal
    (exists_sub_sum_roundedShares hs hamount)).sum_eq_iff h

theorem hasScale_splitAmount (h : splitAmount .exact amount weights STEP = .ok shares) :
    ∀ v ∈ shares.values, HasScale CostRecord.moneyScale v := by
  have hstep : STEP.value = (10 : ℚ) ^ (-CostRecord.moneyScale) := STEP_value
  intro v hv
  obtain ⟨e, he, rfl⟩ := List.mem_map.mp hv
  have hkey : e.1 ∈ (computedShares .exact amount weights).keys := by
    rw [keys_computedShares, ← splitAmount_keys h]
    exact List.mem_map_of_mem he
  obtain ⟨c, hc⟩ := Dict.mem_keys_iff.mp hkey
  have hround : HasScale CostRecord.moneyScale (toExp down STEP.exp c) :=
    hasScale_toExp down CostRecord.moneyScale c
  rcases splitAmount_cases h hc with hv | hv
  · rw [Dict.get?_eq_some.mpr he] at hv
    rw [Option.some.inj hv]
    exact hround
  · rw [Dict.get?_eq_some.mpr he] at hv
    obtain ⟨k, hk⟩ := hround
    rw [Option.some.inj hv, exact_dec, hk, hstep]
    exact ⟨k + 1, by push_cast; ring⟩

/-! ### What a fair split is made of -/

section Fair

variable (hs : 0 < step.value) (hamount : Whole step.value amount)
  (hw : ∀ w ∈ weights.values, 0 ≤ w) (htotal : 0 < weights.values.sum)
  (hround : ∀ w ∈ weights.values, RoundsToStep step (amount * w / weights.values.sum))

include hs hamount hw htotal hround

/-- Where the weights are not negative and the rounded shares are whole, each share is
rounded down to a step. -/
theorem get?_rounded_of_whole {name : String} {w : ℚ} (h : weights.get? name = some w) :
    0 ≤ amount * w / weights.values.sum ∧
      (computedShares .exact amount weights).get? name =
        some (amount * w / weights.values.sum) ∧
      toExp down step.exp (amount * w / weights.values.sum) =
        floorTo step.value (amount * w / weights.values.sum) := by
  have hmem := mem_values h
  have hc : 0 ≤ amount * w / weights.values.sum :=
    div_nonneg (mul_nonneg (hamount.nonneg hs) (hw w hmem)) htotal.le
  refine ⟨hc, ?_, (roundsToStep_iff hs hc).mp (hround w hmem)⟩
  rw [computedShares_exact, get?_exactShares, h, Option.map_some]

theorem whole_roundedShares :
    ∀ v ∈ (roundedShares .exact amount weights step).values, Whole step.value v := by
  intro v hv
  rw [values_roundedShares, computedShares_exact, values_exactShares, List.map_map] at hv
  obtain ⟨w, hmem, rfl⟩ := List.mem_map.mp hv
  obtain ⟨e, he, rfl⟩ := List.mem_map.mp hmem
  obtain ⟨hc, _, hfloor⟩ := get?_rounded_of_whole hs hamount hw htotal hround
    (Dict.get?_eq_some.mpr he)
  rw [Function.comp, hfloor]
  exact whole_floorTo hs hc

theorem stepsExact_of_whole : StepsExact .exact amount weights step := by
  refine stepsExact_exact hs htotal ?_
  obtain ⟨a, ha⟩ := hamount
  obtain ⟨b, hb⟩ : Whole step.value (roundedShares .exact amount weights step).values.sum :=
    Whole.sum (whole_roundedShares hs ⟨a, ha⟩ hw htotal hround)
  refine ⟨a - b, ?_⟩
  rw [hb, ha]
  push_cast
  ring

/-- Of two shares that round down to the same, the one of a larger weight gets a step
where the other does. -/
theorem awarded_of_weight_lt {a b : String} {wa wb : ℚ} (ha : weights.get? a = some wa)
    (hb : weights.get? b = some wb) (hlt : wa < wb)
    (hfloor : floorTo step.value (amount * wa / weights.values.sum) =
      floorTo step.value (amount * wb / weights.values.sum))
    (hna : a ∈ awarded .exact amount weights step) :
    b ∈ awarded .exact amount weights step := by
  have h := stepsExact_of_whole hs hamount hw htotal hround
  obtain ⟨_, hca, hfa⟩ := get?_rounded_of_whole hs hamount hw htotal hround ha
  obtain ⟨_, hcb, hfb⟩ := get?_rounded_of_whole hs hamount hw htotal hround hb
  by_contra hnb
  have hmem : b ∈ weights.keys := Dict.mem_keys_iff.mpr ⟨wb, hb⟩
  have hrank := ranksBefore_iff.mp (Batch.rel_of_notMem_firsts hna hmem hnb)
  rw [rankKey_eq hca, rankKey_eq hcb, hfa, hfb, hfloor] at hrank
  simp only [exact_dec] at hrank
  -- the ranks say that the larger weight computes to no more, so the amount is zero
  have hle : amount * wb / weights.values.sum ≤ amount * wa / weights.values.sum := by
    rcases hrank with hr | ⟨hr, _⟩ <;> linarith
  have hzero : amount = 0 := by
    by_contra hne
    have hpos := lt_of_le_of_ne (hamount.nonneg hs) (Ne.symm hne)
    have hmul : amount * wa < amount * wb := mul_lt_mul_of_pos_left hlt hpos
    exact absurd hle (not_le.mpr (div_lt_div_of_pos_right hmul htotal))
  have hfrac := h.lt_of_mem_awarded hca hna
  rw [hfa, hzero, zero_mul, zero_div, floorTo, zero_div, Int.floor_zero, Int.cast_zero,
    zero_mul] at hfrac
  exact lt_irrefl _ hfrac

variable (hshares : splitAmount .exact amount weights step = .ok shares)

include hshares

theorem le_of_weight_lt {a b : String} {wa wb va vb : ℚ}
    (ha : weights.get? a = some wa) (hb : weights.get? b = some wb) (hlt : wa < wb)
    (hva : shares.get? a = some va) (hvb : shares.get? b = some vb) : va ≤ vb := by
  have h := stepsExact_of_whole hs hamount hw htotal hround
  have haward := awarded_of_weight_lt hs hamount hw htotal hround ha hb hlt
  obtain ⟨_, hca, hfa⟩ := get?_rounded_of_whole hs hamount hw htotal hround ha
  obtain ⟨_, hcb, hfb⟩ := get?_rounded_of_whole hs hamount hw htotal hround hb
  rw [h.shares_eq hshares, get?_award step.value (nodup_awarded _ _ _ _), get?_roundedShares] at hva
  rw [h.shares_eq hshares, get?_award step.value (nodup_awarded _ _ _ _), get?_roundedShares] at hvb
  rw [hca, Option.map_some, Option.map_some, hfa, Option.some_inj] at hva
  rw [hcb, Option.map_some, Option.map_some, hfb, Option.some_inj] at hvb
  subst hva hvb
  have hle : amount * wa / weights.values.sum ≤ amount * wb / weights.values.sum := by
    have hnn := hamount.nonneg hs
    gcongr
  have hfloor := Int.floor_le_floor (div_le_div_of_nonneg_right hle hs.le)
  rcases hfloor.lt_or_eq with hf | hf
  · have hstep : floorTo step.value (amount * wa / weights.values.sum) + step.value ≤
        floorTo step.value (amount * wb / weights.values.sum) := by
      have hf : (⌊amount * wa / weights.values.sum / step.value⌋ + 1 : ℚ) ≤
          ⌊amount * wb / weights.values.sum / step.value⌋ := by exact_mod_cast hf
      rw [floorTo, floorTo]
      nlinarith
    split <;> split <;> linarith
  · have heq : floorTo step.value (amount * wa / weights.values.sum) =
        floorTo step.value (amount * wb / weights.values.sum) := by rw [floorTo, floorTo, hf]
    rw [heq]
    by_cases hna : a ∈ awarded .exact amount weights step
    · rw [if_pos hna, if_pos (haward heq hna)]
    · rw [if_neg hna]
      split <;> linarith

/-- **A split into whole steps is fair.** -/
theorem fairSplit : FairSplit amount weights step.value shares := by
  have h := stepsExact_of_whole hs hamount hw htotal hround
  have hrounded := @get?_rounded_of_whole amount weights step hs hamount hw htotal hround
  have hnear := h.roundedNear hshares
  have hshare : ∀ name w, weights.get? name = some w →
      shares.get? name = some (floorTo step.value (amount * w / weights.values.sum)) ∨
        (floorTo step.value (amount * w / weights.values.sum) < amount * w / weights.values.sum ∧
          shares.get? name =
            some (floorTo step.value (amount * w / weights.values.sum) + step.value)) := by
    intro name w hw
    obtain ⟨_, hc, hfloor⟩ := hrounded hw
    rw [← hfloor]
    exact hnear.near name _ hc
  have hsum := (h.sum_eq_iff hshares).mpr (sum_roundedShares_le (hamount.nonneg hs) hw htotal step)
  have hkeys := hnear.keys.trans (keys_computedShares .exact amount weights)
  refine ⟨hkeys, ?_, hsum, ?_, ?_, fun a b wa wb va vb ha hb hlt hva hvb =>
    le_of_weight_lt hs hamount hw htotal hround hshares ha hb hlt hva hvb⟩
  · rw [h.shares_eq hshares]
    exact whole_award (whole_roundedShares hs hamount hw htotal hround)
  · intro name w v hget hv
    have hle := floorTo_le hs (amount * w / weights.values.sum)
    have hlt := lt_floorTo_add hs (amount * w / weights.values.sum)
    rcases hshare name w hget with hv' | ⟨hfrac, hv'⟩
    · obtain rfl := Option.some.inj (hv.symm.trans hv')
      refine ⟨.inl rfl, ?_⟩
      rw [abs_lt]
      constructor <;> linarith
    · obtain rfl := Option.some.inj (hv.symm.trans hv')
      refine ⟨.inr rfl, ?_⟩
      rw [abs_lt]
      constructor <;> linarith
  · intro name hget
    refine hnear.get?_eq_zero ?_
    rw [computedShares_exact, get?_exactShares, hget, Option.map_some, mul_zero, zero_div]

end Fair

/-- **What a split returns.**  One share for each weight, every share a whole
number of steps, and all of them together the amount. -/
theorem split_spec (hs : step.coeff = 1) (hamount : Whole step.value amount)
    (hw : ∀ w ∈ weights.values, 0 ≤ w) (h : splitAmount .exact amount weights step = .ok shares) :
    shares.keys = weights.keys ∧ shares.values.sum = amount ∧
      ∀ v ∈ shares.values, Whole step.value v := by
  obtain ⟨_, _, htotal, _⟩ := splitAmount_exact_eq_ok.mp h
  have hfair := fairSplit (value_pos hs) hamount hw htotal
    (fun _ _ => roundsToStep_of_coeff_one hs _) h
  exact ⟨hfair.keys, hfair.sum, hfair.whole⟩

/-! ### Order and scale -/

/-- **The order of the weights does not matter.** -/
theorem splitAmount_congr {weights' : Dict String ℚ}
    (hperm : ∀ name, weights'.get? name = weights.get? name)
    (h : splitAmount .exact amount weights step = .ok shares) :
    ∃ shares', splitAmount .exact amount weights' step = .ok shares' ∧
      ∀ name, shares'.get? name = shares.get? name := by
  have hentries := Dict.entries_perm_iff.mpr hperm
  have hkeys : weights'.keys.Perm weights.keys := hentries.map Prod.fst
  have hvalues : weights'.values.sum = weights.values.sum := (hentries.map Prod.snd).sum_eq
  have hexact : ∀ name, (computedShares .exact amount weights').get? name =
      (computedShares .exact amount weights).get? name := by
    intro name
    rw [computedShares_exact, computedShares_exact, get?_exactShares, get?_exactShares, hperm,
      hvalues]
  have hrounded : ∀ name, (roundedShares .exact amount weights' step).get? name =
      (roundedShares .exact amount weights step).get? name := by
    intro name
    rw [get?_roundedShares, get?_roundedShares, hexact]
  have hsteps : leftoverSteps .exact amount weights' step =
      leftoverSteps .exact amount weights step := by
    have hsum : (roundedShares .exact amount weights' step).values.sum =
        (roundedShares .exact amount weights step).values.sum :=
      ((Dict.entries_perm_iff.mpr hrounded).map Prod.snd).sum_eq
    rw [leftoverSteps, leftoverSteps, exact_sum, exact_sum, hsum]
  have hawarded := awarded_congr hkeys hexact hsteps
  rw [splitAmount_exact_eq_ok] at h
  obtain ⟨hnn, hne, hpos, rfl⟩ := h
  refine ⟨_, splitAmount_exact_eq_ok.mpr ⟨hnn, ?_, hvalues ▸ hpos, rfl⟩, fun name => ?_⟩
  · intro hnil
    rw [hnil] at hkeys
    exact hne hkeys.nil_eq.symm
  · rw [get?_award _ (nodup_awarded _ _ _ _), get?_award _ (nodup_awarded _ _ _ _), hrounded,
      hawarded]

/-- **Nor does their scale.** -/
theorem splitAmount_scale {c : ℚ} (hc : 0 < c)
    (h : splitAmount .exact amount weights step = .ok shares) :
    splitAmount .exact amount (weights.mapVals fun _ w => c * w) step = .ok shares := by
  have hvalues : (weights.mapVals fun _ w => c * w).values = weights.values.map (c * ·) := by
    rw [Dict.values_mapVals, Dict.values, List.map_map]; rfl
  have hsum : (weights.mapVals fun _ w => c * w).values.sum = c * weights.values.sum := by
    rw [hvalues, List.sum_map_mul_left, List.map_id']
  have hexact : computedShares .exact amount (weights.mapVals fun _ w => c * w) =
      computedShares .exact amount weights := by
    rw [computedShares_exact, computedShares_exact, exactShares, exactShares, hsum]
    refine Dict.ext ?_
    simp only [Dict.entries_mapVals, List.map_map]
    refine List.map_congr_left fun e _ => ?_
    show (e.1, amount * (c * e.2) / (c * weights.values.sum)) = _
    rw [mul_left_comm, mul_div_mul_left _ _ hc.ne']
  have hrounded : roundedShares .exact amount (weights.mapVals fun _ w => c * w) step =
      roundedShares .exact amount weights step := by rw [roundedShares, roundedShares, hexact]
  have hsteps : leftoverSteps .exact amount (weights.mapVals fun _ w => c * w) step =
      leftoverSteps .exact amount weights step := by rw [leftoverSteps, leftoverSteps, hrounded]
  have hkeys : (weights.mapVals fun _ w => c * w).keys = weights.keys := Dict.keys_mapVals _ _
  obtain ⟨hnn, hne, hpos, hshares⟩ := splitAmount_exact_eq_ok.mp h
  refine splitAmount_exact_eq_ok.mpr ⟨hnn, hkeys ▸ hne, ?_, ?_⟩
  · rw [hsum]; exact mul_pos hc hpos
  · rw [hshares, awarded, awarded, hexact, hrounded, hsteps, hkeys]

/-! ### When a split is fair -/

/-- What a split promises: it is fair, and depends on the names and weights only, up
to scale. -/
structure SplitsFairly (amount : ℚ) (weights : Dict String ℚ) (step : Literal) : Prop where
  fair : ∃ shares, splitAmount .exact amount weights step = .ok shares ∧
    FairSplit amount weights step.value shares
  order : ∀ shares weights', splitAmount .exact amount weights step = .ok shares →
    (∀ name, weights'.get? name = weights.get? name) →
    ∃ shares', splitAmount .exact amount weights' step = .ok shares' ∧
      ∀ name, shares'.get? name = shares.get? name
  scale : ∀ shares c, splitAmount .exact amount weights step = .ok shares → 0 < c →
    splitAmount .exact amount (weights.mapVals fun _ w => c * w) step = .ok shares

/-- **Largest remainders.**  A split of a whole number of steps under weights that are
not negative is fair exactly when rounding each exact share down to the exponent of
the step gives a multiple of the step. -/
theorem splitsFairly_iff (hs : 0 < step.value) (hamount : Whole step.value amount)
    (hw : ∀ w ∈ weights.values, 0 ≤ w) (htotal : 0 < weights.values.sum) :
    SplitsFairly amount weights step ↔
      ∀ w ∈ weights.values, RoundsToStep step (amount * w / weights.values.sum) := by
  have hnn := hamount.nonneg hs
  obtain ⟨shares, hok⟩ := exists_splitAmount_eq_ok hnn htotal step
  constructor
  · rintro ⟨⟨shares, hshares, hfair⟩, _, _⟩ w hmem
    obtain ⟨e, he, rfl⟩ := List.mem_map.mp hmem
    have hget : weights.get? e.1 = some e.2 := Dict.get?_eq_some.mpr he
    have hx : 0 ≤ amount * e.2 / weights.values.sum :=
      div_nonneg (mul_nonneg hnn (hw e.2 hmem)) htotal.le
    have hrounded : (roundedShares .exact amount weights step).get? e.1 =
        some (toExp down step.exp (amount * e.2 / weights.values.sum)) := by
      rw [get?_roundedShares, computedShares_exact, get?_exactShares, hget, Option.map_some,
        Option.map_some]
    have hshare : shares.get? e.1 = some (if e.1 ∈ awarded .exact amount weights step then
        toExp down step.exp (amount * e.2 / weights.values.sum) + step.value
        else toExp down step.exp (amount * e.2 / weights.values.sum)) := by
      obtain ⟨_, _, _, rfl⟩ := splitAmount_exact_eq_ok.mp hshares
      rw [get?_award _ (nodup_awarded _ _ _ _), hrounded, Option.map_some]
    obtain ⟨k, hk⟩ := hfair.whole _ (mem_values hshare)
    have hle := toExp_down_le step.exp hx
    have hlt := lt_toExp_down_add step.exp (amount * e.2 / weights.values.sum)
    have hstep := pow_exp_le_value hs
    rw [roundsToStep_iff hs hx]
    split at hk
    · refine (floorTo_eq hs (k := k - 1) ?_ hle (by linarith)).symm
      push_cast
      linarith
    · exact (floorTo_eq hs (k := k) (by exact_mod_cast hk) hle (by linarith)).symm
  · intro hround
    exact ⟨⟨shares, hok, fairSplit hs hamount hw htotal hround hok⟩,
      fun _ _ h hperm => splitAmount_congr hperm h, fun _ _ h hc => splitAmount_scale hc h⟩

/-! Ten dollars in three, to eight digits. -/

theorem splitsFairly_thirds :
    SplitsFairly 10 (evenWeights ["search", "support-bot", "research"]) STEP := by
  refine (splitsFairly_iff (value_pos rfl) ⟨1000000000, ?_⟩ (evenWeights_nonneg _) ?_).mpr
    fun w _ => roundsToStep_of_coeff_one rfl _
  · norm_num [STEP, Literal.value]
  · decide +kernel

/-! A dollar in three, to multiples of five cents: each share is rounded down to the
cent, and no step is left for the cent that is missing. -/

def fiveCents : Literal := ⟨5, -2⟩

theorem nickels_lost :
    0 < fiveCents.value ∧ Whole fiveCents.value 1 ∧
      ¬ SplitsFairly 1 (evenWeights ["search", "support-bot", "research"]) fiveCents := by
  refine ⟨by norm_num [fiveCents, Literal.value],
    ⟨20, by norm_num [fiveCents, Literal.value]⟩, ?_⟩
  rintro ⟨⟨shares, hshares, hfair⟩, _, _⟩
  have hsplit : (splitAmount .exact 1 (evenWeights ["search", "support-bot", "research"])
      fiveCents).toOption.map (fun d => d.values.sum) = some (99 / 100) := by decide +kernel
  rw [hshares] at hsplit
  have hsum : shares.values.sum = 99 / 100 := Option.some.inj hsplit
  rw [hfair.sum] at hsum
  norm_num at hsum

end Finops
