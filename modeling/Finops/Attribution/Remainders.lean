import Finops.Base.Batch
import Finops.Attribution.Split

/-!
# How a split hands out the steps left over

`splitAmount` in any arithmetic: shares are computed, rounded down, and the steps
left over go to the names with the largest remainders, `awarded` (`splitAmount_eq_ok`).

`StepsExact` is what is needed of the arithmetic: the computed shares miss the amount
by less than a step, and whole steps are handled exactly.  Then the shares are the
computed ones rounded down, with one step more for some that this makes smaller
(`StepsExact.roundedNear`), and they sum to the amount exactly when the rounded ones
are not too much (`StepsExact.sum_eq_iff`).
-/

namespace Finops

open Numerics Apportion

/-- The shares before rounding, as the arithmetic computes them. -/
def computedShares (num : Arith) (amount : ℚ) (weights : Dict String ℚ) : Dict String ℚ :=
  weights.mapVals fun _ w => num.dec (num.dec (amount * w) / num.sum weights.values)

def roundedShares (num : Arith) (amount : ℚ) (weights : Dict String ℚ) (step : Literal) :
    Dict String ℚ :=
  (computedShares num amount weights).mapVals fun _ v => toExp down step.exp v

def leftoverSteps (num : Arith) (amount : ℚ) (weights : Dict String ℚ) (step : Literal) : ℕ :=
  (down (num.dec (num.dec (amount - num.sum (roundedShares num amount weights step).values)
    / step.value))).toNat

def awarded (num : Arith) (amount : ℚ) (weights : Dict String ℚ) (step : Literal) : List String :=
  Batch.firsts (ranksBefore num (computedShares num amount weights)
      (roundedShares num amount weights step))
    (leftoverSteps num amount weights step) weights.keys

variable {num : Arith} {amount : ℚ} {weights shares : Dict String ℚ} {step : Literal}

theorem keys_computedShares (num : Arith) (amount : ℚ) (weights : Dict String ℚ) :
    (computedShares num amount weights).keys = weights.keys := Dict.keys_mapVals _ _

theorem values_computedShares (num : Arith) (amount : ℚ) (weights : Dict String ℚ) :
    (computedShares num amount weights).values =
      weights.values.map fun w => num.dec (num.dec (amount * w) / num.sum weights.values) := by
  rw [computedShares, Dict.values_mapVals, Dict.values, List.map_map]; rfl

theorem get?_computedShares (num : Arith) (amount : ℚ) (weights : Dict String ℚ)
    (name : String) : (computedShares num amount weights).get? name =
      (weights.get? name).map fun w =>
        num.dec (num.dec (amount * w) / num.sum weights.values) := Dict.get?_mapVals _ _ _

theorem keys_roundedShares (num : Arith) (amount : ℚ) (weights : Dict String ℚ)
    (step : Literal) : (roundedShares num amount weights step).keys = weights.keys := by
  rw [roundedShares, Dict.keys_mapVals, keys_computedShares]

theorem get?_roundedShares (num : Arith) (amount : ℚ) (weights : Dict String ℚ) (step : Literal)
    (name : String) : (roundedShares num amount weights step).get? name =
      ((computedShares num amount weights).get? name).map (toExp down step.exp) := by
  rw [roundedShares, Dict.get?_mapVals]

theorem values_roundedShares (num : Arith) (amount : ℚ) (weights : Dict String ℚ)
    (step : Literal) : (roundedShares num amount weights step).values =
      (computedShares num amount weights).values.map (toExp down step.exp) := by
  rw [roundedShares, Dict.values_mapVals, Dict.values, List.map_map]; rfl

theorem exists_sub_sum_roundedShares (hstep : step.coeff = 1) (hamount : Whole step.value amount) :
    ∃ k : ℤ, amount - (roundedShares num amount weights step).values.sum = k * step.value := by
  have hsum : ∀ l : List ℚ, ∃ k : ℤ, (l.map (toExp down step.exp)).sum = k * step.value := by
    intro l
    induction l with
    | nil => exact ⟨0, by simp⟩
    | cons c l ih =>
      obtain ⟨k, hk⟩ := ih
      refine ⟨down (c / (10 : ℚ) ^ step.exp) + k, ?_⟩
      rw [List.map_cons, List.sum_cons, hk, toExp, ← value_of_coeff_one hstep]
      push_cast
      ring
  obtain ⟨a, ha⟩ := hamount
  obtain ⟨k, hk⟩ := hsum (computedShares num amount weights).values
  refine ⟨a - k, ?_⟩
  rw [values_roundedShares, hk, ha]
  push_cast
  ring

/-- **When a split comes out, and what it is.** -/
theorem splitAmount_eq_ok : splitAmount num amount weights step = .ok shares ↔
    0 ≤ amount ∧ weights.keys ≠ [] ∧ 0 < num.sum weights.values ∧
      (∀ v ∈ (computedShares num amount weights).values, num.fits step.exp v = true) ∧
      shares = (awarded num amount weights step).foldl
        (fun d name => d.adjust name fun v => num.dec (v + step.value))
        (roundedShares num amount weights step) := by
  unfold splitAmount
  dsimp only
  by_cases hneg : amount < 0
  · rw [if_pos hneg]; simp [not_le.mpr hneg]
  rw [if_neg hneg, and_iff_right (not_lt.mp hneg)]
  by_cases hne : weights.keys = []
  · rw [if_pos hne]; simp [hne]
  rw [if_neg hne, and_iff_right hne]
  by_cases htotal : num.sum weights.values ≤ 0
  · rw [if_pos htotal]; simp [not_lt.mpr htotal]
  rw [if_neg htotal, and_iff_right (not_le.mp htotal)]
  change (if ∀ v ∈ (computedShares num amount weights).values, num.fits step.exp v = true then
    (if 0 < down (num.dec (num.dec (amount -
        num.sum (roundedShares num amount weights step).values) / step.value)) then
      Except.ok ((((roundedShares num amount weights step).keys.insertionSort
        (ranksBefore num (computedShares num amount weights)
          (roundedShares num amount weights step))).take
            (leftoverSteps num amount weights step)).foldl
        (fun d name => d.adjust name fun v => num.dec (v + step.value))
        (roundedShares num amount weights step))
      else .ok (roundedShares num amount weights step))
    else .error PyError.invalidOperation) = _ ↔ _
  rw [keys_roundedShares]
  by_cases hfits : ∀ v ∈ (computedShares num amount weights).values, num.fits step.exp v = true
  · rw [if_pos hfits, and_iff_right hfits]
    split
    · rw [Except.ok.injEq, eq_comm]; rfl
    · rename_i hle
      have hz : leftoverSteps num amount weights step = 0 :=
        Int.toNat_of_nonpos (not_lt.mp hle)
      rw [awarded, Batch.firsts, hz, Except.ok.injEq, eq_comm]
      rfl
  · rw [if_neg hfits]; simp [hfits]

theorem splitAmount_keys (h : splitAmount num amount weights step = .ok shares) :
    shares.keys = weights.keys := by
  have haward : ∀ (names : List String) (d : Dict String ℚ),
      (names.foldl (fun (d : Dict String ℚ) name =>
        d.adjust name fun v => num.dec (v + step.value)) d).keys = d.keys := by
    intro names
    induction names with
    | nil => intro d; rfl
    | cons name names ih => intro d; rw [List.foldl_cons, ih, Dict.keys_adjust]
  obtain ⟨_, _, _, _, rfl⟩ := splitAmount_eq_ok.mp h
  rw [haward, keys_roundedShares]

/-! ### The ranking -/

section Ranking

variable {exact rounded : Dict String ℚ}

/-- What a name is ranked by: minus its remainder. -/
def rankKey (num : Arith) (exact shares : Dict String ℚ) (name : String) : ℚ :=
  num.dec (-num.dec (exact.getD name 0 - shares.getD name 0))

theorem ranksBefore_iff {a b : String} : ranksBefore num exact rounded a b ↔
    rankKey num exact rounded a < rankKey num exact rounded b ∨
      (rankKey num exact rounded a = rankKey num exact rounded b ∧ a ≤ b) := Iff.rfl

instance : Std.Total (ranksBefore num exact rounded) := by
  refine ⟨fun a b => ?_⟩
  rw [ranksBefore_iff, ranksBefore_iff]
  rcases lt_trichotomy (rankKey num exact rounded a) (rankKey num exact rounded b) with h | h | h
  · exact .inl (.inl h)
  · rcases le_total a b with hab | hab
    · exact .inl (.inr ⟨h, hab⟩)
    · exact .inr (.inr ⟨h.symm, hab⟩)
  · exact .inr (.inl h)

instance : IsTrans String (ranksBefore num exact rounded) := by
  refine ⟨fun a b c hab hbc => ?_⟩
  rw [ranksBefore_iff] at hab hbc ⊢
  rcases hab with hab | ⟨hab, hab'⟩
  · rcases hbc with hbc | ⟨hbc, _⟩
    · exact .inl (hab.trans hbc)
    · exact .inl (hbc ▸ hab)
  · rcases hbc with hbc | ⟨hbc, hbc'⟩
    · exact .inl (hab ▸ hbc)
    · exact .inr ⟨hab.trans hbc, hab'.trans hbc'⟩

instance : Std.Antisymm (ranksBefore num exact rounded) := by
  refine ⟨fun a b hab hba => ?_⟩
  rw [ranksBefore_iff] at hab hba
  rcases hab with hab | ⟨hab, hab'⟩
  · rcases hba with hba | ⟨hba, _⟩
    · exact absurd hba hab.asymm
    · exact absurd hba hab.ne'
  · rcases hba with hba | ⟨_, hba'⟩
    · exact absurd hab hba.ne'
    · exact le_antisymm hab' hba'

end Ranking

/-- Who is awarded a step does not depend on the order of the weights, where the
shares and the steps left over do not. -/
theorem awarded_congr {weights' : Dict String ℚ} (hkeys : weights'.keys.Perm weights.keys)
    (hshares : ∀ name, (computedShares num amount weights').get? name =
      (computedShares num amount weights).get? name)
    (hsteps : leftoverSteps num amount weights' step = leftoverSteps num amount weights step) :
    awarded num amount weights' step = awarded num amount weights step := by
  have hranks : ranksBefore num (computedShares num amount weights')
      (roundedShares num amount weights' step) =
      ranksBefore num (computedShares num amount weights)
        (roundedShares num amount weights step) := by
    funext a b
    simp only [ranksBefore, Dict.getD, get?_roundedShares, hshares]
  rw [awarded, awarded, hsteps, ← Batch.firsts_perm hkeys]
  simp only [hranks]

theorem nodup_awarded (num : Arith) (amount : ℚ) (weights : Dict String ℚ) (step : Literal) :
    (awarded num amount weights step).Nodup := by
  have h := Batch.nodup_map_firsts (f := id) (r := ranksBefore num
    (computedShares num amount weights) (roundedShares num amount weights step))
    (n := leftoverSteps num amount weights step) (l := weights.keys)
    (by rw [List.map_id]; exact weights.nodup_keys)
  rwa [List.map_id] at h

/-! ### What the shares are -/

/-- Whatever the arithmetic, a share is the computed one rounded down, or a step more. -/
theorem splitAmount_cases (h : splitAmount num amount weights step = .ok shares) {name : String}
    {c : ℚ} (hc : (computedShares num amount weights).get? name = some c) :
    shares.get? name = some (toExp down step.exp c) ∨
      shares.get? name = some (num.dec (toExp down step.exp c + step.value)) := by
  obtain ⟨_, _, _, _, rfl⟩ := splitAmount_eq_ok.mp h
  rw [Dict.get?_foldl_adjust _ (nodup_awarded num amount weights step), get?_roundedShares, hc,
    Option.map_some, Option.map_some]
  split
  · exact .inr rfl
  · exact .inl rfl

/-- The computed shares rounded down, with a step more for some that this makes smaller. -/
structure RoundedNear (step : Literal) (computed shares : Dict String ℚ) : Prop where
  keys : shares.keys = computed.keys
  near : ∀ name c, computed.get? name = some c →
    shares.get? name = some (toExp down step.exp c) ∨
      (toExp down step.exp c < c ∧ shares.get? name = some (toExp down step.exp c + step.value))

theorem toExp_down_zero (e : ℤ) : toExp down e 0 = 0 := by
  have hdown : down 0 = 0 := rfl
  rw [toExp, zero_div, hdown, Int.cast_zero, zero_mul]

theorem RoundedNear.get?_eq_zero {computed : Dict String ℚ} {name : String}
    (h : RoundedNear step computed shares) (hname : computed.get? name = some 0) :
    shares.get? name = some 0 := by
  rcases h.near name 0 hname with hv | ⟨hlt, _⟩
  · rwa [toExp_down_zero] at hv
  · rw [toExp_down_zero] at hlt
    exact absurd hlt (lt_irrefl 0)

/-- The computed shares miss the amount by less than a step, and the arithmetic
handles whole steps exactly. -/
structure StepsExact (num : Arith) (amount : ℚ) (weights : Dict String ℚ) (step : Literal) :
    Prop where
  pos : 0 < step.value
  near : |(computedShares num amount weights).values.sum - amount| < step.value
  lt : ∀ c ∈ (computedShares num amount weights).values, c < toExp down step.exp c + step.value
  whole : ∃ k : ℤ, amount - (roundedShares num amount weights step).values.sum = k * step.value
  rest : num.dec (num.dec (amount - num.sum (roundedShares num amount weights step).values)
    / step.value) = (amount - (roundedShares num amount weights step).values.sum) / step.value
  add : ∀ c ∈ (computedShares num amount weights).values,
    num.dec (toExp down step.exp c + step.value) = toExp down step.exp c + step.value
  rank : ∀ c ∈ (computedShares num amount weights).values,
    num.dec (-num.dec (c - toExp down step.exp c)) < 0 ↔ toExp down step.exp c < c

theorem mem_values {d : Dict String ℚ} {name : String} {v : ℚ} (h : d.get? name = some v) :
    v ∈ d.values := List.mem_map.mpr ⟨(name, v), Dict.get?_eq_some.mp h, rfl⟩

theorem StepsExact.leftover (h : StepsExact num amount weights step) {k : ℤ}
    (hk : amount - (roundedShares num amount weights step).values.sum = k * step.value) :
    leftoverSteps num amount weights step = k.toNat := by
  rw [leftoverSteps, h.rest, hk, mul_div_assoc, div_self h.pos.ne', mul_one, down_intCast]

/-- There are no more steps left over than shares that rounding makes smaller. -/
theorem StepsExact.leftover_le (h : StepsExact num amount weights step) :
    leftoverSteps num amount weights step ≤
      (computedShares num amount weights).values.countP fun c => toExp down step.exp c < c := by
  obtain ⟨k, hk⟩ := h.whole
  rw [h.leftover hk, Int.toNat_le]
  rw [values_roundedShares] at hk
  exact leftover_le_countP h.pos h.lt h.near hk

theorem StepsExact.shares_eq (h : StepsExact num amount weights step)
    (hs : splitAmount num amount weights step = .ok shares) :
    shares = award step.value (awarded num amount weights step)
      (roundedShares num amount weights step) := by
  obtain ⟨_, _, _, _, rfl⟩ := splitAmount_eq_ok.mp hs
  refine foldl_adjust_eq_award (nodup_awarded num amount weights step) fun name _ v hv => ?_
  rw [get?_roundedShares, Option.map_eq_some_iff] at hv
  obtain ⟨c, hc, rfl⟩ := hv
  exact h.add c (mem_values hc)

theorem rankKey_eq {name : String} {c : ℚ}
    (hc : (computedShares num amount weights).get? name = some c) :
    rankKey num (computedShares num amount weights) (roundedShares num amount weights step)
      name = num.dec (-num.dec (c - toExp down step.exp c)) := by
  rw [rankKey, Dict.getD, Dict.getD, get?_roundedShares, hc]
  rfl

/-- **Only names whose share was made smaller get a step.** -/
theorem StepsExact.lt_of_mem_awarded (h : StepsExact num amount weights step) {name : String}
    {c : ℚ} (hc : (computedShares num amount weights).get? name = some c)
    (hname : name ∈ awarded num amount weights step) : toExp down step.exp c < c := by
  let p : String → Bool := fun name => rankKey num (computedShares num amount weights)
    (roundedShares num amount weights step) name < 0
  have hcount : (computedShares num amount weights).values.countP
      (fun c => toExp down step.exp c < c) = weights.keys.countP p := by
    rw [← keys_computedShares num amount weights, Dict.values, Dict.keys, List.countP_map,
      List.countP_map]
    refine List.countP_congr fun e he => ?_
    have hget := Dict.get?_eq_some.mpr he
    show decide _ = true ↔ decide _ = true
    rw [decide_eq_true_iff, decide_eq_true_iff, rankKey_eq hget]
    exact (h.rank e.2 (mem_values hget)).symm
  have hp : p name = true := by
    refine Batch.of_mem_firsts (p := p) (fun a b hab hb => ?_) (hcount ▸ h.leftover_le) hname
    rw [decide_eq_true_iff] at hb ⊢
    rcases ranksBefore_iff.mp hab with hlt | ⟨heq, _⟩
    · exact hlt.trans hb
    · exact heq ▸ hb
  rw [decide_eq_true_iff, rankKey_eq hc] at hp
  exact (h.rank c (mem_values hc)).mp hp

/-- **What a split returns.** -/
theorem StepsExact.roundedNear (h : StepsExact num amount weights step)
    (hs : splitAmount num amount weights step = .ok shares) :
    RoundedNear step (computedShares num amount weights) shares := by
  rw [h.shares_eq hs]
  refine ⟨?_, fun name c hc => ?_⟩
  · rw [keys_award, roundedShares, Dict.keys_mapVals]
  · rw [get?_award step.value (nodup_awarded num amount weights step), get?_roundedShares, hc,
      Option.map_some, Option.map_some]
    by_cases hname : name ∈ awarded num amount weights step
    · rw [if_pos hname]
      exact .inr ⟨h.lt_of_mem_awarded hc hname, rfl⟩
    · rw [if_neg hname]
      exact .inl rfl

theorem StepsExact.sum_eq (h : StepsExact num amount weights step)
    (hs : splitAmount num amount weights step = .ok shares) :
    shares.values.sum = (roundedShares num amount weights step).values.sum +
      leftoverSteps num amount weights step * step.value := by
  have hlen : (computedShares num amount weights).values.length = weights.keys.length := by
    rw [← keys_computedShares num amount weights, Dict.values, Dict.keys, List.length_map,
      List.length_map]
  have hshort : leftoverSteps num amount weights step ≤ weights.keys.length :=
    h.leftover_le.trans (hlen ▸ List.countP_le_length)
  rw [h.shares_eq hs, sum_award step.value]
  · rw [awarded, Batch.length_firsts, Nat.min_eq_left hshort]
  · intro name hname
    rw [keys_roundedShares]
    exact Batch.mem_of_mem_firsts hname

/-- **It sums to the amount** exactly when the rounded shares are not too much. -/
theorem StepsExact.sum_eq_iff (h : StepsExact num amount weights step)
    (hs : splitAmount num amount weights step = .ok shares) : shares.values.sum = amount ↔
      (roundedShares num amount weights step).values.sum ≤ amount := by
  obtain ⟨k, hk⟩ := h.whole
  have hpos := h.pos
  rw [h.sum_eq hs, h.leftover hk]
  constructor
  · intro he
    have : (0 : ℚ) ≤ (k.toNat : ℚ) * step.value := by positivity
    linarith
  · intro hle
    have hk0 : 0 ≤ k := by
      have : 0 ≤ (k : ℚ) * step.value := by linarith
      exact_mod_cast nonneg_of_mul_nonneg_left this hpos
    have hcast : ((k.toNat : ℕ) : ℚ) = k := by exact_mod_cast Int.toNat_of_nonneg hk0
    rw [hcast, ← hk]
    ring

end Finops
