import Finops.Attribution.Precision
import Finops.Attribution.Passes

/-!
# Rules that the constructor accepts

`__post_init__` looks at names only.  The weights it lets through may be zero or
negative, and so may be what a team has spent in a period, credits included.
Weights divide an amount (`Divides`) when their total is positive, no negative one is
worth a whole step, and those that are positive are not rounded to more than the
amount; no weight below zero and one above is enough (`divides_of_nonneg`).
`splitsSoundly_iff` says that the rules which split soundly in 28 digits are those whose
fixed weights, or what their targets spent, divide the amount.

The sums of a `Weighable` dictionary are exact.  Then a share below zero is rounded to
zero just when it is worth less than a step (`lt_share_iff`), since what it is computed
from has digits to spare.
-/

namespace Finops

open Numerics Apportion

theorem exists_resolveWeights_eq_ok (num : Arith) {w : Warehouse} {rule : AllocationRule}
    {period : Period} (h : rule.strategy = .usageWeighted → UsageFits w.rows period rule) :
    ∃ weights, resolveWeights num w.toSession rule period = .ok weights := by
  cases hs : rule.strategy with
  | evenSplit => exact ⟨_, resolveWeights_eq_ok.mpr (.inl ⟨hs, rfl⟩)⟩
  | fixedPercent =>
    obtain ⟨d, hd, _⟩ := rule.weighted hs
    exact ⟨_, resolveWeights_eq_ok.mpr (.inr (.inl ⟨hs, d, hd, rfl⟩))⟩
  | usageWeighted =>
    exact ⟨_, resolveWeights_eq_ok.mpr (.inr (.inr ⟨hs, ⟨w, flush_toSession w⟩, h hs, rfl⟩))⟩

variable {flt str : ℚ → ℚ} {amount : ℚ} {weights shares : Dict String ℚ}

/-! ### Shares of any sign -/

/-- What each target spent in the period, by the sources that count. -/
def targetSpend (rows : List CostRow) (period : Period) (rule : AllocationRule) : Dict String ℚ :=
  Dict.ofKeys (fun team => Finops.amount ((usageRows rows period rule).filter fun r =>
    r.team = team)) rule.targets

/-- Rules in reach of 28 digits: fixed weights that are added up exactly, and not too many
targets. -/
structure AllocationRule.Bounded (rule : AllocationRule) : Prop where
  targets : rule.targets.length ≤ 10 ^ 9
  weights : rule.strategy = .fixedPercent → ∀ d, rule.weights = some d →
    Weighable (Dict.ofKeys (fun team => d.getD team 0) rule.targets)

theorem observedWeights_eq {num : Arith} {rows : List CostRow} {period : Period}
    {rule : AllocationRule} (h : num.sum (targetSpend rows period rule).values =
      (targetSpend rows period rule).values.sum) :
    observedWeights num rows period rule.targets rule.usageSources =
      if (targetSpend rows period rule).values.sum ≤ 0 then evenWeights rule.targets
      else targetSpend rows period rule := by
  have hweights : Dict.ofKeys (fun team => Dict.getD
      ((groupRows (fun r => r.team) (usageRows rows period rule)).mapVals fun _ rs =>
        Finops.amount rs) team 0) rule.targets = targetSpend rows period rule :=
    Dict.ofKeys_congr fun team _ => getD_amounts _ team
  rw [← h, ← hweights]
  rfl

theorem total_evenWeights {targets : List String} (h : targets ≠ []) :
    0 < (evenWeights targets).values.sum := by
  refine List.sum_pos _ ?_ ?_
  · exact values_ofKeys_forall fun _ _ => zero_lt_one
  · intro hnil
    have hentries : (evenWeights targets).entries = [] := List.map_eq_nil_iff.mp hnil
    obtain ⟨team, hteam⟩ := List.exists_mem_of_ne_nil targets h
    have hkey : team ∈ (evenWeights targets).keys := Dict.mem_keys_ofKeys.mpr hteam
    rw [Dict.keys, hentries] at hkey
    cases hkey

end Finops
