import Finops.Attribution.Fair
import Finops.Attribution.Passes

/-!
# The children of a parent

`buildChildren` splits a second time: the parent's quantity, in steps of its own and
by the money shares, where a share of zero counts as one step of money.  So every
weight of the second split is positive, and it comes out for every quantity that is
a whole number of steps, zero included (`exists_quantityShares`).

That a share of zero counts as a step is what keeps the quantity from following the money
there: it follows the amounts with each zero raised to a step (`quantity_follows`), which
is no step at all beside a large parent, and half of one that is a step itself.
-/

namespace Finops

open Numerics Apportion

variable {parent : CostRow} {rule : AllocationRule} {shares weights : Dict String ℚ}

/-! ### The second split -/

def quantityWeights (shares : Dict String ℚ) : Dict String ℚ :=
  shares.mapVals fun _ v => if v = 0 then STEP.value else v

theorem quantityWeights_pos (h : ∀ v ∈ shares.values, 0 ≤ v) :
    ∀ v ∈ (quantityWeights shares).values, 0 < v := by
  intro v hv
  rw [quantityWeights, Dict.values_mapVals] at hv
  obtain ⟨e, he, rfl⟩ := List.mem_map.mp hv
  split
  · exact value_pos rfl
  · rename_i hne
    exact lt_of_le_of_ne (h e.2 (List.mem_map_of_mem he)) (Ne.symm hne)

/-- The quantity of a parent, whole steps if there is one. -/
def QuantityWhole (quantity : Option ℚ) : Prop :=
  ∀ q, quantity = some q → Whole QUANTITY_STEP.value q

/-- **The second split comes out**, and splits the quantity. -/
theorem exists_quantityShares {q : ℚ} (hkeys : shares.keys ≠ [])
    (hshares : ∀ v ∈ shares.values, 0 ≤ v) (hq : Whole QUANTITY_STEP.value q) :
    ∃ quantities, splitAmount .exact q (quantityWeights shares) QUANTITY_STEP = .ok quantities ∧
      quantities.keys = shares.keys ∧ quantities.values.sum = q ∧
      ∀ v ∈ quantities.values, Whole QUANTITY_STEP.value v := by
  have hpos := quantityWeights_pos hshares
  have hkeys' : (quantityWeights shares).keys = shares.keys := Dict.keys_mapVals _ _
  have hne : (quantityWeights shares).values ≠ [] := by
    intro h
    refine hkeys ?_
    rw [← hkeys', Dict.keys, List.map_eq_nil_iff.mp h, List.map_nil]
  have htotal : 0 < (quantityWeights shares).values.sum := List.sum_pos _ hpos hne
  obtain ⟨quantities, hok⟩ :=
    exists_splitAmount_eq_ok (hq.nonneg (value_pos rfl)) htotal QUANTITY_STEP
  obtain ⟨hk, hsum, hwhole⟩ := split_spec rfl hq (fun v hv => (hpos v hv).le) hok
  exact ⟨quantities, hok, hk.trans hkeys', hsum, hwhole⟩

/-! ### Conservation -/

/-- The children carry the money and the quantity of the parent, one for each name. -/
structure Conserves (parent : CostRow) (names : List String) (children : List CostRecord) :
    Prop where
  teams : (children.map fun c => c.team) = names
  amounts : (children.map fun c => c.amountUsd).sum = parent.amountUsd
  none : parent.quantity = none → ∀ c ∈ children, c.quantity = none
  quantities : ∀ q, parent.quantity = some q → ∃ qs : List ℚ,
    (children.map fun c => c.quantity) = qs.map some ∧ qs.sum = q ∧
      ∀ v ∈ qs, Whole QUANTITY_STEP.value v

/-- **Children conserve money and quantity.** -/
theorem children_conserve (hamount : Whole STEP.value parent.amountUsd)
    (hquantity : QuantityWhole parent.quantity) (hw : ∀ w ∈ weights.values, 0 ≤ w)
    (hshares : splitAmount .exact parent.amountUsd weights STEP = .ok shares) :
    ∃ children, buildChildren .exact parent rule shares = .ok children ∧
      Conserves parent shares.keys children := by
  obtain ⟨hkeys, hsum, hwhole⟩ := split_spec rfl hamount hw hshares
  obtain ⟨_, hne, _, _⟩ := splitAmount_exact_eq_ok.mp hshares
  rw [buildChildren_eq]
  cases hq : parent.quantity with
  | none =>
    refine ⟨_, by rw [quantityShares, hq]; rfl, ?_, ?_, ?_, ?_⟩
    · rw [List.map_map]; rfl
    · rw [List.map_map]; exact hsum
    · intro _ c hc
      obtain ⟨e, _, rfl⟩ := List.mem_map.mp hc
      rfl
    · intro q hq'
      rw [hq] at hq'
      cases hq'
  | some q =>
    obtain ⟨quantities, hok, hk, hqsum, hqwhole⟩ := exists_quantityShares (hkeys ▸ hne)
      (fun v hv => (hwhole v hv).nonneg (value_pos rfl)) (hquantity q hq)
    refine ⟨_, by rw [quantityShares, hq]; exact congrArg _ hok, ?_, ?_, ?_, ?_⟩
    · rw [List.map_map]; rfl
    · rw [List.map_map]; exact hsum
    · intro hq'
      rw [hq] at hq'
      cases hq'
    · intro q' hq'
      obtain rfl := Option.some.inj (hq.symm.trans hq')
      refine ⟨quantities.values, ?_, hqsum, hqwhole⟩
      rw [← Dict.map_get?_keys, hk, Dict.keys, List.map_map, List.map_map]
      rfl

/-! An hour of the cluster that cost nothing: all shares are zero, and its one hour is
split evenly. -/

def idleCluster : CostRow where
  source := .compute
  dedupKey := "idle"
  occurredAt := 0
  amountUsd := 0
  quantity := some 1
  id := 0

theorem children_conserve_idle :
    ∃ shares, splitAmount .exact idleCluster.amountUsd (evenWeights gpuRule.targets) STEP =
        .ok shares ∧
      ∃ children, buildChildren .exact idleCluster gpuRule shares = .ok children ∧
        Conserves idleCluster shares.keys children := by
  obtain ⟨shares, hshares⟩ := exists_splitAmount_eq_ok (le_refl (0 : ℚ))
    (show 0 < (evenWeights gpuRule.targets).values.sum by decide +kernel) STEP
  refine ⟨shares, hshares, children_conserve (whole_zero _) ?_ (evenWeights_nonneg _) hshares⟩
  intro q hq
  obtain rfl := Option.some.inj hq
  exact ⟨10000, by norm_num [QUANTITY_STEP, Literal.value]⟩

/-! ### Quantity and money -/

/-- The quantity of each child is within a step of the part of the parent's quantity that
its amount is of the parent's. -/
def FollowsCost (parent : CostRow) (children : List CostRecord) : Prop :=
  ∀ c ∈ children, ∀ q, parent.quantity = some q → ∃ v, c.quantity = some v ∧
    |v - q * c.amountUsd / parent.amountUsd| < QUANTITY_STEP.value

def raised (amount : ℚ) : ℚ := if amount = 0 then STEP.value else amount

/-- The quantity of each child is within a step of the part of the parent's quantity that
its raised amount is of all the raised amounts. -/
def FollowsRaised (parent : CostRow) (children : List CostRecord) : Prop :=
  ∀ c ∈ children, ∀ q, parent.quantity = some q → ∃ v, c.quantity = some v ∧
    |v - q * raised c.amountUsd / (children.map fun d => raised d.amountUsd).sum| <
      QUANTITY_STEP.value

theorem sum_raised_of_ne_zero {children : List CostRecord} (h : ∀ c ∈ children, c.amountUsd ≠ 0) :
    (children.map fun c => raised c.amountUsd).sum = (children.map fun c => c.amountUsd).sum :=
  congrArg List.sum (List.map_congr_left fun c hc => if_neg (h c hc))

theorem followsRaised_of_none (h : parent.quantity = none) (children : List CostRecord) :
    FollowsRaised parent children := by
  intro c _ q hq
  rw [h] at hq
  cases hq

theorem followsCost_of_ne_zero {children : List CostRecord}
    (hraised : FollowsRaised parent children)
    (htotal : (children.map fun c => c.amountUsd).sum = parent.amountUsd)
    (hnz : ∀ c ∈ children, c.amountUsd ≠ 0) : FollowsCost parent children := by
  intro c hc q hq
  obtain ⟨v, hv, hnear⟩ := hraised c hc q hq
  rw [sum_raised_of_ne_zero hnz, htotal, raised, if_neg (hnz c hc)] at hnear
  exact ⟨v, hv, hnear⟩

theorem followsRaised_of_shares {q : ℚ} {quantities : Dict String ℚ}
    (hshares : ∀ v ∈ shares.values, 0 ≤ v) (hquantity : parent.quantity = some q)
    (hq : Whole QUANTITY_STEP.value q)
    (hok : splitAmount .exact q (quantityWeights shares) QUANTITY_STEP = .ok quantities) :
    FollowsRaised parent (shares.entries.map fun e => childOf parent rule quantities e.1 e.2) := by
  obtain ⟨_, _, htotal, _⟩ := splitAmount_exact_eq_ok.mp hok
  have hfair := fairSplit (value_pos rfl) hq (fun v hv => (quantityWeights_pos hshares v hv).le)
    htotal (fun _ _ => roundsToStep_of_coeff_one rfl _) hok
  have hsum : ((shares.entries.map fun e => childOf parent rule quantities e.1 e.2).map
      fun d => raised d.amountUsd).sum = (quantityWeights shares).values.sum := by
    rw [quantityWeights, Dict.values_mapVals, List.map_map]
    rfl
  intro c hc q' hq'
  obtain rfl := Option.some.inj (hquantity.symm.trans hq')
  obtain ⟨e, he, rfl⟩ := List.mem_map.mp hc
  have hweight : (quantityWeights shares).get? e.1 = some (raised e.2) := by
    rw [quantityWeights, Dict.get?_mapVals, Dict.get?_eq_some.mpr he]
    rfl
  have hmem : e.1 ∈ quantities.keys := by
    rw [hfair.keys]
    exact Dict.mem_keys_iff.mpr ⟨_, hweight⟩
  obtain ⟨v, hv⟩ := Dict.mem_keys_iff.mp hmem
  refine ⟨v, hv, ?_⟩
  rw [hsum]
  exact (hfair.near e.1 _ v hweight hv).2

/-- **Quantity follows cost**, with each amount of zero raised to a step; as it is, where no
amount is zero. -/
theorem quantity_follows (hamount : Whole STEP.value parent.amountUsd)
    (hquantity : QuantityWhole parent.quantity) (hw : ∀ w ∈ weights.values, 0 ≤ w)
    (hshares : splitAmount .exact parent.amountUsd weights STEP = .ok shares) :
    ∃ children, buildChildren .exact parent rule shares = .ok children ∧
      FollowsRaised parent children ∧
      ((∀ c ∈ children, c.amountUsd ≠ 0) → FollowsCost parent children) := by
  obtain ⟨hkeys, hsum, hwhole⟩ := split_spec rfl hamount hw hshares
  obtain ⟨_, hne, _, _⟩ := splitAmount_exact_eq_ok.mp hshares
  have hnonneg : ∀ v ∈ shares.values, 0 ≤ v := fun v hv => (hwhole v hv).nonneg (value_pos rfl)
  have htotal : ∀ quantities, ((shares.entries.map fun e =>
      childOf parent rule quantities e.1 e.2).map fun c => c.amountUsd).sum =
        parent.amountUsd := by
    intro quantities
    rw [List.map_map]
    exact hsum
  rw [buildChildren_eq]
  cases hq : parent.quantity with
  | none =>
    have hraised := followsRaised_of_none hq
    refine ⟨_, by rw [quantityShares, hq]; rfl, hraised _, ?_⟩
    exact followsCost_of_ne_zero (hraised _) (htotal _)
  | some q =>
    obtain ⟨quantities, hok, _⟩ := exists_quantityShares (hkeys ▸ hne) hnonneg (hquantity q hq)
    have hraised : FollowsRaised parent
        (shares.entries.map fun e => childOf parent rule quantities e.1 e.2) :=
      followsRaised_of_shares hnonneg hq (hquantity q hq) hok
    refine ⟨_, by rw [quantityShares, hq]; exact congrArg _ hok, hraised, ?_⟩
    exact followsCost_of_ne_zero hraised (htotal _)

def cheapHours : CostRow where
  source := .compute
  dedupKey := "cheap"
  occurredAt := 0
  amountUsd := 1 / 10 ^ 8
  quantity := some 10000
  id := 0

theorem exists_shares_cheapHours : ∃ shares,
    splitAmount .exact cheapHours.amountUsd (evenWeights gpuRule.targets) STEP = .ok shares := by
  have hamount : (0 : ℚ) ≤ cheapHours.amountUsd := by norm_num [cheapHours]
  have hweights : 0 < (evenWeights gpuRule.targets).values.sum := by decide +kernel
  exact exists_splitAmount_eq_ok hamount hweights STEP

/-- Of three shares two are zero, and each of the three teams gets a third of the hours. -/
theorem not_followsCost_cheapHours :
    0 < cheapHours.amountUsd ∧ Whole STEP.value cheapHours.amountUsd ∧
      QuantityWhole cheapHours.quantity ∧ ∃ shares children,
        splitAmount .exact cheapHours.amountUsd (evenWeights gpuRule.targets) STEP = .ok shares ∧
        buildChildren .exact cheapHours gpuRule shares = .ok children ∧
        ¬FollowsCost cheapHours children := by
  have hwhole : Whole QUANTITY_STEP.value 10000 :=
    ⟨100000000, by norm_num [QUANTITY_STEP, Literal.value]⟩
  obtain ⟨shares, hshares⟩ := exists_shares_cheapHours
  have hbuilt : ((splitAmount .exact cheapHours.amountUsd (evenWeights gpuRule.targets) STEP).bind
      fun shares => buildChildren .exact cheapHours gpuRule shares).toOption.map
        (fun children => children.map fun c => (c.amountUsd, c.quantity)) =
      some [(1 / 10 ^ 8, some (33333334 / 10000)), (0, some (33333333 / 10000)),
        (0, some (33333333 / 10000))] := by decide +kernel
  rw [hshares] at hbuilt
  obtain ⟨children, hchildren, hmap⟩ := Option.map_eq_some_iff.mp hbuilt
  refine ⟨by norm_num [cheapHours], ⟨1, by norm_num [cheapHours, STEP, Literal.value]⟩, ?_, shares,
    children, hshares, ?_, fun hfollows => ?_⟩
  · intro q hq
    obtain rfl := Option.some.inj hq
    exact hwhole
  · cases hb : buildChildren .exact cheapHours gpuRule shares with
    | error e =>
      rw [show (Except.ok shares : Except PyError (Dict String ℚ)).bind (fun shares =>
        buildChildren .exact cheapHours gpuRule shares) = _ from hb] at hchildren
      cases hchildren
    | ok built =>
      rw [show (Except.ok shares : Except PyError (Dict String ℚ)).bind (fun shares =>
        buildChildren .exact cheapHours gpuRule shares) = _ from hb] at hchildren
      rw [Option.some.inj hchildren]
  · obtain ⟨c, hc, hpair⟩ := List.mem_map.mp (hmap ▸ List.mem_cons_of_mem _ List.mem_cons_self :
      ((0 : ℚ), some ((33333333 : ℚ) / 10000)) ∈
        children.map fun c => (c.amountUsd, c.quantity))
    obtain ⟨hzero, hquantity⟩ := Prod.mk.inj hpair
    obtain ⟨v, hv, hnear⟩ := hfollows c hc 10000 rfl
    obtain rfl := Option.some.inj (hquantity.symm.trans hv)
    rw [hzero, mul_zero, zero_div, sub_zero] at hnear
    norm_num [QUANTITY_STEP, Literal.value] at hnear

theorem quantity_follows_cheapHours :
    ∃ shares, splitAmount .exact cheapHours.amountUsd (evenWeights gpuRule.targets) STEP =
        .ok shares ∧
      ∃ children, buildChildren .exact cheapHours gpuRule shares = .ok children ∧
        FollowsRaised cheapHours children ∧
        ((∀ c ∈ children, c.amountUsd ≠ 0) → FollowsCost cheapHours children) := by
  obtain ⟨shares, hshares⟩ := exists_shares_cheapHours
  refine ⟨shares, hshares, quantity_follows ⟨1, ?_⟩ ?_ (evenWeights_nonneg _) hshares⟩
  · norm_num [cheapHours, STEP, Literal.value]
  · intro q hq
    obtain rfl := Option.some.inj hq
    exact ⟨100000000, by norm_num [QUANTITY_STEP, Literal.value]⟩

end Finops
