import Finops.Attribution.Rules
import Mathlib.Algebra.BigOperators.Ring.List

/-!
# What a split is made of

`exactShares` are the shares before rounding.  `children_spec` is what callers use of
`buildChildren`: the children carry the parent's money, one for each share, under the
parent's source, instant, project, agent and use case.  `resolveWeights_eq_ok` says
what weights a rule resolves to, and `resolveWeights_nonneg` when none is negative.
-/

namespace Finops

open Numerics Apportion

theorem value_of_coeff_one {step : Literal} (h : step.coeff = 1) :
    step.value = (10 : ℚ) ^ step.exp := by
  rw [Literal.value, h, Int.cast_one, one_mul]

theorem value_pos {step : Literal} (h : step.coeff = 1) : 0 < step.value := by
  rw [value_of_coeff_one h]; positivity

theorem STEP_value : STEP.value = (10 : ℚ) ^ STEP.exp := value_of_coeff_one rfl

theorem toExp_down {step : Literal} (h : step.coeff = 1) {v : ℚ} (hv : 0 ≤ v) :
    toExp down step.exp v = floorTo step.value v := by
  rw [toExp, ← value_of_coeff_one h, down_of_nonneg (div_nonneg hv (value_pos h).le), floorTo]

def exactShares (amount : ℚ) (weights : Dict String ℚ) : Dict String ℚ :=
  weights.mapVals fun _ w => amount * w / weights.values.sum

theorem values_exactShares (amount : ℚ) (weights : Dict String ℚ) :
    (exactShares amount weights).values =
      weights.values.map fun w => amount * w / weights.values.sum := by
  rw [exactShares, Dict.values_mapVals, Dict.values, List.map_map]; rfl

theorem sum_exactShares (amount : ℚ) {weights : Dict String ℚ} (h : 0 < weights.values.sum) :
    (exactShares amount weights).values.sum = amount := by
  have hfactor : (fun w => amount * w / weights.values.sum) =
      fun w => amount / weights.values.sum * w := by
    funext w; ring
  rw [values_exactShares, hfactor, List.sum_map_mul_left, List.map_id', div_mul_cancel₀ _ h.ne']

theorem exactShares_nonneg {amount : ℚ} (ha : 0 ≤ amount) {weights : Dict String ℚ}
    (hw : ∀ w ∈ weights.values, 0 ≤ w) (h : 0 < weights.values.sum) :
    ∀ v ∈ (exactShares amount weights).values, 0 ≤ v := by
  intro v hv
  rw [values_exactShares] at hv
  obtain ⟨w, hmem, rfl⟩ := List.mem_map.mp hv
  exact div_nonneg (mul_nonneg ha (hw w hmem)) h.le

/-! ### Children -/

structure ChildrenOf (parent : CostRow) (rule : AllocationRule) (children : List CostRecord) :
    Prop where
  amounts : (children.map fun c => c.amountUsd).sum = parent.amountUsd
  scale : ∀ c ∈ children, HasScale CostRecord.moneyScale c.amountUsd
  source : ∀ c ∈ children, c.source = parent.source
  occurredAt : ∀ c ∈ children, c.occurredAt = parent.occurredAt
  project : ∀ c ∈ children, c.project = parent.project
  agentId : ∀ c ∈ children, c.agentId = parent.agentId
  useCase : ∀ c ∈ children, c.useCase = parent.useCase
  allocated : ∀ c ∈ children, c.allocated = false
  parentId : ∀ c ∈ children, c.allocationParentId = some parent.id
  ruleName : ∀ c ∈ children, c.allocationRule = some rule.name

theorem amountUsd_mem_shares {num : Arith} {parent : CostRow} {rule : AllocationRule}
    {shares : Dict String ℚ} {children : List CostRecord}
    (h : buildChildren num parent rule shares = .ok children) :
    ∀ c ∈ children, c.amountUsd ∈ shares.values := by
  obtain ⟨quantities, rfl⟩ := buildChildren_cases h
  intro c hc
  obtain ⟨e, he, rfl⟩ := List.mem_map.mp hc
  exact List.mem_map.mpr ⟨e, he, rfl⟩

/-- **The children carry the parent's money.** -/
theorem children_spec {num : Arith} {parent : CostRow} {rule : AllocationRule}
    {shares : Dict String ℚ} {children : List CostRecord}
    (hsum : shares.values.sum = parent.amountUsd)
    (hscale : ∀ v ∈ shares.values, HasScale CostRecord.moneyScale v)
    (h : buildChildren num parent rule shares = .ok children) :
    ChildrenOf parent rule children := by
  have hshares := amountUsd_mem_shares h
  obtain ⟨quantities, rfl⟩ := buildChildren_cases h
  constructor
  · rw [List.map_map]; exact hsum
  · exact fun c hc => hscale _ (hshares c hc)
  all_goals
    intro c hc
    obtain ⟨e, _, rfl⟩ := List.mem_map.mp hc
    rfl

/-! ### Weights -/

theorem whole_iff_hasScale {step : Literal} (hs : step.coeff = 1) {scale : ℤ}
    (he : step.exp = -scale) {v : ℚ} : Whole step.value v ↔ 0 ≤ v ∧ HasScale scale v := by
  have hstep : step.value = (10 : ℚ) ^ (-scale) := he ▸ value_of_coeff_one hs
  constructor
  · intro h
    refine ⟨h.nonneg (value_pos hs), ?_⟩
    obtain ⟨k, rfl⟩ := h
    exact ⟨k, by rw [hstep, Int.cast_natCast]⟩
  · rintro ⟨hv, k, rfl⟩
    rw [← hstep] at hv ⊢
    have hk : 0 ≤ k := by exact_mod_cast nonneg_of_mul_nonneg_left hv (value_pos hs)
    obtain ⟨n, rfl⟩ := Int.eq_ofNat_of_zero_le hk
    exact ⟨n, by rw [Int.cast_natCast]⟩

theorem whole_iff {v : ℚ} :
    Whole STEP.value v ↔ 0 ≤ v ∧ HasScale CostRecord.moneyScale v :=
  whole_iff_hasScale rfl rfl

theorem whole_quantity_iff {v : ℚ} :
    Whole QUANTITY_STEP.value v ↔ 0 ≤ v ∧ HasScale CostRecord.quantityScale v :=
  whole_iff_hasScale rfl rfl

theorem toExp_money {v : ℚ} (h : Whole STEP.value v) :
    toExp halfAway (-CostRecord.moneyScale) v = v :=
  toExp_of_hasScale halfAway_intCast (whole_iff.mp h).2

theorem amount_of_whole {rows : List CostRow} (h : ∀ r ∈ rows, Whole STEP.value r.amountUsd) :
    amount rows = (rows.map fun r => r.amountUsd).sum :=
  amount_of_hasScale fun r hr => (whole_iff.mp (h r hr)).2

theorem values_ofKeys_forall {f : String → ℚ} {P : ℚ → Prop} {ks : List String}
    (h : ∀ k ∈ ks, P (f k)) : ∀ v ∈ (Dict.ofKeys f ks).values, P v := by
  intro v hv
  obtain ⟨e, he, rfl⟩ := List.mem_map.mp hv
  obtain ⟨hk, hval⟩ := Dict.eq_of_mem_entries_ofKeys he
  rw [hval]
  exact h e.1 hk

theorem evenWeights_nonneg (targets : List String) : ∀ v ∈ (evenWeights targets).values, 0 ≤ v :=
  values_ofKeys_forall fun _ _ => zero_le_one

theorem getD_nonneg {d : Dict String ℚ} (h : ∀ v ∈ d.values, 0 ≤ v) (k : String) :
    0 ≤ d.getD k 0 := by
  unfold Dict.getD
  cases hk : d.get? k with
  | none => exact le_rfl
  | some v => exact h v (List.mem_map.mpr ⟨(k, v), Dict.get?_eq_some.mp hk, rfl⟩)

def usageRows (rows : List CostRow) (period : Period) (rule : AllocationRule) : List CostRow :=
  rows.filter fun r => period.contains r.occurredAt && !r.allocated && r.team ∈ rule.targets &&
    r.source ∈ rule.usageSources

/-- The usage query of the rule overflows nowhere. -/
def UsageFits (rows : List CostRow) (period : Period) (rule : AllocationRule) : Prop :=
  ∀ team, amountFits ((usageRows rows period rule).filter fun r => r.team = team) = true

structure NonnegWeighted (rows : List CostRow) (period : Period) (rule : AllocationRule) :
    Prop where
  fixed : rule.strategy = .fixedPercent → ∀ w, rule.weights = some w →
    ∀ team ∈ rule.targets, 0 ≤ w.getD team 0
  usage : rule.strategy = .usageWeighted → ∀ team ∈ rule.targets,
    0 ≤ amount ((usageRows rows period rule).filter fun r => r.team = team)

def AllocationRule.NonnegWeights (rule : AllocationRule) : Prop :=
  ∀ w, rule.weights = some w → ∀ v ∈ w.values, 0 ≤ v

theorem nonnegWeighted_of_whole {rule : AllocationRule} (hrule : rule.NonnegWeights)
    {rows : List CostRow} (hrows : ∀ r ∈ rows, Whole STEP.value r.amountUsd) (period : Period) :
    NonnegWeighted rows period rule := by
  refine ⟨fun _ w hw team _ => getD_nonneg (hrule w hw) team, fun _ team _ => ?_⟩
  have hmem : ∀ r ∈ (usageRows rows period rule).filter fun r => r.team = team,
      Whole STEP.value r.amountUsd := fun r hr =>
    hrows r (List.mem_of_mem_filter (List.mem_of_mem_filter hr))
  rw [amount_of_whole hmem]
  refine List.sum_nonneg fun a ha => ?_
  obtain ⟨r, hr, rfl⟩ := List.mem_map.mp ha
  exact (hmem r hr).nonneg (value_pos rfl)

theorem getD_amounts (rows : List CostRow) (team : String) :
    ((groupRows (fun r => r.team) rows).mapVals fun _ rs => amount rs).getD team 0 =
      amount (rows.filter fun r => r.team = team) := by
  rw [Dict.getD, Dict.get?_mapVals]
  cases hg : Dict.get? (groupRows (fun r => r.team) rows) team with
  | none =>
    have hnil : (rows.filter fun r => r.team = team) = [] := by
      refine List.filter_eq_nil_iff.mpr fun r hr hteam => ?_
      refine Dict.get?_eq_none.mp hg (Dict.mem_keys_ofKeys.mpr ?_)
      exact List.mem_map.mpr ⟨r, hr, of_decide_eq_true hteam⟩
    rw [hnil]
    exact (@amount_of_whole [] (by simp)).symm
  | some rows' =>
    have hrows := (Dict.eq_of_mem_entries_ofKeys (Dict.get?_eq_some.mp hg)).2
    exact congrArg amount hrows

theorem observedWeights_nonneg {num : Arith} {rows : List CostRow} {period : Period}
    {rule : AllocationRule} (h : ∀ team ∈ rule.targets,
      0 ≤ amount ((usageRows rows period rule).filter fun r => r.team = team)) :
    ∀ v ∈ (observedWeights num rows period rule.targets rule.usageSources).values, 0 ≤ v := by
  unfold observedWeights usageByTeam
  dsimp only
  split
  · exact evenWeights_nonneg rule.targets
  · refine values_ofKeys_forall fun team ht => ?_
    rw [getD_amounts]
    exact h team ht

theorem usageWeights_eq_ok {num : Arith} {rows : List CostRow} {rule : AllocationRule}
    {period : Period} {weights : Dict String ℚ} :
    usageWeights num rows period rule.targets rule.usageSources = .ok weights ↔
      UsageFits rows period rule ∧
        weights = observedWeights num rows period rule.targets rule.usageSources := by
  have hfit : castsFit (usageByTeam rows period rule.targets rule.usageSources) = true ↔
      UsageFits rows period rule := castsFit_groupRows
  rw [← hfit]
  unfold usageWeights
  split
  · rename_i h
    rw [and_iff_right h, Except.ok.injEq, eq_comm]
  · rename_i h
    exact ⟨fun hw => (by cases hw), fun hw => absurd hw.1 h⟩

/-- **What weights a rule resolves to.**  A fixed rule has a weight for each of its
targets, so only the flush and the usage query can fail. -/
theorem resolveWeights_eq_ok {num : Arith} {session : Session} {rule : AllocationRule}
    {period : Period} {weights : Dict String ℚ} :
    resolveWeights num session rule period = .ok weights ↔
      (rule.strategy = .evenSplit ∧ weights = evenWeights rule.targets) ∨
      (rule.strategy = .fixedPercent ∧ ∃ d, rule.weights = some d ∧
        weights = Dict.ofKeys (fun team => d.getD team 0) rule.targets) ∨
      (rule.strategy = .usageWeighted ∧ (∃ w, session.flush = .ok w) ∧
        UsageFits session.rows period rule ∧
        weights = observedWeights num session.rows period rule.targets rule.usageSources) := by
  unfold resolveWeights
  cases hs : rule.strategy with
  | evenSplit => simp [eq_comm]
  | fixedPercent =>
    obtain ⟨d, hd, hkeys⟩ := rule.weighted hs
    have hfind : rule.targets.find? (· ∉ d.keys) = none :=
      List.find?_eq_none.mpr fun team ht => by simpa using hkeys team ht
    simp only [hd, hfind]
    simp [eq_comm]
  | usageWeighted =>
    cases hf : session.flush with
    | error e => simp [bind, Except.bind]
    | ok w => simp [bind, Except.bind, Session.toSession_of_flush hf, usageWeights_eq_ok]

/-- **Whatever the strategy, no weight is negative.** -/
theorem resolveWeights_nonneg {num : Arith} {session : Session} {rule : AllocationRule}
    {period : Period} {weights : Dict String ℚ} (hn : NonnegWeighted session.rows period rule)
    (h : resolveWeights num session rule period = .ok weights) : ∀ v ∈ weights.values, 0 ≤ v := by
  rcases resolveWeights_eq_ok.mp h with ⟨_, rfl⟩ | ⟨hs, d, hd, rfl⟩ | ⟨hs, _, _, rfl⟩
  · exact evenWeights_nonneg rule.targets
  · exact values_ofKeys_forall (hn.fixed hs d hd)
  · exact observedWeights_nonneg (hn.usage hs)

end Finops
