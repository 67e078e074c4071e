import Finops.Base.Apportion
import Finops.Attribution.Engine
import Mathlib.Data.String.Basic

/-!
# Allocation of shared cost

`applyAllocationRules` walks over the unallocated, unsplit records of a period.
Each one that some rule matches is split: `resolveWeights` says by which
weights, `splitAmount` divides the amount so that the shares sum to it, and
`buildChildren` makes one child record per target.  The parent is kept and
marked allocated.

The pass runs inside the caller's transaction.  A raise leaves what the parents
before it have written in the session, and `settle` is the end of the
transaction: what the session holds is committed unless the database rejected a
statement of it.
-/

namespace Finops

open Numerics

def STEP : Literal := ⟨1, -8⟩

def QUANTITY_STEP : Literal := ⟨1, -4⟩

inductive AllocationStrategy
  | evenSplit
  | usageWeighted
  | fixedPercent
  deriving DecidableEq, Repr

def AllocationStrategy.str : AllocationStrategy → String
  | evenSplit => "even_split"
  | usageWeighted => "usage_weighted"
  | fixedPercent => "fixed_percent"

structure RuleFields where
  name : String
  strategy : AllocationStrategy
  targets : List String
  source : Option CostSource := none
  matchTeam : String := UNATTRIBUTED
  matchProject : Option String := none
  weights : Option (Dict String ℚ) := none
  usageSources : List CostSource := [.llm]
  priority : ℤ := 100

/-- Which shared records to split, across whom, and how: fields that
`__post_init__` has let through. -/
structure AllocationRule extends RuleFields where
  targets_ne : targets ≠ []
  weighted : strategy = .fixedPercent → ∃ w, weights = some w ∧ ∀ t ∈ targets, t ∈ w.keys

def AllocationRule.matchesRecord (rule : AllocationRule) (r : CostRecord) : Bool :=
  if r.allocated || r.isAllocationChild then false
  else if r.team ≠ rule.matchTeam then false
  else if rule.source.any (· ≠ r.source) then false
  else !rule.matchProject.any (· ≠ r.project)

structure AllocationSummary where
  parentsAllocated : ℕ := 0
  childrenCreated : ℕ := 0
  amountAllocated : ℚ := 0
  skippedNoRule : ℕ := 0

def evenWeights (targets : List String) : Dict String ℚ := Dict.ofKeys (fun _ => 1) targets

/-- `sorted(shares, key=lambda name: (-(exact[name] - shares[name]), name))`. -/
def ranksBefore (num : Arith) (exact shares : Dict String ℚ) (a b : String) : Prop :=
  let key (name : String) : ℚ :=
    num.dec (-num.dec (exact.getD name 0 - shares.getD name 0))
  key a < key b ∨ (key a = key b ∧ a ≤ b)

instance (num : Arith) (exact shares : Dict String ℚ) :
    DecidableRel (ranksBefore num exact shares) := fun a b => by
  unfold ranksBefore; infer_instance

/-- `amount` divided by weight so that the shares sum to it exactly. -/
def splitAmount (num : Arith) (amount : ℚ) (weights : Dict String ℚ) (step : Literal) :
    Except PyError (Dict String ℚ) :=
  if amount < 0 then
    .error (.valueError "split_amount does not handle credits; amount must not be negative")
  else if weights.keys = [] then .error (.valueError "cannot split without weights")
  else
    let totalWeight := num.sum weights.values
    if totalWeight ≤ 0 then .error (.valueError "total weight must be positive")
    else
      let exact := weights.mapVals fun _ w => num.dec (num.dec (amount * w) / totalWeight)
      if ∀ v ∈ exact.values, num.fits step.exp v = true then
        let shares := exact.mapVals fun _ v => toExp down step.exp v
        let remainder := num.dec (amount - num.sum shares.values)
        let leftoverSteps := down (num.dec (remainder / step.value))
        if 0 < leftoverSteps then
          let ranked := shares.keys.insertionSort (ranksBefore num exact shares)
          .ok ((ranked.take leftoverSteps.toNat).foldl
            (fun d name => d.adjust name fun v => num.dec (v + step.value)) shares)
        else .ok shares
      else .error .invalidOperation

def usageByTeam (rows : List CostRow) (period : Period) (targets : List String)
    (sources : List CostSource) : Dict String (List CostRow) :=
  groupRows (fun r => r.team) (rows.filter fun r =>
    period.contains r.occurredAt && !r.allocated && r.team ∈ targets && r.source ∈ sources)

/-- Each target weighted by what was found for it; even when nobody spent anything. -/
def observedWeights (num : Arith) (rows : List CostRow) (period : Period) (targets : List String)
    (sources : List CostSource) : Dict String ℚ :=
  let observed := (usageByTeam rows period targets sources).mapVals fun _ rs => amount rs
  let weights := Dict.ofKeys (fun target => observed.getD target 0) targets
  if num.sum weights.values ≤ 0 then evenWeights targets else weights

def usageWeights (num : Arith) (rows : List CostRow) (period : Period) (targets : List String)
    (sources : List CostSource) : Except PyError (Dict String ℚ) :=
  if castsFit (usageByTeam rows period targets sources) then
    .ok (observedWeights num rows period targets sources)
  else .error .dataError

def precedes (a b : AllocationRule) : Prop :=
  a.priority < b.priority ∨ (a.priority = b.priority ∧ a.name ≤ b.name)

instance : DecidableRel precedes := fun a b => by unfold precedes; infer_instance

def selectRule (r : CostRecord) (rules : List AllocationRule) : Option AllocationRule :=
  (rules.insertionSort precedes).find? fun rule => rule.matchesRecord r

/-- The weights a rule implies for this period.  The usage query flushes the
session first. -/
def resolveWeights (num : Arith) (session : Session) (rule : AllocationRule) (period : Period) :
    Except PyError (Dict String ℚ) :=
  match rule.strategy with
  | .evenSplit => .ok (evenWeights rule.targets)
  | .fixedPercent =>
    match rule.weights with
    | none => .error .typeError
    | some w =>
      match rule.targets.find? (· ∉ w.keys) with
      | some target => .error (.keyError target)
      | none => .ok (Dict.ofKeys (fun target => w.getD target 0) rule.targets)
  | .usageWeighted => do
    let w ← session.flush
    usageWeights num w.rows period rule.targets rule.usageSources

def childOf (parent : CostRow) (rule : AllocationRule) (quantities : Dict String ℚ)
    (team : String) (amount : ℚ) : CostRecord :=
  { source := parent.source
    dedupKey := s!"alloc:{rule.name}:{parent.dedupKey}:{team}"
    occurredAt := parent.occurredAt
    amountUsd := amount
    quantity := quantities.get? team
    unit := parent.unit
    model := parent.model
    team := team
    project := parent.project
    agentId := parent.agentId
    useCase := parent.useCase
    allocationParentId := some parent.id
    allocationRule := some rule.name
    raw := [("allocated_from", .str parent.dedupKey), ("strategy", .str rule.strategy.str),
      ("rule", .str rule.name)] }

def buildChildren (num : Arith) (parent : CostRow) (rule : AllocationRule)
    (shares : Dict String ℚ) : Except PyError (List CostRecord) := do
  let quantityShares ← match parent.quantity with
    | none => .ok Dict.empty
    | some quantity =>
      splitAmount num quantity (shares.mapVals fun _ v => if v = 0 then STEP.value else v)
        QUANTITY_STEP
  return shares.entries.map fun (team, amount) =>
    childOf parent rule quantityShares team amount

theorem buildChildren_cases {num : Arith} {parent : CostRow} {rule : AllocationRule}
    {shares : Dict String ℚ} {children : List CostRecord}
    (h : buildChildren num parent rule shares = .ok children) :
    ∃ quantities : Dict String ℚ,
      children = shares.entries.map fun e => childOf parent rule quantities e.1 e.2 := by
  unfold buildChildren at h
  cases hq : parent.quantity with
  | none =>
    rw [hq] at h
    exact ⟨Dict.empty, (Except.ok.inj h).symm⟩
  | some quantity =>
    rw [hq] at h
    cases hs : splitAmount num quantity
        (shares.mapVals fun _ v => if v = 0 then STEP.value else v) QUANTITY_STEP with
    | error e => simp only [hs] at h; cases h
    | ok q =>
      simp only [hs] at h
      exact ⟨q, (Except.ok.inj h).symm⟩

/-! ### The pass -/

structure Pass where
  session : Session
  summary : AllocationSummary

def allocateParent (num : Arith) (period : Period) (rules : List AllocationRule) (st : Pass)
    (parent : CostRow) : Except PyError Pass :=
  match selectRule parent.toCostRecord rules with
  | none =>
    .ok { st with summary := { st.summary with skippedNoRule := st.summary.skippedNoRule + 1 } }
  | some rule => do
    let weights ← resolveWeights num st.session rule period
    let shares ← splitAmount num parent.amountUsd weights STEP
    let children ← buildChildren num parent rule shares
    return {
      session := (st.session.addAll children).markAllocated parent.id rule.name
      summary := { st.summary with
        parentsAllocated := st.summary.parentsAllocated + 1
        childrenCreated := st.summary.childrenCreated + children.length
        amountAllocated := num.dec (st.summary.amountAllocated + parent.amountUsd) } }

/-- **What one turn does**: nothing but counting, or one split. -/
theorem allocateParent_cases {num : Arith} {period : Period} {rules : List AllocationRule}
    {st st' : Pass} {parent : CostRow}
    (h : allocateParent num period rules st parent = .ok st') :
    (selectRule parent.toCostRecord rules = none ∧ st' =
      { st with summary := { st.summary with skippedNoRule := st.summary.skippedNoRule + 1 } }) ∨
    ∃ rule weights shares children,
      selectRule parent.toCostRecord rules = some rule ∧
      resolveWeights num st.session rule period = .ok weights ∧
      splitAmount num parent.amountUsd weights STEP = .ok shares ∧
      buildChildren num parent rule shares = .ok children ∧
      st' =
        { session := (st.session.addAll children).markAllocated parent.id rule.name
          summary := { st.summary with
            parentsAllocated := st.summary.parentsAllocated + 1
            childrenCreated := st.summary.childrenCreated + children.length
            amountAllocated := num.dec (st.summary.amountAllocated + parent.amountUsd) } } := by
  unfold allocateParent at h
  cases hr : selectRule parent.toCostRecord rules with
  | none =>
    rw [hr] at h
    exact .inl ⟨rfl, (Except.ok.inj h).symm⟩
  | some rule =>
    simp only [hr] at h
    cases hw : resolveWeights num st.session rule period with
    | error e => rw [hw] at h; cases h
    | ok weights =>
      rw [hw] at h
      simp only [bind, Except.bind] at h
      cases hs : splitAmount num parent.amountUsd weights STEP with
      | error e => rw [hs] at h; cases h
      | ok shares =>
        simp only [hs] at h
        cases hb : buildChildren num parent rule shares with
        | error e => rw [hb] at h; cases h
        | ok children =>
          simp only [hb] at h
          exact .inr ⟨rule, weights, shares, children, rfl, hw, hs, hb, (Except.ok.inj h).symm⟩

theorem selectRule_mem {r : CostRecord} {rules : List AllocationRule} {rule : AllocationRule}
    (h : selectRule r rules = some rule) : rule ∈ rules ∧ rule.matchesRecord r = true :=
  ⟨(List.mem_insertionSort _).mp (List.mem_of_find?_eq_some h),
    List.find?_some (p := fun rule : AllocationRule => rule.matchesRecord r) h⟩

/-- The loop: it stops where a turn raises, with what the turns before it did. -/
def allocate (num : Arith) (period : Period) (rules : List AllocationRule) :
    Pass → List CostRow → Pass × Option PyError
  | st, [] => (st, none)
  | st, parent :: rest =>
    match allocateParent num period rules st parent with
    | .ok st' => allocate num period rules st' rest
    | .error e => (st, some e)

def isCandidate (period : Period) (r : CostRecord) : Bool :=
  period.contains r.occurredAt && !r.allocated && r.allocationParentId.isNone

/-- The candidates, in the order the database returns them: by `order` of their
ids, which may be anything. -/
def candidates (order : ℕ → ℕ) (period : Period) (rows : List CostRow) : List CostRow :=
  (rows.filter fun r => isCandidate period r.toCostRecord).insertionSort
    fun a b => order a.id ≤ order b.id

def applyAllocationRules (num : Arith) (order : ℕ → ℕ) (w : Warehouse) (period : Period)
    (rules : List AllocationRule) : Session × Except PyError AllocationSummary :=
  match allocate num period rules ⟨w.toSession, {}⟩ (candidates order period w.rows) with
  | (st, some e) => (st.session, .error e)
  | (st, none) =>
    match st.session.flush with
    | .ok w' => (w'.toSession, .ok st.summary)
    | .error e => (st.session, .error e)

theorem applyAllocationRules_session (num : Arith) (order : ℕ → ℕ) (w : Warehouse)
    (period : Period) (rules : List AllocationRule) :
    (applyAllocationRules num order w period rules).1 =
      (allocate num period rules ⟨w.toSession, {}⟩ (candidates order period w.rows)).1.session := by
  unfold applyAllocationRules
  split
  · rename_i st e ha; rw [ha]
  · rename_i st ha
    rw [ha]
    split
    · rename_i w' hf; exact Session.toSession_of_flush hf
    · rfl

/-- The end of the caller's transaction.  A statement that the database rejected
rolls all of it back; otherwise what the session holds is committed. -/
def settle (w : Warehouse) (result : Session × Except PyError AllocationSummary) : Warehouse :=
  match result with
  | (_, .error .integrityError) => w
  | (_, .error .dataError) => w
  | (session, _) => Session.commit w session

theorem settle_cases (w : Warehouse) (result : Session × Except PyError AllocationSummary) :
    settle w result = w ∨ (settle w result).toSession = result.1 := by
  unfold settle
  split
  · exact .inl rfl
  · exact .inl rfl
  · exact Session.commit_cases w _

end Finops
