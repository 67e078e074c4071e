import Finops.Base.Run
import Finops.Attribution.Fair

/-!
# Allocation conserves the ledger

The warehouse is driven by two kinds of steps: collected records are inserted,
and an allocation pass is run over some period with some rules.  A pass that
raises keeps the parents it has already split; one that the database rejects is
rolled back (`settle`).

`Balanced` is what carries every step: over any window and any filter that does
not look at the team, the rows that count toward totals (not allocated) and the
collected rows (no parent) sum to the same.  A turn of the allocation loop takes
one collected row out of the first sum and puts its children in, which sum to it
and are found by the same filters (`balanced_split`).
-/

namespace Finops

open Numerics Apportion

/-! ### What the two sums count -/

def inScope (period : Period) (filters : CostFilters) (r : CostRecord) : Bool :=
  period.contains r.occurredAt && filters.admits r

/-- What a row adds to `totalSpend` with the default filters. -/
def spendOf (period : Period) (filters : CostFilters) (r : CostRow) : ℚ :=
  if !r.allocated && inScope period filters r.toCostRecord then r.amountUsd else 0

def bookedOf (period : Period) (filters : CostFilters) (r : CostRow) : ℚ :=
  if r.allocationParentId.isNone && inScope period filters r.toCostRecord then r.amountUsd else 0

def collected (rows : List CostRow) : List CostRow :=
  rows.filter fun r => r.allocationParentId.isNone

theorem conditions_eq_inScope (period : Period) {filters : CostFilters}
    (h : filters.includeAllocatedParents = false) (r : CostRecord) :
    conditions period filters r = (!r.allocated && inScope period filters r) := by
  rw [conditions, inScope, h, Bool.false_or]
  cases period.contains r.occurredAt <;> cases r.allocated <;> rfl

theorem sum_filter_eq (p : CostRow → Bool) (rows : List CostRow) :
    ((rows.filter p).map fun r => r.amountUsd).sum =
      (rows.map fun r => if p r then r.amountUsd else 0).sum := by
  induction rows with
  | nil => rfl
  | cons r rows ih =>
    rw [List.map_cons, List.sum_cons]
    cases hp : p r with
    | true => rw [List.filter_cons_of_pos hp, List.map_cons, List.sum_cons, ih]; rfl
    | false => rw [List.filter_cons_of_neg (by simp [hp]), ih]; simp

theorem totalSpend_eq {rows : List CostRow} (hw : ∀ r ∈ rows, Whole STEP.value r.amountUsd)
    (period : Period) {filters : CostFilters} (h : filters.includeAllocatedParents = false) :
    totalSpend rows period filters = (rows.map (spendOf period filters)).sum := by
  rw [totalSpend, amount_of_whole fun r hr => hw r (List.mem_of_mem_filter hr), sum_filter_eq]
  refine congrArg List.sum (List.map_congr_left fun r _ => ?_)
  rw [conditions_eq_inScope period h, spendOf]

theorem sum_collected_eq (rows : List CostRow) (period : Period) (filters : CostFilters) :
    (((collected rows).filter fun r => inScope period filters r.toCostRecord).map
      fun r => r.amountUsd).sum = (rows.map (bookedOf period filters)).sum := by
  rw [collected, List.filter_filter, sum_filter_eq]
  refine congrArg List.sum (List.map_congr_left fun r _ => ?_)
  rw [bookedOf, Bool.and_comm]

/-! ### The balance -/

/-- The rows that count and the rows that were collected sum to the same. -/
structure Balanced (session : Session) : Prop where
  whole : ∀ r ∈ session.rows, Whole STEP.value r.amountUsd
  balance : ∀ (period : Period) (filters : CostFilters), filters.teams = [] →
    (session.rows.map (spendOf period filters)).sum =
      (session.rows.map (bookedOf period filters)).sum

structure Fresh (r : CostRecord) : Prop where
  allocated : r.allocated = false
  noParent : r.allocationParentId = none
  whole : Whole STEP.value r.amountUsd

theorem balanced_add {session : Session} (h : Balanced session) {r : CostRecord} (hr : Fresh r) :
    Balanced (session.add r) := by
  constructor
  · intro q hq
    rcases List.mem_append.mp hq with hq | hq
    · exact h.whole q hq
    · rw [List.mem_singleton.mp hq]
      change Whole STEP.value (toExp halfAway (-CostRecord.moneyScale) r.amountUsd)
      rw [toExp_money hr.whole]
      exact hr.whole
  · intro period filters hf
    rw [Session.rows_add, List.map_append, List.map_append, List.sum_append, List.sum_append,
      h.balance period filters hf]
    congr 1
    have ha : r.stored.allocated = false := hr.allocated
    have hp : r.stored.allocationParentId = none := hr.noParent
    simp [spendOf, bookedOf, ha, hp]

theorem balanced_addAll {rs : List CostRecord} :
    ∀ {session : Session}, Balanced session → (∀ r ∈ rs, Fresh r) →
      Balanced (session.addAll rs) := by
  induction rs with
  | nil => intro session h _; exact h
  | cons r rs ih =>
    intro session h hrs
    exact ih (balanced_add h (hrs r List.mem_cons_self))
      fun q hq => hrs q (List.mem_cons_of_mem r hq)

/-! ### One split -/

theorem inScope_child {parent : CostRow} {rule : AllocationRule} {children : List CostRecord}
    (hc : ChildrenOf parent rule children) (period : Period) {filters : CostFilters}
    (hf : filters.teams = []) {c : CostRecord} (h : c ∈ children) :
    inScope period filters c.stored = inScope period filters parent.toCostRecord := by
  have hs : c.stored.source = parent.source := hc.source c h
  have ho : c.stored.occurredAt = parent.occurredAt := hc.occurredAt c h
  have hp : c.stored.project = parent.project := hc.project c h
  have ha : c.stored.agentId = parent.agentId := hc.agentId c h
  have hu : c.stored.useCase = parent.useCase := hc.useCase c h
  simp only [inScope, CostFilters.admits, hf, hs, ho, hp, ha, hu, oneOf, List.isEmpty_nil,
    Bool.true_or]

theorem spend_children {parent : CostRow} {rule : AllocationRule} {children : List CostRecord}
    (hc : ChildrenOf parent rule children) (period : Period) {filters : CostFilters}
    (hf : filters.teams = []) (n : ℕ) :
    ((Session.numbered n children).map (spendOf period filters)).sum =
      if inScope period filters parent.toCostRecord then parent.amountUsd else 0 := by
  have hmap : (Session.numbered n children).map (spendOf period filters) =
      children.map fun c =>
        if inScope period filters parent.toCostRecord then c.amountUsd else 0 := by
    refine (Session.map_numbered (fun c => if !c.allocated && inScope period filters c
      then c.amountUsd else 0) children n).trans (List.map_congr_left fun c h => ?_)
    have ha : c.stored.allocated = false := hc.allocated c h
    have hv : c.stored.amountUsd = c.amountUsd := toExp_of_hasScale halfAway_intCast (hc.scale c h)
    rw [ha, hv, inScope_child hc period hf h, Bool.not_false, Bool.true_and]
  rw [hmap]
  split
  · exact hc.amounts
  · simp

theorem booked_children {parent : CostRow} {rule : AllocationRule} {children : List CostRecord}
    (hc : ChildrenOf parent rule children) (period : Period) (filters : CostFilters) (n : ℕ) :
    ((Session.numbered n children).map (bookedOf period filters)).sum = 0 := by
  refine List.sum_eq_zero fun v hv => ?_
  obtain ⟨q, hq, rfl⟩ := List.mem_map.mp hv
  obtain ⟨c, h, he⟩ := Session.mem_numbered hq
  have hp : q.allocationParentId = some parent.id := by
    rw [he]; exact hc.parentId c h
  simp [bookedOf, hp]

theorem sum_markAllocated {session : Session} {parent : CostRow} (hm : parent ∈ session.rows)
    (ruleName : String) (f : CostRow → ℚ) :
    ((session.markAllocated parent.id ruleName).rows.map f).sum + f parent =
      (session.rows.map f).sum +
        f { parent with allocated := true, allocationRule := some ruleName } := by
  rw [Session.markAllocated, List.map_map]
  have hfun : (f ∘ fun r : CostRow => if r.id = parent.id then
      { r with allocated := true, allocationRule := some ruleName } else r) =
      fun r : CostRow => if r.id = parent.id then
        f { r with allocated := true, allocationRule := some ruleName } else f r := by
    funext r
    simp only [Function.comp]
    split <;> rfl
  rw [hfun]
  exact sum_ite_key session.ids hm _ f

theorem spend_split {session : Session} {parent : CostRow} (hm : parent ∈ session.rows)
    (ha : parent.allocated = false) {rule : AllocationRule} {children : List CostRecord}
    (hc : ChildrenOf parent rule children) (period : Period) {filters : CostFilters}
    (hf : filters.teams = []) :
    (((session.addAll children).markAllocated parent.id rule.name).rows.map
      (spendOf period filters)).sum = (session.rows.map (spendOf period filters)).sum := by
  have hm' : parent ∈ (session.addAll children).rows := by
    rw [Session.rows_addAll]; exact List.mem_append_left _ hm
  have hs := sum_markAllocated hm' rule.name (spendOf period filters)
  rw [Session.rows_addAll, List.map_append, List.sum_append, spend_children hc period hf] at hs
  have hmarked : spendOf period filters
      { parent with allocated := true, allocationRule := some rule.name } = 0 := by
    simp [spendOf]
  have hcounts : spendOf period filters parent =
      if inScope period filters parent.toCostRecord then parent.amountUsd else 0 := by
    rw [spendOf, ha, Bool.not_false, Bool.true_and]
  rw [hmarked, hcounts] at hs
  linarith

theorem booked_split {session : Session} {parent : CostRow} (hm : parent ∈ session.rows)
    {rule : AllocationRule} {children : List CostRecord} (hc : ChildrenOf parent rule children)
    (period : Period) (filters : CostFilters) :
    (((session.addAll children).markAllocated parent.id rule.name).rows.map
      (bookedOf period filters)).sum = (session.rows.map (bookedOf period filters)).sum := by
  have hm' : parent ∈ (session.addAll children).rows := by
    rw [Session.rows_addAll]; exact List.mem_append_left _ hm
  have hb := sum_markAllocated hm' rule.name (bookedOf period filters)
  rw [Session.rows_addAll, List.map_append, List.sum_append, booked_children hc] at hb
  have hbooked : bookedOf period filters
      { parent with allocated := true, allocationRule := some rule.name } =
      bookedOf period filters parent := rfl
  rw [hbooked] at hb
  linarith

/-- **A split keeps the balance.** -/
theorem balanced_split {session : Session} (h : Balanced session) {parent : CostRow}
    (hm : parent ∈ session.rows) (ha : parent.allocated = false) {rule : AllocationRule}
    {children : List CostRecord} (hc : ChildrenOf parent rule children)
    (hnn : ∀ c ∈ children, 0 ≤ c.amountUsd) :
    Balanced ((session.addAll children).markAllocated parent.id rule.name) := by
  constructor
  · intro q hq
    obtain ⟨r, hr, rfl⟩ := List.mem_map.mp hq
    have hw : Whole STEP.value r.amountUsd := by
      rw [Session.rows_addAll] at hr
      rcases List.mem_append.mp hr with hr | hr
      · exact h.whole r hr
      · obtain ⟨c, hcm, he⟩ := Session.mem_numbered hr
        have hv : r.amountUsd = toExp halfAway (-CostRecord.moneyScale) c.amountUsd := by
          rw [he]; rfl
        have hwhole := whole_iff.mpr ⟨hnn c hcm, hc.scale c hcm⟩
        rw [hv, toExp_money hwhole]
        exact hwhole
    split <;> exact hw
  · intro period filters hf
    rw [spend_split hm ha hc period hf, booked_split hm hc period filters,
      h.balance period filters hf]

/-! ### What no step changes -/

structure Entry where
  id : ℕ
  source : CostSource
  occurredAt : Instant
  amountUsd : ℚ
  team : String
  project : String
  agentId : String
  useCase : String
  model : Option String

def CostRow.entry (r : CostRow) : Entry :=
  ⟨r.id, r.source, r.occurredAt, r.amountUsd, r.team, r.project, r.agentId, r.useCase, r.model⟩

def journal (rows : List CostRow) : List Entry := (collected rows).map CostRow.entry

theorem journal_append (rows more : List CostRow) :
    journal (rows ++ more) = journal rows ++ journal more := by
  rw [journal, collected, List.filter_append, List.map_append]; rfl

theorem journal_addAll (session : Session) (rs : List CostRecord) :
    journal session.rows <+: journal (session.addAll rs).rows := by
  rw [Session.rows_addAll, journal_append]
  exact List.prefix_append _ _

theorem journal_markAllocated (session : Session) (id : ℕ) (ruleName : String) :
    journal (session.markAllocated id ruleName).rows = journal session.rows := by
  rw [Session.markAllocated, journal, journal, collected, collected, List.filter_map, List.map_map]
  have hpred : ((fun r : CostRow => r.allocationParentId.isNone) ∘ fun r : CostRow =>
      if r.id = id then { r with allocated := true, allocationRule := some ruleName } else r) =
      fun r : CostRow => r.allocationParentId.isNone := by
    funext r
    simp only [Function.comp]
    split <;> rfl
  rw [hpred]
  refine List.map_congr_left fun r _ => ?_
  simp only [Function.comp]
  split <;> rfl

theorem journal_split {session : Session} {parent : CostRow} {rule : AllocationRule}
    {children : List CostRecord} (hc : ChildrenOf parent rule children) :
    journal ((session.addAll children).markAllocated parent.id rule.name).rows =
      journal session.rows := by
  rw [journal_markAllocated, Session.rows_addAll, journal_append]
  have hnone : journal (Session.numbered session.nextId children) = [] := by
    rw [journal, List.map_eq_nil_iff, collected, List.filter_eq_nil_iff]
    intro q hq
    obtain ⟨c, h, he⟩ := Session.mem_numbered hq
    have hp : q.allocationParentId = some parent.id := by
      rw [he]; exact hc.parentId c h
    simp [hp]
  rw [hnone, List.append_nil]

/-! ### One pass -/

/-- The parents still to come are rows of the session, not yet allocated. -/
structure Ready (session : Session) (ps : List CostRow) : Prop where
  mem : ∀ p ∈ ps, p ∈ session.rows
  open_ : ∀ p ∈ ps, p.allocated = false
  distinct : (ps.map CostRow.id).Nodup

theorem ready_split {session : Session} {parent : CostRow} {rest : List CostRow}
    (h : Ready session (parent :: rest)) (children : List CostRecord) (ruleName : String) :
    Ready ((session.addAll children).markAllocated parent.id ruleName) rest := by
  obtain ⟨hnot, hnd⟩ := List.nodup_cons.mp h.distinct
  refine ⟨fun p hp => ?_, fun p hp => h.open_ p (List.mem_cons_of_mem parent hp), hnd⟩
  have hne : p.id ≠ parent.id := fun he => hnot (he ▸ List.mem_map.mpr ⟨p, hp, rfl⟩)
  refine List.mem_map.mpr ⟨p, ?_, if_neg hne⟩
  rw [Session.rows_addAll]
  exact List.mem_append_left _ (h.mem p (List.mem_cons_of_mem parent hp))

theorem allocateParent_keeps {period : Period} {rules : List AllocationRule}
    (hrules : ∀ rule ∈ rules, rule.NonnegWeights) {st st' : Pass} {parent : CostRow}
    {rest : List CostRow} (hb : Balanced st.session) (hready : Ready st.session (parent :: rest))
    (h : allocateParent .exact period rules st parent = .ok st') :
    Balanced st'.session ∧ journal st'.session.rows = journal st.session.rows ∧
      Ready st'.session rest := by
  rcases allocateParent_cases h with
    ⟨_, rfl⟩ | ⟨rule, weights, shares, children, hsel, hw, hs, hch, rfl⟩
  · refine ⟨hb, rfl, fun p hp => hready.mem p (List.mem_cons_of_mem parent hp),
      fun p hp => hready.open_ p (List.mem_cons_of_mem parent hp), ?_⟩
    exact (List.nodup_cons.mp hready.distinct).2
  · have hparent := hready.mem parent List.mem_cons_self
    have hnn := resolveWeights_nonneg
      (nonnegWeighted_of_whole (hrules rule (selectRule_mem hsel).1) hb.whole period) hw
    obtain ⟨_, hsum, hwhole⟩ :=
      split_spec (show STEP.coeff = 1 from rfl) (hb.whole parent hparent) hnn hs
    have hc := children_spec hsum (fun v hv => (whole_iff.mp (hwhole v hv)).2) hch
    have hcnn : ∀ c ∈ children, 0 ≤ c.amountUsd := fun c hcm =>
      (whole_iff.mp (hwhole _ (amountUsd_mem_shares hch c hcm))).1
    exact ⟨balanced_split hb hparent (hready.open_ parent List.mem_cons_self) hc hcnn,
      journal_split hc, ready_split hready children rule.name⟩

theorem allocate_keeps {period : Period} {rules : List AllocationRule}
    (hrules : ∀ rule ∈ rules, rule.NonnegWeights) {ps : List CostRow} :
    ∀ {st : Pass}, Balanced st.session → Ready st.session ps →
      Balanced (allocate .exact period rules st ps).1.session ∧
        journal (allocate .exact period rules st ps).1.session.rows = journal st.session.rows := by
  induction ps with
  | nil => intro st hb _; exact ⟨hb, rfl⟩
  | cons parent rest ih =>
    intro st hb hready
    rw [allocate]
    cases h : allocateParent .exact period rules st parent with
    | error e => exact ⟨hb, rfl⟩
    | ok st' =>
      obtain ⟨hb', hj, hready'⟩ := allocateParent_keeps hrules hb hready h
      obtain ⟨hb'', hj'⟩ := ih hb' hready'
      exact ⟨hb'', hj'.trans hj⟩

theorem ready_candidates (order : ℕ → ℕ) (period : Period) (session : Session) :
    Ready session (candidates order period session.rows) := by
  have hmem : ∀ p ∈ candidates order period session.rows,
      p ∈ session.rows ∧ isCandidate period p.toCostRecord = true := fun p hp =>
    List.mem_filter.mp ((List.mem_insertionSort _).mp hp)
  refine ⟨fun p hp => (hmem p hp).1, fun p hp => ?_, ?_⟩
  · have := (hmem p hp).2
    simp only [isCandidate, Bool.and_eq_true, Bool.not_eq_true'] at this
    exact this.1.2
  · have hperm := (List.perm_insertionSort (fun a b : CostRow => order a.id ≤ order b.id)
      (session.rows.filter fun r => isCandidate period r.toCostRecord)).map CostRow.id
    exact hperm.nodup_iff.mpr (session.ids.sublist (List.filter_sublist.map _))

/-- **A pass keeps the balance and the journal**, whether it completes or raises. -/
theorem applyAllocationRules_keeps (order : ℕ → ℕ) {w : Warehouse} (period : Period)
    {rules : List AllocationRule} (hrules : ∀ rule ∈ rules, rule.NonnegWeights)
    (hb : Balanced w.toSession) :
    Balanced (applyAllocationRules .exact order w period rules).1 ∧
      journal (applyAllocationRules .exact order w period rules).1.rows = journal w.rows := by
  rw [applyAllocationRules_session]
  exact allocate_keeps hrules hb (ready_candidates order period w.toSession)

/-! ### Runs -/

inductive LedgerStep
  | insert (records : List CostRecord)
  | allocate (order : ℕ → ℕ) (period : Period) (rules : List AllocationRule)

/-- One step; an insert that the database rejects changes nothing. -/
def ledgerStep (w : Warehouse) : LedgerStep → Warehouse
  | .insert records => Session.commit w (w.addAll records)
  | .allocate order period rules => settle w (applyAllocationRules .exact order w period rules)

/-- Inserts bring fresh records, rules have no negative weight. -/
def LedgerStep.Admissible : LedgerStep → Prop
  | .insert records => ∀ r ∈ records, Fresh r
  | .allocate _ _ rules => ∀ rule ∈ rules, rule.NonnegWeights

theorem ledgerStep_keeps {w : Warehouse} {step : LedgerStep} (hs : step.Admissible)
    (hb : Balanced w.toSession) :
    Balanced (ledgerStep w step).toSession ∧
      journal w.rows <+: journal (ledgerStep w step).rows := by
  cases step with
  | insert records =>
    change Balanced (Session.commit w (w.addAll records)).toSession ∧
      journal w.rows <+: journal (Session.commit w (w.addAll records)).rows
    rcases Session.commit_cases w (w.addAll records) with he | he
    · rw [he]; exact ⟨hb, List.prefix_rfl⟩
    · rw [he]; exact ⟨balanced_addAll hb hs, journal_addAll w.toSession records⟩
  | allocate order period rules =>
    obtain ⟨hb', hj⟩ := applyAllocationRules_keeps order period hs hb
    change Balanced (settle w (applyAllocationRules .exact order w period rules)).toSession ∧
      journal w.rows <+: journal (settle w (applyAllocationRules .exact order w period rules)).rows
    rcases settle_cases w (applyAllocationRules .exact order w period rules) with he | he
    · rw [he]; exact ⟨hb, List.prefix_rfl⟩
    · rw [he, hj]; exact ⟨hb', List.prefix_rfl⟩

def Opening (w : Warehouse) : Prop := ∀ r ∈ w.rows, Fresh r.toCostRecord

theorem balanced_of_opening {w : Warehouse} (h : Opening w) : Balanced w.toSession := by
  refine ⟨fun r hr => (h r hr).whole, fun period filters _ => ?_⟩
  refine congrArg List.sum (List.map_congr_left fun r hr => ?_)
  simp [spendOf, bookedOf, (h r hr).allocated, (h r hr).noParent]

theorem balanced_after {w : Warehouse} (h : Opening w) {steps : List LedgerStep}
    (hs : ∀ step ∈ steps, step.Admissible) :
    Balanced (Runs.after ledgerStep w steps).toSession :=
  Runs.invariant_of_mem (I := fun w : Warehouse => Balanced w.toSession)
    (fun _ _ hb hstep => (ledgerStep_keeps hstep hb).1) (balanced_of_opening h) hs

theorem journal_after {steps : List LedgerStep} :
    ∀ {w : Warehouse}, Balanced w.toSession → (∀ step ∈ steps, step.Admissible) →
      journal w.rows <+: journal (Runs.after ledgerStep w steps).rows := by
  induction steps with
  | nil => intro w _ _; exact List.prefix_rfl
  | cons step steps ih =>
    intro w hb hs
    obtain ⟨hb', hj⟩ := ledgerStep_keeps (hs step List.mem_cons_self) hb
    exact hj.trans (ih hb' fun t ht => hs t (List.mem_cons_of_mem step ht))

/-- **Ledger conservation.**  After any run of inserts and allocation passes,
total spend over any window and any filter on project, agent, use case and
source is the exact sum of the collected records that match, and every record
collected so far is still booked as it was. -/
theorem ledger_conserved {w : Warehouse} (h : Opening w) {steps : List LedgerStep}
    (hs : ∀ step ∈ steps, step.Admissible) :
    (∀ (period : Period) (projects agentIds useCases : List String) (sources : List CostSource),
      totalSpend (Runs.after ledgerStep w steps).rows period
          { projects, agentIds, useCases, sources } =
        (((collected (Runs.after ledgerStep w steps).rows).filter fun r =>
          period.contains r.occurredAt &&
            CostFilters.admits { projects, agentIds, useCases, sources } r.toCostRecord).map
          fun r => r.amountUsd).sum) ∧
    ∀ pre, pre <+: steps →
      journal (Runs.after ledgerStep w pre).rows <+:
        journal (Runs.after ledgerStep w steps).rows := by
  constructor
  · intro period projects agentIds useCases sources
    have hb := balanced_after h hs
    rw [totalSpend_eq hb.whole period rfl, hb.balance period _ rfl, ← sum_collected_eq]
    rfl
  · rintro pre ⟨rest, rfl⟩
    rw [Runs.after_append]
    have hpre : ∀ step ∈ pre, step.Admissible := fun t ht => hs t (List.mem_append_left rest ht)
    exact journal_after (balanced_after h hpre) fun t ht => hs t (List.mem_append_right pre ht)

/-! A shared GPU bill, split three ways. -/

def gpuBill : CostRecord :=
  { source := .compute, dedupKey := "gpu", occurredAt := 0, amountUsd := 10 }

def gpuDay : Period := ⟨0, 1, by decide⟩

def gpuRule : AllocationRule where
  name := "gpu"
  strategy := .evenSplit
  targets := ["ml", "search", "web"]
  targets_ne := by decide
  weighted := fun h => by cases h

theorem ledger_conserved_gpu :
    totalSpend (Runs.after ledgerStep Warehouse.empty
      [.insert [gpuBill], .allocate id gpuDay [gpuRule]]).rows gpuDay {} = 10 := by
  have hopen : Opening Warehouse.empty := fun r h => absurd h List.not_mem_nil
  have hbill : Fresh gpuBill := by
    refine ⟨rfl, rfl, 1000000000, ?_⟩
    norm_num [gpuBill, STEP, Literal.value]
  have hrule : gpuRule.NonnegWeights := fun w h => by cases h
  have hsteps : ∀ step ∈ [LedgerStep.insert [gpuBill], .allocate id gpuDay [gpuRule]],
      step.Admissible := by
    simp [LedgerStep.Admissible, hbill, hrule]
  refine ((ledger_conserved hopen hsteps).1 gpuDay [] [] [] []).trans ?_
  decide +kernel

end Finops
