import Finops.Attribution.Children

/-!
# Where each row comes from

A row of the warehouse was collected, or it is the child of one row that was.  `Traceable`
says so of a table: a row that is not allocated has no children, and one that is
allocated has those of the rule that some pass of the run found for it, one for each
target, which carry its money and its quantity.  `traceable_apply` is what one split
keeps of it; a pass that raises or is rolled back leaves whole splits or none, so
`books_traceable` has it after every run.

So each collected record can be followed to the rows that count for it (`countedFor`):
they come to its amount.
-/

namespace Finops

open Numerics Apportion Runs

/-- A pass of the run found the rule for the record. -/
def SplitBy (steps : List LedgerStep) (p : CostRow) (rule : AllocationRule) : Prop :=
  ∃ order period rules, LedgerStep.allocate order period rules ∈ steps ∧
    period.contains p.occurredAt = true ∧
      selectRule { p.toCostRecord with allocated := false } rules = some rule

/-- The rows are what the rule has split the record into. -/
structure SplitInto (p : CostRow) (rule : AllocationRule) (children : List CostRow) : Prop where
  ruleName : p.allocationRule = some rule.name
  teams : (children.map fun c => c.team).Nodup
  targets : ∀ team, team ∈ children.map (fun c => c.team) ↔ team ∈ rule.targets
  made : ∀ c ∈ children, ∃ quantities,
    c.toCostRecord = childOf p rule quantities c.team c.amountUsd
  conserves : Conserves p (children.map fun c => c.team) (children.map CostRow.toCostRecord)

/-- Every row was collected, or is a child of an allocated row that was. -/
structure Traceable (steps : List LedgerStep) (rows : List CostRow) : Prop where
  untouched : ∀ p ∈ rows, p.allocated = false → childrenOf p.id rows = []
  split : ∀ p ∈ rows, p.allocated = true → p.allocationParentId = none ∧
    ∃ rule, SplitBy steps p rule ∧ SplitInto p rule (childrenOf p.id rows)
  parent : ∀ c ∈ rows, ∀ id, c.allocationParentId = some id →
    ∃ p ∈ rows, p.id = id ∧ p.allocated = true

/-- What carries every step: the books, in the scale of the columns, and the traces. -/
structure Accounted (steps : List LedgerStep) (s : Session) : Prop where
  balanced : Balanced s
  quantities : ∀ r ∈ s.rows, ∀ q, r.quantity = some q → HasScale CostRecord.quantityScale q
  traceable : Traceable steps s.rows

variable {steps : List LedgerStep} {s : Session}

/-! ### Children of new rows -/

theorem childrenOf_append (id : ℕ) (rows more : List CostRow) :
    childrenOf id (rows ++ more) = childrenOf id rows ++ childrenOf id more :=
  List.filter_append ..

theorem childrenOf_of_le (h : Traceable steps s.rows) {id : ℕ} (hid : s.nextId ≤ id) :
    childrenOf id s.rows = [] := by
  refine List.filter_eq_nil_iff.mpr fun c hc hp => ?_
  obtain ⟨p, hp, hpid, _⟩ := h.parent c hc id (of_decide_eq_true hp)
  exact (s.ids_lt p hp).not_ge (hpid ▸ hid)

theorem childrenOf_numbered_of_fresh {rs : List CostRecord} (hrs : ∀ r ∈ rs, Fresh r)
    (id n : ℕ) : childrenOf id (Session.numbered n rs) = [] := by
  refine List.filter_eq_nil_iff.mpr fun q hq hp => ?_
  obtain ⟨r, hr, he⟩ := Session.mem_numbered hq
  have hnone : r.stored.allocationParentId = none := (hrs r hr).noParent
  rw [he, hnone] at hp
  simp at hp

/-! ### Inserts -/

theorem traceable_addAll (h : Traceable steps s.rows) {rs : List CostRecord}
    (hrs : ∀ r ∈ rs, Fresh r) : Traceable steps (s.addAll rs).rows := by
  have hchildren : ∀ id, childrenOf id (s.addAll rs).rows = childrenOf id s.rows := by
    intro id
    rw [Session.rows_addAll, childrenOf_append, childrenOf_numbered_of_fresh hrs, List.append_nil]
  have hnew : ∀ q ∈ Session.numbered s.nextId rs,
      q.allocated = false ∧ q.allocationParentId = none := by
    intro q hq
    obtain ⟨r, hr, he⟩ := Session.mem_numbered hq
    rw [he]
    exact ⟨(hrs r hr).allocated, (hrs r hr).noParent⟩
  have hmem : ∀ {q}, q ∈ (s.addAll rs).rows ↔ q ∈ s.rows ∨ q ∈ Session.numbered s.nextId rs := by
    intro q
    rw [Session.rows_addAll, List.mem_append]
  refine ⟨fun p hp ha => ?_, fun p hp ha => ?_, fun c hc id hid => ?_⟩
  · rw [hchildren]
    rcases hmem.mp hp with hp | hp
    · exact h.untouched p hp ha
    · exact childrenOf_of_le h (Session.le_id_of_mem_numbered hp)
  · rw [hchildren]
    rcases hmem.mp hp with hp | hp
    · exact h.split p hp ha
    · rw [(hnew p hp).1] at ha
      cases ha
  · rcases hmem.mp hc with hc | hc
    · obtain ⟨p, hp, hpid⟩ := h.parent c hc id hid
      exact ⟨p, hmem.mpr (.inl hp), hpid⟩
    · rw [(hnew c hc).2] at hid
      cases hid

theorem quantities_addAll (h : ∀ r ∈ s.rows, ∀ q, r.quantity = some q →
    HasScale CostRecord.quantityScale q) (rs : List CostRecord) :
    ∀ r ∈ (s.addAll rs).rows, ∀ q, r.quantity = some q →
      HasScale CostRecord.quantityScale q := by
  intro r hr q hq
  rw [Session.rows_addAll, List.mem_append] at hr
  rcases hr with hr | hr
  · exact h r hr q hq
  · obtain ⟨record, _, he⟩ := Session.mem_numbered hr
    rw [he] at hq
    obtain ⟨v, _, rfl⟩ := Option.map_eq_some_iff.mp hq
    exact hasScale_toExp _ _ v

theorem accounted_addAll (h : Accounted steps s) {rs : List CostRecord} (hrs : ∀ r ∈ rs, Fresh r) :
    Accounted steps (s.addAll rs) :=
  ⟨balanced_addAll h.balanced hrs, quantities_addAll h.quantities rs,
    traceable_addAll h.traceable hrs⟩

/-! ### One split -/

theorem quantity_nonneg {num : Arith} {parent : CostRow} {rule : AllocationRule}
    {shares : Dict String ℚ} {children : List CostRecord}
    (h : buildChildren num parent rule shares = .ok children) {q : ℚ}
    (hq : parent.quantity = some q) : 0 ≤ q := by
  rw [buildChildren_eq, quantityShares, hq] at h
  dsimp only at h
  unfold splitAmount at h
  split at h
  · cases h
  · rename_i hneg
    exact not_lt.mp hneg

theorem Conserves.whole {parent : CostRow} {names : List String} {children : List CostRecord}
    (h : Conserves parent names children) : ∀ c ∈ children, QuantityWhole c.quantity := by
  intro c hc v hv
  cases hp : parent.quantity with
  | none =>
    rw [h.none hp c hc] at hv
    cases hv
  | some q =>
    obtain ⟨qs, hmap, _, hwhole⟩ := h.quantities q hp
    have hmem : c.quantity ∈ qs.map some := hmap ▸ List.mem_map_of_mem hc
    obtain ⟨w, hw, he⟩ := List.mem_map.mp hmem
    rw [hv] at he
    exact Option.some.inj he ▸ hwhole w hw

theorem stored_of_whole {r : CostRecord} (ha : Whole STEP.value r.amountUsd)
    (hq : QuantityWhole r.quantity) : r.stored = r := by
  have hquantity : r.quantity.map (toExp halfAway (-CostRecord.quantityScale)) = r.quantity := by
    cases hr : r.quantity with
    | none => rfl
    | some q =>
      rw [Option.map_some, toExp_of_hasScale halfAway_intCast (whole_quantity_iff.mp (hq q hr)).2]
  rw [CostRecord.stored, toExp_money ha, hquantity]

theorem conserves_of_buildChildren {parent : CostRow} {rule : AllocationRule}
    {shares : Dict String ℚ} {children : List CostRecord} (hne : shares.keys ≠ [])
    (hsum : shares.values.sum = parent.amountUsd)
    (hwhole : ∀ v ∈ shares.values, Whole STEP.value v) (hquantity : QuantityWhole parent.quantity)
    (hb : buildChildren .exact parent rule shares = .ok children) :
    Conserves parent shares.keys children := by
  have hteams : ∀ quantities, (shares.entries.map fun e =>
      childOf parent rule quantities e.1 e.2).map (fun c => c.team) = shares.keys := by
    intro quantities
    rw [List.map_map]
    rfl
  have hamounts : ∀ quantities, ((shares.entries.map fun e =>
      childOf parent rule quantities e.1 e.2).map fun c => c.amountUsd).sum =
        parent.amountUsd := by
    intro quantities
    rw [List.map_map]
    exact hsum
  rw [buildChildren_eq] at hb
  cases hq : parent.quantity with
  | none =>
    have hnone : quantityShares .exact parent shares = .ok Dict.empty := by
      rw [quantityShares, hq]
    rw [hnone] at hb
    obtain rfl := Except.ok.inj hb
    refine ⟨hteams _, hamounts _, fun _ c hc => ?_, fun q hq' => ?_⟩
    · obtain ⟨e, _, rfl⟩ := List.mem_map.mp hc
      rfl
    · rw [hq] at hq'
      cases hq'
  | some q =>
    obtain ⟨quantities, hok, hk, hqsum, hqwhole⟩ := exists_quantityShares hne
      (fun v hv => (hwhole v hv).nonneg (value_pos rfl)) (hquantity q hq)
    have hsome : quantityShares .exact parent shares = .ok quantities := by
      rw [quantityShares, hq]
      exact hok
    rw [hsome] at hb
    obtain rfl := Except.ok.inj hb
    refine ⟨hteams _, hamounts _, fun hq' => ?_, fun q' hq' => ?_⟩
    · rw [hq] at hq'
      cases hq'
    · obtain rfl := Option.some.inj (hq.symm.trans hq')
      refine ⟨quantities.values, ?_, hqsum, hqwhole⟩
      rw [← Dict.map_get?_keys, hk, Dict.keys, List.map_map, List.map_map]
      rfl

/-- **What a split writes**: the children as they are, and they conserve the record. -/
theorem split_conserves (h : Accounted steps s) {period : Period} {rules : List AllocationRule}
    (hrules : ∀ rule ∈ rules, rule.NonnegWeights) {x : Split} (hx : x.parent ∈ s.rows)
    (hof : x.Of .exact s period rules) : Conserves x.parent x.shares.keys x.children ∧
      ∀ c ∈ x.children, c.stored = c := by
  obtain ⟨hsel, weights, hw, hshares, hb⟩ := hof
  have hamount := h.balanced.whole x.parent hx
  have hnn := resolveWeights_nonneg
    (nonnegWeighted_of_whole (hrules x.rule (selectRule_mem hsel).1) h.balanced.whole period) hw
  have hquantity : QuantityWhole x.parent.quantity := fun q hq =>
    whole_quantity_iff.mpr ⟨quantity_nonneg hb hq, h.quantities x.parent hx q hq⟩
  obtain ⟨hkeys, hsum, hwhole⟩ := split_spec rfl hamount hnn hshares
  obtain ⟨_, hne, _, _⟩ := splitAmount_exact_eq_ok.mp hshares
  have hconserves := conserves_of_buildChildren (hkeys ▸ hne) hsum hwhole hquantity hb
  exact ⟨hconserves, fun c hc => stored_of_whole (hwhole _ (amountUsd_mem_shares hb c hc))
    (hconserves.whole c hc)⟩

theorem childrenOf_apply {x : Split} (hx : x.parent ∈ s.rows)
    (hnone : x.parent.allocationParentId = none) (id : ℕ) :
    childrenOf id (x.apply s).rows = childrenOf id s.rows ++
      if id = x.parent.id then Session.numbered s.nextId x.children else [] := by
  rw [rows_apply (s.ids_lt _ hx), childrenOf_append]
  congr 1
  · have hpred : ((fun c : CostRow => decide (c.allocationParentId = some id)) ∘ marked [x]) =
        fun c : CostRow => decide (c.allocationParentId = some id) := by
      funext c
      simp only [Function.comp, allocationParentId_marked]
    rw [childrenOf, List.filter_map, hpred]
    refine (List.map_congr_left fun c hc => if_neg fun hid => ?_).trans (List.map_id _)
    obtain ⟨hc, hp⟩ := List.mem_filter.mp hc
    obtain rfl : c = x.parent := List.inj_on_of_nodup_map s.ids hc hx hid
    rw [hnone] at hp
    simp at hp
  · have hparent : ∀ c ∈ Session.numbered s.nextId x.children,
        c.allocationParentId = some x.parent.id := by
      intro c hc
      obtain ⟨d, hd, he⟩ := Session.mem_numbered hc
      rw [he]
      exact Split.parentId_of_mem (c := d) hd
    split
    · rename_i hid
      exact List.filter_eq_self.mpr fun c hc => decide_eq_true (hid ▸ hparent c hc)
    · rename_i hid
      refine List.filter_eq_nil_iff.mpr fun c hc hp => hid ?_
      exact Option.some.inj ((of_decide_eq_true hp).symm.trans (hparent c hc))

theorem splitInto_apply {x : Split} (hconserves : Conserves x.parent x.shares.keys x.children)
    (hstored : ∀ c ∈ x.children, c.stored = c) {p : CostRow}
    (hp : p = { x.parent with allocated := true, allocationRule := some x.rule.name }) (n : ℕ) :
    SplitInto p x.rule (Session.numbered n x.children) := by
  have hrecords : (Session.numbered n x.children).map CostRow.toCostRecord = x.children :=
    (Session.map_numbered (fun r => r) x.children n).trans
      ((List.map_congr_left hstored).trans (List.map_id' _))
  have hteams : ((Session.numbered n x.children).map fun c => c.team) = x.shares.keys := by
    rw [← x.map_team_children, ← hrecords, List.map_map, hrecords]
    rfl
  subst hp
  refine ⟨rfl, ?_, fun team => ?_, fun c hc => ?_, ?_⟩
  · rw [hteams]
    exact x.shares.nodup_keys
  · rw [hteams]
    exact x.teams team
  · have hmem : c.toCostRecord ∈ x.children := hrecords ▸ List.mem_map_of_mem hc
    obtain ⟨e, _, he⟩ := List.mem_map.mp hmem
    refine ⟨x.quantities, ?_⟩
    rw [← he]
    rfl
  · rw [hteams, hrecords]
    exact ⟨hconserves.teams, hconserves.amounts, hconserves.none, hconserves.quantities⟩

/-- **A split keeps the traces.** -/
theorem traceable_apply (h : Accounted steps s) {order : ℕ → ℕ} {period : Period}
    {rules : List AllocationRule} (hstep : LedgerStep.allocate order period rules ∈ steps)
    (hrules : ∀ rule ∈ rules, rule.NonnegWeights) {x : Split} (hx : x.parent ∈ s.rows)
    (hcand : isCandidate period x.parent.toCostRecord = true)
    (hof : x.Of .exact s period rules) : Traceable steps (x.apply s).rows := by
  have hnone := noParent_of_isCandidate hcand
  have hopen := allocated_of_isCandidate hcand
  have hold := h.traceable
  obtain ⟨hconserves, hstored⟩ := split_conserves h hrules hx hof
  have hrows : ∀ {q}, q ∈ (x.apply s).rows → (∃ r ∈ s.rows, q = marked [x] r) ∨
      q ∈ Session.numbered s.nextId x.children := by
    intro q hq
    rw [rows_apply (s.ids_lt _ hx), List.mem_append] at hq
    exact hq.imp_left fun hq => (List.mem_map.mp hq).imp fun r hr => ⟨hr.1, hr.2.symm⟩
  have hmarked : ∀ r ∈ s.rows, marked [x] r ∈ (x.apply s).rows := by
    intro r hr
    rw [rows_apply (s.ids_lt _ hx)]
    exact List.mem_append_left _ (List.mem_map_of_mem hr)
  have hchild : ∀ q ∈ Session.numbered s.nextId x.children, q.allocated = false ∧
      q.allocationParentId = some x.parent.id ∧ q.id ≠ x.parent.id := by
    intro q hq
    obtain ⟨c, hc, he⟩ := Session.mem_numbered hq
    obtain ⟨e, _, rfl⟩ := List.mem_map.mp hc
    rw [he]
    exact ⟨rfl, rfl, ((s.ids_lt _ hx).trans_le (Session.le_id_of_mem_numbered hq)).ne'⟩
  refine ⟨fun q hq ha => ?_, fun q hq ha => ?_, fun q hq id hid => ?_⟩
  · rw [childrenOf_apply hx hnone]
    rcases hrows hq with ⟨r, hr, rfl⟩ | hq
    · rw [allocated_marked, Bool.or_eq_false_iff] at ha
      have hne : r.id ≠ x.parent.id := by simpa using ha.2
      rw [id_marked, if_neg hne, List.append_nil]
      exact hold.untouched r hr ha.1
    · rw [if_neg (hchild q hq).2.2, List.append_nil]
      exact childrenOf_of_le hold (Session.le_id_of_mem_numbered hq)
  · rw [childrenOf_apply hx hnone]
    rcases hrows hq with ⟨r, hr, rfl⟩ | hq
    · rw [id_marked]
      by_cases hid : r.id = x.parent.id
      · obtain rfl : r = x.parent := List.inj_on_of_nodup_map s.ids hr hx hid
        have hm : marked [x] x.parent =
            { x.parent with allocated := true, allocationRule := some x.rule.name } := if_pos rfl
        rw [if_pos rfl, hold.untouched _ hx hopen, List.nil_append]
        refine ⟨(allocationParentId_marked _ _).trans hnone, x.rule, ?_,
          splitInto_apply hconserves hstored hm _⟩
        refine ⟨order, period, rules, hstep, ?_, ?_⟩
        · rw [occurredAt_marked]
          simp only [isCandidate, Bool.and_eq_true] at hcand
          exact hcand.1.1
        · have hrecord : { (marked [x] x.parent).toCostRecord with allocated := false } =
              { x.parent.toCostRecord with allocationRule := some x.rule.name } := by
            rw [hm, ← hopen]
          rw [hrecord]
          exact hof.1
      · have hr' : marked [x] r = r := if_neg hid
        rw [if_neg hid, List.append_nil, hr']
        rw [hr'] at ha
        exact hold.split r hr ha
    · rw [(hchild q hq).1] at ha
      cases ha
  · rcases hrows hq with ⟨r, hr, rfl⟩ | hq
    · rw [allocationParentId_marked] at hid
      obtain ⟨p, hp, hpid, hpa⟩ := hold.parent r hr id hid
      refine ⟨marked [x] p, hmarked p hp, (id_marked _ _).trans hpid, ?_⟩
      rw [allocated_marked, hpa, Bool.true_or]
    · rw [(hchild q hq).2.1] at hid
      refine ⟨marked [x] x.parent, hmarked _ hx, (id_marked _ _).trans (Option.some.inj hid), ?_⟩
      rw [allocated_marked]
      simp

theorem quantities_apply (h : ∀ r ∈ s.rows, ∀ q, r.quantity = some q →
    HasScale CostRecord.quantityScale q) (x : Split) :
    ∀ r ∈ (x.apply s).rows, ∀ q, r.quantity = some q → HasScale CostRecord.quantityScale q := by
  intro r hr q hq
  obtain ⟨r', hr', rfl⟩ := List.mem_map.mp hr
  refine quantities_addAll h x.children r' hr' q ?_
  split at hq <;> exact hq

/-! ### Passes -/

theorem accounted_allocateParent {order : ℕ → ℕ} {period : Period} {rules : List AllocationRule}
    (hstep : LedgerStep.allocate order period rules ∈ steps)
    (hrules : ∀ rule ∈ rules, rule.NonnegWeights) {st st' : Pass} {parent : CostRow}
    {rest : List CostRow} (h : Accounted steps st.session)
    (hready : Ready st.session (parent :: rest))
    (hcand : isCandidate period parent.toCostRecord = true)
    (hturn : allocateParent .exact period rules st parent = .ok st') :
    Accounted steps st'.session ∧ Ready st'.session rest := by
  obtain ⟨hb, _, hready'⟩ := allocateParent_keeps hrules h.balanced hready hturn
  rcases allocateParent_spec hturn with ⟨_, rfl⟩ | ⟨x, rfl, _, hof, hs, _⟩
  · exact ⟨⟨hb, h.quantities, h.traceable⟩, hready'⟩
  · have hx := hready.mem x.parent List.mem_cons_self
    have htraces := traceable_apply h hstep hrules hx hcand hof
    rw [← hs] at htraces
    refine ⟨⟨hb, ?_, htraces⟩, hready'⟩
    rw [hs]
    exact quantities_apply h.quantities x

/-- **The loop**, however far it comes. -/
theorem accounted_allocate {order : ℕ → ℕ} {period : Period} {rules : List AllocationRule}
    (hstep : LedgerStep.allocate order period rules ∈ steps)
    (hrules : ∀ rule ∈ rules, rule.NonnegWeights) {ps : List CostRow} :
    ∀ {st : Pass}, Accounted steps st.session → Ready st.session ps →
      (∀ p ∈ ps, isCandidate period p.toCostRecord = true) →
        Accounted steps (allocate .exact period rules st ps).1.session := by
  induction ps with
  | nil => intro st h _ _; exact h
  | cons parent rest ih =>
    intro st h hready hcand
    rw [allocate]
    cases hturn : allocateParent .exact period rules st parent with
    | error e => exact h
    | ok st' =>
      obtain ⟨h', hready'⟩ := accounted_allocateParent hstep hrules h hready
        (hcand parent List.mem_cons_self) hturn
      exact ih h' hready' fun p hp => hcand p (List.mem_cons_of_mem parent hp)

theorem accounted_ledgerStep {w : Warehouse} {step : LedgerStep} (hstep : step ∈ steps)
    (hadmissible : step.Admissible) (h : Accounted steps w.toSession) :
    Accounted steps (ledgerStep w step).toSession := by
  cases step with
  | insert records =>
    change Accounted steps (Session.commit w (w.addAll records)).toSession
    rcases Session.commit_cases w (w.addAll records) with he | he
    · rw [he]; exact h
    · rw [he]; exact accounted_addAll h hadmissible
  | allocate order period rules =>
    change Accounted steps (settle w (applyAllocationRules .exact order w period rules)).toSession
    rcases settle_cases w (applyAllocationRules .exact order w period rules) with he | he
    · rw [he]; exact h
    · rw [he, applyAllocationRules_session]
      refine accounted_allocate hstep hadmissible h
        (ready_candidates order period w.toSession) fun p hp => ?_
      exact (List.mem_filter.mp ((List.mem_insertionSort _).mp hp)).2

theorem accounted_empty : Accounted steps Warehouse.empty.toSession := by
  refine ⟨balanced_of_opening fun r h => absurd h List.not_mem_nil,
    fun r h => absurd h List.not_mem_nil, ?_⟩
  exact ⟨fun r h => absurd h List.not_mem_nil, fun r h => absurd h List.not_mem_nil,
    fun r h => absurd h List.not_mem_nil⟩

theorem accounted_after (hs : ∀ step ∈ steps, step.Admissible) :
    Accounted steps (after ledgerStep Warehouse.empty steps).toSession :=
  invariant_of_mem (G := (· ∈ steps)) (I := fun w : Warehouse => Accounted steps w.toSession)
    (fun _ step h hstep => accounted_ledgerStep hstep (hs step hstep) h) accounted_empty
    fun _ h => h

/-! ### What counts for a record -/

/-- The rows that count for a collected record: itself, or its children. -/
def countedFor (p : CostRow) (rows : List CostRow) : List CostRow :=
  rows.filter fun r => !r.allocated && r.allocationParentId.getD r.id = p.id

theorem countedFor_of_open (h : Traceable steps s.rows) {p : CostRow} (hp : p ∈ s.rows)
    (hnone : p.allocationParentId = none) (ha : p.allocated = false) :
    (countedFor p s.rows).Perm [p] := by
  have hnd : (countedFor p s.rows).Nodup := (List.Nodup.of_map _ s.ids).filter _
  refine (List.perm_ext_iff_of_nodup hnd (List.nodup_singleton p)).mpr fun r => ?_
  rw [countedFor, List.mem_filter, List.mem_singleton]
  constructor
  · rintro ⟨hr, hc⟩
    simp only [Bool.and_eq_true, decide_eq_true_eq] at hc
    cases hparent : r.allocationParentId with
    | none =>
      rw [hparent, Option.getD_none] at hc
      exact List.inj_on_of_nodup_map s.ids hr hp hc.2
    | some id =>
      rw [hparent, Option.getD_some] at hc
      have hmem : r ∈ childrenOf p.id s.rows :=
        List.mem_filter.mpr ⟨hr, decide_eq_true (hc.2 ▸ hparent)⟩
      rw [h.untouched p hp ha] at hmem
      cases hmem
  · rintro rfl
    refine ⟨hp, ?_⟩
    rw [ha, hnone, Option.getD_none]
    simp

theorem countedFor_of_allocated (h : Traceable steps s.rows) {p : CostRow} (hp : p ∈ s.rows)
    (ha : p.allocated = true) : countedFor p s.rows = childrenOf p.id s.rows := by
  refine List.filter_congr fun r hr => ?_
  cases hparent : r.allocationParentId with
  | none =>
    rw [Option.getD_none, decide_eq_false (nofun : ¬ (none : Option ℕ) = some p.id)]
    by_cases hid : r.id = p.id
    · obtain rfl := List.inj_on_of_nodup_map s.ids hr hp hid
      rw [ha]
      rfl
    · rw [decide_eq_false hid, Bool.and_false]
  | some id =>
    have hopen : r.allocated = false := by
      by_contra hne
      have hcollected := (h.split r hr (by simpa using hne)).1
      rw [hparent] at hcollected
      cases hcollected
    rw [hopen, Option.getD_some]
    simp

/-- **Every collected record is counted once**, as it is or as its children. -/
theorem sum_countedFor (h : Traceable steps s.rows) {p : CostRow} (hp : p ∈ s.rows)
    (hnone : p.allocationParentId = none) :
    ((countedFor p s.rows).map fun r => r.amountUsd).sum = p.amountUsd := by
  cases ha : p.allocated with
  | false =>
    rw [((countedFor_of_open h hp hnone ha).map _).sum_eq]
    exact List.sum_singleton
  | true =>
    obtain ⟨_, rule, _, hinto⟩ := h.split p hp ha
    rw [countedFor_of_allocated h hp ha, ← hinto.conserves.amounts, List.map_map]
    rfl

/-- **The books can be traced.**  After any run of inserts and passes, those that raise
among them: a row that is not allocated has no children; one that is was collected, and
its children are one for each target of the rule that a pass found for it and carry its
money and its quantity.  So the rows that count for a collected record come to its
amount. -/
theorem books_traceable {steps : List LedgerStep} (hs : ∀ step ∈ steps, step.Admissible) :
    Traceable steps (after ledgerStep Warehouse.empty steps).rows ∧
      ∀ p ∈ collected (after ledgerStep Warehouse.empty steps).rows,
        ((countedFor p (after ledgerStep Warehouse.empty steps).rows).map
          fun r => r.amountUsd).sum = p.amountUsd := by
  have h := (accounted_after hs).traceable
  refine ⟨h, fun p hp => ?_⟩
  obtain ⟨hp, hnone⟩ := List.mem_filter.mp hp
  exact sum_countedFor h hp (Option.isNone_iff_eq_none.mp hnone)

/-! Eight hours of the cluster, split three ways. -/

def gpuHours : CostRecord :=
  { source := .compute, dedupKey := "gpu-hours", occurredAt := 0, amountUsd := 10,
    quantity := some 8, unit := some "hour" }

def gpuHoursSteps : List LedgerStep := [.insert [gpuHours], .allocate id gpuDay [gpuRule]]

theorem books_traceable_gpuHours :
    (after ledgerStep Warehouse.empty gpuHoursSteps).rows.map
        (fun r => (r.amountUsd, r.quantity)) =
      [(10, some 8), (333333334 / 10 ^ 8, some (26667 / 10 ^ 4)),
        (333333333 / 10 ^ 8, some (26667 / 10 ^ 4)), (333333333 / 10 ^ 8, some (26666 / 10 ^ 4))] ∧
      Traceable gpuHoursSteps (after ledgerStep Warehouse.empty gpuHoursSteps).rows := by
  have hsteps : ∀ step ∈ gpuHoursSteps, step.Admissible := by
    intro step hstep
    rcases List.mem_cons.mp hstep with rfl | hstep
    · intro r hr
      rw [List.mem_singleton.mp hr]
      exact ⟨rfl, rfl, 10 ^ 9, by norm_num [gpuHours, STEP, Literal.value]⟩
    · rw [List.mem_singleton.mp hstep]
      intro rule hrule
      rw [List.mem_singleton.mp hrule]
      exact fun w hw => by cases hw
  exact ⟨by decide +kernel, (books_traceable hsteps).1⟩

end Finops
