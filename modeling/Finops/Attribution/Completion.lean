import Finops.Attribution.Accepted
import Finops.Attribution.Keys
import Finops.Attribution.Order
import Finops.Attribution.Queries
import Finops.Attribution.Traces

/-!
# Passes that complete

A pass can stop at a weight, at a credit, at a quantity, and at the database, which
wants the keys of the children to be new and to fit their column.  `Orderly` rules and
`Splittable` records leave it no reason to: the splits of a pass have keys of their own
(`unique_split`), which no collected record has and, since the children of a row are of
a row that is allocated, no child from before either (`notMem_uniqueKeys`).  So every
pass of a run of such steps completes, and leaves no record of its period that the
rules govern (`passes_complete`).

The rules that a pass has by default are orderly (`orderly_default`), and govern what
vector databases and the infrastructure cost nobody in particular.
-/

namespace Finops

open Numerics Runs

/-! ### The default rules -/

def DEFAULT_RULES : List AllocationRule :=
  [{ name := "shared-vector-db"
     strategy := .usageWeighted
     source := some .vectordb
     targets := ["search", "support-bot", "research"]
     priority := 10
     targets_ne := by decide
     weighted := fun h => by cases h },
   { name := "shared-platform-infra"
     strategy := .evenSplit
     source := some .infra
     targets := ["search", "support-bot", "research"]
     priority := 20
     targets_ne := by decide
     weighted := fun h => by cases h }]

theorem of_matchesRecord {rule : AllocationRule} {r : CostRecord}
    (h : rule.matchesRecord r = true) :
    r.team = rule.matchTeam ∧ ∀ source, rule.source = some source → r.source = source := by
  unfold AllocationRule.matchesRecord at h
  split at h
  · cases h
  split at h
  · cases h
  rename_i hteam
  split at h
  · cases h
  rename_i hsource
  refine ⟨not_not.mp hteam, fun source hs => ?_⟩
  rw [hs] at hsource
  have he : source = r.source := by simpa using hsource
  exact he.symm

theorem selectRule_default {r : CostRecord} {rule : AllocationRule}
    (h : selectRule r DEFAULT_RULES = some rule) :
    r.team = UNATTRIBUTED ∧ (r.source = .vectordb ∨ r.source = .infra) := by
  obtain ⟨hmem, hmatch⟩ := selectRule_mem h
  obtain ⟨hteam, hsource⟩ := of_matchesRecord hmatch
  rcases List.mem_cons.mp hmem with rfl | hmem
  · exact ⟨hteam, .inl (hsource _ rfl)⟩
  · obtain rfl := List.mem_singleton.mp hmem
    exact ⟨hteam, .inr (hsource _ rfl)⟩

/-! ### Rules and records that give a pass no reason to stop -/

/-- Rules whose children can be told apart and fit their columns, and whose fixed
weights can be divided by. -/
structure Orderly (rules : List AllocationRule) : Prop where
  unambiguous : Unambiguous rules
  names : ∀ rule ∈ rules, textFits 64 rule.name = true
  teams : ∀ rule ∈ rules, ∀ team ∈ rule.targets, textFits 128 team = true
  weights : ∀ rule ∈ rules, rule.NonnegWeights
  fixed : ∀ rule ∈ rules, rule.strategy = .fixedPercent → ∀ d, rule.weights = some d →
    ∃ team ∈ rule.targets, 0 < d.getD team 0

/-- The rule that a pass finds for the record, before it is allocated. -/
def ruleFor (rules : List AllocationRule) (r : CostRecord) : Option AllocationRule :=
  selectRule { r with allocated := false } rules

/-- A record that the rules leave alone or can split: its quantity is no credit, and
with the names of rule and team its key still fits.  Where some rule looks at its source,
its key is not written like that of a child. -/
structure Splittable (rules : List AllocationRule) (r : CostRecord) : Prop where
  short : ∀ rule, ruleFor rules r = some rule → ∀ team ∈ rule.targets,
    rule.name.length + r.dedupKey.length + team.length ≤ 247
  quantity : ∀ rule, ruleFor rules r = some rule → ∀ q, r.quantity = some q → 0 ≤ q
  key : (∃ rule ∈ rules, ∀ source, rule.source = some source → r.source = source) →
    ¬ "alloc:".toList <+: r.dedupKey.toList

theorem selectRule_congr (rules : List AllocationRule) {r r' : CostRecord}
    (hsource : r.source = r'.source) (hteam : r.team = r'.team)
    (hproject : r.project = r'.project) (hallocated : r.allocated = r'.allocated)
    (hparent : r.allocationParentId = r'.allocationParentId) :
    selectRule r rules = selectRule r' rules := by
  have hmatch : ∀ rule : AllocationRule, rule.matchesRecord r = rule.matchesRecord r' := by
    intro rule
    rw [AllocationRule.matchesRecord, AllocationRule.matchesRecord, CostRecord.isAllocationChild,
      CostRecord.isAllocationChild, hsource, hteam, hproject, hallocated, hparent]
  unfold selectRule
  simp only [hmatch]

variable {rules : List AllocationRule}

theorem ruleFor_stored (r : CostRecord) : ruleFor rules r.stored = ruleFor rules r :=
  selectRule_congr rules rfl rfl rfl rfl rfl

theorem ruleFor_marked (xs : List Split) (r : CostRow) :
    ruleFor rules (marked xs r).toCostRecord = ruleFor rules r.toCostRecord := by
  refine selectRule_congr rules ?_ ?_ ?_ rfl ?_ <;> rw [marked_eq]

theorem Splittable.stored {r : CostRecord} (h : Splittable rules r) :
    Splittable rules r.stored := by
  refine ⟨fun rule hr => h.short rule (ruleFor_stored r ▸ hr), fun rule hr q hq => ?_, h.key⟩
  obtain ⟨v, hv, rfl⟩ := Option.map_eq_some_iff.mp hq
  exact toExp_halfAway_nonneg _ (h.quantity rule (ruleFor_stored r ▸ hr) v hv)

theorem Splittable.marked {r : CostRow} (h : Splittable rules r.toCostRecord)
    (xs : List Split) : Splittable rules (marked xs r).toCostRecord := by
  have hkey : (Finops.marked xs r).dedupKey = r.dedupKey := by rw [marked_eq]
  have hquantity : (Finops.marked xs r).quantity = r.quantity := by rw [marked_eq]
  have hsource : (Finops.marked xs r).source = r.source := by rw [marked_eq]
  refine ⟨fun rule hr => ?_, fun rule hr => ?_, ?_⟩
  · rw [hkey]
    exact h.short rule (ruleFor_marked xs r ▸ hr)
  · rw [hquantity]
    exact h.quantity rule (ruleFor_marked xs r ▸ hr)
  · rw [hkey, hsource]
    exact h.key

/-! ### The keys of the children -/

structure PassSplits (w : Warehouse) (period : Period) (rules : List AllocationRule)
    (xs : List Split) : Prop where
  mem : ∀ x ∈ xs, x.parent ∈ w.rows
  candidate : ∀ x ∈ xs, isCandidate period x.parent.toCostRecord = true
  rule : ∀ x ∈ xs, selectRule x.parent.toCostRecord rules = some x.rule
  ids : (xs.map fun x => x.parent.id).Nodup
  figures : ∀ x ∈ xs, ∀ c ∈ x.children, numericFits 10 CostRecord.moneyScale c.amountUsd = true ∧
    c.quantity.all (numericFits 16 CostRecord.quantityScale) = true

/-- **A child's key tells its parent and its team.** -/
theorem unique_split (hrules : Orderly rules) {p p' : CostRow} {rule rule' : AllocationRule}
    {q q' : CostRecord} (hq : selectRule q rules = some rule)
    (hq' : selectRule q' rules = some rule')
    (hp : q.source = p.source) (hp' : q'.source = p'.source) {qs qs' : Dict String ℚ}
    {team team' : String} {v v' : ℚ} (ht : team ∈ rule.targets) (ht' : team' ∈ rule'.targets)
    (h : (childOf p rule qs team v).uniqueKey = (childOf p' rule' qs' team' v').uniqueKey) :
    p.uniqueKey = p'.uniqueKey ∧ team = team' := by
  obtain ⟨hsource, hkey⟩ := Prod.mk.inj h
  have hs : p.source = p'.source := hsource
  obtain ⟨hleft, hright, hparent⟩ := nested_of_dedupKey_eq hkey
  obtain ⟨hname, hteam⟩ := hrules.unambiguous q q' rule rule' (hp.trans (hs.trans hp'.symm)) hq hq'
    team ht team' ht' hleft hright
  exact ⟨Prod.ext hs (hparent hname hteam), hteam⟩

theorem alloc_prefix (p : CostRow) (rule : AllocationRule) (qs : Dict String ℚ) (team : String)
    (v : ℚ) : "alloc:".toList <+: (childOf p rule qs team v).dedupKey.toList :=
  ⟨_, (toList_dedupKey p rule qs team v).symm⟩

theorem length_dedupKey (p : CostRow) (rule : AllocationRule) (qs : Dict String ℚ)
    (team : String) (v : ℚ) : (childOf p rule qs team v).dedupKey.length =
      rule.name.length + p.dedupKey.length + team.length + 8 := by
  rw [← String.length_toList, toList_dedupKey]
  simp only [List.length_append, List.length_cons, String.length_toList]
  have halloc : "alloc:".length = 6 := by decide
  omega

/-- Inserts of collected records that can be split, passes over one list of rules. -/
def LedgerStep.Routine (rules : List AllocationRule) : LedgerStep → Prop
  | .insert records => ∀ r ∈ records, Fresh r ∧ Splittable rules r
  | .allocate _ _ rules' => rules' = rules

/-- What carries every step: the books can be traced, and what was collected can be
split. -/
structure Prepared (rules : List AllocationRule) (steps : List LedgerStep) (w : Warehouse) :
    Prop where
  accounted : Accounted steps w.toSession
  splittable : ∀ r ∈ w.rows, r.allocationParentId = none → Splittable rules r.toCostRecord

theorem mem_candidates {order : ℕ → ℕ} {period : Period} {rows : List CostRow} {p : CostRow} :
    p ∈ candidates order period rows ↔
      p ∈ rows ∧ isCandidate period p.toCostRecord = true := by
  rw [candidates, List.mem_insertionSort, List.mem_filter]

theorem contains_of_isCandidate {period : Period} {r : CostRecord}
    (h : isCandidate period r = true) : period.contains r.occurredAt = true := by
  simp only [isCandidate, Bool.and_eq_true] at h
  exact h.1.1

theorem ruleFor_of_candidate {period : Period} {r : CostRecord}
    (h : isCandidate period r = true) : ruleFor rules r = selectRule r rules := by
  rw [ruleFor]
  congr 1
  rw [← allocated_of_isCandidate h]

variable {w : Warehouse} {period : Period} {xs : List Split} {steps : List LedgerStep}

theorem nodup_uniqueKeys (hrules : Orderly rules) (hxs : PassSplits w period rules xs) :
    ((xs.flatMap Split.children).map fun c => c.stored.uniqueKey).Nodup := by
  rw [List.map_flatMap, List.nodup_flatMap]
  have hkey : ∀ x ∈ xs, ∀ y ∈ xs, ∀ c ∈ x.children, ∀ d ∈ y.children,
      c.stored.uniqueKey = d.stored.uniqueKey →
        x.parent.uniqueKey = y.parent.uniqueKey ∧ c.team = d.team := by
    intro x hx y hy c hc d hd he
    obtain ⟨v, hcv, ht⟩ := exists_child hc
    obtain ⟨u, hdu, ht'⟩ := exists_child hd
    have hu : (childOf x.parent x.rule x.quantities c.team v).uniqueKey =
        (childOf y.parent y.rule y.quantities d.team u).uniqueKey := by
      rw [← hcv, ← hdu]
      exact he
    exact unique_split hrules (hxs.rule x hx) (hxs.rule y hy) rfl rfl ht ht' hu
  refine ⟨fun x hx => ?_, ?_⟩
  · have hteams : (x.children.map fun c => c.team).Nodup := by
      rw [x.map_team_children]
      exact x.shares.nodup_keys
    refine List.Nodup.map_on (fun c hc d hd he => ?_) (List.Nodup.of_map _ hteams)
    exact List.inj_on_of_nodup_map hteams hc hd (hkey x hx x hx c hc d hd he).2
  · have hpairs : xs.Pairwise fun x y => x.parent.id ≠ y.parent.id := List.pairwise_map.mp hxs.ids
    refine hpairs.imp_of_mem fun {x y} hx hy hne => ?_
    refine List.disjoint_left.mpr fun k hk hk' => hne ?_
    obtain ⟨c, hc, rfl⟩ := List.mem_map.mp hk
    obtain ⟨d, hd, he⟩ := List.mem_map.mp hk'
    have hparents := (hkey x hx y hy c hc d hd he.symm).1
    rw [List.inj_on_of_nodup_map w.unique (hxs.mem x hx) (hxs.mem y hy) hparents]

/-- No row from before has the key of a child: a collected one is not written like it,
and the children that there are have other parents. -/
theorem notMem_uniqueKeys (hrules : Orderly rules) (hsteps : ∀ step ∈ steps, step.Routine rules)
    (h : Prepared rules steps w) (hxs : PassSplits w period rules xs) {r : CostRow}
    (hr : r ∈ w.rows) :
    r.uniqueKey ∉ (xs.flatMap Split.children).map fun c => c.stored.uniqueKey := by
  intro hmem
  obtain ⟨c, hc, he⟩ := List.mem_map.mp hmem
  obtain ⟨x, hx, hcx⟩ := List.mem_flatMap.mp hc
  obtain ⟨v, hcv, ht⟩ := exists_child hcx
  have hrow : r.uniqueKey = (childOf x.parent x.rule x.quantities c.team v).uniqueKey := by
    rw [← hcv]
    exact he.symm
  obtain ⟨hrule, hmatch⟩ := selectRule_mem (hxs.rule x hx)
  cases hparent : r.allocationParentId with
  | none =>
    obtain ⟨hsource, hkey⟩ := Prod.mk.inj hrow
    refine (h.splittable r hr hparent).key ⟨x.rule, hrule, ?_⟩ ?_
    · intro source hs
      rw [hsource]
      exact (of_matchesRecord hmatch).2 source hs
    · rw [hkey]
      exact alloc_prefix ..
  | some id =>
    obtain ⟨p, hp, rfl, ha⟩ := h.accounted.traceable.parent r hr id hparent
    obtain ⟨_, rule, ⟨order, period', rules', hstep, _, hsel⟩, hinto⟩ :=
      h.accounted.traceable.split p hp ha
    obtain rfl : rules' = rules := hsteps _ hstep
    have hchild : r ∈ childrenOf p.id w.rows :=
      List.mem_filter.mpr ⟨hr, decide_eq_true hparent⟩
    obtain ⟨qs, hmade⟩ := hinto.made r hchild
    have hteam : r.team ∈ rule.targets := (hinto.targets r.team).mp (List.mem_map_of_mem hchild)
    rw [hmade] at hrow
    have hkeys := (unique_split hrules hsel (hxs.rule x hx) rfl rfl hteam ht hrow).1
    have hpx := List.inj_on_of_nodup_map w.unique hp (hxs.mem x hx) hkeys
    rw [hpx, allocated_of_isCandidate (hxs.candidate x hx)] at ha
    cases ha

theorem textFits_dedupKey {p : CostRow} {rule : AllocationRule} {qs : Dict String ℚ}
    {team : String} {v : ℚ} (hname : textFits 64 rule.name = true)
    (hp : textFits 255 p.dedupKey = true) (hteam : textFits 128 team = true)
    (h : rule.name.length + p.dedupKey.length + team.length ≤ 247) :
    textFits 255 (childOf p rule qs team v).dedupKey = true := by
  refine textFits_iff.mpr ⟨?_, fun c hc => ?_⟩
  · rw [length_dedupKey]
    omega
  · rw [toList_dedupKey] at hc
    have halloc := (textFits_iff.mp (by decide : textFits 6 "alloc:" = true)).2
    rcases List.mem_append.mp hc with hc | hc
    · exact halloc c hc
    rcases List.mem_append.mp hc with hc | hc
    · exact (textFits_iff.mp hname).2 c hc
    rcases List.mem_cons.mp hc with rfl | hc
    · decide
    rcases List.mem_append.mp hc with hc | hc
    · exact (textFits_iff.mp hp).2 c hc
    rcases List.mem_cons.mp hc with rfl | hc
    · decide
    · exact (textFits_iff.mp hteam).2 c hc

theorem fits_child (hrules : Orderly rules) (h : Prepared rules steps w)
    (hxs : PassSplits w period rules xs) {x : Split} (hx : x ∈ xs) {c : CostRecord}
    (hc : c ∈ x.children) : c.stored.fits = true := by
  obtain ⟨v, hcv, ht⟩ := exists_child hc
  have hcand := hxs.candidate x hx
  have hsel := hxs.rule x hx
  have hrule := (selectRule_mem hsel).1
  have hshort := (h.splittable x.parent (hxs.mem x hx) (noParent_of_isCandidate hcand)).short
    x.rule ((ruleFor_of_candidate hcand).trans hsel) c.team ht
  have hparent := CostRecord.fits_iff.mp (w.fit x.parent (hxs.mem x hx))
  have hname := hrules.names x.rule hrule
  have hteam := hrules.teams x.rule hrule c.team ht
  obtain ⟨hamount, hquantity⟩ := hxs.figures x hx c hc
  have hkey : textFits 255 c.dedupKey = true := by
    rw [hcv]
    exact textFits_dedupKey hname hparent.dedupKey hteam hshort
  rw [CostRecord.fits_stored, CostRecord.fits_iff]
  rw [hcv] at hkey hteam hamount hquantity ⊢
  exact { hparent with
    dedupKey := hkey
    team := hteam
    allocationRule := hname
    amountUsd := hamount
    quantity := hquantity }

/-- **The database accepts the splits of a pass**, and those made so far. -/
theorem exists_flush_of_passSplits (hrules : Orderly rules)
    (hsteps : ∀ step ∈ steps, step.Routine rules) (h : Prepared rules steps w)
    (hxs : PassSplits w period rules xs) : ∃ w', (applyAll w.toSession xs).flush = .ok w' := by
  rw [exists_flush_applyAll_iff fun x hx => w.ids_lt _ (hxs.mem x hx), List.nodup_append]
  refine ⟨⟨w.unique, nodup_uniqueKeys hrules hxs, ?_⟩, fun c hc => ?_⟩
  · rintro k hk k' hk' rfl
    obtain ⟨r, hr, rfl⟩ := List.mem_map.mp hk
    exact notMem_uniqueKeys hrules hsteps h hxs hr hk'
  · obtain ⟨x, hx, hcx⟩ := List.mem_flatMap.mp hc
    exact fits_child hrules h hxs hx hcx

/-! ### One pass -/

theorem numericFits_of_le {digits : ℕ} {scale : ℤ} {u v : ℚ} (hv : 0 ≤ v) (hle : v ≤ u)
    (hscale : HasScale scale v) (hscale' : HasScale scale u)
    (h : numericFits digits scale u = true) : numericFits digits scale v = true := by
  have hu : |toExp halfAway (-scale) u| < 10 ^ digits := of_decide_eq_true h
  rw [toExp_of_hasScale halfAway_intCast hscale', abs_of_nonneg (hv.trans hle)] at hu
  refine decide_eq_true ?_
  rw [toExp_of_hasScale halfAway_intCast hscale, abs_of_nonneg hv]
  exact hle.trans_lt hu

theorem figures_of_split {s : Session} (hs : Accounted steps s)
    (hweights : ∀ rule ∈ rules, rule.NonnegWeights) {x : Split} (hx : x.parent ∈ s.rows)
    (hfit : x.parent.fits = true) (hnn : ∀ q, x.parent.quantity = some q → 0 ≤ q)
    (hof : x.Of .exact s period rules) {c : CostRecord} (hc : c ∈ x.children) :
    numericFits 10 CostRecord.moneyScale c.amountUsd = true ∧
      c.quantity.all (numericFits 16 CostRecord.quantityScale) = true := by
  obtain ⟨hsel, weights, hw, hsplit, hbuild⟩ := hof
  have hparent := CostRecord.fits_iff.mp hfit
  have hamount := hs.balanced.whole x.parent hx
  have hpos : 0 < STEP.value := value_pos rfl
  obtain ⟨_, hsum, hwhole⟩ := split_spec rfl hamount (resolveWeights_nonneg
    (nonnegWeighted_of_whole (hweights _ (selectRule_mem hsel).1) hs.balanced.whole period) hw)
    hsplit
  have hshares : ∀ v ∈ x.shares.values, 0 ≤ v := fun v hv => (hwhole v hv).nonneg hpos
  rw [buildChildren_eq] at hbuild
  cases hq : quantityShares .exact x.parent x.shares with
  | error e => rw [hq] at hbuild; cases hbuild
  | ok quantities =>
    rw [hq] at hbuild
    rw [← Except.ok.inj hbuild] at hc
    obtain ⟨e, he, rfl⟩ := List.mem_map.mp hc
    have hv : e.2 ∈ x.shares.values := List.mem_map_of_mem he
    refine ⟨numericFits_of_le (hshares e.2 hv) (hsum ▸ List.single_le_sum hshares _ hv)
      (whole_iff.mp (hwhole e.2 hv)).2 (whole_iff.mp hamount).2 hparent.amountUsd, ?_⟩
    refine (Option.all_eq_true _ _).mpr fun v hget => ?_
    have hvalue : v ∈ quantities.values := mem_values hget
    unfold quantityShares at hq
    cases hquantity : x.parent.quantity with
    | none =>
      rw [hquantity] at hq
      rw [← Except.ok.inj hq] at hvalue
      cases hvalue
    | some q =>
      rw [hquantity] at hq
      have hqwhole : Apportion.Whole QUANTITY_STEP.value q :=
        whole_quantity_iff.mpr ⟨hnn q hquantity, hs.quantities x.parent hx q hquantity⟩
      obtain ⟨_, hqsum, hparts⟩ := split_spec rfl hqwhole
        (fun v hv => (quantityWeights_pos hshares v hv).le) hq
      have hnn' : ∀ v ∈ quantities.values, 0 ≤ v :=
        fun v hv => (hparts v hv).nonneg (value_pos rfl)
      have hqfit := hparent.quantity
      rw [hquantity] at hqfit
      exact numericFits_of_le (hnn' v hvalue) (hqsum ▸ List.single_le_sum hnn' _ hvalue)
        (whole_quantity_iff.mp (hparts v hvalue)).2 (whole_quantity_iff.mp hqwhole).2 hqfit

/-- What is unallocated in the period is in range, where the rules weigh by usage. -/
def InRange (rows : List CostRow) (period : Period) (rules : List AllocationRule) : Prop :=
  (∃ rule ∈ rules, rule.strategy = .usageWeighted) →
    (rows.map (spendOf period {})).sum < 10 ^ 10

/-- **No usage query overflows** where what is unallocated is in range. -/
theorem usageFits_of_inRange {rows : List CostRow}
    (hrows : ∀ r ∈ rows, Apportion.Whole STEP.value r.amountUsd)
    (h : InRange rows period rules) {rule : AllocationRule} (hr : rule ∈ rules)
    (hs : rule.strategy = .usageWeighted) : UsageFits rows period rule := by
  intro team
  let open_ := rows.filter fun r => !r.allocated && inScope period {} r.toCostRecord
  have hfilter : usageRows rows period rule = open_.filter fun r =>
      r.team ∈ rule.targets && r.source ∈ rule.usageSources := by
    rw [usageRows, List.filter_filter]
    refine List.filter_congr fun r _ => ?_
    have hall : CostFilters.admits {} r.toCostRecord = true := rfl
    rw [inScope, hall]
    cases period.contains r.occurredAt <;> cases r.allocated <;> simp
  have hmem : ∀ r ∈ open_, 0 ≤ r.amountUsd ∧ HasScale CostRecord.moneyScale r.amountUsd :=
    fun r hr => whole_iff.mp (hrows r (List.mem_of_mem_filter hr))
  rw [hfilter]
  refine amountFits_of_sublist (List.filter_sublist.trans List.filter_sublist) hmem ?_
  exact (sum_filter_eq _ rows).trans_lt (h ⟨rule, hr, hs⟩)

theorem spend_allocateParent (hweights : ∀ rule ∈ rules, rule.NonnegWeights) {st st' : Pass}
    {p : CostRow} {ps : List CostRow} (hb : Balanced st.session)
    (hready : Ready st.session (p :: ps))
    (hturn : allocateParent .exact period rules st p = .ok st') :
    (st'.session.rows.map (spendOf period {})).sum =
      (st.session.rows.map (spendOf period {})).sum := by
  rcases allocateParent_cases hturn with
    ⟨_, rfl⟩ | ⟨rule, weights, shares, children, hsel, hw, hs, hch, rfl⟩
  · rfl
  · have hparent := hready.mem p List.mem_cons_self
    obtain ⟨_, hsum, hwhole⟩ := split_spec rfl (hb.whole p hparent) (resolveWeights_nonneg
      (nonnegWeighted_of_whole (hweights rule (selectRule_mem hsel).1) hb.whole period) hw) hs
    exact spend_split hparent (hready.open_ p List.mem_cons_self)
      (children_spec hsum (fun v hv => (whole_iff.mp (hwhole v hv)).2) hch) period rfl

theorem total_pos (hrules : Orderly rules) {rule : AllocationRule} (hr : rule ∈ rules)
    {s : Session} {weights : Dict String ℚ}
    (hw : resolveWeights .exact s rule period = .ok weights) : 0 < weights.values.sum := by
  have heven := total_evenWeights rule.targets_ne
  rcases resolveWeights_eq_ok.mp hw with ⟨_, rfl⟩ | ⟨hs, d, hd, rfl⟩ | ⟨_, _, _, rfl⟩
  · exact heven
  · obtain ⟨team, ht, hpos⟩ := hrules.fixed rule hr hs d hd
    have hnn : ∀ v ∈ (Dict.ofKeys (fun t => d.getD t 0) rule.targets).values, 0 ≤ v :=
      values_ofKeys_forall fun t _ => getD_nonneg (hrules.weights rule hr d hd) t
    have hmem : d.getD team 0 ∈ (Dict.ofKeys (fun t => d.getD t 0) rule.targets).values :=
      List.mem_map.mpr ⟨(team, _), Dict.get?_eq_some.mp (Dict.get?_ofKeys ht), rfl⟩
    exact hpos.trans_le (List.single_le_sum hnn _ hmem)
  · rw [observedWeights_eq (exact_sum _)]
    split
    · exact heven
    · rename_i h
      exact not_le.mp h

theorem exists_amountShares (hrules : Orderly rules) {s : Session} (h : Accounted steps s)
    (hrange : InRange s.rows period rules) (hflush : ∃ w', s.flush = .ok w') {p : CostRow}
    (hp : p ∈ s.rows) {rule : AllocationRule} (hr : rule ∈ rules) :
    ∃ shares, amountShares .exact s period p rule = .ok shares ∧ ∀ v ∈ shares.values, 0 ≤ v := by
  obtain ⟨w', hw'⟩ := hflush
  have hfit := fun hs => usageFits_of_inRange h.balanced.whole hrange hr hs
  rw [← Session.toSession_of_flush hw'] at hfit
  obtain ⟨weights, hw⟩ := @exists_resolveWeights_eq_ok .exact w' rule period hfit
  rw [Session.toSession_of_flush hw'] at hw
  have hamount := h.balanced.whole p hp
  obtain ⟨shares, hs⟩ := exists_splitAmount_eq_ok (hamount.nonneg (value_pos rfl))
    (total_pos hrules hr hw) STEP
  have hnn := resolveWeights_nonneg
    (nonnegWeighted_of_whole (hrules.weights rule hr) h.balanced.whole period) hw
  obtain ⟨_, _, hwhole⟩ := split_spec rfl hamount hnn hs
  refine ⟨shares, ?_, fun v hv => (hwhole v hv).nonneg (value_pos rfl)⟩
  rw [amountShares, hw]
  exact hs

theorem exists_quantities (h : Accounted steps w.toSession) {p : CostRow} (hp : p ∈ w.rows)
    (hnn : ∀ q, p.quantity = some q → 0 ≤ q) {shares : Dict String ℚ} (hkeys : shares.keys ≠ [])
    (hshares : ∀ v ∈ shares.values, 0 ≤ v) :
    ∃ quantities, quantityShares .exact p shares = .ok quantities := by
  unfold quantityShares
  cases hq : p.quantity with
  | none => exact ⟨_, rfl⟩
  | some q =>
    have hwhole : Apportion.Whole QUANTITY_STEP.value q :=
      whole_quantity_iff.mpr ⟨hnn q hq, h.quantities p hp q hq⟩
    obtain ⟨quantities, hok, _⟩ := exists_quantityShares hkeys hshares hwhole
    exact ⟨quantities, hok⟩

/-- **No turn raises.** -/
theorem exists_allocateParent (hrules : Orderly rules) (h : Prepared rules steps w) {st : Pass}
    (haccounted : Accounted steps st.session) (hrange : InRange st.session.rows period rules)
    (hflush : ∃ w', st.session.flush = .ok w') {p : CostRow} (hps : p ∈ st.session.rows)
    (hp : p ∈ w.rows)
    (hcand : isCandidate period p.toCostRecord = true) :
    ∃ st', allocateParent .exact period rules st p = .ok st' := by
  rw [allocateParent_eq]
  have hsplit : ∃ x, splitOf .exact st.session period rules p = .ok x := by
    unfold splitOf
    split
    · exact ⟨_, rfl⟩
    rename_i rule hsel
    obtain ⟨shares, hs, hnn⟩ : ∃ shares, amountShares .exact st.session period p rule = .ok shares ∧
        ∀ v ∈ shares.values, 0 ≤ v :=
      exists_amountShares hrules haccounted hrange hflush hps (selectRule_mem hsel).1
    have hkeys : shares.keys ≠ [] := by
      obtain ⟨team, ht⟩ := List.exists_mem_of_ne_nil _ rule.targets_ne
      exact List.ne_nil_of_mem ((amountShares_keys hs team).mpr ht)
    have hsplittable := h.splittable p hp (noParent_of_isCandidate hcand)
    obtain ⟨quantities, hq⟩ := exists_quantities h.accounted hp
      (hsplittable.quantity rule ((ruleFor_of_candidate hcand).trans hsel)) hkeys hnn
    split
    · rename_i e he
      rw [hs] at he
      cases he
    · rename_i shares' hs'
      obtain rfl := Except.ok.inj (hs.symm.trans hs')
      rw [hq]
      exact ⟨_, rfl⟩
  obtain ⟨x, hx⟩ := hsplit
  rw [hx]
  exact ⟨_, rfl⟩

theorem PassSplits.append (hxs : PassSplits w period rules xs) {x : Split}
    (hmem : x.parent ∈ w.rows)
    (hcand : isCandidate period x.parent.toCostRecord = true)
    (hrule : selectRule x.parent.toCostRecord rules = some x.rule)
    (hid : x.parent.id ∉ xs.map fun x => x.parent.id)
    (hfigures : ∀ c ∈ x.children, numericFits 10 CostRecord.moneyScale c.amountUsd = true ∧
      c.quantity.all (numericFits 16 CostRecord.quantityScale) = true) :
    PassSplits w period rules (xs ++ [x]) := by
  refine ⟨?_, ?_, ?_, ?_, ?_⟩
  · exact List.forall_mem_append.mpr ⟨hxs.mem, by simpa using hmem⟩
  · exact List.forall_mem_append.mpr ⟨hxs.candidate, by simpa using hcand⟩
  · exact List.forall_mem_append.mpr ⟨hxs.rule, by simpa using hrule⟩
  · rw [List.map_append, List.nodup_append]
    refine ⟨hxs.ids, List.nodup_singleton _, fun a ha b hb he => hid ?_⟩
    have hb : b = x.parent.id := List.mem_singleton.mp hb
    rw [← hb, ← he]
    exact ha
  · exact List.forall_mem_append.mpr ⟨hxs.figures, by simpa using hfigures⟩

/-- **The loop comes to its end.** -/
theorem allocate_completes (hrules : Orderly rules) (hsteps : ∀ step ∈ steps, step.Routine rules)
    (h : Prepared rules steps w) {order : ℕ → ℕ}
    (hstep : LedgerStep.allocate order period rules ∈ steps) {ps : List CostRow} :
    ∀ (st : Pass) (xs : List Split), Accounted steps st.session → Ready st.session ps →
      InRange st.session.rows period rules →
      st.session = applyAll w.toSession xs → PassSplits w period rules xs →
      (∀ p ∈ ps, p ∈ w.rows ∧ isCandidate period p.toCostRecord = true) →
      ((xs.map fun x => x.parent.id) ++ ps.map CostRow.id).Nodup →
        ∃ st' ys, allocate .exact period rules st ps = (st', none) ∧
          st'.session = applyAll w.toSession ys ∧ PassSplits w period rules ys := by
  induction ps with
  | nil => intro st xs _ _ _ hst hxs _ _; exact ⟨st, xs, rfl, hst, hxs⟩
  | cons p ps ih =>
    intro st xs haccounted hready hrange hst hxs hps hnd
    obtain ⟨hp, hcand⟩ := hps p List.mem_cons_self
    have hrest := fun q hq => hps q (List.mem_cons_of_mem p hq)
    have hflush : ∃ w', st.session.flush = .ok w' :=
      hst ▸ exists_flush_of_passSplits hrules hsteps h hxs
    obtain ⟨st', hturn⟩ := exists_allocateParent hrules h haccounted hrange hflush
      (hready.mem p List.mem_cons_self) hp hcand
    obtain ⟨haccounted', hready'⟩ :=
      accounted_allocateParent hstep hrules.weights haccounted hready hcand hturn
    have hrange' : InRange st'.session.rows period rules := by
      rw [InRange, spend_allocateParent hrules.weights haccounted.balanced hready hturn]
      exact hrange
    rw [allocate, hturn]
    obtain ⟨hndx, _, hdis⟩ := List.nodup_append.mp hnd
    rcases allocateParent_spec hturn with ⟨_, rfl⟩ | ⟨x, rfl, _, hof, hs, _⟩
    · refine ih _ xs haccounted' hready' hrange' hst hxs hrest ?_
      exact hnd.sublist ((List.Sublist.refl _).append (List.sublist_cons_self _ _))
    · have hid : x.parent.id ∉ xs.map fun x => x.parent.id := fun hm =>
        hdis _ hm _ List.mem_cons_self rfl
      have hquantity := (h.splittable x.parent hp (noParent_of_isCandidate hcand)).quantity
        x.rule ((ruleFor_of_candidate hcand).trans hof.1)
      have hfigures := fun c hc => figures_of_split (c := c) haccounted hrules.weights
        (hready.mem x.parent List.mem_cons_self) (w.fit x.parent hp) hquantity hof hc
      refine ih st' (xs ++ [x]) haccounted' hready' hrange' ?_
        (hxs.append hp hcand hof.1 hid hfigures) hrest ?_
      · rw [hs, hst, applyAll, applyAll, List.foldl_append]
        rfl
      · rw [List.map_append, List.append_assoc]
        exact hnd

/-- **A pass completes** from every prepared table. -/
theorem completed_of_prepared (hrules : Orderly rules)
    (hsteps : ∀ step ∈ steps, step.Routine rules) (h : Prepared rules steps w) {order : ℕ → ℕ}
    (hstep : LedgerStep.allocate order period rules ∈ steps)
    (hrange : InRange w.rows period rules) : Completed .exact w ⟨order, period, rules⟩ := by
  have hready := ready_candidates order period w.toSession
  have hnone : PassSplits w period rules [] := ⟨by simp, by simp, by simp, List.nodup_nil, by simp⟩
  obtain ⟨st, ys, hloop, hs, hys⟩ := allocate_completes hrules hsteps h hstep ⟨w.toSession, {}⟩ []
    h.accounted hready hrange rfl hnone (fun _ => mem_candidates.mp) hready.distinct
  obtain ⟨w', hw'⟩ := exists_flush_of_passSplits hrules hsteps h hys
  refine ⟨w', st.summary, ?_⟩
  unfold Completes PassCall.run applyAllocationRules
  rw [hloop]
  dsimp only
  rw [hs, hw']

/-! ### Runs -/

theorem splittable_insert {records : List CostRecord} (hrs : ∀ r ∈ records, Splittable rules r)
    (h : ∀ r ∈ w.rows, r.allocationParentId = none → Splittable rules r.toCostRecord) :
    ∀ r ∈ (Session.commit w (w.addAll records)).rows, r.allocationParentId = none →
      Splittable rules r.toCostRecord := by
  intro r hr hnone
  rcases Session.commit_cases w (w.addAll records) with he | he
  · rw [he] at hr
    exact h r hr hnone
  · rw [he, Session.rows_addAll] at hr
    rcases List.mem_append.mp hr with hr | hr
    · exact h r hr hnone
    · obtain ⟨record, hrecord, he⟩ := Session.mem_numbered hr
      rw [he]
      exact (hrs record hrecord).stored

theorem splittable_pass {call : PassCall} {w' : Warehouse} (hout : Outcome .exact call w w' xs)
    (h : ∀ r ∈ w.rows, r.allocationParentId = none → Splittable rules r.toCostRecord) :
    ∀ r ∈ w'.rows, r.allocationParentId = none → Splittable rules r.toCostRecord := by
  intro r hr hnone
  rw [hout.rows] at hr
  rcases List.mem_append.mp hr with hr | hr
  · obtain ⟨q, hq, rfl⟩ := List.mem_map.mp hr
    rw [allocationParentId_marked] at hnone
    exact (h q hq hnone).marked xs
  · rw [← hout.added_eq] at hr
    obtain ⟨x, _, c, hc, he⟩ := hout.exists_child hr
    have hparent : c.allocationParentId = some x.parent.id := Split.parentId_of_mem hc
    rw [he] at hnone
    cases hparent.symm.trans hnone

/-- A pass that weighs by usage finds the unallocated spend of its period in range. -/
def LedgerStep.InRange (w : Warehouse) : LedgerStep → Prop
  | .insert _ => True
  | .allocate _ period rules => Finops.InRange w.rows period rules

theorem prepared_ledgerStep (hrules : Orderly rules) (hsteps : ∀ step ∈ steps, step.Routine rules)
    (h : Prepared rules steps w) {step : LedgerStep} (hstep : step ∈ steps)
    (hrange : step.InRange w) : Prepared rules steps (ledgerStep w step) := by
  cases step with
  | insert records =>
    have hrecords := hsteps _ hstep
    exact ⟨accounted_ledgerStep hstep (fun r hr => (hrecords r hr).1) h.accounted,
      splittable_insert (fun r hr => (hrecords r hr).2) h.splittable⟩
  | allocate order period rules' =>
    obtain rfl : rules' = rules := hsteps _ hstep
    obtain ⟨w', summary, hdone⟩ := completed_of_prepared hrules hsteps h hstep hrange
    obtain ⟨xs, hout, _⟩ := completes_spec hdone
    refine ⟨accounted_ledgerStep hstep hrules.weights h.accounted, ?_⟩
    change ∀ r ∈ (passStep .exact w ⟨order, period, rules'⟩).rows, _
    rw [passStep_of_completes hdone]
    exact splittable_pass hout h.splittable

/-- A pass returns, and leaves no record of its period that its rules govern. -/
def LedgerStep.Settles (w : Warehouse) : LedgerStep → Prop
  | .insert _ => True
  | .allocate order period rules => Completed .exact w ⟨order, period, rules⟩ ∧
      ∀ r ∈ (ledgerStep w (.allocate order period rules)).rows,
        isCandidate period r.toCostRecord = true → governed rules r = false

theorem settles_of_prepared (hrules : Orderly rules) (hsteps : ∀ step ∈ steps, step.Routine rules)
    (h : Prepared rules steps w) {step : LedgerStep} (hstep : step ∈ steps)
    (hrange : step.InRange w) : step.Settles w := by
  cases step with
  | insert records => trivial
  | allocate order period rules' =>
    obtain rfl : rules' = rules := hsteps _ hstep
    have hdone := completed_of_prepared hrules hsteps h hstep hrange
    refine ⟨hdone, fun r hr hcand => ?_⟩
    obtain ⟨w', summary, hdone⟩ := hdone
    obtain ⟨xs, hout, _⟩ := completes_spec hdone
    change r ∈ (passStep .exact w ⟨order, period, rules'⟩).rows at hr
    rw [passStep_of_completes hdone] at hr
    have hleft : r ∈ w'.rows.filter fun r => isCandidate period r.toCostRecord :=
      List.mem_filter.mpr ⟨hr, hcand⟩
    rw [hout.candidates_after] at hleft
    exact (by simpa using (List.mem_filter.mp hleft).2 : _ ∧ governed rules' r = false).2

/-- **Every pass completes.**  In a run of inserts of records that can be split, in any
batches, and of passes over one orderly list of rules, for any periods and in any order
of the rows, whose usage queries are in range, no pass raises, and each leaves no record of
its period that the rules govern. -/
theorem passes_complete (hrules : Orderly rules) (hsteps : ∀ step ∈ steps, step.Routine rules)
    (hrange : Along ledgerStep LedgerStep.InRange Warehouse.empty steps) :
    Along ledgerStep LedgerStep.Settles Warehouse.empty steps := by
  have hstart : Prepared rules steps Warehouse.empty :=
    ⟨accounted_empty, fun r h => absurd h List.not_mem_nil⟩
  have hboth := along_and.mp ⟨along_of_forall_mem (G := (· ∈ steps)) fun _ h => h, hrange⟩
  exact along_of_along (I := Prepared rules steps)
    (fun _ _ h hstep => prepared_ledgerStep hrules hsteps h hstep.1 hstep.2)
    (fun _ _ h hstep => settles_of_prepared hrules hsteps h hstep.1 hstep.2) hstart hboth

/-- **The default rules are orderly.** -/
theorem orderly_default : Orderly DEFAULT_RULES := by
  have hweights : ∀ rule ∈ DEFAULT_RULES, rule.weights = none ∧ rule.strategy ≠ .fixedPercent := by
    decide
  refine ⟨unambiguous_of_no_colon (by decide) (by decide), by decide, by decide,
    fun rule hr d hd => ?_, fun rule hr hs => absurd hs (hweights rule hr).2⟩
  rw [(hweights rule hr).1] at hd
  cases hd

/-- What the default rules ask of a record, and only of those that vector databases and
the infrastructure cost. -/
theorem splittable_default {r : CostRecord} (h : r.source = .vectordb ∨ r.source = .infra →
    r.dedupKey.length ≤ 215 ∧ (∀ q, r.quantity = some q → 0 ≤ q) ∧
      ¬ "alloc:".toList <+: r.dedupKey.toList) : Splittable DEFAULT_RULES r := by
  refine ⟨fun rule hr team ht => ?_, fun rule hr => ?_, fun ⟨rule, hr, hsource⟩ => ?_⟩
  · have hlen := (h (selectRule_default hr).2).1
    have hnames : ∀ rule ∈ DEFAULT_RULES, rule.name.length ≤ 21 ∧
        ∀ team ∈ rule.targets, team.length ≤ 11 := by
      decide
    obtain ⟨hname, hteams⟩ := hnames rule (selectRule_mem hr).1
    have hteam := hteams team ht
    omega
  · exact (h (selectRule_default hr).2).2.1
  · refine (h ?_).2.2
    rcases List.mem_cons.mp hr with rfl | hr
    · exact .inl (hsource _ rfl)
    · obtain rfl := List.mem_singleton.mp hr
      exact .inr (hsource _ rfl)

/-! A bill for the vector database and one for the infrastructure, which comes late. -/

def indexBill : CostRecord :=
  { source := .vectordb, dedupKey := "index", occurredAt := 0, amountUsd := 9, quantity := some 3 }

def searchSpend : CostRecord :=
  { source := .llm, dedupKey := "request", occurredAt := 0, amountUsd := 2, team := "search" }

def platformBill : CostRecord :=
  { source := .infra, dedupKey := "platform", occurredAt := 0, amountUsd := 10 }

def platformSteps : List LedgerStep :=
  [.insert [indexBill, searchSpend], .allocate id gpuDay DEFAULT_RULES, .insert [platformBill],
    .allocate id gpuDay DEFAULT_RULES]

theorem passes_complete_platform :
    (after ledgerStep Warehouse.empty platformSteps).rows.map
        (fun r => (r.dedupKey, r.amountUsd, r.allocated)) =
      [("index", 9, true), ("request", 2, false),
        ("alloc:shared-vector-db:index:search", 9, false),
        ("alloc:shared-vector-db:index:support-bot", 0, false),
        ("alloc:shared-vector-db:index:research", 0, false), ("platform", 10, true),
        ("alloc:shared-platform-infra:platform:search", 333333333 / 10 ^ 8, false),
        ("alloc:shared-platform-infra:platform:support-bot", 333333333 / 10 ^ 8, false),
        ("alloc:shared-platform-infra:platform:research", 333333334 / 10 ^ 8, false)] ∧
      Along ledgerStep LedgerStep.Settles Warehouse.empty platformSteps := by
  have hrange : Along ledgerStep LedgerStep.InRange Warehouse.empty platformSteps := by
    refine ⟨trivial, fun _ => ?_, trivial, fun _ => ?_, trivial⟩
    all_goals decide +kernel
  refine ⟨by decide +kernel, passes_complete orderly_default ?_ hrange⟩
  have hindex : Fresh indexBill ∧ Splittable DEFAULT_RULES indexBill :=
    ⟨⟨rfl, rfl, 9 * 10 ^ 8, by norm_num [indexBill, STEP, Literal.value]⟩,
      splittable_default fun _ => ⟨by decide, by simp [indexBill], by decide⟩⟩
  have hsearch : Fresh searchSpend ∧ Splittable DEFAULT_RULES searchSpend :=
    ⟨⟨rfl, rfl, 2 * 10 ^ 8, by norm_num [searchSpend, STEP, Literal.value]⟩,
      splittable_default fun h => absurd h (by decide)⟩
  have hplatform : Fresh platformBill ∧ Splittable DEFAULT_RULES platformBill :=
    ⟨⟨rfl, rfl, 10 ^ 9, by norm_num [platformBill, STEP, Literal.value]⟩,
      splittable_default fun _ => ⟨by decide, by simp [platformBill], by decide⟩⟩
  simp [platformSteps, LedgerStep.Routine, hindex, hsearch, hplatform]

end Finops
