import Finops.Attribution.Passes

/-!
# The order of the candidates

The candidate query has no `ORDER BY`, and the weights of a usage-weighted rule
are read inside the loop, from a session that has already flushed the splits
before.  `usageRows` are the rows that such a query adds up.  A record `Feeds` a
rule when splitting it changes them (`usageRows_of_feeds`), and where no record of
a pass feeds the rule of another, the pass makes the same splits in any order
(`allocation_order_free`).
-/

namespace Finops

open Numerics

variable {num : Arith} {period : Period} {rules : List AllocationRule}

/-- Splitting the record takes it from the usage rows of the rule, or adds a child
to them. -/
def Feeds (rules : List AllocationRule) (p : CostRow) (rule : AllocationRule) : Prop :=
  p.source ∈ rule.usageSources ∧ (p.team ∈ rule.targets ∨
    ∃ own, selectRule p.toCostRecord rules = some own ∧ ∃ team ∈ own.targets, team ∈ rule.targets)

/-- No record that a pass splits feeds the usage-weighted rule of another. -/
def Independent (w : Warehouse) (period : Period) (rules : List AllocationRule) : Prop :=
  ∀ p ∈ w.rows, ∀ q ∈ w.rows, isCandidate period p.toCostRecord = true →
    isCandidate period q.toCostRecord = true → p.id ≠ q.id → governed rules p = true →
    ∀ rule, selectRule q.toCostRecord rules = some rule → rule.strategy = .usageWeighted →
      ¬ Feeds rules p rule

/-- What a pass has assigned: parent, team, amount and quantity of each child. -/
def assigned (w w' : Warehouse) : List (Option ℕ × String × ℚ × Option ℚ) :=
  (added w w').map fun c => (c.allocationParentId, c.team, c.amountUsd, c.quantity)

/-- A pass that completes in one order of the rows completes in every order, and
assigns the same. -/
def OrderFree (num : Arith) (w : Warehouse) (period : Period) (rules : List AllocationRule) :
    Prop :=
  ∀ order order' w₁ summary, Completes num ⟨order, period, rules⟩ w w₁ summary →
    ∃ w₂ summary', Completes num ⟨order', period, rules⟩ w w₂ summary' ∧
      (assigned w w₂).Perm (assigned w w₁)

/-! ### The usage rows -/

theorem observedWeights_congr (num : Arith) {rows rows' : List CostRow} {rule : AllocationRule}
    (h : usageRows rows period rule = usageRows rows' period rule) :
    observedWeights num rows period rule.targets rule.usageSources =
      observedWeights num rows' period rule.targets rule.usageSources := by
  unfold usageRows at h
  unfold observedWeights usageByTeam
  rw [h]

theorem usageRows_applyAll {s : Session} {xs : List Split} {rule : AllocationRule}
    (hlt : ∀ x ∈ xs, x.parent.id < s.nextId)
    (hmem : ∀ x ∈ xs, x.parent ∈ s.rows)
    (hrule : ∀ x ∈ xs, selectRule x.parent.toCostRecord rules = some x.rule)
    (hfeeds : ∀ x ∈ xs, ¬ Feeds rules x.parent rule) :
    usageRows (applyAll s xs).rows period rule = usageRows s.rows period rule := by
  have hnew : usageRows (Session.numbered s.nextId (xs.flatMap Split.children)) period rule =
      [] := by
    refine List.filter_eq_nil_iff.mpr fun c hc hp => ?_
    obtain ⟨d, hd, he⟩ := Session.mem_numbered hc
    obtain ⟨x, hx, hdx⟩ := List.mem_flatMap.mp hd
    obtain ⟨e, hmem, rfl⟩ := List.mem_map.mp hdx
    simp only [Bool.and_eq_true, decide_eq_true_eq, he] at hp
    refine hfeeds x hx ⟨hp.2, .inr ⟨x.rule, hrule x hx, e.1, ?_, hp.1.2⟩⟩
    exact (x.teams e.1).mp (List.mem_map_of_mem hmem)
  have hold : ∀ r ∈ s.rows, r.id ∈ xs.map (fun x => x.parent.id) →
      ¬ (r.team ∈ rule.targets ∧ r.source ∈ rule.usageSources) := by
    rintro r hr hid ⟨hteam, hsource⟩
    obtain ⟨x, hx, he⟩ := List.mem_map.mp hid
    obtain rfl : x.parent = r := List.inj_on_of_nodup_map s.ids (hmem x hx) hr he
    exact hfeeds x hx ⟨hsource, .inl hteam⟩
  rw [rows_applyAll hlt, usageRows, List.filter_append, ← usageRows, ← usageRows, hnew,
    List.append_nil, usageRows, List.filter_map, usageRows]
  have hpred : ∀ r ∈ s.rows, ((fun r : CostRow => period.contains r.occurredAt && !r.allocated &&
      decide (r.team ∈ rule.targets) && decide (r.source ∈ rule.usageSources)) ∘ marked xs) r =
      (period.contains r.occurredAt && !r.allocated && decide (r.team ∈ rule.targets) &&
        decide (r.source ∈ rule.usageSources)) := by
    intro r hr
    by_cases hid : r.id ∈ xs.map fun x => x.parent.id
    · have hteam : (marked xs r).team = r.team := by rw [marked_eq]
      have hsource : (marked xs r).source = r.source := by rw [marked_eq]
      have hno : (decide (r.team ∈ rule.targets) && decide (r.source ∈ rule.usageSources)) =
          false := by
        rw [← Bool.decide_and]
        exact decide_eq_false (hold r hr hid)
      rw [Function.comp, hteam, hsource, Bool.and_assoc, hno, Bool.and_false, Bool.and_assoc, hno,
        Bool.and_false]
    · rw [Function.comp, marked_of_notMem hid]
  rw [List.filter_congr hpred]
  refine (List.map_congr_left fun r hr => marked_of_notMem fun hid => ?_).trans (List.map_id _)
  obtain ⟨hrows, hp⟩ := List.mem_filter.mp hr
  simp only [Bool.and_eq_true, decide_eq_true_eq] at hp
  exact hold r hrows hid ⟨hp.1.2, hp.2⟩

/-- A record that feeds a rule does change its usage rows when it is split. -/
theorem usageRows_of_feeds {s : Session} {x : Split} {rule : AllocationRule}
    (hmem : x.parent ∈ s.rows) (hcand : isCandidate period x.parent.toCostRecord = true)
    (hrule : selectRule x.parent.toCostRecord rules = some x.rule)
    (h : Feeds rules x.parent rule) :
    usageRows (x.apply s).rows period rule ≠ usageRows s.rows period rule := by
  have hlt := s.ids_lt x.parent hmem
  have hperiod : period.contains x.parent.occurredAt = true := by
    simp only [isCandidate, Bool.and_eq_true] at hcand
    exact hcand.1.1
  have hopen := allocated_of_isCandidate hcand
  rcases h with ⟨hsource, hteam | ⟨own, hown, team, htarget, hteam⟩⟩
  · have hin : x.parent ∈ usageRows s.rows period rule := by
      refine List.mem_filter.mpr ⟨hmem, ?_⟩
      simp [hperiod, hopen, hteam, hsource]
    intro he
    rw [← he] at hin
    obtain ⟨hrows, _⟩ := List.mem_filter.mp hin
    rw [rows_apply hlt] at hrows
    rcases List.mem_append.mp hrows with hm | hm
    · obtain ⟨r, _, hr⟩ := List.mem_map.mp hm
      have ha := allocated_marked [x] r
      rw [hr, hopen] at ha
      have hid : r.id = x.parent.id := by rw [← hr, id_marked]
      simp [hid] at ha
    · exact absurd (Session.le_id_of_mem_numbered hm) (not_le.mpr hlt)
  · obtain rfl : x.rule = own := Option.some.inj (hrule.symm.trans hown)
    obtain ⟨e, he, rfl⟩ := List.mem_map.mp ((x.teams team).mpr htarget)
    have hchild : childOf x.parent x.rule x.quantities e.1 e.2 ∈ x.children :=
      List.mem_map.mpr ⟨e, he, rfl⟩
    have hrecords := Session.map_numbered id x.children s.nextId
    obtain ⟨c, hc, hrec⟩ : ∃ c ∈ Session.numbered s.nextId x.children,
        c.toCostRecord = (childOf x.parent x.rule x.quantities e.1 e.2).stored := by
      have hin := List.mem_map_of_mem (f := CostRecord.stored) hchild
      rw [show x.children.map CostRecord.stored = _ from hrecords.symm] at hin
      exact List.mem_map.mp hin
    have hin : c ∈ usageRows (x.apply s).rows period rule := by
      refine List.mem_filter.mpr ⟨?_, ?_⟩
      · rw [rows_apply hlt]
        exact List.mem_append_right _ hc
      · rw [hrec]
        simp [childOf, CostRecord.stored, hperiod, hteam, hsource]
    intro heq
    rw [heq] at hin
    exact absurd (s.ids_lt c (List.mem_of_mem_filter hin))
      (not_lt.mpr (Session.le_id_of_mem_numbered hc))

/-! ### One split in another order -/

theorem resolveWeights_congr {s s' : Session} {rule : AllocationRule} {weights : Dict String ℚ}
    (h : rule.strategy = .usageWeighted → (∃ w, s'.flush = .ok w) ∧
      usageRows s'.rows period rule = usageRows s.rows period rule)
    (hw : resolveWeights num s rule period = .ok weights) :
    resolveWeights num s' rule period = .ok weights := by
  refine resolveWeights_eq_ok.mpr ?_
  rcases resolveWeights_eq_ok.mp hw with heven | hfixed | ⟨hs, _, hfit, rfl⟩
  · exact .inl heven
  · exact .inr (.inl hfixed)
  · obtain ⟨hflush, hrows⟩ := h hs
    refine .inr (.inr ⟨hs, hflush, ?_, (observedWeights_congr num hrows).symm⟩)
    rw [UsageFits, hrows]
    exact hfit

theorem allocateParent_of {st : Pass} {x : Split} (h : x.Of num st.session period rules) :
    ∃ summary, allocateParent num period rules st x.parent =
      .ok ⟨x.apply st.session, summary⟩ := by
  obtain ⟨hsel, weights, hw, hs, hb⟩ := h
  unfold allocateParent
  rw [hsel]
  dsimp only
  rw [hw]
  simp only [bind, Except.bind, hs, hb]
  exact ⟨_, rfl⟩

/-! ### What the database accepts -/

theorem fits_marked {xs : List Split} : ∀ {r : CostRow},
    (∀ x ∈ xs, textFits 64 x.rule.name = true) → r.fits = true → (marked xs r).fits = true := by
  induction xs with
  | nil => intro r _ hr; exact hr
  | cons x xs ih =>
    intro r h hr
    rw [marked_cons]
    refine ih (fun y hy => h y (List.mem_cons_of_mem x hy)) ?_
    split
    · have hfit := CostRecord.fits_iff.mp hr
      exact CostRecord.fits_iff.mpr { hfit with allocationRule := h x List.mem_cons_self }
    · exact hr

theorem uniqueKey_marked (xs : List Split) (r : CostRow) :
    (marked xs r).uniqueKey = r.uniqueKey := by
  rw [marked_eq]
  rfl

theorem map_uniqueKey_applyAll {w : Warehouse} {xs : List Split}
    (hlt : ∀ x ∈ xs, x.parent.id < w.nextId) :
    ((applyAll w.toSession xs).rows.map fun r => r.uniqueKey) =
      (w.rows.map fun r => r.uniqueKey) ++
        (xs.flatMap Split.children).map fun c => c.stored.uniqueKey := by
  rw [rows_applyAll hlt, List.map_append, List.map_map, Session.map_numbered]
  congr 1
  exact List.map_congr_left fun r _ => uniqueKey_marked xs r

/-- The table after the splits is accepted when its new keys are new and its
children fit. -/
theorem exists_flush_applyAll_iff {w : Warehouse} {xs : List Split}
    (hlt : ∀ x ∈ xs, x.parent.id < w.nextId) :
    (∃ w', (applyAll w.toSession xs).flush = .ok w') ↔
      ((w.rows.map fun r => r.uniqueKey) ++
        (xs.flatMap Split.children).map fun c => c.stored.uniqueKey).Nodup ∧
      ∀ c ∈ xs.flatMap Split.children, c.stored.fits = true := by
  rw [Session.exists_flush_eq_ok, map_uniqueKey_applyAll hlt]
  refine and_congr_right fun _ => ?_
  rw [rows_applyAll hlt]
  have hnumbered : (Session.numbered w.nextId (xs.flatMap Split.children)).map
      (fun q => q.fits) = (xs.flatMap Split.children).map fun c => c.stored.fits :=
    Session.map_numbered (fun c => c.fits) _ _
  constructor
  · intro h c hc
    have hin : c.stored.fits ∈ (xs.flatMap Split.children).map fun c => c.stored.fits :=
      List.mem_map_of_mem hc
    rw [← hnumbered] at hin
    obtain ⟨q, hq, he⟩ := List.mem_map.mp hin
    rw [← he]
    exact h q (List.mem_append_right _ hq)
  · intro h r hr
    rcases List.mem_append.mp hr with hr | hr
    · obtain ⟨q, hq, rfl⟩ := List.mem_map.mp hr
      refine fits_marked (fun x hx => ?_) (w.fit q hq)
      obtain ⟨c, hc⟩ := List.exists_mem_of_ne_nil _ x.children_ne_nil
      have hfit := h c (List.mem_flatMap.mpr ⟨x, hx, hc⟩)
      have hrule : c.allocationRule = some x.rule.name := Split.rule_of_mem hc
      have hname : c.allocationRule.all (textFits 64) = true :=
        (CostRecord.fits_iff.mp hfit).allocationRule
      rwa [hrule] at hname
    · have hin : r.fits ∈ (Session.numbered w.nextId (xs.flatMap Split.children)).map
          fun q => q.fits := List.mem_map_of_mem hr
      rw [hnumbered] at hin
      obtain ⟨c, hc, he⟩ := List.mem_map.mp hin
      rw [← he]
      exact h c hc

theorem exists_flush_of_subperm {w : Warehouse} {xs ys : List Split}
    (hlt : ∀ x ∈ xs, x.parent.id < w.nextId) (hsub : ys.Subperm xs)
    (h : ∃ w', (applyAll w.toSession xs).flush = .ok w') :
    ∃ w', (applyAll w.toSession ys).flush = .ok w' := by
  rw [exists_flush_applyAll_iff hlt] at h
  rw [exists_flush_applyAll_iff fun y hy => hlt y (hsub.subset hy)]
  obtain ⟨zs, hperm, hsublist⟩ := hsub
  have hkeys := (hperm.flatMap_right Split.children).map fun c => c.stored.uniqueKey
  constructor
  · rw [(hkeys.append_left _).symm.nodup_iff]
    refine h.1.sublist ((List.Sublist.refl _).append ?_)
    exact (hsublist.flatMap Split.children).map _
  · intro c hc
    obtain ⟨y, hy, hcy⟩ := List.mem_flatMap.mp hc
    exact h.2 c (List.mem_flatMap.mpr ⟨y, hsublist.subset (hperm.mem_iff.mpr hy), hcy⟩)

/-! ### The same splits in any order -/

variable {order : ℕ → ℕ} {w w₁ : Warehouse} {xs : List Split}

/-- The usage rows of a split are those from before the pass, whatever others have
been made. -/
theorem usageRows_of_independent (hind : Independent w period rules)
    (hout : Outcome num ⟨order, period, rules⟩ w w₁ xs) {x : Split} (hx : x ∈ xs)
    (hs : x.rule.strategy = .usageWeighted) {zs : List Split} (hzs : zs ⊆ xs)
    (hne : ∀ z ∈ zs, z.parent.id ≠ x.parent.id) :
    usageRows (applyAll w.toSession zs).rows period x.rule =
      usageRows w.rows period x.rule := by
  have hrule : ∀ z ∈ xs, selectRule z.parent.toCostRecord rules = some z.rule := by
    intro z hz
    obtain ⟨pre, post, he⟩ := List.append_of_mem hz
    exact (hout.of pre z post he).1
  have hparent : ∀ z ∈ xs, z.parent ∈ w.rows ∧
      isCandidate period z.parent.toCostRecord = true ∧ governed rules z.parent = true :=
    fun z hz => mem_parents.mp (hout.parent_mem hz)
  refine usageRows_applyAll (fun z hz => hout.parent_lt z (hzs hz))
    (fun z hz => (hparent z (hzs hz)).1) (fun z hz => hrule z (hzs hz)) fun z hz => ?_
  obtain ⟨hmem, hcand, hgov⟩ := hparent z (hzs hz)
  obtain ⟨hmemx, hcandx, _⟩ := hparent x hx
  exact hind z.parent hmem x.parent hmemx hcand hcandx (hne z hz) hgov x.rule (hrule x hx) hs

theorem of_reordered (hind : Independent w period rules)
    (hout : Outcome num ⟨order, period, rules⟩ w w₁ xs) {x : Split} (hx : x ∈ xs)
    {zs : List Split} (hzs : zs ⊆ xs) (hnd : (zs.map fun z => z.parent.id).Nodup)
    (hne : ∀ z ∈ zs, z.parent.id ≠ x.parent.id) :
    x.Of num (applyAll w.toSession zs) period rules := by
  obtain ⟨pre, post, he⟩ := List.append_of_mem hx
  obtain ⟨hsel, weights, hw, hsplit, hbuild⟩ := hout.of pre x post he
  refine ⟨hsel, weights, resolveWeights_congr (fun hs => ⟨?_, ?_⟩) hw, hsplit, hbuild⟩
  · refine exists_flush_of_subperm hout.parent_lt ?_ ⟨w₁, ?_⟩
    · exact (List.Nodup.of_map _ hnd).subperm hzs
    · rw [← hout.session]
      exact flush_toSession w₁
  · have hpre : pre ⊆ xs := fun z hz => he ▸ List.mem_append_left _ hz
    have hnpre : ∀ z ∈ pre, z.parent.id ≠ x.parent.id := by
      intro z hz
      have hids := hout.nodup_ids
      rw [he, List.map_append, List.nodup_append] at hids
      exact hids.2.2 _ (List.mem_map_of_mem hz) _ (List.mem_map_of_mem List.mem_cons_self)
    rw [usageRows_of_independent hind hout hx hs hzs hne,
      usageRows_of_independent hind hout hx hs hpre hnpre]

/-- **The loop in another order** makes splits that were made in the first. -/
theorem allocate_reordered (hind : Independent w period rules)
    (hout : Outcome num ⟨order, period, rules⟩ w w₁ xs) {ps : List CostRow} :
    ∀ (st : Pass) (zs : List Split), st.session = applyAll w.toSession zs → zs ⊆ xs →
      ((zs.map fun z => z.parent.id) ++ ps.map CostRow.id).Nodup →
      (∀ p ∈ ps, governed rules p = true → ∃ x ∈ xs, x.parent = p) →
      ∃ st' ys, allocate num period rules st ps = (st', none) ∧
        st'.session = applyAll w.toSession (zs ++ ys) ∧ ys ⊆ xs ∧
        ys.map Split.parent = ps.filter (governed rules) := by
  induction ps with
  | nil =>
    intro st zs hst _ _ _
    exact ⟨st, [], rfl, by rw [List.append_nil]; exact hst, List.nil_subset _, rfl⟩
  | cons p ps ih =>
    intro st zs hst hzs hnd hps
    obtain ⟨hndz, hndp, hdis⟩ := List.nodup_append.mp hnd
    have hrest := fun q hq => hps q (List.mem_cons_of_mem p hq)
    cases hg : governed rules p with
    | false =>
      have hsel : selectRule p.toCostRecord rules = none := by simpa [governed] using hg
      rw [allocate, allocateParent, hsel]
      dsimp only
      rw [List.filter_cons_of_neg (by simp [hg])]
      refine ih _ zs hst hzs ?_ hrest
      exact hnd.sublist ((List.Sublist.refl _).append (List.sublist_cons_self _ _))
    | true =>
      obtain ⟨x, hx, rfl⟩ := hps p List.mem_cons_self hg
      have hne : ∀ z ∈ zs, z.parent.id ≠ x.parent.id := fun z hz =>
        hdis _ (List.mem_map_of_mem hz) _ List.mem_cons_self
      have hof := of_reordered hind hout hx hzs hndz hne
      rw [← hst] at hof
      obtain ⟨summary, hturn⟩ := allocateParent_of hof
      rw [allocate, hturn]
      obtain ⟨st', ys, hdone, hsession, hys, hparents⟩ := ih ⟨x.apply st.session, summary⟩
        (zs ++ [x]) (by rw [hst, applyAll, applyAll, List.foldl_append]; rfl)
        (List.append_subset.mpr ⟨hzs, by simpa using hx⟩)
        (by rw [List.map_append, List.append_assoc]; exact hnd) hrest
      refine ⟨st', x :: ys, hdone, ?_, List.cons_subset.mpr ⟨hx, hys⟩, ?_⟩
      · rw [hsession, List.append_assoc]; rfl
      · rw [List.filter_cons_of_pos hg, List.map_cons, hparents]

theorem assigned_eq {w w' : Warehouse} (h : w'.toSession = applyAll w.toSession xs)
    (hlt : ∀ x ∈ xs, x.parent.id < w.nextId) :
    assigned w w' = (xs.flatMap Split.children).map fun c =>
      (c.stored.allocationParentId, c.stored.team, c.stored.amountUsd, c.stored.quantity) := by
  rw [assigned, added_of_session h hlt]
  exact Session.map_numbered
    (fun c => (c.allocationParentId, c.team, c.amountUsd, c.quantity)) _ _

/-- **Where no record of a pass feeds the rule of another**, a pass that completes
in one order of the rows completes in any other and assigns the same. -/
theorem allocation_order_free (num : Arith) {w : Warehouse} {period : Period}
    {rules : List AllocationRule} (hind : Independent w period rules) :
    OrderFree num w period rules := by
  intro order order' w₁ summary hdone
  obtain ⟨xs, hout, _⟩ := completes_spec hdone
  have hexists : ∀ p ∈ candidates order' period w.rows, governed rules p = true →
      ∃ x ∈ xs, x.parent = p := by
    intro p hp hg
    rw [candidates, List.mem_insertionSort, List.mem_filter] at hp
    have hin : p ∈ xs.map Split.parent := by
      rw [hout.parents]
      exact mem_parents.mpr ⟨hp.1, hp.2, hg⟩
    exact List.mem_map.mp hin
  have hnd : ((candidates order' period w.rows).map CostRow.id).Nodup :=
    (ready_candidates order' period w.toSession).distinct
  obtain ⟨st', ys, hloop, hsession, hys, hparents⟩ :=
    allocate_reordered hind hout ⟨w.toSession, {}⟩ [] rfl (List.nil_subset _)
      (by simpa using hnd) hexists
  rw [List.nil_append] at hsession
  have hperm : ys.Perm xs := by
    have hids : (ys.map fun y => y.parent.id).Nodup := by
      have hsub := nodup_parents ⟨order', period, rules⟩ w
      rw [PassCall.parents, ← hparents, List.map_map] at hsub
      exact hsub
    refine (List.perm_ext_iff_of_nodup (List.Nodup.of_map _ hids)
      (List.Nodup.of_map _ hout.nodup_ids)).mpr fun x => ⟨fun hx => hys hx, fun hx => ?_⟩
    obtain ⟨hmem, hcand, hg⟩ := mem_parents.mp (hout.parent_mem hx)
    have hin : x.parent ∈ ys.map Split.parent := by
      rw [hparents, List.mem_filter, candidates, List.mem_insertionSort, List.mem_filter]
      exact ⟨⟨hmem, hcand⟩, hg⟩
    obtain ⟨y, hy, he⟩ := List.mem_map.mp hin
    have hid : y.parent.id = x.parent.id := congrArg CostRow.id he
    rw [← List.inj_on_of_nodup_map hout.nodup_ids (hys hy) hx hid]
    exact hy
  obtain ⟨w₂, hw₂⟩ := exists_flush_of_subperm hout.parent_lt hperm.subperm
    ⟨w₁, by rw [← hout.session]; exact flush_toSession w₁⟩
  have hdone' : Completes num ⟨order', period, rules⟩ w w₂ st'.summary := by
    unfold Completes PassCall.run applyAllocationRules
    rw [hloop]
    dsimp only
    rw [hsession, hw₂]
  refine ⟨w₂, st'.summary, hdone', ?_⟩
  rw [assigned_eq (Session.toSession_of_flush hw₂) fun y hy => hout.parent_lt y (hys hy),
    assigned_eq hout.session hout.parent_lt]
  exact (hperm.flatMap_right Split.children).map _

/-! Two shared bills and the spend of one team.  The first rule gives the model
bill to search; the second splits the database bill by model spend. -/

def modelBill : CostRecord :=
  { source := .llm, dedupKey := "model", occurredAt := 0, amountUsd := 10 }

def databaseBill : CostRecord :=
  { source := .vectordb, dedupKey := "database", occurredAt := 0, amountUsd := 10 }

def webSpend : CostRecord :=
  { source := .llm, dedupKey := "web", occurredAt := 0, amountUsd := 10, team := "web" }

def sharedBooks : Warehouse :=
  Session.commit Warehouse.empty (Warehouse.empty.addAll [modelBill, databaseBill, webSpend])

def searchRule : AllocationRule where
  name := "search"
  strategy := .evenSplit
  targets := ["search"]
  source := some .llm
  targets_ne := by decide
  weighted := fun h => by cases h

def usageRule : AllocationRule where
  name := "usage"
  strategy := .usageWeighted
  targets := ["search", "web"]
  source := some .vectordb
  targets_ne := by decide
  weighted := fun h => by cases h

def supportRule : AllocationRule where
  name := "support"
  strategy := .evenSplit
  targets := ["support"]
  source := some .llm
  targets_ne := by decide
  weighted := fun h => by cases h

theorem independent_supportRule (w : Warehouse) (period : Period) :
    Independent w period [supportRule, usageRule] := by
  rintro p _ q _ _ _ _ hg rule hr husage ⟨hsource, hfeeds⟩
  have hrule : rule = usageRule := by
    rcases List.mem_cons.mp (selectRule_mem hr).1 with rfl | h
    · exact absurd husage (by decide)
    · exact List.mem_singleton.mp h
  subst hrule
  have hllm : p.source = .llm := List.mem_singleton.mp hsource
  obtain ⟨own, hown⟩ := Option.isSome_iff_exists.mp hg
  obtain ⟨hmem, hmatch⟩ := selectRule_mem hown
  have hsupport : own = supportRule := by
    rcases List.mem_cons.mp hmem with h | h
    · exact h
    · obtain rfl := List.mem_singleton.mp h
      simp [AllocationRule.matchesRecord, usageRule, hllm] at hmatch
  subst hsupport
  have hteam : p.team = UNATTRIBUTED := by
    by_contra hne
    simp [AllocationRule.matchesRecord, supportRule, hne] at hmatch
  rcases hfeeds with hin | ⟨own', hown', team, htarget, hin⟩
  · rw [hteam] at hin
    exact absurd hin (by decide)
  · obtain rfl : supportRule = own' := Option.some.inj (hown.symm.trans hown')
    obtain rfl : team = "support" := List.mem_singleton.mp htarget
    exact absurd hin (by decide)

theorem allocation_order_free_usage :
    (PassCall.parents ⟨id, gpuDay, [supportRule, usageRule]⟩ sharedBooks).map
        (fun p => p.dedupKey) = ["model", "database"] ∧
      Completed .exact sharedBooks ⟨id, gpuDay, [supportRule, usageRule]⟩ ∧
      OrderFree .exact sharedBooks gpuDay [supportRule, usageRule] :=
  ⟨by decide +kernel, completed_of_isOk (by decide +kernel),
    allocation_order_free .exact (independent_supportRule sharedBooks gpuDay)⟩

/-- With both rules the database bill is split 5 to 5 when the model bill comes
first, and 0 to 10 when it comes last. -/
theorem order_decides_split : ¬ OrderFree .exact sharedBooks gpuDay [searchRule, usageRule] := by
  intro h
  have hfirst : Completed .exact sharedBooks ⟨id, gpuDay, [searchRule, usageRule]⟩ :=
    completed_of_isOk (by decide +kernel)
  obtain ⟨w₁, summary, hdone⟩ := hfirst
  obtain ⟨w₂, summary', hdone', hperm⟩ := h id (fun n => 2 - n) w₁ summary hdone
  rw [← passStep_of_completes hdone, ← passStep_of_completes hdone'] at hperm
  exact absurd hperm (by decide +kernel)

end Finops
