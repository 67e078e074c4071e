import Finops.Attribution.Completion
import Mathlib.Data.List.Perm.Basic

/-!
# Closing the periods in any order

A pass reads and writes one period: its candidates and the usage it weighs by lie in
it, and the children it adds stand where their parents do.  So splits of records
`Away` from the period are not seen (`splitOf_away`), and a pass over a table to which
such splits were made is the pass over the table before them (`allocate_away`).  Passes
over periods that do not meet can therefore be taken in any order
(`closing_order_free`).  Only the unique keys look past a period: that one order
completes says that all the children together are accepted.
-/

namespace Finops

open Numerics Runs

variable {num : Arith} {w : Warehouse} {period : Period} {rules : List AllocationRule}
  {xs ys zs : List Split}

/-- Splits of records of the table that lie outside the period. -/
structure Away (w : Warehouse) (period : Period) (zs : List Split) : Prop where
  mem : ∀ z ∈ zs, z.parent ∈ w.rows
  outside : ∀ z ∈ zs, period.contains z.parent.occurredAt = false

/-! ### What a pass sees -/

def recordsIn (period : Period) (rows : List CostRow) : List CostRecord :=
  (rows.map CostRow.toCostRecord).filter fun r => period.contains r.occurredAt

theorem marked_append (xs ys : List Split) (r : CostRow) :
    marked (xs ++ ys) r = marked ys (marked xs r) := List.foldl_append

theorem applyAll_append (s : Session) (xs ys : List Split) :
    applyAll s (xs ++ ys) = applyAll (applyAll s xs) ys := List.foldl_append

theorem marked_away (hz : Away w period zs) {r : CostRow} (hr : r ∈ w.rows)
    (hp : period.contains r.occurredAt = true) : marked zs r = r := by
  refine marked_of_notMem fun hm => ?_
  obtain ⟨z, hmem, hid⟩ := List.mem_map.mp hm
  obtain rfl : z.parent = r := List.inj_on_of_nodup_map w.ids (hz.mem z hmem) hr hid
  rw [hz.outside z hmem] at hp
  cases hp

theorem occurredAt_of_mem {x : Split} {c : CostRecord} (h : c ∈ x.children) :
    c.occurredAt = x.parent.occurredAt := by
  obtain ⟨e, _, rfl⟩ := List.mem_map.mp h
  rfl

theorem lt_of_mem (h : ∀ x ∈ xs, x.parent ∈ w.rows) : ∀ x ∈ xs, x.parent.id < w.nextId :=
  fun x hx => w.ids_lt x.parent (h x hx)

theorem recordsIn_applyAll (h : ∀ x ∈ xs, x.parent ∈ w.rows) :
    recordsIn period (applyAll w.toSession xs).rows =
      ((w.rows.filter fun r => period.contains r.occurredAt).map fun r =>
          (marked xs r).toCostRecord) ++
        ((xs.flatMap Split.children).map CostRecord.stored).filter fun r =>
          period.contains r.occurredAt := by
  have hnumbered : (Session.numbered w.nextId (xs.flatMap Split.children)).map
      CostRow.toCostRecord = (xs.flatMap Split.children).map CostRecord.stored :=
    Session.map_numbered id _ _
  rw [recordsIn, rows_applyAll (lt_of_mem h), List.map_append, List.filter_append, hnumbered,
    List.map_map, List.filter_map]
  congr 2
  refine List.filter_congr fun r _ => ?_
  simp only [Function.comp, occurredAt_marked]

/-- **Splits away from a period are not seen in it.** -/
theorem recordsIn_away (hz : Away w period zs) (hx : ∀ x ∈ xs, x.parent ∈ w.rows) :
    recordsIn period (applyAll w.toSession (zs ++ xs)).rows =
      recordsIn period (applyAll w.toSession xs).rows := by
  rw [recordsIn_applyAll (List.forall_mem_append.mpr ⟨hz.mem, hx⟩), recordsIn_applyAll hx]
  congr 1
  · refine List.map_congr_left fun r hr => ?_
    obtain ⟨hr, hp⟩ := List.mem_filter.mp hr
    rw [marked_append, marked_away hz hr hp]
  · have hnone : ((zs.flatMap Split.children).map CostRecord.stored).filter
        (fun r => period.contains r.occurredAt) = [] := by
      refine List.filter_eq_nil_iff.mpr fun r hr hp => ?_
      obtain ⟨c, hc, rfl⟩ := List.mem_map.mp hr
      obtain ⟨z, hmem, hcz⟩ := List.mem_flatMap.mp hc
      have hout := hz.outside z hmem
      rw [← occurredAt_of_mem hcz] at hout
      exact absurd hp (by simpa [CostRecord.stored] using hout)
    rw [List.flatMap_append, List.map_append, List.filter_append, hnone, List.nil_append]

theorem amount_usage (rows : List CostRow) (period : Period) (targets : List String)
    (sources : List CostSource) (team : String) :
    amount ((rows.filter fun r => period.contains r.occurredAt && !r.allocated &&
        r.team ∈ targets && r.source ∈ sources).filter fun r => r.team = team) =
      toExp halfAway (-CostRecord.moneyScale) (((recordsIn period rows).filter fun r =>
        !r.allocated && r.team ∈ targets && r.source ∈ sources && r.team = team).map
          fun r => r.amountUsd).sum := by
  rw [amount, recordsIn, List.filter_filter, List.filter_filter, List.filter_map, List.map_map]
  refine congrArg (toExp halfAway (-CostRecord.moneyScale)) (congrArg List.sum ?_)
  refine congrArg (List.map fun r : CostRow => r.amountUsd) (List.filter_congr fun r _ => ?_)
  simp only [Function.comp, Bool.and_comm, Bool.and_left_comm, Bool.and_assoc]

theorem usageWeights_of_recordsIn {rows rows' : List CostRow}
    (h : recordsIn period rows = recordsIn period rows') (targets : List String)
    (sources : List CostSource) : usageWeights num rows period targets sources =
      usageWeights num rows' period targets sources := by
  have hamount := fun team => (amount_usage rows period targets sources team).trans
    (h ▸ (amount_usage rows' period targets sources team).symm)
  have hfit : castsFit (usageByTeam rows period targets sources) =
      castsFit (usageByTeam rows' period targets sources) := by
    rw [Bool.eq_iff_iff, usageByTeam, usageByTeam, castsFit_groupRows, castsFit_groupRows]
    simp only [amountFits, hamount]
  have hweights : observedWeights num rows period targets sources =
      observedWeights num rows' period targets sources := by
    have hteams := Dict.ofKeys_congr fun team (_ : team ∈ targets) =>
      ((getD_amounts _ team).trans (hamount team)).trans (getD_amounts _ team).symm
    unfold observedWeights usageByTeam
    dsimp only
    rw [hteams]
  rw [usageWeights, usageWeights, hfit, hweights]

/-! ### What a pass does -/

theorem resolveWeights_away (hz : Away w period zs) (hx : ∀ x ∈ xs, x.parent ∈ w.rows)
    (hflush : ∃ w', (applyAll w.toSession (zs ++ xs)).flush = .ok w') (rule : AllocationRule) :
    resolveWeights num (applyAll w.toSession (zs ++ xs)) rule period =
      resolveWeights num (applyAll w.toSession xs) rule period := by
  obtain ⟨w₁, h₁⟩ := hflush
  have hlt := lt_of_mem (List.forall_mem_append.mpr ⟨hz.mem, hx⟩)
  obtain ⟨w₂, h₂⟩ :=
    exists_flush_of_subperm hlt (List.sublist_append_right zs xs).subperm ⟨w₁, h₁⟩
  unfold resolveWeights
  cases rule.strategy with
  | evenSplit => rfl
  | fixedPercent => rfl
  | usageWeighted =>
    rw [h₁, h₂]
    change usageWeights num w₁.rows period _ _ = usageWeights num w₂.rows period _ _
    rw [Session.toSession_of_flush h₁, Session.toSession_of_flush h₂]
    exact usageWeights_of_recordsIn (recordsIn_away hz hx) _ _

theorem splitOf_congr {s s' : Session} (h : ∀ rule, resolveWeights num s rule period =
    resolveWeights num s' rule period) (p : CostRow) :
    splitOf num s period rules p = splitOf num s' period rules p := by
  unfold splitOf
  cases selectRule p.toCostRecord rules with
  | none => rfl
  | some rule =>
    have hshares : amountShares num s period p rule = amountShares num s' period p rule := by
      rw [amountShares, amountShares, h]
    dsimp only
    split
    · rename_i e he
      split
      · rename_i e' he'
        rw [Except.error.inj (he.symm.trans (hshares.trans he'))]
      · rename_i shares hs
        cases he.symm.trans (hshares.trans hs)
    · rename_i shares hs
      split
      · rename_i e he
        cases hs.symm.trans (hshares.trans he)
      · rename_i shares' hs'
        obtain rfl := Except.ok.inj (hs.symm.trans (hshares.trans hs'))
        rfl

/-- **A turn does what it would do without the splits away from the period.** -/
theorem splitOf_away (hz : Away w period zs) (hx : ∀ x ∈ xs, x.parent ∈ w.rows)
    (hflush : ∃ w', (applyAll w.toSession (zs ++ xs)).flush = .ok w') (p : CostRow) :
    splitOf num (applyAll w.toSession (zs ++ xs)) period rules p =
      splitOf num (applyAll w.toSession xs) period rules p :=
  splitOf_congr (resolveWeights_away hz hx hflush) p

theorem candidates_away (hz : Away w period zs) (order : ℕ → ℕ) :
    candidates order period (applyAll w.toSession zs).rows = candidates order period w.rows := by
  have hnew : (Session.numbered w.nextId (zs.flatMap Split.children)).filter
      (fun r => isCandidate period r.toCostRecord) = [] := by
    refine List.filter_eq_nil_iff.mpr fun r hr hcand => ?_
    obtain ⟨c, hc, he⟩ := Session.mem_numbered hr
    obtain ⟨z, _, hcz⟩ := List.mem_flatMap.mp hc
    have hparent : c.allocationParentId = some z.parent.id := Split.parentId_of_mem hcz
    have hnone := noParent_of_isCandidate hcand
    rw [he] at hnone
    cases hparent.symm.trans hnone
  have hsame : ∀ r ∈ w.rows, isCandidate period (marked zs r).toCostRecord =
      isCandidate period r.toCostRecord := by
    intro r hr
    cases hp : period.contains r.occurredAt with
    | true => rw [marked_away hz hr hp]
    | false => simp only [isCandidate, occurredAt_marked, hp, Bool.false_and]
  have hold : (w.rows.map (marked zs)).filter (fun r => isCandidate period r.toCostRecord) =
      w.rows.filter fun r => isCandidate period r.toCostRecord := by
    have hpred : w.rows.filter ((fun r => isCandidate period r.toCostRecord) ∘ marked zs) =
        w.rows.filter fun r => isCandidate period r.toCostRecord := List.filter_congr hsame
    rw [List.filter_map, hpred]
    refine (List.map_congr_left fun r hr => ?_).trans (List.map_id _)
    obtain ⟨hr, hcand⟩ := List.mem_filter.mp hr
    exact marked_away hz hr (contains_of_isCandidate hcand)
  rw [candidates, rows_applyAll (lt_of_mem hz.mem), List.filter_append, hnew, List.append_nil, hold]
  rfl

/-- **The loop makes the splits it makes without those away from the period**, and
counts them alike. -/
theorem allocate_away (hz : Away w period zs) {ps : List CostRow} (hps : ∀ p ∈ ps, p ∈ w.rows) :
    ∀ {xs : List Split} {summary : AllocationSummary} {st : Pass},
      (∀ x ∈ xs, x.parent ∈ w.rows) →
      allocate num period rules ⟨applyAll w.toSession (zs ++ xs), summary⟩ ps = (st, none) →
      (∃ w', st.session.flush = .ok w') →
        ∃ ys, st.session = applyAll w.toSession (zs ++ (xs ++ ys)) ∧
          ys.map Split.parent = ps.filter (governed rules) ∧
          ∀ zs', Away w period zs' →
            (∃ w', (applyAll w.toSession (zs' ++ (xs ++ ys))).flush = .ok w') →
              allocate num period rules ⟨applyAll w.toSession (zs' ++ xs), summary⟩ ps =
                (⟨applyAll w.toSession (zs' ++ (xs ++ ys)), st.summary⟩, none) := by
  induction ps with
  | nil =>
    intro xs summary st _ h _
    obtain rfl := (Prod.mk.inj h).1
    refine ⟨[], by rw [List.append_nil], rfl, fun zs' _ _ => ?_⟩
    rw [List.append_nil]
    rfl
  | cons p ps ih =>
    intro xs summary st hxs h hflush
    have hp := hps p List.mem_cons_self
    have hrest := fun q hq => hps q (List.mem_cons_of_mem p hq)
    have haway : ∀ {zs' ys : List Split}, Away w period zs' → (∀ y ∈ ys, y.parent ∈ w.rows) →
        (∃ w', (applyAll w.toSession (zs' ++ (xs ++ ys))).flush = .ok w') →
          splitOf num (applyAll w.toSession (zs' ++ xs)) period rules p =
            splitOf num (applyAll w.toSession xs) period rules p := by
      intro zs' ys hz' hys hok
      have hmem := List.forall_mem_append.mpr ⟨hz'.mem, List.forall_mem_append.mpr ⟨hxs, hys⟩⟩
      refine splitOf_away hz' hxs (exists_flush_of_subperm (lt_of_mem hmem) ?_ hok) p
      exact ((List.sublist_append_left xs ys).append_left zs').subperm
    rw [allocate, allocateParent_eq] at h
    cases hx : splitOf num (applyAll w.toSession (zs ++ xs)) period rules p with
    | error e => rw [hx] at h; cases h
    | ok found =>
      rw [hx] at h
      have hg := governed_of_splitOf hx
      cases found with
      | none =>
        obtain ⟨ys, hs, hparents, hys⟩ := ih hrest hxs h hflush
        have hmem : ∀ y ∈ ys, y.parent ∈ w.rows := fun y hy =>
          hrest _ (List.mem_of_mem_filter (hparents ▸ List.mem_map_of_mem hy))
        refine ⟨ys, hs, ?_, fun zs' hz' hok => ?_⟩
        · rw [hparents, List.filter_cons_of_neg (by simp [hg])]
        · rw [allocate, allocateParent_eq, haway hz' hmem hok, ← haway hz hmem (hs ▸ hflush), hx]
          exact hys zs' hz' hok
      | some x =>
        obtain ⟨rfl, _⟩ := splitOf_spec hx
        have happly : ∀ zs' : List Split, x.apply (applyAll w.toSession (zs' ++ xs)) =
            applyAll w.toSession (zs' ++ (xs ++ [x])) := by
          intro zs'
          rw [← List.append_assoc, applyAll_append _ (zs' ++ xs) [x]]
          rfl
        have hxs' : ∀ y ∈ xs ++ [x], y.parent ∈ w.rows :=
          List.forall_mem_append.mpr ⟨hxs, by simpa using hp⟩
        dsimp only [Except.map] at h
        rw [happly] at h
        obtain ⟨ys, hs, hparents, hys⟩ := ih hrest hxs' h hflush
        rw [List.append_assoc] at hs
        have hmem : ∀ y ∈ x :: ys, y.parent ∈ w.rows := by
          refine List.forall_mem_cons.mpr ⟨hp, fun y hy => ?_⟩
          exact hrest _ (List.mem_of_mem_filter (hparents ▸ List.mem_map_of_mem hy))
        refine ⟨x :: ys, hs, ?_, fun zs' hz' hok => ?_⟩
        · rw [List.map_cons, hparents, List.filter_cons_of_pos (by rw [hg]; rfl)]
        · rw [allocate, allocateParent_eq, haway hz' hmem hok, ← haway hz hmem (hs ▸ hflush), hx]
          dsimp only [Except.map]
          rw [happly]
          have hdone := hys zs' hz' (by rw [List.append_assoc]; exact hok)
          rw [List.append_assoc] at hdone
          exact hdone

/-! ### One pass after others -/

/-- The splits that the pass makes, and the summary that it returns, whatever splits
have been made outside its period. -/
structure Acts (num : Arith) (w : Warehouse) (call : PassCall)
    (made : List Split × AllocationSummary) : Prop where
  parents : made.1.map Split.parent = call.parents w
  loop : ∀ zs, Away w call.period zs →
    (∃ w', (applyAll w.toSession (zs ++ made.1)).flush = .ok w') →
      allocate num call.period call.rules ⟨applyAll w.toSession zs, {}⟩
          (candidates call.order call.period w.rows) =
        (⟨applyAll w.toSession (zs ++ made.1), made.2⟩, none)

variable {call : PassCall} {made : List Split × AllocationSummary} {w₁ w₂ : Warehouse}

theorem Acts.mem (h : Acts num w call made) : ∀ x ∈ made.1, x.parent ∈ w.rows :=
  fun _ hx => (mem_parents.mp (h.parents ▸ List.mem_map_of_mem hx)).1

theorem Acts.inside (h : Acts num w call made) :
    ∀ x ∈ made.1, call.period.contains x.parent.occurredAt = true :=
  fun _ hx => contains_of_isCandidate (mem_parents.mp (h.parents ▸ List.mem_map_of_mem hx)).2.1

theorem Acts.nodup (h : Acts num w call made) : (made.1.map fun x => x.parent.id).Nodup := by
  have hn := nodup_parents call w
  rw [← h.parents, List.map_map] at hn
  exact hn

theorem acts_of_completes (hz : Away w call.period zs) (hw : w₁.toSession = applyAll w.toSession zs)
    {summary : AllocationSummary} (hdone : Completes num call w₁ w₂ summary) :
    ∃ xs, Acts num w call (xs, summary) ∧ w₂.toSession = applyAll w.toSession (zs ++ xs) := by
  unfold Completes PassCall.run applyAllocationRules at hdone
  rw [hw, candidates_away hz] at hdone
  split at hdone
  · cases (Prod.mk.inj hdone).2
  rename_i st hloop
  cases hf : st.session.flush with
  | error e => rw [hf] at hdone; cases (Prod.mk.inj hdone).2
  | ok w' =>
    rw [hf] at hdone
    obtain ⟨hw', hsum⟩ := Prod.mk.inj hdone
    obtain rfl := Except.ok.inj hsum
    have hmem : ∀ p ∈ candidates call.order call.period w.rows, p ∈ w.rows := fun _ hp =>
      (mem_candidates.mp hp).1
    have hloop' : allocate num call.period call.rules ⟨applyAll w.toSession (zs ++ []), {}⟩
        (candidates call.order call.period w.rows) = (st, none) := by
      rw [List.append_nil]
      exact hloop
    have hnil : ∀ x ∈ ([] : List Split), x.parent ∈ w.rows := fun x hx =>
      absurd hx List.not_mem_nil
    obtain ⟨xs, hs, hparents, hall⟩ := allocate_away hz hmem hnil hloop' ⟨w', hf⟩
    refine ⟨xs, ⟨hparents, fun zs' hz' hok => ?_⟩, ?_⟩
    · have hrun := hall zs' hz' hok
      rw [List.append_nil] at hrun
      exact hrun
    · rw [← hw', Session.toSession_of_flush hf]
      exact hs

theorem completes_of_acts (hz : Away w call.period zs) (hw : w₁.toSession = applyAll w.toSession zs)
    (h : Acts num w call made) (hf : (applyAll w.toSession (zs ++ made.1)).flush = .ok w₂) :
    Completes num call w₁ w₂ made.2 := by
  unfold Completes PassCall.run applyAllocationRules
  rw [hw, candidates_away hz, h.loop zs hz ⟨w₂, hf⟩]
  dsimp only
  rw [hf]

/-! ### Passes over periods that do not meet -/

def Apart (calls : List PassCall) : Prop :=
  calls.Pairwise fun a b => ∀ t, ¬ (a.period.contains t = true ∧ b.period.contains t = true)

theorem away_append (hz : Away w period zs) (h : Acts num w call made)
    (hapart : ∀ t, ¬ (call.period.contains t = true ∧ period.contains t = true)) :
    Away w period (zs ++ made.1) := by
  refine ⟨List.forall_mem_append.mpr ⟨hz.mem, h.mem⟩,
    List.forall_mem_append.mpr ⟨hz.outside, fun x hx => ?_⟩⟩
  by_contra hne
  exact hapart _ ⟨h.inside x hx, by simpa using hne⟩

theorem acts_of_along {calls : List PassCall} : ∀ {zs : List Split} {w₁ : Warehouse},
    (∀ call ∈ calls, Away w call.period zs) → Apart calls →
    w₁.toSession = applyAll w.toSession zs → Along (passStep num) (Completed num) w₁ calls →
      ∃ mades, List.Forall₂ (Acts num w) calls mades ∧
        (after (passStep num) w₁ calls).toSession =
          applyAll w.toSession (zs ++ mades.flatMap Prod.fst) := by
  induction calls with
  | nil =>
    intro zs w₁ _ _ hw _
    exact ⟨[], .nil, by rw [List.flatMap_nil, List.append_nil]; exact hw⟩
  | cons call calls ih =>
    rintro zs w₁ haway hapart hw ⟨⟨w₂, summary, hdone⟩, hrest⟩
    obtain ⟨hhead, htail⟩ := List.pairwise_cons.mp hapart
    obtain ⟨xs, hacts, hw₂⟩ := acts_of_completes (haway call List.mem_cons_self) hw hdone
    rw [passStep_of_completes hdone] at hrest
    obtain ⟨mades, hall, hend⟩ := ih (fun c hc => away_append
      (haway c (List.mem_cons_of_mem call hc)) hacts (hhead c hc)) htail hw₂ hrest
    refine ⟨(xs, summary) :: mades, .cons hacts hall, ?_⟩
    rw [after_cons, passStep_of_completes hdone, hend, List.flatMap_cons, List.append_assoc]

theorem mem_of_acts {calls : List PassCall} {mades : List (List Split × AllocationSummary)}
    (hall : List.Forall₂ (Acts num w) calls mades) :
    ∀ x ∈ mades.flatMap Prod.fst, x.parent ∈ w.rows := by
  induction hall with
  | nil => exact fun x hx => absurd hx List.not_mem_nil
  | cons hacts _ ih =>
    rw [List.flatMap_cons]
    exact List.forall_mem_append.mpr ⟨hacts.mem, ih⟩

/-- **They do the same in this order**, as long as the database accepts it all: each
returns what it would return by itself. -/
theorem along_of_acts {calls : List PassCall} {mades : List (List Split × AllocationSummary)}
    (hall : List.Forall₂ (Acts num w) calls mades) : ∀ {zs : List Split} {w₁ : Warehouse},
      (∀ call ∈ calls, Away w call.period zs) → Apart calls →
      w₁.toSession = applyAll w.toSession zs →
      (∃ w', (applyAll w.toSession (zs ++ mades.flatMap Prod.fst)).flush = .ok w') →
        Along (passStep num) (Completed num) w₁ calls ∧
          (after (passStep num) w₁ calls).toSession =
            applyAll w.toSession (zs ++ mades.flatMap Prod.fst) ∧
          answers (passStep num) (fun w call => (call.run num w).2) w₁ calls =
            calls.map fun call => (call.run num w).2 := by
  induction hall with
  | nil =>
    intro zs w₁ _ _ hw _
    rw [List.flatMap_nil, List.append_nil]
    exact ⟨trivial, hw, rfl⟩
  | @cons call made calls mades hacts hall ih =>
    intro zs w₁ haway hapart hw hok
    obtain ⟨hhead, htail⟩ := List.pairwise_cons.mp hapart
    have hz := haway call List.mem_cons_self
    rw [List.flatMap_cons] at hok
    have hlt := lt_of_mem (List.forall_mem_append.mpr ⟨hz.mem,
      List.forall_mem_append.mpr ⟨hacts.mem, mem_of_acts hall⟩⟩)
    have hmade := List.sublist_append_left made.1 (mades.flatMap Prod.fst)
    obtain ⟨w₂, hw₂⟩ := exists_flush_of_subperm hlt (hmade.append_left zs).subperm hok
    obtain ⟨w₃, hw₃⟩ := exists_flush_of_subperm hlt
      (hmade.trans (List.sublist_append_right zs _)).subperm hok
    have hdone := completes_of_acts hz hw hacts hw₂
    have hnil : Away w call.period [] := ⟨by simp, by simp⟩
    have halone := completes_of_acts hnil rfl hacts hw₃
    obtain ⟨hrest, hend, hanswers⟩ := ih (fun c hc => away_append
      (haway c (List.mem_cons_of_mem call hc)) hacts (hhead c hc)) htail
      (Session.toSession_of_flush hw₂) (by rw [List.append_assoc]; exact hok)
    have hstep := passStep_of_completes hdone
    refine ⟨⟨⟨w₂, made.2, hdone⟩, by rw [hstep]; exact hrest⟩, ?_, ?_⟩
    · rw [after_cons, hstep, hend, List.flatMap_cons, List.append_assoc]
    · rw [answers, hstep, hanswers, List.map_cons, hdone, halone]

/-! ### Any order -/

theorem marked_perm (hperm : ys.Perm xs) (hids : (xs.map fun x => x.parent.id).Nodup)
    (r : CostRow) : marked ys r = marked xs r := by
  refine hperm.foldl_eq' (fun x hx y hy z => ?_) r
  by_cases he : x.parent.id = y.parent.id
  · have hxy := List.inj_on_of_nodup_map hids (hperm.subset hx) (hperm.subset hy) he
    rw [hxy]
  · rcases eq_or_ne z.id x.parent.id with hz | hz
    · simp [hz, he]
    rcases eq_or_ne z.id y.parent.id with hzy | hzy
    · simp [hzy, Ne.symm he]
    · simp [hz, hzy]

theorem nodup_of_acts {calls : List PassCall} {mades : List (List Split × AllocationSummary)}
    (hall : List.Forall₂ (Acts num w) calls mades) : Apart calls →
      ((mades.flatMap Prod.fst).map fun x => x.parent.id).Nodup ∧
        ∀ x ∈ mades.flatMap Prod.fst, ∃ call ∈ calls,
          call.period.contains x.parent.occurredAt = true := by
  induction hall with
  | nil => exact fun _ => ⟨List.nodup_nil, fun x hx => absurd hx List.not_mem_nil⟩
  | @cons call made calls mades hacts hall ih =>
    intro hapart
    obtain ⟨hhead, htail⟩ := List.pairwise_cons.mp hapart
    obtain ⟨hnd, hin⟩ := ih htail
    rw [List.flatMap_cons, List.map_append, List.nodup_append]
    refine ⟨⟨hacts.nodup, hnd, ?_⟩, List.forall_mem_append.mpr ⟨fun x hx => ?_, fun x hx => ?_⟩⟩
    · rintro a ha b hb rfl
      obtain ⟨x, hx, rfl⟩ := List.mem_map.mp ha
      obtain ⟨y, hy, he⟩ := List.mem_map.mp hb
      obtain ⟨other, hother, hy'⟩ := hin y hy
      have hxy : y.parent = x.parent :=
        List.inj_on_of_nodup_map w.ids (mem_of_acts hall y hy) (hacts.mem x hx) he
      exact hhead other hother _ ⟨hacts.inside x hx, hxy ▸ hy'⟩
    · exact ⟨call, List.mem_cons_self, hacts.inside x hx⟩
    · obtain ⟨other, hother, hx'⟩ := hin x hx
      exact ⟨other, List.mem_cons_of_mem call hother, hx'⟩

theorem old_rows {w' : Warehouse} (h : w'.toSession = applyAll w.toSession xs)
    (hmem : ∀ x ∈ xs, x.parent ∈ w.rows) :
    (w'.rows.filter fun r => r.id < w.nextId) = w.rows.map (marked xs) := by
  have hold : (w.rows.map (marked xs)).filter (fun r => r.id < w.nextId) =
      w.rows.map (marked xs) := by
    refine List.filter_eq_self.mpr fun r hr => ?_
    obtain ⟨q, hq, rfl⟩ := List.mem_map.mp hr
    simpa using w.ids_lt q hq
  have hnew : (Session.numbered w.nextId (xs.flatMap Split.children)).filter
      (fun r => r.id < w.nextId) = [] :=
    List.filter_eq_nil_iff.mpr fun r hr => by simpa using Session.le_id_of_mem_numbered hr
  rw [h, rows_applyAll (lt_of_mem hmem), List.filter_append, hold, hnew, List.append_nil]

theorem records_added {w' : Warehouse} (h : w'.toSession = applyAll w.toSession xs)
    (hmem : ∀ x ∈ xs, x.parent ∈ w.rows) : (added w w').map CostRow.toCostRecord =
      (xs.flatMap Split.children).map CostRecord.stored := by
  rw [added_of_session h (lt_of_mem hmem)]
  exact Session.map_numbered id _ _

/-- **Periods that do not meet can be closed in any order.**  Where passes over such
periods, each with rules and a row order of its own, complete in one order, they
complete in every order; each returns what it would return by itself; the records that
were there end as they do in the first order, and the same children are added. -/
theorem closing_order_free (num : Arith) {w : Warehouse} {calls calls' : List PassCall}
    (hapart : Apart calls) (hdone : Along (passStep num) (Completed num) w calls)
    (hperm : calls'.Perm calls) :
    Along (passStep num) (Completed num) w calls' ∧
      answers (passStep num) (fun w call => (call.run num w).2) w calls' =
        calls'.map (fun call => (call.run num w).2) ∧
      ((after (passStep num) w calls').rows.filter fun r => r.id < w.nextId) =
        ((after (passStep num) w calls).rows.filter fun r => r.id < w.nextId) ∧
      ((added w (after (passStep num) w calls')).map CostRow.toCostRecord).Perm
        ((added w (after (passStep num) w calls)).map CostRow.toCostRecord) := by
  have hnone : ∀ call : PassCall, Away w call.period [] := fun _ => ⟨by simp, by simp⟩
  obtain ⟨mades, hall, hend⟩ := acts_of_along (fun call _ => hnone call) hapart rfl hdone
  obtain ⟨mades', hall', hmades⟩ := List.perm_comp_forall₂ hperm hall
  have hapart' : Apart calls' :=
    hperm.symm.pairwise hapart fun {a b} h t ht => h t ht.symm
  have hsplits : (mades'.flatMap Prod.fst).Perm (mades.flatMap Prod.fst) := hmades.flatMap_right _
  rw [List.nil_append] at hend
  have hmem := mem_of_acts hall
  have hmem' := mem_of_acts hall'
  obtain ⟨hcomplete, hend', hanswers⟩ := along_of_acts hall' (fun call _ => hnone call) hapart' rfl
    (exists_flush_of_subperm (lt_of_mem hmem) hsplits.subperm
      ⟨_, by rw [← hend]; exact flush_toSession _⟩)
  rw [List.nil_append] at hend'
  refine ⟨hcomplete, hanswers, ?_, ?_⟩
  · rw [old_rows hend' hmem', old_rows hend hmem]
    exact List.map_congr_left fun r _ => marked_perm hsplits (nodup_of_acts hall hapart).1 r
  · rw [records_added hend' hmem', records_added hend hmem]
    exact (hsplits.flatMap_right Split.children).map _

/-! Two days with shared bills, the second closed before the first. -/

def dayAfter : Period := ⟨1, 2, by decide⟩

def twoDays : Warehouse :=
  Session.commit Warehouse.empty (Warehouse.empty.addAll [indexBill, searchSpend,
    { platformBill with occurredAt := 1 }, { indexBill with dedupKey := "late", occurredAt := 1 }])

def closings : List PassCall := [⟨id, gpuDay, DEFAULT_RULES⟩, ⟨id, dayAfter, DEFAULT_RULES⟩]

theorem closing_order_free_twoDays :
    Apart closings ∧ Along (passStep .exact) (Completed .exact) twoDays closings ∧
      Along (passStep .exact) (Completed .exact) twoDays closings.reverse := by
  have hapart : Apart closings := by
    refine List.pairwise_pair.mpr fun t ht => ?_
    simp only [Period.contains, Bool.and_eq_true] at ht
    have hfirst : t < 1 := of_decide_eq_true ht.1.2
    have hsecond : 1 ≤ t := of_decide_eq_true ht.2.1
    exact absurd hsecond (not_le.mpr hfirst)
  have hdone : Along (passStep .exact) (Completed .exact) twoDays closings :=
    ⟨completed_of_isOk (by decide +kernel), completed_of_isOk (by decide +kernel), trivial⟩
  exact ⟨hapart, hdone, (closing_order_free .exact hapart hdone (List.reverse_perm _)).1⟩

end Finops
