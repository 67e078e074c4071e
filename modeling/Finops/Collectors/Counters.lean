import Mathlib.Algebra.Order.BigOperators.Group.List
import Mathlib.Algebra.Order.Monoid.Prod
import Finops.Collectors.ExactlyOnce

/-!
# The ingestion counters

`_observe_cost` walks over the collected records, `persist` writes the ones that
are new.  So after a cycle the counters have run ahead of what was written by
the amounts of the repeats, the records whose key was stored or stood further
left in the batch (`drift_step`).  No cycle takes the drift back: the counters
reconcile over a run exactly when every repeat was free (`counters_reconcile_iff`).

Amounts are those the records carry, before a column rounds them, and the
arithmetic of the counters is exact.
-/

namespace Finops

open Numerics KeepFirst

def spendTotal (records : List CostRecord) : ℚ := (records.map CostRecord.amountUsd).sum

theorem spendTotal_nonneg {records : List CostRecord} (h : ∀ r ∈ records, 0 ≤ r.amountUsd) :
    0 ≤ spendTotal records := List.sum_nonneg (by simpa using h)

theorem spendTotal_eq_zero_iff {records : List CostRecord} (h : ∀ r ∈ records, 0 ≤ r.amountUsd) :
    spendTotal records = 0 ↔ ∀ r ∈ records, r.amountUsd = 0 := by
  constructor
  · intro h0 r hr
    exact List.all_zero_of_le_zero_le_of_sum_eq_zero (by simpa using h) h0 (List.mem_map_of_mem hr)
  · intro h0
    exact List.sum_eq_zero (by simpa using h0)

def unattributedTotal (records : List CostRecord) : ℚ :=
  spendTotal (records.filter fun r => r.team = UNATTRIBUTED)

theorem unattributedTotal_eq (records : List CostRecord) :
    unattributedTotal records =
      (records.map fun r => if r.team = UNATTRIBUTED then r.amountUsd else 0).sum := by
  induction records with
  | nil => rfl
  | cons r rest ih =>
    rw [unattributedTotal, spendTotal] at ih ⊢
    rw [List.map_cons, List.sum_cons, ← ih]
    by_cases h : r.team = UNATTRIBUTED
    · rw [List.filter_cons_of_pos (by simpa using h), List.map_cons, List.sum_cons, if_pos h]
    · rw [List.filter_cons_of_neg (by simpa using h), if_neg h, zero_add]

/-- How far the two counters are ahead of two amounts. -/
def Metrics.ahead (m : Metrics) (records : List CostRecord) : ℚ × ℚ :=
  (m.costUsd.values.sum - spendTotal records, m.unattributedUsd - unattributedTotal records)

/-- How far the counters are ahead of what was written. -/
def History.drift (h : History) : ℚ × ℚ := h.process.metrics.ahead h.written

/-! ### What one cycle counts -/

theorem observeRecord_exact {m : Metrics} {r : CostRecord} (h : 0 ≤ r.amountUsd) :
    observeRecord .exact m r = ({ m with
      costUsd := incLabel .exact m.costUsd (r.source.str, r.team) r.amountUsd
      unattributedUsd :=
        if r.team = UNATTRIBUTED then m.unattributedUsd + r.amountUsd else m.unattributedUsd },
      none) := by
  have hi : incAmount (Arith.exact.flt r.amountUsd) = .ok r.amountUsd := if_neg (not_lt.mpr h)
  rw [observeRecord, hi]
  rfl

theorem observeRecords_exact {records : List CostRecord} :
    ∀ {m : Metrics}, (∀ r ∈ records, 0 ≤ r.amountUsd) →
      (observeRecords .exact m records).1.costUsd.values.sum =
          m.costUsd.values.sum + spendTotal records ∧
        (observeRecords .exact m records).1.unattributedUsd =
          m.unattributedUsd + unattributedTotal records := by
  induction records with
  | nil => intro m _; simp [observeRecords, spendTotal, unattributedTotal]
  | cons r rest ih =>
    intro m h
    obtain ⟨hr, hrest⟩ := List.forall_mem_cons.mp h
    rw [observeRecords, observeRecord_exact hr]
    obtain ⟨hc, hu⟩ := ih (m := { m with
      costUsd := incLabel .exact m.costUsd (r.source.str, r.team) r.amountUsd
      unattributedUsd :=
        if r.team = UNATTRIBUTED then m.unattributedUsd + r.amountUsd else m.unattributedUsd })
      hrest
    refine ⟨hc.trans ?_, hu.trans ?_⟩
    · rw [spendTotal, spendTotal, List.map_cons, List.sum_cons, ← add_assoc]
      congr 1
      exact Dict.sum_values_set_getD m.costUsd _ r.amountUsd
    · rw [unattributedTotal_eq, unattributedTotal_eq, List.map_cons, List.sum_cons, ← add_assoc]
      congr 1
      dsimp only
      split <;> simp

namespace Collector

variable {c : Collector}

theorem observeCost_exact (m : Metrics) (now : Instant) {records : List CostRecord}
    (h : ∀ r ∈ records, 0 ≤ r.amountUsd) :
    (c.observeCost .exact m records now).1.costUsd.values.sum =
        m.costUsd.values.sum + spendTotal records ∧
      (c.observeCost .exact m records now).1.unattributedUsd =
        m.unattributedUsd + unattributedTotal records := by
  have hr := observeRecords_exact (m := m) h
  rw [observeCost]
  split
  · rename_i m' newest ho _
    rw [ho] at hr
    exact hr
  · exact hr

def Nonneg (cycle : Cycle) : Prop :=
  ∀ records, cycle.collected = .ok records → ∀ r ∈ records, 0 ≤ r.amountUsd

theorem committed_nonneg {db : Database} {cycle : Cycle} (h : Nonneg cycle) :
    ∀ r ∈ c.committed db cycle, 0 ≤ r.amountUsd := by
  intro r hr
  rw [committed] at hr
  cases ha : c.attempt db cycle with
  | error e => rw [ha] at hr; cases hr
  | ok x =>
    rw [ha] at hr
    exact h x.1 (attempt_eq_ok.mp ha).1 r hr

theorem runOnce_counters {p : Process} {cycle : Cycle} (h : Nonneg cycle) :
    (c.runOnce .exact p cycle).1.metrics.costUsd.values.sum =
        p.metrics.costUsd.values.sum + spendTotal (c.committed p.db cycle) ∧
      (c.runOnce .exact p cycle).1.metrics.unattributedUsd =
        p.metrics.unattributedUsd + unattributedTotal (c.committed p.db cycle) := by
  have hnn : ∀ r ∈ c.committed p.db cycle, 0 ≤ r.amountUsd := committed_nonneg h
  rw [committed] at hnn ⊢
  cases ha : c.attempt p.db cycle with
  | error e =>
    rw [runOnce_of_error ha]
    simp [spendTotal, unattributedTotal]
  | ok x =>
    rw [ha] at hnn
    have ho := observeCost_exact (c := c) (c.countSuccess .exact p.metrics x.2.2)
      cycle.observedAt hnn
    rw [runOnce, ha]
    dsimp only at ho ⊢
    split
    · rename_i m e hm; rw [hm] at ho; exact ho
    · rename_i m hm; rw [hm] at ho; exact ho

/-! ### The drift -/

def repeated (c : Collector) (db : Database) (cycle : Cycle) : List CostRecord :=
  repeats CostRecord.dedupKey (c.storedKeys db.warehouse.rows) (c.committed db cycle)

/-- **One cycle** puts the counters ahead by what it repeats. -/
theorem drift_step (h : History) {cycle : Cycle} (hnn : Nonneg cycle) :
    (c.cycleStep .exact h cycle).drift = h.drift +
      (spendTotal (c.repeated h.process.db cycle),
        unattributedTotal (c.repeated h.process.db cycle)) := by
  obtain ⟨hcost, hun⟩ := runOnce_counters (c := c) (p := h.process) hnn
  have hsplit : ∀ f : CostRecord → ℚ,
      ((c.written h.process.db cycle).map f).sum + ((c.repeated h.process.db cycle).map f).sum =
        ((c.committed h.process.db cycle).map f).sum := fun f => by
    rw [written, dropDuplicates_eq, repeated]
    exact sum_keepFirst_add_sum_repeats f
  have hspend := hsplit CostRecord.amountUsd
  have hspendUn := hsplit fun r => if r.team = UNATTRIBUTED then r.amountUsd else 0
  rw [History.drift, History.drift, Metrics.ahead, Metrics.ahead, Prod.mk_add_mk]
  congr 1
  · change (c.runOnce .exact h.process cycle).1.metrics.costUsd.values.sum -
      spendTotal (h.written ++ c.written h.process.db cycle) = _
    rw [hcost, spendTotal, spendTotal, spendTotal, spendTotal, List.map_append, List.sum_append,
      ← hspend]
    ring
  · change (c.runOnce .exact h.process cycle).1.metrics.unattributedUsd -
      unattributedTotal (h.written ++ c.written h.process.db cycle) = _
    rw [hun, unattributedTotal_eq, unattributedTotal_eq, unattributedTotal_eq,
      unattributedTotal_eq, List.map_append, List.sum_append, ← hspendUn]
    ring

/-- No record of a committed batch is both a repeat and not free. -/
def RepeatsAreFree (c : Collector) (h : History) (cycle : Cycle) : Prop :=
  ∀ records, cycle.collected = .ok records → cycle.fault = none →
    c.Accepts h.process.db records → ∀ before r after, records = before ++ r :: after →
      r.dedupKey ∈ c.storedKeys h.process.db.warehouse.rows ∨
        r.dedupKey ∈ before.map CostRecord.dedupKey → r.amountUsd = 0

theorem repeatsAreFree_iff {h : History} {cycle : Cycle} :
    RepeatsAreFree c h cycle ↔ ∀ r ∈ c.repeated h.process.db cycle, r.amountUsd = 0 := by
  rw [repeated, committed]
  cases ha : c.attempt h.process.db cycle with
  | error e =>
    refine ⟨fun _ r hr => absurd hr List.not_mem_nil, fun _ records hc hf hacc => ?_⟩
    obtain ⟨db', n, hok⟩ := exists_attempt_eq_ok.mpr ⟨hc, hf, hacc⟩
    rw [ha] at hok
    cases hok
  | ok x =>
    obtain ⟨records, db', n⟩ := x
    obtain ⟨hc, hf, hacc⟩ := exists_attempt_eq_ok.mp ⟨db', n, ha⟩
    constructor
    · intro hfree r hr
      obtain ⟨before, after, he, hk⟩ := mem_repeats_iff.mp hr
      exact hfree records hc hf hacc before r after he hk
    · rintro hall rs hc' _ _ before r after rfl hk
      rw [hc] at hc'
      cases hc'
      exact hall r (mem_repeats_iff.mpr ⟨before, after, rfl, hk⟩)

theorem drift_mono (h : History) {cycle : Cycle} (hnn : Nonneg cycle) :
    h.drift ≤ (c.cycleStep .exact h cycle).drift ∧
      ((c.cycleStep .exact h cycle).drift = h.drift ↔ RepeatsAreFree c h cycle) := by
  have hpos : ∀ r ∈ c.repeated h.process.db cycle, 0 ≤ r.amountUsd := fun r hr => by
    obtain ⟨before, after, he, _⟩ := mem_repeats_iff.mp hr
    exact committed_nonneg hnn r (by rw [he]; simp)
  have hposUn := fun r hr => hpos r (List.mem_of_mem_filter (p := (·.team = UNATTRIBUTED)) hr)
  rw [drift_step h hnn, repeatsAreFree_iff]
  refine ⟨le_add_of_nonneg_right ⟨spendTotal_nonneg hpos, spendTotal_nonneg hposUn⟩, ?_⟩
  rw [add_eq_left, Prod.mk_eq_zero, spendTotal_eq_zero_iff hpos]
  refine and_iff_left_of_imp fun h0 => ?_
  exact (spendTotal_eq_zero_iff hposUn).mpr fun r hr => h0 r (List.mem_of_mem_filter hr)

/-- **The counters reconcile** with what was written, over all labels and over
the unattributed spend, exactly when every repeat that was committed is free. -/
theorem counters_reconcile_iff {p : Process} {cycles : List Cycle}
    (hnn : ∀ cycle ∈ cycles, Nonneg cycle) :
    ((Runs.after (c.cycleStep .exact) (.start p) cycles).process.metrics.costUsd.values.sum -
          p.metrics.costUsd.values.sum =
        spendTotal (Runs.after (c.cycleStep .exact) (.start p) cycles).written ∧
      (Runs.after (c.cycleStep .exact) (.start p) cycles).process.metrics.unattributedUsd -
          p.metrics.unattributedUsd =
        unattributedTotal (Runs.after (c.cycleStep .exact) (.start p) cycles).written) ↔
      Runs.Along (c.cycleStep .exact) (RepeatsAreFree c) (.start p) cycles := by
  have hquiet : (Runs.after (c.cycleStep .exact) (.start p) cycles).drift =
      (History.start p).drift ↔
      Runs.Along (c.cycleStep .exact) (RepeatsAreFree c) (.start p) cycles :=
    (Runs.eq_iff_along (fun h cycle hc => (drift_mono h hc).1) hnn).trans
      (Runs.along_iff (fun h cycle hc => (drift_mono h hc).2) hnn)
  rw [← hquiet, History.drift, History.drift, Metrics.ahead, Metrics.ahead, Prod.mk.injEq]
  have hs : spendTotal (History.start p).written = 0 := rfl
  have hu : unattributedTotal (History.start p).written = 0 := rfl
  rw [hs, hu, sub_zero, sub_zero, sub_eq_iff_eq_add, sub_eq_iff_eq_add, sub_eq_iff_eq_add,
    sub_eq_iff_eq_add, add_comm (spendTotal _), add_comm (unattributedTotal _)]
  rfl

end Collector

/-! A free request, read again with one that is not. -/

def freeCost : CostRecord :=
  { source := .llm, dedupKey := "req-0", occurredAt := 0, amountUsd := 0, team := "search" }

def freeCycle : Cycle where
  collected := .ok [freeCost]

def laterCycle : Cycle where
  collected := .ok [freeCost, requestCost]

theorem counters_reconcile_later :
    (Runs.after (llmCollector.cycleStep .exact) (.start .fresh)
          [freeCycle, laterCycle]).process.metrics.costUsd.values.sum =
        spendTotal (Runs.after (llmCollector.cycleStep .exact)
          (.start .fresh) [freeCycle, laterCycle]).written := by
  have hnn : ∀ cycle ∈ [freeCycle, laterCycle], Collector.Nonneg cycle := by
    intro cycle hc records h
    simp only [List.mem_cons, List.not_mem_nil, or_false] at hc
    rcases hc with rfl | rfl <;> cases h <;> decide +kernel
  have hfree : Runs.Along (llmCollector.cycleStep .exact) llmCollector.RepeatsAreFree
      (.start .fresh) [freeCycle, laterCycle] := by
    refine ⟨?_, ?_, trivial⟩ <;> rw [Collector.repeatsAreFree_iff] <;> decide +kernel
  exact (sub_zero _).symm.trans ((Collector.counters_reconcile_iff hnn).mpr hfree).1

/-! The same request, read twice: counted twice and written once. -/

theorem replay_counted_twice :
    Collector.Nonneg replayedCycle ∧
      (Runs.after (llmCollector.cycleStep .exact) (.start .fresh)
        [replayedCycle, replayedCycle]).process.metrics.costUsd.values.sum = 4 ∧
      spendTotal (Runs.after (llmCollector.cycleStep .exact)
        (.start .fresh) [replayedCycle, replayedCycle]).written = 2 := by
  refine ⟨?_, by decide +kernel, by decide +kernel⟩
  rintro records h r hr
  cases h
  rw [List.mem_singleton.mp hr]
  decide +kernel

end Finops
