import Finops.Base.Run
import Finops.Collectors.Base

/-!
# Exactly-once persistence

A `History` is a collector process with what it has done so far: the records of
the batches it committed, the records it wrote, the counts it returned.  Batches
may repeat keys, overlap and be replayed, and any cycle may fail.

Between runs the table is one loop of `keepFirst` over everything committed
(`Recorded.rows`): so every new key has one row, the first record committed with
it, whatever the batches were.  The counts are a different matter.  The counters
are moved after the commit and outside the guard of `runOnce`, and a counter
refuses a negative amount: the cycle that writes one raises, and its count is
not returned (`uncounted_step`).
-/

namespace Finops

open Numerics KeepFirst

structure History where
  process : Process
  committed : List CostRecord := []
  written : List CostRecord := []
  returned : List ℕ := []

def History.start (p : Process) : History := { process := p }

/-- Rows written and not counted. -/
def History.uncounted (h : History) : ℤ := h.written.length - h.returned.sum

@[simp] theorem uncounted_start (p : Process) : (History.start p).uncounted = 0 := rfl

namespace Collector

variable (c : Collector) (num : Arith)

def committed (db : Database) (cycle : Cycle) : List CostRecord :=
  match c.attempt db cycle with
  | .ok (records, _) => records
  | .error _ => []

def written (db : Database) (cycle : Cycle) : List CostRecord :=
  c.dropDuplicates db.warehouse.rows (c.committed db cycle)

def cycleStep (h : History) (cycle : Cycle) : History where
  process := (c.runOnce num h.process cycle).1
  committed := h.committed ++ c.committed h.process.db cycle
  written := h.written ++ c.written h.process.db cycle
  returned := h.returned ++ (c.runOnce num h.process cycle).2.toOption.toList

/-- Every record a cycle may bring carries the collector's own source. -/
def Own (cycle : Cycle) : Prop :=
  ∀ records, cycle.collected = .ok records → ∀ r ∈ records, r.source = c.source

variable {c num}

/-- **One cycle**: the new records of what it committed are added. -/
theorem runOnce_session (p : Process) (cycle : Cycle) :
    (c.runOnce num p cycle).1.db.warehouse.toSession =
      p.db.warehouse.addAll (c.written p.db cycle) := by
  rw [written, committed]
  cases h : c.attempt p.db cycle with
  | error e => rw [runOnce_of_error h]; rfl
  | ok x =>
    obtain ⟨records, db', n⟩ := x
    rw [runOnce_db h]
    obtain ⟨_, hp⟩ := attempt_eq_ok.mp h
    obtain ⟨_, _, hw, _, _⟩ := persist_eq_ok.mp hp
    exact Session.toSession_of_flush hw

theorem committed_own {db : Database} {cycle : Cycle} (h : c.Own cycle) :
    ∀ r ∈ c.committed db cycle, r.source = c.source := by
  intro r hr
  rw [committed] at hr
  cases ha : c.attempt db cycle with
  | error e => rw [ha] at hr; cases hr
  | ok x =>
    rw [ha] at hr
    exact h x.1 (attempt_eq_ok.mp ha).1 r hr

/-! ### The table over a run -/

/-- The table holds the first record of each new key of what was committed. -/
structure Recorded (c : Collector) (db : Database) (h : History) : Prop where
  session : h.process.db.warehouse.toSession = db.warehouse.addAll
    (keepFirst CostRecord.dedupKey (c.storedKeys db.warehouse.rows) h.committed)
  written : h.written = keepFirst CostRecord.dedupKey (c.storedKeys db.warehouse.rows) h.committed
  own : ∀ r ∈ h.committed, r.source = c.source

theorem recorded_start (db : Database) (metrics : Metrics) :
    Recorded c db (.start ⟨db, metrics⟩) := ⟨rfl, rfl, fun _ h => absurd h List.not_mem_nil⟩

theorem recorded_step {db : Database} {h : History} {cycle : Cycle} (hr : Recorded c db h)
    (hown : c.Own cycle) : Recorded c db (c.cycleStep num h cycle) := by
  have hkeep : ∀ r ∈ keepFirst CostRecord.dedupKey (c.storedKeys db.warehouse.rows) h.committed,
      r.source = c.source := fun r hm => hr.own r (keepFirst_sublist.subset hm)
  have hnew : c.written h.process.db cycle = keepFirst CostRecord.dedupKey
      (h.committed.map CostRecord.dedupKey ++ c.storedKeys db.warehouse.rows)
      (c.committed h.process.db cycle) := by
    rw [Collector.written, dropDuplicates_eq]
    refine keepFirst_congr fun r _ => ?_
    have hrows : h.process.db.warehouse.rows = (db.warehouse.addAll (keepFirst
      CostRecord.dedupKey (c.storedKeys db.warehouse.rows) h.committed)).rows := by
        rw [← hr.session]
    rw [hrows, storedKeys_addAll hkeep, List.mem_append, List.mem_append, mem_map_keepFirst]
    tauto
  have happ : keepFirst CostRecord.dedupKey (c.storedKeys db.warehouse.rows)
      (h.committed ++ c.committed h.process.db cycle) =
      keepFirst CostRecord.dedupKey (c.storedKeys db.warehouse.rows) h.committed ++
        keepFirst CostRecord.dedupKey
          (h.committed.map CostRecord.dedupKey ++ c.storedKeys db.warehouse.rows)
          (c.committed h.process.db cycle) := keepFirst_append
  refine ⟨?_, ?_, ?_⟩
  · change (c.runOnce num h.process cycle).1.db.warehouse.toSession = _
    rw [runOnce_session, hr.session, hnew, ← Session.addAll_append, ← happ]
    rfl
  · change h.written ++ c.written h.process.db cycle = _
    rw [hr.written, hnew, ← happ]
    rfl
  · intro r hm
    rcases List.mem_append.mp hm with hm | hm
    · exact hr.own r hm
    · exact committed_own hown r hm

theorem recorded_after {db : Database} {metrics : Metrics} {cycles : List Cycle}
    (hown : ∀ cycle ∈ cycles, c.Own cycle) :
    Recorded c db (Runs.after (c.cycleStep num) (.start ⟨db, metrics⟩) cycles) := by
  refine Runs.invariant_of_mem (I := Recorded c db) ?_ (recorded_start db metrics) hown
  intro h cycle hr hc
  exact recorded_step hr hc

/-- `added` has one row for each new key of what was committed: the first record
with that key, as the columns hold it. -/
structure FirstOfEach (c : Collector) (old : List CostRow) (committed : List CostRecord)
    (added : List CostRow) : Prop where
  distinct : (added.map fun q => q.dedupKey).Nodup
  first : ∀ q ∈ added, q.source = c.source ∧ q.dedupKey ∉ c.storedKeys old ∧
    ∃ r, (committed.find? fun r => r.dedupKey = q.dedupKey) = some r ∧ q.toCostRecord = r.stored
  complete : ∀ r ∈ committed, r.dedupKey ∉ c.storedKeys old →
    r.dedupKey ∈ added.map fun q => q.dedupKey

/-- **What a run leaves in the table.** -/
theorem Recorded.rows {db : Database} {h : History} (hr : Recorded c db h) :
    ∃ added, h.process.db.warehouse.rows = db.warehouse.rows ++ added ∧
      FirstOfEach c db.warehouse.rows h.committed added ∧ added.length = h.written.length := by
  let kept := keepFirst CostRecord.dedupKey (c.storedKeys db.warehouse.rows) h.committed
  let added := Session.numbered db.warehouse.nextId kept
  have hkeys : (added.map fun q => q.dedupKey) = kept.map CostRecord.dedupKey :=
    Session.map_numbered CostRecord.dedupKey kept db.warehouse.nextId
  refine ⟨added, ?_, ⟨?_, ?_, ?_⟩, ?_⟩
  · rw [hr.session, Session.rows_addAll]
  · rw [hkeys]; exact nodup_keepFirst
  · intro q hq
    obtain ⟨r, hm, he⟩ := Session.mem_numbered hq
    have hk : q.dedupKey = r.dedupKey := by rw [he]; rfl
    have hs : q.source = r.source := by rw [he]; rfl
    obtain ⟨hnot, hfirst⟩ := mem_keepFirst_iff.mp hm
    refine ⟨hs.trans (hr.own r (keepFirst_sublist.subset hm)), hk ▸ hnot, r, ?_, he⟩
    rw [hk]; exact hfirst
  · intro r hm hnot
    rw [hkeys]
    exact mem_map_keepFirst.mpr ⟨List.mem_map_of_mem hm, hnot⟩
  · rw [hr.written, ← List.length_map (f := fun q : CostRow => q.dedupKey), hkeys, List.length_map]

/-! ### The counts -/

/-- No batch that is committed has both a new key and an amount that a counter
refuses. -/
def Countable (c : Collector) (num : Arith) (h : History) (cycle : Cycle) : Prop :=
  ∀ records, cycle.collected = .ok records → cycle.fault = none →
    c.Accepts h.process.db records →
    (∀ r ∈ records, r.dedupKey ∈ c.storedKeys h.process.db.warehouse.rows) ∨
      ∀ r ∈ records, 0 ≤ num.flt r.amountUsd

theorem uncounted_step (h : History) (cycle : Cycle) :
    h.uncounted ≤ (c.cycleStep num h cycle).uncounted ∧
      ((c.cycleStep num h cycle).uncounted = h.uncounted ↔ Countable c num h cycle) := by
  have hstep : (c.cycleStep num h cycle).uncounted = h.uncounted +
      ((c.written h.process.db cycle).length -
        (c.runOnce num h.process cycle).2.toOption.toList.sum : ℤ) := by
    simp only [History.uncounted, cycleStep, List.length_append, List.sum_append]
    push_cast
    ring
  rw [hstep]
  cases ha : c.attempt h.process.db cycle with
  | error e =>
    have hw : c.written h.process.db cycle = [] := by rw [written, committed, ha]; rfl
    rw [hw, runOnce_of_error ha]
    have hcount : Countable c num h cycle := fun records hc hf hacc => by
      obtain ⟨db', n, hok⟩ := exists_attempt_eq_ok.mpr ⟨hc, hf, hacc⟩
      rw [ha] at hok; cases hok
    simp [hcount, Except.toOption]
  | ok x =>
    obtain ⟨records, db', n⟩ := x
    have hcom : c.committed h.process.db cycle = records := by rw [committed, ha]
    obtain ⟨hc, hf, hacc⟩ := exists_attempt_eq_ok.mp ⟨db', n, ha⟩
    have hn : n = (c.written h.process.db cycle).length := by
      rw [written, hcom]
      exact (persist_eq_ok.mp (attempt_eq_ok.mp ha).2).2.2.2.2.1
    rcases runOnce_result num ha with ⟨hres, hnn⟩ | ⟨⟨e, hres⟩, hneg⟩
    · have hcount : Countable c num h cycle := fun rs hc' _ _ => by
        rw [hc] at hc'; cases hc'; exact .inr hnn
      rw [hres, ← hn]
      simp [hcount, Except.toOption]
    · have hcount : Countable c num h cycle ↔ c.written h.process.db cycle = [] := by
        rw [written, hcom, dropDuplicates_eq, keepFirst_eq_nil_iff]
        constructor
        · intro hq; exact (hq records hc hf hacc).resolve_right hneg
        · intro hall rs hc' _ _
          rw [hc] at hc'; cases hc'; exact .inl hall
      rw [hres, hcount]
      simp [Except.toOption]

/-- A cycle that fails leaves the tables as they were. -/
def FailuresChangeNothing (c : Collector) (num : Arith) (h : History) (cycle : Cycle) : Prop :=
  (∃ e, c.attempt h.process.db cycle = .error e) →
    (c.cycleStep num h cycle).process.db = h.process.db

theorem failuresChangeNothing (h : History) (cycle : Cycle) :
    FailuresChangeNothing c num h cycle := by
  rintro ⟨e, he⟩
  change (c.runOnce num h.process cycle).1.db = h.process.db
  rw [runOnce_of_error he]

/-- The table has the first record of each new key and the counts sum to the
rows added. -/
def ExactlyOnce (c : Collector) (db : Database) (h : History) : Prop :=
  ∃ added, h.process.db.warehouse.rows = db.warehouse.rows ++ added ∧
    FirstOfEach c db.warehouse.rows h.committed added ∧ h.returned.sum = added.length

/-- **Exactly once.**  Whatever the batches and the failures, each new key gets
one row, the first committed, and a failed cycle changes nothing; the returned
counts sum to the rows added exactly when no committed batch brings a new key
together with an amount that the counters refuse. -/
theorem exactlyOnce_iff {db : Database} {metrics : Metrics} {cycles : List Cycle}
    (hown : ∀ cycle ∈ cycles, c.Own cycle) :
    (ExactlyOnce c db (Runs.after (c.cycleStep num) (.start ⟨db, metrics⟩) cycles) ∧
      Runs.Along (c.cycleStep num) (FailuresChangeNothing c num) (.start ⟨db, metrics⟩) cycles) ↔
      Runs.Along (c.cycleStep num) (Countable c num) (.start ⟨db, metrics⟩) cycles := by
  have hquiet : (Runs.after (c.cycleStep num) (.start ⟨db, metrics⟩) cycles).uncounted =
      (History.start ⟨db, metrics⟩).uncounted ↔
      Runs.Along (c.cycleStep num) (Countable c num) (.start ⟨db, metrics⟩) cycles :=
    (Runs.eq_iff_along (G := fun _ => True) (fun h cycle _ => (uncounted_step h cycle).1)
      fun _ _ => trivial).trans
      (Runs.along_iff (fun h cycle _ => (uncounted_step h cycle).2) fun _ _ => trivial)
  have hr : Recorded c db (Runs.after (c.cycleStep num) (.start ⟨db, metrics⟩) cycles) :=
    recorded_after hown
  obtain ⟨added, hrows, hfirst, hlen⟩ := hr.rows
  rw [← hquiet]
  constructor
  · rintro ⟨⟨added', hrows', _, hsum⟩, _⟩
    obtain rfl : added = added' := List.append_cancel_left (hrows.symm.trans hrows')
    rw [uncounted_start, History.uncounted, hsum, hlen, sub_self]
  · intro h
    refine ⟨⟨added, hrows, hfirst, ?_⟩, Runs.along_of_forall failuresChangeNothing⟩
    rw [uncounted_start, History.uncounted, ← hlen] at h
    omega

end Collector

/-! One record, read twice. -/

def llmCollector : Collector := { name := "litellm_spend", source := .llm }

def requestCost : CostRecord :=
  { source := .llm, dedupKey := "req-1", occurredAt := 0, amountUsd := 2 }

def replayedCycle : Cycle where
  collected := .ok [requestCost]

theorem exactlyOnce_replayed :
    llmCollector.ExactlyOnce .empty
      (Runs.after (llmCollector.cycleStep .exact) (.start .fresh)
        [replayedCycle, replayedCycle]) := by
  have hown : llmCollector.Own replayedCycle := by
    rintro records h r hr
    cases h
    rw [List.mem_singleton.mp hr]
    rfl
  have hcount : ∀ h, llmCollector.Countable .exact h replayedCycle := by
    rintro h records hc _ _
    cases hc
    refine .inr fun r hr => ?_
    rw [List.mem_singleton.mp hr]
    decide +kernel
  have howns : ∀ cycle ∈ [replayedCycle, replayedCycle], llmCollector.Own cycle := by
    simp [hown]
  have hcounts : Runs.Along (llmCollector.cycleStep .exact) (llmCollector.Countable .exact)
      (.start .fresh) [replayedCycle, replayedCycle] :=
    ⟨hcount _, hcount _, trivial⟩
  exact ((Collector.exactlyOnce_iff howns).mpr hcounts).1

/-! A credit: it is written, and the cycle that wrote it raises. -/

def creditCycle : Cycle where
  collected := .ok [{ requestCost with amountUsd := -1 }]

theorem credit_not_counted :
    llmCollector.Own creditCycle ∧
      ¬ llmCollector.ExactlyOnce .empty
        (Runs.after (llmCollector.cycleStep .exact) (.start .fresh)
          [creditCycle]) := by
  constructor
  · rintro records h r hr
    cases h
    rw [List.mem_singleton.mp hr]
    rfl
  · rintro ⟨added, hrows, _, hsum⟩
    have hone := congrArg List.length hrows
    rw [List.length_append, ← hsum] at hone
    revert hone
    decide +kernel

end Finops
