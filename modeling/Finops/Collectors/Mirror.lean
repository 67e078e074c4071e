import Finops.Attribution.Queries
import Finops.Collectors.Watermark

/-!
# The warehouse as a copy of the log

What the queries answer should be what the proxy has logged.  A row of the warehouse is
the record that some cycle made of some row of the log (`Copies`): an insert of the
proxy takes no row away, and what a cycle commits is made of rows that its query saw
(`copies_step`).  Request ids are unique on both sides, so the warehouse is the records
of the ingested rows, each once (`warehouse_perm_logged`), and every query adds up the
ingested rows of the log (`reports_match_log`).

The clock is read for a row that has no `startTime`.  `ReadBy` says that each of these
readings was made by a cycle of the run.
-/

namespace Finops

open Numerics KeepFirst Batch Runs

instance (db : Database) (row : SpendLog) : Decidable (Ingested db row) :=
  inferInstanceAs (Decidable (_ ∈ _))

section

variable (loads : JsonLoads) (lower : String → String) (num : Arith)

/-- The record of a row, as the columns hold it. -/
def loggedRecord (readAt : String → Instant) (row : SpendLog) : Option CostRecord :=
  match toRecord loads lower num row (readAt row.requestId) with
  | .ok record => some record.stored
  | .error _ => none

def loggedRecords (readAt : String → Instant) (f : Feed) : List CostRecord :=
  (f.table.rows.filter fun row => Ingested f.process.db row).filterMap
    (loggedRecord loads lower num readAt)

/-- Each row of the warehouse is what a cycle of the run made of a row of the log. -/
def Copies (steps : List FeedStep) (f : Feed) : Prop :=
  ∀ q ∈ f.process.db.warehouse.rows, ∃ row ∈ f.table.rows, ∃ poll, FeedStep.select poll ∈ steps ∧
    ∃ record, toRecord loads lower num row (poll.clock row.requestId) = .ok record ∧
      q.toCostRecord = record.stored

end

/-- The cycle under way is one of the run, and the rows it has seen are in the log. -/
def Underway (steps : List FeedStep) (f : Feed) : Prop :=
  ∀ r, f.pending = some r → FeedStep.select r.poll ∈ steps ∧ ∀ row ∈ r.seen.rows, row ∈ f.table.rows

/-- The clock was read for each ingested row by a cycle of the run. -/
def ReadBy (steps : List FeedStep) (f : Feed) (readAt : String → Instant) : Prop :=
  ∀ row ∈ f.table.rows, Ingested f.process.db row →
    ∃ poll, FeedStep.select poll ∈ steps ∧ readAt row.requestId = poll.clock row.requestId

variable {loads : JsonLoads} {lower : String → String} {num : Arith} {batchSize : ℕ}
  {steps : List FeedStep} {f : Feed}

/-! ### Every row is of the log -/

theorem Collector.rows_attempt {c : Collector} {db db' : Database} {cycle : Cycle}
    {records : List CostRecord} {n : ℕ} (h : c.attempt db cycle = .ok (records, db', n)) :
    db'.warehouse.rows = db.warehouse.rows ++ Session.numbered db.warehouse.nextId
      (c.dropDuplicates db.warehouse.rows records) := by
  obtain ⟨_, hpersist⟩ := attempt_eq_ok.mp h
  obtain ⟨_, _, hflush, _⟩ := persist_eq_ok.mp hpersist
  rw [Session.toSession_of_flush hflush, Session.rows_addAll]

theorem copies_commit {r : Pending} (h : Copies loads lower num steps f) (hu : Underway steps f)
    (hr : f.pending = some r) : Copies loads lower num steps
      ⟨f.table, pollOnce loads lower num r.seen batchSize f.process r.poll, none⟩ := by
  intro q hq
  change q ∈ (pollOnce loads lower num r.seen batchSize f.process r.poll).db.warehouse.rows at hq
  cases ha : litellmSpend.attempt f.process.db
      (pollCycle loads lower num r.seen batchSize f.process.db r.poll) with
  | error e =>
    rw [pollOnce, Collector.runOnce_of_error ha] at hq
    exact h q hq
  | ok x =>
    obtain ⟨records, db', n⟩ := x
    rw [pollOnce, Collector.runOnce_db ha, Collector.rows_attempt ha] at hq
    rcases List.mem_append.mp hq with hq | hq
    · exact h q hq
    · obtain ⟨record, hrecord, hstored⟩ := Session.mem_numbered hq
      rw [Collector.dropDuplicates_eq] at hrecord
      have hcollect : collect loads lower num r.seen batchSize f.process.db r.poll =
          .ok records := (Collector.attempt_eq_ok.mp ha).1
      obtain ⟨row, hrow, hmade⟩ := exists_left_of_forall₂ (collect_eq_ok.mp hcollect).2.2 record
        (keepFirst_sublist.subset hrecord)
      obtain ⟨hselect, hsub⟩ := hu r hr
      exact ⟨row, hsub row (mem_pollRows hrow).1, r.poll, hselect, record, hmade, hstored⟩

/-- **A step of the feed** keeps the warehouse a copy. -/
theorem copies_step {step : FeedStep} (h : Copies loads lower num steps f)
    (hu : Underway steps f) (hstep : step ∈ steps) :
    Copies loads lower num steps (feedStep loads lower num batchSize f step) ∧
      Underway steps (feedStep loads lower num batchSize f step) := by
  cases step with
  | insert row' =>
    refine ⟨fun q hq => ?_, fun r hr => ⟨(hu r hr).1, fun row hrow => ?_⟩⟩
    · obtain ⟨row, hrow, hmade⟩ := h q hq
      exact ⟨row, mem_rows_insert hrow, hmade⟩
    · exact mem_rows_insert ((hu r hr).2 row hrow)
  | select poll =>
    cases hr : f.pending with
    | none =>
      rw [feedStep_select hr]
      refine ⟨h, fun r hr => ?_⟩
      obtain rfl := Option.some.inj hr
      exact ⟨hstep, fun row hrow => hrow⟩
    | some r =>
      rw [feedStep_select_busy hr]
      exact ⟨h, hu⟩
  | commit =>
    cases hr : f.pending with
    | none =>
      rw [feedStep_commit_idle hr]
      exact ⟨h, hu⟩
    | some r =>
      rw [feedStep_commit hr]
      exact ⟨copies_commit h hu hr, fun r' hr' => by cases hr'⟩

theorem copies_after (steps : List FeedStep) :
    Copies loads lower num steps (after (feedStep loads lower num batchSize) .start steps) :=
  (invariant_of_mem (I := fun f => Copies loads lower num steps f ∧ Underway steps f)
    (G := (· ∈ steps)) (fun _ _ h hstep => copies_step h.1 h.2 hstep)
    ⟨fun _ hq => absurd hq List.not_mem_nil, fun _ hr => by cases hr⟩ fun _ h => h).1

/-! ### Each of them once -/

theorem source_of_copies (h : Copies loads lower num steps f) {q : CostRow}
    (hq : q ∈ f.process.db.warehouse.rows) : q.source = .llm := by
  obtain ⟨row, _, poll, _, record, hmade, hstored⟩ := h q hq
  rw [hstored]
  exact (toRecord_eq_ok hmade).1

theorem dedupKey_of_made {q : CostRow} {row : SpendLog} {now : Instant} {record : CostRecord}
    (hmade : toRecord loads lower num row now = .ok record)
    (hstored : q.toCostRecord = record.stored) : q.dedupKey = row.requestId := by
  rw [hstored]
  exact (toRecord_eq_ok hmade).2.1

theorem eq_of_dedupKey_eq (h : Copies loads lower num steps f) {q q' : CostRow}
    (hq : q ∈ f.process.db.warehouse.rows) (hq' : q' ∈ f.process.db.warehouse.rows)
    (hkey : q.dedupKey = q'.dedupKey) : q = q' := by
  refine List.inj_on_of_nodup_map f.process.db.warehouse.unique hq hq' ?_
  rw [CostRecord.uniqueKey, CostRecord.uniqueKey, source_of_copies h hq, source_of_copies h hq',
    hkey]

theorem ingested_iff_of_copies (h : Copies loads lower num steps f) {row : SpendLog} :
    Ingested f.process.db row ↔
      ∃ q ∈ f.process.db.warehouse.rows, q.dedupKey = row.requestId := by
  rw [Ingested, Collector.storedKeys, List.mem_map]
  constructor
  · rintro ⟨q, hq, hkey⟩
    exact ⟨q, List.mem_of_mem_filter hq, hkey⟩
  · rintro ⟨q, hq, hkey⟩
    exact ⟨q, List.mem_filter.mpr ⟨hq, decide_eq_true (source_of_copies h hq)⟩, hkey⟩

theorem exists_readAt (h : Copies loads lower num steps f) : ∃ readAt, ReadBy steps f readAt ∧
    ∀ row ∈ f.table.rows, ∀ q ∈ f.process.db.warehouse.rows, q.dedupKey = row.requestId →
      loggedRecord loads lower num readAt row = some q.toCostRecord := by
  have hone : ∀ id : String, ∃ now : Instant, ∀ row ∈ f.table.rows, row.requestId = id →
      ∀ q ∈ f.process.db.warehouse.rows, q.dedupKey = id →
        (∃ poll, FeedStep.select poll ∈ steps ∧ now = poll.clock id) ∧
          ∃ record, toRecord loads lower num row now = .ok record ∧
            q.toCostRecord = record.stored := by
    intro id
    by_cases hex : ∃ q ∈ f.process.db.warehouse.rows, q.dedupKey = id
    · obtain ⟨q, hq, rfl⟩ := hex
      obtain ⟨row, hrow, poll, hpoll, record, hmade, hstored⟩ := h q hq
      have hkey := dedupKey_of_made hmade hstored
      refine ⟨poll.clock row.requestId, fun row' hrow' hid q' hq' hkey' => ?_⟩
      obtain rfl := eq_of_dedupKey_eq h hq' hq hkey'
      obtain rfl := eq_of_requestId_eq hrow' hrow (hid.trans hkey)
      exact ⟨⟨poll, hpoll, by rw [hkey]⟩, record, hmade, hstored⟩
    · exact ⟨0, fun row _ _ q hq hkey => absurd ⟨q, hq, hkey⟩ hex⟩
  choose readAt hread using hone
  refine ⟨readAt, fun row hrow hin => ?_, fun row hrow q hq hkey => ?_⟩
  · obtain ⟨q, hq, hkey⟩ := (ingested_iff_of_copies h).mp hin
    exact (hread row.requestId row hrow rfl q hq hkey).1
  · obtain ⟨_, record, hmade, hstored⟩ := hread row.requestId row hrow rfl q hq hkey
    rw [loggedRecord, hmade, hstored]

/-- **The warehouse is the records of the ingested rows**, each once. -/
theorem warehouse_perm_logged (h : Copies loads lower num steps f) {readAt : String → Instant}
    (hread : ∀ row ∈ f.table.rows, ∀ q ∈ f.process.db.warehouse.rows, q.dedupKey = row.requestId →
      loggedRecord loads lower num readAt row = some q.toCostRecord) :
    (f.process.db.warehouse.rows.map CostRow.toCostRecord).Perm
      (loggedRecords loads lower num readAt f) := by
  have hkeys : ((loggedRecords loads lower num readAt f).map CostRecord.dedupKey).Sublist
      (f.table.rows.map SpendLog.requestId) := by
    have hsub : ∀ l : List SpendLog, ((l.filterMap (loggedRecord loads lower num readAt)).map
        CostRecord.dedupKey).Sublist (l.map SpendLog.requestId) := by
      intro l
      induction l with
      | nil => exact List.Sublist.slnil
      | cons row l ih =>
        cases hr : loggedRecord loads lower num readAt row with
        | none =>
          rw [List.filterMap_cons_none hr]
          exact ih.cons _
        | some record =>
          have hkey : record.dedupKey = row.requestId := by
            unfold loggedRecord at hr
            split at hr
            · rename_i made hmade
              rw [← Option.some.inj hr]
              exact (toRecord_eq_ok hmade).2.1
            · cases hr
          rw [List.filterMap_cons_some hr, List.map_cons, List.map_cons, hkey]
          exact ih.cons_cons _
    exact (hsub _).trans (List.filter_sublist.map _)
  have hstored : (f.process.db.warehouse.rows.map CostRow.toCostRecord).Nodup := by
    refine List.Nodup.of_map CostRecord.uniqueKey ?_
    rw [List.map_map]
    exact f.process.db.warehouse.unique
  have hlogged : (loggedRecords loads lower num readAt f).Nodup :=
    List.Nodup.of_map CostRecord.dedupKey (f.table.unique.sublist hkeys)
  refine (List.perm_ext_iff_of_nodup hstored hlogged).mpr fun record => ?_
  rw [loggedRecords, List.mem_map, List.mem_filterMap]
  constructor
  · rintro ⟨q, hq, rfl⟩
    obtain ⟨row, hrow, poll, _, made, hmade, hstored⟩ := h q hq
    have hkey := dedupKey_of_made hmade hstored
    refine ⟨row, List.mem_filter.mpr ⟨hrow, decide_eq_true ?_⟩, hread row hrow q hq hkey⟩
    exact (ingested_iff_of_copies h).mpr ⟨q, hq, hkey⟩
  · rintro ⟨row, hrow, hrecord⟩
    obtain ⟨hrow, hin⟩ := List.mem_filter.mp hrow
    obtain ⟨q, hq, hkey⟩ := (ingested_iff_of_copies h).mp (of_decide_eq_true hin)
    rw [hread row hrow q hq hkey] at hrecord
    exact ⟨q, hq, Option.some.inj hrecord⟩

/-! ### The queries -/

theorem hasScale_of_copies (h : Copies loads lower num steps f) :
    ∀ q ∈ f.process.db.warehouse.rows, HasScale CostRecord.moneyScale q.amountUsd := by
  intro q hq
  obtain ⟨_, _, _, _, record, _, hstored⟩ := h q hq
  rw [hstored]
  exact hasScale_toExp _ _ _

/-- **The reports are those of the log.**  After any run, each query that answers says what
the ingested rows of the log come to.  The total answers when that is in range, and a query
by dimensions when the sums of its result rows are. -/
theorem reports_match_log (loads : JsonLoads) (lower : String → String) (num : Arith)
    (batchSize : ℕ) (steps : List FeedStep) :
    let f := after (feedStep loads lower num batchSize) .start steps
    let rows := f.process.db.warehouse.rows
    ∃ readAt, ReadBy steps f readAt ∧
      ∀ (period : Period) (filters : CostFilters),
        let found := (loggedRecords loads lower num readAt f).filter (conditions period filters)
        (amountFits (matching rows period filters) = true ↔
            |(found.map CostRecord.amountUsd).sum| < 10 ^ 10) ∧
          totalSpend rows period filters = (found.map CostRecord.amountUsd).sum ∧
          ∀ groupBy, Allowed groupBy →
            ((∃ groups, aggregateCosts .exact rows groupBy period filters = .ok groups) ↔
              CostsInRange rows groupBy period filters) ∧
            ∀ groups, aggregateCosts .exact rows groupBy period filters = .ok groups →
              ∀ key, totalFor groups key =
                  ((found.filter fun r => keyOf groupBy r = key).map CostRecord.amountUsd).sum ∧
                countFor groups key = (found.filter fun r => keyOf groupBy r = key).length := by
  intro f rows
  have hcopies : Copies loads lower num steps f := copies_after steps
  obtain ⟨readAt, hby, hread⟩ := exists_readAt hcopies
  have hperm := warehouse_perm_logged hcopies hread
  have hscale := hasScale_of_copies hcopies
  refine ⟨readAt, hby, fun period filters => ?_⟩
  have hfound : ((matching rows period filters).map CostRow.toCostRecord).Perm
      ((loggedRecords loads lower num readAt f).filter (conditions period filters)) := by
    have hfilter := hperm.filter (conditions period filters)
    rwa [List.filter_map] at hfilter
  have htotal : amount (matching rows period filters) =
      (((loggedRecords loads lower num readAt f).filter (conditions period filters)).map
        CostRecord.amountUsd).sum := by
    rw [← (hfound.map CostRecord.amountUsd).sum_eq, List.map_map]
    exact amount_of_hasScale fun q hq => hscale q (List.mem_of_mem_filter hq)
  refine ⟨?_, htotal, fun groupBy hallowed =>
    ⟨exists_aggregateCosts_eq_ok .exact rows period filters hallowed, ?_⟩⟩
  · rw [amountFits, decide_eq_true_eq, htotal]
  · intro groups hgroups key
    obtain ⟨columns, hc⟩ := exists_resolveColumns_eq_ok hallowed
    have hfolded := costGroups_of_eq_ok hgroups
    have hkey := hfound.filter fun r => keyOf groupBy r = key
    rw [List.filter_map] at hkey
    constructor
    · rw [totalFor_eq hscale hc hfolded, ← (hkey.map CostRecord.amountUsd).sum_eq, List.map_map]
      rfl
    · rw [countFor_eq hc hfolded, ← hkey.length_eq, List.length_map]
      rfl

end Finops
