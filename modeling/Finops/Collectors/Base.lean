import Finops.Base.Dict
import Finops.Base.KeepFirst
import Finops.Attribution.Models

/-!
# The collector contract and the supervised run loop

A collector reads one cost source and returns records.  `persist` writes the new
ones and the watermark in one transaction, and `runOnce` is one supervised
cycle: an error of `collect` or `persist` is counted and answered with 0, then
the counters are moved.

A `Cycle` is what the environment decides about one cycle: what `collect` came
back with, an error raised on the way to the commit if there is one, and two
readings of the clock.  `attempt_eq_ok` says when a cycle commits, and
`runOnce_of_error` and `runOnce_result` what it answers.
-/

namespace Finops

open Numerics KeepFirst

def STATUS_SUCCESS : String := "success"
def STATUS_ERROR : String := "error"

/-- The number of parameters that the driver binds in one statement, at most. -/
def MAX_QUERY_ARGS : ℕ := 32767

structure Watermark where
  lastOccurredAt : Option Instant := none
  lastCursor : Option String := none

structure CollectorWatermark extends Watermark where
  lastRunAt : Option Instant := none

structure Database where
  warehouse : Warehouse
  watermarks : Dict String CollectorWatermark

def Database.empty : Database := ⟨Warehouse.empty, Dict.empty⟩

/-- What one kind of collector brings to the base class, `collect` apart. -/
structure Collector where
  name : String
  source : CostSource
  nextWatermark : List CostRecord → Option Watermark := fun _ => none

namespace Collector

variable (c : Collector)

def readWatermark (db : Database) : Watermark :=
  match db.watermarks.get? c.name with
  | none => {}
  | some stored => stored.toWatermark

def storedKeys (rows : List CostRow) : List String :=
  (rows.filter fun r => r.source = c.source).map fun r => r.dedupKey

/-- The records whose dedup key is not stored and not repeated. -/
def dropDuplicates (rows : List CostRow) (records : List CostRecord) : List CostRecord :=
  let keys := records.map CostRecord.dedupKey
  if keys = [] then []
  else keepFirst CostRecord.dedupKey ((c.storedKeys rows).filter (· ∈ keys)) records

def storeWatermark (watermarks : Dict String CollectorWatermark) (watermark : Option Watermark)
    (now : Instant) : Dict String CollectorWatermark :=
  let stored := { watermarks.getD c.name {} with lastRunAt := some now }
  watermarks.set c.name <|
    match watermark with
    | none => stored
    | some w => { stored with lastOccurredAt := w.lastOccurredAt, lastCursor := w.lastCursor }

/-- The columns of the watermark row hold what is written to them. -/
def watermarkFits (watermark : Option Watermark) : Bool :=
  textFits 64 c.name && watermark.all fun w => w.lastCursor.all (textFits 255)

/-- The query for stored keys binds the source and each key of the batch. -/
def bindable (records : List CostRecord) : Bool := 1 + records.length ≤ MAX_QUERY_ARGS

/-- Write new records and the watermark in one transaction.  `fault` is an error
raised on the way to the commit. -/
def persist (db : Database) (records : List CostRecord) (fault : Option PyError) (now : Instant) :
    Except PyError (Database × ℕ) :=
  let watermark := c.nextWatermark records
  let fresh := c.dropDuplicates db.warehouse.rows records
  match fault with
  | some e => .error e
  | none =>
    if bindable records then
      match (db.warehouse.addAll fresh).flush with
      | .error e => .error e
      | .ok warehouse =>
        if c.watermarkFits watermark then
          .ok (⟨warehouse, c.storeWatermark db.watermarks watermark now⟩, fresh.length)
        else .error .dataError
    else .error .interfaceError

end Collector

/-! ### Metrics -/

structure Metrics where
  costUsd : Dict (String × String) ℚ := Dict.empty
  unattributedUsd : ℚ := 0
  collectorRuns : Dict (String × String) ℚ := Dict.empty
  collectorRecords : Dict String ℚ := Dict.empty
  collectorLagSeconds : Dict String ℚ := Dict.empty

/-- A counter refuses a negative amount. -/
def incAmount (amount : ℚ) : Except PyError ℚ :=
  if amount < 0 then
    .error (.valueError "Counters can only be incremented by non-negative amounts.")
  else .ok amount

/-- `counter.labels(...).inc(amount)`, for an amount that is not negative. -/
def incLabel {κ : Type*} [DecidableEq κ] (num : Arith) (counter : Dict κ ℚ) (label : κ)
    (amount : ℚ) : Dict κ ℚ := counter.set label (num.flt (counter.getD label 0 + amount))

/-- One turn of the loop of `_observe_cost`.  A label that is asked for is there
from then on, also when its counter refuses. -/
def observeRecord (num : Arith) (m : Metrics) (record : CostRecord) :
    Metrics × Option PyError :=
  let label := (record.source.str, record.team)
  match incAmount (num.flt record.amountUsd) with
  | .error e => ({ m with costUsd := m.costUsd.set label (m.costUsd.getD label 0) }, some e)
  | .ok amount =>
    ({ m with
        costUsd := incLabel num m.costUsd label amount
        unattributedUsd :=
          if record.team = UNATTRIBUTED then num.flt (m.unattributedUsd + amount)
          else m.unattributedUsd }, none)

def observeRecords (num : Arith) : Metrics → List CostRecord → Metrics × Option PyError
  | m, [] => (m, none)
  | m, record :: rest =>
    match observeRecord num m record with
    | (m, some e) => (m, some e)
    | (m, none) => observeRecords num m rest

/-- Publish ingested spend and how far behind the source we are. -/
def Collector.observeCost (c : Collector) (num : Arith) (m : Metrics) (records : List CostRecord)
    (now : Instant) : Metrics × Option PyError :=
  match observeRecords num m records, (records.map CostRecord.occurredAt).max? with
  | (m, none), some newest =>
    let lag := num.flt ((now - newest : ℤ) / 1000000)
    ({ m with collectorLagSeconds := m.collectorLagSeconds.set c.name (max lag 0) }, none)
  | result, _ => result

/-! ### One cycle -/

structure Process where
  db : Database
  metrics : Metrics

def Process.fresh : Process := ⟨Database.empty, {}⟩

/-- What the environment decides about one cycle. -/
structure Cycle where
  collected : Except PyError (List CostRecord)
  fault : Option PyError := none
  runAt : Instant := 0
  observedAt : Instant := 0

namespace Collector

variable (c : Collector)

/-- The cycle up to its commit: the batch, the tables and the count. -/
def attempt (db : Database) (cycle : Cycle) :
    Except PyError (List CostRecord × Database × ℕ) := do
  let records ← cycle.collected
  let (db', written) ← c.persist db records cycle.fault cycle.runAt
  return (records, db', written)

def countSuccess (num : Arith) (m : Metrics) (written : ℕ) : Metrics :=
  { m with
    collectorRuns := incLabel num m.collectorRuns (c.name, STATUS_SUCCESS) 1
    collectorRecords := incLabel num m.collectorRecords c.name written }

def runOnce (num : Arith) (p : Process) (cycle : Cycle) : Process × Except PyError ℕ :=
  match c.attempt p.db cycle with
  | .error _ =>
    ({ p with metrics.collectorRuns :=
        incLabel num p.metrics.collectorRuns (c.name, STATUS_ERROR) 1 }, .ok 0)
  | .ok (records, db, written) =>
    match c.observeCost num (c.countSuccess num p.metrics written) records cycle.observedAt with
    | (m, some e) => (⟨db, m⟩, .error e)
    | (m, none) => (⟨db, m⟩, .ok written)

end Collector

/-! ### What a cycle can do -/

namespace Collector

variable {c : Collector} {db db' : Database} {records : List CostRecord}

theorem dropDuplicates_eq (rows : List CostRow) (records : List CostRecord) :
    c.dropDuplicates rows records = keepFirst CostRecord.dedupKey (c.storedKeys rows) records := by
  simp only [dropDuplicates]
  split
  · rename_i h
    rw [List.map_eq_nil_iff.mp h]; rfl
  · refine keepFirst_congr fun r hr => ?_
    rw [List.mem_filter, decide_eq_true (List.mem_map_of_mem hr)]
    exact and_iff_left rfl

theorem storedKeys_addAll {s : Session} {rs : List CostRecord}
    (h : ∀ r ∈ rs, r.source = c.source) :
    c.storedKeys (s.addAll rs).rows = c.storedKeys s.rows ++ rs.map CostRecord.dedupKey := by
  have hall : (Session.numbered s.nextId rs).filter (fun r => r.source = c.source) =
      Session.numbered s.nextId rs := by
    refine List.filter_eq_self.mpr fun q hq => ?_
    obtain ⟨r, hr, he⟩ := Session.mem_numbered hq
    have hs : q.source = r.source := by rw [he]; rfl
    simp [hs, h r hr]
  have hkeys : (Session.numbered s.nextId rs).map (fun r => r.dedupKey) =
      rs.map CostRecord.dedupKey := Session.map_numbered CostRecord.dedupKey rs s.nextId
  rw [storedKeys, Session.rows_addAll, List.filter_append, List.map_append, hall, hkeys]
  rfl

/-- The database takes the new records and the watermark of this batch, and the driver its
keys. -/
def Accepts (c : Collector) (db : Database) (records : List CostRecord) : Prop :=
  (∃ w, (db.warehouse.addAll (c.dropDuplicates db.warehouse.rows records)).flush = .ok w) ∧
    c.watermarkFits (c.nextWatermark records) = true ∧ bindable records = true

theorem nodup_uniqueKey_addAll (h : ∀ r ∈ records, r.source = c.source) :
    ((db.warehouse.addAll (c.dropDuplicates db.warehouse.rows records)).rows.map
      fun r => r.uniqueKey).Nodup := by
  have hkeys := Session.map_numbered CostRecord.uniqueKey
    (c.dropDuplicates db.warehouse.rows records) db.warehouse.nextId
  rw [Session.rows_addAll, List.map_append, hkeys, List.nodup_append]
  rw [dropDuplicates_eq]
  refine ⟨db.warehouse.unique, ?_, ?_⟩
  · refine List.Nodup.of_map Prod.snd ?_
    rw [List.map_map]
    exact nodup_keepFirst
  · rintro k hk k' hk' rfl
    obtain ⟨q, hq, rfl⟩ := List.mem_map.mp hk
    obtain ⟨r, hr, he⟩ := List.mem_map.mp hk'
    obtain ⟨hs, hd⟩ := Prod.mk.inj he
    refine (mem_keepFirst_iff.mp hr).1 (List.mem_map.mpr ⟨q, List.mem_filter.mpr ⟨hq, ?_⟩, hd.symm⟩)
    rw [← hs]
    exact decide_eq_true (h r (keepFirst_sublist.subset hr))

theorem accepts_iff (h : ∀ r ∈ records, r.source = c.source) : c.Accepts db records ↔
    (∀ r ∈ c.dropDuplicates db.warehouse.rows records, r.fits = true) ∧
      c.watermarkFits (c.nextWatermark records) = true ∧ bindable records = true := by
  have hfits := Session.map_numbered CostRecord.fits (c.dropDuplicates db.warehouse.rows records)
    db.warehouse.nextId
  have hnew : (∀ q ∈ Session.numbered db.warehouse.nextId
        (c.dropDuplicates db.warehouse.rows records), q.fits = true) ↔
      ∀ r ∈ c.dropDuplicates db.warehouse.rows records, r.fits = true := by
    rw [← List.forall_mem_map (P := (· = true)), hfits, List.forall_mem_map]
    simp only [CostRecord.fits_stored]
  rw [Accepts, Session.exists_flush_eq_ok, Session.rows_addAll, List.forall_mem_append, hnew]
  refine and_congr_left' ⟨fun hw => hw.2.2, fun hw => ⟨?_, db.warehouse.fit, hw⟩⟩
  rw [← Session.rows_addAll]
  exact nodup_uniqueKey_addAll h

/-- **A transaction that commits**: no error, and the new records and the
watermark are what it wrote. -/
theorem persist_eq_ok {fault : Option PyError} {now : Instant} {n : ℕ} :
    c.persist db records fault now = .ok (db', n) ↔
      fault = none ∧ c.watermarkFits (c.nextWatermark records) = true ∧
      (db.warehouse.addAll (c.dropDuplicates db.warehouse.rows records)).flush =
        .ok db'.warehouse ∧
      db'.watermarks = c.storeWatermark db.watermarks (c.nextWatermark records) now ∧
      n = (c.dropDuplicates db.warehouse.rows records).length ∧ bindable records = true := by
  obtain ⟨w', marks'⟩ := db'
  simp only [persist]
  cases fault with
  | some e => simp
  | none =>
    cases hb : bindable records with
    | false => simp
    | true =>
      cases hw : (db.warehouse.addAll (c.dropDuplicates db.warehouse.rows records)).flush with
      | error e => simp
      | ok w =>
        cases hc : c.watermarkFits (c.nextWatermark records) with
        | false => simp
        | true =>
          simp only [if_true, Except.ok.injEq, Prod.mk.injEq, Database.mk.injEq, true_and, and_true]
          rw [and_assoc, eq_comm (a := n), eq_comm (a := marks')]

theorem attempt_eq_ok {cycle : Cycle} {n : ℕ} :
    c.attempt db cycle = .ok (records, db', n) ↔
      cycle.collected = .ok records ∧
        c.persist db records cycle.fault cycle.runAt = .ok (db', n) := by
  unfold attempt
  cases hc : cycle.collected with
  | error e => simp [bind, Except.bind]
  | ok rs =>
    cases hp : c.persist db rs cycle.fault cycle.runAt with
    | error e =>
      simp only [bind, Except.bind, hp]
      constructor
      · intro h; cases h
      · rintro ⟨h, h'⟩; cases h; rw [hp] at h'; cases h'
    | ok x =>
      simp only [bind, Except.bind, hp, pure, Except.pure]
      constructor
      · intro h; cases h; exact ⟨rfl, hp⟩
      · rintro ⟨h, h'⟩; cases h; rw [hp] at h'; cases h'; rfl

theorem exists_attempt_eq_ok {cycle : Cycle} :
    (∃ db' n, c.attempt db cycle = .ok (records, db', n)) ↔
      cycle.collected = .ok records ∧ cycle.fault = none ∧ c.Accepts db records := by
  simp only [attempt_eq_ok, persist_eq_ok, Accepts]
  constructor
  · rintro ⟨db', n, hc, hf, hm, hw, _, _, hb⟩
    exact ⟨hc, hf, ⟨db'.warehouse, hw⟩, hm, hb⟩
  · rintro ⟨hc, hf, ⟨w, hw⟩, hm, hb⟩
    exact ⟨⟨w, c.storeWatermark db.watermarks (c.nextWatermark records) cycle.runAt⟩, _,
      hc, hf, hm, hw, rfl, rfl, hb⟩

theorem mem_storedKeys_attempt {cycle : Cycle} {n : ℕ} (hown : ∀ r ∈ records, r.source = c.source)
    (h : c.attempt db cycle = .ok (records, db', n)) {k : String} :
    k ∈ c.storedKeys db'.warehouse.rows ↔
      k ∈ c.storedKeys db.warehouse.rows ∨ k ∈ records.map CostRecord.dedupKey := by
  obtain ⟨_, _, hw, _, _⟩ := persist_eq_ok.mp (attempt_eq_ok.mp h).2
  have hkeep : ∀ r ∈ c.dropDuplicates db.warehouse.rows records, r.source = c.source := by
    rw [dropDuplicates_eq]
    exact fun r hr => hown r (keepFirst_sublist.subset hr)
  rw [Session.toSession_of_flush hw, storedKeys_addAll hkeep, List.mem_append, dropDuplicates_eq,
    mem_map_keepFirst]
  tauto

/-- After a commit the position is the new watermark, or the old one when there
is none. -/
theorem readWatermark_attempt {cycle : Cycle} {n : ℕ}
    (h : c.attempt db cycle = .ok (records, db', n)) :
    c.readWatermark db' = (c.nextWatermark records).getD (c.readWatermark db) := by
  obtain ⟨_, _, _, hm, _⟩ := persist_eq_ok.mp (attempt_eq_ok.mp h).2
  simp only [readWatermark, hm, storeWatermark, Dict.get?_set_self, Dict.getD]
  cases c.nextWatermark records <;> cases db.watermarks.get? c.name <;> rfl

theorem observeRecords_snd (num : Arith) {records : List CostRecord} :
    ∀ {m : Metrics}, (observeRecords num m records).2 = none ↔
      ∀ r ∈ records, 0 ≤ num.flt r.amountUsd := by
  induction records with
  | nil => intro m; simp [observeRecords]
  | cons r rest ih =>
    intro m
    rw [observeRecords, observeRecord]
    by_cases h : num.flt r.amountUsd < 0
    · rw [incAmount, if_pos h]
      simp [h]
    · rw [incAmount, if_neg h]
      simp only [ih, List.forall_mem_cons, not_lt.mp h, true_and]

theorem observeCost_snd (num : Arith) (m : Metrics) (records : List CostRecord) (now : Instant) :
    (c.observeCost num m records now).2 = none ↔ ∀ r ∈ records, 0 ≤ num.flt r.amountUsd := by
  rw [← observeRecords_snd num (m := m), observeCost]
  split
  · rename_i h _; simp [h]
  · rfl

/-- **A cycle that fails** changes nothing but the error counter. -/
theorem runOnce_of_error {num : Arith} {p : Process} {cycle : Cycle} {e : PyError}
    (h : c.attempt p.db cycle = .error e) :
    c.runOnce num p cycle =
      ({ p with metrics.collectorRuns :=
        incLabel num p.metrics.collectorRuns (c.name, STATUS_ERROR) 1 }, .ok 0) := by
  rw [runOnce, h]

/-- **A cycle that commits** leaves the tables it committed. -/
theorem runOnce_db {num : Arith} {p : Process} {cycle : Cycle} {n : ℕ}
    (h : c.attempt p.db cycle = .ok (records, db', n)) : (c.runOnce num p cycle).1.db = db' := by
  rw [runOnce, h]
  dsimp only
  split <;> rfl

theorem runOnce_result (num : Arith) {p : Process} {cycle : Cycle} {n : ℕ}
    (h : c.attempt p.db cycle = .ok (records, db', n)) :
    (c.runOnce num p cycle).2 = .ok n ∧ (∀ r ∈ records, 0 ≤ num.flt r.amountUsd) ∨
    (∃ e, (c.runOnce num p cycle).2 = .error e) ∧ ¬ ∀ r ∈ records, 0 ≤ num.flt r.amountUsd := by
  rw [runOnce, h]
  dsimp only
  split
  · rename_i m e ho
    refine .inr ⟨⟨e, rfl⟩, fun hnn => ?_⟩
    rw [← observeCost_snd num (c.countSuccess num p.metrics n) records cycle.observedAt, ho] at hnn
    cases hnn
  · rename_i m ho
    exact .inl ⟨rfl, (observeCost_snd num _ records cycle.observedAt).mp (by rw [ho])⟩

end Collector

end Finops
