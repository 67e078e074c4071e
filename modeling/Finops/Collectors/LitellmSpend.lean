import Finops.Base.Batch
import Finops.Attribution.Tags
import Finops.Collectors.Base

/-!
# The collector of LiteLLM spend logs

A cycle reads the rows at or after the stored watermark, at most `batchSize` of
them in the order of `startTime`, maps each to a cost record and persists them.
Rows of equal `startTime` come in any order, which `Poll.tie` decides anew for
each cycle, and rows without one come last.

What is not in this repository is a parameter: `loads` is `json.loads`, which the
driver calls on the text of a JSON column and the collector on a string in one, and
`lower` is `str.lower`.

`pollOnce_cases` is all that a cycle can do: nothing, or store every row of the
batch and move the watermark to the newest of them.  `commits_iff` says which:
when nothing fails from outside, a batch commits exactly when all its rows are
ingestible and the driver can bind its size and its keys.
-/

namespace Finops

open Numerics KeepFirst Batch

def TOKENS : String := "tokens"
def DEFAULT_BATCH_SIZE : ℕ := 1000

/-- The driver binds the limit of a query as an integer of 32 bits. -/
def MAX_LIMIT : ℕ := 2 ^ 31 - 1

structure SpendLog where
  requestId : String
  startTime : Option Instant
  model : Option String := none
  spend : Option ℚ := none
  totalTokens : Option ℤ := none
  requestTags : Json := .null
  metadata : Json := .null

/-- `LiteLLM_SpendLogs`, whose primary key is `request_id`. -/
structure SpendTable where
  rows : List SpendLog
  unique : (rows.map SpendLog.requestId).Nodup

inductive Loads
  | value (decoded : Json)
  | decodeError
  | raises (e : PyError)

/-- `json.loads`, of a string, and of the text of a stored column, where the driver
calls it. -/
structure JsonLoads where
  text : String → Loads
  column : Json → Option PyError

/-! ### Rows to records -/

section

variable (loads : JsonLoads) (lower : String → String) (num : Arith)

/-- A JSON column as a mapping, tolerating a serialized string. -/
def asMapping : Json → Except PyError (Option (List (String × Json)))
  | .obj fields => .ok (some fields)
  | .str value =>
    match loads.text value with
    | .value (.obj fields) => .ok (some fields)
    | .value _ => .ok none
    | .decodeError => .ok none
    | .raises e => .error e
  | _ => .ok none

def stringItems (items : List Json) : List String :=
  items.filterMap fun
    | .str s => some s
    | _ => none

def asTagList : Json → Except PyError (List String)
  | .arr items => .ok (stringItems items)
  | .str value =>
    match loads.text value with
    | .value (.arr items) => .ok (stringItems items)
    | .value _ => .ok []
    | .decodeError => .ok []
    | .raises e => .error e
  | _ => .ok []

/-- What the driver raises on a column, which it decodes unless it is null. -/
def columnError : Json → Option PyError
  | .null => none
  | value => loads.column value

/-- A row as the driver returns it. -/
def fetched (row : SpendLog) : Except PyError SpendLog :=
  match columnError loads row.requestTags, columnError loads row.metadata with
  | none, none => .ok row
  | some e, _ => .error e
  | none, some e => .error e

/-- A source timestamp, or the current time when there is none. -/
def asUtc (value : Option Instant) (now : Instant) : Instant := value.getD now

def toRecord (row : SpendLog) (now : Instant) : Except PyError CostRecord := do
  let sourceMetadata ← asMapping loads row.metadata
  let tags ← asTagList loads row.requestTags
  let attribution := resolveAttribution lower (tags.map .str) sourceMetadata
  return {
    source := .llm
    dedupKey := row.requestId
    occurredAt := asUtc row.startTime now
    amountUsd :=
      match row.spend with
      | none => 0
      | some v => if v = 0 then 0 else num.str v
    quantity := some (row.totalTokens.getD 0 : ℤ)
    unit := some TOKENS
    model := row.model
    team := attribution.team
    project := attribution.project
    agentId := attribution.agentId
    useCase := attribution.useCase
    raw := [("request_tags", .arr (tags.map .str))] }

end

/-! ### The window -/

/-- The order of the query: by `startTime`, rows without one last, and as the
database likes among equals. -/
def comesBefore (tie : String → ℕ) (a b : SpendLog) : Prop :=
  match a.startTime, b.startTime with
  | some s, some t => s < t ∨ (s = t ∧ tie a.requestId ≤ tie b.requestId)
  | some _, none => True
  | none, some _ => False
  | none, none => tie a.requestId ≤ tie b.requestId

instance (tie : String → ℕ) : DecidableRel (comesBefore tie) := fun a b => by
  unfold comesBefore
  cases a.startTime <;> cases b.startTime <;> infer_instance

def inWindow (since : Option Instant) (r : SpendLog) : Bool :=
  match since with
  | none => true
  | some t => r.startTime.any (t ≤ ·)

def fetchRows (table : SpendTable) (since : Option Instant) (batchSize : ℕ) (tie : String → ℕ) :
    List SpendLog :=
  firsts (comesBefore tie) batchSize (table.rows.filter (inWindow since))

/-! ### A cycle -/

/-- `max(records, key=lambda record: record.occurred_at)`, the first among equals. -/
def newestOf (first : CostRecord) (rest : List CostRecord) : CostRecord :=
  rest.foldl (fun best r => if best.occurredAt < r.occurredAt then r else best) first

def nextWatermark : List CostRecord → Option Watermark
  | [] => none
  | first :: rest =>
    let newest := newestOf first rest
    some { lastOccurredAt := some newest.occurredAt, lastCursor := some newest.dedupKey }

def litellmSpend : Collector where
  name := "litellm_spend"
  source := .llm
  nextWatermark := nextWatermark

/-- What the environment decides about one cycle: the order among rows of equal
time, the clock as each row without one is read, and what fails. -/
structure Poll where
  tie : String → ℕ := fun _ => 0
  clock : String → Instant := fun _ => 0
  readFault : Option PyError := none
  fault : Option PyError := none
  runAt : Instant := 0
  observedAt : Instant := 0

section

variable (loads : JsonLoads) (lower : String → String) (num : Arith)

def position (db : Database) : Option Instant := (litellmSpend.readWatermark db).lastOccurredAt

def pollRows (table : SpendTable) (batchSize : ℕ) (db : Database) (poll : Poll) : List SpendLog :=
  fetchRows table (position db) batchSize poll.tie

def collect (table : SpendTable) (batchSize : ℕ) (db : Database) (poll : Poll) :
    Except PyError (List CostRecord) :=
  match poll.readFault with
  | some e => .error e
  | none =>
    if batchSize ≤ MAX_LIMIT then do
      let rows ← (pollRows table batchSize db poll).mapM (fetched loads)
      rows.mapM fun row => toRecord loads lower num row (poll.clock row.requestId)
    else .error .dataError

def pollCycle (table : SpendTable) (batchSize : ℕ) (db : Database) (poll : Poll) : Cycle where
  collected := collect loads lower num table batchSize db poll
  fault := poll.fault
  runAt := poll.runAt
  observedAt := poll.observedAt

def pollOnce (table : SpendTable) (batchSize : ℕ) (p : Process) (poll : Poll) : Process :=
  (litellmSpend.runOnce num p (pollCycle loads lower num table batchSize p.db poll)).1

end

/-! ### Rows that the warehouse takes -/

variable {loads : JsonLoads} {lower : String → String} {num : Arith}

theorem toRecord_eq_ok {row : SpendLog} {now : Instant} {record : CostRecord}
    (h : toRecord loads lower num row now = .ok record) :
    record.source = .llm ∧ record.dedupKey = row.requestId ∧
      record.occurredAt = asUtc row.startTime now := by
  unfold toRecord at h
  cases hm : asMapping loads row.metadata with
  | error e => rw [hm] at h; cases h
  | ok metadata =>
    cases ht : asTagList loads row.requestTags with
    | error e => rw [hm, ht] at h; cases h
    | ok tags =>
      rw [hm, ht] at h
      cases h
      exact ⟨rfl, rfl, rfl⟩

theorem toRecord_now (row : SpendLog) (now now' : Instant) :
    toRecord loads lower num row now' = (toRecord loads lower num row now).map fun record =>
      { record with occurredAt := asUtc row.startTime now' } := by
  unfold toRecord
  cases hm : asMapping loads row.metadata with
  | error e => rfl
  | ok metadata =>
    cases ht : asTagList loads row.requestTags with
    | error e => rfl
    | ok tags => rfl

theorem eq_of_fetched {row row' : SpendLog} (h : fetched loads row = .ok row') : row' = row := by
  unfold fetched at h
  split at h
  · exact (Except.ok.inj h).symm
  · cases h
  · cases h

variable (loads lower num) in
/-- The driver decodes the row, which maps to a record whose columns all hold. -/
def Ingestible (row : SpendLog) : Prop :=
  fetched loads row = .ok row ∧
    ∃ record, toRecord loads lower num row 0 = .ok record ∧ record.fits = true

theorem ingestible_iff (row : SpendLog) (now : Instant) : Ingestible loads lower num row ↔
    fetched loads row = .ok row ∧
      ∃ record, toRecord loads lower num row now = .ok record ∧ record.fits = true := by
  rw [Ingestible, toRecord_now row now 0]
  refine and_congr_right fun _ => ?_
  cases h : toRecord loads lower num row now with
  | error e => simp [Except.map]
  | ok record =>
    constructor
    · rintro ⟨r, hr, hf⟩; cases hr; exact ⟨record, rfl, hf⟩
    · rintro ⟨r, hr, hf⟩; cases hr; exact ⟨_, rfl, hf⟩

/-! ### The window -/

instance (tie : String → ℕ) : Std.Total (comesBefore tie) where
  total a b := by
    unfold comesBefore
    cases a.startTime with
    | none =>
      cases b.startTime with
      | none => exact le_total _ _
      | some t => exact .inr trivial
    | some s =>
      cases b.startTime with
      | none => exact .inl trivial
      | some t =>
        rcases lt_trichotomy s t with h | h | h
        · exact .inl (.inl h)
        · exact (le_total (tie a.requestId) (tie b.requestId)).imp
            (fun ht => .inr ⟨h, ht⟩) fun ht => .inr ⟨h.symm, ht⟩
        · exact .inr (.inl h)

instance (tie : String → ℕ) : IsTrans SpendLog (comesBefore tie) where
  trans a b c hab hbc := by
    unfold comesBefore at *
    cases ha : a.startTime with
    | none =>
      cases hb : b.startTime with
      | none =>
        cases hc : c.startTime with
        | none => rw [ha, hb] at hab; rw [hb, hc] at hbc; exact hab.trans hbc
        | some u => rw [hb, hc] at hbc; exact hbc.elim
      | some t => rw [ha, hb] at hab; exact hab.elim
    | some s =>
      cases hc : c.startTime with
      | none => trivial
      | some u =>
        cases hb : b.startTime with
        | none => rw [hb, hc] at hbc; exact hbc.elim
        | some t =>
          rw [ha, hb] at hab
          rw [hb, hc] at hbc
          rcases hab with h | ⟨rfl, ht⟩
          · rcases hbc with h' | ⟨rfl, _⟩
            · exact .inl (h.trans h')
            · exact .inl h
          · exact hbc.imp_right fun h' => ⟨h'.1, ht.trans h'.2⟩

theorem startTime_of_comesBefore {tie : String → ℕ} {a b : SpendLog} (h : comesBefore tie a b)
    {t : Instant} (hb : b.startTime = some t) : ∃ s, a.startTime = some s ∧ s ≤ t := by
  unfold comesBefore at h
  cases ha : a.startTime with
  | none => rw [ha, hb] at h; exact h.elim
  | some s =>
    rw [ha, hb] at h
    exact ⟨s, rfl, h.elim le_of_lt fun h => h.1.le⟩

section

variable {table : SpendTable} {batchSize : ℕ} {db : Database} {poll : Poll} {row : SpendLog}

theorem mem_pollRows (h : row ∈ pollRows table batchSize db poll) :
    row ∈ table.rows ∧ inWindow (position db) row = true :=
  List.mem_filter.mp (mem_of_mem_firsts h)

theorem nodup_pollRows : ((pollRows table batchSize db poll).map SpendLog.requestId).Nodup :=
  nodup_map_firsts (table.unique.sublist (List.filter_sublist.map _))

theorem eq_of_requestId_eq {row' : SpendLog} (h : row ∈ table.rows) (h' : row' ∈ table.rows)
    (he : row.requestId = row'.requestId) : row = row' :=
  List.inj_on_of_nodup_map table.unique h h' he

theorem startTime_le_of_notMem {row' : SpendLog} (h : row ∈ pollRows table batchSize db poll)
    (h' : row' ∈ table.rows) (hw : inWindow (position db) row' = true)
    (hn : row' ∉ pollRows table batchSize db poll) {t : Instant} (ht : row'.startTime = some t) :
    ∃ s, row.startTime = some s ∧ s ≤ t :=
  startTime_of_comesBefore (rel_of_notMem_firsts h (List.mem_filter.mpr ⟨h', hw⟩) hn) ht

/-! ### What a cycle can do -/

variable (loads lower num table batchSize db poll) in
def Commits : Prop :=
  ∃ records db' n, litellmSpend.attempt db (pollCycle loads lower num table batchSize db poll) =
    .ok (records, db', n)

def Ingested (db : Database) (row : SpendLog) : Prop :=
  row.requestId ∈ litellmSpend.storedKeys db.warehouse.rows

theorem collect_eq_ok {records : List CostRecord} :
    collect loads lower num table batchSize db poll = .ok records ↔
      (poll.readFault = none ∧ batchSize ≤ MAX_LIMIT) ∧
      (∀ row ∈ pollRows table batchSize db poll, fetched loads row = .ok row) ∧
      List.Forall₂ (fun row record =>
        toRecord loads lower num row (poll.clock row.requestId) = .ok record)
        (pollRows table batchSize db poll) records := by
  unfold collect
  cases poll.readFault with
  | some e => simp
  | none =>
    by_cases hlimit : batchSize ≤ MAX_LIMIT
    swap
    · simp [hlimit]
    simp only [hlimit, if_true, Batch.bind_eq_ok, mapM_eq_ok_iff_self fun _ _ => eq_of_fetched,
      mapM_eq_ok_iff, true_and]
    constructor
    · rintro ⟨_, ⟨hall, rfl⟩, hrows⟩
      exact ⟨hall, hrows⟩
    · rintro ⟨hall, hrows⟩
      exact ⟨_, ⟨hall, rfl⟩, hrows⟩

theorem collect_own {records : List CostRecord}
    (h : collect loads lower num table batchSize db poll = .ok records) :
    ∀ r ∈ records, r.source = litellmSpend.source := by
  intro r hr
  obtain ⟨row, _, hrow⟩ := exists_left_of_forall₂ (collect_eq_ok.mp h).2.2 r hr
  exact (toRecord_eq_ok hrow).1

theorem map_dedupKey_collect {records : List CostRecord}
    (h : collect loads lower num table batchSize db poll = .ok records) :
    records.map CostRecord.dedupKey =
      (pollRows table batchSize db poll).map SpendLog.requestId :=
  (map_eq_of_forall₂ (f := SpendLog.requestId) (g := CostRecord.dedupKey)
    (fun _ _ hr => (toRecord_eq_ok hr).2.1.symm) (collect_eq_ok.mp h).2.2).symm

theorem newestOf_spec (first : CostRecord) (rest : List CostRecord) :
    newestOf first rest ∈ first :: rest ∧
      ∀ r ∈ first :: rest, r.occurredAt ≤ (newestOf first rest).occurredAt := by
  induction rest generalizing first with
  | nil => simp [newestOf]
  | cons r rest ih =>
    obtain ⟨hm, hle⟩ := ih (if first.occurredAt < r.occurredAt then r else first)
    rw [show newestOf first (r :: rest) =
      newestOf (if first.occurredAt < r.occurredAt then r else first) rest from rfl]
    have hbest := hle _ List.mem_cons_self
    refine ⟨?_, ?_⟩
    · rcases List.mem_cons.mp hm with he | hm
      · rw [he]; split <;> simp
      · exact List.mem_cons_of_mem _ (List.mem_cons_of_mem _ hm)
    · intro q hq
      rcases List.mem_cons.mp hq with rfl | hq
      · refine le_trans ?_ hbest
        split
        · exact le_of_lt ‹_›
        · exact le_rfl
      · rcases List.mem_cons.mp hq with rfl | hq
        · refine le_trans ?_ hbest
          split
          · exact le_rfl
          · exact not_lt.mp ‹_›
        · exact hle q (List.mem_cons_of_mem _ hq)

theorem nextWatermark_cases (records : List CostRecord) :
    (records = [] ∧ nextWatermark records = none) ∨
    ∃ newest ∈ records, nextWatermark records =
        some { lastOccurredAt := some newest.occurredAt, lastCursor := some newest.dedupKey } ∧
      ∀ r ∈ records, r.occurredAt ≤ newest.occurredAt := by
  cases records with
  | nil => exact .inl ⟨rfl, rfl⟩
  | cons first rest =>
    obtain ⟨hm, hle⟩ := newestOf_spec first rest
    exact .inr ⟨newestOf first rest, hm, rfl, hle⟩

theorem ingested_attempt {records : List CostRecord} {db' : Database} {n : ℕ}
    (h : litellmSpend.attempt db (pollCycle loads lower num table batchSize db poll) =
      .ok (records, db', n)) :
    Ingested db' row ↔
      Ingested db row ∨
        row.requestId ∈ (pollRows table batchSize db poll).map SpendLog.requestId := by
  have hc := (Collector.attempt_eq_ok.mp h).1
  rw [Ingested, Collector.mem_storedKeys_attempt (collect_own hc) h, map_dedupKey_collect hc]
  rfl

theorem position_attempt {records : List CostRecord} {db' : Database} {n : ℕ}
    (h : litellmSpend.attempt db (pollCycle loads lower num table batchSize db poll) =
      .ok (records, db', n)) :
    (pollRows table batchSize db poll = [] ∧ position db' = position db) ∨
    ∃ newest ∈ pollRows table batchSize db poll,
      position db' = some (asUtc newest.startTime (poll.clock newest.requestId)) ∧
      ∀ r ∈ pollRows table batchSize db poll,
        asUtc r.startTime (poll.clock r.requestId) ≤
          asUtc newest.startTime (poll.clock newest.requestId) := by
  have hc := (collect_eq_ok.mp (Collector.attempt_eq_ok.mp h).1).2.2
  have hmark := Collector.readWatermark_attempt h
  rcases nextWatermark_cases records with ⟨rfl, hn⟩ | ⟨newest, hm, hn, hle⟩
  · refine .inl ⟨List.forall₂_nil_right_iff.mp hc, ?_⟩
    rw [position, hmark, show litellmSpend.nextWatermark [] = none from hn]
    rfl
  · obtain ⟨row, hrow, hr⟩ := exists_left_of_forall₂ hc newest hm
    have ht := (toRecord_eq_ok hr).2.2
    refine .inr ⟨row, hrow, ?_, fun r' hr' => ?_⟩
    · rw [position, hmark, show litellmSpend.nextWatermark records = _ from hn, ← ht]
      rfl
    · obtain ⟨record, hrec, heq⟩ := exists_right_of_forall₂ hc r' hr'
      rw [← ht, ← (toRecord_eq_ok heq).2.2]
      exact hle record hrec

variable (loads lower num table batchSize poll) in
/-- **What a cycle can do**: nothing to the tables, or store its batch and move
the position to the newest of it. -/
theorem pollOnce_cases (p : Process) :
    (¬ Commits loads lower num table batchSize p.db poll ∧
      (pollOnce loads lower num table batchSize p poll).db = p.db) ∨
    (Commits loads lower num table batchSize p.db poll ∧
      (∀ row, Ingested (pollOnce loads lower num table batchSize p poll).db row ↔
        Ingested p.db row ∨
          row.requestId ∈ (pollRows table batchSize p.db poll).map SpendLog.requestId) ∧
      ((pollRows table batchSize p.db poll = [] ∧
          position (pollOnce loads lower num table batchSize p poll).db = position p.db) ∨
        ∃ newest ∈ pollRows table batchSize p.db poll,
          position (pollOnce loads lower num table batchSize p poll).db =
            some (asUtc newest.startTime (poll.clock newest.requestId)) ∧
          ∀ r ∈ pollRows table batchSize p.db poll,
            asUtc r.startTime (poll.clock r.requestId) ≤
              asUtc newest.startTime (poll.clock newest.requestId))) := by
  cases h : litellmSpend.attempt p.db (pollCycle loads lower num table batchSize p.db poll) with
  | error e =>
    refine .inl ⟨?_, by rw [pollOnce, Collector.runOnce_of_error h]⟩
    rintro ⟨records, db', n, hok⟩
    rw [h] at hok
    cases hok
  | ok x =>
    obtain ⟨records, db', n⟩ := x
    have hdb : (pollOnce loads lower num table batchSize p poll).db = db' := Collector.runOnce_db h
    rw [hdb]
    exact .inr ⟨⟨records, db', n, h⟩, fun row => ingested_attempt h, position_attempt h⟩

/-! ### When a batch commits -/

variable (loads lower num table) in
/-- Only ingestible rows of the table are in the warehouse. -/
def Sound (db : Database) : Prop :=
  ∀ row ∈ table.rows, Ingested db row → Ingestible loads lower num row

theorem ingestible_of_accepts (hsound : Sound loads lower num table db)
    {records : List CostRecord} (hc : collect loads lower num table batchSize db poll = .ok records)
    (hfits : ∀ r ∈ litellmSpend.dropDuplicates db.warehouse.rows records, r.fits = true) :
    ∀ row ∈ pollRows table batchSize db poll, Ingestible loads lower num row := by
  intro row hrow
  obtain ⟨_, hfetched, hrows⟩ := collect_eq_ok.mp hc
  obtain ⟨record, hrec, heq⟩ := exists_right_of_forall₂ hrows row hrow
  have hkey := (toRecord_eq_ok heq).2.1
  by_cases hst : Ingested db row
  · exact hsound row (mem_pollRows hrow).1 hst
  · refine (ingestible_iff row (poll.clock row.requestId)).mpr
      ⟨hfetched row hrow, record, heq, hfits record ?_⟩
    rw [Collector.dropDuplicates_eq]
    refine (mem_keepFirst_of_nodup ?_).mpr ⟨hrec, ?_⟩
    · rw [map_dedupKey_collect hc]; exact nodup_pollRows
    · rw [hkey]; exact hst

theorem exists_collect_eq_ok (hread : poll.readFault = none ∧ batchSize ≤ MAX_LIMIT)
    (hall : ∀ row ∈ pollRows table batchSize db poll, Ingestible loads lower num row) :
    ∃ records, collect loads lower num table batchSize db poll = .ok records ∧
      ∀ r ∈ records, r.fits = true := by
  have hrecord : ∀ row ∈ pollRows table batchSize db poll, ∃ record,
      toRecord loads lower num row (poll.clock row.requestId) = .ok record ∧
        record.fits = true := fun row hrow =>
    ((ingestible_iff row (poll.clock row.requestId)).mp (hall row hrow)).2
  obtain ⟨records, hm⟩ := exists_mapM_eq_ok fun row hrow =>
    (hrecord row hrow).imp fun _ h => h.1
  refine ⟨records, collect_eq_ok.mpr
    ⟨hread, fun row hrow => (hall row hrow).1, mapM_eq_ok_iff.mp hm⟩, fun r hr => ?_⟩
  obtain ⟨row, hrow, heq⟩ := exists_left_of_forall₂ (mapM_eq_ok_iff.mp hm) r hr
  obtain ⟨record, heq', hfit⟩ := hrecord row hrow
  rw [heq] at heq'
  cases heq'
  exact hfit

theorem watermarkFits_nextWatermark {records : List CostRecord}
    (hfits : ∀ r ∈ records, r.fits = true) :
    litellmSpend.watermarkFits (litellmSpend.nextWatermark records) = true := by
  rcases nextWatermark_cases records with ⟨_, hn⟩ | ⟨newest, hnew, hn, _⟩
  · rw [show litellmSpend.nextWatermark records = _ from hn]
    decide
  · rw [show litellmSpend.nextWatermark records = _ from hn]
    have hkey := (CostRecord.fits_iff.mp (hfits newest hnew)).dedupKey
    have hname : textFits 64 litellmSpend.name = true := by decide
    simp [Collector.watermarkFits, hkey, hname]

/-- **A batch commits** exactly when nothing fails from outside, the limit is one the driver
binds, all its rows are ingestible and there are not too many of them. -/
theorem commits_iff (hsound : Sound loads lower num table db) :
    Commits loads lower num table batchSize db poll ↔
      (poll.readFault = none ∧ batchSize ≤ MAX_LIMIT) ∧ poll.fault = none ∧
      (∀ row ∈ pollRows table batchSize db poll, Ingestible loads lower num row) ∧
      (pollRows table batchSize db poll).length < MAX_QUERY_ARGS := by
  have hbind : ∀ {records}, collect loads lower num table batchSize db poll = .ok records →
      (Collector.bindable records = true ↔
        (pollRows table batchSize db poll).length < MAX_QUERY_ARGS) := by
    intro records hc
    rw [Collector.bindable, decide_eq_true_iff, (collect_eq_ok.mp hc).2.2.length_eq]
    omega
  simp only [Commits, Collector.exists_attempt_eq_ok]
  constructor
  · rintro ⟨records, hc, hf, hacc⟩
    have hc' : collect loads lower num table batchSize db poll = .ok records := hc
    obtain ⟨hfits, _, hcount⟩ := (Collector.accepts_iff (collect_own hc')).mp hacc
    exact ⟨(collect_eq_ok.mp hc').1, hf, ingestible_of_accepts hsound hc' hfits,
      (hbind hc').mp hcount⟩
  · rintro ⟨hread, hf, hall, hcount⟩
    obtain ⟨records, hc, hfits⟩ := exists_collect_eq_ok hread hall
    refine ⟨records, hc, hf, (Collector.accepts_iff (collect_own hc)).mpr
      ⟨fun r hr => hfits r ?_, watermarkFits_nextWatermark hfits, (hbind hc).mpr hcount⟩⟩
    rw [Collector.dropDuplicates_eq] at hr
    exact keepFirst_sublist.subset hr

theorem sound_empty : Sound loads lower num table .empty :=
  fun _ _ h => absurd h List.not_mem_nil

theorem sound_step {p : Process} (hsound : Sound loads lower num table p.db) :
    Sound loads lower num table (pollOnce loads lower num table batchSize p poll).db := by
  rcases pollOnce_cases loads lower num table batchSize poll p with ⟨_, hdb⟩ | ⟨hc, hin, _⟩
  · rw [hdb]; exact hsound
  · intro row hrow hi
    rcases (hin row).mp hi with h | h
    · exact hsound row hrow h
    · obtain ⟨row', hrow', he⟩ := List.mem_map.mp h
      rw [← eq_of_requestId_eq (mem_pollRows hrow').1 hrow he]
      exact ((commits_iff hsound).mp hc).2.2.1 row' hrow'

end

/-- Columns that are all decoded, and strings that are none of them JSON. -/
def plainLoads : JsonLoads := ⟨fun _ => .decodeError, fun _ => none⟩

end Finops
