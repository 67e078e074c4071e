import Finops.Base.Run
import Finops.Collectors.LitellmSpend

/-!
# One row's tags and the other rows

Two tables differ in the tags and the metadata of one row.  Every cycle reads
the same rows of them, in the same order, so the two runs can part only where
one of them commits a batch and the other does not: a batch commits when all its
rows are ingestible (`commits_iff`), and one transaction carries them all.

So the other rows fare the same in both runs, over any table around the row and
any cycles, exactly when both contents are ingestible or neither is
(`isolated_iff`).  `lockstep_poll` is the step: what is masked of the row is all
that differs.
-/

namespace Finops

open Numerics KeepFirst Batch

/-! ### Two tables and two warehouses -/

def SpendLog.retag (id : String) (tags metadata : Json) (row : SpendLog) : SpendLog :=
  if row.requestId = id then { row with requestTags := tags, metadata := metadata } else row

@[simp] theorem retag_requestId (id : String) (tags metadata : Json) (row : SpendLog) :
    (row.retag id tags metadata).requestId = row.requestId := by
  unfold SpendLog.retag; split <;> rfl

@[simp] theorem retag_startTime (id : String) (tags metadata : Json) (row : SpendLog) :
    (row.retag id tags metadata).startTime = row.startTime := by
  unfold SpendLog.retag; split <;> rfl

def SpendTable.retag (table : SpendTable) (id : String) (tags metadata : Json) : SpendTable where
  rows := table.rows.map (SpendLog.retag id tags metadata)
  unique := by
    rw [List.map_map, List.map_congr_left (g := SpendLog.requestId)]
    · exact table.unique
    · intro row _; exact retag_requestId id tags metadata row

/-- The two warehouses have the same records of other keys. -/
def SameOthers (id : String) (db db' : Database) : Prop :=
  ∀ r : CostRecord, r.dedupKey ≠ id →
    ((∃ q ∈ db.warehouse.rows, q.toCostRecord = r) ↔ ∃ q ∈ db'.warehouse.rows, q.toCostRecord = r)

/-- The record without what tags and metadata decide, when it has this key. -/
def CostRecord.mask (id : String) (r : CostRecord) : CostRecord :=
  if r.dedupKey = id then
    { r with team := "", project := "", agentId := "", useCase := "", raw := [] }
  else r

@[simp] theorem mask_dedupKey (id : String) (r : CostRecord) :
    (r.mask id).dedupKey = r.dedupKey := by unfold CostRecord.mask; split <;> rfl

@[simp] theorem mask_source (id : String) (r : CostRecord) : (r.mask id).source = r.source := by
  unfold CostRecord.mask; split <;> rfl

theorem mask_of_ne {id : String} {r : CostRecord} (h : r.dedupKey ≠ id) : r.mask id = r :=
  if_neg h

theorem mask_stored (id : String) (r : CostRecord) : (r.mask id).stored = r.stored.mask id := by
  by_cases h : r.dedupKey = id
  · have hs : r.stored.dedupKey = id := h
    rw [CostRecord.mask, CostRecord.mask, if_pos h, if_pos hs]
    rfl
  · have hs : r.stored.dedupKey ≠ id := h
    rw [mask_of_ne h, mask_of_ne hs]

/-- The two runs differ in nothing but what is masked. -/
structure Lockstep (id : String) (db db' : Database) : Prop where
  rows : (db.warehouse.rows.map fun q => q.toCostRecord.mask id) =
    db'.warehouse.rows.map fun q => q.toCostRecord.mask id
  position : position db = position db'

theorem sameOthers_of_lockstep {id : String} {db db' : Database} (h : Lockstep id db db') :
    SameOthers id db db' := by
  have haux : ∀ {db db' : Database}, (db.warehouse.rows.map fun q => q.toCostRecord.mask id) =
      (db'.warehouse.rows.map fun q => q.toCostRecord.mask id) → ∀ r : CostRecord,
      r.dedupKey ≠ id → (∃ q ∈ db.warehouse.rows, q.toCostRecord = r) →
      ∃ q ∈ db'.warehouse.rows, q.toCostRecord = r := by
    rintro db db' hrows r hne ⟨q, hq, rfl⟩
    have hm : q.toCostRecord.mask id ∈ db'.warehouse.rows.map fun q => q.toCostRecord.mask id := by
      rw [← hrows]
      exact List.mem_map.mpr ⟨q, hq, rfl⟩
    obtain ⟨q', hq', he⟩ := List.mem_map.mp hm
    rw [mask_of_ne hne] at he
    have hne' : q'.dedupKey ≠ id := by
      rw [← mask_dedupKey id q'.toCostRecord, he]
      exact hne
    rw [mask_of_ne hne'] at he
    exact ⟨q', hq', he⟩
  exact fun r hne => ⟨haux h.rows r hne, haux h.rows.symm r hne⟩

theorem storedKeys_of_lockstep {id : String} {db db' : Database} (h : Lockstep id db db') :
    litellmSpend.storedKeys db.warehouse.rows = litellmSpend.storedKeys db'.warehouse.rows := by
  have haux : ∀ rows : List CostRow, litellmSpend.storedKeys rows =
      ((rows.map fun q => q.toCostRecord.mask id).filter
        fun r => r.source = litellmSpend.source).map CostRecord.dedupKey := by
    intro rows
    rw [Collector.storedKeys, List.filter_map, List.map_map]
    simp only [Function.comp_def, mask_source, mask_dedupKey]
  rw [haux, haux, h.rows]

/-! ### The two runs -/

section

variable {loads : JsonLoads} {lower : String → String} {num : Arith} {table : SpendTable}
  {batchSize : ℕ} {id : String} {tags metadata : Json} {db db' : Database} {poll : Poll}

theorem pollRows_retag (h : position db = position db') :
    pollRows (table.retag id tags metadata) batchSize db' poll =
      (pollRows table batchSize db poll).map (SpendLog.retag id tags metadata) := by
  have hwin : ∀ row : SpendLog, inWindow (position db') (row.retag id tags metadata) =
      inWindow (position db) row := by
    intro row
    simp only [inWindow, h, retag_startTime]
  rw [pollRows, pollRows, fetchRows, fetchRows, SpendTable.retag, List.filter_map,
    show (inWindow (position db') ∘ SpendLog.retag id tags metadata) = inWindow (position db) from
      funext hwin]
  refine (map_firsts _ fun a _ b _ => ?_).symm
  simp only [comesBefore, retag_startTime, retag_requestId]

theorem mask_toRecord {row : SpendLog} {now : Instant} {r r' : CostRecord}
    (h : toRecord loads lower num row now = .ok r)
    (h' : toRecord loads lower num (row.retag id tags metadata) now = .ok r') :
    r.mask id = r'.mask id := by
  by_cases hid : row.requestId = id
  · rw [SpendLog.retag, if_pos hid] at h'
    unfold toRecord at h h'
    cases hm : asMapping loads row.metadata with
    | error e => rw [hm] at h; cases h
    | ok m =>
      cases ht : asTagList loads row.requestTags with
      | error e => rw [hm, ht] at h; cases h
      | ok t =>
        cases hm' : asMapping loads metadata with
        | error e => rw [hm'] at h'; cases h'
        | ok m' =>
          cases ht' : asTagList loads tags with
          | error e => rw [hm', ht'] at h'; cases h'
          | ok t' =>
            rw [hm, ht] at h
            rw [hm', ht'] at h'
            cases h
            cases h'
            rw [CostRecord.mask, CostRecord.mask]
            exact (if_pos hid).trans (if_pos hid).symm
  · rw [SpendLog.retag, if_neg hid, h] at h'
    cases h'
    rfl

theorem mask_rows_attempt {records : List CostRecord} {db₁ : Database} {n : ℕ}
    (ha : litellmSpend.attempt db (pollCycle loads lower num table batchSize db poll) =
      .ok (records, db₁, n)) :
    (db₁.warehouse.rows.map fun q => q.toCostRecord.mask id) =
      (db.warehouse.rows.map fun q => q.toCostRecord.mask id) ++
        (keepFirst CostRecord.dedupKey (litellmSpend.storedKeys db.warehouse.rows)
          (records.map (CostRecord.mask id))).map CostRecord.stored := by
  obtain ⟨_, _, hw, _, _⟩ := Collector.persist_eq_ok.mp (Collector.attempt_eq_ok.mp ha).2
  rw [Session.toSession_of_flush hw, Session.rows_addAll, List.map_append,
    Session.map_numbered (CostRecord.mask id), Collector.dropDuplicates_eq,
    keepFirst_map (mask_dedupKey id), List.map_map]
  congr 1
  exact List.map_congr_left fun r _ => (mask_stored id r).symm

theorem position_retag {records records' : List CostRecord} {db₁ db₁' : Database} {n n' : ℕ}
    (h : position db = position db')
    (ha : litellmSpend.attempt db (pollCycle loads lower num table batchSize db poll) =
      .ok (records, db₁, n))
    (ha' : litellmSpend.attempt db'
      (pollCycle loads lower num (table.retag id tags metadata) batchSize db' poll) =
      .ok (records', db₁', n')) : position db₁ = position db₁' := by
  have hrows : pollRows (table.retag id tags metadata) batchSize db' poll =
      (pollRows table batchSize db poll).map (SpendLog.retag id tags metadata) := pollRows_retag h
  have hpos := position_attempt ha
  have hpos' := position_attempt ha'
  rw [hrows] at hpos'
  rcases hpos with ⟨hnil, hp⟩ | ⟨x, hx, hp, hle⟩
  · rcases hpos' with ⟨_, hp'⟩ | ⟨y, hy, _, _⟩
    · rw [hp, hp', h]
    · rw [hnil] at hy; cases hy
  · rcases hpos' with ⟨hnil, _⟩ | ⟨y, hy, hp', hle'⟩
    · rw [List.map_eq_nil_iff.mp hnil] at hx; cases hx
    · obtain ⟨z, hz, rfl⟩ := List.mem_map.mp hy
      have hxy := hle' _ (List.mem_map_of_mem hx)
      simp only [retag_startTime, retag_requestId] at hxy hp'
      rw [hp, hp', le_antisymm hxy (hle z hz)]

theorem lockstep_attempt {records records' : List CostRecord} {db₁ db₁' : Database} {n n' : ℕ}
    (h : Lockstep id db db')
    (ha : litellmSpend.attempt db (pollCycle loads lower num table batchSize db poll) =
      .ok (records, db₁, n))
    (ha' : litellmSpend.attempt db'
      (pollCycle loads lower num (table.retag id tags metadata) batchSize db' poll) =
      .ok (records', db₁', n')) : Lockstep id db₁ db₁' := by
  refine ⟨?_, position_retag h.position ha ha'⟩
  have hc := (collect_eq_ok.mp (Collector.attempt_eq_ok.mp ha).1).2.2
  have hc' := (collect_eq_ok.mp (Collector.attempt_eq_ok.mp ha').1).2.2
  rw [pollRows_retag h.position, List.forall₂_map_left_iff] at hc'
  have hrecords : records.map (CostRecord.mask id) = records'.map (CostRecord.mask id) := by
    refine map_eq_map_of_forall₂ hc hc' fun row _ r r' hr hr' => ?_
    rw [retag_requestId] at hr'
    exact mask_toRecord hr hr'
  rw [mask_rows_attempt ha, mask_rows_attempt ha', h.rows, storedKeys_of_lockstep h, hrecords]

/-- **One cycle** of the two runs, when each row is ingestible in both tables or
in neither. -/
theorem lockstep_poll {p p' : Process}
    (hing : ∀ row ∈ table.rows, Ingestible loads lower num row ↔
      Ingestible loads lower num (row.retag id tags metadata))
    (hs : Sound loads lower num table p.db)
    (hs' : Sound loads lower num (table.retag id tags metadata) p'.db)
    (h : Lockstep id p.db p'.db) :
    Lockstep id (pollOnce loads lower num table batchSize p poll).db
      (pollOnce loads lower num (table.retag id tags metadata) batchSize p' poll).db := by
  have hboth : Commits loads lower num table batchSize p.db poll ↔
      Commits loads lower num (table.retag id tags metadata) batchSize p'.db poll := by
    rw [commits_iff hs, commits_iff hs', pollRows_retag h.position, List.forall_mem_map,
      List.length_map]
    refine and_congr_right' (and_congr_right' (and_congr_left' (forall₂_congr fun row hrow => ?_)))
    exact hing row (mem_pollRows hrow).1
  by_cases hc : Commits loads lower num table batchSize p.db poll
  · obtain ⟨records, db₁, n, ha⟩ := hc
    obtain ⟨records', db₁', n', ha'⟩ := hboth.mp ⟨records, db₁, n, ha⟩
    rw [pollOnce, pollOnce, Collector.runOnce_db ha, Collector.runOnce_db ha']
    exact lockstep_attempt h ha ha'
  · have hno : ∀ {t : SpendTable} {q : Process}, ¬ Commits loads lower num t batchSize q.db poll →
        (pollOnce loads lower num t batchSize q poll).db = q.db := by
      intro t q hq
      rcases pollOnce_cases loads lower num t batchSize poll q with ⟨_, hdb⟩ | ⟨hc, _⟩
      · exact hdb
      · exact absurd hc hq
    rw [hno hc, hno (hboth.not.mp hc)]
    exact h

theorem lockstep_after (hing : ∀ row ∈ table.rows, Ingestible loads lower num row ↔
      Ingestible loads lower num (row.retag id tags metadata)) (polls : List Poll) :
    Lockstep id (Runs.after (pollOnce loads lower num table batchSize) .fresh polls).db
      (Runs.after (pollOnce loads lower num (table.retag id tags metadata) batchSize) .fresh
        polls).db := by
  have hstep : ∀ (p p' : Process) (poll : Poll),
      (Sound loads lower num table p.db ∧
        Sound loads lower num (table.retag id tags metadata) p'.db ∧ Lockstep id p.db p'.db) →
      Sound loads lower num table (pollOnce loads lower num table batchSize p poll).db ∧
        Sound loads lower num (table.retag id tags metadata)
          (pollOnce loads lower num (table.retag id tags metadata) batchSize p' poll).db ∧
        Lockstep id (pollOnce loads lower num table batchSize p poll).db
          (pollOnce loads lower num (table.retag id tags metadata) batchSize p' poll).db := by
    rintro p p' poll ⟨hs, hs', h⟩
    exact ⟨sound_step hs, sound_step hs', lockstep_poll hing hs hs' h⟩
  exact (Runs.related hstep ⟨sound_empty, sound_empty, rfl, rfl⟩).2.2

/-! ### One batch -/

theorem ingested_first_poll (hfit : table.rows.length ≤ batchSize)
    (hlimit : batchSize ≤ MAX_LIMIT) (hbind : table.rows.length < MAX_QUERY_ARGS)
    {row : SpendLog} (hrow : row ∈ table.rows) :
    Ingested (pollOnce loads lower num table batchSize .fresh {}).db row ↔
      ∀ r ∈ table.rows, Ingestible loads lower num r := by
  have hall : ∀ r, r ∈ pollRows table batchSize Process.fresh.db {} ↔ r ∈ table.rows := by
    intro r
    refine ⟨fun hr => (mem_pollRows hr).1, fun hr => ?_⟩
    exact mem_firsts_of_length_le ((List.length_filter_le _ _).trans hfit)
      (List.mem_filter.mpr ⟨hr, rfl⟩)
  have hcommits : Commits loads lower num table batchSize Process.fresh.db {} ↔
      ∀ r ∈ table.rows, Ingestible loads lower num r := by
    have hcount : (pollRows table batchSize Process.fresh.db {}).length < MAX_QUERY_ARGS := by
      rw [pollRows, fetchRows, length_firsts]
      exact ((min_le_right _ _).trans (List.length_filter_le _ _)).trans_lt hbind
    rw [commits_iff (show Sound loads lower num table Process.fresh.db from sound_empty)]
    simp only [true_and, hlimit, hall, hcount, and_true]
  rw [← hcommits]
  rcases pollOnce_cases loads lower num table batchSize {} .fresh with ⟨hno, hdb⟩ | ⟨hc, hin, _⟩
  · rw [hdb]
    exact iff_of_false List.not_mem_nil hno
  · rw [hin]
    exact iff_of_true (.inr (List.mem_map_of_mem ((hall row).mpr hrow))) hc

def neighbour (row : SpendLog) : SpendLog where
  requestId := if row.requestId = "a" then "b" else "a"
  startTime := row.startTime

theorem neighbour_requestId_ne (row : SpendLog) : (neighbour row).requestId ≠ row.requestId := by
  by_cases h : row.requestId = "a"
  · rw [neighbour, if_pos h, h]
    exact (by decide : "b" ≠ "a")
  · rw [neighbour, if_neg h]
    exact fun he => h he.symm

theorem textFits_neighbour_requestId (row : SpendLog) :
    textFits 255 (neighbour row).requestId = true := by
  rw [neighbour]
  split
  · exact (by decide : textFits 255 "b" = true)
  · exact (by decide : textFits 255 "a" = true)

theorem ingestible_untagged {row : SpendLog} (htags : row.requestTags = .null)
    (hmetadata : row.metadata = .null) (hid : textFits 255 row.requestId = true)
    (hmodel : row.model = none) (hspend : row.spend = none) (htokens : row.totalTokens = none) :
    Ingestible loads lower num row := by
  have hnobody : resolveAttribution lower [] none = {} := rfl
  have htexts : textFits 128 UNATTRIBUTED = true ∧ textFits 32 TOKENS = true := by decide
  have hzero : numericFits 10 CostRecord.moneyScale 0 = true ∧
      numericFits 16 CostRecord.quantityScale 0 = true := by decide +kernel
  refine ⟨by rw [fetched, htags, hmetadata]; rfl, _, by rw [toRecord, htags, hmetadata]; rfl, ?_⟩
  simp [CostRecord.fits, hid, hmodel, hspend, htokens, htexts, hzero, hnobody]

def withNeighbour (row : SpendLog) : SpendTable where
  rows := [row, neighbour row]
  unique := by simpa using (neighbour_requestId_ne row).symm

theorem ingested_of_sameOthers {row : SpendLog} (h : SameOthers id db db')
    (hne : row.requestId ≠ id) : Ingested db row ↔ Ingested db' row := by
  have haux : ∀ {db db' : Database}, SameOthers id db db' → Ingested db row → Ingested db' row := by
    intro db db' h hin
    obtain ⟨q, hq, hk⟩ := List.mem_map.mp hin
    obtain ⟨hm, hs⟩ := List.mem_filter.mp hq
    obtain ⟨q', hq', he⟩ := (h q.toCostRecord (by rw [hk]; exact hne)).mp ⟨q, hm, rfl⟩
    refine List.mem_map.mpr ⟨q', List.mem_filter.mpr ⟨hq', ?_⟩, ?_⟩
    · rw [he]; exact hs
    · rw [he]; exact hk
  exact ⟨haux h, haux fun r hr => (h r hr).symm⟩

theorem retag_eq_self {row row' : SpendLog} (h : row'.requestId ≠ row.requestId) :
    row'.retag row.requestId tags metadata = row' := if_neg h

/-- Where the neighbour fares alike beside both contents, both are ingestible or
neither is. -/
theorem ingestible_iff_of_sameOthers {row : SpendLog} (hfit : 2 ≤ batchSize)
    (hlimit : batchSize ≤ MAX_LIMIT) (h : SameOthers row.requestId
      (Runs.after (pollOnce loads lower num (withNeighbour row) batchSize) .fresh [{}]).db
      (Runs.after (pollOnce loads lower num
        ((withNeighbour row).retag row.requestId tags metadata) batchSize) .fresh [{}]).db) :
    Ingestible loads lower num row ↔
      Ingestible loads lower num { row with requestTags := tags, metadata := metadata } := by
  have hself : row.retag row.requestId tags metadata =
      { row with requestTags := tags, metadata := metadata } := if_pos rfl
  have hin := ingested_of_sameOthers h (neighbour_requestId_ne row)
  have hrows : ((withNeighbour row).retag row.requestId tags metadata).rows =
      [{ row with requestTags := tags, metadata := metadata }, neighbour row] := by
    rw [← hself, ← retag_eq_self (neighbour_requestId_ne row)]
    rfl
  have hright : neighbour row ∈ ((withNeighbour row).retag row.requestId tags metadata).rows := by
    rw [hrows]; exact List.mem_cons_of_mem _ List.mem_cons_self
  have hother : Ingestible loads lower num (neighbour row) :=
    ingestible_untagged rfl rfl (textFits_neighbour_requestId row) rfl rfl rfl
  have htwo : (withNeighbour row).rows.length < MAX_QUERY_ARGS :=
    (by decide : 2 < MAX_QUERY_ARGS)
  have hleft : Ingested (pollOnce loads lower num (withNeighbour row) batchSize .fresh {}).db
      (neighbour row) ↔ ∀ r ∈ (withNeighbour row).rows, Ingestible loads lower num r :=
    ingested_first_poll hfit hlimit htwo (List.mem_cons_of_mem _ List.mem_cons_self)
  have hright' : Ingested (pollOnce loads lower num
        ((withNeighbour row).retag row.requestId tags metadata) batchSize .fresh {}).db
        (neighbour row) ↔
      ∀ r ∈ ((withNeighbour row).retag row.requestId tags metadata).rows,
        Ingestible loads lower num r :=
    ingested_first_poll (by rw [hrows]; exact hfit) hlimit (by rw [hrows]; exact htwo) hright
  have hboth := hleft.symm.trans (hin.trans hright')
  rw [hrows] at hboth
  simpa [withNeighbour, hother] using hboth

/-- **One row's content** does not decide what becomes of the others, whatever
the table around it and the cycles, exactly when both contents are ingestible or
neither is. -/
theorem isolated_iff (row : SpendLog) (tags metadata : Json) :
    (∀ (table : SpendTable) (batchSize : ℕ) (polls : List Poll), row ∈ table.rows →
      SameOthers row.requestId
        (Runs.after (pollOnce loads lower num table batchSize) .fresh polls).db
        (Runs.after (pollOnce loads lower num (table.retag row.requestId tags metadata) batchSize)
          .fresh polls).db) ↔
      (Ingestible loads lower num row ↔
        Ingestible loads lower num { row with requestTags := tags, metadata := metadata }) := by
  have hself : row.retag row.requestId tags metadata =
      { row with requestTags := tags, metadata := metadata } := if_pos rfl
  constructor
  · intro h
    exact ingestible_iff_of_sameOthers le_rfl (by decide)
      (h (withNeighbour row) 2 [{}] List.mem_cons_self)
  · intro hing table batchSize polls hrow
    refine sameOthers_of_lockstep (lockstep_after (fun row' hrow' => ?_) polls)
    by_cases hid : row'.requestId = row.requestId
    · rw [eq_of_requestId_eq hrow' hrow hid, hself]
      exact hing
    · rw [retag_eq_self hid]

end

/-! A team name one character too long. -/

def taggedRow : SpendLog := { requestId := "req-1", startTime := some 1 }

def overlongTags : Json := .arr [.str ("team:" ++ String.ofList (List.replicate 129 'x'))]

theorem overlong_tag_blocks :
    ¬ SameOthers "req-1"
      (Runs.after (pollOnce plainLoads id .exact (withNeighbour taggedRow)
        DEFAULT_BATCH_SIZE) .fresh [{}]).db
      (Runs.after (pollOnce plainLoads id .exact
        ((withNeighbour taggedRow).retag "req-1" overlongTags .null) DEFAULT_BATCH_SIZE)
        .fresh [{}]).db := by
  intro h
  have huntagged : Ingestible plainLoads id .exact taggedRow :=
    ingestible_untagged rfl rfl (by decide) rfl rfl rfl
  obtain ⟨_, r, hr, hfits⟩ := (ingestible_iff_of_sameOthers (by decide) (by decide) h).mp huntagged
  have hlong : (toRecord plainLoads id .exact
      { taggedRow with requestTags := overlongTags, metadata := .null } 0).map
        CostRecord.fits = .ok false := by decide +kernel
  rw [hr] at hlong
  exact Bool.false_ne_true ((Except.ok.inj hlong).symm.trans hfits)

end Finops
