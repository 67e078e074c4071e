import Finops.Base.Run
import Finops.Collectors.LitellmSpend

/-!
# What the watermark leaves behind

A `Feed` is the spend-log table, which the proxy writes, with the collector that
reads it.  The proxy flushes rows whenever it likes, with whatever `startTime`
they have, also while a cycle is under way: a cycle reads the table in one step
and commits in another, and what it has read is kept in between (`Pending`).

A cycle leaves nothing of what its query saw behind (`nothingBehind_poll`): the
batch is a prefix of the window in the order of `startTime`, rows without one
last, so what is left out is not earlier than anything read.  An insert is another
matter: a row earlier than the position, or earlier than a batch that is about to
move it, is outside every window to come.  So nothing is left behind over a run
exactly when no row was late (`nothing_left_behind_iff`).
-/

namespace Finops

open Numerics Batch

/-- The proxy's insert; an id that is taken is refused. -/
def SpendTable.insert (table : SpendTable) (row : SpendLog) : SpendTable :=
  if h : row.requestId ∈ table.rows.map SpendLog.requestId then table
  else ⟨table.rows ++ [row], by
    rw [List.map_append, List.nodup_append]
    refine ⟨table.unique, by simp, ?_⟩
    rintro a ha b hb rfl
    obtain rfl : a = row.requestId := by simpa using hb
    exact h ha⟩

/-- A cycle whose batch is not committed yet: the environment's part in it, and the
table as its query saw it. -/
structure Pending where
  poll : Poll
  seen : SpendTable

structure Feed where
  table : SpendTable
  process : Process
  pending : Option Pending := none

def Feed.start : Feed := { table := ⟨[], List.nodup_nil⟩, process := .fresh }

/-- A row of the proxy, the query of a cycle, or its commit. -/
inductive FeedStep
  | insert (row : SpendLog)
  | select (poll : Poll)
  | commit

section

variable (loads : JsonLoads) (lower : String → String) (num : Arith) (batchSize : ℕ)

/-- One step.  The collector runs one cycle after the other, and nothing else writes
what a cycle reads of the warehouse, so the commit finds it as the query did. -/
def feedStep (f : Feed) : FeedStep → Feed
  | .insert row => { f with table := f.table.insert row }
  | .select poll =>
    match f.pending with
    | none => { f with pending := some ⟨poll, f.table⟩ }
    | some _ => f
  | .commit =>
    match f.pending with
    | none => f
    | some r =>
      { f with
        process := pollOnce loads lower num r.seen batchSize f.process r.poll
        pending := none }

/-- The batch of a cycle under way. -/
def readRows (f : Feed) (r : Pending) : List SpendLog :=
  pollRows r.seen batchSize f.process.db r.poll

/-- Nothing fails from outside, the driver binds the statements, and the warehouse takes
every row of the batch. -/
structure Takes (f : Feed) (r : Pending) : Prop where
  read : r.poll.readFault = none ∧ batchSize ≤ MAX_LIMIT
  persist : r.poll.fault = none
  ingestible : ∀ row ∈ readRows batchSize f r, Ingestible loads lower num row
  bound : (readRows batchSize f r).length < MAX_QUERY_ARGS

/-- A row is inserted not earlier than the position.  A batch is committed with no row
inserted since its query that is earlier than a row of the batch. -/
def OnTime (f : Feed) : FeedStep → Prop
  | .insert row => row.requestId ∈ f.table.rows.map SpendLog.requestId ∨
      ∀ t m, row.startTime = some t → position f.process.db = some m → m ≤ t
  | .select _ => True
  | .commit => ∀ r, f.pending = some r → Takes loads lower num batchSize f r →
      ∀ row ∈ f.table.rows, row ∉ r.seen.rows → ∀ t, row.startTime = some t →
        ∀ read ∈ readRows batchSize f r,
          asUtc read.startTime (r.poll.clock read.requestId) ≤ t

end

/-- Every row earlier than the position is in the warehouse. -/
def NothingBehind (table : SpendTable) (db : Database) : Prop :=
  ∀ row ∈ table.rows, ∀ t m, row.startTime = some t → position db = some m → t < m →
    Ingested db row

def Known (f : Feed) : Prop :=
  ∀ row, Ingested f.process.db row → row.requestId ∈ f.table.rows.map SpendLog.requestId

/-- What holds between the steps. -/
structure Feed.Coherent (loads : JsonLoads) (lower : String → String) (num : Arith) (f : Feed) :
    Prop where
  known : Known f
  sound : Sound loads lower num f.table f.process.db
  behind : NothingBehind f.table f.process.db
  seen : ∀ r, f.pending = some r → (∀ row ∈ r.seen.rows, row ∈ f.table.rows) ∧
    ∀ row ∈ f.table.rows, Ingested f.process.db row → row ∈ r.seen.rows

variable {loads : JsonLoads} {lower : String → String} {num : Arith} {batchSize : ℕ}

theorem inWindow_of_le {since : Option Instant} {row : SpendLog} {t : Instant}
    (ht : row.startTime = some t) (h : ∀ m, since = some m → m ≤ t) :
    inWindow since row = true := by
  cases since with
  | none => rfl
  | some m => simp [inWindow, ht, h m rfl]

theorem ingested_or_inWindow {table : SpendTable} {db : Database} (h : NothingBehind table db)
    {row : SpendLog} (hrow : row ∈ table.rows) {t : Instant} (ht : row.startTime = some t) :
    Ingested db row ∨ inWindow (position db) row = true := by
  by_cases hle : ∀ m, position db = some m → m ≤ t
  · exact .inr (inWindow_of_le ht hle)
  · simp only [not_forall] at hle
    obtain ⟨m, hm, hlt⟩ := hle
    exact .inl (h row hrow t m ht hm (not_le.mp hlt))

/-- **A cycle leaves nothing behind.** -/
theorem nothingBehind_poll {table : SpendTable} {p : Process} {poll : Poll}
    (h : NothingBehind table p.db) :
    NothingBehind table (pollOnce loads lower num table batchSize p poll).db := by
  rcases pollOnce_cases loads lower num table batchSize poll p with ⟨_, hdb⟩ | ⟨_, hin, hpos⟩
  · rw [hdb]; exact h
  · intro row hrow t m' ht hm' hlt
    rw [hin]
    rcases hpos with ⟨_, hpos⟩ | ⟨newest, hnew, hpos, _⟩
    · rw [hpos] at hm'
      exact .inl (h row hrow t m' ht hm' hlt)
    · rw [hpos] at hm'
      by_cases hread : row ∈ pollRows table batchSize p.db poll
      · exact .inr (List.mem_map_of_mem hread)
      · refine (ingested_or_inWindow h hrow ht).imp_right fun hw => ?_
        obtain ⟨s, hs, hle⟩ := startTime_le_of_notMem hnew hrow hw hread ht
        rw [hs] at hm'
        cases hm'
        exact absurd hlt (not_lt.mpr hle)

theorem rows_insert {table : SpendTable} {row : SpendLog}
    (h : row.requestId ∉ table.rows.map SpendLog.requestId) :
    (table.insert row).rows = table.rows ++ [row] := by
  rw [SpendTable.insert, dif_neg h]

theorem mem_rows_insert {table : SpendTable} {row row' : SpendLog} (h : row ∈ table.rows) :
    row ∈ (table.insert row').rows := by
  unfold SpendTable.insert
  split
  · exact h
  · exact List.mem_append_left _ h

theorem mem_of_mem_insert {f : Feed} {row row' : SpendLog} (hknown : Known f)
    (hrow : row ∈ (f.table.insert row').rows) (hin : Ingested f.process.db row) :
    row ∈ f.table.rows := by
  by_cases hid : row'.requestId ∈ f.table.rows.map SpendLog.requestId
  · rwa [SpendTable.insert, dif_pos hid] at hrow
  · rw [rows_insert hid] at hrow
    rcases List.mem_append.mp hrow with hold | hnew
    · exact hold
    · rw [List.mem_singleton.mp hnew] at hin
      exact absurd (hknown row' hin) hid

/-- An insert leaves nothing behind when the row is on time. -/
theorem nothingBehind_insert_iff {f : Feed} {row : SpendLog} (hknown : Known f)
    (h : NothingBehind f.table f.process.db) :
    NothingBehind (f.table.insert row) f.process.db ↔
      OnTime loads lower num batchSize f (.insert row) := by
  by_cases hid : row.requestId ∈ f.table.rows.map SpendLog.requestId
  · rw [SpendTable.insert, dif_pos hid]
    exact iff_of_true h (.inl hid)
  · have hrows := rows_insert hid
    constructor
    · intro hb
      refine .inr fun t m ht hm => ?_
      by_contra hlt
      refine hid (hknown row (hb row ?_ t m ht hm (not_le.mp hlt)))
      rw [hrows]
      exact List.mem_append_right _ List.mem_cons_self
    · intro hon row' hrow' t m ht hm hlt
      rw [hrows] at hrow'
      rcases List.mem_append.mp hrow' with hold | hnew
      · exact h row' hold t m ht hm hlt
      · rw [List.mem_singleton.mp hnew] at ht
        exact absurd hlt (not_lt.mpr ((hon.resolve_left hid) t m ht hm))

variable {f : Feed} {r : Pending}

theorem feedStep_select {poll : Poll} (h : f.pending = none) :
    feedStep loads lower num batchSize f (.select poll) =
      { f with pending := some ⟨poll, f.table⟩ } := by
  simp only [feedStep, h]

theorem feedStep_select_busy {poll : Poll} (h : f.pending = some r) :
    feedStep loads lower num batchSize f (.select poll) = f := by
  simp only [feedStep, h]

theorem feedStep_commit (h : f.pending = some r) :
    feedStep loads lower num batchSize f .commit =
      ⟨f.table, pollOnce loads lower num r.seen batchSize f.process r.poll, none⟩ := by
  simp only [feedStep, h]

theorem feedStep_commit_idle (h : f.pending = none) :
    feedStep loads lower num batchSize f .commit = f := by
  simp only [feedStep, h]

/-! ### A commit -/

theorem commits_iff_takes (h : f.Coherent loads lower num) (hr : f.pending = some r) :
    Commits loads lower num r.seen batchSize f.process.db r.poll ↔
      Takes loads lower num batchSize f r := by
  have hsound : Sound loads lower num r.seen f.process.db :=
    fun row hrow => h.sound row ((h.seen r hr).1 row hrow)
  rw [commits_iff hsound]
  exact ⟨fun ⟨hread, hpersist, hing, hbound⟩ => ⟨hread, hpersist, hing, hbound⟩,
    fun ⟨hread, hpersist, hing, hbound⟩ => ⟨hread, hpersist, hing, hbound⟩⟩

theorem mem_seen_of_commit (h : f.Coherent loads lower num) (hr : f.pending = some r)
    {row : SpendLog} (hrow : row ∈ f.table.rows)
    (hin : Ingested (pollOnce loads lower num r.seen batchSize f.process r.poll).db row) :
    row ∈ r.seen.rows := by
  obtain ⟨hsub, hseen⟩ := h.seen r hr
  rcases pollOnce_cases loads lower num r.seen batchSize r.poll f.process with
    ⟨_, hdb⟩ | ⟨_, hiff, _⟩
  · rw [hdb] at hin
    exact hseen row hrow hin
  · rcases (hiff row).mp hin with hin | hin
    · exact hseen row hrow hin
    · obtain ⟨read, hread, he⟩ := List.mem_map.mp hin
      have hm := (mem_pollRows hread).1
      rwa [eq_of_requestId_eq (hsub read hm) hrow he] at hm

/-- **A commit leaves nothing behind** exactly when no row later than its query is
earlier than what it commits. -/
theorem nothingBehind_commit_iff (h : f.Coherent loads lower num) (hr : f.pending = some r) :
    NothingBehind f.table (pollOnce loads lower num r.seen batchSize f.process r.poll).db ↔
      OnTime loads lower num batchSize f .commit := by
  have hon : OnTime loads lower num batchSize f .commit ↔
      (Takes loads lower num batchSize f r → ∀ row ∈ f.table.rows, row ∉ r.seen.rows →
        ∀ t, row.startTime = some t → ∀ read ∈ readRows batchSize f r,
          asUtc read.startTime (r.poll.clock read.requestId) ≤ t) := by
    refine ⟨fun hon => hon r hr, fun hon r' hr' => ?_⟩
    obtain rfl : r = r' := Option.some.inj (hr.symm.trans hr')
    exact hon
  have hbehind : NothingBehind r.seen f.process.db :=
    fun row hrow => h.behind row ((h.seen r hr).1 row hrow)
  rw [hon, ← commits_iff_takes h hr]
  rcases pollOnce_cases loads lower num r.seen batchSize r.poll f.process with
    ⟨hno, hdb⟩ | ⟨hcommits, _, hpos⟩
  · rw [hdb]
    exact iff_of_true h.behind fun hcommits => absurd hcommits hno
  constructor
  · intro hb _ row hrow hnew t ht read hread
    rcases hpos with ⟨hnil, _⟩ | ⟨newest, _, hm, hle⟩
    · rw [readRows, hnil] at hread
      exact absurd hread List.not_mem_nil
    · refine (hle read hread).trans (not_lt.mp fun hlt => hnew ?_)
      exact mem_seen_of_commit h hr hrow (hb row hrow t _ ht hm hlt)
  · intro hlate row hrow t m ht hm hlt
    by_cases hseen : row ∈ r.seen.rows
    · exact nothingBehind_poll hbehind row hseen t m ht hm hlt
    · rcases hpos with ⟨_, hsame⟩ | ⟨newest, hread, hmoved, _⟩
      · rw [hsame] at hm
        exact absurd (h.seen r hr |>.2 row hrow (h.behind row hrow t m ht hm hlt)) hseen
      · rw [hmoved] at hm
        have hnewest := hlate hcommits row hrow hseen t ht newest hread
        rw [Option.some.inj hm] at hnewest
        exact absurd hlt (not_lt.mpr hnewest)

/-! ### Runs -/

/-- **One step** leaves nothing behind exactly when it is on time. -/
theorem nothingBehind_step_iff (h : f.Coherent loads lower num) (step : FeedStep) :
    NothingBehind (feedStep loads lower num batchSize f step).table
        (feedStep loads lower num batchSize f step).process.db ↔
      OnTime loads lower num batchSize f step := by
  cases step with
  | insert row => exact nothingBehind_insert_iff h.known h.behind
  | select poll =>
    refine iff_of_true ?_ trivial
    cases hr : f.pending with
    | none =>
      rw [feedStep_select hr]
      exact h.behind
    | some r =>
      rw [feedStep_select_busy hr]
      exact h.behind
  | commit =>
    cases hr : f.pending with
    | none =>
      refine iff_of_true ?_ fun r hr' => ?_
      · rw [feedStep_commit_idle hr]
        exact h.behind
      · rw [hr] at hr'
        cases hr'
    | some r =>
      simp only [feedStep_commit hr]
      exact nothingBehind_commit_iff h hr

theorem coherent_start : Feed.start.Coherent loads lower num where
  known _ h := absurd h List.not_mem_nil
  sound _ h := absurd h List.not_mem_nil
  behind _ h := absurd h List.not_mem_nil
  seen _ h := by cases h

theorem coherent_insert (h : f.Coherent loads lower num) {row : SpendLog}
    (hb : NothingBehind (f.table.insert row) f.process.db) :
    ({ f with table := f.table.insert row } : Feed).Coherent loads lower num where
  known row' hin := by
    obtain ⟨old, hold, he⟩ := List.mem_map.mp (h.known row' hin)
    exact List.mem_map.mpr ⟨old, mem_rows_insert hold, he⟩
  sound row' hrow' hin := h.sound row' (mem_of_mem_insert h.known hrow' hin) hin
  behind := hb
  seen r hr := ⟨fun row' hrow' => mem_rows_insert ((h.seen r hr).1 row' hrow'),
    fun row' hrow' hin => (h.seen r hr).2 row' (mem_of_mem_insert h.known hrow' hin) hin⟩

theorem coherent_commit (h : f.Coherent loads lower num) (hr : f.pending = some r)
    (hb : NothingBehind f.table
      (pollOnce loads lower num r.seen batchSize f.process r.poll).db) :
    (⟨f.table, pollOnce loads lower num r.seen batchSize f.process r.poll, none⟩ :
      Feed).Coherent loads lower num := by
  obtain ⟨hsub, hseen⟩ := h.seen r hr
  have hsound : Sound loads lower num r.seen f.process.db :=
    fun row hrow => h.sound row (hsub row hrow)
  refine ⟨fun row hin => ?_, fun row hrow hin => ?_, hb, fun r' hr' => by cases hr'⟩
  · rcases pollOnce_cases loads lower num r.seen batchSize r.poll f.process with
      ⟨_, hdb⟩ | ⟨_, hiff, _⟩
    · refine h.known row ?_
      rw [← hdb]
      exact hin
    · rcases (hiff row).mp hin with hin | hin
      · exact h.known row hin
      · obtain ⟨read, hread, he⟩ := List.mem_map.mp hin
        exact List.mem_map.mpr ⟨read, hsub read (mem_pollRows hread).1, he⟩
  · exact sound_step hsound row (mem_seen_of_commit h hr hrow hin) hin

theorem coherent_step (h : f.Coherent loads lower num) {step : FeedStep}
    (hon : OnTime loads lower num batchSize f step) :
    (feedStep loads lower num batchSize f step).Coherent loads lower num := by
  have hb := (nothingBehind_step_iff h step).mpr hon
  cases step with
  | insert row => exact coherent_insert h hb
  | select poll =>
    cases hr : f.pending with
    | none =>
      rw [feedStep_select hr]
      refine ⟨h.known, h.sound, h.behind, fun r hr => ?_⟩
      obtain rfl := Option.some.inj hr
      exact ⟨fun row hrow => hrow, fun row hrow _ => hrow⟩
    | some r => rwa [feedStep_select_busy hr]
  | commit =>
    cases hr : f.pending with
    | none => rwa [feedStep_commit_idle hr]
    | some r =>
      rw [feedStep_commit hr] at hb ⊢
      exact coherent_commit h hr hb

/-- **No spend is left behind the watermark** in any state of a run exactly when
every row was on time: for the position as it was inserted, and for the batch that
was on its way then. -/
theorem nothing_left_behind_iff {steps : List FeedStep} :
    (∀ pre, pre <+: steps →
      NothingBehind (Runs.after (feedStep loads lower num batchSize) .start pre).table
        (Runs.after (feedStep loads lower num batchSize) .start pre).process.db) ↔
      Runs.Along (feedStep loads lower num batchSize) (OnTime loads lower num batchSize) .start
        steps := by
  have hstart : Feed.start.Coherent loads lower num := coherent_start
  rw [Runs.forall_prefix_iff (P := fun f : Feed => NothingBehind f.table f.process.db),
    and_iff_right hstart.behind]
  exact Runs.along_congr (I := Feed.Coherent loads lower num)
    (fun f step hf hon => coherent_step hf hon) (fun f step hf => nothingBehind_step_iff hf step)
    hstart

/-! A row flushed after a later one was read, before it is committed. -/

def flushedLate : List FeedStep :=
  [.insert { requestId := "req-2", startTime := some 10 }, .select {},
    .insert { requestId := "req-1", startTime := some 5 }, .commit]

theorem late_row_left_behind :
    ¬ ∀ pre, pre <+: flushedLate →
      NothingBehind (Runs.after (feedStep plainLoads id .exact DEFAULT_BATCH_SIZE)
          .start pre).table
        (Runs.after (feedStep plainLoads id .exact DEFAULT_BATCH_SIZE)
          .start pre).process.db := by
  intro h
  have hmem : { requestId := "req-1", startTime := some 5 } ∈
      (Runs.after (feedStep plainLoads id .exact DEFAULT_BATCH_SIZE)
        .start flushedLate).table.rows := List.mem_cons_of_mem _ List.mem_cons_self
  have hb := h flushedLate List.prefix_rfl _ hmem 5 10 rfl (by decide +kernel) (by decide)
  revert hb
  unfold Ingested
  decide +kernel

end Finops
