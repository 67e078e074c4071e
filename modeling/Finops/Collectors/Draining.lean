import Finops.Collectors.Watermark

/-!
# Draining a table that no longer changes

From an empty warehouse, every row of a static table with times is ingested
after enough cycles exactly when the table `Drains`: every row is ingestible, the
driver can bind the size and the keys of a batch, no time is shared by more rows than a
batch holds, and no time but the last by as many.

The window includes its boundary.  A cycle that fills its batch with rows of the
boundary moves nothing, and the next one reads the same rows (`held_poll`), so a
time that fills a batch holds the position for good.  Otherwise each cycle reads
all that is left or moves the position (`poll_progress`), and `rowsAhead` falls.
-/

namespace Finops

open Numerics Batch

def steadyPoll (tie : String → ℕ) : Poll := { tie := tie }

def sharing (table : SpendTable) (t : Instant) : List SpendLog :=
  table.rows.filter fun r => r.startTime = some t

def Complete (table : SpendTable) (db : Database) : Prop :=
  ∀ row ∈ table.rows, (db.warehouse.rows.filter fun q =>
    q.source = .llm ∧ q.dedupKey = row.requestId).length = 1

def Timed (table : SpendTable) : Prop := ∀ row ∈ table.rows, ∃ t, row.startTime = some t

section

variable (loads : JsonLoads) (lower : String → String) (num : Arith) (table : SpendTable)
  (batchSize : ℕ)

structure Drains : Prop where
  ingestible : ∀ row ∈ table.rows, Ingestible loads lower num row
  bound : table.rows ≠ [] →
    batchSize ≤ MAX_LIMIT ∧ min batchSize table.rows.length < MAX_QUERY_ARGS
  shared : ∀ t, (sharing table t).length ≤ batchSize
  unfilled : ∀ row ∈ table.rows, ∀ s t, row.startTime = some s → t < s →
    (sharing table t).length < batchSize

/-- Rows later than the position, and one more before the first cycle. -/
def rowsAhead (db : Database) : ℕ :=
  match position db with
  | none => table.rows.length + 1
  | some m => table.rows.countP fun r => r.startTime.any (m < ·)

end

variable {loads : JsonLoads} {lower : String → String} {num : Arith} {table : SpendTable}
  {batchSize : ℕ}

/-! ### Exactly once -/

theorem length_filter_eq_one_iff {db : Database} {row : SpendLog} :
    (db.warehouse.rows.filter fun q =>
      q.source = .llm ∧ q.dedupKey = row.requestId).length = 1 ↔ Ingested db row := by
  have hone : (db.warehouse.rows.filter fun q =>
      q.source = .llm ∧ q.dedupKey = row.requestId).length ≤ 1 := by
    have hnd : ((db.warehouse.rows.filter fun q =>
        q.source = .llm ∧ q.dedupKey = row.requestId).map fun q => q.uniqueKey).Nodup :=
      db.warehouse.unique.sublist (List.filter_sublist.map _)
    have hall : ∀ k ∈ (db.warehouse.rows.filter fun q =>
        q.source = .llm ∧ q.dedupKey = row.requestId).map fun q => q.uniqueKey,
        k ∈ [(CostSource.llm, row.requestId)] := by
      intro k hk
      obtain ⟨q, hq, rfl⟩ := List.mem_map.mp hk
      have hq' := (List.mem_filter.mp hq).2
      simp only [decide_eq_true_eq] at hq'
      rw [List.mem_singleton, CostRecord.uniqueKey, hq'.1, hq'.2]
    simpa using (hnd.subperm hall).length_le
  have hpos : ∀ n : ℕ, n ≤ 1 → (n = 1 ↔ 0 < n) := fun n hn => by omega
  rw [hpos _ hone, List.length_pos_iff_exists_mem]
  simp only [List.mem_filter, decide_eq_true_eq, Ingested, Collector.storedKeys, List.mem_map]
  constructor
  · rintro ⟨q, hq, hs, hk⟩; exact ⟨q, ⟨hq, hs⟩, hk⟩
  · rintro ⟨q, ⟨hq, hs⟩, hk⟩; exact ⟨q, hq, hs, hk⟩

theorem complete_iff {db : Database} :
    Complete table db ↔ ∀ row ∈ table.rows, Ingested db row :=
  forall₂_congr fun _ _ => length_filter_eq_one_iff

theorem complete_of_nil (h : table.rows = []) (db : Database) : Complete table db := by
  intro row hrow
  rw [h] at hrow
  exact absurd hrow List.not_mem_nil

/-! ### A time that holds the position -/

def HeldAt (t : Instant) (db : Database) : Prop := ∀ m, position db = some m → m ≤ t

theorem nodup_rows (table : SpendTable) : table.rows.Nodup := List.Nodup.of_map _ table.unique

theorem inWindow_of_sharing {db : Database} {t : Instant} (h : HeldAt t db) {row : SpendLog}
    (hrow : row ∈ sharing table t) : inWindow (position db) row = true := by
  have ht : row.startTime = some t := by simpa using (List.mem_filter.mp hrow).2
  exact inWindow_of_le ht h

/-- Where a time fills a batch, no cycle reads past it. -/
theorem startTime_le_of_held {db : Database} {poll : Poll} {t : Instant} (h : HeldAt t db)
    (hfull : batchSize ≤ (sharing table t).length) {row : SpendLog}
    (hrow : row ∈ pollRows table batchSize db poll) {s : Instant} (hs : row.startTime = some s) :
    s ≤ t := by
  by_contra hlt
  have hread : ∀ w ∈ sharing table t, w ∈ pollRows table batchSize db poll := by
    intro w hw
    obtain ⟨hwt, hwk⟩ := List.mem_filter.mp hw
    by_contra hn
    obtain ⟨s', hs', hle⟩ := startTime_le_of_notMem hrow hwt (inWindow_of_sharing h hw) hn
      (by simpa using hwk)
    rw [hs] at hs'
    cases hs'
    exact hlt hle
  have hnot : row ∉ sharing table t := by
    intro hm
    have ht : row.startTime = some t := by simpa using (List.mem_filter.mp hm).2
    rw [hs] at ht
    cases ht
    exact hlt le_rfl
  have hlen := length_le_of_subset_firsts (m := row :: sharing table t)
    (List.nodup_cons.mpr ⟨hnot, (nodup_rows table).filter _⟩)
    (List.cons_subset.mpr ⟨hrow, hread⟩)
  rw [List.length_cons] at hlen
  omega

theorem held_poll {p : Process} {poll : Poll} {t : Instant} (htimed : Timed table)
    (h : HeldAt t p.db) (hfull : batchSize ≤ (sharing table t).length) :
    HeldAt t (pollOnce loads lower num table batchSize p poll).db := by
  rcases pollOnce_cases loads lower num table batchSize poll p with ⟨_, hdb⟩ | ⟨_, _, hpos⟩
  · rw [hdb]; exact h
  · rcases hpos with ⟨_, hpos⟩ | ⟨newest, hnew, hpos, _⟩
    · intro m hm
      rw [hpos] at hm
      exact h m hm
    · intro m hm
      obtain ⟨s, hs⟩ := htimed newest (mem_pollRows hnew).1
      rw [hpos, hs] at hm
      cases hm
      exact startTime_le_of_held h hfull hnew hs

theorem not_ingested_after {I : Process → Prop} {G : Poll → Prop} {row : SpendLog}
    (hstep : ∀ p poll, I p → G poll → I (pollOnce loads lower num table batchSize p poll))
    (hread : ∀ p poll, I p → G poll → row ∉ pollRows table batchSize p.db poll)
    (hrow : row ∈ table.rows) {polls : List Poll} (hG : ∀ poll ∈ polls, G poll) {p : Process}
    (hI : I p) (hp : ¬ Ingested p.db row) :
    ¬ Ingested (Runs.after (pollOnce loads lower num table batchSize) p polls).db row := by
  refine (Runs.invariant_of_mem (I := fun p : Process => I p ∧ ¬ Ingested p.db row) ?_
    ⟨hI, hp⟩ hG).2
  rintro p poll ⟨hI, hp⟩ hpoll
  refine ⟨hstep p poll hI hpoll, fun hin => ?_⟩
  rcases pollOnce_cases loads lower num table batchSize poll p with ⟨_, hdb⟩ | ⟨_, hiff, _⟩
  · rw [hdb] at hin
    exact hp hin
  · rcases (hiff row).mp hin with h | h
    · exact hp h
    · obtain ⟨row', hrow', he⟩ := List.mem_map.mp h
      rw [eq_of_requestId_eq (mem_pollRows hrow').1 hrow he] at hrow'
      exact hread p poll hI hpoll hrow'

/-- **A time that fills a batch** keeps every later row out for good. -/
theorem later_not_ingested (htimed : Timed table) {t s : Instant}
    (hfull : batchSize ≤ (sharing table t).length) {row : SpendLog} (hrow : row ∈ table.rows)
    (hs : row.startTime = some s) (hlt : t < s) (polls : List Poll) :
    ¬ Ingested (Runs.after (pollOnce loads lower num table batchSize) .fresh polls).db row := by
  refine not_ingested_after (I := fun p => HeldAt t p.db) (G := fun _ => True)
    (fun p poll h _ => held_poll htimed h hfull) ?_ hrow (fun _ _ => trivial) ?_ ?_
  · intro p poll h _ hread
    exact absurd (startTime_le_of_held h hfull hread hs) (not_le.mpr hlt)
  · intro m hm
    cases hm
  · exact List.not_mem_nil

/-- The order that puts one row behind all that share its time. -/
def lastOf (row : SpendLog) : String → ℕ := fun id => if id = row.requestId then 1 else 0

/-- **A time that more than fills a batch** keeps one of its own rows out. -/
theorem last_not_ingested (htimed : Timed table) {t : Instant}
    (hfull : batchSize < (sharing table t).length) {row : SpendLog} (hrow : row ∈ sharing table t)
    {polls : List Poll} (hpolls : ∀ poll ∈ polls, poll.tie = lastOf row) :
    ¬ Ingested (Runs.after (pollOnce loads lower num table batchSize) .fresh polls).db row := by
  obtain ⟨hm, ht⟩ := List.mem_filter.mp hrow
  refine not_ingested_after (I := fun p => HeldAt t p.db) (G := fun poll => poll.tie = lastOf row)
    (fun p poll h _ => held_poll htimed h hfull.le) ?_ hm hpolls ?_ ?_
  · intro p poll h htie hread
    have hall : sharing table t ⊆ pollRows table batchSize p.db poll := by
      intro w hw
      obtain ⟨hwm, hwt⟩ := List.mem_filter.mp hw
      by_contra hn
      have hafter := rel_of_notMem_firsts hread
        (List.mem_filter.mpr ⟨hwm, inWindow_of_sharing h hw⟩) hn
      simp only [decide_eq_true_eq] at ht hwt
      simp only [comesBefore, ht, hwt] at hafter
      rcases hafter with hlt | ⟨_, hle⟩
      · exact absurd hlt (lt_irrefl _)
      · rw [htie, lastOf, lastOf, if_pos rfl] at hle
        have hid : w.requestId = row.requestId := by
          by_contra hne
          rw [if_neg hne] at hle
          omega
        exact hn (eq_of_requestId_eq hwm hm hid ▸ hread)
    have hlen := length_le_of_subset_firsts (m := sharing table t) ((nodup_rows table).filter _)
      hall
    omega
  · intro m hm
    cases hm
  · exact List.not_mem_nil

/-! ### A batch that is too long -/

theorem length_pollRows_le (db : Database) (poll : Poll) :
    (pollRows table batchSize db poll).length ≤ min batchSize table.rows.length := by
  rw [pollRows, fetchRows, length_firsts]
  exact min_le_min_left _ (List.length_filter_le _ _)

/-- The first batch can be bound when its cycle commits. -/
theorem bound_of_commits {poll : Poll}
    (h : Commits loads lower num table batchSize .empty poll) :
    batchSize ≤ MAX_LIMIT ∧ min batchSize table.rows.length < MAX_QUERY_ARGS := by
  obtain ⟨⟨_, hlimit⟩, _, _, hbound⟩ := (commits_iff sound_empty).mp h
  have hall : table.rows.filter (inWindow (position .empty)) = table.rows :=
    List.filter_eq_self.mpr fun _ _ => rfl
  rw [pollRows, fetchRows, length_firsts, hall] at hbound
  exact ⟨hlimit, hbound⟩

/-- **Where no first batch commits**, the warehouse stays empty. -/
theorem empty_after (hno : ∀ poll, ¬ Commits loads lower num table batchSize .empty poll)
    (polls : List Poll) :
    (Runs.after (pollOnce loads lower num table batchSize) .fresh polls).db = .empty := by
  refine Runs.invariant (I := fun p : Process => p.db = .empty) (fun p poll h => ?_) rfl
  rcases pollOnce_cases loads lower num table batchSize poll p with ⟨_, hdb⟩ | ⟨hc, _⟩
  · rw [hdb, h]
  · rw [h] at hc
    exact absurd hc (hno poll)

/-! ### Progress -/

theorem window_le_of_stuck {db : Database} {poll : Poll} {m : Instant}
    (hd : Drains loads lower num table batchSize) (htimed : Timed table)
    (hm : position db = some m)
    (hfull : (pollRows table batchSize db poll).length = batchSize)
    (hall : ∀ row ∈ pollRows table batchSize db poll, row.startTime = some m) :
    (table.rows.filter (inWindow (position db))).length ≤ batchSize := by
  have hsub : pollRows table batchSize db poll ⊆ sharing table m := fun row hrow =>
    List.mem_filter.mpr ⟨(mem_pollRows hrow).1, by simpa using hall row hrow⟩
  have hfilled := ((List.Nodup.of_map _ nodup_pollRows).subperm hsub).length_le
  rw [hfull] at hfilled
  have hwin : table.rows.filter (inWindow (position db)) ⊆ sharing table m := by
    intro row hrow
    obtain ⟨hrow, hw⟩ := List.mem_filter.mp hrow
    obtain ⟨s, hs⟩ := htimed row hrow
    have hle : m ≤ s := by simpa [inWindow, hm, hs] using hw
    rcases hle.eq_or_lt with rfl | hlt
    · exact List.mem_filter.mpr ⟨hrow, by simpa using hs⟩
    · exact absurd (hd.unfilled row hrow s m hs hlt) (not_lt.mpr hfilled)
  exact (((nodup_rows table).filter _).subperm hwin).length_le.trans (hd.shared m)

theorem rowsAhead_lt {db db' : Database} {row : SpendLog} {m' : Instant} (hrow : row ∈ table.rows)
    (ht : row.startTime = some m') (hm' : position db' = some m')
    (hm : ∀ m, position db = some m → m < m') : rowsAhead table db' < rowsAhead table db := by
  unfold rowsAhead
  rw [hm']
  cases h : position db with
  | none => exact Nat.lt_succ_of_le List.countP_le_length
  | some m =>
    refine countP_lt_countP ?_ hrow (by simpa [ht] using hm m h) (by simp [ht])
    intro r _ hr
    cases hs : r.startTime with
    | none => rw [hs] at hr; cases hr
    | some s =>
      rw [hs] at hr
      simp only [Option.any_some, decide_eq_true_eq] at hr ⊢
      exact (hm m h).trans hr

/-- **A cycle** reads all that is left or moves the position. -/
theorem poll_progress (htimed : Timed table) (hpos : 1 ≤ batchSize)
    (hd : Drains loads lower num table batchSize) {p : Process}
    (hsound : Sound loads lower num table p.db) (hb : NothingBehind table p.db)
    (tie : String → ℕ) :
    Complete table (pollOnce loads lower num table batchSize p (steadyPoll tie)).db ∨
      rowsAhead table (pollOnce loads lower num table batchSize p (steadyPoll tie)).db <
        rowsAhead table p.db := by
  by_cases hrows : table.rows = []
  · exact .inl (complete_of_nil hrows _)
  obtain ⟨hlimit, hbound⟩ := hd.bound hrows
  have hcommits : Commits loads lower num table batchSize p.db (steadyPoll tie) :=
    (commits_iff hsound).mpr ⟨⟨rfl, hlimit⟩, rfl,
      fun row hrow => hd.ingestible row (mem_pollRows hrow).1,
      (length_pollRows_le _ _).trans_lt hbound⟩
  rcases pollOnce_cases loads lower num table batchSize (steadyPoll tie) p with
    ⟨hno, _⟩ | ⟨_, hin, hnew⟩
  · exact absurd hcommits hno
  by_cases hfit : (table.rows.filter (inWindow (position p.db))).length ≤ batchSize
  · left
    rw [complete_iff]
    intro row hrow
    obtain ⟨t, ht⟩ := htimed row hrow
    rw [hin]
    exact (ingested_or_inWindow hb hrow ht).imp_right fun hw => List.mem_map_of_mem
      (mem_firsts_of_length_le hfit (List.mem_filter.mpr ⟨hrow, hw⟩))
  · right
    have hfull : (pollRows table batchSize p.db (steadyPoll tie)).length = batchSize := by
      rw [pollRows, fetchRows, length_firsts]
      omega
    rcases hnew with ⟨hnil, _⟩ | ⟨newest, hmem, hposn, hle⟩
    · rw [hnil, List.length_nil] at hfull
      omega
    obtain ⟨m', hm'⟩ := htimed newest (mem_pollRows hmem).1
    rw [hm'] at hposn hle
    refine rowsAhead_lt (mem_pollRows hmem).1 hm' hposn fun m hm => ?_
    by_contra hnlt
    refine hfit (window_le_of_stuck hd htimed hm hfull fun row hrow => ?_)
    obtain ⟨hrt, hw⟩ := mem_pollRows hrow
    obtain ⟨s, hs⟩ := htimed row hrt
    have hms : m ≤ s := by simpa [inWindow, hm, hs] using hw
    have hsm : s ≤ m' := by simpa [asUtc, hs] using hle row hrow
    rw [hs, le_antisymm (hsm.trans (not_lt.mp hnlt)) hms]

theorem drains_ingests (htimed : Timed table) (hpos : 1 ≤ batchSize)
    (hd : Drains loads lower num table batchSize) (ties : ℕ → String → ℕ) :
    ∃ N, Complete table (Runs.after (pollOnce loads lower num table batchSize) .fresh
      (Runs.initial (fun i => steadyPoll (ties i)) N)).db := by
  refine Runs.exists_of_decreasing
    (I := fun p : Process => Sound loads lower num table p.db ∧ NothingBehind table p.db)
    (G := fun poll => ∃ tie, poll = steadyPoll tie) (D := fun p => Complete table p.db)
    (μ := fun p => rowsAhead table p.db) (n := rowsAhead table Process.fresh.db) ?_ ?_ ?_ ?_ le_rfl
  · rintro p poll ⟨hs, hb⟩ _
    exact ⟨sound_step hs, nothingBehind_poll hb⟩
  · rintro p poll ⟨hs, hb⟩ ⟨tie, rfl⟩
    exact poll_progress htimed hpos hd hs hb tie
  · intro i; exact ⟨ties i, rfl⟩
  · exact ⟨sound_empty, fun row _ t m _ hm => by cases hm⟩

theorem along_commits (hing : ∀ row ∈ table.rows, Ingestible loads lower num row)
    (hlimit : batchSize ≤ MAX_LIMIT) (hbound : min batchSize table.rows.length < MAX_QUERY_ARGS)
    (ties : ℕ → String → ℕ) (N : ℕ) :
    Runs.Along (pollOnce loads lower num table batchSize)
      (fun p poll => Commits loads lower num table batchSize p.db poll) .fresh
      (Runs.initial (fun i => steadyPoll (ties i)) N) := by
  refine Runs.along_of_invariant (I := fun p : Process => Sound loads lower num table p.db)
    (G := fun poll => ∃ tie, poll = steadyPoll tie) (fun p poll hs _ => sound_step hs) ?_
    sound_empty ?_
  · rintro p poll hs ⟨tie, rfl⟩
    exact (commits_iff hs).mpr ⟨⟨rfl, hlimit⟩, rfl, fun row hrow => hing row (mem_pollRows hrow).1,
      (length_pollRows_le _ _).trans_lt hbound⟩
  · intro poll hpoll
    obtain ⟨i, rfl⟩ := Runs.mem_initial hpoll
    exact ⟨ties i, rfl⟩

theorem sound_after (polls : List Poll) : Sound loads lower num table
    (Runs.after (pollOnce loads lower num table batchSize) .fresh polls).db :=
  Runs.invariant (I := fun p : Process => Sound loads lower num table p.db)
    (fun _ _ hs => sound_step hs) sound_empty

/-- **Ingestion completes**, whatever order the database uses among rows of
equal time, exactly when the table drains. -/
theorem ingestion_completes_iff (htimed : Timed table) (hpos : 1 ≤ batchSize) :
    (∀ ties : ℕ → String → ℕ, ∃ N,
      Runs.Along (pollOnce loads lower num table batchSize)
        (fun p poll => Commits loads lower num table batchSize p.db poll) .fresh
        (Runs.initial (fun i => steadyPoll (ties i)) N) ∧
      Complete table (Runs.after (pollOnce loads lower num table batchSize) .fresh
        (Runs.initial (fun i => steadyPoll (ties i)) N)).db) ↔
      Drains loads lower num table batchSize := by
  constructor
  · intro h
    refine ⟨fun row hrow => ?_, ?_, fun t => ?_, fun row hrow s t hs hlt => ?_⟩
    · obtain ⟨N, _, hc⟩ := h fun _ _ => 0
      exact sound_after _ row hrow (complete_iff.mp hc row hrow)
    · intro hrows
      by_contra hunbound
      obtain ⟨N, _, hc⟩ := h fun _ _ => 0
      obtain ⟨row, hrow⟩ := List.exists_mem_of_ne_nil _ hrows
      have hin := complete_iff.mp hc row hrow
      rw [empty_after fun _ hcommits => hunbound (bound_of_commits hcommits)] at hin
      exact absurd hin List.not_mem_nil
    · by_contra hmore
      obtain ⟨row, hrow⟩ := List.exists_mem_of_length_pos
        (show 0 < (sharing table t).length by omega)
      obtain ⟨N, _, hc⟩ := h fun _ => lastOf row
      refine last_not_ingested htimed (not_le.mp hmore) hrow (fun poll hpoll => ?_)
        (complete_iff.mp hc row (List.mem_filter.mp hrow).1)
      obtain ⟨i, rfl⟩ := Runs.mem_initial hpoll
      rfl
    · by_contra hmore
      obtain ⟨N, _, hc⟩ := h fun _ _ => 0
      exact later_not_ingested htimed (not_lt.mp hmore) hrow hs hlt _
        (complete_iff.mp hc row hrow)
  · intro hd ties
    by_cases hrows : table.rows = []
    · exact ⟨0, trivial, complete_of_nil hrows _⟩
    obtain ⟨hlimit, hbound⟩ := hd.bound hrows
    obtain ⟨N, hN⟩ := drains_ingests htimed hpos hd ties
    exact ⟨N, along_commits hd.ingestible hlimit hbound ties N, hN⟩

/-! Two requests a moment apart. -/

def twoRows : SpendTable :=
  ⟨[{ requestId := "req-1", startTime := some 1 }, { requestId := "req-2", startTime := some 2 }],
    by decide⟩

theorem twoRows_timed : Timed twoRows := by
  intro row hrow
  rcases List.mem_cons.mp hrow with rfl | hrow
  · exact ⟨1, rfl⟩
  · rw [List.mem_singleton.mp hrow]
    exact ⟨2, rfl⟩

theorem ingestion_completes_twoRows :
    ∃ N, Complete twoRows (Runs.after (pollOnce plainLoads id .exact twoRows 2)
      .fresh (Runs.initial (fun _ => steadyPoll fun _ => 0) N)).db := by
  have hd : Drains plainLoads id .exact twoRows 2 := by
    refine ⟨fun row hrow => ?_, by decide, fun t => List.length_filter_le _ _,
      fun row _ s t _ _ => ?_⟩
    · rcases List.mem_cons.mp hrow with rfl | hrow
      · exact ⟨rfl, _, rfl, by decide +kernel⟩
      · rw [List.mem_singleton.mp hrow]
        exact ⟨rfl, _, rfl, by decide +kernel⟩
    · by_cases h : t = 1
      · subst h; decide
      · refine (List.length_filter_lt_length_iff_exists (l := twoRows.rows)).mpr
          ⟨_, List.mem_cons_self, ?_⟩
        simpa using fun h' => h h'.symm
  obtain ⟨N, _, hc⟩ := (ingestion_completes_iff twoRows_timed (by decide)).mpr hd fun _ _ => 0
  exact ⟨N, hc⟩

/-- Read one at a time, the second is never reached. -/
theorem twoRows_stall :
    Timed twoRows ∧ ∀ (ties : ℕ → String → ℕ) (N : ℕ),
      ¬ Complete twoRows (Runs.after (pollOnce plainLoads id .exact twoRows 1)
        .fresh (Runs.initial (fun i => steadyPoll (ties i)) N)).db := by
  refine ⟨twoRows_timed, fun ties N hc => ?_⟩
  have hfull : 1 ≤ (sharing twoRows 1).length := by decide
  have hsecond : { requestId := "req-2", startTime := some 2 } ∈ twoRows.rows :=
    List.mem_cons_of_mem _ List.mem_cons_self
  exact later_not_ingested twoRows_timed hfull hsecond rfl (by decide) _
    (complete_iff.mp hc _ hsecond)

end Finops
