import Finops.Collectors.Mocks

/-!
# Hours that complete while a collector runs

A cycle makes the hours since the position that are over, and the position is the newest
of them.  Where a first cycle backfills a day or more, the position is the hour before that
of the cycle, and after every later cycle that can cover its hours it is so again (`UpTo`):
all hours since the first cycle are made.

Where nothing is backfilled, the first cycle begins to read at its own hour, makes nothing,
and leaves no position, and so does every cycle after it (`blank_runOnce`).  So the hours
that go by are made where there is something to backfill, and else only where none goes by.
The key of a record names the hour and the team or index, so of two profiles with one name
one is stored, which does for both where they agree (`keepsUp_iff`).
-/

namespace Finops

open Numerics Calendar Block Runs

namespace MockCollector

variable {π : Type*} (c : MockCollector π)

/-- The cycle commits, and has no more hours to cover than a cycle makes. -/
structure Steady (p : Process) (tick : Tick) : Prop where
  commits : ∃ x, c.toCollector.attempt p.db (c.cycle p.db tick) = .ok x
  few : ∀ since, c.since p.db tick.now = .ok since →
    (hourlyBuckets since tick.now.instant).length ≤ MAX_BUCKETS_PER_CYCLE

theorem steady_iff {p : Process} {tick : Tick} : c.Steady p tick ↔
    (c.toCollector.attempt p.db (c.cycle p.db tick)).toOption.isSome = true ∧
      (c.since p.db tick.now).toOption.all (fun since =>
        (hourlyBuckets since tick.now.instant).length ≤ MAX_BUCKETS_PER_CYCLE) = true := by
  constructor
  · rintro ⟨⟨x, hx⟩, hfew⟩
    refine ⟨by rw [hx]; rfl, ?_⟩
    cases hs : c.since p.db tick.now with
    | error e => rfl
    | ok since => exact decide_eq_true (hfew since hs)
  · rintro ⟨hcommits, hfew⟩
    refine ⟨?_, fun since hs => ?_⟩
    · cases ha : c.toCollector.attempt p.db (c.cycle p.db tick) with
      | error e => rw [ha] at hcommits; cases hcommits
      | ok x => exact ⟨x, rfl⟩
    · rw [hs] at hfew
      exact of_decide_eq_true hfew

instance (p : Process) (tick : Tick) : Decidable (c.Steady p tick) :=
  decidable_of_iff _ (steady_iff c).symm

/-- Every whole hour from `start` to `stop` has the record of each profile. -/
def Recorded (db : Database) (start stop : ℤ) : Prop :=
  ∀ hour, HOUR ∣ hour → start ≤ hour → hour < stop → ∀ profile ∈ c.profiles,
    ∃ row ∈ db.warehouse.rows, c.RowOf (hour, profile) row

/-- After each cycle, the hours that went by since an earlier one are recorded. -/
def KeepsUp (num : Arith) (p : Process) (ticks : List Tick) : Prop :=
  ∀ before a between b later, ticks = before ++ a :: between ++ b :: later →
    c.Recorded (after (c.runOnce num) p (before ++ a :: between ++ [b])).db
      (floorHour a.now.instant) (floorHour b.now.instant)

/-- Profiles with one name build one record, for the hours that go by in the run. -/
def Agrees (ticks : List Tick) : Prop :=
  ∀ hour, HOUR ∣ hour → (∃ a ∈ ticks, floorHour a.now.instant ≤ hour) →
    (∃ b ∈ ticks, hour < floorHour b.now.instant) →
    ∀ profile ∈ c.profiles, ∀ twin ∈ c.profiles, c.ident twin = c.ident profile →
      (c.buildRecord twin hour).map CostRecord.stored =
        (c.buildRecord profile hour).map CostRecord.stored

/-- Every row is the record of a profile for a whole hour. -/
def Owned (db : Database) : Prop :=
  ∀ row ∈ db.warehouse.rows, ∃ x, WholeHour x.1 ∧ x.2 ∈ c.profiles ∧ c.RowOf x row

/-- An hour has, for each profile, the record of one with its name. -/
def Stores (db : Database) (hour : ℤ) : Prop :=
  ∀ profile ∈ c.profiles, ∃ twin ∈ c.profiles, c.ident twin = c.ident profile ∧
    ∃ row ∈ db.warehouse.rows, c.RowOf (hour, twin) row

/-- **The invariant**: the hours from `first` up to `last` are made, and the position is the
last of them. -/
structure UpTo (db : Database) (first last : ℤ) : Prop where
  owned : c.Owned db
  whole : WholeHour (last - HOUR)
  position : (c.toCollector.readWatermark db).lastOccurredAt = some (last - HOUR)
  stores : ∀ hour, HOUR ∣ hour → first ≤ hour → hour < last → c.Stores db hour

/-- Nothing is made yet. -/
structure Blank (db : Database) : Prop where
  rows : db.warehouse.rows = []
  position : (c.toCollector.readWatermark db).lastOccurredAt = none

variable {c}

/-! ### Hours -/

theorem floorHour_mono {t u : ℤ} (h : t ≤ u) : floorHour t ≤ floorHour u := by
  have ht := Int.mul_ediv_add_emod t HOUR
  have hu := Int.mul_ediv_add_emod u HOUR
  have hdiv := Int.mul_le_mul_of_nonneg_left (Int.ediv_le_ediv hour_pos h) hour_pos.le
  show t - t % HOUR ≤ u - u % HOUR
  linarith

theorem floorHour_sub_hours (t k : ℤ) :
    floorHour (t - k * HOUR) = floorHour t - k * HOUR := by
  show t - k * HOUR - (t - k * HOUR) % HOUR = t - t % HOUR - k * HOUR
  rw [Int.sub_mul_emod_self_right]
  ring

theorem length_hourlyBuckets (since till : ℤ) : (hourlyBuckets since till).length =
    ((floorHour till - floorHour since) / HOUR).toNat := by
  rw [hourlyBuckets_eq, length_block]

theorem add_hours_eq (since till : ℤ) (h : floorHour since ≤ floorHour till) :
    floorHour since + (((floorHour till - floorHour since) / HOUR).toNat : ℤ) * HOUR =
      floorHour till := by
  have hdvd : HOUR ∣ floorHour till - floorHour since :=
    Int.dvd_sub (dvd_floorHour till) (dvd_floorHour since)
  rw [Int.toNat_of_nonneg (Int.ediv_nonneg (sub_nonneg.mpr h) hour_pos.le),
    Int.ediv_mul_cancel hdvd, add_sub_cancel]

theorem runOnce_db_of_ok {num : Arith} {p : Process} {tick : Tick} {records : List CostRecord}
    {db' : Database} {k : ℕ}
    (ha : c.toCollector.attempt p.db (c.cycle p.db tick) = .ok (records, db', k)) :
    (c.runOnce num p tick).db = db' := by
  rw [MockCollector.runOnce, Collector.runOnce_db ha]

theorem Steady.collect {p : Process} {tick : Tick} (hs : c.Steady p tick) :
    ∃ records db' k since,
      c.toCollector.attempt p.db (c.cycle p.db tick) = .ok (records, db', k) ∧
      c.since p.db tick.now = .ok since ∧
      (0 ≤ since → ∀ t ∈ block HOUR (floorHour since)
        ((floorHour tick.now.instant - floorHour since) / HOUR).toNat, WholeHour t) ∧
      List.Forall₂ c.Builds (block HOUR (floorHour since)
        ((floorHour tick.now.instant - floorHour since) / HOUR).toNat ×ˢ c.profiles) records := by
  obtain ⟨⟨records, db', k⟩, ha⟩ := hs.commits
  obtain ⟨hcollect, _⟩ := Collector.attempt_eq_ok.mp ha
  obtain ⟨since, m, hsince, rfl, hwhole, hbuilds⟩ := collect_spec hcollect
  have hfew := hs.few since hsince
  rw [length_hourlyBuckets] at hfew
  rw [Nat.min_eq_right hfew] at hwhole hbuilds
  exact ⟨records, db', k, since, ha, hsince, hwhole, hbuilds⟩

/-! ### What a cycle stores -/

theorem RowOf.key {x : ℤ × π} {row : CostRow} (h : c.RowOf x row) :
    row.uniqueKey = (c.source, c.keyOf x) := by
  obtain ⟨record, hb, hrow⟩ := h
  obtain ⟨hsource, _, hkey, _⟩ := c.built hb
  rw [hrow]
  exact Prod.ext hsource hkey

theorem rows_attempt {db db' : Database} {cycle : Cycle} {records : List CostRecord} {k : ℕ}
    (ha : c.toCollector.attempt db cycle = .ok (records, db', k)) :
    db'.warehouse.rows = db.warehouse.rows ++ Session.numbered db.warehouse.nextId
      (c.toCollector.dropDuplicates db.warehouse.rows records) := by
  obtain ⟨_, hpersist⟩ := Collector.attempt_eq_ok.mp ha
  have hsession := Session.toSession_of_flush (Collector.persist_eq_ok.mp hpersist).2.2.1
  rw [hsession, Session.rows_addAll]

theorem Stores.attempt {db db' : Database} {cycle : Cycle} {records : List CostRecord} {k : ℕ}
    {hour : ℤ} (h : c.Stores db hour)
    (ha : c.toCollector.attempt db cycle = .ok (records, db', k)) : c.Stores db' hour := by
  intro profile hprofile
  obtain ⟨twin, htwin, hident, row, hrow, hof⟩ := h profile hprofile
  exact ⟨twin, htwin, hident, row, by rw [rows_attempt ha]; exact List.mem_append_left _ hrow, hof⟩

section Batch

variable {db db' : Database} {cycle : Cycle} {records : List CostRecord} {start : ℤ} {m k : ℕ}
  (hwhole : ∀ t ∈ block HOUR start m, WholeHour t)
  (hbuilds : List.Forall₂ c.Builds (block HOUR start m ×ˢ c.profiles) records)
  (ha : c.toCollector.attempt db cycle = .ok (records, db', k))

include hwhole hbuilds ha

theorem Owned.attempt (h : c.Owned db) : c.Owned db' := by
  intro row hrow
  rw [rows_attempt ha, List.mem_append] at hrow
  rcases hrow with hrow | hrow
  · exact h row hrow
  · obtain ⟨record, hrecord, hstored⟩ := Session.mem_numbered hrow
    rw [Collector.dropDuplicates_eq] at hrecord
    obtain ⟨x, hx, hb⟩ :=
      Batch.exists_left_of_forall₂ hbuilds record (KeepFirst.keepFirst_sublist.subset hrecord)
    obtain ⟨hhour, hprofile⟩ := List.mem_product.mp hx
    exact ⟨x, hwhole _ hhour, hprofile, record, hb, hstored⟩

/-- **The hours of a batch** are stored, by what it adds or from before. -/
theorem stores_of_builds (h : c.Owned db) {hour : ℤ} (hhour : hour ∈ block HOUR start m) :
    c.Stores db' hour := by
  intro profile hprofile
  obtain ⟨record, hrecord, hb⟩ := Batch.exists_right_of_forall₂ hbuilds (hour, profile)
    (List.mem_product.mpr ⟨hhour, hprofile⟩)
  have hstored := (Collector.mem_storedKeys_attempt (source_of_builds hbuilds) ha).mpr
    (.inr (List.mem_map_of_mem hrecord))
  obtain ⟨row, hrow, hkey⟩ := List.mem_map.mp hstored
  have hmem := List.mem_of_mem_filter hrow
  obtain ⟨x, hx, hown, hof⟩ := h.attempt hwhole hbuilds ha row hmem
  have hkeys : c.keyOf x = c.keyOf (hour, profile) := by
    rw [← (Prod.mk.inj hof.key).2, hkey, (c.built hb).2.2.1]
    rfl
  obtain ⟨heq, hident⟩ := keyOf_injective hx (hwhole hour hhour) hkeys
  obtain ⟨hour', twin⟩ := x
  obtain rfl : hour' = hour := heq
  exact ⟨twin, hown, hident, row, hmem, hof⟩

theorem position_attempt (hprofiles : c.profiles ≠ []) {i : ℕ} (hm : m = i + 1) :
    (c.toCollector.readWatermark db').lastOccurredAt = some (start + i * HOUR) := by
  subst hm
  have hnext : c.toCollector.nextWatermark records =
      some ⟨some (start + i * HOUR), some (isoformat (start + i * HOUR))⟩ := by
    show newestHour records = _
    rw [newestHour, newest_of_builds hprofiles hbuilds]
    rfl
  rw [Collector.readWatermark_attempt ha, hnext]
  rfl

end Batch

/-! ### The first cycle, and the next -/

theorem backfillStart_eq_ok {now days since : ℤ} (h : backfillStart now days = .ok since) :
    since = now - days * 24 * HOUR := by
  unfold backfillStart at h
  dsimp only at h
  split at h
  · exact (Except.ok.inj h).symm
  · cases h

theorem Blank.since {db : Database} (h : c.Blank db) (now : Reading) :
    c.since db now = backfillStart now.instant c.backfillDays := by
  rw [MockCollector.since, h.position]

/-- **The first cycle** makes the days that it backfills. -/
theorem upTo_first (hprofiles : c.profiles ≠ []) (hbackfill : 0 < c.backfillDays) (num : Arith)
    {p : Process} {tick : Tick} (h : c.Blank p.db) (hs : c.Steady p tick) :
    c.UpTo (c.runOnce num p tick).db (floorHour tick.now.instant)
      (floorHour tick.now.instant) := by
  obtain ⟨records, db', k, since, ha, hsince, hwhole, hbuilds⟩ := hs.collect
  rw [h.since] at hsince
  have hwhole := hwhole (backfillStart_nonneg hsince)
  have hfloor : floorHour since = floorHour tick.now.instant - c.backfillDays * 24 * HOUR := by
    rw [backfillStart_eq_ok hsince, floorHour_sub_hours]
  have hpos := hour_pos
  have hday : HOUR ≤ c.backfillDays * 24 * HOUR :=
    le_mul_of_one_le_left hpos.le (by omega)
  have hend := add_hours_eq since tick.now.instant (by linarith)
  have howned : c.Owned p.db := fun row hrow => absurd (h.rows ▸ hrow) List.not_mem_nil
  rw [runOnce_db_of_ok ha]
  generalize ((floorHour tick.now.instant - floorHour since) / HOUR).toNat = m at *
  cases m with
  | zero =>
    rw [Nat.cast_zero, zero_mul] at hend
    linarith
  | succ i =>
    have hlast : floorHour since + i * HOUR = floorHour tick.now.instant - HOUR := by
      rw [← hend]
      push_cast
      ring
    refine ⟨howned.attempt hwhole hbuilds ha, ?_, ?_, fun hour _ hle hlt => ?_⟩
    · exact hlast ▸ hwhole _ (mem_block_succ HOUR _ i)
    · exact hlast ▸ position_attempt hwhole hbuilds ha hprofiles rfl
    · exact absurd hlt (not_lt.mpr hle)

/-- **Every later cycle** goes on to the hour of its own. -/
theorem upTo_next (hprofiles : c.profiles ≠ []) (num : Arith) {p : Process} {tick : Tick}
    {first last : ℤ} (h : c.UpTo p.db first last) (hs : c.Steady p tick)
    (hle : last ≤ floorHour tick.now.instant) :
    c.UpTo (c.runOnce num p tick).db first (floorHour tick.now.instant) := by
  obtain ⟨records, db', k, since, ha, hsince, hwhole, hbuilds⟩ := hs.collect
  rw [MockCollector.since, h.position] at hsince
  obtain rfl := Except.ok.inj hsince
  have hwhole := hwhole h.whole.nonneg
  have hfloor := floorHour_of_dvd h.whole.whole
  have hpos := hour_pos
  have hend := add_hours_eq (last - HOUR) tick.now.instant (by linarith)
  rw [hfloor] at hend hwhole hbuilds
  rw [runOnce_db_of_ok ha]
  generalize ((floorHour tick.now.instant - (last - HOUR)) / HOUR).toNat = m at *
  cases m with
  | zero =>
    rw [Nat.cast_zero, zero_mul] at hend
    linarith
  | succ i =>
    have hlast : last - HOUR + i * HOUR = floorHour tick.now.instant - HOUR := by
      rw [← hend]
      push_cast
      ring
    refine ⟨h.owned.attempt hwhole hbuilds ha, ?_, ?_, fun hour hdvd hfirst hlt => ?_⟩
    · exact hlast ▸ hwhole _ (mem_block_succ HOUR _ i)
    · exact hlast ▸ position_attempt hwhole hbuilds ha hprofiles rfl
    · rcases lt_or_ge hour last with hold | hnew
      · exact (h.stores hour hdvd hfirst hold).attempt ha
      · refine stores_of_builds hwhole hbuilds ha h.owned ((mem_block_iff hpos).mpr ⟨?_, ?_, ?_⟩)
        · exact Int.dvd_sub hdvd h.whole.whole
        · linarith
        · rw [hend]
          exact hlt

theorem blank_runOnce (hbackfill : c.backfillDays = 0) (num : Arith) {p : Process} {tick : Tick}
    (h : c.Blank p.db) (hs : c.Steady p tick) : c.Blank (c.runOnce num p tick).db := by
  obtain ⟨records, db', k, since, ha, hsince, _, hbuilds⟩ := hs.collect
  rw [h.since, hbackfill] at hsince
  have hnow : since = tick.now.instant := by
    rw [backfillStart_eq_ok hsince, zero_mul, zero_mul, sub_zero]
  rw [hnow, sub_self, Int.zero_ediv, Int.toNat_zero, block_zero, List.nil_product] at hbuilds
  obtain rfl := List.forall₂_nil_left_iff.mp hbuilds
  rw [runOnce_db_of_ok ha]
  refine ⟨?_, ?_⟩
  · rw [rows_attempt ha, h.rows, Collector.dropDuplicates_eq]
    rfl
  · rw [Collector.readWatermark_attempt ha]
    exact h.position

/-! ### Steady runs -/

theorem upTo_after (hprofiles : c.profiles ≠ []) (num : Arith) (b : Tick) :
    ∀ (between : List Tick) {p : Process} {first last : ℤ},
    c.UpTo p.db first last → Along (c.runOnce num) c.Steady p (between ++ [b]) →
      (∀ e ∈ between ++ [b], last ≤ floorHour e.now.instant) →
      (between ++ [b]).Pairwise (fun a b => a.now.instant ≤ b.now.instant) →
        c.UpTo (after (c.runOnce num) p (between ++ [b])).db first (floorHour b.now.instant) := by
  intro between
  induction between with
  | nil =>
    intro p first last h hrun hlast _
    exact upTo_next hprofiles num h hrun.1 (hlast b List.mem_cons_self)
  | cons e between ih =>
    intro p first last h hrun hlast hclock
    rw [List.cons_append] at hrun hlast hclock ⊢
    obtain ⟨hlater, hclock⟩ := List.pairwise_cons.mp hclock
    exact ih (upTo_next hprofiles num h hrun.1 (hlast e List.mem_cons_self)) hrun.2
      (fun x hx => floorHour_mono (hlater x hx)) hclock

theorem exists_split_of_lt {ticks : List Tick}
    (hclock : ticks.Pairwise fun a b => a.now.instant ≤ b.now.instant) {a b : Tick}
    (ha : a ∈ ticks) (hb : b ∈ ticks)
    (hlt : floorHour a.now.instant < floorHour b.now.instant) :
    ∃ before between later, ticks = before ++ a :: between ++ b :: later := by
  obtain ⟨before, rest, rfl⟩ := List.append_of_mem ha
  rcases List.mem_append.mp hb with hb | hb
  · have hback := (List.pairwise_append.mp hclock).2.2 b hb a List.mem_cons_self
    exact absurd hlt (not_lt.mpr (floorHour_mono hback))
  · rcases List.mem_cons.mp hb with rfl | hb
    · exact absurd hlt (lt_irrefl _)
    · obtain ⟨between, later, rfl⟩ := List.append_of_mem hb
      exact ⟨before, between, later, by simp⟩

theorem Stores.rowOf {db : Database} {hour : ℤ} (h : c.Stores db hour)
    (hagree : ∀ profile ∈ c.profiles, ∀ twin ∈ c.profiles, c.ident twin = c.ident profile →
      (c.buildRecord twin hour).map CostRecord.stored =
        (c.buildRecord profile hour).map CostRecord.stored) {profile : π}
    (hprofile : profile ∈ c.profiles) :
    ∃ row ∈ db.warehouse.rows, c.RowOf (hour, profile) row := by
  obtain ⟨twin, htwin, hident, row, hrow, record, hb, hstored⟩ := h profile hprofile
  have hsame := hagree profile hprofile twin htwin hident
  have hb : c.buildRecord twin hour = .ok record := hb
  rw [hb] at hsame
  cases hp : c.buildRecord profile hour with
  | error e =>
    rw [hp] at hsame
    cases hsame
  | ok own =>
    rw [hp] at hsame
    exact ⟨row, hrow, own, hp, hstored.trans (Except.ok.inj hsame)⟩

theorem stored_eq_of_rowOf {db : Database} {hour : ℤ} {profile twin : π}
    (hident : c.ident twin = c.ident profile)
    (h : ∃ row ∈ db.warehouse.rows, c.RowOf (hour, profile) row)
    (h' : ∃ row ∈ db.warehouse.rows, c.RowOf (hour, twin) row) :
    (c.buildRecord twin hour).map CostRecord.stored =
      (c.buildRecord profile hour).map CostRecord.stored := by
  obtain ⟨row, hrow, hof⟩ := h
  obtain ⟨row', hrow', hof'⟩ := h'
  have hkeys : row'.uniqueKey = row.uniqueKey := by
    rw [hof.key, hof'.key, keyOf, keyOf, hident]
  obtain rfl := List.inj_on_of_nodup_map db.warehouse.unique hrow' hrow hkeys
  obtain ⟨record, hb, hstored⟩ := hof
  obtain ⟨record', hb', hstored'⟩ := hof'
  have hb : c.buildRecord profile hour = .ok record := hb
  have hb' : c.buildRecord twin hour = .ok record' := hb'
  rw [hb, hb']
  exact congrArg Except.ok (hstored'.symm.trans hstored)

theorem agrees_of_nodup (hident : (c.profiles.map c.ident).Nodup) (ticks : List Tick) :
    c.Agrees ticks := by
  intro hour _ _ _ profile hprofile twin htwin he
  rw [List.inj_on_of_nodup_map hident htwin hprofile he]

theorem blank_empty : c.Blank Database.empty := ⟨rfl, rfl⟩

section

variable (hprofiles : c.profiles ≠ []) {num : Arith} {metrics : Metrics} {ticks : List Tick}
  (hrun : Along (c.runOnce num) c.Steady ⟨Database.empty, metrics⟩ ticks)
  (hclock : ticks.Pairwise fun a b => a.now.instant ≤ b.now.instant)

include hprofiles hrun hclock

theorem keepsUp_of_backfill (hpos : 0 < c.backfillDays) (hagree : c.Agrees ticks) :
    c.KeepsUp num ⟨Database.empty, metrics⟩ ticks := by
  rintro before a between b later rfl
  have hagree : ∀ hour, HOUR ∣ hour → floorHour a.now.instant ≤ hour →
      hour < floorHour b.now.instant → ∀ profile ∈ c.profiles, ∀ twin ∈ c.profiles,
        c.ident twin = c.ident profile → (c.buildRecord twin hour).map CostRecord.stored =
          (c.buildRecord profile hour).map CostRecord.stored :=
    fun hour hdvd hle hlt => hagree hour hdvd ⟨a, by simp, hle⟩ ⟨b, by simp, hlt⟩
  rw [List.append_cons _ b later] at hrun hclock
  have hsteady := (along_append.mp hrun).1
  have hsorted := (List.pairwise_append.mp hclock).1
  obtain ⟨f, rest, hfirst, hle⟩ : ∃ f rest, before ++ a :: between = f :: rest ∧
      floorHour f.now.instant ≤ floorHour a.now.instant := by
    cases before with
    | nil => exact ⟨a, between, rfl, le_refl _⟩
    | cons f before =>
      refine ⟨f, before ++ a :: between, rfl, floorHour_mono ?_⟩
      exact (List.pairwise_cons.mp hsorted).1 a (by simp)
  have hlist : before ++ a :: between ++ [b] = f :: (rest ++ [b]) := by
    rw [hfirst, List.cons_append]
  rw [hlist] at hsteady hsorted ⊢
  obtain ⟨hlater, hsorted⟩ := List.pairwise_cons.mp hsorted
  have hbegin := upTo_first hprofiles hpos num blank_empty hsteady.1
  have hall := upTo_after hprofiles num b rest hbegin hsteady.2
    (fun e he => floorHour_mono (hlater e he)) hsorted
  intro hour hdvd hfrom hto profile hprofile
  exact (hall.stores hour hdvd (hle.trans hfrom) hto).rowOf (hagree hour hdvd hfrom hto) hprofile

theorem sameHour_of_keepsUp (hzero : c.backfillDays = 0)
    (h : c.KeepsUp num ⟨Database.empty, metrics⟩ ticks) :
    ∀ a ∈ ticks, ∀ b ∈ ticks, floorHour a.now.instant = floorHour b.now.instant := by
  have hle : ∀ a ∈ ticks, ∀ b ∈ ticks, ¬floorHour a.now.instant < floorHour b.now.instant := by
    intro a ha b hb hlt
    obtain ⟨before, between, later, rfl⟩ := exists_split_of_lt hclock ha hb hlt
    obtain ⟨profile, hprofile⟩ := List.exists_mem_of_ne_nil c.profiles hprofiles
    obtain ⟨row, hrow, _⟩ := h before a between b later rfl _ (dvd_floorHour _) (le_refl _) hlt
      profile hprofile
    rw [List.append_cons _ b later] at hrun
    have hblank : c.Blank (after (c.runOnce num) ⟨Database.empty, metrics⟩
        (before ++ a :: between ++ [b])).db :=
      invariant_of_along (I := fun p : Process => c.Blank p.db)
        (fun _ _ hp hs => blank_runOnce hzero num hp hs) blank_empty (along_append.mp hrun).1
    rw [hblank.rows] at hrow
    exact List.not_mem_nil hrow
  intro a ha b hb
  exact le_antisymm (not_lt.mp (hle b hb a ha)) (not_lt.mp (hle a ha b hb))

omit hprofiles hrun in
/-- Profiles with one name cannot both have their records unless these are the same. -/
theorem agrees_of_keepsUp (h : c.KeepsUp num ⟨Database.empty, metrics⟩ ticks) :
    c.Agrees ticks := by
  rintro hour hdvd ⟨a, ha, hle⟩ ⟨b, hb, hlt⟩ profile hprofile twin htwin hident
  obtain ⟨before, between, later, rfl⟩ := exists_split_of_lt hclock ha hb (hle.trans_lt hlt)
  have hrecorded := h before a between b later rfl hour hdvd hle hlt
  exact stored_eq_of_rowOf hident (hrecorded profile hprofile) (hrecorded twin htwin)

/-- **Where the hours that go by are recorded.**  In a steady run that backfills a day or
more, and in one within an hour, as long as profiles with one name agree. -/
theorem keepsUp_iff (hbackfill : 0 ≤ c.backfillDays) :
    c.KeepsUp num ⟨Database.empty, metrics⟩ ticks ↔
      (0 < c.backfillDays ∨
        ∀ a ∈ ticks, ∀ b ∈ ticks, floorHour a.now.instant = floorHour b.now.instant) ∧
      c.Agrees ticks := by
  constructor
  · intro h
    refine ⟨?_, agrees_of_keepsUp hclock h⟩
    rcases hbackfill.eq_or_lt with hzero | hpos
    · exact .inr (sameHour_of_keepsUp hprofiles hrun hclock hzero.symm h)
    · exact .inl hpos
  · rintro ⟨hpos | hsame, hagree⟩
    · exact keepsUp_of_backfill hprofiles hrun hclock hpos hagree
    · rintro before a between b later rfl hour _ hle hlt
      rw [hsame a (by simp) b (by simp)] at hle
      exact absurd hlt (not_lt.mpr hle)

end

end MockCollector

/-! ### Both collectors -/

/-- **Hours that complete while a collector runs are recorded**, in steady runs of either
collector, exactly where a day or more is backfilled or all readings are of one hour, and
profiles of one team, or of one index, build the same records. -/
theorem hours_recorded_iff (sim : Simulator) {backfillDays : ℤ} (hbackfill : 0 ≤ backfillDays)
    (metrics : Metrics) {ticks : List Tick}
    (hclock : ticks.Pairwise fun a b => a.now.instant ≤ b.now.instant) :
    (∀ profiles : List ComputeProfile, profiles ≠ [] →
      let c := MockComputeCollector sim backfillDays profiles
      Along (c.runOnce sim.num) c.Steady ⟨Database.empty, metrics⟩ ticks →
      (c.KeepsUp sim.num ⟨Database.empty, metrics⟩ ticks ↔
        (0 < backfillDays ∨
          ∀ a ∈ ticks, ∀ b ∈ ticks, floorHour a.now.instant = floorHour b.now.instant) ∧
        c.Agrees ticks)) ∧
    ∀ profiles : List IndexProfile, profiles ≠ [] →
      let c := MockVectorDBCollector sim backfillDays profiles
      Along (c.runOnce sim.num) c.Steady ⟨Database.empty, metrics⟩ ticks →
      (c.KeepsUp sim.num ⟨Database.empty, metrics⟩ ticks ↔
        (0 < backfillDays ∨
          ∀ a ∈ ticks, ∀ b ∈ ticks, floorHour a.now.instant = floorHour b.now.instant) ∧
        c.Agrees ticks) :=
  ⟨fun _ hprofiles hrun => MockCollector.keepsUp_iff hprofiles hrun hclock hbackfill,
    fun _ hprofiles hrun => MockCollector.keepsUp_iff hprofiles hrun hclock hbackfill⟩

/-! Two cycles, at 12:33 and at 14:08, with a day to backfill and with none, and two
within an hour. -/

def twoCycles : List Tick := [{ now := atNoon }, { now := afternoon }]

def oneHour : List Tick := [{ now := atNoon }, { now := atNoon }]

def exactSimulator : Simulator := ⟨.exact, fun _ _ => 1 / 2, fun _ => "1000.0"⟩

theorem hours_recorded_twoCycles :
    (MockComputeCollector exactSimulator 1 ((COMPUTE_PROFILES .exact).take 1)).KeepsUp
      exactSimulator.num ⟨Database.empty, {}⟩ twoCycles ∧
    (MockVectorDBCollector exactSimulator 0 INDEX_PROFILES).KeepsUp exactSimulator.num
      ⟨Database.empty, {}⟩ oneHour := by
  have hclock : twoCycles.Pairwise fun a b => a.now.instant ≤ b.now.instant := by decide
  have hclock' : oneHour.Pairwise fun a b => a.now.instant ≤ b.now.instant := by decide
  obtain ⟨hcompute, _⟩ :=
    hours_recorded_iff exactSimulator (show (0 : ℤ) ≤ 1 by decide) {} hclock
  obtain ⟨_, hvectordb⟩ := hours_recorded_iff exactSimulator (le_refl (0 : ℤ)) {} hclock'
  exact ⟨(hcompute _ (by decide) (by decide +kernel)).mpr
      ⟨.inl one_pos, MockCollector.agrees_of_nodup (by decide) _⟩,
    (hvectordb _ (by decide) (by decide +kernel)).mpr
      ⟨.inr (by decide), MockCollector.agrees_of_nodup (by decide) _⟩⟩

/-- Without backfill, the hours from noon to two o'clock are lost. -/
theorem hours_lost_without_backfill :
    let c := MockComputeCollector plainSimulator 0 (COMPUTE_PROFILES .cpython)
    Along (c.runOnce plainSimulator.num) c.Steady ⟨Database.empty, {}⟩ twoCycles ∧
      twoCycles.Pairwise (fun a b => a.now.instant ≤ b.now.instant) ∧
      ¬c.KeepsUp plainSimulator.num ⟨Database.empty, {}⟩ twoCycles := by
  intro c
  refine ⟨by decide +kernel, by decide, fun h => ?_⟩
  have hempty : (after (c.runOnce plainSimulator.num) ⟨Database.empty, {}⟩
      twoCycles).db.warehouse.rows.length = 0 := by decide +kernel
  obtain ⟨row, hrow, _⟩ := h [] _ [] _ [] rfl (floorHour atNoon.instant) (dvd_floorHour _)
    (le_refl _) (by decide) _ List.mem_cons_self
  have hmem : row ∈ (after (c.runOnce plainSimulator.num) ⟨Database.empty, {}⟩
      twoCycles).db.warehouse.rows := hrow
  rw [List.length_eq_zero_iff.mp hempty] at hmem
  exact List.not_mem_nil hmem

end Finops
