import Mathlib.Data.List.ProdSigma
import Finops.Base.Batch
import Finops.Base.Run
import Finops.Collectors.Base
import Finops.Demo.Simulation

/-!
# What the mock collectors share

A `MockCollector` makes a record of each profile for each whole hour, from its
position on, or from `backfill_days` before now where it has none.  A cycle makes at
most `MAX_BUCKETS_PER_CYCLE` hours.  The position is the newest hour made, and the
next cycle begins with that hour again, so its records are dropped by their keys.

`Holds` is what is so after every cycle: the table is the records of a block of hours
in order, the position is the last hour of it.  What a cycle reads continues the block,
its last hour first (`continues_of_collect`), so a cycle that commits makes the block
longer at its end (`holds_attempt`).  `NoGaps` is what follows for a reader of the
table (`Holds.covered`).
-/

namespace Finops

open Numerics Calendar Block Text KeepFirst Batch

def MAX_BUCKETS_PER_CYCLE : ℕ := 24 * 30

structure Reading where
  instant : ℤ
  nonneg : 0 ≤ instant
  lt_end : instant < endOfTime

def newestHour (records : List CostRecord) : Option Watermark :=
  (records.map CostRecord.occurredAt).max?.map fun newest => ⟨some newest, some (isoformat newest)⟩

/-- A collector of simulated spend.  The law is what a record says about where it
comes from: `ident` names a profile, in the key of the record, and `owner` finds that
name in the stored record. -/
structure MockCollector (π : Type*) where
  name : String
  source : CostSource
  keyPrefix : String
  ident : π → String
  owner : CostRecord → Option String
  backfillDays : ℤ
  profiles : List π
  buildRecord : π → Instant → Except PyError CostRecord
  built : ∀ {profile bucket record}, buildRecord profile bucket = .ok record →
    record.source = source ∧ record.occurredAt = bucket ∧
    record.dedupKey = keyPrefix ++ ident profile ++ ":" ++ isoformat bucket ∧
    owner record.stored = some (ident profile)

/-- What the environment decides about one cycle.  `fault` is an error raised
anywhere before the commit. -/
structure Tick where
  now : Reading
  fault : Option PyError := none
  runAt : Instant := 0
  observedAt : Instant := 0

/-- `now - timedelta(days=backfill_days)`. -/
def backfillStart (now : ℤ) (backfillDays : ℤ) : Except PyError ℤ :=
  let since := now - backfillDays * 24 * HOUR
  if |backfillDays| ≤ 999999999 ∧ 0 ≤ since ∧ since < endOfTime then .ok since
  else .error .overflowError

namespace MockCollector

variable {π : Type*} (c : MockCollector π)

def toCollector : Collector where
  name := c.name
  source := c.source
  nextWatermark := newestHour

def since (db : Database) (now : Reading) : Except PyError ℤ :=
  match (c.toCollector.readWatermark db).lastOccurredAt with
  | some t => .ok t
  | none => backfillStart now.instant c.backfillDays

/-- Emit one record per profile per completed hour since the watermark. -/
def collect (db : Database) (now : Reading) : Except PyError (List CostRecord) := do
  let since ← c.since db now
  let buckets := (hourlyBuckets since now.instant).take MAX_BUCKETS_PER_CYCLE
  (buckets ×ˢ c.profiles).mapM fun x => c.buildRecord x.2 x.1

def cycle (db : Database) (tick : Tick) : Cycle where
  collected := c.collect db tick.now
  fault := tick.fault
  runAt := tick.runAt
  observedAt := tick.observedAt

def runOnce (num : Arith) (p : Process) (tick : Tick) : Process :=
  (c.toCollector.runOnce num p (c.cycle p.db tick)).1

/-! ### What is in the table -/

/-- The hours that have a record are `hours`, whole hours, with one record of each
profile, the one that the profile builds; the position is the last of them. -/
structure Covered (db : Database) (hours : List ℤ) : Prop where
  whole : ∀ t ∈ hours, WholeHour t
  recorded : ∀ t, (∃ row ∈ db.warehouse.rows, row.occurredAt = t) ↔ t ∈ hours
  once : ∀ profile ∈ c.profiles, ∀ t ∈ hours, ∃ row record,
    (db.warehouse.rows.filter fun r =>
      c.owner r.toCostRecord = some (c.ident profile) ∧ r.occurredAt = t) = [row] ∧
    c.buildRecord profile t = .ok record ∧ row.toCostRecord = record.stored
  position : (c.toCollector.readWatermark db).lastOccurredAt = hours.getLast?

/-- The hours that have a record are a block without gaps, which the position is the
end of. -/
def NoGaps (db : Database) : Prop := ∃ start n, c.Covered db (block HOUR start n)

def keyOf (x : ℤ × π) : String := c.keyPrefix ++ c.ident x.2 ++ ":" ++ isoformat x.1

def Builds (x : ℤ × π) (record : CostRecord) : Prop := c.buildRecord x.2 x.1 = .ok record

/-- **The invariant**: the table is the records of a block of hours, in order. -/
structure Holds (db : Database) (start : ℤ) (n : ℕ) : Prop where
  whole : ∀ t ∈ block HOUR start n, WholeHour t
  rows : ∃ records, List.Forall₂ c.Builds (block HOUR start n ×ˢ c.profiles) records ∧
    db.warehouse.toSession = Warehouse.empty.addAll records
  position : (c.toCollector.readWatermark db).lastOccurredAt = (block HOUR start n).getLast?
  idle : c.profiles = [] → n = 0

/-- A batch that makes some hours of a block again, and then the `j` hours after it. -/
structure Continues (start : ℤ) (n j : ℕ) (old fresh : List CostRecord) : Prop where
  profiles_ne : c.profiles ≠ []
  whole : ∀ t ∈ block HOUR start (n + j), WholeHour t
  again : ∃ pairs, pairs ⊆ block HOUR start n ×ˢ c.profiles ∧ List.Forall₂ c.Builds pairs old
  next : List.Forall₂ c.Builds (block HOUR (start + n * HOUR) j ×ˢ c.profiles) fresh
  newest : ∃ last, ((old ++ fresh).map CostRecord.occurredAt).max? = some last ∧
    (block HOUR start (n + j)).getLast? = some last

variable {c}

/-! ### Keys -/

theorem keyOf_injective {x y : ℤ × π} (hx : WholeHour x.1) (hy : WholeHour y.1)
    (h : c.keyOf x = c.keyOf y) : x.1 = y.1 ∧ c.ident x.2 = c.ident y.2 := by
  have hlen : (isoformat x.1).length = (isoformat y.1).length := by
    rw [length_isoformat hx, length_isoformat hy]
  obtain ⟨h, hiso⟩ := append_injective (.inr hlen) h
  obtain ⟨h, _⟩ := append_injective (.inr rfl) h
  obtain ⟨_, hident⟩ := append_injective (.inl rfl) h
  exact ⟨isoformat_injective hx hy hiso, hident⟩

theorem map_dedupKey {pairs : List (ℤ × π)} {records : List CostRecord}
    (h : List.Forall₂ c.Builds pairs records) :
    records.map CostRecord.dedupKey = pairs.map c.keyOf :=
  (map_eq_of_forall₂ (f := c.keyOf) (g := CostRecord.dedupKey)
    (fun _ _ hb => (c.built hb).2.2.1.symm) h).symm

theorem map_occurredAt {pairs : List (ℤ × π)} {records : List CostRecord}
    (h : List.Forall₂ c.Builds pairs records) :
    records.map CostRecord.occurredAt = pairs.map Prod.fst :=
  (map_eq_of_forall₂ (f := Prod.fst) (g := CostRecord.occurredAt)
    (fun _ _ hb => (c.built hb).2.1.symm) h).symm

theorem source_of_builds {pairs : List (ℤ × π)} {records : List CostRecord}
    (h : List.Forall₂ c.Builds pairs records) : ∀ r ∈ records, r.source = c.source := by
  intro r hr
  obtain ⟨x, _, hb⟩ := exists_left_of_forall₂ h r hr
  exact (c.built hb).1

theorem nodup_pairs (hident : (c.profiles.map c.ident).Nodup) (start : ℤ) (n : ℕ) :
    (block HOUR start n ×ˢ c.profiles).Nodup :=
  (nodup_block hour_pos n start).product hident.of_map

theorem nodup_map_keyOf (hident : (c.profiles.map c.ident).Nodup) {start : ℤ} {n : ℕ}
    (hwhole : ∀ t ∈ block HOUR start n, WholeHour t) :
    ((block HOUR start n ×ˢ c.profiles).map c.keyOf).Nodup := by
  refine (nodup_pairs hident start n).map_on fun x hx y hy h => ?_
  obtain ⟨hxt, hxp⟩ := List.mem_product.mp hx
  obtain ⟨hyt, hyp⟩ := List.mem_product.mp hy
  obtain ⟨ht, hp⟩ := keyOf_injective (hwhole _ hxt) (hwhole _ hyt) h
  exact Prod.ext ht (List.inj_on_of_nodup_map hident hxp hyp hp)

/-! ### One cycle -/

theorem Holds.empty (start : ℤ) : c.Holds Database.empty start 0 where
  whole := fun _ h => absurd h List.not_mem_nil
  rows := ⟨[], .nil, rfl⟩
  position := rfl
  idle := fun _ => rfl

theorem Holds.restart {db : Database} {start : ℤ} (h : c.Holds db start 0) (start' : ℤ) :
    c.Holds db start' 0 := ⟨h.whole, h.rows, h.position, h.idle⟩

theorem product_block_add (start : ℤ) (m n : ℕ) :
    block HOUR start (m + n) ×ˢ c.profiles =
      (block HOUR start m ×ˢ c.profiles) ++ (block HOUR (start + m * HOUR) n ×ˢ c.profiles) := by
  rw [block_add]
  exact List.flatMap_append

/-- **What a cycle adds**: of a batch that continues the block, the hours after it. -/
theorem dropDuplicates_of_continues (hident : (c.profiles.map c.ident).Nodup) {db : Database}
    {start : ℤ} {n j : ℕ} {old fresh : List CostRecord} (h : c.Holds db start n)
    (hc : c.Continues start n j old fresh) :
    c.toCollector.dropDuplicates db.warehouse.rows (old ++ fresh) = fresh := by
  obtain ⟨stored, hstored, hsession⟩ := h.rows
  obtain ⟨pairs, hpairs, hold⟩ := hc.again
  have hkeys : c.toCollector.storedKeys db.warehouse.rows = (block HOUR start n ×ˢ c.profiles).map
      c.keyOf := by
    rw [← map_dedupKey hstored, hsession]
    exact Collector.storedKeys_addAll (source_of_builds hstored)
  have hagain : old.map CostRecord.dedupKey ⊆ (block HOUR start n ×ˢ c.profiles).map c.keyOf := by
    rw [map_dedupKey hold]
    exact List.map_subset c.keyOf hpairs
  have hnodup := nodup_map_keyOf hident hc.whole
  rw [product_block_add, List.map_append, List.nodup_append, ← map_dedupKey hc.next] at hnodup
  have hdrop : keepFirst CostRecord.dedupKey
      ((block HOUR start n ×ˢ c.profiles).map c.keyOf) old = [] :=
    keepFirst_eq_nil_iff.mpr fun r hr => hagain (List.mem_map_of_mem hr)
  rw [Collector.dropDuplicates_eq, hkeys, keepFirst_append, hdrop, List.nil_append]
  refine keepFirst_eq_self hnodup.2.1 fun r hr hmem => ?_
  refine hnodup.2.2 _ ?_ _ (List.mem_map_of_mem hr) rfl
  exact (List.mem_append.mp hmem).elim (fun h => hagain h) id

theorem newest_of_builds {start : ℤ} {n : ℕ} {records : List CostRecord}
    (hprofiles : c.profiles ≠ [])
    (h : List.Forall₂ c.Builds (block HOUR start (n + 1) ×ˢ c.profiles) records) :
    (records.map CostRecord.occurredAt).max? = some (start + n * HOUR) := by
  rw [map_occurredAt h, List.max?_eq_some_iff]
  constructor
  · obtain ⟨profile, hprofile⟩ := List.exists_mem_of_ne_nil c.profiles hprofiles
    exact List.mem_map.mpr ⟨(_, profile),
      List.mem_product.mpr ⟨mem_block_succ HOUR start n, hprofile⟩, rfl⟩
  · intro t ht
    obtain ⟨x, hx, rfl⟩ := List.mem_map.mp ht
    exact le_of_mem_block_succ hour_pos (List.mem_product.mp hx).1

theorem collect_spec {db : Database} {now : Reading} {records : List CostRecord}
    (h : c.collect db now = .ok records) : ∃ since m, c.since db now = .ok since ∧
      m = min MAX_BUCKETS_PER_CYCLE ((floorHour now.instant - floorHour since) / HOUR).toNat ∧
      (0 ≤ since → ∀ t ∈ block HOUR (floorHour since) m, WholeHour t) ∧
      List.Forall₂ c.Builds (block HOUR (floorHour since) m ×ˢ c.profiles) records := by
  obtain ⟨since, hsince, h⟩ := bind_eq_ok.mp h
  have hbuckets : (hourlyBuckets since now.instant).take MAX_BUCKETS_PER_CYCLE =
      block HOUR (floorHour since) (min MAX_BUCKETS_PER_CYCLE
        ((floorHour now.instant - floorHour since) / HOUR).toNat) := by
    rw [hourlyBuckets_eq, take_block]
  refine ⟨since, _, hsince, rfl, fun hnn t ht => ?_,
    by rw [← hbuckets]; exact mapM_eq_ok_iff.mp h⟩
  rw [← hbuckets] at ht
  obtain ⟨hdvd, hle, hlt⟩ := mem_hourlyBuckets.mp (List.mem_of_mem_take ht)
  exact ⟨hdvd, (floorHour_nonneg hnn).trans hle,
    (hlt.trans_le (floorHour_le now.instant)).trans now.lt_end⟩

theorem backfillStart_nonneg {now backfillDays since : ℤ}
    (h : backfillStart now backfillDays = .ok since) : 0 ≤ since := by
  unfold backfillStart at h
  dsimp only at h
  split at h
  · rename_i hrange
    rw [← Except.ok.inj h]
    exact hrange.2.1
  · cases h

theorem continues_of_none {since : ℤ} {i : ℕ} {records : List CostRecord}
    (hprofiles : c.profiles ≠ []) (hwhole : ∀ t ∈ block HOUR (floorHour since) (i + 1), WholeHour t)
    (h : List.Forall₂ c.Builds (block HOUR (floorHour since) (i + 1) ×ˢ c.profiles) records) :
    c.Continues (floorHour since) 0 (i + 1) [] records where
  profiles_ne := hprofiles
  whole := by rwa [Nat.zero_add]
  again := ⟨[], List.nil_subset _, .nil⟩
  next := by rwa [Nat.cast_zero, zero_mul, add_zero]
  newest := by
    refine ⟨_, newest_of_builds hprofiles h, ?_⟩
    rw [Nat.zero_add, getLast?_block_succ]

theorem continues_of_last {start : ℤ} {k i : ℕ} {records : List CostRecord}
    (hprofiles : c.profiles ≠ []) (hold : ∀ t ∈ block HOUR start (k + 1), WholeHour t)
    (hnew : ∀ t ∈ block HOUR (start + k * HOUR) (i + 1), WholeHour t)
    (h : List.Forall₂ c.Builds (block HOUR (start + k * HOUR) (i + 1) ×ˢ c.profiles) records) :
    ∃ old fresh, records = old ++ fresh ∧ c.Continues start (k + 1) i old fresh := by
  have hnewest := newest_of_builds hprofiles h
  have hsum : block HOUR start (k + 1 + i) =
      block HOUR start k ++ block HOUR (start + k * HOUR) (i + 1) := by
    rw [← block_add, Nat.add_right_comm, Nat.add_assoc]
  have hnext : start + (k : ℤ) * HOUR + ((1 : ℕ) : ℤ) * HOUR =
      start + ((k + 1 : ℕ) : ℤ) * HOUR := by
    push_cast; ring
  rw [Nat.add_comm i 1, product_block_add, hnext] at h
  obtain ⟨old, fresh, rfl, hagain, hfresh⟩ := exists_append_of_forall₂ h
  refine ⟨old, fresh, rfl, hprofiles, fun t ht => ?_, ⟨_, ?_, hagain⟩, hfresh, _, hnewest, ?_⟩
  · rw [hsum] at ht
    rcases List.mem_append.mp ht with ht | ht
    · exact hold t (by rw [block_succ_eq_append]; exact List.mem_append_left _ ht)
    · exact hnew t ht
  · rw [product_block_add]
    exact List.subset_append_right _ _
  · rw [hsum, List.getLast?_append, getLast?_block_succ]
    rfl

/-- **What a cycle reads** is nothing, or continues the block, which it begins where
there is none. -/
theorem continues_of_collect {db : Database} {now : Reading} {start : ℤ} {n : ℕ}
    {records : List CostRecord} (h : c.Holds db start n) (hc : c.collect db now = .ok records) :
    records = [] ∨ ∃ start' n' j old fresh, c.Holds db start' n' ∧ records = old ++ fresh ∧
      c.Continues start' n' j old fresh := by
  obtain ⟨since, m, hsince, _, hwhole, hbuilds⟩ := collect_spec hc
  by_cases hprofiles : c.profiles = []
  · rw [hprofiles, List.product_nil] at hbuilds
    exact .inl (List.forall₂_nil_left_iff.mp hbuilds)
  have hpos := h.position
  unfold MockCollector.since at hsince
  cases m with
  | zero => exact .inl (List.forall₂_nil_left_iff.mp hbuilds)
  | succ i =>
    right
    cases n with
    | zero =>
      rw [show (c.toCollector.readWatermark db).lastOccurredAt = none from hpos] at hsince
      exact ⟨_, 0, i + 1, [], records, h.restart _, rfl,
        continues_of_none hprofiles (hwhole (backfillStart_nonneg hsince)) hbuilds⟩
    | succ k =>
      rw [hpos, getLast?_block_succ] at hsince
      obtain rfl := Except.ok.inj hsince
      have hlast := h.whole _ (mem_block_succ HOUR start k)
      rw [floorHour_of_dvd hlast.whole] at hwhole hbuilds
      obtain ⟨old, fresh, hrecords, hcont⟩ :=
        continues_of_last hprofiles h.whole (hwhole hlast.nonneg) hbuilds
      exact ⟨start, k + 1, i, old, fresh, h, hrecords, hcont⟩

theorem holds_of_nil {db db' : Database} {start : ℤ} {n k : ℕ} {tick : Tick}
    (h : c.Holds db start n)
    (ha : c.toCollector.attempt db (c.cycle db tick) = .ok ([], db', k)) :
    c.Holds db' start n := by
  obtain ⟨_, hpersist⟩ := Collector.attempt_eq_ok.mp ha
  have hsession := Session.toSession_of_flush (Collector.persist_eq_ok.mp hpersist).2.2.1
  rw [Collector.dropDuplicates_eq] at hsession
  refine ⟨h.whole, ?_, ?_, h.idle⟩
  · rw [hsession]
    exact h.rows
  · rw [Collector.readWatermark_attempt ha]
    exact h.position

theorem holds_of_continues (hident : (c.profiles.map c.ident).Nodup) {db db' : Database}
    {start : ℤ} {n j k : ℕ} {tick : Tick} {old fresh : List CostRecord} (h : c.Holds db start n)
    (hc : c.Continues start n j old fresh)
    (ha : c.toCollector.attempt db (c.cycle db tick) = .ok (old ++ fresh, db', k)) :
    c.Holds db' start (n + j) := by
  obtain ⟨_, hpersist⟩ := Collector.attempt_eq_ok.mp ha
  have hsession := Session.toSession_of_flush (Collector.persist_eq_ok.mp hpersist).2.2.1
  obtain ⟨stored, hstored, hdb⟩ := h.rows
  refine ⟨hc.whole, ⟨stored ++ fresh, ?_, ?_⟩, ?_, fun hnil => absurd hnil hc.profiles_ne⟩
  · rw [product_block_add]
    exact List.rel_append hstored hc.next
  · rw [hsession, dropDuplicates_of_continues hident h hc, hdb, Session.addAll_append]
  · obtain ⟨last, hmax, hlast⟩ := hc.newest
    have hnext : c.toCollector.nextWatermark (old ++ fresh) =
        some ⟨some last, some (isoformat last)⟩ := by
      show newestHour (old ++ fresh) = _
      rw [newestHour, hmax]
      rfl
    rw [Collector.readWatermark_attempt ha, hnext, hlast]
    rfl

/-- **A cycle that commits** makes the block longer, or begins one. -/
theorem holds_attempt (hident : (c.profiles.map c.ident).Nodup) {db db' : Database} {start : ℤ}
    {n k : ℕ} {tick : Tick} {records : List CostRecord} (h : c.Holds db start n)
    (ha : c.toCollector.attempt db (c.cycle db tick) = .ok (records, db', k)) :
    ∃ start' n', c.Holds db' start' n' := by
  obtain ⟨hcollect, _⟩ := Collector.attempt_eq_ok.mp ha
  rcases continues_of_collect h hcollect with rfl | ⟨start', n', j, old, fresh, h', rfl, hc⟩
  · exact ⟨start, n, holds_of_nil h ha⟩
  · exact ⟨start', n' + j, holds_of_continues hident h' hc ha⟩

/-! ### A run -/

/-- What a row is to the profile and the hour that it is of. -/
def RowOf (c : MockCollector π) (x : ℤ × π) (row : CostRow) : Prop :=
  ∃ record, c.buildRecord x.2 x.1 = .ok record ∧ row.toCostRecord = record.stored

theorem RowOf.fields {x : ℤ × π} {row : CostRow} (h : c.RowOf x row) :
    row.occurredAt = x.1 ∧ c.owner row.toCostRecord = some (c.ident x.2) := by
  obtain ⟨record, hb, hrow⟩ := h
  obtain ⟨_, hat, _, howner⟩ := c.built hb
  rw [hrow]
  exact ⟨hat, howner⟩

theorem rowOf_numbered {pairs : List (ℤ × π)} {records : List CostRecord}
    (h : List.Forall₂ c.Builds pairs records) :
    ∀ k, List.Forall₂ c.RowOf pairs (Session.numbered k records) := by
  induction h with
  | nil => intro k; exact .nil
  | cons hb _ ih => intro k; exact .cons ⟨_, hb, rfl⟩ (ih (k + 1))

theorem filter_pairs (hident : (c.profiles.map c.ident).Nodup) {start t : ℤ} {n : ℕ} {profile : π}
    (ht : t ∈ block HOUR start n) (hp : profile ∈ c.profiles) :
    ((block HOUR start n ×ˢ c.profiles).filter fun x =>
      c.ident x.2 = c.ident profile ∧ x.1 = t) = [(t, profile)] := by
  classical
  have hmem : (t, profile) ∈ block HOUR start n ×ˢ c.profiles := List.mem_product.mpr ⟨ht, hp⟩
  rw [List.filter_congr (q := fun x => x = (t, profile)), List.filter_eq,
    List.count_eq_one_of_mem (nodup_pairs hident start n) hmem, List.replicate_one]
  intro x hx
  refine decide_eq_decide.mpr ⟨?_, ?_⟩
  · rintro ⟨hid, rfl⟩
    exact Prod.ext rfl (List.inj_on_of_nodup_map hident (List.mem_product.mp hx).2 hp hid)
  · rintro rfl
    exact ⟨rfl, rfl⟩

/-- **What the table holds** is a record of each profile for each hour of the block. -/
theorem Holds.covered (hident : (c.profiles.map c.ident).Nodup) {db : Database} {start : ℤ} {n : ℕ}
    (h : c.Holds db start n) : c.Covered db (block HOUR start n) := by
  obtain ⟨records, hbuilds, hsession⟩ := h.rows
  have hrows : List.Forall₂ c.RowOf (block HOUR start n ×ˢ c.profiles) db.warehouse.rows := by
    rw [hsession, Session.rows_addAll]
    exact rowOf_numbered hbuilds _
  refine ⟨h.whole, fun t => ⟨?_, fun ht => ?_⟩, fun profile hp t ht => ?_, h.position⟩
  · rintro ⟨row, hrow, rfl⟩
    obtain ⟨x, hx, hrel⟩ := exists_left_of_forall₂ hrows row hrow
    rw [hrel.fields.1]
    exact (List.mem_product.mp hx).1
  · have hprofiles : c.profiles ≠ [] := by
      intro hnil
      rw [h.idle hnil] at ht
      exact List.not_mem_nil ht
    obtain ⟨profile, hp⟩ := List.exists_mem_of_ne_nil c.profiles hprofiles
    obtain ⟨row, hrow, hrel⟩ := exists_right_of_forall₂ hrows (t, profile)
      (List.mem_product.mpr ⟨ht, hp⟩)
    exact ⟨row, hrow, hrel.fields.1⟩
  · have hone := List.rel_filter (R := c.RowOf)
      (p := fun x => c.ident x.2 = c.ident profile ∧ x.1 = t)
      (q := fun r => c.owner r.toCostRecord = some (c.ident profile) ∧ r.occurredAt = t) (by
        intro x row hrel
        obtain ⟨hat, howner⟩ := hrel.fields
        simp only [decide_eq_true_iff, hat, howner, Option.some.injEq]) hrows
    rw [filter_pairs hident ht hp] at hone
    obtain ⟨row, rest, ⟨record, hb, hrow⟩, hrest, he⟩ := List.forall₂_cons_left_iff.mp hone
    rw [List.forall₂_nil_left_iff.mp hrest] at he
    exact ⟨row, record, he, hb, hrow⟩

theorem holds_runOnce (hident : (c.profiles.map c.ident).Nodup) (num : Arith) {p : Process}
    (tick : Tick) (h : ∃ start n, c.Holds p.db start n) :
    ∃ start n, c.Holds (c.runOnce num p tick).db start n := by
  obtain ⟨start, n, h⟩ := h
  cases ha : c.toCollector.attempt p.db (c.cycle p.db tick) with
  | error e =>
    rw [MockCollector.runOnce, Collector.runOnce_of_error ha]
    exact ⟨start, n, h⟩
  | ok x =>
    obtain ⟨records, db', k⟩ := x
    rw [MockCollector.runOnce, Collector.runOnce_db ha]
    exact holds_attempt hident h ha

/-- **No run leaves a gap.** -/
theorem noGaps_after (hident : (c.profiles.map c.ident).Nodup) (num : Arith) (metrics : Metrics)
    (ticks : List Tick) :
    c.NoGaps (Runs.after (c.runOnce num) ⟨Database.empty, metrics⟩ ticks).db := by
  have hrun : ∃ start n,
      c.Holds (Runs.after (c.runOnce num) ⟨Database.empty, metrics⟩ ticks).db start n := by
    refine Runs.invariant (I := fun p : Process => ∃ start n, c.Holds p.db start n) ?_
      ⟨0, 0, .empty 0⟩
    exact fun _ tick h => holds_runOnce hident num tick h
  obtain ⟨start, n, h⟩ := hrun
  exact ⟨start, n, h.covered hident⟩

end MockCollector

end Finops
