import Finops.Attribution.Queries

/-!
# Spend over time, and the three query paths

`aggregateTimeseries` groups by a bucket of time and by the requested dimensions.
A bucket is `date_trunc` in the time zone of the session, or on SQLite the text
of a `strftime` that cuts the instant off; SQLite has no weeks, there they fall
back to days.

`query_paths_agree` is about all three queries of the engine.  They count the
same rows: each total of one is a sum of the others, over groups, over buckets,
over dimensions that are dropped, and over the two parts of a period.
-/

namespace Finops

open Numerics Grouping

/-! ### Buckets -/

/-- The time zone of a database session: the local clock of an instant, and the
instant at which a local clock shows a time. -/
structure Zone where
  toLocal : Instant → ℤ
  ofLocal : ℤ → Instant

def Zone.utc : Zone := ⟨id, id⟩

def microsPerHour : ℤ := 3600000000

/-- Cut off to a multiple of a width.  Weeks begin on Monday, as 0001-01-01 was
one. -/
def truncate (width t : ℤ) : ℤ := t - t % width

def DATE_TRUNC_WIDTHS : String → Option ℤ
  | "hour" => some microsPerHour
  | "day" => some (24 * microsPerHour)
  | "week" => some (7 * 24 * microsPerHour)
  | _ => none

/-- What the formats of `SQLITE_TRUNC_FORMATS` cut an instant off to. -/
def SQLITE_TRUNC_WIDTHS : String → Option ℤ
  | "hour" => some microsPerHour
  | "day" => some (24 * microsPerHour)
  | "week" => some (24 * microsPerHour)
  | _ => none

/-- The bucket of `occurred_at`, by the dialect of the database. -/
def bucketExpression (zone : Zone) (dialect trunc : String) :
    Except PyError (Instant → Instant) :=
  match SQLITE_TRUNC_WIDTHS trunc, DATE_TRUNC_WIDTHS trunc with
  | some sqliteWidth, some width =>
    if dialect = "sqlite" then .ok (truncate sqliteWidth)
    else .ok fun t => zone.ofLocal (truncate width (zone.toLocal t))
  | _, _ => .error (.valueError
      ("unknown interval " ++ quoted trunc ++ "; expected hour, day or week"))

structure TimeseriesPoint where
  bucket : Instant
  key : Dict String String
  amountUsd : ℚ

/-- Spend per dimension key per time bucket, ordered oldest first. -/
def aggregateTimeseries (zone : Zone) (dialect : String) (rows : List CostRow)
    (groupBy : List String) (period : Period) (trunc : String) (filters : CostFilters) :
    Except PyError (List TimeseriesPoint) := do
  let columns ← resolveColumns groupBy
  let bucket ← bucketExpression zone dialect trunc
  let matching := rows.filter fun r => conditions period filters r.toCostRecord
  let result := groupRows
    (fun r => (bucket r.occurredAt, columns.map fun column => column r.toCostRecord)) matching
  if castsFit result then
    .ok ((result.entries.insertionSort fun a b => a.1.1 ≤ b.1.1).map fun e =>
      { bucket := e.1.1
        key := (groupBy.zip (e.1.2.map pyStr)).foldl (fun d kv => d.set kv.1 kv.2) Dict.empty
        amountUsd := amount e.2 })
  else .error .dataError

/-- Each sum of the query is in range: there is one for each combination of values in each
bucket. -/
def SeriesInRange (zone : Zone) (dialect : String) (rows : List CostRow) (groupBy : List String)
    (period : Period) (trunc : String) (filters : CostFilters) : Prop :=
  ∀ bucket, bucketExpression zone dialect trunc = .ok bucket → ∀ t values,
    amountFits ((matching rows period filters).filter fun r =>
      (bucket r.occurredAt, valuesOf groupBy r.toCostRecord) = (t, values)) = true

/-! ### What the points sum to -/

variable {zone : Zone} {dialect trunc : String} {rows : List CostRow} {groupBy : List String}
  {period : Period} {filters : CostFilters} {columns : List (CostRecord → Option String)}
  {bucket : Instant → Instant} {points : List TimeseriesPoint}

theorem exists_bucketExpression_eq_ok (zone : Zone) (dialect : String)
    (h : trunc ∈ ["hour", "day", "week"]) :
    ∃ bucket, bucketExpression zone dialect trunc = .ok bucket := by
  have hwidths : ∃ v w, SQLITE_TRUNC_WIDTHS trunc = some v ∧ DATE_TRUNC_WIDTHS trunc = some w := by
    simp only [List.mem_cons, List.not_mem_nil, or_false] at h
    rcases h with rfl | rfl | rfl <;> exact ⟨_, _, rfl, rfl⟩
  obtain ⟨v, w, hv, hw⟩ := hwidths
  unfold bucketExpression
  rw [hv, hw]
  dsimp only
  split <;> exact ⟨_, rfl⟩

/-- **The points sum to the rows**, over any choice of buckets and keys. -/
theorem sum_aggregateTimeseries (hrows : ∀ r ∈ rows, HasScale CostRecord.moneyScale r.amountUsd)
    (hc : resolveColumns groupBy = .ok columns)
    (hb : bucketExpression zone dialect trunc = .ok bucket)
    (h : aggregateTimeseries zone dialect rows groupBy period trunc filters = .ok points)
    (p : Instant → Dict String String → Bool) :
    ((points.filter fun x => p x.bucket x.key).map TimeseriesPoint.amountUsd).sum =
      (((matching rows period filters).filter fun r =>
        p (bucket r.occurredAt) (keyOf groupBy r.toCostRecord)).map fun r => r.amountUsd).sum := by
  let shown : List (Option String) → Dict String String := fun values =>
    (groupBy.zip (values.map pyStr)).foldl (fun d kv => d.set kv.1 kv.2) Dict.empty
  have hkey : ∀ r : CostRow, shown (columns.map fun column => column r.toCostRecord) =
      keyOf groupBy r.toCostRecord := by
    intro r
    have hcols := map_columns hc r.toCostRecord
    show (groupBy.zip ((columns.map fun column => column r.toCostRecord).map pyStr)).foldl _ _ = _
    rw [List.map_map, ← zip_eq_keyOf, ← hcols]
    rfl
  unfold aggregateTimeseries at h
  rw [hc, hb] at h
  simp only [bind, Except.bind] at h
  split at h
  case isFalse => cases h
  obtain rfl := Except.ok.inj h
  let result := groupOn (fun r : CostRow =>
    (bucket r.occurredAt, columns.map fun column => column r.toCostRecord))
    (matching rows period filters)
  have hamount : ∀ e ∈ result.entries, amount e.2 = (e.2.map fun r => r.amountUsd).sum := by
    intro e he
    rw [(Dict.eq_of_mem_entries_ofKeys he).2]
    exact amount_of_hasScale fun r hr =>
      hrows r (List.mem_of_mem_filter (List.mem_of_mem_filter hr))
  rw [List.filter_map, List.map_map]
  have hperm := ((List.perm_insertionSort (fun a b => a.1.1 ≤ b.1.1) result.entries).filter
    fun e => p e.1.1 (shown e.1.2)).map fun e => amount e.2
  refine hperm.sum_eq.trans ?_
  rw [List.map_congr_left fun e he => hamount e (List.mem_of_mem_filter he)]
  refine (sum_groups _ (fun k : Instant × List (Option String) => p k.1 (shown k.2)) _ _).trans ?_
  simp only [hkey]

theorem exists_row_of_mem_points (hc : resolveColumns groupBy = .ok columns)
    (h : aggregateTimeseries zone dialect rows groupBy period trunc filters = .ok points)
    {x : TimeseriesPoint} (hx : x ∈ points) :
    ∃ r ∈ matching rows period filters, x.key = keyOf groupBy r.toCostRecord := by
  unfold aggregateTimeseries at h
  obtain ⟨_, hc', h⟩ := Batch.bind_eq_ok.mp h
  obtain rfl := Except.ok.inj (hc.symm.trans hc')
  obtain ⟨bucket, _, h⟩ := Batch.bind_eq_ok.mp h
  dsimp only at h
  split at h
  case isFalse => cases h
  obtain rfl := Except.ok.inj h
  obtain ⟨e, he, rfl⟩ := List.mem_map.mp hx
  have hentry := Dict.eq_of_mem_entries_ofKeys ((List.mem_insertionSort _).mp he)
  obtain ⟨r, hr, hk⟩ := List.mem_map.mp hentry.1
  refine ⟨r, hr, ?_⟩
  have hcols := map_columns hc r.toCostRecord
  dsimp only
  rw [← hk, List.map_map, ← zip_eq_keyOf, ← hcols]
  rfl

/-- **When the series comes out**: when each of its sums is in range. -/
theorem exists_aggregateTimeseries_eq_ok (zone : Zone) (dialect : String) (rows : List CostRow)
    (period : Period) (filters : CostFilters) (hg : Allowed groupBy)
    (ht : trunc ∈ ["hour", "day", "week"]) :
    (∃ points, aggregateTimeseries zone dialect rows groupBy period trunc filters = .ok points) ↔
      SeriesInRange zone dialect rows groupBy period trunc filters := by
  obtain ⟨columns, hc⟩ := exists_resolveColumns_eq_ok hg
  obtain ⟨bucket, hb⟩ := exists_bucketExpression_eq_ok zone dialect ht
  have hrange : SeriesInRange zone dialect rows groupBy period trunc filters ↔
      castsFit (groupRows (fun r : CostRow =>
        (bucket r.occurredAt, columns.map fun column => column r.toCostRecord))
          (matching rows period filters)) = true := by
    rw [castsFit_groupRows, Prod.forall]
    simp only [map_columns_eq_valuesOf hc]
    exact ⟨fun h => h bucket hb, fun h b hb' => Except.ok.inj (hb.symm.trans hb') ▸ h⟩
  rw [hrange]
  unfold aggregateTimeseries
  rw [hc, hb]
  simp only [bind, Except.bind, ← matching.eq_1]
  split
  · rename_i h
    exact ⟨fun _ => h, fun _ => ⟨_, rfl⟩⟩
  · rename_i h
    exact ⟨fun ⟨_, hp⟩ => (by cases hp), fun hp => absurd hp h⟩

theorem seriesInRange_of_nonneg
    (hrows : ∀ r ∈ rows, 0 ≤ r.amountUsd ∧ HasScale CostRecord.moneyScale r.amountUsd)
    (h : (rows.map fun r => r.amountUsd).sum < 10 ^ 10) (zone : Zone) (dialect : String)
    (groupBy : List String) (period : Period) (trunc : String) (filters : CostFilters) :
    SeriesInRange zone dialect rows groupBy period trunc filters :=
  fun _ _ _ _ => amountFits_of_sublist (List.filter_sublist.trans List.filter_sublist) hrows h

/-! ### The three paths -/

theorem totalSpend_eq_matching
    (hrows : ∀ r ∈ rows, HasScale CostRecord.moneyScale r.amountUsd) (period : Period)
    (filters : CostFilters) :
    totalSpend rows period filters =
      ((matching rows period filters).map fun r => r.amountUsd).sum :=
  amount_of_hasScale fun r hr => hrows r (List.mem_of_mem_filter hr)

theorem matching_split (rows : List CostRow) (period : Period) (filters : CostFilters) {m : Instant}
    (h1 : period.start < m) (h2 : m < period.stop) :
    (matching rows period filters).Perm
      (matching rows ⟨period.start, m, h1⟩ filters ++
        matching rows ⟨m, period.stop, h2⟩ filters) := by
  have hfirst : matching rows ⟨period.start, m, h1⟩ filters =
      (matching rows period filters).filter fun r => r.occurredAt < m := by
    rw [matching, matching, List.filter_filter]
    refine List.filter_congr fun r _ => ?_
    rw [Bool.eq_iff_iff]
    simp only [conditions, Period.contains, Bool.and_eq_true, decide_eq_true_eq]
    constructor
    · rintro ⟨⟨⟨ha, hb⟩, hc⟩, hd⟩
      exact ⟨hb, ⟨⟨ha, hb.trans h2⟩, hc⟩, hd⟩
    · rintro ⟨hb, ⟨⟨ha, _⟩, hc⟩, hd⟩
      exact ⟨⟨⟨ha, hb⟩, hc⟩, hd⟩
  have hsecond : matching rows ⟨m, period.stop, h2⟩ filters =
      (matching rows period filters).filter fun r => !decide (r.occurredAt < m) := by
    rw [matching, matching, List.filter_filter]
    refine List.filter_congr fun r _ => ?_
    rw [Bool.eq_iff_iff]
    simp only [conditions, Period.contains, Bool.and_eq_true, decide_eq_true_eq,
      Bool.not_eq_true', decide_eq_false_iff_not, not_lt]
    constructor
    · rintro ⟨⟨⟨ha, hb⟩, hc⟩, hd⟩
      exact ⟨ha, ⟨⟨h1.le.trans ha, hb⟩, hc⟩, hd⟩
    · rintro ⟨ha, ⟨⟨_, hb⟩, hc⟩, hd⟩
      exact ⟨⟨⟨ha, hb⟩, hc⟩, hd⟩
  rw [hfirst, hsecond]
  exact (List.filter_append_perm (fun r : CostRow => decide (r.occurredAt < m)) _).symm

theorem sum_matching_split {β : Type*} [AddCommMonoid β] (rows : List CostRow) (period : Period)
    (filters : CostFilters) {m : Instant} (h1 : period.start < m) (h2 : m < period.stop)
    (p : CostRow → Bool) (φ : CostRow → β) :
    (((matching rows period filters).filter p).map φ).sum =
      (((matching rows ⟨period.start, m, h1⟩ filters).filter p).map φ).sum +
        (((matching rows ⟨m, period.stop, h2⟩ filters).filter p).map φ).sum := by
  rw [(((matching_split rows period filters h1 h2).filter p).map φ).sum_eq, List.filter_append,
    List.map_append, List.sum_append]

/-- **The three query paths agree** where the sums are in range.  Group totals sum to the
total spend; the points of a key sum to its total; the groups of a finer list of dimensions
sum to those of a coarser one, totals and counts; and an instant inside the period splits
every figure into its two parts. -/
theorem query_paths_agree (hrows : ∀ r ∈ rows, HasScale CostRecord.moneyScale r.amountUsd)
    (zone : Zone) (dialect : String) (period : Period) (filters : CostFilters)
    (hg : Allowed groupBy) (ht : trunc ∈ ["hour", "day", "week"])
    (hcosts : CostsInRange rows groupBy period filters)
    (hseries : SeriesInRange zone dialect rows groupBy period trunc filters) :
    ∃ groups points,
      aggregateCosts .exact rows groupBy period filters = .ok groups ∧
      aggregateTimeseries zone dialect rows groupBy period trunc filters = .ok points ∧
      (groups.map CostGroup.totalUsd).sum = totalSpend rows period filters ∧
      (∀ key, ((points.filter fun x => x.key = key).map TimeseriesPoint.amountUsd).sum =
        totalFor groups key) ∧
      (∀ coarse, Allowed coarse → coarse ⊆ groupBy → CostsInRange rows coarse period filters →
        ∃ coarser, aggregateCosts .exact rows coarse period filters = .ok coarser ∧ ∀ key,
          totalFor coarser key =
            ((groups.filter fun g => restrict coarse g.key = key).map CostGroup.totalUsd).sum ∧
          countFor coarser key =
            ((groups.filter fun g => restrict coarse g.key = key).map CostGroup.recordCount).sum) ∧
      ∀ m (h1 : period.start < m) (h2 : m < period.stop),
        CostsInRange rows groupBy ⟨period.start, m, h1⟩ filters →
        CostsInRange rows groupBy ⟨m, period.stop, h2⟩ filters →
        SeriesInRange zone dialect rows groupBy ⟨period.start, m, h1⟩ trunc filters →
        SeriesInRange zone dialect rows groupBy ⟨m, period.stop, h2⟩ trunc filters →
        ∃ groups1 groups2 points1 points2,
        aggregateCosts .exact rows groupBy ⟨period.start, m, h1⟩ filters = .ok groups1 ∧
        aggregateCosts .exact rows groupBy ⟨m, period.stop, h2⟩ filters = .ok groups2 ∧
        aggregateTimeseries zone dialect rows groupBy ⟨period.start, m, h1⟩ trunc filters =
          .ok points1 ∧
        aggregateTimeseries zone dialect rows groupBy ⟨m, period.stop, h2⟩ trunc filters =
          .ok points2 ∧
        totalSpend rows period filters = totalSpend rows ⟨period.start, m, h1⟩ filters +
          totalSpend rows ⟨m, period.stop, h2⟩ filters ∧
        (∀ key, totalFor groups key = totalFor groups1 key + totalFor groups2 key ∧
          countFor groups key = countFor groups1 key + countFor groups2 key) ∧
        ∀ p : Instant → Dict String String → Bool,
          ((points.filter fun x => p x.bucket x.key).map TimeseriesPoint.amountUsd).sum =
            ((points1.filter fun x => p x.bucket x.key).map TimeseriesPoint.amountUsd).sum +
            ((points2.filter fun x => p x.bucket x.key).map TimeseriesPoint.amountUsd).sum := by
  obtain ⟨columns, hc⟩ := exists_resolveColumns_eq_ok hg
  obtain ⟨bucket, hb⟩ := exists_bucketExpression_eq_ok zone dialect ht
  have hask : ∀ {dims : List String} (p : Period), Allowed dims → CostsInRange rows dims p filters →
      ∃ groups, aggregateCosts .exact rows dims p filters = .ok groups ∧
        costGroups .exact rows dims p filters = .ok groups := by
    intro dims p hd hr
    obtain ⟨groups, h⟩ := (exists_aggregateCosts_eq_ok .exact rows p filters hd).mpr hr
    exact ⟨groups, h, costGroups_of_eq_ok h⟩
  obtain ⟨groups, hanswer, hgroups⟩ := hask period hg hcosts
  obtain ⟨points, hpoints⟩ :=
    (exists_aggregateTimeseries_eq_ok zone dialect rows period filters hg ht).mpr hseries
  refine ⟨groups, points, hanswer, hpoints, ?_, fun key => ?_, fun coarse hcoarse hsub hrange => ?_,
    fun m h1 h2 hr1 hr2 hs1 hs2 => ?_⟩
  · have hall := sum_costGroups hrows hc hgroups fun _ => true
    rw [List.filter_true, List.filter_true] at hall
    rw [hall, totalSpend_eq_matching hrows]
  · rw [totalFor_eq hrows hc hgroups]
    exact sum_aggregateTimeseries hrows hc hb hpoints fun _ k => k = key
  · obtain ⟨coarser, hcoarse', hcoarser⟩ := hask period hcoarse hrange
    obtain ⟨columns', hc'⟩ := exists_resolveColumns_eq_ok hcoarse
    refine ⟨coarser, hcoarse', fun key => ⟨?_, ?_⟩⟩
    · rw [totalFor_eq hrows hc' hcoarser]
      refine Eq.trans ?_ (sum_costGroups hrows hc hgroups fun k => restrict coarse k = key).symm
      simp only [restrict_keyOf hsub]
    · rw [countFor_eq hc' hcoarser]
      refine Eq.trans ?_ (count_costGroups hc hgroups fun k => restrict coarse k = key).symm
      simp only [restrict_keyOf hsub]
  · obtain ⟨groups1, hanswer1, hgroups1⟩ := hask ⟨period.start, m, h1⟩ hg hr1
    obtain ⟨groups2, hanswer2, hgroups2⟩ := hask ⟨m, period.stop, h2⟩ hg hr2
    obtain ⟨points1, hpoints1⟩ := (exists_aggregateTimeseries_eq_ok zone dialect rows
      ⟨period.start, m, h1⟩ filters hg ht).mpr hs1
    obtain ⟨points2, hpoints2⟩ := (exists_aggregateTimeseries_eq_ok zone dialect rows
      ⟨m, period.stop, h2⟩ filters hg ht).mpr hs2
    refine ⟨groups1, groups2, points1, points2, hanswer1, hanswer2, hpoints1, hpoints2, ?_,
      fun key => ⟨?_, ?_⟩, fun p => ?_⟩
    · rw [totalSpend_eq_matching hrows, totalSpend_eq_matching hrows, totalSpend_eq_matching hrows]
      have hsplit := sum_matching_split rows period filters h1 h2 (fun _ => true)
        fun r => r.amountUsd
      rwa [List.filter_true, List.filter_true, List.filter_true] at hsplit
    · rw [totalFor_eq hrows hc hgroups, totalFor_eq hrows hc hgroups1,
        totalFor_eq hrows hc hgroups2]
      exact sum_matching_split rows period filters h1 h2 _ _
    · rw [countFor_eq hc hgroups, countFor_eq hc hgroups1, countFor_eq hc hgroups2,
        ((matching_split rows period filters h1 h2).filter _).length_eq, List.filter_append,
        List.length_append]
    · rw [sum_aggregateTimeseries hrows hc hb hpoints, sum_aggregateTimeseries hrows hc hb hpoints1,
        sum_aggregateTimeseries hrows hc hb hpoints2]
      exact sum_matching_split rows period filters h1 h2 _ _

/-! A record without a model, and one whose model is named None. -/

def unnamedModels : List CostRow :=
  [{ source := .compute, dedupKey := "gpu", occurredAt := 0, amountUsd := 2, id := 0 },
    { source := .llm, dedupKey := "req-1", occurredAt := 1, amountUsd := 3, model := some "None",
      id := 1 }]

def firstSecond : Period := ⟨0, 1000000, by decide⟩

theorem query_paths_agree_unnamed :
    ∃ groups, aggregateCosts .exact unnamedModels ["model"] firstSecond {} = .ok groups ∧
      (groups.map CostGroup.totalUsd).sum = 5 := by
  have hrows : ∀ r ∈ unnamedModels, 0 ≤ r.amountUsd ∧
      HasScale CostRecord.moneyScale r.amountUsd := by
    simp only [unnamedModels, List.forall_mem_cons]
    refine ⟨⟨by decide +kernel, 200000000, ?_⟩, ⟨by decide +kernel, 300000000, ?_⟩,
      fun r hr => absurd hr List.not_mem_nil⟩ <;> norm_num [CostRecord.moneyScale]
  have hallowed : Allowed ["model"] := ⟨by decide, by decide⟩
  have hsum : (unnamedModels.map fun r => r.amountUsd).sum < 10 ^ 10 := by decide +kernel
  obtain ⟨groups, _, hgroups, _, hsum, _⟩ :=
    query_paths_agree (fun r hr => (hrows r hr).2) .utc "sqlite" firstSecond {} hallowed
      (show "week" ∈ ["hour", "day", "week"] by decide) (costsInRange_of_nonneg hrows hsum _ _ _)
      (seriesInRange_of_nonneg hrows hsum _ _ _ _ _ _)
  refine ⟨groups, hgroups, hsum.trans ?_⟩
  decide +kernel

end Finops
