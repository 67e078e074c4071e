import Finops.Api.Costs

/-!
# One snapshot, three routes

`get_costs`, `get_unattributed` and `get_timeseries` add up the same rows in ways of their
own.  Asked about one window over one snapshot they agree (`routes_agree`): on the total,
on what each team has spent, on what has an owner and what has none, and on the subtotals
of what has none.  Subtotals are told by the records they are of (`Subtotals.get?_eq`),
so the fold over result rows of the one route and the query by source of the other come
to the same dictionary.
-/

namespace Finops.Api

open Numerics Grouping

variable {digits : DecimalDigits} {lower : String → String} {num : Arith}

/-! ### Subtotals -/

/-- The subtotals of records, one for each source that they have. -/
structure Subtotals (d : Dict String ℚ) (records : List CostRow) : Prop where
  sources : ∀ name, name ∈ d.keys ↔ ∃ r ∈ records, r.source.str = name
  part : ∀ (source : CostSource) (v : ℚ), d.get? source.str = some v →
    v = ((records.filter fun r => r.source = source).map fun r => r.amountUsd).sum

/-- **Records have one dictionary of subtotals.** -/
theorem Subtotals.get?_eq {d e : Dict String ℚ} {records : List CostRow}
    (hd : Subtotals d records) (he : Subtotals e records) (name : String) :
    d.get? name = e.get? name := by
  by_cases hname : ∃ r ∈ records, r.source.str = name
  · obtain ⟨r, hr, rfl⟩ := hname
    obtain ⟨v, hv⟩ := Dict.mem_keys_iff.mp ((hd.sources r.source.str).mpr ⟨r, hr, rfl⟩)
    obtain ⟨w, hw⟩ := Dict.mem_keys_iff.mp ((he.sources r.source.str).mpr ⟨r, hr, rfl⟩)
    rw [hv, hw, hd.part r.source v hv, he.part r.source w hw]
  · rw [Dict.get?_eq_none.mpr fun h => hname ((hd.sources name).mp h),
      Dict.get?_eq_none.mpr fun h => hname ((he.sources name).mp h)]

theorem subtotals_spendBySource {rows : List CostRow}
    (hrows : ∀ r ∈ rows, HasScale CostRecord.moneyScale r.amountUsd) (period : Period) :
    Subtotals (spendBySource rows period) (matching rows period unowned) := by
  have hentries := entries_spendBySource rows period
  constructor
  · intro name
    rw [Dict.keys, hentries, List.map_map, List.mem_map]
    constructor
    · rintro ⟨e, he, rfl⟩
      obtain ⟨r, hr, hs⟩ := List.mem_map.mp (Dict.eq_of_mem_entries_ofKeys he).1
      exact ⟨r, hr, congrArg CostSource.str hs⟩
    · rintro ⟨r, hr, rfl⟩
      have hkey : r.source ∈ (groupRows (fun r : CostRow => r.source)
          (matching rows period unowned)).keys :=
        Dict.mem_keys_ofKeys.mpr (List.mem_map.mpr ⟨r, hr, rfl⟩)
      obtain ⟨e, he, hs⟩ := List.mem_map.mp hkey
      exact ⟨e, he, congrArg CostSource.str hs⟩
  · intro source v hv
    have hmem := Dict.get?_eq_some.mp hv
    rw [hentries] at hmem
    obtain ⟨e, he, heq⟩ := List.mem_map.mp hmem
    obtain ⟨hs, rfl⟩ := Prod.mk.inj heq
    have hof := (Dict.eq_of_mem_entries_ofKeys he).2
    rw [str_injective hs] at hof
    rw [hof]
    exact amount_of_hasScale fun r hr =>
      hrows r (List.mem_of_mem_filter (List.mem_of_mem_filter hr))

/-! ### The bodies -/

theorem getUnattributed_eq_ok {seen : Snapshots} {now : Instant} {period : String}
    {body : UnattributedResponse}
    (h : getUnattributed digits lower num seen now period = .ok body) :
    ∃ window, resolvePeriod digits lower period now = .ok window ∧
      body.period = periodModel window.current window.label ∧
      body.totalUsd = totalSpend seen.total window.current {} ∧
      body.unattributedUsd = totalSpend seen.unattributed window.current unowned ∧
      body.attributedUsd = num.dec (body.totalUsd - body.unattributedUsd) ∧
      body.bySource = spendBySource seen.bySource window.current := by
  unfold getUnattributed at h
  obtain ⟨window, hwindow, hbody⟩ := Batch.bind_eq_ok.mp h
  obtain rfl := Except.ok.inj hbody
  exact ⟨window, mapError_eq_ok.mp hwindow, rfl, rfl, rfl, rfl, rfl⟩

theorem getTimeseries_eq_ok {zone : Zone} {dialect : String} {rows : List CostRow} {now : Instant}
    {query : CostQuery} {interval : Interval} {body : TimeseriesResponse}
    (h : getTimeseries digits lower zone dialect rows now query interval = .ok body) :
    ∃ window, resolvePeriod digits lower query.period now = .ok window ∧
      ∃ active, filters query.team query.project query.source none = .ok active ∧
        body.period = periodModel window.current window.label ∧
        aggregateTimeseries zone dialect rows (split query.groupBy) window.current
          (INTERVAL_TO_TRUNC interval) active = .ok body.points := by
  unfold getTimeseries at h
  obtain ⟨window, hwindow, h⟩ := Batch.bind_eq_ok.mp h
  obtain ⟨active, hactive, h⟩ := Batch.bind_eq_ok.mp h
  obtain ⟨points, hpoints, h⟩ := Batch.bind_eq_ok.mp h
  obtain rfl := Except.ok.inj h
  exact ⟨window, mapError_eq_ok.mp hwindow, active, hactive, rfl, mapError_eq_ok.mp hpoints⟩

/-! ### Groups of teams -/

def ofTeam (team : String) (key : Dict String String) : Bool := key.get? "team" = some team

theorem ofTeam_keyOf (team : String) (r : CostRecord) :
    ofTeam team (keyOf ["team"] r) = decide (r.team = team) := by
  rw [ofTeam, get?_keyOf List.mem_cons_self]
  simp [dimension, GROUPABLE, pyStr]

theorem matching_unowned (rows : List CostRow) (period : Period) :
    matching rows period unowned =
      (matching rows period {}).filter fun r => r.team = UNATTRIBUTED := by
  rw [matching, matching, List.filter_filter]
  refine List.filter_congr fun r _ => ?_
  rw [conditions_unowned, Bool.and_comm]

theorem keyOf_team_eq_iff {r q : CostRecord} :
    keyOf ["team"] r = keyOf ["team"] q ↔ r.team = q.team := by
  rw [keyOf_eq_iff, List.map_singleton, List.map_singleton, List.cons.injEq,
    and_iff_left rfl]
  exact Iff.rfl

section TeamGroups

variable {rows : List CostRow} {period : Period} {columns : List (CostRecord → Option String)}
  {groups : List CostGroup}

theorem exists_group_of_point {zone : Zone} {dialect trunc : String}
    {points : List TimeseriesPoint} (hc : resolveColumns ["team"] = .ok columns)
    (hgroups : costGroups .exact rows ["team"] period {} = .ok groups)
    (hpoints : aggregateTimeseries zone dialect rows ["team"] period trunc {} = .ok points)
    {x : TimeseriesPoint} (hx : x ∈ points) : ∃ g ∈ groups, g.key = x.key := by
  obtain ⟨r, hr, hk⟩ := exists_row_of_mem_points hc hpoints hx
  have hne : ((matching rows period {}).filter fun q =>
      keyOf ["team"] q.toCostRecord = x.key) ≠ [] :=
    List.ne_nil_of_mem (List.mem_filter.mpr ⟨hr, decide_eq_true hk.symm⟩)
  obtain ⟨g, hg⟩ := Option.isSome_iff_exists.mp
    ((isSome_groupFor_iff hc hgroups x.key).mpr hne)
  have hkey : g.key = x.key := by simpa using List.find?_some hg
  exact ⟨g, List.mem_of_find?_eq_some hg, hkey⟩

theorem subtotals_unowned (hrows : ∀ r ∈ rows, HasScale CostRecord.moneyScale r.amountUsd)
    (hc : resolveColumns ["team"] = .ok columns)
    (hgroups : costGroups .exact rows ["team"] period {} = .ok groups) {g : CostGroup}
    (hg : g ∈ groups) (hteam : ofTeam UNATTRIBUTED g.key = true) :
    Subtotals g.bySource (matching rows period unowned) := by
  have hclash : ¬NoneClash ["team"] (matching rows period {}) := by
    rintro ⟨hmodel, _⟩
    exact absurd hmodel (by decide)
  have hfaithful := faithfulGroups hrows hc hgroups hclash
  obtain ⟨r, _, hk⟩ := exists_row_of_mem hc hgroups hg
  have hrteam : r.team = UNATTRIBUTED := by
    rw [hk, ofTeam_keyOf] at hteam
    exact of_decide_eq_true hteam
  have hrecords : recordsOf ["team"] (matching rows period {}) g =
      matching rows period unowned := by
    rw [matching_unowned, recordsOf]
    refine List.filter_congr fun q _ => ?_
    rw [hk, Bool.eq_iff_iff, decide_eq_true_iff, decide_eq_true_iff, keyOf_team_eq_iff, hrteam]
  rw [← hrecords]
  exact ⟨hfaithful.sources g hg, hfaithful.part g hg⟩

end TeamGroups

structure Agree (costs : CostQueryResponse) (report : UnattributedResponse)
    (series : TimeseriesResponse) : Prop where
  period : costs.period = report.period ∧ series.period = report.period
  total : costs.totalUsd = report.totalUsd
  points : (series.points.map TimeseriesPoint.amountUsd).sum = report.totalUsd
  team : ∀ g ∈ costs.groups, ((series.points.filter fun x => x.key = g.key).map
    TimeseriesPoint.amountUsd).sum = g.totalUsd
  keys : ∀ x ∈ series.points, ∃ g ∈ costs.groups, g.key = x.key
  unowned : ((costs.groups.filter fun g => ofTeam UNATTRIBUTED g.key).map
    CostGroupModel.totalUsd).sum = report.unattributedUsd
  owned : ((costs.groups.filter fun g => !ofTeam UNATTRIBUTED g.key).map
    CostGroupModel.totalUsd).sum = report.attributedUsd
  sources : ∀ g ∈ costs.groups, ofTeam UNATTRIBUTED g.key = true → ∀ name,
    g.bySource.get? name = report.bySource.get? name

theorem sum_groups_filter {current previous : List CostGroup} {window : PeriodPair}
    (p : Dict String String → Bool) :
    (((queryResponse num window current previous).groups.filter fun g => p g.key).map
      CostGroupModel.totalUsd).sum =
        ((current.filter fun g => p g.key).map CostGroup.totalUsd).sum := by
  rw [queryResponse, List.filter_map, List.map_map]
  rfl

/-- **The routes agree.**  Asked about one window over one snapshot, by teams and without
filters, the three routes give the same total, the same teams and the same total of each,
and the same account of what has no owner. -/
theorem routes_agree {rows previous : List CostRow} {now : Instant} {period : String}
    {zone : Zone} {dialect : String} {interval : Interval} {costs : CostQueryResponse}
    {report : UnattributedResponse} {series : TimeseriesResponse}
    (hrows : ∀ r ∈ rows, HasScale CostRecord.moneyScale r.amountUsd)
    (hcosts : getCosts digits lower .exact ⟨rows, previous⟩ now { period } = .ok costs)
    (hreport : getUnattributed digits lower .exact ⟨rows, rows, rows, rows, rows⟩ now period =
      .ok report)
    (hseries : getTimeseries digits lower zone dialect rows now { period } interval =
      .ok series) : Agree costs report series := by
  obtain ⟨window, hwindow, active, hactive, current, hcur, before, _, rfl⟩ :=
    getCosts_eq_ok.mp hcosts
  replace hcur := costGroups_of_eq_ok hcur
  obtain ⟨window', hwindow', hperiod, htotal, hunowned, howned, hsources⟩ :=
    getUnattributed_eq_ok hreport
  obtain ⟨window'', hwindow'', active', hactive', hperiod', hpoints⟩ := getTimeseries_eq_ok hseries
  obtain rfl := Except.ok.inj (hwindow.symm.trans hwindow')
  obtain rfl := Except.ok.inj (hwindow.symm.trans hwindow'')
  obtain rfl := Except.ok.inj hactive
  obtain rfl := Except.ok.inj hactive'
  have hsplit : split (some "team") = ["team"] := by decide +kernel
  rw [hsplit] at hcur hpoints
  obtain ⟨columns, hc⟩ := exists_columns hcur
  obtain ⟨bucket, hb⟩ := exists_bucketExpression_eq_ok zone dialect
    (show INTERVAL_TO_TRUNC interval ∈ ["hour", "day", "week"] by cases interval <;> decide)
  have hnd := nodup_map_key hc hcur
  have hspend : totalSpend rows window.current {} =
      ((matching rows window.current {}).map fun r => r.amountUsd).sum :=
    totalSpend_eq_matching hrows window.current {}
  have hpart : totalSpend rows window.current unowned =
      (((matching rows window.current {}).filter fun r => r.team = UNATTRIBUTED).map
        fun r => r.amountUsd).sum := by
    rw [totalSpend_eq_matching hrows, matching_unowned]
  have hgroups := fun p => sum_costGroups hrows hc hcur p
  have hsum := fun p => sum_aggregateTimeseries hrows hc hb hpoints p
  constructor
  · exact ⟨hperiod.symm, hperiod'.trans hperiod.symm⟩
  · rw [htotal]
    exact sum_totals hrows hcur
  · have hall := hsum fun _ _ => true
    rw [List.filter_true, List.filter_true] at hall
    rw [hall, htotal, hspend]
    rfl
  · intro g hg
    obtain ⟨g', hg', rfl⟩ := List.mem_map.mp hg
    have hkey := totalFor_eq hrows hc hcur g'.key
    rw [totalFor, groupFor_of_mem hnd hg'] at hkey
    exact (hsum fun _ k => k = g'.key).trans hkey.symm
  · intro x hx
    obtain ⟨g, hg, hk⟩ := exists_group_of_point hc hcur hpoints hx
    exact ⟨groupModel .exact before g, List.mem_map_of_mem hg, hk⟩
  · rw [sum_groups_filter, hgroups, hunowned, hpart]
    simp only [ofTeam_keyOf]
    rfl
  · rw [sum_groups_filter fun k => !ofTeam UNATTRIBUTED k, hgroups fun k => !ofTeam UNATTRIBUTED k,
      howned, exact_dec, htotal, hunowned, hpart, hspend]
    have hperm := ((List.filter_append_perm (fun r : CostRow => decide (r.team = UNATTRIBUTED))
      (matching rows window.current {})).map fun r => r.amountUsd).sum_eq
    rw [List.map_append, List.sum_append] at hperm
    rw [← hperm, add_sub_cancel_left]
    simp only [ofTeam_keyOf]
    rfl
  · intro g hg hteam name
    obtain ⟨g', hg', rfl⟩ := List.mem_map.mp hg
    rw [hsources]
    exact (subtotals_unowned hrows hc hcur hg' hteam).get?_eq
      (subtotals_spendBySource hrows window.current) name

theorem exists_eq_ok_of_isOk {ε α : Type} {x : Except ε α} (h : x.isOk = true) :
    ∃ a, x = .ok a := by
  cases x with
  | error e => cases h
  | ok a => exact ⟨a, rfl⟩

/-- The two days, and a bill of the second that nobody owns. -/
def sharedDays : List CostRow := twoDays ++ [costOf UNATTRIBUTED 26 5 3]

theorem hasScale_sharedDays : ∀ r ∈ sharedDays, HasScale CostRecord.moneyScale r.amountUsd := by
  refine List.forall_mem_append.mpr ⟨hasScale_twoDays, fun r hr => ?_⟩
  rw [List.mem_singleton.mp hr]
  exact hasScale_twoDays (costOf "search" 25 5 2) (by simp [twoDays])

theorem routes_agree_sharedDays : ∃ costs report series,
    getCosts someDigits asciiLower .exact ⟨sharedDays, []⟩ 172800000000 { period := "1d" } =
      .ok costs ∧ report.totalUsd = 10 ∧ report.unattributedUsd = 5 ∧
      Agree costs report series := by
  obtain ⟨costs, hcosts⟩ := exists_eq_ok_of_isOk (x := getCosts someDigits asciiLower .exact
    ⟨sharedDays, []⟩ 172800000000 { period := "1d" }) (by decide +kernel)
  have hfigures : (getUnattributed someDigits asciiLower .exact
      ⟨sharedDays, sharedDays, sharedDays, sharedDays, sharedDays⟩ 172800000000
        "1d").toOption.map (fun report => (report.totalUsd, report.unattributedUsd)) =
          some (10, 5) := by decide +kernel
  obtain ⟨report, hreport⟩ := exists_eq_ok_of_isOk (x := getUnattributed someDigits asciiLower
    .exact ⟨sharedDays, sharedDays, sharedDays, sharedDays, sharedDays⟩ 172800000000 "1d")
      (by decide +kernel)
  obtain ⟨series, hseries⟩ := exists_eq_ok_of_isOk (x := getTimeseries someDigits asciiLower
    .utc "sqlite" sharedDays 172800000000 { period := "1d" } .hour) (by decide +kernel)
  rw [hreport] at hfigures
  obtain ⟨htotal, hunowned⟩ := Prod.mk.inj (Option.some.inj hfigures)
  exact ⟨costs, report, series, hcosts, htotal, hunowned,
    routes_agree hasScale_sharedDays hcosts hreport hseries⟩

end Finops.Api
