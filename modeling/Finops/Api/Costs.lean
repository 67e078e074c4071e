import Finops.Attribution.Grouped
import Finops.Attribution.Periods
import Finops.Attribution.Timeseries
import Finops.Attribution.Unattributed
import Finops.Base.Ranking
import Finops.Base.Text
import Finops.Base.Floats
import Mathlib.Data.Prod.Lex

/-!
# Cost queries

The three routes read a window and their parameters from the query string and answer
with what the engine adds up.  `getCosts` reads two windows, one after the other, and
looks the totals of the first up among those of the second under a key of sorted items.
`compares` says that this is a comparison of the windows key by key: the windows adjoin,
no key is matched with another, and what a key had and has no more is all that the
totals of the groups miss (`Compares.vanished`).

Which requests are refused depends on the parameters only, and one that is not is answered
when the sums that it asks for are in range (`routes_judge_alike`).
-/

namespace Finops.Api

open Numerics Grouping

/-! ### Parameters -/

def split : Option String → List String
  | none => []
  | some value => if value = "" then [] else
      ((Text.parts ',' value).map strip).filter fun part => part ≠ ""

def CostSource.ofStr? : String → Option CostSource
  | "llm" => some .llm
  | "compute" => some .compute
  | "vectordb" => some .vectordb
  | "infra" => some .infra
  | _ => none

inductive HttpError
  | badRequest (detail : String)
  | serverError
  deriving DecidableEq

/-- `CostSource(value)`, where the error is answered. -/
def costSource (value : String) : Except HttpError CostSource :=
  match CostSource.ofStr? value with
  | some s => .ok s
  | none => .error (.badRequest (quoted value ++ " is not a valid CostSource"))

def filters (team project source useCase : Option String) : Except HttpError CostFilters := do
  let sources ← (split source).mapM costSource
  return { teams := split team, projects := split project, useCases := split useCase, sources }

inductive Interval
  | hour
  | day
  | week
  deriving DecidableEq

def Interval.str : Interval → String
  | hour => "1h"
  | day => "1d"
  | week => "1w"

def INTERVAL_TO_TRUNC : Interval → String
  | .hour => "hour"
  | .day => "day"
  | .week => "week"

def DEFAULT_PERIOD : String := "30d"

def ofPeriodError : PeriodError → HttpError
  | .invalidPeriod value => .badRequest ("invalid period " ++ quoted value ++
      "; expected a number followed by h, d or w (e.g. 30d)")
  | .valueError message => .badRequest message
  | .overflowError => .serverError

/-- What they make of an error of the engine: a `ValueError` is caught. -/
def ofEngineError : PyError → HttpError
  | .valueError message => .badRequest message
  | .unknownDimension name => .badRequest ("unknown dimension " ++ quoted name ++
      "; group by one of: agent_id, model, project, team, use_case")
  | _ => .serverError

/-! ### The routes -/

structure PeriodModel where
  start : Instant
  stop : Instant
  label : Option String := none

def periodModel (period : Period) (label : Option String := none) : PeriodModel :=
  ⟨period.start, period.stop, label⟩

/-- One grouped total, with its per-source split and period comparison. -/
structure CostGroupModel where
  key : Dict String String
  totalUsd : ℚ
  bySource : Dict String ℚ
  recordCount : ℕ
  previousTotalUsd : Option ℚ
  changePercent : Option ℚ

structure CostQueryResponse where
  period : PeriodModel
  comparisonPeriod : PeriodModel
  totalUsd : ℚ
  previousTotalUsd : ℚ
  changePercent : Option ℚ
  groups : List CostGroupModel

structure UnattributedResponse where
  period : PeriodModel
  totalUsd : ℚ
  unattributedUsd : ℚ
  attributedUsd : ℚ
  unattributedShare : ℚ
  bySource : Dict String ℚ
  topModels : List UnattributedSlice
  topResources : List UnattributedSlice

structure TimeseriesResponse where
  period : PeriodModel
  interval : String
  points : List TimeseriesPoint

structure CostQuery where
  groupBy : String := "team"
  period : String := DEFAULT_PERIOD
  team : Option String := none
  project : Option String := none
  source : Option String := none
  useCase : Option String := none

/-- Percentage change between two totals; none when there is no baseline. -/
def changePercent (num : Arith) (current previous : ℚ) : Option ℚ :=
  if previous = 0 then none
  else
    let change := num.flt (num.flt current - num.flt previous)
    let ratio := num.flt (change / num.flt previous)
    some (num.flt (toExp halfEven (-2) (num.flt (ratio * 100))))

/-- `tuple(sorted(key.items()))`. -/
def sortedItems (key : Dict String String) : List (String × String) :=
  key.entries.insertionSort fun a b => toLex a ≤ toLex b

def baseline (previous : List CostGroup) : Dict (List (String × String)) ℚ :=
  previous.foldl (fun d group => d.set (sortedItems group.key) group.totalUsd) Dict.empty

def groupModel (num : Arith) (previous : List CostGroup) (group : CostGroup) : CostGroupModel :=
  let prior := (baseline previous).get? (sortedItems group.key)
  { key := group.key
    totalUsd := group.totalUsd
    bySource := group.bySource
    recordCount := group.recordCount
    previousTotalUsd := prior
    changePercent := prior.bind fun v => changePercent num group.totalUsd v }

def queryResponse (num : Arith) (window : PeriodPair) (current previous : List CostGroup) :
    CostQueryResponse :=
  let total := num.sum (current.map CostGroup.totalUsd)
  let previousTotal := num.sum (previous.map CostGroup.totalUsd)
  { period := periodModel window.current window.label
    comparisonPeriod := periodModel window.previous
    totalUsd := total
    previousTotalUsd := previousTotal
    changePercent := changePercent num total previousTotal
    groups := current.map (groupModel num previous) }

/-- What the two statements of `get_costs` see. -/
structure CostSnapshots where
  current : List CostRow
  previous : List CostRow

section

variable (digits : DecimalDigits) (lower : String → String) (num : Arith)

def getCosts (seen : CostSnapshots) (now : Instant) (query : CostQuery) :
    Except HttpError CostQueryResponse := do
  let window ← (resolvePeriod digits lower query.period now).mapError ofPeriodError
  let dimensions := split query.groupBy
  let active ← filters query.team query.project query.source query.useCase
  let current ← (aggregateCosts num seen.current dimensions window.current active).mapError
    ofEngineError
  let previous ← (aggregateCosts num seen.previous dimensions window.previous active).mapError
    ofEngineError
  return queryResponse num window current previous

def getUnattributed (seen : Snapshots) (now : Instant) (period : String := DEFAULT_PERIOD) :
    Except HttpError UnattributedResponse := do
  let window ← (resolvePeriod digits lower period now).mapError fun
    | .invalidPeriod value => ofPeriodError (.invalidPeriod value)
    | _ => .serverError
  let report := unattributedReport seen window.current
  return {
    period := periodModel window.current window.label
    totalUsd := report.totalUsd
    unattributedUsd := report.unattributedUsd
    attributedUsd := num.dec (report.totalUsd - report.unattributedUsd)
    unattributedShare := num.flt (report.unattributedShare num)
    bySource := report.bySource
    topModels := report.topModels
    topResources := report.topResources }

def getTimeseries (zone : Zone) (dialect : String) (rows : List CostRow) (now : Instant)
    (query : CostQuery) (interval : Interval := .day) : Except HttpError TimeseriesResponse := do
  let window ← (resolvePeriod digits lower query.period now).mapError ofPeriodError
  let active ← filters query.team query.project query.source none
  let points ← (aggregateTimeseries zone dialect rows (split query.groupBy) window.current
    (INTERVAL_TO_TRUNC interval) active).mapError ofEngineError
  return ⟨periodModel window.current window.label, interval.str, points⟩

end

variable {digits : DecimalDigits} {lower : String → String} {num : Arith}

/-! ### Names in parameters -/

/-- A name that a comma separated parameter can hold. -/
structure Clean (name : String) : Prop where
  nonempty : name ≠ ""
  stripped : strip name = name
  noComma : ',' ∉ name.toList

theorem mem_of_mem_strip {s : String} {c : Char} (h : c ∈ (strip s).toList) : c ∈ s.toList := by
  rw [toList_strip] at h
  exact (List.dropWhile_suffix _).subset ((List.rdropWhile_prefix _ _).subset h)

theorem clean_of_mem_split {value : Option String} {name : String} (h : name ∈ split value) :
    Clean name := by
  cases value with
  | none => cases h
  | some value =>
    rw [split] at h
    split at h
    · cases h
    · obtain ⟨hmem, hne⟩ := List.mem_filter.mp h
      obtain ⟨part, hpart, rfl⟩ := List.mem_map.mp hmem
      refine ⟨of_decide_eq_true hne, strip_strip part, fun hc => ?_⟩
      exact Text.notMem_of_mem_parts hpart (mem_of_mem_strip hc)

/-- **Clean names are read back.** -/
theorem split_joined {names : List String} (h : ∀ name ∈ names, Clean name) :
    split (some (Text.joined ',' names)) = names := by
  cases hn : names with
  | nil => rfl
  | cons name rest =>
    have hne : names ≠ [] := by
      rw [hn]
      exact List.cons_ne_nil name rest
    rw [← hn]
    have hparts := Text.parts_joined hne fun s hs => (h s hs).noComma
    have hjoined : Text.joined ',' names ≠ "" := by
      intro hempty
      rw [hempty] at hparts
      have hmem : "" ∈ names := hparts ▸ List.mem_singleton.mpr rfl
      exact (h "" hmem).nonempty rfl
    have hstrip : names.map strip = names :=
      (List.map_congr_left fun s hs => (h s hs).stripped).trans (List.map_id _)
    rw [split, if_neg hjoined, hparts, hstrip]
    exact List.filter_eq_self.mpr fun s hs => decide_eq_true (h s hs).nonempty

/-- **What a parameter can say**: the lists of clean names.  So a team can be asked for,
in a parameter that names it, exactly when its name is clean. -/
theorem exists_split_eq_iff :
    (∀ names, (∃ value, split value = names) ↔ ∀ name ∈ names, Clean name) ∧
    ∀ r : CostRecord, (∃ value, split value ≠ [] ∧
      CostFilters.admits { teams := split value } r = true) ↔ Clean r.team := by
  have hfirst : ∀ names, (∃ value, split value = names) ↔ ∀ name ∈ names, Clean name := by
    refine fun names => ⟨?_, fun h => ⟨_, split_joined h⟩⟩
    rintro ⟨value, rfl⟩ name hname
    exact clean_of_mem_split hname
  refine ⟨hfirst, fun r => ⟨?_, fun h => ?_⟩⟩
  · rintro ⟨value, hne, hadmits⟩
    have hteam : oneOf (split value) r.team = true := by
      simp only [CostFilters.admits, Bool.and_eq_true] at hadmits
      exact hadmits.1.1.1.1
    have hmem : r.team ∈ split value := by
      simpa [oneOf, hne] using hteam
    exact clean_of_mem_split hmem
  · obtain ⟨value, hvalue⟩ := (hfirst [r.team]).mpr fun name hn => List.mem_singleton.mp hn ▸ h
    refine ⟨value, hvalue ▸ List.cons_ne_nil _ _, ?_⟩
    rw [hvalue]
    simp [CostFilters.admits, oneOf]

/-! ### Requests that are answered -/

theorem mapError_eq_ok {ε ε' α : Type} {x : Except ε α} {f : ε → ε'} {a : α} :
    x.mapError f = .ok a ↔ x = .ok a := by
  cases x with
  | error e => exact ⟨fun h => (by cases h), fun h => (by cases h)⟩
  | ok b => exact ⟨fun h => congrArg _ (Except.ok.inj h), fun h => congrArg _ (Except.ok.inj h)⟩

theorem getCosts_eq_ok {seen : CostSnapshots} {now : Instant} {query : CostQuery}
    {body : CostQueryResponse} : getCosts digits lower num seen now query = .ok body ↔
      ∃ window, resolvePeriod digits lower query.period now = .ok window ∧
      ∃ active, filters query.team query.project query.source query.useCase = .ok active ∧
      ∃ current, aggregateCosts num seen.current (split query.groupBy) window.current active =
        .ok current ∧
      ∃ previous, aggregateCosts num seen.previous (split query.groupBy) window.previous active =
        .ok previous ∧ queryResponse num window current previous = body := by
  unfold getCosts
  simp only [Batch.bind_eq_ok, mapError_eq_ok, pure, Except.pure, Except.ok.injEq]

/-! ### Keys of sorted items -/

variable {groupBy : List String} {columns : List (CostRecord → Option String)}
  {rows : List CostRow} {period : Period} {active : CostFilters} {groups : List CostGroup}

theorem sortedItems_keyOf {r q : CostRecord}
    (h : sortedItems (keyOf groupBy r) = sortedItems (keyOf groupBy q)) :
    keyOf groupBy r = keyOf groupBy q := by
  have hperm : (keyOf groupBy r).entries.Perm (keyOf groupBy q).entries := by
    refine (List.perm_insertionSort (fun a b => toLex a ≤ toLex b) _).symm.trans ?_
    rw [← sortedItems, h]
    exact List.perm_insertionSort _ _
  have hget := Dict.entries_perm_iff.mp hperm
  refine keyOf_eq_iff.mpr (List.map_congr_left fun name hn => ?_)
  have hname := hget name
  rw [get?_keyOf hn, get?_keyOf hn] at hname
  exact Option.some.inj hname

theorem exists_row_of_mem (hc : resolveColumns groupBy = .ok columns)
    (h : costGroups num rows groupBy period active = .ok groups) {g : CostGroup}
    (hg : g ∈ groups) :
    ∃ r ∈ matching rows period active, g.key = keyOf groupBy r.toCostRecord := by
  obtain ⟨r, hr, hk, _⟩ := exists_tallyOf_of_mem hc h hg
  exact ⟨r, hr, hk⟩

/-- **The baseline of a key** is the total of the group with this key. -/
theorem get?_baseline (hc : resolveColumns groupBy = .ok columns)
    (h : costGroups num rows groupBy period active = .ok groups) (r : CostRecord) :
    (baseline groups).get? (sortedItems (keyOf groupBy r)) =
      (groupFor groups (keyOf groupBy r)).map CostGroup.totalUsd := by
  have hkey : ∀ g ∈ groups, ∀ g' ∈ groups, sortedItems g.key = sortedItems g'.key →
      g.key = g'.key := by
    intro g hg g' hg' hs
    obtain ⟨q, _, hq⟩ := exists_row_of_mem hc h hg
    obtain ⟨q', _, hq'⟩ := exists_row_of_mem hc h hg'
    rw [hq, hq'] at hs ⊢
    exact sortedItems_keyOf hs
  have hnd : (groups.map fun g => sortedItems g.key).Nodup := by
    refine List.Nodup.map_on (fun g hg g' hg' hs => ?_) (nodup_map_key hc h).of_map
    exact List.inj_on_of_nodup_map (nodup_map_key hc h) hg hg' (hkey g hg g' hg' hs)
  have hentries : (baseline groups).entries =
      groups.map fun g => (sortedItems g.key, g.totalUsd) := Dict.entries_foldl_set hnd
  cases hg : groupFor groups (keyOf groupBy r) with
  | some g =>
    have hk : g.key = keyOf groupBy r := by simpa using List.find?_some hg
    refine Dict.get?_eq_some.mpr ?_
    rw [hentries, ← hk]
    exact List.mem_map.mpr ⟨g, List.mem_of_find?_eq_some hg, rfl⟩
  | none =>
    refine Dict.get?_eq_none.mpr fun hmem => ?_
    rw [Dict.keys, hentries, List.map_map] at hmem
    obtain ⟨g, hg', hs⟩ := List.mem_map.mp hmem
    obtain ⟨q, _, hq⟩ := exists_row_of_mem hc h hg'
    have hk : g.key = keyOf groupBy r := by
      change sortedItems g.key = _ at hs
      rw [hq] at hs ⊢
      exact sortedItems_keyOf hs
    exact List.find?_eq_none.mp hg g hg' (by simpa using hk)

/-! ### What is compared -/

def recordsWith (groupBy : List String) (key : Dict String String) (rows : List CostRow)
    (period : Period) (active : CostFilters) : List CostRow :=
  (matching rows period active).filter fun r => keyOf groupBy r.toCostRecord = key

structure Compares (seen : CostSnapshots) (groupBy : List String) (active : CostFilters)
    (window : PeriodPair) (body : CostQueryResponse) : Prop where
  period : body.period = periodModel window.current window.label
  comparisonPeriod : body.comparisonPeriod = periodModel window.previous
  total : body.totalUsd = totalSpend seen.current window.current active
  previousTotal : body.previousTotalUsd = totalSpend seen.previous window.previous active
  keys : (body.groups.map CostGroupModel.key).Nodup
  covers : ∀ key, key ∈ body.groups.map CostGroupModel.key ↔
    recordsWith groupBy key seen.current window.current active ≠ []
  group : ∀ g ∈ body.groups, g.totalUsd =
    ((recordsWith groupBy g.key seen.current window.current active).map fun r => r.amountUsd).sum
  prior : ∀ g ∈ body.groups, g.previousTotalUsd =
    if recordsWith groupBy g.key seen.previous window.previous active = [] then none
    else some ((recordsWith groupBy g.key seen.previous window.previous active).map
      fun r => r.amountUsd).sum
  vanished : body.previousTotalUsd =
    (body.groups.map fun g => g.previousTotalUsd.getD 0).sum +
      (((matching seen.previous window.previous active).filter fun r =>
        keyOf groupBy r.toCostRecord ∉ body.groups.map CostGroupModel.key).map
          fun r => r.amountUsd).sum
  change : ∀ g ∈ body.groups, g.changePercent = none ↔
    ((recordsWith groupBy g.key seen.previous window.previous active).map
      fun r => r.amountUsd).sum = 0
  ordered : Ranking.Descends CostGroupModel.totalUsd body.groups

theorem prior_eq (hrows : ∀ r ∈ rows, HasScale CostRecord.moneyScale r.amountUsd)
    (hc : resolveColumns groupBy = .ok columns)
    (h : costGroups .exact rows groupBy period active = .ok groups) (r : CostRecord) :
    (baseline groups).get? (sortedItems (keyOf groupBy r)) =
      if recordsWith groupBy (keyOf groupBy r) rows period active = [] then none
      else some ((recordsWith groupBy (keyOf groupBy r) rows period active).map
        fun r => r.amountUsd).sum := by
  have hsome := isSome_groupFor_iff hc h (keyOf groupBy r)
  have htotal := totalFor_eq hrows hc h (keyOf groupBy r)
  rw [totalFor] at htotal
  rw [get?_baseline hc h]
  cases hg : groupFor groups (keyOf groupBy r) with
  | none =>
    rw [hg] at hsome
    have hnil : recordsWith groupBy (keyOf groupBy r) rows period active = [] := by
      by_contra hne
      exact Bool.false_ne_true (hsome.mpr hne)
    rw [if_pos hnil]
    rfl
  | some g =>
    rw [hg] at hsome htotal
    have hne : recordsWith groupBy (keyOf groupBy r) rows period active ≠ [] := hsome.mp rfl
    rw [if_neg hne, Option.map_some]
    exact congrArg some htotal

theorem exists_columns (h : costGroups num rows groupBy period active = .ok groups) :
    ∃ columns, resolveColumns groupBy = .ok columns := by
  unfold costGroups at h
  cases hc : resolveColumns groupBy with
  | error e => rw [hc] at h; cases h
  | ok columns => exact ⟨columns, rfl⟩

theorem descends_groups (h : costGroups num rows groupBy period active = .ok groups) :
    Ranking.Descends CostGroup.totalUsd groups := by
  unfold costGroups at h
  cases hc : resolveColumns groupBy with
  | error e => rw [hc] at h; cases h
  | ok columns =>
    rw [hc] at h
    obtain rfl := Except.ok.inj h
    exact (Ranking.isRanking_descending CostGroup.totalUsd _).descends

theorem sum_totals (hrows : ∀ r ∈ rows, HasScale CostRecord.moneyScale r.amountUsd)
    (h : costGroups .exact rows groupBy period active = .ok groups) :
    Arith.exact.sum (groups.map CostGroup.totalUsd) = totalSpend rows period active := by
  obtain ⟨columns, hc⟩ := exists_columns h
  have hsum := sum_costGroups hrows hc h fun _ => true
  rw [List.filter_true, List.filter_true] at hsum
  rw [exact_sum, hsum, totalSpend_eq_matching hrows]

theorem changePercent_eq_none {current previous : ℚ} :
    changePercent num current previous = none ↔ previous = 0 := by
  unfold changePercent
  split
  · rename_i h
    exact iff_of_true rfl h
  · rename_i h
    exact iff_of_false nofun h

/-- **The answer is a comparison.**  Two windows that adjoin are compared key by key, in
descending order of the first; a key is compared with itself only, and what the groups
leave of the preceding total is that of the keys that have no record any more. -/
theorem compares {seen : CostSnapshots} {now : Instant} {query : CostQuery}
    {body : CostQueryResponse}
    (hcurrent : ∀ r ∈ seen.current, HasScale CostRecord.moneyScale r.amountUsd)
    (hprevious : ∀ r ∈ seen.previous, HasScale CostRecord.moneyScale r.amountUsd)
    (h : getCosts digits lower .exact seen now query = .ok body) :
    ∃ window active, resolvePeriod digits lower query.period now = .ok window ∧
      filters query.team query.project query.source query.useCase = .ok active ∧
      Compares seen (split query.groupBy) active window body := by
  obtain ⟨window, hwindow, active, hactive, current, hcur, previous, hprev, rfl⟩ :=
    getCosts_eq_ok.mp h
  replace hcur := costGroups_of_eq_ok hcur
  replace hprev := costGroups_of_eq_ok hprev
  refine ⟨window, active, hwindow, hactive, ?_⟩
  obtain ⟨columns, hc⟩ := exists_columns hcur
  have hkeys : (queryResponse .exact window current previous).groups.map CostGroupModel.key =
      current.map CostGroup.key := List.map_map
  have hnd := nodup_map_key hc hcur
  have hprior : ∀ g ∈ current, (groupModel .exact previous g).previousTotalUsd =
      if recordsWith (split query.groupBy) g.key seen.previous window.previous active = [] then none
      else some ((recordsWith (split query.groupBy) g.key seen.previous window.previous active).map
        fun r => r.amountUsd).sum := by
    intro g hg
    obtain ⟨r, _, hk⟩ := exists_row_of_mem hc hcur hg
    change (baseline previous).get? (sortedItems g.key) = _
    rw [hk]
    exact prior_eq hprevious hc hprev r.toCostRecord
  have hzero : ∀ g ∈ current, (groupModel .exact previous g).previousTotalUsd.getD 0 =
      ((recordsWith (split query.groupBy) g.key seen.previous window.previous active).map
        fun r => r.amountUsd).sum := by
    intro g hg
    rw [hprior g hg]
    split
    · rename_i hnil
      rw [hnil]
      rfl
    · rfl
  constructor
  · rfl
  · rfl
  · exact sum_totals hcurrent hcur
  · exact sum_totals hprevious hprev
  · rw [hkeys]
    exact hnd
  · intro key
    rw [hkeys, recordsWith, ← isSome_groupFor_iff hc hcur key, groupFor, List.find?_isSome,
      List.mem_map]
    simp only [decide_eq_true_eq]
  · intro g hg
    obtain ⟨g', hg', rfl⟩ := List.mem_map.mp hg
    have htotal := totalFor_eq hcurrent hc hcur g'.key
    rw [totalFor, groupFor_of_mem hnd hg'] at htotal
    exact htotal
  · intro g hg
    obtain ⟨g', hg', rfl⟩ := List.mem_map.mp hg
    exact hprior g' hg'
  · have hpart : ((queryResponse .exact window current previous).groups.map fun g =>
        g.previousTotalUsd.getD 0).sum =
        (((matching seen.previous window.previous active).filter fun r =>
          keyOf (split query.groupBy) r.toCostRecord ∈ current.map CostGroup.key).map
            fun r => r.amountUsd).sum := by
      rw [← sum_fibers hnd, List.map_map]
      refine congrArg List.sum ?_
      change (current.map (groupModel .exact previous)).map _ = _
      rw [List.map_map]
      exact List.map_congr_left hzero
    have hsplit := ((List.filter_append_perm (fun r : CostRow =>
      decide (keyOf (split query.groupBy) r.toCostRecord ∈ current.map CostGroup.key))
        (matching seen.previous window.previous active)).map fun r => r.amountUsd).sum_eq
    rw [List.map_append, List.sum_append] at hsplit
    rw [hkeys, hpart]
    refine (sum_totals hprevious hprev).trans ((totalSpend_eq_matching hprevious _ _).trans ?_)
    rw [← hsplit]
    simp only [decide_not]
  · intro g hg
    obtain ⟨g', hg', rfl⟩ := List.mem_map.mp hg
    have hz := hzero g' hg'
    change (groupModel .exact previous g').previousTotalUsd.bind _ = none ↔ _
    change _ ↔ ((recordsWith (split query.groupBy) g'.key seen.previous window.previous
      active).map fun r => r.amountUsd).sum = 0
    rw [← hz]
    cases (groupModel .exact previous g').previousTotalUsd with
    | none => exact iff_of_true rfl rfl
    | some v => exact changePercent_eq_none
  · refine List.pairwise_map.mpr ?_
    exact descends_groups hcur

/-! Two days, of which only the first has a record of the web team. -/

def costOf (team : String) (hour : ℤ) (amount : ℚ) (id : ℕ) : CostRow :=
  ⟨{ source := .llm, dedupKey := toString id, occurredAt := hour * 3600000000, amountUsd := amount,
     team := team }, id⟩

def twoDays : List CostRow := [costOf "search" 1 4 0, costOf "web" 2 6 1, costOf "search" 25 5 2]

theorem hasScale_twoDays : ∀ r ∈ twoDays, HasScale CostRecord.moneyScale r.amountUsd := by
  have hwhole : ∀ r ∈ twoDays, ∃ k ∈ [4, 5, 6], r.amountUsd = (k : ℤ) := by decide +kernel
  intro r hr
  obtain ⟨k, _, hk⟩ := hwhole r hr
  refine ⟨k * 10 ^ 8, ?_⟩
  rw [hk, CostRecord.moneyScale]
  push_cast
  rw [mul_assoc]
  norm_num

theorem compares_twoDays : ∃ body,
    getCosts someDigits asciiLower .exact ⟨twoDays, twoDays⟩ 172800000000 { period := "1d" } =
      .ok body ∧
    (body.groups.map fun g => (g.totalUsd, g.previousTotalUsd, g.changePercent)) =
      [(5, some 4, some 25)] ∧
    ∃ window active, Compares ⟨twoDays, twoDays⟩ ["team"] active window body := by
  have hanswer : (getCosts someDigits asciiLower .exact ⟨twoDays, twoDays⟩ 172800000000
      { period := "1d" }).toOption.map (fun body => body.groups.map fun g =>
        (g.totalUsd, g.previousTotalUsd, g.changePercent)) =
          some [(5, some 4, some 25)] := by decide +kernel
  cases hbody : getCosts someDigits asciiLower .exact ⟨twoDays, twoDays⟩ 172800000000
      { period := "1d" } with
  | error e => rw [hbody] at hanswer; cases hanswer
  | ok body =>
    rw [hbody] at hanswer
    obtain ⟨window, active, _, _, hcompares⟩ := compares hasScale_twoDays hasScale_twoDays hbody
    have hsplit : split (some "team") = ["team"] := by decide +kernel
    exact ⟨body, rfl, Option.some.inj hanswer, window, active, hsplit ▸ hcompares⟩

/-! ### Which requests are answered -/

def CostQuery.activeFilters (query : CostQuery) (sources : List CostSource) : CostFilters where
  teams := split query.team
  projects := split query.project
  useCases := split query.useCase
  sources := sources

theorem filters_eq (team project source useCase : Option String) :
    filters team project source useCase =
      ((split source).mapM costSource).map fun sources => { teams := split team
                                                            projects := split project
                                                            useCases := split useCase
                                                            sources } := by
  unfold filters
  cases (split source).mapM costSource <;> rfl

theorem resolveColumns_cases (groupBy : List String) :
    (Allowed groupBy ∧ ∃ columns, resolveColumns groupBy = .ok columns) ∨
      (¬Allowed groupBy ∧ ∃ e, resolveColumns groupBy = .error e) := by
  by_cases h : Allowed groupBy
  · exact .inl ⟨h, exists_resolveColumns_eq_ok h⟩
  · refine .inr ⟨h, ?_⟩
    cases hc : resolveColumns groupBy with
    | error e => exact ⟨e, rfl⟩
    | ok columns =>
      refine absurd ⟨fun hnil => ?_, fun name hn => ?_⟩ h
      · rw [hnil] at hc
        cases hc
      · unfold resolveColumns at hc
        split at hc
        · cases hc
        · obtain ⟨column, _, hok⟩ :=
            Batch.exists_right_of_forall₂ (Batch.mapM_eq_ok_iff.mp hc) name hn
          cases hg : GROUPABLE name with
          | none => rw [hg] at hok; cases hok
          | some column => rfl

/-- What a request is judged by: its period, its sources and its dimensions, in this
order. -/
def judged (digits : DecimalDigits) (lower : String → String) (now : Instant)
    (query : CostQuery) : Except HttpError (PeriodPair × List CostSource) := do
  let window ← (resolvePeriod digits lower query.period now).mapError ofPeriodError
  let sources ← (split query.source).mapM costSource
  let _ ← (resolveColumns (split query.groupBy)).mapError ofEngineError
  return (window, sources)

section Judged

variable {now : Instant} {query : CostQuery} {window : PeriodPair} {sources : List CostSource}
  {e : HttpError}

theorem judged_eq_ok : judged digits lower now query = .ok (window, sources) ↔
    resolvePeriod digits lower query.period now = .ok window ∧
      (split query.source).mapM costSource = .ok sources ∧ Allowed (split query.groupBy) := by
  unfold judged
  simp only [Batch.bind_eq_ok, mapError_eq_ok, pure, Except.pure, Except.ok.injEq, Prod.mk.injEq]
  constructor
  · rintro ⟨_, hwindow, _, hsources, columns, hc, rfl, rfl⟩
    refine ⟨hwindow, hsources, ?_⟩
    rcases resolveColumns_cases (split query.groupBy) with ⟨hallowed, _⟩ | ⟨_, e, he⟩
    · exact hallowed
    · rw [he] at hc
      cases hc
  · rintro ⟨hwindow, hsources, hallowed⟩
    obtain ⟨columns, hc⟩ := exists_resolveColumns_eq_ok hallowed
    exact ⟨window, hwindow, sources, hsources, columns, hc, rfl, rfl⟩

theorem getCosts_eq_judged (num : Arith) (seen : CostSnapshots) :
    getCosts digits lower num seen now query = (do
      let (window, sources) ← judged digits lower now query
      let current ← (aggregateCosts num seen.current (split query.groupBy) window.current
        (query.activeFilters sources)).mapError ofEngineError
      let previous ← (aggregateCosts num seen.previous (split query.groupBy) window.previous
        (query.activeFilters sources)).mapError ofEngineError
      return queryResponse num window current previous) := by
  unfold getCosts judged
  rw [filters_eq]
  cases resolvePeriod digits lower query.period now with
  | error e => rfl
  | ok window =>
    cases (split query.source).mapM costSource with
    | error e => rfl
    | ok sources =>
      cases hc : resolveColumns (split query.groupBy) with
      | ok columns => rfl
      -- the engine resolves the columns before it queries
      | error e => simp only [Except.mapError, Except.map, bind, Except.bind, aggregateCosts, hc]

theorem getTimeseries_eq_judged (zone : Zone) (dialect : String) (rows : List CostRow)
    (interval : Interval) :
    getTimeseries digits lower zone dialect rows now query interval = (do
      let (window, sources) ← judged digits lower now query
      let points ← (aggregateTimeseries zone dialect rows (split query.groupBy) window.current
        (INTERVAL_TO_TRUNC interval) { query.activeFilters sources with useCases := [] }).mapError
          ofEngineError
      return ⟨periodModel window.current window.label, interval.str, points⟩) := by
  unfold getTimeseries judged
  rw [filters_eq]
  cases resolvePeriod digits lower query.period now with
  | error e => rfl
  | ok window =>
    cases (split query.source).mapM costSource with
    | error e => rfl
    | ok sources =>
      cases hc : resolveColumns (split query.groupBy) with
      | ok columns => rfl
      | error e =>
        simp only [Except.mapError, Except.map, bind, Except.bind, aggregateTimeseries, hc]

theorem interval_mem (interval : Interval) :
    INTERVAL_TO_TRUNC interval ∈ ["hour", "day", "week"] := by
  cases interval <;> decide

theorem aggregateCosts_error {rows : List CostRow} {period : Period} {active : CostFilters}
    {groupBy : List String} {err : PyError} (hallowed : Allowed groupBy)
    (h : aggregateCosts num rows groupBy period active = .error err) : err = .dataError := by
  obtain ⟨columns, hc⟩ := exists_resolveColumns_eq_ok hallowed
  unfold aggregateCosts at h
  simp only [hc, bind, Except.bind] at h
  split at h
  · cases h
  · exact (Except.error.inj h).symm

theorem aggregateTimeseries_error {zone : Zone} {dialect : String} {rows : List CostRow}
    {period : Period} {active : CostFilters} {groupBy : List String} {interval : Interval}
    {err : PyError} (hallowed : Allowed groupBy) (h : aggregateTimeseries zone dialect rows groupBy
      period (INTERVAL_TO_TRUNC interval) active = .error err) : err = .dataError := by
  obtain ⟨columns, hc⟩ := exists_resolveColumns_eq_ok hallowed
  obtain ⟨bucket, hb⟩ := exists_bucketExpression_eq_ok zone dialect (interval_mem interval)
  unfold aggregateTimeseries at h
  simp only [hc, hb, bind, Except.bind] at h
  split at h
  · cases h
  · exact (Except.error.inj h).symm

/-- **A request that is not refused is answered** when its sums are in range, and else fails
with a server error. -/
theorem getCosts_of_judged (num : Arith) (seen : CostSnapshots)
    (h : judged digits lower now query = .ok (window, sources)) :
    ((∃ body, getCosts digits lower num seen now query = .ok body) ↔
      CostsInRange seen.current (split query.groupBy) window.current
        (query.activeFilters sources) ∧
      CostsInRange seen.previous (split query.groupBy) window.previous
        (query.activeFilters sources)) ∧
    ∀ e, getCosts digits lower num seen now query = .error e → e = .serverError := by
  obtain ⟨hwindow, hsources, hallowed⟩ := judged_eq_ok.mp h
  rw [← exists_aggregateCosts_eq_ok num seen.current window.current
      (query.activeFilters sources) hallowed,
    ← exists_aggregateCosts_eq_ok num seen.previous window.previous
      (query.activeFilters sources) hallowed, getCosts_eq_judged, h]
  dsimp only [bind, Except.bind]
  cases hcur : aggregateCosts num seen.current (split query.groupBy) window.current
      (query.activeFilters sources) with
  | error err =>
    obtain rfl := aggregateCosts_error hallowed hcur
    exact ⟨⟨fun ⟨_, hb⟩ => (by cases hb), fun ⟨⟨_, hb⟩, _⟩ => (by cases hb)⟩,
      fun e he => (Except.error.inj he).symm⟩
  | ok current =>
    cases hprev : aggregateCosts num seen.previous (split query.groupBy) window.previous
        (query.activeFilters sources) with
    | error err =>
      obtain rfl := aggregateCosts_error hallowed hprev
      exact ⟨⟨fun ⟨_, hb⟩ => (by cases hb), fun ⟨_, _, hb⟩ => (by cases hb)⟩,
        fun e he => (Except.error.inj he).symm⟩
    | ok previous =>
      exact ⟨⟨fun _ => ⟨⟨_, rfl⟩, _, rfl⟩, fun _ => ⟨_, rfl⟩⟩, fun e he => (by cases he)⟩

theorem getTimeseries_of_judged (zone : Zone) (dialect : String) (rows : List CostRow)
    (interval : Interval) (h : judged digits lower now query = .ok (window, sources)) :
    ((∃ body, getTimeseries digits lower zone dialect rows now query interval = .ok body) ↔
      SeriesInRange zone dialect rows (split query.groupBy) window.current
        (INTERVAL_TO_TRUNC interval) { query.activeFilters sources with useCases := [] }) ∧
    ∀ e, getTimeseries digits lower zone dialect rows now query interval = .error e →
      e = .serverError := by
  obtain ⟨hwindow, hsources, hallowed⟩ := judged_eq_ok.mp h
  rw [← exists_aggregateTimeseries_eq_ok zone dialect rows window.current
    { query.activeFilters sources with useCases := [] } hallowed (interval_mem interval),
    getTimeseries_eq_judged, h]
  dsimp only [bind, Except.bind]
  cases hpoints : aggregateTimeseries zone dialect rows (split query.groupBy) window.current
      (INTERVAL_TO_TRUNC interval) { query.activeFilters sources with useCases := [] } with
  | error err =>
    obtain rfl := aggregateTimeseries_error hallowed hpoints
    exact ⟨⟨fun ⟨_, hb⟩ => (by cases hb), fun ⟨_, hb⟩ => (by cases hb)⟩,
      fun e he => (Except.error.inj he).symm⟩
  | ok points => exact ⟨⟨fun _ => ⟨_, rfl⟩, fun _ => ⟨_, rfl⟩⟩, fun e he => (by cases he)⟩

end Judged

/-- **The routes judge alike.**  `get_costs` and `get_timeseries` refuse the same requests,
with the same details, and what `get_unattributed` refuses they refuse so too.  A request
that is not refused, of a period, sources and dimensions that are known, is answered by
each when the sums that it asks the database for are in range. -/
theorem routes_judge_alike (digits : DecimalDigits) (lower : String → String) (num : Arith)
    (zone : Zone) (dialect : String) (costs : CostSnapshots) (rows : List CostRow)
    (report : Snapshots) (now : Instant) (query : CostQuery) (interval : Interval) :
    ((∃ body, getCosts digits lower num costs now query = .ok body) ↔
      ∃ window sources, resolvePeriod digits lower query.period now = .ok window ∧
        (split query.source).mapM costSource = .ok sources ∧ Allowed (split query.groupBy) ∧
        CostsInRange costs.current (split query.groupBy) window.current
          (query.activeFilters sources) ∧
        CostsInRange costs.previous (split query.groupBy) window.previous
          (query.activeFilters sources)) ∧
    ((∃ body, getTimeseries digits lower zone dialect rows now query interval = .ok body) ↔
      ∃ window sources, resolvePeriod digits lower query.period now = .ok window ∧
        (split query.source).mapM costSource = .ok sources ∧ Allowed (split query.groupBy) ∧
        SeriesInRange zone dialect rows (split query.groupBy) window.current
          (INTERVAL_TO_TRUNC interval) { query.activeFilters sources with useCases := [] }) ∧
    (∀ detail, getCosts digits lower num costs now query = .error (.badRequest detail) ↔
      getTimeseries digits lower zone dialect rows now query interval =
        .error (.badRequest detail)) ∧
    (∀ detail, getUnattributed digits lower num report now query.period =
        .error (.badRequest detail) →
      getCosts digits lower num costs now query = .error (.badRequest detail)) := by
  have hlast : ∀ detail, getUnattributed digits lower num report now query.period =
      .error (.badRequest detail) →
        judged digits lower now query = .error (.badRequest detail) := by
    intro detail h
    unfold getUnattributed at h
    unfold judged
    cases hperiod : resolvePeriod digits lower query.period now with
    | ok window => rw [hperiod] at h; cases h
    | error e =>
      rw [hperiod] at h
      cases e with
      | invalidPeriod value =>
        have hdetail : ofPeriodError (.invalidPeriod value) = .badRequest detail :=
          Except.error.inj h
        exact congrArg _ hdetail
      | valueError message => cases h
      | overflowError => cases h
  cases hj : judged digits lower now query with
  | error e =>
    rw [getCosts_eq_judged, getTimeseries_eq_judged, hj]
    refine ⟨⟨fun ⟨_, h⟩ => (by cases h), ?_⟩, ⟨fun ⟨_, h⟩ => (by cases h), ?_⟩, fun _ => ?_,
      fun detail h => ?_⟩
    · rintro ⟨window, sources, hwindow, hsources, hallowed, _⟩
      rw [judged_eq_ok.mpr ⟨hwindow, hsources, hallowed⟩] at hj
      cases hj
    · rintro ⟨window, sources, hwindow, hsources, hallowed, _⟩
      rw [judged_eq_ok.mpr ⟨hwindow, hsources, hallowed⟩] at hj
      cases hj
    · exact ⟨fun h => congrArg _ (Except.error.inj h), fun h => congrArg _ (Except.error.inj h)⟩
    · exact congrArg _ (Except.error.inj (hj.symm.trans (hlast detail h)))
  | ok x =>
    obtain ⟨window, sources⟩ := x
    obtain ⟨hwindow, hsources, hallowed⟩ := judged_eq_ok.mp hj
    obtain ⟨hcosts, hcostsError⟩ := getCosts_of_judged num costs hj
    obtain ⟨hseries, hseriesError⟩ := getTimeseries_of_judged zone dialect rows interval hj
    rw [hcosts, hseries]
    refine ⟨⟨fun h => ⟨window, sources, hwindow, hsources, hallowed, h⟩, ?_⟩,
      ⟨fun h => ⟨window, sources, hwindow, hsources, hallowed, h⟩, ?_⟩, fun detail => ?_,
      fun detail h => ?_⟩
    · rintro ⟨window', sources', hwindow', hsources', _, h⟩
      obtain rfl := Except.ok.inj (hwindow'.symm.trans hwindow)
      obtain rfl := Except.ok.inj (hsources'.symm.trans hsources)
      exact h
    · rintro ⟨window', sources', hwindow', hsources', _, h⟩
      obtain rfl := Except.ok.inj (hwindow'.symm.trans hwindow)
      obtain rfl := Except.ok.inj (hsources'.symm.trans hsources)
      exact h
    · exact ⟨fun h => absurd (hcostsError _ h) (by simp),
        fun h => absurd (hseriesError _ h) (by simp)⟩
    · rw [hlast detail h] at hj
      cases hj

end Finops.Api
