import Finops.Attribution.Queries

/-!
# Groups and their records

The database groups by columns, the fold by their texts.  A group is faithful when it
holds the records with its values and no others, and its subtotals are theirs.  The
two keys part in one place, a null model beside a model named None (`NoneClash`): such
records share a group, and where they share a source as well, one subtotal is written
over the other.  `groupsFaithfully_iff` says that this is all that can go wrong, but for a
sum that is out of range, where the query raises.
-/

namespace Finops

open Numerics Grouping

def recordsOf (groupBy : List String) (records : List CostRow) (g : CostGroup) : List CostRow :=
  records.filter fun r => keyOf groupBy r.toCostRecord = g.key

/-- The groups are those of the records, each with its own records and subtotals. -/
structure FaithfulGroups (groupBy : List String) (records : List CostRow)
    (groups : List CostGroup) : Prop where
  one : ∀ r ∈ records, (groups.filter fun g => g.key = keyOf groupBy r.toCostRecord).length = 1
  apart : ∀ g ∈ groups, ∀ r ∈ recordsOf groupBy records g, ∀ q ∈ recordsOf groupBy records g,
    valuesOf groupBy r.toCostRecord = valuesOf groupBy q.toCostRecord
  total : ∀ g ∈ groups, g.totalUsd = ((recordsOf groupBy records g).map fun r => r.amountUsd).sum
  parts : ∀ g ∈ groups, g.totalUsd = g.bySource.values.sum
  part : ∀ g ∈ groups, ∀ (source : CostSource) (v : ℚ), g.bySource.get? source.str = some v →
    v = (((recordsOf groupBy records g).filter fun r => r.source = source).map
      fun r => r.amountUsd).sum
  sources : ∀ g ∈ groups, ∀ name, name ∈ g.bySource.keys ↔
    ∃ r ∈ recordsOf groupBy records g, r.source.str = name
  count : ∀ g ∈ groups, g.recordCount = (recordsOf groupBy records g).length

/-- The query comes out, with faithful groups. -/
def GroupsFaithfully (rows : List CostRow) (groupBy : List String) (period : Period)
    (filters : CostFilters) : Prop :=
  ∃ groups, aggregateCosts .exact rows groupBy period filters = .ok groups ∧
    FaithfulGroups groupBy (matching rows period filters) groups

/-- A null model and a model named None, with the other dimensions the same. -/
def NoneClash (groupBy : List String) (records : List CostRow) : Prop :=
  "model" ∈ groupBy ∧ ∃ r ∈ records, ∃ q ∈ records, r.model = none ∧ q.model = some "None" ∧
    ∀ name ∈ groupBy, name ≠ "model" →
      dimension name r.toCostRecord = dimension name q.toCostRecord

variable {num : Arith} {rows records : List CostRow} {groupBy : List String} {period : Period}
  {filters : CostFilters} {columns : List (CostRecord → Option String)} {groups : List CostGroup}

/-! ### Texts and values -/

theorem keyOf_eq_of_valuesOf_eq {r q : CostRecord}
    (h : valuesOf groupBy r = valuesOf groupBy q) : keyOf groupBy r = keyOf groupBy q := by
  rw [keyOf_eq_iff]
  have := congrArg (List.map pyStr) h
  rwa [valuesOf, valuesOf, List.map_map, List.map_map] at this

theorem groupable_cases (name : String) : GROUPABLE name = none ∨
    (name = "model" ∧ GROUPABLE name = some fun r => r.model) ∨
      ∃ f : CostRecord → String, GROUPABLE name = some fun r => some (f r) := by
  unfold GROUPABLE
  split
  case h_5 => exact .inr (.inl ⟨rfl, rfl⟩)
  case h_6 => exact .inl rfl
  all_goals exact .inr (.inr ⟨_, rfl⟩)

theorem model_of_dimension_eq {name : String} {r q : CostRecord}
    (h : dimension name r = dimension name q)
    (hne : ((GROUPABLE name).bind fun column => column r) ≠
      (GROUPABLE name).bind fun column => column q) :
    name = "model" ∧ (r.model = none ∧ q.model = some "None" ∨
      q.model = none ∧ r.model = some "None") := by
  unfold dimension at h
  rcases groupable_cases name with hg | ⟨rfl, hg⟩ | ⟨f, hg⟩
  · rw [hg] at hne
    exact absurd rfl hne
  · rw [hg] at h hne
    change pyStr r.model = pyStr q.model at h
    change r.model ≠ q.model at hne
    refine ⟨rfl, ?_⟩
    cases hr : r.model with
    | none =>
      cases hq : q.model with
      | none => exact absurd (hr.trans hq.symm) hne
      | some m =>
        rw [hr, hq] at h
        exact .inl ⟨rfl, congrArg some h.symm⟩
    | some m =>
      cases hq : q.model with
      | none =>
        rw [hr, hq] at h
        exact .inr ⟨rfl, congrArg some h⟩
      | some m' =>
        rw [hr, hq] at h hne
        exact absurd (congrArg some h) hne
  · rw [hg] at h hne
    exact absurd (congrArg some h) hne

/-- **Records with one key have the same values**, unless a null model meets a model
named None. -/
theorem valuesOf_eq_of_keyOf_eq (hclash : ¬ NoneClash groupBy records) {r q : CostRow}
    (hr : r ∈ records) (hq : q ∈ records)
    (h : keyOf groupBy r.toCostRecord = keyOf groupBy q.toCostRecord) :
    valuesOf groupBy r.toCostRecord = valuesOf groupBy q.toCostRecord := by
  have htext : ∀ name ∈ groupBy, dimension name r.toCostRecord = dimension name q.toCostRecord :=
    fun name hn => List.map_inj_left.mp (keyOf_eq_iff.mp h) name hn
  refine List.map_congr_left fun name hn => ?_
  by_contra hne
  obtain ⟨rfl, ⟨hnone, hsome⟩ | ⟨hnone, hsome⟩⟩ := model_of_dimension_eq (htext name hn) hne
  · exact hclash ⟨hn, r, hr, q, hq, hnone, hsome, fun name hn' _ => htext name hn'⟩
  · exact hclash ⟨hn, q, hq, r, hr, hnone, hsome, fun name hn' _ => (htext name hn').symm⟩

/-! ### The subtotals of a group -/

theorem groupFor_of_mem (h : (groups.map CostGroup.key).Nodup) {g : CostGroup} (hg : g ∈ groups) :
    groupFor groups g.key = some g := by
  unfold groupFor
  cases hf : groups.find? fun g' => g'.key = g.key with
  | none => exact absurd (List.find?_eq_none.mp hf g hg) (by simp)
  | some g' =>
    have hk : g'.key = g.key := by simpa using List.find?_some hf
    rw [List.inj_on_of_nodup_map h (List.mem_of_find?_eq_some hf) hg hk]

def resultRows (columns : List (CostRecord → Option String)) (records : List CostRow)
    (values : List String) : List ((List (Option String) × CostSource) × List CostRow) :=
  (groupOn (fun r : CostRow => (columns.map fun column => column r.toCostRecord, r.source))
    records).entries.filter fun e => e.1.1.map pyStr = values

def tallyOf (num : Arith) (l : List ((List (Option String) × CostSource) × List CostRow)) :
    Tally := l.foldl (fun t e => t.addRow num e.1.2.str e.2) ⟨0, Dict.empty, 0⟩

theorem total_tallyOf (l : List ((List (Option String) × CostSource) × List CostRow)) :
    (tallyOf .exact l).total = (l.map fun e => amount e.2).sum :=
  (total_foldl_addRow l _).trans (zero_add _)

theorem entries_bySource {l : List ((List (Option String) × CostSource) × List CostRow)}
    (h : (l.map fun e => e.1.2.str).Nodup) :
    (tallyOf num l).bySource.entries = l.map fun e => (e.1.2.str, amount e.2) := by
  have hfold : ∀ (l : List ((List (Option String) × CostSource) × List CostRow)) (t : Tally),
      (l.foldl (fun t e => t.addRow num e.1.2.str e.2) t).bySource =
        l.foldl (fun d e => d.set e.1.2.str (amount e.2)) t.bySource := by
    intro l
    induction l with
    | nil => intro t; rfl
    | cons e l ih => intro t; exact ih _
  rw [tallyOf, hfold]
  exact Dict.entries_foldl_set h

/-- **What a group is made of**: the result rows with the texts of some record. -/
theorem exists_tallyOf_of_mem (hc : resolveColumns groupBy = .ok columns)
    (h : costGroups num rows groupBy period filters = .ok groups) {g : CostGroup}
    (hg : g ∈ groups) : ∃ r ∈ matching rows period filters, g.key = keyOf groupBy r.toCostRecord ∧
      ∃ t : Tally, t = tallyOf num (resultRows columns (matching rows period filters)
        (groupBy.map fun name => dimension name r.toCostRecord)) ∧
          g.totalUsd = t.total ∧ g.bySource = t.bySource := by
  obtain ⟨e, he, rfl⟩ := List.mem_map.mp ((costGroups_perm hc h).mem_iff.mp hg)
  obtain ⟨r, hr, hvalues⟩ := exists_row_of_mem_tallies hc (List.mem_map_of_mem he)
  refine ⟨r, hr, ?_, e.2, ?_, rfl, rfl⟩
  · dsimp only
    rw [hvalues, zip_eq_keyOf]
  · have hget := Dict.get?_eq_some.mpr he
    have hd : (tallies num columns (matching rows period filters)).getD e.1 ⟨0, Dict.empty, 0⟩ =
        tallyOf num (resultRows columns (matching rows period filters) e.1) := getD_gather _ _
    rw [Dict.getD, hget, Option.getD_some] at hd
    rw [hd, hvalues]

theorem exists_row_of_mem_resultRows (hc : resolveColumns groupBy = .ok columns)
    {values : List String} {e : (List (Option String) × CostSource) × List CostRow}
    (he : e ∈ resultRows columns records values) : ∃ r ∈ records,
      e.1 = (valuesOf groupBy r.toCostRecord, r.source) ∧
      (groupBy.map fun name => dimension name r.toCostRecord) = values ∧
      e.2 = records.filter fun q => (valuesOf groupBy q.toCostRecord, q.source) = e.1 := by
  obtain ⟨hmem, htexts⟩ := List.mem_filter.mp he
  obtain ⟨hkey, hrows⟩ := Dict.eq_of_mem_entries_ofKeys hmem
  obtain ⟨r, hr, hk⟩ := List.mem_map.mp hkey
  simp only [map_columns_eq_valuesOf hc] at hk hrows
  refine ⟨r, hr, hk.symm, ?_, hrows⟩
  rw [← of_decide_eq_true htexts, ← hk, ← map_columns_eq_valuesOf hc, List.map_map]
  exact (map_columns hc r.toCostRecord).symm

theorem exists_mem_resultRows (hc : resolveColumns groupBy = .ok columns) {r : CostRow}
    (hr : r ∈ records) : ∃ e ∈ resultRows columns records
      (groupBy.map fun name => dimension name r.toCostRecord), e.1.2 = r.source := by
  have hkey : ((columns.map fun column => column r.toCostRecord), r.source) ∈
      (groupOn (fun r : CostRow =>
        (columns.map fun column => column r.toCostRecord, r.source)) records).keys :=
    Dict.mem_keys_ofKeys.mpr (List.mem_map.mpr ⟨r, hr, rfl⟩)
  obtain ⟨e, he, hk⟩ := List.mem_map.mp hkey
  refine ⟨e, List.mem_filter.mpr ⟨he, decide_eq_true ?_⟩, by rw [hk]⟩
  rw [hk, ← map_columns hc, List.map_map]
  rfl

/-- **Without a clash**, a group has one result row for each of its sources. -/
theorem nodup_source_resultRows (hc : resolveColumns groupBy = .ok columns)
    (hclash : ¬ NoneClash groupBy records) (values : List String) :
    ((resultRows columns records values).map fun e => e.1.2.str).Nodup := by
  refine List.Nodup.map_on ?_ ((Dict.nodup_entries _).filter _)
  intro e he e' he' hs
  obtain ⟨r, hr, hk, htexts, _⟩ := exists_row_of_mem_resultRows hc he
  obtain ⟨r', hr', hk', htexts', _⟩ := exists_row_of_mem_resultRows hc he'
  have hkey := keyOf_eq_iff.mpr (htexts.trans htexts'.symm)
  have hfst : e.1 = e'.1 := by
    rw [hk, hk'] at hs ⊢
    rw [valuesOf_eq_of_keyOf_eq hclash hr hr' hkey, show r.source = r'.source from str_injective hs]
  exact List.inj_on_of_nodup_map (Dict.nodup _) (List.mem_of_mem_filter he)
    (List.mem_of_mem_filter he') hfst

theorem rows_of_mem_resultRows (hc : resolveColumns groupBy = .ok columns)
    (hclash : ¬ NoneClash groupBy records) {g : CostGroup} {r : CostRow}
    (hg : g.key = keyOf groupBy r.toCostRecord)
    {e : (List (Option String) × CostSource) × List CostRow}
    (he : e ∈ resultRows columns records
      (groupBy.map fun name => dimension name r.toCostRecord)) :
    e.2 = (recordsOf groupBy records g).filter fun q => q.source = e.1.2 := by
  obtain ⟨r', hr', hk, htexts, hrows⟩ := exists_row_of_mem_resultRows hc he
  have hkey : keyOf groupBy r'.toCostRecord = g.key := by rw [hg, keyOf_eq_iff, htexts]
  rw [hrows, recordsOf, List.filter_filter]
  refine List.filter_congr fun q hq => ?_
  rw [Bool.eq_iff_iff, decide_eq_true_iff, Bool.and_eq_true, decide_eq_true_iff,
    decide_eq_true_iff, hk]
  constructor
  · intro heq
    obtain ⟨hv, hs⟩ := Prod.mk.inj heq
    exact ⟨hs, (keyOf_eq_of_valuesOf_eq hv).trans hkey⟩
  · rintro ⟨hs, hq'⟩
    rw [valuesOf_eq_of_keyOf_eq hclash hq hr' (hq'.trans hkey.symm), hs]

/-! ### Faithful groups -/

theorem length_filter_key (hc : resolveColumns groupBy = .ok columns)
    (h : costGroups num rows groupBy period filters = .ok groups) {r : CostRow}
    (hr : r ∈ matching rows period filters) :
    (groups.filter fun g => g.key = keyOf groupBy r.toCostRecord).length = 1 := by
  have hsome := (isSome_groupFor_iff hc h (keyOf groupBy r.toCostRecord)).mpr
    (List.ne_nil_of_mem (List.mem_filter.mpr ⟨hr, decide_eq_true rfl⟩))
  obtain ⟨g, hg⟩ := Option.isSome_iff_exists.mp hsome
  have hone := getD_groupFor (nodup_map_key hc h) (fun _ => 1) (keyOf groupBy r.toCostRecord)
  rw [hg] at hone
  simpa using hone.symm

/-- **What a group without a clash is made of**: a subtotal for each result row with the
texts of some record. -/
theorem exists_resultRows_of_mem (hc : resolveColumns groupBy = .ok columns)
    (h : costGroups .exact rows groupBy period filters = .ok groups)
    (hclash : ¬ NoneClash groupBy (matching rows period filters)) {g : CostGroup}
    (hg : g ∈ groups) : ∃ r : CostRow, g.key = keyOf groupBy r.toCostRecord ∧
      g.totalUsd = ((resultRows columns (matching rows period filters)
        (groupBy.map fun name => dimension name r.toCostRecord)).map fun e => amount e.2).sum ∧
      g.bySource.entries = (resultRows columns (matching rows period filters)
        (groupBy.map fun name => dimension name r.toCostRecord)).map
          fun e => (e.1.2.str, amount e.2) := by
  obtain ⟨r, _, hk, t, ht, htotal, hsources⟩ := exists_tallyOf_of_mem hc h hg
  refine ⟨r, hk, ?_, ?_⟩
  · rw [htotal, ht, total_tallyOf]
  · rw [hsources, ht, entries_bySource (nodup_source_resultRows hc hclash _)]

theorem part_eq (hrows : ∀ r ∈ rows, HasScale CostRecord.moneyScale r.amountUsd)
    (hc : resolveColumns groupBy = .ok columns)
    (h : costGroups .exact rows groupBy period filters = .ok groups)
    (hclash : ¬ NoneClash groupBy (matching rows period filters)) {g : CostGroup}
    (hg : g ∈ groups) {source : CostSource} {v : ℚ} (hv : g.bySource.get? source.str = some v) :
    v = (((recordsOf groupBy (matching rows period filters) g).filter
      fun r => r.source = source).map fun r => r.amountUsd).sum := by
  obtain ⟨r, hk, _, hentries⟩ := exists_resultRows_of_mem hc h hclash hg
  have hmem := Dict.get?_eq_some.mp hv
  rw [hentries] at hmem
  obtain ⟨e, he, heq⟩ := List.mem_map.mp hmem
  obtain ⟨hs, rfl⟩ := Prod.mk.inj heq
  have hof := rows_of_mem_resultRows hc hclash hk he
  rw [str_injective hs] at hof
  rw [← hof]
  refine amount_of_hasScale fun q hq => ?_
  rw [hof] at hq
  exact hrows q (List.mem_of_mem_filter (List.mem_of_mem_filter (List.mem_of_mem_filter hq)))

theorem mem_sources_iff (hc : resolveColumns groupBy = .ok columns)
    (h : costGroups .exact rows groupBy period filters = .ok groups)
    (hclash : ¬ NoneClash groupBy (matching rows period filters)) {g : CostGroup}
    (hg : g ∈ groups) (name : String) : name ∈ g.bySource.keys ↔
      ∃ r ∈ recordsOf groupBy (matching rows period filters) g, r.source.str = name := by
  obtain ⟨r, hk, _, hentries⟩ := exists_resultRows_of_mem hc h hclash hg
  rw [Dict.keys, hentries, List.map_map, List.mem_map]
  constructor
  · rintro ⟨e, he, rfl⟩
    obtain ⟨r', hr', hk', htexts, _⟩ := exists_row_of_mem_resultRows hc he
    refine ⟨r', List.mem_filter.mpr ⟨hr', decide_eq_true ?_⟩, ?_⟩
    · rw [hk, keyOf_eq_iff, htexts]
    · rw [Function.comp, hk']
  · rintro ⟨r', hr', rfl⟩
    obtain ⟨hr', hk'⟩ := List.mem_filter.mp hr'
    obtain ⟨e, he, hs⟩ := exists_mem_resultRows hc hr'
    rw [keyOf_eq_iff.mp ((of_decide_eq_true hk').trans hk)] at he
    exact ⟨e, he, congrArg CostSource.str hs⟩

/-- **Groups without a clash are faithful.** -/
theorem faithfulGroups (hrows : ∀ r ∈ rows, HasScale CostRecord.moneyScale r.amountUsd)
    (hc : resolveColumns groupBy = .ok columns)
    (h : costGroups .exact rows groupBy period filters = .ok groups)
    (hclash : ¬ NoneClash groupBy (matching rows period filters)) :
    FaithfulGroups groupBy (matching rows period filters) groups := by
  have hof : ∀ g ∈ groups, groupFor groups g.key = some g :=
    fun g hg => groupFor_of_mem (nodup_map_key hc h) hg
  constructor
  · exact fun r hr => length_filter_key hc h hr
  · intro g _ r hr q hq
    obtain ⟨hr, hkr⟩ := List.mem_filter.mp hr
    obtain ⟨hq, hkq⟩ := List.mem_filter.mp hq
    exact valuesOf_eq_of_keyOf_eq hclash hr hq
      ((of_decide_eq_true hkr).trans (of_decide_eq_true hkq).symm)
  · intro g hg
    have htotal := totalFor_eq hrows hc h g.key
    rw [totalFor, hof g hg] at htotal
    exact htotal
  · intro g hg
    obtain ⟨r, _, htotal, hentries⟩ := exists_resultRows_of_mem hc h hclash hg
    rw [htotal, Dict.values, hentries, List.map_map]
    rfl
  · exact fun g hg source v hv => part_eq hrows hc h hclash hg hv
  · exact fun g hg name => mem_sources_iff hc h hclash hg name
  · intro g hg
    have hcount := countFor_eq hc h g.key
    rw [countFor, hof g hg] at hcount
    exact hcount

/-- **Groups are faithful** where the sums are in range and no null model meets a model
named None. -/
theorem groupsFaithfully_iff (hrows : ∀ r ∈ rows, HasScale CostRecord.moneyScale r.amountUsd)
    (hallowed : Allowed groupBy) (period : Period) (filters : CostFilters) :
    GroupsFaithfully rows groupBy period filters ↔
      CostsInRange rows groupBy period filters ∧
        ¬ NoneClash groupBy (matching rows period filters) := by
  obtain ⟨columns, hc⟩ := exists_resolveColumns_eq_ok hallowed
  constructor
  · rintro ⟨groups, h, hfaithful⟩
    refine ⟨(aggregateCosts_eq_ok.mp h).1, ?_⟩
    rintro ⟨hmodel, r, hr, q, hq, hnone, hsome, htexts⟩
    have hkey : keyOf groupBy r.toCostRecord = keyOf groupBy q.toCostRecord := by
      refine keyOf_eq_iff.mpr (List.map_congr_left fun name hn => ?_)
      by_cases hname : name = "model"
      · rw [hname]
        show pyStr r.model = pyStr q.model
        rw [hnone, hsome]
        rfl
      · exact htexts name hn hname
    obtain ⟨g, hg⟩ : ∃ g, g ∈ groups.filter fun g => g.key = keyOf groupBy r.toCostRecord :=
      List.exists_mem_of_length_pos (by rw [hfaithful.one r hr]; exact zero_lt_one)
    obtain ⟨hg, hk⟩ := List.mem_filter.mp hg
    have hk := of_decide_eq_true hk
    have hvalues := hfaithful.apart g hg r (List.mem_filter.mpr ⟨hr, decide_eq_true hk.symm⟩) q
      (List.mem_filter.mpr ⟨hq, decide_eq_true (hkey.symm.trans hk.symm)⟩)
    have hmodels : r.model = q.model := List.map_inj_left.mp hvalues "model" hmodel
    rw [hnone, hsome] at hmodels
    cases hmodels
  · rintro ⟨hrange, hclash⟩
    obtain ⟨groups, h⟩ := exists_costGroups_eq_ok .exact rows period filters hallowed
    exact ⟨groups, aggregateCosts_eq_ok.mpr ⟨hrange, h⟩, faithfulGroups hrows hc h hclash⟩

/-! Ten dollars of no model and five of a model named None: one group, of fifteen
dollars, that says five. -/

def unnamed : CostRow :=
  ⟨{ source := .compute, dedupKey := "a", occurredAt := 0, amountUsd := 10 }, 0⟩

def namedNone : CostRow :=
  ⟨{ source := .compute, dedupKey := "b", occurredAt := 0, amountUsd := 5, model := "None" }, 1⟩

def aDay : Period := ⟨0, 24, by decide⟩

theorem groupsFaithfully_teams :
    GroupsFaithfully [unnamed, namedNone] ["team"] aDay {} := by
  have hrows : ∀ r ∈ [unnamed, namedNone], 0 ≤ r.amountUsd ∧
      HasScale CostRecord.moneyScale r.amountUsd := by
    intro r hr
    rcases List.mem_pair.mp hr with rfl | rfl
    · exact ⟨by decide +kernel, 1000000000, by norm_num [unnamed, CostRecord.moneyScale]⟩
    · exact ⟨by decide +kernel, 500000000, by norm_num [namedNone, CostRecord.moneyScale]⟩
  refine (groupsFaithfully_iff (fun r hr => (hrows r hr).2) ⟨by decide, by decide⟩ aDay {}).mpr
    ⟨costsInRange_of_nonneg hrows (by decide +kernel) _ _ _, ?_⟩
  rintro ⟨hmodel, _⟩
  revert hmodel
  decide

theorem groups_clash : ¬ GroupsFaithfully [unnamed, namedNone] ["model"] aDay {} := by
  rintro ⟨groups, h, hfaithful⟩
  have hanswer : (aggregateCosts .exact [unnamed, namedNone] ["model"] aDay {}).toOption.map
      (fun groups => groups.map fun g => (g.totalUsd, g.bySource.values)) =
        some [(15, [5])] := by decide +kernel
  rw [h] at hanswer
  have hgroups := Option.some.inj hanswer
  obtain ⟨g, hg, hvalues⟩ := List.mem_map.mp (hgroups ▸ List.mem_singleton.mpr rfl)
  obtain ⟨htotal, hsources⟩ := Prod.mk.inj hvalues
  have hparts := hfaithful.parts g hg
  rw [htotal, hsources] at hparts
  revert hparts
  decide +kernel

end Finops
