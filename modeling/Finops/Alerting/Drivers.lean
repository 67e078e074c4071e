import Finops.Base.Ranking
import Finops.Attribution.Grouped
import Finops.Alerting.Evaluator

/-!
# What the cost drivers are named after

The drivers of a team are its largest totals by the text of the model, or by project
where none of these is positive (`topDrivers_eq`).  A null model has the text None, which
is not empty, so it is shown as it is: the records without a model are neither called
untagged nor sorted by project.  The drivers are `Truthful` all the same where None is not
among the leading totals, or happens to be a model or a project of the records.
-/

namespace Finops

open Numerics Grouping KeepFirst Ranking

/-- The records with one text each, as one driver. -/
def totalsBy (text : CostRecord → String) (records : List CostRow) : List CostDriver :=
  (distinct (records.map fun r => text r.toCostRecord)).map fun label =>
    ⟨label, ((records.filter fun r => text r.toCostRecord = label).map fun r => r.amountUsd).sum⟩

def rankedBy (text : CostRecord → String) (records : List CostRow) : List CostDriver :=
  descending CostDriver.amountUsd (totalsBy text records)

/-- The `limit` largest of the positive totals by the text of the model. -/
def leaders (records : List CostRow) (limit : ℕ) : List CostDriver :=
  ((rankedBy (dimension "model") records).filter fun d => 0 < d.amountUsd).take limit

/-- `group.key["model"] or "untagged resource"`. -/
def relabelled (d : CostDriver) : CostDriver :=
  { d with label := if d.label = "" then "untagged resource" else d.label }

/-- A model is there and not blank. -/
def CostRecord.CarriesModel (r : CostRecord) : Prop := ∃ model ∈ r.model, model ≠ ""

instance (r : CostRecord) : Decidable r.CarriesModel := by
  unfold CostRecord.CarriesModel
  infer_instance

/-- Drivers that name real things: a model of some record, untagged records, or a project of
some record; and the projects themselves, largest first, where no record has a model. -/
structure Truthful (records : List CostRow) (limit : ℕ) (drivers : List CostDriver) : Prop where
  named : ∀ d ∈ drivers, (∃ r ∈ records, r.model = some d.label) ∨
    (d.label = "untagged resource" ∧ ∃ r ∈ records, ¬ r.CarriesModel) ∨
      ∃ r ∈ records, r.project = d.label
  projects : (∀ r ∈ records, ¬ r.CarriesModel) → ∃ ranking,
    IsRanking CostDriver.amountUsd (totalsBy CostRecord.project records) ranking ∧
      drivers = ranking.take limit

/-- The text None leads only where it is a model or a project of the records. -/
def NoneIsReal (records : List CostRow) (limit : ℕ) : Prop :=
  (∃ d ∈ leaders records limit, d.label = "None") →
    ∃ r ∈ records, r.model = some "None" ∨ r.project = "None"

/-- The leading totals are those of projects called the same, which no other project is ahead
of. -/
def PassForProjects (records : List CostRow) (limit : ℕ) : Prop :=
  (∀ d ∈ leaders records limit, relabelled d ∈ totalsBy CostRecord.project records) ∧
    ∀ p ∈ totalsBy CostRecord.project records,
      (∀ d ∈ leaders records limit, relabelled d ≠ p) →
        (leaders records limit).length = limit ∧
          ∀ d ∈ leaders records limit, p.amountUsd ≤ d.amountUsd

/-- When the drivers can be named truthfully. -/
def Nameable (records : List CostRow) (limit : ℕ) : Prop :=
  leaders records limit = [] ∨
    (∃ r ∈ records, r.CarriesModel) ∧ NoneIsReal records limit ∨
    (∀ r ∈ records, ¬ r.CarriesModel) ∧ PassForProjects records limit

instance (records : List CostRow) (limit : ℕ) : Decidable (Nameable records limit) := by
  unfold Nameable NoneIsReal PassForProjects
  infer_instance

variable {rows records : List CostRow} {team name : String} {window period : Period}
  {filters : CostFilters} {groups : List CostGroup} {limit : ℕ} {text : CostRecord → String}

theorem nodup_totalsBy (text : CostRecord → String) (records : List CostRow) :
    (totalsBy text records).Nodup :=
  (nodup_distinct _).map fun _ _ h => (CostDriver.mk.inj h).1

theorem mem_totalsBy {d : CostDriver} : d ∈ totalsBy text records ↔
    (∃ r ∈ records, text r.toCostRecord = d.label) ∧ d.amountUsd =
      ((records.filter fun r => text r.toCostRecord = d.label).map fun r => r.amountUsd).sum := by
  rw [totalsBy, List.mem_map]
  constructor
  · rintro ⟨label, hl, rfl⟩
    exact ⟨List.mem_map.mp (mem_distinct.mp hl), rfl⟩
  · rintro ⟨⟨r, hr, hl⟩, ha⟩
    refine ⟨d.label, mem_distinct.mpr (List.mem_map.mpr ⟨r, hr, hl⟩), ?_⟩
    rw [← ha]

theorem mem_rankedBy {d : CostDriver} : d ∈ rankedBy text records ↔ d ∈ totalsBy text records :=
  (isRanking_descending _ _).perm.mem_iff

/-! ### The groups of one dimension -/

theorem keys_tallies (num : Arith) (column : CostRecord → Option String) (rows : List CostRow) :
    (tallies num [column] rows).keys =
      (distinct (rows.map fun r => pyStr (column r.toCostRecord))).map fun text => [text] := by
  have hsingle : Function.Injective fun text : String => [text] :=
    fun _ _ h => (List.cons.inj h).1
  rw [tallies, keys_gather, ← distinct_map_of_injective hsingle, List.map_map]
  have hentries : ∀ d : Dict (List (Option String) × CostSource) (List CostRow),
      d.entries.map (fun e => e.1.1.map pyStr) = d.keys.map fun k => k.1.map pyStr := by
    intro d
    rw [Dict.keys, List.map_map]
    rfl
  rw [hentries, keys_groupOn, distinct_map_distinct, List.map_map]
  rfl

theorem resolveColumns_singleton {column : CostRecord → Option String}
    (h : GROUPABLE name = some column) : resolveColumns [name] = .ok [column] := by
  unfold resolveColumns
  simp only [List.isEmpty_cons, List.mapM_cons, h]
  rfl

theorem map_shownText_foldedGroups {num : Arith} {column : CostRecord → Option String}
    (h : GROUPABLE name = some column) (records : List CostRow) :
    (foldedGroups num [name] [column] records).map (shownText name) =
      distinct (records.map fun r => dimension name r.toCostRecord) := by
  have hdim : (fun r : CostRow => pyStr (column r.toCostRecord)) =
      fun r => dimension name r.toCostRecord := by
    funext r
    rw [dimension, h]
    rfl
  have hshown : ∀ text : String, (((([name].zip [text]).foldl
      (fun (d : Dict String String) kv => d.set kv.1 kv.2) Dict.empty).get? name).getD "") =
      text := by
    intro text
    rw [List.zip_cons_cons, List.foldl_cons, List.zip_nil_left, List.foldl_nil, Dict.get?_set_self,
      Option.getD_some]
  have hkeys : (foldedGroups num [name] [column] records).map (shownText name) =
      (tallies num [column] records).keys.map fun values => ((([name].zip values).foldl
        (fun (d : Dict String String) kv => d.set kv.1 kv.2) Dict.empty).get? name).getD "" := by
    rw [foldedGroups, Dict.keys, List.map_map, List.map_map]
    rfl
  rw [hkeys, keys_tallies, List.map_map, hdim]
  exact (List.map_congr_left fun text _ => hshown text).trans (List.map_id' _)

theorem totalUsd_of_mem {column : CostRecord → Option String} (hname : GROUPABLE name = some column)
    (hrows : ∀ r ∈ rows, HasScale CostRecord.moneyScale r.amountUsd)
    (h : costGroups .exact rows [name] period filters = .ok groups) {g : CostGroup}
    (hg : g ∈ groups) : g.totalUsd = (((matching rows period filters).filter fun r =>
      dimension name r.toCostRecord = shownText name g).map fun r => r.amountUsd).sum := by
  have hc := resolveColumns_singleton hname
  obtain ⟨r, _, hkey, _⟩ := exists_tallyOf_of_mem hc h hg
  have htotal := totalFor_eq hrows hc h g.key
  rw [totalFor, groupFor_of_mem (nodup_map_key hc h) hg] at htotal
  have htext : shownText name g = dimension name r.toCostRecord := by
    rw [shownText, hkey, get?_keyOf (List.mem_singleton_self name), Option.getD_some]
  have hkeys : ∀ q : CostRow, keyOf [name] q.toCostRecord = g.key ↔
      dimension name q.toCostRecord = shownText name g := by
    intro q
    rw [hkey, keyOf_eq_iff, htext]
    exact ⟨fun he => (List.cons.inj he).1, fun he => congrArg (fun text => [text]) he⟩
  simp only [hkeys] at htotal
  exact htotal

/-- **The groups of one dimension are its ranked totals**, in exact arithmetic. -/
theorem map_costGroups (hname : (GROUPABLE name).isSome = true)
    (hrows : ∀ r ∈ rows, HasScale CostRecord.moneyScale r.amountUsd)
    (h : costGroups .exact rows [name] period filters = .ok groups) :
    groups.map (fun g => (⟨shownText name g, g.totalUsd⟩ : CostDriver)) =
      rankedBy (dimension name) (matching rows period filters) := by
  obtain ⟨column, hcolumn⟩ := Option.isSome_iff_exists.mp hname
  have hc := resolveColumns_singleton hcolumn
  let folded := foldedGroups .exact [name] [column] (matching rows period filters)
  have hgroups : groups = descending CostGroup.totalUsd folded := by
    unfold costGroups at h
    rw [hc] at h
    exact (Except.ok.inj h).symm
  have hmap : folded.map (fun g => (⟨shownText name g, g.totalUsd⟩ : CostDriver)) =
      totalsBy (dimension name) (matching rows period filters) := by
    rw [totalsBy, ← map_shownText_foldedGroups hcolumn, List.map_map]
    refine List.map_congr_left fun g hg => ?_
    rw [totalUsd_of_mem hcolumn hrows h ((costGroups_perm hc h).mem_iff.mpr hg)]
    rfl
  have hval : ∀ g ∈ folded, CostDriver.amountUsd ⟨shownText name g, g.totalUsd⟩ = g.totalUsd :=
    fun _ _ => rfl
  rw [rankedBy, hgroups, map_descending hval, hmap]

/-! ### The drivers -/

/-- **What the drivers are**, in exact arithmetic. -/
theorem topDrivers_eq (hrows : ∀ r ∈ rows, HasScale CostRecord.moneyScale r.amountUsd)
    (team : String) (window : Period) (limit : ℕ) :
    topDrivers .exact rows team window limit = .ok
      (let records := matching rows window { teams := [team] }
       if leaders records limit = [] then (rankedBy CostRecord.project records).take limit
       else (leaders records limit).map relabelled) := by
  have hgroups : ∀ name, (GROUPABLE name).isSome = true → ∃ groups,
      costGroups .exact rows [name] window { teams := [team] } = .ok groups := by
    intro name hname
    refine exists_costGroups_eq_ok _ _ _ _ ⟨List.cons_ne_nil _ _, fun other hother => ?_⟩
    rwa [List.mem_singleton.mp hother]
  obtain ⟨groups, hg⟩ := hgroups "model" rfl
  obtain ⟨fallback, hf⟩ := hgroups "project" rfl
  let records := matching rows window { teams := [team] }
  let positive := (rankedBy (dimension "model") records).filter fun d => 0 < d.amountUsd
  have hdrivers : ((groups.filter fun group => 0 < group.totalUsd).map fun group =>
      (⟨if shownText "model" group = "" then "untagged resource" else shownText "model" group,
        group.totalUsd⟩ : CostDriver)) = positive.map relabelled := by
    show _ = ((rankedBy (dimension "model") records).filter _).map relabelled
    rw [← map_costGroups rfl hrows hg, List.filter_map, List.map_map]
    rfl
  have hfallback : ((fallback.take limit).map fun group =>
      (⟨shownText "project" group, group.totalUsd⟩ : CostDriver)) =
        (rankedBy CostRecord.project records).take limit := by
    rw [List.map_take, map_costGroups rfl hrows hf]
    rfl
  have hmodels := mapM_label
    (fun model v => ⟨if model = "" then "untagged resource" else model, v⟩) hg
    (List.filter_sublist (p := fun group : CostGroup => 0 < group.totalUsd)).subset
  have hprojects := mapM_label CostDriver.mk hf (List.take_subset limit fallback)
  rw [hdrivers] at hmodels
  rw [hfallback] at hprojects
  unfold topDrivers
  rw [hg]
  simp only [bind, Except.bind] at hmodels hprojects ⊢
  rw [hmodels]
  dsimp only
  by_cases hnil : positive = []
  · have hleaders : leaders records limit = [] := by
      show positive.take limit = []
      rw [hnil, List.take_nil]
    rw [hnil, List.map_nil, if_neg (fun h => h rfl), if_pos hleaders, hf]
    exact hprojects
  · rw [if_pos fun h => hnil (List.map_eq_nil_iff.mp h), ← List.map_take]
    refine congrArg Except.ok ?_
    show (leaders records limit).map relabelled = _
    split
    · rename_i hleaders
      have hzero : limit = 0 := by
        rcases List.take_eq_nil_iff.mp hleaders with h | h
        · exact h
        · exact absurd h hnil
      rw [hleaders, hzero, List.take_zero, List.map_nil]
    · rfl

/-! ### When they are truthful -/

theorem exists_of_mem_leaders {d : CostDriver} (h : d ∈ leaders records limit) :
    ∃ r ∈ records, pyStr r.model = d.label :=
  (mem_totalsBy.mp (mem_rankedBy.mp (List.mem_of_mem_filter (List.mem_of_mem_take h)))).1

theorem descends_leaders (records : List CostRow) (limit : ℕ) :
    Descends CostDriver.amountUsd (leaders records limit) :=
  List.Pairwise.sublist ((List.take_sublist _ _).trans List.filter_sublist)
    (isRanking_descending _ _).descends

theorem nodup_leaders (records : List CostRow) (limit : ℕ) : (leaders records limit).Nodup :=
  ((isRanking_descending _ _).perm.nodup_iff.mpr (nodup_totalsBy _ records)).sublist
    ((List.take_sublist _ _).trans List.filter_sublist)

theorem label_of_mem_leaders (hnone : ∀ r ∈ records, ¬ r.CarriesModel) {d : CostDriver}
    (h : d ∈ leaders records limit) : d.label = "None" ∨ d.label = "" := by
  obtain ⟨r, hr, hlabel⟩ := exists_of_mem_leaders h
  rw [← hlabel]
  cases hm : r.model with
  | none => exact .inl rfl
  | some model => exact .inr (not_not.mp fun hne => hnone r hr ⟨model, hm, hne⟩)

theorem nodup_map_relabelled (hnone : ∀ r ∈ records, ¬ r.CarriesModel) (limit : ℕ) :
    ((leaders records limit).map relabelled).Nodup := by
  refine List.Nodup.map_on (fun d hd d' hd' he => ?_) (nodup_leaders records limit)
  obtain ⟨label, amount⟩ := d
  obtain ⟨label', amount'⟩ := d'
  obtain ⟨hlabels, rfl⟩ := CostDriver.mk.inj he
  rcases label_of_mem_leaders hnone hd with rfl | rfl <;>
    rcases label_of_mem_leaders hnone hd' with rfl | rfl
  · rfl
  · simp at hlabels
  · simp at hlabels
  · rfl

/-- **Without a model**: the leading totals are cut from a ranking of the projects exactly
when they pass for projects. -/
theorem exists_ranking_iff (hnone : ∀ r ∈ records, ¬ r.CarriesModel) :
    (∃ ranking, IsRanking CostDriver.amountUsd (totalsBy CostRecord.project records) ranking ∧
      (leaders records limit).map relabelled = ranking.take limit) ↔
        PassForProjects records limit := by
  rw [exists_take_eq_iff (nodup_totalsBy _ _)]
  constructor
  · intro h
    refine ⟨fun d hd => h.subset (List.mem_map_of_mem hd), fun p hp hne => ?_⟩
    obtain ⟨hlen, hle⟩ := h.rest p hp fun hmem => by
      obtain ⟨d, hd, rfl⟩ := List.mem_map.mp hmem
      exact hne d hd rfl
    exact ⟨(List.length_map _).symm.trans hlen,
      fun d hd => hle (relabelled d) (List.mem_map_of_mem hd)⟩
  · rintro ⟨hsub, hrest⟩
    refine ⟨nodup_map_relabelled hnone limit, ?_, ?_, ?_, fun p hp hcut => ?_⟩
    · exact List.pairwise_map.mpr (descends_leaders records limit)
    · exact (List.length_map _).trans_le (List.length_take_le limit _)
    · intro d hd
      obtain ⟨d', hd', rfl⟩ := List.mem_map.mp hd
      exact hsub d' hd'
    · obtain ⟨hlen, hle⟩ := hrest p hp fun d hd he => hcut (List.mem_map.mpr ⟨d, hd, he⟩)
      refine ⟨(List.length_map _).trans hlen, fun d hd => ?_⟩
      obtain ⟨d', hd', rfl⟩ := List.mem_map.mp hd
      exact hle d' hd'

/-- **With a model somewhere**: the labels name real things exactly when None does. -/
theorem named_iff (hmodel : ∃ r ∈ records, r.CarriesModel) :
    Truthful records limit ((leaders records limit).map relabelled) ↔
      NoneIsReal records limit := by
  constructor
  · rintro ⟨hnamed, _⟩ ⟨d, hd, hlabel⟩
    have hne : d.label ≠ "" := by
      rw [hlabel]
      decide
    have hshown : (relabelled d).label = "None" := (if_neg hne).trans hlabel
    rcases hnamed _ (List.mem_map_of_mem hd) with ⟨r, hr, hm⟩ | ⟨hu, _⟩ | ⟨r, hr, hp⟩
    · exact ⟨r, hr, .inl (hm.trans (congrArg some hshown))⟩
    · exact absurd (hshown.symm.trans hu) (by decide)
    · exact ⟨r, hr, .inr (hp.trans hshown)⟩
  · intro hreal
    refine ⟨fun shown hshown => ?_, fun hnone => ?_⟩
    · obtain ⟨d, hd, rfl⟩ := List.mem_map.mp hshown
      obtain ⟨r, hr, hlabel⟩ := exists_of_mem_leaders hd
      by_cases hempty : d.label = ""
      · have hblank : ¬ r.CarriesModel := by
          rintro ⟨model, hm, hne⟩
          rw [Option.mem_def.mp hm, hempty] at hlabel
          exact hne hlabel
        exact .inr (.inl ⟨if_pos hempty, r, hr, hblank⟩)
      · have hsame : (relabelled d).label = d.label := if_neg hempty
        rw [hsame]
        cases hm : r.model with
        | some model => exact .inl ⟨r, hr, hm.trans (congrArg some (by rwa [hm] at hlabel))⟩
        | none =>
          rw [hm] at hlabel
          obtain ⟨q, hq, hq' | hq'⟩ := hreal ⟨d, hd, hlabel.symm⟩
          · exact .inl ⟨q, hq, hq'.trans (congrArg some hlabel)⟩
          · exact .inr (.inr ⟨q, hq, hq'.trans hlabel⟩)
    · obtain ⟨r, hr, hm⟩ := hmodel
      exact absurd hm (hnone r hr)

/-- **When the drivers are truthful**: where no total is positive or none is asked for; where
some record has a model and None leads only if it is real; and where no record has one and the
totals without a model pass for projects. -/
theorem truthful_topDrivers_iff
    (hrows : ∀ r ∈ rows, HasScale CostRecord.moneyScale r.amountUsd) (team : String)
    (window : Period) (limit : ℕ) :
    (∃ drivers, topDrivers .exact rows team window limit = .ok drivers ∧
      Truthful (matching rows window { teams := [team] }) limit drivers) ↔
        Nameable (matching rows window { teams := [team] }) limit := by
  let records := matching rows window { teams := [team] }
  have hok : (∃ drivers, topDrivers .exact rows team window limit = .ok drivers ∧
      Truthful records limit drivers) ↔ Truthful records limit
        (if leaders records limit = [] then (rankedBy CostRecord.project records).take limit
          else (leaders records limit).map relabelled) := by
    rw [topDrivers_eq hrows]
    exact ⟨fun ⟨_, he, h⟩ => Except.ok.inj he ▸ h, fun h => ⟨_, rfl, h⟩⟩
  rw [hok]
  show _ ↔ Nameable records limit
  unfold Nameable
  by_cases hnil : leaders records limit = []
  · rw [if_pos hnil]
    refine iff_of_true ⟨fun d hd => .inr (.inr ?_), fun _ => ?_⟩ (.inl hnil)
    · exact (mem_totalsBy.mp (mem_rankedBy.mp (List.mem_of_mem_take hd))).1
    · exact ⟨_, isRanking_descending _ _, rfl⟩
  rw [if_neg hnil, or_iff_right hnil]
  by_cases hmodel : ∃ r ∈ records, r.CarriesModel
  · have hsome : ¬ ∀ r ∈ records, ¬ r.CarriesModel := fun h =>
      let ⟨r, hr, hm⟩ := hmodel
      h r hr hm
    rw [named_iff hmodel, and_iff_right hmodel, or_iff_left fun h => hsome h.1]
  · have hnone : ∀ r ∈ records, ¬ r.CarriesModel := fun r hr hm => hmodel ⟨r, hr, hm⟩
    rw [or_iff_right fun h => hmodel h.1, and_iff_right hnone, ← exists_ranking_iff hnone]
    constructor
    · exact fun h => h.projects hnone
    · intro h
      refine ⟨fun d hd => .inr (.inr ?_), fun _ => h⟩
      obtain ⟨ranking, hranking, heq⟩ := h
      rw [heq] at hd
      exact (mem_totalsBy.mp (hranking.perm.subset (List.mem_of_mem_take hd))).1

def clusterHours : CostRow where
  source := .compute
  dedupKey := "cluster:0"
  occurredAt := 10
  amountUsd := 5
  team := "research"
  project := "cluster"
  id := 1

def modelRequests : CostRow where
  source := .llm
  dedupKey := "request:0"
  occurredAt := 20
  amountUsd := 7
  model := some "gpt-4o"
  team := "research"
  project := "search"
  id := 2

def minuteOne : Period := ⟨0, 60000000, by decide⟩

/-- The largest driver of a team with both is the model. -/
theorem truthful_modelRequests : (∃ drivers,
    topDrivers .exact [clusterHours, modelRequests] "research" minuteOne 1 = .ok drivers ∧
      Truthful (matching [clusterHours, modelRequests] minuteOne { teams := ["research"] }) 1
        drivers) := by
  refine (truthful_topDrivers_iff (fun r hr => ?_) "research" minuteOne 1).mpr (by decide +kernel)
  simp only [List.mem_cons, List.not_mem_nil, or_false] at hr
  rcases hr with rfl | rfl
  · exact ⟨500000000, by norm_num [clusterHours, CostRecord.moneyScale]⟩
  · exact ⟨700000000, by norm_num [modelRequests, CostRecord.moneyScale]⟩

/-- The hours of the cluster are shown as None, which is neither a model nor the project. -/
theorem not_truthful_clusterHours : ¬ ∃ drivers,
    topDrivers .exact [clusterHours] "research" minuteOne MAX_DRIVERS = .ok drivers ∧
      Truthful (matching [clusterHours] minuteOne { teams := ["research"] }) MAX_DRIVERS
        drivers := by
  rintro ⟨drivers, h, hnamed, _⟩
  have hdrivers : topDrivers .exact [clusterHours] "research" minuteOne MAX_DRIVERS =
      .ok [⟨"None", 5⟩] := by decide +kernel
  rw [hdrivers] at h
  obtain rfl := Except.ok.inj h
  have hnone := hnamed _ List.mem_cons_self
  revert hnone
  decide

end Finops
