import Finops.Base.Grouping
import Finops.Attribution.Engine

/-!
# What a grouped query answers

`dimension name r` is the text a row shows for a dimension, and `keyOf groupBy r`
the key of its group.  Two columns that differ may show the same text (a null
model and a model named None), so the groups of the database are folded under the
key; `sum_costGroups` says that nothing is lost or counted twice on the way:
over any choice of keys, the groups sum to the rows with those keys.

The query answers exactly when each of its sums is in range (`aggregateCosts_eq_ok`).
-/

namespace Finops

open Numerics Grouping

def dimension (name : String) (r : CostRecord) : String :=
  pyStr ((GROUPABLE name).bind fun column => column r)

/-- The values of the dimensions, as the columns hold them. -/
def valuesOf (groupBy : List String) (r : CostRecord) : List (Option String) :=
  groupBy.map fun name => (GROUPABLE name).bind fun column => column r

def keyOf (groupBy : List String) (r : CostRecord) : Dict String String :=
  Dict.ofKeys (fun name => dimension name r) groupBy

def Allowed (groupBy : List String) : Prop :=
  groupBy ≠ [] ∧ ∀ name ∈ groupBy, (GROUPABLE name).isSome = true

def groupFor (groups : List CostGroup) (key : Dict String String) : Option CostGroup :=
  groups.find? fun g => g.key = key

def totalFor (groups : List CostGroup) (key : Dict String String) : ℚ :=
  ((groupFor groups key).map CostGroup.totalUsd).getD 0

def countFor (groups : List CostGroup) (key : Dict String String) : ℕ :=
  ((groupFor groups key).map CostGroup.recordCount).getD 0

def restrict (groupBy : List String) (key : Dict String String) : Dict String String :=
  Dict.ofKeys (fun name => key.getD name "") groupBy

/-! ### Keys -/

variable {num : Arith} {rows : List CostRow} {groupBy : List String} {period : Period}
  {filters : CostFilters} {columns : List (CostRecord → Option String)} {groups : List CostGroup}

theorem exists_resolveColumns_eq_ok (h : Allowed groupBy) :
    ∃ columns, resolveColumns groupBy = .ok columns := by
  unfold resolveColumns
  rw [if_neg (by simpa using h.1)]
  refine Batch.exists_mapM_eq_ok fun name hn => ?_
  obtain ⟨column, hc⟩ := Option.isSome_iff_exists.mp (h.2 name hn)
  exact ⟨column, by rw [hc]⟩

theorem map_columns (h : resolveColumns groupBy = .ok columns) (r : CostRecord) :
    (columns.map fun column => pyStr (column r)) = groupBy.map fun name => dimension name r := by
  unfold resolveColumns at h
  split at h
  · cases h
  · refine (Batch.map_eq_of_forall₂ (fun name column hc => ?_) (Batch.mapM_eq_ok_iff.mp h)).symm
    unfold dimension
    cases hg : GROUPABLE name with
    | none => rw [hg] at hc; cases hc
    | some c =>
      rw [hg] at hc
      obtain rfl := Except.ok.inj hc
      rfl

theorem map_columns_eq_valuesOf (h : resolveColumns groupBy = .ok columns) (r : CostRecord) :
    (columns.map fun column => column r) = valuesOf groupBy r := by
  unfold resolveColumns at h
  split at h
  · cases h
  · refine (Batch.map_eq_of_forall₂ (fun name column hc => ?_) (Batch.mapM_eq_ok_iff.mp h)).symm
    cases hg : GROUPABLE name with
    | none => rw [hg] at hc; cases hc
    | some c =>
      rw [hg] at hc
      obtain rfl := Except.ok.inj hc
      rfl

theorem zip_eq_keyOf (groupBy : List String) (r : CostRecord) :
    (groupBy.zip (groupBy.map fun name => dimension name r)).foldl
      (fun (d : Dict String String) kv => d.set kv.1 kv.2) Dict.empty = keyOf groupBy r := by
  have hzip : groupBy.zip (groupBy.map fun name => dimension name r) =
      groupBy.map fun name => (name, dimension name r) := by
    rw [← List.zip_map', List.map_id']
  rw [hzip, List.foldl_map]
  rfl

theorem get?_keyOf {name : String} (h : name ∈ groupBy) (r : CostRecord) :
    (keyOf groupBy r).get? name = some (dimension name r) := Dict.get?_ofKeys h

theorem keyOf_eq_iff {r q : CostRecord} : keyOf groupBy r = keyOf groupBy q ↔
    (groupBy.map fun name => dimension name r) = groupBy.map fun name => dimension name q := by
  constructor
  · intro h
    refine List.map_congr_left fun name hn => ?_
    have hr := get?_keyOf hn r
    rw [h, get?_keyOf hn q] at hr
    exact (Option.some.inj hr).symm
  · intro h
    rw [← zip_eq_keyOf, ← zip_eq_keyOf, h]

theorem restrict_keyOf {coarse : List String} (h : coarse ⊆ groupBy) (r : CostRecord) :
    restrict coarse (keyOf groupBy r) = keyOf coarse r := by
  have hvalue : ∀ name ∈ coarse, (keyOf groupBy r).getD name "" = dimension name r := by
    intro name hn
    rw [Dict.getD, get?_keyOf (h hn)]
    rfl
  exact Dict.ofKeys_congr hvalue

/-! ### Sums over groups -/

def matching (rows : List CostRow) (period : Period) (filters : CostFilters) : List CostRow :=
  rows.filter fun r => conditions period filters r.toCostRecord

def tallies (num : Arith) (columns : List (CostRecord → Option String)) (rows : List CostRow) :
    Dict (List String) Tally :=
  gather (fun e => e.1.1.map pyStr) (fun t e => t.addRow num e.1.2.str e.2) ⟨0, Dict.empty, 0⟩
    (groupOn (fun r : CostRow => (columns.map fun column => column r.toCostRecord, r.source))
      rows).entries

/-- The answer, before it is sorted. -/
def foldedGroups (num : Arith) (groupBy : List String)
    (columns : List (CostRecord → Option String)) (rows : List CostRow) : List CostGroup :=
  (tallies num columns rows).entries.map fun e =>
    { key := (groupBy.zip e.1).foldl (fun d kv => d.set kv.1 kv.2) Dict.empty
      totalUsd := e.2.total
      bySource := e.2.bySource
      recordCount := e.2.count }

theorem costGroups_perm (hc : resolveColumns groupBy = .ok columns)
    (h : costGroups num rows groupBy period filters = .ok groups) :
    groups.Perm (foldedGroups num groupBy columns (matching rows period filters)) := by
  unfold costGroups at h
  rw [hc] at h
  obtain rfl := Except.ok.inj h
  exact List.perm_insertionSort _ _

theorem exists_costGroups_eq_ok (num : Arith) (rows : List CostRow) (period : Period)
    (filters : CostFilters) (h : Allowed groupBy) :
    ∃ groups, costGroups num rows groupBy period filters = .ok groups := by
  obtain ⟨columns, hc⟩ := exists_resolveColumns_eq_ok h
  unfold costGroups
  rw [hc]
  exact ⟨_, rfl⟩

/-! ### Sums in range -/

/-- Each sum of the query is in range: there is one for each source of each combination of
values. -/
def CostsInRange (rows : List CostRow) (groupBy : List String) (period : Period)
    (filters : CostFilters) : Prop :=
  ∀ values source, amountFits ((matching rows period filters).filter fun r =>
    (valuesOf groupBy r.toCostRecord, r.source) = (values, source)) = true

theorem castsFit_costRows (hc : resolveColumns groupBy = .ok columns) :
    castsFit (costRows columns rows period filters) = true ↔
      CostsInRange rows groupBy period filters := by
  unfold costRows
  rw [castsFit_groupRows, Prod.forall]
  simp only [map_columns_eq_valuesOf hc]
  rfl

/-- **When the query answers**: when each of its sums is in range. -/
theorem aggregateCosts_eq_ok : aggregateCosts num rows groupBy period filters = .ok groups ↔
    CostsInRange rows groupBy period filters ∧
      costGroups num rows groupBy period filters = .ok groups := by
  unfold aggregateCosts costGroups
  cases hc : resolveColumns groupBy with
  | error e => exact ⟨fun h => (by cases h), fun ⟨_, h⟩ => (by cases h)⟩
  | ok columns =>
    rw [← castsFit_costRows hc]
    simp only [bind, Except.bind, pure, Except.pure]
    split
    · rename_i h
      exact ⟨fun hg => ⟨h, hg⟩, fun hg => hg.2⟩
    · rename_i h
      exact ⟨fun hg => (by cases hg), fun hg => absurd hg.1 h⟩

theorem costGroups_of_eq_ok (h : aggregateCosts num rows groupBy period filters = .ok groups) :
    costGroups num rows groupBy period filters = .ok groups := (aggregateCosts_eq_ok.mp h).2

theorem exists_aggregateCosts_eq_ok (num : Arith) (rows : List CostRow) (period : Period)
    (filters : CostFilters) (h : Allowed groupBy) :
    (∃ groups, aggregateCosts num rows groupBy period filters = .ok groups) ↔
      CostsInRange rows groupBy period filters := by
  constructor
  · rintro ⟨groups, hg⟩
    exact (aggregateCosts_eq_ok.mp hg).1
  · intro hr
    obtain ⟨groups, hg⟩ := exists_costGroups_eq_ok num rows period filters h
    exact ⟨groups, aggregateCosts_eq_ok.mpr ⟨hr, hg⟩⟩

theorem amountFits_of_sublist {l : List CostRow} (hl : l.Sublist rows)
    (hrows : ∀ r ∈ rows, 0 ≤ r.amountUsd ∧ HasScale CostRecord.moneyScale r.amountUsd)
    (h : (rows.map fun r => r.amountUsd).sum < 10 ^ 10) : amountFits l = true := by
  have hnn : ∀ v ∈ rows.map fun r => r.amountUsd, 0 ≤ v := by
    intro v hv
    obtain ⟨r, hr, rfl⟩ := List.mem_map.mp hv
    exact (hrows r hr).1
  have hsub := hl.map fun r => r.amountUsd
  have hpos : 0 ≤ (l.map fun r => r.amountUsd).sum :=
    List.sum_nonneg fun v hv => hnn v (hsub.subset hv)
  refine decide_eq_true ?_
  rw [amount_of_hasScale fun r hr => (hrows r (hl.subset hr)).2, abs_of_nonneg hpos]
  exact (hsub.sum_le_sum hnn).trans_lt h

theorem costsInRange_of_nonneg
    (hrows : ∀ r ∈ rows, 0 ≤ r.amountUsd ∧ HasScale CostRecord.moneyScale r.amountUsd)
    (h : (rows.map fun r => r.amountUsd).sum < 10 ^ 10) (groupBy : List String) (period : Period)
    (filters : CostFilters) : CostsInRange rows groupBy period filters :=
  fun _ _ => amountFits_of_sublist (List.filter_sublist.trans List.filter_sublist) hrows h

/-! ### The groups of the answer -/

theorem exists_row_of_mem_tallies (hc : resolveColumns groupBy = .ok columns)
    {values : List String} (h : values ∈ (tallies num columns rows).keys) :
    ∃ r ∈ rows, values = groupBy.map fun name => dimension name r.toCostRecord := by
  obtain ⟨e, he, rfl⟩ := mem_keys_gather.mp h
  obtain ⟨r, hr, hk⟩ := List.mem_map.mp (Dict.eq_of_mem_entries_ofKeys he).1
  refine ⟨r, hr, ?_⟩
  rw [← map_columns hc, ← hk, List.map_map]
  rfl

/-- **One group for each key.** -/
theorem nodup_map_key (hc : resolveColumns groupBy = .ok columns)
    (h : costGroups num rows groupBy period filters = .ok groups) :
    (groups.map CostGroup.key).Nodup := by
  rw [((costGroups_perm hc h).map CostGroup.key).nodup_iff, foldedGroups, List.map_map]
  refine List.Nodup.map_on ?_ (List.Nodup.of_map Prod.fst (Dict.nodup_keys _))
  intro e he e' he' hk
  obtain ⟨r, _, hr⟩ := exists_row_of_mem_tallies hc (List.mem_map_of_mem he)
  obtain ⟨r', _, hr'⟩ := exists_row_of_mem_tallies hc (List.mem_map_of_mem he')
  simp only [Function.comp, hr, hr', zip_eq_keyOf] at hk
  have hfst : e.1 = e'.1 := by rw [hr, hr', keyOf_eq_iff.mp hk]
  exact List.inj_on_of_nodup_map (Dict.nodup _) he he' hfst

/-- Where a tally adds up a figure of the rows, the groups over some keys add it
up over the rows with those keys. -/
theorem sum_foldedGroups {β : Type*} [AddCommMonoid β] (hc : resolveColumns groupBy = .ok columns)
    {F : Tally → β} {G : CostGroup → β} {φ : CostRow → β} {f : List CostRow → β}
    (hG : ∀ key t, G ⟨key, t.total, t.bySource, t.count⟩ = F t)
    (hF : ∀ l : List ((List (Option String) × CostSource) × List CostRow),
      F (l.foldl (fun t e => t.addRow num e.1.2.str e.2) ⟨0, Dict.empty, 0⟩) =
        (l.map fun e => f e.2).sum)
    (hf : ∀ l ⊆ rows, f l = (l.map φ).sum) (p : Dict String String → Bool) :
    (((foldedGroups num groupBy columns rows).filter fun g => p g.key).map G).sum =
      ((rows.filter fun r => p (keyOf groupBy r.toCostRecord)).map φ).sum := by
  let shown : List String → Dict String String := fun values =>
    (groupBy.zip values).foldl (fun d kv => d.set kv.1 kv.2) Dict.empty
  have hkey : ∀ r : CostRow,
      shown ((columns.map fun column => column r.toCostRecord).map pyStr) =
        keyOf groupBy r.toCostRecord := by
    intro r
    have hcols := map_columns hc r.toCostRecord
    rw [List.map_map]
    show (groupBy.zip (columns.map fun column => pyStr (column r.toCostRecord))).foldl _ _ = _
    rw [hcols, zip_eq_keyOf]
  have hgroups : ((foldedGroups num groupBy columns rows).filter fun g => p g.key).map G =
      ((tallies num columns rows).entries.filter fun e => p (shown e.1)).map fun e => F e.2 := by
    rw [foldedGroups, List.filter_map, List.map_map]
    exact List.map_congr_left fun e _ => hG _ e.2
  have hrows : ∀ e ∈ (groupOn (fun r : CostRow =>
      (columns.map fun column => column r.toCostRecord, r.source)) rows).entries,
      f e.2 = (e.2.map φ).sum := by
    intro e he
    rw [(Dict.eq_of_mem_entries_ofKeys he).2]
    exact hf _ (List.filter_subset_self _)
  rw [hgroups, tallies, sum_gather hF (fun values => p (shown values))]
  rw [List.map_congr_left fun e he => hrows e (List.mem_of_mem_filter he)]
  rw [sum_groups _ fun k : List (Option String) × CostSource => p (shown (k.1.map pyStr))]
  simp only [hkey]

theorem total_foldl_addRow (l : List ((List (Option String) × CostSource) × List CostRow)) :
    ∀ t : Tally, (l.foldl (fun t e => t.addRow .exact e.1.2.str e.2) t).total =
      t.total + (l.map fun e => amount e.2).sum := by
  induction l with
  | nil => intro t; simp
  | cons e l ih =>
    intro t
    rw [List.foldl_cons, ih, List.map_cons, List.sum_cons, ← add_assoc]
    rfl

/-- **The groups sum to the rows**, over any choice of keys: their totals to the
amounts, in exact arithmetic. -/
theorem sum_costGroups (hrows : ∀ r ∈ rows, HasScale CostRecord.moneyScale r.amountUsd)
    (hc : resolveColumns groupBy = .ok columns)
    (h : costGroups .exact rows groupBy period filters = .ok groups)
    (p : Dict String String → Bool) :
    ((groups.filter fun g => p g.key).map CostGroup.totalUsd).sum =
      (((matching rows period filters).filter fun r => p (keyOf groupBy r.toCostRecord)).map
        fun r => r.amountUsd).sum := by
  rw [(((costGroups_perm hc h).filter _).map _).sum_eq]
  refine sum_foldedGroups (F := Tally.total) (f := amount) hc (fun _ _ => rfl)
    (fun l => (total_foldl_addRow l _).trans (zero_add _))
    (fun l hl => amount_of_hasScale fun r hr => ?_) p
  exact hrows r (List.mem_of_mem_filter (hl hr))

theorem count_costGroups (hc : resolveColumns groupBy = .ok columns)
    (h : costGroups num rows groupBy period filters = .ok groups)
    (p : Dict String String → Bool) :
    ((groups.filter fun g => p g.key).map CostGroup.recordCount).sum =
      ((matching rows period filters).filter fun r =>
        p (keyOf groupBy r.toCostRecord)).length := by
  have hfold : ∀ (l : List ((List (Option String) × CostSource) × List CostRow)) (t : Tally),
      (l.foldl (fun t e => t.addRow num e.1.2.str e.2) t).count =
        t.count + (l.map fun e => e.2.length).sum := by
    intro l
    induction l with
    | nil => intro t; simp
    | cons e l ih =>
      intro t
      rw [List.foldl_cons, ih, List.map_cons, List.sum_cons, ← add_assoc]
      rfl
  rw [(((costGroups_perm hc h).filter _).map _).sum_eq]
  refine (sum_foldedGroups (F := Tally.count) (φ := fun _ => 1) (f := List.length) hc
    (fun _ _ => rfl) (fun l => (hfold l _).trans (zero_add _)) (fun l _ => ?_) p).trans ?_
  · simp
  · simp

/-! ### The group of a key -/

theorem getD_groupFor {β : Type*} [AddCommMonoid β] {groups : List CostGroup}
    (h : (groups.map CostGroup.key).Nodup) (G : CostGroup → β) (key : Dict String String) :
    ((groupFor groups key).map G).getD 0 =
      ((groups.filter fun g => g.key = key).map G).sum := by
  induction groups with
  | nil => rfl
  | cons g groups ih =>
    obtain ⟨hg, hnd⟩ := List.nodup_cons.mp h
    unfold groupFor at ih ⊢
    by_cases hk : g.key = key
    · have hrest : (groups.filter fun g => g.key = key) = [] := by
        refine List.filter_eq_nil_iff.mpr fun g' hg' he => hg ?_
        rw [hk, ← of_decide_eq_true he]
        exact List.mem_map_of_mem hg'
      rw [List.find?_cons_of_pos (by simpa using hk), List.filter_cons_of_pos (by simpa using hk),
        hrest]
      simp
    · rw [List.find?_cons_of_neg (by simpa using hk), List.filter_cons_of_neg (by simpa using hk)]
      exact ih hnd

/-- **The total of a key** is the sum of the rows with that key. -/
theorem totalFor_eq (hrows : ∀ r ∈ rows, HasScale CostRecord.moneyScale r.amountUsd)
    (hc : resolveColumns groupBy = .ok columns)
    (h : costGroups .exact rows groupBy period filters = .ok groups)
    (key : Dict String String) :
    totalFor groups key =
      (((matching rows period filters).filter fun r => keyOf groupBy r.toCostRecord = key).map
        fun r => r.amountUsd).sum := by
  rw [totalFor, getD_groupFor (nodup_map_key hc h)]
  exact sum_costGroups hrows hc h fun k => k = key

theorem countFor_eq (hc : resolveColumns groupBy = .ok columns)
    (h : costGroups num rows groupBy period filters = .ok groups)
    (key : Dict String String) :
    countFor groups key =
      ((matching rows period filters).filter fun r =>
        keyOf groupBy r.toCostRecord = key).length := by
  rw [countFor, getD_groupFor (nodup_map_key hc h)]
  exact count_costGroups hc h fun k => k = key

theorem isSome_groupFor_iff (hc : resolveColumns groupBy = .ok columns)
    (h : costGroups num rows groupBy period filters = .ok groups)
    (key : Dict String String) : (groupFor groups key).isSome = true ↔
      ((matching rows period filters).filter fun r => keyOf groupBy r.toCostRecord = key) ≠ [] := by
  constructor
  · intro hs
    obtain ⟨g, hg⟩ := Option.isSome_iff_exists.mp hs
    have hk : g.key = key := by simpa using List.find?_some hg
    have hmem := (costGroups_perm hc h).mem_iff.mp (List.mem_of_find?_eq_some hg)
    obtain ⟨e, he, rfl⟩ := List.mem_map.mp hmem
    obtain ⟨r, hr, hvalues⟩ := exists_row_of_mem_tallies hc (List.mem_map_of_mem he)
    dsimp only at hk
    rw [hvalues, zip_eq_keyOf] at hk
    exact List.ne_nil_of_mem (List.mem_filter.mpr ⟨hr, decide_eq_true hk⟩)
  · intro hne
    have hcount := countFor_eq hc h key
    rw [countFor] at hcount
    cases hg : groupFor groups key with
    | some g => rfl
    | none =>
      rw [hg] at hcount
      exact absurd (List.length_eq_zero_iff.mp hcount.symm) hne

end Finops
