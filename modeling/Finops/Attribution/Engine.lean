import Finops.Base.Batch
import Finops.Base.Dict
import Finops.Attribution.Models
import Mathlib.Data.List.Sort

/-!
# Aggregation over the cost warehouse

Every query has the same `WHERE` clause, `conditions`, and the same summed
amount, `amount`.  `totalSpend` is one sum; `aggregateCosts` groups by the
requested dimensions and by source in the database and folds the result rows
into one `CostGroup` a key.

The sum is cast to the type of the column, and the cast overflows from ten digits
before the point on (`amountFits`): `aggregateCosts` raises where one of its sums does.
`totalSpend` is what comes back where its sum does not.

The database may return the groups in any order.  Here they come in the order
their keys first occur in the table, and the order of the table is arbitrary.
-/

namespace Finops

open Numerics

/-- A half-open time window: start inclusive, end exclusive. -/
structure Period where
  start : Instant
  stop : Instant
  lt : start < stop

structure CostFilters where
  teams : List String := []
  projects : List String := []
  agentIds : List String := []
  useCases : List String := []
  sources : List CostSource := []
  includeAllocatedParents : Bool := false

def oneOf {α : Type*} [DecidableEq α] (values : List α) (v : α) : Bool :=
  values.isEmpty || v ∈ values

def Period.contains (period : Period) (t : Instant) : Bool :=
  period.start ≤ t && t < period.stop

/-- The part of the `WHERE` clause that looks at dimensions and source. -/
def CostFilters.admits (filters : CostFilters) (r : CostRecord) : Bool :=
  oneOf filters.teams r.team
    && oneOf filters.projects r.project
    && oneOf filters.agentIds r.agentId
    && oneOf filters.useCases r.useCase
    && oneOf filters.sources r.source

def conditions (period : Period) (filters : CostFilters) (r : CostRecord) : Bool :=
  period.contains r.occurredAt && (filters.includeAllocatedParents || !r.allocated)
    && filters.admits r

/-- Summed spend, coerced back to an exact decimal, where the cast does not overflow. -/
def amount (rows : List CostRow) : ℚ :=
  toExp halfAway (-CostRecord.moneyScale) (rows.map fun r => r.amountUsd).sum

/-- `NUMERIC(18, 8)` holds the sum. -/
def amountFits (rows : List CostRow) : Bool := |amount rows| < 10 ^ 10

def castsFit {κ : Type*} (groups : Dict κ (List CostRow)) : Bool := groups.values.all amountFits

theorem amount_of_hasScale {rows : List CostRow}
    (h : ∀ r ∈ rows, HasScale CostRecord.moneyScale r.amountUsd) :
    amount rows = (rows.map fun r => r.amountUsd).sum := by
  refine toExp_of_hasScale halfAway_intCast (HasScale.sum fun v hv => ?_)
  obtain ⟨r, hr, rfl⟩ := List.mem_map.mp hv
  exact h r hr

def totalSpend (rows : List CostRow) (period : Period) (filters : CostFilters) : ℚ :=
  amount (rows.filter fun r => conditions period filters r.toCostRecord)

/-! ### Grouping -/

def GROUPABLE : String → Option (CostRecord → Option String)
  | "team" => some fun r => some r.team
  | "project" => some fun r => some r.project
  | "agent_id" => some fun r => some r.agentId
  | "use_case" => some fun r => some r.useCase
  | "model" => some fun r => r.model
  | _ => none

def pyStr : Option String → String
  | some s => s
  | none => "None"

structure CostGroup where
  key : Dict String String
  totalUsd : ℚ
  bySource : Dict String ℚ
  recordCount : ℕ

def resolveColumns (groupBy : List String) :
    Except PyError (List (CostRecord → Option String)) :=
  if groupBy.isEmpty then .error (.valueError "group_by must name at least one dimension")
  else groupBy.mapM fun name =>
    match GROUPABLE name with
    | some column => .ok column
    | none => .error (.unknownDimension name)

def groupRows {κ : Type*} [DecidableEq κ] (key : CostRow → κ) (rows : List CostRow) :
    Dict κ (List CostRow) :=
  Dict.ofKeys (fun k => rows.filter fun r => key r = k) (rows.map key)

theorem amountFits_nil : amountFits [] = true := by decide +kernel

theorem castsFit_groupRows {κ : Type*} [DecidableEq κ] {key : CostRow → κ} {rows : List CostRow} :
    castsFit (groupRows key rows) = true ↔
      ∀ k, amountFits (rows.filter fun r => key r = k) = true := by
  rw [castsFit, List.all_eq_true]
  constructor
  · intro h k
    by_cases hk : k ∈ rows.map key
    · exact h _ (List.mem_map.mpr ⟨_, Dict.get?_eq_some.mp (Dict.get?_ofKeys hk), rfl⟩)
    · have hnil : (rows.filter fun r => key r = k) = [] := by
        refine List.filter_eq_nil_iff.mpr fun r hr he => hk ?_
        exact List.mem_map.mpr ⟨r, hr, of_decide_eq_true he⟩
      rw [hnil, amountFits_nil]
  · intro h rs hrs
    obtain ⟨e, he, rfl⟩ := List.mem_map.mp hrs
    rw [(Dict.eq_of_mem_entries_ofKeys he).2]
    exact h e.1

structure Tally where
  total : ℚ
  bySource : Dict String ℚ
  count : ℕ

def Tally.addRow (num : Arith) (t : Tally) (source : String) (rows : List CostRow) : Tally where
  total := num.dec (t.total + amount rows)
  bySource := t.bySource.set source (amount rows)
  count := t.count + rows.length

/-- The result rows of the query: one for each combination of values and each source. -/
def costRows (columns : List (CostRecord → Option String)) (rows : List CostRow)
    (period : Period) (filters : CostFilters) :
    Dict (List (Option String) × CostSource) (List CostRow) :=
  groupRows (fun r => (columns.map fun column => column r.toCostRecord, r.source))
    (rows.filter fun r => conditions period filters r.toCostRecord)

/-- The result rows folded into one group a key, the largest total first. -/
def foldRows (num : Arith) (groupBy : List String)
    (result : Dict (List (Option String) × CostSource) (List CostRow)) : List CostGroup :=
  let tallies : Dict (List String) Tally := result.entries.foldl (fun d e =>
    let values := e.1.1.map pyStr
    d.set values ((d.getD values ⟨0, Dict.empty, 0⟩).addRow num e.1.2.str e.2)) Dict.empty
  let groups := tallies.entries.map fun e =>
    { key := (groupBy.zip e.1).foldl (fun d kv => d.set kv.1 kv.2) Dict.empty
      totalUsd := e.2.total
      bySource := e.2.bySource
      recordCount := e.2.count }
  groups.insertionSort fun a b => b.totalUsd ≤ a.totalUsd

/-- Total spend per dimension key, with a subtotal per cost source. -/
def aggregateCosts (num : Arith) (rows : List CostRow) (groupBy : List String) (period : Period)
    (filters : CostFilters) : Except PyError (List CostGroup) := do
  let columns ← resolveColumns groupBy
  let result := costRows columns rows period filters
  if castsFit result then .ok (foldRows num groupBy result) else .error .dataError

/-- What it answers where no cast overflows. -/
def costGroups (num : Arith) (rows : List CostRow) (groupBy : List String) (period : Period)
    (filters : CostFilters) : Except PyError (List CostGroup) := do
  let columns ← resolveColumns groupBy
  return foldRows num groupBy (costRows columns rows period filters)

theorem exists_get?_key {num : Arith} {rows : List CostRow} {groupBy : List String}
    {period : Period} {filters : CostFilters} {groups : List CostGroup} {g : CostGroup}
    (h : costGroups num rows groupBy period filters = .ok groups) (hg : g ∈ groups)
    {name : String} (hn : name ∈ groupBy) : ∃ v, g.key.get? name = some v := by
  unfold costGroups at h
  cases hc : resolveColumns groupBy with
  | error e => rw [hc] at h; cases h
  | ok columns =>
    have hlen : columns.length = groupBy.length := by
      unfold resolveColumns at hc
      split at hc
      · cases hc
      · exact (Batch.mapM_eq_ok_iff.mp hc).length_eq.symm
    rw [hc] at h
    obtain rfl := Except.ok.inj h
    rw [foldRows, List.mem_insertionSort, List.mem_map] at hg
    obtain ⟨e, he, rfl⟩ := hg
    have hk := Dict.mem_keys_foldl_set.mp (List.mem_map.mpr ⟨e, he, rfl⟩)
    obtain ⟨r, hr, hvalues⟩ := hk.resolve_left List.not_mem_nil
    obtain ⟨q, _, hq⟩ := List.mem_map.mp (Dict.eq_of_mem_entries_ofKeys hr).1
    have hwidth : groupBy.length ≤ e.1.length := by
      rw [hvalues, ← hq, List.length_map, List.length_map, hlen]
    rw [← List.map_fst_zip hwidth] at hn
    obtain ⟨kv, hkv, rfl⟩ := List.mem_map.mp hn
    exact Dict.mem_keys_iff.mp (Dict.mem_keys_foldl_set.mpr (.inr ⟨kv, hkv, rfl⟩))

end Finops
