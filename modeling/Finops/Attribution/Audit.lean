import Finops.Attribution.Passes
import Finops.Attribution.Queries

/-!
# The audit view

`CostFilters(include_allocated_parents=True)` drops the condition on the flag and
nothing else, so a query counts the parents and also their children.
`unmarked` forgets what a split marks; up to it, the table after a sequence of
passes is the table before them with the children appended (`map_unmarked_after`).
So the audit view answers with the books as they were before any pass and, on top
of them, the children that the passes created (`audit_view`).
-/

namespace Finops

open Numerics Runs

variable {num : Arith} {w : Warehouse} {calls : List PassCall}

/-- The row but for what a split marks. -/
def unmarked (r : CostRow) : CostRow := { r with allocated := false, allocationRule := none }

theorem unmarked_marked (xs : List Split) (r : CostRow) :
    unmarked (marked xs r) = unmarked r := by
  rw [marked_eq]
  rfl

def created (num : Arith) (w : Warehouse) (calls : List PassCall) : List CostRow :=
  (history num w calls).flatMap Prod.snd

/-- **The table after the passes** is the old one and the children, up to the marks. -/
theorem map_unmarked_after : ∀ {w : Warehouse},
    Along (passStep num) (Completed num) w calls →
      (after (passStep num) w calls).rows.map unmarked =
        (w.rows ++ created num w calls).map unmarked := by
  induction calls with
  | nil => intro w _; rw [created, history, List.flatMap_nil, List.append_nil]; rfl
  | cons call calls ih =>
    rintro w ⟨⟨w', summary, hdone⟩, hrest⟩
    rw [passStep_of_completes hdone] at hrest
    obtain ⟨xs, hout, _⟩ := completes_spec hdone
    have hfirst : w'.rows.map unmarked = w.rows.map unmarked ++ (added w w').map unmarked := by
      rw [hout.rows, ← hout.added_eq, List.map_append, List.map_map]
      congr 1
      exact List.map_congr_left fun r _ => unmarked_marked xs r
    rw [after_cons, created, history, passStep_of_completes hdone, ih hrest, List.map_append,
      hfirst, List.flatMap_cons, List.map_append, List.map_append, List.append_assoc]
    rfl

theorem hasScale_created : ∀ {w : Warehouse}, Along (passStep num) (Completed num) w calls →
    ∀ c ∈ created num w calls, HasScale CostRecord.moneyScale c.amountUsd := by
  induction calls with
  | nil => intro w _ c hc; exact absurd hc List.not_mem_nil
  | cons call calls ih =>
    rintro w ⟨⟨w', summary, hdone⟩, hrest⟩ c hc
    rw [passStep_of_completes hdone] at hrest
    rw [created, history, passStep_of_completes hdone, List.flatMap_cons] at hc
    rcases List.mem_append.mp hc with hc | hc
    · obtain ⟨xs, hout, _⟩ := completes_spec hdone
      obtain ⟨x, _, d, _, he⟩ := hout.exists_child hc
      rw [he]
      exact hasScale_toExp _ _ _
    · exact ih hrest c hc

/-! ### The two views -/

def rowsOf (groupBy : List String) (period : Period) (key : Dict String String)
    (rows : List CostRow) : List CostRow :=
  rows.filter fun r => period.contains r.occurredAt && keyOf groupBy r.toCostRecord = key

theorem keyOf_unmarked (groupBy : List String) (r : CostRow) :
    keyOf groupBy (unmarked r).toCostRecord = keyOf groupBy r.toCostRecord := by
  refine keyOf_eq_iff.mpr (List.map_congr_left fun name _ => ?_)
  unfold dimension GROUPABLE
  split <;> rfl

theorem map_unmarked_rowsOf (groupBy : List String) (period : Period) (key : Dict String String)
    (rows : List CostRow) : (rowsOf groupBy period key rows).map unmarked =
      rowsOf groupBy period key (rows.map unmarked) := by
  rw [rowsOf, rowsOf, List.filter_map]
  refine congrArg _ (List.filter_congr fun r _ => ?_)
  simp only [Function.comp, keyOf_unmarked]
  rfl

theorem filter_matching_audit (groupBy : List String) (period : Period)
    (key : Dict String String) (rows : List CostRow) :
    ((matching rows period { includeAllocatedParents := true }).filter fun r =>
      keyOf groupBy r.toCostRecord = key) = rowsOf groupBy period key rows := by
  rw [matching, List.filter_filter, rowsOf]
  refine List.filter_congr fun r _ => ?_
  simp [conditions, CostFilters.admits, oneOf, Bool.and_comm]

theorem filter_matching_default (groupBy : List String) (period : Period)
    (key : Dict String String) {rows : List CostRow} (h : ∀ r ∈ rows, r.allocated = false) :
    ((matching rows period {}).filter fun r => keyOf groupBy r.toCostRecord = key) =
      rowsOf groupBy period key rows := by
  rw [matching, List.filter_filter, rowsOf]
  refine List.filter_congr fun r hr => ?_
  simp [conditions, CostFilters.admits, oneOf, h r hr, Bool.and_comm]

theorem map_unmarked_rowsOf_after {num : Arith} {w : Warehouse} {calls : List PassCall}
    (hcalls : Along (passStep num) (Completed num) w calls) (groupBy : List String)
    (period : Period) (key : Dict String String) :
    (rowsOf groupBy period key (after (passStep num) w calls).rows).map unmarked =
      (rowsOf groupBy period key w.rows).map unmarked ++
        (rowsOf groupBy period key (created num w calls)).map unmarked := by
  have hrows := congrArg (rowsOf groupBy period key) (map_unmarked_after hcalls)
  rwa [← map_unmarked_rowsOf, ← map_unmarked_rowsOf, rowsOf, rowsOf, List.filter_append,
    ← rowsOf, ← rowsOf, ← rowsOf, List.map_append] at hrows

theorem hasScale_after {num : Arith} {w : Warehouse} {calls : List PassCall}
    (hcalls : Along (passStep num) (Completed num) w calls)
    (hscale : ∀ r ∈ w.rows, HasScale CostRecord.moneyScale r.amountUsd) :
    ∀ r ∈ (after (passStep num) w calls).rows, HasScale CostRecord.moneyScale r.amountUsd := by
  intro r hr
  have hmem := List.mem_map_of_mem (f := unmarked) hr
  rw [map_unmarked_after hcalls] at hmem
  obtain ⟨q, hq, he⟩ := List.mem_map.mp hmem
  have hamount : (unmarked q).amountUsd = (unmarked r).amountUsd := by rw [he]
  change HasScale CostRecord.moneyScale (unmarked r).amountUsd
  rw [← hamount]
  exact (List.mem_append.mp hq).elim (hscale q) (hasScale_created hcalls q)

/-- **The audit view** after any completed passes over records that nothing had
split, where the sums of both queries are in range: for every key, what the default query
answered before them and the children that they created. -/
theorem audit_view (num : Arith) {w : Warehouse} (hopen : ∀ r ∈ w.rows, r.allocated = false)
    (hscale : ∀ r ∈ w.rows, HasScale CostRecord.moneyScale r.amountUsd) {calls : List PassCall}
    (hcalls : Along (passStep num) (Completed num) w calls) {groupBy : List String}
    (hgroup : Allowed groupBy) (period : Period) (hbefore : CostsInRange w.rows groupBy period {})
    (haudit : CostsInRange (after (passStep num) w calls).rows groupBy period
      { includeAllocatedParents := true }) :
    ∃ before audit, aggregateCosts .exact w.rows groupBy period {} = .ok before ∧
      aggregateCosts .exact (after (passStep num) w calls).rows groupBy period
        { includeAllocatedParents := true } = .ok audit ∧
      ∀ key,
        totalFor audit key = totalFor before key +
          ((rowsOf groupBy period key (created num w calls)).map fun c => c.amountUsd).sum ∧
        countFor audit key = countFor before key +
          (rowsOf groupBy period key (created num w calls)).length ∧
        ((groupFor audit key).isSome = true ↔ (groupFor before key).isSome = true ∨
          rowsOf groupBy period key (created num w calls) ≠ []) := by
  obtain ⟨columns, hc⟩ := exists_resolveColumns_eq_ok hgroup
  obtain ⟨before, hanswer⟩ :=
    (exists_aggregateCosts_eq_ok .exact w.rows period {} hgroup).mpr hbefore
  obtain ⟨audit, hanswer'⟩ := (exists_aggregateCosts_eq_ok .exact
    (after (passStep num) w calls).rows period { includeAllocatedParents := true } hgroup).mpr
      haudit
  have hb := costGroups_of_eq_ok hanswer
  have ha := costGroups_of_eq_ok hanswer'
  refine ⟨before, audit, hanswer, hanswer', fun key => ?_⟩
  have hrows := map_unmarked_rowsOf_after hcalls groupBy period key
  have hafter := hasScale_after hcalls hscale
  refine ⟨?_, ?_, ?_⟩
  · have hsum := congrArg (fun l => (l.map fun r : CostRow => r.amountUsd).sum) hrows
    simp only [List.map_map, List.map_append, List.sum_append] at hsum
    rw [totalFor_eq hafter hc ha, totalFor_eq hscale hc hb, filter_matching_audit,
      filter_matching_default groupBy period key hopen]
    exact hsum
  · have hlen := congrArg List.length hrows
    simp only [List.length_map, List.length_append] at hlen
    rw [countFor_eq hc ha, countFor_eq hc hb, filter_matching_audit,
      filter_matching_default groupBy period key hopen]
    exact hlen
  · have hnil : rowsOf groupBy period key (after (passStep num) w calls).rows = [] ↔
        rowsOf groupBy period key w.rows = [] ∧
          rowsOf groupBy period key (created num w calls) = [] := by
      rw [← List.map_eq_nil_iff (f := unmarked), hrows, List.append_eq_nil_iff,
        List.map_eq_nil_iff, List.map_eq_nil_iff]
    rw [isSome_groupFor_iff hc ha, isSome_groupFor_iff hc hb, filter_matching_audit,
      filter_matching_default groupBy period key hopen, Ne, hnil, not_and_or]

/-! The GPU bill is 10, and 20 in the audit view once it is split. -/

theorem audit_view_gpu : ∃ before audit,
    aggregateCosts .exact gpuBooks.rows ["team"] gpuDay {} = .ok before ∧
    aggregateCosts .exact (after (passStep .exact) gpuBooks [gpuCall]).rows ["team"] gpuDay
      { includeAllocatedParents := true } = .ok audit ∧
    totalFor audit (Dict.ofKeys (fun _ => UNATTRIBUTED) ["team"]) =
      totalFor before (Dict.ofKeys (fun _ => UNATTRIBUTED) ["team"]) := by
  have hopen : ∀ r ∈ gpuBooks.rows, r.allocated = false := by decide +kernel
  have hcalls : Along (passStep .exact) (Completed .exact) gpuBooks [gpuCall] :=
    ⟨completed_of_isOk (by decide +kernel), trivial⟩
  have hgroup : Allowed ["team"] := ⟨by simp, by decide⟩
  have hteam : resolveColumns ["team"] = .ok [fun r => some r.team] := rfl
  have hbefore : CostsInRange gpuBooks.rows ["team"] gpuDay {} :=
    (castsFit_costRows hteam).mp (by decide +kernel)
  have haudit : CostsInRange (after (passStep .exact) gpuBooks [gpuCall]).rows ["team"] gpuDay
      { includeAllocatedParents := true } := (castsFit_costRows hteam).mp (by decide +kernel)
  obtain ⟨before, audit, hb, ha, hkeys⟩ :=
    audit_view .exact hopen hasScale_gpuBooks hcalls hgroup gpuDay hbefore haudit
  refine ⟨before, audit, hb, ha, ?_⟩
  rw [(hkeys _).1]
  have hnone : rowsOf ["team"] gpuDay (Dict.ofKeys (fun _ => UNATTRIBUTED) ["team"])
      (created .exact gpuBooks [gpuCall]) = [] := by
    rw [← List.length_eq_zero_iff]
    decide +kernel
  rw [hnone]
  simp

/-- The audit view of a split bill is not what the default query answered before
the split. -/
theorem gpu_counted_twice : Completed .exact gpuBooks gpuCall ∧
    ((aggregateCosts .exact gpuBooks.rows ["team"] gpuDay {}).map fun groups =>
      (groups.map CostGroup.totalUsd).sum) = .ok 10 ∧
    ((aggregateCosts .exact (passStep .exact gpuBooks gpuCall).rows ["team"] gpuDay
      { includeAllocatedParents := true }).map fun groups =>
      (groups.map CostGroup.totalUsd).sum) = .ok 20 :=
  ⟨completed_of_isOk (by decide +kernel), by decide +kernel, by decide +kernel⟩

end Finops
