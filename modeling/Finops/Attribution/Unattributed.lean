import Finops.Base.Floats
import Finops.Attribution.Queries
import Mathlib.Order.Monotone.Basic

/-!
# The unattributed report

The report is made of five statements in one transaction.  Under READ COMMITTED each
of them sees what is committed when it runs, and collectors go on committing in
between, so the figures are read from five tables (`Snapshots`), each of them the one
before it with more rows.

The total is read first and the unattributed part after it, so the part can exceed
the whole; the subtotals are read after both.  `report_consistent_iff` says what must
not be committed in between for the figures to agree.
-/

namespace Finops

open Numerics Grouping

structure UnattributedSlice where
  label : String
  amountUsd : ℚ

structure UnattributedReport where
  period : Period
  totalUsd : ℚ
  unattributedUsd : ℚ
  topModels : List UnattributedSlice := []
  topResources : List UnattributedSlice := []
  bySource : Dict String ℚ := Dict.empty

def UnattributedReport.unattributedShare (num : Arith) (report : UnattributedReport) : ℚ :=
  if report.totalUsd = 0 then 0 else num.dec (report.unattributedUsd / report.totalUsd)

def DEFAULT_TOP_N : ℕ := 10

def unowned : CostFilters := { teams := [UNATTRIBUTED] }

def topSlices (rows : List CostRow) (column : CostRecord → Option String) (period : Period)
    (limit : ℕ) : List UnattributedSlice :=
  let result := (groupRows (fun r => column r.toCostRecord) (matching rows period unowned)).mapVals
    fun _ rs => amount rs
  ((result.entries.insertionSort fun a b => b.2 ≤ a.2).take limit).map fun e =>
    ⟨e.1.getD "unknown", e.2⟩

def spendBySource (rows : List CostRow) (period : Period) : Dict String ℚ :=
  (groupRows (fun r => r.source) (matching rows period unowned)).entries.foldl
    (fun d e => d.set e.1.str (amount e.2)) Dict.empty

/-- What the five statements see. -/
structure Snapshots where
  total : List CostRow
  unattributed : List CostRow
  bySource : List CostRow
  models : List CostRow
  resources : List CostRow

/-- Quantify spend that has no owner, and name what is causing it. -/
def unattributedReport (seen : Snapshots) (period : Period) (topN : ℕ := DEFAULT_TOP_N) :
    UnattributedReport where
  period := period
  totalUsd := totalSpend seen.total period {}
  unattributedUsd := totalSpend seen.unattributed period unowned
  topModels := topSlices seen.models (fun r => r.model) period topN
  topResources := topSlices seen.resources (fun r => some r.project) period topN
  bySource := spendBySource seen.bySource period

structure UnattributedReport.Consistent (num : Arith) (report : UnattributedReport) : Prop where
  nonneg : 0 ≤ report.unattributedUsd
  le_total : report.unattributedUsd ≤ report.totalUsd
  share_nonneg : 0 ≤ report.unattributedShare num
  share_le_one : report.unattributedShare num ≤ 1
  sum_bySource : report.bySource.values.sum = report.unattributedUsd

/-! ### Commits in between -/

def ingest (w : Warehouse) (batches : List (List CostRecord)) : Warehouse :=
  batches.foldl (fun w records => Session.commit w (w.addAll records)) w

/-- What is committed after each of the first four statements. -/
structure Gaps where
  afterTotal : List (List CostRecord) := []
  afterUnattributed : List (List CostRecord) := []
  afterBySource : List (List CostRecord) := []
  afterModels : List (List CostRecord) := []

def Gaps.snapshots (gaps : Gaps) (w : Warehouse) : Snapshots :=
  let w₂ := ingest w gaps.afterTotal
  let w₃ := ingest w₂ gaps.afterUnattributed
  let w₄ := ingest w₃ gaps.afterBySource
  let w₅ := ingest w₄ gaps.afterModels
  ⟨w.rows, w₂.rows, w₃.rows, w₄.rows, w₅.rows⟩

def newRows (rows rows' : List CostRow) : List CostRow := rows'.drop rows.length

def Nonneg (batches : List (List CostRecord)) : Prop :=
  ∀ records ∈ batches, ∀ r ∈ records, 0 ≤ r.amountUsd

def Amounts (rows : List CostRow) : Prop :=
  ∀ r ∈ rows, 0 ≤ r.amountUsd ∧ HasScale CostRecord.moneyScale r.amountUsd

/-- **Batches add rows** and change none. -/
theorem rows_ingest {batches : List (List CostRecord)} : ∀ {w : Warehouse}, Nonneg batches →
    ∃ new, (ingest w batches).rows = w.rows ++ new ∧ Amounts new := by
  induction batches with
  | nil => intro w _; exact ⟨[], (List.append_nil _).symm, fun r h => absurd h List.not_mem_nil⟩
  | cons records batches ih =>
    intro w h
    have hrest : Nonneg batches := fun rs hrs => h rs (List.mem_cons_of_mem records hrs)
    obtain ⟨new, hnew, hamounts⟩ := ih (w := Session.commit w (w.addAll records)) hrest
    rw [ingest, List.foldl_cons, ← ingest, hnew]
    rcases Session.commit_cases w (w.addAll records) with he | he
    · exact ⟨new, by rw [he], hamounts⟩
    · refine ⟨Session.numbered w.nextId records ++ new, ?_, fun r hr => ?_⟩
      · rw [he, Session.rows_addAll, List.append_assoc]
      · rcases List.mem_append.mp hr with hr | hr
        · obtain ⟨q, hq, hstored⟩ := Session.mem_numbered hr
          rw [hstored]
          exact ⟨toExp_halfAway_nonneg _ (h records List.mem_cons_self q hq),
            hasScale_toExp _ _ _⟩
        · exact hamounts r hr

/-! ### The figures as sums -/

def spendIn (period : Period) (filters : CostFilters) (rows : List CostRow) : ℚ :=
  ((matching rows period filters).map fun r => r.amountUsd).sum

def ownedIn (period : Period) (rows : List CostRow) : ℚ :=
  (((matching rows period {}).filter fun r => r.team ≠ UNATTRIBUTED).map
    fun r => r.amountUsd).sum

theorem totalSpend_eq_spendIn {rows : List CostRow} (h : Amounts rows) (period : Period)
    (filters : CostFilters) : totalSpend rows period filters = spendIn period filters rows :=
  amount_of_hasScale fun r hr => (h r (List.mem_of_mem_filter hr)).2

theorem spendIn_append (period : Period) (filters : CostFilters) (rows more : List CostRow) :
    spendIn period filters (rows ++ more) =
      spendIn period filters rows + spendIn period filters more := by
  rw [spendIn, matching, List.filter_append, List.map_append, List.sum_append]
  rfl

theorem spendIn_nonneg {rows : List CostRow} (h : Amounts rows) (period : Period)
    (filters : CostFilters) : 0 ≤ spendIn period filters rows := by
  refine List.sum_nonneg fun v hv => ?_
  obtain ⟨r, hr, rfl⟩ := List.mem_map.mp hv
  exact (h r (List.mem_of_mem_filter hr)).1

theorem conditions_unowned (period : Period) (r : CostRecord) :
    conditions period unowned r =
      (conditions period {} r && decide (r.team = UNATTRIBUTED)) := by
  simp [conditions, unowned, CostFilters.admits, oneOf]

theorem spendIn_eq (period : Period) (rows : List CostRow) :
    spendIn period {} rows = spendIn period unowned rows + ownedIn period rows := by
  have hpart : matching rows period unowned =
      (matching rows period {}).filter fun r => r.team = UNATTRIBUTED := by
    rw [matching, matching, List.filter_filter]
    refine List.filter_congr fun r _ => ?_
    rw [conditions_unowned, Bool.and_comm]
  have hperm := ((List.filter_append_perm (fun r : CostRow => decide (r.team = UNATTRIBUTED))
    (matching rows period {})).map fun r => r.amountUsd).sum_eq
  rw [List.map_append, List.sum_append] at hperm
  rw [spendIn, spendIn, ownedIn, hpart, ← hperm]
  simp only [decide_not]

theorem entries_spendBySource (rows : List CostRow) (period : Period) :
    (spendBySource rows period).entries = (groupRows (fun r : CostRow => r.source)
      (matching rows period unowned)).entries.map fun e => (e.1.str, amount e.2) := by
  refine Dict.entries_foldl_set ?_
  have hmap : ∀ d : Dict CostSource (List CostRow),
      (d.entries.map fun e => e.1.str) = d.keys.map CostSource.str := by
    intro d
    rw [Dict.keys, List.map_map]
    rfl
  rw [hmap]
  exact (Dict.nodup_keys _).map fun a b => str_injective

/-- **The subtotals of the sources** sum to the unattributed spend. -/
theorem sum_spendBySource {rows : List CostRow} (h : Amounts rows) (period : Period) :
    (spendBySource rows period).values.sum = spendIn period unowned rows := by
  have hamounts : ∀ e ∈ (groupRows (fun r : CostRow => r.source)
      (matching rows period unowned)).entries,
      amount e.2 = (e.2.map fun r => r.amountUsd).sum := by
    intro e he
    refine amount_of_hasScale fun r hr => ?_
    rw [(Dict.eq_of_mem_entries_ofKeys he).2] at hr
    exact (h r (List.mem_of_mem_filter (List.mem_of_mem_filter hr))).2
  rw [Dict.values, entries_spendBySource, List.map_map]
  change ((groupRows _ _).entries.map fun e => amount e.2).sum = _
  rw [List.map_congr_left hamounts]
  have hgroups := sum_groups (fun r : CostRow => r.source) (fun _ => true)
    (fun r : CostRow => r.amountUsd) (matching rows period unowned)
  rw [List.filter_true, List.filter_true] at hgroups
  exact hgroups

/-! ### Agreement -/

theorem Amounts.append {rows more : List CostRow} (h : Amounts rows) (h' : Amounts more) :
    Amounts (rows ++ more) :=
  fun r hr => (List.mem_append.mp hr).elim (h r) (h' r)

theorem share_mem {num : Arith} (hmono : Monotone num.dec) (hzero : num.dec 0 = 0)
    (hone : num.dec 1 = 1) {report : UnattributedReport} (hnonneg : 0 ≤ report.unattributedUsd)
    (hle : report.unattributedUsd ≤ report.totalUsd) :
    0 ≤ report.unattributedShare num ∧ report.unattributedShare num ≤ 1 := by
  unfold UnattributedReport.unattributedShare
  split
  · exact ⟨le_rfl, zero_le_one⟩
  · have hlow := hmono (div_nonneg hnonneg (hnonneg.trans hle))
    have hhigh := hmono (div_le_one_of_le₀ hle (hnonneg.trans hle))
    rw [hzero] at hlow
    rw [hone] at hhigh
    exact ⟨hlow, hhigh⟩

/-- **The figures**, where rows were added before the second statement and again before
the third. -/
theorem figures_eq {seen : Snapshots} {new₂ new₃ : List CostRow} (h : Amounts seen.total)
    (hnew₂ : Amounts new₂) (hnew₃ : Amounts new₃) (hseen₂ : seen.unattributed = seen.total ++ new₂)
    (hseen₃ : seen.bySource = seen.unattributed ++ new₃) (period : Period) (topN : ℕ) :
    let report := unattributedReport seen period topN
    report.totalUsd = spendIn period unowned seen.total + ownedIn period seen.total ∧
      report.unattributedUsd = spendIn period unowned seen.total + spendIn period unowned new₂ ∧
      report.bySource.values.sum = report.unattributedUsd + spendIn period unowned new₃ := by
  have hamounts₂ : Amounts seen.unattributed := hseen₂ ▸ h.append hnew₂
  have hamounts₃ : Amounts seen.bySource := hseen₃ ▸ hamounts₂.append hnew₃
  have hpart : (unattributedReport seen period topN).unattributedUsd =
      spendIn period unowned seen.unattributed := totalSpend_eq_spendIn hamounts₂ period unowned
  refine ⟨?_, ?_, ?_⟩
  · rw [← spendIn_eq]
    exact totalSpend_eq_spendIn h period {}
  · rw [hpart, hseen₂, spendIn_append]
  · rw [hpart, ← spendIn_append, ← hseen₃]
    exact sum_spendBySource hamounts₃ period

/-- **What makes the figures agree.**  The unattributed spend that is committed
between the total and the unattributed part is at most the spend with an owner that
the total has seen, and none is committed between the unattributed part and the
subtotals. -/
theorem report_consistent_iff {num : Arith} (hmono : Monotone num.dec) (hzero : num.dec 0 = 0)
    (hone : num.dec 1 = 1) {w : Warehouse} (hw : Amounts w.rows) {gaps : Gaps}
    (htotal : Nonneg gaps.afterTotal) (hpart : Nonneg gaps.afterUnattributed) (period : Period)
    (topN : ℕ) :
    let seen := gaps.snapshots w
    (unattributedReport seen period topN).Consistent num ↔
      spendIn period unowned (newRows seen.total seen.unattributed) ≤
          ownedIn period seen.total ∧
        spendIn period unowned (newRows seen.unattributed seen.bySource) = 0 := by
  obtain ⟨new₂, hrows₂, hnew₂⟩ := rows_ingest (w := w) htotal
  obtain ⟨new₃, hrows₃, hnew₃⟩ := rows_ingest (w := ingest w gaps.afterTotal) hpart
  intro seen
  have hseen₂ : seen.unattributed = seen.total ++ new₂ := hrows₂
  have hseen₃ : seen.bySource = seen.unattributed ++ new₃ := hrows₃
  have hamounts : Amounts seen.total := hw
  obtain ⟨hwhole, hunowned, hsum⟩ := figures_eq hamounts hnew₂ hnew₃ hseen₂ hseen₃ period topN
  have hdrop₂ : newRows seen.total seen.unattributed = new₂ := by
    rw [newRows, hseen₂, List.drop_left]
  have hdrop₃ : newRows seen.unattributed seen.bySource = new₃ := by
    rw [newRows, hseen₃, List.drop_left]
  rw [hdrop₂, hdrop₃]
  constructor
  · intro h
    have hle := h.le_total
    have hsub := h.sum_bySource
    rw [hwhole, hunowned] at hle
    rw [hsum] at hsub
    exact ⟨by linarith, by linarith⟩
  · rintro ⟨hle, hnone⟩
    have hnonneg : 0 ≤ (unattributedReport seen period topN).unattributedUsd := by
      rw [hunowned]
      exact add_nonneg (spendIn_nonneg hamounts period unowned)
        (spendIn_nonneg hnew₂ period unowned)
    have htop : (unattributedReport seen period topN).unattributedUsd ≤
        (unattributedReport seen period topN).totalUsd := by
      rw [hwhole, hunowned]
      linarith
    obtain ⟨hlow, hhigh⟩ := share_mem hmono hzero hone hnonneg htop
    exact ⟨hnonneg, htop, hlow, hhigh, by rw [hsum, hnone, add_zero]⟩

/-! A collector commits an untagged record of 10 while the report is made. -/

def untagged : CostRecord :=
  { source := .llm, dedupKey := "untagged", occurredAt := 0, amountUsd := 10 }

def reportDay : Period := ⟨0, 86400000000, by decide⟩

def reportBooks : Warehouse :=
  Session.commit Warehouse.empty (Warehouse.empty.addAll [
    { source := .llm, dedupKey := "search", occurredAt := 0, amountUsd := 25, team := "search" },
    { source := .compute, dedupKey := "idle", occurredAt := 0, amountUsd := 3 }])

def untaggedLater : CostRecord := { untagged with dedupKey := "untagged-later" }

/-- The record of 10 is committed after the total, spend of a team after the unattributed
part, and another record of 10 after the subtotals. -/
def commitsBetween : Gaps where
  afterTotal := [[untagged]]
  afterUnattributed := [[{ untagged with dedupKey := "web", team := "web" }]]
  afterBySource := [[untaggedLater]]

theorem amounts_reportBooks : Amounts reportBooks.rows := by
  intro r hr
  have hamount : r.amountUsd = 25 ∨ r.amountUsd = 3 :=
    (by decide +kernel : ∀ r ∈ reportBooks.rows, r.amountUsd = 25 ∨ r.amountUsd = 3) r hr
  rcases hamount with h | h
  · exact ⟨by rw [h]; norm_num, 2500000000, by rw [h]; norm_num [CostRecord.moneyScale]⟩
  · exact ⟨by rw [h]; norm_num, 300000000, by rw [h]; norm_num [CostRecord.moneyScale]⟩

theorem report_consistent_late :
    let report := unattributedReport (commitsBetween.snapshots reportBooks) reportDay
    report.totalUsd = 28 ∧ report.unattributedUsd = 13 ∧ report.Consistent .cpython := by
  have hmono : Monotone Arith.cpython.dec := roundSig_monotone (by decide) (by decide)
  refine ⟨by decide +kernel, by decide +kernel, ?_⟩
  refine (report_consistent_iff hmono (by decide +kernel) (by decide +kernel) amounts_reportBooks
    ?_ ?_ reportDay DEFAULT_TOP_N).mpr ⟨by decide +kernel, by decide +kernel⟩
  · exact (by decide +kernel : ∀ rs ∈ commitsBetween.afterTotal, ∀ r ∈ rs, 0 ≤ r.amountUsd)
  · exact (by decide +kernel :
      ∀ rs ∈ commitsBetween.afterUnattributed, ∀ r ∈ rs, 0 ≤ r.amountUsd)

/-- Committed after the total was read, it is all unattributed and nothing in total. -/
theorem part_exceeds_whole :
    let report := unattributedReport
      (Gaps.snapshots { afterTotal := [[untagged]] } Warehouse.empty) reportDay
    report.totalUsd = 0 ∧ report.unattributedUsd = 10 := by
  decide +kernel

end Finops
