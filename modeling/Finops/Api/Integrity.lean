import Finops.Api.Histories

/-!
# Budgets that can be read

A row that is not valid cannot be answered, and a list with such a row in it cannot be
either (`listBudgets_eq_none`).  What keeps the rows valid is a matter of the bodies alone:
`Sound` says that a limit is not rounded to zero and that no thresholds are null.

Each commit of a run carries out a body, or of a patch the part in which it differs from
what was loaded, so sound bodies leave valid rows in whatever order the statements of their
requests come (`valid_replay`).  Then every budget can be read at every moment, and a request
that fails after its commit has only lost its budget to a delete (`budgets_readable`).
-/

namespace Finops.Api

open Numerics Runs

/-! ### Reading -/

def getBudget (t : BudgetTable) (id : ℤ) : Response :=
  match t.get id with
  | none => notFound id
  | some b => respond .ok b

def selected (t : BudgetTable) (team : Option String) : List Budget :=
  t.rows.filter fun b => team.getD "" = "" || b.team = team.getD ""

/-- `GET /budgets`, unless some row does not fit the response model.  The order is by team,
and the database's among equals. -/
def listBudgets (order : List Budget → List Budget) (t : BudgetTable) (team : Option String) :
    Option (List BudgetModel) :=
  (order (selected t team)).mapM BudgetModel.ofRow

theorem ofRow_eq_none {b : Budget} : BudgetModel.ofRow b = none ↔ b.alertThresholds = none :=
  Option.map_eq_none_iff

theorem mapM_ofRow_eq_none {rows : List Budget} :
    rows.mapM BudgetModel.ofRow = none ↔ ∃ b ∈ rows, b.alertThresholds = none := by
  induction rows with
  | nil => simp
  | cons b rows ih =>
    rw [List.mapM_cons]
    cases hb : BudgetModel.ofRow b with
    | none => exact iff_of_true rfl ⟨b, List.mem_cons_self, ofRow_eq_none.mp hb⟩
    | some m =>
      have hsome : b.alertThresholds ≠ none := fun h => by
        rw [ofRow_eq_none.mpr h] at hb
        cases hb
      cases hrows : rows.mapM BudgetModel.ofRow with
      | none =>
        obtain ⟨b', hb', hnone⟩ := ih.mp hrows
        exact iff_of_true rfl ⟨b', List.mem_cons_of_mem _ hb', hnone⟩
      | some models =>
        refine iff_of_false (fun h => by cases h) ?_
        rintro ⟨b', hb', hnone⟩
        rcases List.mem_cons.mp hb' with rfl | hb'
        · exact hsome hnone
        · exact absurd (ih.mpr ⟨b', hb', hnone⟩) (by rw [hrows]; exact Option.some_ne_none _)

/-- **One row that does not fit spoils the list.** -/
theorem listBudgets_eq_none {order : List Budget → List Budget} (horder : ∀ l, (order l).Perm l)
    {t : BudgetTable} {team : Option String} :
    listBudgets order t team = none ↔ ∃ b ∈ selected t team, b.alertThresholds = none := by
  rw [listBudgets, mapM_ofRow_eq_none]
  exact exists_congr fun b => and_congr_left fun _ => (horder (selected t team)).mem_iff

theorem map_ofRow_of_mapM {rows : List Budget} : ∀ {models : List BudgetModel},
    rows.mapM BudgetModel.ofRow = some models → rows.map BudgetModel.ofRow = models.map some := by
  induction rows with
  | nil =>
    intro models h
    cases h
    rfl
  | cons b rows ih =>
    intro models h
    rw [List.mapM_cons] at h
    obtain ⟨m, hm, h⟩ := Option.bind_eq_some_iff.mp h
    obtain ⟨rest, hrest, h⟩ := Option.bind_eq_some_iff.mp h
    cases h
    rw [List.map_cons, List.map_cons, ih hrest, hm]

/-! ### Sound bodies -/

/-- A limit that is not rounded to zero, and no null for the thresholds. -/
def Sound : BudgetRequest → Prop
  | .create payload => minLimit ≤ payload.limitUsd
  | .patch _ payload =>
    payload.alertThresholds ≠ .null ∧ ∀ v, payload.limitUsd = .value v → minLimit ≤ v
  | .delete _ => True

def Effect.Sound : Effect → Prop
  | .request req => Api.Sound req
  | .idTaken => True

theorem harmless_of_sound {req : BudgetRequest} (h : Sound req) (t : BudgetTable) :
    Harmless t req := by
  cases req with
  | create payload => exact .inr h
  | patch id payload => exact .inr (.inr h)
  | delete id => trivial

theorem sound_narrow {id : ℤ} {payload : BudgetUpdate} (h : Sound (.patch id payload))
    (loaded : Budget) : Sound (.patch id (payload.narrow loaded)) :=
  ⟨fun hnull => h.1 (Field.narrow_eq_null hnull), fun v hv => h.2 v (Field.narrow_eq_value hv)⟩

/-- **A sound effect** leaves valid rows. -/
theorem valid_effectStep {t : BudgetTable} (h : t.Valid) {effect : Effect} (he : effect.Sound) :
    (effectStep t effect).Valid := by
  cases effect with
  | request req => exact ((request_iff h req).mpr (harmless_of_sound he t)).1
  | idTaken => exact h

section

variable {ι : Type*} {t : BudgetTable} {log : List (ι × Effect)}

theorem valid_replay (ht : t.Valid) (h : ∀ x ∈ log, x.2.Sound) : (replay t log).Valid := by
  refine invariant_of_mem (I := BudgetTable.Valid) (G := Effect.Sound)
    (fun _ _ h he => valid_effectStep h he) ht ?_
  intro effect he
  obtain ⟨x, hx, rfl⟩ := List.mem_map.mp he
  exact h x hx

theorem sound_of_origin [DecidableEq ι] {reqs : ι → BudgetRequest} {s : Server ι} {k : ι}
    {effect : Effect} (ho : Origin t reqs s k effect) (h : Sound (reqs k)) : effect.Sound := by
  cases effect with
  | idTaken => trivial
  | request req =>
    cases req with
    | create payload => exact ho ▸ h
    | patch id changes =>
      obtain ⟨_, loaded, payload, _, hreq, rfl, _⟩ := ho
      rw [hreq] at h
      exact sound_narrow h loaded
    | delete id => trivial

/-! ### Runs of sound requests -/

/-- The request has committed nothing but a wasted id, or its budget was deleted before it
could be shown. -/
def Outrun (t : BudgetTable) (log : List (ι × Effect)) (i : ι) (req : BudgetRequest) : Prop :=
  (∀ r, (i, Effect.request r) ∉ log) ∨
    ∃ seen id, seen <+: log ∧ (Inserted t seen i req id ∨ Updated t seen i req id) ∧
      (replay t seen).get id = none

theorem get_of_readModel (h : t.Valid) {id : ℤ} (hnone : readModel t id = none) :
    t.get id = none := by
  cases hget : t.get id with
  | none => rfl
  | some b =>
    rw [readModel, hget] at hnone
    have hvalid := (h b (mem_of_get hget).1).thresholds
    rw [ofRow_eq_none.mp hnone] at hvalid
    cases hvalid

variable [DecidableEq ι]

/-- **Sound requests leave budgets that can be read.**  In whatever order the statements of
the requests come, at every moment the rows are valid, each budget is answered or not found,
each list has every budget of its team, and a request that failed has committed no change, or
has lost its budget to a delete. -/
theorem budgets_readable (ht : t.Valid) {reqs : ι → BudgetRequest} (hsound : ∀ i, Sound (reqs i))
    (statements : List (Statement ι)) :
    let s := after serve (Server.start t reqs) statements
    s.table.Valid ∧
      (∀ id, (∃ b ∈ s.table.rows, b.id = id ∧
          ∃ m, BudgetModel.ofRow b = some m ∧ getBudget s.table id = .ok m) ∨
        getBudget s.table id = notFound id ∧ ∀ b ∈ s.table.rows, b.id ≠ id) ∧
      (∀ order : List Budget → List Budget, (∀ l, (order l).Perm l) → ∀ team, ∃ models,
        listBudgets order s.table team = some models ∧
          (models.map some).Perm ((selected s.table team).map BudgetModel.ofRow)) ∧
      ∀ i, s.stage i = .answered .serverError → Outrun t s.log i (reqs i) := by
  intro s
  obtain ⟨ha, ho⟩ := originates_after t reqs statements
  have heffects : ∀ x ∈ s.log, x.2.Sound := fun x hx => sound_of_origin (ho x hx) (hsound x.1)
  have hvalid : s.table.Valid := ha.table ▸ valid_replay ht heffects
  refine ⟨hvalid, fun id => ?_, fun order horder team => ?_, fun i hi => ?_⟩
  · unfold getBudget
    cases hget : s.table.get id with
    | none => exact .inr ⟨rfl, get_eq_none.mp hget⟩
    | some b =>
      obtain ⟨hb, hid⟩ := mem_of_get hget
      obtain ⟨thresholds, hthresholds⟩ := Option.isSome_iff_exists.mp (hvalid b hb).thresholds
      have hmodel : BudgetModel.ofRow b =
          some ⟨b.id, b.team, b.period, b.limitUsd, thresholds, b.isActive⟩ := by
        rw [BudgetModel.ofRow, hthresholds, Option.map_some]
      refine .inl ⟨b, hb, hid, _, hmodel, ?_⟩
      show respond .ok b = _
      rw [respond, hmodel, Option.map_some, Option.getD_some]
  · cases hlist : listBudgets order s.table team with
    | none =>
      obtain ⟨b, hb, hnone⟩ := (listBudgets_eq_none horder).mp hlist
      have hsome := (hvalid b (List.mem_of_mem_filter hb)).thresholds
      rw [hnone] at hsome
      cases hsome
    | some models =>
      refine ⟨models, rfl, ?_⟩
      rw [← map_ofRow_of_mapM hlist]
      exact (horder _).map _
  · have hfailed : Failed t s.log i (reqs i) := by
      have hhonest := ha.honest i
      rwa [hi] at hhonest
    rcases hfailed with ⟨_, _, hnot, _⟩ | ⟨_, _, _, hnot, _⟩ | ⟨seen, id, hseen, hdone, hnone⟩
    · exact .inl hnot
    · exact .inl fun r hr => hnot (List.mem_map_of_mem (f := Prod.fst) hr)
    · have hprefix : (replay t seen).Valid :=
        valid_replay ht fun x hx => heffects x (hseen.subset hx)
      exact .inr ⟨seen, id, hseen, hdone, get_of_readModel hprefix hnone⟩

end

/-! Both updates load the budget before it is shown to who created it, and the later one
writes first. -/

def updatedTogether : List (Statement ℕ) :=
  [.read 0, .write 0, .read 1, .read 2, .write 2, .readBack 0, .write 1, .readBack 1, .readBack 2]

theorem budgets_readable_updatedTogether :
    let s := after serve (Server.start BudgetTable.empty createdFirst) updatedTogether
    (s.table.get 1).map (fun b => (b.limitUsd, b.alertThresholds)) = some (5000, some [50]) ∧
      s.table.Valid := by
  refine ⟨by decide +kernel, (budgets_readable (fun b hb => absurd hb List.not_mem_nil)
    (fun i => ?_) updatedTogether).1⟩
  have hcreate : Sound (.create research) := show minLimit ≤ research.limitUsd by decide +kernel
  have hlimit : Sound (.patch 1 higherLimit) := by
    refine ⟨fun h => (by cases h), fun v hv => ?_⟩
    obtain rfl := Field.value.inj hv
    decide +kernel
  have hthreshold : Sound (.patch 1 oneThreshold) :=
    ⟨fun h => (by cases h), fun v hv => (by cases hv)⟩
  unfold createdFirst
  split
  · exact hcreate
  · exact hlimit
  · exact hthreshold

end Finops.Api
