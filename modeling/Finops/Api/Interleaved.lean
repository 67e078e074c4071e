import Finops.Api.Budgets
import Mathlib.Logic.Function.Basic

/-!
# Budget requests in flight

The requests that write a budget take more than one statement.  `create_budget` looks for
a budget of the team and period, inserts one and reads it back; `update_budget` loads the
budget, writes the columns that differ from what it loaded, and reads it back;
`delete_budget` loads the budget and deletes it.  A write is one statement and its commit,
so ids are given out in the order of the commits; between the statements of one request
the others go on with theirs.

So an insert can meet a budget that was not there before: it takes an id of the sequence
and raises.  An update of a budget that has gone raises too, a delete does not, and what
is read back may be somebody else's work.

The log holds what each commit did.  `requests_accounted` says that the table is what the
logged requests leave when they are handled one after the other, and what each answer
means.  It rests on two lists, what a statement can do (`serve_cases`) and what is true of
a request at each stage (`Honest`).  `Histories.lean` goes on to single budgets.
-/

namespace Finops.Api

open Numerics Runs

/-! ### What a write sends -/

/-- The part of a field that an update writes: what is as it was loaded is left out. -/
def Field.narrow {α : Type*} [DecidableEq α] (loaded : Option α) : Field α → Field α
  | .omitted => .omitted
  | .null => if loaded = none then .omitted else .null
  | .value v => if loaded = some v then .omitted else .value v

theorem Field.narrow_eq_value {α : Type*} [DecidableEq α] {loaded : Option α} {f : Field α} {v : α}
    (h : f.narrow loaded = .value v) : f = .value v := by
  cases f with
  | omitted => cases h
  | null =>
    rw [Field.narrow] at h
    split at h <;> cases h
  | value w =>
    rw [Field.narrow] at h
    split at h
    · cases h
    · exact h

theorem Field.narrow_eq_null {α : Type*} [DecidableEq α] {loaded : Option α} {f : Field α}
    (h : f.narrow loaded = .null) : f = .null := by
  cases f with
  | omitted => cases h
  | null => rfl
  | value w =>
    rw [Field.narrow] at h
    split at h <;> cases h

/-- The columns of an update that differ from the loaded budget. -/
def BudgetUpdate.narrow (loaded : Budget) (payload : BudgetUpdate) : BudgetUpdate where
  limitUsd := payload.limitUsd.narrow (some loaded.limitUsd)
  alertThresholds := payload.alertThresholds.narrow loaded.alertThresholds
  isActive := payload.isActive.narrow (some loaded.isActive)
  limit_pos := fun v h => payload.limit_pos v (Field.narrow_eq_value h)

def BudgetUpdate.isEmpty : BudgetUpdate → Bool
  | ⟨.omitted, .omitted, .omitted, _⟩ => true
  | _ => false

/-- `UPDATE budget SET ... WHERE id = ...`: it raises where a column refuses its value and
where there is no row. -/
def flushUpdate (t : BudgetTable) (id : ℤ) (changes : BudgetUpdate) : Option BudgetTable :=
  if changes.isEmpty then some t
  else
    match t.get id with
    | none => none
    | some row => (patched row changes).toOption.map (t.update id)

/-- An insert that is rejected has taken its id. -/
def BudgetTable.takeId (t : BudgetTable) : BudgetTable where
  rows := t.rows
  nextId := t.nextId + 1
  ids := t.ids
  ids_lt := fun b hb => (t.ids_lt b hb).trans (lt_add_one _)
  unique := t.unique

def conflict (payload : BudgetCreate) : Response :=
  .conflict ("a " ++ payload.period.str ++ " budget already exists for team "
    ++ quoted payload.team)

/-! ### The server -/

inductive Stage
  | arrived (req : BudgetRequest)
  | creating (payload : BudgetCreate)
  | patching (loaded : Budget) (payload : BudgetUpdate)
  | deleting (id : ℤ)
  | inserted (id : ℤ)
  | updated (id : ℤ)
  | answered (response : Response)

/-- What a commit does: a request is carried out, or an id is taken in vain. -/
inductive Effect
  | request (req : BudgetRequest)
  | idTaken

def effectStep (t : BudgetTable) : Effect → BudgetTable
  | .request req => storeStep t req
  | .idTaken => t.takeId

/-- The committed table, the requests, and what was committed for whom. -/
structure Server (ι : Type*) where
  table : BudgetTable
  stage : ι → Stage
  log : List (ι × Effect)

inductive Statement (ι : Type*)
  | read (i : ι)
  | write (i : ι)
  | readBack (i : ι)

def Statement.of {ι : Type*} : Statement ι → ι
  | .read i => i
  | .write i => i
  | .readBack i => i

variable {ι : Type*} [DecidableEq ι]

def Server.start (t : BudgetTable) (reqs : ι → BudgetRequest) : Server ι :=
  ⟨t, fun i => .arrived (reqs i), []⟩

def Server.enter (s : Server ι) (i : ι) (stage : Stage) : Server ι :=
  { s with stage := Function.update s.stage i stage }

def Server.commit (s : Server ι) (i : ι) (stage : Stage) (effect : Effect) (t : BudgetTable) :
    Server ι where
  table := t
  stage := Function.update s.stage i stage
  log := s.log ++ [(i, effect)]

/-- The first statement: the check of a new budget, or `_load`. -/
def readStage (t : BudgetTable) : BudgetRequest → Stage
  | .create payload =>
    match t.existing payload.team payload.period with
    | some _ => .answered (conflict payload)
    | none => .creating payload
  | .patch id payload =>
    match t.get id with
    | none => .answered (notFound id)
    | some loaded => .patching loaded payload
  | .delete id =>
    match t.get id with
    | none => .answered (notFound id)
    | some _ => .deleting id

/-- `session.refresh(budget)` and the response model. -/
def shown (answer : BudgetModel → Response) (t : BudgetTable) (id : ℤ) : Response :=
  match t.get id with
  | none => .serverError
  | some b => respond answer b

def serve (s : Server ι) : Statement ι → Server ι
  | .read i =>
    match s.stage i with
    | .arrived req => s.enter i (readStage s.table req)
    | _ => s
  | .write i =>
    match s.stage i with
    | .creating payload =>
      match moneyColumn payload.limitUsd with
      | .error _ => s.enter i (.answered .serverError)
      | .ok limitUsd =>
        if h : s.table.existing payload.team payload.period = none then
          s.commit i (.inserted s.table.nextId) (.request (.create payload))
            (s.table.insert payload limitUsd h)
        else s.commit i (.answered .serverError) .idTaken s.table.takeId
    | .patching loaded payload =>
      match flushUpdate s.table loaded.id (payload.narrow loaded) with
      | none => s.enter i (.answered .serverError)
      | some t => s.commit i (.updated loaded.id)
          (.request (.patch loaded.id (payload.narrow loaded))) t
    | .deleting id => s.commit i (.answered .noContent) (.request (.delete id)) (s.table.delete id)
    | _ => s
  | .readBack i =>
    match s.stage i with
    | .inserted id => s.enter i (.answered (shown .created s.table id))
    | .updated id => s.enter i (.answered (shown .ok s.table id))
    | _ => s

/-! ### What one statement can do -/

inductive Enters (t : BudgetTable) : Stage → Stage → Prop
  | read (req : BudgetRequest) : Enters t (.arrived req) (readStage t req)
  | overflows {payload : BudgetCreate} (h : Overflows payload.limitUsd) :
      Enters t (.creating payload) (.answered .serverError)
  | raises {loaded : Budget} {payload : BudgetUpdate}
      (h : flushUpdate t loaded.id (payload.narrow loaded) = none) :
      Enters t (.patching loaded payload) (.answered .serverError)
  | inserted (id : ℤ) : Enters t (.inserted id) (.answered (shown .created t id))
  | updated (id : ℤ) : Enters t (.updated id) (.answered (shown .ok t id))

inductive Commits (t : BudgetTable) : Stage → Stage → Effect → BudgetTable → Prop
  | insert {payload : BudgetCreate} {limitUsd : ℚ}
      (hlimit : moneyColumn payload.limitUsd = .ok limitUsd)
      (h : t.existing payload.team payload.period = none) :
      Commits t (.creating payload) (.inserted t.nextId) (.request (.create payload))
        (t.insert payload limitUsd h)
  | taken {payload : BudgetCreate} (h : t.existing payload.team payload.period ≠ none) :
      Commits t (.creating payload) (.answered .serverError) .idTaken t.takeId
  | update {loaded : Budget} {payload : BudgetUpdate} {t' : BudgetTable}
      (h : flushUpdate t loaded.id (payload.narrow loaded) = some t') :
      Commits t (.patching loaded payload) (.updated loaded.id)
        (.request (.patch loaded.id (payload.narrow loaded))) t'
  | delete (id : ℤ) :
      Commits t (.deleting id) (.answered .noContent) (.request (.delete id)) (t.delete id)

/-- **What one statement can do.** -/
theorem serve_cases (s : Server ι) (e : Statement ι) :
    serve s e = s ∨
    (∃ i old new, e.of = i ∧ s.stage i = old ∧ Enters s.table old new ∧
      serve s e = s.enter i new) ∨
    (∃ i old new effect t, e.of = i ∧ s.stage i = old ∧ Commits s.table old new effect t ∧
      serve s e = s.commit i new effect t) := by
  cases e with
  | read i =>
    cases hs : s.stage i with
    | arrived req =>
      exact .inr (.inl ⟨i, _, _, rfl, hs, Enters.read req, by simp only [serve, hs]⟩)
    | _ => exact .inl (by simp only [serve, hs])
  | write i =>
    cases hs : s.stage i with
    | creating payload =>
      rcases moneyColumn_cases payload.limitUsd with ⟨hover, hv⟩ | ⟨_, hv⟩
      · exact .inr (.inl ⟨i, _, _, rfl, hs, Enters.overflows hover, by simp only [serve, hs, hv]⟩)
      · by_cases h : s.table.existing payload.team payload.period = none
        · exact .inr (.inr ⟨i, _, _, _, _, rfl, hs, Commits.insert hv h,
            by simp only [serve, hs, hv, dif_pos h]⟩)
        · exact .inr (.inr ⟨i, _, _, _, _, rfl, hs, Commits.taken h,
            by simp only [serve, hs, hv, dif_neg h]⟩)
    | patching loaded payload =>
      cases hf : flushUpdate s.table loaded.id (payload.narrow loaded) with
      | none => exact .inr (.inl ⟨i, _, _, rfl, hs, Enters.raises hf, by simp only [serve, hs, hf]⟩)
      | some t =>
        exact .inr (.inr ⟨i, _, _, _, _, rfl, hs, Commits.update hf, by simp only [serve, hs, hf]⟩)
    | deleting id =>
      exact .inr (.inr ⟨i, _, _, _, _, rfl, hs, Commits.delete id, by simp only [serve, hs]⟩)
    | _ => exact .inl (by simp only [serve, hs])
  | readBack i =>
    cases hs : s.stage i with
    | inserted id =>
      exact .inr (.inl ⟨i, _, _, rfl, hs, Enters.inserted id, by simp only [serve, hs]⟩)
    | updated id =>
      exact .inr (.inl ⟨i, _, _, rfl, hs, Enters.updated id, by simp only [serve, hs]⟩)
    | _ => exact .inl (by simp only [serve, hs])

/-! ### A commit is a request carried out -/

theorem BudgetTable.eq_of_rows {t u : BudgetTable} (hrows : t.rows = u.rows)
    (hnext : t.nextId = u.nextId) : t = u := by
  obtain ⟨⟨rows, _⟩, nextId, _, _⟩ := t
  obtain ⟨⟨rows', _⟩, nextId', _, _⟩ := u
  obtain rfl : rows = rows' := hrows
  obtain rfl : nextId = nextId' := hnext
  rfl

theorem createBudget_of_none {t : BudgetTable} {payload : BudgetCreate}
    (h : t.existing payload.team payload.period = none) : createBudget t payload =
      match moneyColumn payload.limitUsd with
      | .error _ => (t, .serverError)
      | .ok limitUsd =>
        (t.insert payload limitUsd h, respond .created (t.newRow payload limitUsd)) := by
  unfold createBudget
  split
  · rename_i b hb
    rw [h] at hb
    cases hb
  · rfl

variable {t : BudgetTable}

theorem eq_of_get {id : ℤ} {b row : Budget} (h : t.get id = some row) (hb : b ∈ t.rows)
    (hid : b.id = id) : b = row := by
  obtain ⟨hrow, hrid⟩ := mem_of_get h
  exact List.inj_on_of_nodup_map t.ids hb hrow (hid.trans hrid.symm)

theorem get_eq_none {id : ℤ} : t.get id = none ↔ ∀ b ∈ t.rows, b.id ≠ id := by
  rw [BudgetTable.get, List.find?_eq_none]
  simp only [decide_eq_true_eq]

theorem update_self {id : ℤ} {row : Budget} (h : t.get id = some row) :
    t.update id ⟨row.limitUsd, row.alertThresholds, row.isActive⟩ = t := by
  refine BudgetTable.eq_of_rows ?_ rfl
  refine (List.map_congr_left fun b hb => ?_).trans (List.map_id _)
  unfold BudgetTable.write
  split
  · rename_i hid
    rw [eq_of_get h hb hid]
    rfl
  · rfl

theorem delete_of_none {id : ℤ} (h : t.get id = none) : t.delete id = t := by
  refine BudgetTable.eq_of_rows (List.filter_eq_self.mpr fun b hb => ?_) rfl
  exact decide_eq_true (get_eq_none.mp h b hb)

theorem patched_of_isEmpty {changes : BudgetUpdate} (h : changes.isEmpty = true) (row : Budget) :
    patched row changes = .ok ⟨row.limitUsd, row.alertThresholds, row.isActive⟩ := by
  unfold BudgetUpdate.isEmpty at h
  split at h
  · rfl
  · cases h

/-- **A flush that does not raise** carries the patch out. -/
theorem storeStep_of_flush {id : ℤ} {changes : BudgetUpdate} {t' : BudgetTable}
    (h : flushUpdate t id changes = some t') : storeStep t (.patch id changes) = t' := by
  change (updateBudget t id changes).1 = t'
  unfold flushUpdate at h
  unfold updateBudget
  cases hget : t.get id with
  | none =>
    split at h
    · exact Option.some.inj h
    · rw [hget] at h
      cases h
  | some row =>
    split at h
    · rename_i hempty
      simp only [patched_of_isEmpty hempty, update_self hget]
      exact Option.some.inj h
    · rw [hget] at h
      dsimp only at h ⊢
      cases hp : patched row changes with
      | error e =>
        rw [hp] at h
        cases h
      | ok values =>
        rw [hp] at h
        exact Option.some.inj h

/-- **A commit** does what its effect says. -/
theorem effectStep_of_commits {old new : Stage} {effect : Effect} {t' : BudgetTable}
    (h : Commits t old new effect t') : effectStep t effect = t' := by
  cases h with
  | insert hlimit h =>
    change (createBudget t _).1 = _
    rw [createBudget_of_none h, hlimit]
  | taken h => rfl
  | update h => exact storeStep_of_flush h
  | delete id =>
    change (deleteBudget t id).1 = _
    unfold deleteBudget
    cases hget : t.get id with
    | none => exact (delete_of_none hget).symm
    | some b => rfl

/-! ### What an answer means -/

def replay (t : BudgetTable) (log : List (ι × Effect)) : BudgetTable :=
  after effectStep t (log.map Prod.snd)

omit [DecidableEq ι] in
theorem replay_concat (t : BudgetTable) (log : List (ι × Effect)) (x : ι × Effect) :
    replay t (log ++ [x]) = effectStep (replay t log) x.2 := by
  rw [replay, List.map_append, after_append]
  rfl

/-- What is read of a budget, if it is there and fits the response model. -/
def readModel (t : BudgetTable) (id : ℤ) : Option BudgetModel := (t.get id).bind BudgetModel.ofRow

theorem shown_eq (answer : BudgetModel → Response) (t : BudgetTable) (id : ℤ) :
    shown answer t id = ((readModel t id).map answer).getD .serverError := by
  unfold shown readModel
  cases t.get id <;> rfl

theorem id_of_readModel {id : ℤ} {m : BudgetModel} (h : readModel t id = some m) : m.id = id := by
  obtain ⟨b, hb, hm⟩ := Option.bind_eq_some_iff.mp h
  obtain ⟨_, _, rfl⟩ := Option.map_eq_some_iff.mp hm
  exact (mem_of_get hb).2

section Meaning

variable (t : BudgetTable) (log : List (ι × Effect)) (i : ι) (req : BudgetRequest)

/-- A budget was created where there was none of its team and period. -/
def Inserted (id : ℤ) : Prop :=
  ∃ payload pre post, req = .create payload ∧ log = pre ++ (i, .request req) :: post ∧
    (replay t pre).existing payload.team payload.period = none ∧
    ¬ Overflows payload.limitUsd ∧ (replay t pre).nextId = id

/-- A budget was loaded and, later, patched where it was to differ from what was loaded. -/
def Updated (id : ℤ) : Prop :=
  ∃ loaded payload seen mid post, req = .patch id payload ∧
    log = seen ++ mid ++ (i, .request (.patch id (payload.narrow loaded))) :: post ∧
    (replay t seen).get id = some loaded

/-- A budget was loaded and, later, deleted. -/
def Deleted : Prop :=
  ∃ id seen mid post, req = .delete id ∧ log = seen ++ mid ++ (i, .request req) :: post ∧
    (replay t seen).get id ≠ none

/-- The limit is too large or a null is refused; or another request came first; or the
work was done and there was nothing left to show for it. -/
def Failed : Prop :=
  (∃ payload, req = .create payload ∧ (∀ r, (i, Effect.request r) ∉ log) ∧
    (Overflows payload.limitUsd ∨ ∃ seen mid, seen ++ mid <+: log ∧
      (replay t seen).existing payload.team payload.period = none ∧
      (replay t (seen ++ mid)).existing payload.team payload.period ≠ none)) ∨
  (∃ id payload, req = .patch id payload ∧ i ∉ log.map Prod.fst ∧
    (Refused payload ∨ ∃ seen mid, seen ++ mid <+: log ∧
      (replay t seen).get id ≠ none ∧ (replay t (seen ++ mid)).get id = none)) ∨
  ∃ seen id, seen <+: log ∧ (Inserted t seen i req id ∨ Updated t seen i req id) ∧
    readModel (replay t seen) id = none

def Answered : Response → Prop
  | .created m => ∃ seen, seen <+: log ∧ Inserted t seen i req m.id ∧
      readModel (replay t seen) m.id = some m
  | .ok m => ∃ seen, seen <+: log ∧ Updated t seen i req m.id ∧
      readModel (replay t seen) m.id = some m
  | .noContent => Deleted t log i req
  | .serverError => Failed t log i req
  | refusal => i ∉ log.map Prod.fst ∧ ∃ seen, seen <+: log ∧
      handle (replay t seen) req = (replay t seen, refusal)

/-- What is true of a request on its way. -/
def Honest : Stage → Prop
  | .arrived r => r = req ∧ i ∉ log.map Prod.fst
  | .creating payload => req = .create payload ∧ i ∉ log.map Prod.fst ∧
      ∃ seen, seen <+: log ∧ (replay t seen).existing payload.team payload.period = none
  | .patching loaded payload => req = .patch loaded.id payload ∧ i ∉ log.map Prod.fst ∧
      ∃ seen, seen <+: log ∧ (replay t seen).get loaded.id = some loaded
  | .deleting id => req = .delete id ∧ i ∉ log.map Prod.fst ∧
      ∃ seen, seen <+: log ∧ (replay t seen).get id ≠ none
  | .inserted id => Inserted t log i req id
  | .updated id => Updated t log i req id
  | .answered r => Answered t log i req r

end Meaning

/-- The invariant of the server. -/
structure Accounted (t : BudgetTable) (reqs : ι → BudgetRequest) (s : Server ι) : Prop where
  table : s.table = replay t s.log
  once : (s.log.map Prod.fst).Nodup
  honest : ∀ i, Honest t s.log i (reqs i) (s.stage i)

/-! ### What a commit of another request leaves true -/

section Concat

variable {log : List (ι × Effect)} {i : ι} {req : BudgetRequest} {id : ℤ}

omit [DecidableEq ι] in
theorem Inserted.concat (h : Inserted t log i req id) (x : ι × Effect) :
    Inserted t (log ++ [x]) i req id := by
  obtain ⟨payload, pre, post, hreq, rfl, hrest⟩ := h
  exact ⟨payload, pre, post ++ [x], hreq, by simp, hrest⟩

omit [DecidableEq ι] in
theorem Updated.concat (h : Updated t log i req id) (x : ι × Effect) :
    Updated t (log ++ [x]) i req id := by
  obtain ⟨loaded, payload, seen, mid, post, hreq, rfl, hseen⟩ := h
  exact ⟨loaded, payload, seen, mid, post ++ [x], hreq, by simp, hseen⟩

omit [DecidableEq ι] in
theorem notMem_concat {x : ι × Effect} (h : i ∉ log.map Prod.fst) (hx : x.1 ≠ i) :
    i ∉ (log ++ [x]).map Prod.fst := by
  rw [List.map_append, List.mem_append]
  rintro (hi | hi)
  · exact h hi
  · exact hx (List.mem_singleton.mp hi).symm

omit [DecidableEq ι] in
theorem Failed.concat {x : ι × Effect} (h : Failed t log i req) (hx : x.1 ≠ i) :
    Failed t (log ++ [x]) i req := by
  have hlog : log <+: log ++ [x] := List.prefix_append log [x]
  rcases h with ⟨payload, hreq, hnot, hwhy⟩ | ⟨id, payload, hreq, hnot, hwhy⟩ | ⟨seen, id, hs, h⟩
  · refine .inl ⟨payload, hreq, fun r hr => ?_, hwhy.imp_right ?_⟩
    · rcases List.mem_append.mp hr with hr | hr
      · exact hnot r hr
      · exact hx (congrArg Prod.fst (List.mem_singleton.mp hr)).symm
    · rintro ⟨seen, mid, hs, h⟩
      exact ⟨seen, mid, hs.trans hlog, h⟩
  · refine .inr (.inl ⟨id, payload, hreq, notMem_concat hnot hx, hwhy.imp_right ?_⟩)
    rintro ⟨seen, mid, hs, h⟩
    exact ⟨seen, mid, hs.trans hlog, h⟩
  · exact .inr (.inr ⟨seen, id, hs.trans hlog, h⟩)

omit [DecidableEq ι] in
theorem Answered.concat {x : ι × Effect} {r : Response} (h : Answered t log i req r)
    (hx : x.1 ≠ i) : Answered t (log ++ [x]) i req r := by
  have hlog : log <+: log ++ [x] := List.prefix_append log [x]
  cases r with
  | created m =>
    obtain ⟨seen, hs, h⟩ := h
    exact ⟨seen, hs.trans hlog, h⟩
  | ok m =>
    obtain ⟨seen, hs, h⟩ := h
    exact ⟨seen, hs.trans hlog, h⟩
  | noContent =>
    obtain ⟨id, seen, mid, post, hreq, rfl, hseen⟩ := h
    exact ⟨id, seen, mid, post ++ [x], hreq, by simp, hseen⟩
  | notFound detail =>
    obtain ⟨hnot, seen, hs, h⟩ := h
    exact ⟨notMem_concat hnot hx, seen, hs.trans hlog, h⟩
  | conflict detail =>
    obtain ⟨hnot, seen, hs, h⟩ := h
    exact ⟨notMem_concat hnot hx, seen, hs.trans hlog, h⟩
  | serverError => exact Failed.concat h hx

omit [DecidableEq ι] in
theorem Honest.concat {x : ι × Effect} {stage : Stage} (h : Honest t log i req stage)
    (hx : x.1 ≠ i) : Honest t (log ++ [x]) i req stage := by
  have hlog : log <+: log ++ [x] := List.prefix_append log [x]
  cases stage with
  | arrived r => exact ⟨h.1, notMem_concat h.2 hx⟩
  | creating payload =>
    obtain ⟨hreq, hnot, seen, hs, h⟩ := h
    exact ⟨hreq, notMem_concat hnot hx, seen, hs.trans hlog, h⟩
  | patching loaded payload =>
    obtain ⟨hreq, hnot, seen, hs, h⟩ := h
    exact ⟨hreq, notMem_concat hnot hx, seen, hs.trans hlog, h⟩
  | deleting id =>
    obtain ⟨hreq, hnot, seen, hs, h⟩ := h
    exact ⟨hreq, notMem_concat hnot hx, seen, hs.trans hlog, h⟩
  | inserted id => exact Inserted.concat h x
  | updated id => exact Updated.concat h x
  | answered r => exact Answered.concat h hx

end Concat

/-! ### What a statement makes true of its request -/

theorem createBudget_of_some {payload : BudgetCreate} {b : Budget}
    (h : t.existing payload.team payload.period = some b) :
    createBudget t payload = (t, conflict payload) := by
  unfold createBudget
  split
  · rfl
  · rename_i hnone
    rw [h] at hnone
    cases hnone

theorem flush_eq_none {id : ℤ} {changes : BudgetUpdate} (h : flushUpdate t id changes = none) :
    t.get id = none ∨ Refused changes := by
  unfold flushUpdate at h
  split at h
  · cases h
  · cases hget : t.get id with
    | none => exact .inl rfl
    | some row =>
      rw [hget] at h
      rcases patched_cases row changes with ⟨href, _⟩ | ⟨_, isActive, hv⟩
      · exact .inr href
      · dsimp only at h
        rw [hv] at h
        cases h

theorem refused_of_narrow {loaded : Budget} {payload : BudgetUpdate}
    (h : Refused (payload.narrow loaded)) : Refused payload := by
  rcases h with h | h | ⟨v, h, hv⟩
  · exact .inl (Field.narrow_eq_null h)
  · exact .inr (.inl (Field.narrow_eq_null h))
  · exact .inr (.inr ⟨v, Field.narrow_eq_value h, hv⟩)

section Own

variable {log : List (ι × Effect)} {i : ι} {req : BudgetRequest} {old new : Stage}

omit [DecidableEq ι] in
theorem honest_readStage (hnot : i ∉ log.map Prod.fst) :
    Honest t log i req (readStage (replay t log) req) := by
  have hseen : log <+: log := List.prefix_rfl
  cases req with
  | create payload =>
    cases h : (replay t log).existing payload.team payload.period with
    | none =>
      simp only [readStage, h]
      exact ⟨rfl, hnot, log, hseen, h⟩
    | some b =>
      simp only [readStage, h]
      exact ⟨hnot, log, hseen, createBudget_of_some h⟩
  | patch id payload =>
    cases h : (replay t log).get id with
    | none =>
      simp only [readStage, h]
      exact ⟨hnot, log, hseen, by simp only [handle, updateBudget, h, notFound]⟩
    | some loaded =>
      simp only [readStage, h]
      obtain rfl := (mem_of_get h).2
      exact ⟨rfl, hnot, log, hseen, h⟩
  | delete id =>
    cases h : (replay t log).get id with
    | none =>
      simp only [readStage, h]
      exact ⟨hnot, log, hseen, by simp only [handle, deleteBudget, h, notFound]⟩
    | some loaded =>
      simp only [readStage, h]
      exact ⟨rfl, hnot, log, hseen, by rw [h]; exact Option.some_ne_none _⟩

omit [DecidableEq ι] in
theorem Honest.enters (h : Honest t log i req old) (he : Enters (replay t log) old new) :
    Honest t log i req new := by
  cases he with
  | read r =>
    obtain ⟨rfl, hnot⟩ := h
    exact honest_readStage hnot
  | overflows hover =>
    obtain ⟨rfl, hnot, _⟩ := h
    exact .inl ⟨_, rfl, fun r hr => hnot (List.mem_map_of_mem hr), .inl hover⟩
  | raises hraises =>
    obtain ⟨rfl, hnot, seen, hs, hloaded⟩ := h
    refine .inr (.inl ⟨_, _, rfl, hnot, ?_⟩)
    rcases flush_eq_none hraises with hnone | hrefused
    · obtain ⟨mid, rfl⟩ := hs
      exact .inr ⟨seen, mid, List.prefix_rfl, by rw [hloaded]; exact Option.some_ne_none _, hnone⟩
    · exact .inl (refused_of_narrow hrefused)
  | inserted id =>
    rw [shown_eq]
    cases hm : readModel (replay t log) id with
    | none => exact .inr (.inr ⟨log, id, List.prefix_rfl, .inl h, hm⟩)
    | some m =>
      obtain rfl := id_of_readModel hm
      exact ⟨log, List.prefix_rfl, h, hm⟩
  | updated id =>
    rw [shown_eq]
    cases hm : readModel (replay t log) id with
    | none => exact .inr (.inr ⟨log, id, List.prefix_rfl, .inr h, hm⟩)
    | some m =>
      obtain rfl := id_of_readModel hm
      exact ⟨log, List.prefix_rfl, h, hm⟩

omit [DecidableEq ι] in
theorem Honest.commits {effect : Effect} {t' : BudgetTable} (h : Honest t log i req old)
    (hc : Commits (replay t log) old new effect t') :
    i ∉ log.map Prod.fst ∧ Honest t (log ++ [(i, effect)]) i req new := by
  cases hc with
  | insert hlimit hnone =>
    obtain ⟨rfl, hnot, _⟩ := h
    refine ⟨hnot, _, log, [], rfl, rfl, hnone, fun hover => ?_, rfl⟩
    rcases moneyColumn_cases _ with ⟨_, hv⟩ | ⟨hno, _⟩
    · rw [hv] at hlimit
      cases hlimit
    · exact hno hover
  | taken hsome =>
    obtain ⟨rfl, hnot, seen, ⟨mid, rfl⟩, hnone⟩ := h
    refine ⟨hnot, .inl ⟨_, rfl, fun r hr => ?_, .inr ⟨seen, mid, ?_, hnone, hsome⟩⟩⟩
    · rcases List.mem_append.mp hr with hr | hr
      · exact hnot (List.mem_map_of_mem hr)
      · cases List.mem_singleton.mp hr
    · exact List.prefix_append _ _
  | update hflush =>
    obtain ⟨rfl, hnot, seen, ⟨mid, rfl⟩, hloaded⟩ := h
    exact ⟨hnot, _, _, seen, mid, [], rfl, rfl, hloaded⟩
  | delete id =>
    obtain ⟨rfl, hnot, seen, ⟨mid, rfl⟩, hloaded⟩ := h
    exact ⟨hnot, id, seen, mid, [], rfl, rfl, hloaded⟩

end Own

/-! ### Every run -/

theorem Accounted.serve {t : BudgetTable} {reqs : ι → BudgetRequest} {s : Server ι}
    (h : Accounted t reqs s) (e : Statement ι) : Accounted t reqs (serve s e) := by
  rcases serve_cases s e with hs | ⟨i, old, new, _, hi, he, hs⟩ |
    ⟨i, old, new, effect, t', _, hi, hc, hs⟩
  · rw [hs]
    exact h
  · rw [hs]
    refine ⟨h.table, h.once, fun j => ?_⟩
    change Honest t s.log j (reqs j) (Function.update s.stage i new j)
    have hj := h.honest j
    by_cases hij : j = i
    · subst hij
      rw [Function.update_self]
      rw [hi] at hj
      rw [h.table] at he
      exact hj.enters he
    · rw [Function.update_of_ne hij]
      exact hj
  · rw [hs]
    rw [h.table] at hc
    have hown := h.honest i
    rw [hi] at hown
    obtain ⟨hnot, hnew⟩ := hown.commits hc
    refine ⟨?_, ?_, fun j => ?_⟩
    · change t' = replay t (s.log ++ [(i, effect)])
      rw [replay_concat, effectStep_of_commits hc]
    · change ((s.log ++ [(i, effect)]).map Prod.fst).Nodup
      rw [List.map_append, List.nodup_append]
      refine ⟨h.once, List.nodup_singleton i, ?_⟩
      rintro a ha b hb rfl
      rw [List.mem_singleton.mp hb] at ha
      exact hnot ha
    · change Honest t (s.log ++ [(i, effect)]) j (reqs j) (Function.update s.stage i new j)
      by_cases hij : j = i
      · subst hij
        rw [Function.update_self]
        exact hnew
      · rw [Function.update_of_ne hij]
        exact (h.honest j).concat (Ne.symm hij)

omit [DecidableEq ι] in
theorem accounted_start (t : BudgetTable) (reqs : ι → BudgetRequest) :
    Accounted t reqs (.start t reqs) :=
  ⟨rfl, List.nodup_nil, fun _ => ⟨rfl, List.not_mem_nil⟩⟩

/-- **Every request is accounted for.**  However the statements of the requests are
interleaved, the table is what the logged requests leave when they are handled one after
the other, no request has more than one commit, and every answer means what it says. -/
theorem requests_accounted (t : BudgetTable) (reqs : ι → BudgetRequest)
    (statements : List (Statement ι)) :
    let s := after serve (Server.start t reqs) statements
    s.table = replay t s.log ∧ (s.log.map Prod.fst).Nodup ∧
      ∀ i r, s.stage i = .answered r → Answered t s.log i (reqs i) r := by
  have h : Accounted t reqs (after serve (Server.start t reqs) statements) :=
    invariant (fun s e hs => hs.serve e) (accounted_start t reqs)
  refine ⟨h.table, h.once, fun i r hr => ?_⟩
  have hi := h.honest i
  rw [hr] at hi
  exact hi

end Finops.Api
