import Finops.Base.Batch
import Finops.Api.Interleaved

/-!
# What becomes of a budget

An id is given out once, and a budget keeps its team and period from the insert to the
delete (`ownerOf_replay`).  So of two requests that are both told that they have created a
budget of one team and period, the later one found the budget of the other deleted
(`created_apart`).

An update writes the columns in which it differs from what it loaded, over the row as it
is by then.  So the values of a budget are those of the committed updates one over the
other, and a column that an update was not to change is what the others made of it
(`no_update_lost`).

A request that nothing interrupts is answered as `handle` answers it
(`alone_eq_handle`): the columns that it leaves out hold what it would have written.
-/

namespace Finops.Api

open Numerics Runs

variable {t : BudgetTable} {id : ℤ}

/-! ### The row of an id -/

theorem get_nextId (t : BudgetTable) : t.get t.nextId = none :=
  get_eq_none.mpr fun b hb => (t.ids_lt b hb).ne

theorem get_insert {payload : BudgetCreate} (limitUsd : ℚ)
    (h : t.existing payload.team payload.period = none) :
    (t.insert payload limitUsd h).get id =
      if id = t.nextId then some (t.newRow payload limitUsd) else t.get id := by
  have happend : (t.insert payload limitUsd h).get id =
      (t.get id).or ([t.newRow payload limitUsd].find? fun b => b.id = id) := List.find?_append ..
  rw [happend, List.find?_singleton]
  by_cases hid : id = t.nextId
  · have heq : decide ((t.newRow payload limitUsd).id = id) = true := decide_eq_true hid.symm
    rw [if_pos hid, if_pos heq, hid, get_nextId, Option.none_or]
  · have hne : ¬ decide ((t.newRow payload limitUsd).id = id) = true := fun he =>
      hid (of_decide_eq_true he).symm
    rw [if_neg hid, if_neg hne, Option.or_none]

theorem get_update (other : ℤ) (values : BudgetValues) :
    (t.update other values).get id = (t.get id).map (BudgetTable.write other values) := by
  change (t.rows.map (BudgetTable.write other values)).find? (fun b => b.id = id) = _
  rw [List.find?_map]
  congr 2
  funext b
  exact congrArg (fun k : ℤ => decide (k = id)) (BudgetTable.id_write other values b)

theorem get_delete (other : ℤ) :
    (t.delete other).get id = if id = other then none else t.get id := by
  change (t.rows.filter fun b => b.id ≠ other).find? (fun b => b.id = id) = _
  rw [List.find?_filter]
  split
  · rename_i hid
    rw [List.find?_eq_none]
    intro b _
    rw [hid]
    simp
  · rename_i hid
    unfold BudgetTable.get
    congr 1
    funext b
    simp only [decide_eq_true_eq, decide_eq_decide, and_iff_right_iff_imp]
    exact fun he hb => hid (he.symm.trans hb)

/-- **What a request can do to the table.** -/
theorem storeStep_cases (t : BudgetTable) (req : BudgetRequest) :
    storeStep t req = t ∨
    (∃ payload limitUsd h, req = .create payload ∧
      moneyColumn payload.limitUsd = .ok limitUsd ∧
      storeStep t req = t.insert payload limitUsd h) ∨
    (∃ id payload row values, req = .patch id payload ∧ t.get id = some row ∧
      patched row payload = .ok values ∧ storeStep t req = t.update id values) ∨
    (∃ id, req = .delete id ∧ storeStep t req = t.delete id) := by
  cases req with
  | create payload =>
    cases h : t.existing payload.team payload.period with
    | some b =>
      exact .inl (congrArg Prod.fst (createBudget_of_some h))
    | none =>
      have hcreate : storeStep t (.create payload) = _ := congrArg Prod.fst (createBudget_of_none h)
      cases hv : moneyColumn payload.limitUsd with
      | error e =>
        rw [hv] at hcreate
        exact .inl hcreate
      | ok limitUsd =>
        rw [hv] at hcreate
        exact .inr (.inl ⟨payload, limitUsd, h, rfl, hv, hcreate⟩)
  | patch id payload =>
    have hupdate : storeStep t (.patch id payload) = (updateBudget t id payload).1 := rfl
    rw [updateBudget] at hupdate
    cases hget : t.get id with
    | none =>
      rw [hget] at hupdate
      exact .inl hupdate
    | some row =>
      rw [hget] at hupdate
      cases hv : patched row payload with
      | error e =>
        simp only [hv] at hupdate
        exact .inl hupdate
      | ok values =>
        simp only [hv] at hupdate
        exact .inr (.inr (.inl ⟨id, payload, row, values, rfl, hget, hv, hupdate⟩))
  | delete id => exact .inr (.inr (.inr ⟨id, rfl, effectStep_of_commits (Commits.delete id)⟩))

/-! ### The team and period of an id -/

def ownerOf (t : BudgetTable) (id : ℤ) : Option (String × BudgetPeriod) :=
  (t.get id).map fun b => (b.team, b.period)

theorem existing_ne_none {team : String} {period : BudgetPeriod}
    (h : ownerOf t id = some (team, period)) : t.existing team period ≠ none := by
  obtain ⟨b, hb, hown⟩ := Option.map_eq_some_iff.mp h
  intro hnone
  refine BudgetTable.existing_eq_none.mp hnone ?_
  rw [← hown]
  exact List.mem_map_of_mem (mem_of_get hb).1

theorem ownerOf_delete : ownerOf (storeStep t (.delete id)) id = none := by
  have hdelete : storeStep t (.delete id) = t.delete id :=
    effectStep_of_commits (Commits.delete id)
  rw [ownerOf, hdelete, get_delete, if_pos rfl]
  rfl

theorem ownerOf_insert {payload : BudgetCreate} (h : t.existing payload.team payload.period = none)
    (hover : ¬ Overflows payload.limitUsd) :
    ownerOf (storeStep t (.create payload)) t.nextId = some (payload.team, payload.period) ∧
      (storeStep t (.create payload)).nextId = t.nextId + 1 := by
  have hcreate : storeStep t (.create payload) = _ := congrArg Prod.fst (createBudget_of_none h)
  rcases moneyColumn_cases payload.limitUsd with ⟨hno, _⟩ | ⟨_, hv⟩
  · exact absurd hno hover
  · rw [hv] at hcreate
    rw [hcreate]
    refine ⟨?_, rfl⟩
    rw [ownerOf, get_insert, if_pos rfl]
    rfl

theorem nextId_le_effectStep (t : BudgetTable) (effect : Effect) :
    t.nextId ≤ (effectStep t effect).nextId := by
  cases effect with
  | idTaken => exact (lt_add_one t.nextId).le
  | request req =>
    change t.nextId ≤ (storeStep t req).nextId
    rcases storeStep_cases t req with h | ⟨_, _, _, _, _, h⟩ | ⟨_, _, _, _, _, _, _, h⟩ |
      ⟨_, _, h⟩
    · rw [h]
    · rw [h]
      exact (lt_add_one t.nextId).le
    · rw [h]
      exact le_rfl
    · rw [h]
      exact le_rfl

theorem ownerOf_effectStep {effect : Effect} (hid : id < t.nextId)
    (h : effect ≠ .request (.delete id)) : ownerOf (effectStep t effect) id = ownerOf t id := by
  cases effect with
  | idTaken => rfl
  | request req =>
    change ownerOf (storeStep t req) id = ownerOf t id
    rcases storeStep_cases t req with hs | ⟨_, _, hnone, _, _, hs⟩ |
      ⟨other, _, _, values, _, _, _, hs⟩ | ⟨other, rfl, hs⟩
    · rw [hs]
    · rw [hs, ownerOf, get_insert, if_neg hid.ne]
      rfl
    · rw [hs, ownerOf, get_update, Option.map_map]
      exact congrArg (fun f => (t.get id).map f)
        (funext fun b => BudgetTable.owner_write other values b)
    · have hne : id ≠ other := fun he => h (by rw [he])
      rw [hs, ownerOf, get_delete, if_neg hne]
      rfl

section Owners

variable {ι : Type*} {log : List (ι × Effect)}

theorem replay_cons (t : BudgetTable) (x : ι × Effect) (log : List (ι × Effect)) :
    replay t (x :: log) = replay (effectStep t x.2) log := rfl

theorem replay_append (t : BudgetTable) (log log' : List (ι × Effect)) :
    replay t (log ++ log') = replay (replay t log) log' := by
  rw [replay, List.map_append, after_append]
  rfl

/-- **A budget keeps its team and period** until it is deleted. -/
theorem ownerOf_replay : ∀ {t : BudgetTable}, id < t.nextId →
    (∀ k, (k, Effect.request (.delete id)) ∉ log) → ownerOf (replay t log) id = ownerOf t id := by
  induction log with
  | nil => intro t _ _; rfl
  | cons x log ih =>
    intro t hid h
    have hx : x.2 ≠ .request (.delete id) := fun he =>
      h x.1 (List.mem_cons.mpr (.inl (Prod.ext rfl he.symm)))
    rw [replay_cons, ih (hid.trans_le (nextId_le_effectStep t x.2))
      fun k hk => h k (List.mem_cons_of_mem x hk), ownerOf_effectStep hid hx]

theorem ownerOf_replay_of_none : ∀ {t : BudgetTable}, id < t.nextId → ownerOf t id = none →
    ownerOf (replay t log) id = none := by
  induction log with
  | nil => intro t _ h; exact h
  | cons x log ih =>
    intro t hid h
    rw [replay_cons]
    refine ih (hid.trans_le (nextId_le_effectStep t x.2)) ?_
    by_cases hx : x.2 = .request (.delete id)
    · rw [hx]
      exact ownerOf_delete
    · rw [ownerOf_effectStep hid hx, h]

theorem ownerOf_eq_of_some {owner : String × BudgetPeriod} (hid : id < t.nextId)
    (h : ownerOf (replay t log) id = some owner) : ownerOf t id = some owner := by
  by_cases hdel : ∃ k, (k, Effect.request (.delete id)) ∈ log
  · obtain ⟨k, hk⟩ := hdel
    obtain ⟨pre, post, rfl⟩ := List.append_of_mem hk
    rw [replay_append, replay_cons] at h
    have hle : t.nextId ≤ (replay t pre).nextId := by
      exact le_after (d := BudgetTable.nextId) (G := fun _ => True)
        (fun s e _ => nextId_le_effectStep s e) fun _ _ => trivial
    have hle' := nextId_le_effectStep (replay t pre) (.request (.delete id))
    have hnone : ownerOf (replay (effectStep (replay t pre) (.request (.delete id))) post) id =
        none := ownerOf_replay_of_none (by omega) ownerOf_delete
    rw [hnone] at h
    cases h
  · rw [ownerOf_replay hid fun k hk => hdel ⟨k, hk⟩] at h
    exact h

end Owners

/-! ### Where a commit comes from -/

section Origins

variable {ι : Type*} [DecidableEq ι]

/-- The request behind a logged effect. -/
def Origin (t : BudgetTable) (reqs : ι → BudgetRequest) (s : Server ι) (k : ι) : Effect → Prop
  | .request (.create payload) => reqs k = .create payload
  | .request (.patch id changes) => ¬ Refused changes ∧ ∃ loaded payload seen,
      reqs k = .patch id payload ∧ changes = payload.narrow loaded ∧ seen <+: s.log ∧
        (replay t seen).get id = some loaded
  | .request (.delete id) => reqs k = .delete id ∧ s.stage k = .answered .noContent
  | .idTaken => ∃ payload, reqs k = .create payload

theorem not_refused_of_flush {changes : BudgetUpdate} {t' : BudgetTable}
    (h : flushUpdate t id changes = some t') : ¬ Refused changes := by
  unfold flushUpdate at h
  split at h
  · rename_i hempty
    unfold BudgetUpdate.isEmpty at hempty
    split at hempty
    · rintro (h | h | ⟨v, h, _⟩) <;> cases h
    · cases hempty
  · cases hget : t.get id with
    | none =>
      rw [hget] at h
      cases h
    | some row =>
      rw [hget] at h
      rcases patched_cases row changes with ⟨_, e, he⟩ | ⟨href, _⟩
      · dsimp only at h
        rw [he] at h
        cases h
      · exact href

/-- Every logged effect has its request, at the stage it is at by then. -/
def Originates (t : BudgetTable) (reqs : ι → BudgetRequest) (s : Server ι) : Prop :=
  ∀ x ∈ s.log, Origin t reqs s x.1 x.2

omit [DecidableEq ι] in
theorem Origin.mono {reqs : ι → BudgetRequest} {s s' : Server ι} {k : ι} {effect : Effect}
    (hlog : s.log <+: s'.log) (hstage : s'.stage k = s.stage k)
    (h : Origin t reqs s k effect) : Origin t reqs s' k effect := by
  cases effect with
  | idTaken => exact h
  | request req =>
    cases req with
    | create payload => exact h
    | patch id changes =>
      obtain ⟨href, loaded, payload, seen, hreq, hchanges, hseen, hget⟩ := h
      exact ⟨href, loaded, payload, seen, hreq, hchanges, hseen.trans hlog, hget⟩
    | delete id => exact ⟨h.1, hstage.trans h.2⟩

theorem Originates.serve {reqs : ι → BudgetRequest} {s : Server ι} (ha : Accounted t reqs s)
    (h : Originates t reqs s) (e : Statement ι) : Originates t reqs (serve s e) := by
  rcases serve_cases s e with hs | ⟨i, old, new, _, hi, he, hs⟩ |
    ⟨i, old, new, effect, t', _, hi, hc, hs⟩
  · rw [hs]
    exact h
  · rw [hs]
    intro x hx
    have horigin := h x hx
    by_cases hxi : x.1 = i
    · -- a delete is answered at its commit and has no further statement
      subst hxi
      obtain ⟨k, effect⟩ := x
      cases effect with
      | idTaken => exact horigin
      | request req =>
        cases req with
        | delete id =>
          rw [horigin.2] at hi
          subst hi
          cases he
        | create payload => exact horigin
        | patch id changes => exact horigin
    · exact Origin.mono (s := s) List.prefix_rfl (Function.update_of_ne hxi ..) horigin
  · rw [hs]
    have hown := ha.honest i
    rw [hi] at hown
    have hnot : i ∉ s.log.map Prod.fst := (hown.commits (ha.table ▸ hc)).1
    have hlog : s.log <+: s.log ++ [(i, effect)] := List.prefix_append ..
    intro x hx
    rcases List.mem_append.mp hx with hx | hx
    · have hxi : x.1 ≠ i := fun he => hnot (he ▸ List.mem_map_of_mem hx)
      exact (h x hx).mono hlog (Function.update_of_ne hxi ..)
    · rw [List.mem_singleton.mp hx]
      cases hc with
      | insert hlimit hnone => exact hown.1
      | taken hsome => exact ⟨_, hown.1⟩
      | update hflush =>
        obtain ⟨hreq, _, seen, hseen, hloaded⟩ := hown
        exact ⟨not_refused_of_flush hflush, _, _, seen, hreq, rfl, hseen.trans hlog, hloaded⟩
      | delete id => exact ⟨hown.1, Function.update_self ..⟩

theorem originates_after (t : BudgetTable) (reqs : ι → BudgetRequest)
    (statements : List (Statement ι)) :
    Accounted t reqs (after serve (Server.start t reqs) statements) ∧
      Originates t reqs (after serve (Server.start t reqs) statements) :=
  invariant (I := fun s => Accounted t reqs s ∧ Originates t reqs s)
    (fun _ e h => ⟨h.1.serve e, h.2.serve h.1 e⟩)
    ⟨accounted_start t reqs, fun _ hx => absurd hx List.not_mem_nil⟩

end Origins

/-! ### Created twice -/

section Created

variable {ι : Type*} {log : List (ι × Effect)}

def Stage.created? : Stage → Option BudgetModel
  | .answered (.created m) => some m
  | _ => none

theorem Stage.eq_of_created? {stage : Stage} {m : BudgetModel} (h : stage.created? = some m) :
    stage = .answered (.created m) := by
  cases stage with
  | answered r =>
    cases r with
    | created m' =>
      obtain rfl := Option.some.inj h
      rfl
    | _ => cases h
  | _ => cases h

theorem ownerOf_created {i : ι} {req : BudgetRequest} {m : BudgetModel}
    (h : Answered t log i req (.created m)) : ∃ pre effect post,
      log = pre ++ (i, effect) :: post ∧
      (replay t pre).existing m.team m.period = none ∧
      m.id < (replay t (pre ++ [(i, effect)])).nextId ∧
      ownerOf (replay t (pre ++ [(i, effect)])) m.id = some (m.team, m.period) := by
  obtain ⟨seen, ⟨rest, rfl⟩, ⟨payload, pre, post, rfl, rfl, hnone, hover, hid⟩, hm⟩ := h
  obtain ⟨howner, hnext⟩ := ownerOf_insert hnone hover
  rw [hid] at howner hnext
  have hnow : ownerOf (replay t (pre ++ (i, .request (.create payload)) :: post)) m.id =
      some (m.team, m.period) := by
    obtain ⟨b, hb, hmodel⟩ := Option.bind_eq_some_iff.mp hm
    obtain ⟨thresholds, _, rfl⟩ := Option.map_eq_some_iff.mp hmodel
    rw [ownerOf, hb]
    rfl
  have hlt : m.id < (replay t (pre ++ [(i, .request (.create payload))])).nextId := by
    rw [replay_concat]
    change m.id < (storeStep (replay t pre) (.create payload)).nextId
    rw [hnext]
    exact lt_add_one m.id
  have hthen : ownerOf (replay t (pre ++ [(i, .request (.create payload))])) m.id =
      some (m.team, m.period) := by
    refine @ownerOf_eq_of_some _ _ _ post _ hlt ?_
    rw [← replay_append, List.append_assoc]
    exact hnow
  rw [replay_concat] at hthen
  change ownerOf (storeStep (replay t pre) (.create payload)) m.id = _ at hthen
  have hkey := Option.some.inj (howner.symm.trans hthen)
  obtain ⟨hteam, hperiod⟩ := Prod.mk.inj hkey
  rw [hteam, hperiod] at hnone
  refine ⟨pre, _, post ++ rest, by simp, hnone, hlt, ?_⟩
  rw [replay_concat]
  exact hthen

theorem exists_delete {mid : List (ι × Effect)} {team : String} {period : BudgetPeriod}
    (hid : id < (replay t log).nextId) (howner : ownerOf (replay t log) id = some (team, period))
    (hnone : (replay t (log ++ mid)).existing team period = none) :
    ∃ k, (k, Effect.request (.delete id)) ∈ mid := by
  by_contra hno
  rw [not_exists] at hno
  refine @existing_ne_none _ id _ _ ?_ hnone
  rw [replay_append, ownerOf_replay hid hno, howner]

variable [DecidableEq ι]

/-- **Created twice.**  Two requests are both told that they have created a budget of one
team and period only if one of the two budgets has been deleted. -/
theorem created_apart (t : BudgetTable) (reqs : ι → BudgetRequest)
    (statements : List (Statement ι)) {i j : ι} {m n : BudgetModel} (hne : i ≠ j)
    (hi : ((after serve (Server.start t reqs) statements).stage i).created? = some m)
    (hj : ((after serve (Server.start t reqs) statements).stage j).created? = some n)
    (howner : (m.team, m.period) = (n.team, n.period)) :
    ∃ k, (after serve (Server.start t reqs) statements).stage k = .answered .noContent ∧
      (reqs k = .delete m.id ∨ reqs k = .delete n.id) := by
  obtain ⟨ha, ho⟩ := originates_after t reqs statements
  have hi' := ha.honest i
  have hj' := ha.honest j
  rw [Stage.eq_of_created? hi] at hi'
  rw [Stage.eq_of_created? hj] at hj'
  obtain ⟨pre, e, post, hlog, hnone, hlt, hown⟩ := ownerOf_created hi'
  obtain ⟨pre', e', post', hlog', hnone', hlt', hown'⟩ := ownerOf_created hj'
  obtain ⟨hteam, hperiod⟩ := Prod.mk.inj howner
  have hfound : ∀ {k id}, (k, Effect.request (.delete id)) ∈
      (after serve (Server.start t reqs) statements).log → reqs k = .delete id ∧
        (after serve (Server.start t reqs) statements).stage k = .answered .noContent :=
    fun hk => ho _ hk
  rcases List.append_eq_append_iff.mp (hlog.symm.trans hlog') with ⟨s, rfl, hs⟩ | ⟨s, rfl, hs⟩
  · cases s with
    | nil => exact absurd (congrArg Prod.fst (List.cons.inj hs).1) hne
    | cons x mid =>
      obtain ⟨rfl, rfl⟩ := List.cons.inj hs
      rw [List.append_cons, ← hteam, ← hperiod] at hnone'
      obtain ⟨k, hk⟩ := exists_delete hlt hown hnone'
      obtain ⟨hreq, hstage⟩ := @hfound k m.id (by rw [hlog]; simp [hk])
      exact ⟨k, hstage, .inl hreq⟩
  · cases s with
    | nil => exact absurd (congrArg Prod.fst (List.cons.inj hs).1).symm hne
    | cons x mid =>
      obtain ⟨rfl, rfl⟩ := List.cons.inj hs
      rw [List.append_cons, hteam, hperiod] at hnone
      obtain ⟨k, hk⟩ := exists_delete hlt' hown' hnone
      obtain ⟨hreq, hstage⟩ := @hfound k n.id (by rw [hlog']; simp [hk])
      exact ⟨k, hstage, .inr hreq⟩

end Created

/-! A budget is created, deleted and created again. -/

def again : ℕ → BudgetRequest
  | 1 => .delete 1
  | _ => .create research

def createdAgain : List (Statement ℕ) :=
  [.read 0, .write 0, .readBack 0, .read 1, .write 1, .read 2, .write 2, .readBack 2]

theorem created_apart_again :
    ∃ m n k, ((after serve (Server.start BudgetTable.empty again) createdAgain).stage
        0).created? = some m ∧
      ((after serve (Server.start BudgetTable.empty again) createdAgain).stage 2).created? =
        some n ∧ (again k = .delete m.id ∨ again k = .delete n.id) := by
  have hfirst : ((after serve (Server.start BudgetTable.empty again) createdAgain).stage
      0).created?.map (fun m => (m.team, m.period)) = some ("research", .monthly) := by
    decide +kernel
  have hsecond : ((after serve (Server.start BudgetTable.empty again) createdAgain).stage
      2).created?.map (fun m => (m.team, m.period)) = some ("research", .monthly) := by
    decide +kernel
  obtain ⟨m, hm, hown⟩ := Option.map_eq_some_iff.mp hfirst
  obtain ⟨n, hn, hown'⟩ := Option.map_eq_some_iff.mp hsecond
  obtain ⟨k, _, hk⟩ := created_apart BudgetTable.empty again createdAgain (by decide) hm hn
    (hown.trans hown'.symm)
  exact ⟨m, n, k, hm, hn, hk⟩

/-! ### The values of a budget -/

def valuesOf (b : Budget) : BudgetValues := ⟨b.limitUsd, b.alertThresholds, b.isActive⟩

def patchedActive (old : Bool) : Field Bool → Bool
  | .value v => v
  | _ => old

def BudgetValues.overlay (values : BudgetValues) (changes : BudgetUpdate) : BudgetValues where
  limitUsd := patchedLimit values.limitUsd changes.limitUsd
  alertThresholds := jsonColumn values.alertThresholds changes.alertThresholds
  isActive := patchedActive values.isActive changes.isActive

theorem patched_of_not_refused {changes : BudgetUpdate} (h : ¬ Refused changes) (b : Budget) :
    patched b changes = .ok ((valuesOf b).overlay changes) := by
  have hactive : required .ok b.isActive changes.isActive =
      .ok (patchedActive b.isActive changes.isActive) := by
    cases ha : changes.isActive with
    | omitted => rfl
    | null => exact absurd (.inr (.inl ha)) h
    | value v => rfl
  rcases patched_cases b changes with ⟨hrefused, _⟩ | ⟨_, isActive, hp⟩
  · exact absurd hrefused h
  · rw [hp]
    unfold patched at hp
    rw [hactive] at hp
    obtain ⟨limitUsd, _, hp⟩ := Batch.bind_eq_ok.mp hp
    obtain ⟨_, hflag, hp⟩ := Batch.bind_eq_ok.mp hp
    obtain rfl := Except.ok.inj hflag
    have hvalues := congrArg BudgetValues.isActive (Except.ok.inj hp)
    dsimp only at hvalues
    rw [← hvalues]
    rfl

section Values

variable {ι : Type*} {log : List (ι × Effect)}

def sent? (id : ℤ) : Effect → Option BudgetUpdate
  | .request (.patch other changes) => if other = id then some changes else none
  | _ => none

def sentTo (id : ℤ) (log : List (ι × Effect)) : List BudgetUpdate :=
  log.filterMap fun x => sent? id x.2

/-- One effect on a budget: it is deleted, or its values are those of the update if there
is one. -/
theorem get_effectStep {effect : Effect} {b : Budget} (hid : id < t.nextId)
    (hget : t.get id = some b) (href : ∀ changes ∈ sent? id effect, ¬ Refused changes) :
    (effectStep t effect).get id = none ∨ ∃ b', (effectStep t effect).get id = some b' ∧
      valuesOf b' = (sent? id effect).toList.foldl BudgetValues.overlay (valuesOf b) := by
  cases effect with
  | idTaken => exact .inr ⟨b, hget, rfl⟩
  | request req =>
    change (storeStep t req).get id = none ∨ ∃ b', (storeStep t req).get id = some b' ∧ _
    cases req with
    | create payload =>
      rcases storeStep_cases t (.create payload) with hs | ⟨_, _, _, _, _, hs⟩ |
        ⟨_, _, _, _, h, _⟩ | ⟨_, h, _⟩
      · exact .inr ⟨b, by rw [hs, hget], rfl⟩
      · exact .inr ⟨b, by rw [hs, get_insert, if_neg hid.ne, hget], rfl⟩
      · cases h
      · cases h
    | delete other =>
      have hdelete : storeStep t (.delete other) = t.delete other :=
        effectStep_of_commits (Commits.delete other)
      rw [hdelete, get_delete]
      split
      · exact .inl rfl
      · exact .inr ⟨b, hget, rfl⟩
    | patch other changes =>
      by_cases hne : other = id
      · subst hne
        have hsent : sent? other (.request (.patch other changes)) = some changes := if_pos rfl
        rw [hsent] at href ⊢
        have hp := patched_of_not_refused (href changes rfl) b
        have hupdate : storeStep t (.patch other changes) =
            t.update other ((valuesOf b).overlay changes) := by
          change (updateBudget t other changes).1 = _
          rw [updateBudget, hget]
          simp only [hp]
        refine .inr ⟨_, by rw [hupdate, get_update, hget, Option.map_some], ?_⟩
        rw [BudgetTable.write, if_pos (mem_of_get hget).2]
        rfl
      · have hsent : sent? id (.request (.patch other changes)) = none := if_neg hne
        rw [hsent]
        rcases storeStep_cases t (.patch other changes) with hs | ⟨_, _, _, h, _⟩ |
          ⟨k, _, _, values, h, _, _, hs⟩ | ⟨_, h, _⟩
        · exact .inr ⟨b, by rw [hs, hget], rfl⟩
        · cases h
        · cases h
          refine .inr ⟨b, ?_, rfl⟩
          have hb : b.id ≠ other := fun he => hne (he.symm.trans (mem_of_get hget).2)
          rw [hs, get_update, hget, Option.map_some, BudgetTable.write, if_neg hb]
        · cases h

/-- **The values of a budget** are those of the updates one over the other. -/
theorem valuesOf_replay : ∀ {t : BudgetTable} {b b' : Budget}, id < t.nextId →
    (∀ changes ∈ sentTo id log, ¬ Refused changes) → t.get id = some b →
      (replay t log).get id = some b' →
        valuesOf b' = (sentTo id log).foldl BudgetValues.overlay (valuesOf b) := by
  induction log with
  | nil =>
    intro t b b' _ _ hb hb'
    rw [Option.some.inj (hb'.symm.trans hb)]
    rfl
  | cons x log ih =>
    intro t b b' hid href hb hb'
    have hsent : sentTo id (x :: log) = (sent? id x.2).toList ++ sentTo id log := by
      rw [sentTo, List.filterMap_cons]
      cases sent? id x.2 <;> rfl
    rw [hsent] at href ⊢
    have hlt := hid.trans_le (nextId_le_effectStep t x.2)
    rw [replay_cons] at hb'
    rcases get_effectStep hid hb fun changes hc =>
        href changes (List.mem_append_left _ (Option.mem_toList.mpr hc)) with hnone | ⟨b₁, hb₁, hv⟩
    · have hgone : ownerOf (replay (effectStep t x.2) log) id = none :=
        ownerOf_replay_of_none hlt (by rw [ownerOf, hnone]; rfl)
      rw [ownerOf, hb'] at hgone
      cases hgone
    · rw [ih hlt (fun changes hc => href changes (List.mem_append_right _ hc)) hb₁ hb', hv,
        List.foldl_append]

variable [DecidableEq ι]

/-- **No update is lost.**  A logged update is what its request was to change in the budget
as it loaded it.  From any moment to the end of a run, the values of a budget become those
of the updates that are committed to it, one over the other. -/
theorem no_update_lost (t : BudgetTable) (reqs : ι → BudgetRequest)
    (statements : List (Statement ι)) :
    let s := after serve (Server.start t reqs) statements
    (∀ i id changes, (i, Effect.request (.patch id changes)) ∈ s.log →
      ∃ loaded payload seen, reqs i = .patch id payload ∧ changes = payload.narrow loaded ∧
        seen <+: s.log ∧ (replay t seen).get id = some loaded) ∧
    ∀ pre post id b b', s.log = pre ++ post → (replay t pre).get id = some b →
      s.table.get id = some b' →
        valuesOf b' = (sentTo id post).foldl BudgetValues.overlay (valuesOf b) := by
  intro s
  obtain ⟨ha, ho⟩ : Accounted t reqs s ∧ Originates t reqs s := originates_after t reqs statements
  refine ⟨fun i id changes hmem => (ho _ hmem).2, ?_⟩
  intro pre post id b b' hlog hb hb'
  rw [ha.table, hlog, replay_append] at hb'
  obtain ⟨hrow, hid⟩ := mem_of_get hb
  have hlt : id < (replay t pre).nextId := hid ▸ (replay t pre).ids_lt b hrow
  refine valuesOf_replay hlt (fun changes hc => ?_) hb hb'
  obtain ⟨⟨k, effect⟩, hx, hsent⟩ := List.mem_filterMap.mp hc
  have horigin := ho (k, effect) (by rw [hlog]; exact List.mem_append_right _ hx)
  unfold sent? at hsent
  split at hsent
  · rename_i other changes' heq
    split at hsent
    · obtain rfl := Option.some.inj hsent
      dsimp only at heq horigin
      rw [heq] at horigin
      exact horigin.1
    · cases hsent
  · cases hsent

end Values

/-! Two updates that load the same budget; each changes one of its columns. -/

def oneThreshold : BudgetUpdate := { noThresholds with alertThresholds := .value [50] }

def twoUpdates : ℕ → BudgetRequest
  | 0 => .patch 1 higherLimit
  | _ => .patch 1 oneThreshold

def bothLoadFirst : List (Statement ℕ) := [.read 0, .read 1, .write 0, .write 1]

theorem no_update_lost_twoUpdates :
    let t := after storeStep BudgetTable.empty [.create research]
    let s := after serve (Server.start t twoUpdates) bothLoadFirst
    ∃ b b', t.get 1 = some b ∧ s.table.get 1 = some b' ∧
      (b'.limitUsd, b'.alertThresholds) = (5000, some [50]) ∧
      valuesOf b' = (sentTo 1 s.log).foldl BudgetValues.overlay (valuesOf b) := by
  intro t s
  have hbefore : (t.get 1).map (fun b => b.limitUsd) = some 2000 := by decide +kernel
  have hafter : (s.table.get 1).map (fun b => (b.limitUsd, b.alertThresholds)) =
      some (5000, some [50]) := by decide +kernel
  obtain ⟨b, hb, _⟩ := Option.map_eq_some_iff.mp hbefore
  obtain ⟨b', hb', hvalues⟩ := Option.map_eq_some_iff.mp hafter
  exact ⟨b, b', hb, hb', hvalues,
    (no_update_lost t twoUpdates bothLoadFirst).2 [] _ 1 b b' rfl hb hb'⟩

/-! ### A request alone -/

/-- Every limit is as its column stores it. -/
def BudgetTable.Stored (t : BudgetTable) : Prop :=
  ∀ b ∈ t.rows, moneyColumn b.limitUsd = .ok b.limitUsd

theorem moneyColumn_moneyColumn {v limitUsd : ℚ} (h : moneyColumn v = .ok limitUsd) :
    moneyColumn limitUsd = .ok limitUsd := by
  rcases moneyColumn_cases v with ⟨_, hv⟩ | ⟨hover, hv⟩
  · rw [hv] at h
    cases h
  · rw [hv] at h
    obtain rfl := Except.ok.inj h
    have hscale := toExp_of_hasScale halfAway_intCast
      (hasScale_toExp halfAway CostRecord.moneyScale v)
    unfold moneyColumn
    rw [hscale, if_pos (not_le.mp hover)]

theorem Stored.effectStep (h : t.Stored) (effect : Effect) : (effectStep t effect).Stored := by
  cases effect with
  | idTaken => exact h
  | request req =>
    change (storeStep t req).Stored
    rcases storeStep_cases t req with hs | ⟨_, limitUsd, _, _, hlimit, hs⟩ |
      ⟨id, payload, row, values, _, hget, hv, hs⟩ | ⟨id, _, hs⟩
    · rw [hs]
      exact h
    · rw [hs]
      intro b hb
      rcases List.mem_append.mp hb with hb | hb
      · exact h b hb
      · rw [List.mem_singleton.mp hb]
        exact moneyColumn_moneyColumn hlimit
    · rw [hs]
      have hlimit : moneyColumn values.limitUsd = .ok values.limitUsd := by
        unfold patched at hv
        obtain ⟨limitUsd, hl, hv⟩ := Batch.bind_eq_ok.mp hv
        obtain ⟨_, _, hv⟩ := Batch.bind_eq_ok.mp hv
        obtain rfl := Except.ok.inj hv
        cases hp : payload.limitUsd with
        | omitted =>
          rw [hp] at hl
          obtain rfl := Except.ok.inj hl
          exact h row (mem_of_get hget).1
        | null =>
          rw [hp] at hl
          cases hl
        | value v =>
          rw [hp] at hl
          exact moneyColumn_moneyColumn hl
      intro b hb
      obtain ⟨q, hq, rfl⟩ := List.mem_map.mp hb
      unfold BudgetTable.write
      split
      · exact hlimit
      · exact h q hq
    · rw [hs]
      exact fun b hb => h b (List.mem_of_mem_filter hb)

theorem patched_narrow {loaded : Budget} (h : moneyColumn loaded.limitUsd = .ok loaded.limitUsd)
    (payload : BudgetUpdate) : patched loaded (payload.narrow loaded) = patched loaded payload := by
  have hlimit : required moneyColumn loaded.limitUsd
      (payload.limitUsd.narrow (some loaded.limitUsd)) =
        required moneyColumn loaded.limitUsd payload.limitUsd := by
    cases payload.limitUsd with
    | omitted => rfl
    | null => rfl
    | value v =>
      rw [Field.narrow]
      split
      · rename_i he
        obtain rfl := Option.some.inj he
        exact h.symm
      · rfl
  have hactive : required .ok loaded.isActive (payload.isActive.narrow (some loaded.isActive)) =
      required .ok loaded.isActive payload.isActive := by
    cases payload.isActive with
    | omitted => rfl
    | null => rfl
    | value v =>
      rw [Field.narrow]
      split
      · rename_i he
        obtain rfl := Option.some.inj he
        rfl
      · rfl
  have hthresholds : jsonColumn loaded.alertThresholds
      (payload.alertThresholds.narrow loaded.alertThresholds) =
        jsonColumn loaded.alertThresholds payload.alertThresholds := by
    cases payload.alertThresholds with
    | omitted => rfl
    | null =>
      rw [Field.narrow]
      split
      · rename_i he
        exact he
      · rfl
    | value v =>
      rw [Field.narrow]
      split
      · rename_i he
        exact he
      · rfl
  unfold patched BudgetUpdate.narrow
  dsimp only
  rw [hlimit, hactive, hthresholds]

theorem flushUpdate_narrow {loaded : Budget} (hstored : t.Stored)
    (hget : t.get loaded.id = some loaded) (payload : BudgetUpdate) :
    flushUpdate t loaded.id (payload.narrow loaded) =
      (patched loaded payload).toOption.map (t.update loaded.id) := by
  have hp := patched_narrow (hstored loaded (mem_of_get hget).1) payload
  unfold flushUpdate
  split
  · rename_i hempty
    rw [← hp, patched_of_isEmpty hempty]
    exact congrArg some (update_self hget).symm
  · rw [hget, ← hp]

section Alone

variable {ι : Type*} [DecidableEq ι]

@[simp] theorem stage_enter_self (s : Server ι) (i : ι) (stage : Stage) :
    (s.enter i stage).stage i = stage := Function.update_self ..

@[simp] theorem table_enter (s : Server ι) (i : ι) (stage : Stage) :
    (s.enter i stage).table = s.table := rfl

@[simp] theorem stage_commit_self (s : Server ι) (i : ι) (stage : Stage) (effect : Effect)
    (t : BudgetTable) : (s.commit i stage effect t).stage i = stage := Function.update_self ..

@[simp] theorem table_commit (s : Server ι) (i : ι) (stage : Stage) (effect : Effect)
    (t : BudgetTable) : (s.commit i stage effect t).table = t := rfl

def whole (i : ι) : List (Statement ι) := [.read i, .write i, .readBack i]

omit [DecidableEq ι] in
theorem shown_of_get {answer : BudgetModel → Response} {b : Budget} (h : t.get id = some b) :
    shown answer t id = respond answer b := by
  rw [shown, h]

/-- **A request that nothing interrupts** does what `handle` does. -/
theorem alone_eq_handle {s : Server ι} {i : ι} {req : BudgetRequest} (hstored : s.table.Stored)
    (hi : s.stage i = .arrived req) :
    (after serve s (whole i)).table = (handle s.table req).1 ∧
      (after serve s (whole i)).stage i = .answered (handle s.table req).2 := by
  change (serve (serve (serve s (.read i)) (.write i)) (.readBack i)).table = _ ∧
    (serve (serve (serve s (.read i)) (.write i)) (.readBack i)).stage i = _
  have hread : serve s (.read i) = s.enter i (readStage s.table req) := by simp only [serve, hi]
  rw [hread]
  cases req with
  | create payload =>
    cases h : s.table.existing payload.team payload.period with
    | some b => simp [serve, readStage, h, handle, createBudget_of_some h]
    | none =>
      cases hv : moneyColumn payload.limitUsd with
      | error e => simp [serve, readStage, h, hv, handle, createBudget_of_none h]
      | ok limitUsd =>
        have hget : (s.table.insert payload limitUsd h).get s.table.nextId =
            some (s.table.newRow payload limitUsd) := by rw [get_insert, if_pos rfl]
        simp [serve, readStage, h, hv, handle, createBudget_of_none h, shown_of_get hget]
  | patch id payload =>
    cases h : s.table.get id with
    | none => simp [serve, readStage, h, handle, updateBudget]
    | some loaded =>
      obtain rfl := (mem_of_get h).2
      have hflush := flushUpdate_narrow hstored h payload
      cases hp : patched loaded payload with
      | error e =>
        rw [hp] at hflush
        simp [serve, readStage, h, hp, handle, updateBudget, hflush, Except.toOption]
      | ok values =>
        rw [hp] at hflush
        have hget : (s.table.update loaded.id values).get loaded.id =
            some (BudgetTable.write loaded.id values loaded) := by
          rw [get_update, h, Option.map_some]
        simp [serve, readStage, h, hp, handle, updateBudget, hflush, Except.toOption,
          shown_of_get hget]
  | delete id =>
    cases h : s.table.get id with
    | none => simp [serve, readStage, h, handle, deleteBudget]
    | some loaded => simp [serve, readStage, h, handle, deleteBudget]

theorem stage_serve_of_ne {s : Server ι} {e : Statement ι} {j : ι} (h : j ≠ e.of) :
    (serve s e).stage j = s.stage j := by
  rcases serve_cases s e with hs | ⟨i, old, new, rfl, _, _, hs⟩ |
    ⟨i, old, new, effect, t, rfl, _, _, hs⟩
  · rw [hs]
  · rw [hs]
    exact Function.update_of_ne h ..
  · rw [hs]
    exact Function.update_of_ne h ..

theorem stage_whole_of_ne {s : Server ι} {i j : ι} (h : j ≠ i) :
    (after serve s (whole i)).stage j = s.stage j := by
  change (serve (serve (serve s (.read i)) (.write i)) (.readBack i)).stage j = _
  rw [stage_serve_of_ne h, stage_serve_of_ne h, stage_serve_of_ne h]

theorem stage_flatMap_of_notMem {j : ι} {l : List ι} : ∀ {s : Server ι}, j ∉ l →
    (after serve s (l.flatMap whole)).stage j = s.stage j := by
  induction l with
  | nil => intro s _; rfl
  | cons i l ih =>
    intro s h
    rw [List.mem_cons, not_or] at h
    rw [List.flatMap_cons, after_append, ih h.2, stage_whole_of_ne h.1]

theorem serial_from (reqs : ι → BudgetRequest) {l : List ι} : ∀ {s : Server ι}, l.Nodup →
    s.table.Stored → (∀ i ∈ l, s.stage i = .arrived (reqs i)) →
      (after serve s (l.flatMap whole)).table = after storeStep s.table (l.map reqs) ∧
        l.map (after serve s (l.flatMap whole)).stage =
          (answers storeStep (fun t req => (handle t req).2) s.table (l.map reqs)).map
            Stage.answered := by
  induction l with
  | nil => intro s _ _ _; exact ⟨rfl, rfl⟩
  | cons i l ih =>
    intro s hnd hstored harrived
    obtain ⟨hi, hl⟩ := List.nodup_cons.mp hnd
    obtain ⟨htable, hstage⟩ := alone_eq_handle hstored (harrived i List.mem_cons_self)
    have hstored' : (after serve s (whole i)).table.Stored := by
      rw [htable]
      exact Stored.effectStep hstored (.request (reqs i))
    obtain ⟨hrest, hanswers⟩ := ih hl hstored' fun j hj => by
      have hji : j ≠ i := fun he => hi (he ▸ hj)
      rw [stage_whole_of_ne hji]
      exact harrived j (List.mem_cons_of_mem i hj)
    rw [List.flatMap_cons, after_append]
    refine ⟨?_, ?_⟩
    · rw [hrest, htable]
      rfl
    · rw [List.map_cons, stage_flatMap_of_notMem hi, hstage, hanswers, htable]
      rfl

/-- **Requests one after the other** leave the table and are given the answers that
`handle` leaves and gives. -/
theorem serial_eq_handle {t : BudgetTable} (hstored : t.Stored) (reqs : ι → BudgetRequest)
    {l : List ι} (hnd : l.Nodup) :
    let s := after serve (Server.start t reqs) (l.flatMap whole)
    s.table = after storeStep t (l.map reqs) ∧
      l.map s.stage = (answers storeStep (fun t req => (handle t req).2) t (l.map reqs)).map
        Stage.answered :=
  serial_from reqs hnd hstored fun _ _ => rfl

end Alone

/-! The two updates again, of a budget that a request before them creates. -/

def createdFirst : ℕ → BudgetRequest
  | 0 => .create research
  | 1 => .patch 1 higherLimit
  | _ => .patch 1 oneThreshold

theorem serial_eq_handle_createdFirst :
    let s := after serve (Server.start BudgetTable.empty createdFirst) ([0, 1, 2].flatMap whole)
    (s.table.get 1).map (fun b => (b.limitUsd, b.alertThresholds)) = some (5000, some [50]) ∧
      s.table = after storeStep BudgetTable.empty
        [.create research, .patch 1 higherLimit, .patch 1 oneThreshold] := by
  have hempty : BudgetTable.empty.Stored := fun b hb => absurd hb List.not_mem_nil
  exact ⟨by decide +kernel,
    (serial_eq_handle hempty createdFirst (l := [0, 1, 2]) (by decide)).1⟩

end Finops.Api
