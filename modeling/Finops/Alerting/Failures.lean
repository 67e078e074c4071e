import Finops.Alerting.Evaluator
import Mathlib.Data.List.TakeWhile

/-!
# Evaluations that fail

Every call that one evaluation makes can fail: a query, the alert state, the
forecast, the notifier.  `Troubles` says which calls of a budget fail, and `outcome`
follows the evaluation to where it ends.

All budgets of a cycle share one session.  A query that fails leaves its transaction
aborted, and nothing rolls it back before the next budget, whose first query then
fails as well.  The other failures concern their own budget only.  So the budgets
that do not fail raise the alerts they would raise among themselves exactly when no
alert is due after a failed query (`failures_isolated_iff`).
-/

namespace Finops

open Numerics Calendar HighWater

/-- The calls of one evaluation that fail. -/
structure Troubles where
  /-- the query of `total_spend` -/
  spend : Option PyError := none
  readState : Option PyError := none
  forecast : Option PyError := none
  /-- the two queries of `top_drivers` -/
  models : Option PyError := none
  projects : Option PyError := none
  /-- `record_fired`, and whether the threshold was written before it raised -/
  record : Option (PyError × Bool) := none

/-- The evaluator, and whether the transaction of its session is aborted. -/
structure InTransaction (σ : Type*) where
  ev : Evaluator σ
  aborted : Bool

inductive Ending
  | quiet
  | raised (e : PyError)
  /-- a query has failed -/
  | queryFailed (e : PyError)
  | unsent (alert : BudgetAlert) (e : PyError)
  | unrecorded (alert : BudgetAlert) (e : PyError) (written : Bool)
  | announced (alert : BudgetAlert)

/-- No model has spend, so the drivers are looked up by project. -/
def noModelDrivers (num : Arith) (rows : List CostRow) (team : String) (window : Period) : Bool :=
  match costGroups num rows ["model"] window { teams := [team] } with
  | .ok groups => groups.all fun group => group.totalUsd ≤ 0
  | .error _ => false

section

variable {σ : Type*} (num : Arith) (store : AlertStateStore σ) (rows : List CostRow)
  (send : BudgetAlert → Except PyError Bool) (now : Moment) (url : Option String)
  (troubles : Budget → Troubles)

/-- One evaluation, given the state of the transaction and the mark that the alert
state holds. -/
def outcome (budget : Budget) (aborted : Bool) (mark : Option ℤ) : Ending :=
  let t := troubles budget
  match spendWindow now with
  | .error e => .raised e
  | .ok _ =>
    if aborted then .raised .operationalError
    else match t.spend with
    | some e => .queryFailed e
    | none =>
      match assess num rows budget now with
      | .error e => .raised e
      | .ok a =>
        match a.threshold with
        | none => .quiet
        | some threshold =>
          match t.readState with
          | some e => .raised e
          | none =>
            if Above mark threshold then
              match t.forecast with
              | some e => .raised e
              | none =>
                match buildAlert num rows budget now a threshold url with
                | .error e => .raised e
                | .ok alert =>
                  match t.models with
                  | some e => .queryFailed e
                  | none =>
                    match if noModelDrivers num rows budget.team a.window then t.projects
                      else none with
                    | some e => .queryFailed e
                    | none =>
                      match send alert with
                      | .error e => .unsent alert e
                      | .ok _ =>
                        match t.record with
                        | some (e, written) => .unrecorded alert e written
                        | none => .announced alert
            else .quiet

def Ending.apply (s : InTransaction σ) :
    Ending → InTransaction σ × Except PyError (Option BudgetAlert)
  | .quiet => (s, .ok none)
  | .raised e => (s, .error e)
  | .queryFailed e => ({ s with aborted := true }, .error e)
  | .unsent alert e =>
    ({ s with ev := ⟨s.ev.state, s.ev.sent ++ [(alert, send alert)]⟩ }, .error e)
  | .unrecorded alert e written =>
    ({ s with ev := ⟨if written then
        store.recordFired s.ev.state alert.budgetId alert.periodKey alert.threshold
        else s.ev.state, s.ev.sent ++ [(alert, send alert)]⟩ }, .error e)
  | .announced alert =>
    ({ s with ev := ⟨store.recordFired s.ev.state alert.budgetId alert.periodKey alert.threshold,
        s.ev.sent ++ [(alert, send alert)]⟩ }, .ok (some alert))

def evaluateBudgetIn (budget : Budget) (s : InTransaction σ) :
    InTransaction σ × Except PyError (Option BudgetAlert) :=
  (outcome num rows send now url troubles budget s.aborted (markOf store s.ev budget now)).apply
    store send s

/-- One turn of the loop: a budget that raises is logged and passed over. -/
def evaluateNextIn (acc : InTransaction σ × List BudgetAlert) (budget : Budget) :
    InTransaction σ × List BudgetAlert :=
  match evaluateBudgetIn num store rows send now url troubles budget acc.1 with
  | (s, .ok (some alert)) => (s, acc.2 ++ [alert])
  | (s, _) => (s, acc.2)

def evaluateBudgetsIn (budgets : List Budget) (ev : Evaluator σ) :
    InTransaction σ × List BudgetAlert :=
  (activeMonthly budgets).foldl (evaluateNextIn num store rows send now url troubles)
    (⟨ev, false⟩, [])

end

variable {σ : Type*} {num : Arith} {store : AlertStateStore σ} {rows : List CostRow}
  {send : BudgetAlert → Except PyError Bool} {now : Moment} {url : Option String}
  {troubles : Budget → Troubles} {budget : Budget} {ev : Evaluator σ} {s : InTransaction σ}

/-! ### Without troubles -/

theorem assess_of_spendWindow {e : PyError} (h : spendWindow now = .error e) :
    assess num rows budget now = .error e := by
  unfold spendWindow at h
  unfold assess
  cases hb : monthBounds now with
  | error e' =>
    rw [hb] at h
    obtain rfl : e' = e := Except.error.inj h
    rfl
  | ok bounds =>
    rw [hb] at h
    change (Period.make _ _ >>= _) = _
    rw [show Period.make bounds.1.utc
      (if bounds.1.utc < now.utc then now.utc else bounds.2.utc) = .error e from h]
    rfl

/-- **Where no call fails**, the evaluation is `evaluateBudget`. -/
theorem evaluateBudgetIn_of_untroubled (h : troubles budget = {}) :
    evaluateBudgetIn num store rows send now url troubles budget ⟨ev, false⟩ =
      (⟨(evaluateBudget num store rows budget send now url ev).1, false⟩,
        (evaluateBudget num store rows budget send now url ev).2) := by
  unfold evaluateBudgetIn outcome evaluateBudget
  rw [h]
  cases hw : spendWindow now with
  | error e =>
    rw [assess_of_spendWindow hw]
    rfl
  | ok window =>
    dsimp only
    rw [if_neg Bool.false_ne_true]
    cases ha : assess num rows budget now with
    | error e => rfl
    | ok a =>
      dsimp only
      cases a.threshold with
      | none => rfl
      | some threshold =>
        dsimp only
        unfold markOf
        split
        · cases hb : buildAlert num rows budget now a threshold url with
          | error e => rfl
          | ok alert =>
            obtain ⟨hid, hkey, ht⟩ := buildAlert_eq_ok hb
            simp only [ite_self]
            cases hs : send alert with
            | error e => simp only [Ending.apply, hs]
            | ok b => simp only [Ending.apply, hs, hid, hkey, ht]
        · rfl

/-! ### What one evaluation changes -/

def Ending.result : Ending → Except PyError (Option BudgetAlert)
  | .quiet => .ok none
  | .raised e => .error e
  | .queryFailed e => .error e
  | .unsent _ e => .error e
  | .unrecorded _ e _ => .error e
  | .announced alert => .ok (some alert)

def Ending.alert? : Ending → Option BudgetAlert
  | .unsent alert _ => some alert
  | .unrecorded alert _ _ => some alert
  | .announced alert => some alert
  | _ => none

def Ending.isQueryFailed : Ending → Bool
  | .queryFailed _ => true
  | _ => false

theorem Ending.apply_snd (o : Ending) (s : InTransaction σ) :
    (o.apply store send s).2 = o.result := by
  cases o <;> rfl

theorem Ending.aborted_apply (o : Ending) (s : InTransaction σ) :
    (o.apply store send s).1.aborted = (s.aborted || o.isQueryFailed) := by
  cases o <;> simp [Ending.apply, Ending.isQueryFailed]

theorem outcome_budgetId {aborted : Bool} {mark : Option ℤ} {alert : BudgetAlert}
    (h : (outcome num rows send now url troubles budget aborted mark).alert? = some alert) :
    alert.budgetId = budget.id := by
  unfold outcome at h
  dsimp only at h
  split at h
  · cases h
  split at h
  · cases h
  split at h
  · cases h
  split at h
  · cases h
  split at h
  · cases h
  split at h
  · cases h
  split at h
  swap
  · cases h
  split at h
  · cases h
  split at h
  · cases h
  rename_i built hb
  have hid := (buildAlert_eq_ok hb).1
  split at h
  · cases h
  split at h
  · cases h
  split at h
  · obtain rfl := Option.some.inj h; exact hid
  split at h
  · obtain rfl := Option.some.inj h; exact hid
  · obtain rfl := Option.some.inj h; exact hid

theorem markOf_evaluateBudgetIn {other : Budget} (hne : other.id ≠ budget.id) :
    markOf store (evaluateBudgetIn num store rows send now url troubles budget s).1.ev other now =
      markOf store s.ev other now := by
  unfold evaluateBudgetIn
  have hframe : ∀ (alert : BudgetAlert), alert.budgetId = budget.id →
      store.highestFired
        (store.recordFired s.ev.state alert.budgetId alert.periodKey alert.threshold) other.id
        (periodKey now other.period.str) =
      store.highestFired s.ev.state other.id (periodKey now other.period.str) := by
    intro alert hid
    refine store.highestFired_recordFired_of_ne _ _ _ _ _ _ fun he => hne ?_
    rw [← hid]
    exact (Prod.mk.inj he).1
  cases ho : outcome num rows send now url troubles budget s.aborted
    (markOf store s.ev budget now) with
  | quiet => rfl
  | raised e => rfl
  | queryFailed e => rfl
  | unsent alert e => rfl
  | unrecorded alert e written =>
    cases written with
    | false => rfl
    | true => exact hframe alert (outcome_budgetId (by rw [ho]; rfl))
  | announced alert => exact hframe alert (outcome_budgetId (by rw [ho]; rfl))

theorem evaluateBudgetIn_of_aborted (h : s.aborted = true) :
    ∃ e, evaluateBudgetIn num store rows send now url troubles budget s = (s, .error e) := by
  unfold evaluateBudgetIn outcome
  cases spendWindow now with
  | error e => exact ⟨e, rfl⟩
  | ok window =>
    dsimp only
    rw [if_pos h]
    exact ⟨.operationalError, rfl⟩

/-! ### The loop -/

section

variable (num : Arith) (store : AlertStateStore σ) (rows : List CostRow)
  (send : BudgetAlert → Except PyError Bool) (now : Moment) (url : Option String)
  (troubles : Budget → Troubles) (ev : Evaluator σ)

def alone (budget : Budget) : InTransaction σ × Except PyError (Option BudgetAlert) :=
  evaluateBudgetIn num store rows send now url troubles budget ⟨ev, false⟩

def fails (budget : Budget) : Bool :=
  !(alone num store rows send now url troubles ev budget).2.isOk

def failsInQuery (budget : Budget) : Bool :=
  (alone num store rows send now url troubles ev budget).1.aborted

/-- The budget has crossed a threshold above its mark. -/
def Due (budget : Budget) : Prop :=
  ∃ a, assess num rows budget now = .ok a ∧
    ∃ threshold ∈ a.threshold, Above (markOf store ev budget now) threshold

def alertOf (budget : Budget) : Option BudgetAlert :=
  (alone num store rows send now url troubles ev budget).2.toOption.join

end

theorem fails_of_failsInQuery (h : failsInQuery num store rows send now url troubles ev budget) :
    fails num store rows send now url troubles ev budget = true := by
  unfold failsInQuery fails alone evaluateBudgetIn at *
  rw [Ending.aborted_apply, Bool.false_or] at h
  rw [Ending.apply_snd]
  cases ho : outcome num rows send now url troubles budget false
    (markOf store (InTransaction.mk ev false).ev budget now) with
  | queryFailed e => rfl
  | quiet => rw [ho] at h; cases h
  | raised e => rfl
  | unsent alert e => rfl
  | unrecorded alert e written => rfl
  | announced alert => rw [ho] at h; cases h

theorem alertOf_of_fails (h : fails num store rows send now url troubles ev budget = true) :
    alertOf num store rows send now url troubles ev budget = none := by
  unfold fails at h
  unfold alertOf
  cases hr : (alone num store rows send now url troubles ev budget).2 with
  | error e => rfl
  | ok alert => rw [hr] at h; cases h

theorem isSome_iff_due {found : Option BudgetAlert}
    (h : (outcome num rows send now url troubles budget false
      (markOf store ev budget now)).result = .ok found) :
    found.isSome = true ↔ Due num store rows now ev budget := by
  unfold outcome at h
  dsimp only at h
  split at h
  · cases h
  rw [if_neg Bool.false_ne_true] at h
  split at h
  · cases h
  split at h
  · cases h
  rename_i a ha
  have hdue : Due num store rows now ev budget ↔
      ∃ threshold ∈ a.threshold, Above (markOf store ev budget now) threshold := by
    constructor
    · rintro ⟨b, hb, hcrossed⟩
      rw [ha] at hb
      rw [Except.ok.inj hb]
      exact hcrossed
    · exact fun hcrossed => ⟨a, ha, hcrossed⟩
  rw [hdue]
  split at h
  · rename_i hnone
    rw [← Except.ok.inj h, hnone]
    refine iff_of_false Bool.false_ne_true ?_
    rintro ⟨threshold, ht, _⟩
    cases ht
  rename_i threshold hsome
  split at h
  · cases h
  split at h
  swap
  · rename_i habove
    rw [← Except.ok.inj h, hsome]
    refine iff_of_false Bool.false_ne_true ?_
    rintro ⟨t, ht, hmark⟩
    rw [← Option.some.inj ht] at hmark
    exact habove hmark
  rename_i habove
  refine iff_of_true ?_ ⟨threshold, hsome, habove⟩
  split at h
  · cases h
  split at h
  · cases h
  split at h
  · cases h
  split at h
  · cases h
  split at h
  · cases h
  split at h
  · cases h
  · rw [← Except.ok.inj h]
    rfl

/-- **No alert is raised** where something fails or none is due. -/
theorem alertOf_eq_none_iff :
    alertOf num store rows send now url troubles ev budget = none ↔
      fails num store rows send now url troubles ev budget = true ∨
        ¬ Due num store rows now ev budget := by
  unfold alertOf fails alone evaluateBudgetIn
  rw [Ending.apply_snd]
  cases hr : (outcome num rows send now url troubles budget false
      (markOf store ev budget now)).result with
  | error e => exact iff_of_true rfl (.inl rfl)
  | ok found =>
    have hfound := isSome_iff_due hr
    cases found with
    | none => exact iff_of_true rfl (.inr fun hdue => Bool.false_ne_true (hfound.mpr hdue))
    | some alert =>
      refine iff_of_false (fun h => by cases h) ?_
      rintro (h | h)
      · cases h
      · exact h (hfound.mp rfl)

variable (num rows send url troubles) in
theorem evaluateBudgetIn_eq_alone (hs : s.aborted = false)
    (hm : markOf store s.ev budget now = markOf store ev budget now) :
    (evaluateBudgetIn num store rows send now url troubles budget s).2 =
        (alone num store rows send now url troubles ev budget).2 ∧
      (evaluateBudgetIn num store rows send now url troubles budget s).1.aborted =
        failsInQuery num store rows send now url troubles ev budget := by
  unfold failsInQuery alone evaluateBudgetIn
  rw [Ending.apply_snd, Ending.apply_snd, Ending.aborted_apply, Ending.aborted_apply, hs, hm]
  exact ⟨rfl, rfl⟩

theorem evaluateNextIn_eq (acc : InTransaction σ × List BudgetAlert) :
    evaluateNextIn num store rows send now url troubles acc budget =
      ((evaluateBudgetIn num store rows send now url troubles budget acc.1).1,
        acc.2 ++ (evaluateBudgetIn num store rows send now url troubles
          budget acc.1).2.toOption.join.toList) := by
  unfold evaluateNextIn
  cases evaluateBudgetIn num store rows send now url troubles budget acc.1 with
  | mk s r =>
    cases r with
    | error e => simp [Except.toOption]
    | ok alert => cases alert <;> simp [Except.toOption]

theorem foldl_of_aborted {l : List Budget} : ∀ {acc : InTransaction σ × List BudgetAlert},
    acc.1.aborted = true →
      l.foldl (evaluateNextIn num store rows send now url troubles) acc = acc := by
  induction l with
  | nil => intro acc _; rfl
  | cons b l ih =>
    intro acc h
    obtain ⟨e, he⟩ : ∃ e, evaluateBudgetIn num store rows send now url troubles b acc.1 =
      (acc.1, .error e) := evaluateBudgetIn_of_aborted h
    rw [List.foldl_cons, evaluateNextIn_eq, he]
    simp only [Except.toOption, Option.join_none, Option.toList_none, List.append_nil]
    exact ih h

/-- **The loop** raises the alerts of the budgets before the first failed query. -/
theorem alerts_foldl {l : List Budget} : ∀ {acc : InTransaction σ × List BudgetAlert},
    (l.map Budget.id).Nodup → acc.1.aborted = false →
      (∀ b ∈ l, markOf store acc.1.ev b now = markOf store ev b now) →
      (l.foldl (evaluateNextIn num store rows send now url troubles) acc).2 = acc.2 ++
        (l.takeWhile fun b => !failsInQuery num store rows send now url troubles ev b).filterMap
          (alertOf num store rows send now url troubles ev) := by
  induction l with
  | nil => intro acc _ _ _; simp
  | cons b l ih =>
    intro acc hnd ha hm
    obtain ⟨hb, hnd⟩ := List.nodup_cons.mp hnd
    obtain ⟨hresult, haborted⟩ :=
      evaluateBudgetIn_eq_alone num rows send url troubles ha (hm b List.mem_cons_self)
    rw [List.foldl_cons, evaluateNextIn_eq, hresult]
    change (l.foldl _
      (_, acc.2 ++ (alertOf num store rows send now url troubles ev b).toList)).2 = _
    cases hq : failsInQuery num store rows send now url troubles ev b with
    | true =>
      rw [hq] at haborted
      rw [foldl_of_aborted haborted, alertOf_of_fails (fails_of_failsInQuery hq),
        List.takeWhile_cons_of_neg (by simp [hq])]
      simp
    | false =>
      rw [hq] at haborted
      rw [List.takeWhile_cons_of_pos (by simp [hq]), List.filterMap_cons, ih hnd haborted]
      · cases alertOf num store rows send now url troubles ev b <;> simp
      · intro c hc
        have hne : c.id ≠ b.id := fun he => hb (he ▸ List.mem_map_of_mem hc)
        rw [markOf_evaluateBudgetIn hne]
        exact hm c (List.mem_cons_of_mem b hc)

/-! ### Isolation -/

theorem filterMap_takeWhile_eq_iff {α β : Type*} {p : α → Bool} {f : α → Option β} {l : List α}
    (hf : ∀ a, p a = false → f a = none) : (l.takeWhile p).filterMap f = l.filterMap f ↔
      ∀ pre a post, l = pre ++ a :: post → p a = false → ∀ b ∈ post, f b = none := by
  induction l with
  | nil =>
    refine iff_of_true rfl fun pre a post h => ?_
    simp at h
  | cons c l ih =>
    cases hc : p c with
    | false =>
      rw [List.takeWhile_cons_of_neg (by simp [hc]), List.filterMap_cons, hf c hc,
        List.filterMap_nil, eq_comm, List.filterMap_eq_nil_iff]
      constructor
      · intro h pre a post he _ b hb
        cases pre with
        | nil => exact h b ((List.cons.inj he).2 ▸ hb)
        | cons d pre =>
          rw [(List.cons.inj he).2] at h
          exact h b (List.mem_append_right pre (List.mem_cons_of_mem a hb))
      · intro h
        exact h [] c l rfl hc
    | true =>
      rw [List.takeWhile_cons_of_pos hc]
      have hrest : ((c :: l.takeWhile p).filterMap f = (c :: l).filterMap f) ↔
          (l.takeWhile p).filterMap f = l.filterMap f := by
        rw [List.filterMap_cons, List.filterMap_cons]
        cases f c <;> simp
      rw [hrest, ih]
      constructor
      · intro h pre a post he ha
        cases pre with
        | nil =>
          rw [← (List.cons.inj he).1, hc] at ha
          cases ha
        | cons d pre => exact h pre a post (List.cons.inj he).2 ha
      · intro h pre a post he
        exact h (c :: pre) a post (by rw [he]; rfl)

theorem alerts_evaluateBudgetsIn {budgets : List Budget}
    (hnd : ((activeMonthly budgets).map Budget.id).Nodup) :
    (evaluateBudgetsIn num store rows send now url troubles budgets ev).2 =
      ((activeMonthly budgets).takeWhile fun b =>
        !failsInQuery num store rows send now url troubles ev b).filterMap
          (alertOf num store rows send now url troubles ev) := by
  rw [evaluateBudgetsIn, alerts_foldl hnd rfl fun b _ => rfl, List.nil_append]

theorem alerts_remaining {budgets : List Budget}
    (hnd : ((activeMonthly budgets).map Budget.id).Nodup) :
    (evaluateBudgetsIn num store rows send now url troubles
        (budgets.filter fun b => !fails num store rows send now url troubles ev b) ev).2 =
      (activeMonthly budgets).filterMap (alertOf num store rows send now url troubles ev) := by
  have hactive : activeMonthly
      (budgets.filter fun b => !fails num store rows send now url troubles ev b) =
      (activeMonthly budgets).filter
        fun b => !fails num store rows send now url troubles ev b := by
    rw [activeMonthly, activeMonthly, List.filter_filter, List.filter_filter]
    simp only [Bool.and_comm]
  have hall : ((activeMonthly budgets).filter
        fun b => !fails num store rows send now url troubles ev b).takeWhile
        (fun b => !failsInQuery num store rows send now url troubles ev b) =
      (activeMonthly budgets).filter
        fun b => !fails num store rows send now url troubles ev b := by
    refine List.takeWhile_eq_self_iff.mpr fun b hb => ?_
    have hok := (List.mem_filter.mp hb).2
    cases hq : failsInQuery num store rows send now url troubles ev b with
    | false => rfl
    | true =>
      rw [fails_of_failsInQuery hq] at hok
      cases hok
  have hids : ((activeMonthly
      (budgets.filter fun b => !fails num store rows send now url troubles ev b)).map
        Budget.id).Nodup := by
    rw [hactive]
    exact hnd.sublist (List.filter_sublist.map _)
  rw [alerts_evaluateBudgetsIn hids, hactive, hall, List.filterMap_filter]
  refine List.filterMap_congr fun b _ => ?_
  cases hf : fails num store rows send now url troubles ev b with
  | false => rfl
  | true => rw [alertOf_of_fails hf]; rfl

/-- **Isolation.**  The budgets whose evaluation does not fail raise in a cycle the
alerts that they raise in a cycle of their own, exactly when no budget with a failed
query stands before one of them for which an alert is due. -/
theorem failures_isolated_iff {budgets : List Budget}
    (hnd : ((activeMonthly budgets).map Budget.id).Nodup) :
    (evaluateBudgetsIn num store rows send now url troubles budgets ev).2 =
        (evaluateBudgetsIn num store rows send now url troubles
          (budgets.filter fun b => !fails num store rows send now url troubles ev b) ev).2 ↔
      ∀ pre b post, activeMonthly budgets = pre ++ b :: post →
        failsInQuery num store rows send now url troubles ev b = true →
          ∀ c ∈ post, fails num store rows send now url troubles ev c = true ∨
            ¬ Due num store rows now ev c := by
  rw [alerts_evaluateBudgetsIn hnd, alerts_remaining hnd, filterMap_takeWhile_eq_iff]
  · simp only [Bool.not_eq_false', alertOf_eq_none_iff]
  · intro b hb
    exact alertOf_of_fails (fails_of_failsInQuery (by simpa using hb))

/-! Two teams near their budgets; a query of the first one fails. -/

def platform : Budget := { research 100 [80, 100] with id := 2, team := "platform" }

def timeout (budget : Budget) : Troubles :=
  if budget.team = "platform" then { spend := some .operationalError } else {}

theorem failures_isolated_timeout :
    (evaluateBudgetsIn .exact InMemoryAlertState [spent 0 85] CollectingNotifier.send august16
      none timeout [research 100 [80, 100], platform] (.fresh InMemoryAlertState)).2 =
    (evaluateBudgetsIn .exact InMemoryAlertState [spent 0 85] CollectingNotifier.send august16
      none timeout ([research 100 [80, 100], platform].filter fun b => !fails .exact
        InMemoryAlertState [spent 0 85] CollectingNotifier.send august16 none timeout
        (.fresh InMemoryAlertState) b) (.fresh InMemoryAlertState)).2 := by
  refine (failures_isolated_iff (by decide)).mpr fun pre b post he hb c hc => ?_
  have hactive : activeMonthly [research 100 [80, 100], platform] =
      [research 100 [80, 100], platform] := rfl
  rw [hactive] at he
  cases pre with
  | nil =>
    rw [← (List.cons.inj he).1] at hb
    exact absurd hb (by decide +kernel)
  | cons d pre =>
    rcases List.append_eq_singleton_iff.mp (List.cons.inj he).2.symm with ⟨_, hlast⟩ | ⟨_, hnil⟩
    · rw [(List.cons.inj hlast).2] at hc
      exact absurd hc List.not_mem_nil
    · cases hnil

theorem timeout_silences_others :
    ((evaluateBudgetsIn .exact InMemoryAlertState [spent 0 85] CollectingNotifier.send august16
      none timeout [platform, research 100 [80, 100]] (.fresh InMemoryAlertState)).2.map
        BudgetAlert.threshold) = [] ∧
    ((evaluateBudgetsIn .exact InMemoryAlertState [spent 0 85] CollectingNotifier.send august16
      none timeout [research 100 [80, 100]] (.fresh InMemoryAlertState)).2.map
        BudgetAlert.threshold) = [80] := by
  decide +kernel

end Finops
