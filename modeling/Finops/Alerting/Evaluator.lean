import Finops.Alerting.State
import Finops.Attribution.Engine
import Finops.Attribution.Forecast

/-!
# Budget threshold evaluation

`evaluateBudget` works out the period-to-date spend of one budget and announces
the highest threshold newly crossed.  Its parts are `assess`, which reads the
spend and finds the threshold, `buildAlert`, which adds the forecast and the cost
drivers, the notifier, and the alert state.  `evaluateBudgets` does this for
every active monthly budget and goes on where one of them raises.  Its queries are
those that come out; one that fails, as where a sum overflows its cast, is among the
`Troubles` of `Failures.lean`.

An `Evaluator` is the alert state together with every alert the notifier was
handed and what it answered.  `evaluateBudget_of_quiet`, `evaluateBudget_of_error` and
`evaluateBudget_of_ok` are all that one evaluation can do to it, and
`exists_buildAlert_eq_ok` says when an alert can be built.
-/

namespace Finops

open Numerics Calendar HighWater

def MAX_DRIVERS : ℕ := 3

structure CostDriver where
  label : String
  amountUsd : ℚ
  deriving DecidableEq, Repr

structure BudgetAlert where
  team : String
  budgetId : ℤ
  threshold : ℤ
  periodKey : String
  periodStart : Moment
  periodEnd : Moment
  spendToDate : ℚ
  budgetLimit : ℚ
  utilization : ℚ
  projectedTotal : ℚ
  breachDate : Option Moment := none
  drivers : List CostDriver := []
  dashboardUrl : Option String := none

structure Crossing where
  budgetId : ℤ
  periodKey : String
  threshold : ℤ
  deriving DecidableEq

def BudgetAlert.crossing (alert : BudgetAlert) : Crossing :=
  ⟨alert.budgetId, alert.periodKey, alert.threshold⟩

def thresholdsFor (id : ℤ) (key : String) (l : List Crossing) : List ℤ :=
  (l.filter fun c => c.budgetId = id ∧ c.periodKey = key).map Crossing.threshold

theorem thresholdsFor_concat {id : ℤ} {key : String} (l : List Crossing) (x : Crossing) :
    thresholdsFor id key (l ++ [x]) = thresholdsFor id key l ++
      if x.budgetId = id ∧ x.periodKey = key then [x.threshold] else [] := by
  rw [thresholdsFor, List.filter_append, List.map_append, thresholdsFor]
  by_cases h : x.budgetId = id ∧ x.periodKey = key
  · rw [if_pos h, List.filter_cons_of_pos (by simpa using h)]; rfl
  · rw [if_neg h, List.filter_cons_of_neg (by simpa using h)]; rfl

theorem mem_thresholdsFor {id : ℤ} {key : String} {t : ℤ} {l : List Crossing} :
    t ∈ thresholdsFor id key l ↔ (⟨id, key, t⟩ : Crossing) ∈ l := by
  rw [thresholdsFor, List.mem_map]
  constructor
  · rintro ⟨⟨id', key', t'⟩, hx, rfl⟩
    obtain ⟨hmem, hk⟩ := List.mem_filter.mp hx
    obtain ⟨rfl, rfl⟩ := of_decide_eq_true hk
    exact hmem
  · intro h
    exact ⟨_, List.mem_filter.mpr ⟨h, decide_eq_true ⟨rfl, rfl⟩⟩, rfl⟩

theorem mem_thresholdsFor_concat {l : List Crossing} {x : Crossing} {id : ℤ} {key : String}
    {t : ℤ} : t ∈ thresholdsFor id key (l ++ [x]) ↔
      t ∈ thresholdsFor id key l ∨ (id, key) = (x.budgetId, x.periodKey) ∧ t = x.threshold := by
  rw [thresholdsFor_concat, List.mem_append]
  by_cases h : x.budgetId = id ∧ x.periodKey = key
  · obtain ⟨rfl, rfl⟩ := h
    rw [if_pos ⟨rfl, rfl⟩, List.mem_singleton, and_iff_right rfl]
  · have hne : ¬ (id, key) = (x.budgetId, x.periodKey) :=
      fun he => h ⟨(Prod.mk.inj he).1.symm, (Prod.mk.inj he).2.symm⟩
    rw [if_neg h]
    simp [hne]

/-! ### Notifiers

A notifier answers whether the alert was actually sent. -/

def NullNotifier.send (_ : BudgetAlert) : Except PyError Bool := .ok false

def CollectingNotifier.send (_ : BudgetAlert) : Except PyError Bool := .ok true

inductive Posted
  | accepted
  | httpError
  | raised (e : PyError)

/-- Posts alerts to a Slack incoming webhook.  A delivery failure is not raised. -/
def SlackNotifier.send (post : BudgetAlert → Posted) (alert : BudgetAlert) :
    Except PyError Bool :=
  match post alert with
  | .accepted => .ok true
  | .httpError => .ok false
  | .raised e => .error e

/-! ### Evaluation -/

def crossedThreshold (num : Arith) (utilization : ℚ) (thresholds : List ℤ) : Option ℤ :=
  ((thresholds.insertionSort (· ≤ ·)).filter fun threshold : ℤ =>
    (threshold : ℚ) ≤ num.flt (utilization * 100)).getLast?

def Period.make (start stop : Instant) : Except PyError Period :=
  if h : start < stop then .ok ⟨start, stop, h⟩
  else .error (.valueError "period end must be after period start")

def topDrivers (num : Arith) (rows : List CostRow) (team : String) (window : Period)
    (limit : ℕ := MAX_DRIVERS) : Except PyError (List CostDriver) := do
  let groups ← costGroups num rows ["model"] window { teams := [team] }
  let drivers ← (groups.filter fun group => 0 < group.totalUsd).mapM fun group => do
    let model ← orRaise (.keyError "model") (group.key.get? "model")
    return ⟨if model = "" then "untagged resource" else model, group.totalUsd⟩
  if drivers ≠ [] then return drivers.take limit
  let fallback ← costGroups num rows ["project"] window { teams := [team] }
  (fallback.take limit).mapM fun group => do
    let project ← orRaise (.keyError "project") (group.key.get? "project")
    return ⟨project, group.totalUsd⟩

/-- `Period(start=start, end=now if now > start else end)`. -/
def spendWindow (now : Moment) : Except PyError Period := do
  let (start, stop) ← monthBounds now
  Period.make start.utc (if start.utc < now.utc then now.utc else stop.utc)

/-- `float(spend / limit) if limit > Decimal(0) else 0.0`. -/
def utilizationOf (num : Arith) (spend limit : ℚ) : ℚ :=
  if 0 < limit then num.flt (num.dec (spend / limit)) else 0

/-- Where a budget stands: the first half of `evaluate_budget`. -/
structure Assessment where
  start : Moment
  stop : Moment
  window : Period
  spend : ℚ
  utilization : ℚ
  threshold : Option ℤ

def assess (num : Arith) (rows : List CostRow) (budget : Budget) (now : Moment) :
    Except PyError Assessment := do
  let (start, stop) ← monthBounds now
  let window ← Period.make start.utc (if start.utc < now.utc then now.utc else stop.utc)
  let spend := totalSpend rows window { teams := [budget.team] }
  let limit := budget.limitUsd
  let utilization := if 0 < limit then num.flt (num.dec (spend / limit)) else 0
  -- `sorted(None)`
  let thresholds ← orRaise .typeError budget.alertThresholds
  return ⟨start, stop, window, spend, utilization, crossedThreshold num utilization thresholds⟩

def buildAlert (num : Arith) (rows : List CostRow) (budget : Budget) (now : Moment)
    (a : Assessment) (threshold : ℤ) (dashboardUrl : Option String) :
    Except PyError BudgetAlert := do
  let forecast ← buildForecast num budget.team a.spend now a.start a.stop (some budget.limitUsd)
  let drivers ← topDrivers num rows budget.team a.window
  return {
    team := budget.team
    budgetId := budget.id
    threshold := threshold
    periodKey := periodKey now budget.period.str
    periodStart := a.start
    periodEnd := a.stop
    spendToDate := a.spend
    budgetLimit := budget.limitUsd
    utilization := a.utilization
    projectedTotal := forecast.projectedTotal
    breachDate := forecast.breachDate
    drivers := drivers
    dashboardUrl := dashboardUrl }

/-- What an evaluator has behind it: the alert state, and every alert it handed
to the notifier with the notifier's answer. -/
structure Evaluator (σ : Type*) where
  state : σ
  sent : List (BudgetAlert × Except PyError Bool)

def Evaluator.fresh {σ : Type*} (store : AlertStateStore σ) : Evaluator σ := ⟨store.fresh, []⟩

def evaluateBudget {σ : Type*} (num : Arith) (store : AlertStateStore σ) (rows : List CostRow)
    (budget : Budget) (send : BudgetAlert → Except PyError Bool) (now : Moment)
    (dashboardUrl : Option String) (ev : Evaluator σ) :
    Evaluator σ × Except PyError (Option BudgetAlert) :=
  match assess num rows budget now with
  | .error e => (ev, .error e)
  | .ok a =>
    match a.threshold with
    | none => (ev, .ok none)
    | some threshold =>
      let key := periodKey now budget.period.str
      if Above (store.highestFired ev.state budget.id key) threshold then
        match buildAlert num rows budget now a threshold dashboardUrl with
        | .error e => (ev, .error e)
        | .ok alert =>
          let sent := ev.sent ++ [(alert, send alert)]
          match send alert with
          | .error e => ({ ev with sent := sent }, .error e)
          | .ok _ => (⟨store.recordFired ev.state budget.id key threshold, sent⟩, .ok (some alert))
      else (ev, .ok none)

/-- The budgets that are evaluated.  Weekly and daily ones are stored but skipped. -/
def activeMonthly (budgets : List Budget) : List Budget :=
  budgets.filter fun budget => budget.isActive && budget.period = .monthly

def activeBudget (table : Budgets) (team : String) : Option Budget :=
  table.rows.find? fun b => b.team = team && b.period = .monthly && b.isActive

/-- One turn of the loop of `evaluate_budgets`.  One malformed budget must not
stop the rest. -/
def evaluateNext {σ : Type*} (num : Arith) (store : AlertStateStore σ) (rows : List CostRow)
    (send : BudgetAlert → Except PyError Bool) (now : Moment) (dashboardUrl : Option String)
    (acc : Evaluator σ × List BudgetAlert) (budget : Budget) : Evaluator σ × List BudgetAlert :=
  match evaluateBudget num store rows budget send now dashboardUrl acc.1 with
  | (ev, .ok (some alert)) => (ev, acc.2 ++ [alert])
  | (ev, _) => (ev, acc.2)

def evaluateBudgets {σ : Type*} (num : Arith) (store : AlertStateStore σ) (rows : List CostRow)
    (budgets : List Budget) (send : BudgetAlert → Except PyError Bool) (now : Moment)
    (dashboardUrl : Option String) (ev : Evaluator σ) : Evaluator σ × List BudgetAlert :=
  (activeMonthly budgets).foldl (evaluateNext num store rows send now dashboardUrl) (ev, [])

/-! ### When an alert can be built -/

variable {num : Arith} {rows : List CostRow} {budget : Budget} {now : Moment} {a : Assessment}
  {threshold : ℤ} {url : Option String} {alert : BudgetAlert}

theorem activeBudget_of_mem {table : Budgets} (h : budget ∈ activeMonthly table.rows) :
    activeBudget table budget.team = some budget := by
  obtain ⟨hmem, hactive⟩ := List.mem_filter.mp h
  rw [Bool.and_eq_true, decide_eq_true_eq] at hactive
  cases hfound : activeBudget table budget.team with
  | none =>
    have hno := List.find?_eq_none.mp hfound budget hmem
    rw [hactive.1, hactive.2] at hno
    simp at hno
  | some b =>
    have hb := List.find?_some hfound
    simp only [Bool.and_eq_true, decide_eq_true_eq] at hb
    have hkey : (b.team, b.period) = (budget.team, budget.period) :=
      Prod.ext hb.1.1 (hb.1.2.trans hactive.2.symm)
    rw [List.inj_on_of_nodup_map table.unique (List.mem_of_find?_eq_some hfound) hmem hkey]

def shownText (name : String) (g : CostGroup) : String := (g.key.get? name).getD ""

theorem mapM_label {name : String} {window : Period} {filters : CostFilters}
    {groups l : List CostGroup} (f : String → ℚ → CostDriver)
    (h : costGroups num rows [name] window filters = .ok groups) (hl : l ⊆ groups) :
    (l.mapM fun group : CostGroup => do
      let label ← orRaise (.keyError name) (group.key.get? name)
      return f label group.totalUsd) =
        (.ok (l.map fun group => f (shownText name group) group.totalUsd) :
          Except PyError (List CostDriver)) := by
  refine Batch.mapM_eq_ok_map fun group hg => ?_
  obtain ⟨v, hv⟩ := exists_get?_key h (hl hg) (List.mem_singleton_self name)
  rw [shownText, hv]
  rfl

theorem exists_topDrivers_eq_ok (num : Arith) (rows : List CostRow) (team : String)
    (window : Period) (limit : ℕ) :
    ∃ drivers, topDrivers num rows team window limit = .ok drivers := by
  obtain ⟨groups, hg⟩ : ∃ groups,
      costGroups num rows ["model"] window { teams := [team] } = .ok groups := ⟨_, rfl⟩
  obtain ⟨fallback, hf⟩ : ∃ groups,
      costGroups num rows ["project"] window { teams := [team] } = .ok groups := ⟨_, rfl⟩
  have hd := mapM_label (fun model v => ⟨if model = "" then "untagged resource" else model, v⟩) hg
    (List.filter_sublist (p := fun group : CostGroup => 0 < group.totalUsd)).subset
  have hp := mapM_label CostDriver.mk hf (List.take_subset limit fallback)
  unfold topDrivers
  rw [hg]
  simp only [bind, Except.bind] at hd hp ⊢
  rw [hd]
  dsimp only
  split
  · exact ⟨_, rfl⟩
  · rw [hf]; exact ⟨_, hp⟩

/-- **When an alert can be built**: when its forecast comes out. -/
theorem exists_buildAlert_eq_ok :
    (∃ alert, buildAlert num rows budget now a threshold url = .ok alert) ↔
      AmountsFit num a.spend now a.start a.stop ∧
        BreachFits num a.spend now a.start budget.limitUsd := by
  rw [← exists_buildForecast_eq_ok budget.team, buildAlert, Batch.exists_bind_eq_ok]
  obtain ⟨drivers, hd⟩ := exists_topDrivers_eq_ok num rows budget.team a.window MAX_DRIVERS
  rw [hd]
  exact ⟨fun ⟨f, hf, _⟩ => ⟨f, hf⟩, fun ⟨f, hf⟩ => ⟨f, hf, _, rfl⟩⟩

theorem buildAlert_eq_ok (h : buildAlert num rows budget now a threshold url = .ok alert) :
    alert.budgetId = budget.id ∧ alert.periodKey = periodKey now budget.period.str ∧
      alert.threshold = threshold := by
  unfold buildAlert at h
  cases hf : buildForecast num budget.team a.spend now a.start a.stop (some budget.limitUsd) with
  | error e => rw [hf] at h; cases h
  | ok forecast =>
    cases hd : topDrivers num rows budget.team a.window with
    | error e => rw [hf] at h; simp only [bind, Except.bind, hd] at h; cases h
    | ok drivers =>
      rw [hf] at h
      simp only [bind, Except.bind, hd] at h
      obtain rfl := Except.ok.inj h
      exact ⟨rfl, rfl, rfl⟩

theorem assess_eq_ok (h : assess num rows budget now = .ok a) :
    monthBounds now = .ok (a.start, a.stop) ∧
      Period.make a.start.utc (if a.start.utc < now.utc then now.utc else a.stop.utc) =
        .ok a.window ∧
      a.spend = totalSpend rows a.window { teams := [budget.team] } ∧
      a.utilization = utilizationOf num a.spend budget.limitUsd := by
  unfold assess at h
  obtain ⟨⟨start, stop⟩, hb, h⟩ := Batch.bind_eq_ok.mp h
  obtain ⟨window, hw, h⟩ := Batch.bind_eq_ok.mp h
  obtain ⟨thresholds, _, h⟩ := Batch.bind_eq_ok.mp h
  obtain rfl := Except.ok.inj h
  exact ⟨hb, hw, rfl, rfl⟩

/-! ### What one evaluation can do -/

variable {σ : Type*} {store : AlertStateStore σ} {send : BudgetAlert → Except PyError Bool}
  {ev : Evaluator σ}

def markOf (store : AlertStateStore σ) (ev : Evaluator σ) (budget : Budget) (now : Moment) :
    Option ℤ := store.highestFired ev.state budget.id (periodKey now budget.period.str)

/-- An evaluation that hands `alert` to the notifier. -/
def Announces (num : Arith) (store : AlertStateStore σ) (rows : List CostRow) (budget : Budget)
    (now : Moment) (url : Option String) (ev : Evaluator σ) (alert : BudgetAlert) : Prop :=
  ∃ a, assess num rows budget now = .ok a ∧ a.threshold = some alert.threshold ∧
    Above (markOf store ev budget now) alert.threshold ∧
    buildAlert num rows budget now a alert.threshold url = .ok alert

theorem Announces.fields (h : Announces num store rows budget now url ev alert) :
    alert.budgetId = budget.id ∧ alert.periodKey = periodKey now budget.period.str := by
  obtain ⟨a, _, _, _, hb⟩ := h
  obtain ⟨hid, hkey, _⟩ := buildAlert_eq_ok hb
  exact ⟨hid, hkey⟩

theorem Announces.above (h : Announces num store rows budget now url ev alert) :
    Above (store.highestFired ev.state alert.budgetId alert.periodKey) alert.threshold := by
  obtain ⟨hid, hkey⟩ := h.fields
  obtain ⟨a, _, _, ha, _⟩ := h
  rw [hid, hkey]
  exact ha

/-- The notifier raises: the alert state is as it was. -/
theorem evaluateBudget_of_error (h : Announces num store rows budget now url ev alert)
    {e : PyError} (hs : send alert = .error e) :
    evaluateBudget num store rows budget send now url ev =
      ({ ev with sent := ev.sent ++ [(alert, send alert)] }, .error e) := by
  obtain ⟨a, ha, ht, hm, hb⟩ := h
  unfold markOf at hm
  simp only [evaluateBudget, ha, ht, hb, if_pos hm, hs]

/-- The notifier answers: the threshold is recorded, whatever the answer. -/
theorem evaluateBudget_of_ok (h : Announces num store rows budget now url ev alert)
    {sent : Bool} (hs : send alert = .ok sent) :
    evaluateBudget num store rows budget send now url ev =
      (⟨store.recordFired ev.state alert.budgetId alert.periodKey alert.threshold,
        ev.sent ++ [(alert, send alert)]⟩, .ok (some alert)) := by
  obtain ⟨hid, hkey⟩ := h.fields
  obtain ⟨a, ha, ht, hm, hb⟩ := h
  unfold markOf at hm
  simp only [evaluateBudget, ha, ht, hb, if_pos hm, hs, hid, hkey]

/-- Nothing is announced: nothing changes. -/
theorem evaluateBudget_of_quiet (h : ∀ alert, ¬ Announces num store rows budget now url ev alert) :
    (evaluateBudget num store rows budget send now url ev).1 = ev := by
  unfold evaluateBudget
  cases ha : assess num rows budget now with
  | error e => rfl
  | ok a =>
    cases ht : a.threshold with
    | none => simp only [ht]
    | some threshold =>
      simp only [ht]
      split
      · rename_i hm
        cases hb : buildAlert num rows budget now a threshold url with
        | error e => rfl
        | ok alert =>
          obtain rfl := (buildAlert_eq_ok hb).2.2
          exact absurd ⟨a, ha, ht, hm, hb⟩ (h alert)
      · rfl

theorem forecast_of_buildAlert
    (h : buildAlert num rows budget now a threshold url = .ok alert) :
    ∃ f drivers, buildForecast num budget.team a.spend now a.start a.stop (some budget.limitUsd) =
      .ok f ∧ alert = {
        team := budget.team
        budgetId := budget.id
        threshold := threshold
        periodKey := periodKey now budget.period.str
        periodStart := a.start
        periodEnd := a.stop
        spendToDate := a.spend
        budgetLimit := budget.limitUsd
        utilization := a.utilization
        projectedTotal := f.projectedTotal
        breachDate := f.breachDate
        drivers := drivers
        dashboardUrl := url } := by
  unfold buildAlert at h
  obtain ⟨f, hf, h⟩ := Batch.bind_eq_ok.mp h
  obtain ⟨drivers, _, h⟩ := Batch.bind_eq_ok.mp h
  exact ⟨f, drivers, hf, (Except.ok.inj h).symm⟩

theorem announces_of_eq_ok
    (h : (evaluateBudget num store rows budget send now url ev).2 = .ok (some alert)) :
    Announces num store rows budget now url ev alert := by
  by_contra hno
  unfold evaluateBudget at h
  cases ha : assess num rows budget now with
  | error e =>
    rw [ha] at h
    cases h
  | ok a =>
    cases ht : a.threshold with
    | none =>
      simp only [ha, ht] at h
      cases h
    | some threshold =>
      simp only [ha, ht] at h
      split at h
      · rename_i hm
        cases hb : buildAlert num rows budget now a threshold url with
        | error e =>
          rw [hb] at h
          cases h
        | ok found =>
          simp only [hb] at h
          obtain rfl := (buildAlert_eq_ok hb).2.2
          cases hs : send found with
          | error e =>
            simp only [hs] at h
            cases h
          | ok sent =>
            simp only [hs] at h
            obtain rfl := Option.some.inj (Except.ok.inj h)
            exact hno ⟨a, ha, ht, hm, hb⟩
      · cases h

def august16 : Moment where
  clock := 63922478400000000
  clock_lt := by decide
  offset_lt := zero_offset_lt

def spent (id : ℕ) (amount : ℚ) : CostRow where
  source := .llm
  dedupKey := toString id
  occurredAt := 63922000000000000
  amountUsd := amount
  team := "research"
  id := id

def research (limit : ℚ) (thresholds : List ℤ) : Budget where
  id := 1
  team := "research"
  limitUsd := limit
  alertThresholds := some thresholds

example : (evaluateBudgets .exact InMemoryAlertState [spent 0 85] [research 100 [80, 100]]
    CollectingNotifier.send august16 none (.fresh InMemoryAlertState)).2.map (·.threshold) =
      [80] := by
  decide +kernel

end Finops
