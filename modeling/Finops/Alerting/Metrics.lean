import Finops.Base.Run
import Finops.Alerting.Failures

/-!
# The budget gauge and the alert counter

`evaluate_budget` sets the utilisation gauge of the team as soon as it has the spend,
whether or not anything fires, and counts an alert when it has been recorded.  A
`Monitor` is an evaluator with these metrics; the evaluator in it does what it does
without them (`monitorBudgets_evaluator`).

Teams that have more than one active monthly budget would write one gauge in turn, but
the table does not hold such budgets.  So what the gauge of a team shows is the
utilisation that the last cycle with a budget of the team has read, an alert shows what
the gauge shows, and the counters add up to the alerts (`metrics_reconcile`).
-/

namespace Finops

open Numerics Calendar Runs

/-- `BUDGET_UTILIZATION` and `ALERTS_FIRED`. -/
structure BudgetMetrics where
  utilization : Dict String ℚ
  fired : Dict (String × String) ℕ

/-- An evaluator in a process that exports its metrics. -/
structure Monitor (σ : Type*) where
  evaluator : Evaluator σ
  metrics : BudgetMetrics

def Monitor.fresh {σ : Type*} (store : AlertStateStore σ) : Monitor σ :=
  ⟨.fresh store, Dict.empty, Dict.empty⟩

/-- `ALERTS_FIRED.labels(team=..., threshold=str(threshold)).inc()`. -/
def BudgetMetrics.incFired (metrics : BudgetMetrics) (team : String) (threshold : ℤ) :
    BudgetMetrics where
  utilization := metrics.utilization
  fired := metrics.fired.set (team, toString threshold)
    (metrics.fired.getD (team, toString threshold) 0 + 1)

def BudgetMetrics.setUtilization (metrics : BudgetMetrics) (team : String) (v : ℚ) :
    BudgetMetrics where
  utilization := metrics.utilization.set team v
  fired := metrics.fired

section

variable {σ : Type*} (num : Arith) (store : AlertStateStore σ) (rows : List CostRow)
  (send : BudgetAlert → Except PyError Bool) (now : Moment) (url : Option String)

/-- `evaluate_budget` with its metrics. -/
def monitorBudget (budget : Budget) (m : Monitor σ) :
    Monitor σ × Except PyError (Option BudgetAlert) :=
  match spendWindow now with
  | .error e => (m, .error e)
  | .ok window =>
    let spend := totalSpend rows window { teams := [budget.team] }
    let metrics := m.metrics.setUtilization budget.team (utilizationOf num spend budget.limitUsd)
    match evaluateBudget num store rows budget send now url m.evaluator with
    | (ev, .ok (some alert)) =>
      (⟨ev, metrics.incFired budget.team alert.threshold⟩, .ok (some alert))
    | (ev, result) => (⟨ev, metrics⟩, result)

def monitorNext (acc : Monitor σ × List BudgetAlert) (budget : Budget) :
    Monitor σ × List BudgetAlert :=
  match monitorBudget num store rows send now url budget acc.1 with
  | (m, .ok (some alert)) => (m, acc.2 ++ [alert])
  | (m, _) => (m, acc.2)

def monitorBudgets (budgets : List Budget) (m : Monitor σ) : Monitor σ × List BudgetAlert :=
  (activeMonthly budgets).foldl (monitorNext num store rows send now url) (m, [])

end

structure MonitorCycle where
  rows : List CostRow
  table : Budgets
  now : Moment
  dashboardUrl : Option String
  send : BudgetAlert → Except PyError Bool

structure Monitored (σ : Type*) where
  monitor : Monitor σ
  history : List (MonitorCycle × List BudgetAlert)

def Monitored.run {σ : Type*} (num : Arith) (store : AlertStateStore σ) (s : Monitored σ)
    (c : MonitorCycle) : Monitored σ :=
  let out := monitorBudgets num store c.rows c.send c.now c.dashboardUrl c.table.rows s.monitor
  ⟨out.1, s.history ++ [(c, out.2)]⟩

/-- What a cycle reads as the utilisation of a team. -/
def MonitorCycle.reading (num : Arith) (c : MonitorCycle) (team : String) : Option ℚ :=
  match spendWindow c.now with
  | .error _ => none
  | .ok window => (activeBudget c.table team).map fun budget =>
    utilizationOf num (totalSpend c.rows window { teams := [team] }) budget.limitUsd

/-! ### One evaluation -/

section Evaluation

variable {σ : Type*} {num : Arith} {store : AlertStateStore σ} {rows : List CostRow}
  {send : BudgetAlert → Except PyError Bool} {now : Moment} {url : Option String}
  {budget : Budget} {m : Monitor σ}

def raisedBy : Except PyError (Option BudgetAlert) → List BudgetAlert
  | .ok (some alert) => [alert]
  | _ => []

def metricsAfter (num : Arith) (rows : List CostRow) (now : Moment) (budget : Budget)
    (metrics : BudgetMetrics) (result : Except PyError (Option BudgetAlert)) : BudgetMetrics :=
  match spendWindow now with
  | .error _ => metrics
  | .ok window => (raisedBy result).foldl
      (fun metrics alert => metrics.incFired budget.team alert.threshold)
      (metrics.setUtilization budget.team
        (utilizationOf num (totalSpend rows window { teams := [budget.team] }) budget.limitUsd))

/-- **One evaluation with its metrics** is the evaluation, and the metrics by its result. -/
theorem monitorBudget_eq : monitorBudget num store rows send now url budget m =
    (⟨(evaluateBudget num store rows budget send now url m.evaluator).1,
        metricsAfter num rows now budget m.metrics
          (evaluateBudget num store rows budget send now url m.evaluator).2⟩,
      (evaluateBudget num store rows budget send now url m.evaluator).2) := by
  unfold monitorBudget metricsAfter
  cases hw : spendWindow now with
  | error e =>
    have hev : evaluateBudget num store rows budget send now url m.evaluator =
        (m.evaluator, .error e) := by
      unfold evaluateBudget
      rw [assess_of_spendWindow hw]
    rw [hev]
  | ok window =>
    dsimp only
    cases evaluateBudget num store rows budget send now url m.evaluator with
    | mk ev result =>
      cases result with
      | error e => rfl
      | ok found => cases found <;> rfl

theorem fields_of_alert {ev : Evaluator σ} {alert : BudgetAlert}
    (h : (evaluateBudget num store rows budget send now url ev).2 = .ok (some alert)) :
    alert.team = budget.team ∧ ∃ window, spendWindow now = .ok window ∧ alert.utilization =
      utilizationOf num (totalSpend rows window { teams := [budget.team] }) budget.limitUsd := by
  obtain ⟨a, ha, _, _, hb⟩ := announces_of_eq_ok h
  obtain ⟨f, drivers, _, heq⟩ := forecast_of_buildAlert hb
  obtain ⟨hbounds, hwindow, hspend, hutil⟩ := assess_eq_ok ha
  refine ⟨congrArg BudgetAlert.team heq, a.window, ?_, ?_⟩
  · unfold spendWindow
    rw [hbounds]
    exact hwindow
  · rw [congrArg BudgetAlert.utilization heq, ← hspend, ← hutil]

/-- What an evaluation of a budget writes into the gauge of a team. -/
def gaugeOf (num : Arith) (rows : List CostRow) (now : Moment) (budget : Budget)
    (team : String) : Option ℚ :=
  if budget.team = team then
    match spendWindow now with
    | .error _ => none
    | .ok window => some (utilizationOf num (totalSpend rows window { teams := [budget.team] })
        budget.limitUsd)
  else none

theorem utilization_metricsAfter (metrics : BudgetMetrics)
    (result : Except PyError (Option BudgetAlert)) (team : String) :
    (metricsAfter num rows now budget metrics result).utilization.get? team =
      (gaugeOf num rows now budget team).or (metrics.utilization.get? team) := by
  unfold metricsAfter gaugeOf
  cases spendWindow now with
  | error e =>
    dsimp only
    rw [ite_self]
    rfl
  | ok window =>
    have hfired : ∀ (l : List BudgetAlert) (metrics : BudgetMetrics), (l.foldl
        (fun metrics alert => metrics.incFired budget.team alert.threshold) metrics).utilization =
          metrics.utilization := by
      intro l
      induction l with
      | nil => intro metrics; rfl
      | cons alert l ih => intro metrics; exact ih _
    dsimp only
    rw [hfired, BudgetMetrics.setUtilization]
    by_cases hteam : budget.team = team
    · rw [if_pos hteam, ← hteam, Dict.get?_set_self]
      rfl
    · rw [if_neg hteam, Dict.get?_set_of_ne _ (Ne.symm hteam)]
      rfl

def countAlerts (team : String) (threshold : ℤ) (alerts : List BudgetAlert) : ℕ :=
  alerts.countP fun alert => alert.team = team && alert.threshold = threshold

theorem fired_metricsAfter {ev : Evaluator σ} (metrics : BudgetMetrics) (team : String)
    (threshold : ℤ) :
    (metricsAfter num rows now budget metrics
        (evaluateBudget num store rows budget send now url ev).2).fired.getD
          (team, toString threshold) 0 =
      metrics.fired.getD (team, toString threshold) 0 + countAlerts team threshold
        (raisedBy (evaluateBudget num store rows budget send now url ev).2) := by
  unfold metricsAfter
  cases hw : spendWindow now with
  | error e =>
    have hev : evaluateBudget num store rows budget send now url ev = (ev, .error e) := by
      unfold evaluateBudget
      rw [assess_of_spendWindow hw]
    rw [hev]
    rfl
  | ok window =>
    cases hr : (evaluateBudget num store rows budget send now url ev).2 with
    | error e => rfl
    | ok found =>
      cases found with
      | none => rfl
      | some alert =>
        dsimp only [raisedBy, List.foldl_cons, List.foldl_nil, BudgetMetrics.incFired,
          BudgetMetrics.setUtilization, countAlerts]
        rw [List.countP_singleton, (fields_of_alert hr).1]
        unfold Dict.getD
        by_cases hkey : (team, toString threshold) = (budget.team, toString alert.threshold)
        · obtain ⟨hteam, htext⟩ := Prod.mk.inj hkey
          have hthreshold := Text.toString_injective htext
          rw [hkey, Dict.get?_set_self, hteam, hthreshold]
          simp
        · have hno : ¬ (decide (budget.team = team) && decide (alert.threshold = threshold)) =
              true := by
            rw [Bool.and_eq_true, decide_eq_true_eq, decide_eq_true_eq]
            rintro ⟨rfl, rfl⟩
            exact hkey rfl
          rw [Dict.get?_set_of_ne _ hkey, if_neg hno, Nat.add_zero]

end Evaluation

/-! ### One cycle -/

section Cycle

variable {σ : Type*} {num : Arith} {store : AlertStateStore σ} {rows : List CostRow}
  {send : BudgetAlert → Except PyError Bool} {now : Moment} {url : Option String}

theorem evaluateNext_eq (acc : Evaluator σ × List BudgetAlert) (budget : Budget) :
    evaluateNext num store rows send now url acc budget =
      ((evaluateBudget num store rows budget send now url acc.1).1,
        acc.2 ++ raisedBy (evaluateBudget num store rows budget send now url acc.1).2) := by
  unfold evaluateNext
  cases evaluateBudget num store rows budget send now url acc.1 with
  | mk ev result =>
    cases result with
    | error e => exact Prod.ext rfl (List.append_nil acc.2).symm
    | ok found =>
      cases found with
      | none => exact Prod.ext rfl (List.append_nil acc.2).symm
      | some alert => rfl

theorem monitorNext_eq (acc : Monitor σ × List BudgetAlert) (budget : Budget) :
    monitorNext num store rows send now url acc budget =
      (⟨(evaluateBudget num store rows budget send now url acc.1.evaluator).1,
          metricsAfter num rows now budget acc.1.metrics
            (evaluateBudget num store rows budget send now url acc.1.evaluator).2⟩,
        acc.2 ++ raisedBy (evaluateBudget num store rows budget send now url acc.1.evaluator).2) :=
    by
  unfold monitorNext
  rw [monitorBudget_eq]
  cases (evaluateBudget num store rows budget send now url acc.1.evaluator).2 with
  | error e => exact Prod.ext rfl (List.append_nil acc.2).symm
  | ok found =>
    cases found with
    | none => exact Prod.ext rfl (List.append_nil acc.2).symm
    | some alert => rfl

/-- **The metrics change nothing**: a cycle leaves the evaluator as it would without them,
and returns the same alerts. -/
theorem monitorBudgets_evaluator (budgets : List Budget) (m : Monitor σ) :
    ((monitorBudgets num store rows send now url budgets m).1.evaluator,
        (monitorBudgets num store rows send now url budgets m).2) =
      evaluateBudgets num store rows budgets send now url m.evaluator := by
  have hstep : ∀ (acc : Monitor σ × List BudgetAlert) (acc' : Evaluator σ × List BudgetAlert)
      (budget : Budget), (acc.1.evaluator, acc.2) = acc' →
        ((monitorNext num store rows send now url acc budget).1.evaluator,
          (monitorNext num store rows send now url acc budget).2) =
            evaluateNext num store rows send now url acc' budget := by
    rintro acc _ budget rfl
    rw [monitorNext_eq, evaluateNext_eq]
  exact @related _ _ _ (monitorNext num store rows send now url)
    (evaluateNext num store rows send now url) (fun acc acc' => (acc.1.evaluator, acc.2) = acc')
    hstep _ _ _ rfl

theorem countAlerts_append (team : String) (threshold : ℤ) (l l' : List BudgetAlert) :
    countAlerts team threshold (l ++ l') =
      countAlerts team threshold l + countAlerts team threshold l' := List.countP_append ..

theorem fired_monitorBudgets (budgets : List Budget) (m : Monitor σ) (team : String)
    (threshold : ℤ) :
    (monitorBudgets num store rows send now url budgets m).1.metrics.fired.getD
        (team, toString threshold) 0 =
      m.metrics.fired.getD (team, toString threshold) 0 + countAlerts team threshold
        (monitorBudgets num store rows send now url budgets m).2 := by
  have hstep : ∀ (acc : Monitor σ × List BudgetAlert) budget,
      acc.1.metrics.fired.getD (team, toString threshold) 0 =
        m.metrics.fired.getD (team, toString threshold) 0 + countAlerts team threshold acc.2 →
      (monitorNext num store rows send now url acc budget).1.metrics.fired.getD
          (team, toString threshold) 0 =
        m.metrics.fired.getD (team, toString threshold) 0 + countAlerts team threshold
          (monitorNext num store rows send now url acc budget).2 := by
    intro acc budget h
    rw [monitorNext_eq]
    dsimp only
    rw [fired_metricsAfter, h, countAlerts_append, Nat.add_assoc]
  exact invariant hstep rfl

theorem nodup_teams (table : Budgets) :
    ((activeMonthly table.rows).map Budget.team).Nodup := by
  have hsub : ((activeMonthly table.rows).map fun b => (b.team, b.period)).Nodup :=
    table.unique.sublist (List.filter_sublist.map _)
  have hmap : (activeMonthly table.rows).map (fun b => (b.team, b.period)) =
      ((activeMonthly table.rows).map Budget.team).map fun team => (team, .monthly) := by
    rw [List.map_map]
    refine List.map_congr_left fun b hb => Prod.ext rfl ?_
    have hactive := (List.mem_filter.mp hb).2
    rw [Bool.and_eq_true, decide_eq_true_eq] at hactive
    exact hactive.2
  rw [hmap] at hsub
  exact hsub.of_map _

theorem filterMap_gaugeOf (num : Arith) (rows : List CostRow) (now : Moment) (team : String)
    {l : List Budget} (h : (l.map Budget.team).Nodup) :
    l.filterMap (fun budget => gaugeOf num rows now budget team) =
      ((l.find? fun budget => budget.team = team).bind fun budget =>
        gaugeOf num rows now budget team).toList := by
  induction l with
  | nil => rfl
  | cons b l ih =>
    rw [List.map_cons, List.nodup_cons] at h
    by_cases hb : b.team = team
    · have hrest : l.filterMap (fun budget => gaugeOf num rows now budget team) = [] := by
        refine List.filterMap_eq_nil_iff.mpr fun q hq => if_neg fun he => ?_
        exact h.1 (hb.trans he.symm ▸ List.mem_map_of_mem hq)
      have hfound : ((b :: l).find? fun budget => budget.team = team) = some b := by simp [hb]
      rw [hfound, List.filterMap_cons, hrest]
      cases hv : gaugeOf num rows now b team with
      | none => rw [Option.bind_some, hv]; rfl
      | some v => rw [Option.bind_some, hv]; rfl
    · have hno : gaugeOf num rows now b team = none := if_neg hb
      rw [List.find?_cons_of_neg (by simpa using hb), List.filterMap_cons, hno, ih h.2]

theorem find?_activeMonthly (table : Budgets) (team : String) :
    ((activeMonthly table.rows).find? fun budget => budget.team = team) =
      activeBudget table team := by
  unfold activeMonthly activeBudget
  rw [List.find?_filter]
  congr 1
  funext b
  simp only [Bool.and_eq_true, decide_eq_true_eq, Bool.decide_and, Bool.decide_eq_true]
  cases b.isActive <;> simp [Bool.and_comm]

theorem gauge_run (s : Monitored σ) (c : MonitorCycle) (team : String) :
    (s.run num store c).monitor.metrics.utilization.get? team =
      (c.reading num team).or (s.monitor.metrics.utilization.get? team) := by
  have hstep : ∀ (acc : Monitor σ × List BudgetAlert) budget team,
      (monitorNext num store c.rows c.send c.now c.dashboardUrl acc
        budget).1.metrics.utilization.get? team =
          (gaugeOf num c.rows c.now budget team).or (acc.1.metrics.utilization.get? team) := by
    intro acc budget team
    rw [monitorNext_eq]
    exact utilization_metricsAfter ..
  have hafter := @view_after_eq_getLast? _ _ _ _
    (monitorNext num store c.rows c.send c.now c.dashboardUrl)
    (fun acc team => acc.1.metrics.utilization.get? team) (gaugeOf num c.rows c.now) hstep team
    (activeMonthly c.table.rows) (s.monitor, [])
  refine hafter.trans (congrArg (fun v => Option.or v _) ?_)
  rw [filterMap_gaugeOf num c.rows c.now team (nodup_teams c.table), find?_activeMonthly]
  unfold MonitorCycle.reading gaugeOf
  cases hb : activeBudget c.table team with
  | none => cases spendWindow c.now <;> rfl
  | some budget =>
    have hteam : budget.team = team := by
      have hfound := List.find?_some hb
      simp only [Bool.and_eq_true, decide_eq_true_eq] at hfound
      exact hfound.1.1
    rw [Option.bind_some, if_pos hteam, hteam]
    cases spendWindow c.now <;> rfl

theorem reading_of_alert {c : MonitorCycle} {ev : Evaluator σ} {budget : Budget}
    {alert : BudgetAlert} (hb : budget ∈ activeMonthly c.table.rows)
    (h : (evaluateBudget num store c.rows budget c.send c.now c.dashboardUrl ev).2 =
      .ok (some alert)) : c.reading num alert.team = some alert.utilization := by
  obtain ⟨hteam, window, hw, hutil⟩ := fields_of_alert h
  unfold MonitorCycle.reading
  rw [hteam, hw, activeBudget_of_mem hb, hutil]
  rfl

structure CycleAlerts (num : Arith) (c : MonitorCycle) (alerts : List BudgetAlert) : Prop where
  shown : ∀ alert ∈ alerts, c.reading num alert.team = some alert.utilization
  once : (alerts.map BudgetAlert.team).Nodup

theorem cycleAlerts (s : Monitored σ) (c : MonitorCycle) :
    CycleAlerts num c (monitorBudgets num store c.rows c.send c.now c.dashboardUrl c.table.rows
      s.monitor).2 := by
  -- the alerts so far show what was read, and their teams are some of those that had their turn
  have hfold : ∀ (l : List Budget) (acc : Monitor σ × List BudgetAlert),
      l ⊆ activeMonthly c.table.rows →
      (∀ alert ∈ acc.2, c.reading num alert.team = some alert.utilization) →
      (∀ alert ∈ (l.foldl (monitorNext num store c.rows c.send c.now c.dashboardUrl) acc).2,
        c.reading num alert.team = some alert.utilization) ∧
      ∃ teams, teams.Sublist (l.map Budget.team) ∧
        (l.foldl (monitorNext num store c.rows c.send c.now c.dashboardUrl) acc).2.map
          BudgetAlert.team = acc.2.map BudgetAlert.team ++ teams := by
    intro l
    induction l with
    | nil => intro acc _ h; exact ⟨h, [], List.Sublist.slnil, (List.append_nil _).symm⟩
    | cons budget l ih =>
      intro acc hl h
      rw [List.foldl_cons, monitorNext_eq]
      have hnew : ∀ alert ∈ raisedBy (evaluateBudget num store c.rows budget c.send c.now
          c.dashboardUrl acc.1.evaluator).2, (evaluateBudget num store c.rows budget c.send c.now
            c.dashboardUrl acc.1.evaluator).2 = .ok (some alert) := by
        intro alert ha
        unfold raisedBy at ha
        split at ha
        · rename_i raised hr
          rw [hr, List.mem_singleton.mp ha]
        · cases ha
      obtain ⟨hshown, teams, hteams, hmap⟩ := ih
        (⟨_, metricsAfter num c.rows c.now budget acc.1.metrics _⟩, acc.2 ++ raisedBy _)
        (List.subset_of_cons_subset hl) fun alert ha => by
          rcases List.mem_append.mp ha with ha | ha
          · exact h alert ha
          · exact reading_of_alert (hl List.mem_cons_self) (hnew alert ha)
      refine ⟨hshown, ?_⟩
      rw [hmap, List.map_append, List.append_assoc]
      cases hr : (evaluateBudget num store c.rows budget c.send c.now c.dashboardUrl
          acc.1.evaluator).2 with
      | error e => exact ⟨teams, hteams.cons _, rfl⟩
      | ok found =>
        cases found with
        | none => exact ⟨teams, hteams.cons _, rfl⟩
        | some alert =>
          refine ⟨budget.team :: teams, hteams.cons_cons _, ?_⟩
          rw [raisedBy, List.map_singleton, (fields_of_alert hr).1]
          rfl
  obtain ⟨hshown, teams, hteams, hmap⟩ := hfold (activeMonthly c.table.rows) (s.monitor, [])
    (List.Subset.refl _) fun _ h => absurd h List.not_mem_nil
  have hall : (monitorBudgets num store c.rows c.send c.now c.dashboardUrl c.table.rows
      s.monitor).2.map BudgetAlert.team = teams := hmap
  exact ⟨hshown, hall ▸ (nodup_teams c.table).sublist hteams⟩

end Cycle

/-! ### Every run -/

/-- What the metrics and the alerts of a process come to. -/
structure Reconciles {σ : Type*} (num : Arith) (s : Monitored σ) : Prop where
  gauge : ∀ team, s.monitor.metrics.utilization.get? team =
    (s.history.filterMap fun x => x.1.reading num team).getLast?
  fired : ∀ team threshold, s.monitor.metrics.fired.getD (team, toString threshold) 0 =
    countAlerts team threshold (s.history.flatMap Prod.snd)
  alerts : ∀ x ∈ s.history, CycleAlerts num x.1 x.2

variable {σ : Type*} {num : Arith} {store : AlertStateStore σ}

theorem Reconciles.run {s : Monitored σ} (h : Reconciles num s) (c : MonitorCycle) :
    Reconciles num (s.run num store c) where
  gauge team := by
    rw [gauge_run, h.gauge]
    unfold Monitored.run
    rw [List.filterMap_append, List.getLast?_append, List.filterMap_cons]
    cases c.reading num team <;> rfl
  fired team threshold := by
    refine (fired_monitorBudgets c.table.rows s.monitor team threshold).trans ?_
    rw [h.fired]
    unfold Monitored.run
    rw [List.flatMap_append, countAlerts_append, List.flatMap_singleton]
  alerts x hx := by
    rcases List.mem_append.mp hx with hx | hx
    · exact h.alerts x hx
    · rw [List.mem_singleton.mp hx]
      exact cycleAlerts s c

def plainRun (num : Arith) (store : AlertStateStore σ)
    (s : Evaluator σ × List (MonitorCycle × List BudgetAlert)) (c : MonitorCycle) :
    Evaluator σ × List (MonitorCycle × List BudgetAlert) :=
  let out := evaluateBudgets num store c.rows c.table.rows c.send c.now c.dashboardUrl s.1
  (out.1, s.2 ++ [(c, out.2)])

/-- **The metrics reconcile with the alerts.**  In every run the evaluator does what it does
without them.  The gauge of a team shows what the last cycle with a budget of the team has
read; a counter is the number of alerts of its team and threshold; an alert shows what its
cycle has read, and no cycle has two alerts about one team. -/
theorem metrics_reconcile (num : Arith) (store : AlertStateStore σ) (cs : List MonitorCycle) :
    let s := after (Monitored.run num store) ⟨.fresh store, []⟩ cs
    (s.monitor.evaluator, s.history) = after (plainRun num store) (.fresh store, []) cs ∧
      Reconciles num s := by
  have hstep : ∀ (s : Monitored σ) t c, (s.monitor.evaluator, s.history) = t →
      ((s.run num store c).monitor.evaluator, (s.run num store c).history) =
        plainRun num store t c := by
    rintro s _ c rfl
    have hcycle := @monitorBudgets_evaluator _ num store c.rows c.send c.now c.dashboardUrl
      c.table.rows s.monitor
    unfold plainRun
    rw [← hcycle]
    rfl
  refine ⟨related hstep rfl, ?_⟩
  refine invariant (fun s c h => h.run c) ⟨fun team => rfl, fun team threshold => rfl, ?_⟩
  exact fun x hx => absurd hx List.not_mem_nil

end Finops
