import Finops.Base.Run
import Finops.Alerting.Evaluator

/-!
# Undelivered alerts

An alert is delivered when the notifier answers True.  Where no undelivered alert
is marked as announced, every mark is at most a delivered
threshold (`MarksDelivered`), and so a crossed threshold above every delivered
one is sent again (`Retries`).

`evaluateBudget` does not look at the answer.  `marks_delivered_iff` says in
which runs this holds all the same: those in which the notifier never
answers False.  What carries the other direction is that every answered alert is
recorded (`Recorded`), so that after a False the mark is above all that was
delivered.
-/

namespace Finops

open Numerics Calendar HighWater Runs

/-- One call of `evaluate_budget`, with what it reads and how the notifier
answers. -/
structure Evaluation where
  rows : List CostRow
  budget : Budget
  now : Moment
  dashboardUrl : Option String := none
  send : BudgetAlert → Except PyError Bool

namespace Evaluation

/-- The budget and the period that an evaluation is about. -/
def key (e : Evaluation) : String := periodKey e.now e.budget.period.str

end Evaluation

def evaluate {σ : Type*} (num : Arith) (store : AlertStateStore σ) (ev : Evaluator σ)
    (e : Evaluation) : Evaluator σ :=
  (evaluateBudget num store e.rows e.budget e.send e.now e.dashboardUrl ev).1

def Evaluation.Sends {σ : Type*} (num : Arith) (store : AlertStateStore σ) (ev : Evaluator σ)
    (e : Evaluation) (alert : BudgetAlert) : Prop :=
  Announces num store e.rows e.budget e.now e.dashboardUrl ev alert

/-- An alert for this threshold was sent and the notifier answered True. -/
def Delivered {σ : Type*} (ev : Evaluator σ) (id : ℤ) (key : String) (t : ℤ) : Prop :=
  ∃ alert, (alert, .ok true) ∈ ev.sent ∧ alert.budgetId = id ∧ alert.periodKey = key ∧
    alert.threshold = t

/-- **Undelivered is not announced**: a mark is at most a delivered threshold. -/
def MarksDelivered {σ : Type*} (store : AlertStateStore σ) (ev : Evaluator σ) : Prop :=
  ∀ id key, ∀ m ∈ store.highestFired ev.state id key, ∃ t, Delivered ev id key t ∧ m ≤ t

/-- A crossed threshold above all that was delivered is sent. -/
def Retries {σ : Type*} (num : Arith) (store : AlertStateStore σ) (ev : Evaluator σ) : Prop :=
  ∀ (e : Evaluation) (a : Assessment) (t : ℤ) (alert : BudgetAlert),
    assess num e.rows e.budget e.now = .ok a → a.threshold = some t →
    buildAlert num e.rows e.budget e.now a t e.dashboardUrl = .ok alert →
    (∀ d, Delivered ev e.budget.id e.key d → d < t) →
      (evaluate num store ev e).sent = ev.sent ++ [(alert, e.send alert)]

def Recorded {σ : Type*} (store : AlertStateStore σ) (ev : Evaluator σ) : Prop :=
  ∀ alert b, (alert, .ok b) ∈ ev.sent →
    ∃ m ∈ store.highestFired ev.state alert.budgetId alert.periodKey, alert.threshold ≤ m

variable {σ : Type*} {num : Arith} {store : AlertStateStore σ} {ev : Evaluator σ} {e : Evaluation}
  {alert : BudgetAlert}

theorem sent_evaluate (h : e.Sends num store ev alert) :
    (evaluate num store ev e).sent = ev.sent ++ [(alert, e.send alert)] := by
  unfold evaluate
  cases hs : e.send alert with
  | error x => rw [evaluateBudget_of_error h hs, hs]
  | ok b => rw [evaluateBudget_of_ok h hs, hs]

theorem state_evaluate_of_error {x : PyError} (h : e.Sends num store ev alert)
    (hs : e.send alert = .error x) : (evaluate num store ev e).state = ev.state := by
  rw [evaluate, evaluateBudget_of_error h hs]

theorem state_evaluate_of_ok {b : Bool} (h : e.Sends num store ev alert)
    (hs : e.send alert = .ok b) : (evaluate num store ev e).state =
      store.recordFired ev.state alert.budgetId alert.periodKey alert.threshold := by
  rw [evaluate, evaluateBudget_of_ok h hs]

theorem evaluate_of_quiet (h : ∀ alert, ¬ e.Sends num store ev alert) :
    evaluate num store ev e = ev := evaluateBudget_of_quiet h

theorem Delivered.evaluate {id : ℤ} {key : String} {t : ℤ} (h : Delivered ev id key t) :
    Delivered (evaluate num store ev e) id key t := by
  obtain ⟨d, hd, hf⟩ := h
  by_cases hq : ∃ alert, e.Sends num store ev alert
  · obtain ⟨alert, ha⟩ := hq
    exact ⟨d, by rw [sent_evaluate ha]; exact List.mem_append_left _ hd, hf⟩
  · rw [evaluate_of_quiet (not_exists.mp hq)]
    exact ⟨d, hd, hf⟩

theorem retries_of_marksDelivered (h : MarksDelivered store ev) : Retries num store ev := by
  intro e a t alert ha ht hb hnew
  obtain rfl := (buildAlert_eq_ok hb).2.2
  refine sent_evaluate ⟨a, ha, ht, fun m hm => ?_, hb⟩
  obtain ⟨d, hd, hle⟩ := h e.budget.id e.key m hm
  exact hle.trans_lt (hnew d hd)

/-- **One evaluation** records what was answered. -/
theorem Recorded.evaluate (h : Recorded store ev) : Recorded store (evaluate num store ev e) := by
  by_cases hq : ∃ alert, e.Sends num store ev alert
  swap
  · rw [evaluate_of_quiet (not_exists.mp hq)]
    exact h
  obtain ⟨alert, ha⟩ := hq
  intro d b hd
  rw [sent_evaluate ha, List.mem_append, List.mem_singleton] at hd
  cases hs : e.send alert with
  | error x =>
    rw [state_evaluate_of_error ha hs]
    rcases hd with hd | hd
    · exact h d b hd
    · rw [hs] at hd
      cases (Prod.mk.inj hd).2
  | ok b' =>
    rw [state_evaluate_of_ok ha hs]
    rcases hd with hd | hd
    · obtain ⟨m, hm, hle⟩ := h d b hd
      obtain ⟨m', hm', hle'⟩ := AlertStateStore.exists_le_of_mem hm
      exact ⟨m', hm', hle.trans hle'⟩
    · obtain rfl := (Prod.mk.inj hd).1
      exact AlertStateStore.exists_le_recordFired

/-- **One evaluation** that is not answered False keeps every mark delivered. -/
theorem MarksDelivered.evaluate (h : MarksDelivered store ev)
    (hsend : ∀ alert, e.Sends num store ev alert → e.send alert ≠ .ok false) :
    MarksDelivered store (evaluate num store ev e) := by
  by_cases hq : ∃ alert, e.Sends num store ev alert
  swap
  · rw [evaluate_of_quiet (not_exists.mp hq)]
    exact h
  obtain ⟨alert, ha⟩ := hq
  intro id key m hm
  have hold : m ∈ store.highestFired ev.state id key →
      ∃ t, Delivered (Finops.evaluate num store ev e) id key t ∧ m ≤ t := by
    intro hm
    obtain ⟨t, ht, hle⟩ := h id key m hm
    exact ⟨t, ht.evaluate, hle⟩
  cases hs : e.send alert with
  | error x =>
    rw [state_evaluate_of_error ha hs] at hm
    exact hold hm
  | ok b =>
    rw [state_evaluate_of_ok ha hs] at hm
    rcases AlertStateStore.eq_or_mem_of_mem_recordFired hm with ⟨hk, rfl⟩ | hm
    · obtain ⟨rfl, rfl⟩ := Prod.mk.inj hk
      have hb : b = true := by
        cases b with
        | true => rfl
        | false => exact absurd hs (hsend alert ha)
      subst hb
      refine ⟨_, ⟨alert, ?_, rfl, rfl, rfl⟩, le_refl _⟩
      rw [sent_evaluate ha, hs]
      exact List.mem_append_right _ (List.mem_singleton_self _)
    · exact hold hm

/-- **A False is marked all the same**: the mark is then above every delivered
threshold. -/
theorem not_marksDelivered_evaluate (h : Recorded store ev) (ha : e.Sends num store ev alert)
    (hs : e.send alert = .ok false) : ¬ MarksDelivered store (evaluate num store ev e) := by
  intro hmarks
  have hmark : alert.threshold ∈ store.highestFired (evaluate num store ev e).state
      alert.budgetId alert.periodKey := by
    rw [state_evaluate_of_ok ha hs, store.highestFired_recordFired, raise_of_above ha.above]
    rfl
  obtain ⟨t, ⟨d, hd, hid, hkey, rfl⟩, hle⟩ := hmarks _ _ _ hmark
  rw [sent_evaluate ha, hs, List.mem_append, List.mem_singleton] at hd
  rcases hd with hd | hd
  · obtain ⟨m, hm, hdm⟩ := h d true hd
    rw [hid, hkey] at hm
    exact absurd (hle.trans hdm) (not_le.mpr (ha.above m hm))
  · cases (Prod.mk.inj hd).2

theorem marksDelivered_fresh (store : AlertStateStore σ) :
    MarksDelivered store (.fresh store) ∧ Recorded store (.fresh store) := by
  refine ⟨fun id key m hm => ?_, fun _ _ h => absurd h List.not_mem_nil⟩
  rw [Evaluator.fresh, store.highestFired_fresh] at hm
  cases hm

/-- **The runs that mark no undelivered alert**: those in which the notifier
answers no alert with False. -/
theorem marks_delivered_iff (num : Arith) (store : AlertStateStore σ) (es : List Evaluation) :
    (∀ pre, pre <+: es →
      MarksDelivered store (after (evaluate num store) (.fresh store) pre) ∧
        Retries num store (after (evaluate num store) (.fresh store) pre)) ↔
      Along (evaluate num store) (fun ev e => ∀ alert, e.Sends num store ev alert →
        e.send alert ≠ .ok false) (.fresh store) es := by
  have hprop : ∀ ev : Evaluator σ, MarksDelivered store ev ∧ Retries num store ev ↔
      MarksDelivered store ev := fun ev => and_iff_left_of_imp retries_of_marksDelivered
  simp only [hprop]
  obtain ⟨hmarks, hrec⟩ := marksDelivered_fresh store
  rw [forall_prefix_iff, and_iff_right hmarks]
  refine along_congr (I := fun ev => MarksDelivered store ev ∧ Recorded store ev)
    (fun ev e hI hG => ⟨hI.1.evaluate hG, hI.2.evaluate⟩) (fun ev e hI => ?_) ⟨hmarks, hrec⟩
  exact ⟨fun h alert ha hs => not_marksDelivered_evaluate hI.2 ha hs h, hI.1.evaluate⟩

/-! ### No notifier is configured -/

def unconfigured : Evaluation where
  rows := [spent 0 85]
  budget := research 100 [80, 100]
  now := august16
  send := NullNotifier.send

/-- Nothing was delivered, and 80% is marked as announced. -/
theorem undelivered_marked : ¬ ∀ pre, pre <+: [unconfigured] →
    MarksDelivered InMemoryAlertState
      (after (evaluate .exact InMemoryAlertState) (.fresh InMemoryAlertState) pre) ∧
    Retries .exact InMemoryAlertState
      (after (evaluate .exact InMemoryAlertState) (.fresh InMemoryAlertState) pre) := by
  intro h
  have hmark : 80 ∈ InMemoryAlertState.highestFired (evaluate .exact InMemoryAlertState
      (.fresh InMemoryAlertState) unconfigured).state 1 "2026-08" := by decide +kernel
  have hsent : ∀ s ∈ (evaluate .exact InMemoryAlertState (.fresh InMemoryAlertState)
      unconfigured).sent, s.2 = .ok false := by decide +kernel
  obtain ⟨t, ⟨alert, hd, _⟩, _⟩ := (h [unconfigured] (List.prefix_refl _)).1 1 "2026-08" 80 hmark
  cases hsent _ hd

end Finops
