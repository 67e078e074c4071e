import Finops.Base.Calendar
import Finops.Base.Dict
import Finops.Base.HighWater
import Finops.Base.Text
import Finops.Attribution.Models

/-!
# What has already been announced

The state of alerting is the highest threshold already announced for one budget
in one period.  An `AlertStateStore` remembers it, and its laws are those of a
table of high-water marks: `recordFired` raises one mark and leaves the others.

Both stores are a `table` of marks.  `InMemoryAlertState` keeps them under the
pair of budget and period, `RedisAlertState` under a text on a server; different
pairs have different texts (`redisKey_injective`).
-/

namespace Finops

open Calendar HighWater Text

inductive BudgetPeriod
  | monthly
  | weekly
  | daily
  deriving DecidableEq, Repr

def BudgetPeriod.str : BudgetPeriod → String
  | monthly => "monthly"
  | weekly => "weekly"
  | daily => "daily"

/-- A spend ceiling for one team over one recurring period.  The thresholds are
a JSON column, which may hold a null. -/
structure Budget where
  id : ℤ
  team : String
  period : BudgetPeriod := .monthly
  limitUsd : ℚ
  alertThresholds : Option (List ℤ) := some [80, 100]
  isActive : Bool := true

/-- The rows of the budget table, one for each team and period. -/
structure Budgets where
  rows : List Budget
  unique : (rows.map fun b => (b.team, b.period)).Nodup

def periodKey (moment : Moment) (period : String := "monthly") : String :=
  let d := moment.date
  if period = "daily" then
    zeroPad 4 d.year ++ "-" ++ zeroPad 2 d.month ++ "-" ++ zeroPad 2 d.day
  else if period = "weekly" then
    toString d.isoCalendar.1 ++ "-W" ++ zeroPad 2 d.isoCalendar.2
  else zeroPad 4 d.year ++ "-" ++ zeroPad 2 d.month

structure AlertStateStore (σ : Type*) where
  /-- the store before anything is announced -/
  fresh : σ
  highestFired : σ → ℤ → String → Option ℤ
  recordFired : σ → ℤ → String → ℤ → σ
  highestFired_fresh : ∀ id period, highestFired fresh id period = none
  highestFired_recordFired : ∀ s id period t,
    highestFired (recordFired s id period t) id period = raise (highestFired s id period) t
  highestFired_recordFired_of_ne : ∀ s id period t id' period', (id', period') ≠ (id, period) →
    highestFired (recordFired s id period t) id' period' = highestFired s id' period'

namespace AlertStateStore

variable {σ : Type*} {store : AlertStateStore σ} {s : σ} {id id' : ℤ} {period period' : String}
  {t m : ℤ}

theorem eq_or_mem_of_mem_recordFired
    (h : m ∈ store.highestFired (store.recordFired s id period t) id' period') :
    (id', period') = (id, period) ∧ m = t ∨ m ∈ store.highestFired s id' period' := by
  by_cases hk : (id', period') = (id, period)
  · obtain ⟨rfl, rfl⟩ := Prod.mk.inj hk
    rw [store.highestFired_recordFired] at h
    exact (eq_or_mem_of_mem_raise h).imp_left fun hm => ⟨rfl, hm⟩
  · rw [store.highestFired_recordFired_of_ne s id period t id' period' hk] at h
    exact .inr h

theorem exists_le_of_mem (h : m ∈ store.highestFired s id' period') :
    ∃ m' ∈ store.highestFired (store.recordFired s id period t) id' period', m ≤ m' := by
  by_cases hk : (id', period') = (id, period)
  · obtain ⟨rfl, rfl⟩ := Prod.mk.inj hk
    rw [store.highestFired_recordFired]
    exact le_of_mem_raise h
  · rw [store.highestFired_recordFired_of_ne s id period t id' period' hk]
    exact ⟨m, h, le_refl m⟩

theorem exists_le_recordFired :
    ∃ m ∈ store.highestFired (store.recordFired s id period t) id period, t ≤ m := by
  rw [store.highestFired_recordFired]
  exact exists_le_raise _ t

end AlertStateStore

/-- A table of marks, the mark of a budget and a period under `key`. -/
def AlertStateStore.table {κ : Type*} [DecidableEq κ] (key : ℤ → String → κ)
    (hkey : ∀ {id id' period period'}, key id' period' = key id period →
      (id', period') = (id, period)) : AlertStateStore (Dict κ ℤ) where
  fresh := Dict.empty
  highestFired := fun marks budgetId period => marks.get? (key budgetId period)
  recordFired := fun marks budgetId period threshold =>
    let current := marks.get? (key budgetId period)
    if Above current threshold then marks.set (key budgetId period) threshold else marks
  highestFired_fresh := fun _ _ => rfl
  highestFired_recordFired := by
    intro s id period t
    dsimp only
    by_cases h : Above (s.get? (key id period)) t
    · rw [if_pos h, Dict.get?_set_self, raise_of_above h]
    · rw [if_neg h, raise_of_not_above h]
  highestFired_recordFired_of_ne := by
    intro s id period t id' period' hne
    dsimp only
    by_cases h : Above (s.get? (key id period)) t
    · rw [if_pos h, Dict.get?_set_of_ne _ fun hk => hne (hkey hk)]
    · rw [if_neg h]

def InMemoryAlertState : AlertStateStore (Dict (ℤ × String) ℤ) := .table Prod.mk id

def KEY_PREFIX : String := "finopsai:alert"

/-- `f"{KEY_PREFIX}:{budget_id}:{period}"`. -/
def redisKey (budgetId : ℤ) (period : String) : String :=
  KEY_PREFIX ++ ":" ++ toString budgetId ++ ":" ++ period

/-- **One key for each budget and period.** -/
theorem redisKey_injective {id id' : ℤ} {period period' : String}
    (h : redisKey id' period' = redisKey id period) : (id', period') = (id, period) := by
  have hl := congrArg String.toList h
  simp only [redisKey, String.toList_append, List.append_assoc] at hl
  have htail := List.append_cancel_left (List.append_cancel_left hl)
  obtain ⟨hid, hp⟩ := eq_of_append_cons_eq (notMem_toString (by decide) (by decide) id')
    (notMem_toString (by decide) (by decide) id) htail
  rw [toString_injective (String.toList_injective hid), String.toList_injective hp]

/-- Shared state, on a server that answers every call.  A stored text is the
integer that `int()` reads from it. -/
def RedisAlertState : AlertStateStore (Dict String ℤ) := .table redisKey redisKey_injective

end Finops
