import Finops.Api.Costs

/-!
# The percentage of a change

`change_percent` makes floats of two totals and rounds six times: each total, their
difference, the quotient, the percentage and its two decimals.  Each of these keeps the
order, so the percentage follows the current total (`percentOf_mono`).  Equal totals
are no change at all and a total of zero is a loss of all of it, both without an error, so
a percentage has the sign of the change and is never below -100 (`changePercent_spec`).
-/

namespace Finops.Api

open Numerics

example : changePercent .cpython (99999999 / 10) 10000000 = some 0 := by decide +kernel

end Finops.Api
