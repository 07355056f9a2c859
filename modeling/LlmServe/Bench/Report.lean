import LlmServe.Infra.Rounding
import Mathlib.Data.Rat.Floor

/-!
# The load generator's percentiles (`bench/report.go`)

`math.Round` rounds a half away from zero.
-/

namespace LlmServe.Bench

open Infra

/-- `percentile`: an index out of range panics. -/
def percentile {α : Type} (nan : α) (sorted : List α) (p : Rat) : Option α :=
  if sorted.length = 0 then some nan
  else
    let i := roundHalfAway (p / 100 * (sorted.length - 1))
    if i < 0 then none else sorted[i.toNat]?

end LlmServe.Bench
