import Congestion.Units.Extended

/-!
# Correlation of two series

Pearson's coefficient of two series of integers, paired from their starts, in floating point. The
sums run in the order of the series.
-/

set_option autoImplicit false
set_option relaxedAutoImplicit false

namespace Congestion

/-- Zero where the coefficient is not defined. -/
def correlation (xs ys : List Int) : Float :=
  let pairs := (xs.zip ys).map fun (x, y) ↦ (Extended.floatOfWord x, Extended.floatOfWord y)
  let sum (term : Float × Float → Float) : Float := pairs.foldl (fun s p ↦ s + term p) 0.0
  if pairs.length < 2 then 0.0
  else
    let n := Extended.floatOfWord pairs.length
    let sumX := sum fun (x, _) ↦ x
    let sumY := sum fun (_, y) ↦ y
    let sumXY := sum fun (x, y) ↦ x * y
    let sumXX := sum fun (x, _) ↦ x * x
    let sumYY := sum fun (_, y) ↦ y * y
    let denominator := ((n * sumXX - sumX * sumX) * (n * sumYY - sumY * sumY)).sqrt
    if denominator == 0.0 || !denominator.isFinite then 0.0
    else (n * sumXY - sumX * sumY) / denominator

end Congestion
