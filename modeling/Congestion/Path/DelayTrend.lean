import Congestion.Units.Quantity

/-!
# Rising delay

`DelayTrend` tells how long the queue delay has been rising. A period's delay is rising while it
lies above a floor, which follows the delay down at once and goes 15 hundredths of the way up to
it each period; the rise counts once it has gone on for enough periods and enough time.
-/

set_option autoImplicit false
set_option relaxedAutoImplicit false

namespace Congestion

/-- Anything that can tell from the delay and the end of each period how long the delay has been
rising. -/
class RiseDetector (σ : Type) where
  update : σ → Duration → Int → Checked (Duration × σ)
  reset : σ → σ

/-- Times are in milliseconds. -/
structure DelayTrend where
  minCount : Nat
  minDuration : Duration
  floor : Int := 0
  /-- Rising periods in a row. -/
  count : Nat := 0
  /-- The end of the first of them. -/
  start : Int := 0
deriving DecidableEq

namespace DelayTrend

/-- The floor of rising delays keeps 85 parts in a hundred of its height. -/
def raise (floor delay : Int) : Checked Int := do
  let kept ← signed64 (floor * 85)
  let added ← signed64 (delay * 15)
  return (← signed64 (kept + added)).tdiv 100

/-- Answers how long the delay has been rising, zero while it has not been for long enough. -/
def update (t : DelayTrend) (queueDelay : Duration) (periodEnd : Int) :
    Checked (Duration × DelayTrend) := do
  let delay ← queueDelay.millis
  if delay ≤ t.floor then
    return (0, { t with count := 0, start := 0, floor := delay })
  else
    let count ← unsigned32 (t.count + 1)
    let start := if count = 1 then periodEnd else t.start
    let floor ← raise t.floor delay
    let duration ← Duration.ofMillis (← signed64 (periodEnd - start))
    let t := { t with count, start, floor }
    return (if t.minCount ≤ count ∧ t.minDuration ≤ duration then duration else 0, t)

def reset (t : DelayTrend) : DelayTrend := { t with floor := 0, count := 0, start := 0 }

instance : RiseDetector DelayTrend := ⟨update, reset⟩

end DelayTrend

end Congestion
