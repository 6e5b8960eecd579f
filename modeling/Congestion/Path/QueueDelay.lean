import Congestion.Path.VirtualQueue

/-!
# Queue delay

The clocks of sender and receiver are not synchronized, so the least one-way delay of the session
stands in for the propagation delay and the offset of the clocks: a packet's queue delay is what
its delay has beyond that. Over the periods of a window the estimator tells the least queue delay
and its range.
-/

set_option autoImplicit false
set_option relaxedAutoImplicit false

namespace Congestion

/-- All but the cross traffic's delay are in whole milliseconds. -/
structure QueueDelay where
  /-- The least queue delay of the period. -/
  latest : Duration := 0
  windowMin : Duration := 0
  windowRange : Duration := 0
  /-- Delay attributed to other traffic, smoothed. -/
  crossTraffic : Duration := 0
deriving DecidableEq

structure WindowEntry where
  delay : Duration
  periodEnd : Int
deriving DecidableEq

structure QueueDelayEstimator where
  window : Duration
  smoothing : Float
  /-- The least one-way delay of the session, in milliseconds. -/
  baseDelay : Option Int := none
  entries : List WindowEntry := []
  lastDelay : Duration := 0
  crossTraffic : Float := 0.0
  virtualQueue : VirtualQueue

namespace QueueDelayEstimator

def create (s : QueueDelaySettings) (headroom : Float) : QueueDelayEstimator :=
  { window := s.window, smoothing := s.crossTrafficSmoothing,
    virtualQueue := VirtualQueue.create s headroom }

def reset (e : QueueDelayEstimator) : QueueDelayEstimator :=
  { window := e.window, smoothing := e.smoothing, virtualQueue := e.virtualQueue.reset }

/-- Drops entries from the oldest on, up to the first within the window. -/
def expire (window : Duration) (stop : Int) : List WindowEntry → Checked (List WindowEntry)
  | [] => .ok []
  | entry :: entries => do
    if stop ≤ (← signed64 (entry.periodEnd + (← window.millis))) then return entry :: entries
    else expire window stop entries

/-- The base delay after some samples, and their delays beyond it, the last one first. Each delay
is measured against the least up to its own sample. -/
def measure (samples : List DelaySample) (base : Option Int) : Checked (Option Int × List Int) :=
  samples.foldlM (fun (base, measured) s ↦ do
    let raw ← s.rawDelay
    let least := match base with
      | some base => if raw < base then raw else base
      | none => raw
    return (some least, (← signed64 (raw - least)) :: measured)) (base, [])

/-- The average starts anew after a period without cross traffic. -/
def smooth (smoothing old new : Float) : Float :=
  if new > 0.0 then
    if old == 0.0 then new else smoothing * old + (1.0 - smoothing) * new
  else 0.0

def update (e : QueueDelayEstimator) (period : Period) (samples : List DelaySample)
    (bandwidth : Option DataRate) : Checked (QueueDelay × QueueDelayEstimator) := do
  let kept ← expire e.window period.stop e.entries
  let (baseDelay, measuredReversed) ← measure samples e.baseDelay
  let measured := measuredReversed.reverse
  let (latest, entries) ←
    match measured.min? with
    | some least => do
      let latest ← Duration.ofMillis least
      pure (latest, kept ++ [{ delay := latest, periodEnd := period.stop : WindowEntry }])
    | none => pure ((kept.map WindowEntry.delay).min?.getD e.lastDelay, kept)
  let delays := entries.map WindowEntry.delay
  let windowMin := delays.min?.getD latest
  let windowRange ←
    match delays.max? with
    | some most => most - windowMin
    | none => pure 0
  let virtualQueue ← e.virtualQueue.update samples measured latest e.lastDelay bandwidth
  let beyond := (← latest.millis) - (← virtualQueue.queueTime.micros).tdiv 1000
  let crossTraffic := smooth e.smoothing e.crossTraffic (Extended.floatOfWord beyond)
  return (
    { latest, windowMin, windowRange, crossTraffic := ← Duration.ofMillisFloat crossTraffic },
    { e with baseDelay, entries, lastDelay := latest, crossTraffic, virtualQueue })

end QueueDelayEstimator

end Congestion
