import Congestion.Path.Correlation
import Congestion.Sender.Accounting
import Congestion.Settings

/-!
# The virtual queue

The sends of a period are replayed through a single link that serves them in order. The capacity
of the link is raised from the current estimate, step by step, until the packets' own queue no
longer lasts longer than the queue delay measured; what is measured beyond it is attributed to
others.
-/

set_option autoImplicit false
set_option relaxedAutoImplicit false

namespace Congestion

/-- A replay after some of its packets. -/
structure Replay where
  /-- When the link is free again. -/
  departure : Option Instant
  lastSend : Option Instant := none
  /-- Time the last packet spent queueing and being sent. -/
  queueTime : Duration := 0
  /-- That time for each packet, in whole milliseconds, the last one first. -/
  modeledReversed : List Int := []

namespace Replay

/-- A packet waits until the one before it has left, and then takes its time on the link. -/
def serve (bandwidth : DataRate) (r : Replay) (s : DelaySample) : Checked Replay := do
  let service ← s.size.timeAt bandwidth
  let queueTime ←
    match r.departure with
    | some departure =>
      if s.sendTime < departure then do service + (← departure - s.sendTime) else pure service
    | none => pure service
  let departure ← s.sendTime + queueTime
  let micros ← queueTime.micros
  return { departure := some departure, lastSend := some s.sendTime, queueTime,
           modeledReversed := micros.tdiv 1000 :: r.modeledReversed }

/-- The queue starts with what the last period left in it. -/
def run (samples : List DelaySample) (bandwidth : DataRate) (seed : Option Instant) :
    Checked Replay :=
  samples.foldlM (serve bandwidth) { departure := seed }

def modeled (r : Replay) : List Int := r.modeledReversed.reverse

end Replay

structure VirtualQueue where
  /-- Assumed propagation delay. -/
  baseDelay : Duration
  bandwidthStep : DataRate
  maxSteps : Nat
  headroom : Float
  queueTime : Duration := 0
  /-- Queue time beyond the propagation delay. -/
  excess : Duration := 0
  lastSend : Option Instant := none
  /-- The capacity the search settled on. -/
  bandwidth : DataRate := 0
  /-- Agreement of the delays measured with the delays of the replay. -/
  correlation : Float := 0.0

namespace VirtualQueue

def create (s : QueueDelaySettings) (headroom : Float) : VirtualQueue :=
  { baseDelay := s.baseDelay, bandwidthStep := s.bandwidthStep, maxSteps := s.maxSteps, headroom }

def reset (q : VirtualQueue) : VirtualQueue :=
  { baseDelay := q.baseDelay, bandwidthStep := q.bandwidthStep, maxSteps := q.maxSteps,
    headroom := q.headroom }

/-- Whole milliseconds, never negative. -/
def excessOf (q : VirtualQueue) (queueTime : Duration) : Checked Duration := do
  let micros ← (← queueTime - q.baseDelay).micros
  Duration.ofMillis ((max micros 0).tdiv 1000)

/-- A capacity that has been tried, with its replay. -/
structure Trial where
  bandwidth : DataRate
  replay : Replay
  excess : Duration

def tryOut (q : VirtualQueue) (samples : List DelaySample) (seed : Option Instant)
    (bandwidth : DataRate) : Checked Trial := do
  let replay ← Replay.run samples bandwidth seed
  return { bandwidth, replay, excess := ← q.excessOf replay.queueTime }

/-- Raises the capacity until the excess is no longer than the delay, or the steps are used up. -/
def search (q : VirtualQueue) (samples : List DelaySample) (seed : Option Instant)
    (delay : Int) : Nat → Trial → Checked Trial
  | 0, t => .ok t
  | steps + 1, t => do
    if delay < (← t.excess.millis) then
      let bandwidth ← t.bandwidth + q.bandwidthStep
      search q samples seed delay steps (← q.tryOut samples seed bandwidth)
    else return t

/-- When the packets of the last period have left: its last send, the queue delay then and the
propagation delay. -/
def seed? (q : VirtualQueue) (previousDelay : Duration) : Checked (Option Instant) :=
  if previousDelay = 0 then .ok none
  else
    match q.lastSend with
    | none => .ok none
    | some sent => do return some (← (← sent + previousDelay) + q.baseDelay)

/-- Without a positive estimate nothing is replayed, and without a delay nothing is queued. -/
def update (q : VirtualQueue) (samples : List DelaySample) (measured : List Int)
    (latestDelay previousDelay : Duration) (estimate : Option DataRate) : Checked VirtualQueue :=
  match estimate with
  | none => .ok q
  | some estimate =>
    if estimate ≤ 0 then .ok q
    else if latestDelay ≤ 0 then .ok { q with queueTime := 0, excess := 0, lastSend := none }
    else do
      let seed ← q.seed? previousDelay
      let bandwidth ← estimate.scale (1.0 / (1.0 - q.headroom))
      let first ← q.tryOut samples seed bandwidth
      let found ← q.search samples seed (← latestDelay.millis) q.maxSteps first
      return { q with
        correlation := Congestion.correlation measured found.replay.modeled
        queueTime := found.replay.queueTime
        excess := found.excess
        lastSend := found.replay.lastSend
        bandwidth := found.bandwidth }

end VirtualQueue

end Congestion
