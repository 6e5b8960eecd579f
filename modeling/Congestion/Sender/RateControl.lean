import Congestion.Mode
import Congestion.Path.QueueDelay

/-!
# Rate control

Four modes and the rate in each. In steady mode the rate follows the target queue delay in small
steps. Competing holds a share against traffic that builds queues, with a higher target delay.
Probing sends above the estimate for a while. Throttled backs off until the queue has drained.
`classify` reads one event off a period's signals, and `apply` carries it out.
-/

set_option autoImplicit false
set_option relaxedAutoImplicit false

namespace Congestion

/-- What one report tells about congestion. -/
structure Signals where
  queueDelay : QueueDelay := {}
  /-- How long the queue delay has been rising, zero if it has not. -/
  rising : Duration := 0
  /-- Received over sent bytes of the recent window, unknown if nothing was sent. -/
  delivered : Option Float := none
  lossRate : Float := 0.0
  ecnRate : Float := 0.0

namespace Signals

/-- An unknown fraction is on neither side of a threshold. -/
def deliveredBelow (s : Signals) (threshold : Float) : Bool := s.delivered.any (· < threshold)

def deliveredAtLeast (s : Signals) (threshold : Float) : Bool := s.delivered.any (· ≥ threshold)

end Signals

structure Decision where
  event : Event := .nothing
  /-- Latest queue delay over the target queue delay. -/
  delayFraction : Float := 0.0
  /-- The cross traffic's delay over its target, zero without cross traffic. -/
  crossFraction : Float := 0.0

structure RateControl where
  settings : RateSettings
  minBitrate : DataRate
  maxBitrate : DataRate
  startBitrate : DataRate
  mode : Mode := .steady
  targetRate : DataRate
  targetDelay : Duration
  /-- The estimate when the sender backed off. -/
  throttledEstimate : DataRate := 0
  lastCompete : Option Instant := none
  probingStart : Option Instant := none

namespace RateControl

def create (settings : RateSettings) (minBitrate maxBitrate startBitrate : DataRate) : RateControl :=
  { settings, minBitrate, maxBitrate, startBitrate,
    targetRate := startBitrate, targetDelay := settings.targets.steady }

def reset (c : RateControl) : RateControl :=
  create c.settings c.minBitrate c.maxBitrate c.startBitrate

/-! ### Events -/

/-- Whether more than a span has passed since an earlier time, with an answer for no such time. -/
def passed (now : Instant) (since : Option Instant) (span : Duration) (otherwise : Bool) :
    Checked Bool :=
  match since with
  | some since => do return span < (← now - since)
  | none => .ok otherwise

def detectsThrottle (c : RateControl) (s : Signals) (delayFraction : Float) : Bool :=
  0 < s.rising && delayFraction ≥ c.settings.throttle.delayFraction &&
    s.deliveredBelow c.settings.throttle.deliveredFraction

def detectsCompetition (c : RateControl) (s : Signals) : Bool :=
  (c.settings.compete.delayRange < s.queueDelay.windowRange ||
    c.settings.compete.delay < s.queueDelay.latest) && c.settings.compete.riseTime < s.rising

def competitionIsOver (c : RateControl) (now : Instant) (s : Signals) : Checked Bool :=
  if c.mode = .competing then do
    return (← passed now c.lastCompete c.settings.compete.maintainTime true) &&
      s.queueDelay.latest < c.settings.compete.stopDelay &&
      s.queueDelay.windowRange < c.settings.compete.stopDelayRange
  else .ok false

def mayProbe (c : RateControl) (now : Instant) (sessionStart : Option Instant) (s : Signals) :
    Checked Bool := do
  return (← passed now sessionStart c.settings.probe.initialWait false) &&
    c.mode ≠ .probing && s.queueDelay.latest < c.settings.probe.delay &&
    s.deliveredAtLeast c.settings.probe.deliveredFraction &&
    s.queueDelay.windowRange < c.settings.probe.delayRange &&
    s.ecnRate < c.settings.probe.ecnRate && s.lossRate < c.settings.probe.lossRate

def endsProbing (c : RateControl) (s : Signals) (delayFraction : Float) : Bool :=
  c.mode = .probing &&
    (0 < s.rising || delayFraction > c.settings.probe.stopDelayFraction ||
      s.deliveredBelow c.settings.probe.stopDeliveredFraction ||
      s.ecnRate > c.settings.probe.stopEcnRate || s.lossRate > c.settings.probe.stopLossRate)

/-- The first rule that holds gives the event. -/
def eventOf (c : RateControl) (now : Instant) (sessionStart : Option Instant) (s : Signals)
    (delayFraction : Float) : Checked Event := do
  if c.mode = .throttled && delayFraction < 1.0 then return .resolveThrottle
  else if c.detectsThrottle s delayFraction then return .detectThrottle
  else if c.detectsCompetition s then return .startCompete
  else if ← c.competitionIsOver now s then return .stopCompete
  else if ← c.mayProbe now sessionStart s then return .startProbing
  else if c.endsProbing s delayFraction then return .stopProbing
  else return .nothing

/-- Nothing happens before there is an estimate above zero. -/
def classify (c : RateControl) (now : Instant) (sessionStart : Option Instant)
    (estimate : Option DataRate) (s : Signals) : Checked Decision := do
  let delayFraction := s.queueDelay.latest.ratio c.targetDelay
  let crossFraction :=
    if 0 < s.queueDelay.crossTraffic then
      s.queueDelay.crossTraffic.ratio c.settings.targets.crossTraffic
    else 0.0
  if estimate.any (0 < ·) then
    return { event := ← c.eventOf now sessionStart s delayFraction, delayFraction, crossFraction }
  else return { event := .nothing, delayFraction, crossFraction }

/-! ### Transitions -/

def withRate (c : RateControl) (rate : DataRate) : RateControl :=
  { c with targetRate := rate.clamp c.minBitrate c.maxBitrate }

def withDelay (c : RateControl) (delay : Duration) : RateControl :=
  { c with targetDelay := delay.clamp c.settings.targets.lowest c.settings.targets.highest }

def enterCompeting (c : RateControl) (now : Instant) : Checked RateControl := do
  let c := c.withRate (← c.targetRate.scale c.settings.compete.rateUp)
  return { c.withDelay c.settings.targets.competing with
    mode := .competing, lastCompete := some now, probingStart := none }

/-- One small step towards the target delay, up only below the estimate. -/
def track (c : RateControl) (delayFraction : Float) (estimate : Option DataRate) :
    Checked RateControl :=
  match estimate with
  | none => .ok c
  | some estimate =>
    if estimate ≤ 0 then .ok c
    else if delayFraction < c.settings.steady.lowDelayFraction && c.targetRate < estimate then do
      return c.withRate (← c.targetRate.scale c.settings.steady.increase)
    else if delayFraction > c.settings.steady.highDelayFraction then do
      return c.withRate (← c.targetRate.scale c.settings.steady.decrease)
    else .ok c

/-- One step into a band about the estimate. -/
def compete (c : RateControl) (estimate : Option DataRate) : Checked RateControl :=
  match estimate with
  | none => .ok c
  | some estimate => do
    let s := c.settings.compete
    let raised ←
      if c.targetRate < (← estimate.scale s.lowBand) then c.targetRate.scale s.increase
      else pure c.targetRate
    let rate ←
      if (← estimate.scale s.highBand) < raised then raised.scale s.decrease else pure raised
    return c.withRate rate

/-- Carries out an event. What a mode does not answer to has no effect in it. -/
def apply (c : RateControl) (now : Instant) (decision : Decision) (estimate : Option DataRate) :
    Checked RateControl :=
  let known := estimate.getD 0
  match c.mode, decision.event with
  | .steady, .nothing => c.track decision.delayFraction estimate
  | .steady, .startProbing => do
    let c := c.withRate (← known + c.settings.probe.increment)
    return { c with mode := .probing, probingStart := some now }
  | .steady, .startCompete => c.enterCompeting now
  | .steady, .detectThrottle => do
    let c := c.withRate (← c.targetRate.scale c.settings.throttle.backoff)
    return { c with mode := .throttled, throttledEstimate := known }
  | .competing, .nothing => c.compete estimate
  | .competing, .startCompete => .ok { c with lastCompete := some now }
  | .competing, .stopCompete =>
    .ok { c.withDelay c.settings.targets.steady with mode := .steady, lastCompete := none }
  | .probing, .nothing => do
    let timedOut ← match c.probingStart with
      | none => pure true
      | some start => do pure ((← start + c.settings.probe.timeout) < now : Bool)
    return if timedOut then { c with mode := .steady, probingStart := none } else c
  | .probing, .startCompete => c.enterCompeting now
  | .probing, .stopProbing =>
    .ok { c.withRate known with mode := .steady, probingStart := none }
  | .probing, .detectThrottle => do
    let c := c.withRate (← known.scale c.settings.throttle.backoff)
    return { c with mode := .throttled, throttledEstimate := known, probingStart := none }
  | .throttled, .resolveThrottle => .ok { c.withRate c.throttledEstimate with mode := .steady }
  | .throttled, .startCompete => (c.withRate c.throttledEstimate).enterCompeting now
  | .throttled, .detectThrottle => .ok { c with throttledEstimate := known }
  | _, _ => .ok c

end RateControl

end Congestion
