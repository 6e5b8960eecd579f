import Congestion.Units.Quantity

/-!
# Settings

Everything that can be tuned, by what it tunes, with defaults for all of it. `Config.repaired`
makes any configuration usable: a field that makes no sense, alone or beside those it is compared
with, gets its default.
-/

set_option autoImplicit false
set_option relaxedAutoImplicit false

namespace Congestion

/-- A fraction that leaves something of the whole. Not a number is no such fraction. -/
def properFraction (x : Float) : Bool := 0.0 ≤ x && x < 1.0

/-! ### Estimating the path -/

structure QueueDelaySettings where
  /-- How long the delay of a period is kept. -/
  window : Duration := .exactly 4000000
  /-- Rising periods in a row before a rise counts. -/
  riseCount : Nat := 3
  riseDuration : Duration := .exactly 500000
  /-- Propagation delay that the virtual queue assumes. -/
  baseDelay : Duration := .exactly 20000
  bandwidthStep : DataRate := .exactly 100000
  maxSteps : Nat := 1000
  /-- Weight of the old value in the average of the cross traffic's delay. -/
  crossTrafficSmoothing : Float := 0.9

def QueueDelaySettings.repaired (s : QueueDelaySettings) : QueueDelaySettings :=
  let standard : QueueDelaySettings := {}
  { window := if s.window ≤ 0 then standard.window else s.window
    riseCount := if s.riseCount = 0 then standard.riseCount else s.riseCount
    riseDuration := if s.riseDuration < 0 then standard.riseDuration else s.riseDuration
    baseDelay := if s.baseDelay < 0 then standard.baseDelay else s.baseDelay
    bandwidthStep := if s.bandwidthStep ≤ 0 then standard.bandwidthStep else s.bandwidthStep
    maxSteps := if s.maxSteps = 0 then standard.maxSteps else s.maxSteps
    crossTrafficSmoothing :=
      if properFraction s.crossTrafficSmoothing then s.crossTrafficSmoothing
      else standard.crossTrafficSmoothing }

structure BandwidthSettings where
  /-- Weight of the old estimate. -/
  smoothing : Float := 0.9
  /-- Share of the received rate that an estimate leaves unused. -/
  headroom : Float := 0.1
  fractionWindow : Duration := .exactly 500000

def BandwidthSettings.repaired (s : BandwidthSettings) : BandwidthSettings :=
  let standard : BandwidthSettings := {}
  { smoothing := if properFraction s.smoothing then s.smoothing else standard.smoothing
    headroom := if properFraction s.headroom then s.headroom else standard.headroom
    fractionWindow :=
      if s.fractionWindow ≤ 0 then standard.fractionWindow else s.fractionWindow }

/-! ### Controlling the rate

Delay fractions compare the latest queue delay with the target, delivered fractions the bytes
received with the bytes sent. -/

structure DelayTargets where
  steady : Duration := .exactly 50000
  lowest : Duration := 0
  highest : Duration := .exactly 250000
  competing : Duration := .exactly 100000
  /-- What the delay of cross traffic is compared with. -/
  crossTraffic : Duration := .exactly 50000

structure SteadySettings where
  lowDelayFraction : Float := 0.5
  highDelayFraction : Float := 1.05
  increase : Float := 1.005
  decrease : Float := 0.98

structure ThrottleSettings where
  delayFraction : Float := 1.5
  deliveredFraction : Float := 0.9
  /-- What is left of the rate. -/
  backoff : Float := 0.5

structure CompeteSettings where
  /-- For how long the delay has risen, and how far or how high, before competing starts. -/
  riseTime : Duration := .exactly 2000000
  delayRange : Duration := .exactly 150000
  delay : Duration := .exactly 150000
  maintainTime : Duration := .exactly 4000000
  stopDelay : Duration := .exactly 50000
  stopDelayRange : Duration := .exactly 20000
  rateUp : Float := 1.3
  lowBand : Float := 0.95
  highBand : Float := 1.05
  increase : Float := 1.02
  decrease : Float := 0.95
  /-- From this delay fraction on, growth of the estimate is undone. -/
  rollbackDelayFraction : Float := 1.5

structure ProbeSettings where
  initialWait : Duration := .exactly 4000000
  timeout : Duration := .exactly 4000000
  increment : DataRate := .exactly 200000
  delay : Duration := .exactly 20000
  delayRange : Duration := .exactly 15000
  deliveredFraction : Float := 1.0
  lossRate : Float := 0.001
  ecnRate : Float := 0.001
  stopDelayFraction : Float := 1.3
  stopDeliveredFraction : Float := 0.8
  stopLossRate : Float := 0.03
  stopEcnRate : Float := 0.001

structure RateSettings where
  targets : DelayTargets := {}
  steady : SteadySettings := {}
  throttle : ThrottleSettings := {}
  compete : CompeteSettings := {}
  probe : ProbeSettings := {}

/-- The bounds are settled first, and the targets then within them. -/
def DelayTargets.repaired (t : DelayTargets) : DelayTargets :=
  let standard : DelayTargets := {}
  let (lowest, highest) :=
    if t.lowest < 0 ∨ t.highest ≤ t.lowest then (standard.lowest, standard.highest)
    else (t.lowest, t.highest)
  let within (target fallback : Duration) : Duration :=
    if lowest ≤ target ∧ target ≤ highest ∧ target ≠ 0 then target
    else fallback.clamp lowest highest
  { lowest, highest
    steady := within t.steady standard.steady
    competing := within t.competing standard.competing
    crossTraffic := if t.crossTraffic ≤ 0 then standard.crossTraffic else t.crossTraffic }

/-- A factor that shrinks without reaching zero, where a comparison tells that it is none. -/
def shrinking (x fallback : Float) : Float := if x ≤ 0.0 || x ≥ 1.0 then fallback else x

/-- The two factors of increase are replaced together, and so are the two ends of a band. -/
def RateSettings.repaired (s : RateSettings) : RateSettings :=
  let standard : RateSettings := {}
  let increases := s.steady.increase ≤ 1.0 || s.compete.increase ≤ 1.0
  let steadyBand := s.steady.lowDelayFraction ≥ s.steady.highDelayFraction
  let competeBand := s.compete.lowBand ≥ s.compete.highBand
  { targets := s.targets.repaired
    steady := {
      lowDelayFraction :=
        if steadyBand then standard.steady.lowDelayFraction else s.steady.lowDelayFraction
      highDelayFraction :=
        if steadyBand then standard.steady.highDelayFraction else s.steady.highDelayFraction
      increase := if increases then standard.steady.increase else s.steady.increase
      decrease := shrinking s.steady.decrease standard.steady.decrease }
    throttle := { s.throttle with
      backoff := shrinking s.throttle.backoff standard.throttle.backoff }
    compete := { s.compete with
      rateUp := if s.compete.rateUp ≤ 1.0 then standard.compete.rateUp else s.compete.rateUp
      lowBand := if competeBand then standard.compete.lowBand else s.compete.lowBand
      highBand := if competeBand then standard.compete.highBand else s.compete.highBand
      increase := if increases then standard.compete.increase else s.compete.increase
      decrease := shrinking s.compete.decrease standard.compete.decrease }
    probe := { s.probe with
      increment := if s.probe.increment ≤ 0 then standard.probe.increment else s.probe.increment } }

/-! ### A sender -/

structure Config where
  minBitrate : DataRate := .exactly 150000
  maxBitrate : DataRate := .exactly 1500000
  startBitrate : DataRate := .exactly 150000
  /-- For how long packets are remembered, counted back from the newest send of their stream. -/
  retention : Duration := .exactly 10000000
  queueDelay : QueueDelaySettings := {}
  bandwidth : BandwidthSettings := {}
  rate : RateSettings := {}

def Config.repaired (c : Config) : Config :=
  let standard : Config := {}
  let (minBitrate, maxBitrate) :=
    if c.minBitrate ≤ 0 ∨ c.maxBitrate < c.minBitrate ∨ ¬ c.maxBitrate.isFinite then
      (standard.minBitrate, standard.maxBitrate)
    else (c.minBitrate, c.maxBitrate)
  { minBitrate, maxBitrate
    startBitrate :=
      if c.startBitrate < minBitrate ∨ maxBitrate < c.startBitrate then minBitrate
      else c.startBitrate
    retention := if c.retention ≤ 0 then standard.retention else c.retention
    queueDelay := c.queueDelay.repaired
    bandwidth := c.bandwidth.repaired
    rate := c.rate.repaired }

end Congestion
