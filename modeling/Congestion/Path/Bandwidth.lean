import Congestion.Mode
import Congestion.Sender.Accounting
import Congestion.Settings

/-!
# Forward bandwidth

A smoothed estimate of what the path can carry, from the rate at which bytes come back. It learns
only from periods that tell about the capacity, and stays within the bounds on the rate.
-/

set_option autoImplicit false
set_option relaxedAutoImplicit false

namespace Congestion

structure BandwidthEstimator where
  smoothing : Float
  headroom : Float
  minBitrate : DataRate
  maxBitrate : DataRate
  estimate : Option DataRate := none
  /-- Rate at which bytes came back in the last period. -/
  receivedRate : DataRate := 0

namespace BandwidthEstimator

def create (s : BandwidthSettings) (minBitrate maxBitrate : DataRate) : BandwidthEstimator :=
  { smoothing := s.smoothing, headroom := s.headroom, minBitrate, maxBitrate }

def reset (e : BandwidthEstimator) : BandwidthEstimator :=
  { e with estimate := none, receivedRate := 0 }

/-- Mixes a sample into an estimate that is not below the bounds; any other estimate is seeded
with the full received rate. -/
def blend (e : BandwidthEstimator) (sample : DataRate) : Checked DataRate :=
  let seeded := sample.scale (1.0 / (1.0 - e.headroom))
  match e.estimate with
  | some estimate =>
    if e.minBitrate ≤ estimate then do
      let old ← estimate.scale e.smoothing
      let new ← sample.scale (1.0 - e.smoothing)
      old + new
    else seeded
  | none => seeded

/-- A period tells about the capacity when the sender was not backing off and either not all that
it sent came back, or it was held below the rate that did. While competing only an increase without
loss counts. -/
def learns (e : BandwidthEstimator) (bytes : ByteTotals) (mode : Mode)
    (target received sample : DataRate) (lossRate : Float) : Bool :=
  let unacknowledged := bytes.receivedInPeriod < bytes.sentInPeriod
  let heldBack := bytes.sentInPeriod = bytes.receivedInPeriod && target < received
  let increase := e.estimate.any (· < sample) && lossRate == 0.0
  mode ≠ .throttled && (unacknowledged || heldBack) && (mode ≠ .competing || increase)

/-- Answers how far the estimate has moved. -/
def update (e : BandwidthEstimator) (bytes : ByteTotals) (duration : Duration) (mode : Mode)
    (target : DataRate) (lossRate : Float) : Checked (DataRate × BandwidthEstimator) :=
  if duration ≤ 0 then .ok (0, e)
  else do
    let receivedRate ← bytes.received.rateOver duration
    let e := { e with receivedRate }
    let sample ← receivedRate.scale (1.0 - e.headroom)
    if e.learns bytes mode target receivedRate sample lossRate then
      let estimate := (← e.blend sample).clamp e.minBitrate e.maxBitrate
      return (← estimate - e.estimate.getD 0, { e with estimate := some estimate })
    else return (0, e)

/-- Undoes part of an earlier update. -/
def rollBack (e : BandwidthEstimator) (difference : DataRate) : Checked BandwidthEstimator :=
  match e.estimate with
  | some estimate => do
    let lowered ← estimate - difference
    return { e with estimate := some (lowered.clamp e.minBitrate e.maxBitrate) }
  | none => .ok e

end BandwidthEstimator

end Congestion
