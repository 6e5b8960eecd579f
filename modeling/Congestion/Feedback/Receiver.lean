import Congestion.Units.Quantity
import Congestion.Wire.ReportFormat

/-!
# The receiver

A receiver gathers arrivals and writes one report an interval. Its clock starts with the first
arrival, and its times are whole milliseconds since then. An interval ends the arrivals gathered,
also when their report cannot be written.
-/

set_option autoImplicit false
set_option relaxedAutoImplicit false

namespace Congestion

structure Receiver where
  report : Report
  interval : Duration
  /-- The time of the first arrival. -/
  reference : Option Instant := none

namespace Receiver

def defaultInterval : Duration := .exactly 100000

/-- An interval that is not positive, or too long for its field in a report, is replaced. -/
def create (ssrc : UInt32) (interval : Duration) : Checked Receiver := do
  let usable ← if interval ≤ 0 then pure false else (· ≤ 65535) <$> interval.millis
  return { report := { sender := ssrc }, interval := if usable then interval else defaultInterval }

def started (r : Receiver) : Bool := r.reference.isSome

/-- Whole milliseconds from the first arrival, zero for a time before it. -/
def elapsed (reference now : Instant) : Checked UInt64 := do
  let micros ← (← now - reference).micros
  return UInt64.ofNat (micros.toNat / 1000)

def arrive (r : Receiver) (now : Instant) (ssrc : UInt32) (seq : UInt16) (mark : EcnMark) :
    Checked (Recording × Receiver) := do
  let reference := r.reference.getD now
  let time ← elapsed reference now
  let (recording, report) := r.report.record ssrc seq time mark.bits
  return (recording, { r with report, reference := some reference })

/-- The report of the interval that ends now. There is none before the first arrival. -/
def close (r : Receiver) (now : Instant) :
    Checked (Except Rejection (Option (List UInt8)) × Receiver) :=
  match r.reference with
  | none => .ok (.ok none, r)
  | some reference => do
    let time ← elapsed reference now
    let monitored := UInt16.ofNat (← r.interval.millis).toNat
    let report := { r.report with number := r.report.number + 1, time, monitored }
    let written ← report.encode.settle
    return (written.map some, { r with report := report.clear })

end Receiver

end Congestion
