import Congestion.Rejection
import Congestion.Sender.Ledger

/-!
# Reported periods

A report covers a span of the sender's clock. Its anchor, the packet that arrived last, settles
where: the span ends the time the anchor waited for the report after the anchor was sent, and
lasts as long as the report monitors.
-/

set_option autoImplicit false
set_option relaxedAutoImplicit false

namespace Congestion

/-- The milliseconds from `start` up to `stop`, which is not part of the period. -/
structure Period where
  start : Int
  stop : Int
deriving DecidableEq

namespace Period

def duration (p : Period) : Checked Duration := do Duration.ofMillis (← signed64 (p.stop - p.start))

def contains (p : Period) (sent : Finite) : Bool :=
  p.start ≤ sent.millisFloor && sent.millisFloor < p.stop

end Period

/-- A packet reported to have arrived. -/
structure Anchor where
  ssrc : UInt32
  seq : UInt16
  arrival : Arrival
deriving DecidableEq

namespace Anchor

/-- The first of the latest. -/
def later (best : Option Anchor) (a : Anchor) : Option Anchor :=
  match best with
  | none => some a
  | some b => if b.arrival.time < a.arrival.time then some a else some b

def ofReport (r : Report) : Option Anchor :=
  r.toList.foldl (fun best (ssrc, b) ↦
    b.entries.foldl (fun best (seq, arrival) ↦ later best { ssrc, seq, arrival }) best) none

end Anchor

def Period.ofReport (r : Report) (ledger : Ledger) : Outcome Period :=
  match Anchor.ofReport r with
  | none => throw (.rejected .periodUnknown)
  | some anchor =>
    match ledger.lookup anchor.ssrc anchor.seq with
    | none => throw (.rejected (.ledgerMiss anchor.ssrc anchor.seq))
    | some record =>
      if r.monitored = 0 then throw (.rejected .periodUnknown)
      else do
        let waited := (anchor.arrival.waited r.time).toInt64.toInt
        let stop ← signed64 (record.sendTime.millisFloor + waited)
        let start ← signed64 (stop - r.monitored.toNat)
        return { start, stop }

end Congestion
