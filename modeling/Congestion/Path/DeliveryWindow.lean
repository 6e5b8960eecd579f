import Congestion.Sender.Period

/-!
# The delivered fraction

Bytes received over bytes sent, across the periods of a recent window. A fraction well below one
means that the path does not deliver what is sent.
-/

set_option autoImplicit false
set_option relaxedAutoImplicit false

namespace Congestion

structure PeriodBytes where
  start : Int
  sent : DataSize
  received : DataSize
deriving DecidableEq

/-- The totals are those of the periods held. -/
structure DeliveryWindow where
  window : Duration
  periods : List PeriodBytes := []
  totalSent : DataSize := 0
  totalReceived : DataSize := 0
deriving DecidableEq

namespace DeliveryWindow

/-- Drops periods from the oldest on, up to the first that starts within the window. -/
def expire (w : DeliveryWindow) (stop : Int) : List PeriodBytes → Checked DeliveryWindow
  | [] => .ok { w with periods := [] }
  | p :: ps => do
    if stop ≤ (← signed64 (p.start + (← w.window.millis))) then
      return { w with periods := p :: ps }
    else
      let totalSent ← w.totalSent - p.sent
      let totalReceived ← w.totalReceived - p.received
      expire { w with totalSent, totalReceived } stop ps

def add (w : DeliveryWindow) (period : Period) (received sent : DataSize) :
    Checked DeliveryWindow := do
  let totalSent ← w.totalSent + sent
  let totalReceived ← w.totalReceived + received
  let added : PeriodBytes := { start := period.start, sent, received }
  let w : DeliveryWindow := { w with totalSent, totalReceived }
  w.expire period.stop (w.periods ++ [added])

/-- Unknown where nothing was sent. -/
def fraction? (w : DeliveryWindow) : Option Float :=
  if w.totalSent ≤ 0 then none else some (w.totalReceived.ratio w.totalSent)

def reset (w : DeliveryWindow) : DeliveryWindow := { window := w.window }

end DeliveryWindow

end Congestion
