import Congestion.Units.Quantity
import Congestion.Feedback.Report

/-!
# Instruments

What a sender may be given to look at the network with. A `CongestionSource` tells loss and
congestion mark rates, which the rate depends on. A `QueueMonitor` sees the bottleneck queue, for
diagnosis only.
-/

set_option autoImplicit false
set_option relaxedAutoImplicit false

namespace Congestion

class CongestionSource (σ : Type) where
  observe : σ → Report → σ
  lossRate : σ → Float
  ecnRate : σ → Float

/-- Rates that no report changes. -/
structure FixedRates where
  lossRate : Float := 0.0
  ecnRate : Float := 0.0

instance : CongestionSource FixedRates := ⟨fun s _ ↦ s, FixedRates.lossRate, FixedRates.ecnRate⟩

/-- The bottleneck queue when a packet entered it. -/
structure QueueSnapshot where
  time : Instant := ⟨0⟩
  packets : Nat := 0
  bytes : DataSize := 0
  /-- How long the packet is expected to wait. -/
  delay : Duration := 0

class QueueMonitor (σ : Type) where
  query : σ → UInt32 → UInt16 → Option QueueSnapshot × σ
  /-- Drops what is older than a time. -/
  prune : σ → Instant → σ

/-- No monitor at all. -/
instance : QueueMonitor Unit := ⟨fun s _ _ ↦ (none, s), fun s _ ↦ s⟩

namespace QueueMonitor

variable {σ : Type} [QueueMonitor σ]

/-- Looks up the last packet that the first stream of a report covers. -/
def look (s : σ) (r : Report) : σ :=
  match r.toList with
  | [] => s
  | (ssrc, b) :: _ =>
    match query s ssrc b.lastSeq with
    | (some snapshot, s) => prune s snapshot.time
    | (none, s) => s

end QueueMonitor

end Congestion
