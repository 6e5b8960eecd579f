import Congestion.Fault
import Congestion.Feedback.Arrival

/-!
# Feedback reports

A report tells a sender which packets of its streams have arrived and when. It is a map from a
stream and a sequence number to the first arrival, with a header of its own; `record` adds one
arrival and says what came of it.
-/

set_option autoImplicit false
set_option relaxedAutoImplicit false

namespace Congestion

/-- What came of recording one arrival. -/
inductive Recording
  | newStream
  | existingStream
  /-- The packet has arrived before, and its first arrival is kept. -/
  | duplicate
  /-- The mark does not fit two bits. -/
  | badMark
deriving DecidableEq

theorem Report.nonempty_empty (ssrc : UInt32) (b : StreamArrivals)
    (h : (∅ : Std.ExtTreeMap UInt32 StreamArrivals)[ssrc]? = some b) : b.arrivals ≠ ∅ := by
  simp at h

/-- Times are in milliseconds of the receiver's clock, and so is the duration monitored. No
stream is listed without an arrival. -/
@[ext]
structure Report where
  sender : UInt32 := 0
  time : UInt64 := 0
  number : UInt16 := 0
  monitored : UInt16 := 0
  streams : Std.ExtTreeMap UInt32 StreamArrivals := ∅
  nonempty : ∀ (ssrc : UInt32) (b : StreamArrivals),
    streams[ssrc]? = some b → b.arrivals ≠ ∅ := by exact Report.nonempty_empty

namespace Report

def arrivals? (r : Report) (ssrc : UInt32) (seq : UInt16) : Option Arrival :=
  r.streams[ssrc]? >>= (·.get? seq)

theorem insertNew_nonempty (b : StreamArrivals) (seq : UInt16) (a : Arrival) :
    (b.insertNew seq a).arrivals ≠ ∅ := by
  intro h
  have hmem : seq ∈ (b.insertNew seq a).arrivals := by simp [StreamArrivals.insertNew]
  simp [h] at hmem

/-- The report with one more arrival, unless the packet has arrived before. -/
def insertNew (r : Report) (ssrc : UInt32) (seq : UInt16) (a : Arrival) : Report :=
  let b := (r.streams[ssrc]?.getD {}).insertNew seq a
  { r with
    streams := r.streams.insert ssrc b
    nonempty := by
      intro ssrc' b' h
      rw [Std.ExtTreeMap.getElem?_insert] at h
      split at h
      · cases h
        exact insertNew_nonempty _ _ _
      · exact r.nonempty ssrc' b' h }

def record (r : Report) (ssrc : UInt32) (seq : UInt16) (time : UInt64) (bits : UInt8) :
    Recording × Report :=
  match EcnMark.ofBits? bits with
  | none => (.badMark, r)
  | some mark =>
    match r.streams[ssrc]? with
    | none => (.newStream, r.insertNew ssrc seq ⟨mark, time⟩)
    | some b =>
      if (b.get? seq).isSome then (.duplicate, r)
      else (.existingStream, r.insertNew ssrc seq ⟨mark, time⟩)

/-- The report without its arrivals. -/
def clear (r : Report) : Report := { r with streams := ∅, nonempty := nonempty_empty }

/-! ### Views -/

/-- The streams in ascending order, the order they are written in. -/
def toList (r : Report) : List (UInt32 × StreamArrivals) := r.streams.toList

def stream? (r : Report) (ssrc : UInt32) : Option StreamArrivals := r.streams[ssrc]?

/-- The number of sequence numbers covered and the last of them, zeros for a stream not listed. -/
def countLast (r : Report) (ssrc : UInt32) : Nat × UInt16 :=
  match r.stream? ssrc with
  | some b => (b.count, b.lastSeq)
  | none => (0, 0)

def entries (r : Report) (ssrc : UInt32) : List (UInt16 × Arrival) :=
  match r.stream? ssrc with
  | some b => b.entries
  | none => []

/-- How many sequence numbers all streams cover, received or not. -/
def totalCount (r : Report) : Checked Nat :=
  r.toList.foldlM (fun total (_, b) ↦ unsigned32 (total + b.count)) 0

/-- Equality of all that a report tells. -/
def same (r s : Report) : Bool :=
  r.sender = s.sender && r.time = s.time && r.number = s.number && r.monitored = s.monitored &&
    r.toList.map (fun (ssrc, b) ↦ (ssrc, b.arrivals.toList)) =
      s.toList.map (fun (ssrc, b) ↦ (ssrc, b.arrivals.toList))

end Report

end Congestion
