import Std.Data.ExtTreeMap

/-!
# Arrivals of one stream

What a receiver has seen of one stream since its last report: for each sequence number the time
and congestion mark of its first arrival. `StreamArrivals.span` is the range of sequence numbers
that a report on them covers, oldest first and through 65535 where the stream has wrapped.
-/

set_option autoImplicit false
set_option relaxedAutoImplicit false

namespace Congestion

/-- The two-bit congestion notification field of a packet. -/
inductive EcnMark
  | notEct
  | ect1
  | ect0
  | ce
deriving DecidableEq

namespace EcnMark

def bits : EcnMark → UInt8
  | .notEct => 0
  | .ect1 => 1
  | .ect0 => 2
  | .ce => 3

def ofBits? (bits : UInt8) : Option EcnMark :=
  match bits with
  | 0 => some .notEct
  | 1 => some .ect1
  | 2 => some .ect0
  | 3 => some .ce
  | _ => none

/-- Bits that are no mark count as not taking part in the notification. -/
def ofBits (bits : UInt8) : EcnMark := (ofBits? bits).getD .notEct

theorem ofBits?_bits (mark : EcnMark) : ofBits? mark.bits = some mark := by
  cases mark <;> rfl

end EcnMark

/-- One packet as the receiver saw it. The time is in milliseconds of the receiver's clock. -/
structure Arrival where
  mark : EcnMark
  time : UInt64
deriving DecidableEq

/-- The time from an arrival to a report on it, zero when it comes after the report. -/
def Arrival.waited (a : Arrival) (report : UInt64) : UInt64 :=
  if a.time ≤ report then report - a.time else 0

structure StreamArrivals where
  arrivals : Std.ExtTreeMap UInt16 Arrival := ∅

namespace StreamArrivals

def get? (b : StreamArrivals) (seq : UInt16) : Option Arrival := b.arrivals[seq]?

/-- The first arrival of a sequence number is kept. -/
def insertNew (b : StreamArrivals) (seq : UInt16) (a : Arrival) : StreamArrivals :=
  ⟨b.arrivals.insertIfNew seq a⟩

def received (b : StreamArrivals) : Nat := b.arrivals.size

/-- A range of sequence numbers, the last one counted beyond 65535 after a wrap. -/
structure Span where
  first : Nat
  last : Nat

/-- With arrivals in both halves of the sequence space, a lower half that starts within a hundred
of zero is taken to have come after the upper half. -/
def span? (b : StreamArrivals) : Option Span :=
  let numbers := b.arrivals.keys.map UInt16.toNat
  let lower := numbers.filter (· ≤ 32768)
  let upper := numbers.filter (32768 < ·)
  match lower.min?, lower.max?, upper.min?, upper.max? with
  | some lo, some hi, none, _ => some ⟨lo, hi⟩
  | none, _, some lo, some hi => some ⟨lo, hi⟩
  | some lo, some hi, some lo', some hi' =>
    some (if lo < 100 then ⟨lo', hi + 65536⟩ else ⟨lo, hi'⟩)
  | _, _, _, _ => none

/-- How many sequence numbers the range covers, received or not: at most 65536. -/
def count (b : StreamArrivals) : Nat :=
  match b.span? with
  | some s => s.last - s.first + 1
  | none => 0

def lastSeq (b : StreamArrivals) : UInt16 :=
  match b.span? with
  | some s => UInt16.ofNat s.last
  | none => 0

def firstSeq (b : StreamArrivals) : UInt16 := b.lastSeq - UInt16.ofNat (b.count - 1)

/-- Every sequence number covered, oldest first. -/
def range (b : StreamArrivals) : List UInt16 :=
  let first := b.firstSeq
  (List.range b.count).map fun i ↦ first + UInt16.ofNat i

/-- The arrivals in the order of the range, which after a wrap is not the numeric order. -/
def entries (b : StreamArrivals) : List (UInt16 × Arrival) :=
  b.range.filterMap fun seq ↦ (b.get? seq).map (seq, ·)

end StreamArrivals

end Congestion
