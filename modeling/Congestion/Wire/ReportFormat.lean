import Congestion.Feedback.Report
import Congestion.Wire.Header

/-!
# The written form of feedback reports

```text
 0                   1                   2                   3
 0 1 2 3 4 5 6 7 8 9 0 1 2 3 4 5 6 7 8 9 0 1 2 3 4 5 6 7 8 9 0 1
+-+-+-+-+-+-+-+-+-+-+-+-+-+-+-+-+-+-+-+-+-+-+-+-+-+-+-+-+-+-+-+-+
|V=2|P|  FMT=13 |   PT=205      |          length               |
|                           sender                              |
|                           zero                                |
|                 report time, low 32 bits                      |
|       report number           |     monitored duration        |
|                           stream                              |
|             count             |        last number            |
|R|ECN|  time since arrival     |             ...               |
+-+-+-+-+-+-+-+-+-+-+-+-+-+-+-+-+-+-+-+-+-+-+-+-+-+-+-+-+-+-+-+-+
```

Each stream has one entry for every sequence number it covers, and a zero word after an odd number
of them. `encode` checks everything that can be refused before it writes, and `decode` keeps the
first entry of a packet. Only the low 32 bits of the report time are written; reading takes the
clock to have wrapped once where an arrival would otherwise lie before its zero.
-/

set_option autoImplicit false
set_option relaxedAutoImplicit false

namespace Congestion

namespace Header

def feedbackType : UInt8 := 205
def feedbackFormat : UInt8 := 13

def isReport (h : Header) : Bool := h.packetType = feedbackType && h.format = feedbackFormat

end Header

/-! ### Writing -/

namespace StreamArrivals

/-- Written size in bytes. -/
def wireLen (b : StreamArrivals) : Nat := 8 + (b.count + b.count % 2) * 2

/-- Zero for a packet that has not arrived, else the received bit, the mark and the time between
its arrival and the report. -/
def entryWord (b : StreamArrivals) (time : UInt64) (seq : UInt16) : Checked UInt16 :=
  match b.get? seq with
  | none => .ok 0
  | some a => do
    let offset ← unsigned64Sub time a.time
    return 0x8000 + a.mark.bits.toUInt16 * 0x2000 + offset.toUInt16

def words (b : StreamArrivals) (time : UInt64) (ssrc : UInt32) : Checked (List UInt16) := do
  let entries ← b.range.mapM (b.entryWord time)
  return Words.split32 ssrc ++ [UInt16.ofNat b.count, b.lastSeq] ++ entries ++
    List.replicate (b.count % 2) 0

/-- The entries up to the first that cannot be told. -/
def entriesBefore (b : StreamArrivals) (time : UInt64) : List UInt16 :=
  ((b.range.map (b.entryWord time)).takeWhile Except.isOk).filterMap Except.toOption

def wordsBefore (b : StreamArrivals) (time : UInt64) (ssrc : UInt32) : List UInt16 :=
  Words.split32 ssrc ++ [UInt16.ofNat b.count, b.lastSeq] ++ b.entriesBefore time

/-- Refuses a range too long for its count, and an arrival whose distance from the report, both
read as signed words, does not fit its 13 bits. -/
def check (b : StreamArrivals) (time : UInt64) (ssrc : UInt32) : Outcome Unit := do
  if 65535 < b.count then throw (.rejected (.spanOverflow ssrc b.count))
  b.entries.forM fun (seq, a) ↦ do
    let offset ← signed64 (time.toInt64.toInt - a.time.toInt64.toInt)
    if offset < 0 ∨ 8191 < offset then throw (.rejected (.arrivalOffset ssrc seq offset))

end StreamArrivals

namespace Report

/-- Written size in bytes, header included. -/
def wireLen (r : Report) : Nat := r.toList.foldl (fun n (_, b) ↦ n + b.wireLen) 20

def header (r : Report) : Except Rejection Header :=
  if r.wireLen / 4 - 1 ≤ 65535 then
    .ok { padding := false, format := Header.feedbackFormat, packetType := Header.feedbackType,
          length := UInt16.ofNat (r.wireLen / 4 - 1) }
  else .error (.lengthOverflow r.wireLen)

def fixedWords (r : Report) : List UInt16 :=
  Words.split32 r.sender ++ [0, 0] ++ Words.split32 r.time.toUInt32 ++ [r.number, r.monitored]

/-- Everything after the header. -/
def bodyWords (r : Report) : Checked (List UInt16) := do
  let streams ← r.toList.mapM fun (ssrc, b) ↦ b.words r.time ssrc
  return r.fixedWords ++ streams.flatten

/-- The words of some streams up to the first entry that cannot be told. -/
def wordsBefore (time : UInt64) : List (UInt32 × StreamArrivals) → List UInt16
  | [] => []
  | (ssrc, b) :: rest =>
    match b.words time ssrc with
    | .ok words => words ++ wordsBefore time rest
    | .error _ => b.wordsBefore time ssrc

def check (r : Report) : Outcome Header := do
  let header ← r.header
  r.toList.forM fun (ssrc, b) ↦ b.check r.time ssrc
  return header

/-- A report that is refused leaves the buffer as it was. A fault while its words are written leaves
those before it in the buffer. -/
def encodeInto (r : Report) (buf : Buffer) : Outcome Unit × Buffer :=
  match r.check with
  | .error e => (.error e, buf)
  | .ok header =>
    if buf.hasRoom header.packetSize then
      match r.bodyWords with
      | .ok words => (.ok (), buf.append (header.encode ++ Words.toBytes words))
      | .error f =>
        let words := r.fixedWords ++ wordsBefore r.time r.toList
        (.error (.fault f), buf.append (header.encode ++ Words.toBytes words))
    else (.error (.rejected .truncated), buf)

def encode (r : Report) : Outcome (List UInt8) :=
  match r.encodeInto {} with
  | (.ok _, buf) => .ok buf.written
  | (.error e, _) => .error e

end Report

/-! ### Reading -/

/-- The entries of one stream as they are written. -/
structure StreamSection where
  ssrc : UInt32
  last : UInt16
  entries : List UInt16
deriving DecidableEq

/-- A packet that a report tells to have arrived, with the time since then in milliseconds. -/
structure Acknowledged where
  ssrc : UInt32
  seq : UInt16
  bits : UInt8
  offset : UInt64
deriving DecidableEq

def Acknowledged.ofWord? (ssrc : UInt32) (seq word : UInt16) : Option Acknowledged :=
  if 0x8000 ≤ word then
    some { ssrc, seq, bits := (word / 0x2000 % 4).toUInt8, offset := (word % 0x2000).toUInt64 }
  else none

namespace StreamSection

def acknowledged (s : StreamSection) : List Acknowledged :=
  let first := s.last - (UInt16.ofNat s.entries.length - 1)
  s.entries.zipIdx.filterMap fun (word, i) ↦
    Acknowledged.ofWord? s.ssrc (first + UInt16.ofNat i) word

/-- The words after an odd number of entries are passed over. -/
def readAll (words : List UInt16) : Except Rejection (List StreamSection) :=
  match words with
  | [] => .ok []
  | s₁ :: s₂ :: count :: last :: rest =>
    let padded := count.toNat + count.toNat % 2
    if (rest.take padded).length < padded then .error .truncated
    else
      match readAll (rest.drop padded) with
      | .ok sections => .ok (⟨Words.join32 s₁ s₂, last, rest.take count.toNat⟩ :: sections)
      | .error e => .error e
  | _ => .error .truncated
termination_by words.length
decreasing_by simp; omega

end StreamSection

namespace Report

/-- The report time of the low 32 bits: the clock has wrapped once where a packet would otherwise
have arrived before its zero. -/
def unwrapTime (low : UInt32) (acks : List Acknowledged) : UInt64 :=
  if acks.any (low.toUInt64 < ·.offset) then low.toUInt64 + 0x100000000 else low.toUInt64

def recordAll (r : Report) (acks : List Acknowledged) : Checked Report :=
  acks.foldlM (fun r a ↦ do
    let time ← unsigned64Sub r.time a.offset
    return (r.record a.ssrc a.seq time a.bits).2) r

def ofWords (words : List UInt16) : Outcome Report :=
  match words with
  | s₁ :: s₂ :: z₁ :: z₂ :: t₁ :: t₂ :: number :: monitored :: rest =>
    if Words.join32 z₁ z₂ = 0 then do
      let sections ← StreamSection.readAll rest
      let acks := sections.flatMap StreamSection.acknowledged
      let time := unwrapTime (Words.join32 t₁ t₂) acks
      recordAll { sender := Words.join32 s₁ s₂, time, number, monitored } acks
    else .error (.rejected (.invalidHeader .reservedStream))
  | _ => .error (.rejected .truncated)

/-- Reads one report, header included, and answers what is left of the input. The body is taken
only when all of it is there. -/
def decode (input : List UInt8) : Outcome Report × List UInt8 :=
  match Header.decode input with
  | (.error e, rest) => (.error (.rejected e), rest)
  | (.ok header, rest) =>
    if header.isReport then
      match header.takeBody rest with
      | (.error e, rest) => (.error (.rejected e), rest)
      | (.ok body, rest) => (ofWords (Words.ofBytes body), rest)
    else (.error (.rejected (.invalidHeader .notReceiverFeedback)), rest)

end Report

end Congestion
