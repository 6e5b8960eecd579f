import Congestion.Queue
import Congestion.Units.Quantity
import Congestion.Feedback.Report

/-!
# The ledger of sent packets

A sender keeps a record of each packet it has sent, per stream, until the stream's newest send is
more than the retention time later. A sequence number sent again has one record, of its last send;
the entry of the earlier send in the send order is then stale and takes nothing with it when it
expires. Stream totals are never reduced.
-/

set_option autoImplicit false
set_option relaxedAutoImplicit false

namespace Congestion

structure SentPacket where
  ssrc : UInt32 := 0
  seq : UInt16 := 0
  sendTime : Instant := ⟨.infinity⟩
  /-- With all overhead up to the network layer. -/
  size : DataSize := 0

structure SentRecord where
  sendTime : Finite
  size : DataSize
  /-- Sent on the stream up to and with this packet. -/
  total : DataSize
deriving DecidableEq

structure SentStream where
  records : Std.ExtTreeMap UInt16 SentRecord := ∅
  /-- Sequence number and time of each send, oldest first. -/
  order : Queue (UInt16 × Finite) := {}
  lastSent : Option UInt16 := none
  total : DataSize := 0

namespace SentStream

/-- A record goes with the send that made it, not with an earlier one of the same number. -/
def forget (records : Std.ExtTreeMap UInt16 SentRecord) (sent : UInt16 × Finite) :
    Std.ExtTreeMap UInt16 SentRecord :=
  if records[sent.1]?.map SentRecord.sendTime = some sent.2 then records.erase sent.1 else records

/-- Expires sends from the oldest on, up to the first within the retention time. -/
def expire (s : SentStream) (now retention : Int) : SentStream :=
  let (expired, order) := s.order.popWhile fun sent ↦ sent.2.millisFloor + retention < now
  { s with order, records := expired.foldl forget s.records }

def send (s : SentStream) (p : SentPacket) (retention : Duration) :
    Checked (SentRecord × SentStream) := do
  let total ← s.total + p.size
  let sendTime ← p.sendTime.toFinite
  let record : SentRecord := { sendTime, size := p.size, total }
  let sent : SentStream :=
    { records := s.records.insert p.seq record, order := s.order.push (p.seq, sendTime),
      lastSent := some p.seq, total }
  return (record, sent.expire sendTime.millisFloor (← retention.millis))

/-- The retained records in the order of their sends. -/
def toList (s : SentStream) : List (UInt16 × SentRecord) :=
  s.order.toList.filterMap fun (seq, sendTime) ↦
    match s.records[seq]? with
    | some record => if record.sendTime = sendTime then some (seq, record) else none
    | none => none

end SentStream

/-- What has been sent and is covered by no report yet. -/
structure NetRemains where
  packets : Nat := 0
  bytes : DataSize := 0

structure Ledger where
  streams : Std.ExtTreeMap UInt32 SentStream := ∅
  retention : Duration
  /-- The time of the first send of the session. -/
  sessionStart : Option Instant := none
  /-- Packets sent less packets reported on; the counter stays at the ends of its range. -/
  inFlight : Nat := 0

namespace Ledger

def record (l : Ledger) (p : SentPacket) : Checked (SentRecord × Ledger) := do
  let (record, stream) ← (l.streams[p.ssrc]?.getD {}).send p l.retention
  return (record, { l with
    streams := l.streams.insert p.ssrc stream
    sessionStart := some (l.sessionStart.getD p.sendTime)
    inFlight := min (l.inFlight + 1) 0xffffffff })

/-- The next send starts a new session. -/
def restart (l : Ledger) : Ledger := { l with sessionStart := none }

/-! ### Views -/

def lookup (l : Ledger) (ssrc : UInt32) (seq : UInt16) : Option SentRecord :=
  match l.streams[ssrc]? with
  | some s => s.records[seq]?
  | none => none

def records (l : Ledger) (ssrc : UInt32) : List (UInt16 × SentRecord) :=
  match l.streams[ssrc]? with
  | some s => s.toList
  | none => []

def lastSent (l : Ledger) (ssrc : UInt32) : Option (UInt16 × SentRecord) := do
  let s ← l.streams[ssrc]?
  let seq ← s.lastSent
  return (seq, ← s.records[seq]?)

/-- How many records are retained, on all streams. -/
def size (l : Ledger) : Nat := l.streams.toList.foldl (fun n (_, s) ↦ n + s.records.size) 0

/-! ### Settling a report -/

/-- Bytes sent on each stream reported on, up to the last packet covered. -/
def acknowledged (l : Ledger) (r : Report) : Checked DataSize :=
  r.toList.foldlM (fun total (ssrc, b) ↦ total + (l.lookup ssrc b.lastSeq).elim 0 SentRecord.total) 0

def totalSent (l : Ledger) : Checked DataSize :=
  l.streams.toList.foldlM (fun total (_, s) ↦ total + s.total) 0

/-- Takes the packets covered off the packets in flight, and answers what remains. -/
def settle (l : Ledger) (r : Report) : Checked (NetRemains × Ledger) := do
  let acknowledged ← l.acknowledged r
  let sent ← l.totalSent
  let inFlight := l.inFlight - (← r.totalCount)
  return ({ packets := inFlight, bytes := max (← sent - acknowledged) 0 }, { l with inFlight })

end Ledger

end Congestion
