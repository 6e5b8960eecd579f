import Congestion.Sender.Period

/-!
# Accounting for a report

`Accounting.ofReport` matches what a report covers with the ledger: the bytes that came back, the
bytes sent in the period, the losses, and one delay sample for each packet that arrived.
-/

set_option autoImplicit false
set_option relaxedAutoImplicit false

namespace Congestion

/-- One packet with both its times, the arrival on the receiver's clock. -/
structure DelaySample where
  ssrc : UInt32
  seq : UInt16
  sendTime : Instant
  arrival : UInt64
  size : DataSize
deriving DecidableEq

/-- One-way delay in milliseconds, with the unknown offset between the two clocks in it. -/
def DelaySample.rawDelay (s : DelaySample) : Checked Int := do
  signed64 (s.arrival.toInt64.toInt - (← s.sendTime.millisFloor))

namespace DelaySample

/-- No sample was sent before the one ahead of it. -/
def inOrder : List DelaySample → Bool
  | a :: b :: rest => a.sendTime ≤ b.sendTime && inOrder (b :: rest)
  | _ => true

/-- The samples in the order of their sends, as those of one stream nearly always are already. -/
def sorted (l : List DelaySample) : List DelaySample :=
  if inOrder l then l else l.mergeSort fun a b ↦ a.sendTime ≤ b.sendTime

theorem pairwise_of_inOrder {l : List DelaySample} (h : inOrder l) :
    l.Pairwise fun a b ↦ a.sendTime ≤ b.sendTime := by
  induction l with
  | nil => exact .nil
  | cons a rest ih =>
    cases rest with
    | nil => exact .cons (by simp) .nil
    | cons b rest =>
      simp only [inOrder, Bool.and_eq_true, decide_eq_true_eq] at h
      obtain ⟨hab, hrest⟩ := h
      have hpairwise := ih hrest
      refine .cons (fun c hc ↦ ?_) hpairwise
      rcases List.mem_cons.mp hc with rfl | hc
      · exact hab
      · exact Int.le_trans hab ((List.pairwise_cons.mp hpairwise).1 c hc)

theorem sorted_eq_mergeSort (l : List DelaySample) :
    sorted l = l.mergeSort fun a b ↦ a.sendTime ≤ b.sendTime := by
  unfold sorted
  split
  next h =>
    refine (List.mergeSort_of_pairwise ((pairwise_of_inOrder h).imp fun hab ↦ ?_)).symm
    exact decide_eq_true hab
  next => rfl

end DelaySample

/-- A sequence number that a report covers, with what either side knows of it. -/
structure Covered where
  ssrc : UInt32
  seq : UInt16
  arrival : Option Arrival
  record : Option SentRecord

namespace Covered

def ofStream (ledger : Ledger) (ssrc : UInt32) (b : StreamArrivals) : List Covered :=
  b.range.map fun seq ↦ { ssrc, seq, arrival := b.get? seq, record := ledger.lookup ssrc seq }

def ofReport (ledger : Ledger) (r : Report) : List Covered :=
  r.toList.flatMap fun (ssrc, b) ↦ ofStream ledger ssrc b

def sample? (c : Covered) : Option DelaySample :=
  match c.arrival, c.record with
  | some a, some record =>
    some { ssrc := c.ssrc, seq := c.seq, sendTime := record.sendTime.toInstant, arrival := a.time,
           size := record.size }
  | _, _ => none

def isLoss (c : Covered) : Bool := c.record.isSome && c.arrival.isNone

def isMiss (c : Covered) : Bool := c.record.isNone

end Covered

structure ByteTotals where
  /-- Of every packet that arrived. -/
  received : DataSize := 0
  /-- Of those that arrived and were sent in the period. -/
  receivedInPeriod : DataSize := 0
  /-- Of all that were sent in the period. -/
  sentInPeriod : DataSize := 0
  /-- Sent after the last packet covered, up to the last send of the period. -/
  lastAdded : DataSize := 0

namespace ByteTotals

def addCovered (period : Period) (t : ByteTotals) (c : Covered) : Checked ByteTotals :=
  match c.arrival, c.record with
  | some _, some record => do
    let received ← t.received + record.size
    let receivedInPeriod ←
      if period.contains record.sendTime then t.receivedInPeriod + record.size
      else pure t.receivedInPeriod
    return { t with received, receivedInPeriod }
  | _, _ => .ok t

def addSent (t : ByteTotals) (record : SentRecord) : Checked ByteTotals := do
  return { t with sentInPeriod := ← t.sentInPeriod + record.size }

/-- The first of the latest sends. -/
def latest (records : List SentRecord) : Option SentRecord :=
  records.foldl (fun best record ↦
    match best with
    | none => some record
    | some b => if b.sendTime.millisFloor < record.sendTime.millisFloor then some record else some b)
    none

def addStream (ledger : Ledger) (period : Period) (t : ByteTotals)
    (stream : UInt32 × StreamArrivals) : Checked ByteTotals := do
  let (ssrc, b) := stream
  let t ← (Covered.ofStream ledger ssrc b).foldlM (addCovered period) t
  let sent := ((ledger.records ssrc).map Prod.snd).filter fun record ↦ period.contains record.sendTime
  let t ← sent.foldlM addSent t
  match latest sent, ledger.lookup ssrc b.lastSeq with
  | some record, some last =>
    if last.total < record.total then
      return { t with lastAdded := ← t.lastAdded + (← record.total - last.total) }
    else return t
  | _, _ => return t

end ByteTotals

/-- Losses and misses are sequence numbers that the report covers: they stay words of 32 bits where
the number of all of them, `Report.totalCount`, is one, as it is of any report read from a datagram.
The controller asks for it before it accounts for the report. -/
structure Accounting where
  bytes : ByteTotals := {}
  losses : Nat := 0
  /-- Sequence numbers covered that the ledger has no record of. -/
  misses : Nat := 0
  /-- In the order of their sends. -/
  samples : List DelaySample := []

def Accounting.ofReport (r : Report) (ledger : Ledger) (period : Period) : Checked Accounting := do
  let bytes ← r.toList.foldlM (ByteTotals.addStream ledger period) {}
  let covered := Covered.ofReport ledger r
  return {
    bytes
    losses := covered.countP Covered.isLoss
    misses := covered.countP Covered.isMiss
    samples := DelaySample.sorted (covered.filterMap Covered.sample?) }

end Congestion
