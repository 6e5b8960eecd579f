import Congestion.Proofs.Sender.CumulativeTotals
import Congestion.Proofs.Sender.InFlight
import Congestion.Proofs.Sender.Listings
import Congestion.Proofs.Sender.Repetitions

/-!
# What was sent in a period

The ledger retains packets of all streams, and `Ledger.retainedIn` is what it retains of a period.
An account goes through the streams of its report, and lists what was sent on these
(`Report.listedIn`). Where no packet is sent twice, a send order has no entry twice, so that each
retained packet is listed once (`SentStream.Follows.nodup_toList`), and what is listed is what is
retained on the streams of the report (`Report.listedIn_perm`).

The bytes sent in a period are therefore told in full where the report mentions every stream with
such a packet, and fall short by what was sent on the others (`sentInPeriod_eq_iff_mentioned`). A
stream of which nothing has come back is not mentioned, and none of its bytes count as sent
(`sentInPeriod_lacks_lostStream`).
-/

set_option autoImplicit false
set_option relaxedAutoImplicit false

namespace Congestion

/-! ### Send orders -/

/-- The entry of every record is in the send order, which is of some of the sends in their order. -/
structure SentStream.Follows (s : SentStream) (sends : List LoggedSend) : Prop where
  lists : s.Lists
  order : s.order.toList.Sublist (sends.map LoggedSend.entry)

namespace SentStream

variable {s s' : SentStream} {sends : List LoggedSend} {e : LoggedSend} {retention : Duration}

theorem follows_empty : ({} : SentStream).Follows [] := ⟨lists_empty, List.Sublist.refl _⟩

theorem Follows.send (hs : s.Follows sends)
    (h : s.send e.packet retention = .ok (e.record, s')) : s'.Follows (sends ++ [e]) := by
  refine ⟨hs.lists.send h, ?_⟩
  obtain ⟨sendTime, total, millis, -, -, -, hrecord, rfl⟩ := send_eq_ok_iff.mp h
  obtain rfl : e.record.sendTime = sendTime := congrArg SentRecord.sendTime hrecord
  rw [order_expire, Queue.toList_push, List.map_append]
  exact (List.dropWhile_sublist _).trans (hs.order.append (List.Sublist.refl [e.entry]))

/-- Where no number is sent twice, none is listed twice. -/
theorem Follows.nodup_toList (hs : s.Follows sends)
    (honce : (sends.map (·.packet.seq)).Nodup) : s.toList.Nodup := by
  have hentries : (sends.map LoggedSend.entry).Nodup := by
    refine List.Nodup.of_map Prod.fst ?_
    rwa [List.map_map]
  rw [toList_eq_filterMap]
  refine (hentries.sublist hs.order).filterMap fun sent sent' (seq, record) h h' ↦ ?_
  rw [(listing?_eq_some_iff.mp h).1, (listing?_eq_some_iff.mp h').1]

end SentStream

/-! ### Ledgers -/

namespace Ledger

variable {l : Ledger} {commands : List LedgerCommand} {sends : List LoggedSend}
  {retention : Duration} {period : Period} {r : Report}

theorem follows_of_log (h : Ledger.log { retention } commands = .ok (sends, l)) :
    EachStream SentStream.Follows l sends :=
  eachStream_of_log SentStream.follows_empty (fun _ _ _ _ hs hsent ↦ hs.send hsent) h

theorem lists_of_log (h : Ledger.log { retention } commands = .ok (sends, l)) : l.Lists := by
  intro ssrc s hs
  have hfollows := follows_of_log h ssrc
  rw [hs] at hfollows
  exact hfollows.lists

theorem nodup_records (honce : ((sentPackets commands).map SentPacket.key).Nodup)
    (h : Ledger.log { retention } commands = .ok (sends, l)) (ssrc : UInt32) :
    (l.records ssrc).Nodup := by
  rw [records_eq_toList]
  refine (follows_of_log h ssrc).nodup_toList (List.Nodup.of_map (ssrc, ·) ?_)
  rw [sentPackets, ← (packets_of_log h).1, List.map_map] at honce
  have hkeys : ((sendsOnStream sends ssrc).map (·.packet.seq)).map (ssrc, ·) =
      (sendsOnStream sends ssrc).map (SentPacket.key ∘ LoggedSend.packet) := by
    rw [List.map_map]
    refine List.map_congr_left fun e he ↦ ?_
    have hssrc : e.packet.ssrc = ssrc := of_decide_eq_true (List.mem_filter.mp he).2
    simp [SentPacket.key, hssrc]
  rw [hkeys]
  exact honce.sublist (List.filter_sublist.map _)

/-- A record tells the size of a packet that was sent. -/
theorem exists_packet_of_lookup (h : Ledger.log { retention } commands = .ok (sends, l))
    {ssrc : UInt32} {seq : UInt16} {record : SentRecord}
    (hfound : l.lookup ssrc seq = some record) :
    ∃ p ∈ sentPackets commands, record.size = p.size := by
  rw [lookup_eq] at hfound
  obtain ⟨before, e, after, hsends, -, rfl, -⟩ := (countsUp_of_log h ssrc).made seq record hfound
  have he : e ∈ sends := (List.mem_filter.mp (hsends ▸ by simp : e ∈ sendsOnStream sends ssrc)).1
  exact ⟨e.packet, mem_sentPackets_of_log h he, ((packets_of_log h).2 e he).size⟩

/-! ### Packets of a period -/

/-- What is retained of the packets sent in the period, on whatever stream. -/
def retainedIn (l : Ledger) (period : Period) : List ((UInt32 × UInt16) × SentRecord) :=
  l.keys.filterMap fun key ↦
    ((l.lookup key.1 key.2).filter fun record ↦ period.contains record.sendTime).map (key, ·)

theorem mem_retainedIn_iff {sent : (UInt32 × UInt16) × SentRecord} :
    sent ∈ l.retainedIn period ↔
      l.lookup sent.1.1 sent.1.2 = some sent.2 ∧ period.contains sent.2.sendTime := by
  obtain ⟨key, record⟩ := sent
  simp only [retainedIn, List.mem_filterMap, Option.map_eq_some_iff, Option.filter_eq_some_iff,
    Prod.mk.injEq]
  constructor
  · rintro ⟨_, -, _, hfound, rfl, rfl⟩
    exact hfound
  · intro hfound
    exact ⟨key, mem_keys_iff.mpr (Option.isSome_of_mem hfound.1), record, hfound, rfl, rfl⟩

theorem nodup_retainedIn (l : Ledger) (period : Period) : (l.retainedIn period).Nodup := by
  refine l.nodup_keys.filterMap fun key key' sent h h' ↦ ?_
  obtain ⟨_, -, rfl⟩ := Option.map_eq_some_iff.mp h
  obtain ⟨_, -, heq⟩ := Option.map_eq_some_iff.mp h'
  exact (congrArg Prod.fst heq).symm

end Ledger

namespace Report

def mentions (r : Report) (ssrc : UInt32) : Bool := (r.stream? ssrc).isSome

/-- What the ledger lists of the period for the streams of the report. -/
def listedIn (r : Report) (l : Ledger) (period : Period) :
    List ((UInt32 × UInt16) × SentRecord) :=
  r.toList.flatMap fun stream ↦ ((l.records stream.1).filter fun sent ↦
    period.contains sent.2.sendTime).map fun sent ↦ ((stream.1, sent.1), sent.2)

end Report

def sizesOf (sent : List ((UInt32 × UInt16) × SentRecord)) : ExtendedInt :=
  (sent.map fun s ↦ s.2.size.value).sum

theorem sizesOf_filter_add_filter_not (test : (UInt32 × UInt16) × SentRecord → Bool)
    (sent : List ((UInt32 × UInt16) × SentRecord)) :
    sizesOf (sent.filter test) + sizesOf (sent.filter fun s ↦ !test s) = sizesOf sent := by
  have hsum :=
    List.sum_map_filter_add_sum_map_filter_not (test · = true) (fun s ↦ s.2.size.value) sent
  simpa [sizesOf] using hsum

theorem sizesOf_eq_zero_iff {sent : List ((UInt32 × UInt16) × SentRecord)}
    (hsizes : ∀ s ∈ sent, 0 < s.2.size) : sizesOf sent = 0 ↔ sent = [] := by
  constructor
  · intro hzero
    refine List.eq_nil_iff_forall_not_mem.mpr fun s hs ↦ ?_
    have hle : s.2.size.value ≤ sizesOf sent := by
      refine List.single_le_sum (fun value hvalue ↦ ?_) _ (List.mem_map_of_mem hs)
      obtain ⟨s', hs', rfl⟩ := List.mem_map.mp hvalue
      exact (Quantity.value_pos_iff.mpr (hsizes s' hs')).le
    exact absurd (Quantity.value_pos_iff.mpr (hsizes s hs)) (hzero ▸ hle).not_gt
  · rintro rfl
    rfl

namespace Report

variable {r : Report} {l : Ledger} {period : Period}

theorem mem_listedIn_iff (hl : l.Lists) {sent : (UInt32 × UInt16) × SentRecord} :
    sent ∈ r.listedIn l period ↔ sent ∈ l.retainedIn period ∧ r.mentions sent.1.1 := by
  obtain ⟨⟨ssrc, seq⟩, record⟩ := sent
  simp only [listedIn, List.mem_flatMap, List.mem_map, List.mem_filter, Prod.mk.injEq, Prod.exists,
    Ledger.mem_retainedIn_iff, mentions, stream?, Option.isSome_iff_exists, mem_toList_iff,
    Ledger.mem_records_iff hl]
  constructor
  · rintro ⟨_, b, hb, _, _, hfound, ⟨rfl, rfl⟩, rfl⟩
    exact ⟨hfound, b, hb⟩
  · rintro ⟨hfound, b, hb⟩
    exact ⟨ssrc, b, hb, seq, record, hfound, ⟨rfl, rfl⟩, rfl⟩

theorem nodup_listedIn (hrecords : ∀ ssrc, (l.records ssrc).Nodup) :
    (r.listedIn l period).Nodup := by
  refine nodup_flatMap_of_keys (·.1.1) r.nodup_toList (fun s _ ↦ ?_) fun s _ sent hsent ↦ ?_
  · refine ((hrecords s.1).filter _).map fun sent sent' heq ↦ ?_
    exact Prod.ext (congrArg (·.1.2) heq) (congrArg (·.2) heq)
  · obtain ⟨_, -, rfl⟩ := List.mem_map.mp hsent
    rfl

/-- What is listed is what is retained on the streams of the report. -/
theorem listedIn_perm (hl : l.Lists) (hrecords : ∀ ssrc, (l.records ssrc).Nodup) :
    (r.listedIn l period).Perm ((l.retainedIn period).filter fun sent ↦ r.mentions sent.1.1) := by
  refine (List.perm_ext_iff_of_nodup (nodup_listedIn hrecords)
    ((l.nodup_retainedIn period).filter _)).mpr fun sent ↦ ?_
  rw [mem_listedIn_iff hl, List.mem_filter]

end Report

/-! ### Accounts -/

namespace Accounting

variable {l : Ledger} {commands : List LedgerCommand} {retention : Duration} {period : Period}
  {r : Report} {account : Accounting}

theorem value_sentInPeriod_eq_sizesOf (h : Accounting.ofReport r l period = .ok account) :
    account.bytes.sentInPeriod.value = sizesOf (r.listedIn l period) := by
  have hlistings : listings l period r =
      (r.listedIn l period).map fun sent ↦ (sent.1, sent.2.size) := by
    simp only [listings, Report.listedIn, List.map_flatMap, List.map_map, Function.comp_def]
  rw [value_sentInPeriod h, hlistings, List.map_map]
  rfl

/-- The bytes sent in a period are of the streams that the report mentions, and with those sent on
the others they are all that is retained of the period. So where the report mentions every stream
that was sent on in the period they are all of these; and where it does not, they are fewer, if no
packet is empty and their sum is finite.

Assumes: the ledger starts empty, and no packet is sent twice. -/
theorem sentInPeriod_eq_iff_mentioned (honce : ((sentPackets commands).map SentPacket.key).Nodup)
    (hrun : Ledger.run { retention } commands = .ok l)
    (h : Accounting.ofReport r l period = .ok account) :
    account.bytes.sentInPeriod.value =
      sizesOf ((l.retainedIn period).filter fun sent ↦ r.mentions sent.1.1) ∧
    account.bytes.sentInPeriod.value +
      sizesOf ((l.retainedIn period).filter fun sent ↦ !r.mentions sent.1.1) =
        sizesOf (l.retainedIn period) ∧
    ((∀ sent ∈ l.retainedIn period, r.mentions sent.1.1) →
      account.bytes.sentInPeriod.value = sizesOf (l.retainedIn period)) ∧
    ((∀ p ∈ sentPackets commands, 0 < p.size) → account.bytes.sentInPeriod.isFinite →
      (account.bytes.sentInPeriod.value = sizesOf (l.retainedIn period) ↔
        ∀ sent ∈ l.retainedIn period, r.mentions sent.1.1)) := by
  obtain ⟨sends, hlog⟩ := Ledger.exists_log_of_run hrun
  have hperm : (r.listedIn l period).Perm
      ((l.retainedIn period).filter fun sent ↦ r.mentions sent.1.1) :=
    Report.listedIn_perm (Ledger.lists_of_log hlog) (Ledger.nodup_records honce hlog)
  have hmentioned : account.bytes.sentInPeriod.value =
      sizesOf ((l.retainedIn period).filter fun sent ↦ r.mentions sent.1.1) := by
    rw [value_sentInPeriod_eq_sizesOf h]
    exact (hperm.map _).sum_eq
  have hall := sizesOf_filter_add_filter_not (fun sent ↦ r.mentions sent.1.1) (l.retainedIn period)
  rw [← hmentioned] at hall
  have hfull : (∀ sent ∈ l.retainedIn period, r.mentions sent.1.1) →
      account.bytes.sentInPeriod.value = sizesOf (l.retainedIn period) := fun hevery ↦ by
    rw [hmentioned, List.filter_eq_self.mpr hevery]
  refine ⟨hmentioned, hall, hfull, fun hsizes hfinite ↦ ⟨fun heq ↦ ?_, hfull⟩⟩
  -- what the others add is nothing, and so there are none
  rw [← heq] at hall
  have hnothing := (Quantity.isAddUnit_value hfinite).add_left_cancel (hall.trans (add_zero _).symm)
  have hpositive : ∀ sent ∈ (l.retainedIn period).filter fun sent ↦ !r.mentions sent.1.1,
      0 < sent.2.size := by
    intro sent hsent
    have hfound := (Ledger.mem_retainedIn_iff.mp (List.mem_filter.mp hsent).1).1
    obtain ⟨p, hp, hsize⟩ := Ledger.exists_packet_of_lookup hlog hfound
    exact hsize ▸ hsizes p hp
  have hnone := (sizesOf_eq_zero_iff hpositive).mp hnothing
  simpa using List.filter_eq_nil_iff.mp hnone

/-- Both streams that were sent on are mentioned, and packet 2 of stream 7 is lost. -/
theorem sentInPeriod_eq_iff_mentioned_twoStreams : ∃ l account,
    Ledger.run { retention := .exactly 10000000 } sentOutOfOrder = .ok l ∧
    Accounting.ofReport twoStreams l ⟨15, 25⟩ = .ok account ∧
    account.bytes.sentInPeriod = .exactly 350 ∧
    account.bytes.sentInPeriod.value = sizesOf (l.retainedIn ⟨15, 25⟩) := by
  obtain ⟨l, hrun, htest⟩ := exists_ok_of_any
    (x := Ledger.run { retention := .exactly 10000000 } sentOutOfOrder)
    (fun l ↦ decide (∀ sent ∈ l.retainedIn ⟨15, 25⟩, twoStreams.mentions sent.1.1) &&
      (Accounting.ofReport twoStreams l ⟨15, 25⟩).toOption.any fun (account : Accounting) ↦
        decide (account.bytes.sentInPeriod = .exactly 350)) (by decide +kernel)
  obtain ⟨hmentioned, htest⟩ := Bool.and_eq_true_iff.mp htest
  obtain ⟨account, haccount, hsent⟩ := exists_ok_of_any _ htest
  have honce : ((sentPackets sentOutOfOrder).map SentPacket.key).Nodup := by decide
  obtain ⟨-, -, hfull, -⟩ := sentInPeriod_eq_iff_mentioned honce hrun haccount
  exact ⟨l, account, hrun, haccount, of_decide_eq_true hsent, hfull (of_decide_eq_true hmentioned)⟩

/-- One packet is sent on each of two streams. -/
def sentOnBoth : List LedgerCommand :=
  [.send ⟨1, 1, ⟨.exactly 1000000⟩, .exactly 1000⟩, .send ⟨2, 1, ⟨.exactly 1000000⟩, .exactly 1000⟩]

/-- Only the packet of stream 1 has come back. -/
def lostStream : Report := (Report.record { time := 600, monitored := 100 } 1 1 590 0).2

/-- Of what was sent in the period of the report, the half that was lost does not count as sent. -/
theorem sentInPeriod_lacks_lostStream : ∃ l account,
    Ledger.run { retention := .exactly 10000000 } sentOnBoth = .ok l ∧
    SendsInOrder sentOnBoth ∧ ((sentPackets sentOnBoth).map SentPacket.key).Nodup ∧
    Period.ofReport lostStream l = .ok ⟨910, 1010⟩ ∧
    Accounting.ofReport lostStream l ⟨910, 1010⟩ = .ok account ∧
    account.bytes.sentInPeriod = .exactly 1000 ∧
    sizesOf (l.retainedIn ⟨910, 1010⟩) = (Quantity.exactly 2000 : DataSize).value ∧
    account.bytes.sentInPeriod.value ≠ sizesOf (l.retainedIn ⟨910, 1010⟩) := by
  have hordered : SendsInOrder sentOnBoth := fun ssrc ↦ List.Pairwise.filter _ (by decide)
  obtain ⟨l, hrun, htest⟩ := exists_ok_of_any
    (x := Ledger.run { retention := .exactly 10000000 } sentOnBoth)
    (fun l ↦ decide (Period.ofReport lostStream l = .ok ⟨910, 1010⟩ ∧
        (l.retainedIn ⟨910, 1010⟩).map (fun sent ↦ sent.2.size) =
          [.exactly 1000, .exactly 1000]) &&
      (Accounting.ofReport lostStream l ⟨910, 1010⟩).toOption.any fun (account : Accounting) ↦
        decide (account.bytes.sentInPeriod = .exactly 1000)) (by decide +kernel)
  obtain ⟨htest, haccount⟩ := Bool.and_eq_true_iff.mp htest
  obtain ⟨hperiod, hretained⟩ := of_decide_eq_true htest
  obtain ⟨account, haccount, hsent⟩ := exists_ok_of_any _ haccount
  have hsent := of_decide_eq_true hsent
  have hall : sizesOf (l.retainedIn ⟨910, 1010⟩) = (Quantity.exactly 2000 : DataSize).value := by
    show ((l.retainedIn ⟨910, 1010⟩).map (Quantity.value ∘ fun sent ↦ sent.2.size)).sum = _
    rw [← List.map_map, hretained]
    rfl
  refine ⟨l, account, hrun, hordered, by decide, hperiod, haccount, hsent, hall, ?_⟩
  rw [hall, hsent]
  decide

end Accounting

end Congestion
