import Congestion.Path.Bandwidth
import Congestion.Proofs.Sender.Accounts
import Mathlib.Algebra.Order.BigOperators.Group.List
import Mathlib.Data.List.Nodup

/-!
# What a ledger lists

A ledger finds its records by number and lists them by their sends. `Ledger.Lists` is what keeps the
two together: the entry of every record is in the send order. A send keeps it, at whatever time,
since where an entry expires the record goes with it (`SentStream.Lists.expire`), and so does a run
(`Ledger.lists_and_weighs_run`). What is listed is then what is found (`Ledger.mem_records_iff`), a
packet that was sent more than once at one time perhaps listed more than once.

Each packet that has come back is charged to a listing of its own (`returned_subset_listings`,
`nodup_returned`). Where nothing is sent that has a negative size (`Ledger.Weighs`), no more bytes
have come back of what was sent in a period than were sent in it (`Ledger.received_le_sent`).
-/

set_option autoImplicit false
set_option relaxedAutoImplicit false

namespace Congestion

/-! ### Send orders -/

/-- The entry of every record is in the send order. -/
def SentStream.Lists (s : SentStream) : Prop :=
  ∀ (seq : UInt16) (record : SentRecord), s.records[seq]? = some record →
    (seq, record.sendTime) ∈ s.order.toList

namespace SentStream

variable {s s' : SentStream} {p : SentPacket} {retention : Duration} {record : SentRecord}

theorem lists_empty : ({} : SentStream).Lists := fun seq record h ↦ by simp at h

/-- A record whose entry expires goes with it. -/
theorem Lists.expire (hs : s.Lists) (now millis : Int) : (s.expire now millis).Lists := by
  intro seq record hrecord
  rw [getElem?_records_expire] at hrecord
  obtain ⟨hfound, hexpired⟩ := Option.filter_eq_some_iff.mp hrecord
  have hlisted := hs seq record hfound
  rw [← List.takeWhile_append_dropWhile (p := fun sent : UInt16 × Finite ↦
    decide (sent.2.millisFloor + millis < now)) (l := s.order.toList)] at hlisted
  rw [order_expire]
  exact (List.mem_append.mp hlisted).resolve_left (of_decide_eq_true hexpired)

theorem Lists.send (hs : s.Lists) (h : s.send p retention = .ok (record, s')) : s'.Lists := by
  obtain ⟨sendTime, total, millis, -, -, -, rfl, rfl⟩ := send_eq_ok_iff.mp h
  refine Lists.expire (fun seq found hfound ↦ ?_) _ _
  rw [Queue.toList_push]
  dsimp only at hfound
  rw [Std.ExtTreeMap.getElem?_insert] at hfound
  split at hfound
  next hseq =>
    obtain rfl := Std.LawfulEqOrd.compare_eq_iff_eq.mp hseq
    cases hfound
    simp
  next => exact List.mem_append_left _ (hs seq found hfound)

end SentStream

/-! ### Ledgers -/

namespace Ledger

variable {l l' : Ledger} {p : SentPacket} {made : SentRecord} {commands : List LedgerCommand}

def Lists (l : Ledger) : Prop :=
  ∀ (ssrc : UInt32) (s : SentStream), l.streams[ssrc]? = some s → s.Lists

/-- No record is of a negative size. -/
def Weighs (l : Ledger) : Prop :=
  ∀ ssrc seq record, l.lookup ssrc seq = some record → 0 ≤ record.size

theorem Lists.record (hl : l.Lists) (h : l.record p = .ok (made, l')) : l'.Lists := by
  obtain ⟨stream, hstream, rfl⟩ := record_eq_ok_iff.mp h
  intro ssrc s hs
  dsimp only at hs
  rw [Std.ExtTreeMap.getElem?_insert] at hs
  split at hs
  · cases hs
    refine SentStream.Lists.send ?_ hstream
    cases hlisted : l.streams[p.ssrc]? with
    | none => exact SentStream.lists_empty
    | some s => exact hl p.ssrc s hlisted
  · exact hl ssrc s hs

theorem Weighs.record (hl : l.Weighs) (hp : 0 ≤ p.size) (h : l.record p = .ok (made, l')) :
    l'.Weighs := by
  intro ssrc seq found hfound
  obtain hsize | hold := lookup_of_record h hfound
  · rwa [hsize]
  · exact hl ssrc seq found hold

/-- A run keeps both, when nothing is sent that has a negative size. -/
theorem lists_and_weighs_run (hsizes : ∀ p, .send p ∈ commands → 0 ≤ p.size)
    (hl : l.Lists ∧ l.Weighs) (h : l.run commands = .ok l') : l'.Lists ∧ l'.Weighs := by
  refine foldlM_keeps (fun l ↦ l.Lists ∧ l.Weighs) (fun c hc l l' hl hstep ↦ ?_) hl h
  cases c with
  | send p =>
    obtain ⟨⟨made, l''⟩, hrecord, rfl⟩ := map_eq_ok_iff.mp hstep
    exact ⟨hl.1.record hrecord, hl.2.record (hsizes p hc) hrecord⟩
  | settle r =>
    obtain ⟨⟨remains, l''⟩, hsettle, rfl⟩ := map_eq_ok_iff.mp hstep
    obtain ⟨inFlight, rfl⟩ := exists_inFlight_of_settle hsettle
    exact hl
  | restart =>
    cases hstep
    exact hl

/-- What is found is listed, and nothing else. -/
theorem mem_records_iff (hl : l.Lists) {ssrc : UInt32} {sent : UInt16 × SentRecord} :
    sent ∈ l.records ssrc ↔ l.lookup ssrc sent.1 = some sent.2 := by
  refine ⟨lookup_of_mem_records, fun hfound ↦ ?_⟩
  unfold lookup at hfound
  unfold records
  split at hfound
  next s hs =>
    refine List.mem_filterMap.mpr ⟨_, hl ssrc s hs sent.1 sent.2 hfound, ?_⟩
    simp [hfound]
  next => cases hfound

end Ledger

/-! ### Sent and received -/

namespace Accounting

open ByteTotals

variable {r : Report} {ledger : Ledger} {period : Period} {account : Accounting}

/-- What has been sent in the period on the streams of the report, each listing with its packet. -/
def listings (ledger : Ledger) (period : Period) (r : Report) :
    List ((UInt32 × UInt16) × DataSize) :=
  r.toList.flatMap fun stream ↦ ((ledger.records stream.1).filter fun sent ↦
    period.contains sent.2.sendTime).map fun sent ↦ ((stream.1, sent.1), sent.2.size)

/-- Of what has come back, the packets sent in the period. -/
def returned (ledger : Ledger) (period : Period) (r : Report) :
    List ((UInt32 × UInt16) × DataSize) :=
  ((arrived ledger r.toList).filter (·.sentIn period)).map fun s ↦ (s.key, s.size)

theorem sizes_listings (ledger : Ledger) (period : Period) (r : Report) :
    (listings ledger period r).map Prod.snd =
      (r.toList.flatMap fun stream ↦ sentOf ledger period stream.1).map SentRecord.size := by
  simp [listings, sentOf, List.map_flatMap, List.filter_map, Function.comp_def]

theorem nodup_returned (ledger : Ledger) (period : Period) (r : Report) :
    (returned ledger period r).Nodup := by
  have hkeys : ((returned ledger period r).map Prod.fst).Sublist
      ((arrived ledger r.toList).map DelaySample.key) := by
    rw [returned, List.map_map]
    exact List.filter_sublist.map DelaySample.key
  exact ((nodup_keys_arrived ledger r).sublist hkeys).of_map Prod.fst

/-- What has come back has a listing. -/
theorem returned_subset_listings (hl : ledger.Lists) :
    returned ledger period r ⊆ listings ledger period r := by
  intro charge hcharge
  obtain ⟨s, hs, rfl⟩ := List.mem_map.mp hcharge
  obtain ⟨harrived, hin⟩ := List.mem_filter.mp hs
  obtain ⟨a, record, harrival, hrecord, htime, hsize, -⟩ := mem_arrived_iff.mp harrived
  obtain ⟨b, hb, -⟩ := Report.arrivals?_eq_some_iff.mp harrival
  have hcontains : period.contains record.sendTime := by
    rw [DelaySample.sentIn, htime] at hin
    exact hin
  refine List.mem_flatMap.mpr ⟨(s.ssrc, b), Report.mem_toList_iff.mpr hb, ?_⟩
  refine List.mem_map.mpr ⟨(s.seq, record), List.mem_filter.mpr ⟨?_, hcontains⟩, ?_⟩
  · exact (Ledger.mem_records_iff hl).mpr hrecord
  · rw [hsize]
    rfl

theorem value_sentInPeriod (h : Accounting.ofReport r ledger period = .ok account) :
    account.bytes.sentInPeriod.value =
      ((listings ledger period r).map fun charge ↦ charge.2.value).sum := by
  obtain ⟨bytes, hbytes, rfl⟩ := ofReport_eq_ok_iff.mp h
  have hsum := Quantity.value_addAll hbytes.sentInPeriod
  rw [← sizes_listings, List.map_map] at hsum
  exact hsum.trans (zero_add _)

theorem value_receivedInPeriod (h : Accounting.ofReport r ledger period = .ok account) :
    account.bytes.receivedInPeriod.value =
      ((returned ledger period r).map fun charge ↦ charge.2.value).sum := by
  obtain ⟨bytes, hbytes, rfl⟩ := ofReport_eq_ok_iff.mp h
  have hsum := Quantity.value_addAll hbytes.receivedInPeriod
  rw [returned, List.map_map]
  rw [List.map_map] at hsum
  exact hsum.trans (zero_add _)

theorem listing_nonneg (hledger : ledger.Weighs) {charge : (UInt32 × UInt16) × DataSize}
    (h : charge ∈ listings ledger period r) : 0 ≤ charge.2 := by
  obtain ⟨stream, -, hlisted⟩ := List.mem_flatMap.mp h
  obtain ⟨sent, hsent, rfl⟩ := List.mem_map.mp hlisted
  exact hledger _ _ _ (Ledger.lookup_of_mem_records (List.mem_of_mem_filter hsent))

theorem sentInPeriod_nonneg (hledger : ledger.Weighs)
    (h : Accounting.ofReport r ledger period = .ok account) : 0 ≤ account.bytes.sentInPeriod := by
  rw [← Quantity.value_nonneg_iff, value_sentInPeriod h]
  refine List.sum_nonneg fun value hvalue ↦ ?_
  obtain ⟨charge, hcharge, rfl⟩ := List.mem_map.mp hvalue
  exact Quantity.value_nonneg_iff.mpr (listing_nonneg hledger hcharge)

/-- Each packet that has come back is charged to a listing of its own. -/
theorem receivedInPeriod_le (hl : ledger.Lists) (hledger : ledger.Weighs)
    (h : Accounting.ofReport r ledger period = .ok account) :
    account.bytes.receivedInPeriod ≤ account.bytes.sentInPeriod := by
  obtain ⟨charged, hperm, hsublist⟩ :=
    List.subperm_of_subset (nodup_returned ledger period r) (returned_subset_listings hl)
  rw [← Quantity.value_le_iff, value_receivedInPeriod h, value_sentInPeriod h,
    ← (hperm.map _).sum_eq]
  refine (hsublist.map _).sum_le_sum fun value hvalue ↦ ?_
  obtain ⟨charge, hcharge, rfl⟩ := List.mem_map.mp hvalue
  exact Quantity.value_nonneg_iff.mpr (listing_nonneg hledger hcharge)

end Accounting

/-- Of what was sent in a period no more bytes come back than were sent in it, so that either fewer
came back or all did. An estimator that does not see fewer come back has seen all of them, and asks
no more than whether the sender was held back.

Assumes: no packet of negative size is sent. -/
theorem Ledger.received_le_sent {retention : Duration} {commands : List LedgerCommand}
    {ledger : Ledger} (hsizes : ∀ p, .send p ∈ commands → 0 ≤ p.size)
    (hrun : Ledger.run { retention } commands = .ok ledger) {r : Report} {period : Period}
    {account : Accounting} (h : Accounting.ofReport r ledger period = .ok account) :
    account.bytes.receivedInPeriod ≤ account.bytes.sentInPeriod ∧
    (account.bytes.receivedInPeriod < account.bytes.sentInPeriod ∨
      account.bytes.sentInPeriod = account.bytes.receivedInPeriod) ∧
    ∀ (e : BandwidthEstimator) (mode : Mode) (target received sample : DataRate)
      (lossRate : Float), e.learns account.bytes mode target received sample lossRate = true ↔
        mode ≠ .throttled ∧
        (account.bytes.receivedInPeriod < account.bytes.sentInPeriod ∨ target < received) ∧
        (mode = .competing → e.estimate.any (· < sample) ∧ lossRate == 0.0) := by
  have hempty : Lists { retention } ∧ Weighs { retention } :=
    ⟨fun ssrc s hs ↦ by simp at hs, fun ssrc seq record hrecord ↦ by simp [lookup] at hrecord⟩
  obtain ⟨hlists, hweighs⟩ := lists_and_weighs_run hsizes hempty hrun
  have hle := Accounting.receivedInPeriod_le hlists hweighs h
  have hcases := Quantity.le_iff_lt_or_eq.mp hle
  refine ⟨hle, hcases.imp_right Eq.symm, fun e mode target received sample lossRate ↦ ?_⟩
  have hboth : account.bytes.receivedInPeriod < account.bytes.sentInPeriod ∨
      account.bytes.sentInPeriod = account.bytes.receivedInPeriod ∧ target < received ↔
      account.bytes.receivedInPeriod < account.bytes.sentInPeriod ∨ target < received := by
    rcases hcases with hlt | heq
    · simp [hlt]
    · simp [heq]
  simp only [BandwidthEstimator.learns, Bool.and_eq_true, Bool.or_eq_true, decide_eq_true_eq, hboth,
    and_assoc, Decidable.imp_iff_not_or, ne_eq]

/-- Packet 1 is sent again at the time at which it was, and is listed for both. -/
def sentAgain : List LedgerCommand :=
  Accounting.sentOutOfOrder ++ [.send ⟨7, 1, ⟨.exactly 20000⟩, .exactly 100⟩]

theorem Ledger.received_le_sent_sentAgain : ∃ l account,
    Ledger.run { retention := .exactly 10000000 } sentAgain = .ok l ∧
    Accounting.ofReport Accounting.twoStreams l ⟨15, 25⟩ = .ok account ∧
    account.bytes.receivedInPeriod = .exactly 150 ∧ account.bytes.sentInPeriod = .exactly 450 ∧
    account.bytes.receivedInPeriod ≤ account.bytes.sentInPeriod := by
  obtain ⟨l, hrun, htest⟩ := exists_ok_of_any
    (x := Ledger.run { retention := .exactly 10000000 } sentAgain)
    (fun l ↦ (Accounting.ofReport Accounting.twoStreams l ⟨15, 25⟩).toOption.any
      fun (account : Accounting) ↦ decide (account.bytes.receivedInPeriod = .exactly 150 ∧
        account.bytes.sentInPeriod = .exactly 450)) (by decide +kernel)
  obtain ⟨account, haccount, htest⟩ := exists_ok_of_any _ htest
  obtain ⟨hreceived, hsent⟩ := of_decide_eq_true htest
  have hsizes : ∀ p, .send p ∈ sentAgain → 0 ≤ p.size := by
    simp only [sentAgain, Accounting.sentOutOfOrder, List.cons_append, List.nil_append,
      List.mem_cons, LedgerCommand.send.injEq, List.not_mem_nil, or_false]
    rintro p (rfl | rfl | rfl | rfl | rfl) <;> decide
  have hle := (received_le_sent hsizes hrun haccount).1
  exact ⟨l, account, hrun, haccount, hreceived, hsent, hle⟩

end Congestion
