import Congestion.Proofs.Sender.Accounts
import Congestion.Proofs.Sender.Anchors
import Congestion.Proofs.Wire.Peers
import Congestion.Proofs.Wire.Writing
import Mathlib.Algebra.Order.Ring.Nat

/-!
# A peer cannot stop a sender

What a sender makes of a report that a peer has sent meets no fault, whatever the peer has put into
it: not in reading the datagram, nor in settling the report (`exists_settle`), finding its period
(`faultless_period`) or accounting for it (`exists_accounting`). Such a report is `Report.Modest`,
which bounds the sequence numbers that it covers, and the ledger has counted fewer than `2 ^ 30`
sends, each of less than `2 ^ 32` bytes. So many packets of such a size can be added up
(`Ledger.Modest.fits`).
-/

set_option autoImplicit false
set_option relaxedAutoImplicit false

namespace Congestion

/-! ### Counts -/

namespace Report.Modest

variable {r : Report}

theorem sum_le (hr : r.Modest) (f : UInt32 × StreamArrivals → Nat) {most : Nat}
    (hf : ∀ s, f s ≤ most) : (r.toList.map f).sum ≤ 32767 * most := by
  have hsum := List.sum_le_card_nsmul (r.toList.map f) most fun n hn ↦ by
    obtain ⟨s, -, rfl⟩ := List.mem_map.mp hn
    exact hf s
  rw [Nat.nsmul_eq_mul, List.length_map] at hsum
  exact Nat.le_trans hsum (Nat.mul_le_mul_right most hr.streams)

/-- How many sequence numbers the report covers. -/
theorem sum_count_le (hr : r.Modest) : (r.toList.map fun s ↦ s.2.count).sum ≤ 0x7fff0000 :=
  hr.sum_le (fun s ↦ s.2.count) fun s ↦ s.2.count_le

theorem exists_totalCount (hr : r.Modest) : ∃ n, r.totalCount = .ok n := by
  have hcount := hr.sum_count_le
  obtain ⟨n, hn, -⟩ := foldlM_ok (f := fun total (s : UInt32 × StreamArrivals) ↦
      unsigned32 (total + s.2.count))
    (fun rest total ↦ total + (rest.map fun s ↦ s.2.count).sum ≤ 0x7fff0000)
    (fun s rest total htotal ↦ by
      rw [List.map_cons, List.sum_cons] at htotal
      exact ⟨total + s.2.count, if_pos (by omega), by omega⟩)
    r.toList 0 (by omega)
  exact ⟨n, hn⟩

theorem wireLen_lt (hr : r.Modest) : r.wireLen < 2 ^ 64 := by
  have hstream : ∀ s : UInt32 × StreamArrivals, s.2.wireLen ≤ 131080 := by
    intro s
    have hcount := s.2.count_le
    have hlen : s.2.wireLen = 8 + (s.2.count + s.2.count % 2) * 2 := rfl
    omega
  have hsum := hr.sum_le (fun s ↦ s.2.wireLen) hstream
  have hwire := r.wireLen_eq_sum
  omega

end Report.Modest

/-! ### Settling -/

section Settling

variable {l : Ledger} {sends : UInt32 → Nat} {r : Report}

theorem Ledger.Modest.exists_acknowledged (hl : l.Modest sends) (r : Report) :
    ∃ a, l.acknowledged r = .ok a ∧ a.AtMost (2 ^ 30 * 0xffffffff) := by
  have hsum := hl.sum_le (r.nodup_toList) 0xffffffff
  obtain ⟨a, ha, hbound⟩ := Quantity.exists_foldlM_add (l := r.toList)
    (fun s ↦ (l.lookup s.1 s.2.lastSeq).elim 0 SentRecord.total)
    (fun s ↦ sends s.1 * 0xffffffff) Quantity.AtMost.zero (fun s _ ↦ by
      cases hlookup : l.lookup s.1 s.2.lastSeq with
      | none => exact Quantity.AtMost.zero.mono (Nat.zero_le _)
      | some record => exact (hl.bounded.lookup hlookup).total) (by omega)
  exact ⟨a, ha, hbound.mono (by omega)⟩

theorem Ledger.Modest.exists_totalSent (hl : l.Modest sends) :
    ∃ a, l.totalSent = .ok a ∧ a.AtMost (2 ^ 30 * 0xffffffff) := by
  have hnodup : (l.streams.toList.map Prod.fst).Nodup := by
    rw [Std.ExtTreeMap.map_fst_toList_eq_keys]
    exact Std.ExtTreeMap.nodup_keys
  have hsum := hl.sum_le hnodup 0xffffffff
  obtain ⟨a, ha, hbound⟩ := Quantity.exists_foldlM_add (l := l.streams.toList)
    (fun s ↦ s.2.total) (fun s ↦ sends s.1 * 0xffffffff) Quantity.AtMost.zero (fun s hs ↦ by
      have hstream := Std.ExtTreeMap.mem_toList_iff_getElem?_eq_some.mp hs
      exact (hl.bounded s.1 s.2 hstream).total) (by omega)
  exact ⟨a, ha, hbound.mono (by omega)⟩

theorem Ledger.Modest.exists_settle (hl : l.Modest sends) (hr : r.Modest) :
    ∃ answer, l.settle r = .ok answer := by
  obtain ⟨acknowledged, hacknowledged, ha⟩ := hl.exists_acknowledged r
  obtain ⟨sent, hsent, hs⟩ := hl.exists_totalSent
  obtain ⟨covered, hcovered⟩ := hr.exists_totalCount
  obtain ⟨bytes, hbytes⟩ := hs.exists_sub ha (by omega) (by omega)
  unfold Ledger.settle
  rw [hacknowledged, hsent, hcovered]
  exact ⟨_, bind_eq_ok_iff.mpr ⟨_, rfl, bind_eq_ok_iff.mpr ⟨_, rfl, bind_eq_ok_iff.mpr
    ⟨_, rfl, bind_eq_ok_iff.mpr ⟨bytes, hbytes, rfl⟩⟩⟩⟩⟩

end Settling

/-! ### The period -/

theorem Finite.millisFloor_bounds {n : Finite} (hlower : -2 ^ 60 ≤ n.value)
    (hupper : n.value ≤ 2 ^ 60) : -2 ^ 60 ≤ n.millisFloor ∧ n.millisFloor ≤ 2 ^ 60 := by
  unfold Finite.millisFloor
  omega

theorem Report.Modest.waited_le {r : Report} (hr : r.Modest) {ssrc : UInt32} {seq : UInt16}
    {a : Arrival} (ha : r.arrivals? ssrc seq = some a) : (a.waited r.time).toNat ≤ 8191 := by
  obtain ⟨-, hnear⟩ := hr.arrivals ssrc seq a ha
  rwa [Arrival.toNat_waited]

theorem Ledger.Modest.faultless_period {l : Ledger} {sends : UInt32 → Nat} {r : Report}
    (hl : l.Modest sends) (hr : r.Modest) : Faultless (Period.ofReport r l) := by
  unfold Period.ofReport
  split
  next => exact faultless_rejected _
  next anchor hanchor =>
    split
    next => exact faultless_rejected _
    next record hrecord =>
      split
      · exact faultless_rejected _
      · have hwaited := hr.waited_le (Anchor.arrivals?_of_ofReport hanchor)
        have hbounded := hl.bounded.lookup hrecord
        have hsent := Finite.millisFloor_bounds hbounded.lower hbounded.upper
        have hmonitored := r.monitored.toNat_lt
        dsimp only
        rw [toInt_toInt64, if_pos (by omega),
          signed64_eq_ok_iff.mpr ⟨rfl, by omega, by omega⟩]
        refine Faultless.bind (faultless_ok _) fun stop hstop ↦ ?_
        cases hstop
        rw [signed64_eq_ok_iff.mpr ⟨rfl, by omega, by omega⟩]
        exact faultless_ok _

/-! ### The account -/

/-- So many amounts of a bounded size are added up without a fault. -/
theorem Quantity.exists_addAll {d : Dimension} {amounts : List (Quantity d)} {size count : Nat}
    (hsize : ∀ a ∈ amounts, a.AtMost size) (hcount : amounts.length ≤ count)
    (hwithin : count * size < 0x7fffffffffffffff) :
    ∃ sum, (0 : Quantity d).addAll amounts = .ok sum := by
  have hsum : (amounts.map fun _ ↦ size).sum = amounts.length * size := by simp
  have hle : amounts.length * size ≤ count * size := Nat.mul_le_mul_right size hcount
  obtain ⟨sum, h, -⟩ := exists_foldlM_add (l := amounts) id (fun _ ↦ size) AtMost.zero hsize
    (by omega)
  exact ⟨sum, h⟩

namespace ByteTotals

variable {l : Ledger} {sends : UInt32 → Nat} {r : Report}

theorem size_of_mem_arrived (hl : l.Bounded sends) {s : DelaySample}
    (hs : s ∈ arrived l r.toList) : s.size.AtMost 0xffffffff := by
  obtain ⟨_, record, -, hrecord, -, hsize, -⟩ := mem_arrived_iff.mp hs
  rw [hsize]
  exact (hl.lookup hrecord).size

theorem latest_mem {records : List SentRecord} {record : SentRecord}
    (h : latest records = some record) : record ∈ records := by
  refine mem_of_foldl_choice (fun best a b hbest ↦ ?_) h
  split at hbest
  · exact Or.inr (Option.some.inj hbest)
  · split at hbest
    · exact Or.inr (Option.some.inj hbest)
    · exact Or.inl hbest

/-- The records of a stream that a period asks for are among its sends. -/
theorem bounded_sentOf (hl : l.Bounded sends) (period : Period) (ssrc : UInt32) :
    (sentOf l period ssrc).length ≤ sends ssrc ∧
      ∀ record ∈ sentOf l period ssrc, record.Bounded (sends ssrc) := by
  obtain ⟨hlength, hrecords⟩ := hl.records ssrc
  constructor
  · refine Nat.le_trans (List.length_filter_le _ _) ?_
    rw [List.length_map]
    exact hlength
  · intro record hrecord
    obtain ⟨sent, hsent, rfl⟩ := List.mem_map.mp (List.mem_of_mem_filter hrecord)
    exact hrecords sent hsent

/-- Totals of two records of one stream differ by no more than its sends. -/
theorem exists_addLast (hl : l.Bounded sends) (period : Period) {lastAdded : DataSize}
    {added : Nat} (hlastAdded : lastAdded.AtMost (added * 0xffffffff))
    (stream : UInt32 × StreamArrivals) (hfew : added + sends stream.1 ≤ 2 ^ 30) :
    ∃ sum, addLast l period lastAdded stream = .ok sum ∧
      sum.AtMost ((added + sends stream.1) * 0xffffffff) := by
  have hsame : lastAdded.AtMost ((added + sends stream.1) * 0xffffffff) :=
    hlastAdded.mono (Nat.mul_le_mul_right _ (Nat.le_add_right _ _))
  unfold addLast
  split
  next record last hlatest hlast =>
    have hrecord := (bounded_sentOf hl period stream.1).2 record (latest_mem hlatest)
    split
    next hlt =>
      obtain ⟨new, hnew, hbound⟩ :=
        hrecord.total.exists_sub_of_lt (hl.lookup hlast).total hlt (by omega)
      obtain ⟨sum, hsum, hbound'⟩ := hlastAdded.exists_add hbound (by omega)
      rw [← Nat.add_mul] at hbound'
      exact ⟨sum, bind_eq_ok_iff.mpr ⟨new, hnew, hsum⟩, hbound'⟩
    next => exact ⟨lastAdded, rfl, hsame⟩
  next => exact ⟨lastAdded, rfl, hsame⟩

end ByteTotals

theorem Ledger.Modest.fits {l : Ledger} {sends : UInt32 → Nat} {r : Report} (hl : l.Modest sends)
    (hr : r.Modest) (period : Period) : Accounting.Fits r l period := by
  have harrived : (ByteTotals.arrived l r.toList).length ≤ 2 ^ 31 := by
    have hlength := ByteTotals.length_arrived_le l r
    rw [Report.length_covered_eq_sum] at hlength
    exact Nat.le_trans hlength (Nat.le_trans hr.sum_count_le (by decide))
  have hsize : ∀ s ∈ ByteTotals.arrived l r.toList, s.size.AtMost 0xffffffff :=
    fun s ↦ ByteTotals.size_of_mem_arrived hl.bounded
  have hsends := hl.few _ r.nodup_toList
  rw [List.map_map] at hsends
  constructor
  · refine Quantity.exists_addAll (List.forall_mem_map.mpr hsize) ?_
      (show 2 ^ 31 * 0xffffffff < 0x7fffffffffffffff by decide)
    rwa [List.length_map]
  · refine Quantity.exists_addAll (List.forall_mem_map.mpr fun s hs ↦ ?_) ?_
      (show 2 ^ 31 * 0xffffffff < 0x7fffffffffffffff by decide)
    · exact hsize s (List.mem_of_mem_filter hs)
    · rw [List.length_map]
      exact Nat.le_trans (List.length_filter_le _ _) harrived
  · refine Quantity.exists_addAll (List.forall_mem_map.mpr fun record hrecord ↦ ?_) ?_
      (show 2 ^ 30 * 0xffffffff < 0x7fffffffffffffff by decide)
    · obtain ⟨stream, -, hsent⟩ := List.mem_flatMap.mp hrecord
      exact ((ByteTotals.bounded_sentOf hl.bounded period stream.1).2 record hsent).size
    · rw [List.length_map, List.length_flatMap]
      have hle := List.sum_le_sum (l := r.toList) fun stream _ ↦
        (ByteTotals.bounded_sentOf hl.bounded period stream.1).1
      exact Nat.le_trans hle (Nat.le_of_lt hsends)
  · obtain ⟨sum, hsum, -⟩ := foldlM_ok (f := ByteTotals.addLast l period)
      (fun rest lastAdded ↦ ∃ added, lastAdded.AtMost (added * 0xffffffff) ∧
        added + (rest.map (sends ∘ Prod.fst)).sum ≤ 2 ^ 30)
      (fun stream rest lastAdded ⟨added, hlastAdded, hfew⟩ ↦ by
        rw [List.map_cons, List.sum_cons, Function.comp_apply, ← Nat.add_assoc] at hfew
        obtain ⟨sum, hsum, hbound⟩ :=
          ByteTotals.exists_addLast hl.bounded period hlastAdded stream (by omega)
        exact ⟨sum, hsum, _, hbound, hfew⟩)
      r.toList 0 ⟨0, .zero, by omega⟩
    exact ⟨sum, hsum⟩

theorem Ledger.Modest.exists_accounting {l : Ledger} {sends : UInt32 → Nat} {r : Report}
    (hl : l.Modest sends) (hr : r.Modest) (period : Period) : ∃ account,
      Accounting.ofReport r l period = .ok account ∧ account.losses < 2 ^ 32 ∧
        account.misses < 2 ^ 32 := by
  have hcount := hr.sum_count_le
  rw [← Report.length_covered_eq_sum] at hcount
  obtain ⟨account, haccount⟩ := Accounting.exists_ofReport_iff.mpr (hl.fits hr period)
  have htells := Accounting.tells_of_ofReport haccount
  refine ⟨account, haccount, ?_, ?_⟩
  · rw [htells.losses]
    exact Nat.lt_of_le_of_lt List.countP_le_length (by omega)
  · rw [htells.misses]
    exact Nat.lt_of_le_of_lt List.countP_le_length (by omega)

/-! ### Whatever a peer sends -/

/-- The report has marks and distances that fit their bits, and a sender with this ledger can do
with it all that it does with reports. -/
structure Report.Harmless (r : Report) (l : Ledger) : Prop where
  entries : ∀ ssrc, ∀ e ∈ r.entries ssrc, e.2.mark.bits.toNat ≤ 3 ∧
    e.2.time.toNat ≤ r.time.toNat ∧ r.time.toNat - e.2.time.toNat ≤ 8191
  encode : ∀ buf, Faultless (r.encodeInto buf).1
  wireLen : r.wireLen < 2 ^ 64
  totalCount : ∃ n, r.totalCount = .ok n
  settle : ∃ answer, l.settle r = .ok answer
  period : Faultless (Period.ofReport r l)
  account : ∀ period, Period.ofReport r l = .ok period → ∃ account,
    Accounting.ofReport r l period = .ok account ∧ account.losses < 2 ^ 32 ∧
      account.misses < 2 ^ 32

theorem Report.Modest.harmless {l : Ledger} {sends : UInt32 → Nat} {r : Report} (hr : r.Modest)
    (hl : l.Modest sends) : r.Harmless l where
  entries ssrc e he := ⟨Nat.le_of_lt_succ e.2.mark.bits_lt,
    hr.arrivals ssrc e.1 e.2 (mem_entries_iff.mp he)⟩
  encode := faultless_encodeInto
    (fun ssrc seq a ha ↦ UInt64.le_iff_toNat_le.mpr (hr.arrivals ssrc seq a ha).1)
    (Nat.lt_trans hr.time (by decide))
  wireLen := hr.wireLen_lt
  totalCount := hr.exists_totalCount
  settle := hl.exists_settle hr
  period := hl.faultless_period hr
  account period _ := hl.exists_accounting hr period

/-- Reading a datagram and using the reports in it meets no fault, after any run of the ledger with
fewer than `2 ^ 30` sends. Assumes: each send is within `2 ^ 60` microseconds of the epoch and of
less than `2 ^ 32` bytes. -/
theorem datagram_harmless {retention : Duration} {commands : List LedgerCommand} {l : Ledger}
    (hrun : Ledger.run { retention } commands = .ok l)
    (hcommands : ∀ p, .send p ∈ commands → p.Modest) (hfew : sendCount commands < 2 ^ 30)
    (input : List UInt8) : Faultless (Datagram.reports input) ∧
      ∀ reports, Datagram.reports input = .ok reports → ∀ r ∈ reports, r.Harmless l := by
  refine ⟨Datagram.faultless_reports input, fun reports hreports r hr ↦ ?_⟩
  obtain ⟨b, opening, rest, hopens, htells⟩ := Datagram.exists_body_of_mem_reports hreports hr
  exact (ReportBody.Tells.modest hopens htells).harmless
    (Ledger.modest_of_run hcommands hfew hrun)

/-- One sequence number sent twice, the second time with the greatest size. -/
def sentTwice : List LedgerCommand :=
  [.send { ssrc := 9, seq := 65535, sendTime := ⟨Quantity.exactly (-1000)⟩,
           size := Quantity.exactly 1200 },
   .send { ssrc := 9, seq := 65535, sendTime := ⟨Quantity.exactly 5000⟩,
           size := Quantity.exactly 0xffffffff }]

/-- A report of one arrival, the number sent twice, 18 milliseconds before its time of 2. -/
def reportOfOne : List UInt8 :=
  [0x8d, 205, 0, 7, 0, 0, 0, 7, 0, 0, 0, 0, 0, 0, 0, 2, 0, 3, 0, 50,
    0, 0, 0, 9, 0, 1, 255, 255, 0xa0, 18, 0, 0]

/-- The datagram reads as one report, whose arrival is before the wrap of the clock. -/
theorem datagram_harmless_reportOfOne : ∃ l r,
    Ledger.run { retention := Quantity.exactly 10000000 } sentTwice = .ok l ∧
    Datagram.reports reportOfOne = .ok [r] ∧
    r.entries 9 = [(65535, ⟨.ect1, 0xfffffff0⟩)] ∧ r.Harmless l := by
  have hrun : ∃ l, Ledger.run { retention := Quantity.exactly 10000000 } sentTwice = .ok l :=
    ⟨_, rfl⟩
  have hmodest : ∀ p, .send p ∈ sentTwice → p.Modest := by
    intro p hp
    simp only [sentTwice, List.mem_cons, LedgerCommand.send.injEq, List.not_mem_nil, or_false] at hp
    rcases hp with rfl | rfl
    · exact ⟨⟨_, rfl, by decide, by decide⟩, 1200, rfl, by decide⟩
    · exact ⟨⟨_, rfl, by decide, by decide⟩, 0xffffffff, rfl, by decide⟩
  obtain ⟨l, hl⟩ := hrun
  obtain ⟨reports, hreports, hentries⟩ := exists_ok_of_any (x := Datagram.reports reportOfOne)
    (fun reports ↦ reports.map (·.entries 9) = [[(65535, ⟨.ect1, 0xfffffff0⟩)]]) (by decide +kernel)
  obtain ⟨r, rfl, hentry⟩ := List.map_eq_singleton_iff.mp (of_decide_eq_true hentries)
  have hharmless := (datagram_harmless hl hmodest (by decide) reportOfOne).2 _ hreports
  exact ⟨l, r, hl, hreports, hentry, hharmless r List.mem_cons_self⟩

end Congestion
