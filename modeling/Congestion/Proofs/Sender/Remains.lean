import Congestion.Proofs.Sender.InFlight
import Congestion.Proofs.Sender.Totals

/-!
# What remains after a report

A report acknowledges bytes by the total of the last packet that it covers on each stream, and so
all that was sent on the stream up to it. On one stream these packets are a prefix
(`filter_acknowledges_of_last`), whose size the total is, and of all streams together they are what
the ledger takes off (`Tallies.value_acknowledged`). What remains in bytes is the rest
(`Tallies.value_bytes`).

In `remains_of_settle` this is put beside what remains in packets. Neither is told by the ranges of
the reports alone: a packet in two ranges is taken off the count twice, and a packet in none is
acknowledged with a later one of its stream (`remains_of_settle_overlapping`).
-/

set_option autoImplicit false
set_option relaxedAutoImplicit false

namespace Congestion

/-! ### Acknowledged packets -/

/-- The packet has the last number that the report covers on its stream. -/
def Report.endsWith (r : Report) (p : SentPacket) : Bool :=
  r.streams[p.ssrc]?.any fun b ↦ b.lastSeq = p.seq

/-- A report acknowledges what was sent on one of its streams up to the last number that it covers
there, be it in the range or not. Nothing is acknowledged where this number was not sent. -/
def Report.acknowledges (r : Report) (sent : List SentPacket) (p : SentPacket) : Bool :=
  (sent.dropWhile fun q ↦ q.key ≠ p.key).any fun q ↦ q.ssrc = p.ssrc && r.endsWith q

/-- The packets sent that no report settled so far acknowledged. -/
def unacknowledged (commands : List LedgerCommand) : List SentPacket :=
  (sentPackets commands).filter fun p ↦
    (settlements commands).all fun s ↦ !s.report.acknowledges s.sent p

section Acknowledged

variable {ps earlier later : List SentPacket} {p q : SentPacket} {r : Report}

/-- Only packets of its own stream matter to whether a packet is acknowledged. -/
theorem acknowledges_sentOn (r : Report) (ps : List SentPacket) (p : SentPacket) :
    r.acknowledges (sentOn ps p.ssrc) p = r.acknowledges ps p := by
  unfold Report.acknowledges sentOn
  induction ps with
  | nil => rfl
  | cons q rest ih =>
    by_cases hkey : q.key = p.key
    · have hssrc : q.ssrc = p.ssrc := congrArg Prod.fst hkey
      simp [hssrc, hkey, List.any_filter]
    · by_cases hssrc : q.ssrc = p.ssrc <;> simpa [hssrc, hkey] using ih

/-- The last number that is covered has been sent with the packet or after it. -/
theorem acknowledges_append (honce : ((earlier ++ p :: later).map SentPacket.key).Nodup) :
    r.acknowledges (earlier ++ p :: later) p =
      (p :: later).any fun q ↦ q.ssrc = p.ssrc && r.endsWith q := by
  rw [List.map_append] at honce
  have hdisjoint := List.disjoint_iff_ne.mp (List.disjoint_of_nodup_append honce)
  have hother : ∀ q ∈ earlier, decide (q.key ≠ p.key) = true := fun q hq ↦
    decide_eq_true (hdisjoint _ (List.mem_map_of_mem hq) _ List.mem_cons_self)
  rw [Report.acknowledges, List.dropWhile_append_of_pos hother,
    List.dropWhile_cons_of_neg (by simp)]

/-- The last number of a stream is that of one packet. -/
theorem key_eq_of_endsWith (hp : r.endsWith p) (hq : r.endsWith q) (hssrc : p.ssrc = q.ssrc) :
    p.key = q.key := by
  unfold Report.endsWith at hp hq
  rw [hssrc] at hp
  obtain ⟨b, hb, hlast⟩ := (Option.any_eq_true _ _).mp hp
  obtain ⟨b', hb', hlast'⟩ := (Option.any_eq_true _ _).mp hq
  obtain rfl := Option.some.inj (hb.symm.trans hb')
  exact Prod.ext hssrc ((of_decide_eq_true hlast).symm.trans (of_decide_eq_true hlast'))

theorem acknowledges_of_mem_earlier (honce : ((earlier ++ q :: later).map SentPacket.key).Nodup)
    (hstream : ∀ p ∈ earlier, p.ssrc = q.ssrc) (hlast : r.endsWith q) (hp : p ∈ earlier) :
    r.acknowledges (earlier ++ q :: later) p := by
  have hssrc := hstream p hp
  obtain ⟨before, between, rfl⟩ := List.append_of_mem hp
  rw [List.append_assoc, List.cons_append] at honce ⊢
  rw [acknowledges_append honce]
  exact List.any_eq_true.mpr ⟨q, by simp, by simp [hssrc, hlast]⟩

theorem not_acknowledges_of_mem_later (honce : ((earlier ++ q :: later).map SentPacket.key).Nodup)
    (hstream : ∀ p ∈ later, p.ssrc = q.ssrc) (hlast : r.endsWith q) (hp : p ∈ later) :
    ¬ r.acknowledges (earlier ++ q :: later) p := by
  intro hacknowledged
  have hlater : q.key ∉ later.map SentPacket.key := by
    rw [List.map_append] at honce
    exact (List.nodup_cons.mp honce.of_append_right).1
  obtain ⟨between, after, rfl⟩ := List.append_of_mem hp
  have hsplit : earlier ++ q :: (between ++ p :: after) =
      (earlier ++ q :: between) ++ p :: after := by simp
  rw [hsplit] at honce hacknowledged
  rw [acknowledges_append honce] at hacknowledged
  -- the packet with the last number would have been sent twice
  obtain ⟨q', hq', hends⟩ := List.any_eq_true.mp hacknowledged
  have hq' : q' ∈ between ++ p :: after := List.mem_append_right _ hq'
  have hkey := key_eq_of_endsWith (Bool.and_eq_true_iff.mp hends).2 hlast (hstream q' hq')
  exact hlater (hkey ▸ List.mem_map_of_mem hq')

/-- On one stream, all up to the packet with the last number is acknowledged, and nothing else. -/
theorem filter_acknowledges_of_last (honce : ((earlier ++ q :: later).map SentPacket.key).Nodup)
    (hstream : ∀ p ∈ earlier ++ q :: later, p.ssrc = q.ssrc) (hlast : r.endsWith q) :
    (earlier ++ q :: later).filter (r.acknowledges (earlier ++ q :: later)) = earlier ++ [q] := by
  obtain ⟨hbefore, hafter⟩ := List.forall_mem_append.mp hstream
  have hself : r.acknowledges (earlier ++ q :: later) q := by
    rw [acknowledges_append honce]
    exact List.any_eq_true.mpr ⟨q, by simp, by simp [hlast]⟩
  rw [List.filter_append, List.filter_cons_of_pos hself,
    List.filter_eq_self.mpr fun p ↦ acknowledges_of_mem_earlier honce hbefore hlast,
    List.filter_eq_nil_iff.mpr fun p ↦ not_acknowledges_of_mem_later honce
      (List.forall_mem_cons.mp hafter).2 hlast]

theorem filter_acknowledges_of_none (hnone : ∀ q ∈ ps, ¬ r.endsWith q) :
    ps.filter (r.acknowledges ps) = [] := by
  refine List.filter_eq_nil_iff.mpr fun p _ hp ↦ ?_
  obtain ⟨q, hq, hlast⟩ := List.any_eq_true.mp hp
  exact hnone q ((List.dropWhile_sublist _).subset hq) (Bool.and_eq_true_iff.mp hlast).2

/-- What is acknowledged of one stream does not depend on the others. -/
theorem sentOn_filter_acknowledges (r : Report) (ps : List SentPacket) (ssrc : UInt32) :
    sentOn (ps.filter (r.acknowledges ps)) ssrc =
      (sentOn ps ssrc).filter (r.acknowledges (sentOn ps ssrc)) := by
  unfold sentOn
  rw [List.filter_filter, List.filter_filter]
  refine List.filter_congr fun p _ ↦ ?_
  by_cases hssrc : p.ssrc = ssrc
  · have hsame := acknowledges_sentOn r ps p
    rw [hssrc, sentOn] at hsame
    rw [hsame, Bool.and_comm]
  · simp [hssrc]

/-- Packets are acknowledged on the streams of the report only. -/
theorem mem_keys_of_acknowledges (h : r.acknowledges ps p) :
    p.ssrc ∈ r.toList.map Prod.fst := by
  obtain ⟨q, -, hq⟩ := List.any_eq_true.mp h
  obtain ⟨hssrc, hlast⟩ := Bool.and_eq_true_iff.mp hq
  obtain ⟨b, hb, -⟩ := (Option.any_eq_true _ _).mp hlast
  rw [of_decide_eq_true hssrc] at hb
  exact List.mem_map_of_mem (Report.mem_toList_iff.mpr hb)

end Acknowledged

/-! ### Remains -/

namespace Ledger

variable {l l' : Ledger} {ps : List SentPacket} {commands : List LedgerCommand} {r : Report}
  {remains : NetRemains}

/-- The total that a report acknowledges of one of its streams. -/
theorem Tallies.value_total_lookup {ssrc : UInt32} {b : StreamArrivals} (hl : l.Tallies ps)
    (honce : (ps.map SentPacket.key).Nodup) (hkept : ∀ p ∈ ps, (l.lookup p.ssrc p.seq).isSome)
    (hb : r.streams[ssrc]? = some b) :
    Quantity.value ((l.lookup ssrc b.lastSeq).elim 0 SentRecord.total) =
      sizeSum (sentOn (ps.filter (r.acknowledges ps)) ssrc) := by
  have hends : ∀ q ∈ sentOn ps ssrc, r.endsWith q = decide (b.lastSeq = q.seq) := by
    intro q hq
    have hssrc : q.ssrc = ssrc := of_decide_eq_true (List.mem_filter.mp hq).2
    rw [Report.endsWith, hssrc, hb]
    rfl
  rw [sentOn_filter_acknowledges]
  cases hlookup : l.lookup ssrc b.lastSeq with
  | some record =>
    rw [lookup_eq] at hlookup
    obtain ⟨earlier, q, later, hsplit, hseq, hvalue⟩ := (hl.stream ssrc).records _ _ hlookup
    have hq : q ∈ sentOn ps ssrc := by simp [hsplit]
    have hstream : ∀ p ∈ sentOn ps ssrc, p.ssrc = q.ssrc := fun p hp ↦
      (of_decide_eq_true (List.mem_filter.mp hp).2).trans
        (of_decide_eq_true (List.mem_filter.mp hq).2).symm
    have hlast : r.endsWith q := by simp [hends q hq, hseq]
    have honce : ((sentOn ps ssrc).map SentPacket.key).Nodup :=
      honce.sublist (List.filter_sublist.map _)
    rw [hsplit] at hstream honce ⊢
    rw [filter_acknowledges_of_last honce hstream hlast]
    exact hvalue
  | none =>
    have hnone : ∀ q ∈ sentOn ps ssrc, ¬ r.endsWith q := by
      intro q hq hlast
      obtain ⟨hq', hssrc⟩ := List.mem_filter.mp hq
      have hrecord := hkept q hq'
      rw [hends q hq, decide_eq_true_eq] at hlast
      rw [of_decide_eq_true hssrc, ← hlast, hlookup] at hrecord
      cases hrecord
    rw [filter_acknowledges_of_none hnone]
    rfl

theorem Tallies.value_acknowledged {acknowledged : DataSize} (hl : l.Tallies ps)
    (honce : (ps.map SentPacket.key).Nodup) (hkept : ∀ p ∈ ps, (l.lookup p.ssrc p.seq).isSome)
    (h : l.acknowledged r = .ok acknowledged) :
    acknowledged.value = sizeSum (ps.filter (r.acknowledges ps)) := by
  have hstreams : (r.toList.map fun s ↦
        Quantity.value ((l.lookup s.1 s.2.lastSeq).elim 0 SentRecord.total)) =
      (r.toList.map Prod.fst).map fun ssrc ↦
        sizeSum (sentOn (ps.filter (r.acknowledges ps)) ssrc) := by
    rw [List.map_map]
    exact List.map_congr_left fun s hs ↦
      hl.value_total_lookup honce hkept (Report.mem_toList_iff.mp hs)
  have hall : ((ps.filter (r.acknowledges ps)).filter (·.ssrc ∈ r.toList.map Prod.fst)) =
      ps.filter (r.acknowledges ps) :=
    List.filter_eq_self.mpr fun p hp ↦
      decide_eq_true (mem_keys_of_acknowledges (List.mem_filter.mp hp).2)
  rw [Quantity.value_foldlM_add h, hstreams, sum_sizeSum_sentOn r.nodup_toList, hall,
    Quantity.value_zero, zero_add]

/-- The bytes that remain are those that the report does not acknowledge. -/
theorem Tallies.value_bytes (hl : l.Tallies ps) (hsizes : ∀ p ∈ ps, 0 ≤ p.size)
    (honce : (ps.map SentPacket.key).Nodup) (hkept : ∀ p ∈ ps, (l.lookup p.ssrc p.seq).isSome)
    (h : l.settle r = .ok (remains, l')) :
    remains.bytes.value = sizeSum (ps.filter fun p ↦ !r.acknowledges ps p) := by
  obtain ⟨acknowledged, sent, total, difference, hacknowledged, hsent, -, hdifference, rfl, -⟩ :=
    settle_eq_ok_iff.mp h
  have hacknowledged := hl.value_acknowledged honce hkept hacknowledged
  have hsent := hl.value_totalSent hsent
  have hsplit := sizeSum_filter_add_filter_not (r.acknowledges ps) ps
  rw [← hacknowledged, ← hsent] at hsplit
  have hleft : 0 ≤ sizeSum (ps.filter fun p ↦ !r.acknowledges ps p) :=
    sizeSum_nonneg fun p hp ↦ hsizes p (List.mem_filter.mp hp).1
  have hvalue := Quantity.value_sub (hsplit.symm.trans (add_comm _ _)) hdifference
  rw [← hvalue, Quantity.value_nonneg_iff] at hleft
  rw [← hvalue, Quantity.max_eq_left hleft]

/-- What is left when a report is settled.

In packets it is at most what no report has covered, provided that no report covers packets before
they are sent; and exactly that where no packet is covered twice and the count has not come to its
end. In bytes it is what the report settled last does not acknowledge: at least what no report has
acknowledged, and exactly that where the last report acknowledges all that the earlier ones did.

Assumes: the ledger starts empty, no packet has a negative size, none is sent twice, and all are
still in the ledger. -/
theorem remains_of_settle {retention : Duration} (hsizes : ∀ p ∈ sentPackets commands, 0 ≤ p.size)
    (honce : ((sentPackets commands).map SentPacket.key).Nodup)
    (hkept : ∀ p ∈ sentPackets commands, (l.lookup p.ssrc p.seq).isSome)
    (hrun : Ledger.run { retention } commands = .ok l) (hsettle : l.settle r = .ok (remains, l')) :
    ((∀ s ∈ settlements (commands ++ [LedgerCommand.settle r]), s.Timely) →
      remains.packets ≤ (uncovered (commands ++ [LedgerCommand.settle r])).length ∧
      ((settlements (commands ++ [LedgerCommand.settle r])).Pairwise Settlement.Apart →
        (∀ earlier, earlier <+: commands ++ [LedgerCommand.settle r] →
          (uncovered earlier).length < 2 ^ 32) →
        remains.packets = (uncovered (commands ++ [LedgerCommand.settle r])).length)) ∧
    remains.bytes.value =
      sizeSum ((sentPackets commands).filter fun p ↦ !r.acknowledges (sentPackets commands) p) ∧
    sizeSum (unacknowledged (commands ++ [LedgerCommand.settle r])) ≤ remains.bytes.value ∧
    ((∀ s ∈ settlements commands, ∀ p ∈ sentPackets commands, s.report.acknowledges s.sent p →
        r.acknowledges (sentPackets commands) p) →
      remains.bytes.value = sizeSum (unacknowledged (commands ++ [LedgerCommand.settle r]))) := by
  have hrun' : Ledger.run { retention } (commands ++ [LedgerCommand.settle r]) = .ok l' :=
    run_concat_eq_ok_iff.mpr ⟨l, hrun, map_eq_ok_iff.mpr ⟨_, hsettle, rfl⟩⟩
  have honce' : ((sentPackets (commands ++ [LedgerCommand.settle r])).map
      SentPacket.key).Nodup := by
    rwa [sentPackets_settle]
  have htallies : l.Tallies (sentPackets commands) := tallies_of_run hrun
  have hbytes := htallies.value_bytes hsizes honce hkept hsettle
  have hleft : unacknowledged (commands ++ [LedgerCommand.settle r]) =
      (sentPackets commands).filter fun p ↦
        (settlements commands).all (fun s ↦ !s.report.acknowledges s.sent p) &&
          !r.acknowledges (sentPackets commands) p := by
    simp only [unacknowledged, settlements_settle, sentPackets_settle, List.all_append,
      List.all_cons, List.all_nil, Bool.and_true]
  refine ⟨fun htimely ↦ ?_, hbytes, ?_, fun hmore ↦ ?_⟩
  · rw [← (inFlight_settle hsettle).2]
    exact ⟨inFlight_le honce' htimely hrun', fun hapart hfew ↦
      inFlight_eq honce' htimely hapart hfew hrun'⟩
  · rw [hbytes, hleft]
    exact sizeSum_filter_mono hsizes fun p _ hp ↦ (Bool.and_eq_true_iff.mp hp).2
  · rw [hbytes, hleft]
    congr 1
    refine List.filter_congr fun p hp ↦ (Bool.and_eq_right_iff_imp.mpr fun hnot ↦ ?_).symm
    rw [Bool.not_eq_true'] at hnot
    refine List.all_eq_true.mpr fun s hs ↦ ?_
    rw [Bool.not_eq_true', Bool.eq_false_iff]
    exact fun hacknowledged ↦ Bool.eq_false_iff.mp hnot (hmore s hs p hp hacknowledged)

/-- Two streams, of which each report covers a part: the number 1 of the first stream is in no
range, though later ones are. -/
def partlyCovered : List LedgerCommand :=
  [.send ⟨1, 0, ⟨Quantity.exactly 0⟩, Quantity.exactly 100⟩,
   .send ⟨2, 65535, ⟨Quantity.exactly 0⟩, Quantity.exactly 50⟩,
   .send ⟨1, 1, ⟨Quantity.exactly 1000⟩, Quantity.exactly 200⟩,
   .settle (({} : Report).record 1 0 20 0).2,
   .send ⟨2, 0, ⟨Quantity.exactly 2000⟩, Quantity.exactly 30⟩,
   .send ⟨1, 2, ⟨Quantity.exactly 2000⟩, Quantity.exactly 300⟩,
   .send ⟨1, 3, ⟨Quantity.exactly 3000⟩, Quantity.exactly 400⟩]

def lastPart : Report :=
  (((({} : Report).record 1 2 25 0).2.record 2 65535 20 0).2.record 2 0 25 0).2

theorem remains_of_settle_partlyCovered : ∃ l l' remains,
    Ledger.run { retention := Quantity.exactly 10000000 } partlyCovered = .ok l ∧
    l.settle lastPart = .ok (remains, l') ∧
    remains.packets = 2 ∧ remains.bytes = Quantity.exactly 400 ∧
    remains.packets = (uncovered (partlyCovered ++ [LedgerCommand.settle lastPart])).length ∧
    remains.bytes.value = sizeSum ((sentPackets partlyCovered).filter fun p ↦
      !lastPart.acknowledges (sentPackets partlyCovered) p) ∧
    remains.bytes.value =
      sizeSum (unacknowledged (partlyCovered ++ [LedgerCommand.settle lastPart])) := by
  obtain ⟨⟨l, remains, l'⟩, hanswer, htest⟩ := exists_ok_of_any
    (x := do
      let l ← Ledger.run { retention := Quantity.exactly 10000000 } partlyCovered
      return (l, ← l.settle lastPart))
    (fun (l, remains, _) ↦ decide (remains.packets = 2 ∧ remains.bytes = Quantity.exactly 400 ∧
      ∀ p ∈ sentPackets partlyCovered, (l.lookup p.ssrc p.seq).isSome)) (by decide +kernel)
  obtain ⟨hpackets, hbytes, hkept⟩ := of_decide_eq_true htest
  simp only [bind_eq_ok_iff, pure_eq_ok_iff] at hanswer
  obtain ⟨l, hrun, ⟨remains, l'⟩, hsettle, ⟨⟩⟩ := hanswer
  obtain ⟨hcounted, hleft, -, hadded⟩ := remains_of_settle (by decide) (by decide) hkept hrun hsettle
  refine ⟨l, l', remains, hrun, hsettle, hpackets, hbytes, ?_, hleft, hadded (by decide +kernel)⟩
  refine (hcounted (by decide +kernel)).2 (by decide +kernel) fun earlier hearlier ↦ ?_
  have hfew : ∀ earlier ∈ (partlyCovered ++ [LedgerCommand.settle lastPart]).inits,
      (uncovered earlier).length < 2 ^ 32 := by decide +kernel
  exact hfew earlier ((List.mem_inits _ _).mpr hearlier)

/-- Ten packets of 100 bytes, of which a report covers those from 2 to 5. -/
def partlySettled : List LedgerCommand :=
  (List.range 10).map (fun i ↦
    .send ⟨1, UInt16.ofNat i, ⟨Quantity.exactly 0⟩, Quantity.exactly 100⟩) ++
    [LedgerCommand.settle ((({} : Report).record 1 2 10 0).2.record 1 5 12 0).2]

/-- A report on the packets from 4 to 7. -/
def overlapping : Report := ((({} : Report).record 1 4 11 0).2.record 1 7 14 0).2

/-- The packets that two reports cover are counted twice, and those before the reports' ranges are
acknowledged, so that neither answer is of what no report covers. -/
theorem remains_of_settle_overlapping : ∃ l l' remains,
    Ledger.run { retention := Quantity.exactly 10000000 } partlySettled = .ok l ∧
    l.settle overlapping = .ok (remains, l') ∧
    (∀ p ∈ sentPackets partlySettled, 0 ≤ p.size) ∧
    ((sentPackets partlySettled).map SentPacket.key).Nodup ∧
    (∀ p ∈ sentPackets partlySettled, (l.lookup p.ssrc p.seq).isSome) ∧
    remains.packets ≠ (uncovered (partlySettled ++ [LedgerCommand.settle overlapping])).length ∧
    remains.bytes.value ≠
      sizeSum (uncovered (partlySettled ++ [LedgerCommand.settle overlapping])) := by
  obtain ⟨⟨l, remains, l'⟩, hanswer, htest⟩ := exists_ok_of_any
    (x := do
      let l ← Ledger.run { retention := Quantity.exactly 10000000 } partlySettled
      return (l, ← l.settle overlapping))
    (fun (l, remains, _) ↦ decide (remains.packets = 2 ∧ remains.bytes = Quantity.exactly 200 ∧
      ∀ p ∈ sentPackets partlySettled, (l.lookup p.ssrc p.seq).isSome)) (by decide +kernel)
  obtain ⟨hpackets, hbytes, hkept⟩ := of_decide_eq_true htest
  simp only [bind_eq_ok_iff, pure_eq_ok_iff] at hanswer
  obtain ⟨l, hrun, ⟨remains, l'⟩, hsettle, ⟨⟩⟩ := hanswer
  refine ⟨l, l', remains, hrun, hsettle, by decide, by decide, hkept, ?_, ?_⟩
  · rw [hpackets]
    decide +kernel
  · rw [hbytes]
    decide +kernel

end Ledger

end Congestion
