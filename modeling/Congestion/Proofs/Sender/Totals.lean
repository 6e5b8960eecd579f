import Congestion.Proofs.Sender.Retention
import Congestion.Proofs.Units.Infinities

/-!
# What the totals measure

Each stream adds up the sizes of what is sent on it, and each record keeps the sum up to and with
its own packet. `SentStream.CountsUp` says this of one stream and its history. A send keeps it
(`CountsUp.send`), since neither expiry nor a resend touches a total, and so does a whole run
(`countsUp_of_log`). Sizes may be infinite, and of any sign, as long as the sums are answered.

`Ledger.Tallies` is what this tells of the packets sent (`tallies_of_run`). Of all streams together,
the totals add up to the sizes of all packets (`Tallies.value_totalSent`).
-/

set_option autoImplicit false
set_option relaxedAutoImplicit false

namespace Congestion

def sentOn (ps : List SentPacket) (ssrc : UInt32) : List SentPacket := ps.filter (·.ssrc = ssrc)

def sizeSum (ps : List SentPacket) : ExtendedInt := (ps.map fun p ↦ p.size.value).sum

section Sums

variable {ps : List SentPacket} {p : SentPacket}

@[simp] theorem sizeSum_nil : sizeSum [] = 0 := rfl

theorem sizeSum_cons (p : SentPacket) (ps : List SentPacket) :
    sizeSum (p :: ps) = p.size.value + sizeSum ps := by
  simp [sizeSum]

theorem sizeSum_concat (ps : List SentPacket) (p : SentPacket) :
    sizeSum (ps ++ [p]) = sizeSum ps + p.size.value := by
  simp [sizeSum]

theorem sizeSum_append (ps qs : List SentPacket) :
    sizeSum (ps ++ qs) = sizeSum ps + sizeSum qs := by
  simp [sizeSum]

theorem sizeSum_filter_add_filter_not (test : SentPacket → Bool) (ps : List SentPacket) :
    sizeSum (ps.filter test) + sizeSum (ps.filter fun p ↦ !test p) = sizeSum ps := by
  have hsum := List.sum_map_filter_add_sum_map_filter_not (test · = true) (fun p ↦ p.size.value) ps
  simpa [sizeSum] using hsum

theorem sizeSum_nonneg (h : ∀ p ∈ ps, 0 ≤ p.size) : 0 ≤ sizeSum ps := by
  refine List.sum_nonneg fun size hsize ↦ ?_
  obtain ⟨p, hp, rfl⟩ := List.mem_map.mp hsize
  exact Quantity.value_nonneg_iff.mpr (h p hp)

theorem sizeSum_packets_nonneg {sends : List LoggedSend} (h : ∀ e ∈ sends, 0 ≤ e.packet.size) :
    0 ≤ sizeSum (sends.map LoggedSend.packet) :=
  sizeSum_nonneg (List.forall_mem_map.mpr h)

theorem sizeSum_filter_mono {test test' : SentPacket → Bool} (h : ∀ p ∈ ps, 0 ≤ p.size)
    (himp : ∀ p ∈ ps, test p → test' p) :
    sizeSum (ps.filter test) ≤ sizeSum (ps.filter test') := by
  rw [← sizeSum_filter_add_filter_not test (ps.filter test')]
  have hsame : (ps.filter test').filter test = ps.filter test := by
    rw [List.filter_filter]
    exact List.filter_congr fun p hp ↦ Bool.and_eq_left_iff_imp.mpr (himp p hp)
  rw [hsame]
  exact le_add_of_nonneg_right (sizeSum_nonneg fun p hp ↦
    h p (List.mem_filter.mp (List.mem_filter.mp hp).1).1)

/-- Of different streams, each packet is on at most one. -/
theorem sum_sizeSum_sentOn {ssrcs : List UInt32} (hnodup : ssrcs.Nodup) (ps : List SentPacket) :
    (ssrcs.map fun ssrc ↦ sizeSum (sentOn ps ssrc)).sum =
      sizeSum (ps.filter (·.ssrc ∈ ssrcs)) := by
  induction ps with
  | nil => simp [sentOn]
  | cons p rest ih =>
    have hcons : (fun ssrc ↦ sizeSum (sentOn (p :: rest) ssrc)) = fun ssrc ↦
        (if p.ssrc = ssrc then p.size.value else 0) + sizeSum (sentOn rest ssrc) := by
      funext ssrc
      by_cases h : p.ssrc = ssrc <;> simp [sentOn, h, sizeSum_cons]
    have hown : (ssrcs.map fun ssrc ↦ if p.ssrc = ssrc then p.size.value else 0).sum =
        if p.ssrc ∈ ssrcs then p.size.value else 0 := by
      rw [List.sum_map_eq_nsmul_single p.ssrc _ fun ssrc hne _ ↦ if_neg hne.symm, hnodup.count,
        if_pos rfl]
      split
      · exact one_nsmul _
      · exact zero_nsmul _
    rw [hcons, List.sum_map_add, hown, ih]
    by_cases h : p.ssrc ∈ ssrcs <;> simp [h, sizeSum_cons]

end Sums

/-! ### Streams -/

/-- The total is of all that was sent, each send has recorded what it was by then, and the record of
a number was made by the last send of it. -/
structure SentStream.CountsUp (s : SentStream) (sends : List LoggedSend) : Prop where
  total : s.total.value = sizeSum (sends.map LoggedSend.packet)
  recorded : ∀ before e, before ++ [e] <+: sends →
    e.record.total.value = sizeSum ((before ++ [e]).map LoggedSend.packet)
  made : ∀ (seq : UInt16) (record : SentRecord), s.records[seq]? = some record →
    ∃ before e after, sends = before ++ e :: after ∧ e.packet.seq = seq ∧ e.record = record ∧
      ∀ e' ∈ after, e'.packet.seq ≠ seq

namespace SentStream

variable {s s' : SentStream} {sends : List LoggedSend} {e : LoggedSend} {retention : Duration}

theorem countsUp_empty : ({} : SentStream).CountsUp [] := by
  refine ⟨rfl, fun before e hprefix ↦ ?_, fun seq record h ↦ by simp at h⟩
  simp at hprefix

theorem CountsUp.send (hs : s.CountsUp sends)
    (h : s.send e.packet retention = .ok (e.record, s')) : s'.CountsUp (sends ++ [e]) := by
  obtain ⟨sendTime, total, millis, -, htotal, -, hrecord, rfl⟩ := send_eq_ok_iff.mp h
  have hsum : total.value = sizeSum ((sends ++ [e]).map LoggedSend.packet) := by
    rw [Quantity.value_add htotal, hs.total, List.map_append]
    exact (sizeSum_concat _ _).symm
  refine ⟨hsum, fun before e' hprefix ↦ ?_, fun seq record hfound ↦ ?_⟩
  · rcases List.prefix_concat_iff.mp hprefix with heq | hearlier
    · obtain ⟨rfl, rfl⟩ : before = sends ∧ e' = e := by simpa using heq
      rw [hrecord]
      exact hsum
    · exact hs.recorded before e' hearlier
  · have hkept := getElem?_expire hfound
    rw [Std.ExtTreeMap.getElem?_insert] at hkept
    split at hkept
    next hseq =>
      cases hkept
      exact ⟨sends, e, [], rfl, Std.LawfulEqOrd.compare_eq_iff_eq.mp hseq, rfl, by simp⟩
    next hseq =>
      obtain ⟨before, e', after, rfl, hseq', hmade, hafter⟩ := hs.made seq record hkept
      refine ⟨before, e', after ++ [e], by simp, hseq', hmade, fun e'' he'' ↦ ?_⟩
      rcases List.mem_append.mp he'' with hold | hnew
      · exact hafter e'' hold
      · obtain rfl := List.mem_singleton.mp hnew
        exact fun heq ↦ hseq (Std.LawfulEqOrd.compare_eq_iff_eq.mpr heq)

end SentStream

/-- The total is of all packets sent, and that of a record of those up to and with its own. -/
structure SentStream.Tallies (s : SentStream) (ps : List SentPacket) : Prop where
  total : s.total.value = sizeSum ps
  records : ∀ (seq : UInt16) (record : SentRecord), s.records[seq]? = some record →
    ∃ earlier p later, ps = earlier ++ p :: later ∧ p.seq = seq ∧
      record.total.value = sizeSum (earlier ++ [p])

theorem SentStream.CountsUp.tallies {s : SentStream} {sends : List LoggedSend}
    (hs : s.CountsUp sends) : s.Tallies (sends.map LoggedSend.packet) := by
  refine ⟨hs.total, fun seq record hrecord ↦ ?_⟩
  obtain ⟨before, e, after, rfl, hseq, rfl, -⟩ := hs.made seq record hrecord
  refine ⟨before.map LoggedSend.packet, e.packet, after.map LoggedSend.packet, by simp, hseq, ?_⟩
  rw [hs.recorded before e ⟨after, by simp⟩, List.map_append]
  rfl

/-! ### Ledgers -/

namespace Ledger

variable {l : Ledger} {ps : List SentPacket} {commands : List LedgerCommand}
  {sends : List LoggedSend} {retention : Duration}

theorem countsUp_of_log (h : Ledger.log { retention } commands = .ok (sends, l)) :
    EachStream SentStream.CountsUp l sends :=
  eachStream_of_log SentStream.countsUp_empty (fun _ _ _ _ hs hsent ↦ hs.send hsent) h

structure Tallies (l : Ledger) (ps : List SentPacket) : Prop where
  stream : ∀ ssrc, SentStream.Tallies (l.streams[ssrc]?.getD {}) (sentOn ps ssrc)
  listed : ∀ p ∈ ps, p.ssrc ∈ l.streams

theorem mem_streams_of_log (h : Ledger.log { retention } commands = .ok (sends, l)) {e : LoggedSend}
    (he : e ∈ sends) : e.packet.ssrc ∈ l.streams := by
  have hstreams : EachStream (fun s sends ↦ sends ≠ [] → s.lastSent.isSome) l sends := by
    refine eachStream_of_log (fun h ↦ absurd rfl h) (fun s s' sends e _ hsent _ ↦ ?_) h
    obtain ⟨sendTime, total, millis, -, -, -, -, rfl⟩ := SentStream.send_eq_ok_iff.mp hsent
    rfl
  have hown : e ∈ sendsOnStream sends e.packet.ssrc :=
    List.mem_filter.mpr ⟨he, decide_eq_true rfl⟩
  have hlast := hstreams e.packet.ssrc (List.ne_nil_of_mem hown)
  by_contra hnot
  rw [Std.ExtTreeMap.getElem?_eq_none hnot] at hlast
  cases hlast

theorem tallies_of_run (h : Ledger.run { retention } commands = .ok l) :
    l.Tallies (sentPackets commands) := by
  obtain ⟨sends, hlog⟩ := exists_log_of_run h
  rw [sentPackets, ← (packets_of_log hlog).1]
  refine ⟨fun ssrc ↦ ?_, List.forall_mem_map.mpr fun e ↦ mem_streams_of_log hlog⟩
  rw [sentOn, List.filter_map]
  exact (countsUp_of_log hlog ssrc).tallies

/-- The totals of the streams make up the sizes of all packets. -/
theorem Tallies.value_totalSent {total : DataSize} (hl : l.Tallies ps)
    (h : l.totalSent = .ok total) : total.value = sizeSum ps := by
  have hkeys : l.streams.keys.Nodup := Std.ExtTreeMap.nodup_keys
  have hstreams : l.streams.toList.map (fun s ↦ s.2.total.value) =
      l.streams.keys.map fun ssrc ↦ sizeSum (sentOn ps ssrc) := by
    rw [← Std.ExtTreeMap.map_fst_toList_eq_keys, List.map_map]
    refine List.map_congr_left fun s hs ↦ ?_
    have hstream := (hl.stream s.1).total
    rwa [Std.ExtTreeMap.mem_toList_iff_getElem?_eq_some.mp hs, Option.getD_some] at hstream
  have hall : ps.filter (·.ssrc ∈ l.streams.keys) = ps :=
    List.filter_eq_self.mpr fun p hp ↦
      decide_eq_true (Std.ExtTreeMap.mem_keys.mpr (hl.listed p hp))
  rw [Quantity.value_foldlM_add h, hstreams, sum_sizeSum_sentOn hkeys, hall, Quantity.value_zero,
    zero_add]

end Ledger

end Congestion
