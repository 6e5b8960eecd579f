import Congestion.Proofs.Feedback.Covered
import Congestion.Proofs.Sender.Retention
import Mathlib.Data.List.Perm.Subperm

/-!
# Packets in flight

The ledger counts packets: one more with each send, and as many fewer with each report as the report
covers. A run is also a history of settlements, each a report with what was sent by then, and of
this history `uncovered` is what no report covers.

The count is at most of these packets as long as no report covers a packet before it is sent
(`inFlight_le`): a report covers no more of them than its total count, since no packet is sent twice
(`length_newlyCovered_le`). Where no packet is covered twice either, the count is of these packets,
as far as it goes (`inFlight_eq`).
-/

set_option autoImplicit false
set_option relaxedAutoImplicit false

namespace Congestion

def SentPacket.key (p : SentPacket) : UInt32 × UInt16 := (p.ssrc, p.seq)

/-! ### Settlements -/

/-- A report that is settled, with the packets sent by then. -/
structure Settlement where
  report : Report
  sent : List SentPacket

/-- The settlements of a run that goes on after some packets have been sent. -/
def settlementsAfter (sent : List SentPacket) : List LedgerCommand → List Settlement
  | [] => []
  | .send p :: rest => settlementsAfter (sent ++ [p]) rest
  | .settle r :: rest => ⟨r, sent⟩ :: settlementsAfter sent rest
  | .restart :: rest => settlementsAfter sent rest

def settlements (commands : List LedgerCommand) : List Settlement := settlementsAfter [] commands

/-- The packets sent that no report settled so far covers. -/
def uncovered (commands : List LedgerCommand) : List SentPacket :=
  (sentPackets commands).filter fun p ↦
    (settlements commands).all fun s ↦ p.key ∉ s.report.covered

section Settlements

variable {commands : List LedgerCommand} {p : SentPacket} {r : Report}

theorem sentPackets_concat (commands : List LedgerCommand) (c : LedgerCommand) :
    sentPackets (commands ++ [c]) = sentPackets commands ++ c.packet?.toList := by
  cases hc : c.packet? <;> simp [sentPackets, hc]

theorem sentPackets_send (commands : List LedgerCommand) (p : SentPacket) :
    sentPackets (commands ++ [LedgerCommand.send p]) = sentPackets commands ++ [p] :=
  sentPackets_concat ..

theorem sentPackets_settle (commands : List LedgerCommand) (r : Report) :
    sentPackets (commands ++ [LedgerCommand.settle r]) = sentPackets commands := by
  simp [sentPackets_concat, LedgerCommand.packet?]

theorem sentPackets_restart (commands : List LedgerCommand) :
    sentPackets (commands ++ [LedgerCommand.restart]) = sentPackets commands := by
  simp [sentPackets_concat, LedgerCommand.packet?]

theorem settlementsAfter_append (sent : List SentPacket) (commands rest : List LedgerCommand) :
    settlementsAfter sent (commands ++ rest) =
      settlementsAfter sent commands ++ settlementsAfter (sent ++ sentPackets commands) rest := by
  fun_induction settlementsAfter sent commands with
  | case1 => simp [sentPackets]
  | case2 sent p commands ih =>
    have hsent : sentPackets (.send p :: commands) = p :: sentPackets commands := rfl
    rw [List.cons_append, settlementsAfter, ih, hsent, List.append_assoc]
    rfl
  | case3 sent r commands ih =>
    rw [List.cons_append, settlementsAfter, ih]
    rfl
  | case4 sent commands ih =>
    rw [List.cons_append, settlementsAfter, ih]
    rfl

theorem settlements_send (commands : List LedgerCommand) (p : SentPacket) :
    settlements (commands ++ [LedgerCommand.send p]) = settlements commands := by
  simp [settlements, settlementsAfter_append, settlementsAfter]

theorem settlements_settle (commands : List LedgerCommand) (r : Report) :
    settlements (commands ++ [LedgerCommand.settle r]) =
      settlements commands ++ [⟨r, sentPackets commands⟩] := by
  simp [settlements, settlementsAfter_append, settlementsAfter]

theorem settlements_restart (commands : List LedgerCommand) :
    settlements (commands ++ [LedgerCommand.restart]) = settlements commands := by
  simp [settlements, settlementsAfter_append, settlementsAfter]

theorem settlements_prefix_concat (commands : List LedgerCommand) (c : LedgerCommand) :
    settlements commands <+: settlements (commands ++ [c]) := by
  cases c with
  | send p => rw [settlements_send]
  | settle r =>
    rw [settlements_settle]
    exact List.prefix_append _ _
  | restart => rw [settlements_restart]

/-- What was sent by a settlement has been sent by now. -/
theorem sent_sublist_of_mem {s : Settlement} (h : s ∈ settlements commands) :
    s.sent.Sublist (sentPackets commands) := by
  induction commands using List.reverseRecOn with
  | nil => cases h
  | append_singleton commands c ih =>
    rw [sentPackets_concat]
    cases c with
    | settle r =>
      rw [settlements_settle] at h
      rcases List.mem_append.mp h with hold | hnew
      · exact (ih hold).trans (List.sublist_append_left _ _)
      · obtain rfl := List.mem_singleton.mp hnew
        exact List.sublist_append_left _ _
    | send p =>
      rw [settlements_send] at h
      exact (ih h).trans (List.sublist_append_left _ _)
    | restart =>
      rw [settlements_restart] at h
      exact (ih h).trans (List.sublist_append_left _ _)

namespace Settlement

/-- The report covers nothing but packets sent before it is settled. -/
def Timely (s : Settlement) : Prop :=
  ∀ key ∈ s.report.covered, key ∈ s.sent.map SentPacket.key

/-- No number is covered by both reports. -/
def Apart (s t : Settlement) : Prop := ∀ key ∈ s.report.covered, key ∉ t.report.covered

-- decided over what is covered, and not over all numbers that there are
instance (s : Settlement) : Decidable s.Timely := List.decidableBAll ..

instance (s t : Settlement) : Decidable (s.Apart t) := List.decidableBAll ..

end Settlement

end Settlements

/-! ### Packets -/

section Packets

variable {commands : List LedgerCommand} {p : SentPacket} {r : Report}

theorem uncovered_send
    (honce : ((sentPackets (commands ++ [LedgerCommand.send p])).map SentPacket.key).Nodup)
    (htimely : ∀ s ∈ settlements commands, s.Timely) :
    uncovered (commands ++ [LedgerCommand.send p]) = uncovered commands ++ [p] := by
  rw [sentPackets_send, List.map_append] at honce
  have hnew : ∀ s ∈ settlements commands, p.key ∉ s.report.covered := fun s hs hcovered ↦
    List.disjoint_of_nodup_append honce
      ((sent_sublist_of_mem hs).map SentPacket.key |>.subset (htimely s hs _ hcovered)) (by simp)
  rw [uncovered, uncovered, settlements_send, sentPackets_send, List.filter_append]
  congr 1
  exact List.filter_eq_self.mpr (by simpa using hnew)

theorem uncovered_settle (commands : List LedgerCommand) (r : Report) :
    uncovered (commands ++ [LedgerCommand.settle r]) =
      (uncovered commands).filter fun p ↦ p.key ∉ r.covered := by
  simp only [uncovered, settlements_settle, sentPackets_settle, List.filter_filter, List.all_append]
  refine List.filter_congr fun p _ ↦ ?_
  simp [Bool.and_comm]

theorem uncovered_restart (commands : List LedgerCommand) :
    uncovered (commands ++ [LedgerCommand.restart]) = uncovered commands := by
  rw [uncovered, uncovered, settlements_restart, sentPackets_restart]

/-- What a report covers of the packets that no report covered before. -/
def newlyCovered (commands : List LedgerCommand) (r : Report) : List SentPacket :=
  (uncovered commands).filter fun p ↦ p.key ∈ r.covered

theorem length_uncovered_settle (commands : List LedgerCommand) (r : Report) :
    (uncovered commands).length = (newlyCovered commands r).length +
      (uncovered (commands ++ [LedgerCommand.settle r])).length := by
  rw [uncovered_settle, newlyCovered, List.length_eq_length_filter_add fun p ↦ p.key ∈ r.covered]
  simp

theorem nodup_newlyCovered (honce : ((sentPackets commands).map SentPacket.key).Nodup)
    (r : Report) : ((newlyCovered commands r).map SentPacket.key).Nodup :=
  honce.sublist ((List.filter_sublist.trans List.filter_sublist).map _)

theorem newlyCovered_subset (commands : List LedgerCommand) (r : Report) :
    (newlyCovered commands r).map SentPacket.key ⊆ r.covered := by
  intro key hkey
  obtain ⟨p, hp, rfl⟩ := List.mem_map.mp hkey
  exact of_decide_eq_true (List.mem_filter.mp hp).2

theorem length_newlyCovered_le (honce : ((sentPackets commands).map SentPacket.key).Nodup)
    (r : Report) : (newlyCovered commands r).length ≤ r.covered.length := by
  rw [← List.length_map SentPacket.key]
  exact (List.subperm_of_subset (nodup_newlyCovered honce r)
    (newlyCovered_subset commands r)).length_le

/-- A report that comes after its packets and covers none that are covered already. -/
theorem length_newlyCovered_eq (honce : ((sentPackets commands).map SentPacket.key).Nodup)
    (htimely : Settlement.Timely ⟨r, sentPackets commands⟩)
    (hapart : (settlements (commands ++ [LedgerCommand.settle r])).Pairwise Settlement.Apart) :
    (newlyCovered commands r).length = r.covered.length := by
  refine Nat.le_antisymm (length_newlyCovered_le honce r) ?_
  have hsubset : r.covered ⊆ (newlyCovered commands r).map SentPacket.key := by
    intro key hkey
    obtain ⟨p, hp, rfl⟩ := List.mem_map.mp (htimely key hkey)
    rw [settlements_settle] at hapart
    have hfresh : ∀ s ∈ settlements commands, p.key ∉ s.report.covered := fun s hs hcovered ↦
      (List.pairwise_append.mp hapart).2.2 s hs _ (List.mem_singleton_self _) _ hcovered hkey
    have huncovered : p ∈ uncovered commands := List.mem_filter.mpr ⟨hp, by simpa using hfresh⟩
    exact List.mem_map_of_mem (List.mem_filter.mpr ⟨huncovered, decide_eq_true hkey⟩)
  rw [← List.length_map SentPacket.key]
  exact (List.subperm_of_subset r.nodup_covered hsubset).length_le

end Packets

namespace Ledger

variable {l l' : Ledger} {commands : List LedgerCommand} {r : Report} {remains : NetRemains}
  {retention : Duration}

theorem inFlight_settle (h : l.settle r = .ok (remains, l')) :
    remains.packets = l.inFlight - r.covered.length ∧ l'.inFlight = remains.packets := by
  obtain ⟨acknowledged, sent, total, difference, -, -, htotal, -, rfl, rfl⟩ :=
    settle_eq_ok_iff.mp h
  rw [Report.length_covered htotal]
  exact ⟨rfl, rfl⟩

theorem inFlight_send {p : SentPacket} (h : l.step (.send p) = .ok l') :
    l'.inFlight = min (l.inFlight + 1) 0xffffffff := by
  obtain ⟨⟨record, l''⟩, hrecord, rfl⟩ := map_eq_ok_iff.mp h
  obtain ⟨stream, -, rfl⟩ := record_eq_ok_iff.mp hrecord
  rfl

theorem nodup_keys_of_concat {c : LedgerCommand}
    (honce : ((sentPackets (commands ++ [c])).map SentPacket.key).Nodup) :
    ((sentPackets commands).map SentPacket.key).Nodup := by
  rw [sentPackets_concat, List.map_append] at honce
  exact honce.of_append_left

theorem inFlight_step_le {c : LedgerCommand}
    (honce : ((sentPackets (commands ++ [c])).map SentPacket.key).Nodup)
    (htimely : ∀ s ∈ settlements commands, s.Timely)
    (hle : l.inFlight ≤ (uncovered commands).length) (h : l.step c = .ok l') :
    l'.inFlight ≤ (uncovered (commands ++ [c])).length := by
  cases c with
  | send p =>
    rw [uncovered_send honce htimely, inFlight_send h, List.length_append]
    exact Nat.le_trans (Nat.min_le_left _ _) (Nat.succ_le_succ hle)
  | settle r =>
    obtain ⟨⟨remains, l''⟩, hsettle, rfl⟩ := map_eq_ok_iff.mp h
    obtain ⟨hpackets, hinFlight⟩ := inFlight_settle hsettle
    have hlength := length_uncovered_settle commands r
    have hcovered := length_newlyCovered_le (nodup_keys_of_concat honce) r
    dsimp only
    omega
  | restart =>
    cases h
    rw [uncovered_restart]
    exact hle

/-- The counter knows of no more packets than there are, as long as reports come after the packets
that they cover. -/
theorem inFlight_le (honce : ((sentPackets commands).map SentPacket.key).Nodup)
    (htimely : ∀ s ∈ settlements commands, s.Timely)
    (h : Ledger.run { retention } commands = .ok l) : l.inFlight ≤ (uncovered commands).length := by
  induction commands using List.reverseRecOn generalizing l with
  | nil =>
    cases h
    exact Nat.zero_le _
  | append_singleton commands c ih =>
    obtain ⟨l₁, hrun, hstep⟩ := run_concat_eq_ok_iff.mp h
    have htimelyBefore : ∀ s ∈ settlements commands, s.Timely := fun s hs ↦
      htimely s ((settlements_prefix_concat _ _).subset hs)
    exact inFlight_step_le honce htimelyBefore
      (ih (nodup_keys_of_concat honce) htimelyBefore hrun) hstep

theorem inFlight_step_eq {c : LedgerCommand}
    (honce : ((sentPackets (commands ++ [c])).map SentPacket.key).Nodup)
    (htimely : ∀ s ∈ settlements (commands ++ [c]), s.Timely)
    (hapart : (settlements (commands ++ [c])).Pairwise Settlement.Apart)
    (hfew : (uncovered (commands ++ [c])).length < 2 ^ 32)
    (heq : l.inFlight = (uncovered commands).length) (h : l.step c = .ok l') :
    l'.inFlight = (uncovered (commands ++ [c])).length := by
  cases c with
  | send p =>
    rw [settlements_send] at htimely
    rw [uncovered_send honce htimely, List.length_append, List.length_singleton] at hfew ⊢
    rw [inFlight_send h, heq]
    exact Nat.min_eq_left (Nat.le_of_lt_succ hfew)
  | settle r =>
    obtain ⟨⟨remains, l''⟩, hsettle, rfl⟩ := map_eq_ok_iff.mp h
    obtain ⟨hpackets, hinFlight⟩ := inFlight_settle hsettle
    have hlength := length_uncovered_settle commands r
    have hnow : Settlement.Timely ⟨r, sentPackets commands⟩ :=
      htimely _ (by simp [settlements_settle])
    have hcovered := length_newlyCovered_eq (nodup_keys_of_concat honce) hnow hapart
    dsimp only
    omega
  | restart =>
    cases h
    rw [uncovered_restart]
    exact heq

/-- Where no number is covered twice either, the counter knows of each packet, up to its end. -/
theorem inFlight_eq (honce : ((sentPackets commands).map SentPacket.key).Nodup)
    (htimely : ∀ s ∈ settlements commands, s.Timely)
    (hapart : (settlements commands).Pairwise Settlement.Apart)
    (hfew : ∀ earlier, earlier <+: commands → (uncovered earlier).length < 2 ^ 32)
    (h : Ledger.run { retention } commands = .ok l) : l.inFlight = (uncovered commands).length := by
  induction commands using List.reverseRecOn generalizing l with
  | nil =>
    cases h
    rfl
  | append_singleton commands c ih =>
    obtain ⟨l₁, hrun, hstep⟩ := run_concat_eq_ok_iff.mp h
    have hgrows := settlements_prefix_concat commands c
    have hbefore := ih (nodup_keys_of_concat honce) (fun s hs ↦ htimely s (hgrows.subset hs))
      (hapart.sublist hgrows.sublist)
      (fun earlier hearlier ↦ hfew earlier (hearlier.trans (List.prefix_append _ _))) hrun
    exact inFlight_step_eq honce htimely hapart (hfew _ (List.prefix_refl _)) hbefore hstep

end Ledger

end Congestion
