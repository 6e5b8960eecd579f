import Congestion.Proofs.Units.Amounts
import Congestion.Sender.Ledger
import Mathlib.Algebra.BigOperators.Ring.List
import Mathlib.Algebra.Order.BigOperators.Group.List
import Mathlib.Algebra.Ring.Nat

/-!
# Runs of the ledger

A sender uses its ledger in three ways: it sends, it settles a report, and it starts a new session.
`Ledger.run` is any sequence of these. `record_eq_ok_iff` and `SentStream.send_eq_ok_iff` say all
that a send does, and `settle_eq_ok_iff` what settling a report does.

`Ledger.Bounded` is what any run keeps of packets of bounded size and time: with `sends ssrc` sends
on a stream, its total and the totals of its records are at most `sends ssrc` times the size, and
its send order has at most `sends ssrc` entries. Numbers sent again and numbers expired do not
matter to it (`bounded_run`).
-/

set_option autoImplicit false
set_option relaxedAutoImplicit false

namespace Congestion

inductive LedgerCommand
  | send (p : SentPacket)
  | settle (r : Report)
  | restart

namespace Ledger

def step (l : Ledger) : LedgerCommand → Checked Ledger
  | .send p => Prod.snd <$> l.record p
  | .settle r => Prod.snd <$> l.settle r
  | .restart => .ok l.restart

def run (l : Ledger) (commands : List LedgerCommand) : Checked Ledger := commands.foldlM step l

end Ledger

namespace LedgerCommand

/-- The stream that the command sends on. -/
def sendsOn? : LedgerCommand → Option UInt32
  | .send p => some p.ssrc
  | _ => none

end LedgerCommand

/-- How often a stream is sent on. -/
def sendsOn (commands : List LedgerCommand) (ssrc : UInt32) : Nat :=
  commands.countP (·.sendsOn? = some ssrc)

/-- How often any stream is sent on. -/
def sendCount (commands : List LedgerCommand) : Nat := commands.countP (·.sendsOn?.isSome)

/-- Of different streams, a command sends on at most one. -/
theorem sum_ite_sendsOn?_le {ssrcs : List UInt32} (hnodup : ssrcs.Nodup) (on : Option UInt32) :
    (ssrcs.map fun ssrc ↦ if on = some ssrc then 1 else 0).sum ≤ if on.isSome then 1 else 0 := by
  induction ssrcs with
  | nil => exact Nat.zero_le _
  | cons ssrc rest ih =>
    obtain ⟨hnot, hrest⟩ := List.nodup_cons.mp hnodup
    rw [List.map_cons, List.sum_cons]
    by_cases hon : on = some ssrc
    · have hzero : (rest.map fun ssrc' ↦ if on = some ssrc' then 1 else 0).sum = 0 := by
        refine List.sum_eq_zero fun n hn ↦ ?_
        obtain ⟨ssrc', hmem, rfl⟩ := List.mem_map.mp hn
        refine if_neg fun hon' ↦ hnot ?_
        rw [Option.some.inj (hon.symm.trans hon')]
        exact hmem
      rw [hzero, if_pos hon, hon]
      exact Nat.le_refl 1
    · rw [if_neg hon, Nat.zero_add]
      exact ih hrest

theorem sendsOn_cons (c : LedgerCommand) (rest : List LedgerCommand) (ssrc : UInt32) :
    sendsOn (c :: rest) ssrc = sendsOn rest ssrc + if c.sendsOn? = some ssrc then 1 else 0 := by
  simp [sendsOn, List.countP_cons]

theorem sum_sendsOn_le {ssrcs : List UInt32} (hnodup : ssrcs.Nodup)
    (commands : List LedgerCommand) : (ssrcs.map (sendsOn commands)).sum ≤ sendCount commands := by
  induction commands with
  | nil =>
    have hzero : sendsOn [] = fun _ ↦ 0 := rfl
    simp [hzero]
  | cons c rest ih =>
    have hsplit : sendsOn (c :: rest) = fun ssrc ↦
        sendsOn rest ssrc + if c.sendsOn? = some ssrc then 1 else 0 := funext (sendsOn_cons c rest)
    rw [hsplit, List.sum_map_add, sendCount, List.countP_cons]
    exact Nat.add_le_add ih (sum_ite_sendsOn?_le hnodup c.sendsOn?)

/-! ### What a send does -/

namespace SentStream

variable {s s' : SentStream} {p : SentPacket} {retention : Duration} {record : SentRecord}

theorem send_eq_ok_iff : s.send p retention = .ok (record, s') ↔
    ∃ sendTime total millis, p.sendTime.toFinite = .ok sendTime ∧
      (s.total + p.size : Checked DataSize) = .ok total ∧ retention.millis = .ok millis ∧
      record = { sendTime, size := p.size, total } ∧
      s' = expire
        { records := s.records.insert p.seq record, order := s.order.push (p.seq, sendTime),
          lastSent := some p.seq, total } sendTime.millisFloor millis := by
  unfold send
  simp only [bind_eq_ok_iff, pure_eq_ok_iff, Prod.mk.injEq]
  constructor
  · rintro ⟨total, htotal, sendTime, hsendTime, millis, hmillis, rfl, rfl⟩
    exact ⟨sendTime, total, millis, hsendTime, htotal, hmillis, rfl, rfl⟩
  · rintro ⟨sendTime, total, millis, hsendTime, htotal, hmillis, rfl, rfl⟩
    exact ⟨total, htotal, sendTime, hsendTime, millis, hmillis, rfl, rfl⟩

theorem getElem?_forget (records : Std.ExtTreeMap UInt16 SentRecord) (sent : UInt16 × Finite)
    (seq : UInt16) : (forget records sent)[seq]? =
      records[seq]?.filter fun record ↦ (seq, record.sendTime) ≠ sent := by
  obtain ⟨seq', sendTime⟩ := sent
  unfold forget
  by_cases hseq : seq' = seq
  · subst hseq
    cases hrecord : records[seq']? with
    | none => simp [hrecord]
    | some record =>
      by_cases htime : record.sendTime = sendTime <;>
        simp [Option.filter_some, htime, hrecord]
  · have hkept : records[seq]?.filter (fun record ↦ (seq, record.sendTime) ≠ (seq', sendTime)) =
        records[seq]? := by
      cases records[seq]? <;> simp [Ne.symm hseq]
    rw [hkept]
    split
    · rw [Std.ExtTreeMap.getElem?_erase, if_neg (by simpa using hseq)]
    · rfl

/-- A record is forgotten with its own send, and with no other of the same number. -/
theorem getElem?_foldl_forget (expired : List (UInt16 × Finite))
    (records : Std.ExtTreeMap UInt16 SentRecord) (seq : UInt16) :
    (expired.foldl forget records)[seq]? =
      records[seq]?.filter fun record ↦ (seq, record.sendTime) ∉ expired := by
  induction expired generalizing records with
  | nil => cases h : records[seq]? <;> simp [h, Option.filter_some]
  | cons sent rest ih =>
    rw [List.foldl_cons, ih, getElem?_forget, Option.filter_filter]
    simp [not_or]

theorem getElem?_records_expire (s : SentStream) (now millis : Int) (seq : UInt16) :
    (s.expire now millis).records[seq]? = s.records[seq]?.filter fun record ↦
      (seq, record.sendTime) ∉
        s.order.toList.takeWhile fun sent ↦ sent.2.millisFloor + millis < now := by
  rw [← getElem?_foldl_forget, ← Queue.popWhile_fst]
  rfl

/-- Expiry only drops records. -/
theorem getElem?_expire {now millis : Int} {seq : UInt16}
    (h : (s.expire now millis).records[seq]? = some record) : s.records[seq]? = some record := by
  rw [getElem?_records_expire] at h
  exact (Option.filter_eq_some_iff.mp h).1

theorem order_expire (s : SentStream) (now millis : Int) : (s.expire now millis).order.toList =
    s.order.toList.dropWhile fun sent ↦ sent.2.millisFloor + millis < now := by
  simp [expire]

end SentStream

namespace Ledger

variable {l l' : Ledger} {p : SentPacket} {record : SentRecord}

theorem record_eq_ok_iff : l.record p = .ok (record, l') ↔
    ∃ stream, (l.streams[p.ssrc]?.getD {}).send p l.retention = .ok (record, stream) ∧
      l' = { l with
        streams := l.streams.insert p.ssrc stream
        sessionStart := some (l.sessionStart.getD p.sendTime)
        inFlight := min (l.inFlight + 1) 0xffffffff } := by
  unfold Ledger.record
  simp only [bind_eq_ok_iff, pure_eq_ok_iff, Prod.mk.injEq, Prod.exists]
  constructor
  · rintro ⟨_, stream, hstream, rfl, rfl⟩
    exact ⟨stream, hstream, rfl⟩
  · rintro ⟨stream, hstream, rfl⟩
    exact ⟨_, stream, hstream, rfl, rfl⟩

/-- What a send leaves in the ledger is its own record and what was there before. -/
theorem lookup_of_record {ssrc : UInt32} {seq : UInt16} {found : SentRecord}
    (h : l.record p = .ok (record, l')) (hfound : l'.lookup ssrc seq = some found) :
    found.size = p.size ∨ l.lookup ssrc seq = some found := by
  obtain ⟨stream, hstream, rfl⟩ := record_eq_ok_iff.mp h
  obtain ⟨sendTime, total, millis, -, -, -, rfl, rfl⟩ := SentStream.send_eq_ok_iff.mp hstream
  unfold lookup at hfound ⊢
  dsimp only at hfound
  rw [Std.ExtTreeMap.getElem?_insert] at hfound
  by_cases hssrc : p.ssrc = ssrc
  · subst hssrc
    rw [if_pos (by simp)] at hfound
    have hkept := SentStream.getElem?_expire hfound
    rw [Std.ExtTreeMap.getElem?_insert] at hkept
    split at hkept
    · cases hkept
      exact Or.inl rfl
    · right
      cases hlisted : l.streams[p.ssrc]? with
      | none => simp [hlisted] at hkept
      | some s => simpa [hlisted] using hkept
  · rw [if_neg (by simpa using hssrc)] at hfound
    exact Or.inr hfound

/-- The records listed are those that are found. -/
theorem lookup_of_mem_records {ssrc : UInt32} {sent : UInt16 × SentRecord}
    (h : sent ∈ l.records ssrc) : l.lookup ssrc sent.1 = some sent.2 := by
  unfold records at h
  unfold lookup
  split at h
  next s hs =>
    obtain ⟨⟨seq, sendTime⟩, -, hlisted⟩ := List.mem_filterMap.mp h
    dsimp only at hlisted
    split at hlisted
    next record hrecord =>
      split at hlisted
      · cases hlisted
        exact hrecord
      · cases hlisted
    next => cases hlisted
  next => cases h

theorem settle_eq_ok_iff {r : Report} {remains : NetRemains} : l.settle r = .ok (remains, l') ↔
    ∃ acknowledged sent total difference, l.acknowledged r = .ok acknowledged ∧
      l.totalSent = .ok sent ∧ r.totalCount = .ok total ∧
      (sent - acknowledged : Checked DataSize) = .ok difference ∧
      remains = { packets := l.inFlight - total, bytes := max difference 0 } ∧
      l' = { l with inFlight := l.inFlight - total } := by
  unfold settle
  simp only [bind_eq_ok_iff, pure_eq_ok_iff, Prod.mk.injEq]
  constructor
  · rintro ⟨acknowledged, hacknowledged, sent, hsent, total, htotal, difference, hdifference,
      rfl, rfl⟩
    exact ⟨acknowledged, sent, total, difference, hacknowledged, hsent, htotal, hdifference,
      rfl, rfl⟩
  · rintro ⟨acknowledged, sent, total, difference, hacknowledged, hsent, htotal, hdifference,
      rfl, rfl⟩
    exact ⟨acknowledged, hacknowledged, sent, hsent, total, htotal, difference, hdifference,
      rfl, rfl⟩

theorem run_concat_eq_ok_iff {commands : List LedgerCommand} {c : LedgerCommand} :
    l.run (commands ++ [c]) = .ok l' ↔ ∃ l₁, l.run commands = .ok l₁ ∧ l₁.step c = .ok l' := by
  simp [run, List.foldlM_append]

/-- Settling a report only counts packets. -/
theorem exists_inFlight_of_settle {r : Report} {remains : NetRemains}
    (h : l.settle r = .ok (remains, l')) : ∃ inFlight, l' = { l with inFlight } := by
  obtain ⟨_, _, _, _, -, -, -, -, -, rfl⟩ := settle_eq_ok_iff.mp h
  exact ⟨_, rfl⟩

theorem streams_settle {r : Report} {remains : NetRemains} (h : l.settle r = .ok (remains, l')) :
    l'.streams = l.streams := by
  obtain ⟨inFlight, rfl⟩ := exists_inFlight_of_settle h
  rfl

end Ledger

/-! ### Bounds -/

/-- Sent within `2 ^ 60` microseconds of the epoch, with less than `2 ^ 32` bytes. -/
structure SentPacket.Modest (p : SentPacket) : Prop where
  time : ∃ sendTime, p.sendTime.toFinite = .ok sendTime ∧
    -2 ^ 60 ≤ sendTime.value ∧ sendTime.value ≤ 2 ^ 60
  size : p.size.AtMost 0xffffffff

structure SentRecord.Bounded (record : SentRecord) (sends : Nat) : Prop where
  lower : -2 ^ 60 ≤ record.sendTime.value
  upper : record.sendTime.value ≤ 2 ^ 60
  size : record.size.AtMost 0xffffffff
  total : record.total.AtMost (sends * 0xffffffff)

structure SentStream.Bounded (s : SentStream) (sends : Nat) : Prop where
  total : s.total.AtMost (sends * 0xffffffff)
  order : s.order.toList.length ≤ sends
  records : ∀ (seq : UInt16) (record : SentRecord), s.records[seq]? = some record →
    record.Bounded sends

def Ledger.Bounded (l : Ledger) (sends : UInt32 → Nat) : Prop :=
  ∀ (ssrc : UInt32) (s : SentStream), l.streams[ssrc]? = some s → s.Bounded (sends ssrc)

theorem SentRecord.Bounded.mono {record : SentRecord} {j k : Nat} (h : record.Bounded j)
    (hjk : j ≤ k) : record.Bounded k :=
  ⟨h.lower, h.upper, h.size, h.total.mono (Nat.mul_le_mul_right _ hjk)⟩

theorem SentStream.bounded_empty (sends : Nat) : ({} : SentStream).Bounded sends :=
  ⟨Quantity.AtMost.zero.mono (Nat.zero_le _), Nat.zero_le _, fun seq record h ↦ by simp at h⟩

theorem SentStream.bounded_send {s s' : SentStream} {p : SentPacket} {retention : Duration}
    {record : SentRecord} {sends : Nat} (hs : s.Bounded sends) (hp : p.Modest)
    (h : s.send p retention = .ok (record, s')) : s'.Bounded (sends + 1) := by
  obtain ⟨sendTime, total, millis, htime, htotal, -, hrecord, rfl⟩ := send_eq_ok_iff.mp h
  have hbound : total.AtMost ((sends + 1) * 0xffffffff) := by
    rw [Nat.succ_mul]
    exact hs.total.of_add hp.size htotal
  refine ⟨hbound, ?_, fun seq record' hrecord' ↦ ?_⟩
  · have hpushed : (s.order.push (p.seq, sendTime)).toList.length ≤ sends + 1 := by
      rw [Queue.toList_push, List.length_append]
      exact Nat.succ_le_succ hs.order
    rw [order_expire]
    exact Nat.le_trans (List.dropWhile_suffix _).length_le hpushed
  · have hkept := getElem?_expire hrecord'
    rw [Std.ExtTreeMap.getElem?_insert] at hkept
    split at hkept
    · cases hkept
      obtain ⟨sendTime', htime', hlower, hupper⟩ := hp.time
      cases htime.symm.trans htime'
      rw [hrecord]
      exact ⟨hlower, hupper, hp.size, hbound⟩
    · exact (hs.records seq record' hkept).mono (Nat.le_succ sends)

theorem Ledger.bounded_step {l l' : Ledger} {c : LedgerCommand} {sends : UInt32 → Nat}
    (hl : l.Bounded sends) (hc : ∀ p, c = .send p → p.Modest) (h : l.step c = .ok l') :
    l'.Bounded fun ssrc ↦ sends ssrc + if c.sendsOn? = some ssrc then 1 else 0 := by
  intro ssrc s hs
  cases c with
  | send p =>
    obtain ⟨⟨record, l''⟩, hrecord, rfl⟩ := map_eq_ok_iff.mp h
    obtain ⟨stream, hstream, rfl⟩ := record_eq_ok_iff.mp hrecord
    dsimp only at hs
    rw [Std.ExtTreeMap.getElem?_insert] at hs
    by_cases hsame : p.ssrc = ssrc
    · subst hsame
      have hold : (l.streams[p.ssrc]?.getD {}).Bounded (sends p.ssrc) := by
        cases hlisted : l.streams[p.ssrc]? with
        | none => exact SentStream.bounded_empty _
        | some s' => exact hl p.ssrc s' hlisted
      rw [if_pos (by simp)] at hs
      cases hs
      simpa [LedgerCommand.sendsOn?] using SentStream.bounded_send hold (hc p rfl) hstream
    · rw [if_neg (by simpa using hsame)] at hs
      simpa [LedgerCommand.sendsOn?, hsame] using hl ssrc s hs
  | settle r =>
    obtain ⟨⟨remains, l''⟩, hsettle, rfl⟩ := map_eq_ok_iff.mp h
    rw [streams_settle hsettle] at hs
    exact hl ssrc s hs
  | restart =>
    cases h
    exact hl ssrc s hs

theorem Ledger.bounded_run {commands : List LedgerCommand} {l l' : Ledger} {sends : UInt32 → Nat}
    (hl : l.Bounded sends) (hcommands : ∀ p, .send p ∈ commands → p.Modest)
    (h : l.run commands = .ok l') : l'.Bounded fun ssrc ↦ sends ssrc + sendsOn commands ssrc := by
  induction commands generalizing l sends with
  | nil => cases h; exact hl
  | cons c rest ih =>
    rw [run, List.foldlM_cons] at h
    obtain ⟨l'', hstep, hrest⟩ := bind_eq_ok_iff.mp h
    have hl'' := bounded_step hl (fun p hp ↦ hcommands p (by simp [hp])) hstep
    have hl' := ih hl'' (fun p hp ↦ hcommands p (by simp [hp])) hrest
    intro ssrc s hs
    show s.Bounded (sends ssrc + sendsOn (c :: rest) ssrc)
    rw [sendsOn_cons, Nat.add_comm (sendsOn rest ssrc), ← Nat.add_assoc]
    exact hl' ssrc s hs

/-! ### What a bounded ledger answers -/

namespace Ledger

variable {l : Ledger} {sends : UInt32 → Nat} {ssrc : UInt32} {seq : UInt16} {record : SentRecord}

theorem Bounded.lookup (hl : l.Bounded sends) (h : l.lookup ssrc seq = some record) :
    record.Bounded (sends ssrc) := by
  unfold Ledger.lookup at h
  split at h
  next s hs => exact (hl ssrc s hs).records seq record h
  next => cases h

/-- The records listed are among the sends, which a record may be listed for more than once. -/
theorem Bounded.records (hl : l.Bounded sends) (ssrc : UInt32) :
    (l.records ssrc).length ≤ sends ssrc ∧ ∀ sent ∈ l.records ssrc, sent.2.Bounded (sends ssrc) := by
  refine ⟨?_, fun sent hsent ↦ hl.lookup (lookup_of_mem_records hsent)⟩
  unfold Ledger.records
  split
  next s hs => exact Nat.le_trans (List.length_filterMap_le _ _) (hl ssrc s hs).order
  next => exact Nat.zero_le _

/-- Bounded by fewer than `2 ^ 30` sends in all. -/
structure Modest (l : Ledger) (sends : UInt32 → Nat) : Prop where
  bounded : l.Bounded sends
  few : ∀ ssrcs : List UInt32, ssrcs.Nodup → (ssrcs.map sends).sum < 2 ^ 30

theorem modest_of_run {retention : Duration} {commands : List LedgerCommand}
    (hcommands : ∀ p, .send p ∈ commands → p.Modest) (hfew : sendCount commands < 2 ^ 30)
    (h : Ledger.run { retention } commands = .ok l) : l.Modest (sendsOn commands) := by
  have hempty : Bounded { retention } fun _ ↦ 0 := fun ssrc s hs ↦ by simp at hs
  have hbounded := bounded_run hempty hcommands h
  simp only [Nat.zero_add] at hbounded
  exact ⟨hbounded, fun ssrcs hnodup ↦ Nat.lt_of_le_of_lt (sum_sendsOn_le hnodup commands) hfew⟩

/-- A bound by the sends of each of some streams is a bound by all sends. -/
theorem Modest.sum_le {β : Type} (hl : l.Modest sends) {streams : List (UInt32 × β)}
    (hnodup : (streams.map Prod.fst).Nodup) (size : Nat) :
    (streams.map fun s ↦ sends s.1 * size).sum ≤ 2 ^ 30 * size := by
  have hsum : (streams.map fun s ↦ sends s.1 * size).sum =
      ((streams.map Prod.fst).map sends).sum * size := by
    rw [List.map_map]
    exact List.sum_map_mul_right streams (fun s ↦ sends s.1) size
  rw [hsum]
  exact Nat.mul_le_mul_right size (Nat.le_of_lt (hl.few _ hnodup))

end Ledger

end Congestion
