import Congestion.Proofs.Keys
import Congestion.Proofs.Sender.LedgerRuns
import Congestion.Proofs.Windows
import Mathlib.Data.List.Nodup
import Mathlib.Data.Set.Card

/-!
# What a ledger retains

`Ledger.log` carries out a sequence of commands and keeps what each send answered. Of this history
the ledger is a view: a sequence number has the record of its last send, for as long as the newest
send of the stream is within the retention time of it (`retained?`).

`SentStream.Retains` says this of one stream, and of its send order as well: the order holds the
sends within the retention time and no others, since times do not go back and so what has expired
is at the front (`dropWhile_eq_filter`). What a send expires takes a record with it only where that
record is of an expired send (`getElem?_foldl_forget`). A send keeps the view (`Retains.send`), and
so does a whole run (`retains_of_log`), as it keeps of every stream whatever a send keeps of its own
(`EachStream.log`).
-/

set_option autoImplicit false
set_option relaxedAutoImplicit false

namespace Congestion

/-! ### Histories -/

/-- A packet that was sent, with the record that was made of it. -/
structure LoggedSend where
  packet : SentPacket
  record : SentRecord

namespace LoggedSend

/-- The record is of this packet. -/
structure Faithful (e : LoggedSend) : Prop where
  time : e.packet.sendTime = e.record.sendTime.toInstant
  size : e.record.size = e.packet.size

/-- The entry of the send in the send order. -/
def entry (e : LoggedSend) : UInt16 × Finite := (e.packet.seq, e.record.sendTime)

end LoggedSend

def LedgerCommand.packet? : LedgerCommand → Option SentPacket
  | .send p => some p
  | _ => none

/-- The packets sent, in order. -/
def sentPackets (commands : List LedgerCommand) : List SentPacket :=
  commands.filterMap LedgerCommand.packet?

/-- No stream is sent on at an earlier time than before. -/
def SendsInOrder (commands : List LedgerCommand) : Prop :=
  ∀ ssrc, ((commands.filterMap LedgerCommand.packet?).filter (·.ssrc = ssrc)).Pairwise
    fun p q ↦ p.sendTime ≤ q.sendTime

/-- Carries out commands, and keeps what each send answers. -/
def Ledger.log (l : Ledger) : List LedgerCommand → Checked (List LoggedSend × Ledger)
  | [] => .ok ([], l)
  | .send p :: rest => do
    let (record, l) ← l.record p
    let (sends, l) ← l.log rest
    return (⟨p, record⟩ :: sends, l)
  | c :: rest => do (← l.step c).log rest

def sendsOnStream (sends : List LoggedSend) (ssrc : UInt32) : List LoggedSend :=
  sends.filter (·.packet.ssrc = ssrc)

/-! ### Views of the sends of one stream -/

section Views

variable (sends : List LoggedSend) (millis : Int)

/-- The record of the last send of a sequence number. -/
def lastRecord? (seq : UInt16) : Option SentRecord :=
  ((sends.filter (·.packet.seq = seq)).getLast?).map LoggedSend.record

/-- The newest send is at most the retention time later. -/
def isRetained (sendTime : Finite) : Bool :=
  sends.getLast?.all fun newest ↦
    newest.record.sendTime.millisFloor ≤ sendTime.millisFloor + millis

def retained? (seq : UInt16) : Option SentRecord :=
  (lastRecord? sends seq).filter fun record ↦ isRetained sends millis record.sendTime

end Views

section Views

variable {sends : List LoggedSend} {millis : Int} {e : LoggedSend}

theorem lastRecord?_concat (sends : List LoggedSend) (e : LoggedSend) (seq : UInt16) :
    lastRecord? (sends ++ [e]) seq =
      if e.packet.seq = seq then some e.record else lastRecord? sends seq := by
  unfold lastRecord?
  by_cases h : e.packet.seq = seq <;> simp [List.filter_append, h]

theorem exists_of_lastRecord? {seq : UInt16} {record : SentRecord}
    (h : lastRecord? sends seq = some record) :
    ∃ e ∈ sends, e.entry = (seq, record.sendTime) := by
  obtain ⟨e, he, rfl⟩ := Option.map_eq_some_iff.mp h
  obtain ⟨hmem, hseq⟩ := List.mem_filter.mp (List.mem_of_getLast? he)
  exact ⟨e, hmem, by rw [LoggedSend.entry, of_decide_eq_true hseq]⟩

theorem isRetained_concat (sends : List LoggedSend) (e : LoggedSend) (sendTime : Finite) :
    isRetained (sends ++ [e]) millis sendTime =
      decide (e.record.sendTime.millisFloor ≤ sendTime.millisFloor + millis) := by
  simp [isRetained]

/-- What a later send still retains has been retained before it. -/
theorem isRetained_of_concat {sendTime : Finite}
    (hlater : ∀ e' ∈ sends, e'.record.sendTime.value ≤ e.record.sendTime.value)
    (h : isRetained (sends ++ [e]) millis sendTime) : isRetained sends millis sendTime := by
  rw [isRetained_concat, decide_eq_true_eq] at h
  unfold isRetained
  cases hnewest : sends.getLast? with
  | none => rfl
  | some newest =>
    have hle := Finite.millisFloor_mono (hlater newest (List.mem_of_getLast? hnewest))
    simpa using Int.le_trans hle h

end Views

/-! ### Streams -/

/-- The stream is the view of its sends: a record for each number that is retained, and the sends
within the retention time in their order. -/
structure SentStream.Retains (s : SentStream) (sends : List LoggedSend) (millis : Int) : Prop where
  records : ∀ seq, s.records[seq]? = retained? sends millis seq
  order : s.order.toList =
    (sends.map LoggedSend.entry).filter fun sent ↦ isRetained sends millis sent.2
  lastSent : s.lastSent = sends.getLast?.map fun e ↦ e.packet.seq

def SentInOrder (sends : List LoggedSend) : Prop :=
  sends.Pairwise fun e e' ↦ e.record.sendTime.value ≤ e'.record.sendTime.value

namespace SentStream

variable {s s' : SentStream} {sends : List LoggedSend} {millis : Int} {e : LoggedSend}

theorem retains_empty (millis : Int) : ({} : SentStream).Retains [] millis :=
  ⟨fun seq ↦ by simp [retained?, lastRecord?], rfl, rfl⟩

/-- Of the retained sends and one more, those that the new one finds expired come first. -/
theorem Retains.order_pairwise (hs : s.Retains sends millis)
    (hordered : SentInOrder (sends ++ [e])) :
    (s.order.toList ++ [e.entry]).Pairwise fun sent sent' ↦
      (!isRetained (sends ++ [e]) millis sent'.2) → !isRetained (sends ++ [e]) millis sent.2 := by
  have hentries : ((sends ++ [e]).map LoggedSend.entry).Pairwise fun sent sent' ↦
      (!isRetained (sends ++ [e]) millis sent'.2) → !isRetained (sends ++ [e]) millis sent.2 := by
    refine List.pairwise_map.mpr (hordered.imp fun hle hexpired ↦ ?_)
    have hfloor := Finite.millisFloor_mono hle
    simp only [isRetained_concat, LoggedSend.entry, Bool.not_eq_true', decide_eq_false_iff_not]
      at hexpired ⊢
    omega
  refine hentries.sublist ?_
  rw [List.map_append, hs.order]
  exact List.filter_sublist.append (List.Sublist.refl _)

/-- Of the records of other numbers, a new send drops those that are no longer retained. -/
theorem Retains.filter_expired (hs : s.Retains sends millis)
    (hlater : ∀ e' ∈ sends, e'.record.sendTime.value ≤ e.record.sendTime.value) (seq : UInt16) :
    (retained? sends millis seq).filter (fun record ↦ (seq, record.sendTime) ∉
        (s.order.toList ++ [e.entry]).filter fun sent ↦ !isRetained (sends ++ [e]) millis sent.2) =
      (lastRecord? sends seq).filter fun record ↦
        isRetained (sends ++ [e]) millis record.sendTime := by
  rw [retained?]
  cases hlast : lastRecord? sends seq with
  | none => rfl
  | some r =>
    by_cases hretained : isRetained (sends ++ [e]) millis r.sendTime
    · simp [Option.filter_some, isRetained_of_concat hlater hretained, hretained]
    by_cases hbefore : isRetained sends millis r.sendTime
    · -- the record expires with the send that made it, which is still in the order
      have hmem : (seq, r.sendTime) ∈ s.order.toList := by
        obtain ⟨e', he', hentry⟩ := exists_of_lastRecord? hlast
        rw [hs.order, ← hentry]
        exact List.mem_filter.mpr ⟨List.mem_map_of_mem he', by rw [hentry]; exact hbefore⟩
      simp [Option.filter_some, hbefore, hretained, hmem]
    · simp [Option.filter_some, hbefore, hretained]

theorem Retains.send {retention : Duration} (hs : s.Retains sends millis)
    (hmillis : retention.millis = .ok millis) (hordered : SentInOrder (sends ++ [e]))
    (h : s.send e.packet retention = .ok (e.record, s')) : s'.Retains (sends ++ [e]) millis := by
  obtain ⟨sendTime, total, millis', -, -, hmillis', hrecord, rfl⟩ := send_eq_ok_iff.mp h
  obtain rfl := Except.ok.inj (hmillis.symm.trans hmillis')
  obtain rfl : e.record.sendTime = sendTime := congrArg SentRecord.sendTime hrecord
  have hlater : ∀ e' ∈ sends, e'.record.sendTime.value ≤ e.record.sendTime.value := fun e' he' ↦
    (List.pairwise_append.mp hordered).2.2 e' he' e (by simp)
  have hexpired : (fun sent : UInt16 × Finite ↦
      decide (sent.2.millisFloor + millis < e.record.sendTime.millisFloor)) =
      fun sent ↦ !isRetained (sends ++ [e]) millis sent.2 := by
    funext sent
    rw [isRetained_concat, ← decide_not]
    exact decide_eq_decide.mpr Int.not_le.symm
  have hqueue : (s.order.push (e.packet.seq, e.record.sendTime)).toList =
      s.order.toList ++ [e.entry] := Queue.toList_push _ _
  have horder := hs.order_pairwise hordered
  refine ⟨fun seq ↦ ?_, ?_, ?_⟩
  · rw [getElem?_records_expire, hqueue, hexpired, takeWhile_eq_filter horder,
      Std.ExtTreeMap.getElem?_insert, retained?, lastRecord?_concat]
    by_cases hseq : e.packet.seq = seq
    · -- the entry of the send itself is in the order, and the record stays with it
      subst hseq
      by_cases hretained : isRetained (sends ++ [e]) millis e.record.sendTime <;>
        simp [Option.filter_some, LoggedSend.entry, hretained]
    · rw [if_neg (by simpa using hseq), if_neg hseq, hs.records, hs.filter_expired hlater]
  · rw [order_expire, hqueue, hexpired, dropWhile_eq_filter horder]
    simp only [Bool.not_not, List.filter_append, List.map_append, hs.order, List.filter_filter]
    congr 1
    refine List.filter_congr fun sent _ ↦ ?_
    exact Bool.and_eq_left_iff_imp.mpr (isRetained_of_concat hlater)
  · simp [expire]

end SentStream

/-! ### Ledgers -/

namespace Ledger

variable {l l' : Ledger} {commands : List LedgerCommand} {sends sends' : List LoggedSend}
  {millis : Int}

theorem log_send_eq_ok_iff {p : SentPacket} :
    l.log (.send p :: commands) = .ok (sends, l') ↔ ∃ record l₁ rest,
      l.record p = .ok (record, l₁) ∧ l₁.log commands = .ok (rest, l') ∧
        sends = ⟨p, record⟩ :: rest := by
  simp only [log, bind_eq_ok_iff, pure_eq_ok_iff, Prod.mk.injEq, Prod.exists]
  constructor
  · rintro ⟨record, l₁, hrecord, rest, _, hrest, rfl, rfl⟩
    exact ⟨record, l₁, rest, hrecord, hrest, rfl⟩
  · rintro ⟨record, l₁, rest, hrecord, hrest, rfl⟩
    exact ⟨record, l₁, hrecord, rest, l', hrest, rfl, rfl⟩

/-- Keeping the history changes nothing about the run. -/
theorem map_snd_log (l : Ledger) (commands : List LedgerCommand) :
    Prod.snd <$> l.log commands = l.run commands := by
  induction commands generalizing l with
  | nil => rfl
  | cons c commands ih =>
    rw [run, List.foldlM_cons]
    cases c with
    | send p =>
      simp only [log, step, map_bind, map_pure, bind_map_left]
      refine bind_congr fun answer ↦ ?_
      rw [bind_pure_comp]
      exact ih answer.2
    | _ =>
      simp only [log, map_bind]
      exact bind_congr ih

theorem exists_log_of_run (h : l.run commands = .ok l') :
    ∃ sends, l.log commands = .ok (sends, l') := by
  rw [← map_snd_log] at h
  obtain ⟨⟨sends, _⟩, hlog, rfl⟩ := map_eq_ok_iff.mp h
  exact ⟨sends, hlog⟩

/-- Other streams than the one that a command sends on stay as they are. -/
theorem streams_step {c : LedgerCommand} (h : l.step c = .ok l') {ssrc : UInt32}
    (hother : c.sendsOn? ≠ some ssrc) : l'.streams[ssrc]? = l.streams[ssrc]? := by
  cases c with
  | send p =>
    obtain ⟨⟨record, l''⟩, hrecord, rfl⟩ := map_eq_ok_iff.mp h
    obtain ⟨stream, -, rfl⟩ := record_eq_ok_iff.mp hrecord
    have hne : ¬ compare p.ssrc ssrc = .eq := fun heq ↦
      hother (congrArg some (Std.LawfulEqOrd.compare_eq_iff_eq.mp heq))
    exact (Std.ExtTreeMap.getElem?_insert ..).trans (if_neg hne)
  | settle r =>
    obtain ⟨⟨remains, l''⟩, hsettle, rfl⟩ := map_eq_ok_iff.mp h
    rw [streams_settle hsettle]
  | restart =>
    cases h
    rfl

theorem retention_step {c : LedgerCommand} (h : l.step c = .ok l') :
    l'.retention = l.retention := by
  cases c with
  | send p =>
    obtain ⟨⟨record, l''⟩, hrecord, rfl⟩ := map_eq_ok_iff.mp h
    obtain ⟨stream, -, rfl⟩ := record_eq_ok_iff.mp hrecord
    rfl
  | settle r =>
    obtain ⟨⟨remains, l''⟩, hsettle, rfl⟩ := map_eq_ok_iff.mp h
    obtain ⟨inFlight, rfl⟩ := exists_inFlight_of_settle hsettle
    rfl
  | restart =>
    cases h
    rfl

/-! ### Runs, stream by stream -/

section EachStream

variable {retention : Duration} {P : SentStream → List LoggedSend → Prop}

/-- Every stream is so related to what was sent on it. -/
def EachStream (P : SentStream → List LoggedSend → Prop) (l : Ledger) (sends : List LoggedSend) :
    Prop :=
  ∀ ssrc, P (l.streams[ssrc]?.getD {}) (sendsOnStream sends ssrc)

/-- A send keeps of every stream what it keeps of its own. -/
theorem EachStream.record {e : LoggedSend}
    (hsend : ∀ s s' sends, P s sends → s.send e.packet l.retention = .ok (e.record, s') →
      P s' (sends ++ [e]))
    (hl : EachStream P l sends) (h : l.record e.packet = .ok (e.record, l')) :
    EachStream P l' (sends ++ [e]) := by
  intro ssrc
  by_cases hssrc : e.packet.ssrc = ssrc
  · subst hssrc
    obtain ⟨stream, hstream, rfl⟩ := record_eq_ok_iff.mp h
    have hsends : sendsOnStream (sends ++ [e]) e.packet.ssrc =
        sendsOnStream sends e.packet.ssrc ++ [e] := by
      simp [sendsOnStream]
    rw [hsends, Std.ExtTreeMap.getElem?_insert_self]
    exact hsend _ _ _ (hl e.packet.ssrc) hstream
  · have hsends : sendsOnStream (sends ++ [e]) ssrc = sendsOnStream sends ssrc := by
      simp [sendsOnStream, hssrc]
    have hstep : l.step (.send e.packet) = .ok l' := map_eq_ok_iff.mpr ⟨_, h, rfl⟩
    rw [hsends, streams_step hstep fun heq ↦ hssrc (Option.some.inj heq)]
    exact hl ssrc

theorem EachStream.log
    (hsend : ∀ s s' sends e, P s sends → SentStream.send s e.packet retention = .ok (e.record, s') →
      P s' (sends ++ [e]))
    (hretention : l.retention = retention) (hl : EachStream P l sends)
    (h : l.log commands = .ok (sends', l')) :
    l'.retention = retention ∧ EachStream P l' (sends ++ sends') := by
  induction commands generalizing l sends sends' with
  | nil =>
    cases h
    rw [List.append_nil]
    exact ⟨hretention, hl⟩
  | cons c commands ih =>
    have hquiet : c.packet? = none →
        l'.retention = retention ∧ EachStream P l' (sends ++ sends') := by
      intro hc
      cases c with
      | send p => cases hc
      | _ =>
        obtain ⟨l₁, hstep, hrest⟩ := bind_eq_ok_iff.mp h
        refine ih ((retention_step hstep).trans hretention) (fun ssrc ↦ ?_) hrest
        rw [streams_step hstep fun heq ↦ by cases heq]
        exact hl ssrc
    cases c with
    | send p =>
      obtain ⟨record, l₁, rest, hrecord, hrest, rfl⟩ := log_send_eq_ok_iff.mp h
      have hstep : l.step (.send p) = .ok l₁ := map_eq_ok_iff.mpr ⟨_, hrecord, rfl⟩
      have hl₁ : EachStream P l₁ (sends ++ [⟨p, record⟩]) :=
        hl.record (fun s s' sends hs hsent ↦ hsend s s' sends _ hs (hretention ▸ hsent)) hrecord
      have hsplit : sends ++ ⟨p, record⟩ :: rest = sends ++ [⟨p, record⟩] ++ rest := by simp
      rw [hsplit]
      exact ih ((retention_step hstep).trans hretention) hl₁ hrest
    | settle r => exact hquiet rfl
    | restart => exact hquiet rfl

/-- What is so of a stream that nothing is sent on, and is kept by a send, is so of every stream of
a run. -/
theorem eachStream_of_log (hempty : P {} [])
    (hsend : ∀ s s' sends e, P s sends → SentStream.send s e.packet retention = .ok (e.record, s') →
      P s' (sends ++ [e]))
    (h : Ledger.log { retention } commands = .ok (sends, l)) : EachStream P l sends := by
  have hstart : EachStream P { retention } [] := fun ssrc ↦ by simpa [sendsOnStream] using hempty
  exact (hstart.log hsend rfl h).2

end EachStream

/-- Every stream is the view of what was sent on it. -/
structure Retains (l : Ledger) (sends : List LoggedSend) (millis : Int) : Prop where
  retention : l.retention.millis = .ok millis
  stream : ∀ ssrc,
    SentStream.Retains (l.streams[ssrc]?.getD {}) (sendsOnStream sends ssrc) millis

theorem retains_empty {retention : Duration} (hmillis : retention.millis = .ok millis) :
    Retains { retention } [] millis :=
  ⟨hmillis, fun ssrc ↦ by simpa [sendsOnStream] using SentStream.retains_empty millis⟩

theorem retains_of_log (hl : l.Retains [] millis)
    (hordered : ∀ ssrc, SentInOrder (sendsOnStream sends ssrc))
    (h : l.log commands = .ok (sends, l')) : l'.Retains sends millis := by
  have hsend : ∀ s s' sends e, (SentInOrder sends → s.Retains sends millis) →
      SentStream.send s e.packet l.retention = .ok (e.record, s') →
      SentInOrder (sends ++ [e]) → s'.Retains (sends ++ [e]) millis := by
    intro s s' sends e hs hsent hordered
    have hbefore := hs (hordered.sublist (List.sublist_append_left _ _))
    exact hbefore.send hl.retention hordered hsent
  have hstart : EachStream (fun s sends ↦ SentInOrder sends → s.Retains sends millis) l [] :=
    fun ssrc _ ↦ hl.stream ssrc
  obtain ⟨hretention, hstreams⟩ := hstart.log hsend rfl h
  exact ⟨hretention ▸ hl.retention, fun ssrc ↦ hstreams ssrc (hordered ssrc)⟩

/-! ### What the history tells -/

theorem faithful_of_record {p : SentPacket} {record : SentRecord}
    (h : l.record p = .ok (record, l')) : LoggedSend.Faithful ⟨p, record⟩ := by
  obtain ⟨stream, hstream, -⟩ := record_eq_ok_iff.mp h
  obtain ⟨sendTime, total, millis, htime, -, -, rfl, -⟩ := SentStream.send_eq_ok_iff.mp hstream
  exact ⟨Instant.eq_toInstant_of_toFinite htime, rfl⟩

/-- The history tells of every send, in order, and of nothing else. -/
theorem packets_of_log (h : l.log commands = .ok (sends, l')) :
    sends.map LoggedSend.packet = commands.filterMap LedgerCommand.packet? ∧
      ∀ e ∈ sends, e.Faithful := by
  induction commands generalizing l sends with
  | nil =>
    cases h
    exact ⟨rfl, fun e he ↦ by cases he⟩
  | cons c commands ih =>
    cases c with
    | send p =>
      obtain ⟨record, l₁, rest, hrecord, hrest, rfl⟩ := log_send_eq_ok_iff.mp h
      obtain ⟨hpackets, hfaithful⟩ := ih hrest
      exact ⟨congrArg (p :: ·) hpackets,
        List.forall_mem_cons.mpr ⟨faithful_of_record hrecord, hfaithful⟩⟩
    | _ =>
      obtain ⟨l₁, -, hrest⟩ := bind_eq_ok_iff.mp h
      exact ih hrest

theorem mem_sentPackets_of_log (h : l.log commands = .ok (sends, l')) {e : LoggedSend}
    (he : e ∈ sends) : e.packet ∈ sentPackets commands := by
  rw [sentPackets, ← (packets_of_log h).1]
  exact List.mem_map_of_mem he

theorem sentInOrder_of_log (h : l.log commands = .ok (sends, l'))
    (hordered : SendsInOrder commands) (ssrc : UInt32) :
    SentInOrder (sendsOnStream sends ssrc) := by
  obtain ⟨hpackets, hfaithful⟩ := packets_of_log h
  have hstream := hordered ssrc
  rw [← hpackets, List.filter_map, List.pairwise_map] at hstream
  refine hstream.imp_of_mem fun {e e'} he he' hle ↦ ?_
  rw [(hfaithful e (List.mem_filter.mp he).1).time,
    (hfaithful e' (List.mem_filter.mp he').1).time] at hle
  exact hle

/-! ### What the ledger answers -/

theorem lookup_eq (l : Ledger) (ssrc : UInt32) (seq : UInt16) :
    l.lookup ssrc seq = (l.streams[ssrc]?.getD {}).records[seq]? := by
  unfold lookup
  cases l.streams[ssrc]? <;> simp

theorem lastSent_eq (l : Ledger) (ssrc : UInt32) : l.lastSent ssrc =
    (SentStream.lastSent (l.streams[ssrc]?.getD {})).bind fun seq ↦
      (l.lookup ssrc seq).map (seq, ·) := by
  unfold lastSent lookup
  cases hstream : l.streams[ssrc]? with
  | none => rfl
  | some s =>
    simp only [bind, Option.bind_some, Option.getD_some]
    cases s.lastSent with
    | none => rfl
    | some seq => cases hrecord : s.records[seq]? <;> simp [hrecord]

/-- The streams and numbers with a record. -/
def keys (l : Ledger) : List (UInt32 × UInt16) :=
  l.streams.toList.flatMap fun (ssrc, s) ↦ s.records.keys.map (ssrc, ·)

theorem mem_keys_iff {key : UInt32 × UInt16} :
    key ∈ l.keys ↔ (l.lookup key.1 key.2).isSome := by
  obtain ⟨ssrc, seq⟩ := key
  simp only [keys, List.mem_flatMap, List.mem_map, Prod.exists, Prod.mk.injEq,
    exists_eq_right_right, Std.ExtTreeMap.mem_toList_iff_getElem?_eq_some,
    Std.ExtTreeMap.mem_keys, lookup]
  cases hstream : l.streams[ssrc]? <;> simp [hstream]

theorem nodup_keys (l : Ledger) : l.keys.Nodup := by
  have hstreams : (l.streams.toList.map Prod.fst).Nodup := by
    rw [Std.ExtTreeMap.map_fst_toList_eq_keys]
    exact Std.ExtTreeMap.nodup_keys
  refine nodup_flatMap_of_keys Prod.fst hstreams (fun s _ ↦ ?_) fun s _ key hkey ↦ ?_
  · exact Std.ExtTreeMap.nodup_keys.map fun _ _ heq ↦ congrArg Prod.snd heq
  · obtain ⟨_, -, rfl⟩ := List.mem_map.mp hkey
    rfl

theorem length_keys (l : Ledger) : l.keys.length = l.size := by
  unfold keys size
  rw [List.length_flatMap, List.sum_eq_foldl, List.foldl_map]
  simp

theorem size_eq_ncard (l : Ledger) :
    l.size = {key : UInt32 × UInt16 | (l.lookup key.1 key.2).isSome}.ncard := by
  have hkeys : {key : UInt32 × UInt16 | (l.lookup key.1 key.2).isSome} = l.keys.toFinset := by
    ext key
    rw [Set.mem_ofPred_eq, Finset.mem_coe, List.mem_toFinset, mem_keys_iff]
  rw [hkeys, Set.ncard_coe_finset, List.toFinset_card_of_nodup l.nodup_keys, length_keys]

theorem Retains.lookup (hl : l.Retains sends millis) (ssrc : UInt32) (seq : UInt16) :
    l.lookup ssrc seq = retained? (sendsOnStream sends ssrc) millis seq := by
  rw [lookup_eq, (hl.stream ssrc).records]

/-- The last send of a stream is always retained. -/
theorem Retains.lastSent (hl : l.Retains sends millis) (hnonneg : 0 ≤ millis) (ssrc : UInt32) :
    l.lastSent ssrc =
      (sendsOnStream sends ssrc).getLast?.map fun e ↦ (e.packet.seq, e.record) := by
  rw [lastSent_eq, (hl.stream ssrc).lastSent, Option.bind_map]
  cases hlast : (sendsOnStream sends ssrc).getLast? with
  | none => rfl
  | some e =>
    have hrecord : lastRecord? (sendsOnStream sends ssrc) e.packet.seq = some e.record := by
      obtain ⟨earlier, hsends⟩ := List.getLast?_eq_some_iff.mp hlast
      rw [hsends, lastRecord?_concat, if_pos rfl]
    have hretained : isRetained (sendsOnStream sends ssrc) millis e.record.sendTime := by
      simpa [isRetained, hlast] using hnonneg
    simp [hl.lookup, retained?, hrecord, Option.filter_some, hretained]

/-- A send at a finite time is refused only where a total overflows. -/
theorem Retains.error_of_record {p : SentPacket} {sendTime : Finite} {fault : Fault}
    (hl : l.Retains sends millis) (htime : p.sendTime.toFinite = .ok sendTime)
    (h : l.record p = .error fault) :
    ((l.streams[p.ssrc]?.getD {}).total + p.size : Checked DataSize) = .error fault := by
  unfold Ledger.record SentStream.send at h
  cases htotal : ((l.streams[p.ssrc]?.getD {}).total + p.size : Checked DataSize) with
  | error fault' =>
    rw [htotal] at h
    cases h
    rfl
  | ok total =>
    rw [htotal, htime, hl.retention] at h
    cases h

/-- A ledger maps each stream and sequence number to the record of its last send, for as long as
the newest send of the stream is within the retention time of that.

Assumes: the ledger starts empty, its retention time is not negative, and no stream is sent on at
an earlier time than before. -/
theorem lookup_eq_retained {retention : Duration} (hmillis : retention.millis = .ok millis)
    (hnonneg : 0 ≤ millis) (hordered : SendsInOrder commands)
    (h : Ledger.log { retention } commands = .ok (sends, l)) :
    -- the history is of every send, with the record that was made of it
    (sends.map LoggedSend.packet = commands.filterMap LedgerCommand.packet? ∧
      ∀ e ∈ sends, e.Faithful) ∧
    (∀ ssrc seq, l.lookup ssrc seq = retained? (sendsOnStream sends ssrc) millis seq) ∧
    (∀ ssrc, l.lastSent ssrc =
      (sendsOnStream sends ssrc).getLast?.map fun e ↦ (e.packet.seq, e.record)) ∧
    l.size = {key : UInt32 × UInt16 |
      (retained? (sendsOnStream sends key.1) millis key.2).isSome}.ncard ∧
    (∀ c l', l.step c = .ok l' → ∀ ssrc, c.sendsOn? ≠ some ssrc →
      l'.streams[ssrc]? = l.streams[ssrc]?) ∧
    ∀ p sendTime fault, p.sendTime.toFinite = .ok sendTime → l.record p = .error fault →
      ((l.streams[p.ssrc]?.getD {}).total + p.size : Checked DataSize) = .error fault := by
  have hl : l.Retains sends millis :=
    retains_of_log (retains_empty hmillis) (sentInOrder_of_log h hordered) h
  refine ⟨packets_of_log h, hl.lookup, hl.lastSent hnonneg, ?_, fun c l' hstep ssrc ↦
    streams_step hstep, fun p sendTime fault ↦ hl.error_of_record⟩
  simp only [size_eq_ncard, hl.lookup]

/-- The number 65535 is sent again, and then the first send of it and the send of 0 expire. -/
def resentAcrossWrap : List LedgerCommand :=
  [.send ⟨1, 65535, ⟨Quantity.exactly 0⟩, Quantity.exactly 100⟩,
   .send ⟨2, 0, ⟨Quantity.exactly 1000000⟩, Quantity.exactly 50⟩,
   .send ⟨1, 0, ⟨Quantity.exactly 5000000⟩, Quantity.exactly 200⟩,
   .settle {},
   .send ⟨1, 65535, ⟨Quantity.exactly 9000000⟩, Quantity.exactly 300⟩,
   .restart,
   .send ⟨1, 1, ⟨Quantity.exactly 15001000⟩, Quantity.exactly 400⟩]

theorem lookup_eq_retained_resentAcrossWrap : ∃ sends l,
    Ledger.log { retention := Quantity.exactly 10000000 } resentAcrossWrap = .ok (sends, l) ∧
    retained? (sendsOnStream sends 1) 10000 65535 =
      some ⟨⟨9000000, by decide, by decide⟩, Quantity.exactly 300, Quantity.exactly 600⟩ ∧
    l.lookup 1 65535 = retained? (sendsOnStream sends 1) 10000 65535 ∧
    l.lookup 1 0 = none ∧ (l.lookup 2 0).isSome ∧
    l.lastSent 1 = (sendsOnStream sends 1).getLast?.map (fun e ↦ (e.packet.seq, e.record)) ∧
    l.size = 3 := by
  have hmillis : Quantity.millis (Quantity.exactly 10000000) = .ok 10000 := rfl
  have hordered : SendsInOrder resentAcrossWrap := fun ssrc ↦ List.Pairwise.filter _ (by decide)
  obtain ⟨⟨sends, l⟩, hlog, htest⟩ := exists_ok_of_any
    (x := Ledger.log { retention := Quantity.exactly 10000000 } resentAcrossWrap)
    (fun (sends, l) ↦ decide (retained? (sendsOnStream sends 1) 10000 65535 =
        some ⟨⟨9000000, by decide, by decide⟩, Quantity.exactly 300, Quantity.exactly 600⟩ ∧
      retained? (sendsOnStream sends 1) 10000 0 = none ∧
      (retained? (sendsOnStream sends 2) 10000 0).isSome ∧ l.size = 3)) (by decide +kernel)
  obtain ⟨hresent, hexpired, hother, hsize⟩ := of_decide_eq_true htest
  obtain ⟨-, hlookup, hlast, -⟩ := lookup_eq_retained hmillis (by decide) hordered hlog
  refine ⟨sends, l, hlog, hresent, hlookup 1 65535, ?_, ?_, hlast 1, hsize⟩
  · rw [hlookup, hexpired]
  · rwa [hlookup]

end Ledger

end Congestion
