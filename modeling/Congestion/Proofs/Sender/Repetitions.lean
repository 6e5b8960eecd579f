import Congestion.Proofs.Sender.Retention
import Mathlib.Data.List.Dedup

/-!
# Repetitions in what a ledger lists

A ledger lists its records by the sends in its send order, and knows the send that made a record by
its time. As long as no stream is sent on at an earlier time than before, what it lists is what each
send of the history is listed for (`SentStream.Retains.toList_eq`), those that have expired for
nothing. So a record is listed as often as its number was sent at its time (`count_listings`): every
retained record is listed, with its last listing in the place of the send that made it
(`lastSendOrder_sublist`), but where a number was sent twice at one time its record is listed twice
(`listed_twice`). Nothing else repeats a record, and `listed_once_iff` says when none is repeated.
-/

set_option autoImplicit false
set_option relaxedAutoImplicit false

namespace Congestion

/-! ### Listings -/

/-- What is listed for a send: the record of its number, while that is of the time of the send. -/
def listing? (record? : UInt16 → Option SentRecord) (sent : UInt16 × Finite) :
    Option (UInt16 × SentRecord) :=
  ((record? sent.1).filter fun record ↦ record.sendTime = sent.2).map (sent.1, ·)

/-- The records that are found, each once, in the order of the last sends of their numbers. -/
def lastSendOrder (sends : List LoggedSend) (record? : UInt16 → Option SentRecord) :
    List (UInt16 × SentRecord) :=
  -- of repeated numbers it is the last one that is left
  (sends.map (·.packet.seq)).dedup.filterMap fun seq ↦ (record? seq).map (seq, ·)

/-- How often a number was sent at a time. -/
def timesSent (sends : List LoggedSend) (seq : UInt16) (sendTime : Finite) : Nat :=
  (sends.map LoggedSend.entry).count (seq, sendTime)

section Listings

variable {record? : UInt16 → Option SentRecord} {sends : List LoggedSend} {seq : UInt16}
  {record : SentRecord}

theorem listing?_eq_some_iff {sent : UInt16 × Finite} :
    listing? record? sent = some (seq, record) ↔
      sent = (seq, record.sendTime) ∧ record? seq = some record := by
  obtain ⟨seq', sendTime⟩ := sent
  simp only [listing?, Option.map_eq_some_iff, Option.filter_eq_some_iff, decide_eq_true_eq,
    Prod.mk.injEq]
  constructor
  · rintro ⟨_, ⟨hrecord, rfl⟩, rfl, rfl⟩
    exact ⟨⟨rfl, rfl⟩, hrecord⟩
  · rintro ⟨⟨rfl, rfl⟩, hrecord⟩
    exact ⟨record, ⟨hrecord, rfl⟩, rfl, rfl⟩

/-- A record is listed once for each entry of its number at its time. -/
theorem count_listings (entries : List (UInt16 × Finite)) :
    (entries.filterMap (listing? record?)).count (seq, record) =
      if record? seq = some record then entries.count (seq, record.sendTime) else 0 := by
  rw [List.count_filterMap]
  split
  next hrecord =>
    refine List.countP_congr fun sent _ ↦ ?_
    simp only [beq_iff_eq, listing?_eq_some_iff, hrecord, and_true]
  next hnone =>
    refine List.countP_eq_zero.mpr fun sent _ ↦ ?_
    simp only [beq_iff_eq, listing?_eq_some_iff, hnone, and_false, not_false_eq_true]

theorem lastRecord?_cons_of_mem {e : LoggedSend} (h : seq ∈ sends.map (·.packet.seq)) :
    lastRecord? (e :: sends) seq = lastRecord? sends seq := by
  obtain ⟨e', he', rfl⟩ := List.mem_map.mp h
  have hne : sends.filter (·.packet.seq = e'.packet.seq) ≠ [] :=
    List.ne_nil_of_mem (List.mem_filter.mpr ⟨he', decide_eq_true rfl⟩)
  unfold lastRecord?
  rw [List.filter_cons]
  split
  · rw [List.getLast?_cons_of_ne_nil hne]
  · rfl

theorem lastRecord?_cons_of_notMem {e : LoggedSend}
    (h : e.packet.seq ∉ sends.map (·.packet.seq)) :
    lastRecord? (e :: sends) e.packet.seq = some e.record := by
  have hnone : sends.filter (·.packet.seq = e.packet.seq) = [] :=
    List.filter_eq_nil_iff.mpr fun e' he' hseq ↦
      h (List.mem_map.mpr ⟨e', he', of_decide_eq_true hseq⟩)
  simp [lastRecord?, hnone]

/-- Records of last sends are listed in the order of these. -/
theorem lastSendOrder_sublist
    (hlast : ∀ seq ∈ sends.map (·.packet.seq), ∀ record, record? seq = some record →
      lastRecord? sends seq = some record) :
    (lastSendOrder sends record?).Sublist
      ((sends.map LoggedSend.entry).filterMap (listing? record?)) := by
  induction sends with
  | nil => exact List.Sublist.refl _
  | cons e rest ih =>
    have hrest := ih fun seq hseq record hrecord ↦ by
      rw [← lastRecord?_cons_of_mem hseq]
      exact hlast seq (List.mem_cons_of_mem _ hseq) record hrecord
    unfold lastSendOrder at hrest ⊢
    rw [List.map_cons, List.map_cons]
    by_cases hagain : e.packet.seq ∈ rest.map (·.packet.seq)
    · -- the number is sent again, and what is listed for this send is left out
      rw [List.dedup_cons_of_mem hagain]
      exact hrest.trans ((List.sublist_cons_self _ _).filterMap _)
    · rw [List.dedup_cons_of_notMem hagain]
      cases hrecord : record? e.packet.seq with
      | none =>
        rw [List.filterMap_cons_none (by rw [hrecord]; rfl)]
        exact hrest.trans ((List.sublist_cons_self _ _).filterMap _)
      | some record =>
        have hmade := hlast e.packet.seq List.mem_cons_self record hrecord
        rw [lastRecord?_cons_of_notMem hagain] at hmade
        obtain rfl := Option.some.inj hmade
        have hlisting : listing? record? e.entry = some (e.packet.seq, e.record) :=
          listing?_eq_some_iff.mpr ⟨rfl, hrecord⟩
        rw [List.filterMap_cons_some (by rw [hrecord]; rfl), List.filterMap_cons_some hlisting]
        exact hrest.cons_cons _

theorem nodup_lastSendOrder (sends : List LoggedSend) (record? : UInt16 → Option SentRecord) :
    ((lastSendOrder sends record?).map Prod.fst).Nodup := by
  rw [lastSendOrder, map_key_filterMap fun seq sent hfound ↦ ?_]
  · exact (List.nodup_dedup _).filter _
  · obtain ⟨_, -, rfl⟩ := Option.map_eq_some_iff.mp hfound
    rfl

theorem timesSent_pos (h : lastRecord? sends seq = some record) :
    0 < timesSent sends seq record.sendTime := by
  obtain ⟨e, he, hentry⟩ := exists_of_lastRecord? h
  exact List.count_pos_iff.mpr (hentry ▸ List.mem_map_of_mem he)

/-- Each record is listed once, in the order of the last sends, just where no number was sent more
than once at the time of its record. -/
theorem listings_eq_iff
    (hlast : ∀ seq record, record? seq = some record → lastRecord? sends seq = some record) :
    (sends.map LoggedSend.entry).filterMap (listing? record?) = lastSendOrder sends record? ↔
      ∀ seq record, record? seq = some record → timesSent sends seq record.sendTime = 1 := by
  have hsublist := lastSendOrder_sublist fun seq (_ : seq ∈ sends.map (·.packet.seq)) ↦ hlast seq
  constructor
  · intro heq seq record hrecord
    have hcount : (lastSendOrder sends record?).count (seq, record) =
        timesSent sends seq record.sendTime := by
      rw [← heq, count_listings, if_pos hrecord]
      rfl
    have hle : timesSent sends seq record.sendTime ≤ 1 := by
      rw [← hcount]
      exact List.nodup_iff_count_le_one.mp (nodup_lastSendOrder sends record?).of_map _
    exact Nat.le_antisymm hle (timesSent_pos (hlast seq record hrecord))
  · intro honce
    refine (hsublist.eq_of_length_le ?_).symm
    have hnodup : ((sends.map LoggedSend.entry).filterMap (listing? record?)).Nodup := by
      refine List.nodup_iff_count_le_one.mpr fun (seq, record) ↦ ?_
      rw [count_listings]
      split
      next hrecord => exact Nat.le_of_eq (honce seq record hrecord)
      next => exact Nat.zero_le 1
    refine (hnodup.subperm fun (seq, record) hlisted ↦ ?_).length_le
    obtain ⟨sent, hsent, hlisting⟩ := List.mem_filterMap.mp hlisted
    obtain ⟨rfl, hrecord⟩ := listing?_eq_some_iff.mp hlisting
    obtain ⟨e, he, hentry⟩ := List.mem_map.mp hsent
    have hseq : e.packet.seq = seq := congrArg Prod.fst hentry
    refine List.mem_filterMap.mpr ⟨seq, ?_, by rw [hrecord]; rfl⟩
    exact List.mem_dedup.mpr (List.mem_map.mpr ⟨e, he, hseq⟩)

end Listings

/-! ### Streams -/

namespace SentStream

variable {s : SentStream} {sends : List LoggedSend} {millis : Int}

theorem toList_eq_filterMap (s : SentStream) :
    s.toList = s.order.toList.filterMap (listing? (s.records[·]?)) := by
  unfold toList
  congr 1
  funext sent
  obtain ⟨seq, sendTime⟩ := sent
  unfold listing?
  dsimp only
  cases s.records[seq]? with
  | none => rfl
  | some record => by_cases htime : record.sendTime = sendTime <;> simp [Option.filter_some, htime]

theorem Retains.lastRecord? (hs : s.Retains sends millis) (seq : UInt16) (record : SentRecord)
    (h : s.records[seq]? = some record) : Congestion.lastRecord? sends seq = some record := by
  rw [hs.records, retained?] at h
  exact (Option.filter_eq_some_iff.mp h).1

/-- Sends that have expired are listed for nothing, as the record of a later send is of a later
time. -/
theorem Retains.toList_eq (hs : s.Retains sends millis) :
    s.toList = (sends.map LoggedSend.entry).filterMap (listing? (s.records[·]?)) := by
  rw [toList_eq_filterMap, hs.order, List.filterMap_filter]
  refine List.filterMap_congr fun sent _ ↦ ?_
  split
  next => rfl
  next hexpired =>
    refine (Option.eq_none_iff_forall_ne_some.mpr fun (seq, record) hlisting ↦ hexpired ?_).symm
    obtain ⟨rfl, hrecord⟩ := listing?_eq_some_iff.mp hlisting
    rw [hs.records, retained?] at hrecord
    exact (Option.filter_eq_some_iff.mp hrecord).2

end SentStream

/-! ### Ledgers -/

namespace Ledger

variable {l : Ledger} {commands : List LedgerCommand} {sends : List LoggedSend}
  {retention : Duration}

theorem records_eq_toList (l : Ledger) (ssrc : UInt32) :
    l.records ssrc = SentStream.toList (l.streams[ssrc]?.getD {}) := by
  unfold records
  cases l.streams[ssrc]? <;> rfl

/-- Every stream of a run is the view of its sends, with a retention time of any sign. -/
theorem exists_retains_of_log (hordered : SendsInOrder commands)
    (h : Ledger.log { retention } commands = .ok (sends, l)) (ssrc : UInt32) :
    ∃ millis, SentStream.Retains (l.streams[ssrc]?.getD {}) (sendsOnStream sends ssrc) millis := by
  cases hmillis : retention.millis with
  | ok millis =>
    have hl := retains_of_log (retains_empty hmillis) (sentInOrder_of_log h hordered) h
    exact ⟨millis, hl.stream ssrc⟩
  | error fault =>
    -- no send is answered
    have hnone : EachStream (fun s sends ↦ s = {} ∧ sends = []) l sends := by
      refine eachStream_of_log ⟨rfl, rfl⟩ (fun s s' sends e _ hsent ↦ ?_) h
      obtain ⟨_, _, _, -, -, hok, -⟩ := SentStream.send_eq_ok_iff.mp hsent
      cases hmillis.symm.trans hok
    obtain ⟨hstream, hsends⟩ := hnone ssrc
    rw [hstream, hsends]
    exact ⟨0, SentStream.retains_empty 0⟩

/-- What a ledger lists of a stream is what it retains: each record as often as its number was sent
at its time, and all of them in the order of the last sends of their numbers, which made them. Each
is listed exactly once where no number was sent more than once at the time of its record, and only
there.

Assumes: the ledger starts empty, and no stream is sent on at an earlier time than before. -/
theorem listed_once_iff (hordered : SendsInOrder commands)
    (h : Ledger.log { retention } commands = .ok (sends, l)) (ssrc : UInt32) :
    (∀ seq record, l.lookup ssrc seq = some record →
      lastRecord? (sendsOnStream sends ssrc) seq = some record) ∧
    (∀ seq record, (l.records ssrc).count (seq, record) =
      if l.lookup ssrc seq = some record then
        timesSent (sendsOnStream sends ssrc) seq record.sendTime
      else 0) ∧
    (lastSendOrder (sendsOnStream sends ssrc) (l.lookup ssrc)).Sublist (l.records ssrc) ∧
    (l.records ssrc = lastSendOrder (sendsOnStream sends ssrc) (l.lookup ssrc) ↔
      ∀ seq record, l.lookup ssrc seq = some record →
        timesSent (sendsOnStream sends ssrc) seq record.sendTime = 1) := by
  obtain ⟨millis, hs⟩ := exists_retains_of_log hordered h ssrc
  rw [records_eq_toList, hs.toList_eq, funext (lookup_eq l ssrc)]
  have hlast := hs.lastRecord?
  exact ⟨hlast, fun seq record ↦ count_listings _,
    lastSendOrder_sublist fun seq _ ↦ hlast seq, listings_eq_iff hlast⟩

/-- The number 7 is sent three times, the last two of them at one time, and 8 once at each of two
times. -/
def sentAgainAtOnce : List LedgerCommand :=
  [.send ⟨1, 7, ⟨.exactly 0⟩, .exactly 100⟩, .send ⟨1, 8, ⟨.exactly 0⟩, .exactly 200⟩,
    .settle {}, .send ⟨1, 7, ⟨.exactly 5000⟩, .exactly 300⟩, .restart,
    .send ⟨1, 8, ⟨.exactly 5000⟩, .exactly 400⟩, .send ⟨1, 7, ⟨.exactly 5000⟩, .exactly 500⟩]

theorem listed_once_iff_sentAgainAtOnce : ∃ sends l,
    Ledger.log { retention := .exactly 10000000 } sentAgainAtOnce = .ok (sends, l) ∧
    l.lookup 1 7 = some ⟨⟨5000, by decide, by decide⟩, .exactly 500, .exactly 1500⟩ ∧
    l.lookup 1 8 = some ⟨⟨5000, by decide, by decide⟩, .exactly 400, .exactly 1000⟩ ∧
    (l.records 1).count (7, ⟨⟨5000, by decide, by decide⟩, .exactly 500, .exactly 1500⟩) = 2 ∧
    (l.records 1).count (8, ⟨⟨5000, by decide, by decide⟩, .exactly 400, .exactly 1000⟩) = 1 ∧
    l.records 1 ≠ lastSendOrder (sendsOnStream sends 1) (l.lookup 1) := by
  have hordered : SendsInOrder sentAgainAtOnce := fun ssrc ↦ List.Pairwise.filter _ (by decide)
  obtain ⟨⟨sends, l⟩, hlog, htest⟩ := exists_ok_of_any
    (x := Ledger.log { retention := .exactly 10000000 } sentAgainAtOnce)
    (fun logged ↦ decide (
      logged.2.lookup 1 7 = some ⟨⟨5000, by decide, by decide⟩, .exactly 500, .exactly 1500⟩ ∧
      logged.2.lookup 1 8 = some ⟨⟨5000, by decide, by decide⟩, .exactly 400, .exactly 1000⟩ ∧
      timesSent (sendsOnStream logged.1 1) 7 ⟨5000, by decide, by decide⟩ = 2 ∧
      timesSent (sendsOnStream logged.1 1) 8 ⟨5000, by decide, by decide⟩ = 1))
    (by decide +kernel)
  obtain ⟨hseven, height, htwice, honce⟩ := of_decide_eq_true htest
  obtain ⟨-, hcount, -, hiff⟩ := listed_once_iff hordered hlog 1
  refine ⟨sends, l, hlog, hseven, height, ?_, ?_, fun heq ↦ ?_⟩
  · rw [hcount, if_pos hseven, htwice]
  · rw [hcount, if_pos height, honce]
  · have hone := hiff.mp heq 7 _ hseven
    rw [htwice] at hone
    cases hone

/-- A number is sent again at the time at which it was. -/
def sentTwiceAtOnce : List LedgerCommand :=
  [.send ⟨1, 7, ⟨.exactly 0⟩, .exactly 100⟩, .send ⟨1, 7, ⟨.exactly 0⟩, .exactly 120⟩]

/-- The one record that is retained is listed twice. -/
theorem listed_twice : ∃ sends l record,
    Ledger.log { retention := .exactly 10000000 } sentTwiceAtOnce = .ok (sends, l) ∧
    SendsInOrder sentTwiceAtOnce ∧ l.lookup 1 7 = some record ∧ l.size = 1 ∧
    l.records 1 = [(7, record), (7, record)] := by
  have hordered : SendsInOrder sentTwiceAtOnce := fun ssrc ↦ List.Pairwise.filter _ (by decide)
  obtain ⟨⟨sends, l⟩, hlog, htest⟩ := exists_ok_of_any
    (x := Ledger.log { retention := .exactly 10000000 } sentTwiceAtOnce)
    (fun logged ↦ (logged.2.lookup 1 7).any fun record ↦ decide (logged.2.size = 1 ∧
      logged.2.records 1 = [(7, record), (7, record)])) (by decide +kernel)
  obtain ⟨record, hrecord, htest⟩ := (Option.any_eq_true _ _).mp htest
  obtain ⟨hsize, htwice⟩ := of_decide_eq_true htest
  exact ⟨sends, l, record, hlog, hordered, hrecord, hsize, htwice⟩

end Ledger

end Congestion
