import Congestion.Proofs.Sender.Totals

/-!
# What the totals of two records tell

Each send records the total of its stream up to and with its own packet, whatever has expired, was
sent again or was settled before (`SentStream.CountsUp`). The totals of two records of a stream
therefore differ by the sizes of all that was sent after the one up to and with the other
(`SentStream.CountsUp.value_total`), be it still retained or not. Where no size is negative, totals
go up in the order of the sends (`SentStream.CountsUp.total_le`), up to the total of the stream.
-/

set_option autoImplicit false
set_option relaxedAutoImplicit false

namespace Congestion

/-! ### Streams -/

namespace SentStream

variable {s : SentStream} {sends : List LoggedSend}

section Between

variable {before between after : List LoggedSend} {a b : LoggedSend}

/-- From one send up to another, the total goes up by what was sent. -/
theorem CountsUp.value_total (hs : s.CountsUp (before ++ a :: (between ++ b :: after))) :
    b.record.total.value =
      sizeSum ((between ++ [b]).map LoggedSend.packet) + a.record.total.value := by
  have ha := hs.recorded before a ⟨between ++ b :: after, by simp⟩
  have hb := hs.recorded (before ++ a :: between) b ⟨after, by simp⟩
  have hsplit : before ++ a :: between ++ [b] = (before ++ [a]) ++ (between ++ [b]) := by simp
  rw [hb, hsplit, List.map_append, sizeSum_append, ← ha, add_comm]

/-- Where no size is negative, the total does not go down. -/
theorem CountsUp.total_le (hs : s.CountsUp (before ++ a :: (between ++ b :: after)))
    (hsizes : ∀ e ∈ before ++ a :: (between ++ b :: after), 0 ≤ e.packet.size) :
    0 ≤ a.record.total ∧ a.record.total ≤ b.record.total := by
  constructor
  · rw [← Quantity.value_nonneg_iff, hs.recorded before a ⟨between ++ b :: after, by simp⟩]
    exact sizeSum_packets_nonneg fun e he ↦ hsizes e (by grind)
  · rw [← Quantity.value_le_iff, hs.value_total]
    exact le_add_of_nonneg_left (sizeSum_packets_nonneg fun e he ↦ hsizes e (by grind))

end Between

theorem CountsUp.total_le_total {record : SentRecord} {seq : UInt16} (hs : s.CountsUp sends)
    (hsizes : ∀ e ∈ sends, 0 ≤ e.packet.size) (h : s.records[seq]? = some record) :
    record.total ≤ s.total := by
  obtain ⟨before, e, after, rfl, -, rfl, -⟩ := hs.made seq record h
  have hsplit : sizeSum ((before ++ e :: after).map LoggedSend.packet) =
      sizeSum ((before ++ [e]).map LoggedSend.packet) + sizeSum (after.map LoggedSend.packet) := by
    rw [← sizeSum_append, ← List.map_append, List.append_assoc, List.singleton_append]
  rw [← Quantity.value_le_iff, hs.total, hs.recorded before e ⟨after, by simp⟩, hsplit]
  exact le_add_of_nonneg_right
    (sizeSum_packets_nonneg fun e' he' ↦ hsizes e' (by simp [he']))

end SentStream

/-! ### Ledgers -/

namespace Ledger

variable {l : Ledger} {commands : List LedgerCommand} {sends : List LoggedSend}
  {retention : Duration}

/-- What is retained was recorded by the last send of its number. Of any two sends of a stream, be
their records retained or not, the totals differ by the sizes of all that was sent on the stream
after the first up to and with the second. Where no size is negative, the totals do not go down from
send to send, a difference from a known total is answered, and no total is more than that of the
stream.

Assumes: the ledger starts empty. -/
theorem total_sub_eq_sizeSum (h : Ledger.log { retention } commands = .ok (sends, l))
    (ssrc : UInt32) :
    (∀ seq record, l.lookup ssrc seq = some record →
      ∃ before e after, sendsOnStream sends ssrc = before ++ e :: after ∧ e.packet.seq = seq ∧
        e.record = record ∧ ∀ e' ∈ after, e'.packet.seq ≠ seq) ∧
    (∀ before a between b after,
      sendsOnStream sends ssrc = before ++ a :: (between ++ b :: after) →
      b.record.total.value =
        sizeSum ((between ++ [b]).map LoggedSend.packet) + a.record.total.value ∧
      ∀ difference, (b.record.total - a.record.total : Checked DataSize) = .ok difference →
        difference.value = sizeSum ((between ++ [b]).map LoggedSend.packet)) ∧
    ((∀ p ∈ sentPackets commands, 0 ≤ p.size) →
      (∀ before a between b after,
        sendsOnStream sends ssrc = before ++ a :: (between ++ b :: after) →
        a.record.total ≤ b.record.total ∧
        (a.record.total.isFinite → ∃ difference,
          (b.record.total - a.record.total : Checked DataSize) = .ok difference)) ∧
      ∀ seq record, l.lookup ssrc seq = some record →
        record.total ≤ SentStream.total (l.streams[ssrc]?.getD {})) := by
  have hs := countsUp_of_log h ssrc
  simp only [lookup_eq]
  refine ⟨hs.made, fun before a between b after hsends ↦ ?_, fun hsizes ↦ ?_⟩
  · rw [hsends] at hs
    exact ⟨hs.value_total, fun difference ↦ Quantity.value_sub hs.value_total⟩
  · have hsizes : ∀ e ∈ sendsOnStream sends ssrc, 0 ≤ e.packet.size := by
      intro e he
      refine hsizes e.packet ?_
      rw [sentPackets, ← (packets_of_log h).1]
      exact List.mem_map_of_mem (List.mem_filter.mp he).1
    refine ⟨fun before a between b after hsends ↦ ?_, fun seq record ↦ hs.total_le_total hsizes⟩
    rw [hsends] at hs hsizes
    obtain ⟨hnonneg, hle⟩ := hs.total_le hsizes
    exact ⟨hle, fun hfinite ↦ Quantity.exists_sub_of_le hnonneg hfinite hle⟩

/-- The send of 4 expires, and 6 is sent again before the send of 7. -/
def resentInBetween : List LedgerCommand :=
  [.send ⟨1, 4, ⟨.exactly 0⟩, .exactly 100⟩, .send ⟨1, 5, ⟨.exactly 6000000⟩, .exactly 200⟩,
    .send ⟨1, 6, ⟨.exactly 7000000⟩, .exactly 300⟩, .settle {},
    .send ⟨1, 6, ⟨.exactly 8000000⟩, .exactly 400⟩, .restart,
    .send ⟨2, 9, ⟨.exactly 8000000⟩, .exactly 50⟩, .send ⟨1, 7, ⟨.exactly 15000000⟩, .exactly 500⟩]

theorem total_sub_eq_sizeSum_resentInBetween : ∃ sends l a b difference,
    Ledger.log { retention := .exactly 10000000 } resentInBetween = .ok (sends, l) ∧
    l.lookup 1 4 = none ∧ l.lookup 1 5 = some a ∧ l.lookup 1 7 = some b ∧
    (b.total - a.total : Checked DataSize) = .ok difference ∧
    difference.value = (((300 + 400 + 500 : ℤ) : WithTop ℤ) : ExtendedInt) ∧
    a.total ≤ b.total ∧ b.total ≤ SentStream.total (l.streams[(1 : UInt32)]?.getD {}) := by
  obtain ⟨⟨sends, l⟩, hlog, htest⟩ := exists_ok_of_any
    (x := Ledger.log { retention := .exactly 10000000 } resentInBetween)
    (fun logged ↦ decide (logged.2.lookup 1 4 = none ∧
      logged.2.lookup 1 5 = (sendsOnStream logged.1 1)[1]?.map LoggedSend.record ∧
      logged.2.lookup 1 7 = (sendsOnStream logged.1 1)[4]?.map LoggedSend.record ∧
      (logged.2.lookup 1 5).any (·.total.isFinite) ∧
      (sendsOnStream logged.1 1).map (fun e ↦ e.packet.size) =
        [.exactly 100, .exactly 200, .exactly 300, .exactly 400, .exactly 500]))
    (by decide +kernel)
  obtain ⟨hfour, hfive, hseven, hfinite, hsends⟩ := of_decide_eq_true htest
  simp only [List.map_eq_cons_iff, List.map_eq_nil_iff] at hsends
  obtain ⟨first, _, hsends, -, a, _, rfl, -, e, _, rfl, he, e', _, rfl, he', b, _, rfl, hb, rfl⟩ :=
    hsends
  have hfive : l.lookup 1 5 = some a.record := by rw [hfive, hsends]; rfl
  have hseven : l.lookup 1 7 = some b.record := by rw [hseven, hsends]; rfl
  rw [hfive] at hfinite
  obtain ⟨-, hdifference, hsizes⟩ := total_sub_eq_sizeSum hlog 1
  obtain ⟨hmonotone, htotal⟩ := hsizes (by decide)
  obtain ⟨hle, hexists⟩ := hmonotone [first] a [e, e'] b [] hsends
  obtain ⟨difference, hsub⟩ := hexists hfinite
  refine ⟨sends, l, a.record, b.record, difference, hlog, hfour, hfive, hseven, hsub, ?_, hle,
    htotal 7 _ hseven⟩
  rw [(hdifference [first] a [e, e'] b [] hsends).2 difference hsub, sizeSum, List.map_map]
  simp only [List.cons_append, List.nil_append, List.map_cons, Function.comp_apply, he, he', hb]
  rfl

end Ledger

end Congestion
