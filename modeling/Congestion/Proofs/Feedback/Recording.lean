import Congestion.Feedback.Report
import Congestion.Proofs.Feedback.Coverage

/-!
# Reports as maps

What a report tells is its header and `Report.arrivals?`, the first arrival of each packet: reports
that agree on these are equal (`Report.ext_arrivals?`), since no stream is listed without an
arrival. Recording one more arrival changes this map at the packet alone, and only where it has
nothing yet (`Report.arrivals?_insertNew`).
-/

set_option autoImplicit false
set_option relaxedAutoImplicit false

namespace Congestion

theorem EcnMark.ofBits?_of_lt {bits : UInt8} (h : bits.toNat < 4) :
    EcnMark.ofBits? bits = some (EcnMark.ofBits bits) ∧ (EcnMark.ofBits bits).bits = bits := by
  have hcases : bits = 0 ∨ bits = 1 ∨ bits = 2 ∨ bits = 3 := by
    simp only [← UInt8.toNat_inj]
    simp
    omega
  rcases hcases with rfl | rfl | rfl | rfl <;> exact ⟨rfl, rfl⟩

theorem EcnMark.bits_lt (mark : EcnMark) : mark.bits.toNat < 4 := by
  cases mark <;> decide

namespace StreamArrivals

theorem ext_get? {b c : StreamArrivals} (h : ∀ seq, b.get? seq = c.get? seq) : b = c := by
  obtain ⟨b⟩ := b
  obtain ⟨c⟩ := c
  exact congrArg StreamArrivals.mk (Std.ExtTreeMap.ext_getElem? h)

theorem exists_get? {b : StreamArrivals} (h : b.arrivals ≠ ∅) : ∃ seq a, b.get? seq = some a := by
  obtain ⟨seq, hseq⟩ := exists_mem_of_ne_empty h
  exact ⟨seq, b.arrivals[seq], Std.ExtTreeMap.getElem?_eq_some_getElem hseq⟩

theorem received_pos {b : StreamArrivals} (h : b.arrivals ≠ ∅) : 0 < b.received := by
  rw [received, ← Std.ExtTreeMap.length_toList, List.length_pos_iff, Ne,
    Std.ExtTreeMap.toList_eq_nil_iff]
  exact h

@[simp] theorem get?_insertNew (b : StreamArrivals) (seq seq' : UInt16) (a : Arrival) :
    (b.insertNew seq a).get? seq' =
      if seq' = seq then some ((b.get? seq).getD a) else b.get? seq' := by
  unfold insertNew get?
  rw [Std.ExtTreeMap.getElem?_insertIfNew]
  by_cases hseq : seq' = seq
  · subst hseq
    by_cases hmem : seq' ∈ b.arrivals
    · simp [hmem]
    · simp [hmem]
  · have hne : ¬ compare seq seq' = .eq := fun h ↦
      hseq (Std.LawfulEqOrd.compare_eq_iff_eq.mp h).symm
    simp [hseq, hne]

end StreamArrivals

namespace Report

variable {r s : Report} {ssrc : UInt32} {seq : UInt16}

theorem arrivals?_of_stream {b : StreamArrivals} (h : r.streams[ssrc]? = some b) :
    r.arrivals? ssrc seq = b.get? seq := by
  simp [arrivals?, h]

theorem arrivals?_of_no_stream (h : r.streams[ssrc]? = none) : r.arrivals? ssrc seq = none := by
  simp [arrivals?, h]

theorem arrivals?_eq_some_iff {a : Arrival} :
    r.arrivals? ssrc seq = some a ↔ ∃ b, r.streams[ssrc]? = some b ∧ b.get? seq = some a := by
  simp [arrivals?, Option.bind_eq_some_iff]

theorem mem_toList_iff {b : StreamArrivals} : (ssrc, b) ∈ r.toList ↔ r.streams[ssrc]? = some b :=
  Std.ExtTreeMap.mem_toList_iff_getElem?_eq_some

theorem nodup_toList (r : Report) : (r.toList.map Prod.fst).Nodup := by
  rw [toList, Std.ExtTreeMap.map_fst_toList_eq_keys]
  exact Std.ExtTreeMap.nodup_keys

theorem mem_entries_iff {a : Arrival} :
    (seq, a) ∈ r.entries ssrc ↔ r.arrivals? ssrc seq = some a := by
  unfold entries stream?
  cases h : r.streams[ssrc]? with
  | none => simp [arrivals?_of_no_stream h]
  | some b => rw [arrivals?_of_stream h, ← StreamArrivals.mem_entries_iff]

/-- A stream is listed when one of its packets has arrived. -/
theorem stream?_isSome_iff : (r.stream? ssrc).isSome ↔ ∃ seq, (r.arrivals? ssrc seq).isSome := by
  unfold stream?
  cases h : r.streams[ssrc]? with
  | none => simp [arrivals?_of_no_stream h]
  | some b =>
    obtain ⟨seq, a, ha⟩ := StreamArrivals.exists_get? (r.nonempty ssrc b h)
    simp only [Option.isSome_some, true_iff]
    exact ⟨seq, by rw [arrivals?_of_stream h, ha]; rfl⟩

theorem ext_arrivals? (hsender : r.sender = s.sender) (htime : r.time = s.time)
    (hnumber : r.number = s.number) (hmonitored : r.monitored = s.monitored)
    (h : ∀ ssrc seq, r.arrivals? ssrc seq = s.arrivals? ssrc seq) : r = s := by
  refine Report.ext hsender htime hnumber hmonitored (Std.ExtTreeMap.ext_getElem? fun ssrc ↦ ?_)
  cases hr : r.streams[ssrc]? with
  | none =>
    cases hs : s.streams[ssrc]? with
    | none => rfl
    | some c =>
      obtain ⟨seq, a, ha⟩ := StreamArrivals.exists_get? (s.nonempty ssrc c hs)
      have hsame := h ssrc seq
      rw [arrivals?_of_no_stream hr, arrivals?_of_stream hs, ha] at hsame
      cases hsame
  | some b =>
    cases hs : s.streams[ssrc]? with
    | none =>
      obtain ⟨seq, a, ha⟩ := StreamArrivals.exists_get? (r.nonempty ssrc b hr)
      have hsame := h ssrc seq
      rw [arrivals?_of_no_stream hs, arrivals?_of_stream hr, ha] at hsame
      cases hsame
    | some c =>
      refine congrArg some (StreamArrivals.ext_get? fun seq ↦ ?_)
      rw [← arrivals?_of_stream hr, ← arrivals?_of_stream hs, h ssrc seq]

/-! ### Recording -/

theorem arrivals?_insertNew (r : Report) (ssrc ssrc' : UInt32) (seq seq' : UInt16) (a : Arrival) :
    (r.insertNew ssrc seq a).arrivals? ssrc' seq' =
      if ssrc' = ssrc ∧ seq' = seq then some ((r.arrivals? ssrc seq).getD a)
      else r.arrivals? ssrc' seq' := by
  have hstreams : (r.insertNew ssrc seq a).streams =
      r.streams.insert ssrc ((r.streams[ssrc]?.getD {}).insertNew seq a) := rfl
  by_cases hssrc : ssrc' = ssrc
  · subst hssrc
    have hlisted : (r.insertNew ssrc' seq a).streams[ssrc']? =
        some ((r.streams[ssrc']?.getD {}).insertNew seq a) := by
      rw [hstreams, Std.ExtTreeMap.getElem?_insert_self]
    have hold : ∀ seq, (r.streams[ssrc']?.getD {}).get? seq = r.arrivals? ssrc' seq := by
      intro seq
      cases h : r.streams[ssrc']? with
      | none => simp [arrivals?_of_no_stream h, StreamArrivals.get?]
      | some b => simp [arrivals?_of_stream h]
    rw [arrivals?_of_stream hlisted, StreamArrivals.get?_insertNew, hold, hold]
    simp
  · have hne : ¬ compare ssrc ssrc' = .eq :=
      fun h ↦ hssrc (Std.LawfulEqOrd.compare_eq_iff_eq.mp h).symm
    simp only [arrivals?, hstreams, Std.ExtTreeMap.getElem?_insert, hne, hssrc, if_false, false_and]

/-- Recording a packet that has arrived before inserts nothing. -/
theorem record_snd (r : Report) (ssrc : UInt32) (seq : UInt16) (time : UInt64) (bits : UInt8) :
    (r.record ssrc seq time bits).2 =
      match EcnMark.ofBits? bits with
      | none => r
      | some mark => r.insertNew ssrc seq ⟨mark, time⟩ := by
  unfold record
  cases hmark : EcnMark.ofBits? bits with
  | none => rfl
  | some mark =>
    cases hstream : r.streams[ssrc]? with
    | none => rfl
    | some b =>
      dsimp only
      split
      next hsome =>
        obtain ⟨a, ha⟩ := Option.isSome_iff_exists.mp hsome
        refine ext_arrivals? rfl rfl rfl rfl fun ssrc' seq' ↦ ?_
        rw [arrivals?_insertNew]
        split
        next hsame =>
          obtain ⟨rfl, rfl⟩ := hsame
          rw [arrivals?_of_stream hstream, ha]
          rfl
        next => rfl
      next => rfl

end Report

end Congestion
