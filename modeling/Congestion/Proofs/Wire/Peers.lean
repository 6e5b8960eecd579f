import Congestion.Proofs.Wire.Grammar
import Mathlib.Data.List.Perm.Subperm

/-!
# What a peer can send

Whatever bytes come in, reading them ends with reports or a rejection (`faultless_reports`). A
report that is read is `Report.Modest`: the 16-bit length of a packet leaves room for few streams,
however many sequence numbers each of them covers, and 13 bits hold every distance of an arrival
from the report.
-/

set_option autoImplicit false
set_option relaxedAutoImplicit false

namespace Congestion

/-! ### Reading meets no fault -/

theorem Report.faultless_ofWords (words : List UInt16) : Faultless (Report.ofWords words) := by
  by_cases hbody : ∃ b : ReportBody, words = b.words
  · obtain ⟨b, rfl⟩ := hbody
    obtain ⟨r, hr, -⟩ := b.ofWords_words
    rw [hr]
    exact faultless_ok r
  · unfold Report.ofWords
    split
    next s₁ s₂ z₁ z₂ t₁ t₂ number monitored rest =>
      split
      next hzero =>
        cases hread : StreamSection.readAll rest with
        | error e => exact faultless_rejected e
        | ok sections => exact absurd (Report.exists_body_of_readAll hzero hread) hbody
      next => exact faultless_rejected _
    next => exact faultless_rejected _

theorem Packet.faultless_decode (input : List UInt8) : Faultless (Packet.decode input).1 := by
  unfold Packet.decode
  split
  next => exact faultless_rejected _
  next header rest _ =>
    split
    next => exact faultless_rejected _
    next body rest' _ =>
      split
      next =>
        exact Faultless.bind (Report.faultless_ofWords _) fun _ _ ↦ faultless_ok _
      next => exact faultless_ok _

namespace Datagram

theorem faultless_packets (input : List UInt8) : Faultless (packets input) := by
  fun_induction packets input with
  | case1 => exact faultless_ok []
  | case2 b bs e rest hdecode =>
    have hfaultless := Packet.faultless_decode (b :: bs)
    rw [hdecode] at hfaultless
    exact fun fault h ↦ hfaultless fault (by cases h; rfl)
  | case3 => exact faultless_ok _
  | case4 b bs p rest hdecode e hrest =>
    rename_i ih
    exact fun fault h ↦ ih fault (by rw [hrest]; cases h; rfl)

theorem faultless_reports (input : List UInt8) : Faultless (reports input) := by
  intro fault h
  cases hpackets : packets input with
  | ok ps => rw [reports, hpackets] at h; cases h
  | error e =>
    rw [reports, hpackets] at h
    cases h
    exact faultless_packets input fault hpackets

theorem exists_decode_of_mem_packets {input : List UInt8} {ps : List Packet} {p : Packet}
    (h : packets input = .ok ps) (hp : p ∈ ps) : ∃ opening rest,
      Packet.decode opening = (.ok p, rest) := by
  fun_induction packets input generalizing ps with
  | case1 => cases h; simp at hp
  | case2 => cases h
  | case3 b bs p' rest hdecode ps' hrest =>
    rename_i ih
    cases h
    rcases List.mem_cons.mp hp with rfl | hmem
    · exact ⟨b :: bs, rest, hdecode⟩
    · exact ih hrest hmem
  | case4 => cases h

/-- Each report of a datagram is told by the body of one of its packets. -/
theorem exists_body_of_mem_reports {input : List UInt8} {rs : List Report} {r : Report}
    (h : reports input = .ok rs) (hr : r ∈ rs) : ∃ (b : ReportBody) (opening rest : List UInt8),
      b.Opens opening rest ∧ b.Tells r := by
  cases hpackets : packets input with
  | error e => rw [reports, hpackets] at h; cases h
  | ok ps =>
    rw [reports, hpackets] at h
    cases h
    obtain ⟨p, hp, hreport⟩ := List.mem_filterMap.mp hr
    cases p with
    | other header payload => cases hreport
    | feedback r' =>
      cases hreport
      obtain ⟨opening, rest, hdecode⟩ := exists_decode_of_mem_packets hpackets hp
      obtain ⟨b, hopens, htells⟩ :=
        Report.decode_eq_ok_iff.mp (Packet.decode_feedback_iff.mp hdecode)
      exact ⟨b, opening, rest, hopens, htells⟩

end Datagram

/-! ### Reports that are read -/

/-- Few streams, an early time, and every arrival close before the report. -/
structure Report.Modest (r : Report) : Prop where
  streams : r.toList.length ≤ 32767
  time : r.time.toNat < 2 ^ 33
  arrivals : ∀ ssrc seq a, r.arrivals? ssrc seq = some a →
    a.time.toNat ≤ r.time.toNat ∧ r.time.toNat - a.time.toNat ≤ 8191

namespace ReportBody

/-- A block takes at least four words, and a packet has at most 65535 pairs of them. -/
theorem Opens.length_blocks_le {b : ReportBody} {opening rest : List UInt8}
    (h : b.Opens opening rest) : b.blocks.length ≤ 32767 := by
  obtain ⟨first, high, low, -, -, -, hlength⟩ := h
  have hword := (Words.word high low).toNat_lt
  have hblocks : ∀ blocks : List StreamBlock,
      4 * blocks.length ≤ (blocks.flatMap StreamBlock.words).length := by
    intro blocks
    induction blocks with
    | nil => exact Nat.zero_le _
    | cons block blocks ih =>
      have hblock : 4 ≤ block.words.length := by
        simp [StreamBlock.words, Words.split32]
      rw [List.flatMap_cons, List.length_append, List.length_cons]
      omega
  have hall := hblocks b.blocks
  have hwords : (b.blocks.flatMap StreamBlock.words).length ≤ b.words.length := by
    rw [words, List.length_append]
    exact Nat.le_add_left _ _
  rw [bytes, Words.length_toBytes] at hlength
  omega

/-- Each stream of the report has a block. -/
theorem Tells.length_toList_le {b : ReportBody} {r : Report} (h : b.Tells r) :
    r.toList.length ≤ b.blocks.length := by
  have hkeys : r.streams.keys ⊆ b.blocks.map StreamBlock.ssrc := by
    intro ssrc hssrc
    have hlisted : (r.stream? ssrc).isSome := by
      simpa [Report.stream?] using Std.ExtTreeMap.mem_keys.mp hssrc
    obtain ⟨seq, hseq⟩ := (h.streams ssrc).mp hlisted
    obtain ⟨e, he⟩ := Option.isSome_iff_exists.mp hseq
    have hfound := List.find?_some he
    simp only [Bool.and_eq_true, decide_eq_true_eq] at hfound
    obtain ⟨block, hblock, hplaced⟩ := List.mem_flatMap.mp (List.mem_of_find?_eq_some he)
    obtain ⟨⟨word, i⟩, -, rfl⟩ := List.mem_map.mp hplaced
    exact List.mem_map.mpr ⟨block, hblock, hfound.1.2⟩
  have hlength := (Std.ExtTreeMap.nodup_keys.subperm hkeys).length_le
  rw [List.length_map, ← Std.ExtTreeMap.map_fst_toList_eq_keys, List.length_map] at hlength
  exact hlength

theorem Tells.modest {b : ReportBody} {r : Report} {opening rest : List UInt8}
    (hopens : b.Opens opening rest) (htells : b.Tells r) : r.Modest := by
  refine ⟨Nat.le_trans htells.length_toList_le hopens.length_blocks_le, ?_, fun ssrc seq a ha ↦ ?_⟩
  · have hlow := b.low.toNat_lt
    rw [htells.time]
    split <;> omega
  · have harrival := htells.arrivals ssrc seq
    rw [ha] at harrival
    generalize b.first? ssrc seq = first at harrival
    cases harrival with
    | some hentry =>
      rename_i e
      have hoffset := e.offset_lt
      omega

end ReportBody

end Congestion
