import Congestion.Proofs.Checked
import Congestion.Proofs.Feedback.Recording
import Congestion.Wire.Datagram
import Mathlib.Algebra.Order.Ring.Int

/-!
# The grammar of feedback reports

A packet is a header and a body, and a body is a fixed part followed by stream blocks, one after
the other up to its end. `ReportBody` is a body taken apart, `ReportBody.Opens` says that a packet
with this body opens an input, and `ReportBody.Tells` says which report a body is to be read as:
each packet has the first entry with its received bit set, in the order of the bytes, and there is
nothing else in the report.

Reading accepts exactly the bodies of this grammar (`ofWords_eq_ok_iff`, from `readAll_flatMap` and
`exists_blocks_of_readAll` on the stream blocks) and reads them as they tell (`recordAll_ok`,
`tells_of_recordAll`). A body tells one report (`ReportBody.Tells.unique`). `decode_eq_ok_iff` puts
the header before it.
-/

set_option autoImplicit false
set_option relaxedAutoImplicit false

namespace Congestion

/-! ### Bodies -/

/-- One stream of a body: its entries, and the words that fill up the last pair of them. -/
structure StreamBlock where
  ssrc : UInt32
  last : UInt16
  entries : List UInt16
  filler : List UInt16

/-- An entry with the packet it is about. -/
structure PlacedEntry where
  ssrc : UInt32
  seq : UInt16
  word : UInt16

namespace PlacedEntry

/-- Bit 15. -/
def received (e : PlacedEntry) : Bool := e.word.toNat.testBit 15

/-- Bits 13 and 14. -/
def mark (e : PlacedEntry) : Nat := e.word.toNat / 2 ^ 13 % 4

/-- Bits 0 to 12, the milliseconds from the arrival to the report. -/
def offset (e : PlacedEntry) : Nat := e.word.toNat % 2 ^ 13

end PlacedEntry

namespace StreamBlock

/-- The count fits its field, and there is a filler word after an odd number of entries. -/
structure WellFormed (b : StreamBlock) : Prop where
  counted : b.entries.length < 65536
  filled : b.filler.length = b.entries.length % 2

def words (b : StreamBlock) : List UInt16 :=
  Words.split32 b.ssrc ++ [UInt16.ofNat b.entries.length, b.last] ++ b.entries ++ b.filler

/-- The sequence number of the entry at a position, the last entry being that of `last`. -/
def seqAt (b : StreamBlock) (i : Nat) : UInt16 :=
  b.last - UInt16.ofNat b.entries.length + 1 + UInt16.ofNat i

def placed (b : StreamBlock) : List PlacedEntry :=
  b.entries.zipIdx.map fun (word, i) ↦ ⟨b.ssrc, b.seqAt i, word⟩

end StreamBlock

structure ReportBody where
  sender : UInt32
  /-- The low 32 bits of the report time. -/
  low : UInt32
  number : UInt16
  monitored : UInt16
  blocks : List StreamBlock
  wellFormed : ∀ b ∈ blocks, b.WellFormed

namespace ReportBody

/-- The second 32-bit word is zero. -/
def words (b : ReportBody) : List UInt16 :=
  Words.split32 b.sender ++ Words.split32 0 ++ Words.split32 b.low ++ [b.number, b.monitored] ++
    b.blocks.flatMap StreamBlock.words

def bytes (b : ReportBody) : List UInt8 := Words.toBytes b.words

def placed (b : ReportBody) : List PlacedEntry := b.blocks.flatMap StreamBlock.placed

def first? (b : ReportBody) (ssrc : UInt32) (seq : UInt16) : Option PlacedEntry :=
  b.placed.find? fun e ↦ e.received && e.ssrc = ssrc && e.seq = seq

/-- The input is a packet with this body and then `rest`: version 2, format 13 and type 205, with
the length of the body in 32-bit words. -/
def Opens (b : ReportBody) (input rest : List UInt8) : Prop :=
  ∃ first high low, input = first :: 205 :: high :: low :: (b.bytes ++ rest) ∧
    first / 0x40 = 2 ∧ first % 0x20 = 13 ∧ b.bytes.length = 4 * (Words.word high low).toNat

/-- The report time has the low 32 bits that are written, and wrapped once if some packet would
otherwise have arrived before its zero. -/
structure Tells (b : ReportBody) (r : Report) : Prop where
  sender : r.sender = b.sender
  number : r.number = b.number
  monitored : r.monitored = b.monitored
  time : r.time.toNat = b.low.toNat +
    if ∃ e ∈ b.placed, e.received ∧ b.low.toNat < e.offset then 2 ^ 32 else 0
  arrivals : ∀ ssrc seq, Option.Rel
    (fun a e ↦ a.mark.bits.toNat = e.mark ∧ a.time.toNat + e.offset = r.time.toNat)
    (r.arrivals? ssrc seq) (b.first? ssrc seq)
  streams : ∀ ssrc, (r.stream? ssrc).isSome ↔ ∃ seq, (b.first? ssrc seq).isSome

end ReportBody

/-! ### Entries -/

namespace PlacedEntry

theorem received_iff (e : PlacedEntry) : e.received ↔ 0x8000 ≤ e.word := by
  have := e.word.toNat_lt
  rw [received, Nat.testBit_eq_decide_div_mod_eq, decide_eq_true_eq, UInt16.le_iff_toNat_le]
  simp
  omega

theorem mark_lt (e : PlacedEntry) : e.mark < 4 := Nat.mod_lt _ (by decide)

theorem offset_lt (e : PlacedEntry) : e.offset < 8192 := Nat.mod_lt _ (by decide)

/-- What reading takes from a received entry. -/
def acknowledged (e : PlacedEntry) : Acknowledged :=
  { ssrc := e.ssrc, seq := e.seq, bits := (e.word / 0x2000 % 4).toUInt8,
    offset := (e.word % 0x2000).toUInt64 }

@[simp] theorem acknowledged_bits (e : PlacedEntry) : e.acknowledged.bits.toNat = e.mark := by
  simp [acknowledged, mark]
  omega

@[simp] theorem acknowledged_offset (e : PlacedEntry) :
    e.acknowledged.offset.toNat = e.offset := by
  simp [acknowledged, offset]

theorem ofWord?_eq (e : PlacedEntry) :
    Acknowledged.ofWord? e.ssrc e.seq e.word =
      if e.received then some e.acknowledged else none := by
  by_cases h : e.received
  · rw [if_pos h, Acknowledged.ofWord?, if_pos (e.received_iff.mp h)]
    rfl
  · rw [if_neg h, Acknowledged.ofWord?, if_neg fun hle ↦ h (e.received_iff.mpr hle)]

end PlacedEntry

/-! ### Reading stream blocks -/

namespace StreamBlock

def toSection (b : StreamBlock) : StreamSection := ⟨b.ssrc, b.last, b.entries⟩

theorem acknowledged_toSection (b : StreamBlock) :
    b.toSection.acknowledged =
      b.placed.filterMap fun e ↦ if e.received then some e.acknowledged else none := by
  simp only [StreamSection.acknowledged, toSection, placed, List.filterMap_map]
  refine List.filterMap_congr fun wi _ ↦ ?_
  obtain ⟨word, i⟩ := wi
  have hseq : b.last - (UInt16.ofNat b.entries.length - 1) + UInt16.ofNat i = b.seqAt i := by
    unfold seqAt
    grind
  dsimp only [Function.comp_apply]
  rw [hseq, ← PlacedEntry.ofWord?_eq]

end StreamBlock

namespace StreamSection

theorem readAll_words_append {b : StreamBlock} (hb : b.WellFormed) (rest : List UInt16) :
    readAll (b.words ++ rest) = (readAll rest).map (b.toSection :: ·) := by
  obtain ⟨hcounted, hfilled⟩ := hb
  have hcount : (UInt16.ofNat b.entries.length).toNat = b.entries.length :=
    UInt16.toNat_ofNat_of_lt hcounted
  have hpadded : b.entries.length + b.entries.length % 2 = (b.entries ++ b.filler).length := by
    rw [List.length_append, hfilled]
  have hjoin : Words.join32 (b.ssrc / 65536).toUInt16 b.ssrc.toUInt16 = b.ssrc :=
    Words.join32_div_mod b.ssrc
  have hwords : b.words ++ rest = (b.ssrc / 65536).toUInt16 :: b.ssrc.toUInt16 ::
      UInt16.ofNat b.entries.length :: b.last :: (b.entries ++ b.filler ++ rest) := by
    simp [StreamBlock.words, Words.split32]
  rw [hwords, readAll]
  rw [hcount, hpadded, List.take_left, List.drop_left, if_neg (Nat.lt_irrefl _), hjoin,
    List.append_assoc, List.take_left]
  cases readAll rest <;> rfl

theorem exists_blocks_of_readAll {words : List UInt16} {sections : List StreamSection}
    (h : readAll words = .ok sections) :
    ∃ blocks : List StreamBlock, (∀ b ∈ blocks, b.WellFormed) ∧
      words = blocks.flatMap StreamBlock.words := by
  fun_induction readAll words generalizing sections with
  | case1 => exact ⟨[], by simp, rfl⟩
  | case2 => cases h
  | case3 s₁ s₂ count last rest padded hlong tail hrest =>
    rename_i ih
    obtain ⟨blocks, hblocks, hwords⟩ := ih hrest
    have hlength : padded ≤ rest.length := by
      rw [List.length_take] at hlong
      omega
    have hcount := count.toNat_lt
    let b : StreamBlock :=
      { ssrc := Words.join32 s₁ s₂, last, entries := rest.take count.toNat,
        filler := (rest.take padded).drop count.toNat }
    have hentries : b.entries.length = count.toNat := by
      rw [List.length_take]
      omega
    have hb : b.WellFormed := by
      refine ⟨by omega, ?_⟩
      rw [List.length_drop, List.length_take, hentries]
      omega
    refine ⟨b :: blocks, List.forall_mem_cons.mpr ⟨hb, hblocks⟩, ?_⟩
    rw [List.flatMap_cons, ← hwords, StreamBlock.words, hentries, UInt16.ofNat_toNat,
      Words.split32_join32]
    have hsplit : rest.take count.toNat ++ (rest.take padded).drop count.toNat =
        rest.take padded := by
      conv_rhs => rw [← List.take_append_drop count.toNat (rest.take padded)]
      rw [List.take_take, Nat.min_eq_left (by omega)]
    simp only [List.cons_append, List.nil_append, List.append_assoc]
    rw [← List.append_assoc, hsplit, List.take_append_drop]
  | case4 => cases h
  | case5 => cases h

theorem readAll_flatMap : ∀ {blocks : List StreamBlock}, (∀ b ∈ blocks, b.WellFormed) →
    readAll (blocks.flatMap StreamBlock.words) = .ok (blocks.map StreamBlock.toSection)
  | [], _ => by rw [List.flatMap_nil, readAll]; rfl
  | b :: blocks, h => by
    rw [List.flatMap_cons, readAll_words_append (h b (by simp)),
      readAll_flatMap fun b' hb' ↦ h b' (by simp [hb'])]
    rfl

end StreamSection

/-! ### Recording what a body acknowledges -/

/-- The arrival that an entry of a report at some time tells of. -/
def Acknowledged.arrival (a : Acknowledged) (time : UInt64) : Arrival :=
  ⟨EcnMark.ofBits a.bits, time - a.offset⟩

theorem Acknowledged.toNat_arrival_time {a : Acknowledged} {time : UInt64} (h : a.offset ≤ time) :
    (a.arrival time).time.toNat + a.offset.toNat = time.toNat := by
  have hle := UInt64.le_iff_toNat_le.mp h
  rw [arrival, UInt64.toNat_sub_of_le _ _ h]
  omega

theorem PlacedEntry.arrival_mark (e : PlacedEntry) (time : UInt64) :
    (e.acknowledged.arrival time).mark.bits.toNat = e.mark := by
  rw [Acknowledged.arrival, (EcnMark.ofBits?_of_lt (e.acknowledged_bits ▸ e.mark_lt)).2,
    e.acknowledged_bits]

namespace Report

structure SameHeader (r s : Report) : Prop where
  sender : r.sender = s.sender
  time : r.time = s.time
  number : r.number = s.number
  monitored : r.monitored = s.monitored

/-- Of the entries of one packet, the first is recorded. -/
theorem recordAll_ok : ∀ (acks : List Acknowledged) (r : Report),
    (∀ a ∈ acks, a.bits.toNat < 4 ∧ a.offset ≤ r.time) →
    ∃ r', r.recordAll acks = .ok r' ∧ r'.SameHeader r ∧ ∀ ssrc seq, r'.arrivals? ssrc seq =
      (r.arrivals? ssrc seq).or
        ((acks.find? fun a ↦ a.ssrc = ssrc && a.seq = seq).map (·.arrival r.time)) := by
  intro acks
  induction acks with
  | nil => intro r _; exact ⟨r, rfl, ⟨rfl, rfl, rfl, rfl⟩, fun ssrc seq ↦ by simp⟩
  | cons a acks ih =>
    intro r h
    obtain ⟨⟨hbits, hoffset⟩, hrest⟩ := List.forall_mem_cons.mp h
    let r₁ := r.insertNew a.ssrc a.seq (a.arrival r.time)
    have hstep : (do
        let time ← unsigned64Sub r.time a.offset
        return (r.record a.ssrc a.seq time a.bits).2 : Checked Report) = .ok r₁ := by
      rw [unsigned64Sub_eq_ok_iff.mpr ⟨hoffset, rfl⟩]
      show Except.ok _ = _
      rw [record_snd, (EcnMark.ofBits?_of_lt hbits).1]
      rfl
    obtain ⟨r', hr', hheader, harrivals⟩ := ih r₁ hrest
    refine ⟨r', ?_, ⟨hheader.sender, hheader.time, hheader.number, hheader.monitored⟩, ?_⟩
    · rw [recordAll, List.foldlM_cons, hstep]
      exact hr'
    · intro ssrc seq
      rw [harrivals, arrivals?_insertNew, List.find?_cons]
      by_cases hsame : ssrc = a.ssrc ∧ seq = a.seq
      · obtain ⟨rfl, rfl⟩ := hsame
        cases r.arrivals? a.ssrc a.seq <;> simp
      · have hother : (a.ssrc = ssrc && a.seq = seq : Bool) = false := by
          simp only [Bool.and_eq_false_iff, decide_eq_false_iff_not]
          grind
        rw [if_neg hsame, hother]
        rfl

theorem toNat_unwrapTime (low : UInt32) (acks : List Acknowledged) :
    (unwrapTime low acks).toNat =
      low.toNat + if ∃ a ∈ acks, low.toNat < a.offset.toNat then 2 ^ 32 else 0 := by
  have hlow := low.toNat_lt
  have hany : acks.any (low.toUInt64 < ·.offset) ↔ ∃ a ∈ acks, low.toNat < a.offset.toNat := by
    simp [UInt64.lt_iff_toNat_lt]
  unfold unwrapTime
  by_cases h : ∃ a ∈ acks, low.toNat < a.offset.toNat
  · rw [if_pos (hany.mpr h), if_pos h]
    simp
    omega
  · rw [if_neg (hany.not.mpr h), if_neg h]
    simp

end Report

/-! ### Reading bodies -/

namespace ReportBody

/-- The received entries in the order they are written. -/
def acks (b : ReportBody) : List Acknowledged :=
  b.placed.filterMap fun e ↦ if e.received then some e.acknowledged else none

theorem mem_acks_iff {b : ReportBody} {a : Acknowledged} :
    a ∈ b.acks ↔ ∃ e ∈ b.placed, e.received ∧ e.acknowledged = a := by
  simp [acks]

theorem find?_acks (b : ReportBody) (ssrc : UInt32) (seq : UInt16) :
    b.acks.find? (fun a ↦ a.ssrc = ssrc && a.seq = seq) =
      (b.first? ssrc seq).map PlacedEntry.acknowledged := by
  have hsame : (fun e : PlacedEntry ↦ Option.any (fun a ↦ a.ssrc = ssrc && a.seq = seq)
      (if e.received then some e.acknowledged else none)) =
      fun e ↦ e.received && e.ssrc = ssrc && e.seq = seq := by
    funext e
    cases h : e.received <;> simp [PlacedEntry.acknowledged]
  rw [acks, List.find?_filterMap, hsame, first?]
  cases h : b.placed.find? fun e ↦ e.received && e.ssrc = ssrc && e.seq = seq with
  | none => rfl
  | some e =>
    have hreceived := List.find?_some h
    simp only [Bool.and_eq_true] at hreceived
    simp [hreceived.1.1]

theorem acknowledged_blocks (b : ReportBody) :
    (b.blocks.map StreamBlock.toSection).flatMap StreamSection.acknowledged = b.acks := by
  rw [acks, placed, List.filterMap_flatMap, List.flatMap_map]
  exact List.flatMap_congr fun block _ ↦ block.acknowledged_toSection

/-- The report of a body without its entries. -/
def blank (b : ReportBody) : Report :=
  { sender := b.sender, time := Report.unwrapTime b.low b.acks, number := b.number,
    monitored := b.monitored }

theorem toNat_time_blank (b : ReportBody) : b.blank.time.toNat = b.low.toNat +
    if ∃ e ∈ b.placed, e.received ∧ b.low.toNat < e.offset then 2 ^ 32 else 0 := by
  have hacks : (∃ a ∈ b.acks, b.low.toNat < a.offset.toNat) ↔
      ∃ e ∈ b.placed, e.received ∧ b.low.toNat < e.offset := by
    constructor
    · rintro ⟨a, ha, hlt⟩
      obtain ⟨e, he, hreceived, rfl⟩ := mem_acks_iff.mp ha
      exact ⟨e, he, hreceived, by simpa using hlt⟩
    · rintro ⟨e, he, hreceived, hlt⟩
      exact ⟨e.acknowledged, mem_acks_iff.mpr ⟨e, he, hreceived, rfl⟩, by simpa using hlt⟩
  rw [blank, Report.toNat_unwrapTime]
  simp only [hacks]

/-- No packet arrived before the zero of the receiver's clock. -/
theorem offset_le_time {b : ReportBody} {a : Acknowledged} (ha : a ∈ b.acks) :
    a.offset ≤ b.blank.time := by
  obtain ⟨e, he, hreceived, rfl⟩ := mem_acks_iff.mp ha
  rw [UInt64.le_iff_toNat_le, toNat_time_blank, PlacedEntry.acknowledged_offset]
  have := e.offset_lt
  split
  next => omega
  next h =>
    have : ¬ b.low.toNat < e.offset := fun hlt ↦ h ⟨e, he, hreceived, hlt⟩
    omega

theorem tells_of_recordAll {b : ReportBody} {r : Report} (hheader : r.SameHeader b.blank)
    (harrivals : ∀ ssrc seq, r.arrivals? ssrc seq =
      (b.acks.find? fun a ↦ a.ssrc = ssrc && a.seq = seq).map (·.arrival b.blank.time)) :
    b.Tells r := by
  have hmap : ∀ ssrc seq, r.arrivals? ssrc seq =
      (b.first? ssrc seq).map fun e ↦ e.acknowledged.arrival b.blank.time := by
    intro ssrc seq
    rw [harrivals, find?_acks, Option.map_map]
    rfl
  refine ⟨hheader.sender, hheader.number, hheader.monitored, ?_, fun ssrc seq ↦ ?_, fun ssrc ↦ ?_⟩
  · rw [hheader.time, toNat_time_blank]
  · rw [hmap]
    cases h : b.first? ssrc seq with
    | none => exact .none
    | some e =>
      have hfound := List.find?_some h
      simp only [Bool.and_eq_true] at hfound
      have hle := offset_le_time
        (mem_acks_iff.mpr ⟨e, List.mem_of_find?_eq_some h, hfound.1.1, rfl⟩)
      have htime := Acknowledged.toNat_arrival_time hle
      rw [e.acknowledged_offset] at htime
      exact .some ⟨e.arrival_mark _, by rw [hheader.time]; exact htime⟩
  · rw [Report.stream?_isSome_iff]
    simp [hmap]

theorem eq_of_rel {α β : Type} {R : α → β → Prop} (hR : ∀ {a a' b}, R a b → R a' b → a = a')
    {x y : Option α} {z : Option β} (hx : Option.Rel R x z) (hy : Option.Rel R y z) : x = y := by
  cases hx with
  | none => cases hy; rfl
  | some h =>
    cases hy with
    | some h' => rw [hR h h']

/-- A body tells one report. -/
theorem Tells.unique {b : ReportBody} {r s : Report} (hr : b.Tells r) (hs : b.Tells s) : r = s := by
  have htime : r.time = s.time := UInt64.toNat_inj.mp (hr.time.trans hs.time.symm)
  refine Report.ext_arrivals? (hr.sender.trans hs.sender.symm) htime
    (hr.number.trans hs.number.symm) (hr.monitored.trans hs.monitored.symm) fun ssrc seq ↦ ?_
  refine eq_of_rel ?_ (hr.arrivals ssrc seq) (htime ▸ hs.arrivals ssrc seq)
  rintro ⟨mark, time⟩ ⟨mark', time'⟩ e ⟨hmark, hoffset⟩ ⟨hmark', hoffset'⟩
  dsimp only at hmark hoffset hmark' hoffset'
  have hbits := UInt8.toNat_inj.mp (hmark.trans hmark'.symm)
  have hsame : some mark = some mark' := by
    rw [← EcnMark.ofBits?_bits mark, hbits, EcnMark.ofBits?_bits]
  have htimes : time = time' := UInt64.toNat_inj.mp (by omega)
  rw [Option.some.inj hsame, htimes]

theorem ofWords_words (b : ReportBody) : ∃ r, Report.ofWords b.words = .ok r ∧ b.Tells r := by
  have hacks : ∀ a ∈ b.acks, a.bits.toNat < 4 ∧ a.offset ≤ b.blank.time := by
    intro a ha
    refine ⟨?_, offset_le_time ha⟩
    obtain ⟨e, -, -, rfl⟩ := mem_acks_iff.mp ha
    rw [e.acknowledged_bits]
    exact e.mark_lt
  obtain ⟨r, hr, hheader, harrivals⟩ := Report.recordAll_ok b.acks b.blank hacks
  refine ⟨r, ?_, tells_of_recordAll hheader fun ssrc seq ↦ ?_⟩
  · have hsender : Words.join32 (b.sender / 65536).toUInt16 b.sender.toUInt16 = b.sender :=
      Words.join32_div_mod b.sender
    have hlow : Words.join32 (b.low / 65536).toUInt16 b.low.toUInt16 = b.low :=
      Words.join32_div_mod b.low
    have hzero : Words.join32 ((0 : UInt32) / 65536).toUInt16 (0 : UInt32).toUInt16 = 0 :=
      Words.join32_div_mod 0
    simp only [words, Words.split32, List.cons_append, List.nil_append, Report.ofWords, hsender,
      hlow, hzero, if_true]
    rw [StreamSection.readAll_flatMap b.wellFormed]
    show Outcome.ofChecked (Report.recordAll _
      ((b.blocks.map StreamBlock.toSection).flatMap StreamSection.acknowledged)) = _
    rw [acknowledged_blocks]
    show Outcome.ofChecked (b.blank.recordAll b.acks) = _
    rw [hr]
    rfl
  · rw [harrivals]
    have hnone : b.blank.arrivals? ssrc seq = none := by simp [blank, Report.arrivals?]
    rw [hnone, Option.none_or]

end ReportBody

namespace Report

theorem exists_body_of_readAll {s₁ s₂ z₁ z₂ t₁ t₂ number monitored : UInt16} {rest : List UInt16}
    {sections : List StreamSection} (hzero : Words.join32 z₁ z₂ = 0)
    (hread : StreamSection.readAll rest = .ok sections) : ∃ b : ReportBody,
      s₁ :: s₂ :: z₁ :: z₂ :: t₁ :: t₂ :: number :: monitored :: rest = b.words := by
  obtain ⟨blocks, hblocks, rfl⟩ := StreamSection.exists_blocks_of_readAll hread
  refine ⟨⟨Words.join32 s₁ s₂, Words.join32 t₁ t₂, number, monitored, blocks, hblocks⟩, ?_⟩
  simp [ReportBody.words, ← hzero, Words.split32_join32]

theorem exists_body_of_ofWords {words : List UInt16} {r : Report} (h : ofWords words = .ok r) :
    ∃ b : ReportBody, words = b.words := by
  unfold ofWords at h
  split at h
  next s₁ s₂ z₁ z₂ t₁ t₂ number monitored rest =>
    split at h
    next hzero =>
      obtain ⟨sections, hsections, -⟩ := bind_eq_ok_iff.mp h
      exact exists_body_of_readAll hzero (ofRejected_eq_ok_iff.mp hsections)
    next => cases h
  next => cases h

theorem ofWords_eq_ok_iff {words : List UInt16} {r : Report} :
    ofWords words = .ok r ↔ ∃ b : ReportBody, words = b.words ∧ b.Tells r := by
  constructor
  · intro h
    obtain ⟨b, rfl⟩ := exists_body_of_ofWords h
    obtain ⟨r', hr', htells⟩ := b.ofWords_words
    cases h.symm.trans hr'
    exact ⟨b, rfl, htells⟩
  · rintro ⟨b, rfl, htells⟩
    obtain ⟨r', hr', htells'⟩ := b.ofWords_words
    rw [hr', htells.unique htells']

/-! ### Reading packets -/

theorem isReport_iff {h : Header} : h.isReport ↔ h.packetType = 205 ∧ h.format = 13 := by
  rw [Header.isReport, Bool.and_eq_true, decide_eq_true_eq, decide_eq_true_eq]
  rfl

theorem exists_body_of_decode {input rest : List UInt8} {r : Report}
    (h : decode input = (.ok r, rest)) : ∃ b : ReportBody, b.Opens input rest ∧ b.Tells r := by
  unfold decode at h
  split at h
  next => cases h
  next header tail hheader =>
    split at h
    next hreport =>
      split at h
      next => cases h
      next body rest' hbody =>
        obtain ⟨hofWords, rfl⟩ := Prod.mk.inj h
        obtain ⟨b, hwords, htells⟩ := ofWords_eq_ok_iff.mp hofWords
        obtain ⟨first, high, low, rfl, hversion, -, hformat, hlength⟩ :=
          Header.decode_eq_ok_iff.mp hheader
        obtain ⟨rfl, hsize⟩ := Header.takeBody_eq_ok_iff.mp hbody
        obtain ⟨htype, hfmt⟩ := isReport_iff.mp hreport
        rw [Header.bodySize, hlength] at hsize
        have hbytes : b.bytes = body := by
          rw [ReportBody.bytes, ← hwords, Words.toBytes_ofBytes (by omega)]
        refine ⟨b, ⟨first, high, low, ?_, hversion, hformat ▸ hfmt, ?_⟩, htells⟩
        · rw [htype, hbytes]
        · rw [hbytes, hsize]
          omega
    next => cases h

theorem decode_of_opens {b : ReportBody} {input rest : List UInt8} {r : Report}
    (hopens : b.Opens input rest) (htells : b.Tells r) : decode input = (.ok r, rest) := by
  obtain ⟨first, high, low, rfl, hversion, hformat, hlength⟩ := hopens
  let header : Header :=
    { padding := decide (first / 0x20 % 2 = 1), format := first % 0x20, packetType := 205,
      length := Words.word high low }
  have hheader : Header.decode (first :: 205 :: high :: low :: (b.bytes ++ rest)) =
      (.ok header, b.bytes ++ rest) :=
    Header.decode_eq_ok_iff.mpr ⟨first, high, low, rfl, hversion, rfl, rfl, rfl⟩
  have hbody : header.takeBody (b.bytes ++ rest) = (.ok b.bytes, rest) :=
    Header.takeBody_eq_ok_iff.mpr ⟨rfl, by rw [hlength, Header.bodySize, Nat.mul_comm]⟩
  have hreport : header.isReport := isReport_iff.mpr ⟨rfl, hformat⟩
  unfold decode
  rw [hheader]
  dsimp only
  rw [if_pos hreport, hbody]
  dsimp only
  rw [ReportBody.bytes, Words.ofBytes_toBytes, ofWords_eq_ok_iff.mpr ⟨b, rfl, htells⟩]

theorem decode_eq_ok_iff {input rest : List UInt8} {r : Report} :
    decode input = (.ok r, rest) ↔ ∃ b : ReportBody, b.Opens input rest ∧ b.Tells r :=
  ⟨exists_body_of_decode, fun ⟨_, hopens, htells⟩ ↦ decode_of_opens hopens htells⟩

end Report

/-- A feedback packet is read as its report is. -/
theorem Packet.decode_feedback_iff {input rest : List UInt8} {r : Report} :
    Packet.decode input = (.ok (.feedback r), rest) ↔ Report.decode input = (.ok r, rest) := by
  unfold Packet.decode Report.decode
  cases hheader : Header.decode input with
  | mk result tail =>
    cases result with
    | error e => simp
    | ok header =>
      dsimp only
      cases hbody : header.takeBody tail with
      | mk body rest' =>
        by_cases hreport : header.isReport
        · simp only [hreport, if_true]
          cases body with
          | error e => simp
          | ok body =>
            dsimp only
            cases Report.ofWords (Words.ofBytes body) <;> simp [Functor.map, Except.map]
        · simp only [hreport]
          cases body <;> simp

/-- The number of bytes that a header announces, header included, are taken off the input. -/
theorem ReportBody.Opens.consumes {b : ReportBody} {input rest : List UInt8}
    (h : b.Opens input rest) : ∃ first kind high low tail,
      input = first :: kind :: high :: low :: tail ∧
        input.length = 4 * ((Words.word high low).toNat + 1) + rest.length ∧
        rest = input.drop (4 * ((Words.word high low).toNat + 1)) := by
  obtain ⟨first, high, low, rfl, -, -, hlength⟩ := h
  refine ⟨first, 205, high, low, b.bytes ++ rest, rfl, ?_, ?_⟩
  · simp only [List.length_cons, List.length_append, hlength]
    omega
  · rw [show 4 * ((Words.word high low).toNat + 1) = b.bytes.length + 4 by omega]
    simp

/-- Reading accepts exactly the packets of the grammar, takes exactly what the header announces,
and makes of a body the one report that it tells. Feedback packets of a datagram are read alike. -/
theorem decode_reads_grammar (input : List UInt8) :
    ((∃ r rest, Report.decode input = (.ok r, rest)) ↔
      ∃ (b : ReportBody) (rest : List UInt8), b.Opens input rest) ∧
    (∀ r rest, Report.decode input = (.ok r, rest) ↔
      ∃ b : ReportBody, b.Opens input rest ∧ b.Tells r) ∧
    (∀ r rest, Report.decode input = (.ok r, rest) → ∃ first kind high low tail,
      input = first :: kind :: high :: low :: tail ∧
        input.length = 4 * ((Words.word high low).toNat + 1) + rest.length ∧
        rest = input.drop (4 * ((Words.word high low).toNat + 1))) ∧
    ∀ r rest, Packet.decode input = (.ok (.feedback r), rest) ↔
      Report.decode input = (.ok r, rest) := by
  refine ⟨⟨?_, ?_⟩, fun r rest ↦ Report.decode_eq_ok_iff, ?_, fun r rest ↦
    Packet.decode_feedback_iff⟩
  · rintro ⟨r, rest, h⟩
    obtain ⟨b, hopens, -⟩ := Report.decode_eq_ok_iff.mp h
    exact ⟨b, rest, hopens⟩
  · rintro ⟨b, rest, hopens⟩
    obtain ⟨r, -, htells⟩ := b.ofWords_words
    exact ⟨r, rest, Report.decode_eq_ok_iff.mpr ⟨b, hopens, htells⟩⟩
  · intro r rest h
    obtain ⟨b, hopens, -⟩ := Report.decode_eq_ok_iff.mp h
    exact hopens.consumes

end Congestion
