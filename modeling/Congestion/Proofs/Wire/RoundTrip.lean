import Congestion.Proofs.Feedback.Retiming
import Congestion.Proofs.Wire.Writing
import Mathlib.Data.List.Forall2

/-!
# Reading back what was written

Only the low 32 bits of a report time are written, so a report is read back on a clock that may
differ from the receiver's by whole epochs of `2 ^ 32` milliseconds. `Report.readBack` is the
report on that clock. It is what the body of the report tells (`tells_readBack`), it has the same
body (`body_readBack`), and `EpochsApart` says what the shift leaves as it was.
-/

set_option autoImplicit false
set_option relaxedAutoImplicit false

namespace Congestion

/-! ### What the body of a report tells -/

namespace StreamArrivals

variable {b : StreamArrivals} {time : UInt64} {ssrc : UInt32}

/-- Each number of the range has one entry, with the word that is written for it. -/
theorem placed_block (b : StreamArrivals) (time : UInt64) (ssrc : UInt32) :
    (b.block time ssrc).placed = b.range.map fun seq ↦ ⟨ssrc, seq, b.entryOf time seq⟩ := by
  refine List.ext_getElem ?_ fun i hi hi' ↦ ?_
  · simp [StreamBlock.placed, length_block, length_range]
  · rw [List.length_map, length_range] at hi'
    have hseq : (b.block time ssrc).seqAt i = b.firstSeq + UInt16.ofNat i := by
      have hcount : UInt16.ofNat b.count = UInt16.ofNat (b.count - 1) + 1 := by
        conv_lhs => rw [show b.count = b.count - 1 + 1 by omega]
        exact UInt16.ofNat_add _ _
      rw [StreamBlock.seqAt, length_block, hcount, firstSeq]
      show b.lastSeq - _ + 1 + _ = _
      grind
    simpa [StreamBlock.placed, block, range] using hseq

theorem mem_placed_block {e : PlacedEntry} : e ∈ (b.block time ssrc).placed ↔
    e.ssrc = ssrc ∧ e.seq ∈ b.range ∧ e.word = b.entryOf time e.seq := by
  rw [placed_block, List.mem_map]
  constructor
  · rintro ⟨seq, hseq, rfl⟩
    exact ⟨rfl, hseq, rfl⟩
  · rintro ⟨rfl, hseq, hword⟩
    exact ⟨e.seq, hseq, by rw [← hword]⟩

end StreamArrivals

namespace Report

variable {r : Report}

theorem mem_placed_body {h} {e : PlacedEntry} : e ∈ (r.body h).placed ↔
    ∃ b, r.streams[e.ssrc]? = some b ∧ e.seq ∈ b.range ∧ e.word = b.entryOf r.time e.seq := by
  simp only [ReportBody.placed, body, List.flatMap_map, List.mem_flatMap, Prod.exists,
    mem_toList_iff, StreamArrivals.mem_placed_block]
  constructor
  · rintro ⟨ssrc, b, hb, rfl, hentry⟩
    exact ⟨b, hb, hentry⟩
  · rintro ⟨b, hb, hentry⟩
    exact ⟨e.ssrc, b, hb, rfl, hentry⟩

end Report

/-- An entry tells of an arrival when it has its mark and its distance from the report. -/
def PlacedEntry.TellsOf (e : PlacedEntry) (a : Arrival) (time : UInt64) : Prop :=
  e.received ∧ e.mark = a.mark.bits.toNat ∧ e.offset + a.time.toNat = time.toNat

theorem StreamArrivals.entryOf_tells {b : StreamArrivals} {time : UInt64} {e : PlacedEntry}
    {a : Arrival} (ha : b.get? e.seq = some a) (hword : e.word = b.entryOf time e.seq)
    (hle : a.time ≤ time) (hnear : a.Near time) : e.TellsOf a time := by
  have hoffset := hnear.toNat_le hle
  have htime := UInt64.le_iff_toNat_le.mp hle
  have hbits : a.mark.bits.toNat < 4 := a.mark.bits_lt
  have hnat : e.word.toNat =
      0x8000 + a.mark.bits.toNat * 0x2000 + (time.toNat - a.time.toNat) := by
    rw [hword, entryOf, ha]
    simp only [UInt16.toNat_add, UInt16.toNat_mul, UInt64.toNat_toUInt16, UInt8.toNat_toUInt16,
      UInt64.toNat_sub_of_le _ _ hle, UInt16.toNat_ofNat]
    omega
  refine ⟨(PlacedEntry.received_iff e).mpr ?_, ?_, ?_⟩
  · rw [UInt16.le_iff_toNat_le, hnat]
    simp
    omega
  · rw [PlacedEntry.mark, hnat]
    omega
  · rw [PlacedEntry.offset, hnat]
    omega

namespace Report

variable {r : Report}

/-- The received entries of the body are the arrivals of the report. -/
theorem tellsOf_of_placed (h : r.Writable) {e : PlacedEntry} (he : e ∈ (r.body h.counted).placed) :
    Option.elim (r.arrivals? e.ssrc e.seq) (e.received = false) (e.TellsOf · r.time) := by
  obtain ⟨b, hb, -, hword⟩ := mem_placed_body.mp he
  rw [arrivals?_of_stream hb]
  cases ha : b.get? e.seq with
  | none =>
    rw [StreamArrivals.entryOf, ha] at hword
    simp [PlacedEntry.received, hword]
  | some a =>
    have harrival := arrivals?_eq_some_iff.mpr ⟨b, hb, ha⟩
    exact StreamArrivals.entryOf_tells ha hword (h.dated _ _ a harrival) (h.near _ _ a harrival)

theorem exists_placed (h : r.Writable) {ssrc : UInt32} {seq : UInt16} {a : Arrival}
    (ha : r.arrivals? ssrc seq = some a) :
    ∃ e ∈ (r.body h.counted).placed, e.ssrc = ssrc ∧ e.seq = seq ∧ e.TellsOf a r.time := by
  obtain ⟨b, hb, hget⟩ := arrivals?_eq_some_iff.mp ha
  have hmem : seq ∈ b.arrivals := by
    by_contra hnot
    rw [(b.get?_eq_none_iff seq).mpr hnot] at hget
    cases hget
  let e : PlacedEntry := ⟨ssrc, seq, b.entryOf r.time seq⟩
  have he : e ∈ (r.body h.counted).placed :=
    mem_placed_body.mpr ⟨b, hb, StreamArrivals.mem_range_of_mem hmem, rfl⟩
  have htells := tellsOf_of_placed h he
  rw [show r.arrivals? e.ssrc e.seq = some a from ha] at htells
  exact ⟨e, he, rfl, rfl, htells⟩

theorem first?_body (h : r.Writable) (ssrc : UInt32) (seq : UInt16) :
    Option.Rel (fun a e ↦ e ∈ (r.body h.counted).placed ∧ e.TellsOf a r.time)
      (r.arrivals? ssrc seq) ((r.body h.counted).first? ssrc seq) := by
  cases hfirst : (r.body h.counted).first? ssrc seq with
  | none =>
    cases ha : r.arrivals? ssrc seq with
    | none => exact .none
    | some a =>
      obtain ⟨e, he, rfl, rfl, htells⟩ := exists_placed h ha
      have hnot := List.find?_eq_none.mp hfirst e he
      simp [htells.1] at hnot
  | some e =>
    have hmem := List.mem_of_find?_eq_some hfirst
    have hfound := List.find?_some hfirst
    simp only [Bool.and_eq_true, decide_eq_true_eq] at hfound
    obtain ⟨⟨hreceived, rfl⟩, rfl⟩ := hfound
    have htells := tellsOf_of_placed h hmem
    cases ha : r.arrivals? e.ssrc e.seq with
    | none =>
      rw [ha, Option.elim_none, hreceived] at htells
      cases htells
    | some a =>
      rw [ha] at htells
      exact .some ⟨hmem, htells⟩

/-! ### The clock of the decoded report -/

/-- Some arrival is further before the report than the low 32 bits of the report time reach. -/
def SpansEpoch (r : Report) : Prop :=
  ∃ s ∈ r.toList, ∃ e ∈ s.2.entries, r.time.toNat % 2 ^ 32 < r.time.toNat - e.2.time.toNat

instance (r : Report) : Decidable r.SpansEpoch :=
  inferInstanceAs (Decidable (∃ s ∈ r.toList, ∃ e ∈ s.2.entries, _))

theorem spansEpoch_iff : r.SpansEpoch ↔ ∃ ssrc seq a, r.arrivals? ssrc seq = some a ∧
    r.time.toNat % 2 ^ 32 < r.time.toNat - a.time.toNat := by
  unfold SpansEpoch
  simp only [Prod.exists, mem_toList_iff, StreamArrivals.mem_entries_iff, arrivals?_eq_some_iff]
  constructor
  · rintro ⟨ssrc, b, hb, seq, a, ha, hlt⟩
    exact ⟨ssrc, seq, a, ⟨b, hb, ha⟩, hlt⟩
  · rintro ⟨ssrc, seq, a, ⟨b, hb, ha⟩, hlt⟩
    exact ⟨ssrc, b, hb, seq, a, ha, hlt⟩

/-- The report as it is read back from its body. -/
def readBack (r : Report) (h : r.Writable) : Report :=
  r.retime (· + ((r.body h.counted).blank.time - r.time))

theorem time_readBack (h : r.Writable) : (r.readBack h).time = (r.body h.counted).blank.time := by
  show r.time + _ = _
  grind

theorem toNat_time_readBack (h : r.Writable) : (r.readBack h).time.toNat =
    r.time.toNat % 2 ^ 32 + if r.SpansEpoch then 2 ^ 32 else 0 := by
  have hlow : (r.body h.counted).low.toNat = r.time.toNat % 2 ^ 32 := by
    simp [body]
  have hlate : (∃ e ∈ (r.body h.counted).placed, e.received ∧
      (r.body h.counted).low.toNat < e.offset) ↔ r.SpansEpoch := by
    rw [spansEpoch_iff]
    constructor
    · rintro ⟨e, he, hreceived, hlt⟩
      have htells := tellsOf_of_placed h he
      cases ha : r.arrivals? e.ssrc e.seq with
      | none =>
        rw [ha, Option.elim_none, hreceived] at htells
        cases htells
      | some a =>
        rw [ha] at htells
        have := htells.2.2
        exact ⟨e.ssrc, e.seq, a, ha, by omega⟩
    · rintro ⟨ssrc, seq, a, ha, hlt⟩
      obtain ⟨e, he, -, -, hreceived, -, hoffset⟩ := exists_placed h ha
      exact ⟨e, he, hreceived, by omega⟩
  rw [hlow] at hlate
  rw [time_readBack, ReportBody.toNat_time_blank]
  simp only [hlow, hlate]

/-- On either clock an arrival is as far from the report. -/
theorem toNat_readBack (h : r.Writable) {ssrc : UInt32} {seq : UInt16} {a : Arrival}
    (ha : r.arrivals? ssrc seq = some a) :
    (a.time + ((r.body h.counted).blank.time - r.time)).toNat + r.time.toNat =
      (r.readBack h).time.toNat + a.time.toNat := by
  obtain ⟨e, he, -, -, hreceived, -, hoffset⟩ := exists_placed h ha
  have hacks := ReportBody.mem_acks_iff.mpr ⟨e, he, hreceived, rfl⟩
  have hreach := UInt64.le_iff_toNat_le.mp (ReportBody.offset_le_time hacks)
  rw [e.acknowledged_offset, ← time_readBack h] at hreach
  have hle := h.dated ssrc seq a ha
  have hdistance : (r.time - a.time).toNat = e.offset := by
    rw [UInt64.toNat_sub_of_le _ _ hle]
    omega
  have hshift : a.time + ((r.body h.counted).blank.time - r.time) =
      (r.readBack h).time - (r.time - a.time) := by
    rw [time_readBack]
    grind
  rw [hshift, UInt64.toNat_sub_of_le _ _ (by rw [UInt64.le_iff_toNat_le]; omega), hdistance]
  omega

theorem tells_readBack (h : r.Writable) : (r.body h.counted).Tells (r.readBack h) := by
  refine ⟨rfl, rfl, rfl, ?_, fun ssrc seq ↦ ?_, fun ssrc ↦ ?_⟩
  · rw [time_readBack, ReportBody.toNat_time_blank]
  · have hfirst := first?_body h ssrc seq
    rw [readBack, arrivals?_retime]
    cases ha : r.arrivals? ssrc seq with
    | none =>
      rw [ha] at hfirst
      generalize (r.body h.counted).first? ssrc seq = first at hfirst ⊢
      cases hfirst
      exact .none
    | some a =>
      have htime := toNat_readBack h ha
      rw [ha] at hfirst
      generalize (r.body h.counted).first? ssrc seq = first at hfirst ⊢
      cases hfirst with
      | some hentry =>
        obtain ⟨-, -, hmark, hoffset⟩ := hentry
        refine .some ⟨hmark.symm, ?_⟩
        show (a.time + _).toNat + _ = (r.readBack h).time.toNat
        omega
  · rw [stream?_isSome_iff]
    refine exists_congr fun seq ↦ ?_
    have hfirst := first?_body h ssrc seq
    rw [readBack, arrivals?_retime, Option.isSome_map]
    generalize (r.body h.counted).first? ssrc seq = first at hfirst ⊢
    generalize r.arrivals? ssrc seq = arrival at hfirst ⊢
    cases hfirst <;> simp

theorem wireLen_readBack (h : r.Writable) : (r.readBack h).wireLen = r.wireLen := by
  simp only [wireLen_eq_sum, readBack, toList_retime, List.map_map]
  congr 3
  funext s
  simp [StreamArrivals.wireLen]

theorem writable_readBack (h : r.Writable) : (r.readBack h).Writable := by
  have htime := toNat_time_readBack h
  have harrivals : ∀ ssrc seq a, (r.readBack h).arrivals? ssrc seq = some a →
      a.time.toNat ≤ (r.readBack h).time.toNat ∧
        (r.readBack h).time.toNat - a.time.toNat ≤ 8191 := by
    intro ssrc seq a ha
    rw [readBack, arrivals?_retime, Option.map_eq_some_iff] at ha
    obtain ⟨a, ha, rfl⟩ := ha
    have hle := UInt64.le_iff_toNat_le.mp (h.dated ssrc seq a ha)
    have hnear := (h.near ssrc seq a ha).toNat_le (h.dated ssrc seq a ha)
    have hsame := toNat_readBack h ha
    dsimp only [Arrival.retime]
    omega
  refine ⟨wireLen_readBack h ▸ h.fits, fun ssrc b hb ↦ ?_, fun ssrc seq a ha ↦ ?_,
    fun ssrc seq a ha ↦ UInt64.le_iff_toNat_le.mpr (harrivals ssrc seq a ha).1⟩
  · rw [readBack, streams_retime, Option.map_eq_some_iff] at hb
    obtain ⟨b, hb, rfl⟩ := hb
    rw [StreamArrivals.count_retime]
    exact h.counted ssrc b hb
  · have := harrivals ssrc seq a ha
    unfold Arrival.Near
    rw [toInt_toInt64, toInt_toInt64, if_pos (by split at htime <;> omega),
      if_pos (by split at htime <;> omega)]
    omega

theorem body_readBack (h : r.Writable) :
    (r.readBack h).body (writable_readBack h).counted = r.body h.counted := by
  have hlow : (r.readBack h).time.toUInt32 = r.time.toUInt32 := by
    apply UInt32.toNat_inj.mp
    rw [UInt64.toNat_toUInt32, UInt64.toNat_toUInt32, toNat_time_readBack h]
    split <;> omega
  have hblocks : ((r.readBack h).toList.map fun s ↦ s.2.block (r.readBack h).time s.1) =
      r.toList.map fun s ↦ s.2.block r.time s.1 := by
    rw [readBack, toList_retime, List.map_map]
    refine List.map_congr_left fun s _ ↦ ?_
    exact s.2.block_retime s.1 r.time fun t ↦ by grind
  unfold body
  simp only [hlow, hblocks]
  rfl

theorem opens_written (h : r.Writable) (rest : List UInt8) : (r.body h.counted).Opens
    (r.writtenHeader.encode ++ (r.body h.counted).bytes ++ rest) rest := by
  refine ⟨0x8d, (r.writtenHeader.length / 256).toUInt8, r.writtenHeader.length.toUInt8,
    ?_, by decide, by decide, ?_⟩
  · rw [List.append_assoc]
    rfl
  · have hlength := length_body h.counted
    have hfits := h.fits
    have hword : r.writtenHeader.length.toNat = r.wireLen / 4 - 1 :=
      UInt16.toNat_ofNat_of_lt (Nat.lt_succ_of_le hfits)
    have hwhole := r.wireLen_mod
    rw [Words.word_div_mod, hword]
    omega

/-- The two reports differ by whole epochs of the clock and in nothing else. -/
structure EpochsApart (r' r : Report) (epochs : Int) : Prop where
  sender : r'.sender = r.sender
  number : r'.number = r.number
  monitored : r'.monitored = r.monitored
  time : (r'.time.toNat : Int) = r.time.toNat + epochs * 2 ^ 32
  streams : r'.toList.map Prod.fst = r.toList.map Prod.fst
  countLast : ∀ ssrc, r'.countLast ssrc = r.countLast ssrc
  entries : ∀ ssrc, List.Forall₂ (fun e' e ↦ e'.1 = e.1 ∧ e'.2.mark = e.2.mark ∧
    (e'.2.time.toNat : Int) = e.2.time.toNat + epochs * 2 ^ 32) (r'.entries ssrc) (r.entries ssrc)

theorem epochsApart_readBack (h : r.Writable) : ∃ epochs, (r.readBack h).EpochsApart r epochs := by
  have htime := toNat_time_readBack h
  have hshift : ∃ epochs : Int,
      ((r.readBack h).time.toNat : Int) = r.time.toNat + epochs * 2 ^ 32 := by
    by_cases hspans : r.SpansEpoch
    · rw [if_pos hspans] at htime
      exact ⟨1 - r.time.toNat / 2 ^ 32, by omega⟩
    · rw [if_neg hspans] at htime
      exact ⟨- (r.time.toNat / 2 ^ 32), by omega⟩
  obtain ⟨epochs, hshift⟩ := hshift
  refine ⟨epochs, rfl, rfl, rfl, hshift, ?_, fun ssrc ↦ r.countLast_retime _ ssrc, fun ssrc ↦ ?_⟩
  · rw [readBack, toList_retime, List.map_map]
    rfl
  · rw [readBack, entries_retime, List.forall₂_map_left_iff, List.forall₂_same]
    rintro ⟨seq, a⟩ hentry
    have hsame := toNat_readBack h (mem_entries_iff.mp hentry)
    refine ⟨rfl, rfl, ?_⟩
    dsimp only [Arrival.retime]
    omega

theorem readBack_of_lt (h : r.Writable) (hlt : r.time.toNat < 2 ^ 32) : r.readBack h = r := by
  have htime := toNat_time_readBack h
  have hwithin : ¬ r.SpansEpoch := by
    rw [spansEpoch_iff]
    rintro ⟨ssrc, seq, a, -, hlate⟩
    omega
  have hsame : (r.body h.counted).blank.time = r.time := by
    rw [← time_readBack h]
    apply UInt64.toNat_inj.mp
    rw [htime, if_neg hwithin]
    omega
  have hclock : (· + ((r.body h.counted).blank.time - r.time)) = (id : UInt64 → UInt64) := by
    funext t
    rw [hsame]
    simp
  rw [readBack, hclock]
  exact r.retime_id

theorem decode_of_encode {bytes : List UInt8} (hencode : r.encode = .ok bytes) :
    ∃ h : r.Writable, decode bytes = (.ok (r.readBack h), []) := by
  obtain ⟨h, rfl⟩ := encode_eq_ok_iff.mp hencode
  have hopens := opens_written h []
  rw [List.append_nil] at hopens
  exact ⟨h, decode_of_opens hopens (tells_readBack h)⟩

/-- A report that is written is read back with nothing left of it, whole epochs of the clock
apart, and is written alike again. -/
theorem decode_encode {r : Report} {bytes : List UInt8} (hencode : r.encode = .ok bytes)
    (rest : List UInt8) : ∃ r' epochs, decode (bytes ++ rest) = (.ok r', rest) ∧
      r'.EpochsApart r epochs ∧
      r'.time.toNat = r.time.toNat % 2 ^ 32 + (if r.SpansEpoch then 2 ^ 32 else 0) ∧
      (r.time.toNat < 2 ^ 32 → r' = r) ∧ r'.encode = .ok bytes := by
  obtain ⟨h, rfl⟩ := encode_eq_ok_iff.mp hencode
  obtain ⟨epochs, hepochs⟩ := epochsApart_readBack h
  have hdecode := decode_of_opens (opens_written h rest) (tells_readBack h)
  refine ⟨r.readBack h, epochs, hdecode, hepochs, toNat_time_readBack h, readBack_of_lt h, ?_⟩
  rw [encode_of_writable (writable_readBack h), body_readBack h, writtenHeader, wireLen_readBack h]
  rfl

/-- Two packets on either side of the wrap of the clock and of the sequence numbers. -/
def aroundWrap : Report :=
  let blank : Report := { sender := 7, time := 0x100000002, number := 3, monitored := 50 }
  ((blank.record 9 65535 0xfffffff0 1).2.record 9 0 0x100000000 3).2

theorem decode_encode_aroundWrap : ∃ r' epochs,
    decode ([0x8d, 205, 0, 7, 0, 0, 0, 7, 0, 0, 0, 0, 0, 0, 0, 2, 0, 3, 0, 50,
      0, 0, 0, 9, 0, 2, 0, 0, 0xa0, 18, 0xe0, 2] ++ [1, 2, 3]) = (.ok r', [1, 2, 3]) ∧
      r'.EpochsApart aroundWrap epochs ∧
      r'.time.toNat = aroundWrap.time.toNat % 2 ^ 32 +
        (if aroundWrap.SpansEpoch then 2 ^ 32 else 0) ∧
      (aroundWrap.time.toNat < 2 ^ 32 → r' = aroundWrap) ∧
      r'.encode = .ok [0x8d, 205, 0, 7, 0, 0, 0, 7, 0, 0, 0, 0, 0, 0, 0, 2, 0, 3, 0, 50,
        0, 0, 0, 9, 0, 2, 0, 0, 0xa0, 18, 0xe0, 2] :=
  decode_encode (by decide +kernel) [1, 2, 3]

end Report

end Congestion
