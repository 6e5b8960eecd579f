import Congestion.Proofs.Wire.RoundTrip
import Mathlib.Algebra.Order.Ring.Nat
import Mathlib.Data.Set.List

/-!
# Datagrams

A `Slice` is a header that can be read with as much of a body as it announces. A header is read
from the bytes it is written as and from no others (`Header.decode_eq_ok_iff_encode`), so a packet
is read from the slice that an input begins with, and what follows is left as it is
(`Packet.decode_eq_ok_iff`). An input that begins with no packet is `Refused` for one of four
reasons, and there is no third case (`Packet.exists_slice_or_refused`).

A datagram is then a run of slices, all of them read or one of them refused (`packets_cut`). Packets
that are not reports are slices already, and a report that can be written is written as one
(`Report.slice`), so that what is written comes back (`packets_of_written`). The padding bit is
carried like the rest of a header: the padding itself stays in the payload.
-/

set_option autoImplicit false
set_option relaxedAutoImplicit false

namespace Congestion

/-! ### Headers -/

namespace Header

/-- The first byte of a header with the version that is read. -/
def firstByte (padding : Bool) (format : UInt8) : UInt8 :=
  0x80 + (if padding then 0x20 else 0) + format % 0x20

theorem firstByte_eq {first : UInt8} (hversion : first / 0x40 = 2) :
    firstByte (first / 0x20 % 2 = 1) (first % 0x20) = first := by
  have hversion := congrArg UInt8.toNat hversion
  have hpadding : first / 0x20 % 2 = 1 ↔ first.toNat / 0x20 % 2 = 1 := by
    rw [← UInt8.toNat_inj]
    simp
  apply UInt8.toNat_inj.mp
  simp only [firstByte, decide_eq_true_eq, hpadding]
  split <;> simp at hversion ⊢ <;> omega

theorem of_firstByte (padding : Bool) {format : UInt8} (hformat : format < 0x20) :
    firstByte padding format / 0x40 = 2 ∧
      padding = decide (firstByte padding format / 0x20 % 2 = 1) ∧
      format = firstByte padding format % 0x20 := by
  have hformat := UInt8.lt_iff_toNat_lt.mp hformat
  simp only [← UInt8.toNat_inj, firstByte]
  cases padding <;> simp at hformat ⊢ <;> omega

/-- A header is read from the bytes that it is written as, and from no others. -/
theorem decode_eq_ok_iff_encode {input rest : List UInt8} {h : Header} :
    decode input = (.ok h, rest) ↔ input = h.encode ++ rest ∧ h.format < 0x20 := by
  have hencode : h.encode = firstByte h.padding h.format :: h.packetType ::
      (h.length / 256).toUInt8 :: [h.length.toUInt8] := rfl
  rw [decode_eq_ok_iff, hencode]
  constructor
  · rintro ⟨first, high, low, rfl, hversion, hpadding, hformat, hlength⟩
    have hbytes : [(h.length / 256).toUInt8, h.length.toUInt8] = [high, low] := by
      rw [hlength]
      exact Words.bytes_word high low
    obtain ⟨hhigh, hlow⟩ := List.cons.inj hbytes
    refine ⟨?_, ?_⟩
    · rw [hpadding, hformat, firstByte_eq hversion, hhigh, hlow]
      rfl
    · rw [hformat, UInt8.lt_iff_toNat_lt]
      simp
      omega
  · rintro ⟨rfl, hformat⟩
    obtain ⟨hversion, hpadding, hformat⟩ := of_firstByte h.padding hformat
    exact ⟨_, _, _, rfl, hversion, hpadding, hformat, (Words.word_div_mod h.length).symm⟩

end Header

/-! ### Slices -/

/-- A header that can be read, with as much of a body as it announces. -/
structure Slice where
  header : Header
  body : List UInt8
  format_lt : header.format < 0x20
  length_body : body.length = header.bodySize

namespace Slice

variable (s : Slice) (rest : List UInt8)

def bytes : List UInt8 := s.header.encode ++ s.body

/-- A feedback report is read from its body, and any other packet is the slice. -/
def read : Outcome Packet :=
  if s.header.isReport then .feedback <$> Report.ofWords (Words.ofBytes s.body)
  else .ok (.other s.header s.body)

theorem decode_header : Header.decode (s.bytes ++ rest) = (.ok s.header, s.body ++ rest) :=
  Header.decode_eq_ok_iff_encode.mpr ⟨List.append_assoc .., s.format_lt⟩

theorem length_bytes : s.bytes.length = 4 * (s.header.length.toNat + 1) := by
  rw [bytes, List.length_append, s.length_body, Header.bodySize]
  simp [Header.encode, Words.bytes]
  omega

/-- What follows a slice is left as it is. -/
theorem decode_append : Packet.decode (s.bytes ++ rest) = (s.read, rest) := by
  have hbody : s.header.takeBody (s.body ++ rest) = (.ok s.body, rest) :=
    Header.takeBody_eq_ok_iff.mpr ⟨rfl, s.length_body⟩
  unfold Packet.decode read
  rw [s.decode_header rest]
  dsimp only
  rw [hbody]
  dsimp only
  split <;> rfl

theorem decode_bytes : Packet.decode s.bytes = (s.read, []) := by
  simpa using s.decode_append []

end Slice

/-! ### What is refused -/

/-- Why words are not those of a report: the second pair of them is not zero, or they end too
early. -/
def bodyDefect (words : List UInt16) : Rejection :=
  if 8 ≤ words.length ∧ (words.drop 2).take 2 ≠ [0, 0] then .invalidHeader .reservedStream
  else .truncated

/-- An input that begins with no packet, and why not. -/
inductive Refused : List UInt8 → Rejection → Prop
  | shortHeader {input : List UInt8} (h : input.length < 4) : Refused input .truncated
  | version {first : UInt8} {tail : List UInt8} (hlength : 3 ≤ tail.length)
      (hfirst : first / 0x40 ≠ 2) : Refused (first :: tail) (.invalidHeader .version)
  | shortBody {header : Header} {tail : List UInt8} (hformat : header.format < 0x20)
      (hlength : tail.length < header.bodySize) : Refused (header.encode ++ tail) .truncated
  | malformed {s : Slice} {rest : List UInt8} (hreport : s.header.isReport)
      (hbody : ∀ b : ReportBody, s.body ≠ b.bytes) :
      Refused (s.bytes ++ rest) (bodyDefect (Words.ofBytes s.body))

theorem StreamSection.readAll_eq_error {words : List UInt16} {e : Rejection}
    (h : readAll words = .error e) : e = .truncated := by
  fun_induction readAll words with
  | case1 => cases h
  | case2 => cases h; rfl
  | case3 => cases h
  | case4 _ _ _ _ _ _ _ _ hrest ih =>
    cases h
    exact ih hrest
  | case5 => cases h; rfl

theorem exists_fixed_of_le_length {words : List UInt16} (h : 8 ≤ words.length) :
    ∃ s₁ s₂ z₁ z₂ t₁ t₂ number monitored rest,
      words = s₁ :: s₂ :: z₁ :: z₂ :: t₁ :: t₂ :: number :: monitored :: rest := by
  match words, h with
  | s₁ :: s₂ :: z₁ :: z₂ :: t₁ :: t₂ :: number :: monitored :: rest, _ =>
    exact ⟨s₁, s₂, z₁, z₂, t₁, t₂, number, monitored, rest, rfl⟩

theorem Report.ofWords_of_no_body {words : List UInt16} (h : ∀ b : ReportBody, words ≠ b.words) :
    ofWords words = .error (.rejected (bodyDefect words)) := by
  unfold ofWords
  split
  next s₁ s₂ z₁ z₂ t₁ t₂ number monitored rest =>
    split
    next hzero =>
      have hwords : [z₁, z₂] = [0, 0] := by
        rw [← Words.split32_join32, hzero]
        rfl
      have hdefect : bodyDefect (s₁ :: s₂ :: z₁ :: z₂ :: t₁ :: t₂ :: number :: monitored :: rest) =
          .truncated := if_neg fun hnot ↦ hnot.2 hwords
      cases hread : StreamSection.readAll rest with
      | ok sections =>
        obtain ⟨b, hb⟩ := exists_body_of_readAll hzero hread
        exact absurd hb (h b)
      | error e =>
        rw [hdefect, StreamSection.readAll_eq_error hread]
        rfl
    next hzero =>
      have hwords : [z₁, z₂] ≠ [0, 0] := by
        intro heq
        cases heq
        exact hzero rfl
      rw [bodyDefect, if_pos ⟨by simp, hwords⟩]
  next hshort =>
    have hlength : ¬ 8 ≤ words.length := by
      intro hlength
      obtain ⟨_, _, _, _, _, _, _, _, _, hwords⟩ := exists_fixed_of_le_length hlength
      exact hshort _ _ _ _ _ _ _ _ _ hwords
    rw [bodyDefect, if_neg fun hlong ↦ hlength hlong.1]

theorem Slice.read_of_malformed {s : Slice} (hreport : s.header.isReport)
    (hbody : ∀ b : ReportBody, s.body ≠ b.bytes) :
    s.read = .error (.rejected (bodyDefect (Words.ofBytes s.body))) := by
  have heven : s.body.length % 2 = 0 := by
    rw [s.length_body, Header.bodySize]
    omega
  have hwords : ∀ b : ReportBody, Words.ofBytes s.body ≠ b.words := fun b hb ↦
    hbody b (by rw [ReportBody.bytes, ← hb, Words.toBytes_ofBytes heven])
  rw [read, if_pos hreport, Report.ofWords_of_no_body hwords]
  rfl

/-- A slice is read unless it is a report without a body of one. -/
theorem Slice.exists_read_or_refused (s : Slice) (rest : List UInt8) :
    (∃ p, s.read = .ok p) ∨ ∃ r, Refused (s.bytes ++ rest) r := by
  by_cases hreport : s.header.isReport
  · by_cases hbody : ∃ b : ReportBody, s.body = b.bytes
    · obtain ⟨b, hb⟩ := hbody
      obtain ⟨r, hr, -⟩ := b.ofWords_words
      refine Or.inl ⟨.feedback r, ?_⟩
      rw [read, if_pos hreport, hb, ReportBody.bytes, Words.ofBytes_toBytes, hr]
      rfl
    · exact Or.inr ⟨_, .malformed hreport fun b hb ↦ hbody ⟨b, hb⟩⟩
  · exact Or.inl ⟨_, if_neg hreport⟩

namespace Packet

theorem decode_of_refused {input : List UInt8} {r : Rejection} (h : Refused input r) :
    (decode input).1 = .error (.rejected r) := by
  cases h with
  | shortHeader h =>
    have hheader : Header.decode input = (.error .truncated, input) := by
      unfold Header.decode
      split
      · simp at h
        omega
      · rfl
    rw [decode, hheader]
  | @version first tail hlength hfirst =>
    have hheader : Header.decode (first :: tail) = (.error (.invalidHeader .version), tail) := by
      match tail, hlength with
      | packetType :: high :: low :: rest, _ => exact if_neg hfirst
    rw [decode, hheader]
  | @shortBody header tail hformat hlength =>
    have hheader : Header.decode (header.encode ++ tail) = (.ok header, tail) :=
      Header.decode_eq_ok_iff_encode.mpr ⟨rfl, hformat⟩
    have hbody : header.takeBody tail = (.error .truncated, tail) :=
      if_pos (by rw [List.length_take]; omega)
    rw [decode, hheader]
    dsimp only
    rw [hbody]
  | @malformed s rest hreport hbody =>
    rw [s.decode_append rest, s.read_of_malformed hreport hbody]

/-- Every input either begins with a packet or is refused. -/
theorem exists_slice_or_refused (input : List UInt8) :
    (∃ (s : Slice) (rest : List UInt8) (p : Packet), input = s.bytes ++ rest ∧ s.read = .ok p) ∨
      ∃ r, Refused input r := by
  match input with
  | first :: packetType :: high :: low :: tail =>
    by_cases hversion : first / 0x40 = 2
    · let header : Header :=
        { padding := first / 0x20 % 2 = 1, format := first % 0x20, packetType,
          length := Words.word high low }
      obtain ⟨hinput, hformat⟩ := Header.decode_eq_ok_iff_encode.mp
        (Header.decode_eq_ok_iff.mpr ⟨first, high, low, rfl, hversion, rfl, rfl, rfl⟩ :
          Header.decode (first :: packetType :: high :: low :: tail) = (.ok header, tail))
      rw [hinput]
      by_cases hbody : tail.length < header.bodySize
      · exact Or.inr ⟨_, .shortBody hformat hbody⟩
      · let s : Slice := ⟨header, tail.take header.bodySize, hformat, by simp; omega⟩
        have hbytes : header.encode ++ tail = s.bytes ++ tail.drop header.bodySize := by
          rw [Slice.bytes, List.append_assoc, List.take_append_drop]
        rw [hbytes]
        rcases s.exists_read_or_refused (tail.drop header.bodySize) with ⟨p, hp⟩ | hrefused
        · exact Or.inl ⟨s, _, p, rfl, hp⟩
        · exact Or.inr hrefused
    · exact Or.inr ⟨_, .version (by simp) hversion⟩
  | [] | [_] | [_, _] | [_, _, _] => exact Or.inr ⟨_, .shortHeader (by simp)⟩

theorem decode_eq_ok_iff {input rest : List UInt8} {p : Packet} :
    decode input = (.ok p, rest) ↔ ∃ s : Slice, input = s.bytes ++ rest ∧ s.read = .ok p := by
  constructor
  · intro h
    rcases exists_slice_or_refused input with ⟨s, rest', p', rfl, hread⟩ | ⟨r, hr⟩
    · rw [s.decode_append rest', hread] at h
      cases h
      exact ⟨s, rfl, hread⟩
    · have herror := decode_of_refused hr
      rw [h] at herror
      cases herror
  · rintro ⟨s, rfl, hread⟩
    rw [s.decode_append rest, hread]

end Packet

/-! ### Slices and what is written -/

/-- The packet is what is read of the bytes alone, which are as many as their header announces. Any
packet but a report is written as these bytes again. -/
structure Packet.ReadFrom (bytes : List UInt8) (p : Packet) : Prop where
  alone : Packet.decode bytes = (.ok p, [])
  announced : ∃ header tail, Header.decode bytes = (.ok header, tail) ∧
    bytes.length = 4 * (header.length.toNat + 1)
  untouched : ∀ header payload, p = .other header payload → ∀ buf : Buffer,
    buf.hasRoom bytes.length → p.encodeInto buf = (.ok (), buf.append bytes)

/-- The packet is written as these bytes wherever there is room for them. -/
structure Packet.WrittenAs (bytes : List UInt8) (p : Packet) : Prop where
  length : bytes.length = p.wireLen
  written : ∀ buf : Buffer, buf.hasRoom p.wireLen → p.encodeInto buf = (.ok (), buf.append bytes)

theorem Slice.wireLen_other (s : Slice) :
    s.bytes.length = (Packet.other s.header s.body).wireLen := by
  rw [s.length_bytes, Packet.wireLen, s.length_body, Header.bodySize]
  omega

theorem Slice.writtenAs_other (s : Slice) :
    Packet.WrittenAs s.bytes (.other s.header s.body) :=
  ⟨s.wireLen_other, fun _ hroom ↦ if_pos hroom⟩

theorem Slice.readFrom_iff {s : Slice} {p : Packet} :
    Packet.ReadFrom s.bytes p ↔ s.read = .ok p := by
  constructor
  · intro h
    have halone := h.alone
    rw [s.decode_bytes] at halone
    exact (Prod.mk.inj halone).1
  · intro hread
    refine ⟨by rw [s.decode_bytes, hread],
      ⟨s.header, s.body, by simpa using s.decode_header [], s.length_bytes⟩, ?_⟩
    rintro header payload rfl buf hroom
    have hsame : Packet.other s.header s.body = .other header payload := by
      unfold read at hread
      split at hread
      · obtain ⟨r, -, hr⟩ := map_eq_ok_iff.mp hread
        cases hr
      · exact Except.ok.inj hread
    rw [← hsame]
    exact s.writtenAs_other.written buf (s.wireLen_other ▸ hroom)

/-- Only a slice is the whole of what a packet is read from. -/
theorem Packet.ReadFrom.mem_range {bytes : List UInt8} {p : Packet}
    (h : Packet.ReadFrom bytes p) : bytes ∈ Set.range Slice.bytes := by
  obtain ⟨s, hbytes, -⟩ := Packet.decode_eq_ok_iff.mp h.alone
  exact ⟨s, by simpa using hbytes.symm⟩

theorem Packet.ReadFrom.exists_slices {chunks : List (List UInt8)}
    (h : ∀ bytes ∈ chunks, ∃ p, Packet.ReadFrom bytes p) :
    ∃ slices : List Slice, slices.map Slice.bytes = chunks := by
  have hrange : chunks ∈ Set.range (List.map Slice.bytes) := by
    rw [Set.range_list_map]
    exact fun bytes hbytes ↦ (h bytes hbytes).elim fun _ hp ↦ hp.mem_range
  exact hrange

namespace Report

variable {r : Report}

/-- The header of a report announces its body. -/
theorem length_writtenHeader (h : r.Writable) : r.writtenHeader.length.toNat = r.wireLen / 4 - 1 :=
  UInt16.toNat_ofNat_of_lt (Nat.lt_succ_of_le h.fits)

theorem format_writtenHeader_lt (r : Report) : r.writtenHeader.format < 0x20 :=
  show (13 : UInt8) < 0x20 by decide

theorem length_body_eq_bodySize (h : r.Writable) :
    (r.body h.counted).bytes.length = r.writtenHeader.bodySize := by
  have hlength := length_body h.counted
  have hwhole := r.wireLen_mod
  rw [Header.bodySize, length_writtenHeader h]
  omega

/-- The written form of a report. -/
def slice (h : r.Writable) : Slice where
  header := r.writtenHeader
  body := (r.body h.counted).bytes
  format_lt := r.format_writtenHeader_lt
  length_body := length_body_eq_bodySize h

theorem length_slice (h : r.Writable) : (r.slice h).bytes.length = r.wireLen := by
  have hlength := length_body h.counted
  rw [Slice.bytes, List.length_append, ← hlength]
  exact Nat.add_comm _ _

theorem read_slice (h : r.Writable) (hlt : r.time.toNat < 2 ^ 32) :
    (r.slice h).read = .ok (.feedback r) := by
  have hwords : ofWords (Words.ofBytes (r.body h.counted).bytes) = .ok r := by
    have htells := tells_readBack h
    rw [readBack_of_lt h hlt] at htells
    rw [ReportBody.bytes, Words.ofBytes_toBytes]
    exact ofWords_eq_ok_iff.mpr ⟨_, rfl, htells⟩
  show (if r.writtenHeader.isReport then _ else _) = _
  rw [if_pos (isReport_iff.mpr ⟨rfl, rfl⟩)]
  exact congrArg (Packet.feedback <$> ·) hwords

theorem writtenAs_slice (h : r.Writable) :
    Packet.WrittenAs (r.slice h).bytes (.feedback r) := by
  refine ⟨length_slice h, fun buf hroom ↦ ?_⟩
  have hroom : buf.hasRoom r.wireLen := hroom
  have hsize : r.writtenHeader.packetSize = r.wireLen := by
    have hlength := (r.slice h).length_bytes
    rw [length_slice h] at hlength
    exact (hlength.trans (Nat.mul_comm _ _)).symm
  have hwords := bodyWords_eq_ok_iff.mpr ⟨h.dated, rfl⟩
  show r.encodeInto buf = _
  unfold encodeInto
  rw [(writable_iff.mp h).1]
  dsimp only
  rw [hsize, if_pos hroom, hwords, ← words_body h.counted]
  rfl

end Report

namespace Packet

/-- A packet that comes back as it was written: a report that can be written, on a clock that has
not wrapped, or another packet with the payload that its header announces. -/
def Portable : Packet → Prop
  | .feedback r => (∃ bytes, r.encode = .ok bytes) ∧ r.time.toNat < 2 ^ 32
  | .other header payload => header.format ≤ 31 ∧
    ¬ (header.packetType = 205 ∧ header.format = 13) ∧
    payload.length = 4 * header.length.toNat

def report? : Packet → Option Report
  | .feedback r => some r
  | .other _ _ => none

theorem Portable.exists_slice {p : Packet} (hp : p.Portable) :
    ∃ s : Slice, s.read = .ok p ∧ WrittenAs s.bytes p := by
  cases p with
  | feedback r =>
    obtain ⟨⟨bytes, hencode⟩, hlt⟩ := hp
    obtain ⟨h, -⟩ := Report.encode_eq_ok_iff.mp hencode
    exact ⟨r.slice h, Report.read_slice h hlt, Report.writtenAs_slice h⟩
  | other header payload =>
    obtain ⟨hformat, hother, hlength⟩ := hp
    let s : Slice := ⟨header, payload, by grind, by rw [hlength, Header.bodySize, Nat.mul_comm]⟩
    refine ⟨s, ?_, s.writtenAs_other⟩
    exact if_neg fun hreport ↦ hother (Report.isReport_iff.mp hreport)

end Packet

/-! ### Cutting a datagram -/

namespace Datagram

theorem packets_of_decode {input rest : List UInt8} {p : Packet}
    (h : Packet.decode input = (.ok p, rest)) : packets input = (packets rest).map (p :: ·) := by
  cases input with
  | nil => cases h
  | cons b bs =>
    rw [packets]
    split
    next herror => rw [h] at herror; cases herror
    next hdecode =>
      rw [h] at hdecode
      cases hdecode
      cases packets rest <;> rfl

theorem packets_of_refused {input : List UInt8} {r : Rejection} (hne : input ≠ [])
    (h : Refused input r) : packets input = .error (.rejected r) := by
  have hdecode := Packet.decode_of_refused h
  cases input with
  | nil => exact absurd rfl hne
  | cons b bs =>
    rw [packets]
    split
    next herror => rw [herror] at hdecode; exact congrArg Except.error (Except.error.inj hdecode)
    next hok => rw [hok] at hdecode; cases hdecode

/-- The datagram is cut into slices, and every packet is read from its own. -/
theorem packets_eq_ok_iff {input : List UInt8} {ps : List Packet} : packets input = .ok ps ↔
    ∃ slices : List Slice, input = slices.flatMap Slice.bytes ∧
      List.Forall₂ (fun s p ↦ s.read = .ok p) slices ps := by
  constructor
  · intro h
    fun_induction packets input generalizing ps with
    | case1 =>
      cases h
      exact ⟨[], rfl, .nil⟩
    | case2 => cases h
    | case3 b bs p rest hdecode ps' hrest ih =>
      cases h
      obtain ⟨s, hinput, hread⟩ := Packet.decode_eq_ok_iff.mp hdecode
      obtain ⟨slices, rfl, hslices⟩ := ih hrest
      exact ⟨s :: slices, hinput, .cons hread hslices⟩
    | case4 => cases h
  · rintro ⟨slices, rfl, hslices⟩
    induction hslices with
    | nil => rw [List.flatMap_nil, packets]
    | cons hread _ ih =>
      rw [List.flatMap_cons, packets_of_decode (Packet.decode_eq_ok_iff.mpr ⟨_, rfl, hread⟩), ih]
      rfl

theorem packets_eq_error_iff {input : List UInt8} {e : Failure} : packets input = .error e ↔
    ∃ r, e = .rejected r ∧ ∃ (slices : List Slice) (rest : List UInt8),
      input = slices.flatMap Slice.bytes ++ rest ∧ (∀ s ∈ slices, ∃ p, s.read = .ok p) ∧
      rest ≠ [] ∧ Refused rest r := by
  constructor
  · intro h
    fun_induction packets input with
    | case1 => cases h
    | case2 b bs e' rest hdecode =>
      cases h
      rcases Packet.exists_slice_or_refused (b :: bs) with ⟨s, rest', p, hinput, hread⟩ | ⟨r, hr⟩
      · rw [Packet.decode_eq_ok_iff.mpr ⟨s, hinput, hread⟩] at hdecode
        cases hdecode
      · have herror := Packet.decode_of_refused hr
        rw [hdecode] at herror
        exact ⟨r, Except.error.inj herror, [], b :: bs, rfl, fun s hs ↦ (by cases hs),
          List.cons_ne_nil _ _, hr⟩
    | case3 => cases h
    | case4 b bs p rest hdecode e' hrest ih =>
      cases h
      obtain ⟨s, hinput, hread⟩ := Packet.decode_eq_ok_iff.mp hdecode
      obtain ⟨r, rfl, slices, refused, hcut, hslices, hne, hr⟩ := ih hrest
      refine ⟨r, rfl, s :: slices, refused, ?_, List.forall_mem_cons.mpr ⟨⟨p, hread⟩, hslices⟩,
        hne, hr⟩
      rw [hinput, hcut, List.flatMap_cons, List.append_assoc]
  · rintro ⟨r, rfl, slices, rest, rfl, hslices, hne, hr⟩
    induction slices with
    | nil => exact packets_of_refused hne hr
    | cons s slices ih =>
      obtain ⟨⟨p, hread⟩, hslices⟩ := List.forall_mem_cons.mp hslices
      rw [List.flatMap_cons, List.append_assoc,
        packets_of_decode (Packet.decode_eq_ok_iff.mpr ⟨s, rfl, hread⟩), ih hslices]
      rfl

/-- A datagram is read when it is cut into slices that are packets by themselves, each as long as
its header says, and in no other case. It is refused for the first of its packets that is. -/
theorem packets_cut (input : List UInt8) :
    (∀ ps, packets input = .ok ps ↔ ∃ slices : List (List UInt8), input = slices.flatten ∧
      List.Forall₂ Packet.ReadFrom slices ps) ∧
    ∀ e, packets input = .error e ↔ ∃ r, e = .rejected r ∧
      ∃ (slices : List (List UInt8)) (rest : List UInt8), input = slices.flatten ++ rest ∧
        (∀ bytes ∈ slices, ∃ p, Packet.ReadFrom bytes p) ∧ rest ≠ [] ∧ Refused rest r := by
  refine ⟨fun ps ↦ ?_, fun e ↦ ?_⟩
  · rw [packets_eq_ok_iff]
    constructor
    · rintro ⟨slices, rfl, hslices⟩
      exact ⟨slices.map Slice.bytes, List.flatMap_def,
        List.forall₂_map_left_iff.mpr (hslices.imp fun _ _ ↦ Slice.readFrom_iff.mpr)⟩
    · rintro ⟨chunks, rfl, hchunks⟩
      have heach : ∀ bytes ∈ chunks, ∃ p, Packet.ReadFrom bytes p :=
        ((List.forall₂_and_left _ _).mp (hchunks.imp fun _ p h ↦ ⟨⟨p, h⟩, h⟩)).1
      obtain ⟨slices, rfl⟩ := Packet.ReadFrom.exists_slices heach
      exact ⟨slices, List.flatMap_def.symm,
        (List.forall₂_map_left_iff.mp hchunks).imp fun _ _ ↦ Slice.readFrom_iff.mp⟩
  · rw [packets_eq_error_iff]
    have hread : ∀ slices : List Slice, (∀ s ∈ slices, ∃ p, s.read = .ok p) ↔
        ∀ bytes ∈ slices.map Slice.bytes, ∃ p, Packet.ReadFrom bytes p := by
      intro slices
      rw [List.forall_mem_map]
      simp only [Slice.readFrom_iff]
    constructor
    · rintro ⟨r, rfl, slices, rest, rfl, hslices, hrest⟩
      exact ⟨r, rfl, slices.map Slice.bytes, rest, rfl, (hread slices).mp hslices, hrest⟩
    · rintro ⟨r, rfl, chunks, rest, rfl, hchunks, hrest⟩
      obtain ⟨slices, rfl⟩ := Packet.ReadFrom.exists_slices hchunks
      exact ⟨r, rfl, slices, rest, rfl, (hread slices).mpr hchunks, hrest⟩

/-- Packets that are written one after the other are read again, and the reports among them are
the reports of the datagram.

Assumes: each of the packets is `Portable`. -/
theorem packets_of_written {ps : List Packet} (hps : ∀ p ∈ ps, p.Portable) :
    ∃ chunks : List (List UInt8), List.Forall₂ Packet.WrittenAs chunks ps ∧
      packets chunks.flatten = .ok ps ∧
      reports chunks.flatten = .ok (ps.filterMap Packet.report?) := by
  obtain ⟨slices, hslices, hwritten⟩ : ∃ slices : List Slice,
      List.Forall₂ (fun s p ↦ s.read = .ok p) slices ps ∧
      List.Forall₂ Packet.WrittenAs (slices.map Slice.bytes) ps := by
    induction ps with
    | nil => exact ⟨[], .nil, .nil⟩
    | cons p ps ih =>
      obtain ⟨hp, hps⟩ := List.forall_mem_cons.mp hps
      obtain ⟨s, hread, hs⟩ := hp.exists_slice
      obtain ⟨slices, hslices, hwritten⟩ := ih hps
      exact ⟨s :: slices, .cons hread hslices, .cons hs hwritten⟩
  have hpackets : packets (slices.map Slice.bytes).flatten = .ok ps :=
    packets_eq_ok_iff.mpr ⟨slices, (List.flatMap_def ..).symm, hslices⟩
  refine ⟨slices.map Slice.bytes, hwritten, hpackets, ?_⟩
  rw [reports, hpackets]
  rfl

/-- A receiver report, a feedback report on two packets, and a padded packet of the feedback's type
in another format and without a body. -/
def mixed : List Packet :=
  let blank : Report := { sender := 7, time := 52, number := 3, monitored := 50 }
  [.other ⟨false, 1, 201, 1⟩ [0, 0, 0, 42],
   .feedback ((blank.record 9 65535 40 1).2.record 9 0 50 3).2,
   .other ⟨true, 31, 205, 0⟩ []]

theorem packets_of_written_mixed : ∃ chunks : List (List UInt8),
    List.Forall₂ Packet.WrittenAs chunks mixed ∧ packets chunks.flatten = .ok mixed ∧
      reports chunks.flatten = .ok (mixed.filterMap Packet.report?) := by
  refine packets_of_written ?_
  simp only [mixed, List.forall_mem_cons]
  refine ⟨⟨by decide, by decide, by decide⟩, ⟨⟨?_, ?_⟩, by decide +kernel⟩,
    ⟨by decide, by decide, by decide⟩, by simp⟩
  · exact [0x8d, 205, 0, 7, 0, 0, 0, 7, 0, 0, 0, 0, 0, 0, 0, 52, 0, 3, 0, 50,
      0, 0, 0, 9, 0, 2, 0, 0, 0xa0, 12, 0xe0, 2]
  · decide +kernel

end Datagram

end Congestion
