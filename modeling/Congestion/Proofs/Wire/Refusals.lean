import Mathlib.Data.List.TakeWhile
import Congestion.Proofs.Wire.Datagrams

/-!
# Reports that are not written

Before a report touches the buffer its size is checked, and then of each stream in turn the count
and every arrival. `Report.Passes` is what these checks let through. While all times are in the
lower half of the 64-bit clock nothing else but room is needed: such a report is written as a whole,
and any other is refused with the buffer as it was (`encodeInto_whole_or_nothing`).

The checks look at the distance of two times as signed words, and writing at their difference as
unsigned ones. The two part in the upper half of the clock. The distance of times close to each
other but `Astride` of the middle is no signed word, and the checks themselves fault on it. Where
the clock has `Wrapped` since an arrival the checks let it through, and its difference is no
unsigned word once it is to be written. By then the report is in the buffer up to that entry
(`Report.part`): its header tells of more bytes than there are (`length_part`). There is no third
way to a fault (`encodeInto_faults_iff`), and both can be met (`encodeInto_faults_acrossWrap`).
-/

set_option autoImplicit false
set_option relaxedAutoImplicit false

namespace Congestion

/-! ### Distances between two times -/

namespace Arrival

variable {a : Arrival} {time : UInt64}

/-- The middle of the clock lies between the two times, which are not further apart than that. -/
def Astride (a : Arrival) (time : UInt64) : Prop :=
  time.toNat < 0x8000000000000000 ∧ 0x8000000000000000 ≤ a.time.toNat ∧
      a.time.toNat ≤ time.toNat + 0x8000000000000000 ∨
    a.time.toNat < 0x8000000000000000 ∧ 0x8000000000000000 ≤ time.toNat ∧
      time.toNat < a.time.toNat + 0x8000000000000000

/-- The clock has started again from zero between the two times, which are at most 8191 milliseconds
apart. -/
def Wrapped (a : Arrival) (time : UInt64) : Prop :=
  time.toNat + 0x10000000000000000 ≤ a.time.toNat + 8191

theorem astride_iff : a.Astride time ↔
    time.toInt64.toInt - a.time.toInt64.toInt < -0x8000000000000000 ∨
      0x7fffffffffffffff < time.toInt64.toInt - a.time.toInt64.toInt := by
  have htime := time.toNat_lt
  have harrival := a.time.toNat_lt
  unfold Astride
  rw [toInt_toInt64, toInt_toInt64]
  split <;> split <;> omega

theorem near_and_lt_iff : a.Near time ∧ time < a.time ↔ a.Wrapped time := by
  have htime := time.toNat_lt
  have harrival := a.time.toNat_lt
  rw [UInt64.lt_iff_toNat_lt]
  unfold Near Wrapped
  rw [toInt_toInt64, toInt_toInt64]
  split <;> split <;> omega

theorem near_iff_of_lt (htime : time.toNat < 0x8000000000000000)
    (harrival : a.time.toNat < 0x8000000000000000) :
    a.Near time ↔ a.time.toNat ≤ time.toNat ∧ time.toNat - a.time.toNat ≤ 8191 := by
  unfold Near
  rw [toInt_toInt64, toInt_toInt64, if_pos htime, if_pos harrival]
  omega

end Arrival

/-! ### Checks -/

namespace StreamArrivals

variable {b : StreamArrivals} {time : UInt64} {ssrc : UInt32} {f : Fault}

/-- What the checks let through of a stream. -/
structure Passes (b : StreamArrivals) (time : UInt64) : Prop where
  counted : b.count ≤ 65535
  near : ∀ seq a, b.get? seq = some a → a.Near time

/-- The first thing that the checks come upon in the stream is an arrival whose distance is no
signed word. -/
structure MeetsAstride (b : StreamArrivals) (time : UInt64) : Prop where
  counted : b.count ≤ 65535
  met : ∃ earlier seq a later, b.entries = earlier ++ (seq, a) :: later ∧
    (∀ e ∈ earlier, e.2.Near time) ∧ a.Astride time

theorem check_eq_ok_iff_passes : b.check time ssrc = .ok () ↔ b.Passes time :=
  check_eq_ok_iff.trans ⟨fun ⟨hcounted, hnear⟩ ↦ ⟨hcounted, hnear⟩, fun h ↦ ⟨h.counted, h.near⟩⟩

theorem checkArrival_eq_fault_iff {entry : UInt16 × Arrival} :
    checkArrival time ssrc entry = .error (.fault f) ↔ f = .overflow ∧ entry.2.Astride time := by
  rw [Arrival.astride_iff, ← signed64_eq_error_iff]
  unfold checkArrival
  cases hoffset : signed64 (time.toInt64.toInt - entry.2.time.toInt64.toInt) with
  | error f' =>
    constructor
    · intro h
      cases h
      rfl
    · intro h
      cases h
      rfl
  | ok offset =>
    refine ⟨fun h ↦ ?_, fun h ↦ by cases h⟩
    replace h : (if offset < 0 ∨ 8191 < offset then
      throw (.rejected (.arrivalOffset ssrc entry.1 offset)) else pure () : Outcome Unit) =
        .error (.fault f) := h
    split at h <;> cases h

theorem check_eq_fault_iff :
    b.check time ssrc = .error (.fault f) ↔ f = .overflow ∧ b.MeetsAstride time := by
  rw [check_eq]
  split
  next hcount =>
    exact ⟨fun h ↦ (by cases h), fun ⟨_, h⟩ ↦ absurd hcount (Nat.not_lt.mpr h.counted)⟩
  next hcount =>
    simp only [forM_eq_error_iff, checkArrival_eq_ok_iff, checkArrival_eq_fault_iff]
    constructor
    · rintro ⟨earlier, ⟨seq, a⟩, later, hentries, hnear, rfl, hastride⟩
      exact ⟨rfl, Nat.not_lt.mp hcount, earlier, seq, a, later, hentries, hnear, hastride⟩
    · rintro ⟨rfl, -, earlier, seq, a, later, hentries, hnear, hastride⟩
      exact ⟨earlier, (seq, a), later, hentries, hnear, rfl, hastride⟩

/-- Were no entry left out, the stream would be written as a whole. -/
theorem length_entriesBefore_lt (herror : b.words time ssrc = .error f) :
    (b.entriesBefore time).length < b.count := by
  have hfront := List.takeWhile_prefix (l := b.range.map (b.entryWord time)) Except.isOk
  have hlength : (b.range.map (b.entryWord time)).length = b.count := by
    rw [List.length_map, length_range]
  refine Nat.lt_of_le_of_lt (List.length_filterMap_le _ _) ?_
  refine hlength ▸ Nat.lt_of_le_of_ne hfront.length_le fun hwhole ↦ ?_
  have hall := List.takeWhile_eq_self_iff.mp (hfront.eq_of_length hwhole)
  have hdated : ∀ seq a, b.get? seq = some a → a.time ≤ time := by
    intro seq a ha
    have hentry := hall _ (List.mem_map_of_mem (mem_range_of_get? ha))
    obtain ⟨word, hword⟩ := isOk_iff.mp hentry
    exact (entryWord_eq_ok_iff.mp hword).1 a ha
  cases herror.symm.trans (words_eq_ok_iff.mpr ⟨hdated, rfl⟩)

/-- A stream that is broken off is written with its first words and without all of its entries. -/
theorem length_wordsBefore (herror : b.words time ssrc = .error f) :
    4 ≤ (b.wordsBefore time ssrc).length ∧ 2 * (b.wordsBefore time ssrc).length < b.wireLen := by
  have hentries := length_entriesBefore_lt herror
  have hlength : (b.wordsBefore time ssrc).length = 4 + (b.entriesBefore time).length := by
    simp [wordsBefore, Words.split32]
    omega
  unfold wireLen
  omega

end StreamArrivals

namespace Report

variable {r : Report} {buf : Buffer} {f : Fault}

theorem forall_arrivals?_iff {p : Arrival → Prop} :
    (∀ ssrc seq a, r.arrivals? ssrc seq = some a → p a) ↔
      ∀ s ∈ r.toList, ∀ e ∈ s.2.entries, p e.2 := by
  simp only [arrivals?_eq_some_iff, Prod.forall, mem_toList_iff, StreamArrivals.mem_entries_iff]
  constructor
  · exact fun h ssrc b hb seq a ha ↦ h ssrc seq a ⟨b, hb, ha⟩
  · rintro h ssrc seq a ⟨b, hb, ha⟩
    exact h ssrc b hb seq a ha

/-- What the checks let through. -/
structure Passes (r : Report) : Prop where
  fits : r.wireLen ≤ 262144
  streams : ∀ (ssrc : UInt32) (b : StreamArrivals), r.streams[ssrc]? = some b → b.Passes r.time

/-- The first thing that the checks come upon, past the size of the report, is an arrival whose
distance is no signed word. -/
structure MeetsAstride (r : Report) : Prop where
  fits : r.wireLen ≤ 262144
  met : ∃ before s after, r.toList = before ++ s :: after ∧
    (∀ s' ∈ before, s'.2.Passes r.time) ∧ s.2.MeetsAstride r.time

theorem fits_iff : r.wireLen / 4 - 1 ≤ 65535 ↔ r.wireLen ≤ 262144 := by
  have hwhole := r.wireLen_mod
  omega

theorem check_eq_ok_iff_passes {header : Header} :
    r.check = .ok header ↔ r.Passes ∧ header = r.writtenHeader := by
  simp only [check_eq_ok_iff, fits_iff, StreamArrivals.check_eq_ok_iff_passes]
  constructor
  · rintro ⟨⟨hfits, hheader⟩, hstreams⟩
    exact ⟨⟨hfits, hstreams⟩, hheader⟩
  · rintro ⟨h, hheader⟩
    exact ⟨⟨h.fits, hheader⟩, h.streams⟩

theorem check_eq_fault_iff : r.check = .error (.fault f) ↔ f = .overflow ∧ r.MeetsAstride := by
  have hstreams : (r.toList.forM fun s ↦ s.2.check r.time s.1) = .error (.fault f) ↔
      ∃ before s after, r.toList = before ++ s :: after ∧ (∀ s' ∈ before, s'.2.Passes r.time) ∧
        f = .overflow ∧ s.2.MeetsAstride r.time := by
    simp only [forM_eq_error_iff, StreamArrivals.check_eq_ok_iff_passes,
      StreamArrivals.check_eq_fault_iff]
  have hheader : r.header = .ok r.writtenHeader ↔ r.wireLen ≤ 262144 := by
    rw [header_eq_ok_iff, fits_iff]
    exact and_iff_left rfl
  unfold check
  cases h : r.header with
  | error rejection =>
    constructor
    · intro hfault
      cases hfault
    · rintro ⟨-, hmeets⟩
      rw [hheader.mpr hmeets.fits] at h
      cases h
  | ok header =>
    have hfits : r.wireLen ≤ 262144 := fits_iff.mp (header_eq_ok_iff.mp h).1
    have hrest : (r.toList.forM (fun s ↦ s.2.check r.time s.1) >>= fun _ ↦ pure header :
        Outcome Header) = .error (.fault f) ↔
        (r.toList.forM fun s ↦ s.2.check r.time s.1) = .error (.fault f) := by
      rw [bind_eq_error_iff]
      exact or_iff_left fun ⟨_, _, hpure⟩ ↦ by cases hpure
    refine hrest.trans (hstreams.trans ⟨?_, ?_⟩)
    · rintro ⟨before, s, after, hsplit, hbefore, rfl, hmeets⟩
      exact ⟨rfl, hfits, before, s, after, hsplit, hbefore, hmeets⟩
    · rintro ⟨rfl, -, before, s, after, hsplit, hbefore, hmeets⟩
      exact ⟨before, s, after, hsplit, hbefore, rfl, hmeets⟩

theorem writable_iff_passes : r.Writable ↔
    r.Passes ∧ ∀ ssrc seq a, r.arrivals? ssrc seq = some a → a.time ≤ r.time := by
  simp only [writable_iff, check_eq_ok_iff_passes, bodyWords_eq_ok_iff, and_true]
  exact and_congr_right fun _ ↦ ⟨fun ⟨_, hdated, _⟩ ↦ hdated, fun hdated ↦ ⟨_, hdated, rfl⟩⟩

/-- Only an arrival after the report keeps a body from being written. -/
theorem bodyWords_eq_error_iff : (∃ f, r.bodyWords = .error f) ↔
    ∃ ssrc seq a, r.arrivals? ssrc seq = some a ∧ r.time < a.time := by
  have hanswered : (∃ f, r.bodyWords = .error f) ↔ ¬ ∃ ws, r.bodyWords = .ok ws := by
    cases r.bodyWords <;> simp
  simp only [hanswered, bodyWords_eq_ok_iff, exists_and_left, exists_eq, and_true, not_forall,
    UInt64.not_le, exists_prop]

/-- Of some streams of which one is broken off, at least the first words of one are written. -/
theorem length_wordsBefore {time : UInt64} {streams : List (UInt32 × StreamArrivals)}
    (hbroken : ∃ s ∈ streams, ∃ f, s.2.words time s.1 = .error f) :
    4 ≤ (wordsBefore time streams).length ∧
      2 * (wordsBefore time streams).length < (streams.map fun s ↦ s.2.wireLen).sum := by
  induction streams with
  | nil => simp at hbroken
  | cons s rest ih =>
    obtain ⟨ssrc, b⟩ := s
    rw [List.map_cons, List.sum_cons]
    unfold wordsBefore
    cases hwords : b.words time ssrc with
    | error f =>
      obtain ⟨hlow, hhigh⟩ := b.length_wordsBefore hwords
      exact ⟨hlow, Nat.lt_add_right _ hhigh⟩
    | ok words =>
      have hrest : ∃ s ∈ rest, ∃ f, s.2.words time s.1 = .error f := by
        obtain ⟨s, hs, f, hf⟩ := hbroken
        rcases List.mem_cons.mp hs with rfl | hs
        · cases hwords.symm.trans hf
        · exact ⟨s, hs, f, hf⟩
      obtain ⟨hlow, hhigh⟩ := ih hrest
      have hlength : words.length * 2 = b.wireLen := by
        rw [(StreamArrivals.words_eq_ok_iff.mp hwords).2, StreamArrivals.length_words_block]
      dsimp only
      rw [List.length_append]
      omega

/-- What is written of a report up to the first entry that cannot be told. -/
def part (r : Report) : List UInt8 :=
  r.writtenHeader.encode ++ Words.toBytes (r.fixedWords ++ wordsBefore r.time r.toList)

theorem length_part (herror : r.bodyWords = .error f) :
    28 ≤ r.part.length ∧ r.part.length < r.wireLen := by
  obtain ⟨ssrc, seq, a, ha, hlate⟩ := bodyWords_eq_error_iff.mp ⟨f, herror⟩
  obtain ⟨b, hb, ha⟩ := arrivals?_eq_some_iff.mp ha
  have hbroken : ∃ s ∈ r.toList, ∃ f, s.2.words r.time s.1 = .error f := by
    refine ⟨(ssrc, b), mem_toList_iff.mpr hb, ?_⟩
    cases hwords : b.words r.time ssrc with
    | error f => exact ⟨f, rfl⟩
    | ok words =>
      have hle := (StreamArrivals.words_eq_ok_iff.mp hwords).1 seq a ha
      exact absurd hlate (UInt64.not_lt.mpr hle)
  obtain ⟨hlow, hhigh⟩ := length_wordsBefore hbroken
  have hlength : r.part.length = 20 + 2 * (wordsBefore r.time r.toList).length := by
    simp [part, Header.encode, Words.bytes, fixedWords, Words.split32]
    omega
  rw [hlength, r.wireLen_eq_sum]
  omega

/-! ### What becomes of a report -/

theorem packetSize_writtenHeader (h : r.Passes) : r.writtenHeader.packetSize = r.wireLen := by
  have hword : r.writtenHeader.length.toNat = r.wireLen / 4 - 1 :=
    UInt16.toNat_ofNat_of_lt (Nat.lt_succ_of_le (fits_iff.mpr h.fits))
  have hwhole := r.wireLen_mod
  have hsum := r.wireLen_eq_sum
  rw [Header.packetSize, hword]
  omega

/-- All that can become of a report. -/
theorem encodeInto_cases (r : Report) (buf : Buffer) :
    (∃ e, r.check = .error e ∧ r.encodeInto buf = (.error e, buf)) ∨
    (r.Passes ∧ ¬ buf.hasRoom r.wireLen ∧
      r.encodeInto buf = (.error (.rejected .truncated), buf)) ∨
    (r.Passes ∧ buf.hasRoom r.wireLen ∧
      ∃ f, r.bodyWords = .error f ∧ r.encodeInto buf = (.error (.fault f), buf.append r.part)) ∨
    (buf.hasRoom r.wireLen ∧
      ∃ h : r.Writable, r.encodeInto buf = (.ok (), buf.append (r.slice h).bytes)) := by
  unfold encodeInto
  cases hcheck : r.check with
  | error e => exact Or.inl ⟨e, rfl, rfl⟩
  | ok header =>
    obtain ⟨hpasses, rfl⟩ := check_eq_ok_iff_passes.mp hcheck
    refine Or.inr ?_
    dsimp only
    rw [packetSize_writtenHeader hpasses]
    by_cases hroom : buf.hasRoom r.wireLen
    · rw [if_pos hroom]
      cases hwords : r.bodyWords with
      | error f => exact Or.inr (Or.inl ⟨hpasses, hroom, f, rfl, rfl⟩)
      | ok words =>
        obtain ⟨hdated, rfl⟩ := bodyWords_eq_ok_iff.mp hwords
        have h : r.Writable := writable_iff_passes.mpr ⟨hpasses, hdated⟩
        refine Or.inr (Or.inr ⟨hroom, h, ?_⟩)
        rw [← words_body h.counted]
        rfl
    · rw [if_neg hroom]
      exact Or.inl ⟨hpasses, hroom, rfl⟩

theorem encodeInto_of_writable (h : r.Writable) (hroom : buf.hasRoom r.wireLen) :
    r.encodeInto buf = (.ok (), buf.append (r.slice h).bytes) :=
  (writtenAs_slice h).written buf hroom

theorem encodeInto_eq_ok_iff : (r.encodeInto buf).1 = .ok () ↔
    r.Writable ∧ buf.hasRoom r.wireLen := by
  refine ⟨fun hok ↦ ?_, fun ⟨h, hroom⟩ ↦ congrArg Prod.fst (encodeInto_of_writable h hroom)⟩
  rcases encodeInto_cases r buf with ⟨e, -, heq⟩ | ⟨-, -, heq⟩ | ⟨-, -, f, -, heq⟩ | ⟨hroom, h, -⟩
  · rw [heq] at hok
    cases hok
  · rw [heq] at hok
    cases hok
  · rw [heq] at hok
    cases hok
  · exact ⟨h, hroom⟩

/-- A report that is rejected does not touch the buffer. -/
theorem encodeInto_snd_of_rejected {rejection : Rejection}
    (hrejected : (r.encodeInto buf).1 = .error (.rejected rejection)) :
    (r.encodeInto buf).2 = buf := by
  rcases encodeInto_cases r buf with ⟨e, -, heq⟩ | ⟨-, -, heq⟩ | ⟨-, -, f, -, heq⟩ | ⟨-, h, heq⟩
  · rw [heq]
  · rw [heq]
  · rw [heq] at hrejected
    cases hrejected
  · rw [heq] at hrejected
    cases hrejected

theorem encodeInto_eq_fault_iff : (∃ f, (r.encodeInto buf).1 = .error (.fault f)) ↔
    r.MeetsAstride ∨ r.Passes ∧ buf.hasRoom r.wireLen ∧
      ∃ ssrc seq a, r.arrivals? ssrc seq = some a ∧ a.Wrapped r.time := by
  have hwrapped (hpasses : r.Passes) : (∃ f, r.bodyWords = .error f) ↔
      ∃ ssrc seq a, r.arrivals? ssrc seq = some a ∧ a.Wrapped r.time := by
    rw [bodyWords_eq_error_iff]
    refine exists_congr fun ssrc ↦ exists_congr fun seq ↦ exists_congr fun a ↦ ?_
    refine and_congr_right fun ha ↦ ?_
    obtain ⟨b, hb, ha⟩ := arrivals?_eq_some_iff.mp ha
    rw [← Arrival.near_and_lt_iff]
    exact (and_iff_right ((hpasses.streams ssrc b hb).near seq a ha)).symm
  constructor
  · rintro ⟨f, hfault⟩
    rcases encodeInto_cases r buf with
      ⟨e, hcheck, heq⟩ | ⟨-, -, heq⟩ | ⟨hpasses, hroom, f', hwords, heq⟩ | ⟨-, h, heq⟩
    · rw [heq] at hfault
      cases hfault
      exact Or.inl (check_eq_fault_iff.mp hcheck).2
    · rw [heq] at hfault
      cases hfault
    · exact Or.inr ⟨hpasses, hroom, (hwrapped hpasses).mp ⟨f', hwords⟩⟩
    · rw [heq] at hfault
      cases hfault
  · rintro (hmeets | ⟨hpasses, hroom, hwrap⟩)
    · refine ⟨.overflow, ?_⟩
      rw [encodeInto, check_eq_fault_iff.mpr ⟨rfl, hmeets⟩]
    · obtain ⟨f, hwords⟩ := (hwrapped hpasses).mpr hwrap
      refine ⟨f, ?_⟩
      rw [encodeInto, check_eq_ok_iff_passes.mpr ⟨hpasses, rfl⟩]
      dsimp only
      rw [packetSize_writtenHeader hpasses, if_pos hroom, hwords]

/-- While no time is in the upper half of the clock, a report is written when its size and its
counts fit their fields, every arrival is at most 8191 milliseconds before it and there is room for
it, and in no other case. It is then written as a whole, with as many bytes as its header tells.
Otherwise it is rejected, and the buffer is left as it was.

Assumes: the report and its arrivals are in the lower half of the 64-bit clock. -/
theorem encodeInto_whole_or_nothing (htime : r.time.toNat < 2 ^ 63)
    (harrivals : ∀ ssrc seq a, r.arrivals? ssrc seq = some a → a.time.toNat < 2 ^ 63)
    (buf : Buffer) :
    ((r.encodeInto buf).1 = .ok () ↔
      r.wireLen ≤ 262144 ∧
      (∀ ssrc b, r.stream? ssrc = some b → b.count ≤ 65535) ∧
      (∀ ssrc seq a, r.arrivals? ssrc seq = some a →
        a.time.toNat ≤ r.time.toNat ∧ r.time.toNat - a.time.toNat ≤ 8191) ∧
      ∀ room, buf.room = some room → r.wireLen ≤ room) ∧
    ((r.encodeInto buf).1 = .ok () → ∃ bytes header body,
      (r.encodeInto buf).2 = buf.append bytes ∧ bytes.length = r.wireLen ∧ r.wireLen % 4 = 0 ∧
      Header.decode bytes = (.ok header, body) ∧ r.wireLen = 4 * (header.length.toNat + 1)) ∧
    ((r.encodeInto buf).1 ≠ .ok () →
      (∃ rejection, (r.encodeInto buf).1 = .error (.rejected rejection)) ∧
        (r.encodeInto buf).2 = buf) := by
  have hnear : ∀ ssrc seq a, r.arrivals? ssrc seq = some a → (a.Near r.time ↔
      a.time.toNat ≤ r.time.toNat ∧ r.time.toNat - a.time.toNat ≤ 8191) :=
    fun ssrc seq a ha ↦ Arrival.near_iff_of_lt htime (harrivals ssrc seq a ha)
  have hroom : buf.hasRoom r.wireLen ↔ ∀ room, buf.room = some room → r.wireLen ≤ room := by
    simp [Buffer.hasRoom, Option.all_eq_true]
  refine ⟨?_, fun hok ↦ ?_, fun hne ↦ ?_⟩
  · rw [encodeInto_eq_ok_iff, hroom]
    constructor
    · rintro ⟨h, hroom⟩
      exact ⟨fits_iff.mp h.fits, h.counted,
        fun ssrc seq a ha ↦ (hnear ssrc seq a ha).mp (h.near ssrc seq a ha), hroom⟩
    · rintro ⟨hfits, hcounted, hclose, hroom⟩
      refine ⟨⟨fits_iff.mpr hfits, hcounted, fun ssrc seq a ha ↦ ?_, fun ssrc seq a ha ↦ ?_⟩, hroom⟩
      · exact (hnear ssrc seq a ha).mpr (hclose ssrc seq a ha)
      · exact UInt64.le_iff_toNat_le.mpr (hclose ssrc seq a ha).1
  · obtain ⟨h, hroom⟩ := encodeInto_eq_ok_iff.mp hok
    have hlength := length_slice h
    have hheader := (r.slice h).decode_header []
    rw [List.append_nil] at hheader
    refine ⟨(r.slice h).bytes, r.writtenHeader, _, ?_, hlength, r.wireLen_mod, hheader, ?_⟩
    · rw [encodeInto_of_writable h hroom]
    · rw [← hlength]
      exact (r.slice h).length_bytes
  · cases houtcome : (r.encodeInto buf).1 with
    | ok => exact absurd houtcome hne
    | error e =>
      cases e with
      | rejected rejection => exact ⟨⟨rejection, rfl⟩, encodeInto_snd_of_rejected houtcome⟩
      | fault f =>
        -- of two times in the lower half neither fault can be met
        rcases encodeInto_eq_fault_iff.mp ⟨f, houtcome⟩ with
          hmeets | ⟨-, -, ssrc, seq, a, ha, hwrap⟩
        · obtain ⟨before, ⟨ssrc, b⟩, after, hsplit, -, -, earlier, seq, a, later, hentries, -, h⟩ :=
            hmeets.met
          have hb : r.streams[ssrc]? = some b := mem_toList_iff.mp (hsplit ▸ by simp)
          have ha : b.get? seq = some a := StreamArrivals.mem_entries_iff.mp (hentries ▸ by simp)
          have harrival := harrivals ssrc seq a (arrivals?_eq_some_iff.mpr ⟨b, hb, ha⟩)
          unfold Arrival.Astride at h
          omega
        · have harrival := harrivals ssrc seq a ha
          unfold Arrival.Wrapped at hwrap
          omega

/-- Three numbers around the wrap, the one between them lost. -/
def lossAtWrap : Report :=
  ((({ time := 1000, monitored := 50 } : Report).record 9 65535 990 0).2.record 9 1 1000 3).2

theorem encodeInto_whole_or_nothing_exactRoom :
    (lossAtWrap.encodeInto { room := some 36 }).1 = .ok () ∧
    (∃ bytes header body, (lossAtWrap.encodeInto { room := some 36 }).2 =
      Buffer.append { room := some 36 } bytes ∧ bytes.length = 36 ∧
      Header.decode bytes = (.ok header, body) ∧ 36 = 4 * (header.length.toNat + 1)) ∧
    (∃ rejection, (lossAtWrap.encodeInto { room := some 35 }).1 = .error (.rejected rejection)) ∧
    (lossAtWrap.encodeInto { room := some 35 }).2 = { room := some 35 } := by
  have harrivals : ∀ ssrc seq a, lossAtWrap.arrivals? ssrc seq = some a →
      a.time.toNat < 2 ^ 63 :=
    forall_arrivals?_iff.mpr (by decide +kernel)
  have hlength : lossAtWrap.wireLen = 36 := by decide +kernel
  obtain ⟨-, hwritten, -⟩ := encodeInto_whole_or_nothing (r := lossAtWrap) (by decide) harrivals
    { room := some 36 }
  obtain ⟨-, -, hrefused⟩ := encodeInto_whole_or_nothing (r := lossAtWrap) (by decide) harrivals
    { room := some 35 }
  have hok : (lossAtWrap.encodeInto { room := some 36 }).1 = .ok () := by decide +kernel
  obtain ⟨bytes, header, body, hafter, hbytes, -, hheader, hannounced⟩ := hwritten hok
  rw [hlength] at hbytes hannounced
  obtain ⟨hrejected, hsame⟩ := hrefused (by decide +kernel)
  exact ⟨hok, ⟨bytes, header, body, hafter, hbytes, hheader, hannounced⟩, hrejected, hsame⟩

/-- Writing a report meets a fault in two cases only: the first thing that its checks come upon is
an arrival whose signed distance is none, or they let it through and the clock has wrapped since one
of its arrivals. A rejected report leaves the buffer as it was, and so does the first fault. The
second one leaves a part of the report in it, with the header of the whole. -/
theorem encodeInto_faults_iff (r : Report) (buf : Buffer) :
    ((∃ f, (r.encodeInto buf).1 = .error (.fault f)) ↔
      r.MeetsAstride ∨ r.Passes ∧ buf.hasRoom r.wireLen ∧
        ∃ ssrc seq a, r.arrivals? ssrc seq = some a ∧ a.Wrapped r.time) ∧
    ((∃ f, r.encode = .error (.fault f)) ↔
      r.MeetsAstride ∨ r.Passes ∧
        ∃ ssrc seq a, r.arrivals? ssrc seq = some a ∧ a.Wrapped r.time) ∧
    (∀ rejection, (r.encodeInto buf).1 = .error (.rejected rejection) →
      (r.encodeInto buf).2 = buf) ∧
    ∀ f, (r.encodeInto buf).1 = .error (.fault f) →
      r.MeetsAstride ∧ (r.encodeInto buf).2 = buf ∨
      r.Passes ∧ ∃ part, (r.encodeInto buf).2 = buf.append part ∧
        r.writtenHeader.encode <+: part ∧ 28 ≤ part.length ∧ part.length < r.wireLen := by
  have hencode (f : Fault) : r.encode = .error (.fault f) ↔
      (r.encodeInto {}).1 = .error (.fault f) := by
    unfold encode
    split
    next h => simp [h]
    next h => simp [h]
  have hgrowing : ({} : Buffer).hasRoom r.wireLen := rfl
  refine ⟨encodeInto_eq_fault_iff, ?_, fun _ ↦ encodeInto_snd_of_rejected, fun f hfault ↦ ?_⟩
  · simp only [hencode, encodeInto_eq_fault_iff, hgrowing, true_and]
  · rcases encodeInto_cases r buf with
      ⟨e, hcheck, heq⟩ | ⟨-, -, heq⟩ | ⟨hpasses, -, f', hwords, heq⟩ | ⟨-, h, heq⟩
    · rw [heq] at hfault
      cases hfault
      exact Or.inl ⟨(check_eq_fault_iff.mp hcheck).2, congrArg Prod.snd heq⟩
    · rw [heq] at hfault
      cases hfault
    · exact Or.inr ⟨hpasses, r.part, congrArg Prod.snd heq, List.prefix_append _ _,
        length_part hwords⟩
    · rw [heq] at hfault
      cases hfault

/-- One packet arrived as the clock was about to wrap, five milliseconds into the new epoch. -/
def acrossWrap : Report := (({ time := 5 } : Report).record 1 1 0xffffffffffffffff 0).2

/-- One packet arrived a millisecond before the middle of the clock. -/
def acrossMiddle : Report :=
  (({ time := 0x8000000000000000 } : Report).record 1 1 0x7fffffffffffffff 0).2

/-- The checks let the one through, and it is written up to its only entry. They cannot tell of the
other. -/
theorem encodeInto_faults_acrossWrap :
    acrossWrap.check = .ok acrossWrap.writtenHeader ∧
    (acrossWrap.encodeInto {}).1 = .error (.fault .overflow) ∧
    acrossWrap.wireLen = 32 ∧ (acrossWrap.encodeInto {}).2.written.length = 28 ∧
    acrossMiddle.check = .error (.fault .overflow) ∧
    (acrossMiddle.encodeInto {}).1 = .error (.fault .overflow) := by
  decide +kernel

end Report

end Congestion
