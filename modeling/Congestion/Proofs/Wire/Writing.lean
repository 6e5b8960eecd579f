import Congestion.Proofs.Feedback.Retiming
import Congestion.Proofs.Wire.Grammar

/-!
# Writing reports

What a report has to satisfy to be written is `Report.Writable`: its size and its counts fit their
fields, and every arrival is before the report and near it. `Report.body` takes the written form
apart, with each stream as a block, and `encode_eq_ok_iff` says that a report that is writable is
written as its header and this body. Any other report is refused, without a fault where no arrival
is after it (`faultless_encodeInto`).
-/

set_option autoImplicit false
set_option relaxedAutoImplicit false

namespace Congestion

/-! ### Entries -/

namespace StreamArrivals

variable {b : StreamArrivals} {time : UInt64} {seq : UInt16}

/-- The entry of a sequence number that has not arrived after the report. -/
def entryOf (b : StreamArrivals) (time : UInt64) (seq : UInt16) : UInt16 :=
  match b.get? seq with
  | none => 0
  | some a => 0x8000 + a.mark.bits.toUInt16 * 0x2000 + (time - a.time).toUInt16

theorem entryWord_eq_ok_iff {word : UInt16} : b.entryWord time seq = .ok word ↔
    (∀ a, b.get? seq = some a → a.time ≤ time) ∧ word = b.entryOf time seq := by
  unfold entryWord entryOf
  cases b.get? seq with
  | none => simp [eq_comm]
  | some a =>
    dsimp only
    rw [bind_eq_ok_iff]
    constructor
    · rintro ⟨offset, hoffset, hword⟩
      obtain ⟨hle, rfl⟩ := unsigned64Sub_eq_ok_iff.mp hoffset
      exact ⟨fun a' ha' ↦ by cases ha'; exact hle, (pure_eq_ok_iff.mp hword).symm⟩
    · rintro ⟨hle, rfl⟩
      exact ⟨_, unsigned64Sub_eq_ok_iff.mpr ⟨hle a rfl, rfl⟩, rfl⟩

/-- The stream as a block of a report at some time. -/
def block (b : StreamArrivals) (time : UInt64) (ssrc : UInt32) : StreamBlock :=
  { ssrc, last := b.lastSeq, entries := b.range.map (b.entryOf time),
    filler := List.replicate (b.count % 2) 0 }

theorem words_eq_ok_iff {ssrc : UInt32} {ws : List UInt16} : b.words time ssrc = .ok ws ↔
    (∀ seq a, b.get? seq = some a → a.time ≤ time) ∧ ws = (b.block time ssrc).words := by
  have hwords : (b.block time ssrc).words = Words.split32 ssrc ++
      [UInt16.ofNat b.count, b.lastSeq] ++ b.range.map (b.entryOf time) ++
      List.replicate (b.count % 2) 0 := by
    simp [block, StreamBlock.words, length_range]
  unfold words
  rw [bind_eq_ok_iff, hwords]
  constructor
  · rintro ⟨entries, hentries, hws⟩
    have hbefore : ∀ seq a, b.get? seq = some a → a.time ≤ time := by
      intro seq a ha
      obtain ⟨word, hword⟩ := exists_ok_of_mapM hentries seq (mem_range_of_get? ha)
      exact (entryWord_eq_ok_iff.mp hword).1 a ha
    have hmap := mapM_eq_ok_map (l := b.range) fun seq _ ↦
      entryWord_eq_ok_iff.mpr ⟨hbefore seq, rfl⟩
    cases hentries.symm.trans hmap
    exact ⟨hbefore, (pure_eq_ok_iff.mp hws).symm⟩
  · rintro ⟨hbefore, rfl⟩
    exact ⟨_, mapM_eq_ok_map fun seq _ ↦ entryWord_eq_ok_iff.mpr ⟨hbefore seq, rfl⟩, rfl⟩

end StreamArrivals

namespace StreamArrivals

theorem length_block (b : StreamArrivals) (time : UInt64) (ssrc : UInt32) :
    (b.block time ssrc).entries.length = b.count := by
  simp [block, length_range]

theorem length_words_block (b : StreamArrivals) (time : UInt64) (ssrc : UInt32) :
    (b.block time ssrc).words.length * 2 = b.wireLen := by
  simp [block, StreamBlock.words, Words.split32, length_range, wireLen]
  omega

theorem block_retime (b : StreamArrivals) (ssrc : UInt32) (time : UInt64)
    {clock : UInt64 → UInt64} (hclock : ∀ t, clock time - clock t = time - t) :
    (b.retime clock).block (clock time) ssrc = b.block time ssrc := by
  have hentry : (b.retime clock).entryOf (clock time) = b.entryOf time := by
    funext seq
    unfold entryOf
    rw [get?_retime]
    cases b.get? seq with
    | none => rfl
    | some a => simp [Arrival.retime, hclock]
  simp [block, hentry]

end StreamArrivals

/-! ### What is refused -/

/-- A word read as a signed one. -/
theorem toInt_toInt64 (t : UInt64) : t.toInt64.toInt =
    if t.toNat < 0x8000000000000000 then (t.toNat : Int) else t.toNat - 0x10000000000000000 := by
  have hbits : t.toInt64.toInt = t.toBitVec.toInt := rfl
  have hnat : t.toBitVec.toNat = t.toNat := rfl
  rw [hbits, BitVec.toInt_eq_toNat_cond, hnat]
  split <;> split <;> omega

/-- Both times read as signed words, the arrival is at most 8191 milliseconds before. -/
def Arrival.Near (a : Arrival) (time : UInt64) : Prop :=
  0 ≤ time.toInt64.toInt - a.time.toInt64.toInt ∧ time.toInt64.toInt - a.time.toInt64.toInt ≤ 8191

/-- An arrival before a report, and near it also as a signed word, is as near as it looks. -/
theorem Arrival.Near.toNat_le {a : Arrival} {time : UInt64} (hnear : a.Near time)
    (hle : a.time ≤ time) : time.toNat - a.time.toNat ≤ 8191 := by
  obtain ⟨hlow, hhigh⟩ := hnear
  have hle := UInt64.le_iff_toNat_le.mp hle
  have := time.toNat_lt
  rw [toInt_toInt64, toInt_toInt64] at hlow hhigh
  split at hlow <;> split at hhigh <;> omega

theorem Arrival.toNat_waited (a : Arrival) (time : UInt64) :
    (a.waited time).toNat = time.toNat - a.time.toNat := by
  unfold waited
  split
  next hle => exact UInt64.toNat_sub_of_le _ _ hle
  next hlate =>
    have hlt := UInt64.lt_iff_toNat_lt.mp (UInt64.not_le.mp hlate)
    rw [UInt64.toNat_zero]
    omega

namespace StreamArrivals

variable {b : StreamArrivals} {time : UInt64} {ssrc : UInt32}

/-- The check of one arrival. -/
def checkArrival (time : UInt64) (ssrc : UInt32) (entry : UInt16 × Arrival) : Outcome Unit := do
  let offset ← signed64 (time.toInt64.toInt - entry.2.time.toInt64.toInt)
  if offset < 0 ∨ 8191 < offset then
    throw (.rejected (.arrivalOffset ssrc entry.1 offset))

theorem check_eq (b : StreamArrivals) (time : UInt64) (ssrc : UInt32) : b.check time ssrc =
    if 65535 < b.count then .error (.rejected (.spanOverflow ssrc b.count))
    else b.entries.forM (checkArrival time ssrc) := by
  unfold check
  split <;> rfl

theorem checkArrival_eq_ok_iff {entry : UInt16 × Arrival} :
    checkArrival time ssrc entry = .ok () ↔ entry.2.Near time := by
  unfold checkArrival Arrival.Near
  rw [bind_eq_ok_iff]
  constructor
  · rintro ⟨offset, hoffset, h⟩
    obtain ⟨rfl, -, -⟩ := signed64_eq_ok_iff.mp (ofChecked_eq_ok_iff.mp hoffset)
    split at h
    · cases h
    · omega
  · rintro ⟨hlow, hhigh⟩
    refine ⟨_, ofChecked_eq_ok_iff.mpr (signed64_eq_ok_iff.mpr ⟨rfl, by omega, by omega⟩), ?_⟩
    rw [if_neg (by omega)]
    rfl

theorem check_eq_ok_iff : b.check time ssrc = .ok () ↔
    b.count ≤ 65535 ∧ ∀ seq a, b.get? seq = some a → a.Near time := by
  have hentries : b.entries.forM (checkArrival time ssrc) = .ok () ↔
      ∀ seq a, b.get? seq = some a → a.Near time := by
    rw [forM_eq_ok_iff]
    simp only [checkArrival_eq_ok_iff, Prod.forall, mem_entries_iff]
  rw [check_eq, ← hentries]
  generalize b.count = count
  by_cases hcount : 65535 < count
  · rw [if_pos hcount]
    exact ⟨fun h ↦ (by cases h), fun h ↦ absurd hcount (Nat.not_lt.mpr h.1)⟩
  · rw [if_neg hcount]
    exact ⟨fun h ↦ ⟨Nat.not_lt.mp hcount, h⟩, fun h ↦ h.2⟩

/-- Two signed words as far apart as they can be do not have a signed word as their distance, but
two close ones have. -/
theorem faultless_check (hbefore : ∀ seq a, b.get? seq = some a → a.time ≤ time)
    (htime : time.toNat < 0x8000000000000000) : Faultless (b.check time ssrc) := by
  rw [check_eq]
  split
  · exact faultless_rejected _
  · refine faultless_forM fun entry hentry ↦ ?_
    have hle := UInt64.le_iff_toNat_le.mp (hbefore _ _ (mem_entries_iff.mp hentry))
    unfold checkArrival
    rw [toInt_toInt64, toInt_toInt64, if_pos htime, if_pos (by omega),
      signed64_eq_ok_iff.mpr ⟨rfl, by omega, by omega⟩]
    show Faultless (if _ then _ else _)
    split
    · exact faultless_rejected _
    · exact faultless_ok _

end StreamArrivals

namespace Report

variable {r : Report}

/-- The header that a report is written with, if its size can be told. -/
def writtenHeader (r : Report) : Header :=
  { padding := false, format := Header.feedbackFormat, packetType := Header.feedbackType,
    length := UInt16.ofNat (r.wireLen / 4 - 1) }

theorem wireLen_eq_sum (r : Report) :
    r.wireLen = 20 + (r.toList.map fun s ↦ s.2.wireLen).sum := by
  have hfold : ∀ (streams : List (UInt32 × StreamArrivals)) (n : Nat),
      streams.foldl (fun n s ↦ n + s.2.wireLen) n =
        n + (streams.map fun s ↦ s.2.wireLen).sum := by
    intro streams
    induction streams with
    | nil => exact fun n ↦ rfl
    | cons s rest ih =>
      intro n
      rw [List.foldl_cons, ih, List.map_cons, List.sum_cons, Nat.add_assoc]
  exact hfold r.toList 20

/-- The padding of odd counts makes the size a whole number of 32-bit words. -/
theorem wireLen_mod (r : Report) : r.wireLen % 4 = 0 := by
  have hstreams : (r.toList.map fun s ↦ s.2.wireLen).sum % 4 = 0 := by
    induction r.toList with
    | nil => rfl
    | cons s rest ih =>
      have hstream : s.2.wireLen = 8 + (s.2.count + s.2.count % 2) * 2 := rfl
      rw [List.map_cons, List.sum_cons]
      omega
  have hsum := r.wireLen_eq_sum
  omega

theorem header_eq_ok_iff {header : Header} :
    r.header = .ok header ↔ r.wireLen / 4 - 1 ≤ 65535 ∧ header = r.writtenHeader := by
  unfold Report.header
  split
  next h => simp [h, writtenHeader, eq_comm]
  next h => simp [h]

/-- What a report has to satisfy to be written. -/
structure Writable (r : Report) : Prop where
  fits : r.wireLen / 4 - 1 ≤ 65535
  counted : ∀ (ssrc : UInt32) (b : StreamArrivals), r.streams[ssrc]? = some b → b.count ≤ 65535
  near : ∀ ssrc seq a, r.arrivals? ssrc seq = some a → a.Near r.time
  dated : ∀ ssrc seq a, r.arrivals? ssrc seq = some a → a.time ≤ r.time

theorem check_eq_ok_iff {header : Header} : r.check = .ok header ↔
    (r.wireLen / 4 - 1 ≤ 65535 ∧ header = r.writtenHeader) ∧
      ∀ (ssrc : UInt32) (b : StreamArrivals), r.streams[ssrc]? = some b →
        b.check r.time ssrc = .ok () := by
  have hstreams : (r.toList.forM fun s ↦ s.2.check r.time s.1) = .ok () ↔
      ∀ (ssrc : UInt32) (b : StreamArrivals), r.streams[ssrc]? = some b →
        b.check r.time ssrc = .ok () := by
    rw [forM_eq_ok_iff]
    simp only [Prod.forall, mem_toList_iff]
  unfold check
  rw [bind_eq_ok_iff, ← hstreams, ← header_eq_ok_iff]
  constructor
  · rintro ⟨_, hheader, hrest⟩
    obtain ⟨_, hall, heq⟩ := bind_eq_ok_iff.mp hrest
    cases heq
    exact ⟨ofRejected_eq_ok_iff.mp hheader, hall⟩
  · rintro ⟨hheader, hall⟩
    exact ⟨header, ofRejected_eq_ok_iff.mpr hheader,
      bind_eq_ok_iff.mpr ⟨(), hall, rfl⟩⟩

theorem bodyWords_eq_ok_iff {ws : List UInt16} : r.bodyWords = .ok ws ↔
    (∀ ssrc seq a, r.arrivals? ssrc seq = some a → a.time ≤ r.time) ∧
      ws = r.fixedWords ++ r.toList.flatMap fun (ssrc, b) ↦ (b.block r.time ssrc).words := by
  have harrivals : (∀ ssrc seq a, r.arrivals? ssrc seq = some a → a.time ≤ r.time) ↔
      ∀ s ∈ r.toList, ∀ seq a, s.2.get? seq = some a → a.time ≤ r.time := by
    simp only [arrivals?_eq_some_iff, Prod.forall, mem_toList_iff]
    constructor
    · exact fun h ssrc b hb seq a ha ↦ h ssrc seq a ⟨b, hb, ha⟩
    · rintro h ssrc seq a ⟨b, hb, ha⟩
      exact h ssrc b hb seq a ha
  have hblocks : (∀ s ∈ r.toList, ∀ seq a, s.2.get? seq = some a → a.time ≤ r.time) →
      (r.toList.mapM fun (ssrc, b) ↦ b.words r.time ssrc) =
        .ok (r.toList.map fun (ssrc, b) ↦ (b.block r.time ssrc).words) :=
    fun hdated ↦ mapM_eq_ok_map fun s hs ↦ StreamArrivals.words_eq_ok_iff.mpr ⟨hdated s hs, rfl⟩
  unfold bodyWords
  rw [bind_eq_ok_iff, harrivals, List.flatMap_def]
  constructor
  · rintro ⟨blocks, hwords, hws⟩
    have hdated : ∀ s ∈ r.toList, ∀ seq a, s.2.get? seq = some a → a.time ≤ r.time := by
      intro s hs
      obtain ⟨block, hblock⟩ := exists_ok_of_mapM hwords s hs
      exact (StreamArrivals.words_eq_ok_iff.mp hblock).1
    cases hwords.symm.trans (hblocks hdated)
    cases hws
    exact ⟨hdated, rfl⟩
  · rintro ⟨hdated, rfl⟩
    exact ⟨_, hblocks hdated, rfl⟩

/-- The report as a body. -/
def body (r : Report) (h : ∀ (ssrc : UInt32) (b : StreamArrivals), r.streams[ssrc]? = some b →
    b.count ≤ 65535) : ReportBody where
  sender := r.sender
  low := r.time.toUInt32
  number := r.number
  monitored := r.monitored
  blocks := r.toList.map fun s ↦ s.2.block r.time s.1
  wellFormed := by
    intro block hblock
    obtain ⟨⟨ssrc, b⟩, hb, rfl⟩ := List.mem_map.mp hblock
    have hcount := h ssrc b (mem_toList_iff.mp hb)
    refine ⟨?_, ?_⟩
    · dsimp only
      rw [StreamArrivals.length_block]
      omega
    · dsimp only
      rw [StreamArrivals.length_block, StreamArrivals.block, List.length_replicate]

theorem words_body (h) : (r.body h).words =
    r.fixedWords ++ r.toList.flatMap fun (ssrc, b) ↦ (b.block r.time ssrc).words := by
  simp only [ReportBody.words, body, fixedWords, List.flatMap_map]
  rfl

theorem length_body (h) : (r.body h).bytes.length + 4 = r.wireLen := by
  have hstreams : (r.toList.flatMap fun (ssrc, b) ↦ (b.block r.time ssrc).words).length * 2 =
      (r.toList.map fun s ↦ s.2.wireLen).sum := by
    induction r.toList with
    | nil => rfl
    | cons s rest ih =>
      rw [List.flatMap_cons, List.length_append, Nat.add_mul, ih, List.map_cons, List.sum_cons,
        StreamArrivals.length_words_block]
  rw [ReportBody.bytes, Words.length_toBytes, words_body, List.length_append, wireLen_eq_sum,
    ← hstreams]
  simp [fixedWords, Words.split32]
  omega

theorem writable_iff :
    r.Writable ↔ r.check = .ok r.writtenHeader ∧ ∃ ws, r.bodyWords = .ok ws := by
  simp only [check_eq_ok_iff, bodyWords_eq_ok_iff, StreamArrivals.check_eq_ok_iff]
  constructor
  · intro h
    refine ⟨⟨⟨h.fits, trivial⟩, fun ssrc b hb ↦ ⟨h.counted ssrc b hb, fun seq a ha ↦ ?_⟩⟩,
      _, h.dated, rfl⟩
    exact h.near ssrc seq a (arrivals?_eq_some_iff.mpr ⟨b, hb, ha⟩)
  · rintro ⟨⟨⟨hfits, -⟩, hstreams⟩, _, hdated, -⟩
    refine ⟨hfits, fun ssrc b hb ↦ (hstreams ssrc b hb).1, fun ssrc seq a ha ↦ ?_, hdated⟩
    obtain ⟨b, hb, ha⟩ := arrivals?_eq_some_iff.mp ha
    exact (hstreams ssrc b hb).2 seq a ha

theorem encode_of_writable (h : r.Writable) :
    r.encode = .ok (r.writtenHeader.encode ++ (r.body h.counted).bytes) := by
  have hcheck := (writable_iff.mp h).1
  have hwords := bodyWords_eq_ok_iff.mpr ⟨h.dated, rfl⟩
  unfold encode encodeInto
  rw [hcheck, hwords, ReportBody.bytes, words_body]
  rfl

/-- A report that satisfies its conditions is written as its header and its body, and no other
report is written. -/
theorem encode_eq_ok_iff {bytes : List UInt8} : r.encode = .ok bytes ↔
    ∃ h : r.Writable, bytes = r.writtenHeader.encode ++ (r.body h.counted).bytes := by
  constructor
  · intro h
    have hwritable : r.Writable := by
      unfold encode encodeInto at h
      cases hcheck : r.check with
      | error e => rw [hcheck] at h; cases h
      | ok header =>
        cases hws : r.bodyWords with
        | error f => rw [hcheck, hws] at h; cases h
        | ok ws =>
          have hheader := (check_eq_ok_iff.mp hcheck).1.2
          exact writable_iff.mpr ⟨hheader ▸ hcheck, ws, hws⟩
    rw [encode_of_writable hwritable] at h
    cases h
    exact ⟨hwritable, rfl⟩
  · rintro ⟨h, rfl⟩
    exact encode_of_writable h

/-- A report that no arrival is after is refused or written, unless its time is beyond the signed
words. -/
theorem faultless_encodeInto
    (hdated : ∀ ssrc seq a, r.arrivals? ssrc seq = some a → a.time ≤ r.time)
    (htime : r.time.toNat < 0x8000000000000000) (buf : Buffer) :
    Faultless (r.encodeInto buf).1 := by
  have hcheck : Faultless r.check := by
    unfold check
    refine Faultless.bind ?_ fun _ _ ↦ Faultless.bind ?_ fun _ _ ↦ faultless_ok _
    · unfold Report.header
      split
      · exact faultless_ok _
      · exact faultless_rejected _
    · refine faultless_forM fun s hs ↦ StreamArrivals.faultless_check (fun seq a ha ↦ ?_) htime
      exact hdated s.1 seq a (arrivals?_eq_some_iff.mpr ⟨s.2, mem_toList_iff.mp hs, ha⟩)
  unfold encodeInto
  split
  next e herror =>
    rw [herror] at hcheck
    exact fun f h ↦ hcheck f (by cases h; rfl)
  next header _ =>
    split
    · rw [bodyWords_eq_ok_iff.mpr ⟨hdated, rfl⟩]
      exact faultless_ok ()
    · exact faultless_rejected _

theorem faultless_encode
    (hdated : ∀ ssrc seq a, r.arrivals? ssrc seq = some a → a.time ≤ r.time)
    (htime : r.time.toNat < 0x8000000000000000) : Faultless r.encode := by
  have hinto := faultless_encodeInto hdated htime {}
  unfold encode
  split
  next => exact faultless_ok _
  next e _ herror =>
    rw [herror] at hinto
    exact fun f h ↦ hinto f (by cases h; rfl)

end Report

end Congestion
