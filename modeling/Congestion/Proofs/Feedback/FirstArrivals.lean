import Congestion.Proofs.Feedback.Recording
import Mathlib.Data.List.Induction

/-!
# First arrivals, in any order

Packets are recorded one after the other into a report that has none. `Recorded.after` keeps, beside
the report, the packets that were accepted. What `Report.record` answers depends on the report only
through the packets and streams it has (`Report.record_eq`), and these are the accepted ones
(`Recorded.Tells`): so each answer can be told from what was accepted before, and two histories that
accept the same packets, in whatever order, end in one report (`report_eq_of_accepted`).
-/

set_option autoImplicit false
set_option relaxedAutoImplicit false

namespace Congestion

/-- A packet to be recorded. Its bits need not be a mark. -/
structure Sighting where
  ssrc : UInt32
  seq : UInt16
  time : UInt64
  bits : UInt8
deriving DecidableEq

namespace Sighting

def arrival (s : Sighting) : Arrival := ⟨EcnMark.ofBits s.bits, s.time⟩

def isOf (s : Sighting) (ssrc : UInt32) (seq : UInt16) : Bool := s.ssrc = ssrc ∧ s.seq = seq

theorem isOf_iff {s : Sighting} {ssrc : UInt32} {seq : UInt16} :
    s.isOf ssrc seq ↔ s.ssrc = ssrc ∧ s.seq = seq := by
  simp [isOf]

end Sighting

theorem EcnMark.not_three_lt_iff {bits : UInt8} : ¬ 3 < bits ↔ bits.toNat < 4 := by
  rw [UInt8.not_lt, UInt8.le_iff_toNat_le]
  exact Nat.lt_succ_iff.symm

theorem EcnMark.ofBits?_eq (bits : UInt8) :
    EcnMark.ofBits? bits = if 3 < bits then none else some (EcnMark.ofBits bits) := by
  split
  next hlarge =>
    unfold EcnMark.ofBits?
    split <;> first | rfl | exact absurd hlarge (by decide)
  next hsmall => exact (EcnMark.ofBits?_of_lt (not_three_lt_iff.mp hsmall)).1

namespace Report

variable {r : Report} {s : Sighting}

def recordNext (r : Report) (s : Sighting) : Recording × Report :=
  r.record s.ssrc s.seq s.time s.bits

/-- All that recording a packet can do. -/
theorem record_eq (r : Report) (s : Sighting) :
    r.recordNext s =
      if 3 < s.bits then (.badMark, r)
      else if (r.arrivals? s.ssrc s.seq).isSome then (.duplicate, r)
      else (if (r.stream? s.ssrc).isSome then .existingStream else .newStream,
        r.insertNew s.ssrc s.seq s.arrival) := by
  unfold recordNext record
  rw [EcnMark.ofBits?_eq]
  by_cases hbits : 3 < s.bits
  · simp [hbits]
  · simp only [hbits, if_false]
    cases hstream : r.streams[s.ssrc]? with
    | none => simp [arrivals?_of_no_stream hstream, stream?, hstream, Sighting.arrival]
    | some b =>
      rw [arrivals?_of_stream hstream]
      simp [stream?, hstream, Sighting.arrival]

end Report

/-! ### Histories -/

def Recording.accepted : Recording → Bool
  | .newStream | .existingStream => true
  | .duplicate | .badMark => false

/-- The packets accepted so far, in their order, and the report that has them. -/
structure Recorded where
  accepted : List Sighting := []
  report : Report

namespace Recorded

def push (t : Recorded) (s : Sighting) : Recorded :=
  let (recording, report) := t.report.recordNext s
  { report, accepted := if recording.accepted then t.accepted ++ [s] else t.accepted }

/-- Starts with the header of the report, and none of its arrivals. -/
def after (start : Report) (calls : List Sighting) : Recorded :=
  calls.foldl push { report := start.clear }

theorem after_concat (start : Report) (calls : List Sighting) (s : Sighting) :
    after start (calls ++ [s]) = (after start calls).push s := by
  simp [after]

/-- The report has the accepted packets, each with its own arrival, and the header of the start. -/
structure Tells (start : Report) (t : Recorded) : Prop where
  header : t.report.clear = start.clear
  marked : ∀ s ∈ t.accepted, ¬ 3 < s.bits
  arrivals : ∀ ssrc seq a, t.report.arrivals? ssrc seq = some a ↔
    ∃ s ∈ t.accepted, s.isOf ssrc seq ∧ s.arrival = a

variable {start : Report} {t u : Recorded} {s : Sighting} {ssrc : UInt32} {seq : UInt16}

theorem Tells.init (start : Report) : Tells start { report := start.clear } where
  header := rfl
  marked := by simp
  arrivals := by simp [Report.arrivals?, Report.clear]

/-- A packet that is not accepted changes nothing, another one is appended to the accepted. -/
theorem push_cases (t : Recorded) (s : Sighting) :
    ((3 < s.bits ∨ (t.report.arrivals? s.ssrc s.seq).isSome) ∧ t.push s = t) ∨
    (¬ 3 < s.bits ∧ t.report.arrivals? s.ssrc s.seq = none ∧
      t.push s = ⟨t.accepted ++ [s], t.report.insertNew s.ssrc s.seq s.arrival⟩) := by
  unfold push
  rw [Report.record_eq]
  by_cases hbits : 3 < s.bits
  · exact Or.inl ⟨Or.inl hbits, by simp [hbits, Recording.accepted]⟩
  · by_cases hknown : (t.report.arrivals? s.ssrc s.seq).isSome
    · exact Or.inl ⟨Or.inr hknown, by simp [hbits, hknown, Recording.accepted]⟩
    · refine Or.inr ⟨hbits, by simpa using hknown, ?_⟩
      cases (t.report.stream? s.ssrc).isSome <;> simp [hbits, hknown, Recording.accepted]

theorem Tells.not_isOf_of_new (ht : Tells start t) (h : t.report.arrivals? ssrc seq = none) :
    ∀ e ∈ t.accepted, ¬ e.isOf ssrc seq := by
  intro e he hof
  have hlisted := (ht.arrivals ssrc seq e.arrival).mpr ⟨e, he, hof, rfl⟩
  rw [h] at hlisted
  cases hlisted

theorem Tells.push (ht : Tells start t) (s : Sighting) : Tells start (t.push s) := by
  rcases push_cases t s with ⟨-, hsame⟩ | ⟨hbits, hnew, hpush⟩
  · rwa [hsame]
  · rw [hpush]
    refine ⟨ht.header, fun e he ↦ ?_, fun ssrc seq a ↦ ?_⟩
    · rcases List.mem_append.mp he with he | he
      · exact ht.marked e he
      · rwa [List.mem_singleton.mp he]
    · rw [Report.arrivals?_insertNew, hnew]
      by_cases hkey : ssrc = s.ssrc ∧ seq = s.seq
      · obtain ⟨rfl, rfl⟩ := hkey
        constructor
        · intro h
          exact ⟨s, by simp, by simp [Sighting.isOf], by simpa using h⟩
        · rintro ⟨e, he, hof, rfl⟩
          rcases List.mem_append.mp he with he | he
          · exact absurd hof (ht.not_isOf_of_new hnew e he)
          · simp [List.mem_singleton.mp he]
      · rw [if_neg hkey, ht.arrivals]
        have hother : ¬ s.isOf ssrc seq := by
          rw [Sighting.isOf_iff]
          exact fun h ↦ hkey ⟨h.1.symm, h.2.symm⟩
        simp [or_and_right, exists_or, hother]

theorem tells_after (start : Report) (calls : List Sighting) : Tells start (after start calls) := by
  induction calls using List.reverseRecOn with
  | nil => exact Tells.init start
  | append_singleton calls s ih =>
    rw [after_concat]
    exact ih.push s

theorem Tells.isSome_iff (ht : Tells start t) :
    (t.report.arrivals? ssrc seq).isSome ↔ ∃ e ∈ t.accepted, e.isOf ssrc seq := by
  simp only [Option.isSome_iff_exists, ht.arrivals]
  grind

theorem Tells.stream?_isSome_iff (ht : Tells start t) :
    (t.report.stream? ssrc).isSome ↔ ∃ e ∈ t.accepted, e.ssrc = ssrc := by
  simp only [Report.stream?_isSome_iff, ht.isSome_iff, Sighting.isOf_iff]
  grind

/-- The arrival that the report has for a packet is that of the first accepted one. -/
theorem Tells.arrivals?_eq (ht : Tells start t) :
    t.report.arrivals? ssrc seq =
      (t.accepted.find? (·.isOf ssrc seq)).map Sighting.arrival := by
  cases hfound : t.accepted.find? (·.isOf ssrc seq) with
  | none =>
    rw [Option.map_none, ← Option.not_isSome_iff_eq_none, ht.isSome_iff]
    rintro ⟨e, he, hof⟩
    exact List.find?_eq_none.mp hfound e he hof
  | some e =>
    have hof := List.find?_some hfound
    exact (ht.arrivals ssrc seq e.arrival).mpr
      ⟨e, List.mem_of_find?_eq_some hfound, hof, rfl⟩

theorem report_eq_of_accepted (ht : Tells start t) (hu : Tells start u)
    (hsame : ∀ e, e ∈ t.accepted ↔ e ∈ u.accepted) : t.report = u.report := by
  have hheader := ht.header.trans hu.header.symm
  refine Report.ext_arrivals? (congrArg Report.sender hheader :) (congrArg Report.time hheader :)
    (congrArg Report.number hheader :) (congrArg Report.monitored hheader :) fun ssrc seq ↦ ?_
  refine Option.ext fun a ↦ ?_
  simp only [ht.arrivals, hu.arrivals, hsame]

/-- The accepted packet is the first of all that could be: the first whose bits are a mark. -/
theorem find?_accepted_after (start : Report) (calls : List Sighting) (ssrc : UInt32)
    (seq : UInt16) :
    (after start calls).accepted.find? (·.isOf ssrc seq) =
      calls.find? fun c ↦ c.isOf ssrc seq ∧ ¬ 3 < c.bits := by
  induction calls using List.reverseRecOn with
  | nil => rfl
  | append_singleton calls s ih =>
    rw [after_concat, List.find?_append, List.find?_singleton, ← ih]
    rcases push_cases (after start calls) s with ⟨hbits | hknown, hsame⟩ | ⟨hbits, -, hpush⟩
    · simp [hsame, hbits]
    · by_cases hof : s.isOf ssrc seq
      · obtain ⟨rfl, rfl⟩ := Sighting.isOf_iff.mp hof
        rw [(tells_after start calls).arrivals?_eq, Option.isSome_map] at hknown
        rw [hsame, Option.or_of_isSome hknown]
      · simp [hsame, hof]
    · rw [hpush, List.find?_append, List.find?_singleton]
      simp [hbits]

/-- What is answered for a packet, told from the packets accepted before. -/
structure Answers (accepted : List Sighting) (s : Sighting) (recording : Recording) : Prop where
  badMark_iff : recording = .badMark ↔ 3 < s.bits
  duplicate_iff : recording = .duplicate ↔
    ¬ 3 < s.bits ∧ ∃ e ∈ accepted, e.isOf s.ssrc s.seq
  newStream_iff : recording = .newStream ↔ ¬ 3 < s.bits ∧ ∀ e ∈ accepted, e.ssrc ≠ s.ssrc
  existingStream_iff : recording = .existingStream ↔ ¬ 3 < s.bits ∧
    (∃ e ∈ accepted, e.ssrc = s.ssrc) ∧ ∀ e ∈ accepted, ¬ e.isOf s.ssrc s.seq

theorem Tells.answers (ht : Tells start t) (s : Sighting) :
    Answers t.accepted s (t.report.recordNext s).1 := by
  have hknown : (t.report.arrivals? s.ssrc s.seq).isSome ↔
      ∃ e ∈ t.accepted, e.isOf s.ssrc s.seq := ht.isSome_iff
  have hlisted : (t.report.stream? s.ssrc).isSome ↔ ∃ e ∈ t.accepted, e.ssrc = s.ssrc :=
    ht.stream?_isSome_iff
  have hstream : (∃ e ∈ t.accepted, e.isOf s.ssrc s.seq) → ∃ e ∈ t.accepted, e.ssrc = s.ssrc :=
    fun ⟨e, he, hof⟩ ↦ ⟨e, he, (Sighting.isOf_iff.mp hof).1⟩
  rw [Report.record_eq]
  by_cases hbits : 3 < s.bits
  · constructor <;> simp [hbits]
  · by_cases hdup : ∃ e ∈ t.accepted, e.isOf s.ssrc s.seq
    · have hold := hknown.mpr hdup
      have hany := hstream hdup
      constructor <;> simp [hbits, hold] <;> grind
    · have hnew := mt hknown.mp hdup
      by_cases hany : ∃ e ∈ t.accepted, e.ssrc = s.ssrc
      · have hstream := hlisted.mpr hany
        constructor <;> simp [hbits, hnew, hstream] <;> grind
      · have hstream := mt hlisted.mp hany
        constructor <;> simp [hbits, hnew, hstream] <;> grind

theorem recordNext_snd_of_not_accepted {r : Report} {s : Sighting}
    (h : (r.recordNext s).1 = .badMark ∨ (r.recordNext s).1 = .duplicate) :
    (r.recordNext s).2 = r := by
  rw [Report.record_eq] at h ⊢
  by_cases hbits : 3 < s.bits
  · simp [hbits]
  · by_cases hknown : (r.arrivals? s.ssrc s.seq).isSome
    · simp [hbits, hknown]
    · cases hstream : (r.stream? s.ssrc).isSome <;> simp [hbits, hknown, hstream] at h

/-- A report is a map of first arrivals, whatever packets have been recorded and in whatever order.
Each answer is told by the packets accepted before; a packet not accepted changes nothing; the
report has the accepted packets, each as it was accepted first; and a history that accepts the same
packets ends in the same report. -/
theorem firstArrivals_after (start : Report) (calls : List Sighting) :
    let t := after start calls
    (∀ s, Answers t.accepted s (t.report.recordNext s).1) ∧
    (∀ s, (t.report.recordNext s).1 = .badMark ∨ (t.report.recordNext s).1 = .duplicate →
      (t.report.recordNext s).2 = t.report) ∧
    (∀ ssrc seq, (t.report.arrivals? ssrc seq).map (fun a ↦ (a.time, a.mark.bits)) =
      (t.accepted.find? (·.isOf ssrc seq)).map fun e ↦ (e.time, e.bits)) ∧
    (∀ ssrc seq, t.accepted.find? (·.isOf ssrc seq) =
      calls.find? fun c ↦ c.isOf ssrc seq ∧ ¬ 3 < c.bits) ∧
    (∀ ssrc, (t.report.stream? ssrc).isSome ↔ ∃ e ∈ t.accepted, e.ssrc = ssrc) ∧
    (∀ ssrc b, t.report.stream? ssrc = some b → 0 < b.received) ∧
    ∀ calls', (∀ e, e ∈ (after start calls').accepted ↔ e ∈ t.accepted) →
      (after start calls').report = t.report ∧ (after start calls').report.same t.report ∧
      ∀ ssrc, (after start calls').report.countLast ssrc = t.report.countLast ssrc := by
  have ht := tells_after start calls
  refine ⟨ht.answers, fun s ↦ recordNext_snd_of_not_accepted, fun ssrc seq ↦ ?_, fun ssrc seq ↦ ?_,
    fun ssrc ↦ ht.stream?_isSome_iff, fun ssrc b hb ↦ ?_, fun calls' hsame ↦ ?_⟩
  · rw [ht.arrivals?_eq, Option.map_map]
    refine Option.map_congr fun e he ↦ ?_
    have hmarked := ht.marked e (List.mem_of_find?_eq_some he)
    simp [Sighting.arrival, (EcnMark.ofBits?_of_lt (EcnMark.not_three_lt_iff.mp hmarked)).2]
  · exact find?_accepted_after start calls ssrc seq
  · exact StreamArrivals.received_pos ((after start calls).report.nonempty ssrc b hb)
  · have heq := report_eq_of_accepted (tells_after start calls') ht hsame
    rw [heq]
    exact ⟨rfl, by simp [Report.same], fun _ ↦ rfl⟩

/-- Another order, without what is not accepted. -/
theorem firstArrivals_after_reordered :
    let calls : List Sighting :=
      [⟨7, 65535, 10, 1⟩, ⟨7, 2, 11, 0⟩, ⟨7, 65535, 12, 0⟩, ⟨9, 5, 13, 3⟩, ⟨9, 6, 14, 4⟩]
    let calls' : List Sighting := [⟨9, 5, 13, 3⟩, ⟨7, 2, 11, 0⟩, ⟨7, 65535, 10, 1⟩]
    (after {} calls').accepted.Perm (after {} calls).accepted ∧
    (after {} calls').report = (after {} calls).report := by
  intro calls calls'
  have hperm : (after {} calls').accepted.Perm (after {} calls).accepted := by decide +kernel
  obtain ⟨-, -, -, -, -, -, hreport⟩ := firstArrivals_after {} calls
  exact ⟨hperm, (hreport calls' fun _ ↦ hperm.mem_iff).1⟩

end Recorded

end Congestion
