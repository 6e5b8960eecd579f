import Congestion.Feedback.Receiver
import Congestion.Proofs.Units.Amounts
import Congestion.Proofs.Wire.RoundTrip
import Mathlib.Data.List.Forall2
import Mathlib.Data.List.TakeWhile

/-!
# Every arrival is in one interval

`Receiver.run` lets a receiver take packets and close intervals in any order. Its clock starts with
the first packet, and from there on each closing ends an interval (`intervals`): its answer is the
report of what has arrived since the one before, or why that report cannot be written
(`Interval.Answered`). Either way the next interval begins with nothing, so that an arrival is in
one interval and no report but its own tells of it.

`Receiver.Gathers` is the invariant: what has arrived since the last closing is what the receiver
holds, each packet as it arrived first. An arrival keeps it (`Gathers.arrive`), and a closing
answers for what was gathered (`Gathers.close`). That a report is read as it was written, up to the
clock it is read on, is `Interval.Told.readBack`.
-/

set_option autoImplicit false
set_option relaxedAutoImplicit false

namespace Congestion

/-! ### Runs -/

/-- A packet as it reaches the receiver. -/
structure Reception where
  time : Finite
  ssrc : UInt32
  seq : UInt16
  mark : EcnMark

inductive ReceiverEvent
  | receive (p : Reception)
  | close (time : Finite)

inductive ReceiverAnswer
  | recorded (recording : Recording)
  | closed (written : Except Rejection (Option (List UInt8)))

namespace ReceiverEvent

def time : ReceiverEvent → Finite
  | .receive p => p.time
  | .close time => time

def isClose : ReceiverEvent → Bool
  | .close _ => true
  | .receive _ => false

def reception? : ReceiverEvent → Option Reception
  | .receive p => some p
  | .close _ => none

end ReceiverEvent

def ReceiverAnswer.written? : ReceiverAnswer → Option (Except Rejection (Option (List UInt8)))
  | .closed written => some written
  | .recorded _ => none

namespace Receiver

def step (r : Receiver) : ReceiverEvent → Checked (ReceiverAnswer × Receiver)
  | .receive p => do
    let (recording, r) ← r.arrive p.time.toInstant p.ssrc p.seq p.mark
    return (.recorded recording, r)
  | .close time => do
    let (written, r) ← r.close time.toInstant
    return (.closed written, r)

def run (r : Receiver) : List ReceiverEvent → Checked (List ReceiverAnswer × Receiver)
  | [] => .ok ([], r)
  | e :: rest => do
    let (answer, r) ← r.step e
    let (answers, r) ← r.run rest
    return (answer :: answers, r)

theorem run_cons_eq_ok {r r₁ r₂ : Receiver} {e : ReceiverEvent} {rest : List ReceiverEvent}
    {answer : ReceiverAnswer} {answers : List ReceiverAnswer} (hstep : r.step e = .ok (answer, r₁))
    (hrest : r₁.run rest = .ok (answers, r₂)) :
    r.run (e :: rest) = .ok (answer :: answers, r₂) := by
  rw [run, hstep]
  show r₁.run rest >>= _ = _
  rw [hrest]
  rfl

theorem run_append (r : Receiver) (events events' : List ReceiverEvent) :
    r.run (events ++ events') = do
      let (answers, r) ← r.run events
      let (answers', r) ← r.run events'
      return (answers ++ answers', r) := by
  induction events generalizing r with
  | nil => exact (bind_pure (r.run events')).symm
  | cons e rest ih =>
    simp only [List.cons_append, run, ih, bind_assoc, pure_bind]

end Receiver

/-- Not after the other time, nor so long before it that they cannot be subtracted. -/
structure Finite.Precedes (t u : Finite) : Prop where
  le : t.value ≤ u.value
  near : u.value - t.value < 0x7fffffffffffffff

instance (t u : Finite) : Decidable (t.Precedes u) :=
  decidable_of_iff (t.value ≤ u.value ∧ u.value - t.value < 0x7fffffffffffffff)
    ⟨fun h ↦ ⟨h.1, h.2⟩, fun h ↦ ⟨h.le, h.near⟩⟩

def Steady (times : List Finite) : Prop := times.Pairwise Finite.Precedes

instance (times : List Finite) : Decidable (Steady times) :=
  inferInstanceAs (Decidable (times.Pairwise Finite.Precedes))

/-! ### Intervals -/

/-- What arrives between two closings, and the time of the second. -/
structure Interval where
  received : List Reception
  stop : Finite

/-- The intervals that end, and what has arrived in the one that has not. -/
def intervals (gathered : List Reception) : List ReceiverEvent → List Interval × List Reception
  | [] => ([], gathered)
  | .receive p :: rest => intervals (gathered ++ [p]) rest
  | .close time :: rest =>
    let (ended, unended) := intervals [] rest
    (⟨gathered, time⟩ :: ended, unended)

/-- No arrival is left out and none is in two intervals. -/
theorem flatMap_intervals (events : List ReceiverEvent) (gathered : List Reception) :
    (intervals gathered events).1.flatMap Interval.received ++ (intervals gathered events).2 =
      gathered ++ events.filterMap ReceiverEvent.reception? := by
  induction events generalizing gathered with
  | nil => simp [intervals]
  | cons e rest ih =>
    cases e <;> simp [intervals, ih, ReceiverEvent.reception?, List.filterMap_cons]

def firstOf (received : List Reception) (ssrc : UInt32) (seq : UInt16) : Option Reception :=
  received.find? fun p ↦ p.ssrc = ssrc ∧ p.seq = seq

/-- Whole milliseconds from one time to another. -/
def Finite.millisSince (t reference : Finite) : Int := (t.value - reference.value) / 1000

/-- What stays as it is once a receiver has started. -/
structure Receiver.Terms where
  ssrc : UInt32
  interval : Duration
  reference : Finite

/-- The report tells of the interval, the `count`th since the receiver started: each packet that
has arrived in it has one entry, of its first arrival. -/
structure Interval.Told (iv : Interval) (terms : Receiver.Terms) (count : Nat) (r : Report) :
    Prop where
  sender : r.sender = terms.ssrc
  number : r.number.toNat = count % 2 ^ 16
  monitored : terms.interval.millis = .ok r.monitored.toNat
  arrivals : ∀ ssrc seq, Option.Rel (fun a p ↦ a.mark = p.mark ∧
      (r.time.toNat : Int) - a.time.toNat =
        iv.stop.millisSince terms.reference - p.time.millisSince terms.reference)
    (r.arrivals? ssrc seq) (firstOf iv.received ssrc seq)

/-- A closed interval is answered by its report, or by why that is not written. -/
inductive Interval.Answered (iv : Interval) (terms : Receiver.Terms) (count : Nat) :
    Except Rejection (Option (List UInt8)) → Prop
  | written {r r' : Report} {bytes : List UInt8} (htold : iv.Told terms count r)
      (hencode : r.encode = .ok bytes) (hdecode : Report.decode bytes = (.ok r', []))
      (htold' : iv.Told terms count r') : iv.Answered terms count (.ok (some bytes))
  | refused {r : Report} {rejection : Rejection} (htold : iv.Told terms count r)
      (hencode : r.encode = .error (.rejected rejection)) :
      iv.Answered terms count (.error rejection)

theorem Interval.Told.readBack {iv : Interval} {terms : Receiver.Terms} {count : Nat} {r : Report}
    (htold : iv.Told terms count r) (h : r.Writable) : iv.Told terms count (r.readBack h) := by
  refine ⟨htold.sender, htold.number, htold.monitored, fun ssrc seq ↦ ?_⟩
  have harrivals := htold.arrivals ssrc seq
  generalize firstOf iv.received ssrc seq = first at harrivals ⊢
  rw [Report.readBack, Report.arrivals?_retime]
  cases ha : r.arrivals? ssrc seq with
  | none =>
    rw [ha] at harrivals
    cases harrivals
    exact .none
  | some a =>
    have hsame := Report.toNat_readBack h ha
    rw [ha] at harrivals
    cases harrivals with
    | some hp =>
      obtain ⟨hmark, hoffset⟩ := hp
      refine .some ⟨hmark, ?_⟩
      rw [← hoffset]
      show ((r.readBack h).time.toNat : Int) - (a.time + _).toNat = _
      omega

/-! ### What the receiver holds -/

namespace Finite

variable {t u : Finite}

theorem Precedes.exists_sub (h : t.Precedes u) : ∃ d : Duration,
    (u.toInstant - t.toInstant : Checked Duration) = .ok d ∧
      d.micros = .ok (u.value - t.value) := by
  have hlower : -0x8000000000000000 < u.value - t.value := by
    have := h.le
    omega
  obtain ⟨d, hd⟩ := Quantity.exists_toInt (d := .time) hlower h.near
  exact ⟨d, (Quantity.sub_eq_ok_iff (a := ⟨.finite u⟩) (b := ⟨.finite t⟩) rfl rfl).mpr hd, hd⟩

theorem Precedes.millisSince_bounds (h : t.Precedes u) :
    0 ≤ u.millisSince t ∧ u.millisSince t < 0x8000000000000000 := by
  obtain ⟨hle, hnear⟩ := h
  unfold millisSince
  omega

theorem Precedes.toNat_millisSince (h : t.Precedes u) :
    ((UInt64.ofNat (u.millisSince t).toNat).toNat : Int) = u.millisSince t := by
  have := h.millisSince_bounds
  rw [UInt64.toNat_ofNat']
  omega

theorem millisSince_mono (h : t.value ≤ u.value) (reference : Finite) :
    t.millisSince reference ≤ u.millisSince reference :=
  Int.ediv_le_ediv (by decide) (Int.sub_le_sub_right h reference.value)

end Finite

section Steady

variable {t u : Finite} {times : List Finite}

theorem Steady.ends (h : Steady (t :: times ++ [u])) : t.Precedes u :=
  (List.pairwise_append.mp h).2.2 t (by simp) u (by simp)

theorem Steady.between (h : Steady (t :: times ++ [u])) {v : Finite} (hv : v ∈ times) :
    t.Precedes v ∧ v.Precedes u := by
  obtain ⟨hbefore, -, hlast⟩ := List.pairwise_append.mp h
  exact ⟨(List.pairwise_cons.mp hbefore).1 v hv, hlast v (by simp [hv]) u (by simp)⟩

end Steady

/-- No arrival is after the report. -/
theorem Interval.Told.dated {iv : Interval} {terms : Receiver.Terms} {count : Nat} {r : Report}
    (htold : iv.Told terms count r)
    (hsteady : Steady (terms.reference :: iv.received.map Reception.time ++ [iv.stop]))
    (ssrc : UInt32) (seq : UInt16) (a : Arrival) (ha : r.arrivals? ssrc seq = some a) :
    a.time ≤ r.time := by
  have harrivals := htold.arrivals ssrc seq
  rw [ha] at harrivals
  cases hfirst : firstOf iv.received ssrc seq with
  | none =>
    rw [hfirst] at harrivals
    cases harrivals
  | some p =>
    rw [hfirst] at harrivals
    obtain ⟨-, hoffset⟩ := Option.rel_some_some.mp harrivals
    have hbetween := hsteady.between (List.mem_map_of_mem (List.mem_of_find?_eq_some hfirst))
    have hle := Finite.millisSince_mono hbetween.2.le terms.reference
    rw [UInt64.le_iff_toNat_le]
    omega

theorem Receiver.elapsed_eq {reference now : Finite} (h : reference.Precedes now) :
    Receiver.elapsed reference.toInstant now.toInstant =
      .ok (UInt64.ofNat (now.millisSince reference).toNat) := by
  obtain ⟨d, hd, hmicros⟩ := h.exists_sub
  have hmillis : (now.value - reference.value).toNat / 1000 =
      (now.millisSince reference).toNat := by
    unfold Finite.millisSince
    omega
  unfold elapsed
  rw [hd, ← hmillis]
  show (do let micros ← d.micros; _) = _
  rw [hmicros]
  rfl

def Reception.arrival (p : Reception) (reference : Finite) : Arrival :=
  ⟨p.mark, UInt64.ofNat (p.time.millisSince reference).toNat⟩

namespace Receiver

/-- The receiver has closed `count` intervals and holds what has arrived since. -/
structure Gathers (r : Receiver) (terms : Terms) (count : Nat) (gathered : List Reception) :
    Prop where
  sender : r.report.sender = terms.ssrc
  interval : r.interval = terms.interval
  reference : r.reference = some terms.reference.toInstant
  number : r.report.number = UInt16.ofNat count
  arrivals : ∀ ssrc seq, r.report.arrivals? ssrc seq =
    (firstOf gathered ssrc seq).map (Reception.arrival · terms.reference)

variable {r : Receiver} {terms : Terms} {count : Nat} {gathered : List Reception}

theorem arrive_eq {p : Reception} (hreference : r.reference = some terms.reference.toInstant)
    (htime : terms.reference.Precedes p.time) :
    ∃ recording, r.arrive p.time.toInstant p.ssrc p.seq p.mark = .ok (recording, { r with
      report := r.report.insertNew p.ssrc p.seq (p.arrival terms.reference) }) := by
  have hrecord := r.report.record_snd p.ssrc p.seq (p.arrival terms.reference).time p.mark.bits
  rw [EcnMark.ofBits?_bits] at hrecord
  refine ⟨(r.report.record p.ssrc p.seq (p.arrival terms.reference).time p.mark.bits).1, ?_⟩
  unfold arrive
  simp only [hreference, Option.getD_some, elapsed_eq htime]
  show Except.ok (_, Receiver.mk (Report.record _ _ _ (p.arrival _).time _).2 _ _) = _
  rw [hrecord]
  rfl

theorem Gathers.arrive (hr : r.Gathers terms count gathered) {p : Reception}
    (htime : terms.reference.Precedes p.time) :
    ∃ recording r', r.arrive p.time.toInstant p.ssrc p.seq p.mark = .ok (recording, r') ∧
      r'.Gathers terms count (gathered ++ [p]) := by
  obtain ⟨recording, harrive⟩ := arrive_eq hr.reference htime
  refine ⟨recording, _, harrive, hr.sender, hr.interval, hr.reference, hr.number,
    fun ssrc seq ↦ ?_⟩
  show (r.report.insertNew _ _ _).arrivals? ssrc seq = _
  rw [Report.arrivals?_insertNew, hr.arrivals, hr.arrivals]
  unfold firstOf
  rw [List.find?_append, List.find?_singleton]
  by_cases hsame : p.ssrc = ssrc ∧ p.seq = seq
  · obtain ⟨rfl, rfl⟩ := hsame
    cases gathered.find? fun q ↦ q.ssrc = p.ssrc ∧ q.seq = p.seq <;> simp
  · have hother : ¬ (ssrc = p.ssrc ∧ seq = p.seq) := fun h ↦ hsame ⟨h.1.symm, h.2.symm⟩
    simp [hsame, hother]

/-- The report of the interval, before it is written. -/
theorem Gathers.told {stop : Finite} {monitored : UInt16} (hr : r.Gathers terms count gathered)
    (hmonitored : terms.interval.millis = .ok monitored.toNat)
    (hsteady : Steady (terms.reference :: gathered.map Reception.time ++ [stop])) :
    Interval.Told ⟨gathered, stop⟩ terms (count + 1) { r.report with
      number := r.report.number + 1, monitored,
      time := UInt64.ofNat (stop.millisSince terms.reference).toNat } := by
  refine ⟨hr.sender, ?_, hmonitored, fun ssrc seq ↦ ?_⟩
  · show (r.report.number + 1).toNat = _
    rw [hr.number, UInt16.toNat_add, UInt16.toNat_ofNat', UInt16.toNat_one]
    omega
  · show Option.Rel _ (r.report.arrivals? ssrc seq) _
    rw [hr.arrivals]
    cases hfirst : firstOf gathered ssrc seq with
    | none => exact .none
    | some p =>
      have hp : p ∈ gathered := List.mem_of_find?_eq_some hfirst
      refine .some ⟨rfl, ?_⟩
      dsimp only [Reception.arrival]
      have hbetween := hsteady.between (List.mem_map_of_mem hp)
      rw [hsteady.ends.toNat_millisSince, hbetween.1.toNat_millisSince]

theorem Gathers.close {stop : Finite} {monitored : UInt16} (hr : r.Gathers terms count gathered)
    (hmonitored : terms.interval.millis = .ok monitored.toNat)
    (hsteady : Steady (terms.reference :: gathered.map Reception.time ++ [stop])) :
    ∃ written r', r.close stop.toInstant = .ok (written, r') ∧
      Interval.Answered ⟨gathered, stop⟩ terms (count + 1) written ∧
      r'.Gathers terms (count + 1) [] := by
  let report : Report := { r.report with
    number := r.report.number + 1, monitored,
    time := UInt64.ofNat (stop.millisSince terms.reference).toNat }
  have htold : Interval.Told ⟨gathered, stop⟩ terms (count + 1) report := hr.told hmonitored hsteady
  have hclose : r.close stop.toInstant = report.encode.settle >>= fun written ↦
      pure (written.map some, { r with report := report.clear }) := by
    unfold Receiver.close
    simp only [hr.reference, hr.interval, elapsed_eq hsteady.ends, hmonitored]
    show (Report.encode { r.report with
      number := r.report.number + 1, monitored := UInt16.ofNat (monitored.toNat : Int).toNat,
      time := UInt64.ofNat (stop.millisSince terms.reference).toNat }).settle >>= _ = _
    rw [Int.toNat_natCast, UInt16.ofNat_toNat]
  have hcleared : Gathers { r with report := report.clear } terms (count + 1) [] := by
    refine ⟨hr.sender, hr.interval, hr.reference, ?_, fun ssrc seq ↦ ?_⟩
    · show r.report.number + 1 = _
      rw [hr.number]
      exact (UInt16.ofNat_add count 1).symm
    · simp [Report.arrivals?, Report.clear, firstOf]
  have hfaultless : Faultless report.encode :=
    Report.faultless_encode (htold.dated hsteady) (by
      have := hsteady.ends.toNat_millisSince
      have := hsteady.ends.millisSince_bounds
      dsimp only [report]
      omega)
  obtain ⟨bytes, hencode, hsettle⟩ | ⟨rejection, hencode, hsettle⟩ := hfaultless.settle_cases
  · obtain ⟨h, hdecode⟩ := Report.decode_of_encode hencode
    exact ⟨_, _, by rw [hclose, hsettle]; rfl,
      .written htold hencode hdecode (htold.readBack h), hcleared⟩
  · exact ⟨_, _, by rw [hclose, hsettle]; rfl, .refused htold hencode, hcleared⟩

/-- A started receiver answers for each interval that is closed, and holds the rest. -/
theorem Gathers.run {monitored : UInt16} {events : List ReceiverEvent}
    (hr : r.Gathers terms count gathered) (hmonitored : terms.interval.millis = .ok monitored.toNat)
    (hsteady : Steady
      (terms.reference :: gathered.map Reception.time ++ events.map ReceiverEvent.time)) :
    ∃ answers r', r.run events = .ok (answers, r') ∧
      List.Forall₂ (fun iv written ↦ iv.1.Answered terms iv.2 written)
        ((intervals gathered events).1.zipIdx (count + 1))
        (answers.filterMap ReceiverAnswer.written?) ∧
      r'.Gathers terms (count + (intervals gathered events).1.length)
        (intervals gathered events).2 := by
  induction events generalizing r count gathered with
  | nil => exact ⟨[], r, rfl, .nil, hr⟩
  | cons e rest ih =>
    cases e with
    | receive p =>
      have hp : terms.reference.Precedes p.time :=
        (List.pairwise_cons.mp hsteady).1 p.time (by simp [ReceiverEvent.time])
      obtain ⟨recording, r₁, harrive, hr₁⟩ := hr.arrive hp
      have hrest : Steady (terms.reference :: (gathered ++ [p]).map Reception.time ++
          rest.map ReceiverEvent.time) := by
        simpa [ReceiverEvent.time] using hsteady
      obtain ⟨answers, r', hrun, hanswers, hr'⟩ := ih hr₁ hrest
      have hstep : r.step (.receive p) = .ok (.recorded recording, r₁) := by
        rw [step, harrive]
        rfl
      exact ⟨_, r', run_cons_eq_ok hstep hrun, hanswers, hr'⟩
    | close stop =>
      have hclosed : Steady (terms.reference :: gathered.map Reception.time ++ [stop]) :=
        hsteady.sublist (by simp [ReceiverEvent.time])
      obtain ⟨written, r₁, hclose, hanswered, hr₁⟩ := hr.close hmonitored hclosed
      have hrest : Steady (terms.reference :: [].map Reception.time ++
          rest.map ReceiverEvent.time) := by
        refine hsteady.sublist (.cons_cons _ ?_)
        exact (List.sublist_cons_self _ _).trans (List.sublist_append_right _ _)
      obtain ⟨answers, r', hrun, hanswers, hr'⟩ := ih hr₁ hrest
      have hstep : r.step (.close stop) = .ok (.closed written, r₁) := by
        rw [step, hclose]
        rfl
      have hcount : count + (intervals gathered (.close stop :: rest)).1.length =
          count + 1 + (intervals [] rest).1.length := by
        simp only [intervals, List.length_cons]
        omega
      refine ⟨_, r', run_cons_eq_ok hstep hrun, .cons hanswered hanswers, ?_⟩
      rw [hcount]
      exact hr'

/-! ### From the start -/

/-- All that becomes of an interval. -/
theorem create_cases (ssrc : UInt32) (interval : Duration) :
    (interval ≤ 0 ∧ create ssrc interval = .ok ⟨{ sender := ssrc }, defaultInterval, none⟩) ∨
    (.infinity ≤ interval ∧ create ssrc interval = .error .undefined) ∨
    ∃ millis, 0 < interval ∧ interval < .infinity ∧ interval.millis = .ok millis ∧
      create ssrc interval = .ok
        ⟨{ sender := ssrc }, if millis ≤ 65535 then interval else defaultInterval, none⟩ := by
  unfold create
  by_cases hpos : interval ≤ 0
  · rw [if_pos hpos]
    exact Or.inl ⟨hpos, rfl⟩
  · rw [if_neg hpos]
    by_cases hinfinite : .infinity ≤ interval
    · have hundefined : interval.millis = .error .undefined :=
        Quantity.millis_of_not_isFinite fun hfinite ↦
          Quantity.not_le.mpr (Quantity.isFinite_iff.mp hfinite).2 hinfinite
      rw [hundefined]
      exact Or.inr (Or.inl ⟨hinfinite, rfl⟩)
    · rw [Quantity.not_le] at hpos hinfinite
      have hfinite := Quantity.isFinite_of_nonneg (Int.le_of_lt hpos) hinfinite
      obtain ⟨millis, hmillis⟩ := Quantity.exists_millis_of_isFinite hfinite
      refine Or.inr (Or.inr ⟨millis, hpos, hinfinite, hmillis, ?_⟩)
      rw [hmillis]
      show Except.ok (Receiver.mk _ (if decide (millis ≤ 65535) then _ else _) none) = _
      simp only [decide_eq_true_eq]

/-- The interval fits the field it is told in. -/
theorem create_eq_ok {ssrc : UInt32} {interval : Duration} (h : create ssrc interval = .ok r) :
    r.report = { sender := ssrc } ∧ r.reference = none ∧
      ∃ monitored : UInt16, r.interval.millis = .ok monitored.toNat := by
  obtain ⟨-, hcreate⟩ | ⟨-, hcreate⟩ | ⟨millis, hpos, -, hmillis, hcreate⟩ :=
    create_cases ssrc interval
  · cases h.symm.trans hcreate
    exact ⟨rfl, rfl, 100, rfl⟩
  · cases h.symm.trans hcreate
  · cases h.symm.trans hcreate
    have hnonneg : 0 ≤ millis := Quantity.millis_nonneg (Int.le_of_lt hpos) hmillis
    refine ⟨rfl, rfl, ?_⟩
    by_cases hfits : millis ≤ 65535
    · refine ⟨UInt16.ofNat millis.toNat, ?_⟩
      rw [if_pos hfits, hmillis, UInt16.toNat_ofNat']
      congr 1
      omega
    · rw [if_neg hfits]
      exact ⟨100, rfl⟩

/-- Nothing is due before the first arrival. -/
theorem run_of_not_started {events : List ReceiverEvent} (hr : r.reference = none)
    (hclose : ∀ e ∈ events, e.isClose) :
    r.run events = .ok (events.map fun _ ↦ .closed (.ok none), r) := by
  induction events with
  | nil => rfl
  | cons e rest ih =>
    cases e with
    | receive p => cases hclose (.receive p) (by simp)
    | close time =>
      have hstep : r.step (.close time) = .ok (.closed (.ok none), r) := by
        unfold step Receiver.close
        rw [hr]
        rfl
      exact run_cons_eq_ok hstep (ih fun e he ↦ hclose e (by simp [he]))

/-- The first arrival starts the clock. -/
theorem run_of_first {ssrc : UInt32} {first : Reception} {rest : List ReceiverEvent}
    {monitored : UInt16} (hreport : r.report = { sender := ssrc }) (hr : r.reference = none)
    (hmonitored : r.interval.millis = .ok monitored.toNat)
    (hsteady : Steady (first.time :: rest.map ReceiverEvent.time)) :
    ∃ answers r', r.run (.receive first :: rest) = .ok (answers, r') ∧
      List.Forall₂ (fun iv written ↦ iv.1.Answered ⟨ssrc, r.interval, first.time⟩ iv.2 written)
        ((intervals [] (.receive first :: rest)).1.zipIdx 1)
        (answers.filterMap ReceiverAnswer.written?) := by
  let started : Receiver := { r with reference := some first.time.toInstant }
  have hstarted : started.Gathers ⟨ssrc, r.interval, first.time⟩ 0 [] := by
    refine ⟨?_, rfl, rfl, ?_, fun ssrc seq ↦ ?_⟩
    · exact congrArg Report.sender hreport
    · exact congrArg Report.number hreport
    · show r.report.arrivals? ssrc seq = _
      rw [hreport]
      simp [Report.arrivals?, firstOf]
  have hrun : r.run (.receive first :: rest) = started.run (.receive first :: rest) := by
    have harrive : r.arrive first.time.toInstant first.ssrc first.seq first.mark =
        started.arrive first.time.toInstant first.ssrc first.seq first.mark := by
      unfold Receiver.arrive
      rw [hr]
      rfl
    rw [Receiver.run, Receiver.run, step, step, harrive]
  have hsteady' : Steady (first.time :: [].map Reception.time ++
      (.receive first :: rest : List ReceiverEvent).map ReceiverEvent.time) := by
    refine List.pairwise_cons.mpr ⟨List.forall_mem_cons.mpr ⟨⟨Int.le_refl _, ?_⟩, ?_⟩, hsteady⟩
    · show first.time.value - first.time.value < _
      omega
    · exact (List.pairwise_cons.mp hsteady).1
  obtain ⟨answers, r', hanswers, hanswered, -⟩ := hstarted.run hmonitored hsteady'
  exact ⟨answers, r', hrun.trans hanswers, hanswered⟩

/-- Nor does it matter to what follows. -/
theorem run_append_of_not_started {idle events : List ReceiverEvent} (hr : r.reference = none)
    (hclose : ∀ e ∈ idle, e.isClose) {answers : List ReceiverAnswer} {r' : Receiver}
    (h : r.run events = .ok (answers, r')) : r.run (idle ++ events) =
      .ok (idle.map (fun _ ↦ .closed (.ok none)) ++ answers, r') := by
  rw [run_append, run_of_not_started hr hclose]
  show r.run events >>= _ = _
  rw [h]
  rfl

theorem started_cases (events : List ReceiverEvent) :
    events.dropWhile ReceiverEvent.isClose = [] ∨
      ∃ p rest, events.dropWhile ReceiverEvent.isClose = .receive p :: rest := by
  induction events with
  | nil => exact .inl rfl
  | cons e rest ih =>
    cases e with
    | receive p => exact .inr ⟨p, rest, rfl⟩
    | close time => exact ih

theorem receptions_of_started (events : List ReceiverEvent) :
    (events.dropWhile ReceiverEvent.isClose).filterMap ReceiverEvent.reception? =
      events.filterMap ReceiverEvent.reception? := by
  induction events with
  | nil => rfl
  | cons e rest ih =>
    cases e with
    | receive p => rfl
    | close time => exact ih

/-- Every arrival at a receiver is in exactly one interval. Before the first arrival a closing
answers nothing and changes nothing. From there on each closing ends an interval, whose report it
answers, or why that is not written: the number of the report counts all intervals, and it tells of
the arrivals of its own interval and of no others.

Assumes: times do not go back and can be subtracted from each other. -/
theorem arrivals_reported_once {ssrc : UInt32} {interval : Duration}
    {events : List ReceiverEvent} (hcreate : create ssrc interval = .ok r)
    (hsteady : Steady (events.map ReceiverEvent.time)) :
    let idle := events.takeWhile ReceiverEvent.isClose
    let started := events.dropWhile ReceiverEvent.isClose
    let received := events.filterMap ReceiverEvent.reception?
    r.run idle = .ok (idle.map fun _ ↦ .closed (.ok none), r) ∧
    ∃ answers r', r.run events = .ok (idle.map (fun _ ↦ .closed (.ok none)) ++ answers, r') ∧
      (∀ first ∈ received.head?,
        List.Forall₂ (fun iv written ↦ iv.1.Answered ⟨ssrc, r.interval, first.time⟩ iv.2 written)
          ((intervals [] started).1.zipIdx 1) (answers.filterMap ReceiverAnswer.written?)) ∧
      (intervals [] started).1.flatMap Interval.received ++ (intervals [] started).2 =
        received := by
  intro idle started received
  obtain ⟨hreport, hreference, monitored, hmonitored⟩ := create_eq_ok hcreate
  have hidle : ∀ e ∈ idle, e.isClose := fun e he ↦ List.mem_takeWhile_imp he
  have hevents : idle ++ started = events := List.takeWhile_append_dropWhile
  have hreceived : started.filterMap ReceiverEvent.reception? = received :=
    receptions_of_started events
  have hpartition : (intervals [] started).1.flatMap Interval.received ++ (intervals [] started).2 =
      received := by
    rw [flatMap_intervals, hreceived, List.nil_append]
  have hrun : ∀ {answers r'}, r.run started = .ok (answers, r') →
      r.run events = .ok (idle.map (fun _ ↦ .closed (.ok none)) ++ answers, r') := by
    intro answers r' h
    rw [← hevents]
    exact run_append_of_not_started hreference hidle h
  refine ⟨run_of_not_started hreference hidle, ?_⟩
  have hcases : started = [] ∨ ∃ p rest, started = .receive p :: rest := started_cases events
  obtain hstarted | ⟨p, rest, hstarted⟩ := hcases
  · refine ⟨[], r, hrun (by rw [hstarted]; rfl), fun first hfirst ↦ ?_, hpartition⟩
    rw [← hreceived, hstarted] at hfirst
    cases hfirst
  · have hlater : Steady (p.time :: rest.map ReceiverEvent.time) := by
      have hsublist : started.Sublist events := List.dropWhile_sublist _
      rw [hstarted] at hsublist
      exact hsteady.sublist (hsublist.map ReceiverEvent.time)
    obtain ⟨answers, r', hanswers, hanswered⟩ := run_of_first hreport hreference hmonitored hlater
    refine ⟨answers, r', hrun (by rw [hstarted]; exact hanswers), fun first hfirst ↦ ?_, hpartition⟩
    rw [← hreceived, hstarted] at hfirst
    cases hfirst
    rwa [hstarted]

/-- A closing before the first arrival, a packet that arrives twice on either side of a wrap, an
interval without arrivals and one that is too long to be reported. -/
def withLateClose : List ReceiverEvent :=
  [.close ⟨100000, by decide, by decide⟩,
   .receive ⟨⟨1000000, by decide, by decide⟩, 9, 65535, .ect1⟩,
   .receive ⟨⟨1020500, by decide, by decide⟩, 9, 0, .ce⟩,
   .receive ⟨⟨1020900, by decide, by decide⟩, 9, 65535, .ce⟩,
   .close ⟨1050000, by decide, by decide⟩,
   .close ⟨1100000, by decide, by decide⟩,
   .receive ⟨⟨1150000, by decide, by decide⟩, 9, 1, .ect0⟩,
   .close ⟨9900000, by decide, by decide⟩,
   .receive ⟨⟨9950000, by decide, by decide⟩, 9, 2, .ect0⟩,
   .close ⟨9960000, by decide, by decide⟩,
   .receive ⟨⟨9970000, by decide, by decide⟩, 9, 3, .ect0⟩]

theorem arrivals_reported_once_withLateClose : ∃ r answers r',
    create 7 (Quantity.exactly 50000) = .ok r ∧
    r.run withLateClose = .ok (.closed (.ok none) :: answers, r') ∧
    List.Forall₂ (fun iv written ↦
        iv.1.Answered ⟨7, r.interval, ⟨1000000, by decide, by decide⟩⟩ iv.2 written)
      ((intervals [] withLateClose.tail).1.zipIdx 1)
      (answers.filterMap ReceiverAnswer.written?) ∧
    (answers.filterMap ReceiverAnswer.written?).map Except.isOk = [true, true, false, true] := by
  obtain ⟨⟨answers', _⟩, hrun', htest⟩ := exists_ok_of_any
    (x := create 7 (Quantity.exactly 50000) >>= fun r ↦ r.run withLateClose)
    (fun (answers, _) ↦ decide ((answers.filterMap ReceiverAnswer.written?).map Except.isOk =
      [true, true, true, false, true])) (by decide +kernel)
  obtain ⟨r, hcreate, hrun'⟩ := bind_eq_ok_iff.mp hrun'
  have hsteady : Steady (withLateClose.map ReceiverEvent.time) := by decide
  obtain ⟨-, answers, r', hrun, hanswered, -⟩ := arrivals_reported_once hcreate hsteady
  cases hrun.symm.trans hrun'
  exact ⟨r, answers, _, hcreate, hrun, hanswered _ rfl,
    (List.cons.inj (of_decide_eq_true htest)).2⟩

end Receiver

end Congestion
