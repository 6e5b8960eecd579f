import Congestion.Proofs.Feedback.Intervals
import Congestion.Proofs.Sender.Anchors
import Congestion.Proofs.Sender.LedgerRuns

/-!
# Intervals that a sender can use

A receiver tells its interval in whole milliseconds, and a sender finds the period of a report that
is about packets of its ledger, unless the report monitors no time (`Period.exists_ofReport`): the
period then lasts as long as the receiver told (`Period.stop_sub_start`). `Receiver.Usable` says so
of all reports that a receiver writes in a run, read back from their bytes. `usable_iff` tells
which intervals make a receiver usable: those replaced for not being positive, and finite ones from
half a millisecond on. Below that the interval is rounded to nothing, and an infinite one is a fault
before it can be replaced (`unusable_intervals`).
-/

set_option autoImplicit false
set_option relaxedAutoImplicit false

namespace Congestion

/-! ### Whole milliseconds -/

theorem Extended.one_le_nearest_iff {n : Int} (hn : 0 ≤ n) : 1 ≤ nearest n 1000 ↔ 500 ≤ n := by
  have hquotient : n.tdiv 1000 = n / 1000 := Int.tdiv_eq_ediv_of_nonneg hn
  have hremainder : n.tmod 1000 = n % 1000 := Int.tmod_eq_emod_of_nonneg hn
  unfold nearest
  rw [hquotient, hremainder]
  obtain hzero | hpos : n = 0 ∨ 0 < n := by omega
  · subst hzero
    decide
  · rw [Int.sign_eq_one_of_pos hpos]
    split <;> omega

/-- Half a millisecond is rounded up. -/
theorem Quantity.one_le_millis_iff {t : Duration} {millis : Int} (ht : 0 ≤ t)
    (h : t.millis = .ok millis) : 1 ≤ millis ↔ .exactly 500 ≤ t := by
  obtain ⟨n, hn, rfl⟩ := map_eq_ok_iff.mp h
  have hword : t.word = n := Extended.word_of_toInt hn
  rw [le_iff, hword] at ht
  rw [le_iff, hword]
  exact Extended.one_le_nearest_iff ht

/-! ### Periods that are found -/

/-- Every packet reported to have arrived is one that the ledger has a record of. -/
def Ledger.Holds (l : Ledger) (r : Report) : Prop :=
  ∀ ssrc seq, (r.arrivals? ssrc seq).isSome → (l.lookup ssrc seq).isSome

theorem Ledger.holds_iff {l : Ledger} {r : Report} :
    l.Holds r ↔ ∀ a ∈ r.anchors, (l.lookup a.ssrc a.seq).isSome := by
  constructor
  · intro h a ha
    exact h a.ssrc a.seq (by rw [Report.mem_anchors_iff.mp ha]; rfl)
  · intro h ssrc seq harrived
    obtain ⟨arrival, harrival⟩ := Option.isSome_iff_exists.mp harrived
    exact h ⟨ssrc, seq, arrival⟩ (Report.mem_anchors_iff.mpr harrival)

instance (l : Ledger) (r : Report) : Decidable (l.Holds r) := decidable_of_iff _ l.holds_iff.symm

/-- Packets that have not waited long have been sent in a period that is found. -/
theorem Period.exists_ofReport {r : Report} {ledger : Ledger} (hholds : ledger.Holds r)
    (hmonitored : r.monitored ≠ 0) (harrived : r.anchors ≠ [])
    (hwaited : ∀ a ∈ r.anchors, (a.arrival.waited r.time).toNat ≤ 8191) :
    ∃ period, ofReport r ledger = .ok period := by
  obtain ⟨anchor, hanchor⟩ : ∃ anchor, Anchor.ofReport r = some anchor := by
    rw [Anchor.ofReport_eq, ← Option.ne_none_iff_exists']
    exact mt Anchor.foldl_later_eq_none_iff.mp harrived
  have hmem := Report.mem_anchors_iff.mpr (Anchor.arrivals?_of_ofReport hanchor)
  obtain ⟨record, hrecord⟩ := Option.isSome_iff_exists.mp (Ledger.holds_iff.mp hholds anchor hmem)
  have hwait := hwaited anchor hmem
  have hsent : -0x4000000000000000 < record.sendTime.millisFloor ∧
      record.sendTime.millisFloor < 0x4000000000000000 := by
    have := record.sendTime.lower
    have := record.sendTime.upper
    unfold Finite.millisFloor
    omega
  have hcount := r.monitored.toNat_lt
  have hsigned := toInt_toInt64 (anchor.arrival.waited r.time)
  rw [if_pos (by omega)] at hsigned
  let stop := record.sendTime.millisFloor + (anchor.arrival.waited r.time).toInt64.toInt
  refine ⟨⟨stop - r.monitored.toNat, stop⟩, ofReport_eq_ok_iff.mpr
    ⟨anchor, record, hanchor, hrecord, hmonitored, ?_, ?_⟩⟩
  · exact signed64_eq_ok_iff.mpr ⟨rfl, by omega, by omega⟩
  · exact signed64_eq_ok_iff.mpr ⟨rfl, by dsimp only [stop]; omega, by dsimp only [stop]; omega⟩

theorem Report.Writable.waited_le {r : Report} (h : r.Writable) {a : Anchor} (ha : a ∈ r.anchors) :
    (a.arrival.waited r.time).toNat ≤ 8191 := by
  have harrival := mem_anchors_iff.mp ha
  have hle := h.dated _ _ _ harrival
  have hnear := (h.near _ _ _ harrival).toNat_le hle
  rwa [Arrival.toNat_waited]

/-! ### What a receiver writes -/

namespace Receiver

variable {r r' : Receiver}

/-- All that a closing can do. -/
theorem close_eq_ok {now : Instant} {written : Except Rejection (Option (List UInt8))}
    (h : r.close now = .ok (written, r')) :
    (written = .ok none ∧ r' = r) ∨
    ∃ (report : Report) (encoded : Except Rejection (List UInt8)) (millis : Int),
      r.interval.millis = .ok millis ∧ report.monitored = UInt16.ofNat millis.toNat ∧
      report.encode.settle = .ok encoded ∧ written = encoded.map some ∧
      r' = { r with report := report.clear } := by
  unfold close at h
  split at h
  next =>
    cases h
    exact Or.inl ⟨rfl, rfl⟩
  next =>
    obtain ⟨time, -, h⟩ := bind_eq_ok_iff.mp h
    obtain ⟨millis, hmillis, h⟩ := bind_eq_ok_iff.mp h
    obtain ⟨encoded, hencoded, h⟩ := bind_eq_ok_iff.mp h
    cases h
    exact Or.inr ⟨_, encoded, millis, hmillis, rfl, hencoded, rfl, rfl⟩

/-- What is written is a report that tells the interval. -/
theorem exists_report_of_close {now : Instant} {bytes : List UInt8}
    (h : r.close now = .ok (.ok (some bytes), r')) : ∃ (report : Report) (millis : Int),
      r.interval.millis = .ok millis ∧ report.monitored = UInt16.ofNat millis.toNat ∧
      report.encode = .ok bytes := by
  obtain ⟨hnone, -⟩ | ⟨report, encoded, millis, hmillis, hmonitored, hencoded, hwritten, -⟩ :=
    close_eq_ok h
  · cases hnone
  · obtain rejection | bytes' := encoded <;> cases hwritten
    exact ⟨report, millis, hmillis, hmonitored, settle_eq_ok_ok_iff.mp hencoded⟩

theorem interval_of_arrive {now : Instant} {ssrc : UInt32} {seq : UInt16} {mark : EcnMark}
    {recording : Recording} (h : r.arrive now ssrc seq mark = .ok (recording, r')) :
    r'.interval = r.interval := by
  obtain ⟨time, -, h⟩ := bind_eq_ok_iff.mp h
  cases h
  rfl

theorem interval_of_step {e : ReceiverEvent} {answer : ReceiverAnswer}
    (h : r.step e = .ok (answer, r')) : r'.interval = r.interval := by
  cases e with
  | receive p =>
    obtain ⟨⟨_, _⟩, harrive, h⟩ := bind_eq_ok_iff.mp h
    cases h
    exact interval_of_arrive harrive
  | close time =>
    obtain ⟨⟨_, _⟩, hclose, h⟩ := bind_eq_ok_iff.mp h
    cases h
    obtain ⟨-, rfl⟩ | ⟨_, _, _, -, -, -, -, rfl⟩ := close_eq_ok hclose <;> rfl

theorem interval_of_run {events : List ReceiverEvent} {answers : List ReceiverAnswer}
    (h : r.run events = .ok (answers, r')) : r'.interval = r.interval := by
  induction events generalizing r answers with
  | nil =>
    cases h
    rfl
  | cons e rest ih =>
    obtain ⟨⟨_, _⟩, hstep, h⟩ := bind_eq_ok_iff.mp h
    obtain ⟨⟨_, _⟩, hrest, h⟩ := bind_eq_ok_iff.mp h
    cases h
    rw [ih hrest, interval_of_step hstep]

/-- The interval is some milliseconds that fit their field, and for every report on an arrival that
is written in a run, read back from its bytes, any sender that has sent what it is about finds a
period that lasts as long. -/
structure Usable (r : Receiver) : Prop where
  millis : ∃ millis, r.interval.millis = .ok millis ∧ 1 ≤ millis ∧ millis ≤ 65535
  period : ∀ events answers r' now bytes r'', r.run events = .ok (answers, r') →
    r'.close now = .ok (.ok (some bytes), r'') →
    ∃ report, Report.decode bytes = (.ok report, []) ∧
      ∀ ledger : Ledger, (∃ ssrc seq, (report.arrivals? ssrc seq).isSome) → ledger.Holds report →
        ∃ period, Period.ofReport report ledger = .ok period ∧
          r.interval.millis = .ok (period.stop - period.start)

theorem usable_of_millis {millis : Int} (hmillis : r.interval.millis = .ok millis)
    (hpos : 1 ≤ millis) (hfits : millis ≤ 65535) : r.Usable := by
  refine ⟨⟨millis, hmillis, hpos, hfits⟩, fun events answers r' now bytes r'' hrun hclose ↦ ?_⟩
  obtain ⟨report, millis', hmillis', hmonitored, hencode⟩ := exists_report_of_close hclose
  rw [interval_of_run hrun, hmillis] at hmillis'
  cases hmillis'
  have htold : (report.monitored.toNat : Int) = millis := by
    rw [hmonitored, UInt16.toNat_ofNat']
    omega
  obtain ⟨h, hdecode⟩ := Report.decode_of_encode hencode
  refine ⟨_, hdecode, fun ledger harrived hholds ↦ ?_⟩
  have hnonzero : (report.readBack h).monitored ≠ 0 := by
    intro hzero
    rw [show report.monitored = 0 from hzero, UInt16.toNat_zero] at htold
    omega
  obtain ⟨ssrc, seq, harrived⟩ := harrived
  obtain ⟨arrival, harrival⟩ := Option.isSome_iff_exists.mp harrived
  have hanchors : (report.readBack h).anchors ≠ [] := List.ne_nil_of_mem
    (Report.mem_anchors_iff.mpr (show _ = some (Anchor.mk ssrc seq arrival).arrival from harrival))
  obtain ⟨period, hperiod⟩ := Period.exists_ofReport hholds hnonzero hanchors
    fun a ha ↦ (Report.writable_readBack h).waited_le ha
  exact ⟨period, hperiod, by rw [Period.stop_sub_start hperiod, hmillis, ← htold]; rfl⟩

/-- The intervals that a sender can use are those replaced for not being positive, and from half a
millisecond on all that have an end. -/
theorem usable_iff {ssrc : UInt32} {interval : Duration} :
    (∃ r, create ssrc interval = .ok r ∧ r.Usable) ↔
      interval ≤ 0 ∨ (.exactly 500 ≤ interval ∧ interval < .infinity) := by
  have hdefault : defaultInterval.millis = .ok 100 := rfl
  obtain ⟨hreplaced, hcreate⟩ | ⟨hinfinite, hcreate⟩ |
    ⟨millis, hpos, hfinite, hmillis, hcreate⟩ := create_cases ssrc interval
  · refine iff_of_true ⟨_, hcreate, usable_of_millis hdefault ?_ ?_⟩ (Or.inl hreplaced) <;> decide
  · refine iff_of_false (fun ⟨r, hr, _⟩ ↦ ?_) ?_
    · cases hcreate.symm.trans hr
    · rintro (hreplaced | ⟨-, hfinite⟩)
      · exact Quantity.not_lt.mpr (Int.le_trans hinfinite hreplaced) Quantity.zero_lt_infinity
      · exact Quantity.not_lt.mpr hinfinite hfinite
  · have hhalf := Quantity.one_le_millis_iff (Int.le_of_lt hpos) hmillis
    have hright : interval ≤ 0 ∨ (.exactly 500 ≤ interval ∧ interval < .infinity) ↔ 1 ≤ millis := by
      rw [hhalf]
      simp [Quantity.not_le.mpr hpos, hfinite]
    rw [hright]
    constructor
    · rintro ⟨r, hr, husable⟩
      cases hcreate.symm.trans hr
      obtain ⟨millis', hmillis', hpos', -⟩ := husable.millis
      by_cases hfits : millis ≤ 65535
      · rw [if_pos hfits, hmillis] at hmillis'
        cases hmillis'
        exact hpos'
      · omega
    · intro hone
      refine ⟨_, hcreate, ?_⟩
      by_cases hfits : millis ≤ 65535
      · exact usable_of_millis (by rw [if_pos hfits]; exact hmillis) hone hfits
      · exact usable_of_millis (by rw [if_neg hfits]; exact hdefault) (by decide) (by decide)

/-- A packet and the time of its arrival. -/
def onePacket : Reception := ⟨⟨2000, by decide, by decide⟩, 9, 1, .notEct⟩

/-- The ledger of a sender that has sent it. -/
def sentOnePacket : Checked Ledger :=
  Ledger.run { retention := Quantity.exactly 10000000 }
    [.send ⟨9, 1, ⟨Quantity.exactly 1000⟩, Quantity.exactly 1200⟩]

/-- Its report, of an interval of no time. -/
def reportOfNoTime : List UInt8 :=
  [0x8d, 205, 0, 7, 0, 0, 0, 1, 0, 0, 0, 0, 0, 0, 0, 0, 0, 1, 0, 0, 0, 0, 0, 9, 0, 1, 0, 1, 0x80,
    0, 0, 0]

/-- An endless interval is a fault. One of 499 microseconds is kept and told as no time, so that the
report on a packet is rejected by the sender that has sent it. -/
theorem unusable_intervals : create 1 .infinity = .error .undefined ∧
    ∃ r answers r' r'' report ledger, create 1 (.exactly 499) = .ok r ∧
      r.interval.millis = .ok 0 ∧ r.run [.receive onePacket] = .ok (answers, r') ∧
      r'.close ⟨.exactly 2499⟩ = .ok (.ok (some reportOfNoTime), r'') ∧
      Report.decode reportOfNoTime = (.ok report, []) ∧ (report.arrivals? 9 1).isSome ∧
      sentOnePacket = .ok ledger ∧ ledger.Holds report ∧
      Period.ofReport report ledger = .error (.rejected .periodUnknown) := by
  refine ⟨rfl, ⟨{ sender := 1 }, Quantity.exactly 499, none⟩, ?_⟩
  obtain ⟨⟨answers, r'⟩, hrun, hclosed⟩ := exists_ok_of_any
    (x := Receiver.run ⟨{ sender := 1 }, Quantity.exactly 499, none⟩ [.receive onePacket])
    (fun x ↦ (x.2.close ⟨Quantity.exactly 2499⟩).toOption.any
      fun (y : Except Rejection (Option (List UInt8)) × Receiver) ↦
        decide (y.1 = .ok (some reportOfNoTime))) (by decide +kernel)
  obtain ⟨⟨written, r''⟩, hclose, hwritten⟩ := exists_ok_of_any _ hclosed
  cases of_decide_eq_true hwritten
  obtain ⟨ledger, hledger, hread⟩ := exists_ok_of_any (x := sentOnePacket)
    (fun ledger ↦ (Report.decode reportOfNoTime).1.toOption.any fun (report : Report) ↦
      decide ((report.arrivals? 9 1).isSome ∧ ledger.Holds report ∧
        Period.ofReport report ledger = .error (.rejected .periodUnknown))) (by decide +kernel)
  obtain ⟨report, hreport, htest⟩ := exists_ok_of_any _ hread
  have hrest : (Report.decode reportOfNoTime).2 = [] := by decide +kernel
  obtain ⟨harrived, hholds, hperiod⟩ := of_decide_eq_true htest
  exact ⟨answers, r', r'', report, ledger, rfl, rfl, hrun, hclose, Prod.ext hreport hrest, harrived,
    hledger, hholds, hperiod⟩

end Receiver

end Congestion
