import Congestion.Proofs.Sender.Accounts
import Congestion.Proofs.Sender.Reading
import Congestion.Proofs.Wire.RoundTrip

/-!
# Whole reports moved in time

`Report.shift` moves a report and all its arrivals by the same time. As long as none of them leaves
its word (`Report.Shiftable`), the order of the arrivals is kept and so is how long each has waited:
the period of the report stays where it is (`Period.ofReport_shift`), and in its accounting nothing
but the arrivals of the samples moves (`Accounting.ofReport_retime`).

A report that is written is read back as such a shift, by whole epochs of the clock
(`readBack_eq_shift`). A sender therefore learns the same of a report whether or not it has been
written and read.
-/

set_option autoImplicit false
set_option relaxedAutoImplicit false

namespace Congestion

/-! ### Times -/

/-- The time is a word also when it is moved. -/
structure Shifts (k : Int) (t : UInt64) : Prop where
  lower : 0 ≤ t.toNat + k
  upper : t.toNat + k < 2 ^ 64

def shiftTime (k : Int) (t : UInt64) : UInt64 := UInt64.ofNat (t.toNat + k).toNat

theorem Shifts.toNat_shiftTime {k : Int} {t : UInt64} (h : Shifts k t) :
    ((shiftTime k t).toNat : Int) = t.toNat + k := by
  obtain ⟨hlower, hupper⟩ := h
  rw [shiftTime, UInt64.toNat_ofNat']
  omega

theorem shiftTime_lt_iff {k : Int} {t u : UInt64} (ht : Shifts k t) (hu : Shifts k u) :
    shiftTime k t < shiftTime k u ↔ t < u := by
  rw [UInt64.lt_iff_toNat_lt, UInt64.lt_iff_toNat_lt]
  have := ht.toNat_shiftTime
  have := hu.toNat_shiftTime
  omega

/-- An arrival has waited as long for a report when both are moved. -/
theorem Arrival.waited_shift {k : Int} {a : Arrival} {report : UInt64} (ha : Shifts k a.time)
    (hreport : Shifts k report) :
    (a.retime (shiftTime k)).waited (shiftTime k report) = a.waited report := by
  have htime := ha.toNat_shiftTime
  have hshifted := hreport.toNat_shiftTime
  have hle : shiftTime k a.time ≤ shiftTime k report ↔ a.time ≤ report := by
    rw [UInt64.le_iff_toNat_le, UInt64.le_iff_toNat_le]
    omega
  unfold waited Arrival.retime
  by_cases hbefore : a.time ≤ report
  · rw [if_pos (hle.mpr hbefore), if_pos hbefore]
    apply UInt64.toNat_inj.mp
    rw [UInt64.toNat_sub_of_le _ _ (hle.mpr hbefore), UInt64.toNat_sub_of_le _ _ hbefore]
    omega
  · rw [if_neg (mt hle.mp hbefore), if_neg hbefore]

namespace Report

variable {r : Report} {k : Int}

def shift (r : Report) (k : Int) : Report := r.retime (shiftTime k)

structure Shiftable (r : Report) (k : Int) : Prop where
  time : Shifts k r.time
  arrivals : ∀ ssrc seq a, r.arrivals? ssrc seq = some a → Shifts k a.time

/-- The epochs of the clock that a report loses when it is written. -/
def epochs (r : Report) : Int := (r.time.toNat / 2 ^ 32 : Nat) - if r.SpansEpoch then 1 else 0

/-- A report is read back by whole epochs earlier. -/
theorem readBack_eq_shift (h : r.Writable) :
    r.Shiftable (-(r.epochs * 2 ^ 32)) ∧ r.readBack h = r.shift (-(r.epochs * 2 ^ 32)) := by
  have htime : ((r.readBack h).time.toNat : Int) = r.time.toNat - r.epochs * 2 ^ 32 := by
    have hlow := toNat_time_readBack h
    unfold epochs
    split at hlow <;> split <;> first | contradiction | omega
  have harrival : ∀ ssrc seq a, r.arrivals? ssrc seq = some a →
      ((a.time + ((r.body h.counted).blank.time - r.time)).toNat : Int) =
        a.time.toNat - r.epochs * 2 ^ 32 := by
    intro ssrc seq a ha
    have := toNat_readBack h ha
    omega
  have hshiftable : r.Shiftable (-(r.epochs * 2 ^ 32)) := by
    refine ⟨⟨?_, ?_⟩, fun ssrc seq a ha ↦ ⟨?_, ?_⟩⟩
    · omega
    · have := (r.readBack h).time.toNat_lt
      omega
    · have := harrival ssrc seq a ha
      omega
    · have := harrival ssrc seq a ha
      have := (a.time + ((r.body h.counted).blank.time - r.time)).toNat_lt
      omega
  have hsame : ∀ {t u : UInt64}, Shifts (-(r.epochs * 2 ^ 32)) t →
      (u.toNat : Int) = t.toNat - r.epochs * 2 ^ 32 → u = shiftTime (-(r.epochs * 2 ^ 32)) t := by
    intro t u ht hu
    have := ht.toNat_shiftTime
    apply UInt64.toNat_inj.mp
    omega
  refine ⟨hshiftable, ext_arrivals? rfl (hsame hshiftable.time htime) rfl rfl fun ssrc seq ↦ ?_⟩
  rw [readBack, shift, arrivals?_retime, arrivals?_retime]
  refine Option.map_congr fun a ha ↦ ?_
  exact congrArg (Arrival.mk a.mark)
    (hsame (hshiftable.arrivals ssrc seq a ha) (harrival ssrc seq a ha))

end Report

/-! ### What a sender reads off -/

section Readings

variable {r : Report} {k : Int} {ledger : Ledger} {period : Period}

theorem Period.ofReport_shift (h : r.Shiftable k) (ledger : Ledger) :
    Period.ofReport (r.shift k) ledger = Period.ofReport r ledger := by
  have harrival : ∀ a ∈ r.anchors, Shifts k a.arrival.time := fun a ha ↦
    h.arrivals _ _ _ (Report.mem_anchors_iff.mp ha)
  have hanchor : Anchor.ofReport (r.shift k) =
      (Anchor.ofReport r).map (Anchor.mapArrival (Arrival.retime (shiftTime k))) :=
    Anchor.ofReport_mapArrivals fun a ha b hb ↦ shiftTime_lt_iff (harrival a ha) (harrival b hb)
  refine ofReport_of_anchor hanchor rfl fun a ha ↦ ?_
  exact Arrival.waited_shift (h.arrivals _ _ _ (Anchor.arrivals?_of_ofReport ha)) h.time

theorem Accounting.ofReport_retime (clock : UInt64 → UInt64) (r : Report) (ledger : Ledger)
    (period : Period) : Accounting.ofReport (r.retime clock) ledger period =
      Accounting.retime clock <$> Accounting.ofReport r ledger period :=
  Accounting.ofReport_mapArrivals (fun _ ↦ rfl) r period

/-- A sample has the time of an arrival of the report. -/
theorem Accounting.exists_arrival_of_sample {a : Accounting}
    (h : Accounting.ofReport r ledger period = .ok a) {s : DelaySample} (hs : s ∈ a.samples) :
    ∃ arrival, r.arrivals? s.ssrc s.seq = some arrival ∧ s.arrival = arrival.time := by
  obtain ⟨arrival, _, harrival, -, -, -, htime⟩ := ((tells_of_ofReport h).samples s).mp hs
  exact ⟨arrival, harrival, htime⟩

/-- A sender reads the same off a report whether or not the report has been written and read: the
same period, or the same reason why there is none, and the same accounting with all arrivals moved
by one time. The period of any report stays where it is when the report is moved. -/
theorem readings_of_decoded {bytes : List UInt8} (hencode : r.encode = .ok bytes) :
    (∃ r' k, Report.decode bytes = (.ok r', []) ∧ ∀ ledger,
      Period.ofReport r' ledger = Period.ofReport r ledger ∧ ∀ period,
        Accounting.ofReport r' ledger period =
          Accounting.retime (shiftTime k) <$> Accounting.ofReport r ledger period ∧
        ∀ a, Accounting.ofReport r ledger period = .ok a → ∀ s ∈ a.samples,
          ((shiftTime k s.arrival).toNat : Int) = s.arrival.toNat + k) ∧
    ∀ (r : Report) (k : Int), r.Shiftable k → ∀ ledger,
      Period.ofReport (r.shift k) ledger = Period.ofReport r ledger := by
  obtain ⟨h, hdecode⟩ := Report.decode_of_encode hencode
  obtain ⟨hshiftable, hshift⟩ := Report.readBack_eq_shift h
  rw [hshift] at hdecode
  refine ⟨⟨_, _, hdecode, fun ledger ↦ ⟨Period.ofReport_shift hshiftable ledger, fun period ↦
    ⟨Accounting.ofReport_retime _ r ledger period, fun a ha s hs ↦ ?_⟩⟩⟩,
    fun r k hr ↦ Period.ofReport_shift hr⟩
  obtain ⟨arrival, harrival, htime⟩ := Accounting.exists_arrival_of_sample ha hs
  rw [htime]
  exact (hshiftable.arrivals _ _ _ harrival).toNat_shiftTime

/-- Three packets on either side of the second wrap of the clock, and one between them that has not
arrived. -/
def gapAroundWrap : Report :=
  let blank : Report := { sender := 7, time := 0x200000002, number := 3, monitored := 50 }
  (((blank.record 9 65535 0x1fffffff0 1).2.record 9 0 0x200000000 3).2.record 9 2 0x200000001 0).2

/-- Its written form. -/
def gapWritten : List UInt8 :=
  [0x8d, 205, 0, 8, 0, 0, 0, 7, 0, 0, 0, 0, 0, 0, 0, 2, 0, 3, 0, 50,
    0, 0, 0, 9, 0, 4, 0, 2, 0xa0, 18, 0xe0, 2, 0, 0, 0x80, 1]

/-- The four packets that it covers. -/
def sentAroundWrap : List LedgerCommand :=
  [.send ⟨9, 65535, ⟨Quantity.exactly 990000⟩, Quantity.exactly 1200⟩,
   .send ⟨9, 0, ⟨Quantity.exactly 1000000⟩, Quantity.exactly 1100⟩,
   .send ⟨9, 1, ⟨Quantity.exactly 1005000⟩, Quantity.exactly 1300⟩,
   .send ⟨9, 2, ⟨Quantity.exactly 1010000⟩, Quantity.exactly 1000⟩]

/-- The report is read back an epoch earlier, and is accounted for with the same bytes and the same
loss. -/
theorem readings_of_decoded_aroundWrap : ∃ r' k l account,
    Report.decode gapWritten = (.ok r', []) ∧
    Ledger.run { retention := Quantity.exactly 10000000 } sentAroundWrap = .ok l ∧
    Period.ofReport r' l = Period.ofReport gapAroundWrap l ∧
    Period.ofReport r' l = .ok ⟨961, 1011⟩ ∧
    Accounting.ofReport gapAroundWrap l ⟨961, 1011⟩ = .ok account ∧
    account.bytes.received = .exactly 3300 ∧ account.losses = 1 ∧
    account.samples.map DelaySample.arrival = [0x1fffffff0, 0x200000000, 0x200000001] ∧
    Accounting.ofReport r' l ⟨961, 1011⟩ = .ok (account.retime (shiftTime k)) ∧
    (account.retime (shiftTime k)).samples.map DelaySample.arrival =
      [0xfffffff0, 0x100000000, 0x100000001] := by
  have hencode : gapAroundWrap.encode = .ok gapWritten := by decide +kernel
  obtain ⟨⟨r', k, hdecode, hsame⟩, -⟩ := readings_of_decoded hencode
  obtain ⟨l, hrun, htest⟩ := exists_ok_of_any
    (x := Ledger.run { retention := Quantity.exactly 10000000 } sentAroundWrap)
    (fun l ↦ decide (Period.ofReport gapAroundWrap l = .ok ⟨961, 1011⟩) &&
      ((Accounting.ofReport gapAroundWrap l ⟨961, 1011⟩).toOption.any fun (a : Accounting) ↦
        a.bytes.received = .exactly 3300 ∧ a.losses = 1 ∧
          a.samples.map DelaySample.arrival = [0x1fffffff0, 0x200000000, 0x200000001]) &&
      ((Report.decode gapWritten).1.toOption.any fun r' ↦
        (Accounting.ofReport r' l ⟨961, 1011⟩).toOption.any fun a ↦
          a.samples.map DelaySample.arrival = [0xfffffff0, 0x100000000, 0x100000001]))
    (by decide +kernel)
  obtain ⟨htest, hread⟩ := Bool.and_eq_true_iff.mp htest
  obtain ⟨hperiod, haccounting⟩ := Bool.and_eq_true_iff.mp htest
  obtain ⟨account, haccount, hfigures⟩ := exists_ok_of_any _ haccounting
  obtain ⟨hreceived, hlosses, harrivals⟩ := of_decide_eq_true hfigures
  obtain ⟨hperiods, haccounts⟩ := hsame l
  obtain ⟨haccount', -⟩ := haccounts ⟨961, 1011⟩
  rw [haccount] at haccount'
  rw [hdecode] at hread
  obtain ⟨account', hmoved, hmovedArrivals⟩ :=
    exists_ok_of_any (x := Accounting.ofReport r' l ⟨961, 1011⟩) _ hread
  obtain rfl := Except.ok.inj (hmoved.symm.trans haccount')
  exact ⟨r', k, l, account, hdecode, hrun, hperiods, hperiods.trans (of_decide_eq_true hperiod),
    haccount, hreceived, hlosses, harrivals, haccount', of_decide_eq_true hmovedArrivals⟩

end Readings

end Congestion
