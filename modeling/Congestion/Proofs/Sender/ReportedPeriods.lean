import Congestion.Proofs.Sender.Accounts
import Congestion.Proofs.Sender.Anchors
import Congestion.Proofs.Wire.Writing

/-!
# Where the period of a report lies

The arrivals of a report come in the order of its streams and, within one, of the range, which may
pass through 65535 (`Report.pairwise_anchors`). In this order the anchor is the first of the latest
arrivals, and it is the only one (`Report.isAnchor_iff`): of two arrivals at the latest time, one
precedes the other. With the anchor, the answer is settled in every case (`Period.ofReport_cases`).

A period lasts as long as the report monitors, and is found only where that is some time, so that it
is never empty. The anchor has arrived and has a record, and is therefore a sample itself of any
account that is given for the period.
-/

set_option autoImplicit false
set_option relaxedAutoImplicit false

namespace Congestion

/-! ### The order of a report -/

namespace StreamArrivals

variable {b : StreamArrivals}

/-- How far a number is from the start of the range, around the sequence space. -/
def place (b : StreamArrivals) (seq : UInt16) : Nat := (seq - b.firstSeq).toNat

theorem place_firstSeq_add {i : Nat} (hi : i < b.count) :
    b.place (b.firstSeq + UInt16.ofNat i) = i := by
  have hcount := b.count_le
  simp only [place, UInt16.toNat_sub, UInt16.toNat_add, UInt16.toNat_ofNat']
  have := b.firstSeq.toNat_lt
  omega

theorem pairwise_range (b : StreamArrivals) :
    b.range.Pairwise fun seq seq' ↦ b.place seq < b.place seq' := by
  refine List.pairwise_map.mpr (List.pairwise_lt_range.imp_of_mem fun {i j} hi hj hij ↦ ?_)
  rwa [place_firstSeq_add (List.mem_range.mp hi), place_firstSeq_add (List.mem_range.mp hj)]

theorem pairwise_entries (b : StreamArrivals) :
    b.entries.Pairwise fun x y ↦ b.place x.1 < b.place y.1 := by
  refine List.pairwise_filterMap.mpr (b.pairwise_range.imp fun hlt x hx y hy ↦ ?_)
  obtain ⟨_, -, rfl⟩ := Option.map_eq_some_iff.mp hx
  obtain ⟨_, -, rfl⟩ := Option.map_eq_some_iff.mp hy
  exact hlt

end StreamArrivals

namespace Report

variable {r : Report} {a b : Anchor}

/-- On an earlier stream, or earlier in the range of the same one. -/
def Precedes (r : Report) (a b : Anchor) : Prop :=
  a.ssrc < b.ssrc ∨ a.ssrc = b.ssrc ∧
    ((r.stream? a.ssrc).getD {}).place a.seq < ((r.stream? a.ssrc).getD {}).place b.seq

theorem Precedes.asymm (h : r.Precedes a b) : ¬ r.Precedes b a := by
  intro h'
  rcases h with hlt | ⟨heq, hlt⟩ <;> rcases h' with hlt' | ⟨heq', hlt'⟩
  · exact UInt32.lt_asymm hlt hlt'
  · exact UInt32.lt_irrefl _ (heq' ▸ hlt)
  · exact UInt32.lt_irrefl _ (heq ▸ hlt')
  · rw [heq'] at hlt'
    exact Nat.lt_asymm hlt hlt'

theorem pairwise_anchors (r : Report) : r.anchors.Pairwise r.Precedes := by
  refine List.pairwise_flatMap.mpr ⟨fun stream hstream ↦ ?_, ?_⟩
  · have hfound : r.stream? stream.1 = some stream.2 := mem_toList_iff.mp hstream
    refine List.pairwise_map.mpr (stream.2.pairwise_entries.imp fun hlt ↦ Or.inr ⟨rfl, ?_⟩)
    rw [hfound]
    exact hlt
  · refine Std.ExtTreeMap.ordered_keys_toList.imp fun hlt a ha b hb ↦ Or.inl ?_
    obtain ⟨_, -, rfl⟩ := List.mem_map.mp ha
    obtain ⟨_, -, rfl⟩ := List.mem_map.mp hb
    exact compareOfLessAndEq_eq_lt.mp hlt

/-- Of the arrivals of a report, none is later, and all others of its time come after it. -/
structure IsAnchor (r : Report) (a : Anchor) : Prop where
  arrived : r.arrivals? a.ssrc a.seq = some a.arrival
  latest : ∀ b : Anchor, r.arrivals? b.ssrc b.seq = some b.arrival →
    b.arrival.time ≤ a.arrival.time
  first : ∀ b : Anchor, r.arrivals? b.ssrc b.seq = some b.arrival →
    b.arrival.time = a.arrival.time → b = a ∨ r.Precedes a b

theorem isAnchor_of_ofReport (h : Anchor.ofReport r = some a) : r.IsAnchor a := by
  have harrived := Anchor.arrivals?_of_ofReport h
  rw [Anchor.ofReport_eq] at h
  obtain ⟨before, after, hsplit, hbefore, hafter⟩ := Anchor.exists_split_of_foldl_later h
  have hordered := r.pairwise_anchors
  rw [hsplit] at hordered
  have hcases : ∀ b : Anchor, r.arrivals? b.ssrc b.seq = some b.arrival →
      b ∈ before ∨ b = a ∨ b ∈ after := by
    intro b hb
    have hmem := mem_anchors_iff.mpr hb
    rwa [hsplit, List.mem_append, List.mem_cons] at hmem
  refine ⟨harrived, fun b hb ↦ ?_, fun b hb htime ↦ ?_⟩
  · rcases hcases b hb with hb | rfl | hb
    · exact UInt64.le_of_lt (hbefore b hb)
    · exact UInt64.le_refl _
    · exact hafter b hb
  · rcases hcases b hb with hb | rfl | hb
    · exact absurd (hbefore b hb) (htime ▸ UInt64.lt_irrefl _)
    · exact Or.inl rfl
    · exact Or.inr ((List.pairwise_cons.mp (List.pairwise_append.mp hordered).2.1).1 b hb)

/-- There is one anchor at most. -/
theorem IsAnchor.unique (ha : r.IsAnchor a) (hb : r.IsAnchor b) : a = b := by
  have htime : a.arrival.time = b.arrival.time :=
    UInt64.le_antisymm (hb.latest a ha.arrived) (ha.latest b hb.arrived)
  rcases hb.first a ha.arrived htime with heq | hba
  · exact heq
  · rcases ha.first b hb.arrived htime.symm with heq | hab
    · exact heq.symm
    · exact absurd hab hba.asymm

end Report

theorem Anchor.ofReport_eq_none_iff {r : Report} :
    ofReport r = none ↔ ∀ ssrc seq, r.arrivals? ssrc seq = none := by
  rw [ofReport_eq, foldl_later_eq_none_iff, List.eq_nil_iff_forall_not_mem]
  constructor
  · intro hnone ssrc seq
    cases h : r.arrivals? ssrc seq with
    | none => rfl
    | some arrival => exact absurd (Report.mem_anchors_iff.mpr h) (hnone ⟨ssrc, seq, arrival⟩)
  · intro hnone a ha
    rw [Report.mem_anchors_iff, hnone] at ha
    cases ha

theorem Report.isAnchor_iff {r : Report} {a : Anchor} :
    r.IsAnchor a ↔ Anchor.ofReport r = some a := by
  refine ⟨fun ha ↦ ?_, isAnchor_of_ofReport⟩
  cases h : Anchor.ofReport r with
  | none =>
    have harrived := ha.arrived
    rw [Anchor.ofReport_eq_none_iff.mp h] at harrived
    cases harrived
  | some b => rw [(isAnchor_of_ofReport h).unique ha]

/-! ### Periods -/

/-- The sample of the anchor itself. -/
def Anchor.sample (a : Anchor) (record : SentRecord) : DelaySample where
  ssrc := a.ssrc
  seq := a.seq
  sendTime := record.sendTime.toInstant
  arrival := a.arrival.time
  size := record.size

namespace Period

variable {r : Report} {ledger : Ledger} {period : Period} {account : Accounting} {a : Anchor}
  {record : SentRecord}

/-- When a period stops: the anchor was sent, and has waited for the report. -/
def stopOf (r : Report) (a : Anchor) (record : SentRecord) : Int :=
  record.sendTime.millisFloor + max 0 ((r.time.toNat : Int) - a.arrival.time.toNat)

/-- The time waited is a signed word, and so is where the period stops. -/
structure Tellable (r : Report) (a : Anchor) (record : SentRecord) : Prop where
  waited : (r.time.toNat : Int) - a.arrival.time.toNat < 2 ^ 63
  stop : stopOf r a record < 2 ^ 63

theorem ofReport_eq_ok_of_anchor (ha : Anchor.ofReport r = some a)
    (hrecord : ledger.lookup a.ssrc a.seq = some record) (hmonitored : r.monitored ≠ 0)
    (htellable : Tellable r a record) :
    ofReport r ledger = .ok ⟨stopOf r a record - r.monitored.toNat, stopOf r a record⟩ := by
  obtain ⟨hwaited, hstop⟩ := htellable
  have hsent : -0x4000000000000000 < record.sendTime.millisFloor :=
    (Instant.millisFloor_bounds (t := record.sendTime.toInstant) rfl).1
  have hlength := r.monitored.toNat_lt
  have hsum : record.sendTime.millisFloor + (a.arrival.waited r.time).toInt64.toInt =
      stopOf r a record := by
    rw [toInt_toInt64, a.arrival.toNat_waited, if_pos (by omega), stopOf]
    omega
  have hstart : record.sendTime.millisFloor ≤ stopOf r a record :=
    Int.le_add_of_nonneg_right (Int.le_max_left _ _)
  refine ofReport_eq_ok_iff.mpr ⟨a, record, ha, hrecord, hmonitored, ?_, ?_⟩
  · exact signed64_eq_ok_iff.mpr ⟨hsum.symm, by omega, by omega⟩
  · exact signed64_eq_ok_iff.mpr ⟨rfl, by dsimp only; omega, by dsimp only; omega⟩

/-- The anchor is a sample of every account. -/
theorem sample_mem_samples (ha : r.IsAnchor a)
    (hrecord : ledger.lookup a.ssrc a.seq = some record)
    (h : Accounting.ofReport r ledger period = .ok account) :
    a.sample record ∈ account.samples :=
  ((Accounting.tells_of_ofReport h).samples _).mpr
    ⟨a.arrival, record, ha.arrived, hrecord, rfl, rfl, rfl⟩

/-- A report that something has arrived for has one anchor, the first of its latest arrivals. Its
period is not known when nothing has arrived; else, when the anchor has no record, it is this that
is missed; else the period is not known when no time is monitored. In all other cases the period
stops when the anchor has waited for the report, is as long as the report monitors and not empty,
and every account over it has the sample of the anchor.

Assumes, of the period: the time waited and the stop fit their words; of the account: its sums can
be added up. -/
theorem ofReport_cases (r : Report) (ledger : Ledger) :
    ((∀ ssrc seq, r.arrivals? ssrc seq = none) →
      ofReport r ledger = .error (.rejected .periodUnknown)) ∧
    (∀ ssrc seq arrival, r.arrivals? ssrc seq = some arrival → ∃! a, r.IsAnchor a) ∧
    ∀ a, r.IsAnchor a →
      (ledger.lookup a.ssrc a.seq = none →
        ofReport r ledger = .error (.rejected (.ledgerMiss a.ssrc a.seq))) ∧
      ∀ record, ledger.lookup a.ssrc a.seq = some record →
        (r.monitored = 0 → ofReport r ledger = .error (.rejected .periodUnknown)) ∧
        (r.monitored ≠ 0 → Tellable r a record →
          ∃ period, ofReport r ledger = .ok period ∧
            period.stop = record.sendTime.millisFloor +
              max 0 ((r.time.toNat : Int) - a.arrival.time.toNat) ∧
            period.start = period.stop - r.monitored.toNat ∧ period.start < period.stop ∧
            (Accounting.Fits r ledger period →
              ∃ account, Accounting.ofReport r ledger period = .ok account) ∧
            ∀ account, Accounting.ofReport r ledger period = .ok account →
              a.sample record ∈ account.samples) := by
  refine ⟨fun hnone ↦ ?_, fun ssrc seq arrival harrival ↦ ?_, fun a ha ↦ ?_⟩
  · rw [ofReport, Anchor.ofReport_eq_none_iff.mpr hnone]
    rfl
  · cases h : Anchor.ofReport r with
    | none =>
      rw [Anchor.ofReport_eq_none_iff.mp h] at harrival
      cases harrival
    | some a =>
      have ha := Report.isAnchor_of_ofReport h
      exact ⟨a, ha, fun b hb ↦ hb.unique ha⟩
  · have hanchor := Report.isAnchor_iff.mp ha
    refine ⟨fun hmissed ↦ ?_, fun record hrecord ↦
      ⟨fun hmonitored ↦ ?_, fun hmonitored htellable ↦ ?_⟩⟩
    · simp only [ofReport, hanchor, hmissed]
      rfl
    · simp only [ofReport, hanchor, hrecord, hmonitored, if_true]
      rfl
    · refine ⟨_, ofReport_eq_ok_of_anchor hanchor hrecord hmonitored htellable, rfl, rfl, ?_,
        Accounting.exists_ofReport_iff.mpr, fun account ↦ sample_mem_samples ha hrecord⟩
      have hpos : 0 < r.monitored.toNat :=
        Nat.pos_of_ne_zero fun hzero ↦ hmonitored (UInt16.toNat_inj.mp hzero)
      dsimp only
      omega

/-- The latest time is that of three arrivals, of which the first in the order of the report is
65535, as stream 2 passes through it. -/
def latestAcrossWrap : Report :=
  [(5, 1, 590), (2, 0, 590), (2, 65535, 590), (1, 7, 580)].foldl
    (fun r (ssrc, seq, time) ↦ (r.record ssrc seq time 0).2) { time := 600, monitored := 100 }

theorem ofReport_cases_latestAcrossWrap : ∃ l record account,
    Ledger.run { retention := .exactly 10000000 }
      [.send ⟨2, 65535, ⟨.exactly 1000000⟩, .exactly 100⟩] = .ok l ∧
    (∃! a, latestAcrossWrap.IsAnchor a) ∧ latestAcrossWrap.IsAnchor ⟨2, 65535, .notEct, 590⟩ ∧
    Period.ofReport latestAcrossWrap { retention := .exactly 10000000 } =
      .error (.rejected (.ledgerMiss 2 65535)) ∧
    Period.ofReport {} l = .error (.rejected .periodUnknown) ∧
    Period.ofReport latestAcrossWrap l = .ok ⟨910, 1010⟩ ∧
    Accounting.ofReport latestAcrossWrap l ⟨910, 1010⟩ = .ok account ∧
    Anchor.sample ⟨2, 65535, .notEct, 590⟩ record ∈ account.samples := by
  have hanchor : latestAcrossWrap.IsAnchor ⟨2, 65535, .notEct, 590⟩ :=
    Report.isAnchor_iff.mpr (by decide +kernel)
  obtain ⟨l, hrun, htest⟩ := exists_ok_of_any
    (x := Ledger.run { retention := .exactly 10000000 }
      [.send ⟨2, 65535, ⟨.exactly 1000000⟩, .exactly 100⟩])
    (fun l ↦ decide (l.lookup 2 65535 =
        some ⟨⟨1000000, by decide, by decide⟩, .exactly 100, .exactly 100⟩) &&
      (Accounting.ofReport latestAcrossWrap l ⟨910, 1010⟩).toOption.any fun _ ↦ true)
    (by decide +kernel)
  obtain ⟨hrecord, htest⟩ := Bool.and_eq_true_iff.mp htest
  have hrecord := of_decide_eq_true hrecord
  obtain ⟨account, haccount, -⟩ := exists_ok_of_any _ htest
  obtain ⟨-, hunique, hcases⟩ := ofReport_cases latestAcrossWrap l
  obtain ⟨⟨start, stop⟩, hperiod, hstop, hstart, -, -, hsample⟩ :=
    (hcases _ hanchor).2 _ hrecord |>.2 (by decide) ⟨by decide, by decide⟩
  obtain rfl : stop = 1010 := hstop
  obtain rfl : start = 910 := hstart
  refine ⟨l, _, account, hrun, hunique 2 65535 _ hanchor.arrived, hanchor, ?_, ?_, hperiod,
    haccount, hsample account haccount⟩
  · exact ((ofReport_cases latestAcrossWrap { retention := .exactly 10000000 }).2.2 _ hanchor).1
      (by simp [Ledger.lookup])
  · exact (ofReport_cases {} l).1 fun ssrc seq ↦ by simp [Report.arrivals?]

end Period

end Congestion
