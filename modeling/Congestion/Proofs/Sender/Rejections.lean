import Congestion.Proofs.Feedback.Covered
import Congestion.Proofs.Sender.Anchors
import Congestion.Proofs.Sender.Session

/-!
# Rejected reports

A report is rejected when it lists no stream, when the ledger has no record of its anchor, or when it
monitors no time, and for no other reason: a report that lists a stream covers a sequence number
(`Report.totalCount_pos`) and has an anchor. `Controller.Recounted` says what a rejected report can
change, which is no estimate: the order of the reports, the count of packets in flight, the monitor
and three statistics (`rejected_iff_and_recounted`).
-/

set_option autoImplicit false
set_option relaxedAutoImplicit false

namespace Congestion

/-- No period is found for a report without an anchor, for an anchor without a record, or where no
time is monitored. -/
theorem Period.ofReport_rejected_iff {r : Report} {ledger : Ledger}
    {verdict : Except Rejection Period} (h : (Period.ofReport r ledger).settle = .ok verdict) :
    (∃ rejection, verdict = .error rejection) ↔
      r.latest? = none ∨ (∃ a, r.latest? = some a ∧ ledger.lookup a.ssrc a.seq = none) ∨
        r.monitored = 0 := by
  rw [← Anchor.ofReport_eq_latest?]
  unfold Period.ofReport at h
  cases hanchor : Anchor.ofReport r with
  | none =>
    rw [hanchor] at h
    cases h
    exact ⟨fun _ ↦ Or.inl rfl, fun _ ↦ ⟨_, rfl⟩⟩
  | some a =>
    rw [hanchor] at h
    dsimp only at h
    cases hrecord : ledger.lookup a.ssrc a.seq with
    | none =>
      rw [hrecord] at h
      cases h
      exact ⟨fun _ ↦ Or.inr (Or.inl ⟨a, rfl, hrecord⟩), fun _ ↦ ⟨_, rfl⟩⟩
    | some record =>
      rw [hrecord] at h
      dsimp only at h
      by_cases hmonitored : r.monitored = 0
      · rw [if_pos hmonitored] at h
        cases h
        exact ⟨fun _ ↦ Or.inr (Or.inr hmonitored), fun _ ↦ ⟨_, rfl⟩⟩
      · rw [if_neg hmonitored] at h
        obtain ⟨stop, -, h⟩ := settle_ofChecked_bind_eq_ok h
        obtain ⟨start, -, h⟩ := settle_ofChecked_bind_eq_ok h
        cases h
        constructor
        · rintro ⟨rejection, h⟩
          cases h
        · rintro (hnone | ⟨a', ha', hmiss⟩ | hzero)
          · cases hnone
          · cases ha'
            rw [hrecord] at hmiss
            cases hmiss
          · exact absurd hzero hmonitored

namespace Controller

variable {S D M : Type} [CongestionSource S] [RiseDetector D] [QueueMonitor M]
  {c c' : Controller S D M} {now : Instant} {r : Report}

omit [CongestionSource S] [RiseDetector D] in
/-- A report without a stream changes nothing. Any other is counted and shown to the monitor, and
then its period decides. -/
theorem examine_eq_ok {verdict : Except Rejection Period} (h : c.examine r = .ok (verdict, c')) :
    (r.toList = [] ∧ verdict = .error .emptyFeedback ∧ c' = c) ∨
    (r.toList ≠ [] ∧ (Period.ofReport r c.ledger).settle = .ok verdict ∧ ∃ inFlight remains,
      c' = { c with
        ledger := { c.ledger with inFlight }
        monitor := QueueMonitor.look c.monitor r
        stats := { c.stats with
          remains, receivedReports := c.stats.receivedReports + 1 } }) := by
  unfold examine at h
  split at h
  next hempty =>
    cases h
    exact Or.inl ⟨List.isEmpty_iff.mp hempty, rfl, rfl⟩
  next hlisted =>
    rw [List.isEmpty_iff] at hlisted
    obtain ⟨c₁, hsettle, h⟩ := bind_eq_ok_iff.mp h
    obtain ⟨total, htotal, h⟩ := bind_eq_ok_iff.mp h
    obtain ⟨inFlight, remains, rfl⟩ := settle_eq_ok hsettle
    rw [if_neg (Nat.ne_of_gt (Report.totalCount_pos hlisted htotal))] at h
    obtain ⟨verdict, hverdict, h⟩ := bind_eq_ok_iff.mp h
    cases h
    exact Or.inr ⟨hlisted, hverdict, inFlight, remains, rfl⟩

/-- The controller with other counts and another monitor: every estimate, and all that the ledger
knows of packets and of the session, is the same. -/
def Recounted (c c' : Controller S D M) (monitor : M) : Prop :=
  ∃ reportOrder inFlight remains receivedReports rejectedReports,
    c' = { c with
      reportOrder
      ledger := { c.ledger with inFlight }
      monitor
      stats := { c.stats with remains, receivedReports, rejectedReports } }

omit [CongestionSource S] [RiseDetector D] in
theorem examine_rejected_iff {verdict : Except Rejection Period}
    (h : c.examine r = .ok (verdict, c')) :
    (∃ rejection, verdict = .error rejection) ↔
      r.toList = [] ∨ (∃ a, r.latest? = some a ∧ c.ledger.lookup a.ssrc a.seq = none) ∨
        r.monitored = 0 := by
  rcases examine_eq_ok h with ⟨hempty, rfl, -⟩ | ⟨hlisted, hsettle, -⟩
  · exact ⟨fun _ ↦ Or.inl hempty, fun _ ↦ ⟨_, rfl⟩⟩
  · obtain ⟨a, ha⟩ := Anchor.exists_latest?_of_toList hlisted
    rw [Period.ofReport_rejected_iff hsettle, ha]
    simp only [hlisted, reduceCtorEq, false_or]

omit [CongestionSource S] [RiseDetector D] in
theorem examine_recounted {verdict : Except Rejection Period}
    (h : c.examine r = .ok (verdict, c')) : c.Recounted c' (QueueMonitor.look c.monitor r) := by
  rcases examine_eq_ok h with ⟨hempty, -, rfl⟩ | ⟨-, -, inFlight, remains, rfl⟩
  · have hlook : QueueMonitor.look c'.monitor r = c'.monitor := by
      rw [QueueMonitor.look, hempty]
    exact ⟨_, _, _, _, _, by rw [hlook]⟩
  · exact ⟨_, _, _, _, _, rfl⟩

/-- A report is rejected exactly when it lists no stream, when the ledger has no record of its
anchor, or when it monitors no time. A rejected report changes no estimate; the monitor is shown
every report that lists a stream. -/
theorem rejected_iff_and_recounted {answer : Except Rejection ControlUpdate}
    (h : c.onFeedback now r = .ok (answer, c')) :
    ((∃ rejection, answer = .error rejection) ↔
      r.toList = [] ∨ (∃ a, r.latest? = some a ∧ c.ledger.lookup a.ssrc a.seq = none) ∨
        r.monitored = 0) ∧
    ∀ rejection, answer = .error rejection →
      c.Recounted c' (QueueMonitor.look c.monitor r) := by
  rcases onFeedback_eq_ok h with
    ⟨rejection, examined, hexamine, rfl, rfl⟩ | ⟨period, examined, hexamine, a, rfl, rfl⟩
  · refine ⟨⟨fun _ ↦ (examine_rejected_iff hexamine).mp ⟨_, rfl⟩, fun _ ↦ ⟨_, rfl⟩⟩, fun _ _ ↦ ?_⟩
    obtain ⟨reportOrder, inFlight, remains, received, rejected, rfl⟩ := examine_recounted hexamine
    exact ⟨reportOrder, inFlight, remains, received, rejected + 1, rfl⟩
  · refine ⟨⟨?_, fun hcause ↦ ?_⟩, fun _ hanswer ↦ by cases hanswer⟩
    · rintro ⟨rejection, hanswer⟩
      cases hanswer
    · obtain ⟨rejection, hanswer⟩ := (examine_rejected_iff hexamine).mpr hcause
      cases hanswer

end Controller

/-- A monitor with the snapshots of some packets, which prunes those that are older. -/
structure SnapshotLog where
  snapshots : List (UInt32 × UInt16 × QueueSnapshot)

instance : QueueMonitor SnapshotLog where
  query s ssrc seq :=
    ((s.snapshots.find? fun entry ↦ entry.1 = ssrc && entry.2.1 = seq).map fun entry ↦ entry.2.2, s)
  prune s oldest := ⟨s.snapshots.filter fun entry ↦ oldest ≤ entry.2.2.time⟩

namespace Controller

/-- A controller that has sent nothing, with snapshots of two packets. -/
def monitored : Controller FixedRates DelayTrend SnapshotLog :=
  createStandard {} {}
    ⟨[(9, 6, { time := ⟨.exactly 500⟩ }), (9, 7, { time := ⟨.exactly 1000⟩ })]⟩

/-- A report of one packet. -/
def unsentReport : Report := (({ sender := 1, monitored := 100 } : Report).record 9 7 0 0).2

/-- The packet has not been sent, so that its report is rejected. -/
theorem rejected_iff_and_recounted_unsent : ∃ c',
    monitored.onFeedback ⟨.exactly 2000⟩ unsentReport = .ok (.error (.ledgerMiss 9 7), c') ∧
    monitored.Recounted c' (QueueMonitor.look monitored.monitor unsentReport) := by
  have hfeedback : ∃ c', monitored.onFeedback ⟨.exactly 2000⟩ unsentReport =
      .ok (.error (.ledgerMiss 9 7), c') := ⟨_, rfl⟩
  obtain ⟨c', hfeedback⟩ := hfeedback
  exact ⟨c', hfeedback, (rejected_iff_and_recounted hfeedback).2 _ rfl⟩

/-- A rejected report has the monitor drop what is older than the packet it asks about. -/
theorem rejected_report_prunes_monitor : ∃ c',
    monitored.onFeedback ⟨.exactly 2000⟩ unsentReport = .ok (.error (.ledgerMiss 9 7), c') ∧
    ¬ monitored.Recounted c' monitored.monitor := by
  have hpruned : ∃ c', monitored.onFeedback ⟨.exactly 2000⟩ unsentReport =
      .ok (.error (.ledgerMiss 9 7), c') ∧ c'.monitor.snapshots.length = 1 := ⟨_, rfl, rfl⟩
  obtain ⟨c', hfeedback, hlength⟩ := hpruned
  refine ⟨c', hfeedback, ?_⟩
  rintro ⟨reportOrder, inFlight, remains, received, rejected, rfl⟩
  have hkept : monitored.monitor.snapshots.length = 2 := rfl
  exact absurd (hkept.symm.trans hlength) (by decide)

end Controller

end Congestion
