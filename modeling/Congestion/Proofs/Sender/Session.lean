import Congestion.Proofs.Checked
import Congestion.Proofs.Sender.LedgerRuns
import Congestion.Sender.Controller

/-!
# Sessions of a controller

A controller sends, is given reports and is reset. `Controller.run` is any sequence of these, with
the answers to the reports. `onFeedback_eq_ok` says all that a report can do: it is rejected after
`examine`, which touches no estimate (`examine_sameEstimates`), or it goes through
`Controller.Advance`, which names everything that an accepted report computes on its way. What these
computations and a reset keep of the parts of the controller, a run keeps (`run_keeps_parts`).
-/

set_option autoImplicit false
set_option relaxedAutoImplicit false

namespace Congestion

inductive SenderCommand
  | send (p : SentPacket)
  | feedback (now : Instant) (r : Report)
  | reset

namespace Controller

variable {S D M : Type} [CongestionSource S] [RiseDetector D] [QueueMonitor M]

/-- One command, with the answer where it is a report. -/
def step (c : Controller S D M) :
    SenderCommand → Checked (List (Except Rejection ControlUpdate) × Controller S D M)
  | .send p => ([], ·) <$> c.send p
  | .feedback now r => (fun (answer, c) ↦ ([answer], c)) <$> c.onFeedback now r
  | .reset => .ok ([], c.reset)

/-- All commands in order, with the answers to the reports. -/
def run (c : Controller S D M) :
    List SenderCommand → Checked (List (Except Rejection ControlUpdate) × Controller S D M)
  | [] => .ok ([], c)
  | command :: rest => do
    let (answers, c) ← c.step command
    let (later, c) ← c.run rest
    return (answers ++ later, c)

/-- What every step keeps holds after a run, and what every step makes of its answers holds of all
answers. -/
theorem run_keeps_of_mem {invariant : Controller S D M → Prop}
    {answered : Except Rejection ControlUpdate → Prop} {commands : List SenderCommand}
    (hstep : ∀ command ∈ commands, ∀ (c c' : Controller S D M) answers, invariant c →
      c.step command = .ok (answers, c') → invariant c' ∧ ∀ a ∈ answers, answered a)
    {c c' : Controller S D M} {answers : List (Except Rejection ControlUpdate)} (hc : invariant c)
    (h : c.run commands = .ok (answers, c')) : invariant c' ∧ ∀ a ∈ answers, answered a := by
  induction commands generalizing c answers with
  | nil =>
    cases h
    exact ⟨hc, fun a ha ↦ by cases ha⟩
  | cons command rest ih =>
    obtain ⟨⟨first, c₁⟩, hfirst, h⟩ := bind_eq_ok_iff.mp h
    obtain ⟨⟨later, c₂⟩, hlater, h⟩ := bind_eq_ok_iff.mp h
    cases h
    obtain ⟨hfirstStep, hrestSteps⟩ := List.forall_mem_cons.mp hstep
    obtain ⟨hc₁, hanswers⟩ := hfirstStep c c₁ first hc hfirst
    obtain ⟨hc₂, hrest⟩ := ih hrestSteps hc₁ hlater
    exact ⟨hc₂, fun a ha ↦ (List.mem_append.mp ha).elim (hanswers a) (hrest a)⟩

theorem run_keeps {invariant : Controller S D M → Prop}
    {answered : Except Rejection ControlUpdate → Prop}
    (hstep : ∀ (c c' : Controller S D M) command answers, invariant c →
      c.step command = .ok (answers, c') → invariant c' ∧ ∀ a ∈ answers, answered a)
    {c c' : Controller S D M} {commands : List SenderCommand}
    {answers : List (Except Rejection ControlUpdate)} (hc : invariant c)
    (h : c.run commands = .ok (answers, c')) : invariant c' ∧ ∀ a ∈ answers, answered a :=
  run_keeps_of_mem (fun command _ c c' ↦ hstep c c' command) hc h

/-! ### Accepted reports -/

/-- Everything that an accepted report computes on its way through the controller. -/
structure Advance (c : Controller S D M) (now : Instant) (r : Report) (period : Period) where
  accounting : Accounting
  accounting_eq : Accounting.ofReport r c.ledger period = .ok accounting
  delivery : DeliveryWindow
  delivery_eq : c.delivery.add period accounting.bytes.received accounting.bytes.sentInPeriod =
    .ok delivery
  duration : Duration
  duration_eq : period.duration = .ok duration
  growth : DataRate
  learned : BandwidthEstimator
  learned_eq : c.bandwidth.update accounting.bytes duration c.rateControl.mode
    c.rateControl.targetRate (CongestionSource.lossRate (CongestionSource.observe c.source r)) =
    .ok (growth, learned)
  delay : QueueDelay
  queueDelay : QueueDelayEstimator
  queueDelay_eq : c.queueDelay.update period accounting.samples learned.estimate =
    .ok (delay, queueDelay)
  rising : Duration
  detector : D
  detector_eq : RiseDetector.update c.detector delay.latest period.stop = .ok (rising, detector)
  decision : Decision
  decision_eq : c.rateControl.classify now c.ledger.sessionStart learned.estimate
    { queueDelay := delay, rising, delivered := delivery.fraction?
      lossRate := CongestionSource.lossRate (CongestionSource.observe c.source r)
      ecnRate := CongestionSource.ecnRate (CongestionSource.observe c.source r) } = .ok decision
  bandwidth : BandwidthEstimator
  bandwidth_eq : rollBack { c with bandwidth := learned } decision.delayFraction growth =
    .ok bandwidth
  rateControl : RateControl
  rateControl_eq : c.rateControl.apply now decision bandwidth.estimate = .ok rateControl

namespace Advance

variable {c : Controller S D M} {now : Instant} {r : Report} {period : Period}

/-- The controller after the report. -/
def result (a : c.Advance now r period) : Controller S D M :=
  { c with
    delivery := a.delivery
    source := CongestionSource.observe c.source r
    bandwidth := a.bandwidth
    queueDelay := a.queueDelay
    detector := a.detector
    rateControl := a.rateControl
    stats := { c.stats with
      mode := a.rateControl.mode
      targetRate := a.rateControl.targetRate
      targetDelay := a.rateControl.targetDelay
      estimate := a.bandwidth.estimate
      receivedRate := a.bandwidth.receivedRate
      signals :=
        { queueDelay := a.delay, rising := a.rising, delivered := a.delivery.fraction?
          lossRate := CongestionSource.lossRate (CongestionSource.observe c.source r)
          ecnRate := CongestionSource.ecnRate (CongestionSource.observe c.source r) }
      decision := a.decision
      queueBandwidth := a.queueDelay.virtualQueue.bandwidth
      queueCorrelation := a.queueDelay.virtualQueue.correlation
      lostReports := c.reportOrder.lost
      ledgerMisses := c.stats.ledgerMisses + a.accounting.misses } }

/-- The report finds a competing sender behind a full queue, and the estimate has grown on it. -/
structure RollsBack (a : c.Advance now r period) : Prop where
  competing : c.rateControl.mode = .competing
  full : a.decision.delayFraction ≥ c.config.rate.compete.rollbackDelayFraction
  grown : 0 < a.growth

omit [QueueMonitor M] in
theorem bandwidth_cases (a : c.Advance now r period) :
    (a.RollsBack ∧ a.learned.rollBack a.growth = .ok a.bandwidth) ∨
      (¬ a.RollsBack ∧ a.bandwidth = a.learned) := by
  have h := a.bandwidth_eq
  unfold rollBack at h
  split at h
  next hconditions =>
    simp only [Bool.and_eq_true, decide_eq_true_eq] at hconditions
    exact Or.inl ⟨⟨hconditions.1.1, hconditions.1.2, hconditions.2⟩, h⟩
  next hconditions =>
    simp only [Bool.and_eq_true, decide_eq_true_eq] at hconditions
    refine Or.inr ⟨fun hrolls ↦ ?_, (Except.ok.inj h).symm⟩
    exact hconditions ⟨⟨hrolls.competing, hrolls.full⟩, hrolls.grown⟩

end Advance

variable {c c' : Controller S D M} {now : Instant} {r : Report} {period : Period}

omit [QueueMonitor M] in
theorem advance_eq_ok_iff : c.advance now r period = .ok c' ↔
    ∃ a : c.Advance now r period, c' = a.result := by
  unfold advance
  constructor
  · intro h
    obtain ⟨accounting, accounting_eq, h⟩ := bind_eq_ok_iff.mp h
    obtain ⟨delivery, delivery_eq, h⟩ := bind_eq_ok_iff.mp h
    obtain ⟨duration, duration_eq, h⟩ := bind_eq_ok_iff.mp h
    obtain ⟨⟨growth, learned⟩, learned_eq, h⟩ := bind_eq_ok_iff.mp h
    obtain ⟨⟨delay, queueDelay⟩, queueDelay_eq, h⟩ := bind_eq_ok_iff.mp h
    obtain ⟨⟨rising, detector⟩, detector_eq, h⟩ := bind_eq_ok_iff.mp h
    obtain ⟨decision, decision_eq, h⟩ := bind_eq_ok_iff.mp h
    obtain ⟨bandwidth, bandwidth_eq, h⟩ := bind_eq_ok_iff.mp h
    obtain ⟨rateControl, rateControl_eq, h⟩ := bind_eq_ok_iff.mp h
    cases h
    exact ⟨⟨accounting, accounting_eq, delivery, delivery_eq, duration, duration_eq, growth,
      learned, learned_eq, delay, queueDelay, queueDelay_eq, rising, detector, detector_eq, decision,
      decision_eq, bandwidth, bandwidth_eq, rateControl, rateControl_eq⟩, rfl⟩
  · rintro ⟨a, rfl⟩
    refine bind_eq_ok_iff.mpr ⟨_, a.accounting_eq, bind_eq_ok_iff.mpr ⟨_, a.delivery_eq, ?_⟩⟩
    refine bind_eq_ok_iff.mpr ⟨_, a.duration_eq, bind_eq_ok_iff.mpr ⟨_, a.learned_eq, ?_⟩⟩
    refine bind_eq_ok_iff.mpr ⟨_, a.queueDelay_eq, bind_eq_ok_iff.mpr ⟨_, a.detector_eq, ?_⟩⟩
    refine bind_eq_ok_iff.mpr ⟨_, a.decision_eq, bind_eq_ok_iff.mpr ⟨_, a.bandwidth_eq, ?_⟩⟩
    exact bind_eq_ok_iff.mpr ⟨_, a.rateControl_eq, rfl⟩

/-! ### Reports that are examined -/

/-- The two controllers differ in the ledger's count, the monitor and the statistics alone. -/
structure SameEstimates (c' c : Controller S D M) : Prop where
  config : c'.config = c.config
  reportOrder : c'.reportOrder = c.reportOrder
  delivery : c'.delivery = c.delivery
  bandwidth : c'.bandwidth = c.bandwidth
  queueDelay : c'.queueDelay = c.queueDelay
  detector : c'.detector = c.detector
  rateControl : c'.rateControl = c.rateControl
  source : c'.source = c.source

omit [CongestionSource S] [RiseDetector D] in
theorem settle_eq_ok (h : c.settle r = .ok c') : ∃ inFlight remains,
    c' = { c with
      ledger := { c.ledger with inFlight }
      monitor := QueueMonitor.look c.monitor r
      stats := { c.stats with remains } } := by
  obtain ⟨⟨remains, ledger⟩, hsettle, h⟩ := bind_eq_ok_iff.mp h
  obtain ⟨inFlight, rfl⟩ := Ledger.exists_inFlight_of_settle hsettle
  cases h
  exact ⟨inFlight, remains, rfl⟩

omit [CongestionSource S] [RiseDetector D] in
theorem examine_sameEstimates {verdict : Except Rejection Period}
    (h : c.examine r = .ok (verdict, c')) : c'.SameEstimates c := by
  unfold examine at h
  split at h
  · cases h
    exact ⟨rfl, rfl, rfl, rfl, rfl, rfl, rfl, rfl⟩
  · obtain ⟨c₁, hsettle, h⟩ := bind_eq_ok_iff.mp h
    obtain ⟨inFlight, remains, rfl⟩ := settle_eq_ok hsettle
    obtain ⟨total, -, h⟩ := bind_eq_ok_iff.mp h
    split at h
    · cases h
      exact ⟨rfl, rfl, rfl, rfl, rfl, rfl, rfl, rfl⟩
    · obtain ⟨verdict, -, h⟩ := bind_eq_ok_iff.mp h
      cases h
      exact ⟨rfl, rfl, rfl, rfl, rfl, rfl, rfl, rfl⟩

/-- The controller with the number of a report taken into its order. -/
def received (c : Controller S D M) (r : Report) : Controller S D M :=
  { c with reportOrder := (c.reportOrder.push r.number).2 }

theorem onFeedback_eq_ok {answer : Except Rejection ControlUpdate}
    (h : c.onFeedback now r = .ok (answer, c')) :
    (∃ rejection examined, (c.received r).examine r = .ok (.error rejection, examined) ∧
      answer = .error rejection ∧ c' = examined.reject) ∨
    (∃ period examined, (c.received r).examine r = .ok (.ok period, examined) ∧
      ∃ a : examined.Advance now r period, answer = .ok (a.result.updateAt now) ∧
        c' = a.result) := by
  obtain ⟨⟨verdict, examined⟩, hexamine, h⟩ := bind_eq_ok_iff.mp h
  cases verdict with
  | error rejection =>
    cases h
    exact Or.inl ⟨rejection, examined, hexamine, rfl, rfl⟩
  | ok period =>
    obtain ⟨advanced, hadvance, h⟩ := bind_eq_ok_iff.mp h
    obtain ⟨a, rfl⟩ := advance_eq_ok_iff.mp hadvance
    cases h
    exact Or.inr ⟨period, examined, hexamine, a, rfl, rfl⟩

/-! ### What a session keeps -/

/-- The two controllers agree in all that an accepted report works on, up to the ledger and the
records kept for diagnosis. -/
structure SameParts (c' c : Controller S D M) : Prop where
  config : c'.config = c.config
  delivery : c'.delivery = c.delivery
  bandwidth : c'.bandwidth = c.bandwidth
  queueDelay : c'.queueDelay = c.queueDelay
  detector : c'.detector = c.detector
  rateControl : c'.rateControl = c.rateControl
  source : c'.source = c.source

section Parts

variable (invariant : Controller S D M → Prop) {command : SenderCommand}
  {commands : List SenderCommand} {answers : List (Except Rejection ControlUpdate)}

/-- Sends and rejected reports leave all parts as they are. -/
theorem step_keeps_parts
    (hsame : ∀ c c' : Controller S D M, c'.SameParts c → invariant c → invariant c')
    (hadvance : ∀ (c : Controller S D M) now r period (a : c.Advance now r period),
      invariant c → invariant a.result)
    (hreset : command = .reset → ∀ c : Controller S D M, invariant c → invariant c.reset)
    (hc : invariant c) (h : c.step command = .ok (answers, c')) : invariant c' := by
  cases command with
  | send p =>
    obtain ⟨sent, hsent, h⟩ := map_eq_ok_iff.mp h
    obtain ⟨⟨record, ledger⟩, -, hsent⟩ := bind_eq_ok_iff.mp hsent
    cases hsent
    cases h
    exact hsame c _ ⟨rfl, rfl, rfl, rfl, rfl, rfl, rfl⟩ hc
  | feedback now r =>
    obtain ⟨⟨answer, c₁⟩, hfeedback, h⟩ := map_eq_ok_iff.mp h
    cases h
    have hexamined : ∀ {verdict examined}, (c.received r).examine r = .ok (verdict, examined) →
        examined.SameParts c := fun hexamine ↦
      have h := examine_sameEstimates hexamine
      ⟨h.config, h.delivery, h.bandwidth, h.queueDelay, h.detector, h.rateControl, h.source⟩
    rcases onFeedback_eq_ok hfeedback with
      ⟨rejection, examined, hexamine, rfl, rfl⟩ | ⟨period, examined, hexamine, a, rfl, rfl⟩
    · exact hsame c _ { hexamined hexamine with } hc
    · exact hadvance examined now r period a (hsame c examined (hexamined hexamine) hc)
  | reset =>
    cases h
    exact hreset rfl c hc

theorem run_keeps_parts
    (hsame : ∀ c c' : Controller S D M, c'.SameParts c → invariant c → invariant c')
    (hadvance : ∀ (c : Controller S D M) now r period (a : c.Advance now r period),
      invariant c → invariant a.result)
    (hreset : .reset ∈ commands → ∀ c : Controller S D M, invariant c → invariant c.reset)
    (hc : invariant c) (h : c.run commands = .ok (answers, c')) : invariant c' := by
  induction commands generalizing c answers with
  | nil =>
    cases h
    exact hc
  | cons command rest ih =>
    obtain ⟨⟨first, c₁⟩, hfirst, h⟩ := bind_eq_ok_iff.mp h
    obtain ⟨⟨later, c₂⟩, hlater, h⟩ := bind_eq_ok_iff.mp h
    cases h
    have hc₁ : invariant c₁ := step_keeps_parts invariant hsame hadvance
      (fun hcommand ↦ hreset (by rw [hcommand]; exact List.mem_cons_self)) hc hfirst
    exact ih (fun hrest ↦ hreset (List.mem_cons_of_mem command hrest)) hc₁ hlater

end Parts

theorem config_of_run {config : Config} {source : S} {detector : D} {monitor : M}
    {commands : List SenderCommand} {answers : List (Except Rejection ControlUpdate)}
    (h : (create config source detector monitor).run commands = .ok (answers, c)) :
    c.config = config.repaired :=
  run_keeps_parts (fun c ↦ c.config = config.repaired) (fun _ _ hsame hc ↦ hsame.config.trans hc)
    (fun _ _ _ _ _ hc ↦ hc) (fun _ _ hc ↦ hc) rfl h

/-- Only an accepted report and a reset touch the rate control and the bandwidth estimator. -/
theorem run_keeps_control {invariant : RateControl → BandwidthEstimator → Prop}
    (hadvance : ∀ (c : Controller S D M) now r period (a : c.Advance now r period),
      invariant c.rateControl c.bandwidth → invariant a.rateControl a.bandwidth)
    (hreset : ∀ rateControl bandwidth, invariant rateControl bandwidth →
      invariant rateControl.reset bandwidth.reset)
    {commands : List SenderCommand} {answers : List (Except Rejection ControlUpdate)}
    (hc : invariant c.rateControl c.bandwidth) (h : c.run commands = .ok (answers, c')) :
    invariant c'.rateControl c'.bandwidth :=
  run_keeps_parts (fun c ↦ invariant c.rateControl c.bandwidth)
    (fun _ _ hsame hc ↦ by rw [hsame.rateControl, hsame.bandwidth]; exact hc) hadvance
    (fun _ c hc ↦ hreset c.rateControl c.bandwidth hc) hc h

/-! ### Sessions on one stream, told in milliseconds -/

/-- A packet of a thousand bytes. -/
def packet (seq : UInt16) (millis : Int) : SenderCommand :=
  .send { ssrc := 9, seq, sendTime := ⟨⟨.saturate (millis * 1000)⟩⟩, size := .exactly 1000 }

/-- A report on the last tenth of a second before `time`. -/
def reportOf (time : UInt64) (arrivals : List (UInt16 × UInt64)) : Report :=
  arrivals.foldl (fun r (seq, arrival) ↦ (r.record 9 seq arrival 0).2) { time, monitored := 100 }

def reported (millis : Int) (time : UInt64) (arrivals : List (UInt16 × UInt64)) : SenderCommand :=
  .feedback ⟨⟨.saturate (millis * 1000)⟩⟩ (reportOf time arrivals)

end Controller

end Congestion
