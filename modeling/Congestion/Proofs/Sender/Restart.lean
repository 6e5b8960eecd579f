import Congestion.Proofs.Path.Estimates
import Congestion.Proofs.Path.QueueDelays
import Congestion.Proofs.Sender.Diagnostics
import Congestion.Proofs.Sender.Transitions

/-!
# Starting anew

What an estimator has been set to is not changed by what it is told: after any update a reset goes
back to where it went before the update. So in every state that a controller reaches, a reset takes
each of its parts back to what the configuration makes (`Controller.ResetsTo`), and the controller is
a new one but for what it keeps on purpose: the ledger without a start of the session, the source of
congestion rates and the monitor (`reset_starts_anew`).
-/

set_option autoImplicit false
set_option relaxedAutoImplicit false

namespace Congestion

/-! ### Parts -/

namespace DeliveryWindow

variable {w w' : DeliveryWindow}

theorem window_of_expire {stop : Int} {periods : List PeriodBytes}
    (h : w.expire stop periods = .ok w') : w'.window = w.window := by
  induction periods generalizing w with
  | nil => cases h; rfl
  | cons p rest ih =>
    obtain ⟨millis, -, h⟩ := bind_eq_ok_iff.mp h
    obtain ⟨last, -, h⟩ := bind_eq_ok_iff.mp h
    split at h
    · cases h; rfl
    · obtain ⟨totalSent, -, h⟩ := bind_eq_ok_iff.mp h
      obtain ⟨totalReceived, -, h⟩ := bind_eq_ok_iff.mp h
      exact ih (w := { w with totalSent, totalReceived }) h

theorem reset_of_add {period : Period} {received sent : DataSize}
    (h : w.add period received sent = .ok w') : w'.reset = w.reset := by
  obtain ⟨totalSent, -, h⟩ := bind_eq_ok_iff.mp h
  obtain ⟨totalReceived, -, h⟩ := bind_eq_ok_iff.mp h
  have hwindow : w'.window = w.window :=
    window_of_expire (w := { w with totalSent, totalReceived }) h
  rw [reset, reset, hwindow]

end DeliveryWindow

namespace BandwidthEstimator

variable {e e' : BandwidthEstimator}

theorem reset_of_update {bytes : ByteTotals} {duration : Duration} {mode : Mode}
    {target growth : DataRate} {lossRate : Float}
    (h : e.update bytes duration mode target lossRate = .ok (growth, e')) : e'.reset = e.reset := by
  rcases update_eq_ok h with ⟨-, rate, rfl⟩ | ⟨-, rate, blended, rfl, -⟩ <;> rfl

theorem reset_of_rollBack {difference : DataRate} (h : e.rollBack difference = .ok e') :
    e'.reset = e.reset := by
  rcases rollBack_eq_ok h with ⟨-, rfl⟩ | ⟨estimate, lowered, -, -, rfl⟩ <;> rfl

end BandwidthEstimator

theorem VirtualQueue.reset_of_update {q q' : VirtualQueue} {samples : List DelaySample}
    {measured : List Int} {latestDelay previousDelay : Duration} {estimate : Option DataRate}
    (h : q.update samples measured latestDelay previousDelay estimate = .ok q') :
    q'.reset = q.reset := by
  unfold update at h
  split at h
  · cases h; rfl
  · split at h
    · cases h; rfl
    · split at h
      · cases h; rfl
      · obtain ⟨seed, -, h⟩ := bind_eq_ok_iff.mp h
        obtain ⟨bandwidth, -, h⟩ := bind_eq_ok_iff.mp h
        obtain ⟨first, -, h⟩ := bind_eq_ok_iff.mp h
        obtain ⟨delay, -, h⟩ := bind_eq_ok_iff.mp h
        obtain ⟨found, -, h⟩ := bind_eq_ok_iff.mp h
        cases h; rfl

theorem QueueDelayEstimator.reset_of_update {e e' : QueueDelayEstimator} {period : Period}
    {samples : List DelaySample} {bandwidth : Option DataRate} {delay : QueueDelay}
    (h : e.update period samples bandwidth = .ok (delay, e')) : e'.reset = e.reset := by
  obtain ⟨u, -, rfl⟩ := update_eq_ok_iff.mp h
  rw [reset, reset, Update.result, VirtualQueue.reset_of_update u.virtualQueue_eq]

theorem DelayTrend.reset_of_update {t t' : DelayTrend} {queueDelay rising : Duration}
    {periodEnd : Int} (h : t.update queueDelay periodEnd = .ok (rising, t')) :
    t'.reset = t.reset := by
  obtain ⟨delay, -, h⟩ := bind_eq_ok_iff.mp h
  split at h
  · cases h; rfl
  · obtain ⟨count, -, h⟩ := bind_eq_ok_iff.mp h
    obtain ⟨floor, -, h⟩ := bind_eq_ok_iff.mp h
    obtain ⟨elapsed, -, h⟩ := bind_eq_ok_iff.mp h
    obtain ⟨duration, -, h⟩ := bind_eq_ok_iff.mp h
    cases h; rfl

theorem RateControl.reset_of_apply {c c' : RateControl} {now : Instant} {d : Decision}
    {estimate : Option DataRate} (h : c.apply now d estimate = .ok c') : c'.reset = c.reset := by
  cases apply_transition h <;> rfl

/-! ### The controller -/

namespace Controller

variable {S D M N : Type} [CongestionSource S] [RiseDetector D] [QueueMonitor M] [QueueMonitor N]

/-- A reset takes every part of the controller back to what the configuration makes. -/
structure ResetsTo (c : Controller S DelayTrend M) (config : Config) : Prop where
  delivery : c.delivery.reset = { window := config.bandwidth.fractionWindow }
  bandwidth : c.bandwidth.reset = .create config.bandwidth config.minBitrate config.maxBitrate
  queueDelay : c.queueDelay.reset = .create config.queueDelay config.bandwidth.headroom
  detector : c.detector.reset = standardDetector config
  rateControl : c.rateControl.reset =
    .create config.rate config.minBitrate config.maxBitrate config.startBitrate

variable {c c' : Controller S DelayTrend M} {config : Config} {now : Instant} {r : Report}
  {period : Period}

omit [CongestionSource S] [QueueMonitor M] in
theorem resetsTo_createStandard (config : Config) (source : S) (monitor : M) :
    (createStandard config source monitor).ResetsTo config.repaired :=
  ⟨rfl, rfl, rfl, rfl, rfl⟩

omit [CongestionSource S] [QueueMonitor M] in
theorem ResetsTo.of_sameParts (hc : c.ResetsTo config) (h : c'.SameParts c) :
    c'.ResetsTo config := by
  refine ⟨?_, ?_, ?_, ?_, ?_⟩
  · rw [h.delivery, hc.delivery]
  · rw [h.bandwidth, hc.bandwidth]
  · rw [h.queueDelay, hc.queueDelay]
  · rw [h.detector, hc.detector]
  · rw [h.rateControl, hc.rateControl]

omit [QueueMonitor M] in
theorem ResetsTo.advance (hc : c.ResetsTo config) (a : c.Advance now r period) :
    a.result.ResetsTo config := by
  have hlearned := BandwidthEstimator.reset_of_update a.learned_eq
  have hbandwidth : a.bandwidth.reset = c.bandwidth.reset := by
    rcases a.bandwidth_cases with ⟨-, hrolled⟩ | ⟨-, hkept⟩
    · exact (BandwidthEstimator.reset_of_rollBack hrolled).trans hlearned
    · rw [hkept, hlearned]
  exact ⟨(DeliveryWindow.reset_of_add a.delivery_eq).trans hc.delivery,
    hbandwidth.trans hc.bandwidth,
    (QueueDelayEstimator.reset_of_update a.queueDelay_eq).trans hc.queueDelay,
    (DelayTrend.reset_of_update a.detector_eq).trans hc.detector,
    (RateControl.reset_of_apply a.rateControl_eq).trans hc.rateControl⟩

omit [CongestionSource S] [QueueMonitor M] in
theorem ResetsTo.reset (hc : c.ResetsTo config) : c.reset.ResetsTo config :=
  ⟨hc.delivery, hc.bandwidth, hc.queueDelay, hc.detector, hc.rateControl⟩

omit [CongestionSource S] [QueueMonitor M] in
/-- The controller is a new one but for its ledger, its source and its monitor. -/
theorem ResetsTo.reset_eq (hc : c.ResetsTo config.repaired) (hconfig : c.config = config.repaired) :
    c.reset = { createStandard config c.source c.monitor with
      ledger := { c.ledger with sessionStart := none } } := by
  have hdetector : RiseDetector.reset c.detector = standardDetector config.repaired := hc.detector
  rw [Controller.reset, hconfig, hc.delivery, hc.bandwidth, hc.queueDelay, hdetector,
    hc.rateControl]
  rfl

theorem resetsTo_of_run {source : S} {monitor : M} {commands : List SenderCommand}
    {answers : List (Except Rejection ControlUpdate)}
    (hrun : (createStandard config source monitor).run commands = .ok (answers, c)) :
    c.ResetsTo config.repaired :=
  run_keeps_parts (fun c ↦ c.ResetsTo config.repaired) (fun _ _ hsame hc ↦ hc.of_sameParts hsame)
    (fun _ _ _ _ a hc ↦ hc.advance a) (fun _ _ hc ↦ hc.reset)
    (resetsTo_createStandard config source monitor) hrun

/-- A source that takes nothing from the reports is the one that the controller was made with. -/
theorem source_of_run {source : S} {detector : D} {monitor : M} {commands : List SenderCommand}
    {answers : List (Except Rejection ControlUpdate)}
    (hsource : ∀ (s : S) r, CongestionSource.observe s r = s) {c : Controller S D M}
    (hrun : (create config source detector monitor).run commands = .ok (answers, c)) :
    c.source = source :=
  run_keeps_parts (fun c ↦ c.source = source) (fun _ _ hsame hc ↦ hsame.source.trans hc)
    (fun c _ r _ _ hc ↦ (hsource c.source r).trans hc) (fun _ _ hc ↦ hc) rfl hrun

/-- In every state that a controller with the standard detector reaches, a reset makes it a new
controller of its configuration, with the packets that it has sent on record and no session begun.
What is seen of it from then on is what is seen of that controller, with any monitor. -/
theorem reset_starts_anew {source : S} {monitor : M} {commands : List SenderCommand}
    {answers : List (Except Rejection ControlUpdate)}
    (hrun : (createStandard config source monitor).run commands = .ok (answers, c)) :
    c.reset = { createStandard config c.source c.monitor with
      ledger := { c.ledger with sessionStart := none } } ∧
    ((∀ (s : S) r, CongestionSource.observe s r = s) → c.source = source) ∧
    ∀ (other : N) later, c.reset.observations later =
      observations { createStandard config c.source other with
        ledger := { c.ledger with sessionStart := none } } later := by
  have hreset := (resetsTo_of_run hrun).reset_eq (config_of_run hrun)
  refine ⟨hreset, fun hsource ↦ source_of_run hsource hrun, fun other later ↦ ?_⟩
  exact observations_eq_of_core (by rw [hreset]; rfl) later

/-- The throttled sender starts over as one that has sent what it has sent. -/
theorem reset_starts_anew_fallingBehind : ∃ answers c,
    (createStandard quickRise ({} : FixedRates) ()).run fallingBehind = .ok (answers, c) ∧
    c.rateControl.mode = .throttled ∧ (c.ledger.lookup 9 10).isSome ∧
    c.reset = { createStandard quickRise {} () with
      ledger := { c.ledger with sessionStart := none } } := by
  obtain ⟨⟨answers, c⟩, hrun, hthrottled⟩ := exists_ok_of_any
    (x := (createStandard quickRise ({} : FixedRates) ()).run fallingBehind)
    (fun (_, c) ↦ c.rateControl.mode = .throttled ∧ (c.ledger.lookup 9 10).isSome)
    (by decide +kernel)
  obtain ⟨hmode, hsent⟩ := of_decide_eq_true hthrottled
  obtain ⟨hreset, hsource, -⟩ := reset_starts_anew (N := Unit) hrun
  rw [hsource fun _ _ ↦ rfl] at hreset
  exact ⟨answers, c, hrun, hmode, hsent, hreset⟩

end Controller

end Congestion
