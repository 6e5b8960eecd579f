import Congestion.Proofs.Sender.Events
import Congestion.Proofs.Sender.OutputBounds

/-!
# Throttled mode

A throttled sender learns nothing: the estimate that it has noted when it backed off stays the
estimate of the path, report after report, and the rate is not touched. Once the queue has drained
the rate is that estimate (`throttled_freezes`).

The rate control notes the estimate and the bandwidth estimator holds it, and neither knows of the
other. `EstimateNoted` is what ties them together through every step of a session.
-/

set_option autoImplicit false
set_option relaxedAutoImplicit false

namespace Congestion

namespace RateControl.Transition

variable {c c' : RateControl} {now : Instant} {event : Event} {known : DataRate}

/-- Throttled mode is entered with the estimate noted, and noted again or held. -/
theorem throttled (h : Transition now event known c c') (hmode : c'.mode = .throttled) :
    (event = .detectThrottle ∧ c.mode ≠ .competing ∧ c'.throttledEstimate = known) ∨ c' = c := by
  cases h with
  | keep => exact Or.inr rfl
  | throttleSteady _ hbefore hevent => exact Or.inl ⟨hevent, by rw [hbefore]; decide, rfl⟩
  | throttleProbing _ hbefore hevent => exact Or.inl ⟨hevent, by rw [hbefore]; decide, rfl⟩
  | keepThrottled hbefore hevent => exact Or.inl ⟨hevent, by rw [hbefore]; decide, rfl⟩
  | steer _ hbefore =>
    have hthrottled : c.mode = .throttled := hmode
    rcases hbefore with hbefore | hbefore <;> rw [hbefore] at hthrottled <;> cases hthrottled
  | keepCompeting hbefore =>
    have hboth := hbefore.symm.trans hmode
    cases hboth
  | startProbing | startCompeting | stopCompeting | timeOut | stopProbing | resolve => cases hmode

/-- While throttled mode is held, so is the rate. -/
theorem targetRate_of_throttled (h : Transition now event known c c')
    (hbefore : c.mode = .throttled) (hmode : c'.mode = .throttled) :
    c'.targetRate = c.targetRate := by
  cases h with
  | keep => rfl
  | keepThrottled => rfl
  | throttleSteady _ hother | throttleProbing _ hother | keepCompeting hother =>
    have hboth := hother.symm.trans hbefore
    cases hboth
  | steer _ hother => rcases hother with hother | hother <;> rw [hother] at hbefore <;> cases hbefore
  | startProbing | startCompeting | stopCompeting | timeOut | stopProbing | resolve => cases hmode

/-- The end of throttling takes the rate to the estimate noted. -/
theorem resolves (h : Transition now event known c c') (hbefore : c.mode = .throttled)
    (hevent : event = .resolveThrottle) : c' = { c.withRate c.throttledEstimate with
      mode := .steady } := by
  subst hevent
  cases h with
  | resolve => rfl
  | keep hunanswered =>
    rw [hbefore] at hunanswered
    exact absurd (Or.inl rfl) hunanswered
  | startProbing _ _ hother | startCompeting _ _ hother | keepCompeting _ hother
  | stopCompeting _ hother | timeOut _ hother | stopProbing _ hother | throttleSteady _ _ hother
  | throttleProbing _ _ hother | keepThrottled _ hother | steer _ _ hother => cases hother

end RateControl.Transition

/-- The estimate noted for throttled mode is the estimate that there is. -/
def EstimateNoted (c : RateControl) (e : BandwidthEstimator) : Prop :=
  c.mode = .throttled → e.estimate = some c.throttledEstimate

namespace Controller

variable {S D M : Type} [CongestionSource S] [RiseDetector D] [QueueMonitor M]
  {c c' : Controller S D M} {config : Config} {now : Instant} {r : Report} {period : Period}

namespace Advance

omit [QueueMonitor M] in
theorem bandwidth_of_not_competing (a : c.Advance now r period)
    (hmode : c.rateControl.mode ≠ .competing) : a.bandwidth = a.learned := by
  rcases a.bandwidth_cases with ⟨hrolls, -⟩ | ⟨-, hkept⟩
  · exact absurd hrolls.competing hmode
  · exact hkept

omit [QueueMonitor M] in
/-- A report in throttled mode leaves the estimate as it is. -/
theorem estimate_of_throttled (a : c.Advance now r period)
    (hmode : c.rateControl.mode = .throttled) : a.bandwidth.estimate = c.bandwidth.estimate := by
  rw [a.bandwidth_of_not_competing (by rw [hmode]; decide)]
  rcases BandwidthEstimator.update_eq_ok a.learned_eq with ⟨-, rate, hlearned⟩ | ⟨hlearns, -⟩
  · rw [hlearned]
  · exact absurd hmode hlearns

omit [QueueMonitor M] in
/-- An event is told only with an estimate, and without competition none is rolled back since. -/
theorem exists_estimate (a : c.Advance now r period) (hmode : c.rateControl.mode ≠ .competing)
    (hevent : a.decision.event ≠ .nothing) : ∃ e, a.bandwidth.estimate = some e := by
  obtain ⟨e, he, -⟩ := (RateControl.classify_eq_ok a.decision_eq).2 hevent
  exact ⟨e, by rw [a.bandwidth_of_not_competing hmode, he]⟩

omit [QueueMonitor M] in
theorem estimateNoted (a : c.Advance now r period) (hc : EstimateNoted c.rateControl c.bandwidth) :
    EstimateNoted a.rateControl a.bandwidth := by
  intro hmode
  have htransition := RateControl.apply_transition a.rateControl_eq
  rcases htransition.throttled hmode with ⟨hevent, hbefore, hnoted⟩ | hkept
  · obtain ⟨e, he⟩ := a.exists_estimate hbefore (by rw [hevent]; decide)
    rw [hnoted, he]
    rfl
  · have hbefore : c.rateControl.mode = .throttled := by rw [← hkept]; exact hmode
    rw [a.estimate_of_throttled hbefore, hkept]
    exact hc hbefore

end Advance

theorem estimateNoted_of_run {source : S} {detector : D} {monitor : M}
    {commands : List SenderCommand} {answers : List (Except Rejection ControlUpdate)}
    (hrun : (create config source detector monitor).run commands = .ok (answers, c)) :
    EstimateNoted c.rateControl c.bandwidth := by
  have hcreate : EstimateNoted (create config source detector monitor).rateControl
      (create config source detector monitor).bandwidth := fun hmode ↦ by cases hmode
  have hreset : ∀ rateControl bandwidth, EstimateNoted rateControl bandwidth →
      EstimateNoted rateControl.reset bandwidth.reset := fun _ _ _ hmode ↦ by cases hmode
  exact run_keeps_control (fun c now r period a hc ↦ a.estimateNoted hc) hreset hcreate hrun

/-- In every throttled state that a controller reaches, the estimate is the one noted. A report
accepted in it does not change the estimate, nor the rate as long as throttling lasts; where it ends
throttling, the rate becomes the estimate. -/
theorem throttled_freezes {source : S} {detector : D} {monitor : M}
    {commands : List SenderCommand} {answers : List (Except Rejection ControlUpdate)}
    (hrun : (create config source detector monitor).run commands = .ok (answers, c))
    (hmode : c.rateControl.mode = .throttled) :
    c.bandwidth.estimate = some c.rateControl.throttledEstimate ∧
    ∀ now r update c', c.onFeedback now r = .ok (.ok update, c') →
      c'.bandwidth.estimate = c.bandwidth.estimate ∧
      (c'.rateControl.mode = .throttled →
        c'.rateControl.targetRate = c.rateControl.targetRate) ∧
      (c'.stats.decision.event = .resolveThrottle →
        c'.bandwidth.estimate = some c'.rateControl.targetRate) := by
  have hnoted := estimateNoted_of_run hrun hmode
  refine ⟨hnoted, fun now r update c' h ↦ ?_⟩
  rcases onFeedback_eq_ok h with ⟨_, _, _, hanswer, -⟩ | ⟨period, examined, hexamine, a, -, rfl⟩
  · cases hanswer
  have hsame := examine_sameEstimates hexamine
  have hrate : examined.rateControl = c.rateControl := hsame.rateControl
  have hbandwidth : examined.bandwidth = c.bandwidth := hsame.bandwidth
  have hbefore : examined.rateControl.mode = .throttled := by rw [hrate]; exact hmode
  have htransition := RateControl.apply_transition a.rateControl_eq
  have hestimate : a.bandwidth.estimate = c.bandwidth.estimate := by
    rw [a.estimate_of_throttled hbefore, hbandwidth]
  refine ⟨hestimate, fun hstays ↦ ?_, fun hevent ↦ ?_⟩
  · rw [← hrate]
    exact htransition.targetRate_of_throttled hbefore hstays
  · -- the estimate is within the bounds of the rate, so it is taken as it is
    have hbounded := bounded_of_run hrun
    have hwithin : c.rateControl.throttledEstimate.Within c.rateControl.minBitrate
        c.rateControl.maxBitrate := by
      rw [hbounded.rateControl.minBitrate, hbounded.rateControl.maxBitrate]
      exact hbounded.bandwidth.estimate _ hnoted
    have htarget : a.rateControl.targetRate = c.rateControl.throttledEstimate := by
      rw [htransition.resolves hbefore hevent, hrate]
      exact RateControl.targetRate_withRate hwithin
    show a.bandwidth.estimate = some a.rateControl.targetRate
    rw [hestimate, hnoted, htarget]

/-- A queue counts as rising as soon as it has risen once. -/
def quickRise : Config where
  queueDelay := { riseCount := 1, riseDuration := 0 }

/-- Arrivals that fall ever further behind, with packets lost on the way, until the sender throttles,
and two more packets once it has. -/
def fallingBehind : List SenderCommand :=
  [packet 1 10000, packet 2 10050, reported 10100 51 [(1, 0), (2, 50)],
    packet 3 10100, packet 4 10140, packet 5 10150, reported 10300 251 [(3, 200), (5, 250)],
    packet 6 10200, packet 7 10240, packet 8 10250, reported 10400 371 [(6, 320), (8, 370)],
    packet 9 10500, packet 10 10550]

/-- The queue has drained. -/
def drained : Report := reportOf 551 [(9, 500), (10, 550)]

/-- The estimate is above the rate of the throttled sender, and the rate once throttling ends. -/
theorem throttled_freezes_drained : ∃ answers c update c',
    (createStandard quickRise ({} : FixedRates) ()).run fallingBehind = .ok (answers, c) ∧
    c.rateControl.mode = .throttled ∧ c.rateControl.targetRate = .exactly 150000 ∧
    c.onFeedback ⟨.exactly 10600000⟩ drained = .ok (.ok update, c') ∧
    c'.stats.decision.event = .resolveThrottle ∧ c'.rateControl.targetRate = .exactly 156960 ∧
    c'.bandwidth.estimate = c.bandwidth.estimate ∧
    c'.bandwidth.estimate = some c'.rateControl.targetRate := by
  obtain ⟨⟨answers, c⟩, hrun, hthrottled⟩ := exists_ok_of_any
    (x := (createStandard quickRise ({} : FixedRates) ()).run fallingBehind)
    (fun (_, c) ↦ c.rateControl.mode = .throttled ∧ c.rateControl.targetRate = .exactly 150000 ∧
      (c.onFeedback ⟨.exactly 10600000⟩ drained).toOption.any fun (answer, c') ↦
        answer.toOption.isSome ∧ c'.stats.decision.event = .resolveThrottle ∧
          c'.rateControl.targetRate = .exactly 156960) (by decide +kernel)
  obtain ⟨hmode, hrate, hdrained⟩ := of_decide_eq_true hthrottled
  obtain ⟨⟨answer, c'⟩, hfeedback, hresolved⟩ := exists_ok_of_any _ hdrained
  obtain ⟨hanswer, hevent, htarget⟩ := of_decide_eq_true hresolved
  obtain ⟨update, rfl⟩ : ∃ update, answer = .ok update := by
    cases answer with
    | ok update => exact ⟨update, rfl⟩
    | error => cases hanswer
  obtain ⟨hestimate, -, hends⟩ := (throttled_freezes hrun hmode).2 _ _ _ _ hfeedback
  exact ⟨answers, c, update, c', hrun, hmode, hrate, hfeedback, hevent, htarget, hestimate,
    hends hevent⟩

end Controller

end Congestion
