import Congestion.Proofs.Sender.Throttling

/-!
# The estimate over a session

There is no estimate until a report tells about the capacity, and until then the rate control is as
it has been made; once there is one, it stays until a reset (`waits_for_estimate`). So a competing
sender always has an estimate. What a report adds to it while the queue is full is taken back
before the rate control sees it (`growth_taken_back`): the estimate is within its bounds before and
after the growth, which makes the growth known exactly.
-/

set_option autoImplicit false
set_option relaxedAutoImplicit false

namespace Congestion

/-- Without an estimate the rate control is as it has been made. -/
def WaitsForEstimate (c : RateControl) (e : BandwidthEstimator) : Prop :=
  e.estimate = none → c.reset = c

variable {S D M : Type} [CongestionSource S] [RiseDetector D] [QueueMonitor M]

theorem RateControl.apply_without_estimate {c c' : RateControl} {now : Instant} {d : Decision}
    (hmode : c.mode = .steady) (hevent : d.event = .nothing) (h : c.apply now d none = .ok c') :
    c' = c := by
  unfold apply at h
  rw [hmode, hevent] at h
  exact (Except.ok.inj h).symm

namespace WaitsForEstimate

variable {c : RateControl} {e : BandwidthEstimator}

theorem mode_eq (h : WaitsForEstimate c e) (hestimate : e.estimate = none) : c.mode = .steady :=
  (congrArg RateControl.mode (h hestimate)).symm

theorem exists_estimate (h : WaitsForEstimate c e) (hmode : c.mode ≠ .steady) :
    ∃ estimate, e.estimate = some estimate := by
  cases hestimate : e.estimate with
  | none => exact absurd (h.mode_eq hestimate) hmode
  | some estimate => exact ⟨estimate, rfl⟩

end WaitsForEstimate

namespace Controller

variable {c c' : Controller S D M} {config : Config} {now : Instant} {r : Report} {period : Period}

namespace Advance

omit [QueueMonitor M] in
theorem isSome_of_learned (a : c.Advance now r period) (h : a.learned.estimate.isSome) :
    a.bandwidth.estimate.isSome := by
  rcases a.bandwidth_cases with ⟨-, hrolled⟩ | ⟨-, hkept⟩
  · exact BandwidthEstimator.isSome_of_rollBack h hrolled
  · rw [hkept]
    exact h

omit [QueueMonitor M] in
/-- A report takes no estimate away. -/
theorem isSome_of_estimate (a : c.Advance now r period) (h : c.bandwidth.estimate.isSome) :
    a.bandwidth.estimate.isSome :=
  a.isSome_of_learned (BandwidthEstimator.isSome_of_update h a.learned_eq)

omit [QueueMonitor M] in
theorem waitsForEstimate (a : c.Advance now r period)
    (hc : WaitsForEstimate c.rateControl c.bandwidth) :
    WaitsForEstimate a.rateControl a.bandwidth := by
  intro hestimate
  have hlearned : a.learned.estimate = none :=
    Option.not_isSome_iff_eq_none.mp fun h ↦ by simpa [hestimate] using a.isSome_of_learned h
  have hbefore : c.bandwidth.estimate = none :=
    Option.not_isSome_iff_eq_none.mp fun h ↦ by simpa [hestimate] using a.isSome_of_estimate h
  have hevent : a.decision.event = .nothing := by
    by_contra h
    obtain ⟨e, he, -⟩ := (RateControl.classify_eq_ok a.decision_eq).2 h
    rw [hlearned] at he
    cases he
  have happly := a.rateControl_eq
  rw [hestimate] at happly
  rw [RateControl.apply_without_estimate (hc.mode_eq hbefore) hevent happly]
  exact hc hbefore

omit [QueueMonitor M] in
/-- While competing against a full queue, an estimate that has grown is the one before the report,
and it has not grown otherwise. -/
theorem estimate_of_full (a : c.Advance now r period) (hconfig : config.Sound)
    (hmax : config.maxBitrate.isFinite) (hc : c.Bounded config)
    (hmode : c.rateControl.mode = .competing)
    (hfull : a.decision.delayFraction ≥ c.config.rate.compete.rollbackDelayFraction)
    {before : DataRate} (hbefore : c.bandwidth.estimate = some before) :
    ∃ learned after, a.learned.estimate = some learned ∧ a.bandwidth.estimate = some after ∧
      (before < learned → after = before) ∧ after ≤ before := by
  have hwithin := hc.bandwidth.estimate before hbefore
  obtain ⟨m, hm⟩ := hwithin.exists_toInt hconfig.minBitrate_pos hmax
  have hlearned := hc.bandwidth.update hconfig a.learned_eq
  obtain ⟨learned, n, hestimate, hn, hgrowth⟩ := BandwidthEstimator.update_moves hbefore hm
    (by rw [hc.bandwidth.minBitrate]; exact hconfig.minBitrate_pos)
    (by rw [hc.bandwidth.minBitrate, hc.bandwidth.maxBitrate]; exact hconfig.ordered)
    (by rw [hc.bandwidth.maxBitrate]; exact hmax) a.learned_eq
  have hgrown : 0 < a.growth ↔ before < learned := by
    rw [Quantity.lt_iff_of_toInt (m := 0) rfl hgrowth, Quantity.lt_iff_of_toInt hm hn]
    omega
  rcases a.bandwidth_cases with ⟨-, hrolled⟩ | ⟨hrolls, hkept⟩
  · have hafter := BandwidthEstimator.rollBack_restores hestimate hn hgrowth hm
      (by rw [hlearned.minBitrate, hlearned.maxBitrate]; exact hwithin) hrolled
    exact ⟨learned, before, hestimate, hafter, fun _ ↦ rfl, Int.le_refl _⟩
  · have hnot : ¬ before < learned := fun h ↦ hrolls ⟨hmode, hfull, hgrown.mpr h⟩
    exact ⟨learned, learned, hestimate, hkept ▸ hestimate, fun h ↦ absurd h hnot,
      Int.not_lt.mp hnot⟩

end Advance

/-! ### Sessions -/

variable {source : S} {detector : D} {monitor : M} {commands : List SenderCommand}
  {answers : List (Except Rejection ControlUpdate)}

theorem waitsForEstimate_of_run
    (hrun : (create config source detector monitor).run commands = .ok (answers, c)) :
    WaitsForEstimate c.rateControl c.bandwidth :=
  run_keeps_control (fun _ _ _ _ a hc ↦ a.waitsForEstimate hc) (fun _ _ _ _ ↦ rfl)
    (fun _ ↦ rfl) hrun

/-- Only a reset takes the estimate away. -/
theorem isSome_of_run (hreset : .reset ∉ commands) (hc : c.bandwidth.estimate.isSome)
    (hrun : c.run commands = .ok (answers, c')) : c'.bandwidth.estimate.isSome :=
  run_keeps_parts (fun c ↦ c.bandwidth.estimate.isSome)
    (fun _ _ hsame hc ↦ by rw [hsame.bandwidth]; exact hc)
    (fun _ _ _ _ a hc ↦ a.isSome_of_estimate hc) (fun h ↦ absurd h hreset) hc hrun

/-- In every state without an estimate that a controller reaches, it is in steady mode with the
rate and the target delay of its repaired configuration. Once there is an estimate, there is one
until a reset. -/
theorem waits_for_estimate
    (hrun : (create config source detector monitor).run commands = .ok (answers, c)) :
    (c.bandwidth.estimate = none → c.rateControl.mode = .steady ∧
      c.rateControl.targetRate = config.repaired.startBitrate ∧
      c.rateControl.targetDelay = config.repaired.rate.targets.steady) ∧
    (c.bandwidth.estimate.isSome → ∀ later answers' c', .reset ∉ later →
      c.run later = .ok (answers', c') → c'.bandwidth.estimate.isSome) := by
  refine ⟨fun hestimate ↦ ?_, fun hestimate later answers' c' hreset h ↦
    isSome_of_run hreset hestimate h⟩
  have hbounded := (bounded_of_run hrun).rateControl
  have hmade : c.rateControl.reset = c.rateControl := waitsForEstimate_of_run hrun hestimate
  rw [← hmade, ← hbounded.startBitrate, ← hbounded.settings]
  exact ⟨rfl, rfl, rfl⟩

/-- Less than the sender is allowed arrives, which tells nothing about the capacity, and then a
report on a packet that has not been sent. -/
def sparse : List SenderCommand :=
  [packet 1 10000, reported 10100 51 [(1, 0)], packet 2 10150, reported 10200 151 [(7, 120)]]

/-- The end of throttling, and a rejected report. -/
def onward : List SenderCommand :=
  [.feedback ⟨.exactly 10600000⟩ drained, packet 11 10600, reported 10700 651 [(99, 600)]]

theorem waits_for_estimate_sparse :
    (∃ answers c, (createStandard {} ({} : FixedRates) ()).run sparse = .ok (answers, c) ∧
      c.bandwidth.receivedRate = .exactly 80000 ∧ c.rateControl.mode = .steady ∧
      c.rateControl.targetRate = .exactly 150000) ∧
    ∃ answers c later c',
      (createStandard quickRise ({} : FixedRates) ()).run fallingBehind = .ok (answers, c) ∧
      c.run onward = .ok (later, c') ∧ later.length = 2 ∧ c'.bandwidth.estimate.isSome := by
  constructor
  · obtain ⟨⟨answers, c⟩, hrun, hnone⟩ := exists_ok_of_any
      (x := (createStandard {} ({} : FixedRates) ()).run sparse)
      (fun (_, c) ↦ c.bandwidth.receivedRate = .exactly 80000 ∧ c.bandwidth.estimate = none)
      (by decide +kernel)
    obtain ⟨hreceived, hestimate⟩ := of_decide_eq_true hnone
    obtain ⟨hmode, hrate, -⟩ := (waits_for_estimate hrun).1 hestimate
    exact ⟨answers, c, hrun, hreceived, hmode, hrate⟩
  · obtain ⟨⟨answers, c⟩, hrun, hestimate⟩ := exists_ok_of_any
      (x := (createStandard quickRise ({} : FixedRates) ()).run fallingBehind)
      (fun (_, c) ↦ c.bandwidth.estimate.isSome ∧
        (c.run onward).toOption.any fun (later, _) ↦ later.length = 2) (by decide +kernel)
    obtain ⟨hestimate, honward⟩ := of_decide_eq_true hestimate
    obtain ⟨⟨later, c'⟩, hlater, hlength⟩ := exists_ok_of_any _ honward
    exact ⟨answers, c, later, c', hrun, hlater, of_decide_eq_true hlength,
      (waits_for_estimate hrun).2 hestimate onward later c'
        (by simp [onward, packet, reported]) hlater⟩

/-- The estimate as a report updates it, with nothing taken back yet. -/
def updatedEstimate (c : Controller S D M) (r : Report) : Checked (Option DataRate) := do
  match ← (c.received r).examine r with
  | (.error _, c) => return c.bandwidth.estimate
  | (.ok period, c) =>
    let accounting ← Accounting.ofReport r c.ledger period
    let source := CongestionSource.observe c.source r
    let (_, bandwidth) ← c.bandwidth.update accounting.bytes (← period.duration)
      c.rateControl.mode c.rateControl.targetRate (CongestionSource.lossRate source)
    return bandwidth.estimate

theorem updatedEstimate_eq {examined : Controller S D M}
    (hexamine : (c.received r).examine r = .ok (.ok period, examined))
    (a : examined.Advance now r period) : c.updatedEstimate r = .ok a.learned.estimate := by
  refine bind_eq_ok_iff.mpr ⟨_, hexamine, bind_eq_ok_iff.mpr ⟨_, a.accounting_eq, ?_⟩⟩
  exact bind_eq_ok_iff.mpr ⟨_, a.duration_eq, bind_eq_ok_iff.mpr ⟨_, a.learned_eq, rfl⟩⟩

/-- In every competing state that a controller reaches, there is an estimate. A report accepted in
it against a full queue does not raise the estimate: where the update of the estimate has raised it,
it is again exactly the estimate before the report, and this is what the rate control sees. -/
theorem growth_taken_back {update : ControlUpdate}
    (hrun : (create config source detector monitor).run commands = .ok (answers, c))
    (hmode : c.rateControl.mode = .competing)
    (hfeedback : c.onFeedback now r = .ok (.ok update, c'))
    (hfull : c'.stats.decision.delayFraction ≥
      config.repaired.rate.compete.rollbackDelayFraction) :
    ∃ before updated after, c.bandwidth.estimate = some before ∧
      c.updatedEstimate r = .ok (some updated) ∧ c'.bandwidth.estimate = some after ∧
      (before < updated → after = before) ∧ after ≤ before ∧
      c.rateControl.apply now c'.stats.decision (some after) = .ok c'.rateControl := by
  rcases onFeedback_eq_ok hfeedback with
    ⟨_, _, _, hanswer, -⟩ | ⟨period, examined, hexamine, a, -, rfl⟩
  · cases hanswer
  have hsame := examine_sameEstimates hexamine
  have hconfig : examined.config = config.repaired :=
    hsame.config.trans (config_of_run (c := c) hrun)
  have hrate : examined.rateControl = c.rateControl := hsame.rateControl
  have hbandwidth : examined.bandwidth = c.bandwidth := hsame.bandwidth
  have hreceived : (c.received r).Bounded config.repaired := { bounded_of_run hrun with }
  have hbounded := hreceived.of_sameEstimates hsame
  obtain ⟨before, hbefore⟩ :=
    (waitsForEstimate_of_run hrun).exists_estimate (by rw [hmode]; decide)
  obtain ⟨learned, after, hlearned, hafter, hrestored, hle⟩ := a.estimate_of_full
    config.sound_repaired config.maxBitrate_repaired_isFinite hbounded (by rw [hrate]; exact hmode)
    (by rw [hconfig]; exact hfull) (by rw [hbandwidth]; exact hbefore)
  have happly := a.rateControl_eq
  rw [hafter, hrate] at happly
  exact ⟨before, learned, after, hbefore, hlearned ▸ updatedEstimate_eq hexamine a, hafter,
    hrestored, hle, happly⟩

/-- Competing starts with the first rise, and throttling hardly ever. -/
def quickCompeting : Config where
  queueDelay := { riseCount := 1, riseDuration := 0 }
  rate :=
    { throttle := { delayFraction := 100.0 },
      compete := { riseTime := 0, delay := .exactly 50000 } }

/-- Arrivals that fall behind until the sender competes, and four packets more. -/
def crowded : List SenderCommand :=
  [packet 1 10000, packet 2 10050, reported 10100 51 [(1, 0), (2, 50)],
    packet 3 10100, packet 4 10150, reported 10300 251 [(3, 200), (4, 250)],
    packet 5 10160, packet 6 10200, reported 10400 361 [(5, 310), (6, 360)],
    packet 7 10210, packet 8 10230, packet 9 10240, packet 10 10250]

/-- Twice the bytes of the earlier reports, out of a full queue. -/
def inflated : Report := reportOf 461 [(7, 400), (8, 420), (9, 440), (10, 460)]

theorem growth_taken_back_inflated : ∃ answers c update c',
    (createStandard quickCompeting ({} : FixedRates) ()).run crowded = .ok (answers, c) ∧
    c.rateControl.mode = .competing ∧
    c.onFeedback ⟨.exactly 10500000⟩ inflated = .ok (.ok update, c') ∧
    c.bandwidth.estimate = some (.exactly 156960) ∧
    c.updatedEstimate inflated = .ok (some (.exactly 170064)) ∧
    c'.bandwidth.estimate = some (.exactly 156960) := by
  obtain ⟨⟨answers, c⟩, hrun, hcompeting⟩ := exists_ok_of_any
    (x := (createStandard quickCompeting ({} : FixedRates) ()).run crowded)
    (fun (_, c) ↦ c.rateControl.mode = .competing ∧
      c.bandwidth.estimate = some (.exactly 156960) ∧
      (c.updatedEstimate inflated).toOption.any (· = some (.exactly 170064)) ∧
      (c.onFeedback ⟨.exactly 10500000⟩ inflated).toOption.any fun (answer, c') ↦
        answer.toOption.any fun _ ↦ c'.stats.decision.delayFraction ≥
          quickCompeting.repaired.rate.compete.rollbackDelayFraction) (by decide +kernel)
  obtain ⟨hmode, hestimate, hupdated, hinflated⟩ := of_decide_eq_true hcompeting
  obtain ⟨updated, hupdated, hgrown⟩ := exists_ok_of_any _ hupdated
  obtain rfl := of_decide_eq_true hgrown
  obtain ⟨⟨answer, c'⟩, hfeedback, haccepted⟩ := exists_ok_of_any _ hinflated
  obtain ⟨update, rfl, hfull⟩ := exists_ok_of_any _ haccepted
  have hfull := of_decide_eq_true hfull
  obtain ⟨before, updated, after, hbefore, hupdate, hafter, hrestored, -, -⟩ :=
    growth_taken_back hrun hmode hfeedback hfull
  obtain rfl := Option.some.inj (hbefore.symm.trans hestimate)
  obtain rfl := Option.some.inj (Except.ok.inj (hupdate.symm.trans hupdated))
  rw [hrestored (by decide)] at hafter
  exact ⟨answers, c, update, c', hrun, hmode, hfeedback, hestimate, hupdated, hafter⟩

end Controller

end Congestion
