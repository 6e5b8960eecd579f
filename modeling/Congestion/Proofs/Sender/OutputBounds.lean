import Congestion.Proofs.Path.Estimates
import Congestion.Proofs.Repair
import Congestion.Proofs.Sender.Session
import Congestion.Proofs.Sender.Transitions

/-!
# Bounds on what a controller answers

A controller of any configuration stays within the bounds of the repaired configuration, over every
run that meets no fault and whatever its floating-point computations answer. `Config.Admits` are the
bounds. What carries them through a run is `Controller.Bounded`: the parts of the controller still
have the bounds they were made with, the rate and the estimate are within them, and the target delay
is one of the two targets, which the repair has left positive and within their bounds.
-/

set_option autoImplicit false
set_option relaxedAutoImplicit false

namespace Congestion

/-- The configuration allows a target rate, a target delay and an estimate, if there is one. -/
structure Config.Admits (c : Config) (rate : DataRate) (delay : Duration)
    (estimate : Option DataRate) : Prop where
  rate : rate.Within c.minBitrate c.maxBitrate
  delay_pos : 0 < delay
  delay : delay.Within c.rate.targets.lowest c.rate.targets.highest
  estimate : ∀ e, estimate = some e → e.Within c.minBitrate c.maxBitrate

namespace RateControl

/-- Made with the bounds of the configuration, and within them. -/
structure Bounded (c : RateControl) (config : Config) : Prop where
  settings : c.settings = config.rate
  minBitrate : c.minBitrate = config.minBitrate
  maxBitrate : c.maxBitrate = config.maxBitrate
  startBitrate : c.startBitrate = config.startBitrate
  rate : c.targetRate.Within config.minBitrate config.maxBitrate
  delay : c.targetDelay = config.rate.targets.steady ∨ c.targetDelay = config.rate.targets.competing

variable {c c' : RateControl} {config : Config} {now : Instant} {event : Event} {known : DataRate}

theorem bounded_create (hconfig : config.Sound) : (create config.rate config.minBitrate
    config.maxBitrate config.startBitrate).Bounded config :=
  ⟨rfl, rfl, rfl, rfl, hconfig.startBitrate, Or.inl rfl⟩

theorem Bounded.reset (hc : c.Bounded config) (hconfig : config.Sound) :
    c.reset.Bounded config := by
  rw [RateControl.reset, hc.settings, hc.minBitrate, hc.maxBitrate, hc.startBitrate]
  exact bounded_create hconfig

theorem Bounded.withRate (hc : c.Bounded config) (hconfig : config.Sound) (rate : DataRate) :
    (c.withRate rate).Bounded config := by
  refine ⟨hc.settings, hc.minBitrate, hc.maxBitrate, hc.startBitrate, ?_, hc.delay⟩
  show (rate.clamp c.minBitrate c.maxBitrate).Within _ _
  rw [hc.minBitrate, hc.maxBitrate]
  exact Quantity.within_clamp rate hconfig.ordered

/-- Either target is left as it is when it is brought into the bounds. -/
theorem Bounded.withDelay (hc : c.Bounded config) (hconfig : config.Sound) {delay : Duration}
    (hdelay : delay = config.rate.targets.steady ∨ delay = config.rate.targets.competing) :
    (c.withDelay delay).Bounded config := by
  have hwithin : delay.Within config.rate.targets.lowest config.rate.targets.highest := by
    rcases hdelay with rfl | rfl
    · exact hconfig.targets.steady
    · exact hconfig.targets.competing
  have htarget : (c.withDelay delay).targetDelay = delay :=
    targetDelay_withDelay (by rw [hc.settings]; exact hwithin)
  refine ⟨hc.settings, hc.minBitrate, hc.maxBitrate, hc.startBitrate, hc.rate, ?_⟩
  rw [htarget]
  exact hdelay

theorem Bounded.transition (hc : c.Bounded config) (hconfig : config.Sound)
    (h : Transition now event known c c') : c'.Bounded config := by
  have hrate : ∀ rate, (c.withRate rate).Bounded config := hc.withRate hconfig
  have hcompeting : ∀ rate, ((c.withRate rate).withDelay c.settings.targets.competing).Bounded
      config := fun rate ↦ (hrate rate).withDelay hconfig (Or.inr (by rw [hc.settings]))
  have hsteady : (c.withDelay c.settings.targets.steady).Bounded config :=
    hc.withDelay hconfig (Or.inl (by rw [hc.settings]))
  cases h with
  | keep => exact hc
  | steer rate => exact hrate rate
  | startProbing rate => exact { hrate rate with }
  | startCompeting rate => exact { hcompeting rate with }
  | keepCompeting => exact { hc with }
  | stopCompeting => exact { hsteady with }
  | timeOut => exact { hc with }
  | stopProbing => exact { hrate known with }
  | throttleSteady rate => exact { hrate rate with }
  | throttleProbing rate => exact { hrate rate with }
  | keepThrottled => exact { hc with }
  | resolve => exact { hrate c.throttledEstimate with }

end RateControl

namespace BandwidthEstimator

/-- Made with the bounds of the configuration, and within them once there is an estimate. -/
structure Bounded (e : BandwidthEstimator) (config : Config) : Prop where
  minBitrate : e.minBitrate = config.minBitrate
  maxBitrate : e.maxBitrate = config.maxBitrate
  estimate : ∀ estimate, e.estimate = some estimate →
    estimate.Within config.minBitrate config.maxBitrate

variable {e e' : BandwidthEstimator} {config : Config}

theorem Bounded.withEstimate (he : e.Bounded config) (hconfig : config.Sound) (rate : DataRate)
    (estimate : DataRate) : Bounded { e with
      receivedRate := rate
      estimate := some (estimate.clamp e.minBitrate e.maxBitrate) } config := by
  refine ⟨he.minBitrate, he.maxBitrate, fun estimate' h ↦ ?_⟩
  cases h
  rw [he.minBitrate, he.maxBitrate]
  exact Quantity.within_clamp estimate hconfig.ordered

theorem Bounded.update (he : e.Bounded config) (hconfig : config.Sound) {bytes : ByteTotals}
    {duration : Duration} {mode : Mode} {target growth : DataRate} {lossRate : Float}
    (h : e.update bytes duration mode target lossRate = .ok (growth, e')) : e'.Bounded config := by
  rcases update_eq_ok h with ⟨-, rate, rfl⟩ | ⟨-, rate, blended, rfl, -⟩
  · exact { he with }
  · exact he.withEstimate hconfig rate blended

theorem Bounded.rollBack (he : e.Bounded config) (hconfig : config.Sound) {difference : DataRate}
    (h : e.rollBack difference = .ok e') : e'.Bounded config := by
  rcases rollBack_eq_ok h with ⟨-, rfl⟩ | ⟨estimate, lowered, -, -, rfl⟩
  · exact he
  · exact he.withEstimate hconfig e.receivedRate lowered

theorem bounded_create (config : Config) (s : BandwidthSettings) :
    (create s config.minBitrate config.maxBitrate).Bounded config :=
  ⟨rfl, rfl, fun estimate h ↦ by cases h⟩

theorem Bounded.reset (he : e.Bounded config) : e.reset.Bounded config :=
  ⟨he.minBitrate, he.maxBitrate, fun estimate h ↦ by cases h⟩

end BandwidthEstimator

namespace Controller

variable {S D M : Type} [CongestionSource S] [RiseDetector D] [QueueMonitor M]

/-- What a controller of the configuration has in every state that it reaches. -/
structure Bounded (c : Controller S D M) (config : Config) : Prop where
  rateControl : c.rateControl.Bounded config
  bandwidth : c.bandwidth.Bounded config

variable {c c' : Controller S D M} {config : Config} {now : Instant} {r : Report} {period : Period}

omit [CongestionSource S] [RiseDetector D] [QueueMonitor M] in
theorem Bounded.admits (hc : c.Bounded config) (hconfig : config.Sound) :
    config.Admits c.rateControl.targetRate c.rateControl.targetDelay c.bandwidth.estimate := by
  refine ⟨hc.rateControl.rate, ?_, ?_, hc.bandwidth.estimate⟩
  · rcases hc.rateControl.delay with hdelay | hdelay
    · rw [hdelay]
      exact hconfig.targets.steady_pos
    · rw [hdelay]
      exact hconfig.targets.competing_pos
  · rcases hc.rateControl.delay with hdelay | hdelay
    · rw [hdelay]
      exact hconfig.targets.steady
    · rw [hdelay]
      exact hconfig.targets.competing

omit [CongestionSource S] [RiseDetector D] [QueueMonitor M] in
theorem bounded_create (config : Config) (source : S) (detector : D) (monitor : M) :
    (create config source detector monitor).Bounded config.repaired :=
  ⟨RateControl.bounded_create config.sound_repaired,
    BandwidthEstimator.bounded_create config.repaired config.repaired.bandwidth⟩

omit [CongestionSource S] [RiseDetector D] [QueueMonitor M] in
theorem Bounded.of_sameEstimates (hc : c.Bounded config) (h : c'.SameEstimates c) :
    c'.Bounded config := by
  have hrate := hc.rateControl
  have hbandwidth := hc.bandwidth
  rw [← h.rateControl] at hrate
  rw [← h.bandwidth] at hbandwidth
  exact ⟨hrate, hbandwidth⟩

omit [CongestionSource S] [RiseDetector D] [QueueMonitor M] in
theorem Bounded.rollBack (hc : c.Bounded config) (hconfig : config.Sound) {delayFraction : Float}
    {growth : DataRate} {bandwidth : BandwidthEstimator}
    (h : c.rollBack delayFraction growth = .ok bandwidth) : bandwidth.Bounded config := by
  unfold Controller.rollBack at h
  split at h
  · exact hc.bandwidth.rollBack hconfig h
  · cases h
    exact hc.bandwidth

omit [QueueMonitor M] in
theorem Bounded.advance (hc : c.Bounded config) (hconfig : config.Sound)
    (a : c.Advance now r period) : a.result.Bounded config := by
  have hlearned : a.learned.Bounded config := hc.bandwidth.update hconfig a.learned_eq
  have hwith : Bounded { c with bandwidth := a.learned } config := ⟨hc.rateControl, hlearned⟩
  have hbandwidth : a.bandwidth.Bounded config := hwith.rollBack hconfig a.bandwidth_eq
  have hrate : a.rateControl.Bounded config :=
    hc.rateControl.transition hconfig (RateControl.apply_transition a.rateControl_eq)
  exact ⟨hrate, hbandwidth⟩

/-- A step keeps the bounds, and its answer is within them. -/
theorem Bounded.step (hc : c.Bounded config) (hconfig : config.Sound) {command : SenderCommand}
    {answers : List (Except Rejection ControlUpdate)} (h : c.step command = .ok (answers, c')) :
    c'.Bounded config ∧ ∀ a ∈ answers, ∀ u, a = .ok u →
      config.Admits u.targetRate u.targetDelay u.estimate := by
  cases command with
  | send p =>
    obtain ⟨sent, hsent, h⟩ := map_eq_ok_iff.mp h
    obtain ⟨⟨misordered, ledger⟩, -, hsent⟩ := bind_eq_ok_iff.mp hsent
    cases hsent
    cases h
    exact ⟨⟨hc.rateControl, hc.bandwidth⟩, fun a ha ↦ by cases ha⟩
  | feedback now r =>
    obtain ⟨⟨answer, c₁⟩, hfeedback, h⟩ := map_eq_ok_iff.mp h
    cases h
    have hreceived : (c.received r).Bounded config := ⟨hc.rateControl, hc.bandwidth⟩
    rcases onFeedback_eq_ok hfeedback with
      ⟨rejection, examined, hexamine, rfl, rfl⟩ | ⟨period, examined, hexamine, a, rfl, rfl⟩
    · have hexamined := hreceived.of_sameEstimates (examine_sameEstimates hexamine)
      refine ⟨⟨hexamined.rateControl, hexamined.bandwidth⟩, fun answer ha u hu ↦ ?_⟩
      rw [List.mem_singleton.mp ha] at hu
      cases hu
    · have hexamined := hreceived.of_sameEstimates (examine_sameEstimates hexamine)
      have hresult := hexamined.advance hconfig a
      refine ⟨hresult, fun answer ha u hu ↦ ?_⟩
      rw [List.mem_singleton.mp ha] at hu
      cases hu
      -- the update is made from the statistics, which the report has just brought up to date
      exact hresult.admits hconfig
  | reset =>
    cases h
    exact ⟨⟨hc.rateControl.reset hconfig, hc.bandwidth.reset⟩, fun a ha ↦ by cases ha⟩

theorem bounded_of_run {source : S} {detector : D} {monitor : M}
    {commands : List SenderCommand} {answers : List (Except Rejection ControlUpdate)}
    (hrun : (create config source detector monitor).run commands = .ok (answers, c)) :
    c.Bounded config.repaired := by
  have hstep : ∀ (c c' : Controller S D M) (command : SenderCommand) answers,
      c.Bounded config.repaired → c.step command = .ok (answers, c') →
        c'.Bounded config.repaired ∧ ∀ a ∈ answers, True :=
    fun c c' command answers hc h ↦
      ⟨(hc.step config.sound_repaired h).1, fun _ _ ↦ True.intro⟩
  exact (run_keeps hstep (bounded_create config source detector monitor) hrun).1

/-- A controller of any configuration keeps its rate, its target delay and its estimate within the
bounds of the repaired configuration over every run, and so does every update that it answers. -/
theorem outputs_within_bounds {config : Config} {source : S} {detector : D} {monitor : M}
    {commands : List SenderCommand} {answers : List (Except Rejection ControlUpdate)}
    (hrun : (create config source detector monitor).run commands = .ok (answers, c)) :
    config.repaired.Admits c.rateControl.targetRate c.rateControl.targetDelay
        c.bandwidth.estimate ∧
      ∀ u, .ok u ∈ answers →
        config.repaired.Admits u.targetRate u.targetDelay u.estimate := by
  have hconfig := config.sound_repaired
  have hstep : ∀ (c c' : Controller S D M) (command : SenderCommand) answers,
      c.Bounded config.repaired → c.step command = .ok (answers, c') →
        c'.Bounded config.repaired ∧ ∀ a ∈ answers, ∀ u, a = .ok u →
          config.repaired.Admits u.targetRate u.targetDelay u.estimate :=
    fun c c' command answers hc h ↦ hc.step hconfig h
  obtain ⟨hc, hanswers⟩ :=
    run_keeps hstep (bounded_create config source detector monitor) hrun
  exact ⟨hc.admits hconfig, fun u hu ↦ hanswers _ hu u rfl⟩

/-- Bounds out of order, a start and a target beyond them, and no time to remember packets for. A
queue counts as rising as soon as it has risen once. -/
def unusable : Config where
  minBitrate := .exactly 2000000
  startBitrate := .exactly 9000000
  retention := 0
  queueDelay := { riseCount := 1, riseDuration := 0 }
  rate :=
    { targets := { lowest := .exactly 300000, steady := .exactly 400000 },
      compete := { riseTime := 0, delay := .exactly 50000 } }

/-- Arrivals fall behind with packets lost, and then with none lost, until the queue is full. Four
seconds later it is empty, and then it fills once more. -/
def throughAllModes : List SenderCommand :=
  [packet 1 10000, packet 2 10050, reported 10100 51 [(1, 0), (2, 50)],
    packet 3 10100, packet 4 10140, packet 5 10150, reported 10300 251 [(3, 200), (5, 250)],
    packet 6 10200, packet 7 10240, packet 8 10250, reported 10400 371 [(6, 320), (8, 370)],
    packet 9 10900, packet 10 10950, reported 11200 1101 [(9, 1030), (10, 1100)],
    packet 11 11000, packet 12 11020, packet 13 11030, packet 14 11040,
    reported 11300 1251 [(11, 1190), (12, 1210), (13, 1220), (14, 1240)],
    packet 15 15400, packet 16 15450, reported 15600 5451 [(15, 5400), (16, 5450)],
    packet 17 15500, packet 18 15550, reported 15700 5551 [(17, 5500), (18, 5550)],
    packet 19 15600, packet 20 15650, reported 15800 5751 [(19, 5680), (20, 5750)]]

/-- What the reports are answered: a first estimate and two that it is smoothed into, after which the
sender is throttled, what the fifth report adds is taken back, and no other tells of the capacity.
The rate is held at its lower bound twice. -/
def modesAnswered : List (Mode × DataRate × Option DataRate) :=
  [(.steady, .exactly 150750, some (.exactly 160000)),
    (.steady, .exactly 150000, some (.exactly 158400)),
    (.throttled, .exactly 150000, some (.exactly 156960)),
    (.competing, .exactly 204048, some (.exactly 156960)),
    (.competing, .exactly 204048, some (.exactly 156960)),
    (.steady, .exactly 204048, some (.exactly 156960)),
    (.probing, .exactly 356960, some (.exactly 156960)),
    (.steady, .exactly 156960, some (.exactly 156960))]

/-- All reports are accepted, and every update is within the bounds of the repaired configuration. -/
theorem outputs_within_bounds_unusable : ∃ answers c,
    (createStandard unusable ({} : FixedRates) ()).run throughAllModes = .ok (answers, c) ∧
    (answers.map fun a ↦ a.toOption.map fun u ↦ (u.mode, u.targetRate, u.estimate)) =
      modesAnswered.map some ∧
    (∀ u, .ok u ∈ answers →
      unusable.repaired.Admits u.targetRate u.targetDelay u.estimate) ∧
    unusable.repaired.Admits c.rateControl.targetRate c.rateControl.targetDelay
      c.bandwidth.estimate := by
  obtain ⟨⟨answers, c⟩, hrun, hanswered⟩ := exists_ok_of_any
    (x := (createStandard unusable ({} : FixedRates) ()).run throughAllModes)
    (fun (answers, _) ↦ (answers.map fun a ↦ a.toOption.map fun u ↦
      (u.mode, u.targetRate, u.estimate)) = modesAnswered.map some) (by decide +kernel)
  obtain ⟨hstate, hupdates⟩ := outputs_within_bounds hrun
  exact ⟨answers, c, hrun, of_decide_eq_true hanswered, hupdates, hstate⟩

end Controller

end Congestion
