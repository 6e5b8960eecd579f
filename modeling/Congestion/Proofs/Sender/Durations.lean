import Congestion.Proofs.Path.Capacities
import Congestion.Proofs.Path.Expiry
import Congestion.Proofs.Repair
import Congestion.Proofs.Sender.Rejections
import Congestion.Proofs.Sender.Restart

/-!
# Durations that a controller counts in

A repair leaves a duration without an end as it is, and four of them are counted in whole units
later on: the retention of the ledger by every send, the two windows as they drop what is older, and
the delay that the virtual queue takes off a queue time. Where these four are finite, nothing about
them stops a controller in any state that it reaches (`Controller.Unhindered`): a send answers, and
all that can stop a window is a sum beyond the words. Where one of them has no end, even a new
controller can be stopped (`Controller.unhindered_iff`), and without an end to the retention every
send stops it (`Controller.endless_stops_sending`).
-/

set_option autoImplicit false
set_option relaxedAutoImplicit false

namespace Congestion

/-! ### The virtual queue -/

namespace Replay

/-- A replay that answers has come to a queue time that is known. -/
theorem isFinite_queueTime {samples : List DelaySample} {bandwidth : DataRate}
    {seed : Option Instant} {replay : Replay} (h : run samples bandwidth seed = .ok replay) :
    replay.queueTime.isFinite := by
  refine foldlM_keeps (fun replay ↦ replay.queueTime.isFinite)
    (fun s _ replay served _ hserved ↦ ?_) rfl h
  obtain ⟨_, _, -, -, hqueueTime, -⟩ := serve_eq_ok hserved
  exact Quantity.isFinite_of_toInt hqueueTime

end Replay

/-! ### Configurations -/

namespace Config

/-- The durations that are counted in whole units later on. -/
def countedDurations (c : Config) : List Duration :=
  [c.retention, c.bandwidth.fractionWindow, c.queueDelay.window, c.queueDelay.baseDelay]

theorem isFinite_repaired_iff (c : Config) : (∀ t ∈ c.repaired.countedDurations, t.isFinite) ↔
    ∀ t ∈ c.countedDurations, t < .infinity := by
  have hlarge : ∀ t : Duration, ¬ t ≤ 0 → 0 ≤ t := fun t h ↦ Int.le_of_lt (Quantity.not_le.mp h)
  have hretention : c.repaired.retention.isFinite ↔ c.retention < .infinity :=
    Quantity.orFallback_isFinite_iff rfl id (hlarge c.retention)
  have hfraction : c.repaired.bandwidth.fractionWindow.isFinite ↔
      c.bandwidth.fractionWindow < .infinity :=
    Quantity.orFallback_isFinite_iff rfl id (hlarge c.bandwidth.fractionWindow)
  have hwindow : c.repaired.queueDelay.window.isFinite ↔ c.queueDelay.window < .infinity :=
    Quantity.orFallback_isFinite_iff rfl id (hlarge c.queueDelay.window)
  have hbase : c.repaired.queueDelay.baseDelay.isFinite ↔ c.queueDelay.baseDelay < .infinity :=
    Quantity.orFallback_isFinite_iff rfl Int.le_of_lt Quantity.not_lt.mp
  simp only [countedDurations, List.forall_mem_cons, List.not_mem_nil, hretention, hfraction,
    hwindow, hbase]
  tauto

end Config

namespace Controller

variable {S D M : Type} [CongestionSource S] [RiseDetector D] [QueueMonitor M]
  {c c' : Controller S D M} {config : Config}

/-- The durations that the controller counts in whole units. -/
def countedDurations (c : Controller S D M) : List Duration :=
  [c.ledger.retention, c.delivery.window, c.queueDelay.window, c.queueDelay.virtualQueue.baseDelay]

omit [QueueMonitor M] in
theorem countedDurations_result {now : Instant} {r : Report} {period : Period}
    (a : c.Advance now r period) : a.result.countedDurations = c.countedDurations := by
  show [c.ledger.retention, a.delivery.reset.window, a.queueDelay.reset.window,
    a.queueDelay.reset.virtualQueue.baseDelay] = c.countedDurations
  rw [DeliveryWindow.reset_of_add a.delivery_eq,
    QueueDelayEstimator.reset_of_update a.queueDelay_eq]
  rfl

theorem countedDurations_step {command : SenderCommand}
    {answers : List (Except Rejection ControlUpdate)} (h : c.step command = .ok (answers, c')) :
    c'.countedDurations = c.countedDurations := by
  cases command with
  | send p =>
    obtain ⟨sent, hsent, h⟩ := map_eq_ok_iff.mp h
    obtain ⟨⟨record, ledger⟩, hrecord, hsent⟩ := bind_eq_ok_iff.mp hsent
    obtain ⟨stream, -, rfl⟩ := Ledger.record_eq_ok_iff.mp hrecord
    cases hsent
    cases h
    rfl
  | feedback now r =>
    obtain ⟨⟨answer, c₁⟩, hfeedback, h⟩ := map_eq_ok_iff.mp h
    cases h
    have hexamined : ∀ {verdict examined}, (c.received r).examine r = .ok (verdict, examined) →
        examined.countedDurations = c.countedDurations := fun hexamine ↦ by
      obtain ⟨reportOrder, inFlight, remains, received, rejected, rfl⟩ := examine_recounted hexamine
      rfl
    rcases onFeedback_eq_ok hfeedback with
      ⟨rejection, examined, hexamine, rfl, rfl⟩ | ⟨period, examined, hexamine, a, rfl, rfl⟩
    · show examined.countedDurations = c.countedDurations
      exact hexamined hexamine
    · exact (countedDurations_result a).trans (hexamined hexamine)
  | reset =>
    cases h
    rfl

theorem countedDurations_of_run {source : S} {detector : D} {monitor : M}
    {commands : List SenderCommand} {answers : List (Except Rejection ControlUpdate)}
    (hrun : (create config source detector monitor).run commands = .ok (answers, c)) :
    c.countedDurations = config.repaired.countedDurations :=
  (run_keeps (fun _ _ _ _ hc h ↦ ⟨(countedDurations_step h).trans hc, fun _ _ ↦ trivial⟩) rfl
    hrun).1

/-- Durations do not stop the controller. A send at a known time answers as long as the bytes of its
stream fit the words. The windows drop what is older as long as the bytes fit and no period is too
late for them. The excess of a replay is known when the difference it is made of fits. -/
structure Unhindered (c : Controller S D M) : Prop where
  send : ∀ (p : SentPacket) (sendTime : Finite) (total : DataSize),
    p.sendTime.toFinite = .ok sendTime →
    ((c.ledger.streams[p.ssrc]?.getD {}).total + p.size : Checked DataSize) = .ok total →
    ∃ c', c.send p = .ok c'
  delivery : ∀ (period : Period) (received sent : DataSize) (fault : Fault),
    FitsWith c.delivery.totalSent (c.delivery.periods.map PeriodBytes.sent) sent →
    FitsWith c.delivery.totalReceived (c.delivery.periods.map PeriodBytes.received) received →
    c.delivery.add period received sent = .error fault →
    fault = .overflow ∧ EndsBeyond c.delivery.window
      (c.delivery.periods.map PeriodBytes.start ++ [period.start])
  queueDelay : ∀ (stop : Int) (entries : List WindowEntry) (fault : Fault),
    QueueDelayEstimator.expire c.queueDelay.window stop entries = .error fault →
    fault = .overflow ∧ EndsBeyond c.queueDelay.window (entries.map WindowEntry.periodEnd)
  excess : ∀ (samples : List DelaySample) (bandwidth : DataRate) (seed : Option Instant)
    (replay : Replay) (difference : Duration), Replay.run samples bandwidth seed = .ok replay →
    (replay.queueTime - c.queueDelay.virtualQueue.baseDelay : Checked Duration) = .ok difference →
    ∃ excess, c.queueDelay.virtualQueue.excessOf replay.queueTime = .ok excess

omit [CongestionSource S] [RiseDetector D] [QueueMonitor M] in
theorem unhindered_of_isFinite (hc : ∀ t ∈ c.countedDurations, t.isFinite) : c.Unhindered := by
  simp only [countedDurations, List.forall_mem_cons] at hc
  obtain ⟨hretention, hdelivery, hqueueDelay, hbase, -⟩ := hc
  obtain ⟨millis, hmillis⟩ := Quantity.exists_millis_of_isFinite hretention
  refine ⟨fun p sendTime total hsendTime htotal ↦ ?_,
    fun period received sent fault hsent hreceived h ↦
      DeliveryWindow.overflow_of_add hdelivery hsent hreceived h,
    fun stop entries fault h ↦ QueueDelayEstimator.overflow_of_expire hqueueDelay h,
    fun samples bandwidth seed replay difference hreplay hdifference ↦
      VirtualQueue.exists_excessOf hbase (Replay.isFinite_queueTime hreplay) hdifference⟩
  have hstream := SentStream.send_eq_ok_iff.mpr
    ⟨sendTime, total, millis, hsendTime, htotal, hmillis, rfl, rfl⟩
  have hrecord := Ledger.record_eq_ok_iff.mpr ⟨_, hstream, rfl⟩
  exact ⟨_, bind_eq_ok_iff.mpr ⟨_, hrecord, rfl⟩⟩

omit [CongestionSource S] [RiseDetector D] [QueueMonitor M] in
/-- One send, one period, one entry and an empty replay find all of the durations. -/
theorem Unhindered.isFinite {source : S} {detector : D} {monitor : M}
    (hc : (create config source detector monitor).Unhindered) :
    ∀ t ∈ config.repaired.countedDurations, t.isFinite := by
  have hretention : config.repaired.retention.isFinite := by
    obtain ⟨c', h⟩ := hc.send { sendTime := ⟨0⟩ } _ 0 rfl rfl
    obtain ⟨⟨record, ledger⟩, hrecord, -⟩ := bind_eq_ok_iff.mp h
    obtain ⟨stream, hstream, -⟩ := Ledger.record_eq_ok_iff.mp hrecord
    obtain ⟨sendTime, total, millis, -, -, hmillis, -⟩ := SentStream.send_eq_ok_iff.mp hstream
    exact Quantity.isFinite_of_millis hmillis
  have hfraction : config.repaired.bandwidth.fractionWindow.isFinite := by
    by_contra hinfinite
    have hundefined := DeliveryWindow.undefined_of_expire
      (w := { window := config.repaired.bandwidth.fractionWindow }) hinfinite 0 ⟨0, 0, 0⟩ []
    cases (hc.delivery ⟨0, 0⟩ 0 0 _ ⟨0, rfl, 0, rfl⟩ ⟨0, rfl, 0, rfl⟩ hundefined).1
  have hwindow : config.repaired.queueDelay.window.isFinite := by
    by_contra hinfinite
    have hundefined := QueueDelayEstimator.undefined_of_expire hinfinite 0 ⟨0, 0⟩ []
    cases (hc.queueDelay 0 [⟨0, 0⟩] _ hundefined).1
  have hbase : config.repaired.queueDelay.baseDelay.isFinite := by
    by_contra hinfinite
    obtain ⟨difference, hdifference⟩ := Quantity.exists_zero_sub hinfinite
    obtain ⟨excess, hexcess⟩ := hc.excess [] 0 none { departure := none } _ rfl hdifference
    exact hinfinite (VirtualQueue.isFinite_of_excessOf hexcess)
  simp only [Config.countedDurations, List.forall_mem_cons]
  exact ⟨hretention, hfraction, hwindow, hbase, fun t ht ↦ by cases ht⟩

/-- A configuration is one whose durations stop nothing, in any state that a controller of it
reaches, exactly when there is an end to each duration that is counted in whole units. -/
theorem unhindered_iff {config : Config} {source : S} {detector : D} {monitor : M} :
    (∀ commands answers c,
      (create config source detector monitor).run commands = .ok (answers, c) → c.Unhindered) ↔
    ∀ t ∈ config.countedDurations, t < .infinity := by
  rw [← Config.isFinite_repaired_iff]
  constructor
  · exact fun h ↦ (h [] [] _ rfl).isFinite
  · intro h commands answers c hrun
    exact unhindered_of_isFinite (by rwa [countedDurations_of_run hrun])

/-- A repair finds nothing to do, and yet the first send of a controller is a fault. -/
theorem endless_stops_sending : Config.endless.Usable ∧
    (createStandard .endless ({} : FixedRates) ()).send
      { ssrc := 9, sendTime := ⟨0⟩, size := .exactly 1000 } = .error .undefined :=
  ⟨Config.usable_endless, rfl⟩

end Controller

end Congestion
