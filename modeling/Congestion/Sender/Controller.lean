import Congestion.Feedback.ReportOrder
import Congestion.Path.Bandwidth
import Congestion.Path.DelayTrend
import Congestion.Path.DeliveryWindow
import Congestion.Sender.Instruments
import Congestion.Sender.RateControl

/-!
# The sender's controller

Every packet sent goes through `send` and every report through `onFeedback`, which answers the new
target rate or why the report is rejected. A report is rejected before any estimate has seen it:
`Controller.examine` decides and `Controller.advance` does the rest.
-/

set_option autoImplicit false
set_option relaxedAutoImplicit false

namespace Congestion

/-- What a sender learns from an accepted report. -/
structure ControlUpdate where
  time : Instant := ⟨.infinity⟩
  targetRate : DataRate := 0
  targetDelay : Duration := 0
  /-- None until the first report that tells about the capacity. -/
  estimate : Option DataRate := none
  mode : Mode := .steady
deriving DecidableEq

/-- The controller after its last report. -/
structure Stats where
  mode : Mode := .steady
  targetRate : DataRate := 0
  targetDelay : Duration := 0
  estimate : Option DataRate := none
  receivedRate : DataRate := 0
  signals : Signals := {}
  decision : Decision := {}
  queueBandwidth : DataRate := 0
  queueCorrelation : Float := 0.0
  remains : NetRemains := {}
  receivedReports : Nat := 0
  rejectedReports : Nat := 0
  lostReports : Nat := 0
  ledgerMisses : Nat := 0

/-- A controller with a source of congestion rates, a rise detector and a queue monitor. -/
structure Controller (S D M : Type) where
  config : Config
  ledger : Ledger
  reportOrder : ReportOrder
  delivery : DeliveryWindow
  bandwidth : BandwidthEstimator
  queueDelay : QueueDelayEstimator
  detector : D
  rateControl : RateControl
  source : S
  monitor : M
  stats : Stats

namespace Controller

variable {S D M : Type} [CongestionSource S] [RiseDetector D] [QueueMonitor M]

/-- The statistics of a session without reports. -/
def freshStats (c : RateControl) : Stats :=
  { mode := c.mode, targetRate := c.targetRate, targetDelay := c.targetDelay }

def ofParts (config : Config) (source : S) (detector : D) (monitor : M) : Controller S D M :=
  let rateControl :=
    RateControl.create config.rate config.minBitrate config.maxBitrate config.startBitrate
  { config
    ledger := { retention := config.retention }
    reportOrder := {}
    delivery := { window := config.bandwidth.fractionWindow }
    bandwidth := .create config.bandwidth config.minBitrate config.maxBitrate
    queueDelay := .create config.queueDelay config.bandwidth.headroom
    detector
    rateControl
    source
    monitor
    stats := freshStats rateControl }

def standardDetector (config : Config) : DelayTrend :=
  { minCount := config.queueDelay.riseCount, minDuration := config.queueDelay.riseDuration }

/-- A controller of any configuration, which is repaired first. -/
def create (config : Config) (source : S) (detector : D) (monitor : M) : Controller S D M :=
  ofParts config.repaired source detector monitor

/-- The controller with the detector that its configuration describes. -/
def createStandard (config : Config) (source : S) (monitor : M) : Controller S DelayTrend M :=
  create config source (standardDetector config.repaired) monitor

def send (c : Controller S D M) (p : SentPacket) : Checked (Controller S D M) := do
  let (_, ledger) ← c.ledger.record p
  return { c with ledger }

/-! ### Reports -/

/-- Settles the report with the ledger and shows it to the monitor. -/
def settle (c : Controller S D M) (r : Report) : Checked (Controller S D M) := do
  let (remains, ledger) ← c.ledger.settle r
  return { c with ledger, monitor := QueueMonitor.look c.monitor r, stats := { c.stats with remains } }

/-- The period a report is about, with the controller as far as an unusable report changes it. -/
def examine (c : Controller S D M) (r : Report) :
    Checked (Except Rejection Period × Controller S D M) :=
  if r.toList.isEmpty then .ok (.error .emptyFeedback, c)
  else do
    let c ← c.settle r
    if (← r.totalCount) = 0 then return (.error .emptyFeedback, c)
    else
      let c := { c with stats := { c.stats with receivedReports := c.stats.receivedReports + 1 } }
      return (← (Period.ofReport r c.ledger).settle, c)

/-- Growth of the estimate while competing against a full queue is undone. -/
def rollBack (c : Controller S D M) (delayFraction : Float) (growth : DataRate) :
    Checked BandwidthEstimator :=
  if c.rateControl.mode = .competing &&
      delayFraction ≥ c.config.rate.compete.rollbackDelayFraction && 0 < growth then
    c.bandwidth.rollBack growth
  else .ok c.bandwidth

/-- Takes an accepted report through all estimators and the rate control. -/
def advance (c : Controller S D M) (now : Instant) (r : Report) (period : Period) :
    Checked (Controller S D M) := do
  let accounting ← Accounting.ofReport r c.ledger period
  let delivery ← c.delivery.add period accounting.bytes.received accounting.bytes.sentInPeriod
  let source := CongestionSource.observe c.source r
  let lossRate := CongestionSource.lossRate source
  let ecnRate := CongestionSource.ecnRate source
  let (growth, bandwidth) ← c.bandwidth.update accounting.bytes (← period.duration)
    c.rateControl.mode c.rateControl.targetRate lossRate
  let (delay, queueDelay) ← c.queueDelay.update period accounting.samples bandwidth.estimate
  let (rising, detector) ← RiseDetector.update c.detector delay.latest period.stop
  let signals : Signals :=
    { queueDelay := delay, rising, delivered := delivery.fraction?, lossRate, ecnRate }
  let decision ← c.rateControl.classify now c.ledger.sessionStart bandwidth.estimate signals
  let bandwidth ← rollBack { c with bandwidth } decision.delayFraction growth
  let rateControl ← c.rateControl.apply now decision bandwidth.estimate
  return { c with
    delivery, source, bandwidth, queueDelay, detector, rateControl
    stats := { c.stats with
      mode := rateControl.mode
      targetRate := rateControl.targetRate
      targetDelay := rateControl.targetDelay
      estimate := bandwidth.estimate
      receivedRate := bandwidth.receivedRate
      signals
      decision
      queueBandwidth := queueDelay.virtualQueue.bandwidth
      queueCorrelation := queueDelay.virtualQueue.correlation
      lostReports := c.reportOrder.lost
      ledgerMisses := c.stats.ledgerMisses + accounting.misses } }

def updateAt (c : Controller S D M) (now : Instant) : ControlUpdate :=
  { time := now, targetRate := c.stats.targetRate, targetDelay := c.stats.targetDelay,
    estimate := c.stats.estimate, mode := c.stats.mode }

def reject (c : Controller S D M) : Controller S D M :=
  { c with stats := { c.stats with rejectedReports := c.stats.rejectedReports + 1 } }

def onFeedback (c : Controller S D M) (now : Instant) (r : Report) :
    Checked (Except Rejection ControlUpdate × Controller S D M) := do
  let c := { c with reportOrder := (c.reportOrder.push r.number).2 }
  match ← c.examine r with
  | (.error rejection, c) => return (.error rejection, c.reject)
  | (.ok period, c) =>
    let c ← c.advance now r period
    return (.ok (c.updateAt now), c)

/-- Starts a new session: the records of the packets sent are all that is kept. -/
def reset (c : Controller S D M) : Controller S D M :=
  { c with
    ledger := c.ledger.restart
    reportOrder := {}
    delivery := c.delivery.reset
    bandwidth := c.bandwidth.reset
    queueDelay := c.queueDelay.reset
    detector := RiseDetector.reset c.detector
    rateControl := c.rateControl.reset
    stats := freshStats c.rateControl.reset }

end Controller

end Congestion
