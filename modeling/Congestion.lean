import Congestion.Fault
import Congestion.Units.Extended
import Congestion.Units.Quantity
import Congestion.Units.SequenceNumber
import Congestion.Feedback.ReportOrder
import Congestion.Feedback.Arrival
import Congestion.Feedback.Report
import Congestion.Rejection
import Congestion.Wire.Words
import Congestion.Wire.Header
import Congestion.Wire.ReportFormat
import Congestion.Wire.Datagram
import Congestion.Feedback.ReportText
import Congestion.Feedback.Receiver
import Congestion.Queue
import Congestion.Sender.Ledger
import Congestion.Sender.Period
import Congestion.Sender.Accounting
import Congestion.Path.DelayTrend
import Congestion.Path.DeliveryWindow
import Congestion.Path.Correlation
import Congestion.Settings
import Congestion.Mode
import Congestion.Path.VirtualQueue
import Congestion.Path.QueueDelay
import Congestion.Path.Bandwidth
import Congestion.Sender.RateControl
import Congestion.Sender.Instruments
import Congestion.Sender.Controller
import Congestion.Proofs.Checked
import Congestion.Proofs.Keys
import Congestion.Proofs.Units.Unwrapping
import Congestion.Proofs.Feedback.Placements
import Congestion.Proofs.Feedback.Newest
import Congestion.Proofs.Feedback.Coverage
import Congestion.Proofs.Feedback.Recording
import Congestion.Proofs.Feedback.Ranges
import Congestion.Proofs.Feedback.FirstArrivals
import Congestion.Proofs.Feedback.Covered
import Congestion.Proofs.Wire.Grammar
import Congestion.Proofs.Feedback.MapArrivals
import Congestion.Proofs.Feedback.Retiming
import Congestion.Proofs.Wire.Writing
import Congestion.Proofs.Wire.RoundTrip
import Congestion.Proofs.Wire.Datagrams
import Congestion.Proofs.Wire.Refusals
import Congestion.Proofs.Units.Amounts
import Congestion.Proofs.Wire.Peers
import Congestion.Proofs.Sender.LedgerRuns
import Congestion.Proofs.Sender.Accounts
import Congestion.Proofs.Sender.Listings
import Congestion.Proofs.Sender.PeerSafety
import Congestion.Proofs.Repair
import Congestion.Proofs.Path.Estimates
import Congestion.Proofs.Sender.Session
import Congestion.Proofs.Sender.Transitions
import Congestion.Proofs.Sender.OutputBounds
import Congestion.Proofs.Sender.Rejections
import Congestion.Proofs.Sender.Snapshots
import Congestion.Proofs.Sender.Modes
import Congestion.Proofs.Sender.Events
import Congestion.Proofs.Sender.HoldingTimes
import Congestion.Proofs.Sender.Throttling
import Congestion.Proofs.Sender.Reading
import Congestion.Proofs.Sender.Estimate
import Congestion.Proofs.Sender.Diagnostics
import Congestion.Proofs.Sender.Restart
import Congestion.Proofs.Sender.Durations
import Congestion.Proofs.Sender.Retention
import Congestion.Proofs.Sender.Repetitions
import Congestion.Proofs.Sender.InFlight
import Congestion.Proofs.Sender.Totals
import Congestion.Proofs.Sender.CumulativeTotals
import Congestion.Proofs.Sender.Remains
import Congestion.Proofs.Sender.SentInPeriod
import Congestion.Proofs.Sender.ReportedPeriods
import Congestion.Proofs.Feedback.Intervals
import Congestion.Proofs.Sender.UsableIntervals
import Congestion.Proofs.Sender.Clocks
import Congestion.Proofs.Path.Epochs
import Congestion.Proofs.Path.DeliveryWindows
import Congestion.Proofs.Path.Expiry
import Congestion.Proofs.Sender.DeliveredFractions
import Congestion.Proofs.Windows
import Congestion.Proofs.Path.Meters
import Congestion.Proofs.Path.BaseDelays
import Congestion.Proofs.Path.DelayWindows
import Congestion.Proofs.Path.RetainedPeriods
import Congestion.Proofs.Path.RisingDelays
import Congestion.Proofs.Path.ConstantDelays
import Congestion.Proofs.Path.Replays
import Congestion.Proofs.Path.Capacities
import Congestion.Proofs.Units.ExactArithmetic
import Congestion.Proofs.Units.Rounding
