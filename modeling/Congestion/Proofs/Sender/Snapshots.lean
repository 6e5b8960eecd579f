import Congestion.Proofs.Feedback.Placements
import Congestion.Proofs.Sender.Rejections

/-!
# What the statistics tell

The statistics of a controller are made anew with each accepted report and each reset. A rejected
report leaves the rate control and the bandwidth estimator alone, so what is told of these two is
what they hold in every state that a controller reaches (`Controller.Current`).

The order of the reports is another matter. Each report is taken into it before it is examined, and
the losses are told again only once a report is accepted. So the losses told are those before the
reports that have been rejected since (`Controller.rejectedSince`), and what they lack is what has
turned out missing at these (`stats_tell_of_run`, `rejected_report_hides_losses`).
-/

set_option autoImplicit false
set_option relaxedAutoImplicit false

namespace Congestion.Controller

variable {S D M : Type} [CongestionSource S] [RiseDetector D] [QueueMonitor M]
  {c c' : Controller S D M} {now : Instant} {r : Report} {period : Period} {numbers : List UInt16}

/-- The statistics tell what the rate control and the bandwidth estimator hold. -/
structure Current (c : Controller S D M) : Prop where
  mode : c.stats.mode = c.rateControl.mode
  targetRate : c.stats.targetRate = c.rateControl.targetRate
  targetDelay : c.stats.targetDelay = c.rateControl.targetDelay
  estimate : c.stats.estimate = c.bandwidth.estimate
  receivedRate : c.stats.receivedRate = c.bandwidth.receivedRate

/-- The statistics are current but for the losses, which are told as they were before reports of
these numbers came. -/
structure TellsBefore (c : Controller S D M) (numbers : List UInt16) : Prop where
  current : c.Current
  losses : ∃ order : ReportOrder,
    c.stats.lostReports = order.lost ∧ c.reportOrder = (order.follow numbers).2

/-- The numbers of the reports that have been rejected since one was accepted or a session begun,
after those given. -/
def rejectedSince (numbers : List UInt16) :
    List SenderCommand → List (Except Rejection ControlUpdate) → List UInt16
  | .send _ :: commands, answers => rejectedSince numbers commands answers
  | .reset :: commands, answers => rejectedSince [] commands answers
  | .feedback _ r :: commands, .error _ :: answers =>
    rejectedSince (numbers ++ [r.number]) commands answers
  | .feedback _ _ :: commands, .ok _ :: answers => rejectedSince [] commands answers
  | _, _ => numbers

/-! ### One command -/

omit [CongestionSource S] [RiseDetector D] [QueueMonitor M] in
theorem tellsBefore_create (config : Config) (source : S) (detector : D) (monitor : M) :
    (create config source detector monitor).TellsBefore [] :=
  ⟨⟨rfl, rfl, rfl, rfl, rfl⟩, {}, rfl, rfl⟩

omit [CongestionSource S] [QueueMonitor M] in
theorem tellsBefore_reset (c : Controller S D M) : c.reset.TellsBefore [] :=
  ⟨⟨rfl, rfl, rfl, rfl, rfl⟩, {}, rfl, rfl⟩

omit [QueueMonitor M] in
theorem tellsBefore_result (a : c.Advance now r period) : a.result.TellsBefore [] :=
  ⟨⟨rfl, rfl, rfl, rfl, rfl⟩, c.reportOrder, rfl, rfl⟩

omit [CongestionSource S] [RiseDetector D] [QueueMonitor M] in
theorem TellsBefore.send (hc : c.TellsBefore numbers) {p : SentPacket} (h : c.send p = .ok c') :
    c'.TellsBefore numbers := by
  obtain ⟨⟨record, ledger⟩, -, h⟩ := bind_eq_ok_iff.mp h
  cases h
  obtain ⟨⟨mode, targetRate, targetDelay, estimate, receivedRate⟩, losses⟩ := hc
  exact ⟨⟨mode, targetRate, targetDelay, estimate, receivedRate⟩, losses⟩

omit [CongestionSource S] [RiseDetector D] in
theorem TellsBefore.reject (hc : c.TellsBefore numbers) {rejection : Rejection}
    {examined : Controller S D M}
    (h : (c.received r).examine r = .ok (.error rejection, examined)) :
    examined.reject.TellsBefore (numbers ++ [r.number]) := by
  have horder := (examine_sameEstimates h).reportOrder
  obtain ⟨reportOrder, inFlight, remains, receivedReports, rejectedReports, rfl⟩ :=
    examine_recounted h
  obtain ⟨⟨mode, targetRate, targetDelay, estimate, receivedRate⟩, order, hlost, hfollow⟩ := hc
  refine ⟨⟨mode, targetRate, targetDelay, estimate, receivedRate⟩, order, hlost, ?_⟩
  calc reportOrder = (c.reportOrder.push r.number).2 := horder
    _ = ((order.follow numbers).2.push r.number).2 := by rw [hfollow]
    _ = (order.follow (numbers ++ [r.number])).2 := by rw [ReportOrder.follow_append]; rfl

/-! ### Runs -/

theorem TellsBefore.run (hc : c.TellsBefore numbers) {commands : List SenderCommand}
    {answers : List (Except Rejection ControlUpdate)} (h : c.run commands = .ok (answers, c')) :
    c'.TellsBefore (rejectedSince numbers commands answers) := by
  induction commands generalizing c numbers answers with
  | nil =>
    cases h
    exact hc
  | cons command rest ih =>
    obtain ⟨⟨first, c₁⟩, hfirst, h⟩ := bind_eq_ok_iff.mp h
    obtain ⟨⟨later, c₂⟩, hlater, h⟩ := bind_eq_ok_iff.mp h
    cases h
    cases command with
    | send p =>
      obtain ⟨sent, hsent, hfirst⟩ := map_eq_ok_iff.mp hfirst
      cases hfirst
      exact ih (hc.send hsent) hlater
    | feedback now r =>
      obtain ⟨⟨answer, c₃⟩, hfeedback, hfirst⟩ := map_eq_ok_iff.mp hfirst
      cases hfirst
      rcases onFeedback_eq_ok hfeedback with
        ⟨rejection, examined, hexamine, rfl, rfl⟩ | ⟨period, examined, hexamine, a, rfl, rfl⟩
      · exact ih (hc.reject hexamine) hlater
      · exact ih (tellsBefore_result a) hlater
    | reset =>
      cases hfirst
      exact ih (tellsBefore_reset c) hlater

/-- In every state that a controller reaches, the statistics tell the mode, the targets, the estimate
and the received rate as they are. The losses they tell are those before the reports that have been
rejected since one was accepted or the session begun, and all of them where there is no such report:
they lack what has turned out missing at these. -/
theorem stats_tell_of_run {config : Config} {source : S} {detector : D} {monitor : M}
    {commands : List SenderCommand} {answers : List (Except Rejection ControlUpdate)}
    (hrun : (create config source detector monitor).run commands = .ok (answers, c)) :
    c.Current ∧ (rejectedSince [] commands answers = [] → c.stats.lostReports = c.reportOrder.lost) ∧
    ∃ order : ReportOrder, c.stats.lostReports = order.lost ∧
      c.reportOrder = (order.follow (rejectedSince [] commands answers)).2 ∧
      c.reportOrder.lost = c.stats.lostReports +
        ((order.follow (rejectedSince [] commands answers)).1.map Placement.missing).sum := by
  obtain ⟨hcurrent, order, hlost, hfollow⟩ :=
    (tellsBefore_create config source detector monitor).run hrun
  refine ⟨hcurrent, fun hnone ↦ ?_, order, hlost, hfollow, ?_⟩
  · rw [hfollow, hnone, hlost]
    rfl
  · rw [hfollow, hlost, ReportOrder.lost_follow]

/-- A report is accepted, two get lost, and the next one tells of no packet. -/
def silence : List SenderCommand :=
  [.send { ssrc := 9, seq := 0, sendTime := ⟨0⟩, size := .exactly 1000 },
   .feedback ⟨.exactly 120000⟩
     (({ sender := 1, number := 1, time := 80, monitored := 100 } : Report).record 9 0 0 0).2,
   .feedback ⟨.exactly 420000⟩ { sender := 1, number := 4, time := 380, monitored := 100 }]

theorem stats_tell_of_run_silence : ∃ answers c,
    (createStandard {} ({} : FixedRates) ()).run silence = .ok (answers, c) ∧
    rejectedSince [] silence answers = [4] ∧ c.Current ∧
    ∃ order : ReportOrder, c.stats.lostReports = order.lost ∧
      c.reportOrder.lost = order.lost + ((order.follow [4]).1.map Placement.missing).sum := by
  obtain ⟨⟨answers, c⟩, hrun, hrejected⟩ := exists_ok_of_any
    (x := (createStandard {} ({} : FixedRates) ()).run silence)
    (fun (answers, _) ↦ rejectedSince [] silence answers = [4]) (by decide +kernel)
  have hrejected := of_decide_eq_true hrejected
  obtain ⟨hcurrent, -, order, hlost, -, hmissing⟩ := stats_tell_of_run hrun
  rw [hrejected, hlost] at hmissing
  exact ⟨answers, c, hrun, hrejected, hcurrent, order, hlost, hmissing⟩

/-- The two reports that got lost are known to be lost, and none is told. -/
theorem rejected_report_hides_losses : ∃ answers c,
    (createStandard {} ({} : FixedRates) ()).run silence = .ok (answers, c) ∧
    c.reportOrder.lost = 2 ∧ c.stats.lostReports = 0 := by
  obtain ⟨⟨answers, c⟩, hrun, hlost⟩ := exists_ok_of_any
    (x := (createStandard {} ({} : FixedRates) ()).run silence)
    (fun (_, c) ↦ c.reportOrder.lost = 2 ∧ c.stats.lostReports = 0) (by decide +kernel)
  exact ⟨answers, c, hrun, of_decide_eq_true hlost⟩

end Congestion.Controller
