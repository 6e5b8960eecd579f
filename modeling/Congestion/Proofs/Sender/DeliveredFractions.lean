import Congestion.Proofs.Path.DeliveryWindows
import Congestion.Proofs.Sender.Anchors
import Congestion.Proofs.Sender.Listings
import Congestion.Proofs.Sender.Rejections
import Congestion.Proofs.Sender.Throttling

/-!
# When the delivered fraction is known

As long as no packet of negative size is sent, no period has negative bytes: `Controller.Weighs` is
what every step keeps of the ledger and of the window, with the totals of the window being the sums
over its periods. After an accepted report whose period something has been sent in, the fraction is
known exactly when the period, which the receiver chooses, is no longer than the window, or an
earlier period still starts within it (`delivered_known_iff`). A longer period is dropped as soon as
it is added, with what has been sent just now (`delivered_unknown_longPeriod`).
-/

set_option autoImplicit false
set_option relaxedAutoImplicit false

namespace Congestion

namespace Controller

variable {S D M : Type} [CongestionSource S] [RiseDetector D] [QueueMonitor M]
  {c c' : Controller S D M} {now : Instant} {r : Report} {period : Period}

/-- Neither a record nor a period has negative bytes, and the totals of the window are those of its
periods. -/
structure Weighs (c : Controller S D M) (window : Duration) : Prop where
  ledger : c.ledger.Weighs
  window : c.delivery.window = window
  totals : c.delivery.Totals c.delivery.periods
  periods : ∀ p ∈ c.delivery.periods, 0 ≤ p.sent

variable {window : Duration}

omit [CongestionSource S] [RiseDetector D] [QueueMonitor M] in
theorem weighs_create (config : Config) (source : S) (detector : D) (monitor : M) :
    (create config source detector monitor).Weighs config.repaired.bandwidth.fractionWindow where
  ledger := fun ssrc seq record h ↦ by simp [create, ofParts, Ledger.lookup] at h
  window := rfl
  totals := DeliveryWindow.totals_empty _
  periods := fun p hp ↦ by cases hp

omit [CongestionSource S] [RiseDetector D] [QueueMonitor M] in
theorem Weighs.send {p : SentPacket} (hc : c.Weighs window) (hsize : 0 ≤ p.size)
    (h : c.send p = .ok c') : c'.Weighs window := by
  obtain ⟨⟨record, ledger⟩, hrecord, h⟩ := bind_eq_ok_iff.mp h
  cases h
  exact { hc with ledger := hc.ledger.record hsize hrecord }

omit [CongestionSource S] [RiseDetector D] in
/-- Examining a report leaves the ledger as it is, but for a count. -/
theorem Weighs.examined {verdict : Except Rejection Period} (hc : c.Weighs window)
    (h : (c.received r).examine r = .ok (verdict, c')) : c'.Weighs window := by
  obtain ⟨-, -, rfl⟩ | ⟨-, -, inFlight, remains, rfl⟩ := examine_eq_ok h
  · exact { hc with }
  · exact { hc with }

omit [QueueMonitor M] in
theorem Weighs.result (hc : c.Weighs window) (a : c.Advance now r period) :
    a.result.Weighs window := by
  obtain ⟨millis, -, hwindow, hperiods, htotals⟩ := DeliveryWindow.add_eq_ok hc.totals a.delivery_eq
  refine ⟨hc.ledger, hwindow.trans hc.window, htotals, fun p hp ↦ ?_⟩
  replace hp : p ∈ a.delivery.periods := hp
  rw [hperiods] at hp
  rcases List.mem_append.mp (DeliveryWindow.mem_of_recent hp) with hp | hp
  · exact hc.periods p hp
  · rw [List.mem_singleton.mp hp]
    exact Accounting.sentInPeriod_nonneg hc.ledger a.accounting_eq

theorem Weighs.step {command : SenderCommand} {answers : List (Except Rejection ControlUpdate)}
    (hc : c.Weighs window) (hsize : ∀ p, command = .send p → 0 ≤ p.size)
    (h : c.step command = .ok (answers, c')) : c'.Weighs window := by
  cases command with
  | send p =>
    obtain ⟨sent, hsent, h⟩ := map_eq_ok_iff.mp h
    cases h
    exact hc.send (hsize p rfl) hsent
  | feedback now r =>
    obtain ⟨⟨answer, c₁⟩, hfeedback, h⟩ := map_eq_ok_iff.mp h
    cases h
    rcases onFeedback_eq_ok hfeedback with
      ⟨rejection, examined, hexamine, -, rfl⟩ | ⟨period, examined, hexamine, a, -, rfl⟩
    · exact { hc.examined hexamine with }
    · exact (hc.examined hexamine).result a
  | reset =>
    cases h
    exact ⟨hc.ledger, hc.window, DeliveryWindow.totals_empty _, fun p hp ↦ by cases hp⟩

theorem weighs_of_run {config : Config} {source : S} {detector : D} {monitor : M}
    {commands : List SenderCommand} {answers : List (Except Rejection ControlUpdate)}
    (hsizes : ∀ p, .send p ∈ commands → 0 ≤ p.size)
    (hrun : (create config source detector monitor).run commands = .ok (answers, c)) :
    c.Weighs config.repaired.bandwidth.fractionWindow := by
  have hstep : ∀ command ∈ commands, ∀ (c c' : Controller S D M) answers,
      c.Weighs config.repaired.bandwidth.fractionWindow → c.step command = .ok (answers, c') →
        c'.Weighs config.repaired.bandwidth.fractionWindow ∧ ∀ a ∈ answers, True :=
    fun command hcommand c c' answers hc h ↦
      ⟨hc.step (fun p hp ↦ hsizes p (hp ▸ hcommand)) h, fun _ _ ↦ True.intro⟩
  exact (run_keeps_of_mem hstep (weighs_create config source detector monitor) hrun).1

/-- After an accepted report whose period something has been sent in, the delivered fraction is known
exactly when the time that the report monitors is no longer than the window of the fraction, or an
earlier period that is still held starts within the window.

Assumes: no packet of negative size is sent. -/
theorem delivered_known_iff {config : Config} {source : S} {detector : D} {monitor : M}
    {commands : List SenderCommand} {answers : List (Except Rejection ControlUpdate)}
    {update : ControlUpdate} (hsizes : ∀ p, .send p ∈ commands → 0 ≤ p.size)
    (hrun : (create config source detector monitor).run commands = .ok (answers, c))
    (h : c.onFeedback now r = .ok (.ok update, c')) : ∃ period accounting millis,
      Period.ofReport r c.ledger = .ok period ∧
      Accounting.ofReport r c.ledger period = .ok accounting ∧
      config.repaired.bandwidth.fractionWindow.millis = .ok millis ∧
      (0 < accounting.bytes.sentInPeriod → (c'.stats.signals.delivered.isSome ↔
        r.monitored.toNat ≤ millis ∨ ∃ p ∈ c.delivery.periods, period.stop ≤ p.start + millis)) := by
  have hc := weighs_of_run hsizes hrun
  rcases onFeedback_eq_ok h with ⟨_, _, _, hanswer, -⟩ | ⟨period, examined, hexamine, a, -, rfl⟩
  · cases hanswer
  · obtain ⟨-, hverdict, -⟩ | ⟨-, hsettle, inFlight, remains, rfl⟩ := examine_eq_ok hexamine
    · cases hverdict
    · have hperiod : Period.ofReport r c.ledger = .ok period := settle_eq_ok_ok_iff.mp hsettle
      obtain ⟨millis, hmillis, -⟩ := DeliveryWindow.add_eq_ok hc.totals a.delivery_eq
      have hlength := Period.stop_sub_start hperiod
      have hfits : period.stop ≤ period.start + millis ↔ (r.monitored.toNat : Int) ≤ millis := by
        omega
      refine ⟨period, a.accounting, millis, hperiod, a.accounting_eq, hc.window ▸ hmillis,
        fun hsent ↦ ?_⟩
      rw [← hfits]
      exact DeliveryWindow.isSome_fraction?_of_add hc.totals hc.periods hsent hmillis a.delivery_eq

/-- What a run and a report after it are found to do when they are computed. -/
theorem exists_accepted (start : Controller S D M) (commands : List SenderCommand) (now : Instant)
    (r : Report) (test : Controller S D M → Controller S D M → Bool)
    (h : (start.run commands).toOption.any (fun x ↦ (x.2.onFeedback now r).toOption.any fun y ↦
      y.1.toOption.isSome && test x.2 y.2) = true) : ∃ answers c update c',
    start.run commands = .ok (answers, c) ∧ c.onFeedback now r = .ok (.ok update, c') ∧
      test c c' = true := by
  obtain ⟨⟨answers, c⟩, hrun, hfed⟩ := exists_ok_of_any _ h
  obtain ⟨⟨answer, c'⟩, hfeedback, htest⟩ := exists_ok_of_any _ hfed
  obtain ⟨haccepted, htest⟩ := Bool.and_eq_true_iff.mp htest
  cases answer with
  | ok update => exact ⟨answers, c, update, c', hrun, hfeedback, htest⟩
  | error => cases haccepted

/-- A report on one packet. -/
def monitoring (millis : UInt16) : Report :=
  { reportOf 200 [(1, 0)] with monitored := millis }

/-- Something has been sent in the period, which is the one the report is found to be about. -/
def sentIn (millis : UInt16) (period : Period) (ledger : Ledger) : Bool :=
  decide (Period.ofReport (monitoring millis) ledger = .ok period) &&
    (Accounting.ofReport (monitoring millis) ledger period).toOption.any
      fun (a : Accounting) ↦ decide (0 < a.bytes.sentInPeriod)

theorem exists_accounting_of_sentIn {millis : UInt16} {ledger : Ledger}
    (h : sentIn millis period ledger) : Period.ofReport (monitoring millis) ledger = .ok period ∧
      ∃ a, Accounting.ofReport (monitoring millis) ledger period = .ok a ∧
        0 < a.bytes.sentInPeriod := by
  obtain ⟨hperiod, haccounting⟩ := Bool.and_eq_true_iff.mp h
  obtain ⟨a, ha, hsent⟩ := exists_ok_of_any _ haccounting
  exact ⟨of_decide_eq_true hperiod, a, ha, of_decide_eq_true hsent⟩

/-- A period as long as the window. -/
theorem delivered_known_iff_asLongAsWindow : ∃ answers c update c' accounting,
    (createStandard {} ({} : FixedRates) ()).run [packet 1 300] = .ok (answers, c) ∧
    c.onFeedback ⟨.exactly 540000⟩ (monitoring 500) = .ok (.ok update, c') ∧
    Accounting.ofReport (monitoring 500) c.ledger ⟨0, 500⟩ = .ok accounting ∧
    0 < accounting.bytes.sentInPeriod ∧ c'.stats.signals.delivered.isSome := by
  obtain ⟨answers, c, update, c', hrun, hfeedback, htest⟩ := exists_accepted
    (createStandard {} ({} : FixedRates) ()) [packet 1 300] ⟨.exactly 540000⟩ (monitoring 500)
    (fun c _ ↦ sentIn 500 ⟨0, 500⟩ c.ledger) (by decide +kernel)
  obtain ⟨hperiod, accounting, haccounting, hsent⟩ := exists_accounting_of_sentIn htest
  have hsizes : ∀ p, .send p ∈ [packet 1 300] → 0 ≤ p.size := by
    intro p hp
    cases List.mem_singleton.mp hp
    decide
  obtain ⟨period, accounting', millis, hperiod', haccounting', hmillis, hknown⟩ :=
    delivered_known_iff hsizes hrun hfeedback
  cases hperiod.symm.trans hperiod'
  cases haccounting.symm.trans haccounting'
  have hwindow : (500 : Int) ≤ millis := (Except.ok.inj hmillis).le
  exact ⟨answers, c, update, c', accounting, hrun, hfeedback, haccounting, hsent,
    (hknown hsent).mpr (Or.inl hwindow)⟩

/-- A period longer than the window is dropped with what has been sent in it, although the packet
has been sent within the window. -/
theorem delivered_unknown_longPeriod : ∃ answers c update c' accounting,
    (createStandard {} ({} : FixedRates) ()).run [packet 1 300] = .ok (answers, c) ∧
    c.onFeedback ⟨.exactly 540000⟩ (monitoring 600) = .ok (.ok update, c') ∧
    Period.ofReport (monitoring 600) c.ledger = .ok ⟨-100, 500⟩ ∧
    Accounting.ofReport (monitoring 600) c.ledger ⟨-100, 500⟩ = .ok accounting ∧
    0 < accounting.bytes.sentInPeriod ∧ c'.stats.signals.delivered = none := by
  obtain ⟨answers, c, update, c', hrun, hfeedback, htest⟩ := exists_accepted
    (createStandard {} ({} : FixedRates) ()) [packet 1 300] ⟨.exactly 540000⟩ (monitoring 600)
    (fun c c' ↦ sentIn 600 ⟨-100, 500⟩ c.ledger && c'.stats.signals.delivered.isNone)
    (by decide +kernel)
  obtain ⟨hsentIn, hunknown⟩ := Bool.and_eq_true_iff.mp htest
  obtain ⟨hperiod, accounting, haccounting, hsent⟩ := exists_accounting_of_sentIn hsentIn
  exact ⟨answers, c, update, c', accounting, hrun, hfeedback, hperiod, haccounting, hsent,
    Option.isNone_iff_eq_none.mp hunknown⟩

end Controller

end Congestion
