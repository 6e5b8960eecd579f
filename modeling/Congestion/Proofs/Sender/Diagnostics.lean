import Congestion.Proofs.Sender.Reading
import Congestion.Proofs.Sender.Rejections
import Congestion.Proofs.Sender.Throttling

/-!
# Diagnostics

The order of the reports, the monitor and the statistics are there to be looked at. `Controller.core`
is a controller without them, and a controller answers as its core does: controllers of one core are
seen alike at every command of a session, faults included (`observations_congr`). Where no report
changes the congestion rates, nothing reads the marks of the packets either, and then neither the
monitor nor the marks, senders and numbers of the reports have a part in the control
(`observations_eq_of_sameTimes`).
-/

set_option autoImplicit false
set_option relaxedAutoImplicit false

namespace Congestion

/-- The same command, up to reports that are alike. -/
inductive SenderCommand.Alike (alike : Report → Report → Prop) :
    SenderCommand → SenderCommand → Prop
  | send (p : SentPacket) : Alike alike (.send p) (.send p)
  | feedback (now : Instant) {r s : Report} (h : alike r s) :
    Alike alike (.feedback now r) (.feedback now s)
  | reset : Alike alike .reset .reset

/-- What can be seen of a controller at one command: the answer where the command is a report, and
the rate, the mode and the estimate after it. -/
structure Observation where
  answers : List (Except Rejection ControlUpdate)
  targetRate : DataRate
  mode : Mode
  estimate : Option DataRate

namespace Controller

variable {S D M N : Type}

/-! ### The core of a controller -/

/-- The controller without a monitor, and with nothing in its order of reports and its
statistics. -/
def core (c : Controller S D M) : Controller S D Unit :=
  { c with reportOrder := {}, monitor := (), stats := {} }

/-- An answer, with the core of the controller that gives it. -/
def withCore {α : Type} (x : α × Controller S D M) : α × Controller S D Unit := (x.1, x.2.core)

variable {c : Controller S D M} {r : Report}

theorem core_send (p : SentPacket) : core <$> c.send p = core <$> c.core.send p := by
  unfold send
  simp only [map_bind]
  rfl

section Examination

variable [QueueMonitor M]

theorem core_settle : core <$> c.settle r = core <$> c.core.settle r := by
  unfold settle
  simp only [map_bind]
  rfl

theorem core_examine : withCore <$> c.examine r = withCore <$> c.core.examine r := by
  unfold examine
  split
  · rfl
  · simp only [map_bind]
    refine bind_congr_of_map core_settle fun c₁ c₂ hcore ↦ bind_congr fun total ↦ ?_
    have hperiod : Period.ofReport r c₁.ledger = Period.ofReport r c₂.ledger :=
      congrArg (fun c ↦ Period.ofReport r c.ledger) hcore
    by_cases htotal : total = 0
    · simp only [if_pos htotal, map_pure, withCore, hcore]
    · simp only [if_neg htotal, map_bind, hperiod]
      exact bind_congr fun verdict ↦ congrArg (fun core ↦ Except.ok (verdict, core)) hcore

theorem examine_unmarked : c.examine r.unmarked = c.examine r := by
  simp only [examine, settle, Report.isEmpty_toList_unmarked, Ledger.settle_unmarked,
    QueueMonitor.look_unmarked, Report.totalCount_unmarked, Period.ofReport_unmarked]

end Examination

variable [RiseDetector D] {now : Instant} {period : Period}

/-- Fixed rates are the same after every report. -/
theorem advance_unmarked {c : Controller FixedRates D M} :
    c.advance now r.unmarked period = c.advance now r period := by
  unfold advance
  rw [Accounting.ofReport_unmarked]
  rfl

variable [CongestionSource S]

theorem core_advance : (fun c ↦ (c.updateAt now, c.core)) <$> c.advance now r period =
    (fun c ↦ (c.updateAt now, c.core)) <$> c.core.advance now r period := by
  unfold advance
  simp only [map_bind]
  rfl

/-! ### Two sessions -/

variable [QueueMonitor M] [QueueMonitor N]

/-- A controller without diagnostics makes the same of two reports. -/
def ReadsAlike (S D : Type) [CongestionSource S] [RiseDetector D] (r s : Report) : Prop :=
  ∀ c : Controller S D Unit, c.examine r = c.examine s ∧
    ∀ now period, c.advance now r period = c.advance now s period

variable {c₁ : Controller S D M} {c₂ : Controller S D N} {r₁ r₂ : Report}

theorem core_onFeedback_congr (hcore : c₁.core = c₂.core) (hreads : ReadsAlike S D r₁ r₂) :
    withCore <$> c₁.onFeedback now r₁ = withCore <$> c₂.onFeedback now r₂ := by
  have hexamine : withCore <$> (c₁.received r₁).examine r₁ =
      withCore <$> (c₂.received r₂).examine r₂ := by
    have hreceived : (c₁.received r₁).core = (c₂.received r₂).core := hcore
    rw [core_examine, hreceived, (hreads _).1, ← core_examine]
  unfold onFeedback
  simp only [map_bind]
  refine bind_congr_of_map hexamine ?_
  rintro ⟨verdict, e₁⟩ ⟨verdict', e₂⟩ hexamined
  obtain ⟨hverdict, hcore⟩ := Prod.mk.inj hexamined
  obtain rfl : verdict = verdict' := hverdict
  cases verdict with
  | error rejection =>
    exact congrArg (fun core ↦ Except.ok (Except.error rejection, core)) hcore
  | ok period =>
    have hadvance : (fun c ↦ (c.updateAt now, c.core)) <$> e₁.advance now r₁ period =
        (fun c ↦ (c.updateAt now, c.core)) <$> e₂.advance now r₂ period := by
      have hcore : e₁.core = e₂.core := hcore
      rw [core_advance, hcore, (hreads _).2, ← core_advance]
    show withCore <$> (e₁.advance now r₁ period >>= fun c ↦ pure (Except.ok (c.updateAt now), c)) =
      withCore <$> (e₂.advance now r₂ period >>= fun c ↦ pure (Except.ok (c.updateAt now), c))
    rw [map_bind, map_bind]
    refine bind_congr_of_map hadvance fun a b hab ↦ ?_
    obtain ⟨hupdate, hcore⟩ := Prod.mk.inj hab
    simp only [map_pure, withCore, hupdate, hcore]

theorem core_step_congr {alike : Report → Report → Prop}
    (halike : ∀ r s, alike r s → ReadsAlike S D r s) (hcore : c₁.core = c₂.core)
    {command₁ command₂ : SenderCommand} (hcommand : SenderCommand.Alike alike command₁ command₂) :
    withCore <$> c₁.step command₁ = withCore <$> c₂.step command₂ := by
  cases hcommand with
  | send p =>
    have hsend : core <$> c₁.send p = core <$> c₂.send p := by
      rw [core_send, hcore, ← core_send]
    simp only [step, map_eq_pure_bind, bind_assoc, pure_bind]
    refine bind_congr_of_map hsend fun a b hab ↦ ?_
    simp only [withCore, hab]
  | feedback now h =>
    have hfeedback : withCore <$> c₁.onFeedback now _ = withCore <$> c₂.onFeedback now _ :=
      core_onFeedback_congr hcore (halike _ _ h)
    simp only [step, map_eq_pure_bind, bind_assoc, pure_bind]
    refine bind_congr_of_map hfeedback fun a b hab ↦ ?_
    obtain ⟨hanswer, hcore⟩ := Prod.mk.inj hab
    simp only [withCore, hanswer, hcore]
  | reset =>
    have hreset : c₁.reset.core = c₂.reset.core := congrArg (fun c ↦ c.reset.core) hcore
    exact congrArg (fun core ↦ Except.ok ([], core)) hreset

/-- What can be seen at each command, up to the first fault. -/
def observations (c : Controller S D M) : List SenderCommand → List (Checked Observation)
  | [] => []
  | command :: rest =>
    match c.step command with
    | .ok (answers, c) =>
      .ok { answers, targetRate := c.rateControl.targetRate, mode := c.rateControl.mode,
            estimate := c.bandwidth.estimate } :: c.observations rest
    | .error fault => [.error fault]

/-- Controllers of one core are seen alike in sessions of commands that are alike. -/
theorem observations_congr {alike : Report → Report → Prop}
    (halike : ∀ r s, alike r s → ReadsAlike S D r s) {commands₁ commands₂ : List SenderCommand}
    (hcommands : List.Forall₂ (SenderCommand.Alike alike) commands₁ commands₂)
    (hcore : c₁.core = c₂.core) : c₁.observations commands₁ = c₂.observations commands₂ := by
  induction hcommands generalizing c₁ c₂ with
  | nil => rfl
  | @cons command₁ command₂ rest₁ rest₂ hcommand _ ih =>
    have hstep := core_step_congr halike hcore hcommand
    unfold observations
    cases h₁ : c₁.step command₁ with
    | error fault =>
      cases h₂ : c₂.step command₂ with
      | error fault' =>
        rw [h₁, h₂] at hstep
        cases hstep
        rfl
      | ok x => rw [h₁, h₂] at hstep; cases hstep
    | ok x =>
      cases h₂ : c₂.step command₂ with
      | error fault' => rw [h₁, h₂] at hstep; cases hstep
      | ok y =>
        rw [h₁, h₂] at hstep
        obtain ⟨hanswers, hcore⟩ := Prod.mk.inj (Except.ok.inj hstep)
        have hrate : x.2.rateControl = y.2.rateControl := congrArg Controller.rateControl hcore
        have hbandwidth : x.2.bandwidth = y.2.bandwidth := congrArg Controller.bandwidth hcore
        simp only [hanswers, hrate, hbandwidth, ih hcore]

theorem observations_eq_of_core (hcore : c₁.core = c₂.core) (commands : List SenderCommand) :
    c₁.observations commands = c₂.observations commands := by
  have hreads : ∀ r s : Report, r = s → ReadsAlike S D r s := fun r s hrs c ↦
    ⟨by rw [hrs], fun now period ↦ by rw [hrs]⟩
  refine observations_congr hreads (List.forall₂_same.mpr fun command _ ↦ ?_) hcore
  cases command with
  | send p => exact .send p
  | feedback now r => exact .feedback now rfl
  | reset => exact .reset

theorem readsAlike_of_sameTimes {r s : Report} (h : r.SameTimes s) :
    ReadsAlike FixedRates D r s := fun c ↦
  ⟨by rw [← examine_unmarked, h.unmarked_eq, examine_unmarked],
    fun now period ↦ by rw [← advance_unmarked, h.unmarked_eq, advance_unmarked]⟩

/-- Controllers of one configuration with the same fixed rates are seen alike at every command,
whatever their monitors, as long as their reports tell the same times: the marks, the numbers and
the senders of the reports have no part in the control. -/
theorem observations_eq_of_sameTimes (config : Config) (rates : FixedRates) (detector : D)
    (monitor₁ : M) (monitor₂ : N) {commands₁ commands₂ : List SenderCommand}
    (hcommands : List.Forall₂ (SenderCommand.Alike Report.SameTimes) commands₁ commands₂) :
    (create config rates detector monitor₁).observations commands₁ =
      (create config rates detector monitor₂).observations commands₂ :=
  observations_congr (fun _ _ ↦ readsAlike_of_sameTimes) hcommands rfl

end Controller

/-- Another sender's report of the same arrivals, with all packets marked by a congested path. -/
def Report.congested (r : Report) : Report :=
  { r.mapArrivals ({ · with mark := .ce }) with sender := 5, number := 65535 - r.number }

theorem Report.sameTimes_congested (r : Report) : r.SameTimes r.congested := by
  refine ⟨rfl, rfl, fun ssrc seq ↦ ?_⟩
  have harrivals : r.congested.arrivals? ssrc seq =
      (r.arrivals? ssrc seq).map ({ · with mark := .ce }) := r.arrivals?_mapArrivals _ ssrc seq
  rw [harrivals, Option.map_map]
  rfl

def SenderCommand.congested : SenderCommand → SenderCommand
  | .send p => .send p
  | .feedback now r => .feedback now r.congested
  | .reset => .reset

theorem SenderCommand.alike_congested (command : SenderCommand) :
    Alike Report.SameTimes command command.congested := by
  cases command with
  | send p => exact .send p
  | feedback now r => exact .feedback now r.sameTimes_congested
  | reset => exact .reset

namespace Controller

/-- The sender backs off with a monitor and marked packets as it does without. -/
theorem observations_eq_of_sameTimes_congested :
    (createStandard quickRise ({} : FixedRates) ()).observations fallingBehind =
      (createStandard quickRise ({} : FixedRates) monitored.monitor).observations
        (fallingBehind.map SenderCommand.congested) ∧
    ((createStandard quickRise ({} : FixedRates) ()).observations fallingBehind).getLast?.any
      fun last ↦ last.toOption.any (·.mode = .throttled) :=
  ⟨observations_eq_of_sameTimes _ _ _ _ _
      (List.forall₂_map_right_iff.mpr (List.forall₂_same.mpr fun command _ ↦
        command.alike_congested)),
    by decide +kernel⟩

end Controller

end Congestion
