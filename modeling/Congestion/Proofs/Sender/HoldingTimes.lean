import Congestion.Proofs.Sender.Events
import Congestion.Proofs.Sender.Transitions
import Congestion.Proofs.Units.Infinities

/-!
# How long a mode is held

A rate control goes through a list of moments: at each it comes to a decision and carries it out.
`RateControl.passages` is the record of such a run. In it competing mode is left only once it has
been maintained since the last start of competition, no moment in probing mode is past the timeout,
and probing begins only from steady mode, late enough in the session and with an estimate
(`Passage.Timely`, `timely_of_passages`). Moments can be in any order of time.

The induction runs along the record: `Remembers` ties what the rate control holds, the time of the
last competition and the start of the probing, to the passages so far.
-/

set_option autoImplicit false
set_option relaxedAutoImplicit false

namespace Congestion

/-- What a rate control is given at one time. An event need not be carried out with the estimate
that it has been told from. -/
structure Moment where
  now : Instant
  sessionStart : Option Instant := none
  signals : Signals := {}
  estimate : Option DataRate := none
  applied : Option DataRate := estimate

/-- One moment of a run, with the rate control before and after it. -/
structure Passage where
  moment : Moment
  before : RateControl
  event : Event
  after : RateControl

namespace RateControl

def pass (c : RateControl) (m : Moment) : Checked Passage := do
  let decision ← c.classify m.now m.sessionStart m.estimate m.signals
  let after ← c.apply m.now decision m.applied
  return { moment := m, before := c, event := decision.event, after }

/-- The record of a run, the first moment first. -/
def passages (c : RateControl) : List Moment → Checked (List Passage)
  | [] => .ok []
  | m :: rest => do
    let p ← c.pass m
    return p :: (← p.after.passages rest)

variable {c : RateControl} {m : Moment} {p : Passage}

theorem pass_eq_ok (h : c.pass m = .ok p) : ∃ event after delayFraction,
    p = { moment := m, before := c, event, after } ∧
    c.Warrants m.now m.sessionStart m.signals delayFraction event ∧
    (event ≠ .nothing → ∃ e, m.estimate = some e ∧ 0 < e) ∧
    Transition m.now event (m.applied.getD 0) c after := by
  obtain ⟨decision, hdecision, h⟩ := bind_eq_ok_iff.mp h
  obtain ⟨after, hafter, h⟩ := bind_eq_ok_iff.mp h
  obtain ⟨hwarrants, hestimate⟩ := classify_eq_ok hdecision
  cases h
  exact ⟨decision.event, after, decision.delayFraction, rfl, hwarrants, hestimate,
    apply_transition hafter⟩

end RateControl

namespace Passage

def startsCompeting (p : Passage) : Bool := p.event = .startCompete

def entersProbing (p : Passage) : Bool := p.before.mode ≠ .probing && p.after.mode = .probing

/-- The last passage of a record that passes a test. -/
def last? (test : Passage → Bool) (history : List Passage) : Option Passage :=
  (history.filter test).getLast?

variable {test : Passage → Bool} {p : Passage}

theorem last?_concat_of_pos (history : List Passage) (h : test p = true) :
    last? test (history ++ [p]) = some p := by
  simp [last?, List.filter_append, h]

theorem last?_concat_of_neg (history : List Passage) (h : test p = false) :
    last? test (history ++ [p]) = last? test history := by
  simp [last?, List.filter_append, h]

/-- A passage keeps to the times that the settings give, after the passages of a history. -/
structure Timely (p : Passage) (history : List Passage) (settings : RateSettings) : Prop where
  leavesCompeting : p.before.mode = .competing → p.after.mode ≠ .competing →
    p.after.mode = .steady ∧ ∃ start, last? startsCompeting history = some start ∧
      p.moment.now.LaterBy start.moment.now settings.compete.maintainTime
  probing : p.after.mode = .probing → ∃ entry, last? entersProbing (history ++ [p]) = some entry ∧
    p.moment.now.value ≤ entry.moment.now.value + settings.probe.timeout.value
  entersProbing : p.before.mode ≠ .probing → p.after.mode = .probing → p.before.mode = .steady ∧
    (∃ start, p.moment.sessionStart = some start ∧
      p.moment.now.LaterBy start settings.probe.initialWait) ∧
    ∃ e, p.moment.estimate = some e ∧ 0 < e

end Passage

namespace RateControl

open Passage (last? startsCompeting entersProbing)

/-- What the rate control holds of the passages that have led to it. -/
structure Remembers (c : RateControl) (history : List Passage) (settings : RateSettings) :
    Prop where
  settings_eq : c.settings = settings
  competing : c.mode = .competing → ∃ start, last? startsCompeting history = some start ∧
    c.lastCompete = some start.moment.now
  probing : c.mode = .probing → ∃ entry, last? entersProbing history = some entry ∧
    c.probingStart = some entry.moment.now

variable {c : RateControl} {m : Moment} {p : Passage} {history : List Passage}
  {settings : RateSettings}

theorem remembers_create (settings : RateSettings) (minBitrate maxBitrate startBitrate : DataRate) :
    (create settings minBitrate maxBitrate startBitrate).Remembers [] settings :=
  ⟨rfl, (nomatch ·), (nomatch ·)⟩

theorem Remembers.pass (hc : c.Remembers history settings) (h : c.pass m = .ok p) :
    p.after.Remembers (history ++ [p]) settings := by
  obtain ⟨event, after, delayFraction, rfl, -, -, htransition⟩ := pass_eq_ok h
  refine ⟨htransition.settings_eq.trans hc.settings_eq, fun hmode ↦ ?_, fun hmode ↦ ?_⟩
  · rcases htransition.competing hmode with ⟨rfl, hlast⟩ | ⟨hevent, hbefore, hlast⟩
    · exact ⟨_, Passage.last?_concat_of_pos history rfl, hlast⟩
    · obtain ⟨start, hstart, hcompete⟩ := hc.competing hbefore
      refine ⟨start, ?_, hlast.trans hcompete⟩
      rw [Passage.last?_concat_of_neg history (by simpa [startsCompeting] using hevent)]
      exact hstart
  · rcases htransition.probing hmode with ⟨hbefore, -, hstart⟩ | ⟨hbefore, -, -, rfl⟩
    · have henters : entersProbing ⟨m, c, event, after⟩ = true := by
        simpa [entersProbing, hbefore] using hmode
      exact ⟨_, Passage.last?_concat_of_pos history henters, hstart⟩
    · obtain ⟨entry, hentry, hstart⟩ := hc.probing hbefore
      refine ⟨entry, ?_, hstart⟩
      rw [Passage.last?_concat_of_neg history (by simp [entersProbing, hbefore])]
      exact hentry

/-- In probing mode, all that is told without effect is nothing. -/
theorem eq_nothing_of_unanswered {event : Event} {delayFraction : Float}
    (hmode : c.mode = .probing)
    (hwarrants : c.Warrants m.now m.sessionStart m.signals delayFraction event)
    (hunanswered : ¬ c.mode.Answers event) : event = .nothing := by
  rw [hmode] at hunanswered
  cases event with
  | nothing => rfl
  | resolveThrottle =>
    have hboth := hwarrants.1.symm.trans hmode
    cases hboth
  | stopCompete =>
    have hboth := (competitionIsOver_eq_ok_true hwarrants).1.symm.trans hmode
    cases hboth
  | startProbing => exact absurd hmode (mayProbe_eq_ok_true hwarrants).1
  | startCompete => exact absurd (Or.inl rfl) hunanswered
  | stopProbing => exact absurd (Or.inr (Or.inl rfl)) hunanswered
  | detectThrottle => exact absurd (Or.inr (Or.inr rfl)) hunanswered

theorem Remembers.timely (hc : c.Remembers history settings) (h : c.pass m = .ok p)
    (htimeout : 0 ≤ settings.probe.timeout) : p.Timely history settings := by
  obtain ⟨event, after, delayFraction, rfl, hwarrants, hestimate, htransition⟩ := pass_eq_ok h
  refine ⟨fun hmode hleaves ↦ ?_, fun hmode ↦ ?_, fun hbefore hmode ↦ ?_⟩
  · obtain ⟨rfl, hsteady⟩ := htransition.leaves_competing hmode hleaves
    obtain ⟨start, hstart, hlast⟩ := hc.competing hmode
    have hlater := (competitionIsOver_eq_ok_true hwarrants).2 _ hlast
    rw [hc.settings_eq] at hlater
    exact ⟨hsteady, start, hstart, hlater⟩
  · rcases htransition.probing hmode with
      ⟨hbefore, -, -⟩ | ⟨hprobing, hunanswered, hstill, rfl⟩
    · have henters : entersProbing ⟨m, c, event, after⟩ = true := by
        simpa [entersProbing, hbefore] using hmode
      refine ⟨_, Passage.last?_concat_of_pos history henters, ?_⟩
      exact le_add_of_nonneg_right (Quantity.value_nonneg_iff.mpr htimeout)
    · obtain ⟨entry, hentry, hmemory⟩ := hc.probing hprobing
      have hnothing := eq_nothing_of_unanswered hprobing hwarrants hunanswered
      obtain ⟨start, deadline, hstart, hdeadline, hlate⟩ := hstill hnothing
      cases hmemory.symm.trans hstart
      refine ⟨entry, ?_, ?_⟩
      · rw [Passage.last?_concat_of_neg history (by simp [entersProbing, hprobing])]
        exact hentry
      · rw [← hc.settings_eq, ← Instant.value_add hdeadline]
        exact Instant.value_le_iff.mpr (Int.not_lt.mp hlate)
  · rcases htransition.probing hmode with ⟨hsteady, rfl, -⟩ | ⟨hprobing, -⟩
    · obtain ⟨-, start, hstart, hlater⟩ := mayProbe_eq_ok_true hwarrants
      rw [hc.settings_eq] at hlater
      exact ⟨hsteady, ⟨start, hstart, hlater⟩, hestimate (by decide)⟩
    · exact absurd hprobing hbefore

/-- The induction carries the passages before those that are still to come. -/
theorem Remembers.timely_of_split {moments : List Moment} {record earlier later : List Passage}
    (hc : c.Remembers history settings) (htimeout : 0 ≤ settings.probe.timeout)
    (h : c.passages moments = .ok record) (hsplit : record = earlier ++ p :: later) :
    p.Timely (history ++ earlier) settings := by
  induction moments generalizing c history record earlier with
  | nil =>
    cases h
    exact absurd hsplit (by simp)
  | cons m rest ih =>
    obtain ⟨first, hfirst, h⟩ := bind_eq_ok_iff.mp h
    obtain ⟨after, hafter, h⟩ := bind_eq_ok_iff.mp h
    cases h
    cases earlier with
    | nil =>
      cases hsplit
      rw [List.append_nil]
      exact hc.timely hfirst htimeout
    | cons e earlier =>
      cases hsplit
      have hrest := ih (hc.pass hfirst) hafter rfl
      rwa [List.append_assoc] at hrest

/-- Every passage of every run keeps to the times in the settings: how long competition is
maintained, how long probing lasts and when it may begin. Assumes: the timeout of probing is not
negative. -/
theorem timely_of_passages {minBitrate maxBitrate startBitrate : DataRate} {moments : List Moment}
    {record earlier later : List Passage} (htimeout : 0 ≤ settings.probe.timeout)
    (hrun : (create settings minBitrate maxBitrate startBitrate).passages moments = .ok record)
    (hsplit : record = earlier ++ p :: later) : p.Timely earlier settings :=
  (remembers_create settings minBitrate maxBitrate startBitrate).timely_of_split htimeout hrun hsplit

/-- Signals of a path with room to spare. -/
def spare : Signals := { delivered := some 1.0 }

/-- Signals of a queue that others build. -/
def contention : Signals :=
  { queueDelay := { latest := .exactly 60000, windowRange := .exactly 200000 }
    rising := .exactly 3000000, delivered := some 1.0 }

/-- Probing up to its timeout, then competing until it is over. -/
def probeThenCompete : List Moment :=
  [(14000001, spare), (18000001, spare), (18000002, contention), (22000002, spare),
    (22000003, spare)].map fun (micros, signals) ↦
      { now := ⟨⟨Extended.saturate micros⟩⟩, sessionStart := some ⟨.exactly 10000000⟩, signals,
        estimate := some (.exactly 400000) }

/-- The second passage is at the timeout to the microsecond, and the last is the first after the
time for which competition is maintained. -/
theorem timely_of_passages_probeThenCompete : ∃ first second third fourth fifth,
    (create {} (.exactly 150000) (.exactly 1500000) (.exactly 300000)).passages probeThenCompete =
      .ok [first, second, third, fourth, fifth] ∧
    second.after.mode = .probing ∧ second.Timely [first] {} ∧
    fourth.after.mode = .competing ∧
    fifth.after.mode = .steady ∧ fifth.Timely [first, second, third, fourth] {} := by
  have hrun : ∃ first second third fourth fifth,
      (create {} (.exactly 150000) (.exactly 1500000) (.exactly 300000)).passages
        probeThenCompete = .ok [first, second, third, fourth, fifth] ∧
      second.after.mode = .probing ∧ fourth.after.mode = .competing ∧
      fifth.after.mode = .steady := ⟨_, _, _, _, _, rfl, rfl, rfl, rfl⟩
  obtain ⟨first, second, third, fourth, fifth, hrun, hprobing, hcompeting, hsteady⟩ := hrun
  have htimeout : (0 : Duration) ≤ ({} : RateSettings).probe.timeout := by decide
  have hsecond : second.Timely [first] {} :=
    timely_of_passages htimeout hrun rfl
  have hfifth : fifth.Timely [first, second, third, fourth] {} :=
    timely_of_passages htimeout hrun rfl
  exact ⟨first, second, third, fourth, fifth, hrun, hprobing, hsecond, hcompeting, hsteady, hfifth⟩

end RateControl

end Congestion
