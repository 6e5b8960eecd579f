import Congestion.Proofs.Checked
import Congestion.Sender.RateControl

/-!
# When an event is told

`RateControl.Warrants` is what has to hold for each event: a decision that the rate control comes to
tells an event that is warranted, and none but `nothing` without an estimate above zero
(`classify_eq_ok`). `Instant.LaterBy` is the form in which the waiting times are settled.
-/

set_option autoImplicit false
set_option relaxedAutoImplicit false

namespace Congestion

/-- One instant is later than another by more than a span. -/
def Instant.LaterBy (now since : Instant) (span : Duration) : Prop :=
  ∃ elapsed, (now - since : Checked Duration) = .ok elapsed ∧ span < elapsed

namespace RateControl

variable {c : RateControl} {now : Instant} {sessionStart : Option Instant} {s : Signals}
  {delayFraction : Float} {estimate : Option DataRate}

/-- What has to hold for an event to be told. -/
def Warrants (c : RateControl) (now : Instant) (sessionStart : Option Instant) (s : Signals)
    (delayFraction : Float) : Event → Prop
  | .nothing => True
  | .resolveThrottle => c.mode = .throttled ∧ delayFraction < 1.0
  | .detectThrottle => c.detectsThrottle s delayFraction
  | .startCompete => c.detectsCompetition s
  | .stopCompete => c.competitionIsOver now s = .ok true
  | .startProbing => c.mayProbe now sessionStart s = .ok true
  | .stopProbing => c.endsProbing s delayFraction

theorem passed_some_eq_ok_true {since : Instant} {span : Duration} {otherwise : Bool}
    (h : passed now (some since) span otherwise = .ok true) : now.LaterBy since span := by
  obtain ⟨elapsed, helapsed, h⟩ := bind_eq_ok_iff.mp h
  exact ⟨elapsed, helapsed, of_decide_eq_true (pure_eq_ok_iff.mp h)⟩

theorem competitionIsOver_eq_ok_true (h : c.competitionIsOver now s = .ok true) :
    c.mode = .competing ∧ ∀ last, c.lastCompete = some last →
      now.LaterBy last c.settings.compete.maintainTime := by
  unfold competitionIsOver at h
  split at h
  next hmode =>
    obtain ⟨maintained, hmaintained, h⟩ := bind_eq_ok_iff.mp h
    have hall := pure_eq_ok_iff.mp h
    simp only [Bool.and_eq_true] at hall
    rw [hall.1.1] at hmaintained
    refine ⟨hmode, fun last hlast ↦ ?_⟩
    rw [hlast] at hmaintained
    exact passed_some_eq_ok_true hmaintained
  next => cases h

theorem mayProbe_eq_ok_true (h : c.mayProbe now sessionStart s = .ok true) :
    c.mode ≠ .probing ∧ ∃ start, sessionStart = some start ∧
      now.LaterBy start c.settings.probe.initialWait := by
  obtain ⟨waited, hwaited, h⟩ := bind_eq_ok_iff.mp h
  have hall := pure_eq_ok_iff.mp h
  simp only [Bool.and_eq_true, decide_eq_true_eq] at hall
  obtain ⟨⟨⟨⟨⟨⟨hwait, hmode⟩, -⟩, -⟩, -⟩, -⟩, -⟩ := hall
  rw [hwait] at hwaited
  cases sessionStart with
  | none => cases hwaited
  | some start => exact ⟨hmode, start, rfl, passed_some_eq_ok_true hwaited⟩

theorem warrants_of_eventOf {event : Event}
    (h : c.eventOf now sessionStart s delayFraction = .ok event) :
    c.Warrants now sessionStart s delayFraction event := by
  unfold eventOf at h
  split at h
  next hresolve =>
    cases h
    simpa [Warrants] using hresolve
  next =>
    split at h
    next hthrottle => cases h; exact hthrottle
    next =>
      split at h
      next hcompete => cases h; exact hcompete
      next =>
        obtain ⟨ended, hended, h⟩ := bind_eq_ok_iff.mp h
        split at h
        next hstop => cases h; rw [hstop] at hended; exact hended
        next =>
          obtain ⟨probe, hprobe, h⟩ := bind_eq_ok_iff.mp h
          split at h
          next hstart => cases h; rw [hstart] at hprobe; exact hprobe
          next =>
            split at h
            next hends => cases h; exact hends
            next => cases h; exact True.intro

theorem classify_eq_ok {d : Decision} (h : c.classify now sessionStart estimate s = .ok d) :
    c.Warrants now sessionStart s d.delayFraction d.event ∧
      (d.event ≠ .nothing → ∃ e, estimate = some e ∧ 0 < e) := by
  unfold classify at h
  dsimp only at h
  split at h
  next hestimate =>
    obtain ⟨event, hevent, h⟩ := bind_eq_ok_iff.mp h
    cases h
    refine ⟨warrants_of_eventOf hevent, fun _ ↦ ?_⟩
    cases estimate with
    | none => cases hestimate
    | some e => exact ⟨e, rfl, by simpa using hestimate⟩
  next =>
    cases h
    exact ⟨True.intro, fun h ↦ absurd rfl h⟩

end RateControl

end Congestion
