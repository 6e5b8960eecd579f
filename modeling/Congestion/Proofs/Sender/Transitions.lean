import Congestion.Proofs.Checked
import Congestion.Proofs.Units.Order
import Congestion.Sender.RateControl

/-!
# Transitions of the rate control

`RateControl.Transition` lists all that carrying out an event can do to the rate control
(`apply_transition`): what each mode does with each event that it answers to (`Mode.Answers`), and
what is left of the state. Rates that come out of floating point are any rates in it, and rates that
do not are told exactly.
-/

set_option autoImplicit false
set_option relaxedAutoImplicit false

namespace Congestion

/-- The events that change something in a mode. Where nothing is told, a mode only steers. -/
def Mode.Answers : Mode → Event → Prop
  | .steady, event => event = .startProbing ∨ event = .startCompete ∨ event = .detectThrottle
  | .competing, event => event = .startCompete ∨ event = .stopCompete
  | .probing, event => event = .startCompete ∨ event = .stopProbing ∨ event = .detectThrottle
  | .throttled, event =>
    event = .resolveThrottle ∨ event = .startCompete ∨ event = .detectThrottle

namespace RateControl

/-- The probing has a start, and its timeout has not passed. -/
def StillProbing (c : RateControl) (now : Instant) : Prop :=
  ∃ start deadline, c.probingStart = some start ∧
    (start + c.settings.probe.timeout : Checked Instant) = .ok deadline ∧ ¬ deadline < now

/-- From a state, what an event can lead to when the estimate is `known`, zero for none. -/
inductive Transition (now : Instant) (event : Event) (known : DataRate) (c : RateControl) :
    RateControl → Prop
  | keep (hunanswered : ¬ c.mode.Answers event)
      (hprobing : c.mode = .probing → event = .nothing → c.StillProbing now) :
    Transition now event known c c
  | steer (rate : DataRate) (hmode : c.mode = .steady ∨ c.mode = .competing)
      (hevent : event = .nothing) : Transition now event known c (c.withRate rate)
  | startProbing (rate : DataRate) (hmode : c.mode = .steady) (hevent : event = .startProbing)
      (hrate : (known + c.settings.probe.increment : Checked DataRate) = .ok rate) :
    Transition now event known c
      { c.withRate rate with mode := .probing, probingStart := some now }
  | startCompeting (rate : DataRate) (hmode : c.mode ≠ .competing)
      (hevent : event = .startCompete) : Transition now event known c
      { (c.withRate rate).withDelay c.settings.targets.competing with
        mode := .competing, lastCompete := some now, probingStart := none }
  | keepCompeting (hmode : c.mode = .competing) (hevent : event = .startCompete) :
    Transition now event known c { c with lastCompete := some now }
  | stopCompeting (hmode : c.mode = .competing) (hevent : event = .stopCompete) :
    Transition now event known c
      { c.withDelay c.settings.targets.steady with mode := .steady, lastCompete := none }
  | timeOut (hmode : c.mode = .probing) (hevent : event = .nothing) :
    Transition now event known c { c with mode := .steady, probingStart := none }
  | stopProbing (hmode : c.mode = .probing) (hevent : event = .stopProbing) :
    Transition now event known c { c.withRate known with mode := .steady, probingStart := none }
  | throttleSteady (rate : DataRate) (hmode : c.mode = .steady) (hevent : event = .detectThrottle) :
    Transition now event known c
      { c.withRate rate with mode := .throttled, throttledEstimate := known }
  | throttleProbing (rate : DataRate) (hmode : c.mode = .probing)
      (hevent : event = .detectThrottle) : Transition now event known c
      { c.withRate rate with mode := .throttled, throttledEstimate := known, probingStart := none }
  | keepThrottled (hmode : c.mode = .throttled) (hevent : event = .detectThrottle) :
    Transition now event known c { c with throttledEstimate := known }
  | resolve (hmode : c.mode = .throttled) (hevent : event = .resolveThrottle) :
    Transition now event known c { c.withRate c.throttledEstimate with mode := .steady }

variable {c c' : RateControl} {now : Instant} {d : Decision} {estimate : Option DataRate}

/-- A rate within the bounds is taken as it is. -/
theorem targetRate_withRate {rate : DataRate} (h : rate.Within c.minBitrate c.maxBitrate) :
    (c.withRate rate).targetRate = rate := Quantity.clamp_of_within h

/-- A delay within the bounds is taken as it is. -/
theorem targetDelay_withDelay {delay : Duration}
    (h : delay.Within c.settings.targets.lowest c.settings.targets.highest) :
    (c.withDelay delay).targetDelay = delay := Quantity.clamp_of_within h

theorem track_eq_ok {delayFraction : Float} (h : c.track delayFraction estimate = .ok c') :
    c' = c ∨ ∃ rate, c' = c.withRate rate := by
  unfold track at h
  split at h
  next => cases h; exact Or.inl rfl
  next estimate =>
    split at h
    · cases h; exact Or.inl rfl
    · split at h
      · obtain ⟨rate, -, hrate⟩ := bind_eq_ok_iff.mp h
        cases hrate
        exact Or.inr ⟨rate, rfl⟩
      · split at h
        · obtain ⟨rate, -, hrate⟩ := bind_eq_ok_iff.mp h
          cases hrate
          exact Or.inr ⟨rate, rfl⟩
        · cases h; exact Or.inl rfl

theorem compete_eq_ok (h : c.compete estimate = .ok c') :
    c' = c ∨ ∃ rate, c' = c.withRate rate := by
  unfold compete at h
  split at h
  next => cases h; exact Or.inl rfl
  next estimate =>
    have hlowered : ∀ raised : DataRate, (do
        let rate ←
          if (← estimate.scale c.settings.compete.highBand) < raised then
            raised.scale c.settings.compete.decrease
          else pure raised
        return c.withRate rate : Checked RateControl) = .ok c' → ∃ rate, c' = c.withRate rate := by
      intro raised h
      obtain ⟨band, -, h⟩ := bind_eq_ok_iff.mp h
      split at h <;>
        (obtain ⟨rate, -, hrate⟩ := bind_eq_ok_iff.mp h
         exact ⟨rate, (pure_eq_ok_iff.mp hrate).symm⟩)
    obtain ⟨band, -, h⟩ := bind_eq_ok_iff.mp h
    split at h <;>
      (obtain ⟨raised, -, h⟩ := bind_eq_ok_iff.mp h
       exact Or.inr (hlowered raised h))

theorem enterCompeting_eq_ok (h : c.enterCompeting now = .ok c') : ∃ rate,
    c' = { (c.withRate rate).withDelay c.settings.targets.competing with
      mode := .competing, lastCompete := some now, probingStart := none } := by
  obtain ⟨rate, -, hrate⟩ := bind_eq_ok_iff.mp h
  cases hrate
  exact ⟨rate, rfl⟩

theorem apply_transition (h : c.apply now d estimate = .ok c') :
    Transition now d.event (estimate.getD 0) c c' := by
  unfold apply at h
  dsimp only at h
  split at h
  next hmode hevent =>
    rcases track_eq_ok h with rfl | ⟨rate, rfl⟩
    · refine .keep ?_ fun hprobing ↦ by rw [hmode] at hprobing; cases hprobing
      simp [hmode, hevent, Mode.Answers]
    · exact .steer rate (Or.inl hmode) hevent
  next hmode hevent =>
    obtain ⟨rate, hrate, hc'⟩ := bind_eq_ok_iff.mp h
    cases hc'
    exact .startProbing rate hmode hevent hrate
  next hmode hevent =>
    obtain ⟨rate, rfl⟩ := enterCompeting_eq_ok h
    exact .startCompeting rate (by rw [hmode]; decide) hevent
  next hmode hevent =>
    obtain ⟨rate, -, hc'⟩ := bind_eq_ok_iff.mp h
    cases hc'
    exact .throttleSteady rate hmode hevent
  next hmode hevent =>
    rcases compete_eq_ok h with rfl | ⟨rate, rfl⟩
    · refine .keep ?_ fun hprobing ↦ by rw [hmode] at hprobing; cases hprobing
      simp [hmode, hevent, Mode.Answers]
    · exact .steer rate (Or.inr hmode) hevent
  next hmode hevent => cases h; exact .keepCompeting hmode hevent
  next hmode hevent => cases h; exact .stopCompeting hmode hevent
  next hmode hevent =>
    split at h
    next =>
      cases h
      exact .timeOut hmode hevent
    next start hstart =>
      obtain ⟨deadline, hdeadline, h⟩ := bind_eq_ok_iff.mp h
      by_cases hlate : deadline < now
      · cases h
        rw [if_pos (decide_eq_true hlate)]
        exact .timeOut hmode hevent
      · cases h
        rw [if_neg (by simpa using hlate)]
        refine .keep ?_ fun _ _ ↦ ⟨start, deadline, hstart, hdeadline, hlate⟩
        simp [hmode, hevent, Mode.Answers]
  next hmode hevent =>
    obtain ⟨rate, rfl⟩ := enterCompeting_eq_ok h
    exact .startCompeting rate (by rw [hmode]; decide) hevent
  next hmode hevent => cases h; exact .stopProbing hmode hevent
  next hmode hevent =>
    obtain ⟨rate, -, hc'⟩ := bind_eq_ok_iff.mp h
    cases hc'
    exact .throttleProbing rate hmode hevent
  next hmode hevent => cases h; exact .resolve hmode hevent
  next hmode hevent =>
    obtain ⟨rate, rfl⟩ := enterCompeting_eq_ok h
    exact .startCompeting rate (by rw [hmode]; decide) hevent
  next hmode hevent => cases h; exact .keepThrottled hmode hevent
  next =>
    cases h
    refine .keep ?_ fun hmode hevent ↦ ?_
    · cases hmode : c.mode <;> cases hevent : d.event <;> simp_all [Mode.Answers]
    · exact (‹c.mode = .probing → d.event = .nothing → False› hmode hevent).elim

/-! ### Modes and their timers -/

namespace Transition

variable {event : Event} {known : DataRate}

theorem settings_eq (h : Transition now event known c c') : c'.settings = c.settings := by
  cases h <;> rfl

/-- Competing mode is entered and renewed by the start of competition, and held otherwise. -/
theorem competing (h : Transition now event known c c') (hmode : c'.mode = .competing) :
    (event = .startCompete ∧ c'.lastCompete = some now) ∨
      (event ≠ .startCompete ∧ c.mode = .competing ∧ c'.lastCompete = c.lastCompete) := by
  cases h with
  | keep hunanswered =>
    rw [hmode] at hunanswered
    exact Or.inr ⟨fun hevent ↦ hunanswered (Or.inl hevent), hmode, rfl⟩
  | steer rate _ hevent =>
    exact Or.inr ⟨by rw [hevent]; decide, hmode, rfl⟩
  | startCompeting _ _ hevent => exact Or.inl ⟨hevent, rfl⟩
  | keepCompeting _ hevent => exact Or.inl ⟨hevent, rfl⟩
  | keepThrottled hthrottled =>
    have hboth := hthrottled.symm.trans hmode
    cases hboth
  | startProbing | stopCompeting | timeOut | stopProbing | throttleSteady | throttleProbing
  | resolve => cases hmode

theorem leaves_competing (h : Transition now event known c c') (hmode : c.mode = .competing)
    (hleaves : c'.mode ≠ .competing) : event = .stopCompete ∧ c'.mode = .steady := by
  cases h with
  | stopCompeting _ hevent => exact ⟨hevent, rfl⟩
  | keep => exact absurd hmode hleaves
  | steer => exact absurd hmode hleaves
  | keepCompeting => exact absurd hmode hleaves
  | startCompeting => exact absurd rfl hleaves
  | startProbing _ hother | timeOut hother | stopProbing hother | throttleSteady _ hother
  | throttleProbing _ hother | keepThrottled hother | resolve hother =>
    have hboth := hother.symm.trans hmode
    cases hboth

/-- Probing mode is entered from steady mode, and held by what it does not answer to. -/
theorem probing (h : Transition now event known c c') (hmode : c'.mode = .probing) :
    (c.mode = .steady ∧ event = .startProbing ∧ c'.probingStart = some now) ∨
      (c.mode = .probing ∧ ¬ c.mode.Answers event ∧ (event = .nothing → c.StillProbing now) ∧
        c' = c) := by
  cases h with
  | keep hunanswered hprobing => exact Or.inr ⟨hmode, hunanswered, hprobing hmode, rfl⟩
  | startProbing _ hbefore hevent => exact Or.inl ⟨hbefore, hevent, rfl⟩
  | steer _ hbefore =>
    have hprobing : c.mode = .probing := hmode
    rcases hbefore with hbefore | hbefore <;> rw [hbefore] at hprobing <;> cases hprobing
  | keepCompeting hother | keepThrottled hother =>
    have hboth := hother.symm.trans hmode
    cases hboth
  | startCompeting | stopCompeting | timeOut | stopProbing | throttleSteady | throttleProbing
  | resolve => cases hmode

end Transition

end RateControl

end Congestion
