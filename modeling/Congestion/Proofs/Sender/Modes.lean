import Congestion.Proofs.Repair
import Congestion.Proofs.Sender.Transitions

/-!
# What each mode keeps

A rate control carries out events and is reset, in any order. Through every such run the time of the
last competition is known in competing mode alone and the start of the probing in probing mode
alone, and the target delay is the one for the mode (`keeps_run`). Assumes: both targets are within
the bounds on them, as those of a repaired configuration are.
-/

set_option autoImplicit false
set_option relaxedAutoImplicit false

namespace Congestion

inductive RateCommand
  | carryOut (now : Instant) (decision : Decision) (estimate : Option DataRate)
  | reset

namespace RateControl

def step (c : RateControl) : RateCommand → Checked RateControl
  | .carryOut now decision estimate => c.apply now decision estimate
  | .reset => .ok c.reset

def run (c : RateControl) (commands : List RateCommand) : Checked RateControl :=
  commands.foldlM step c

/-- What a rate control has in the mode that it is in. -/
structure Keeps (c : RateControl) (settings : RateSettings) : Prop where
  settings_eq : c.settings = settings
  lastCompete : c.lastCompete.isSome ↔ c.mode = .competing
  probingStart : c.probingStart.isSome ↔ c.mode = .probing
  targetDelay : c.targetDelay =
    if c.mode = .competing then settings.targets.competing else settings.targets.steady

variable {c c' : RateControl} {settings : RateSettings} {now : Instant} {event : Event}
  {known : DataRate}

theorem keeps_create (settings : RateSettings) (minBitrate maxBitrate startBitrate : DataRate) :
    (create settings minBitrate maxBitrate startBitrate).Keeps settings :=
  ⟨rfl, by simp [create], by simp [create], rfl⟩

theorem Keeps.lastCompete_eq_none (hc : c.Keeps settings) (hmode : c.mode ≠ .competing) :
    c.lastCompete = none :=
  Option.not_isSome_iff_eq_none.mp fun h ↦ hmode (hc.lastCompete.mp h)

theorem Keeps.probingStart_eq_none (hc : c.Keeps settings) (hmode : c.mode ≠ .probing) :
    c.probingStart = none :=
  Option.not_isSome_iff_eq_none.mp fun h ↦ hmode (hc.probingStart.mp h)

theorem Keeps.reset (hc : c.Keeps settings) : c.reset.Keeps settings := by
  rw [RateControl.reset, hc.settings_eq]
  exact keeps_create settings c.minBitrate c.maxBitrate c.startBitrate

theorem Keeps.transition (hc : c.Keeps settings)
    (hsteady : settings.targets.steady.Within settings.targets.lowest settings.targets.highest)
    (hcompeting : settings.targets.competing.Within settings.targets.lowest
      settings.targets.highest)
    (h : Transition now event known c c') : c'.Keeps settings := by
  have hlast := hc.lastCompete_eq_none
  have hstart := hc.probingStart_eq_none
  have hdelay := hc.targetDelay
  cases h with
  | keep => exact hc
  | steer rate => exact { hc with }
  | startProbing rate hmode =>
    rw [hmode] at hlast hdelay
    exact ⟨hc.settings_eq, by simp [withRate, hlast], by simp, hdelay⟩
  | startCompeting rate =>
    refine ⟨hc.settings_eq, by simp, by simp, ?_⟩
    have htarget : ((c.withRate rate).withDelay c.settings.targets.competing).targetDelay =
        c.settings.targets.competing :=
      targetDelay_withDelay (by rw [withRate, hc.settings_eq]; exact hcompeting)
    rw [if_pos rfl, ← hc.settings_eq]
    exact htarget
  | keepCompeting hmode => exact ⟨hc.settings_eq, by simp [hmode], hc.probingStart, hdelay⟩
  | stopCompeting hmode =>
    rw [hmode] at hstart
    refine ⟨hc.settings_eq, by simp, by simp [withDelay, hstart], ?_⟩
    have htarget : (c.withDelay c.settings.targets.steady).targetDelay =
        c.settings.targets.steady :=
      targetDelay_withDelay (by rw [hc.settings_eq]; exact hsteady)
    rw [if_neg (by simp), ← hc.settings_eq]
    exact htarget
  | timeOut hmode =>
    rw [hmode] at hlast hdelay
    exact ⟨hc.settings_eq, by simp [hlast], by simp, hdelay⟩
  | stopProbing hmode =>
    rw [hmode] at hlast hdelay
    exact ⟨hc.settings_eq, by simp [withRate, hlast], by simp, hdelay⟩
  | throttleSteady rate hmode =>
    rw [hmode] at hlast hstart hdelay
    exact ⟨hc.settings_eq, by simp [withRate, hlast], by simp [withRate, hstart], hdelay⟩
  | throttleProbing rate hmode =>
    rw [hmode] at hlast hdelay
    exact ⟨hc.settings_eq, by simp [withRate, hlast], by simp, hdelay⟩
  | keepThrottled => exact { hc with }
  | resolve hmode =>
    rw [hmode] at hlast hstart hdelay
    exact ⟨hc.settings_eq, by simp [withRate, hlast], by simp [withRate, hstart], hdelay⟩

theorem Keeps.step (hc : c.Keeps settings)
    (hsteady : settings.targets.steady.Within settings.targets.lowest settings.targets.highest)
    (hcompeting : settings.targets.competing.Within settings.targets.lowest
      settings.targets.highest)
    {command : RateCommand} (h : c.step command = .ok c') : c'.Keeps settings := by
  cases command with
  | carryOut now decision estimate => exact hc.transition hsteady hcompeting (apply_transition h)
  | reset => cases h; exact hc.reset

/-- However events are carried out and whenever the rate control is reset, the time of the last
competition is set in competing mode alone, the start of the probing in probing mode alone, and the
target delay is that of the mode. -/
theorem keeps_run {minBitrate maxBitrate startBitrate : DataRate} {commands : List RateCommand}
    (hsteady : settings.targets.steady.Within settings.targets.lowest settings.targets.highest)
    (hcompeting : settings.targets.competing.Within settings.targets.lowest
      settings.targets.highest)
    (hrun : (create settings minBitrate maxBitrate startBitrate).run commands = .ok c) :
    c.Keeps settings := by
  have hfrom : ∀ (commands : List RateCommand) (c₀ : RateControl), c₀.Keeps settings →
      c₀.run commands = .ok c → c.Keeps settings := by
    intro commands
    induction commands with
    | nil => exact fun c₀ hc₀ h ↦ by cases h; exact hc₀
    | cons command rest ih =>
      intro c₀ hc₀ h
      rw [run, List.foldlM_cons] at h
      obtain ⟨c₁, hstep, hrest⟩ := bind_eq_ok_iff.mp h
      exact ih c₁ (hc₀.step hsteady hcompeting hstep) hrest
  exact hfrom commands _ (keeps_create settings minBitrate maxBitrate startBitrate) hrun

/-- Targets that lie below their bounds, and bounds out of order. -/
def misplacedTargets : RateSettings where
  targets := { lowest := .exactly 300000, steady := .exactly 90000, competing := 0 }

/-- Probing, competition in the midst of it, and a throttle that competing does not answer to. -/
def contested : List RateCommand :=
  [.carryOut ⟨.exactly 5000000⟩ { event := .startProbing } (some (.exactly 400000)),
   .carryOut ⟨.exactly 5100000⟩ { event := .startCompete } (some (.exactly 400000)),
   .carryOut ⟨.exactly 5200000⟩ { event := .detectThrottle } none]

theorem keeps_run_contested : ∃ c,
    (create misplacedTargets.repaired (.exactly 150000) (.exactly 1500000) (.exactly 300000)).run
      contested = .ok c ∧
    c.lastCompete = some ⟨.exactly 5100000⟩ ∧ c.Keeps misplacedTargets.repaired := by
  have hrun : ∃ c, (create misplacedTargets.repaired (.exactly 150000) (.exactly 1500000)
      (.exactly 300000)).run contested = .ok c ∧ c.lastCompete = some ⟨.exactly 5100000⟩ :=
    ⟨_, rfl, rfl⟩
  obtain ⟨c, hrun, hlast⟩ := hrun
  have htargets := misplacedTargets.targets.sound_repaired
  exact ⟨c, hrun, hlast, keeps_run htargets.steady htargets.competing hrun⟩

end RateControl

end Congestion
