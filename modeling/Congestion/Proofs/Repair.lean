import Congestion.Proofs.Units.Order
import Congestion.Settings

/-!
# Repaired configurations

What `Config.repaired` makes of any configuration has bitrates in order and delay targets within
their bounds, all of them positive (`Config.sound_repaired`). The bounds on the targets are settled
first: a target is compared with the bounds that the repair has left, not with those given.

All that is asked of the rates, durations and counts together is `Config.Usable`. A repair makes any
configuration usable and leaves the rates, durations and counts of a usable one as they are, so a
second repair finds nothing to do (`Config.repaired_settles`). Only bitrates have to be finite:
durations may be endless, and stay so.
-/

set_option autoImplicit false
set_option relaxedAutoImplicit false

namespace Congestion

structure DelayTargets.Sound (t : DelayTargets) : Prop where
  lowest : 0 ≤ t.lowest
  ordered : t.lowest < t.highest
  steady : t.steady.Within t.lowest t.highest
  steady_pos : 0 < t.steady
  competing : t.competing.Within t.lowest t.highest
  competing_pos : 0 < t.competing

structure Config.Sound (c : Config) : Prop where
  minBitrate_pos : 0 < c.minBitrate
  startBitrate : c.startBitrate.Within c.minBitrate c.maxBitrate
  targets : c.rate.targets.Sound

theorem Config.Sound.ordered {c : Config} (h : c.Sound) : c.minBitrate ≤ c.maxBitrate := by
  have hlow := h.startBitrate.low
  have hhigh := h.startBitrate.high
  rw [Quantity.le_iff] at hlow hhigh ⊢
  omega

structure QueueDelaySettings.Usable (s : QueueDelaySettings) : Prop where
  window : 0 < s.window
  riseCount : 1 ≤ s.riseCount
  riseDuration : 0 ≤ s.riseDuration
  baseDelay : 0 ≤ s.baseDelay
  bandwidthStep : 0 < s.bandwidthStep
  maxSteps : 1 ≤ s.maxSteps

/-- The rates, durations and counts are such as a repair leaves. -/
structure Config.Usable (c : Config) : Prop extends c.Sound where
  maxBitrate : c.maxBitrate < .infinity
  retention : 0 < c.retention
  queueDelay : c.queueDelay.Usable
  fractionWindow : 0 < c.bandwidth.fractionWindow
  crossTraffic : 0 < c.rate.targets.crossTraffic
  increment : 0 < c.rate.probe.increment

structure QueueDelaySettings.SameAmounts (s t : QueueDelaySettings) : Prop where
  window : s.window = t.window
  riseCount : s.riseCount = t.riseCount
  riseDuration : s.riseDuration = t.riseDuration
  baseDelay : s.baseDelay = t.baseDelay
  bandwidthStep : s.bandwidthStep = t.bandwidthStep
  maxSteps : s.maxSteps = t.maxSteps

/-- The rates, durations and counts that a repair looks at are the same. -/
structure Config.SameAmounts (c d : Config) : Prop where
  minBitrate : c.minBitrate = d.minBitrate
  maxBitrate : c.maxBitrate = d.maxBitrate
  startBitrate : c.startBitrate = d.startBitrate
  retention : c.retention = d.retention
  queueDelay : c.queueDelay.SameAmounts d.queueDelay
  fractionWindow : c.bandwidth.fractionWindow = d.bandwidth.fractionWindow
  targets : c.rate.targets = d.rate.targets
  increment : c.rate.probe.increment = d.rate.probe.increment

/-! ### One amount -/

namespace Quantity

variable {d : Dimension} {a fallback : Quantity d}

theorem orFallback_pos (hfallback : 0 < fallback) : 0 < if a ≤ 0 then fallback else a := by
  split
  next => exact hfallback
  next h => exact not_le.mp h

theorem orFallback_of_pos (h : 0 < a) : (if a ≤ 0 then fallback else a) = a :=
  if_neg (not_le.mpr h)

theorem orFallback_nonneg (hfallback : 0 ≤ fallback) : 0 ≤ if a < 0 then fallback else a := by
  split
  next => exact hfallback
  next h => exact not_lt.mp h

theorem orFallback_of_nonneg (h : 0 ≤ a) : (if a < 0 then fallback else a) = a :=
  if_neg (not_lt.mpr h)

/-- Where a fallback is taken for amounts that are not too great, it is finite unless there is no
end to the amount. -/
theorem orFallback_isFinite_iff {p : Prop} [Decidable p] (hfallback : fallback.isFinite)
    (hsmall : p → a ≤ 0) (hlarge : ¬ p → 0 ≤ a) :
    (if p then fallback else a).isFinite ↔ a < infinity := by
  split
  next h => exact iff_of_true hfallback (Int.lt_of_le_of_lt (hsmall h) zero_lt_infinity)
  next h => exact ⟨fun hfinite ↦ (isFinite_iff.mp hfinite).2, isFinite_of_nonneg (hlarge h)⟩

end Quantity

namespace QueueDelaySettings

theorem usable_repaired (s : QueueDelaySettings) : s.repaired.Usable where
  window := Quantity.orFallback_pos (by decide)
  riseCount := by
    show 1 ≤ if s.riseCount = 0 then 3 else s.riseCount
    split <;> omega
  riseDuration := Quantity.orFallback_nonneg (by decide)
  baseDelay := Quantity.orFallback_nonneg (by decide)
  bandwidthStep := Quantity.orFallback_pos (by decide)
  maxSteps := by
    show 1 ≤ if s.maxSteps = 0 then 1000 else s.maxSteps
    split <;> omega

theorem Usable.sameAmounts_repaired {s : QueueDelaySettings} (h : s.Usable) :
    s.repaired.SameAmounts s where
  window := Quantity.orFallback_of_pos h.window
  riseCount := if_neg (Nat.one_le_iff_ne_zero.mp h.riseCount)
  riseDuration := Quantity.orFallback_of_nonneg h.riseDuration
  baseDelay := Quantity.orFallback_of_nonneg h.baseDelay
  bandwidthStep := Quantity.orFallback_of_pos h.bandwidthStep
  maxSteps := if_neg (Nat.one_le_iff_ne_zero.mp h.maxSteps)

end QueueDelaySettings

/-! ### Targets -/

namespace DelayTargets

/-- A target as it is left by the repair, once the bounds are settled. -/
def settled (lowest highest target fallback : Duration) : Duration :=
  if lowest ≤ target ∧ target ≤ highest ∧ target ≠ 0 then target
  else fallback.clamp lowest highest

theorem settled_within {lowest highest : Duration} (hordered : lowest < highest)
    (target fallback : Duration) :
    (settled lowest highest target fallback).Within lowest highest := by
  unfold settled
  by_cases h : lowest ≤ target ∧ target ≤ highest ∧ target ≠ 0
  · rw [if_pos h]
    exact ⟨h.1, h.2.1⟩
  · rw [if_neg h]
    rw [Quantity.lt_iff] at hordered
    exact Quantity.within_clamp fallback (Quantity.le_iff.mpr (Int.le_of_lt hordered))

theorem settled_pos {lowest highest fallback : Duration} (hlowest : 0 ≤ lowest)
    (hordered : lowest < highest) (hfallback : 0 < fallback) (target : Duration) :
    0 < settled lowest highest target fallback := by
  unfold settled
  by_cases h : lowest ≤ target ∧ target ≤ highest ∧ target ≠ 0
  · rw [if_pos h]
    obtain ⟨hlow, -, hzero⟩ := h
    rw [ne_eq, ← Quantity.word_inj] at hzero
    simp only [Quantity.le_iff, Quantity.lt_iff, Quantity.word_zero] at *
    omega
  · rw [if_neg h, Quantity.clamp_eq]
    clear h
    split <;> split <;>
      simp only [Quantity.le_iff, Quantity.lt_iff, Quantity.word_zero] at * <;> omega

theorem settled_of_within {lowest highest target : Duration} (fallback : Duration)
    (hwithin : target.Within lowest highest) (hpos : 0 < target) :
    settled lowest highest target fallback = target := by
  refine if_pos ⟨hwithin.low, hwithin.high, ?_⟩
  rintro rfl
  exact absurd hpos (by decide)

theorem bounds_repaired (t : DelayTargets) :
    0 ≤ t.repaired.lowest ∧ t.repaired.lowest < t.repaired.highest := by
  unfold repaired
  dsimp only
  by_cases h : t.lowest < 0 ∨ t.highest ≤ t.lowest
  · rw [if_pos h]
    exact ⟨by decide, by decide⟩
  · rw [if_neg h]
    simp only [Quantity.le_iff, Quantity.lt_iff, Quantity.word_zero] at h ⊢
    omega

theorem sound_repaired (t : DelayTargets) : t.repaired.Sound := by
  obtain ⟨hlowest, hordered⟩ := t.bounds_repaired
  have hsteady : t.repaired.steady = settled t.repaired.lowest t.repaired.highest t.steady
      (.exactly 50000) := rfl
  have hcompeting : t.repaired.competing = settled t.repaired.lowest t.repaired.highest t.competing
      (.exactly 100000) := rfl
  refine ⟨hlowest, hordered, ?_, ?_, ?_, ?_⟩
  · exact hsteady ▸ settled_within hordered _ _
  · exact hsteady ▸ settled_pos hlowest hordered (by decide) _
  · exact hcompeting ▸ settled_within hordered _ _
  · exact hcompeting ▸ settled_pos hlowest hordered (by decide) _

theorem Sound.repaired_eq {t : DelayTargets} (h : t.Sound) (hcross : 0 < t.crossTraffic) :
    t.repaired = t := by
  have hbounds : ¬ (t.lowest < 0 ∨ t.highest ≤ t.lowest) :=
    not_or.mpr ⟨Quantity.not_lt.mpr h.lowest, Quantity.not_le.mpr h.ordered⟩
  unfold repaired
  dsimp only
  rw [if_neg hbounds, Quantity.orFallback_of_pos hcross]
  congr 1
  · exact settled_of_within _ h.steady h.steady_pos
  · exact settled_of_within _ h.competing h.competing_pos

end DelayTargets

/-! ### Configurations -/

namespace Config

theorem bitrates_repaired (c : Config) : 0 < c.repaired.minBitrate ∧
    c.repaired.minBitrate ≤ c.repaired.maxBitrate := by
  unfold repaired
  dsimp only
  by_cases h : c.minBitrate ≤ 0 ∨ c.maxBitrate < c.minBitrate ∨ ¬ c.maxBitrate.isFinite
  · rw [if_pos h]
    exact ⟨by decide, by decide⟩
  · rw [if_neg h]
    obtain ⟨hmin, hrest⟩ := not_or.mp h
    have hordered := (not_or.mp hrest).1
    clear h hrest
    simp only [Quantity.le_iff, Quantity.lt_iff, Quantity.word_zero] at *
    omega

theorem maxBitrate_repaired_isFinite (c : Config) : c.repaired.maxBitrate.isFinite := by
  unfold repaired
  dsimp only
  by_cases h : c.minBitrate ≤ 0 ∨ c.maxBitrate < c.minBitrate ∨ ¬ c.maxBitrate.isFinite
  · rw [if_pos h]
    rfl
  · rw [if_neg h]
    obtain ⟨-, hrest⟩ := not_or.mp h
    exact Decidable.not_not.mp (not_or.mp hrest).2

theorem sound_repaired (c : Config) : c.repaired.Sound := by
  obtain ⟨hmin, hordered⟩ := c.bitrates_repaired
  have hstart : c.repaired.startBitrate =
      if c.startBitrate < c.repaired.minBitrate ∨ c.repaired.maxBitrate < c.startBitrate then
        c.repaired.minBitrate
      else c.startBitrate := rfl
  refine ⟨hmin, ?_, c.rate.targets.sound_repaired⟩
  rw [hstart]
  by_cases h : c.startBitrate < c.repaired.minBitrate ∨ c.repaired.maxBitrate < c.startBitrate
  · rw [if_pos h]
    exact ⟨Int.le_refl _, hordered⟩
  · rw [if_neg h]
    constructor <;> simp only [Quantity.le_iff, Quantity.lt_iff] at * <;> omega

theorem Usable.bitrates_repaired {c : Config} (h : c.Usable) :
    c.repaired.minBitrate = c.minBitrate ∧ c.repaired.maxBitrate = c.maxBitrate := by
  have hnonneg : 0 ≤ c.maxBitrate := Int.le_trans (Int.le_of_lt h.minBitrate_pos) h.ordered
  have hfinite : c.maxBitrate.isFinite := Quantity.isFinite_of_nonneg hnonneg h.maxBitrate
  have hvalid : ¬ (c.minBitrate ≤ 0 ∨ c.maxBitrate < c.minBitrate ∨ ¬ c.maxBitrate.isFinite) :=
    not_or.mpr ⟨Quantity.not_le.mpr h.minBitrate_pos,
      not_or.mpr ⟨Quantity.not_lt.mpr h.ordered, not_not_intro hfinite⟩⟩
  unfold repaired
  dsimp only
  rw [if_neg hvalid]
  exact ⟨rfl, rfl⟩

theorem Usable.sameAmounts_repaired {c : Config} (h : c.Usable) : c.repaired.SameAmounts c := by
  obtain ⟨hmin, hmax⟩ := h.bitrates_repaired
  have hstart : c.repaired.startBitrate =
      if c.startBitrate < c.repaired.minBitrate ∨ c.repaired.maxBitrate < c.startBitrate then
        c.repaired.minBitrate
      else c.startBitrate := rfl
  have hwithin : ¬ (c.startBitrate < c.minBitrate ∨ c.maxBitrate < c.startBitrate) :=
    not_or.mpr ⟨Quantity.not_lt.mpr h.startBitrate.low, Quantity.not_lt.mpr h.startBitrate.high⟩
  exact {
    minBitrate := hmin
    maxBitrate := hmax
    startBitrate := by rw [hstart, hmin, hmax, if_neg hwithin]
    retention := Quantity.orFallback_of_pos h.retention
    queueDelay := h.queueDelay.sameAmounts_repaired
    fractionWindow := Quantity.orFallback_of_pos h.fractionWindow
    targets := h.targets.repaired_eq h.crossTraffic
    increment := Quantity.orFallback_of_pos h.increment }

/-- A repaired configuration is usable, and one that is usable already keeps its rates, durations
and counts. So a second repair changes none of them. -/
theorem repaired_settles (c : Config) : c.repaired.Usable ∧
    (c.Usable → c.repaired.SameAmounts c) ∧ c.repaired.repaired.SameAmounts c.repaired := by
  have husable : c.repaired.Usable :=
    { toSound := c.sound_repaired
      maxBitrate := (Quantity.isFinite_iff.mp c.maxBitrate_repaired_isFinite).2
      retention := Quantity.orFallback_pos (by decide)
      queueDelay := c.queueDelay.usable_repaired
      fractionWindow := Quantity.orFallback_pos (by decide)
      crossTraffic := Quantity.orFallback_pos (by decide)
      increment := Quantity.orFallback_pos (by decide) }
  exact ⟨husable, Usable.sameAmounts_repaired, husable.sameAmounts_repaired⟩

/-- A repair compares durations with zero only, so one without an end is kept. -/
def endless : Config where
  retention := .infinity
  queueDelay := { window := .infinity, baseDelay := .infinity }
  bandwidth := { fractionWindow := .infinity }

theorem usable_endless : endless.Usable where
  minBitrate_pos := by decide
  startBitrate := ⟨by decide, by decide⟩
  targets := ⟨by decide, by decide, ⟨by decide, by decide⟩, by decide, ⟨by decide, by decide⟩,
    by decide⟩
  maxBitrate := by decide
  retention := by decide
  queueDelay := ⟨by decide, by decide, by decide, by decide, by decide, by decide⟩
  fractionWindow := by decide
  crossTraffic := by decide
  increment := by decide

theorem repaired_settles_endless : endless.Usable ∧ endless.repaired.SameAmounts endless :=
  ⟨usable_endless, (repaired_settles endless).2.1 usable_endless⟩

end Config

end Congestion
