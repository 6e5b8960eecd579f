import Congestion.Path.Bandwidth
import Congestion.Proofs.Units.Amounts

/-!
# Updates of the bandwidth estimate

An update either leaves the estimate and answers zero, or replaces it by one brought into the bounds
and answers the difference (`update_eq_ok`); it does not learn while throttled. A roll back takes a
difference off the estimate there is (`rollBack_eq_ok`). Neither takes the estimate away, and since
both estimates are within the bounds, so that no clamp comes between, a roll back of the difference
that an update has answered restores the estimate before it (`update_moves`, `rollBack_restores`).
-/

set_option autoImplicit false
set_option relaxedAutoImplicit false

namespace Congestion.BandwidthEstimator

variable {e e' : BandwidthEstimator} {bytes : ByteTotals} {duration : Duration} {mode : Mode}
  {target growth : DataRate} {lossRate : Float}

theorem not_throttled_of_learns {received sample : DataRate}
    (h : e.learns bytes mode target received sample lossRate) : mode ≠ .throttled := by
  unfold learns at h
  simp only [Bool.and_eq_true, decide_eq_true_eq] at h
  exact h.1.1

theorem update_eq_ok (h : e.update bytes duration mode target lossRate = .ok (growth, e')) :
    (growth = 0 ∧ ∃ rate, e' = { e with receivedRate := rate }) ∨
    (mode ≠ .throttled ∧ ∃ rate blended : DataRate,
      e' = { e with
        receivedRate := rate, estimate := some (blended.clamp e.minBitrate e.maxBitrate) } ∧
      (blended.clamp e.minBitrate e.maxBitrate - e.estimate.getD 0 : Checked DataRate) =
        .ok growth) := by
  unfold update at h
  split at h
  · cases h
    exact Or.inl ⟨rfl, e.receivedRate, rfl⟩
  · obtain ⟨rate, -, h⟩ := bind_eq_ok_iff.mp h
    obtain ⟨sample, -, h⟩ := bind_eq_ok_iff.mp h
    split at h
    next hlearns =>
      obtain ⟨blended, -, h⟩ := bind_eq_ok_iff.mp h
      obtain ⟨difference, hdifference, h⟩ := bind_eq_ok_iff.mp h
      cases h
      exact Or.inr ⟨not_throttled_of_learns hlearns, rate, blended, rfl, hdifference⟩
    next =>
      cases h
      exact Or.inl ⟨rfl, rate, rfl⟩

theorem rollBack_eq_ok {difference : DataRate} (h : e.rollBack difference = .ok e') :
    (e.estimate = none ∧ e' = e) ∨ ∃ estimate lowered, e.estimate = some estimate ∧
      (estimate - difference : Checked DataRate) = .ok lowered ∧
      e' = { e with estimate := some (lowered.clamp e.minBitrate e.maxBitrate) } := by
  unfold rollBack at h
  split at h
  next estimate hestimate =>
    obtain ⟨lowered, hlowered, h⟩ := bind_eq_ok_iff.mp h
    cases h
    exact Or.inr ⟨estimate, lowered, hestimate, hlowered, rfl⟩
  next hnone =>
    cases h
    exact Or.inl ⟨hnone, rfl⟩

theorem isSome_of_update (he : e.estimate.isSome)
    (h : e.update bytes duration mode target lossRate = .ok (growth, e')) : e'.estimate.isSome := by
  rcases update_eq_ok h with ⟨-, rate, rfl⟩ | ⟨-, rate, blended, rfl, -⟩
  · exact he
  · rfl

theorem isSome_of_rollBack (he : e.estimate.isSome) {difference : DataRate}
    (h : e.rollBack difference = .ok e') : e'.estimate.isSome := by
  rcases rollBack_eq_ok h with ⟨-, rfl⟩ | ⟨estimate, lowered, -, -, rfl⟩
  · exact he
  · rfl

/-! ### Growth and its roll back -/

variable {before : DataRate} {m : Int}

/-- From an estimate within the bounds, an update answers exactly how far the estimate moves. -/
theorem update_moves (hbefore : e.estimate = some before) (hm : before.toInt = .ok m)
    (hmin : 0 < e.minBitrate) (hordered : e.minBitrate ≤ e.maxBitrate)
    (hmax : e.maxBitrate.isFinite)
    (h : e.update bytes duration mode target lossRate = .ok (growth, e')) :
    ∃ learned n, e'.estimate = some learned ∧ learned.toInt = .ok n ∧
      growth.toInt = .ok (n - m) := by
  rcases update_eq_ok h with ⟨rfl, rate, rfl⟩ | ⟨-, rate, blended, rfl, hgrowth⟩
  · refine ⟨before, m, hbefore, hm, ?_⟩
    rw [Int.sub_self]
    rfl
  · obtain ⟨n, hn⟩ := (Quantity.within_clamp blended hordered).exists_toInt hmin hmax
    rw [hbefore, Option.getD_some, Quantity.sub_eq_ok_iff hn hm] at hgrowth
    exact ⟨_, n, rfl, hn, hgrowth⟩

theorem rollBack_restores {learned : DataRate} {n : Int} (hlearned : e.estimate = some learned)
    (hn : learned.toInt = .ok n) (hgrowth : growth.toInt = .ok (n - m))
    (hm : before.toInt = .ok m) (hwithin : before.Within e.minBitrate e.maxBitrate)
    (h : e.rollBack growth = .ok e') : e'.estimate = some before := by
  rcases rollBack_eq_ok h with ⟨hnone, -⟩ | ⟨estimate, lowered, hestimate, hlowered, rfl⟩
  · rw [hlearned] at hnone
    cases hnone
  · obtain rfl : learned = estimate := Option.some.inj (hlearned.symm.trans hestimate)
    rw [Quantity.sub_eq_ok_iff hn hgrowth, Int.sub_sub_self] at hlowered
    rw [Quantity.eq_of_toInt hlowered hm, Quantity.clamp_of_within hwithin]

end Congestion.BandwidthEstimator
