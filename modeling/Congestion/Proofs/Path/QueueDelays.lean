import Congestion.Path.QueueDelay
import Congestion.Proofs.Checked

/-!
# Updates of the queue delay

`QueueDelayEstimator.Update` is everything that an update computes, and `update_eq_ok_iff` says that
an update answers exactly when all of it can be computed. Of the samples an update without a
bandwidth estimate sees the delays measured on them alone. Each sample is measured against the base
delay that it may have lowered (`measureNext_eq_ok`).
-/

set_option autoImplicit false
set_option relaxedAutoImplicit false

namespace Congestion.QueueDelayEstimator

/-- The least delay measured in the period, or else of the window, and the window with it. -/
def observe (e : QueueDelayEstimator) (stop : Int) (kept : List WindowEntry)
    (measured : List Int) : Checked (Duration × List WindowEntry) :=
  match measured.min? with
  | some least => (fun latest ↦ (latest, kept ++ [⟨latest, stop⟩])) <$> Duration.ofMillis least
  | none => pure ((kept.map WindowEntry.delay).min?.getD e.lastDelay, kept)

def leastOf (entries : List WindowEntry) (latest : Duration) : Duration :=
  (entries.map WindowEntry.delay).min?.getD latest

def rangeOf (entries : List WindowEntry) (latest : Duration) : Checked Duration :=
  match (entries.map WindowEntry.delay).max? with
  | some most => most - leastOf entries latest
  | none => pure 0

/-- The delay beyond the virtual queue, smoothed. -/
def smoothed (e : QueueDelayEstimator) (latest queueTime : Int) : Float :=
  smooth e.smoothing e.crossTraffic (Extended.floatOfWord (latest - queueTime.tdiv 1000))

variable {e e' : QueueDelayEstimator} {period : Period} {samples : List DelaySample}
  {bandwidth : Option DataRate}

theorem update_eq (e : QueueDelayEstimator) (period : Period) (samples : List DelaySample)
    (bandwidth : Option DataRate) : e.update period samples bandwidth = do
      let kept ← expire e.window period.stop e.entries
      let (baseDelay, reversed) ← measure samples e.baseDelay
      let (latest, entries) ← e.observe period.stop kept reversed.reverse
      let windowRange ← rangeOf entries latest
      let virtualQueue ←
        e.virtualQueue.update samples reversed.reverse latest e.lastDelay bandwidth
      let millis ← latest.millis
      let micros ← virtualQueue.queueTime.micros
      let crossTraffic ← Duration.ofMillisFloat (e.smoothed millis micros)
      return (
        { latest, windowMin := leastOf entries latest, windowRange, crossTraffic },
        { e with baseDelay, entries, lastDelay := latest, crossTraffic := e.smoothed millis micros
                 virtualQueue }) := by
  unfold update
  refine bind_congr fun kept ↦ bind_congr fun measured ↦ ?_
  obtain ⟨baseDelay, reversed⟩ := measured
  unfold observe rangeOf
  dsimp only
  cases reversed.reverse.min? with
  | none =>
    simp only [pure_bind]
    cases (kept.map WindowEntry.delay).max? <;> rfl
  | some least =>
    simp only [pure_bind, map_eq_pure_bind, bind_assoc]
    refine bind_congr fun latest ↦ ?_
    cases ((kept ++ [(⟨latest, period.stop⟩ : WindowEntry)]).map WindowEntry.delay).max? <;> rfl

/-- Everything that an update computes. -/
structure Update (e : QueueDelayEstimator) (period : Period) (samples : List DelaySample)
    (bandwidth : Option DataRate) where
  kept : List WindowEntry
  kept_eq : expire e.window period.stop e.entries = .ok kept
  baseDelay : Option Int
  reversed : List Int
  measured_eq : measure samples e.baseDelay = .ok (baseDelay, reversed)
  latest : Duration
  entries : List WindowEntry
  latest_eq : e.observe period.stop kept reversed.reverse = .ok (latest, entries)
  windowRange : Duration
  windowRange_eq : rangeOf entries latest = .ok windowRange
  virtualQueue : VirtualQueue
  virtualQueue_eq : e.virtualQueue.update samples reversed.reverse latest e.lastDelay bandwidth =
    .ok virtualQueue
  millis : Int
  millis_eq : latest.millis = .ok millis
  micros : Int
  micros_eq : virtualQueue.queueTime.micros = .ok micros
  crossTraffic : Duration
  crossTraffic_eq : Duration.ofMillisFloat (e.smoothed millis micros) = .ok crossTraffic

namespace Update

def told (u : e.Update period samples bandwidth) : QueueDelay :=
  { latest := u.latest, windowMin := leastOf u.entries u.latest, windowRange := u.windowRange
    crossTraffic := u.crossTraffic }

/-- The estimator after the update. -/
def result (u : e.Update period samples bandwidth) : QueueDelayEstimator :=
  { e with
    baseDelay := u.baseDelay
    entries := u.entries
    lastDelay := u.latest
    crossTraffic := e.smoothed u.millis u.micros
    virtualQueue := u.virtualQueue }

end Update

theorem update_eq_ok_iff {delay : QueueDelay} :
    e.update period samples bandwidth = .ok (delay, e') ↔
    ∃ u : e.Update period samples bandwidth, delay = u.told ∧ e' = u.result := by
  rw [update_eq]
  constructor
  · intro h
    obtain ⟨kept, kept_eq, h⟩ := bind_eq_ok_iff.mp h
    obtain ⟨⟨baseDelay, reversed⟩, measured_eq, h⟩ := bind_eq_ok_iff.mp h
    obtain ⟨⟨latest, entries⟩, latest_eq, h⟩ := bind_eq_ok_iff.mp h
    obtain ⟨windowRange, windowRange_eq, h⟩ := bind_eq_ok_iff.mp h
    obtain ⟨virtualQueue, virtualQueue_eq, h⟩ := bind_eq_ok_iff.mp h
    obtain ⟨millis, millis_eq, h⟩ := bind_eq_ok_iff.mp h
    obtain ⟨micros, micros_eq, h⟩ := bind_eq_ok_iff.mp h
    obtain ⟨crossTraffic, crossTraffic_eq, h⟩ := bind_eq_ok_iff.mp h
    cases h
    exact ⟨⟨kept, kept_eq, baseDelay, reversed, measured_eq, latest, entries, latest_eq,
      windowRange, windowRange_eq, virtualQueue, virtualQueue_eq, millis, millis_eq, micros,
      micros_eq, crossTraffic, crossTraffic_eq⟩, rfl, rfl⟩
  · rintro ⟨u, rfl, rfl⟩
    refine bind_eq_ok_iff.mpr ⟨_, u.kept_eq, bind_eq_ok_iff.mpr ⟨_, u.measured_eq, ?_⟩⟩
    refine bind_eq_ok_iff.mpr ⟨_, u.latest_eq, bind_eq_ok_iff.mpr ⟨_, u.windowRange_eq, ?_⟩⟩
    refine bind_eq_ok_iff.mpr ⟨_, u.virtualQueue_eq, bind_eq_ok_iff.mpr ⟨_, u.millis_eq, ?_⟩⟩
    exact bind_eq_ok_iff.mpr ⟨_, u.micros_eq, bind_eq_ok_iff.mpr ⟨_, u.crossTraffic_eq, rfl⟩⟩

/-! ### Measuring -/

def leastWith (raw : Int) : Option Int → Int
  | some base => if raw < base then raw else base
  | none => raw

theorem leastWith_le (raw : Int) (base : Option Int) : leastWith raw base ≤ raw := by
  cases base with
  | none => exact Int.le_refl raw
  | some base =>
    unfold leastWith
    split <;> omega

/-- One more sample. -/
def measureNext (measured : Option Int × List Int) (s : DelaySample) :
    Checked (Option Int × List Int) := do
  let raw ← s.rawDelay
  return (some (leastWith raw measured.1),
    (← signed64 (raw - leastWith raw measured.1)) :: measured.2)

theorem measure_eq (samples : List DelaySample) (base : Option Int) :
    measure samples base = samples.foldlM measureNext (base, []) := rfl

/-- No delay that is measured is negative. -/
theorem measureNext_eq_ok {s : DelaySample} {measured measured' : Option Int × List Int}
    (h : measureNext measured s = .ok measured') : ∃ raw, s.rawDelay = .ok raw ∧
      0 ≤ raw - leastWith raw measured.1 ∧
      measured' = (some (leastWith raw measured.1),
        (raw - leastWith raw measured.1) :: measured.2) := by
  obtain ⟨raw, hraw, h⟩ := bind_eq_ok_iff.mp h
  obtain ⟨beyond, hbeyond, h⟩ := bind_eq_ok_iff.mp h
  obtain ⟨rfl, -⟩ := signed64_eq_ok_iff.mp hbeyond
  cases h
  exact ⟨raw, hraw, Int.sub_nonneg_of_le (leastWith_le raw measured.1), rfl⟩

end Congestion.QueueDelayEstimator
