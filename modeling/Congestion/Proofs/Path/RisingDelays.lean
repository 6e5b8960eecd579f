import Congestion.Path.DelayTrend
import Congestion.Proofs.Units.Amounts
import Mathlib.Algebra.Order.Group.Int
import Mathlib.Tactic.Common
import Mathlib.Tactic.IntervalCases

/-!
# Delays that keep rising

A trend keeps a floor, a count and a start. Of a sequence of updates since it was created or reset,
`floorAt` is the floor that update `i` finds, and `RiseStart` tells the first update of the unbroken
block of rising ones that ends with update `i`. `Follows` is what a trend holds of this history: its
count is the length of the block so far, and its start the end of the period of the first update in
it. One update keeps this (`Follows.update`), by `Follows.rise` or `Follows.fall`, and so does a
history of them (`follows_after`).

The milliseconds of known delays are so far within the words that raising the floor meets no overflow
(`raise_eq_ok`), and the floor is never left above the delay (`nextFloor_le`). So an update answers
unless it is rising and the time since its block began is beyond the words, and it tells this time
once the block is long enough (`update_tells_rise`). Such a time is a fault even where the block is
too short to be told of (`update_faults_shortRise`).
-/

set_option autoImplicit false
set_option relaxedAutoImplicit false

namespace Congestion

namespace DelayTrend

/-! ### The floor -/

/-- The floor after a delay. -/
def nextFloor (floor delay : Int) : Int :=
  if floor < delay then (85 * floor + 15 * delay).tdiv 100 else delay

theorem nextFloor_le (floor delay : Int) : nextFloor floor delay ≤ delay := by
  have hquotient := Int.mul_tdiv_add_tmod (85 * floor + 15 * delay) 100
  have hbelow := Int.lt_tmod_of_pos (85 * floor + 15 * delay) (b := 100) (by decide)
  unfold nextFloor
  split <;> omega

theorem nextFloor_nonneg {floor delay : Int} (hfloor : 0 ≤ floor) (hdelay : 0 ≤ delay) :
    0 ≤ nextFloor floor delay := by
  unfold nextFloor
  split
  · exact Int.tdiv_nonneg (by omega) (by decide)
  · exact hdelay

theorem neg_le_nextFloor {bound floor delay : Int} (hfloor : -bound ≤ floor)
    (hdelay : -bound ≤ delay) : -bound ≤ nextFloor floor delay := by
  have hquotient := Int.mul_tdiv_add_tmod (85 * floor + 15 * delay) 100
  have habove := Int.tmod_lt_of_pos (85 * floor + 15 * delay) (b := 100) (by decide)
  unfold nextFloor
  split <;> omega

/-- The floor that delay `i` is compared with. -/
def floorAt (delay : ℕ → ℤ) : ℕ → ℤ
  | 0 => 0
  | i + 1 => nextFloor (floorAt delay i) (delay i)

/-- Update `i` is rising. -/
def Rising (delay : ℕ → ℤ) (i : ℕ) : Prop := floorAt delay i < delay i

instance (delay : ℕ → ℤ) (i : ℕ) : Decidable (Rising delay i) :=
  inferInstanceAs (Decidable (floorAt delay i < delay i))

variable {delay stop : ℕ → ℤ} {i n s : ℕ}

theorem floorAt_nonneg (hdelay : ∀ j < n, 0 ≤ delay j) : 0 ≤ floorAt delay n := by
  induction n with
  | zero => exact Int.le_refl 0
  | succ n ih =>
    exact nextFloor_nonneg (ih fun j hj ↦ hdelay j (by omega)) (hdelay n (by omega))

theorem floorAt_bounds {bound : ℤ} (hbound : 0 ≤ bound)
    (hdelay : ∀ j < n, -bound ≤ delay j ∧ delay j ≤ bound) :
    -bound ≤ floorAt delay n ∧ floorAt delay n ≤ bound := by
  induction n with
  | zero => exact ⟨Int.neg_nonpos_of_nonneg hbound, hbound⟩
  | succ n ih =>
    obtain ⟨hlower, hupper⟩ := hdelay n (by omega)
    exact ⟨neg_le_nextFloor (ih fun j hj ↦ hdelay j (by omega)).1 hlower,
      (nextFloor_le _ _).trans hupper⟩

/-- No overflow as long as both are milliseconds of known times. -/
theorem raise_eq_ok {floor delay : Int}
    (hfloor : -9223372036854776 ≤ floor ∧ floor ≤ 9223372036854776)
    (hdelay : -9223372036854776 ≤ delay ∧ delay ≤ 9223372036854776) :
    raise floor delay = .ok ((85 * floor + 15 * delay).tdiv 100) := by
  refine bind_eq_ok_iff.mpr ⟨floor * 85, signed64_eq_ok_iff.mpr (by omega), ?_⟩
  refine bind_eq_ok_iff.mpr ⟨delay * 15, signed64_eq_ok_iff.mpr (by omega), ?_⟩
  refine bind_eq_ok_iff.mpr ⟨floor * 85 + delay * 15, signed64_eq_ok_iff.mpr (by omega), ?_⟩
  rw [Int.mul_comm floor, Int.mul_comm delay]
  rfl

/-! ### Updates -/

variable {t t' : DelayTrend} {queueDelay answer : Duration} {periodEnd now : Int}

theorem update_of_le (hnow : queueDelay.millis = .ok now) (h : now ≤ t.floor) :
    t.update queueDelay periodEnd = .ok (0, { t with count := 0, start := 0, floor := now }) := by
  rw [update, hnow]
  exact if_pos h

theorem update_of_lt (hnow : queueDelay.millis = .ok now) (h : t.floor < now)
    (hfloor : -9223372036854776 ≤ t.floor ∧ t.floor ≤ 9223372036854776)
    (hcount : t.count + 1 < 2 ^ 32) {start : Int}
    (hstart : start = if t.count = 0 then periodEnd else t.start) :
    t.update queueDelay periodEnd = do
      let span ← Duration.ofMillis (periodEnd - start)
      return (if t.minCount ≤ t.count + 1 ∧ t.minDuration ≤ span then span else 0,
        { t with count := t.count + 1, start, floor := nextFloor t.floor now }) := by
  have hraised := raise_eq_ok hfloor (Quantity.millis_bounds hnow)
  have hcounted : unsigned32 (t.count + 1) = .ok (t.count + 1) :=
    unsigned32_eq_ok_iff.mpr ⟨rfl, by omega⟩
  have hfirst : (if t.count + 1 = 1 then periodEnd else t.start) = start := by
    rw [hstart]
    simp only [Nat.add_eq_right]
  rw [← Duration.ofMillis_signed64, nextFloor, if_pos h]
  unfold update
  simp only [hnow, hcounted, hraised, hfirst, bind, Except.bind, if_neg (Int.not_le.mpr h)]
  cases signed64 (periodEnd - start) <;> rfl

/-! ### The block of rising updates -/

/-- The unbroken block of rising updates that ends with update `i` begins with update `s`. -/
structure RiseStart (delay : ℕ → ℤ) (s i : ℕ) : Prop where
  le : s ≤ i
  rising : ∀ j, s ≤ j → j ≤ i → Rising delay j
  first : s = 0 ∨ ¬Rising delay (s - 1)

theorem RiseStart.eq {s' : ℕ} (h : RiseStart delay s i) (h' : RiseStart delay s' i) : s = s' := by
  wlog hlt : s < s' generalizing s s'
  · obtain heq | hgt := Nat.eq_or_lt_of_le (Nat.not_lt.mp hlt)
    · exact heq.symm
    · exact (this h' h hgt).symm
  have hle := h'.le
  obtain hzero | hnot := h'.first
  · omega
  · exact absurd (h.rising (s' - 1) (by omega) (by omega)) hnot

/-- What a trend holds after `n` updates since the trend `t₀` was created or reset. -/
structure Follows (t₀ : DelayTrend) (delay stop : ℕ → ℤ) (n : ℕ) (t : DelayTrend) : Prop where
  minCount_eq : t.minCount = t₀.minCount
  minDuration_eq : t.minDuration = t₀.minDuration
  floor_eq : t.floor = floorAt delay n
  count_le : t.count ≤ n
  rising : ∀ j, n - t.count ≤ j → j < n → Rising delay j
  first : t.count = n ∨ ¬Rising delay (n - t.count - 1)
  start_eq : t.count ≠ 0 → t.start = stop (n - t.count)

variable {t₀ : DelayTrend}

theorem follows_reset (t₀ : DelayTrend) (delay stop : ℕ → ℤ) :
    Follows t₀ delay stop 0 t₀.reset where
  minCount_eq := rfl
  minDuration_eq := rfl
  floor_eq := rfl
  count_le := Nat.le_refl 0
  rising _ _ hj := absurd hj (Nat.not_lt_zero _)
  first := .inl rfl
  start_eq h := absurd rfl h

theorem Follows.riseStart (ht : Follows t₀ delay stop n t) (hrising : Rising delay n) :
    RiseStart delay (n - t.count) n where
  le := Nat.sub_le _ _
  rising j hj hjn := by
    obtain rfl | hlt := Nat.eq_or_lt_of_le hjn
    · exact hrising
    · exact ht.rising j hj hlt
  first := ht.first.imp_left fun hall ↦ by omega

/-- A delay that is not above the floor ends the block. -/
theorem Follows.fall (ht : Follows t₀ delay stop n t) (hrising : ¬Rising delay n) :
    Follows t₀ delay stop (n + 1) { t with count := 0, start := 0, floor := delay n } where
  minCount_eq := ht.minCount_eq
  minDuration_eq := ht.minDuration_eq
  floor_eq := (if_neg hrising).symm
  count_le := Nat.zero_le _
  rising _ hj hjn := absurd hjn (Nat.not_lt.mpr hj)
  first := .inr hrising
  start_eq h := absurd rfl h

/-- One that is above it makes the block longer, and leaves its first update. -/
theorem Follows.rise (ht : Follows t₀ delay stop n t) (hrising : Rising delay n) :
    Follows t₀ delay stop (n + 1)
      { t with count := t.count + 1, start := stop (n - t.count), floor := floorAt delay (n + 1) } :=
  have hlength : n + 1 - (t.count + 1) = n - t.count := Nat.add_sub_add_right n 1 t.count
  { minCount_eq := ht.minCount_eq
    minDuration_eq := ht.minDuration_eq
    floor_eq := rfl
    count_le := Nat.succ_le_succ ht.count_le
    rising j hj hjn := (ht.riseStart hrising).rising j (hlength ▸ hj) (Nat.le_of_lt_succ hjn)
    first := by
      rw [hlength]
      exact ht.first.imp_left (congrArg (· + 1))
    start_eq _ := congrArg stop hlength.symm }

variable {queueDelay : ℕ → Duration}

theorem Follows.update_of_not_rising (ht : Follows t₀ delay stop n t)
    (hnow : (queueDelay n).millis = .ok (delay n)) (hrising : ¬Rising delay n) :
    t.update (queueDelay n) (stop n) =
      .ok (0, { t with count := 0, start := 0, floor := delay n }) :=
  update_of_le hnow (ht.floor_eq ▸ Int.not_lt.mp hrising)

theorem Follows.update_of_rising (ht : Follows t₀ delay stop n t)
    (hdelay : ∀ j ≤ n, (queueDelay j).millis = .ok (delay j)) (hn : n + 1 < 2 ^ 32)
    (hrising : Rising delay n) :
    t.update (queueDelay n) (stop n) = do
      let span ← Duration.ofMillis (stop n - stop (n - t.count))
      return (if t₀.minCount ≤ t.count + 1 ∧ t₀.minDuration ≤ span then span else 0,
        { t with
          count := t.count + 1, start := stop (n - t.count), floor := floorAt delay (n + 1) }) := by
  have hfloor := floorAt_bounds (n := n) (by decide) fun j hj ↦
    Quantity.millis_bounds (hdelay j hj.le)
  have hcount := ht.count_le
  rw [← ht.floor_eq] at hfloor
  rw [← ht.minCount_eq, ← ht.minDuration_eq, floorAt, ← ht.floor_eq]
  refine update_of_lt (hdelay n n.le_refl) (ht.floor_eq ▸ hrising) hfloor (by omega) ?_
  split
  next hzero => rw [hzero, Nat.sub_zero]
  next hsome => exact (ht.start_eq hsome).symm

/-! ### Histories of updates -/

/-- The trend after the first `n` updates since it was created or reset. -/
def after (t : DelayTrend) (queueDelay : ℕ → Duration) (stop : ℕ → ℤ) : ℕ → Checked DelayTrend
  | 0 => return t.reset
  | n + 1 => do
    let t ← t.after queueDelay stop n
    return (← t.update (queueDelay n) (stop n)).2

/-- Update `j` does not fault for the time since its block began. -/
def Spans (delay stop : ℕ → ℤ) (j : ℕ) : Prop :=
  ∀ s, RiseStart delay s j → ∃ span, Duration.ofMillis (stop j - stop s) = .ok span

theorem Follows.update (ht : Follows t₀ delay stop n t)
    (hdelay : ∀ j ≤ n, (queueDelay j).millis = .ok (delay j)) (hn : n + 1 < 2 ^ 32)
    (h : t.update (queueDelay n) (stop n) = .ok (answer, t')) :
    Follows t₀ delay stop (n + 1) t' := by
  by_cases hrising : Rising delay n
  case pos =>
    rw [ht.update_of_rising hdelay hn hrising] at h
    obtain ⟨span, -, h⟩ := bind_eq_ok_iff.mp h
    cases h
    exact ht.rise hrising
  case neg =>
    rw [ht.update_of_not_rising (hdelay n n.le_refl) hrising] at h
    cases h
    exact ht.fall hrising

theorem Follows.exists_update (ht : Follows t₀ delay stop n t)
    (hdelay : ∀ j ≤ n, (queueDelay j).millis = .ok (delay j)) (hn : n + 1 < 2 ^ 32)
    (hspans : Spans delay stop n) :
    ∃ answer t', t.update (queueDelay n) (stop n) = .ok (answer, t') := by
  by_cases hrising : Rising delay n
  case pos =>
    obtain ⟨span, hspan⟩ := hspans _ (ht.riseStart hrising)
    rw [ht.update_of_rising hdelay hn hrising, hspan]
    exact ⟨_, _, rfl⟩
  case neg => exact ⟨_, _, ht.update_of_not_rising (hdelay n n.le_refl) hrising⟩

theorem follows_after (t : DelayTrend) (hn : n < 2 ^ 32)
    (hdelay : ∀ j < n, (queueDelay j).millis = .ok (delay j))
    (hspans : ∀ j < n, Spans delay stop j) :
    ∃ tₙ, t.after queueDelay stop n = .ok tₙ ∧ Follows t delay stop n tₙ := by
  induction n with
  | zero => exact ⟨_, rfl, follows_reset t delay stop⟩
  | succ n ih =>
    obtain ⟨tₙ, hafter, htₙ⟩ := ih (by omega) (fun j hj ↦ hdelay j (by omega))
      fun j hj ↦ hspans j (by omega)
    have hdelay : ∀ j ≤ n, (queueDelay j).millis = .ok (delay j) := fun j hj ↦
      hdelay j (Nat.lt_succ_of_le hj)
    obtain ⟨answer, t', h⟩ := htₙ.exists_update hdelay hn (hspans n n.lt_succ_self)
    exact ⟨t', bind_eq_ok_iff.mpr ⟨tₙ, hafter, map_eq_ok_iff.mpr ⟨_, h, rfl⟩⟩,
      htₙ.update hdelay hn h⟩

/-- Of fewer than 2³² updates of known delays since a trend was created or reset, let the earlier
ones not fault for the time since their block began. Then update `i` finds the floor of its history,
and raising this meets no overflow. It answers zero unless it is rising. If it is, its block begins
with some update `s`, and it answers the time since the end of that period if the block has enough
updates and this time is long enough; it faults just where this time is beyond the words. The floor
that it leaves is not above the delay, nor below zero unless some delay is. -/
theorem update_tells_rise (t : DelayTrend) (hi : i + 1 < 2 ^ 32)
    (hdelay : ∀ j ≤ i, (queueDelay j).millis = .ok (delay j))
    (hspans : ∀ j < i, Spans delay stop j) : ∃ tᵢ, t.after queueDelay stop i = .ok tᵢ ∧
    tᵢ.floor = floorAt delay i ∧
    raise tᵢ.floor (delay i) = .ok ((85 * floorAt delay i + 15 * delay i).tdiv 100) ∧
    (¬Rising delay i → ∃ t', tᵢ.update (queueDelay i) (stop i) = .ok (0, t')) ∧
    (Rising delay i → ∃ s, RiseStart delay s i) ∧
    (∀ s, RiseStart delay s i → Prod.fst <$> tᵢ.update (queueDelay i) (stop i) = do
      let span ← Duration.ofMillis (stop i - stop s)
      return if t.minCount ≤ i - s + 1 ∧ t.minDuration ≤ span then span else 0) ∧
    (∀ answer t', tᵢ.update (queueDelay i) (stop i) = .ok (answer, t') →
      t'.floor = floorAt delay (i + 1)) ∧
    floorAt delay (i + 1) ≤ delay i ∧
    ((∀ j ≤ i, 0 ≤ delay j) → 0 ≤ floorAt delay (i + 1)) := by
  obtain ⟨tᵢ, hafter, htᵢ⟩ := follows_after t (by omega) (fun j hj ↦ hdelay j hj.le) hspans
  have hbounds := floorAt_bounds (n := i) (by decide) fun j hj ↦
    Quantity.millis_bounds (hdelay j hj.le)
  refine ⟨tᵢ, hafter, htᵢ.floor_eq, ?raised, ?falling, ?begun, ?told, ?left, nextFloor_le _ _,
    fun hdelays ↦ floorAt_nonneg fun j hj ↦ hdelays j (Nat.le_of_lt_succ hj)⟩
  case raised =>
    rw [htᵢ.floor_eq]
    exact raise_eq_ok hbounds (Quantity.millis_bounds (hdelay i i.le_refl))
  case falling => exact fun hrising ↦ ⟨_, htᵢ.update_of_not_rising (hdelay i i.le_refl) hrising⟩
  case begun => exact fun hrising ↦ ⟨_, htᵢ.riseStart hrising⟩
  case told =>
    intro s hs
    have hrising := hs.rising i hs.le i.le_refl
    have hcount := htᵢ.count_le
    obtain rfl := (htᵢ.riseStart hrising).eq hs
    rw [htᵢ.update_of_rising hdelay hi hrising, Nat.sub_sub_self hcount, map_bind]
    rfl
  case left => exact fun answer t' h ↦ (htᵢ.update hdelay hi h).floor_eq

/-- Five delays, which fall back once and rise from update 2 on. -/
def fallenBack (j : ℕ) : Duration :=
  [.exactly 5000, 0, .exactly 10000, .exactly 20000, .exactly 30000].getD j 0

/-- Their milliseconds. -/
def fallenBackMillis (j : ℕ) : ℤ := [5, 0, 10, 20, 30].getD j 0

/-- Three updates and half a second are enough to tell update 4 of. -/
theorem update_tells_rise_fallenBack : ∃ t,
    after { minCount := 3, minDuration := .exactly 500000 } fallenBack (250 * ·) 4 = .ok t ∧
    RiseStart fallenBackMillis 2 4 ∧
    Prod.fst <$> t.update (fallenBack 4) 1000 = .ok (.exactly 500000) := by
  have hstart : RiseStart fallenBackMillis 2 4 := by
    refine ⟨by decide, fun j hj hji ↦ ?_, .inr (by decide)⟩
    interval_cases j <;> decide
  have hdelay : ∀ j ≤ 4, (fallenBack j).millis = .ok (fallenBackMillis j) := by
    intro j hj
    interval_cases j <;> rfl
  have hspans : ∀ j < 4, Spans fallenBackMillis (250 * ·) j := by
    intro j hj s hs
    have hle := hs.le
    interval_cases j <;> interval_cases s <;> exact ⟨_, rfl⟩
  obtain ⟨t, hafter, -, -, -, -, htold, -⟩ :=
    update_tells_rise { minCount := 3, minDuration := .exactly 500000 } (by decide) hdelay hspans
  exact ⟨t, hafter, hstart, htold 2 hstart⟩

/-- Two updates are too few to be told of, and the end of the second one is a fault. -/
theorem update_faults_shortRise : ∃ t,
    after { minCount := 3, minDuration := 0 } (fun _ ↦ .exactly 10000)
      (0x7fffffffffffffff * ·) 1 = .ok t ∧
    RiseStart (fun j ↦ if j = 0 then 10 else 20) 0 1 ∧
    t.update (.exactly 20000) 0x7fffffffffffffff = .error .overflow := by
  refine ⟨_, rfl, ⟨by decide, fun j _ hji ↦ ?_, .inl rfl⟩, rfl⟩
  interval_cases j <;> decide

end DelayTrend

end Congestion
