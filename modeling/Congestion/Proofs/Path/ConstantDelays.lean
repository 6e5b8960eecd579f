import Congestion.Proofs.Path.Meters
import Congestion.Proofs.Path.RisingDelays
import Mathlib.Data.Int.ConditionallyCompleteOrder
import Mathlib.Order.Iterate

/-!
# Delays that stay the same

A delay that no longer changes is not rising any more, and yet a trend tells of a rise as long as its
floor lies below it. The floor goes up to a positive delay but never reaches it from below
(`nextFloor_lt`). Only a negative floor under a delay of zero gets there, within `updatesToZero`
updates (`iterate_nextFloor_zero`).

So after enough updates with one delay a trend is silent just when the delay is zero or the floor was
not below it to begin with (`falls_silent_iff`). Otherwise each update finds the floor below the
delay (`Under.update`), and once there are enough of them, each tells of a longer rise than the one
before it (`Under.told_eq`).
-/

set_option autoImplicit false
set_option relaxedAutoImplicit false

namespace Congestion

namespace DelayTrend

def meter : Meter DelayTrend (Duration × ℤ) Duration where
  update t input := t.update input.1 input.2
  reset := reset

/-! ### The floor under one delay -/

theorem nextFloor_of_le {floor delay : ℤ} (h : delay ≤ floor) : nextFloor floor delay = delay :=
  if_neg (Int.not_lt.mpr h)

/-- The 15 hundredths of what is left to a positive delay are cut off before they reach it. -/
theorem nextFloor_lt {floor delay : ℤ} (hdelay : 0 < delay) (h : floor < delay) :
    nextFloor floor delay < delay := by
  have hquotient := Int.mul_tdiv_add_tmod (85 * floor + 15 * delay) 100
  have hbelow := Int.lt_tmod_of_pos (85 * floor + 15 * delay) (b := 100) (by decide)
  have hsign : 85 * floor + 15 * delay < 0 ∨ 0 ≤ (85 * floor + 15 * delay).tmod 100 :=
    (lt_or_ge _ 0).imp_right fun hnonneg ↦ Int.tmod_nonneg 100 hnonneg
  rw [nextFloor, if_pos h]
  omega

/-- A floor that lies some depth below zero, after a delay of zero. -/
def nextDepth (depth : ℕ) : ℕ := 85 * depth / 100

theorem nextDepth_mono : Monotone nextDepth := fun _ _ h ↦
  Nat.div_le_div_right (Nat.mul_le_mul_left 85 h)

theorem nextFloor_neg (depth : ℕ) : nextFloor (-depth : ℤ) 0 = -(nextDepth depth : ℤ) := by
  unfold nextFloor nextDepth
  split
  next =>
    rw [Int.mul_neg, Int.mul_zero, Int.add_zero, Int.neg_tdiv,
      Int.tdiv_eq_ediv_of_nonneg (by omega)]
    norm_cast
  next h => omega

/-- So many updates with a delay of zero bring the floor up to it from anywhere. -/
def updatesToZero : ℕ := 218

theorem iterate_nextDepth {depth n : ℕ} (hdepth : depth ≤ 9223372036854776)
    (hn : updatesToZero ≤ n) : nextDepth^[n] depth = 0 := by
  have hdeepest : nextDepth^[updatesToZero] 9223372036854776 = 0 := by decide +kernel
  have hreached : nextDepth^[updatesToZero] depth = 0 :=
    Nat.le_zero.mp ((nextDepth_mono.iterate updatesToZero hdepth).trans_eq hdeepest)
  rw [← Nat.sub_add_cancel hn, Function.iterate_add_apply, hreached]
  exact Function.iterate_fixed rfl _

theorem iterate_nextFloor_zero {floor : ℤ} {n : ℕ} (hfloor : -9223372036854776 ≤ floor)
    (hn : updatesToZero ≤ n) : 0 ≤ (nextFloor · 0)^[n] floor := by
  obtain hnonneg | hneg := le_or_gt 0 floor
  · exact Function.Iterate.rec (0 ≤ ·) hnonneg (fun _ h ↦ nextFloor_nonneg h (Int.le_refl 0)) n
  · obtain ⟨depth, hdepth⟩ := Int.eq_ofNat_of_zero_le (Int.neg_nonneg_of_nonpos hneg.le)
    obtain rfl : floor = -(depth : ℤ) := by omega
    have hdown : Function.Semiconj (fun depth : ℕ ↦ -(depth : ℤ)) nextDepth (nextFloor · 0) :=
      fun depth ↦ (nextFloor_neg depth).symm
    have hiterate := (hdown.iterate_right n).eq depth
    rw [← hiterate, iterate_nextDepth (by omega) hn]
    rfl

/-- The floor has caught up with the delay, whatever is still below. -/
theorem le_iterate_nextFloor {floor delay : ℤ} {n : ℕ} (hfloor : -9223372036854776 ≤ floor)
    (hcaught : delay = 0 ∨ delay ≤ floor) (hn : updatesToZero ≤ n) :
    delay ≤ (nextFloor · delay)^[n] floor := by
  obtain rfl | hle := hcaught
  · exact iterate_nextFloor_zero hfloor hn
  · exact Function.Iterate.rec (delay ≤ ·) hle (fun _ h ↦ (nextFloor_of_le h).ge) n

/-! ### Updates in any state -/

variable {t t' tₙ : DelayTrend} {d answer : Duration} {periodEnd δ : ℤ} {stop : ℕ → ℤ} {n : ℕ}

/-- The floor is a number of milliseconds that a time can have. -/
def Leveled (t : DelayTrend) : Prop := -9223372036854776 ≤ t.floor ∧ t.floor ≤ 9223372036854776

theorem floor_of_update (ht : t.Leveled) (hd : d.millis = .ok δ)
    (h : t.update d periodEnd = .ok (answer, t')) : t'.floor = nextFloor t.floor δ := by
  obtain ⟨_, hsame, h⟩ := bind_eq_ok_iff.mp h
  cases hd.symm.trans hsame
  split at h
  next hle =>
    cases h
    exact (nextFloor_of_le hle).symm
  next hlt =>
    obtain ⟨count, -, h⟩ := bind_eq_ok_iff.mp h
    obtain ⟨raised, hraised, h⟩ := bind_eq_ok_iff.mp h
    obtain ⟨past, -, h⟩ := bind_eq_ok_iff.mp h
    obtain ⟨span, -, h⟩ := bind_eq_ok_iff.mp h
    cases h
    rw [raise_eq_ok ht (Quantity.millis_bounds hd)] at hraised
    rw [nextFloor, if_pos (Int.not_le.mp hlt)]
    exact (Except.ok.inj hraised).symm

theorem Leveled.update (ht : t.Leveled) (h : t.update d periodEnd = .ok (answer, t')) :
    t'.Leveled := by
  obtain ⟨δ, hd, -⟩ := bind_eq_ok_iff.mp h
  obtain ⟨hlower, hupper⟩ := Quantity.millis_bounds hd
  rw [Leveled, floor_of_update ht hd h]
  exact ⟨neg_le_nextFloor ht.1 hlower, (nextFloor_le _ _).trans hupper⟩

theorem leveled_reset (t : DelayTrend) : t.reset.Leveled := by
  show -9223372036854776 ≤ (0 : ℤ) ∧ (0 : ℤ) ≤ 9223372036854776
  decide

theorem leveled_of_run {minCount : ℕ} {minDuration : Duration}
    {commands : List (Meter.Command (Duration × ℤ))}
    {past : List (Meter.Reading (Duration × ℤ) Duration)}
    (hrun : meter.run { minCount, minDuration } commands = .ok (past, t)) : t.Leveled :=
  Meter.run_keeps (fun _ t ↦ t.Leveled) (fun _ t _ ↦ leveled_reset t)
    (fun _ _ _ _ _ ht h ↦ ht.update h) (leveled_reset { minCount, minDuration }) hrun

/-! ### One delay again and again -/

/-- The trend after `n` more updates, all with one delay. -/
def repeated (t : DelayTrend) (d : Duration) (stop : ℕ → ℤ) : ℕ → Checked DelayTrend
  | 0 => return t
  | n + 1 => do
    let t ← t.repeated d stop n
    return (← t.update d (stop n)).2

theorem floor_of_repeated (ht : t.Leveled) (hd : d.millis = .ok δ)
    (h : t.repeated d stop n = .ok tₙ) :
    tₙ.Leveled ∧ tₙ.floor = (nextFloor · δ)^[n] t.floor := by
  induction n generalizing tₙ with
  | zero =>
    cases h
    exact ⟨ht, rfl⟩
  | succ n ih =>
    obtain ⟨tₙ, hbefore, h⟩ := bind_eq_ok_iff.mp h
    obtain ⟨⟨answer, t'⟩, hupdate, rfl⟩ := map_eq_ok_iff.mp h
    obtain ⟨hleveled, hfloor⟩ := ih hbefore
    refine ⟨hleveled.update hupdate, ?_⟩
    rw [floor_of_update hleveled hd hupdate, hfloor, Function.iterate_succ_apply']

/-- What one more update with this delay tells. -/
def told (t : DelayTrend) (d : Duration) (stop : ℕ → ℤ) (n : ℕ) : Checked Duration := do
  let t ← t.repeated d stop n
  return (← t.update d (stop n)).1

/-- Some number of updates that the count has room for is enough: from then on no update with this
delay tells of a rise. -/
def FallsSilent (t : DelayTrend) (d : Duration) : Prop :=
  ∃ N, t.count + N + 1 < 2 ^ 32 ∧ ∀ stop : ℕ → ℤ, StrictMono stop → ∀ n ≥ N, ∀ tₙ,
    t.repeated d stop n = .ok tₙ → t.told d stop n = .ok 0

theorem fallsSilent_of_caught (ht : t.Leveled) (hd : d.millis = .ok δ)
    (hroom : t.count + updatesToZero + 1 < 2 ^ 32) (hcaught : δ = 0 ∨ δ ≤ t.floor) :
    t.FallsSilent d := by
  refine ⟨updatesToZero, hroom, fun stop _ n hn tₙ h ↦ ?_⟩
  have hcaught : δ ≤ tₙ.floor :=
    (floor_of_repeated ht hd h).2 ▸ le_iterate_nextFloor ht.1 hcaught hn
  exact bind_eq_ok_iff.mpr ⟨tₙ, h, map_eq_ok_iff.mpr ⟨_, update_of_le hd hcaught, rfl⟩⟩

/-! ### A floor that stays below the delay -/

/-- The end of the period from which on the delay counts as rising. -/
def startOfRise (t : DelayTrend) (stop : ℕ → ℤ) : ℤ := if t.count = 0 then stop 0 else t.start

/-- What a trend holds after `n` updates with a delay above its floor. -/
structure Under (t : DelayTrend) (stop : ℕ → ℤ) (δ : ℤ) (n : ℕ) (tₙ : DelayTrend) : Prop where
  minCount_eq : tₙ.minCount = t.minCount
  minDuration_eq : tₙ.minDuration = t.minDuration
  leveled : tₙ.Leveled
  floor_lt : tₙ.floor < δ
  count_eq : tₙ.count = t.count + n
  start_eq : t.startOfRise stop = if tₙ.count = 0 then stop n else tₙ.start

theorem under_self (ht : t.Leveled) (hlt : t.floor < δ) : Under t stop δ 0 t where
  minCount_eq := rfl
  minDuration_eq := rfl
  leveled := ht
  floor_lt := hlt
  count_eq := rfl
  start_eq := rfl

theorem Under.update_eq (h : Under t stop δ n tₙ) (hd : d.millis = .ok δ)
    (hroom : t.count + n + 1 < 2 ^ 32) : tₙ.update d (stop n) = do
      let span ← Duration.ofMillis (stop n - t.startOfRise stop)
      return (if t.minCount ≤ t.count + n + 1 ∧ t.minDuration ≤ span then span else 0,
        { tₙ with
          count := tₙ.count + 1, start := t.startOfRise stop, floor := nextFloor tₙ.floor δ }) := by
  have hcount : tₙ.count + 1 < 2 ^ 32 := h.count_eq ▸ hroom
  rw [update_of_lt hd h.floor_lt h.leveled hcount h.start_eq, h.minCount_eq, h.minDuration_eq,
    h.count_eq]

theorem Under.update (h : Under t stop δ n tₙ) (hδ : 0 < δ) (hd : d.millis = .ok δ)
    (hroom : t.count + n + 1 < 2 ^ 32) (hupdate : tₙ.update d (stop n) = .ok (answer, t')) :
    Under t stop δ (n + 1) t' := by
  have hleveled := h.leveled.update hupdate
  rw [h.update_eq hd hroom] at hupdate
  obtain ⟨span, -, hupdate⟩ := bind_eq_ok_iff.mp hupdate
  cases hupdate
  exact
    { minCount_eq := h.minCount_eq
      minDuration_eq := h.minDuration_eq
      leveled := hleveled
      floor_lt := nextFloor_lt hδ h.floor_lt
      count_eq := congrArg (· + 1) h.count_eq
      start_eq := rfl }

theorem exists_under (ht : t.Leveled) (hδ : 0 < δ) (hd : d.millis = .ok δ) (hlt : t.floor < δ)
    (hroom : t.count + n < 2 ^ 32)
    (hspans : ∀ k < n, ∃ span, Duration.ofMillis (stop k - t.startOfRise stop) = .ok span) :
    ∃ tₙ, t.repeated d stop n = .ok tₙ ∧ Under t stop δ n tₙ := by
  induction n with
  | zero => exact ⟨t, rfl, under_self ht hlt⟩
  | succ n ih =>
    obtain ⟨tₙ, hbefore, h⟩ := ih (by omega) fun k hk ↦ hspans k (by omega)
    obtain ⟨span, hspan⟩ := hspans n n.lt_succ_self
    have hupdate := h.update_eq hd hroom
    rw [hspan] at hupdate
    exact ⟨_, bind_eq_ok_iff.mpr ⟨tₙ, hbefore, map_eq_ok_iff.mpr ⟨_, hupdate, rfl⟩⟩,
      h.update hδ hd hroom hupdate⟩

theorem told_eq (ht : t.Leveled) (hδ : 0 < δ) (hd : d.millis = .ok δ) (hlt : t.floor < δ)
    (hroom : t.count + n + 1 < 2 ^ 32)
    (hspans : ∀ k < n, ∃ span, Duration.ofMillis (stop k - t.startOfRise stop) = .ok span) :
    t.told d stop n = do
      let span ← Duration.ofMillis (stop n - t.startOfRise stop)
      return if t.minCount ≤ t.count + n + 1 ∧ t.minDuration ≤ span then span else 0 := by
  obtain ⟨tₙ, hrepeated, h⟩ := exists_under ht hδ hd hlt (by omega) hspans
  unfold told
  rw [hrepeated]
  show Prod.fst <$> tₙ.update d (stop n) = _
  rw [h.update_eq hd hroom, map_bind]
  rfl

/-! ### Silence -/

/-- Ends of periods of which the one after `n` others is as late as it can be without a fault. -/
def stretched (start : ℤ) (n k : ℕ) : ℤ := if k = 0 then start else start + 9223372036854775 - n + k

theorem stretched_strictMono (start : ℤ) (hn : n < 2 ^ 32) : StrictMono (stretched start n) := by
  refine strictMono_nat_of_lt_succ fun k ↦ ?_
  unfold stretched
  split <;> split <;> omega

theorem told_stretched (ht : t.Leveled) (hδ : 0 < δ) (hd : d.millis = .ok δ) (hlt : t.floor < δ)
    (hn : 0 < n) (hroom : t.count + n + 1 < 2 ^ 32) (hcount : t.minCount ≤ t.count + n + 1)
    (hduration : t.minDuration ≤ .exactly 9223372036854775000) :
    t.told d (stretched t.start n) n = .ok (.exactly 9223372036854775000) := by
  have hstart : t.startOfRise (stretched t.start n) = t.start := ite_self t.start
  have hlast : stretched t.start n n - t.start = 9223372036854775 := by
    rw [stretched, if_neg hn.ne']
    omega
  have hspan : Duration.ofMillis 9223372036854775 = .ok (.exactly 9223372036854775000) := rfl
  rw [told_eq ht hδ hd hlt hroom, hstart, hlast, hspan]
  · exact congrArg Except.ok (if_pos ⟨hcount, hduration⟩)
  · intro k hk
    rw [hstart]
    refine Duration.exists_ofMillis ?_ ?_ <;> unfold stretched <;> split <;> omega

theorem not_fallsSilent_of_lt (ht : t.Leveled) (hδ : 0 < δ) (hd : d.millis = .ok δ)
    (hlt : t.floor < δ) (hroom : t.count + updatesToZero + 1 < 2 ^ 32)
    (hcount : t.minCount < 2 ^ 32)
    (hduration : t.minDuration ≤ .exactly 9223372036854775000) : ¬t.FallsSilent d := by
  rintro ⟨N, hN, hsilent⟩
  -- the last update that the count has room for
  obtain ⟨n, hn⟩ : ∃ n, t.count + n + 2 = 2 ^ 32 := ⟨2 ^ 32 - 2 - t.count, by omega⟩
  have hpos : 0 < n := by
    unfold updatesToZero at hroom
    omega
  have htold := told_stretched ht hδ hd hlt hpos (by omega) (by omega) hduration
  obtain ⟨tₙ, hrepeated, -⟩ := bind_eq_ok_iff.mp htold
  have hzero := hsilent _ (stretched_strictMono t.start (by omega)) n (by omega) tₙ hrepeated
  cases hzero.symm.trans htold

/-- Of any trend that updates and resets have led to, let the count have room for enough updates, and
let the least count and the least time be ones that a rise can have. After enough updates with one
delay that is not negative it is silent just when the delay is zero or its floor was not below it.
Otherwise every update with this delay tells the time since the rise began, as soon as this and the
count are enough and as long as they are within the words. -/
theorem falls_silent_iff {minCount : ℕ} {minDuration : Duration}
    {commands : List (Meter.Command (Duration × ℤ))}
    {past : List (Meter.Reading (Duration × ℤ) Duration)}
    (hrun : meter.run { minCount, minDuration } commands = .ok (past, t))
    (hnonneg : 0 ≤ d) (hd : d.millis = .ok δ) (hroom : t.count + updatesToZero + 1 < 2 ^ 32)
    (hcount : t.minCount < 2 ^ 32) (hduration : t.minDuration ≤ .exactly 9223372036854775000) :
    (t.FallsSilent d ↔ δ = 0 ∨ δ ≤ t.floor) ∧
    (0 < δ → t.floor < δ → ∀ stop n, t.count + n + 1 < 2 ^ 32 →
      (∀ k < n, ∃ span, Duration.ofMillis (stop k - t.startOfRise stop) = .ok span) →
      t.told d stop n = do
        let span ← Duration.ofMillis (stop n - t.startOfRise stop)
        return if t.minCount ≤ t.count + n + 1 ∧ t.minDuration ≤ span then span else 0) := by
  have ht := leveled_of_run hrun
  refine ⟨⟨fun hsilent ↦ ?_, fallsSilent_of_caught ht hd hroom⟩,
    fun hδ hlt stop n hn hspans ↦ told_eq ht hδ hd hlt hn hspans⟩
  by_contra hbelow
  obtain ⟨hzero, hlt⟩ := not_or.mp hbelow
  have hδ : 0 < δ := lt_of_le_of_ne (Quantity.millis_nonneg hnonneg hd) (Ne.symm hzero)
  exact not_fallsSilent_of_lt ht hδ hd (Int.not_le.mp hlt) hroom hcount hduration hsilent

/-- Two updates with a delay of ten milliseconds. -/
def twoUpdates : List (Meter.Command (Duration × ℤ)) :=
  [.update (.exactly 10000, 0), .update (.exactly 10000, 100)]

/-- They raise the floor to two milliseconds. -/
def lowFloor : DelayTrend :=
  { minCount := 3, minDuration := .exactly 500000, floor := 2, count := 2, start := 0 }

/-- A delay of two is silent after them, and one of ten is not. -/
theorem falls_silent_iff_lowFloor : ∃ past,
    meter.run { minCount := 3, minDuration := .exactly 500000 } twoUpdates = .ok (past, lowFloor) ∧
    lowFloor.FallsSilent (.exactly 2000) ∧ ¬lowFloor.FallsSilent (.exactly 10000) := by
  have hrun : meter.run { minCount := 3, minDuration := .exactly 500000 } twoUpdates =
      .ok ([⟨(.exactly 10000, 0), 0⟩, ⟨(.exactly 10000, 100), 0⟩], lowFloor) := rfl
  refine ⟨_, hrun, ?silent, fun h ↦ ?told⟩
  case silent =>
    have hsilent := falls_silent_iff (d := .exactly 2000) hrun (by decide) rfl (by decide)
      (by decide) (by decide)
    exact hsilent.1.mpr (.inr (by decide))
  case told =>
    have hsilent := falls_silent_iff (d := .exactly 10000) hrun (by decide) rfl (by decide)
      (by decide) (by decide)
    exact absurd (hsilent.1.mp h) (by decide)

/-- A new trend is told of a delay of ten milliseconds every tenth of a second. Its floor stays below
ten, and from the sixth update on each one tells the whole time since the first, for more than 13
years. -/
theorem constant_delay_told_of :
    ¬({ minCount := 3, minDuration := .exactly 500000 } : DelayTrend).FallsSilent
      (.exactly 10000) ∧
    ∀ n : ℕ, 5 ≤ n → n + 1 < 2 ^ 32 → ∃ span, 0 < span ∧
      Duration.ofMillis (100 * n) = .ok span ∧
      ({ minCount := 3, minDuration := .exactly 500000 } : DelayTrend).told (.exactly 10000)
        (fun k ↦ 100 * k) n = .ok span := by
  have ht : Leveled { minCount := 3, minDuration := .exactly 500000 } :=
    leveled_reset { minCount := 3, minDuration := .exactly 500000 }
  have hten : (.exactly 10000 : Duration).millis = .ok 10 := rfl
  refine ⟨not_fallsSilent_of_lt ht (by decide) hten (by decide) (by decide) (by decide)
    (by decide), fun n hn hroom ↦ ?_⟩
  have hspans : ∀ k ≤ n, ∃ span, Duration.ofMillis (100 * (k : ℤ) - 0) = .ok span := fun k hk ↦
    Duration.exists_ofMillis (by omega) (by omega)
  obtain ⟨span, hspan⟩ := hspans n n.le_refl
  have hword := Extended.word_of_toInt (Duration.ofMillis_eq_ok_iff.mp hspan)
  have hlong : (.exactly 500000 : Duration) ≤ span := by
    show (500000 : ℤ) ≤ span.amount.word
    omega
  refine ⟨span, ?positive, Int.sub_zero (100 * n) ▸ hspan, ?told⟩
  case positive =>
    show (0 : ℤ) < span.amount.word
    omega
  case told =>
    have hcount : 0 + n + 1 < 2 ^ 32 := by omega
    rw [told_eq ht (by decide) hten (by decide) hcount fun k hk ↦ hspans k hk.le]
    show (do let span ← Duration.ofMillis (100 * (n : ℤ) - 0); _) = _
    rw [hspan]
    exact congrArg Except.ok (if_pos ⟨by show 3 ≤ 0 + n + 1; omega, hlong⟩)

end DelayTrend

end Congestion
