import Congestion.Proofs.Units.Amounts
import Mathlib.Data.Rat.Floor
import Mathlib.Tactic.Linarith

/-!
# Conversions between units

What is stored in small units is read in larger ones as the nearest integer, a half going away from
zero. `IsNearest` says of any number which integer that is. Two integers are equally far from the
middle between them and from nowhere else (`IsNearest.abs_sub_le_abs_sub_iff`), so that a greater
number has no lesser nearest integer (`IsNearest.mono`). It follows that there is only one
(`IsNearest.unique`), and that it is the floor of the number or the integer after it
(`IsNearest.floor_le`, `IsNearest.le_floor_add_one`).

The division that cuts the fraction off, with its correction, comes to the nearest integer
(`Extended.isNearest_nearest`), and keeps within the words on its way
(`Extended.nearestInWords_eq`). `Converts` is what this gives for a reading in larger units and the
constructor that goes with it. The readings of rates, durations and instants are one function at
different units, and so they convert (`conversions_round`).
-/

set_option autoImplicit false
set_option relaxedAutoImplicit false

namespace Congestion

/-! ### Nearest integers -/

/-- No integer is nearer to the number, and of those that are as near none is farther from zero. -/
structure IsNearest (m : ℤ) (x : ℚ) : Prop where
  nearest : ∀ k : ℤ, |x - m| ≤ |x - k|
  away : ∀ k : ℤ, |x - k| = |x - m| → |k| ≤ |m|

namespace IsNearest

variable {m k : ℤ} {x y : ℚ}

theorem intCast (n : ℤ) : IsNearest n n where
  nearest k := by
    rw [sub_self, abs_zero]
    exact abs_nonneg _
  away k h := by
    rw [sub_self, abs_zero, abs_eq_zero, sub_eq_zero, Int.cast_inj] at h
    rw [h]

theorem neg (h : IsNearest m x) : IsNearest (-m) (-x) := by
  have hmirror (k : ℤ) : |-x - k| = |x - (-k : ℤ)| := by
    rw [← abs_neg]
    push_cast
    congr 1
    ring
  constructor
  · intro k
    rw [hmirror, hmirror, neg_neg]
    exact h.nearest (-k)
  · intro k hk
    rw [hmirror, hmirror, neg_neg] at hk
    rw [abs_neg, ← abs_neg k]
    exact h.away (-k) hk

/-- The greater of two integers is as near as the lesser from the middle between them on. -/
theorem abs_sub_le_abs_sub_iff (hlt : k < m) : |x - m| ≤ |x - k| ↔ (m + k : ℚ) ≤ 2 * x := by
  have hlt : (k : ℚ) < m := Int.cast_lt.mpr hlt
  rw [← sq_le_sq]
  constructor
  · intro h
    nlinarith
  · intro h
    nlinarith

theorem mono (hm : IsNearest m x) (hk : IsNearest k y) (hxy : x ≤ y) : m ≤ k := by
  by_contra hle
  have hlt : k < m := not_le.mp hle
  have hx : (m + k : ℚ) ≤ 2 * x := (abs_sub_le_abs_sub_iff hlt).mp (hm.nearest k)
  have hy : 2 * y ≤ m + k := by
    have := (abs_sub_le_abs_sub_iff (neg_lt_neg hlt)).mp (hk.neg.nearest (-m))
    push_cast at this
    linarith
  -- one number, in the middle, has both as its nearest integer: they are opposite, and it is zero
  obtain rfl : x = y := by linarith
  have htie : |x - k| = |x - m| := by
    rw [show x - k = -(x - m) by linarith, abs_neg]
  have hopposite : k = -m :=
    (abs_eq_abs.mp (le_antisymm (hm.away k htie) (hk.away m htie.symm))).resolve_left hlt.ne
  have hzero : x = 0 := by
    rw [hopposite] at hx hy
    push_cast at hx hy
    linarith
  have hm0 := hm.nearest 0
  rw [hzero, zero_sub, abs_neg, Int.cast_zero, sub_zero, abs_zero, abs_nonpos_iff,
    Int.cast_eq_zero] at hm0
  omega

theorem unique (hm : IsNearest m x) (hk : IsNearest k x) : k = m :=
  le_antisymm (hk.mono hm le_rfl) (hm.mono hk le_rfl)

theorem floor_le (h : IsNearest m x) : ⌊x⌋ ≤ m := (intCast ⌊x⌋).mono h (Int.floor_le x)

theorem le_floor_add_one (h : IsNearest m x) : m ≤ ⌊x⌋ + 1 := by
  refine h.mono (intCast (⌊x⌋ + 1)) ?_
  push_cast
  exact (Int.lt_floor_add_one x).le

/-- Above zero, rounding half away from it is rounding half up. -/
theorem round_of_nonneg (hx : 0 ≤ x) : IsNearest (round x) x where
  nearest := round_le x
  away k hk := by
    have hhalf : |x - k| ≤ 1 / 2 := hk ▸ abs_sub_round x
    obtain ⟨hlow, hhigh⟩ := abs_le.mp hhalf
    have hpos : 0 ≤ k := by
      have : (-1 : ℚ) < k := by linarith
      have : -1 < k := by exact_mod_cast this
      omega
    have hle : k ≤ round x := by
      rw [round_eq, Int.le_floor]
      linarith
    rwa [abs_of_nonneg hpos, abs_of_nonneg (hpos.trans hle)]

end IsNearest

/-! ### The division and its correction -/

namespace Extended

variable {n d : ℤ}

theorem nearest_neg (n d : ℤ) : nearest (-n) d = -nearest n d := by
  unfold nearest
  rw [Int.neg_tdiv, Int.neg_tmod, Int.natAbs_neg, Int.sign_neg]
  split <;> omega

theorem nearest_eq_round (hn : 0 ≤ n) (hd : 0 < d) : nearest n d = round (n / d : ℚ) := by
  have hpos : (0 : ℚ) < d := Int.cast_pos.mpr hd
  have hrest : 0 ≤ n % d := Int.emod_nonneg n hd.ne'
  have hlt : n % d < d := Int.emod_lt_of_pos n hd
  have hsplit : (n / d : ℚ) = (n / d : ℤ) + (n % d : ℤ) / d := by
    rw [eq_comm, eq_div_iff hpos.ne', add_mul, div_mul_cancel₀ _ hpos.ne']
    exact_mod_cast Int.ediv_mul_add_emod n d
  have hfraction : (0 : ℚ) ≤ (n % d : ℤ) / d ∧ ((n % d : ℤ) / d : ℚ) < 1 :=
    ⟨div_nonneg (Int.cast_nonneg hrest) hpos.le, (div_lt_one hpos).mpr (Int.cast_lt.mpr hlt)⟩
  have hhalf : (1 / 2 : ℚ) ≤ (n % d : ℤ) / d ↔ d ≤ 2 * (n % d) := by
    rw [le_div_iff₀ hpos, one_div_mul_eq_div, div_le_iff₀' two_pos]
    exact_mod_cast Iff.rfl
  rw [eq_comm, round_eq_iff, hsplit, Set.mem_Ico]
  unfold nearest
  rw [Int.tdiv_eq_ediv_of_nonneg hn, Int.tmod_eq_emod_of_nonneg hn, Int.natAbs_of_nonneg hrest]
  split
  next hfar =>
    have hne : n ≠ 0 := by
      rintro rfl
      rw [Int.zero_emod] at hfar
      omega
    have := hhalf.mpr hfar
    rw [Int.sign_eq_one_of_pos (by omega)]
    push_cast
    constructor <;> linarith
  next hnear =>
    have := not_le.mp (mt hhalf.mp hnear)
    constructor <;> linarith

theorem isNearest_nearest (n : ℤ) (hd : 0 < d) : IsNearest (nearest n d) (n / d) := by
  have hnonneg {n : ℤ} (hn : 0 ≤ n) : IsNearest (nearest n d) (n / d) := by
    rw [nearest_eq_round hn hd]
    exact .round_of_nonneg (div_nonneg (Int.cast_nonneg hn) (Int.cast_pos.mpr hd).le)
  rcases le_total 0 n with hn | hn
  · exact hnonneg hn
  · have hopposite := (hnonneg (neg_nonneg.mpr hn)).neg
    rwa [nearest_neg, neg_neg, Int.cast_neg, neg_div, neg_neg] at hopposite

theorem abs_nearest_le (n : ℤ) (hd : 0 < d) : |nearest n d| ≤ |n| := by
  have hnearest := isNearest_nearest n hd
  have hle : |(n / d : ℚ)| ≤ (|n| : ℤ) := by
    rw [abs_div, abs_of_pos (Int.cast_pos.mpr hd), Int.cast_abs]
    exact div_le_self (abs_nonneg _) (by exact_mod_cast hd)
  obtain ⟨hlow, hhigh⟩ := abs_le.mp hle
  rw [← Int.cast_neg] at hlow
  exact abs_le.mpr ⟨(IsNearest.intCast _).mono hnearest hlow, hnearest.mono (.intCast _) hhigh⟩

/-- Rounding with each of its steps held in a signed 64-bit word: the quotient, cut off, goes on by
one away from zero where the remainder is at least half the divisor. -/
def nearestInWords (n d : ℤ) : Checked ℤ := do
  let quotient ← signed64 (n.tdiv d)
  let rest ← signed64 (n.tmod d)
  let size ← signed64 |rest|
  let doubled ← signed64 (2 * size)
  if d ≤ doubled then signed64 (if n < 0 then quotient - 1 else quotient + 1) else return quotient

theorem signed64_of_abs_le (h : |n| ≤ 0x7fffffffffffffff) : signed64 n = .ok n := by
  have := abs_le.mp h
  exact signed64_eq_ok_iff.mpr ⟨rfl, by omega, by omega⟩

theorem nearest_of_far (hd : 0 < d) (hfar : d ≤ 2 * |n.tmod d|) :
    nearest n d = if n < 0 then n.tdiv d - 1 else n.tdiv d + 1 := by
  have hne : n ≠ 0 := by
    rintro rfl
    rw [Int.zero_tmod, abs_zero] at hfar
    omega
  unfold nearest
  rw [if_pos (by rwa [← Int.abs_eq_natAbs])]
  split
  next hneg => rw [Int.sign_eq_neg_one_of_neg hneg, Int.sub_eq_add_neg]
  next hpos => rw [Int.sign_eq_one_of_pos (by omega)]

/-- Nothing overflows: a finite value is not the lower extreme word, whose opposite no word holds. -/
theorem nearestInWords_eq (hn : |n| ≤ 0x7fffffffffffffff) (hd : 0 < d)
    (hsmall : d ≤ 0x4000000000000000) : nearestInWords n d = .ok (nearest n d) := by
  have hquotient : |n.tdiv d| ≤ |n| := by
    rw [Int.abs_eq_natAbs, Int.abs_eq_natAbs]
    exact_mod_cast Int.natAbs_tdiv_le_natAbs n d
  have hrest : |n.tmod d| < d :=
    abs_lt.mpr ⟨Int.lt_tmod_of_pos n hd, Int.tmod_lt_of_pos n hd⟩
  have hsize := abs_nonneg (n.tmod d)
  refine bind_eq_ok_iff.mpr ⟨_, signed64_of_abs_le (hquotient.trans hn), bind_eq_ok_iff.mpr
    ⟨_, signed64_of_abs_le (by omega), bind_eq_ok_iff.mpr
    ⟨|n.tmod d|, signed64_eq_ok_iff.mpr ⟨rfl, by omega, by omega⟩, bind_eq_ok_iff.mpr
    ⟨2 * |n.tmod d|, signed64_eq_ok_iff.mpr ⟨rfl, by omega, by omega⟩, ?_⟩⟩⟩⟩
  split
  next hfar =>
    rw [← nearest_of_far hd hfar]
    exact signed64_of_abs_le ((abs_nearest_le n hd).trans hn)
  next hnear =>
    unfold nearest
    rw [if_neg (by rwa [← Int.abs_eq_natAbs])]
    rfl

end Extended

/-! ### Readings and constructors -/

/-- Amounts that are stored as integers are read in units of so many of these, and constructed from
such units. Where the amount is known, there is a reading. -/
structure Converts {α : Type} (unit : ℤ) (stored reading : α → Checked ℤ)
    (construct : ℤ → Checked α) : Prop where
  /-- The one nearest integer is read, and no step of computing it leaves the words. -/
  nearest : ∀ a v, stored a = .ok v → ∃ m, reading a = .ok m ∧
    Extended.nearestInWords v unit = .ok m ∧ ∀ k : ℤ, IsNearest k (v / unit) ↔ k = m
  mono : ∀ a b v w m k, stored a = .ok v → stored b = .ok w → v ≤ w →
    reading a = .ok m → reading b = .ok k → m ≤ k
  opposite : ∀ a b v m, stored a = .ok v → stored b = .ok (-v) →
    reading a = .ok m → reading b = .ok (-m)
  constructs : ∀ n, (∃ a, construct n = .ok a) ↔
    -0x8000000000000000 < n * unit ∧ n * unit < 0x7fffffffffffffff
  readBack : ∀ n a, construct n = .ok a → stored a = .ok (n * unit) ∧ reading a = .ok n

namespace Quantity

variable {d : Dimension}

theorem abs_le_of_toInt {a : Quantity d} {n : ℤ} (h : a.toInt = .ok n) :
    |n| ≤ 0x7fffffffffffffff := by
  obtain ⟨x, -, rfl⟩ := Extended.toInt_eq_ok_iff.mp h
  have := x.lower
  have := x.upper
  exact abs_le.mpr ⟨by omega, by omega⟩

theorem converts {unit : ℤ} (hunit : 0 < unit) (hsmall : unit ≤ 0x4000000000000000) :
    Converts unit (toInt (d := d)) (·.rounded unit) (fun n ↦ ofInt (n * unit)) where
  nearest a v hv := by
    have hnearest := Extended.isNearest_nearest v hunit
    exact ⟨_, rounded_of_toInt hv, Extended.nearestInWords_eq (abs_le_of_toInt hv) hunit hsmall,
      fun k ↦ ⟨hnearest.unique, fun h ↦ h ▸ hnearest⟩⟩
  mono a b v w m k hv hw hvw hm hk := by
    cases (rounded_of_toInt hv).symm.trans hm
    cases (rounded_of_toInt hw).symm.trans hk
    refine (Extended.isNearest_nearest v hunit).mono (Extended.isNearest_nearest w hunit) ?_
    have hpos : (0 : ℚ) < unit := Int.cast_pos.mpr hunit
    exact div_le_div_of_nonneg_right (Int.cast_le.mpr hvw) hpos.le
  opposite a b v m hv hw hm := by
    cases (rounded_of_toInt hv).symm.trans hm
    rw [rounded_of_toInt hw, Extended.nearest_neg]
  constructs n := by
    constructor
    · rintro ⟨a, ha⟩
      obtain ⟨x, -, hx⟩ := Extended.toInt_eq_ok_iff.mp (ofInt_eq_ok_iff.mp ha)
      exact hx ▸ ⟨x.lower, x.upper⟩
    · rintro ⟨hlower, hupper⟩
      obtain ⟨a, ha⟩ := exists_toInt (d := d) hlower hupper
      exact ⟨a, ofInt_eq_ok_iff.mpr ha⟩
  readBack n a ha := ⟨ofInt_eq_ok_iff.mp ha, rounded_of_ofInt hunit ha⟩

/-- The reading with a fallback is the same where there is a reading. -/
theorem roundedOr_of_rounded {a : Quantity d} {unit m : ℤ} (h : a.rounded unit = .ok m)
    (fallback : ℤ) : a.roundedOr unit fallback = m := by
  obtain ⟨v, hv, rfl⟩ := map_eq_ok_iff.mp h
  obtain ⟨a⟩ := a
  obtain ⟨x, rfl, rfl⟩ := Extended.toInt_eq_ok_iff.mp hv
  rfl

end Quantity

namespace Instant

/-- Instants are read and constructed as the durations since the epoch. -/
theorem converts {unit : ℤ} {reading : Duration → Checked ℤ} {construct : ℤ → Checked Duration}
    (h : Converts unit Quantity.micros reading construct) :
    Converts unit (fun t : Instant ↦ t.sinceEpoch.micros) (fun t ↦ reading t.sinceEpoch)
      (fun n ↦ Instant.mk <$> construct n) where
  nearest t := h.nearest t.sinceEpoch
  mono t u := h.mono t.sinceEpoch u.sinceEpoch
  opposite t u := h.opposite t.sinceEpoch u.sinceEpoch
  constructs n := by
    rw [← h.constructs n]
    constructor
    · rintro ⟨t, ht⟩
      obtain ⟨span, hspan, -⟩ := map_eq_ok_iff.mp ht
      exact ⟨span, hspan⟩
    · rintro ⟨span, hspan⟩
      exact ⟨⟨span⟩, map_eq_ok_iff.mpr ⟨span, hspan, rfl⟩⟩
  readBack n t ht := by
    obtain ⟨span, hspan, rfl⟩ := map_eq_ok_iff.mp ht
    exact h.readBack n span hspan

end Instant

theorem Finite.millisFloor_eq_floor (x : Finite) : x.millisFloor = ⌊(x.value / 1000 : ℚ)⌋ :=
  (Rat.floor_intCast_div_natCast x.value 1000).symm

/-- Milliseconds and seconds of durations and instants, and kilobits of rates, are the nearest integers
of the known amounts, a half going away from zero, computed within the words. They are in the order of
the amounts, opposite for opposite amounts, and the number that was constructed from; it can be
constructed from as long as the amount is finite. A fallback changes no reading of a known amount. The
milliseconds of an instant rounded down are the floor, and rounded they are this or the next integer. -/
theorem conversions_round :
    Converts 1000 Quantity.micros Quantity.millis Duration.ofMillis ∧
    Converts 1000000 Quantity.micros Quantity.seconds Duration.ofSeconds ∧
    Converts 1000 Quantity.bps Quantity.kbps DataRate.ofKilobitsPerSec ∧
    Converts 1000 (fun t : Instant ↦ t.sinceEpoch.micros) (fun t ↦ t.sinceEpoch.millis)
      (fun n ↦ Instant.mk <$> Duration.ofMillis n) ∧
    Converts 1000000 (fun t : Instant ↦ t.sinceEpoch.micros) (fun t ↦ t.sinceEpoch.seconds)
      (fun n ↦ Instant.mk <$> Duration.ofSeconds n) ∧
    (∀ (d : Dimension) (a : Quantity d) (unit m fallback : ℤ), a.rounded unit = .ok m →
      a.roundedOr unit fallback = m) ∧
    ∀ x : Finite, x.toInstant.millisFloor = .ok x.millisFloor ∧
      x.millisFloor = ⌊(x.value / 1000 : ℚ)⌋ ∧
      ∃ m, x.toInstant.sinceEpoch.millis = .ok m ∧ x.millisFloor ≤ m ∧ m ≤ x.millisFloor + 1 := by
  have hmillis : Converts 1000 Quantity.micros Quantity.millis Duration.ofMillis :=
    Quantity.converts (by decide) (by decide)
  have hseconds : Converts 1000000 Quantity.micros Quantity.seconds Duration.ofSeconds :=
    Quantity.converts (by decide) (by decide)
  refine ⟨hmillis, hseconds, Quantity.converts (by decide) (by decide), Instant.converts hmillis,
    Instant.converts hseconds, fun d a unit m fallback h ↦ Quantity.roundedOr_of_rounded h fallback,
    fun x ↦ ⟨rfl, x.millisFloor_eq_floor, ?_⟩⟩
  have hnearest := Extended.isNearest_nearest x.value (show (0 : ℤ) < 1000 by decide)
  rw [x.millisFloor_eq_floor]
  exact ⟨_, Quantity.rounded_of_toInt rfl, hnearest.floor_le, hnearest.le_floor_add_one⟩

/-- A millisecond and a half before the epoch is rounded away from it, and of the farthest instant
before the epoch the milliseconds are computed within the words. A time before the epoch is rounded
down away from it, also where the nearest millisecond is the one after. -/
theorem conversions_round_beforeEpoch :
    (⟨.exactly (-1500)⟩ : Instant).sinceEpoch.millis = .ok (-2) ∧
    Extended.nearestInWords (-0x7fffffffffffffff) 1000 = .ok (-9223372036854776) ∧
    (Finite.toInstant ⟨-1200, by decide, by decide⟩).sinceEpoch.millis = .ok (-1) ∧
    (Finite.toInstant ⟨-1200, by decide, by decide⟩).millisFloor = .ok (-2) ∧
    (.exactly (-3000) : DataRate).kbps = .ok (-3) := by
  obtain ⟨-, -, hrate, hinstant, -, -, hfloor⟩ := conversions_round
  obtain ⟨m, hm, hwords, -⟩ := hinstant.nearest ⟨.exactly (-0x7fffffffffffffff)⟩ _ rfl
  cases hm
  exact ⟨hinstant.opposite ⟨.exactly 1500⟩ ⟨.exactly (-1500)⟩ 1500 2 rfl rfl rfl, hwords, rfl,
    (hfloor ⟨-1200, by decide, by decide⟩).1, (hrate.readBack (-3) (.exactly (-3000)) rfl).2⟩

end Congestion
