import Congestion.Proofs.Checked
import Congestion.Proofs.Units.Order
import Mathlib.Algebra.Ring.Nat

/-!
# Known amounts

A quantity with a finite amount `n` is one with `a.toInt = .ok n`. What is added or subtracted of
known amounts is known, as long as it fits the words (`add_eq_ok_iff`, `sub_eq_ok_iff`), and what is
within known bounds is known (`Within.exists_toInt`). A whole number of units is read in these units as
the same number (`rounded_of_ofInt`).
`Quantity.AtMost` is what bounds on sums of sizes are told in: sums of such amounts meet no fault as
long as their bounds stay within the words (`AtMost.exists_add`, `exists_foldlM_add`).

Of times that are known, so are the milliseconds, which are in the same order
(`Finite.millisFloor_mono`) and far within the words (`Quantity.millis_bounds`,
`Instant.millisFloor_bounds`). A number of milliseconds is a time just when its microseconds are within
the words (`Duration.ofMillis_eq_ok_iff`), else it is an overflow (`Duration.overflow_of_ofMillis`).
-/

set_option autoImplicit false
set_option relaxedAutoImplicit false

namespace Congestion

namespace Extended

theorem toInt_eq_ok_iff {a : Extended} {n : Int} :
    a.toInt = .ok n ↔ ∃ x : Finite, a = .finite x ∧ x.value = n := by
  unfold toInt toFinite
  constructor
  · intro h
    split at h
    next x => cases h; exact ⟨x, rfl, rfl⟩
    next => cases h
  · rintro ⟨x, rfl, rfl⟩
    rfl

theorem ofInt_eq_ok_iff {n : Int} {c : Extended} : ofInt n = .ok c ↔ c.toInt = .ok n := by
  unfold ofInt
  constructor
  · intro h
    split at h
    · cases h; rfl
    · split at h <;> cases h
  · intro h
    obtain ⟨x, rfl, rfl⟩ := toInt_eq_ok_iff.mp h
    rw [dif_pos ⟨x.lower, x.upper⟩]

theorem exists_ofInt {n : Int} (lower : -0x8000000000000000 < n)
    (upper : n < 0x7fffffffffffffff) : ∃ c, ofInt n = .ok c :=
  ⟨.finite ⟨n, lower, upper⟩, by rw [ofInt, dif_pos ⟨lower, upper⟩]⟩

theorem word_of_toInt {a : Extended} {n : Int} (h : a.toInt = .ok n) : a.word = n := by
  obtain ⟨x, rfl, rfl⟩ := toInt_eq_ok_iff.mp h
  rfl

theorem nearest_nonneg {n d : Int} (hn : 0 ≤ n) (hd : 0 ≤ d) : 0 ≤ nearest n d := by
  have hquotient := Int.tdiv_nonneg hn hd
  have hsign := Int.sign_nonneg_iff.mpr hn
  unfold nearest
  split <;> omega

theorem nearest_mul {n d : Int} (hd : 0 < d) : nearest (n * d) d = n := by
  have hrest : (n * d).tmod d = 0 := Int.mul_tmod_left n d
  have hquotient : (n * d).tdiv d = n := Int.mul_tdiv_cancel n (Int.ne_of_gt hd)
  unfold nearest
  rw [hrest, hquotient, if_neg]
  exact Int.not_le.mpr hd

end Extended

namespace Quantity

variable {d : Dimension} {a b c : Quantity d} {m n : Int}

theorem ofInt_eq_ok_iff : ofInt n = .ok a ↔ a.toInt = .ok n := by
  refine map_eq_ok_iff.trans ⟨?_, fun h ↦ ⟨a.amount, Extended.ofInt_eq_ok_iff.mpr h, rfl⟩⟩
  rintro ⟨amount, hamount, rfl⟩
  exact Extended.ofInt_eq_ok_iff.mp hamount

theorem rounded_of_toInt {unit : Int} (h : a.toInt = .ok n) :
    a.rounded unit = .ok (Extended.nearest n unit) :=
  map_eq_ok_iff.mpr ⟨n, h, rfl⟩

theorem rounded_of_ofInt {unit : Int} (hunit : 0 < unit) (h : ofInt (n * unit) = .ok a) :
    a.rounded unit = .ok n := by
  rw [rounded_of_toInt (ofInt_eq_ok_iff.mp h), Extended.nearest_mul hunit]

theorem add_eq_ok_iff (ha : a.toInt = .ok m) (hb : b.toInt = .ok n) :
    (a + b : Checked (Quantity d)) = .ok c ↔ c.toInt = .ok (m + n) := by
  obtain ⟨a⟩ := a
  obtain ⟨b⟩ := b
  obtain ⟨x, rfl, rfl⟩ := Extended.toInt_eq_ok_iff.mp ha
  obtain ⟨y, rfl, rfl⟩ := Extended.toInt_eq_ok_iff.mp hb
  exact ofInt_eq_ok_iff

theorem sub_eq_ok_iff (ha : a.toInt = .ok m) (hb : b.toInt = .ok n) :
    (a - b : Checked (Quantity d)) = .ok c ↔ c.toInt = .ok (m - n) := by
  obtain ⟨a⟩ := a
  obtain ⟨b⟩ := b
  obtain ⟨x, rfl, rfl⟩ := Extended.toInt_eq_ok_iff.mp ha
  obtain ⟨y, rfl, rfl⟩ := Extended.toInt_eq_ok_iff.mp hb
  exact ofInt_eq_ok_iff

/-- A known difference is one of known amounts. -/
theorem isFinite_of_sub (h : (a - b : Checked (Quantity d)) = .ok c) (hc : c.isFinite) :
    a.isFinite ∧ b.isFinite := by
  obtain ⟨_ | x | _⟩ := a <;> obtain ⟨_ | y | _⟩ := b
  case finite.finite => exact ⟨rfl, rfl⟩
  all_goals
    cases h
    try cases hc

/-- An infinity taken off zero leaves the other one. -/
theorem exists_zero_sub (ha : ¬ a.isFinite) :
    ∃ c, ((0 : Quantity d) - a : Checked (Quantity d)) = .ok c := by
  obtain ⟨_ | x | _⟩ := a
  case finite => exact absurd rfl ha
  all_goals exact ⟨_, rfl⟩

/-- Every integer within the words is an amount. -/
theorem exists_toInt (lower : -0x8000000000000000 < n) (upper : n < 0x7fffffffffffffff) :
    ∃ c : Quantity d, c.toInt = .ok n := by
  obtain ⟨c, hc⟩ := Extended.exists_ofInt lower upper
  exact ⟨⟨c⟩, Extended.ofInt_eq_ok_iff.mp hc⟩

/-- What is between zero and a known amount is an amount. -/
theorem exists_toInt_of_le (ha : a.toInt = .ok n) (hm : 0 ≤ m) (hle : m ≤ n) :
    ∃ c : Quantity d, c.toInt = .ok m := by
  obtain ⟨x, -, rfl⟩ := Extended.toInt_eq_ok_iff.mp ha
  have := x.upper
  exact exists_toInt (by omega) (by omega)

theorem exists_toInt_of_isFinite (ha : a.isFinite) : ∃ n, a.toInt = .ok n := by
  obtain ⟨_ | x | _⟩ := a
  case finite => exact ⟨x.value, rfl⟩
  all_goals cases ha

theorem isFinite_of_toInt (ha : a.toInt = .ok n) : a.isFinite := by
  obtain ⟨a⟩ := a
  obtain ⟨x, rfl, -⟩ := Extended.toInt_eq_ok_iff.mp ha
  rfl

/-- Of a known amount that is not negative, and one that is no less, there is a difference. -/
theorem exists_sub_of_le (ha : 0 ≤ a) (hfinite : a.isFinite) (hle : a ≤ b) :
    ∃ c, (b - a : Checked (Quantity d)) = .ok c := by
  obtain ⟨m, hm⟩ := exists_toInt_of_isFinite hfinite
  have hpos : 0 ≤ m := Extended.word_of_toInt hm ▸ ha
  obtain ⟨_ | y | _⟩ := b
  case posInf =>
    obtain ⟨x, hx, -⟩ := Extended.toInt_eq_ok_iff.mp hm
    exact ⟨.infinity, by rw [show a = ⟨.finite x⟩ from congrArg Quantity.mk hx]; rfl⟩
  case negInf =>
    have hword : m ≤ -0x8000000000000000 := Extended.word_of_toInt hm ▸ hle
    omega
  case finite =>
    have hb : (⟨.finite y⟩ : Quantity d).toInt = .ok y.value := rfl
    have hmy : m ≤ y.value := Extended.word_of_toInt hm ▸ hle
    have := y.upper
    obtain ⟨c, hc⟩ := exists_toInt (d := d) (n := y.value - m) (by omega) (by omega)
    exact ⟨c, (sub_eq_ok_iff hb hm).mpr hc⟩

theorem lt_iff_of_toInt (ha : a.toInt = .ok m) (hb : b.toInt = .ok n) : a < b ↔ m < n := by
  rw [← Extended.word_of_toInt ha, ← Extended.word_of_toInt hb]
  rfl

theorem le_iff_of_toInt (ha : a.toInt = .ok m) (hb : b.toInt = .ok n) :
    a ≤ b ↔ m ≤ n := by
  rw [le_iff, ← Extended.word_of_toInt ha, ← Extended.word_of_toInt hb]
  rfl

theorem eq_of_toInt (ha : a.toInt = .ok n) (hb : b.toInt = .ok n) : a = b :=
  word_inj.mp ((Extended.word_of_toInt ha).trans (Extended.word_of_toInt hb).symm)

theorem Within.exists_toInt {low high : Quantity d} (h : a.Within low high) (hlow : 0 < low)
    (hhigh : high.isFinite) : ∃ n, a.toInt = .ok n := by
  obtain ⟨habove, hbelow⟩ := h
  obtain ⟨-, hfinite⟩ := isFinite_iff.mp hhigh
  exact exists_toInt_of_isFinite (isFinite_of_nonneg (Int.le_trans (Int.le_of_lt hlow) habove)
    (Int.lt_of_le_of_lt hbelow hfinite))

/-! ### Bounded amounts -/

/-- The amount is known, not negative, and no more than the bound. -/
def AtMost (a : Quantity d) (bound : Nat) : Prop := ∃ n : Nat, a.toInt = .ok (n : Int) ∧ n ≤ bound

namespace AtMost

variable {j k : Nat}

theorem zero : (0 : Quantity d).AtMost 0 := ⟨0, rfl, Nat.le_refl 0⟩

theorem mono (h : a.AtMost j) (hjk : j ≤ k) : a.AtMost k := by
  obtain ⟨n, hn, hle⟩ := h
  exact ⟨n, hn, Nat.le_trans hle hjk⟩

theorem of_add (ha : a.AtMost j) (hb : b.AtMost k) (h : (a + b : Checked (Quantity d)) = .ok c) :
    c.AtMost (j + k) := by
  obtain ⟨m, hm, hmj⟩ := ha
  obtain ⟨n, hn, hnk⟩ := hb
  exact ⟨m + n, (add_eq_ok_iff hm hn).mp h, Nat.add_le_add hmj hnk⟩

theorem exists_add (ha : a.AtMost j) (hb : b.AtMost k) (hwithin : j + k < 0x7fffffffffffffff) :
    ∃ c, (a + b : Checked (Quantity d)) = .ok c ∧ c.AtMost (j + k) := by
  obtain ⟨m, hm, hmj⟩ := ha
  obtain ⟨n, hn, hnk⟩ := hb
  obtain ⟨c, hc⟩ := exists_toInt (d := d) (n := m + n) (by omega) (by omega)
  exact ⟨c, (add_eq_ok_iff hm hn).mpr hc, m + n, hc, Nat.add_le_add hmj hnk⟩

theorem exists_sub (ha : a.AtMost j) (hb : b.AtMost k) (hj : j < 0x7fffffffffffffff)
    (hk : k < 0x7fffffffffffffff) : ∃ c, (a - b : Checked (Quantity d)) = .ok c := by
  obtain ⟨m, hm, hmj⟩ := ha
  obtain ⟨n, hn, hnk⟩ := hb
  obtain ⟨c, hc⟩ := exists_toInt (d := d) (n := m - n) (by omega) (by omega)
  exact ⟨c, (sub_eq_ok_iff hm hn).mpr hc⟩

/-- The lesser from the greater leaves no more than the greater. -/
theorem exists_sub_of_lt (ha : a.AtMost j) (hb : b.AtMost k) (hlt : b < a)
    (hj : j < 0x7fffffffffffffff) : ∃ c, (a - b : Checked (Quantity d)) = .ok c ∧ c.AtMost j := by
  obtain ⟨m, hm, hmj⟩ := ha
  obtain ⟨n, hn, hnk⟩ := hb
  have hlt := (lt_iff_of_toInt hn hm).mp hlt
  obtain ⟨c, hc⟩ := exists_toInt (d := d) (n := m - n) (by omega) (by omega)
  refine ⟨c, (sub_eq_ok_iff hm hn).mpr hc, m - n, ?_, by omega⟩
  rw [hc]
  congr 1
  omega

end AtMost

/-- Amounts are added up without a fault when their bounds are. -/
theorem exists_foldlM_add {α : Type} (amount : α → Quantity d) (bound : α → Nat) {l : List α}
    {j : Nat} (ha : a.AtMost j) (hl : ∀ x ∈ l, (amount x).AtMost (bound x))
    (hwithin : j + (l.map bound).sum < 0x7fffffffffffffff) :
    ∃ c, l.foldlM (fun total x ↦ (total + amount x : Checked (Quantity d))) a = .ok c ∧
      c.AtMost (j + (l.map bound).sum) := by
  induction l generalizing a j with
  | nil => exact ⟨a, rfl, ha⟩
  | cons x rest ih =>
    obtain ⟨hx, hrest⟩ := List.forall_mem_cons.mp hl
    rw [List.map_cons, List.sum_cons, ← Nat.add_assoc] at hwithin ⊢
    obtain ⟨b, hb, hbj⟩ := ha.exists_add hx (by omega)
    rw [List.foldlM_cons, hb]
    exact ih hbj hrest hwithin

end Quantity

/-! ### Times in milliseconds -/

theorem Quantity.millis_nonneg {t : Duration} {millis : Int} (ht : 0 ≤ t)
    (h : t.millis = .ok millis) : 0 ≤ millis := by
  obtain ⟨n, hn, rfl⟩ := map_eq_ok_iff.mp h
  refine Extended.nearest_nonneg ?_ (by decide)
  rw [← Extended.word_of_toInt hn]
  exact ht

theorem Quantity.exists_millis_of_isFinite {t : Duration} (ht : t.isFinite) :
    ∃ millis, t.millis = .ok millis := by
  obtain ⟨n, hn⟩ := exists_toInt_of_isFinite ht
  exact ⟨_, rounded_of_toInt hn⟩

theorem Quantity.isFinite_of_millis {t : Duration} {millis : Int} (h : t.millis = .ok millis) :
    t.isFinite := by
  obtain ⟨n, hn, -⟩ := map_eq_ok_iff.mp h
  exact isFinite_of_toInt hn

theorem Quantity.millis_of_not_isFinite {t : Duration} (ht : ¬ t.isFinite) :
    t.millis = .error .undefined := by
  obtain ⟨_ | x | _⟩ := t
  case finite => exact absurd rfl ht
  all_goals rfl

/-- The milliseconds of a known time are far within the words. -/
theorem Quantity.millis_bounds {t : Duration} {millis : Int} (h : t.millis = .ok millis) :
    -9223372036854776 ≤ millis ∧ millis ≤ 9223372036854776 := by
  obtain ⟨n, hn, rfl⟩ := map_eq_ok_iff.mp h
  obtain ⟨x, -, rfl⟩ := Extended.toInt_eq_ok_iff.mp hn
  have hlower := x.lower
  have hupper := x.upper
  have hquotient : (x.value.tdiv 1000).natAbs = x.value.natAbs / 1000 :=
    Int.natAbs_tdiv x.value 1000
  have hsign := Int.sign_trichotomy x.value
  unfold Extended.nearest
  split <;> omega

theorem Finite.millisFloor_mono {t u : Finite} (h : t.value ≤ u.value) :
    t.millisFloor ≤ u.millisFloor :=
  Int.ediv_le_ediv (by decide) h

theorem Instant.eq_toInstant_of_toFinite {t : Instant} {x : Finite} (h : t.toFinite = .ok x) :
    t = x.toInstant := by
  obtain ⟨⟨_ | y | _⟩⟩ := t
  case finite => rw [Except.ok.inj h]; rfl
  all_goals cases h

theorem Instant.millisFloor_bounds {t : Instant} {millis : Int} (h : t.millisFloor = .ok millis) :
    -0x4000000000000000 < millis ∧ millis < 0x4000000000000000 := by
  obtain ⟨n, hn, rfl⟩ := map_eq_ok_iff.mp h
  obtain ⟨x, -, rfl⟩ := Extended.toInt_eq_ok_iff.mp hn
  have := x.lower
  have := x.upper
  omega

/-- An instant moves as far as it has moved, or less far. -/
theorem Instant.exists_add_of_le {t u : Instant} {span span' : Duration} {m n : ℤ}
    (hspan : span.toInt = .ok n) (hspan' : span'.toInt = .ok m) (hm : 0 ≤ m) (hle : m ≤ n)
    (h : (t + span : Checked Instant) = .ok u) : ∃ u', (t + span' : Checked Instant) = .ok u' := by
  obtain ⟨x, hx, rfl⟩ := Extended.toInt_eq_ok_iff.mp hspan
  obtain ⟨y, hy, rfl⟩ := Extended.toInt_eq_ok_iff.mp hspan'
  obtain ⟨⟨_ | z | _⟩⟩ := t
  case finite =>
    obtain ⟨sum, hsum, -⟩ := map_eq_ok_iff.mp h
    have hsum := (Quantity.add_eq_ok_iff (a := (⟨.finite z⟩ : Duration)) rfl hspan).mp hsum
    obtain ⟨w, -, hw⟩ := Extended.toInt_eq_ok_iff.mp hsum
    have := w.upper
    have := z.lower
    obtain ⟨sum', hsum'⟩ := Quantity.exists_toInt (d := .time) (n := z.value + y.value)
      (by omega) (by omega)
    exact ⟨⟨sum'⟩, map_eq_ok_iff.mpr ⟨sum', (Quantity.add_eq_ok_iff rfl hspan').mpr hsum', rfl⟩⟩
  all_goals
    obtain ⟨amount⟩ := span'
    cases hy
    exact ⟨_, rfl⟩

namespace Duration

theorem ofMillis_eq_ok_iff {n : Int} {t : Duration} :
    ofMillis n = .ok t ↔ t.toInt = .ok (n * 1000) :=
  Quantity.ofInt_eq_ok_iff

theorem exists_ofMillis {n : Int} (lower : -9223372036854775 ≤ n) (upper : n ≤ 9223372036854775) :
    ∃ t, ofMillis n = .ok t := by
  obtain ⟨t, ht⟩ := Quantity.exists_toInt (d := .time) (n := n * 1000) (by omega) (by omega)
  exact ⟨t, ofMillis_eq_ok_iff.mpr ht⟩

theorem millis_of_ofMillis {n : Int} {t : Duration} (h : ofMillis n = .ok t) :
    t.millis = .ok n :=
  Quantity.rounded_of_ofInt (by decide) h

/-- No extreme word is a whole number of milliseconds. -/
theorem overflow_of_ofMillis {n : Int} (h : ∀ t, ofMillis n ≠ .ok t) :
    ofMillis n = .error .overflow := by
  unfold ofMillis Quantity.ofInt Extended.ofInt at h ⊢
  split
  next hfits =>
    rw [dif_pos hfits] at h
    exact absurd rfl (h _)
  next =>
    split
    · omega
    · rfl

/-- What is beyond the words is so as a number of milliseconds too. -/
theorem ofMillis_signed64 (n : Int) : (do ofMillis (← signed64 n)) = ofMillis n := by
  by_cases hfits : -0x8000000000000000 ≤ n ∧ n ≤ 0x7fffffffffffffff
  · rw [signed64, if_pos hfits]
    rfl
  · rw [signed64, if_neg hfits]
    refine (overflow_of_ofMillis fun t ht ↦ hfits ?_).symm
    obtain ⟨x, -, hx⟩ := Extended.toInt_eq_ok_iff.mp (ofMillis_eq_ok_iff.mp ht)
    have hlower := x.lower
    have hupper := x.upper
    omega

end Duration

end Congestion
