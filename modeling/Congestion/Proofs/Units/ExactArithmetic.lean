import Congestion.Proofs.Units.Infinities

/-!
# Exact arithmetic

The arithmetic of stored values is that of the integers with two infinities. There a sum of opposite
infinities is undefined (`ExtendedInt.sum?`), and a difference is the sum with the opposite number
(`ExtendedInt.difference?`). A computation is `Exact` for such a result when it answers the result and
nothing else, and faults where there is none or where it is an integer that no word holds. One lemma
for each operation on stored values shows this, and carries over to quantities and instants
(`Exact.map`). An exact answer to finite operands is finite, and so what has been added can be taken
off again (`arithmetic_exact`).
-/

set_option autoImplicit false
set_option relaxedAutoImplicit false

namespace Congestion

namespace ExtendedInt

/-- The number on the other side of zero. -/
def opposite : ExtendedInt → ExtendedInt
  | ⊥ => ⊤
  | ⊤ => ⊥
  | ((n : ℤ) : WithTop ℤ) => ((-n : ℤ) : WithTop ℤ)

/-- The sum, which opposite infinities do not have. -/
def sum? (a b : ExtendedInt) : Option ExtendedInt :=
  if (a = ⊤ ∧ b = ⊥) ∨ (a = ⊥ ∧ b = ⊤) then none else some (a + b)

def difference? (a b : ExtendedInt) : Option ExtendedInt := sum? a (opposite b)

end ExtendedInt

/-- The computation answers exactly the result, and is a fault where there is none and where it is an
integer outside the finite words. -/
structure Exact {α : Type} (value : α → ExtendedInt) (x : Checked α) (result : Option ExtendedInt) :
    Prop where
  ok_iff : ∀ a, x = .ok a ↔ result = some (value a)
  error_iff : (∃ fault, x = .error fault) ↔ result = none ∨
    ∃ n : ℤ, result = some (n : WithTop ℤ) ∧ ¬(-0x8000000000000000 < n ∧ n < 0x7fffffffffffffff)

/-- It stays exact for the same values stored in another form. -/
theorem Exact.map {α β : Type} {value : α → ExtendedInt} {x : Checked α}
    {result : Option ExtendedInt} (h : Exact value x result) (e : α ≃ β) :
    Exact (fun b ↦ value (e.symm b)) (e <$> x) result where
  ok_iff b := by
    rw [← h.ok_iff, map_eq_ok_iff]
    constructor
    · rintro ⟨a, ha, rfl⟩
      rwa [e.symm_apply_apply]
    · exact fun ha ↦ ⟨_, ha, e.apply_symm_apply b⟩
  error_iff := by
    rw [← h.error_iff]
    cases x with
    | ok a => exact ⟨fun ⟨_, h⟩ ↦ (by cases h), fun ⟨_, h⟩ ↦ (by cases h)⟩
    | error fault => exact ⟨fun _ ↦ ⟨fault, rfl⟩, fun _ ↦ ⟨fault, rfl⟩⟩

namespace Extended

open ExtendedInt

variable {a b : Extended}

theorem value_injective : Function.Injective value := fun a b h ↦ by
  have hab : a ≤ b := value_le_iff.mp h.le
  have hba : b ≤ a := value_le_iff.mp h.ge
  exact word_injective (Int.le_antisymm hab hba)

theorem exact_undefined (fault : Fault) : Exact value (.error fault) none where
  ok_iff a := ⟨fun h ↦ (by cases h), fun h ↦ (by cases h)⟩
  error_iff := ⟨fun _ ↦ .inl rfl, fun _ ↦ ⟨fault, rfl⟩⟩

theorem fits_of_value {n : ℤ} (h : a.value = ((n : WithTop ℤ) : ExtendedInt)) :
    -0x8000000000000000 < n ∧ n < 0x7fffffffffffffff := by
  cases a with
  | finite x =>
    rw [value] at h
    norm_cast at h
    exact h ▸ ⟨x.lower, x.upper⟩
  | negInf => cases h
  | posInf => cases h

/-- A stored value is the answer to what it stands for. -/
theorem exact_ok (a : Extended) : Exact value (.ok a) (some a.value) where
  ok_iff c := by
    rw [Except.ok.injEq, Option.some.injEq, value_injective.eq_iff]
  error_iff := by
    refine iff_of_false (fun ⟨_, h⟩ ↦ (by cases h)) ?_
    rintro (h | ⟨n, h, hbeyond⟩)
    · cases h
    · exact hbeyond (fits_of_value (Option.some.inj h))

theorem exact_ofInt (n : ℤ) : Exact value (ofInt n) (some (n : WithTop ℤ)) := by
  by_cases hfits : -0x8000000000000000 < n ∧ n < 0x7fffffffffffffff
  · rw [ofInt, dif_pos hfits]
    exact exact_ok (.finite ⟨n, hfits.1, hfits.2⟩)
  · obtain ⟨fault, hfault⟩ : ∃ fault, ofInt n = .error fault := by
      rw [ofInt, dif_neg hfits]
      split
      · exact ⟨_, rfl⟩
      · exact ⟨_, rfl⟩
    rw [hfault]
    exact ⟨fun a ↦ iff_of_false (fun h ↦ (by cases h))
        fun h ↦ hfits (fits_of_value (Option.some.inj h).symm),
      ⟨fun _ ↦ .inr ⟨n, rfl, hfits⟩, fun _ ↦ ⟨fault, rfl⟩⟩⟩

theorem exact_add (a b : Extended) : Exact value (a.add b) (sum? a.value b.value) := by
  obtain _ | x | _ := a <;> obtain _ | y | _ := b
  case finite.finite => exact exact_ofInt (x.value + y.value)
  case negInf.posInf => exact exact_undefined _
  case posInf.negInf => exact exact_undefined _
  case negInf.negInf => exact exact_ok .negInf
  case negInf.finite => exact exact_ok .negInf
  case finite.negInf => exact exact_ok .negInf
  case finite.posInf => exact exact_ok .posInf
  case posInf.finite => exact exact_ok .posInf
  case posInf.posInf => exact exact_ok .posInf

theorem exact_neg (a : Extended) : Exact value a.neg (some (opposite a.value)) := by
  obtain _ | x | _ := a
  case negInf => exact exact_ok .posInf
  case finite => exact exact_ofInt (-x.value)
  case posInf => exact exact_ok .negInf

theorem exact_sub (a b : Extended) : Exact value (a.sub b) (difference? a.value b.value) := by
  obtain _ | x | _ := a <;> obtain _ | y | _ := b
  case finite.finite => exact exact_ofInt (x.value - y.value)
  case negInf.negInf => exact exact_undefined _
  case posInf.posInf => exact exact_undefined _
  case negInf.finite => exact exact_ok .negInf
  case negInf.posInf => exact exact_ok .negInf
  case finite.posInf => exact exact_ok .negInf
  case finite.negInf => exact exact_ok .posInf
  case posInf.negInf => exact exact_ok .posInf
  case posInf.finite => exact exact_ok .posInf

end Extended

/-! ### Quantities -/

namespace Quantity

open ExtendedInt

variable {d : Dimension} {a b c : Quantity d}

def ofAmount : Extended ≃ Quantity d := ⟨.mk, amount, fun _ ↦ rfl, fun _ ↦ rfl⟩

theorem exact_add (a b : Quantity d) :
    Exact value (a + b : Checked (Quantity d)) (sum? a.value b.value) :=
  (Extended.exact_add a.amount b.amount).map ofAmount

theorem exact_sub (a b : Quantity d) :
    Exact value (a - b : Checked (Quantity d)) (difference? a.value b.value) :=
  (Extended.exact_sub a.amount b.amount).map ofAmount

theorem exact_neg (a : Quantity d) : Exact value a.neg (some (opposite a.value)) :=
  (Extended.exact_neg a.amount).map ofAmount

theorem sub_of_add (ha : a.isFinite) (hb : b.isFinite)
    (h : (a + b : Checked (Quantity d)) = .ok c) :
    c.isFinite ∧ (c - b : Checked (Quantity d)) = .ok a := by
  obtain ⟨m, hm⟩ := exists_toInt_of_isFinite ha
  obtain ⟨n, hn⟩ := exists_toInt_of_isFinite hb
  have hc := (add_eq_ok_iff hm hn).mp h
  refine ⟨isFinite_of_toInt hc, (sub_eq_ok_iff hc hn).mpr ?_⟩
  rw [hm, Int.add_sub_cancel]

theorem add_of_sub (ha : a.isFinite) (hb : b.isFinite)
    (h : (a - b : Checked (Quantity d)) = .ok c) :
    c.isFinite ∧ (c + b : Checked (Quantity d)) = .ok a := by
  obtain ⟨m, hm⟩ := exists_toInt_of_isFinite ha
  obtain ⟨n, hn⟩ := exists_toInt_of_isFinite hb
  have hc := (sub_eq_ok_iff hm hn).mp h
  refine ⟨isFinite_of_toInt hc, (add_eq_ok_iff hc hn).mpr ?_⟩
  rw [hm, Int.sub_add_cancel]

theorem isFinite_of_neg (ha : a.isFinite) (h : a.neg = .ok c) : c.isFinite := by
  obtain ⟨_ | x | _⟩ := a
  case finite => exact isFinite_of_toInt (ofInt_eq_ok_iff.mp h)
  all_goals cases ha

theorem add_comm (a b : Quantity d) : (a + b : Checked (Quantity d)) = b + a := by
  obtain ⟨_ | x | _⟩ := a <;> obtain ⟨_ | y | _⟩ := b
  case finite.finite =>
    show Quantity.mk <$> Extended.ofInt (x.value + y.value) =
      Quantity.mk <$> Extended.ofInt (y.value + x.value)
    rw [Int.add_comm]
  all_goals rfl

end Quantity

/-! ### Instants -/

namespace Instant

open ExtendedInt

variable {t u : Instant} {span : Duration}

def isFinite (t : Instant) : Bool := t.sinceEpoch.isFinite

def ofSinceEpoch : Duration ≃ Instant := ⟨.mk, sinceEpoch, fun _ ↦ rfl, fun _ ↦ rfl⟩

theorem exact_add (t : Instant) (span : Duration) :
    Exact value (t + span : Checked Instant) (sum? t.value span.value) :=
  (Quantity.exact_add t.sinceEpoch span).map ofSinceEpoch

theorem exact_sub (t : Instant) (span : Duration) :
    Exact value (t - span : Checked Instant) (difference? t.value span.value) :=
  (Quantity.exact_sub t.sinceEpoch span).map ofSinceEpoch

theorem exact_since (t u : Instant) :
    Exact Quantity.value (t - u : Checked Duration) (difference? t.value u.value) :=
  Quantity.exact_sub t.sinceEpoch u.sinceEpoch

theorem sub_of_add {later : Instant} (ht : t.isFinite) (hspan : span.isFinite)
    (h : (t + span : Checked Instant) = .ok later) :
    later.isFinite ∧ (later - span : Checked Instant) = .ok t := by
  obtain ⟨sum, hsum, rfl⟩ := map_eq_ok_iff.mp h
  obtain ⟨hfinite, hback⟩ := Quantity.sub_of_add ht hspan hsum
  exact ⟨hfinite, map_eq_ok_iff.mpr ⟨t.sinceEpoch, hback, rfl⟩⟩

theorem add_of_sub {earlier : Instant} (ht : t.isFinite) (hspan : span.isFinite)
    (h : (t - span : Checked Instant) = .ok earlier) :
    earlier.isFinite ∧ (earlier + span : Checked Instant) = .ok t := by
  obtain ⟨rest, hrest, rfl⟩ := map_eq_ok_iff.mp h
  obtain ⟨hfinite, hback⟩ := Quantity.add_of_sub ht hspan hrest
  exact ⟨hfinite, map_eq_ok_iff.mpr ⟨t.sinceEpoch, hback, rfl⟩⟩

theorem add_of_since (ht : t.isFinite) (hu : u.isFinite)
    (h : (t - u : Checked Duration) = .ok span) :
    span.isFinite ∧ (u + span : Checked Instant) = .ok t := by
  obtain ⟨hfinite, hback⟩ := Quantity.add_of_sub ht hu h
  rw [Quantity.add_comm] at hback
  exact ⟨hfinite, map_eq_ok_iff.mpr ⟨t.sinceEpoch, hback, rfl⟩⟩

end Instant

open ExtendedInt in
/-- Sums, differences and opposites of quantities, and of instants and durations, are those of the
integers with two infinities. They fault where these have none, and where it is an integer that is
not strictly between the extreme words. With finite operands the answer is finite, and what has been
added or subtracted can be subtracted or added again. -/
theorem arithmetic_exact {d : Dimension} (a b : Quantity d) (t u : Instant) (span : Duration) :
    (Exact Quantity.value (a + b : Checked (Quantity d)) (sum? a.value b.value) ∧
      Exact Quantity.value (a - b : Checked (Quantity d)) (difference? a.value b.value) ∧
      Exact Quantity.value a.neg (some (opposite a.value))) ∧
    (Exact Instant.value (t + span : Checked Instant) (sum? t.value span.value) ∧
      Exact Instant.value (t - span : Checked Instant) (difference? t.value span.value) ∧
      Exact Quantity.value (t - u : Checked Duration) (difference? t.value u.value)) ∧
    (a.isFinite → b.isFinite → ∀ c : Quantity d,
      ((a + b : Checked (Quantity d)) = .ok c →
        c.isFinite ∧ (c - b : Checked (Quantity d)) = .ok a) ∧
      ((a - b : Checked (Quantity d)) = .ok c →
        c.isFinite ∧ (c + b : Checked (Quantity d)) = .ok a) ∧
      (a.neg = .ok c → c.isFinite)) ∧
    (t.isFinite → span.isFinite → ∀ t' : Instant,
      ((t + span : Checked Instant) = .ok t' →
        t'.isFinite ∧ (t' - span : Checked Instant) = .ok t) ∧
      ((t - span : Checked Instant) = .ok t' →
        t'.isFinite ∧ (t' + span : Checked Instant) = .ok t)) ∧
    (t.isFinite → u.isFinite → ∀ between : Duration,
      (t - u : Checked Duration) = .ok between →
        between.isFinite ∧ (u + between : Checked Instant) = .ok t) :=
  ⟨⟨Quantity.exact_add a b, Quantity.exact_sub a b, Quantity.exact_neg a⟩,
    ⟨Instant.exact_add t span, Instant.exact_sub t span, Instant.exact_since t u⟩,
    fun ha hb _ ↦
      ⟨Quantity.sub_of_add ha hb, Quantity.add_of_sub ha hb, Quantity.isFinite_of_neg ha⟩,
    fun ht hspan _ ↦ ⟨Instant.sub_of_add ht hspan, Instant.add_of_sub ht hspan⟩,
    fun ht hu _ ↦ Instant.add_of_since ht hu⟩

/-- One byte more than the most that is finite would be stored as an infinity, and is a fault. Half
a millisecond later and the same time earlier again is the same instant. -/
theorem arithmetic_exact_atEdge :
    (∃ fault, ((.exactly 0x7ffffffffffffffe : DataSize) + (.exactly 1 : DataSize) :
      Checked DataSize) = .error fault) ∧
    ((⟨.exactly 1500⟩ : Instant) - (.exactly 500 : Duration) : Checked Instant) =
      .ok ⟨.exactly 1000⟩ := by
  obtain ⟨⟨hadd, -, -⟩, -, -, hback, -⟩ := arithmetic_exact
    (.exactly 0x7ffffffffffffffe : DataSize) (.exactly 1) ⟨.exactly 1000⟩ ⟨0⟩ (.exactly 500)
  refine ⟨hadd.error_iff.mpr (.inr ⟨0x7fffffffffffffff, rfl, by decide⟩), ?_⟩
  exact ((hback rfl rfl ⟨.exactly 1500⟩).1 rfl).2

end Congestion
