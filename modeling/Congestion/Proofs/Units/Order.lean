import Congestion.Units.Quantity

/-!
# Order and clamping

Quantities compare as the words they are stored in, infinities included, so their order is linear
and `omega` decides it once `Quantity.le_iff` and `Quantity.lt_iff` have shown the words. A clamped
quantity is within its bounds (`within_clamp`), and one within its bounds is clamped to itself
(`clamp_of_within`).
-/

set_option autoImplicit false
set_option relaxedAutoImplicit false

namespace Congestion.Quantity

variable {d : Dimension} {a b low high : Quantity d}

def word (a : Quantity d) : Int := a.amount.word

theorem le_iff : a ≤ b ↔ a.word ≤ b.word := Iff.rfl

theorem lt_iff : a < b ↔ a.word < b.word := Iff.rfl

theorem word_inj : a.word = b.word ↔ a = b := by
  constructor
  · intro h
    obtain ⟨a⟩ := a
    obtain ⟨b⟩ := b
    exact congrArg Quantity.mk (Extended.word_injective h)
  · rintro rfl
    rfl

@[simp] theorem word_zero : (0 : Quantity d).word = 0 := rfl

theorem not_le : ¬ a ≤ b ↔ b < a := by
  rw [le_iff, lt_iff, Int.not_le]

theorem not_lt : ¬ a < b ↔ b ≤ a := by
  rw [le_iff, lt_iff, Int.not_lt]

theorem le_iff_lt_or_eq : a ≤ b ↔ a < b ∨ a = b := by
  rw [le_iff, lt_iff, ← word_inj, Int.le_iff_lt_or_eq]

instance : Std.IsLinearOrder (Quantity d) where
  le_refl a := Int.le_refl a.word
  le_trans a b c := Int.le_trans (a := a.word) (b := b.word) (c := c.word)
  le_antisymm _ _ hab hba := word_inj.mp (Int.le_antisymm hab hba)
  le_total a b := Int.le_total a.word b.word

instance : Std.LawfulOrderMax (Quantity d) where
  max_eq_or a b := by
    show (if a ≤ b then b else a) = a ∨ (if a ≤ b then b else a) = b
    split
    · exact Or.inr rfl
    · exact Or.inl rfl
  max_le_iff a b c := by
    show (if a ≤ b then b else a) ≤ c ↔ a ≤ c ∧ b ≤ c
    simp only [le_iff]
    split <;> omega

theorem isFinite_iff : a.isFinite ↔ negInfinity < a ∧ a < infinity := by
  obtain ⟨_ | ⟨n, hlower, hupper⟩ | _⟩ := a
  · exact iff_of_false Bool.false_ne_true fun h ↦ Int.lt_irrefl _ h.1
  · exact iff_of_true rfl ⟨hlower, hupper⟩
  · exact iff_of_false Bool.false_ne_true fun h ↦ Int.lt_irrefl _ h.2

theorem zero_lt_infinity : (0 : Quantity d) < infinity := by
  show (0 : Int) < 0x7fffffffffffffff
  decide

theorem infinity_le_iff : infinity ≤ a ↔ a = infinity := by
  refine ⟨fun h ↦ ?_, fun h ↦ h ▸ Int.le_refl _⟩
  obtain ⟨_ | x | _⟩ := a
  case negInf =>
    have hword : (0x7fffffffffffffff : Int) ≤ -0x8000000000000000 := h
    omega
  case finite => exact absurd x.upper (Int.not_lt.mpr h)
  case posInf => rfl

theorem isFinite_of_nonneg (ha : 0 ≤ a) (hlt : a < infinity) : a.isFinite := by
  have hword : (negInfinity : Quantity d).word = -0x8000000000000000 := rfl
  rw [le_iff, word_zero] at ha
  refine isFinite_iff.mpr ⟨?_, hlt⟩
  rw [lt_iff]
  omega

theorem max_eq_left (h : b ≤ a) : max a b = a := by
  show (if a ≤ b then b else a) = a
  split
  next hle =>
    rw [le_iff] at h hle
    exact word_inj.mp (by omega)
  next => rfl

/-! ### Clamping -/

/-- Neither below nor above the bounds. -/
structure Within (a low high : Quantity d) : Prop where
  low : low ≤ a
  high : a ≤ high

theorem clamp_eq (a low high : Quantity d) : a.clamp low high =
    if high ≤ (if a ≤ low then low else a) then high else if a ≤ low then low else a := by
  have hraised : (if a.amount ≤ low.amount then low.amount else a.amount) =
      (if a ≤ low then low else a).amount := by
    by_cases h : a ≤ low
    · rw [if_pos h, if_pos (show a.amount ≤ low.amount from h)]
    · rw [if_neg h, if_neg (show ¬ a.amount ≤ low.amount from h)]
  show Quantity.mk (Extended.clamp a.amount low.amount high.amount) = _
  unfold Extended.clamp
  dsimp only
  rw [hraised]
  by_cases h : high ≤ (if a ≤ low then low else a)
  · rw [if_pos h]
    exact congrArg Quantity.mk (if_pos h)
  · rw [if_neg h]
    exact congrArg Quantity.mk (if_neg h)

theorem within_clamp (a : Quantity d) (h : low ≤ high) : (a.clamp low high).Within low high := by
  rw [clamp_eq]
  rw [le_iff] at h
  constructor <;> rw [le_iff] <;> split <;> split <;> simp_all only [le_iff] <;> omega

theorem clamp_of_within (h : a.Within low high) : a.clamp low high = a := by
  obtain ⟨hlow, hhigh⟩ := h
  rw [le_iff] at hlow hhigh
  rw [clamp_eq, ← word_inj]
  split <;> split <;> simp_all only [le_iff] <;> omega

end Congestion.Quantity
