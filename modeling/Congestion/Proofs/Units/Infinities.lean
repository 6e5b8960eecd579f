import Congestion.Proofs.Units.Amounts
import Congestion.Proofs.Units.Order
import Mathlib.Algebra.Order.Monoid.WithTop
import Mathlib.Algebra.Ring.Int.Defs
import Mathlib.Data.Int.ConditionallyCompleteOrder
import Mathlib.Order.ConditionallyCompleteLattice.Basic

/-!
# Values among the integers with two infinities

`Extended.value` reads a stored value as an element of the integers with a least and a greatest
element. The order of stored values is the order of these (`Extended.value_le_iff`), and a sum that
is answered is their sum (`Extended.value_add`). A difference that is answered takes off what has
been added (`Extended.value_sub`), also where infinities are among the terms.
-/

set_option autoImplicit false
set_option relaxedAutoImplicit false

namespace Congestion

/-- The integers with two infinities. -/
abbrev ExtendedInt := WithBot (WithTop ℤ)

namespace Extended

def value : Extended → ExtendedInt
  | .negInf => ⊥
  | .finite n => ((n.value : WithTop ℤ) : ExtendedInt)
  | .posInf => ⊤

theorem value_le_iff {a b : Extended} : a.value ≤ b.value ↔ a ≤ b := by
  rw [le_def]
  obtain _ | ⟨x, hx, hx'⟩ | _ := a <;> obtain _ | ⟨y, hy, hy'⟩ | _ := b <;>
    simp [value, word] <;> omega

theorem value_of_toInt {a : Extended} {n : Int} (h : a.toInt = .ok n) :
    a.value = ((n : WithTop ℤ) : ExtendedInt) := by
  obtain ⟨x, rfl, rfl⟩ := toInt_eq_ok_iff.mp h
  rfl

theorem toInt_of_value {a : Extended} {n : ℤ}
    (h : a.value = ((n : WithTop ℤ) : ExtendedInt)) : a.toInt = .ok n := by
  obtain _ | x | _ := a
  case finite =>
    rw [value, WithBot.coe_inj, WithTop.coe_inj] at h
    exact congrArg Except.ok h
  all_goals simp [value] at h

theorem value_add {a b c : Extended} (h : a.add b = .ok c) : c.value = a.value + b.value := by
  obtain _ | x | _ := a <;> obtain _ | y | _ := b
  case finite.finite =>
    rw [value_of_toInt (ofInt_eq_ok_iff.mp h)]
    rfl
  case negInf.posInf => cases h
  case posInf.negInf => cases h
  all_goals
    cases h
    rfl

theorem isAddUnit_value (x : Finite) : IsAddUnit (Extended.finite x).value :=
  ⟨⟨((x.value : WithTop ℤ) : ExtendedInt), ((-x.value : ℤ) : WithTop ℤ),
    by norm_cast; omega, by norm_cast; omega⟩, rfl⟩

/-- Of two infinities of one sign there is no difference, so that what is left has only one value. -/
theorem value_sub {a b c : Extended} {rest : ExtendedInt} (hrest : a.value = rest + b.value)
    (h : a.sub b = .ok c) : c.value = rest := by
  obtain _ | y | _ := b
  case negInf =>
    -- nothing but the infinity itself is a sum with it
    obtain rfl : a = .negInf := by
      obtain _ | x | _ := a
      case negInf => rfl
      all_goals simp [value] at hrest
    cases h
  case posInf =>
    induction rest using WithBot.recBotCoe with
    | bot =>
      rw [WithBot.bot_add] at hrest
      obtain _ | x | _ := a
      case negInf =>
        cases h
        rfl
      all_goals simp [value] at hrest
    | coe rest =>
      have htop : (rest : ExtendedInt) + value .posInf = ⊤ := by
        rw [value, ← WithBot.coe_top, ← WithBot.coe_add, WithTop.add_top]
      rw [htop] at hrest
      obtain _ | x | _ := a
      case posInf => cases h
      all_goals simp [value] at hrest
  case finite =>
    have hdifference : a.value = c.value + (Extended.finite y).value := by
      obtain _ | x | _ := a
      case finite =>
        rw [value_of_toInt (ofInt_eq_ok_iff.mp h), value, value]
        norm_cast
        omega
      all_goals
        cases h
        rfl
    exact (isAddUnit_value y).add_right_cancel (hdifference.symm.trans hrest)

end Extended

namespace Quantity

variable {d : Dimension} {a b c : Quantity d}

def value (a : Quantity d) : ExtendedInt := a.amount.value

theorem value_le_iff : a.value ≤ b.value ↔ a ≤ b := Extended.value_le_iff

theorem value_nonneg_iff {a : Quantity d} : 0 ≤ a.value ↔ 0 ≤ a :=
  @Extended.value_le_iff Extended.zero a.amount

theorem value_pos_iff {a : Quantity d} : 0 < a.value ↔ 0 < a := by
  rw [← not_le, lt_iff_not_ge]
  exact not_congr (@Extended.value_le_iff a.amount Extended.zero)

@[simp] theorem value_zero : (0 : Quantity d).value = 0 := rfl

theorem isAddUnit_value (ha : a.isFinite) : IsAddUnit a.value := by
  obtain ⟨_ | x | _⟩ := a
  case finite => exact Extended.isAddUnit_value x
  all_goals cases ha

theorem value_add (h : (a + b : Checked (Quantity d)) = .ok c) : c.value = a.value + b.value := by
  obtain ⟨amount, hamount, rfl⟩ := map_eq_ok_iff.mp h
  exact Extended.value_add hamount

theorem value_sub {rest : ExtendedInt} (hrest : a.value = rest + b.value)
    (h : (a - b : Checked (Quantity d)) = .ok c) : c.value = rest := by
  obtain ⟨amount, hamount, rfl⟩ := map_eq_ok_iff.mp h
  exact Extended.value_sub hrest hamount

theorem value_foldlM_add {α : Type} {amount : α → Quantity d} {l : List α}
    (h : l.foldlM (fun total x ↦ (total + amount x : Checked (Quantity d))) a = .ok c) :
    c.value = a.value + (l.map fun x ↦ (amount x).value).sum := by
  induction l generalizing a with
  | nil =>
    cases h
    simp
  | cons x rest ih =>
    rw [List.foldlM_cons] at h
    obtain ⟨b, hb, hrest⟩ := bind_eq_ok_iff.mp h
    rw [ih hrest, value_add hb, List.map_cons, List.sum_cons, add_assoc]

end Quantity

namespace Instant

def value (t : Instant) : ExtendedInt := t.sinceEpoch.value

theorem value_le_iff {t u : Instant} : t.value ≤ u.value ↔ t ≤ u := Extended.value_le_iff

theorem value_add {t u : Instant} {span : Duration} (h : (t + span : Checked Instant) = .ok u) :
    u.value = t.value + span.value := by
  obtain ⟨sum, hsum, rfl⟩ := map_eq_ok_iff.mp h
  obtain ⟨amount, hamount, rfl⟩ := map_eq_ok_iff.mp hsum
  exact Extended.value_add hamount

end Instant

end Congestion
