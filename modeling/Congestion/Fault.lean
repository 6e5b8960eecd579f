/-!
# Faults and word-sized results

A computation on stored quantities either answers or stops with a `Fault`; nothing is ever
answered in place of a value that does not fit. `signed64`, `unsigned32` and `unsigned64Sub`
are the only places where the width of a word is looked at.
-/

set_option autoImplicit false
set_option relaxedAutoImplicit false

namespace Congestion

/-- Why a computation has no answer. -/
inductive Fault
  /-- An exact result lies outside the word that has to hold it. -/
  | overflow
  | divisionByZero
  /-- An infinity where a finite value is needed, infinity minus itself, or not a number. -/
  | undefined
deriving DecidableEq

abbrev Checked (α : Type) : Type := Except Fault α

/-- An exact integer result, held in a signed 64-bit word. -/
def signed64 (n : Int) : Checked Int :=
  if -0x8000000000000000 ≤ n ∧ n ≤ 0x7fffffffffffffff then .ok n else .error .overflow

/-- A count, held in an unsigned 32-bit word. -/
def unsigned32 (n : Nat) : Checked Nat :=
  if n ≤ 0xffffffff then .ok n else .error .overflow

/-- A difference of unsigned 64-bit words, which has to be a word as well. -/
def unsigned64Sub (a b : UInt64) : Checked UInt64 :=
  if b ≤ a then .ok (a - b) else .error .overflow

theorem signed64_eq_ok_iff {n m : Int} :
    signed64 n = .ok m ↔ m = n ∧ -0x8000000000000000 ≤ n ∧ n ≤ 0x7fffffffffffffff := by
  grind [signed64]

theorem signed64_eq_error_iff {n : Int} {f : Fault} : signed64 n = .error f ↔
    f = .overflow ∧ (n < -0x8000000000000000 ∨ 0x7fffffffffffffff < n) := by
  grind [signed64]

theorem unsigned32_eq_ok_iff {n m : Nat} :
    unsigned32 n = .ok m ↔ m = n ∧ n ≤ 0xffffffff := by
  grind [unsigned32]

theorem unsigned64Sub_eq_ok_iff {a b c : UInt64} :
    unsigned64Sub a b = .ok c ↔ b ≤ a ∧ c = a - b := by
  grind [unsigned64Sub]

end Congestion
