import Congestion.Fault

/-!
# Integers with two infinities

The values a 64-bit quantity can hold: the integers strictly between the two extreme words, and
an infinity for each of these words. Arithmetic answers the extended result exactly, or is a
fault: `undefined` for infinity minus itself and for an extreme word as a finite value,
`overflow` for a finite result that no word holds.
-/

set_option autoImplicit false
set_option relaxedAutoImplicit false

namespace Congestion

/-- An integer strictly between the two extreme signed 64-bit words. -/
structure Finite where
  value : Int
  lower : -0x8000000000000000 < value
  upper : value < 0x7fffffffffffffff
deriving DecidableEq

inductive Extended
  | negInf
  | finite (n : Finite)
  | posInf
deriving DecidableEq

namespace Extended

/-- The signed 64-bit word a value is stored as. -/
def word : Extended → Int
  | .negInf => -0x8000000000000000
  | .finite n => n.value
  | .posInf => 0x7fffffffffffffff

theorem word_injective {a b : Extended} (h : a.word = b.word) : a = b := by
  obtain _ | ⟨x, hx, hx'⟩ | _ := a <;> obtain _ | ⟨y, hy, hy'⟩ | _ := b <;>
    simp only [word] at h <;> first | rfl | (exfalso; omega) | (subst h; rfl)

/-- Infinities lie beyond every finite value. -/
instance : LE Extended := ⟨fun a b ↦ a.word ≤ b.word⟩
instance : LT Extended := ⟨fun a b ↦ a.word < b.word⟩
instance (a b : Extended) : Decidable (a ≤ b) := inferInstanceAs (Decidable (a.word ≤ b.word))
instance (a b : Extended) : Decidable (a < b) := inferInstanceAs (Decidable (a.word < b.word))

theorem le_def (a b : Extended) : a ≤ b ↔ a.word ≤ b.word := Iff.rfl

def zero : Extended := .finite ⟨0, by decide, by decide⟩

def isFinite : Extended → Bool
  | .finite _ => true
  | _ => false

/-- A value that has to be finite. -/
def ofInt (n : Int) : Checked Extended :=
  if h : -0x8000000000000000 < n ∧ n < 0x7fffffffffffffff then .ok (.finite ⟨n, h.1, h.2⟩)
  else if n = -0x8000000000000000 ∨ n = 0x7fffffffffffffff then .error .undefined
  else .error .overflow

/-- The nearest storable value: an integer beyond the finite ones is infinite. -/
def saturate (n : Int) : Extended :=
  if h : -0x8000000000000000 < n ∧ n < 0x7fffffffffffffff then .finite ⟨n, h.1, h.2⟩
  else if n < 0 then .negInf else .posInf

def toFinite : Extended → Checked Finite
  | .finite n => .ok n
  | _ => .error .undefined

def toInt (a : Extended) : Checked Int := a.toFinite.map Finite.value

/-- The integer of a finite value, or a fallback for an infinity. -/
def toIntOr (a : Extended) (fallback : Int) : Int :=
  match a with
  | .finite n => n.value
  | _ => fallback

/-! ### Arithmetic -/

def add : Extended → Extended → Checked Extended
  | .posInf, .negInf => .error .undefined
  | .negInf, .posInf => .error .undefined
  | .posInf, _ => .ok .posInf
  | _, .posInf => .ok .posInf
  | .negInf, _ => .ok .negInf
  | _, .negInf => .ok .negInf
  | .finite a, .finite b => ofInt (a.value + b.value)

def sub : Extended → Extended → Checked Extended
  | .posInf, .posInf => .error .undefined
  | .negInf, .negInf => .error .undefined
  | .posInf, _ => .ok .posInf
  | _, .negInf => .ok .posInf
  | .negInf, _ => .ok .negInf
  | _, .posInf => .ok .negInf
  | .finite a, .finite b => ofInt (a.value - b.value)

def neg : Extended → Checked Extended
  | .posInf => .ok .negInf
  | .negInf => .ok .posInf
  | .finite a => ofInt (-a.value)

/-- The greater of the value and `low`, but no more than `high`. -/
def clamp (a low high : Extended) : Extended :=
  let raised := if a ≤ low then low else a
  if high ≤ raised then high else raised

/-- Division with the fraction cut off. -/
def quotient (a : Extended) (divisor : Int) : Checked Extended := do
  let n ← a.toInt
  if divisor = 0 then throw .divisionByZero
  ofInt (n.tdiv divisor)

def times (a : Extended) (factor : Int) : Checked Extended := do
  let n ← a.toInt
  ofInt (n * factor)

/-- The integer nearest to `n / d`, a half going away from zero. -/
def nearest (n d : Int) : Int :=
  if d ≤ 2 * (n.tmod d).natAbs then n.tdiv d + n.sign else n.tdiv d

/-! ### Binary floating point -/

/-- The float nearest to a signed 64-bit integer. -/
def floatOfWord (n : Int) : Float :=
  if n < 0 then -n.natAbs.toUInt64.toFloat else n.toNat.toUInt64.toFloat

def toFloat : Extended → Float
  | .posInf => 1.0 / 0.0
  | .negInf => -1.0 / 0.0
  | .finite n => floatOfWord n.value

/-- A float with the sign of `x` taken off, made an integer and given its sign back. -/
def signedBy (x : Float) (integer : Float → Nat) : Int :=
  if x < 0.0 then -(integer (-x) : Int) else integer x

/-- The integer part of a float that is not negative, no more than an unsigned 64-bit word. -/
def wholePart (x : Float) : Nat := x.toUInt64.toNat

/-- The integer nearest to a float that is not negative, a half going up. -/
def nearestWhole (x : Float) : Nat :=
  let whole := x.toUInt64
  if 0.5 ≤ x - whole.toFloat then whole.toNat + 1 else whole.toNat

/-- A number beyond the finite values is infinite. -/
def ofFloatBy (integer : Float → Nat) (x : Float) : Checked Extended :=
  if x.isNaN then .error .undefined else .ok (saturate (signedBy x integer))

/-- The fraction is cut off. -/
def ofFloat : Float → Checked Extended := ofFloatBy wholePart

/-- The nearest integer, a half going away from zero. -/
def ofFloatNearest : Float → Checked Extended := ofFloatBy nearestWhole

def scale (a : Extended) (factor : Float) : Checked Extended := ofFloatNearest (a.toFloat * factor)

def unscale (a : Extended) (divisor : Float) : Checked Extended :=
  ofFloatNearest (a.toFloat / divisor)

end Extended

end Congestion
