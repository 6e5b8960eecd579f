import Congestion.Units.Extended

/-!
# Quantities

A `Quantity` is an extended integer with a dimension: bits per second, bytes or microseconds.
Quantities of one dimension add, subtract, negate, compare, clamp and scale. An `Instant` is a
time since an unspecified epoch; instants differ by a duration and move by one.
-/

set_option autoImplicit false
set_option relaxedAutoImplicit false

namespace Congestion

inductive Dimension
  | rate
  | size
  | time

/-- Bits per second, bytes or microseconds, by its dimension. -/
structure Quantity (d : Dimension) where
  amount : Extended
deriving DecidableEq

abbrev DataRate := Quantity .rate
abbrev DataSize := Quantity .size
abbrev Duration := Quantity .time

namespace Quantity

variable {d : Dimension}

instance : LE (Quantity d) := ⟨fun a b ↦ a.amount ≤ b.amount⟩
instance : LT (Quantity d) := ⟨fun a b ↦ a.amount < b.amount⟩
instance (a b : Quantity d) : Decidable (a ≤ b) := inferInstanceAs (Decidable (a.amount ≤ b.amount))
instance (a b : Quantity d) : Decidable (a < b) := inferInstanceAs (Decidable (a.amount < b.amount))
instance : Max (Quantity d) := maxOfLe
instance : Min (Quantity d) := minOfLe
instance : Zero (Quantity d) := ⟨⟨Extended.zero⟩⟩
instance : Inhabited (Quantity d) := ⟨0⟩

def infinity : Quantity d := ⟨.posInf⟩
def negInfinity : Quantity d := ⟨.negInf⟩
def isFinite (a : Quantity d) : Bool := a.amount.isFinite
def toInt (a : Quantity d) : Checked Int := a.amount.toInt
def toFloat (a : Quantity d) : Float := a.amount.toFloat
def ofInt (n : Int) : Checked (Quantity d) := .mk <$> Extended.ofInt n
def ofFloat (x : Float) : Checked (Quantity d) := .mk <$> Extended.ofFloat x

/-- A constant, whose size is settled when it is written down. -/
def exactly (n : Int)
    (fits : decide (-0x8000000000000000 < n ∧ n < 0x7fffffffffffffff) = true := by
      exact Eq.refl true) : Quantity d :=
  ⟨.finite ⟨n, (of_decide_eq_true fits).1, (of_decide_eq_true fits).2⟩⟩

/-! ### Arithmetic -/

instance : HAdd (Quantity d) (Quantity d) (Checked (Quantity d)) :=
  ⟨fun a b ↦ .mk <$> a.amount.add b.amount⟩

instance : HSub (Quantity d) (Quantity d) (Checked (Quantity d)) :=
  ⟨fun a b ↦ .mk <$> a.amount.sub b.amount⟩

def neg (a : Quantity d) : Checked (Quantity d) := .mk <$> a.amount.neg
def times (a : Quantity d) (factor : Int) : Checked (Quantity d) := .mk <$> a.amount.times factor
def quotient (a : Quantity d) (n : Int) : Checked (Quantity d) := .mk <$> a.amount.quotient n
def scale (a : Quantity d) (x : Float) : Checked (Quantity d) := .mk <$> a.amount.scale x
def unscale (a : Quantity d) (x : Float) : Checked (Quantity d) := .mk <$> a.amount.unscale x
def clamp (a low high : Quantity d) : Quantity d := ⟨a.amount.clamp low.amount high.amount⟩
def ratio (a b : Quantity d) : Float := a.toFloat / b.toFloat

/-- In units of `n`, to the nearest whole number. -/
def rounded (a : Quantity d) (n : Int) : Checked Int := (Extended.nearest · n) <$> a.toInt

/-- In units of `n`, or a fallback for an infinity. -/
def roundedOr (a : Quantity d) (n fallback : Int) : Int :=
  if a.isFinite then Extended.nearest (a.amount.toIntOr 0) n else fallback

end Quantity

/-! ### Rates and sizes -/

namespace DataRate

def ofBytesPerSec (n : Int) : Checked DataRate := Quantity.ofInt (n * 8)
def ofKilobitsPerSec (n : Int) : Checked DataRate := Quantity.ofInt (n * 1000)
def ofBytesPerSecFloat (x : Float) : Checked DataRate := Quantity.ofFloat (x * 8.0)

end DataRate

namespace Quantity

def bps (r : DataRate) : Checked Int := r.toInt
def kbps (r : DataRate) : Checked Int := r.rounded 1000
def bytes (s : DataSize) : Checked Int := s.toInt

/-- The rate that moves a size in a duration. -/
def rateOver (s : DataSize) (t : Duration) : Checked DataRate := do
  let micros ← t.toInt
  ofFloat (s.toFloat * 8000000.0 / Extended.floatOfWord micros)

/-- The time a size takes at a rate, cut off to whole microseconds. -/
def timeAt (s : DataSize) (r : DataRate) : Checked Duration :=
  if r = 0 then .ok infinity
  else if r = infinity then .ok 0
  else do
    let microbits ← signed64 ((← s.bytes) * 8000000)
    ofInt (microbits.tdiv (← r.bps))

/-- The size a rate moves in a duration, to the nearest byte. -/
def sizeOver (r : DataRate) (t : Duration) : Checked DataSize := do
  let microbits ← signed64 ((← r.bps) * (← t.toInt))
  ofInt ((← signed64 (microbits + 4000000)).tdiv 8000000)

end Quantity

/-! ### Durations and instants -/

namespace Duration

def ofMillis (n : Int) : Checked Duration := Quantity.ofInt (n * 1000)
def ofSeconds (n : Int) : Checked Duration := Quantity.ofInt (n * 1000000)
def ofMillisFloat (x : Float) : Checked Duration := Quantity.ofFloat (x * 1000.0)

end Duration

namespace Quantity

def micros (t : Duration) : Checked Int := t.toInt
def millis (t : Duration) : Checked Int := t.rounded 1000
def seconds (t : Duration) : Checked Int := t.rounded 1000000

def abs (t : Duration) : Checked Duration := do
  let n ← t.micros
  if n < 0 then ofInt (-n) else return t

end Quantity

/-- A point in time, as the duration since an unspecified epoch. -/
structure Instant where
  sinceEpoch : Duration
deriving DecidableEq

namespace Instant

instance : LE Instant := ⟨fun a b ↦ a.sinceEpoch ≤ b.sinceEpoch⟩
instance : LT Instant := ⟨fun a b ↦ a.sinceEpoch < b.sinceEpoch⟩
instance (a b : Instant) : Decidable (a ≤ b) :=
  inferInstanceAs (Decidable (a.sinceEpoch ≤ b.sinceEpoch))
instance (a b : Instant) : Decidable (a < b) :=
  inferInstanceAs (Decidable (a.sinceEpoch < b.sinceEpoch))
instance : Inhabited Instant := ⟨⟨0⟩⟩

instance : HAdd Instant Duration (Checked Instant) := ⟨fun t d ↦ Instant.mk <$> (t.sinceEpoch + d)⟩
instance : HSub Instant Duration (Checked Instant) := ⟨fun t d ↦ Instant.mk <$> (t.sinceEpoch - d)⟩
instance : HSub Instant Instant (Checked Duration) := ⟨fun t u ↦ t.sinceEpoch - u.sinceEpoch⟩

/-- The time since the epoch of an instant that is known. -/
def toFinite (t : Instant) : Checked Finite := t.sinceEpoch.amount.toFinite

/-- Whole milliseconds since the epoch, rounded down. -/
def millisFloor (t : Instant) : Checked Int := (· / 1000) <$> t.sinceEpoch.micros

end Instant

/-- The whole milliseconds in a number of microseconds, rounded down. -/
def Finite.millisFloor (n : Finite) : Int := n.value / 1000

def Finite.toInstant (n : Finite) : Instant := ⟨⟨.finite n⟩⟩

/-! ### Written form -/

namespace Quantity

private def infiniteText (a : Extended) (unit : String) : String :=
  (if a = .posInf then "+inf " else "-inf ") ++ unit

/-- Kilobits where the rate is a whole number of them, bits otherwise. -/
def rateText (r : DataRate) : String :=
  match r.amount with
  | .finite n =>
    if n.value = 0 ∨ n.value.tmod 1000 ≠ 0 then toString n.value ++ " bps"
    else toString (n.value.tdiv 1000) ++ " kbps"
  | a => infiniteText a "bps"

def sizeText (s : DataSize) : String :=
  match s.amount with
  | .finite n => toString n.value ++ " bytes"
  | a => infiniteText a "bytes"

/-- The coarsest of seconds, milliseconds and microseconds that is exact. -/
def timeText (t : Duration) : String :=
  match t.amount with
  | .finite n =>
    if n.value = 0 ∨ n.value.tmod 1000 ≠ 0 then toString n.value ++ " us"
    else if (n.value.tdiv 1000).tmod 1000 ≠ 0 then toString (n.value.tdiv 1000) ++ " ms"
    else toString (n.value.tdiv 1000000) ++ " s"
  | a => infiniteText a "ms"

end Quantity

end Congestion
