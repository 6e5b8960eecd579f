/-!
# Sequence numbers

Sixteen-bit sequence numbers wrap, so order between them is a matter of distance: `isNewer a b`
holds when `a` is ahead of `b` by less than half the space. An `Unwrapper` extends a stream of
numbers to the integers, each step going to the nearest integer of the right residue.
-/

set_option autoImplicit false
set_option relaxedAutoImplicit false

namespace Congestion.SequenceNumber

/-- Numbers exactly half the space apart are ordered by size. The relation is not transitive. -/
def isNewer (a b : UInt16) : Bool :=
  if a - b = 0x8000 then b < a else 0 < a - b && a - b < 0x8000

def latest (a b : UInt16) : UInt16 := if isNewer a b then a else b

/-- The integer last produced, if any. -/
structure Unwrapper where
  last : Option Int := none
deriving DecidableEq

/-- The first number stands for itself. -/
def Unwrapper.next (u : Unwrapper) (n : UInt16) : Int :=
  match u.last with
  | none => n.toNat
  | some last =>
    let wrapped : UInt16 := UInt16.ofNat (last % 0x10000).toNat
    if isNewer n wrapped then last + (n - wrapped).toNat else last - (wrapped - n).toNat

def Unwrapper.push (u : Unwrapper) (n : UInt16) : Int × Unwrapper := (u.next n, ⟨some (u.next n)⟩)

end Congestion.SequenceNumber
