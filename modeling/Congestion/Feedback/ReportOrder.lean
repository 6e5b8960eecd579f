import Congestion.Units.SequenceNumber

/-!
# Order of feedback reports

Reports are numbered modulo 2^16. `ReportOrder` places each one among those seen before it and
counts the ones that never came, came twice or came late. Nothing else depends on the outcome.
-/

set_option autoImplicit false
set_option relaxedAutoImplicit false

namespace Congestion

open SequenceNumber

/-- Where a report falls relative to the ones already seen. -/
inductive Placement
  | first
  | inOrder
  /-- This many reports in between have not come. -/
  | gap (missing : Nat)
  | duplicate
  /-- Older than the newest report seen. -/
  | reordered
deriving DecidableEq

structure ReportOrder where
  unwrapper : Unwrapper := {}
  highest : Option Int := none
  newest : UInt16 := 0
  lost : Nat := 0
  duplicates : Nat := 0
  reordered : Nat := 0
deriving DecidableEq

namespace ReportOrder

def place (highest : Option Int) (n : Int) : Placement :=
  match highest with
  | none => .first
  | some highest =>
    if n = highest then .duplicate
    else if n < highest then .reordered
    else if highest + 1 < n then .gap (n - highest - 1).toNat
    else .inOrder

/-- Takes in the number of one more report. -/
def push (o : ReportOrder) (number : UInt16) : Placement × ReportOrder :=
  let (n, unwrapper) := o.unwrapper.push number
  let placement := place o.highest n
  let o := { o with
    unwrapper
    highest := some (match o.highest with | none => n | some highest => max highest n)
    newest := if o.highest.isSome then latest o.newest number else number }
  (placement,
    match placement with
    | .gap missing => { o with lost := o.lost + missing }
    | .duplicate => { o with duplicates := o.duplicates + 1 }
    | .reordered => { o with reordered := o.reordered + 1 }
    | _ => o)

/-- The number of the newest report seen. -/
def latest? (o : ReportOrder) : Option UInt16 := o.highest.map fun _ ↦ o.newest

end ReportOrder

end Congestion
