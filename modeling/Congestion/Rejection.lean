import Congestion.Fault

/-!
# Rejections

What a peer can do wrong, and what a sender cannot make sense of. A rejection is an answer: it is
told to the caller and the computation goes on. A `Failure` is either a rejection or a fault.
-/

set_option autoImplicit false
set_option relaxedAutoImplicit false

namespace Congestion

inductive HeaderDefect
  | version
  | notReceiverFeedback
  | reservedStream
deriving DecidableEq

inductive Rejection
  /-- The report would need more than 65535 words after the first. -/
  | lengthOverflow (bytes : Nat)
  /-- An arrival lies after the report or too long before it. -/
  | arrivalOffset (ssrc : UInt32) (seq : UInt16) (offset : Int)
  /-- A stream covers more sequence numbers than its count can tell. -/
  | spanOverflow (ssrc : UInt32) (count : Nat)
  | truncated
  | invalidHeader (defect : HeaderDefect)
  | ledgerMiss (ssrc : UInt32) (seq : UInt16)
  | emptyFeedback
  | periodUnknown
deriving DecidableEq

inductive Failure
  | fault (f : Fault)
  | rejected (r : Rejection)
deriving DecidableEq

abbrev Outcome (α : Type) : Type := Except Failure α

namespace Outcome

def ofChecked {α : Type} : Checked α → Outcome α
  | .ok a => .ok a
  | .error f => .error (.fault f)

def ofRejected {α : Type} : Except Rejection α → Outcome α
  | .ok a => .ok a
  | .error r => .error (.rejected r)

/-- A rejection as an answer, with faults set apart. -/
def settle {α : Type} : Outcome α → Checked (Except Rejection α)
  | .ok a => .ok (.ok a)
  | .error (.rejected r) => .ok (.error r)
  | .error (.fault f) => .error f

end Outcome

instance : MonadLift (Except Fault) (Except Failure) := ⟨Outcome.ofChecked⟩
instance : MonadLift (Except Rejection) (Except Failure) := ⟨Outcome.ofRejected⟩

/-! ### Wording -/

def HeaderDefect.message : HeaderDefect → String
  | .version => "unsupported RTCP version"
  | .notReceiverFeedback => "not a receiver feedback report"
  | .reservedStream => "reserved SSRC must be zero"

def Rejection.message : Rejection → String
  | .lengthOverflow bytes => s!"feedback report of {bytes} bytes overflows the RTCP length field"
  | .arrivalOffset ssrc seq offset =>
    s!"arrival offset {offset} ms of ssrc={ssrc} seq={seq} does not fit 13 bits"
  | .spanOverflow ssrc count => s!"ssrc={ssrc} spans {count} sequence numbers"
  | .truncated => "buffer too short"
  | .invalidHeader defect => "invalid RTCP packet: " ++ defect.message
  | .ledgerMiss ssrc seq => s!"no sent record for ssrc={ssrc} seq={seq}"
  | .emptyFeedback => "feedback report acknowledges no packets"
  | .periodUnknown => "cannot reconstruct the reported period"

end Congestion
