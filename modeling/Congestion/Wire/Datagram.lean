import Congestion.Wire.ReportFormat

/-!
# Packets and datagrams

A datagram is a sequence of control packets. Feedback reports among them are read, and every other
packet is carried through as it came.
-/

set_option autoImplicit false
set_option relaxedAutoImplicit false

namespace Congestion

inductive Packet
  | feedback (report : Report)
  | other (header : Header) (payload : List UInt8)

namespace Packet

def decode (input : List UInt8) : Outcome Packet × List UInt8 :=
  match Header.decode input with
  | (.error e, rest) => (.error (.rejected e), rest)
  | (.ok header, rest) =>
    match header.takeBody rest with
    | (.error e, rest) => (.error (.rejected e), rest)
    | (.ok body, rest) =>
      if header.isReport then (.feedback <$> Report.ofWords (Words.ofBytes body), rest)
      else (.ok (.other header body), rest)

def wireLen : Packet → Nat
  | .feedback report => report.wireLen
  | .other _ payload => 4 + payload.length

def encodeInto (p : Packet) (buf : Buffer) : Outcome Unit × Buffer :=
  match p with
  | .feedback report => report.encodeInto buf
  | .other header payload =>
    if buf.hasRoom (4 + payload.length) then (.ok (), buf.append (header.encode ++ payload))
    else (.error (.rejected .truncated), buf)

theorem length_decode_lt {input rest : List UInt8} {p : Packet}
    (hd : decode input = (.ok p, rest)) : rest.length < input.length := by
  unfold decode at hd
  split at hd
  · cases hd
  next header tail hheader =>
    have hlt := Header.length_decode_lt hheader
    have hle := header.length_takeBody_le tail
    split at hd
    · cases hd
    next body rest' hbody =>
      rw [hbody] at hle
      split at hd <;>
        (rw [Prod.mk.injEq] at hd; rw [← hd.2]; exact Nat.lt_of_le_of_lt hle hlt)

end Packet

namespace Datagram

/-- The packets of a datagram in order, or the first rejection among them. -/
def packets (input : List UInt8) : Outcome (List Packet) :=
  match input with
  | [] => .ok []
  | b :: bs =>
    match _h : Packet.decode (b :: bs) with
    | (.error e, _) => .error e
    | (.ok p, rest) =>
      match packets rest with
      | .ok ps => .ok (p :: ps)
      | .error e => .error e
termination_by input.length
decreasing_by exact Packet.length_decode_lt _h

def reports (input : List UInt8) : Outcome (List Report) :=
  (packets input).map fun ps ↦ ps.filterMap fun
    | .feedback report => some report
    | .other _ _ => none

end Datagram

end Congestion
