import Congestion.Rejection
import Congestion.Wire.Words

/-!
# Packet headers

Every control packet opens with four bytes: version, padding bit and format, packet type, and the
length of what follows in 32-bit words. Reading answers beside the result what is left of the
input: all of it when fewer than four bytes are there, and all but the first byte when that byte
tells another version.
-/

set_option autoImplicit false
set_option relaxedAutoImplicit false

namespace Congestion

structure Header where
  padding : Bool
  /-- The feedback message type, or a count in packets without feedback. -/
  format : UInt8
  packetType : UInt8
  /-- In 32-bit words, the header not counted. -/
  length : UInt16
deriving DecidableEq

namespace Header

/-- The size of the packet announced, header included. -/
def packetSize (h : Header) : Nat := (h.length.toNat + 1) * 4

def bodySize (h : Header) : Nat := h.length.toNat * 4

/-- Version 2, and the five low bits of the format. -/
def encode (h : Header) : List UInt8 :=
  [0x80 + (if h.padding then 0x20 else 0) + h.format % 0x20, h.packetType] ++ Words.bytes h.length

def encodeInto (h : Header) (buf : Buffer) : Except Rejection Unit × Buffer :=
  if buf.hasRoom 4 then (.ok (), buf.append h.encode) else (.error .truncated, buf)

def decode : List UInt8 → Except Rejection Header × List UInt8
  | first :: packetType :: high :: low :: rest =>
    if first / 0x40 = 2 then
      (.ok { padding := first / 0x20 % 2 = 1, format := first % 0x20, packetType,
             length := Words.word high low }, rest)
    else (.error (.invalidHeader .version), packetType :: high :: low :: rest)
  | input => (.error .truncated, input)

/-- The body that a header announces, if all of it is there. -/
def takeBody (h : Header) (input : List UInt8) : Except Rejection (List UInt8) × List UInt8 :=
  let body := input.take h.bodySize
  if body.length < h.bodySize then (.error .truncated, input)
  else (.ok body, input.drop h.bodySize)

theorem length_decode_lt {input rest : List UInt8} {h : Header}
    (hd : decode input = (.ok h, rest)) : rest.length < input.length := by
  unfold decode at hd
  split at hd
  · split at hd
    · cases hd
      simp
      omega
    · cases hd
  · cases hd

theorem decode_eq_ok_iff {input rest : List UInt8} {h : Header} :
    decode input = (.ok h, rest) ↔
      ∃ first high low, input = first :: h.packetType :: high :: low :: rest ∧ first / 0x40 = 2 ∧
        h.padding = decide (first / 0x20 % 2 = 1) ∧ h.format = first % 0x20 ∧
        h.length = Words.word high low := by
  constructor
  · intro hd
    unfold decode at hd
    split at hd
    next first packetType high low rest =>
      split at hd
      next hversion => cases hd; exact ⟨first, high, low, rfl, hversion, rfl, rfl, rfl⟩
      next => cases hd
    next => cases hd
  · rintro ⟨first, high, low, rfl, hversion, hpadding, hformat, hlength⟩
    cases h
    simp_all [decode]

theorem takeBody_eq_ok_iff {h : Header} {input body rest : List UInt8} :
    h.takeBody input = (.ok body, rest) ↔ input = body ++ rest ∧ body.length = h.bodySize := by
  unfold takeBody
  dsimp only
  constructor
  · intro ht
    split at ht
    · cases ht
    · cases ht
      exact ⟨(List.take_append_drop _ _).symm, by simp at *; omega⟩
  · rintro ⟨rfl, hlength⟩
    simp [← hlength]

theorem length_takeBody_le (h : Header) (input : List UInt8) :
    (h.takeBody input).2.length ≤ input.length := by
  unfold takeBody
  dsimp only
  split <;> simp

end Header

end Congestion
