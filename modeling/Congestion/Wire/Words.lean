/-!
# Bytes and words

Packets are built from 16-bit words in network order, most significant byte first. `Words.toBytes`
writes words and `Words.ofBytes` reads them back. A `Buffer` holds what has been written and how
much may still be.
-/

set_option autoImplicit false
set_option relaxedAutoImplicit false

namespace Congestion

namespace Words

def bytes (w : UInt16) : List UInt8 := [(w / 256).toUInt8, w.toUInt8]

def word (high low : UInt8) : UInt16 := high.toUInt16 * 256 + low.toUInt16

def toBytes (ws : List UInt16) : List UInt8 := ws.flatMap bytes

def ofBytesAux : List UInt8 → List UInt16 → List UInt16
  | high :: low :: rest, acc => ofBytesAux rest (word high low :: acc)
  | _, acc => acc.reverse

/-- A last byte without a partner is left out. -/
def ofBytes (bs : List UInt8) : List UInt16 := ofBytesAux bs []

def split32 (n : UInt32) : List UInt16 := [(n / 65536).toUInt16, n.toUInt16]

def join32 (high low : UInt16) : UInt32 := high.toUInt32 * 65536 + low.toUInt32

theorem word_div_mod (w : UInt16) : word (w / 256).toUInt8 w.toUInt8 = w := by
  apply UInt16.toNat_inj.mp
  have := w.toNat_lt
  simp [word]
  omega

theorem join32_div_mod (n : UInt32) : join32 (n / 65536).toUInt16 n.toUInt16 = n := by
  apply UInt32.toNat_inj.mp
  have := n.toNat_lt
  simp [join32]
  omega

theorem bytes_word (high low : UInt8) : bytes (word high low) = [high, low] := by
  have := high.toNat_lt
  have := low.toNat_lt
  unfold bytes word
  congr 1
  · apply UInt8.toNat_inj.mp
    simp
    omega
  · congr 1
    apply UInt8.toNat_inj.mp
    simp

theorem split32_join32 (high low : UInt16) : split32 (join32 high low) = [high, low] := by
  have := high.toNat_lt
  have := low.toNat_lt
  unfold split32 join32
  congr 1
  · apply UInt16.toNat_inj.mp
    simp
    omega
  · congr 1
    apply UInt16.toNat_inj.mp
    simp

theorem ofBytesAux_eq : ∀ (bs : List UInt8) (acc : List UInt16),
    ofBytesAux bs acc = acc.reverse ++ ofBytes bs
  | high :: low :: rest, acc => by
    unfold ofBytes
    rw [ofBytesAux, ofBytesAux, ofBytesAux_eq rest (_ :: acc), ofBytesAux_eq rest [_]]
    simp
  | [], acc => by simp [ofBytes, ofBytesAux]
  | [_], acc => by simp [ofBytes, ofBytesAux]

@[simp] theorem ofBytes_cons_cons (high low : UInt8) (rest : List UInt8) :
    ofBytes (high :: low :: rest) = word high low :: ofBytes rest := by
  rw [ofBytes, ofBytesAux, ofBytesAux_eq]
  simp

@[simp] theorem ofBytes_toBytes (ws : List UInt16) : ofBytes (toBytes ws) = ws := by
  induction ws with
  | nil => rfl
  | cons w ws ih =>
    simpa [toBytes, bytes, word_div_mod] using ih

/-- Nothing is lost of a whole number of words. -/
theorem toBytes_ofBytes : ∀ {bs : List UInt8}, bs.length % 2 = 0 → toBytes (ofBytes bs) = bs
  | [], _ => rfl
  | [_], h => by simp at h
  | high :: low :: rest, h => by
    have hrest : rest.length % 2 = 0 := by simp at h; omega
    rw [ofBytes_cons_cons]
    simpa [toBytes, bytes_word] using toBytes_ofBytes hrest

@[simp] theorem length_toBytes (ws : List UInt16) : (toBytes ws).length = 2 * ws.length := by
  induction ws with
  | nil => rfl
  | cons w ws ih =>
    simp only [toBytes, List.flatMap_cons, List.length_append, List.length_cons] at ih ⊢
    simp [bytes, ih]
    omega

end Words

/-- A place to write packets to. Without a limit it grows as needed. -/
structure Buffer where
  written : List UInt8 := []
  room : Option Nat := none

namespace Buffer

def hasRoom (b : Buffer) (n : Nat) : Bool := b.room.all (n ≤ ·)

def append (b : Buffer) (bs : List UInt8) : Buffer :=
  { written := b.written ++ bs, room := b.room.map (· - bs.length) }

end Buffer

end Congestion
