import KedrAux.Lib.ByteOrder
import KedrAux.Lib.CharBuffer

/-!
# Messages between the kernel and user space

A message has the type of the interaction, the length of the payload and the payload; padding may
follow.  It is read with checks against the length of the buffer.
-/

namespace KedrAux
namespace SyscallConnector

open CharBuffer (Fault)

/-- A message; `size_t` has `w` bytes. -/
structure ScMsg (w : Nat) where
  inType : BitVec (8 * 4)
  payloadLength : BitVec (8 * w)
  payload : List UInt8
deriving DecidableEq

def writeWord {n : Nat} (host : ByteOrder.Host) (word : BitVec (8 * n)) : List UInt8 :=
  (ByteOrder.store host word).map UInt8.ofBitVec

def readWord (n : Nat) (host : ByteOrder.Host) (buffer : List UInt8) :
    Except Fault (BitVec (8 * n)) :=
  if n ≤ buffer.length then .ok (ByteOrder.load n host (buffer.map UInt8.toBitVec))
  else .error .outOfBounds

def scMsgPut {w : Nat} (host : ByteOrder.Host) (msg : ScMsg w) : Except Fault (List UInt8) :=
  if msg.payloadLength.toNat ≤ msg.payload.length then
    .ok (writeWord host msg.inType ++ (writeWord host msg.payloadLength ++
      msg.payload.take msg.payloadLength.toNat))
  else .error .outOfBounds

/-- The message in the buffer; `none` is the result -1. -/
def scMsgGet (host : ByteOrder.Host) (w : Nat) (buffer : List UInt8) (bufferLen : Nat) :
    Except Fault (Option (ScMsg w)) :=
  if bufferLen < 4 then .ok none
  else do
    let inType ← readWord 4 host buffer
    if bufferLen - 4 < w then .ok none
    else do
      let payloadLength ← readWord w host (buffer.drop 4)
      if bufferLen - 4 - w < payloadLength.toNat then .ok none
      else .ok (some ⟨inType, payloadLength,
        ((buffer.drop 4).drop w).take payloadLength.toNat⟩)

section Rules

variable {n w : Nat} {host : ByteOrder.Host}

@[simp] theorem length_writeWord (word : BitVec (8 * n)) : (writeWord host word).length = n := by
  rw [writeWord, List.length_map, ByteOrder.length_store]

theorem readWord_writeWord (word : BitVec (8 * n)) (rest : List UInt8) :
    readWord n host (writeWord host word ++ rest) = .ok word := by
  have hid : (ByteOrder.store host word).map (UInt8.toBitVec ∘ UInt8.ofBitVec) =
      ByteOrder.store host word := List.map_id _
  rw [readWord, if_pos (by simp), List.map_append, writeWord, List.map_map, hid,
    ByteOrder.load_store_append]

theorem readWord_of_le (host : ByteOrder.Host) {buffer : List UInt8} (h : n ≤ buffer.length) :
    ∃ word, readWord n host buffer = .ok word :=
  ⟨_, if_pos h⟩

theorem scMsgGet_of_put {msg : ScMsg w} {message : List UInt8}
    (hput : scMsgPut host msg = .ok message) (padding : List UInt8) :
    scMsgGet host w (message ++ padding) (message ++ padding).length =
      .ok (some ⟨msg.inType, msg.payloadLength, msg.payload.take msg.payloadLength.toNat⟩) := by
  rw [scMsgPut] at hput
  split_ifs at hput with hlength
  cases hput
  have htake : (msg.payload.take msg.payloadLength.toNat).length = msg.payloadLength.toNat := by
    rw [List.length_take, Nat.min_eq_left hlength]
  have hlen : (writeWord host msg.inType ++ (writeWord host msg.payloadLength ++
      msg.payload.take msg.payloadLength.toNat) ++ padding).length =
      4 + (w + (msg.payloadLength.toNat + padding.length)) := by
    simp only [List.length_append, length_writeWord, htake]
    omega
  rw [hlen, List.append_assoc, List.append_assoc, scMsgGet, if_neg (by omega), readWord_writeWord,
    List.drop_left' (length_writeWord _), readWord_writeWord, List.drop_left' (length_writeWord _)]
  simp only [bind, Except.bind]
  rw [if_neg (by omega), if_neg (by omega), List.take_left' htake]

theorem scMsgGet_inside (host : ByteOrder.Host) (w : Nat) (buffer : List UInt8) :
    ∃ result, scMsgGet host w buffer buffer.length = .ok result := by
  rw [scMsgGet]
  by_cases hshort : buffer.length < 4
  · exact ⟨none, if_pos hshort⟩
  · obtain ⟨inType, hinType⟩ := readWord_of_le host (Nat.le_of_not_lt hshort)
    rw [if_neg hshort, hinType]
    simp only [bind, Except.bind]
    by_cases hshort' : buffer.length - 4 < w
    · exact ⟨none, if_pos hshort'⟩
    · have hle : w ≤ (buffer.drop 4).length := by
        rw [List.length_drop]
        omega
      obtain ⟨payloadLength, hpayloadLength⟩ := readWord_of_le host hle
      rw [if_neg hshort', hpayloadLength]
      dsimp only
      split_ifs
      · exact ⟨none, rfl⟩
      · exact ⟨_, rfl⟩

end Rules

end SyscallConnector
end KedrAux
