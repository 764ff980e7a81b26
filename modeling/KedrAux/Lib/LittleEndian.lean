import Mathlib.Tactic

/-!
# Words in byte sequences

Words of a given number of bytes, the lowest byte first, as parts of a byte sequence.
-/

namespace LittleEndian

abbrev Byte := BitVec 8

/-- The word of `n` bytes at the beginning; missing bytes count as 0. -/
def read : (n : Nat) → List Byte → BitVec (8 * n)
  | 0, _ => 0#0
  | n + 1, bytes => (read n bytes.tail ++ bytes.headD 0 : BitVec (8 * n + 8))

def bytes : (n : Nat) → BitVec (8 * n) → List Byte
  | 0, _ => []
  | n + 1, word => word.extractLsb' 0 8 :: bytes n (word.extractLsb' 8 (8 * n))

/-- The sequence with other bytes from the position `i` on; the length stays the same. -/
def overwrite (mem : List Byte) (i : Nat) (bytes : List Byte) : List Byte :=
  (mem.take i ++ bytes ++ mem.drop (i + bytes.length)).take mem.length

@[simp] theorem length_bytes (n : Nat) (word : BitVec (8 * n)) : (bytes n word).length = n := by
  induction n with
  | zero => rfl
  | succ n ih => rw [bytes, List.length_cons, ih]

theorem read_append {n : Nat} {bs : List Byte} (h : n ≤ bs.length) (rest : List Byte) :
    read n (bs ++ rest) = read n bs := by
  induction n generalizing bs with
  | zero => rfl
  | succ n ih =>
    cases bs with
    | nil => exact absurd h (Nat.not_succ_le_zero n)
    | cons b bs =>
      have hbs : n ≤ bs.length := Nat.le_of_succ_le_succ h
      rw [List.cons_append, read, read, List.tail_cons, List.tail_cons, ih hbs]
      rfl

theorem read_bytes (n : Nat) (word : BitVec (8 * n)) : read n (bytes n word) = word := by
  induction n with
  | zero => exact (BitVec.eq_nil _).trans (BitVec.eq_nil _).symm
  | succ n ih =>
    rw [bytes, read, List.tail_cons, ih]
    exact BitVec.extractLsb'_append_extractLsb'

@[simp] theorem length_overwrite (mem : List Byte) (i : Nat) (bs : List Byte) :
    (overwrite mem i bs).length = mem.length := by
  simp only [overwrite, List.length_take, List.length_append, List.length_drop]
  omega

theorem getElem?_overwrite
    {mem bs : List Byte} {i : Nat} (h : i + bs.length ≤ mem.length) (k : Nat) :
    (overwrite mem i bs)[k]? =
      if i ≤ k ∧ k < i + bs.length then bs[k - i]? else mem[k]? := by
  have hlength : (mem.take i ++ bs ++ mem.drop (i + bs.length)).length ≤ mem.length := by
    simp
    omega
  rw [overwrite, List.take_of_length_le hlength, List.append_assoc]
  have htake : (mem.take i).length = i := by
    rw [List.length_take]
    omega
  split_ifs with hk
  · rw [List.getElem?_append_right (by omega), htake, List.getElem?_append_left (by omega)]
  · rcases Nat.lt_or_ge k i with hki | hki
    · rw [List.getElem?_append_left (by omega), List.getElem?_take_of_lt hki]
    · rw [List.getElem?_append_right (by omega), htake, List.getElem?_append_right (by omega),
        List.getElem?_drop]
      congr 1
      omega

theorem overwrite_middle
    (before : List Byte) {middle bs : List Byte} {i : Nat} (h : i + bs.length = middle.length)
    (after : List Byte) :
    overwrite (before ++ (middle ++ after)) (before.length + i) bs =
      before ++ ((middle.take i ++ bs) ++ after) := by
  have htake : (before ++ (middle ++ after)).take (before.length + i) = before ++ middle.take i := by
    rw [List.take_length_add_append, List.take_append_of_le_length (by omega)]
  have hdrop : (before ++ (middle ++ after)).drop (before.length + i + bs.length) = after := by
    rw [Nat.add_assoc, h, List.drop_length_add_append, List.drop_left]
  rw [overwrite, htake, hdrop]
  have hlength : (before ++ middle.take i ++ bs ++ after).length =
      (before ++ (middle ++ after)).length := by
    simp only [List.length_append, List.length_take]
    omega
  rw [← hlength, List.take_length]
  simp

end LittleEndian
