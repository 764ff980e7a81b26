import KedrAux.Lib.LittleEndian

/-!
# Byte order of hosts

Words in the memory of a host of either byte order, and the conversions between the order of the
host and the order of the network, which is the highest byte first.  A word that was converted
has the same bytes in memory on every host.
-/

namespace ByteOrder

open LittleEndian (Byte bytes read overwrite length_bytes read_bytes getElem?_overwrite)

inductive Host where
  | little
  | big
deriving DecidableEq

variable {n : Nat}

def store : Host → BitVec (8 * n) → List Byte
  | .little, word => bytes n word
  | .big, word => (bytes n word).reverse

/-- The word of `n` bytes at the beginning of the memory of the host. -/
def load (n : Nat) : Host → List Byte → BitVec (8 * n)
  | .little, mem => read n (mem.take n)
  | .big, mem => read n (mem.take n).reverse

def swap (word : BitVec (8 * n)) : BitVec (8 * n) :=
  read n (bytes n word).reverse

/-- Conversion between the byte orders of the host and of the network, in both directions. -/
def network : Host → BitVec (8 * n) → BitVec (8 * n)
  | .little, word => swap word
  | .big, word => word

theorem bytes_read {bs : List Byte} (h : bs.length = n) : bytes n (read n bs) = bs := by
  induction n generalizing bs with
  | zero =>
    rw [List.length_eq_zero_iff.mp h]
    rfl
  | succ n ih =>
    cases bs with
    | nil => cases h
    | cons b bs =>
      have hlow : (read n bs ++ b : BitVec (8 * n + 8)).extractLsb' 0 8 = b :=
        BitVec.extractLsb'_append_eq_right
      have hhigh : (read n bs ++ b : BitVec (8 * n + 8)).extractLsb' 8 (8 * n) = read n bs :=
        BitVec.extractLsb'_append_eq_left
      simp only [LittleEndian.read, LittleEndian.bytes, List.tail_cons, List.headD_cons]
      rw [hlow, hhigh, ih (Nat.succ.inj h)]

@[simp] theorem length_store (host : Host) (word : BitVec (8 * n)) :
    (store host word).length = n := by
  cases host <;> simp [store]

theorem load_store_append (host : Host) (word : BitVec (8 * n)) (rest : List Byte) :
    load n host (store host word ++ rest) = word := by
  cases host with
  | little =>
    rw [load, store, List.take_left' (length_bytes n word), read_bytes]
  | big =>
    rw [load, store, List.take_left' (by simp), List.reverse_reverse, read_bytes]

theorem store_network (host : Host) (word : BitVec (8 * n)) :
    store host (network host word) = (bytes n word).reverse := by
  cases host with
  | little => exact bytes_read (by simp)
  | big => rfl

theorem network_load (host : Host) {mem : List Byte} (h : n ≤ mem.length) :
    network host (load n host mem) = read n (mem.take n).reverse := by
  cases host with
  | little =>
    rw [load, network, swap, bytes_read (by simp [h])]
  | big => rfl

theorem network_load_store (host host' : Host) (word : BitVec (8 * n)) :
    network host' (load n host' (store host (network host word))) = word := by
  rw [network_load host' (by simp), store_network, List.take_of_length_le (by simp),
    List.reverse_reverse, read_bytes]

@[simp] theorem toNat_read_cons (n : Nat) (b : Byte) (bs : List Byte) :
    (read (n + 1) (b :: bs)).toNat = b.toNat + 256 * (read n bs).toNat := by
  rw [LittleEndian.read, List.tail_cons, List.headD_cons, BitVec.toNat_append,
    ← Nat.shiftLeft_add_eq_or_of_lt b.isLt, Nat.shiftLeft_eq]
  omega

theorem bytes_setWidth (x : BitVec (8 * 2)) : bytes 4 (x.setWidth 32) = bytes 2 x ++ [0, 0] := by
  have hread : read 4 (bytes 2 x ++ [0, 0]) = x.setWidth 32 := by
    have hx := read_bytes 2 x
    apply BitVec.eq_of_toNat_eq
    rw [BitVec.toNat_setWidth, Nat.mod_eq_of_lt (by have := x.isLt; omega)]
    conv_rhs => rw [← hx]
    simp only [LittleEndian.bytes, List.cons_append, List.nil_append, toNat_read_cons]
    rfl
  rw [← hread]
  exact bytes_read (by simp)

/-- What the value `x` of a word of two bytes becomes when it is converted as such, stored as a
word of four bytes and read by another host: on a host with the lowest byte first the two bytes
are stored at the wrong end. -/
def halfValue : Host → Nat → Nat
  | .little, x => 65536 * x
  | .big, x => x

theorem network_load_setWidth (host host' : Host) (x : BitVec (8 * 2)) :
    (network host' (load 4 host' (store (n := 4) host ((network host x).setWidth 32)))).toNat =
      halfValue host x.toNat := by
  rw [network_load host' (by simp), List.take_of_length_le (by simp)]
  cases host with
  | little =>
    have hswap : (bytes 2 (swap x)).reverse = bytes 2 x := by
      rw [swap, bytes_read (by simp), List.reverse_reverse]
    simp only [store, network]
    rw [bytes_setWidth, List.reverse_append, hswap]
    have hx := read_bytes 2 x
    simp only [List.reverse_cons, List.reverse_nil, List.nil_append, List.cons_append,
      toNat_read_cons, hx, halfValue]
    simp
    omega
  | big =>
    simp only [store, network]
    rw [List.reverse_reverse, read_bytes, BitVec.toNat_setWidth,
      Nat.mod_eq_of_lt (by have := x.isLt; omega), halfValue]

variable {mem bs : List Byte} {i j : Nat}

theorem take_drop_overwrite (h : i + bs.length ≤ mem.length) :
    ((overwrite mem i bs).drop i).take bs.length = bs := by
  refine List.ext_getElem? fun k => ?_
  rw [List.getElem?_take, List.getElem?_drop, getElem?_overwrite h]
  split_ifs with hk hik
  · rw [Nat.add_sub_cancel_left]
  · omega
  · exact (List.getElem?_eq_none (by omega)).symm

theorem take_drop_overwrite_of_disjoint
    {m : Nat} (h : i + bs.length ≤ mem.length) (hdisjoint : j + m ≤ i ∨ i + bs.length ≤ j) :
    ((overwrite mem i bs).drop j).take m = (mem.drop j).take m := by
  refine List.ext_getElem? fun k => ?_
  rw [List.getElem?_take, List.getElem?_take, List.getElem?_drop, List.getElem?_drop,
    getElem?_overwrite h]
  split_ifs with hk hik
  · omega
  · rfl
  · rfl

/-- The bytes stand in the memory at the given offset. -/
def Field (mem : List Byte) (offset : Nat) (bs : List Byte) : Prop :=
  (mem.drop offset).take bs.length = bs

section Field

variable {bs' : List Byte} {m : Nat}

theorem field_overwrite (h : i + bs.length ≤ mem.length) : Field (overwrite mem i bs) i bs :=
  take_drop_overwrite h

theorem Field.overwrite (hfield : Field mem j bs') (h : i + bs.length ≤ mem.length)
    (hdisjoint : j + bs'.length ≤ i ∨ i + bs.length ≤ j) : Field (overwrite mem i bs) j bs' := by
  rw [Field, take_drop_overwrite_of_disjoint h hdisjoint]
  exact hfield

theorem Field.append (h : Field mem j bs) (hj : j ≤ mem.length) (rest : List Byte) :
    Field (mem ++ rest) j bs := by
  rw [Field, List.drop_append_of_le_length hj, List.take_append_of_le_length]
  · exact h
  · have hlength := congrArg List.length h
    rw [List.length_take] at hlength
    omega

theorem Field.take (h : Field mem j bs) (hm : j + bs.length ≤ m) : Field (mem.take m) j bs := by
  rw [Field, List.drop_take, List.take_take, Nat.min_eq_left (by omega)]
  exact h

theorem Field.headD {b : Byte} (h : Field mem j [b]) : (mem.drop j).headD 0 = b := by
  cases hdrop : mem.drop j with
  | nil =>
    rw [Field, hdrop] at h
    cases h
  | cons b' rest =>
    rw [Field, hdrop] at h
    exact List.head_eq_of_cons_eq h

theorem load_take (host : Host) (n : Nat) (mem : List Byte) :
    load n host (mem.take n) = load n host mem := by
  cases host <;> simp [load, List.take_take]

theorem Field.load (h : Field mem j bs) (host : Host) (hbs : bs.length = n) :
    load n host (mem.drop j) = ByteOrder.load n host bs := by
  rw [← load_take, ← hbs, h]

end Field

end ByteOrder
