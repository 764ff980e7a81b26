import KedrAux.Kedr.AreaBounds

/-!
# Calls at the end of an area

The positions of the instructions are given by the bytes of the area as it is before: a new
offset stands within its own call, so that what comes behind it is decoded as it was.  With
these positions it is said on the area itself which calls reach out of it.
-/

namespace KedrAux
namespace Kedr

open LittleEndian (Byte overwrite)

section Walk

variable {w : Nat} (decode : Decoder) (funcs : List (BitVec w × BitVec w)) (kbeg : BitVec w)

/-- An instruction that is examined begins at the position, in the memory as it is before. -/
inductive InsnAt (mem0 : List Byte) (size : Nat) : Nat → Prop
  | start : kbeg ≠ 0 → addrOf kbeg size ≠ 0 → InsnAt mem0 size 0
  | other {pos : Nat} : InsnAt mem0 size pos → pos + 4 < size →
      (decode (mem0.drop pos)).length ≠ 0 → pos + (decode (mem0.drop pos)).length ≤ size →
      CallsNone decode funcs kbeg mem0 pos →
      InsnAt mem0 size (nextPos mem0 size pos (decode (mem0.drop pos)).length)
  /-- Only the call itself is looked at with its new offset. -/
  | call {pos offset : Nat} {new : BitVec 32} : InsnAt mem0 size pos → pos + 4 < size →
      pos + (decode (mem0.drop pos)).length ≤ size →
      Redirects decode funcs kbeg mem0 pos offset new →
      InsnAt mem0 size (nextPos (overwrite mem0 offset (LittleEndian.bytes 4 new)) size pos
        (decode (mem0.drop pos)).length)

/-- The offset of each call that is redirected is a part of its instruction. -/
def OffsetsInInsns (mem0 : List Byte) (size : Nat) : Prop :=
  ∀ pos offset new, InsnAt decode funcs kbeg mem0 size pos → pos + 4 < size →
    Redirects decode funcs kbeg mem0 pos offset new →
    offset + 4 ≤ pos + (decode (mem0.drop pos)).length

/--
The calls of the area that are redirected have their offsets within their instructions, and
the bytes of these offsets behind the area are those of the new offsets.
-/
structure OffsetsInside (mem0 : List Byte) (size : Nat) : Prop where
  inInsns : OffsetsInInsns decode funcs kbeg mem0 size
  same : ∀ pos offset new, InsnAt decode funcs kbeg mem0 size pos → pos + 4 < size →
    Redirects decode funcs kbeg mem0 pos offset new →
    ∀ j, j < 4 → size ≤ offset + j → mem0[offset + j]? = (LittleEndian.bytes 4 new)[j]?

end Walk

section Same

variable {w : Nat} {decode : Decoder} {funcs : List (BitVec w × BitVec w)} {kbeg : BitVec w}
variable {mem mem' : List Byte} {size pos len offset : Nat} {new : BitVec 32}

theorem drop_eq_of_le {i : Nat} (h : mem.drop pos = mem'.drop pos) (hi : pos ≤ i) :
    mem.drop i = mem'.drop i := by
  obtain ⟨k, rfl⟩ := Nat.exists_eq_add_of_le hi
  rw [← List.drop_drop, h, List.drop_drop]

theorem pos_le_nextPos (mem : List Byte) (size pos len : Nat) :
    pos ≤ nextPos mem size pos len :=
  (Nat.le_add_right pos len).trans (le_nextPos mem size pos len)

/-- The next position depends on the bytes from the instruction on. -/
theorem nextPos_congr (h : mem.drop pos = mem'.drop pos) :
    nextPos mem size pos len = nextPos mem' size pos len := by
  have hzeros : skipZeros mem size (pos + len) = skipZeros mem' size (pos + len) := by
    rw [skipZeros, skipZeros, List.drop_take, List.drop_take,
      drop_eq_of_le h (Nat.le_add_right pos len)]
  rw [nextPos, nextPos, allZero, allZero, h, hzeros]

theorem CallsNone.congr (h : mem.drop pos = mem'.drop pos)
    (hnone : CallsNone decode funcs kbeg mem pos) : CallsNone decode funcs kbeg mem' pos := by
  unfold CallsNone at hnone ⊢
  rwa [h, drop_eq_of_le h (Nat.le_add_right pos _)] at hnone

theorem Redirects.congr (h : mem.drop pos = mem'.drop pos)
    (hredirects : Redirects decode funcs kbeg mem pos offset new) :
    Redirects decode funcs kbeg mem' pos offset new := by
  obtain ⟨hlength, hcall, hoffset, func, hfind, hnull, hnew⟩ := hredirects
  have hdrop : mem.drop offset = mem'.drop offset := drop_eq_of_le h (by omega)
  rw [h] at hlength hcall hoffset hnew
  rw [h, hdrop] at hfind
  exact ⟨hlength, hcall, hoffset, func, hfind, hnull, hnew⟩

variable {bs : List Byte}

theorem overwrite_drop_congr (h : mem.drop pos = mem'.drop pos)
    (hmem : offset + bs.length ≤ mem.length) (hmem' : offset + bs.length ≤ mem'.length) :
    (overwrite mem offset bs).drop pos = (overwrite mem' offset bs).drop pos := by
  apply List.ext_getElem?
  intro i
  have hget : mem[pos + i]? = mem'[pos + i]? := by
    rw [← List.getElem?_drop, h, List.getElem?_drop]
  rw [List.getElem?_drop, List.getElem?_drop, LittleEndian.getElem?_overwrite hmem,
    LittleEndian.getElem?_overwrite hmem', hget]

theorem overwrite_drop_of_le (hmem : offset + bs.length ≤ mem.length) {i : Nat}
    (hi : offset + bs.length ≤ i) : (overwrite mem offset bs).drop i = mem.drop i := by
  apply List.ext_getElem?
  intro k
  rw [List.getElem?_drop, List.getElem?_drop, LittleEndian.getElem?_overwrite hmem,
    if_neg (by omega)]

end Same

section Positions

variable {w : Nat} {decode : Decoder} {funcs : List (BitVec w × BitVec w)} {kbeg : BitVec w}
variable {mem0 mem : List Byte} {size pos offset : Nat} {new : BitVec 32}

section

variable (hdecode : decode.Bounded)
include hdecode

theorem Redirects.fits
    (h : Redirects decode funcs kbeg mem pos offset new) (hpos : pos + 4 < size)
    (hmem : size + 15 ≤ mem.length) :
    offset + (LittleEndian.bytes 4 new).length ≤ mem.length := by
  have hrange := h.range hdecode
  rw [LittleEndian.length_bytes]
  omega

/-- Behind a call whose offset is a part of it, the memory is as it was. -/
theorem Redirects.drop_nextPos
    (h : Redirects decode funcs kbeg mem pos offset new) (hpos : pos + 4 < size)
    (hmem : size + 15 ≤ mem.length) (hin : offset + 4 ≤ pos + (decode (mem.drop pos)).length)
    (mem' : List Byte) :
    (overwrite mem offset (LittleEndian.bytes 4 new)).drop
        (nextPos mem' size pos (decode (mem.drop pos)).length) =
      mem.drop (nextPos mem' size pos (decode (mem.drop pos)).length) := by
  have hnext := le_nextPos mem' size pos (decode (mem.drop pos)).length
  refine overwrite_drop_of_le (h.fits hdecode hpos hmem) ?_
  rw [LittleEndian.length_bytes]
  omega

/-- The loop comes to instructions of the area, with what is in front of it as it was. -/
theorem AreaReached.insnAt (hmem : size + 15 ≤ mem0.length)
    (hin : OffsetsInInsns decode funcs kbeg mem0 size)
    (h : AreaReached decode funcs kbeg mem0 size mem pos) :
    InsnAt decode funcs kbeg mem0 size pos ∧ mem.drop pos = mem0.drop pos := by
  induction h with
  | start hbeg hend => exact ⟨InsnAt.start hbeg hend, rfl⟩
  | @step mem mem' pos len hreached hpos hinsn hlen hend ih =>
    obtain ⟨hat, hdrop⟩ := ih
    have hlength : size + 15 ≤ mem.length := by rwa [hreached.length_eq]
    rcases doProcessInsn_cases decode funcs kbeg mem pos with
      hbug | ⟨hsame, hnone⟩ | ⟨offset, new, hredirects, hnew⟩
    · rw [hbug] at hinsn
      cases hinsn
    · rw [hsame] at hinsn
      cases hinsn
      have hnext := hat.other hpos (by rwa [← hdrop]) (by rwa [← hdrop])
        ((hnone hlen).congr hdrop)
      rw [← hdrop, ← nextPos_congr hdrop] at hnext
      exact ⟨hnext, drop_eq_of_le hdrop (pos_le_nextPos _ _ _ _)⟩
    · rw [hnew] at hinsn
      cases hinsn
      have hredirects0 := hredirects.congr hdrop
      have hin0 := hin pos offset new hat hpos hredirects0
      have hover := overwrite_drop_congr hdrop (hredirects.fits hdecode hpos hlength)
        (hredirects0.fits hdecode hpos hmem)
      have hnext := hat.call hpos (by rwa [← hdrop]) hredirects0
      rw [← hdrop] at hin0
      rw [← hdrop, ← nextPos_congr hover] at hnext
      refine ⟨hnext, ?_⟩
      rw [hredirects.drop_nextPos hdecode hpos hlength hin0]
      exact drop_eq_of_le hdrop (pos_le_nextPos _ _ _ _)

/-- Each instruction of the area is one that the loop comes to. -/
theorem InsnAt.areaReached (hmem : size + 15 ≤ mem0.length)
    (hin : OffsetsInInsns decode funcs kbeg mem0 size)
    (h : InsnAt decode funcs kbeg mem0 size pos) :
    ∃ mem, AreaReached decode funcs kbeg mem0 size mem pos ∧ mem.drop pos = mem0.drop pos := by
  induction h with
  | start hbeg hend => exact ⟨mem0, AreaReached.start hbeg hend, rfl⟩
  | @other pos hat hpos hlength hend hnone ih =>
    obtain ⟨mem, hreached, hdrop⟩ := ih
    rw [← hdrop] at hlength hend
    have hnext := hreached.step hpos ((hnone.congr hdrop.symm).doProcessInsn hlength) hlength hend
    rw [nextPos_congr hdrop] at hnext
    rw [hdrop] at hnext
    exact ⟨mem, hnext, drop_eq_of_le hdrop (pos_le_nextPos _ _ _ _)⟩
  | @call pos offset new hat hpos hend hredirects ih =>
    obtain ⟨mem, hreached, hdrop⟩ := ih
    have hin0 := hin pos offset new hat hpos hredirects
    have hlength : size + 15 ≤ mem.length := by rwa [hreached.length_eq]
    have hredirects' := hredirects.congr hdrop.symm
    rw [← hdrop] at hend hin0
    have hover := overwrite_drop_congr hdrop (hredirects'.fits hdecode hpos hlength)
      (hredirects.fits hdecode hpos hmem)
    have hnext := hreached.step hpos hredirects'.doProcessInsn hredirects'.length_pos hend
    have hsame := hredirects'.drop_nextPos hdecode hpos hlength hin0
      (overwrite mem offset (LittleEndian.bytes 4 new))
    rw [nextPos_congr hover, hdrop] at hnext
    rw [nextPos_congr hover, hdrop] at hsame
    exact ⟨_, hnext, hsame.trans (drop_eq_of_le hdrop (pos_le_nextPos _ _ _ _))⟩

/-- Memory behind the area that the loop has come to is as it was. -/
theorem storesInside_iff (hmem : size + 15 ≤ mem0.length)
    (hin : OffsetsInInsns decode funcs kbeg mem0 size) :
    StoresInside decode funcs kbeg mem0 size ↔ OffsetsInside decode funcs kbeg mem0 size := by
  have hbyte : ∀ {mem : List Byte} {pos i : Nat}, mem.drop pos = mem0.drop pos → pos ≤ i → mem[i]? =
    mem0[i]? := by
    intro mem pos i hdrop hi
    obtain ⟨k, rfl⟩ := Nat.exists_eq_add_of_le hi
    rw [← List.getElem?_drop, hdrop, List.getElem?_drop]
  constructor
  · refine fun h => ⟨hin, fun pos offset new hat hpos hredirects j hj hout => ?_⟩
    obtain ⟨mem, hreached, hdrop⟩ := hat.areaReached hdecode hmem hin
    have hrange := hredirects.range hdecode
    rw [← hbyte hdrop (by omega)]
    exact h mem pos offset new hreached hpos (hredirects.congr hdrop.symm) j hj hout
  · intro h mem pos offset new hreached hpos hredirects j hj hout
    obtain ⟨hat, hdrop⟩ := hreached.insnAt hdecode hmem hin
    have hrange := hredirects.range hdecode
    rw [hbyte hdrop (by omega)]
    exact h.same pos offset new hat hpos (hredirects.congr hdrop) j hj hout

end

/--
**Bytes outside of the area.**  The function always ends.  It leaves everything outside as it
is if each call of the area that it redirects has its offset within the instruction, and the
part of this offset behind the area, if any, is that of the new offset.  Of calls that have
their offsets within the instructions, as the decoder of the kernel gives them, this is also
necessary.
-/
theorem areaConfined_iff (hdecode : decode.Bounded) (hmem : size + 15 ≤ mem0.length) :
    (OffsetsInside decode funcs kbeg mem0 size → AreaConfined decode funcs kbeg mem0 size) ∧
      (OffsetsInInsns decode funcs kbeg mem0 size → AreaConfined decode funcs kbeg mem0 size →
        OffsetsInside decode funcs kbeg mem0 size) := by
  constructor
  · intro h
    exact (areaConfined_iff_stores hdecode hmem).mpr
      ((storesInside_iff hdecode hmem h.inInsns).mpr h)
  · intro hin h
    exact (storesInside_iff hdecode hmem hin).mp ((areaConfined_iff_stores hdecode hmem).mp h)

end Positions

/-- The decoder of a memory that has only one-byte instructions and prefixed calls. -/
def prefixedCalls : Decoder := fun bytes =>
  if bytes.head? = some 0x2e then ⟨6, callOpcode, 4, 2⟩ else ⟨1, 0x90, 0, 0⟩

theorem prefixedCalls_bounded : prefixedCalls.Bounded where
  length_le := by
    intro bytes
    unfold prefixedCalls
    split_ifs <;> decide
  offsetImmediate_lt := by
    intro bytes
    unfold prefixedCalls
    split_ifs <;> decide

/-- The memory at 0x1000: a call of the next instruction and 20 `nop`. -/
def prefixedCallMemory : List Byte :=
  [0x2e, 0xe8, 0, 0, 0, 0] ++ List.replicate 20 0x90

/-- The call fits into an area of 6 bytes. -/
theorem offsetsInside_prefixedCall :
    OffsetsInside prefixedCalls [((0x1006 : BitVec 64), 0x2001006)] 0x1000
      prefixedCallMemory 6 := by
  have hzero : ∀ pos offset new, pos + 4 < 6 → Redirects prefixedCalls
      [((0x1006 : BitVec 64), 0x2001006)] 0x1000 prefixedCallMemory pos offset new →
      pos = 0 ∧ offset = 2 := by
    intro pos offset new hpos h
    obtain rfl | rfl : pos = 0 ∨ pos = 1 := by omega
    · exact ⟨rfl, h.offset_eq⟩
    · exact absurd h.isCall (by decide)
  constructor
  · intro pos offset new _ hpos h
    obtain ⟨rfl, rfl⟩ := hzero pos offset new hpos h
    decide
  · intro pos offset new _ hpos h j hj hout
    obtain ⟨rfl, rfl⟩ := hzero pos offset new hpos h
    omega

/-- A call with a prefix is redirected within the area. -/
theorem areaConfined_prefixedCall :
    prefixedCalls.Bounded ∧ 6 + 15 ≤ prefixedCallMemory.length ∧
      AreaConfined prefixedCalls [((0x1006 : BitVec 64), 0x2001006)] 0x1000
        prefixedCallMemory 6 :=
  ⟨prefixedCalls_bounded, by decide,
    (areaConfined_iff prefixedCalls_bounded (by decide)).1 offsetsInside_prefixedCall⟩

/-- The area ends before the last byte of the call. -/
theorem not_areaConfined_prefixedCall :
    ¬ ∀ (decode : Decoder) (funcs : List (BitVec 64 × BitVec 64)) (kbeg : BitVec 64)
      (mem0 : List Byte) (size : Nat), decode.Bounded → size + 15 ≤ mem0.length →
      AreaConfined decode funcs kbeg mem0 size := by
  intro h
  obtain ⟨e, ⟨limit0, he⟩, hsame⟩ := h prefixedCalls [(0x1006, 0x2001006)] 0x1000
    prefixedCallMemory 5 prefixedCalls_bounded (by decide)
  have hrun : areaRun prefixedCalls [((0x1006 : BitVec 64), 0x2001006)] 0x1000 1
      prefixedCallMemory 5 =
      some (.returned ([0x2e, 0xe8, 0, 0, 0, 2] ++ List.replicate 20 0x90)) := by
    decide
  obtain rfl := areaRun_deterministic hrun (he limit0 le_rfl)
  have hbyte := hsame.2 5 le_rfl
  revert hbyte
  decide

end Kedr
end KedrAux
