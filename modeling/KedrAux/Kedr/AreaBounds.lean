import KedrAux.Kedr.ProcessArea

/-!
# Bytes outside of the processed area

The end of the area is checked in two places of `controller.c`: `do_process_insn` warns
about an instruction that ends after the area and changes its offset nevertheless, and
`do_process_area` leaves the loop afterwards.  The memory goes on behind the area; what
is before the area has no position here and is never written.

A failed `BUG_ON` stops the kernel.  It is an end of the run like the return from the
function, with the memory at that time.
-/

namespace KedrAux
namespace Kedr

open LittleEndian (Byte overwrite)

/-- How a call of `do_process_area` ends. -/
inductive AreaEnd where
  | returned (mem : List Byte)
  | bug (mem : List Byte)
deriving DecidableEq

def AreaEnd.mem : AreaEnd → List Byte
  | .returned mem => mem
  | .bug mem => mem

variable {w : Nat}

section Process

variable (decode : Decoder) (funcs : List (BitVec w × BitVec w)) (kbeg : BitVec w)

/-- `processLoop` with the memory at a failed `BUG_ON`. -/
def areaLoop (kend : Nat) : (limit : Nat) → List Byte → (pos : Nat) → Option AreaEnd
  | 0, _, _ => none
  | limit + 1, mem, pos =>
    if pos + 4 < kend then
      match doProcessInsn decode funcs kbeg mem pos with
      | none => some (.bug mem)
      | some (mem, len) =>
        if len = 0 then some (.returned mem)
        else if kend < pos + len then some (.returned mem)
        else if allZero mem pos len then
          areaLoop kend limit mem (skipZeros mem kend (pos + len))
        else areaLoop kend limit mem (pos + len)
    else some (.returned mem)

/-- `doProcessArea` with the memory at a failed `BUG_ON`. -/
def areaRun (limit : Nat) (mem : List Byte) (size : Nat) : Option AreaEnd :=
  if kbeg = 0 ∨ addrOf kbeg size = 0 then some (.bug mem)
  else areaLoop decode funcs kbeg size limit mem 0

def AreaEnd.result : AreaEnd → Option (List Byte)
  | .returned mem => some mem
  | .bug _ => none

theorem processLoop_eq (kend limit : Nat) (mem : List Byte) (pos : Nat) :
    processLoop decode funcs kbeg kend limit mem pos =
      (areaLoop decode funcs kbeg kend limit mem pos).bind AreaEnd.result := by
  induction limit generalizing mem pos with
  | zero => rfl
  | succ limit ih =>
    rw [processLoop, areaLoop]
    split_ifs
    · cases doProcessInsn decode funcs kbeg mem pos with
      | none => rfl
      | some r =>
        dsimp only
        split_ifs
        · rfl
        · rfl
        · exact ih _ _
        · exact ih _ _
    · rfl

/-- The run with its last state gives what the function returns. -/
theorem doProcessArea_eq (limit : Nat) (mem : List Byte) (size : Nat) :
    doProcessArea decode funcs kbeg limit mem size =
      (areaRun decode funcs kbeg limit mem size).bind AreaEnd.result := by
  unfold doProcessArea areaRun
  split_ifs
  · rfl
  · exact processLoop_eq decode funcs kbeg size limit mem 0

/-- The instruction at the position `pos` is a call that gets the offset `new`, which is
stored at the position `offset`. -/
structure Redirects (mem : List Byte) (pos offset : Nat) (new : BitVec 32) : Prop where
  length_pos : (decode (mem.drop pos)).length ≠ 0
  isCall : (decode (mem.drop pos)).IsCall
  offset_eq : offset = pos + (decode (mem.drop pos)).offsetImmediate
  func : ∃ func, (funcs.find? fun func => func.1 = callAddrFromOffset (addrOf kbeg pos)
      (decode (mem.drop pos)).length (LittleEndian.read 4 (mem.drop offset))) = some func ∧
    func.2 ≠ 0 ∧
    new = callOffsetFromAddr (addrOf kbeg pos) (decode (mem.drop pos)).length func.2

/-- The instruction at the position `pos` is no call of a function in the table. -/
def CallsNone (mem : List Byte) (pos : Nat) : Prop :=
  (decode (mem.drop pos)).IsCall → (funcs.find? fun func => func.1 =
    callAddrFromOffset (addrOf kbeg pos) (decode (mem.drop pos)).length
      (LittleEndian.read 4 (mem.drop (pos + (decode (mem.drop pos)).offsetImmediate)))) = none

/-- What one instruction does: a failed `BUG_ON`, nothing, or a new offset. -/
theorem doProcessInsn_cases (mem : List Byte) (pos : Nat) :
    doProcessInsn decode funcs kbeg mem pos = none ∨
      (doProcessInsn decode funcs kbeg mem pos = some (mem, (decode (mem.drop pos)).length) ∧
        ((decode (mem.drop pos)).length ≠ 0 → CallsNone decode funcs kbeg mem pos)) ∨
      ∃ offset new, Redirects decode funcs kbeg mem pos offset new ∧
        doProcessInsn decode funcs kbeg mem pos =
          some (overwrite mem offset (LittleEndian.bytes 4 new),
            (decode (mem.drop pos)).length) := by
  unfold doProcessInsn
  dsimp only
  split_ifs with hlength hopcode hnbytes
  · exact Or.inr (Or.inl ⟨by rw [hlength], fun hne => absurd hlength hne⟩)
  · exact Or.inr (Or.inl ⟨rfl, fun _ hcall => absurd hcall.1 hopcode⟩)
  · exact Or.inr (Or.inl ⟨rfl, fun _ hcall => absurd hcall.2 hnbytes⟩)
  · cases hfind : funcs.find? fun func => func.1 = callAddrFromOffset (addrOf kbeg pos)
        (decode (mem.drop pos)).length (LittleEndian.read 4
          (mem.drop (pos + (decode (mem.drop pos)).offsetImmediate))) with
    | none => exact Or.inr (Or.inl ⟨rfl, fun _ _ => hfind⟩)
    | some func =>
      dsimp only
      split_ifs with hnull
      · exact Or.inl rfl
      · exact Or.inr (Or.inr ⟨_, _, ⟨hlength, ⟨not_not.mp hopcode, not_not.mp hnbytes⟩, rfl,
          func, hfind, hnull, rfl⟩, rfl⟩)

variable {decode funcs kbeg}

theorem CallsNone.doProcessInsn {mem : List Byte} {pos : Nat}
    (h : CallsNone decode funcs kbeg mem pos) (hlength : (decode (mem.drop pos)).length ≠ 0) :
    doProcessInsn decode funcs kbeg mem pos = some (mem, (decode (mem.drop pos)).length) := by
  unfold Kedr.doProcessInsn
  dsimp only
  rw [if_neg hlength]
  split_ifs with hopcode hnbytes
  · rfl
  · rfl
  · rw [h ⟨not_not.mp hopcode, not_not.mp hnbytes⟩]

theorem Redirects.doProcessInsn {mem : List Byte} {pos offset : Nat} {new : BitVec 32}
    (h : Redirects decode funcs kbeg mem pos offset new) :
    doProcessInsn decode funcs kbeg mem pos =
      some (overwrite mem offset (LittleEndian.bytes 4 new),
        (decode (mem.drop pos)).length) := by
  obtain ⟨hlength, ⟨hopcode, hnbytes⟩, rfl, func, hfind, hnull, rfl⟩ := h
  unfold Kedr.doProcessInsn
  dsimp only
  rw [if_neg hlength, if_neg (not_not.mpr hopcode), if_neg (not_not.mpr hnbytes), hfind]
  dsimp only
  rw [if_neg hnull]

variable (decode funcs kbeg)

/-- Where the loop goes on behind an instruction of `len` bytes. -/
def nextPos (mem : List Byte) (kend pos len : Nat) : Nat :=
  if allZero mem pos len then skipZeros mem kend (pos + len) else pos + len

/-- What is between two rounds of the loop. -/
inductive AreaReached (mem0 : List Byte) (size : Nat) : List Byte → Nat → Prop
  | start : kbeg ≠ 0 → addrOf kbeg size ≠ 0 → AreaReached mem0 size mem0 0
  | step {mem mem' : List Byte} {pos len : Nat} : AreaReached mem0 size mem pos →
      pos + 4 < size → doProcessInsn decode funcs kbeg mem pos = some (mem', len) →
      len ≠ 0 → pos + len ≤ size →
      AreaReached mem0 size mem'
        (nextPos mem' size pos len)

end Process

/-- The memory has the same bytes from the end of the area on. -/
def SameOutside (size : Nat) (mem mem' : List Byte) : Prop :=
  mem'.length = mem.length ∧ ∀ i, size ≤ i → mem'[i]? = mem[i]?

theorem SameOutside.refl (size : Nat) (mem : List Byte) : SameOutside size mem mem :=
  ⟨rfl, fun _ _ => rfl⟩

theorem SameOutside.trans {size : Nat} {mem mem' mem'' : List Byte}
    (h : SameOutside size mem mem') (h' : SameOutside size mem' mem'') :
    SameOutside size mem mem'' :=
  ⟨h'.1.trans h.1, fun i hi => (h'.2 i hi).trans (h.2 i hi)⟩

/-- The decoder gives at most 15 bytes and a position of the immediate value in them. -/
structure Decoder.Bounded (decode : Decoder) : Prop where
  length_le : ∀ bytes, (decode bytes).length ≤ 15
  offsetImmediate_lt : ∀ bytes, (decode bytes).length ≠ 0 →
    (decode bytes).offsetImmediate < (decode bytes).length

variable {mem0 mem mem' : List Byte} {size pos len : Nat}

section Outside

variable {decode : Decoder} {funcs : List (BitVec w × BitVec w)} {kbeg : BitVec w}
variable {offset : Nat} {new : BitVec 32}

theorem Redirects.range
    (hdecode : decode.Bounded) (h : Redirects decode funcs kbeg mem pos offset new) :
    pos ≤ offset ∧ offset < pos + (decode (mem.drop pos)).length ∧ offset ≤ pos + 14 := by
  have hlt := hdecode.offsetImmediate_lt _ h.length_pos
  have hle := hdecode.length_le (mem.drop pos)
  rw [h.offset_eq]
  omega

theorem Redirects.getElem?_overwrite
    (hdecode : decode.Bounded) (h : Redirects decode funcs kbeg mem pos offset new)
    (hpos : pos + 4 < size) (hmem : size + 15 ≤ mem.length) (i : Nat) :
    (overwrite mem offset (LittleEndian.bytes 4 new))[i]? =
      if offset ≤ i ∧ i < offset + 4 then (LittleEndian.bytes 4 new)[i - offset]? else mem[i]? := by
  have hrange := h.range hdecode
  have hfits : offset + (LittleEndian.bytes 4 new).length ≤ mem.length := by
    rw [LittleEndian.length_bytes]
    omega
  rw [LittleEndian.getElem?_overwrite hfits, LittleEndian.length_bytes]

theorem Redirects.sameOutside
    (hdecode : decode.Bounded) (h : Redirects decode funcs kbeg mem pos offset new)
    (hpos : pos + 4 < size) (hmem : size + 15 ≤ mem.length)
    (hbytes : ∀ j, j < 4 → size ≤ offset + j →
      mem[offset + j]? = (LittleEndian.bytes 4 new)[j]?) :
    SameOutside size mem (overwrite mem offset (LittleEndian.bytes 4 new)) := by
  refine ⟨LittleEndian.length_overwrite _ _ _, ?_⟩
  intro i hi
  rw [h.getElem?_overwrite hdecode hpos hmem]
  split_ifs with hin
  · obtain ⟨j, rfl⟩ := Nat.exists_eq_add_of_le hin.1
    rw [Nat.add_sub_cancel_left]
    exact (hbytes j (by omega) hi).symm
  · rfl

theorem le_skipZeros (mem : List Byte) (kend pos : Nat) : pos ≤ skipZeros mem kend pos :=
  Nat.le_add_right _ _

theorem le_nextPos (mem : List Byte) (kend pos len : Nat) :
    pos + len ≤ nextPos mem kend pos len := by
  unfold nextPos
  split_ifs
  · exact le_skipZeros mem kend (pos + len)
  · exact le_rfl

theorem doProcessInsn_length (h : doProcessInsn decode funcs kbeg mem pos = some (mem', len)) :
    mem'.length = mem.length := by
  rcases doProcessInsn_cases decode funcs kbeg mem pos with
    hbug | ⟨hsame, -⟩ | ⟨offset, new, -, hnew⟩
  · rw [hbug] at h
    cases h
  · rw [hsame] at h
    cases h
    rfl
  · rw [hnew] at h
    cases h
    exact LittleEndian.length_overwrite _ _ _

theorem AreaReached.length_eq (h : AreaReached decode funcs kbeg mem0 size mem pos) :
    mem.length = mem0.length := by
  induction h with
  | start => rfl
  | step _ _ hinsn _ _ ih => rw [doProcessInsn_length hinsn, ih]

/-- As long as the loop goes on, nothing outside has changed: an offset that reaches out of
the area belongs to the last instruction. -/
theorem AreaReached.sameOutside (hdecode : decode.Bounded) (hmem : size + 15 ≤ mem0.length)
    (h : AreaReached decode funcs kbeg mem0 size mem pos) (hpos : pos + 4 < size) :
    SameOutside size mem0 mem := by
  induction h with
  | start => exact SameOutside.refl size mem0
  | @step mem mem' pos len hreached hpos' hinsn hlen hend ih =>
    refine (ih hpos').trans ?_
    have hnext := le_nextPos mem' size pos len
    have hlength : size + 15 ≤ mem.length := by
      rw [hreached.length_eq]
      exact hmem
    rcases doProcessInsn_cases decode funcs kbeg mem pos with
      hbug | ⟨hsame, -⟩ | ⟨offset, new, hredirects, hnew⟩
    · rw [hbug] at hinsn
      nomatch hinsn
    · rw [hsame] at hinsn
      cases hinsn
      exact SameOutside.refl size mem
    · rw [hnew] at hinsn
      cases hinsn
      have hrange := hredirects.range hdecode
      exact hredirects.sameOutside hdecode hpos' hlength fun j hj hout => by omega

end Outside

section Runs

variable {decode : Decoder} {funcs : List (BitVec w × BitVec w)} {kbeg : BitVec w}
variable {e : AreaEnd}

variable {limit : Nat}

theorem areaLoop_mono {limit' : Nat} (h : areaLoop decode funcs kbeg size limit mem pos = some e)
    (hle : limit ≤ limit') :
    areaLoop decode funcs kbeg size limit' mem pos = some e := by
  induction limit generalizing limit' mem pos with
  | zero => nomatch h
  | succ limit ih =>
    obtain ⟨limit', rfl⟩ : ∃ n, limit' = n + 1 := ⟨limit' - 1, by omega⟩
    rw [areaLoop] at h ⊢
    split_ifs at h ⊢
    · cases hinsn : doProcessInsn decode funcs kbeg mem pos with
      | none =>
        rw [hinsn] at h
        exact h
      | some r =>
        rw [hinsn] at h
        dsimp only at h ⊢
        split_ifs at h ⊢
        · exact h
        · exact h
        · exact ih h (by omega)
        · exact ih h (by omega)
    · exact h

theorem areaLoop_isSome (hlimit : size - pos < limit) :
    ∃ e, areaLoop decode funcs kbeg size limit mem pos = some e := by
  induction limit generalizing mem pos with
  | zero => exact absurd hlimit (Nat.not_lt_zero _)
  | succ limit ih =>
    rw [areaLoop]
    split_ifs with hpos
    · cases doProcessInsn decode funcs kbeg mem pos with
      | none => exact ⟨_, rfl⟩
      | some r =>
        dsimp only
        split_ifs with hlen hend
        · exact ⟨_, rfl⟩
        · exact ⟨_, rfl⟩
        · have hle := le_skipZeros r.1 size (pos + r.2)
          exact ih (by omega)
        · exact ih (by omega)
    · exact ⟨_, rfl⟩

theorem areaLoop_next (hpos : pos + 4 < size)
    (hinsn : doProcessInsn decode funcs kbeg mem pos = some (mem', len)) (hlen : len ≠ 0)
    (hend : pos + len ≤ size) :
    areaLoop decode funcs kbeg size (limit + 1) mem pos =
      areaLoop decode funcs kbeg size limit mem'
        (nextPos mem' size pos len) := by
  rw [areaLoop, if_pos hpos, hinsn]
  dsimp only
  rw [if_neg hlen, if_neg (by omega), nextPos]
  split_ifs <;> rfl

/-- The loop from a place that it comes to is the rest of the whole run. -/
theorem AreaReached.run (h : AreaReached decode funcs kbeg mem0 size mem pos)
    (hrun : areaLoop decode funcs kbeg size limit mem pos = some e) :
    ∃ limit', areaRun decode funcs kbeg limit' mem0 size = some e := by
  induction h generalizing limit with
  | start hbeg hend => exact ⟨limit, by rw [areaRun, if_neg (not_or.mpr ⟨hbeg, hend⟩), hrun]⟩
  | step _ hpos hinsn hlen hend ih =>
    exact ih ((areaLoop_next hpos hinsn hlen hend).trans hrun)

/-- No store that the loop comes to changes bytes behind the area. -/
def StoresInside (decode : Decoder) (funcs : List (BitVec w × BitVec w)) (kbeg : BitVec w)
    (mem0 : List Byte) (size : Nat) : Prop :=
  ∀ mem pos offset new, AreaReached decode funcs kbeg mem0 size mem pos → pos + 4 < size →
    Redirects decode funcs kbeg mem pos offset new →
    ∀ j, j < 4 → size ≤ offset + j → mem[offset + j]? = (LittleEndian.bytes 4 new)[j]?

/-- A run of the loop leaves the bytes outside alone, if all stores are inside. -/
theorem areaLoop_sameOutside (hdecode : decode.Bounded) (hmem : size + 15 ≤ mem0.length)
    (hinside : StoresInside decode funcs kbeg mem0 size)
    (h : AreaReached decode funcs kbeg mem0 size mem pos) (hsame : SameOutside size mem0 mem)
    (hrun : areaLoop decode funcs kbeg size limit mem pos = some e) :
    SameOutside size mem0 e.mem := by
  induction limit generalizing mem pos with
  | zero => nomatch hrun
  | succ limit ih =>
    rw [areaLoop] at hrun
    split_ifs at hrun with hpos
    · cases hinsn : doProcessInsn decode funcs kbeg mem pos with
      | none =>
        rw [hinsn] at hrun
        cases hrun
        exact hsame
      | some r =>
        obtain ⟨mem', len⟩ := r
        have hsame' : SameOutside size mem0 mem' := by
          refine hsame.trans ?_
          rcases doProcessInsn_cases decode funcs kbeg mem pos with
            hbug | ⟨hkeep, -⟩ | ⟨offset, new, hredirects, hnew⟩
          · rw [hbug] at hinsn
            nomatch hinsn
          · rw [hkeep] at hinsn
            cases hinsn
            exact SameOutside.refl size mem
          · rw [hnew] at hinsn
            cases hinsn
            exact hredirects.sameOutside hdecode hpos (by rw [hsame.1]; exact hmem)
              (hinside mem pos offset new h hpos hredirects)
        rw [hinsn] at hrun
        dsimp only at hrun
        split_ifs at hrun with hlen hend hzero
        · cases hrun
          exact hsame'
        · cases hrun
          exact hsame'
        · have hnext := h.step hpos hinsn hlen (by omega)
          rw [nextPos, if_pos hzero] at hnext
          exact ih hnext hsame' hrun
        · have hnext := h.step hpos hinsn hlen (by omega)
          rw [nextPos, if_neg hzero] at hnext
          exact ih hnext hsame' hrun
    · cases hrun
      exact hsame

theorem areaLoop_last
    (hdecode : decode.Bounded) {offset : Nat} {new : BitVec 32} (hpos : pos + 4 < size)
    (hredirects : Redirects decode funcs kbeg mem pos offset new) (hout : size < offset + 4)
    (hinsn : doProcessInsn decode funcs kbeg mem pos =
      some (mem', (decode (mem.drop pos)).length)) :
    areaLoop decode funcs kbeg size 2 mem pos = some (.returned mem') := by
  have hrange := hredirects.range hdecode
  by_cases hend : pos + (decode (mem.drop pos)).length ≤ size
  · rw [areaLoop_next hpos hinsn hredirects.length_pos hend, areaLoop, if_neg]
    have hnext := le_nextPos mem' size pos (decode (mem.drop pos)).length
    omega
  · rw [areaLoop, if_pos hpos, hinsn]
    dsimp only
    rw [if_neg hredirects.length_pos, if_pos (by omega)]

/-- The function ends, and nothing outside of the area is modified. -/
def AreaConfined (decode : Decoder) (funcs : List (BitVec w × BitVec w)) (kbeg : BitVec w)
    (mem0 : List Byte) (size : Nat) : Prop :=
  ∃ e, (∃ limit0, ∀ limit, limit0 ≤ limit → areaRun decode funcs kbeg limit mem0 size = some e) ∧
    SameOutside size mem0 e.mem

theorem areaRun_ends (decode : Decoder) (funcs : List (BitVec w × BitVec w)) (kbeg : BitVec w)
    (mem0 : List Byte) (size : Nat) :
    ∃ e, ∀ limit, size + 1 ≤ limit → areaRun decode funcs kbeg limit mem0 size = some e := by
  unfold areaRun
  split_ifs
  · exact ⟨_, fun _ _ => rfl⟩
  · obtain ⟨e, he⟩ : ∃ e, areaLoop decode funcs kbeg size (size + 1) mem0 0 = some e :=
      areaLoop_isSome (Nat.lt_succ_self (size - 0))
    exact ⟨e, fun limit hlimit => areaLoop_mono he hlimit⟩

theorem areaRun_deterministic {limit' : Nat} {e' : AreaEnd}
    (he : areaRun decode funcs kbeg limit mem0 size = some e)
    (he' : areaRun decode funcs kbeg limit' mem0 size = some e') :
    e' = e := by
  unfold areaRun at he he'
  split_ifs at he he'
  · exact Option.some.inj (he'.symm.trans he)
  · have hmono := areaLoop_mono he (le_max_left limit limit')
    have hmono' := areaLoop_mono he' (le_max_right limit limit')
    exact Option.some.inj (hmono'.symm.trans hmono)

/-- In terms of the states of the loop, without a condition on the decoder. -/
theorem areaConfined_iff_stores
    (hdecode : decode.Bounded) (hmem : size + 15 ≤ mem0.length) :
    AreaConfined decode funcs kbeg mem0 size ↔ StoresInside decode funcs kbeg mem0 size := by
  obtain ⟨e, hend⟩ := areaRun_ends decode funcs kbeg mem0 size
  constructor
  · rintro ⟨e', ⟨limit0, he'⟩, hsame⟩ mem pos offset new hreached hpos hredirects j hj hout
    obtain rfl := areaRun_deterministic (hend _ le_rfl) (he' limit0 le_rfl)
    have hbefore := hreached.sameOutside hdecode hmem hpos
    have hlength : size + 15 ≤ mem.length := by
      rw [hbefore.1]
      exact hmem
    obtain ⟨limit, hrun⟩ := hreached.run
      (areaLoop_last hdecode hpos hredirects (by omega) hredirects.doProcessInsn)
    have hlast := areaRun_deterministic (hend _ le_rfl) hrun
    have hbyte := hsame.2 (offset + j) hout
    rw [← hlast, AreaEnd.mem, hredirects.getElem?_overwrite hdecode hpos hlength,
      if_pos ⟨by omega, by omega⟩, Nat.add_sub_cancel_left] at hbyte
    rw [hbefore.2 _ hout, hbyte]
  · intro hinside
    refine ⟨e, ⟨size + 1, hend⟩, ?_⟩
    have he := hend (size + 1) le_rfl
    by_cases hnull : kbeg = 0 ∨ addrOf kbeg size = 0
    · rw [areaRun, if_pos hnull] at he
      cases he
      exact SameOutside.refl size mem0
    · rw [areaRun, if_neg hnull] at he
      obtain ⟨hbeg, hendNull⟩ := not_or.mp hnull
      exact areaLoop_sameOutside hdecode hmem hinside (AreaReached.start hbeg hendNull)
        (SameOutside.refl size mem0) he

end Runs

end Kedr
end KedrAux
