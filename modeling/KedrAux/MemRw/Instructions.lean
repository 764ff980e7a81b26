import KedrAux.Lib.Tiling

/-!
# Instructions of a function

The decoder of the kernel is given as a function from addresses to instructions.  The code of a
function is walked instruction by instruction, up to the zeros at its end.
-/

namespace KedrAux
namespace MemRw

open Tiling

inductive Arch where
  | x86_32
  | x86_64
deriving DecidableEq

/-- Number of bits of `unsigned long`. -/
def Arch.bits : Arch → Nat
  | .x86_32 => 32
  | .x86_64 => 64

def Arch.sizeofLong : Arch → Nat
  | .x86_32 => 4
  | .x86_64 => 8

abbrev Byte := BitVec 8

/-- What the program uses of a decoded instruction; `immediate` and `displacement` are the values
of the fields, `immediateByte` is the first byte of the immediate one. -/
structure Insn where
  kaddr : Nat
  length : Nat
  opcode : Byte
  opcode1 : Byte
  modrm : Byte
  immediateByte : Byte
  immediate : Int
  displacement : Int
deriving DecidableEq

def kedrAddrFromOffset (arch : Arch) (insnAddr : Nat) (insnLen : Nat) (offset : Int) : Nat :=
  (((insnAddr : Int) + insnLen + offset) % 2 ^ arch.bits).toNat

/-- A failing call returns `-errno`. -/
inductive Errno where
  | eilseq
  | efault
deriving DecidableEq

section Walk

variable {σ ι : Type} (length : ι → Nat) (decode : Nat → ι)

/-- For each instruction in `[startAddr; endAddr)`, decode it and call `proc` for it; `n` bounds the
number of instructions. -/
def doForEachInsn (proc : σ → ι → σ) : Nat → Nat → Nat → σ → Except Errno σ
  | 0, _, _, s => .ok s
  | n + 1, startAddr, endAddr, s =>
    if startAddr < endAddr then
      let insn := decode startAddr
      if length insn = 0 then .error .eilseq
      else doForEachInsn proc n (startAddr + length insn) endAddr (proc s insn)
    else .ok s

/-- The instructions of the code in `[startAddr; endAddr)`. -/
def insnsFrom : Nat → Nat → Nat → List ι
  | 0, _, _ => []
  | n + 1, startAddr, endAddr =>
    if startAddr < endAddr then
      decode startAddr :: insnsFrom n (startAddr + length (decode startAddr)) endAddr
    else []

/-- The address after the last one of the instructions, which begin at the given address. -/
def lastEnd (kaddr : ι → Nat) (addr : Nat) (insns : List ι) : Nat :=
  match insns.getLast? with
  | none => addr
  | some insn => kaddr insn + length insn

end Walk

/-- Size of the function without the zeros at its end. -/
def skipZeros (byte : Nat → Byte) (addr : Nat) : Nat → Nat
  | 0 => 0
  | size + 1 => if byte (addr + size) = 0 then skipZeros byte addr size else size + 1

section Lemmas

variable {σ ι : Type} {kaddr length : ι → Nat} {decode : Nat → ι}

theorem doForEachInsn_eq (proc : σ → ι → σ) {n a e : Nat} (s : σ)
    (h : ∀ insn ∈ insnsFrom length decode n a e, length insn ≠ 0) :
    doForEachInsn length decode proc n a e s =
      .ok ((insnsFrom length decode n a e).foldl proc s) := by
  induction n generalizing a s with
  | zero => rfl
  | succ n ih =>
    rw [doForEachInsn]
    rw [insnsFrom] at h ⊢
    by_cases hlt : a < e
    · rw [if_pos hlt] at h ⊢
      simp only [hlt, if_true, h _ List.mem_cons_self, if_false, List.foldl_cons]
      exact ih _ fun insn hinsn => h insn (List.mem_cons_of_mem _ hinsn)
    · rw [if_neg hlt, if_neg hlt]
      rfl

theorem insnsFrom_tiles (hdecode : ∀ a, kaddr (decode a) = a) {n a e : Nat}
    (hn : e ≤ a + n) (hae : a < e) (h : ∀ insn ∈ insnsFrom length decode n a e, length insn ≠ 0) :
    ∃ e', e ≤ e' ∧ Tiles kaddr length (insnsFrom length decode n a e) a e' ∧
      ∀ insn ∈ insnsFrom length decode n a e, kaddr insn < e := by
  induction n generalizing a with
  | zero => omega
  | succ n ih =>
    rw [insnsFrom, if_pos hae] at h ⊢
    have hpos : 0 < length (decode a) := Nat.pos_of_ne_zero (h _ List.mem_cons_self)
    have htail := fun insn hinsn => h insn (List.mem_cons_of_mem (decode a) hinsn)
    by_cases hlt : a + length (decode a) < e
    · obtain ⟨e', hle, htiles, hstarts⟩ := ih (by omega) hlt htail
      refine ⟨e', hle, ⟨hdecode a, hpos, htiles⟩, fun insn hinsn => ?_⟩
      rcases List.mem_cons.mp hinsn with rfl | hinsn
      · rw [hdecode]
        exact hae
      · exact hstarts insn hinsn
    · have hnil : insnsFrom length decode n (a + length (decode a)) e = [] := by
        cases n with
        | zero => rfl
        | succ n => rw [insnsFrom, if_neg hlt]
      rw [hnil]
      refine ⟨a + length (decode a), not_lt.mp hlt, ⟨hdecode a, hpos, rfl⟩, fun insn hinsn => ?_⟩
      rw [List.mem_singleton.mp hinsn, hdecode]
      exact hae

theorem lastEnd_eq {insns : List ι} {a e : Nat} (h : Tiles kaddr length insns a e) :
    lastEnd length kaddr a insns = e := by
  induction insns generalizing a with
  | nil => exact h
  | cons insn insns ih =>
    have htail := ih h.2.2
    cases insns with
    | nil => rw [← htail, ← h.1]; rfl
    | cons insn' insns =>
      rw [lastEnd, List.getLast?_cons_cons]
      exact htail

end Lemmas

end MemRw
end KedrAux
