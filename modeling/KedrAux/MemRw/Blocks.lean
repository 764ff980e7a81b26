import KedrAux.MemRw.Instructions

/-!
# Splitting a function into code blocks

The offsets of block boundaries are collected while the code is walked, with duplicates and zeros,
then they are sorted and turned into blocks.
-/

namespace KedrAux
namespace MemRw
namespace Blocks

open Tiling

structure CodeBlock where
  addr : Nat
  size : Nat
deriving DecidableEq

/-- Jump table used for near indirect jumps within the function. -/
structure JumpTable where
  addr : Nat
  num : Nat
deriving DecidableEq

structure Function where
  addr : Nat
  size : Nat
  blocks : List CodeBlock
  jumpTables : List JumpTable
deriving DecidableEq

structure Module where
  moduleInit : Nat
  initSize : Nat
  moduleCore : Nat
  coreSize : Nat
deriving DecidableEq

/-- The architecture, the memory, as bytes and as values of `unsigned long`, the decoder and the
target module. -/
structure Target where
  arch : Arch
  byte : Nat → Byte
  long : Nat → Nat
  decode : Nat → Insn
  mod : Module

def x86ModrmMod (modrm : Byte) : Byte := (modrm &&& 0xc0) >>> 6

def x86ModrmReg (modrm : Byte) : Byte := (modrm &&& 0x38) >>> 3

def x86ModrmRm (modrm : Byte) : Byte := modrm &&& 0x07

/-- The value `(unsigned long)(-1)`. -/
def Arch.minusOne (arch : Arch) : Nat := 2 ^ arch.bits - 1

/-- Destination of the instruction; zero when it does not jump. -/
def insnJumpsTo (arch : Arch) (insn : Insn) : Nat :=
  let opcode := insn.opcode
  -- jcc short, jmp short
  if (opcode ≥ 0x70 ∧ opcode ≤ 0x7f) ∨ opcode = 0xe3 ∨ opcode = 0xeb then
    kedrAddrFromOffset arch insn.kaddr insn.length insn.immediateByte.toInt
  -- call/jmp/jcc near relative
  else if opcode = 0xe8 ∨ opcode = 0xe9 ∨ (opcode = 0x0f ∧ insn.opcode1 &&& 0xf0 = 0x80) then
    kedrAddrFromOffset arch insn.kaddr insn.length insn.immediate
  -- int*, ret*
  else if (opcode ≥ 0xca ∧ opcode ≤ 0xce) ∨ opcode = 0xc2 ∨ opcode = 0xc3 then
    Arch.minusOne arch
  -- loop*
  else if opcode ≥ 0xe0 ∧ opcode ≤ 0xe2 then
    kedrAddrFromOffset arch insn.kaddr insn.length insn.immediateByte.toInt
  -- indirect calls and jumps, near and far
  else if opcode = 0xff then
    let auxCode := x86ModrmReg insn.modrm
    if auxCode ≥ 2 ∧ auxCode ≤ 5 then Arch.minusOne arch else 0
  -- call/jump far absolute ptr16:32
  else if opcode = 0x9a ∨ opcode = 0xea then Arch.minusOne arch
  else 0

/-- The instruction has the form `jmp near [<jump_table> + reg * <scale>]`. -/
def isTableJump (insn : Insn) : Bool :=
  insn.opcode = 0xff && x86ModrmReg insn.modrm = 4 && x86ModrmMod insn.modrm ≠ 3 &&
    x86ModrmRm insn.modrm = 4

def jtablesOverlap (sizeofLong : Nat) (jtable1 jtable2 : JumpTable) : Bool :=
  if jtable2.addr ≤ jtable1.addr then jtable2.addr + jtable2.num * sizeofLong > jtable1.addr
  else jtable1.addr + jtable1.num * sizeofLong > jtable2.addr

/-- Adjust numbers of elements of the new table and of the earlier ones, which are the second part
of the result. -/
def resolveJtablesOverlaps (sizeofLong : Nat) (jtable : JumpTable) :
    List JumpTable → JumpTable × List JumpTable
  | [] => (jtable, [])
  | pos :: tables =>
    if !jtablesOverlap sizeofLong jtable pos then
      let r := resolveJtablesOverlaps sizeofLong jtable tables
      (r.1, pos :: r.2)
    else if jtable.addr = pos.addr then
      let r := resolveJtablesOverlaps sizeofLong { jtable with num := 0 } tables
      (r.1, pos :: r.2)
    else if pos.addr < jtable.addr then
      let r := resolveJtablesOverlaps sizeofLong jtable tables
      (r.1, { pos with num := (pos.num + 2 ^ 32 - jtable.num) % 2 ^ 32 } :: r.2)
    else
      let r := resolveJtablesOverlaps sizeofLong
        { jtable with num := (jtable.num + 2 ^ 32 - pos.num) % 2 ^ 32 } tables
      (r.1, pos :: r.2)

variable (target : Target)

/-- Number of elements of the table from the given position on, while they point into the function;
`n` bounds it. -/
def countElems (funcStart funcEnd endAddr : Nat) : Nat → Nat → Nat
  | 0, _ => 0
  | n + 1, pos =>
    if pos ≤ endAddr then
      if target.long pos < funcStart ∨ target.long pos ≥ funcEnd then 0
      else countElems funcStart funcEnd endAddr n (pos + target.arch.sizeofLong) + 1
    else 0

def jtableAddr (insn : Insn) : Nat := (insn.displacement % 2 ^ target.arch.bits).toNat

/-- The last place where an element may be, if the table is in the module. -/
def jtableEnd (insn : Insn) : Option Nat :=
  let coreEnd := target.mod.moduleCore + target.mod.coreSize
  let initEnd := target.mod.moduleInit + target.mod.initSize
  let addr := jtableAddr target insn
  if addr ≥ target.mod.moduleCore ∧ addr < coreEnd then some (coreEnd - target.arch.sizeofLong)
  else if addr ≥ target.mod.moduleInit ∧ addr < initEnd then
    some (initEnd - target.arch.sizeofLong)
  else none

/-- Number of elements of the table of a jump that are in the module and point into the function. -/
def jtableCount (funcStart funcEnd : Nat) (insn : Insn) : Nat :=
  match jtableEnd target insn with
  | none => 0
  | some endAddr =>
    countElems target funcStart funcEnd endAddr (endAddr + 1) (jtableAddr target insn)

def jtableNum (funcStart funcEnd : Nat) (insn : Insn) : Nat :=
  jtableCount target funcStart funcEnd insn % 2 ^ 32

def jtableElems (funcStart funcEnd : Nat) (insn : Insn) : List Nat :=
  (List.range (jtableNum target funcStart funcEnd insn)).map fun i =>
    target.long (jtableAddr target insn + i * target.arch.sizeofLong)

/-- Size of the function, offsets of block boundaries and jump tables while the code is walked. -/
structure Bounds where
  size : Nat
  blockOffsets : List Nat
  jumpTables : List JumpTable
deriving DecidableEq

def handleJmpNearIndirect (addr : Nat) (insn : Insn) (s : Bounds) : Bounds :=
  match jtableEnd target insn with
  | none => s
  | some _ =>
    let funcEnd := addr + s.size
    let r := resolveJtablesOverlaps target.arch.sizeofLong
      ⟨jtableAddr target insn, jtableNum target addr funcEnd insn⟩ s.jumpTables
    { s with
      blockOffsets := s.blockOffsets ++
        (jtableElems target addr funcEnd insn).map fun jaddr => (jaddr - addr) % 2 ^ 32
      jumpTables := r.1 :: r.2 }

def detectBlockBounds (addr : Nat) (s : Bounds) (insn : Insn) : Bounds :=
  let offsetAfterInsn := insn.kaddr + insn.length - addr
  let s := if offsetAfterInsn > s.size then { s with size := offsetAfterInsn } else s
  let dest := insnJumpsTo target.arch insn
  let offset := (insn.kaddr - addr) % 2 ^ 32
  let after := (offset + insn.length) % 2 ^ 32
  if dest = 0 then s
  else if dest < addr ∨ dest ≥ addr + s.size then
    let s := { s with blockOffsets := s.blockOffsets ++ [offset, after] }
    if isTableJump insn then handleJmpNearIndirect target addr insn s else s
  else if dest < insn.kaddr then
    { s with blockOffsets := s.blockOffsets ++ [(dest - addr) % 2 ^ 32, offset, after] }
  else s

/-- Blocks between the sorted offsets; equal ones are skipped, as zeros are at the beginning. -/
def makeBlocks (addr : Nat) (offsets : List Nat) : List CodeBlock :=
  (cut 0 offsets).map fun r => ⟨addr + r.1, r.2⟩

/-- Split the function into code blocks; each new block is put before the others. -/
def prepareBlocks (func : Function) : Except Errno Function :=
  let size := skipZeros target.byte func.addr func.size
  if size = 0 then .error .eilseq
  else do
    let s ← doForEachInsn Insn.length target.decode (detectBlockBounds target func.addr) size
      func.addr (func.addr + size) ⟨size, [], func.jumpTables⟩
    let offsets := (s.blockOffsets ++ [s.size % 2 ^ 32]).mergeSort fun a b => decide (a ≤ b)
    if offsets.all (· = 0) then .error .efault
    else .ok { func with
      size := s.size
      blocks := (makeBlocks func.addr offsets).reverse ++ func.blocks
      jumpTables := s.jumpTables }

end Blocks
end MemRw
end KedrAux
