import KedrAux.Lib.ByteOrder
import KedrAux.MemRw.Instructions

/-!
# Instrumented copies of functions

The instructions of a function are copied to the detour buffer one by one.  References relative to
the next instruction are changed when they lead out of the function, and short jumps out of the
function are replaced by near ones.
-/

namespace KedrAux
namespace MemRw
namespace CallInject

open ByteOrder LittleEndian

/-- Decoded instruction with its code; the offsets of the immediate value and of the displacement
are counted from its first byte. -/
structure Insn extends MemRw.Insn where
  bytes : List Byte
  immediateOffset : Nat
  displacementOffset : Nat
  ripRelative : Bool
deriving DecidableEq

/-- The part of a function that is used here. -/
structure Function where
  addr : Nat
  size : Nat
  instrumentedAddr : Nat
deriving DecidableEq

def kedrOffsetFromAddr (insnAddr insnLen destAddr : Nat) : BitVec (8 * 4) :=
  BitVec.ofInt 32 ((destAddr : Int) - (insnAddr + insnLen))

def u32Bytes (value : BitVec (8 * 4)) : List Byte := store .little value

/-- Where the reference of an instruction stands in its code. -/
inductive Operand where
  | rel8 (offset : Nat)
  | rel32 (offset : Nat)
deriving DecidableEq

def Operand.value (code : List Byte) : Operand → Int
  | rel8 offset => ((code.drop offset).headD 0).toInt
  | rel32 offset => (load 4 .little (code.drop offset)).toInt

def refersTo (arch : Arch) (addr : Nat) (code : List Byte) (operand : Operand) : Nat :=
  kedrAddrFromOffset arch addr code.length (operand.value code)

/-- Code that was put into the detour buffer, and where its reference stands. -/
structure Emitted where
  code : List Byte
  operand : Option Operand
deriving DecidableEq

def isCallOrJmpNear (insn : Insn) : Bool := insn.opcode = 0xe8 || insn.opcode = 0xe9

def isJmpShort (insn : Insn) : Bool := insn.opcode = 0xeb

def isJccShort (insn : Insn) : Bool := insn.opcode ≥ 0x70 && insn.opcode ≤ 0x7f

def isJccNear (insn : Insn) : Bool := insn.opcode = 0x0f && insn.opcode1 &&& 0xf0 = 0x80

def isJcxzOrLoop (insn : Insn) : Bool :=
  insn.opcode = 0xe3 || (insn.opcode ≥ 0xe0 && insn.opcode ≤ 0xe2)

def Insn.operand (insn : Insn) : Option Operand :=
  if isCallOrJmpNear insn || isJccNear insn then some (.rel32 insn.immediateOffset)
  else if isJmpShort insn || isJccShort insn || isJcxzOrLoop insn then
    some (.rel8 insn.immediateOffset)
  else if insn.ripRelative then some (.rel32 insn.displacementOffset)
  else none

section Copy

variable (arch : Arch) (func : Function)

def Function.contains (addr : Nat) : Bool :=
  addr ≥ func.addr && addr < func.addr + func.size

/-- Code of the copied instruction, with the value of its field changed. -/
def fixup (insn : Insn) (offset dest addr : Nat) : List Byte :=
  overwrite insn.bytes offset (u32Bytes (kedrOffsetFromAddr dest insn.length addr))

/-- Copy the instruction to `dest`, and fix it up if it addresses memory outside of the function. -/
def copyAndFixupInsn (insn : Insn) (dest : Nat) : Emitted :=
  if isCallOrJmpNear insn then
    let addr := kedrAddrFromOffset arch insn.kaddr insn.length insn.immediate
    if func.contains addr then ⟨insn.bytes, insn.operand⟩
    else ⟨fixup insn insn.immediateOffset dest addr, insn.operand⟩
  else if arch = .x86_64 ∧ insn.ripRelative = true then
    let addr := kedrAddrFromOffset arch insn.kaddr insn.length insn.displacement
    if func.contains addr then ⟨insn.bytes, insn.operand⟩
    else ⟨fixup insn insn.displacementOffset dest addr, insn.operand⟩
  else ⟨insn.bytes, insn.operand⟩

def jumpAddr (insn : Insn) : Nat :=
  kedrAddrFromOffset arch insn.kaddr insn.length insn.immediateByte.toInt

/-- Processing of a short jump: the code is copied, or other code is put when it leads outside. -/
def processShort (near : Nat → Emitted) (insn : Insn) : Emitted :=
  if !func.contains (jumpAddr arch insn) then near (jumpAddr arch insn)
  else ⟨insn.bytes, insn.operand⟩

def processJmpShort (insn : Insn) (dest : Nat) : Emitted :=
  processShort arch func
    (fun addr => ⟨0xe9 :: u32Bytes (kedrOffsetFromAddr dest 5 addr), some (.rel32 1)⟩) insn

def processJccShort (insn : Insn) (dest : Nat) : Emitted :=
  processShort arch func
    (fun addr => ⟨0x0f :: (insn.opcode + 0x10) :: u32Bytes (kedrOffsetFromAddr dest 6 addr),
      some (.rel32 2)⟩) insn

/-- From `j*cxz` to `j*cxz`, `jmp short` and `jmp near`. -/
def processJcxzShort (insn : Insn) (dest : Nat) : Emitted :=
  processShort arch func
    (fun addr => ⟨0xe3 :: 0x02 :: 0xeb :: 0x05 :: 0xe9 ::
      u32Bytes (kedrOffsetFromAddr dest 5 addr), some (.rel32 5)⟩) insn

/-- Code for the instruction; the third branch is tested for the same opcode as the first one. -/
def emit (insn : Insn) (dest : Nat) : Emitted :=
  if insn.opcode = 0xeb then processJmpShort arch func insn dest
  else if insn.opcode ≥ 0x70 ∧ insn.opcode ≤ 0x7f then processJccShort arch func insn dest
  else if insn.opcode = 0xeb then processJcxzShort arch func insn dest
  else copyAndFixupInsn arch func insn dest

end Copy

/-- A copied instruction and its place in the detour buffer. -/
structure Copy where
  insn : Insn
  dest : Nat
  emitted : Emitted
deriving DecidableEq

/-- The function, the place for the next instruction and the copied ones. -/
structure State where
  func : Function
  destAddr : Nat
  copies : List Copy
deriving DecidableEq

def doProcessInsn (arch : Arch) (s : State) (insn : Insn) : State :=
  let offsetAfterInsn := insn.kaddr + insn.length - s.func.addr
  let func := if offsetAfterInsn > s.func.size then { s.func with size := offsetAfterInsn }
    else s.func
  let emitted := emit arch func insn s.destAddr
  ⟨func, s.destAddr + emitted.code.length, s.copies ++ [⟨insn, s.destAddr, emitted⟩]⟩

/-- The instructions that perform a call on entry to a function, with its two placeholders. -/
def entryCallPattern : Arch → List Byte
  | .x86_64 =>
    [0x50, 0x48, 0xc7, 0xc0, 0x00, 0x00, 0x00, 0x00, 0xe8, 0x00, 0x00, 0x00, 0x00, 0x58]
  | .x86_32 => [0x50, 0xb8, 0x00, 0x00, 0x00, 0x00, 0xe8, 0x00, 0x00, 0x00, 0x00, 0x58]

def entryCallPosVal : Arch → Nat
  | .x86_64 => 4
  | .x86_32 => 2

def entryCallPosFunc : Arch → Nat
  | .x86_64 => 9
  | .x86_32 => 7

def entryCall (arch : Arch) (wrapper : Nat) (func : Function) : List Byte :=
  let pattern := overwrite (entryCallPattern arch) (entryCallPosVal arch)
    (u32Bytes (BitVec.ofNat 32 func.addr))
  overwrite pattern (entryCallPosFunc arch) (u32Bytes
    (kedrOffsetFromAddr (func.instrumentedAddr + entryCallPosFunc arch - 1) 5 wrapper))

/-- The architecture, the memory, the decoder and the address of the function that is called on
entry. -/
structure Target where
  arch : Arch
  byte : Nat → Byte
  decode : Nat → Insn
  wrapper : Nat

/-- The instrumented variant: the call on entry, the copied instructions, the size of both, and the
jump that is written to the beginning of the original function. -/
structure Instrumented where
  func : Function
  entry : List Byte
  copies : List Copy
  instrumentedSize : Nat
  jump : List Byte
deriving DecidableEq

/-- Create an instrumented variant of the function; there is none when it is too short. -/
def instrumentFunction (target : Target) (func : Function) : Except Errno (Option Instrumented) :=
  if func.size < 5 then .ok none
  else
    let func := { func with size := skipZeros target.byte func.addr func.size }
    if func.size = 0 then .error .eilseq
    else do
      let entry := entryCall target.arch target.wrapper func
      let s ← doForEachInsn (fun insn => insn.length) target.decode (doProcessInsn target.arch)
        func.size func.addr (func.addr + func.size)
        ⟨func, func.instrumentedAddr + (entryCallPattern target.arch).length, []⟩
      .ok (some ⟨s.func, entry, s.copies, s.destAddr - func.instrumentedAddr,
        0xe9 :: u32Bytes (kedrOffsetFromAddr func.addr 5 func.instrumentedAddr)⟩)

end CallInject
end MemRw
end KedrAux
