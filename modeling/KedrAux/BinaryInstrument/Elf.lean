import KedrAux.Lib.FailingSearch
import KedrAux.Lib.LittleEndian

/-!
# ELF files of modules

The sections of a relocatable module with their headers and contents, and the helpers for reading
and for extending them.  Tables of symbols and of relocations are lists of entries, as libelf gives
them; each block of data is appended at the next aligned offset and nothing that is there is
changed.
-/

namespace KedrAux
namespace BinaryInstrument

open FailingSearch
open LittleEndian (Byte)

/-- Strings without the null byte at their end. -/
abbrev CString := List Byte

def cstring (s : String) : CString := s.toList.map fun c => BitVec.ofNat 8 c.toNat

inductive SectionType where
  | null
  | progbits
  | symtab
  | strtab
  | rela
  | nobits
  | rel
  | other (n : Nat)
deriving DecidableEq

structure Shdr where
  name : Nat
  type : SectionType
  flags : Nat
  link : Nat
  info : Nat
  addralign : Nat
  entsize : Nat
deriving DecidableEq

structure Sym where
  name : Nat
  value : Nat
  size : Nat
  info : Nat
  other : Nat
  shndx : Nat
deriving DecidableEq

/-- Relocation; without an own field for the addend it is 0. -/
structure Rel where
  offset : Nat
  info : Nat
  addend : Int
deriving DecidableEq

/-- A section has bytes, symbols or relocations, according to its type. -/
structure Section where
  shdr : Shdr
  bytes : List Byte
  syms : List Sym
  rels : List Rel
deriving DecidableEq

/-- The file; the section with the number 0 is not used. -/
structure Elf where
  is32 : Bool
  shstrndx : Nat
  sections : List Section
deriving DecidableEq

inductive Error where
  | elfError
  | assertFailed
  | einval
  | misaligned
deriving DecidableEq

def rInfo (is32 : Bool) (sym : Nat) (type : Int) : Nat :=
  if is32 then (((sym : Int) * 2 ^ 8 + type % 2 ^ 8) % 2 ^ 32).toNat
  else (((sym : Int) * 2 ^ 32 + type) % 2 ^ 64).toNat

def rSym (is32 : Bool) (info : Nat) : Nat := if is32 then info / 2 ^ 8 else info / 2 ^ 32

/-- The macros `ELF32_R_TYPE` and `ELF64_R_TYPE`, converted to `int32_t`. -/
def rType (is32 : Bool) (info : Nat) : Int :=
  if is32 then ((info % 2 ^ 8 : Nat) : Int) else ((info % 2 ^ 32 : Nat) : Int).bmod (2 ^ 32)

def stInfo (bind type : Nat) : Nat := bind * 2 ^ 4 + type % 2 ^ 4

def stbGlobal : Nat := 1

def sttNotype : Nat := 0

def sttFunc : Nat := 2

def sttSection : Nat := 3

def Elf.getscn (e : Elf) (i : Nat) : Except Error Section :=
  match e.sections[i]? with
  | some s => .ok s
  | none => .error .elfError

def stringAt (bytes : List Byte) (offset : Nat) : CString :=
  (bytes.drop offset).takeWhile (· ≠ 0)

def Elf.strptr (e : Elf) (i offset : Nat) : Except Error CString := do
  let s ← e.getscn i
  if s.shdr.type = .strtab ∧ offset < s.bytes.length then return stringAt s.bytes offset
  else .error .elfError

def Elf.firstSection (e : Elf) (test : Section → Except Error Bool) : Except Error (Option Nat) := do
  let i ← firstIndex test e.sections.tail
  return i.map (· + 1)

def Elf.findSection (e : Elf) (name : CString) : Except Error (Option Nat) :=
  e.firstSection fun s => do
    let sectionName ← e.strptr e.shstrndx s.shdr.name
    return sectionName = name

def Elf.getSymbolsSection (e : Elf) : Except Error Nat := do
  match ← e.firstSection fun s => .ok (s.shdr.type = .symtab) with
  | none => .error .assertFailed
  | some i =>
    let s ← e.getscn i
    let name ← e.strptr e.shstrndx s.shdr.name
    if name = cstring ".symtab" then return i else .error .assertFailed

def isRelocation (type : SectionType) : Bool := type = .rel || type = .rela

def Elf.findRelocationSection (e : Elf) (sectionIndex : Nat) : Except Error (Option Nat) :=
  e.firstSection fun s => .ok (isRelocation s.shdr.type && s.shdr.info = sectionIndex)

def Elf.findSymbol (e : Elf) (name : CString) : Except Error (Option Nat) := do
  let i ← e.getSymbolsSection
  let s ← e.getscn i
  firstIndex (fun sym => do
    let symbolName ← e.strptr s.shdr.link sym.name
    return symbolName = name) s.syms

def Elf.modify (e : Elf) (i : Nat) (f : Section → Section) : Elf :=
  { e with sections := e.sections.modify i f }

def alignVal (val alignment : Nat) : Nat := (val + (alignment - 1)) / alignment * alignment

def Elf.extendSection (e : Elf) (i : Nat) (data : List Byte) (align : Nat) :
    Except Error (Elf × Nat) := do
  let s ← e.getscn i
  if align = 0 then .error .elfError
  else
    let offset := alignVal s.bytes.length align
    return (e.modify i fun s =>
      { s with bytes := s.bytes ++ List.replicate (offset - s.bytes.length) 0 ++ data }, offset)

/-- Append the string and return its offset. -/
def Elf.addString (e : Elf) (i : Nat) (str : CString) : Except Error (Elf × Nat) :=
  e.extendSection i (str ++ [0]) 1

/-- The entry with the given index of the table of symbols. -/
def Elf.modifySymbol (e : Elf) (i index : Nat) (f : Sym → Sym) : Elf :=
  e.modify i fun s => { s with syms := s.syms.modify index f }

/-- Append a symbol and return its index; the other fields are to be set by the caller. -/
def Elf.addSymbol (e : Elf) (type bind : Nat) : Except Error (Elf × Nat) := do
  let i ← e.getSymbolsSection
  let s ← e.getscn i
  if bind ≠ stbGlobal then .error .assertFailed
  else
    return (e.modify i fun s => { s with syms := s.syms ++ [⟨0, 0, 0, stInfo bind type, 0, 0⟩] },
      s.syms.length)

def Elf.addSymbolImported (e : Elf) (symbolName : Nat) : Except Error (Elf × Nat) := do
  let (e, index) ← e.addSymbol sttNotype stbGlobal
  let i ← e.getSymbolsSection
  return (e.modifySymbol i index fun sym =>
    { sym with name := symbolName, value := 0, size := 0, shndx := 0 }, index)

/-- Number of the section with versions of imported symbols. -/
def Elf.getVersionsSection (e : Elf) : Except Error (Option Nat) :=
  e.findSection (cstring "__versions")

/-- Record about a version: the sum, the name and null bytes up to a multiple of 64 bytes. -/
def symVersion (is32 : Bool) (symbolName : CString) (crc : BitVec 64) : List Byte :=
  let sum := if is32 then LittleEndian.bytes 4 (crc.setWidth 32) else LittleEndian.bytes 8 crc
  let recordLen := alignVal (sum.length + symbolName.length + 1) 64
  sum ++ symbolName ++ List.replicate (recordLen - symbolName.length - sum.length) 0

/-- Add the version when versions are required for imported symbols. -/
def Elf.addSymbolVersion (e : Elf) (symbolName : CString) (crc : BitVec 64) : Except Error Elf := do
  match ← e.getVersionsSection with
  | none => return e
  | some i =>
    let (e, _) ← e.extendSection i (symVersion e.is32 symbolName crc) 64
    return e

end BinaryInstrument
end KedrAux
