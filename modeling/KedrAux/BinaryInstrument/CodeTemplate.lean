import KedrAux.BinaryInstrument.Elf

/-!
# Templates of binary code

The code of a function is taken from the template module with its relocations, whose symbols are
kept by name.  It is instantiated in a section of another module, where the names are translated
into indices of symbols there.
-/

namespace KedrAux
namespace BinaryInstrument

open LittleEndian (Byte)

/-- Relocation in the intermediate format; `symbol` is an index in the array of names. -/
structure CodeTemplateRel where
  offset : Nat
  type : Int
  symbol : Nat
  addend : Int
deriving DecidableEq

structure CodeTemplate where
  code : List Byte
  align : Nat
  relocations : List CodeTemplateRel
  is32 : Bool
  relType : SectionType
  symbols : List CString
deriving DecidableEq

/-- Correspondence of symbols used for template instantiation. -/
structure SymbolCorrespondence where
  name : CString
  index : Nat
deriving DecidableEq

/-- Return index of string in the array, which gets the string when it is not there. -/
def stringArrayAddStringUnique (array : List CString) (str : CString) : List CString × Nat :=
  match array.idxOf? str with
  | some i => (array, i)
  | none => (array ++ [str], array.length)

/--
Add the symbol of a relocation.  The error for symbols of sections is a negative number, which is
checked in the version for 32 bits only; it is the number 2^64 - 22 in the other one.
-/
def ctAddSym (template : CodeTemplate) (e : Elf) (symbolIndex symbolSectionIndex : Nat) :
    Except Error (CodeTemplate × Nat) := do
  let s ← e.getscn symbolSectionIndex
  if s.shdr.type ≠ .symtab then .error .assertFailed
  else
    match s.syms[symbolIndex]? with
    | none => .error .assertFailed
    | some sym =>
      if sym.info % 2 ^ 4 = sttSection then
        if template.is32 then .error .einval else return (template, 2 ^ 64 - 22)
      else
        let symbolName ← e.strptr s.shdr.link sym.name
        let (symbols, index) := stringArrayAddStringUnique template.symbols symbolName
        return ({ template with symbols }, index)

def ctAddRel (template : CodeTemplate) (e : Elf) (offset info : Nat) (addend : Int)
    (symbolSectionIndex : Nat) : Except Error CodeTemplate := do
  let (template, symbol) ← ctAddSym template e (rSym e.is32 info) symbolSectionIndex
  if addend = 0 ∨ template.relType = .rela then
    return { template with
      relocations := template.relocations ++ [⟨offset, rType e.is32 info, symbol, addend⟩] }
  else .error .assertFailed

/-- Add those of the relocations that belong to the code. -/
def ctAddRels (e : Elf) (offset size symbolSectionIndex : Nat) :
    List Rel → CodeTemplate → Except Error CodeTemplate
  | [], template => .ok template
  | rel :: rels, template =>
    if rel.offset < offset ∨ offset + size ≤ rel.offset then
      ctAddRels e offset size symbolSectionIndex rels template
    else do
      let addend := if template.relType = .rela then rel.addend else 0
      let template ← ctAddRel template e (rel.offset - offset) rel.info addend symbolSectionIndex
      ctAddRels e offset size symbolSectionIndex rels template

def ctLoad (e : Elf) (scn offset size align : Nat) : Except Error CodeTemplate := do
  let s ← e.getscn scn
  if s.bytes.length ≤ offset ∨ s.bytes.length < offset + size then .error .assertFailed
  else
    let template : CodeTemplate :=
      ⟨(s.bytes.drop offset).take size, align, [], e.is32, .null, []⟩
    match ← e.findRelocationSection scn with
    | none => return template
    | some relocationsScn =>
      let r ← e.getscn relocationsScn
      ctAddRels e offset size r.shdr.link r.rels { template with relType := r.shdr.type }

/-- Size of an entry in a table of relocations. -/
def relEntsize (is32 : Bool) (relType : SectionType) : Nat :=
  if is32 then (if relType = .rela then 12 else 8) else (if relType = .rela then 24 else 16)

/--
The bytes of the name of a section with relocations.  The size for `.rela` misses the length of the
name of the section, so that the first byte of this name is the last one there.
-/
def relSectionName (relType : SectionType) (sectionName : CString) : List Byte :=
  if relType = .rela then cstring ".rela" ++ (sectionName ++ [0]).take 1
  else cstring ".rel" ++ sectionName ++ [0]

def createRelocationsScn (e : Elf) (scn : Nat) (relType : SectionType) :
    Except Error (Elf × Nat) := do
  let symbolsScn ← e.getSymbolsSection
  let s ← e.getscn scn
  let sectionName ← e.strptr e.shstrndx s.shdr.name
  let (e, nameOffset) ← e.extendSection e.shstrndx (relSectionName relType sectionName) 1
  let shdr : Shdr := {
    name := nameOffset
    type := relType
    flags := 0
    link := symbolsScn
    info := scn
    addralign := if e.is32 then 4 else 8
    entsize := relEntsize e.is32 relType }
  return ({ e with sections := e.sections ++ [⟨shdr, [], [], []⟩] }, e.sections.length)

/-- The section with relocations for the given one, which is created if it does not exist. -/
def getOrCreateRelocationsScn (e : Elf) (scn : Nat) (relType : SectionType) :
    Except Error (Elf × Nat) := do
  match ← e.findRelocationSection scn with
  | some relocationsScn => return (e, relocationsScn)
  | none => createRelocationsScn e scn relType

/-- Instantiate one relocation element for code at the given offset. -/
def ctRelCopy (is32 : Bool) (relType : SectionType) (codeOffset : Nat) (symbols : List Nat)
    (src : CodeTemplateRel) : Rel :=
  { offset := src.offset + codeOffset
    info := rInfo is32 (symbols.getD src.symbol 0) src.type
    addend := if relType = .rela then src.addend else 0 }

/-- Add relocations of the template; entries are to follow each other without gaps. -/
def ctAddRelocationsData (template : CodeTemplate) (e : Elf) (scn codeOffset : Nat)
    (symbols : List Nat) : Except Error Elf := do
  let s ← e.getscn scn
  if s.shdr.addralign = 0 then .error .elfError
  else if s.shdr.entsize * s.rels.length % s.shdr.addralign ≠ 0 then .error .misaligned
  else
    return e.modify scn fun s =>
      { s with
        rels := s.rels ++
          template.relocations.map (ctRelCopy template.is32 template.relType codeOffset symbols) }

def translateSymbols (symbolsOrig : List CString) (correspondences : List SymbolCorrespondence) :
    Except Error (List Nat) :=
  symbolsOrig.mapM fun symbolOrig =>
    match correspondences.find? (fun c => symbolOrig = c.name) with
    | some c => .ok c.index
    | none => .error .einval

/-- Instantiate code template in the given section and return the offset of the code. -/
def ctInstantiate (template : CodeTemplate) (e : Elf) (scn : Nat)
    (correspondences : List SymbolCorrespondence) : Except Error (Elf × Nat) := do
  let symbols ← translateSymbols template.symbols correspondences
  let (e, offset) ← e.extendSection scn template.code template.align
  if template.is32 ≠ e.is32 then .error .einval
  else
    let (e, relocationsScn) ← getOrCreateRelocationsScn e scn template.relType
    let r ← e.getscn relocationsScn
    if r.shdr.type ≠ template.relType then .error .einval
    else
      let e ← ctAddRelocationsData template e relocationsScn offset symbols
      return (e, offset)

end BinaryInstrument
end KedrAux
