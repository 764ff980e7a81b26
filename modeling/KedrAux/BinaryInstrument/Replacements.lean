import KedrAux.BinaryInstrument.CodeTemplate

/-!
# Replacement of imported functions and of links

The intermediate function for an imported one is embedded into the module and its symbol is
exchanged with the symbol of the imported function.  For `init_module` and `cleanup_module` the
symbol is redirected to the embedded code, which calls the function that it was a link to.
-/

namespace KedrAux
namespace BinaryInstrument

/-- Flags `SHF_ALLOC` and `SHF_EXECINSTR`. -/
def codeFlags : Nat := 2 + 4

/-- The section with the given name, which is created if it does not exist. -/
def getOrCreateSection (e : Elf) (sectionName : CString) (align : Nat) :
    Except Error (Elf × Nat) := do
  match ← e.findSection sectionName with
  | some scn => return (e, scn)
  | none =>
    let (e, nameOffset) ← e.addString e.shstrndx sectionName
    let shdr : Shdr := {
      name := nameOffset
      type := .progbits
      flags := codeFlags
      link := 0
      info := 0
      addralign := align
      entsize := 0 }
    return ({ e with sections := e.sections ++ [⟨shdr, [], [], []⟩] }, e.sections.length)

/--
Instantiate given template in the section with given name, then add symbol and fill it as a
function.  Return index of the symbol.
-/
def functionTemplateInstantiate (template : CodeTemplate) (e : Elf) (sectionName : CString)
    (correspondences : List SymbolCorrespondence) (functionName : CString) :
    Except Error (Elf × Nat) := do
  let (e, addedScn) ← getOrCreateSection e sectionName template.align
  let (e, instantiateOffset) ← ctInstantiate template e addedScn correspondences
  let symbolsScn ← e.getSymbolsSection
  let symbols ← e.getscn symbolsScn
  let (e, functionNameOffset) ← e.addString symbols.shdr.link functionName
  let (e, index) ← e.addSymbol sttFunc stbGlobal
  return (e.modifySymbol symbolsScn index fun sym =>
    { sym with
      name := functionNameOffset
      value := instantiateOffset
      size := template.code.length
      shndx := addedScn }, index)

structure ImportedReplacementInfo where
  origName : CString
  replName : CString
  intermediateName : CString
  replCrc : BitVec 64
  intermediateTemplate : CodeTemplate

structure LinkReplacementInfo where
  linkName : CString
  replName : CString
  intermediateName : CString
  linkPlaceholderName : CString
  replCrc : BitVec 64
  intermediateTemplate : CodeTemplate

/-- Information about the symbol with given name, if it is in the file. -/
def fillCorrespondence (e : Elf) (symbolName : CString) :
    Except Error (List SymbolCorrespondence) := do
  match ← e.findSymbol symbolName with
  | some index => return [⟨symbolName, index⟩]
  | none => return []

def mcount : CString := cstring "mcount"

def thisModule : CString := cstring "__this_module"

def addReplacementFunction (e : Elf) (replName : CString) (replCrc : BitVec 64) :
    Except Error (Elf × Nat) := do
  let symbolsScn ← e.getSymbolsSection
  let symbols ← e.getscn symbolsScn
  let (e, replNameOffset) ← e.addString symbols.shdr.link replName
  let (e, index) ← e.addSymbolImported replNameOffset
  let e ← e.addSymbolVersion replName replCrc
  return (e, index)

def exchangeSymbols (e : Elf) (i j : Nat) : Except Error Elf := do
  let symbolsScn ← e.getSymbolsSection
  let symbols ← e.getscn symbolsScn
  match symbols.syms[i]?, symbols.syms[j]? with
  | some symI, some symJ =>
    return (e.modifySymbol symbolsScn i fun _ => symJ).modifySymbol symbolsScn j fun _ => symI
  | _, _ => .error .assertFailed

def newSection : CString := cstring ".replacements.text"

def newSectionInit : CString := cstring ".init.replacements.text"

def newSectionExit : CString := cstring ".exit.replacements.text"

def replaceImport (info : ImportedReplacementInfo) (e : Elf) : Except Error Elf := do
  match ← e.findSymbol info.origName with
  | none => return e
  | some orig =>
    let (e, repl) ← addReplacementFunction e info.replName info.replCrc
    let mcountInfo ← fillCorrespondence e mcount
    let thisModuleInfo ← fillCorrespondence e thisModule
    let (e, intermediate) ← functionTemplateInstantiate info.intermediateTemplate e newSection
      ([⟨info.replName, repl⟩] ++ mcountInfo ++ thisModuleInfo) info.intermediateName
    exchangeSymbols e orig intermediate

/-- Helper for found original symbol for link: other name, but same section, value and size. -/
def linkGetOrig (e : Elf) (link : Sym) : Except Error (Option Nat) := do
  let symbolsScn ← e.getSymbolsSection
  let symbols ← e.getscn symbolsScn
  return symbols.syms.findIdx? fun sym =>
    sym.shndx = link.shndx ∧ sym.value = link.value ∧ sym.size = link.size ∧ sym.name ≠ link.name

/-- Same as `replaceImport` but for link replacements. -/
def replaceLink (info : LinkReplacementInfo) (newSectionName : CString) (e : Elf) :
    Except Error Elf := do
  match ← e.findSymbol info.linkName with
  | none => return e
  | some link =>
    let (e, repl) ← addReplacementFunction e info.replName info.replCrc
    let symbolsScn ← e.getSymbolsSection
    let symbols ← e.getscn symbolsScn
    match symbols.syms[link]? with
    | none => .error .assertFailed
    | some linkSym =>
      match ← linkGetOrig e linkSym with
      | none => .error .einval
      | some orig =>
        let mcountInfo ← fillCorrespondence e mcount
        let thisModuleInfo ← fillCorrespondence e thisModule
        let (e, intermediate) ←
          functionTemplateInstantiate info.intermediateTemplate e newSectionName
            ([⟨info.replName, repl⟩, ⟨info.linkPlaceholderName, orig⟩] ++ mcountInfo ++
              thisModuleInfo) info.intermediateName
        let symbols ← e.getscn symbolsScn
        match symbols.syms[intermediate]? with
        | none => .error .assertFailed
        | some sym =>
          return e.modifySymbol symbolsScn link fun linkSym =>
            { linkSym with shndx := sym.shndx, value := sym.value, size := sym.size }

/-- The link replacement of `init_module`, with the sum of its function and its template. -/
def initReplacementInfo (replCrc : BitVec 64) (template : CodeTemplate) : LinkReplacementInfo :=
  ⟨cstring "init_module", cstring "payload_init_target", cstring "init_module_intermediate",
    cstring "init_module_dummy", replCrc, template⟩

/-- The link replacement of `cleanup_module`, with the sum of its function and its template. -/
def exitReplacementInfo (replCrc : BitVec 64) (template : CodeTemplate) : LinkReplacementInfo :=
  ⟨cstring "cleanup_module", cstring "payload_exit_target", cstring "exit_module_intermediate",
    cstring "exit_module_dummy", replCrc, template⟩

def replaceImports : List ImportedReplacementInfo → Elf → Except Error Elf
  | [], e => .ok e
  | info :: infos, e => do
      let e ← replaceImport info e
      replaceImports infos e

/-- What is done with the copy of the target module. -/
def instrument (infos : List ImportedReplacementInfo) (initInfo exitInfo : LinkReplacementInfo)
    (e : Elf) : Except Error Elf := do
  let e ← replaceImports infos e
  let e ← replaceLink initInfo newSectionInit e
  replaceLink exitInfo newSectionExit e

end BinaryInstrument
end KedrAux
