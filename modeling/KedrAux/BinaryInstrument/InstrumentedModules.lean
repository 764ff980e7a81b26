import KedrAux.BinaryInstrument.Links
import KedrAux.BinaryInstrument.Loading

/-!
# Instrumented modules

What the relocations of an instrumented module mean: those that named an original function refer
to the copy of its intermediate function, all other ones refer to the symbols they named before.
This is so when no relocation refers to a second symbol with the name of an original function.
-/

namespace KedrAux
namespace BinaryInstrument

open LittleEndian (Byte)

variable {l : Layout} {is32 : Bool}

section RelocationFields

/-- Relocations have indices of symbols below this number. -/
def symbolLimit (is32 : Bool) : Nat := if is32 then 2 ^ 24 else 2 ^ 32

def typeLimit (is32 : Bool) : Int := if is32 then 2 ^ 8 else 2 ^ 31

theorem rType_lt (is32 : Bool) (info : Nat) : rType is32 info < typeLimit is32 := by
  cases is32 with
  | true =>
    have hmod := Nat.mod_lt info (show 0 < 2 ^ 8 by decide)
    simp only [rType, typeLimit, if_true]
    omega
  | false =>
    simp only [rType, typeLimit, Bool.false_eq_true, if_false]
    exact Int.bmod_lt (by decide)

variable {sym : Nat} {type : Int}

theorem rSym_rInfo (hsym : sym < symbolLimit is32) (hpos : 0 ≤ type) (hlt : type < typeLimit is32) :
    rSym is32 (rInfo is32 sym type) = sym := by
  obtain ⟨n, rfl⟩ := Int.eq_ofNat_of_zero_le hpos
  cases is32 with
  | true =>
    simp only [rSym, rInfo, symbolLimit, typeLimit, if_true] at *
    omega
  | false =>
    simp only [rSym, rInfo, symbolLimit, typeLimit, Bool.false_eq_true, if_false] at *
    omega

theorem rType_rInfo (hsym : sym < symbolLimit is32) (hpos : 0 ≤ type)
    (hlt : type < typeLimit is32) : rType is32 (rInfo is32 sym type) = type := by
  obtain ⟨n, rfl⟩ := Int.eq_ofNat_of_zero_le hpos
  cases is32 with
  | true =>
    simp only [rType, rInfo, symbolLimit, typeLimit, if_true] at *
    omega
  | false =>
    simp only [rType, rInfo, symbolLimit, typeLimit, Bool.false_eq_true, if_false] at *
    have hmod : (((sym : Int) * 2 ^ 32 + (n : Int)) % 2 ^ 64).toNat % 2 ^ 32 = n := by omega
    rw [hmod]
    exact Int.bmod_eq_of_le (by omega) (by omega)

end RelocationFields

section Meaning

def Elf.target (l : Layout) (e : Elf) (rel : Rel) : Option Sym :=
  (e.symbols l.symtab)[rSym e.is32 rel.info]?

def Elf.HasRel (e : Elf) (rel : Rel) : Prop :=
  ∃ r h, e.header r = some h ∧ isRelocation h.type = true ∧ rel ∈ e.relocs r

/-- The relocation is that of the template, with the offset of the copy. -/
def Elf.IsCopied (l : Layout) (e : Elf) (template : CodeTemplate) (meaning : CString → Sym → Prop)
    (offset : Nat) (src : CodeTemplateRel) (rel : Rel) : Prop :=
  rel.offset = src.offset + offset ∧ rType e.is32 rel.info = src.type ∧ rel.addend = src.addend ∧
    ∃ name sym, template.symbols[src.symbol]? = some name ∧ e.target l rel = some sym ∧
      meaning name sym

/--
The symbol stands for a copy of the template: its bytes, its relocations and no other ones, which
refer to the symbols that are meant by the names in the template.
-/
structure Elf.Copy (l : Layout) (e : Elf) (template : CodeTemplate) (meaning : CString → Sym → Prop)
    (sym : Sym) : Prop where
  bytes : template.code <+: (e.contents sym.shndx).drop sym.value
  size : sym.size = template.code.length
  relocations : ∃ r h, e.header r = some h ∧ isRelocation h.type = true ∧ h.link = l.symtab ∧
    h.info = sym.shndx ∧ ∀ src ∈ template.relocations, ∃ rel ∈ e.relocs r,
      e.IsCopied l template meaning sym.value src rel
  only : ∀ r h, e.header r = some h → isRelocation h.type = true → h.info = sym.shndx →
    ∀ rel ∈ e.relocs r, sym.value ≤ rel.offset → rel.offset < sym.value + template.code.length →
      ∃ src ∈ template.relocations, e.IsCopied l template meaning sym.value src rel

/--
The replacement function is a symbol for the loader, and the other names mean symbols that were in
the module.
-/
def importMeaning (l : Layout) (e e' : Elf) (replName name : CString) (sym : Sym) : Prop :=
  e'.symName l sym = name ∧ if name = replName then sym.shndx = 0 else sym ∈ e.symbols l.symtab

/-- The placeholder means the function that the symbol was a link to. -/
def linkMeaning (l : Layout) (e e' : Elf) (info : LinkReplacementInfo) (link : Sym) (name : CString)
    (sym : Sym) : Prop :=
  if name = info.linkPlaceholderName then link.SamePlace sym
  else importMeaning l e e' info.replName name sym

/-- The symbol of the intermediate function, which is at the start of its copy. -/
def Elf.ImportCopy (l : Layout) (e e' : Elf) (info : ImportedReplacementInfo) (func : Sym) : Prop :=
  e'.symName l func = info.intermediateName ∧
    e'.Copy l info.intermediateTemplate (importMeaning l e e' info.replName) func

/-- Original functions and links are redirected, and nothing else is. -/
structure Elf.Redirects (l : Layout) (infos : List ImportedReplacementInfo)
    (links : List LinkReplacementInfo) (e e' : Elf) : Prop where
  contents : ∀ i, e.contents i <+: e'.contents i
  relocs : ∀ i, e.relocs i <+: e'.relocs i
  originals : ∀ info ∈ infos, ∀ rel sym, e.HasRel rel → e.target l rel = some sym →
    e.symName l sym = info.origName → ∃ func, e'.target l rel = some func ∧
      e.ImportCopy l e' info func
  others : ∀ rel sym, e.HasRel rel → e.target l rel = some sym →
    (∀ info ∈ infos, e.symName l sym ≠ info.origName) →
      ∃ sym', e'.target l rel = some sym' ∧ e'.symName l sym' = e.symName l sym ∧
        ((∀ link ∈ links, e.symName l sym ≠ link.linkName) → sym' = sym)
  copies : ∀ info ∈ infos, info.origName ∈ e.symNames l →
    ∃ func ∈ e'.symbols l.symtab, e.ImportCopy l e' info func
  links : ∀ info ∈ links, ∀ i link, e.lookup l info.linkName = some i →
    (e.symbols l.symtab)[i]? = some link →
      ∃ sym, (e'.symbols l.symtab)[i]? = some sym ∧ e'.symName l sym = info.linkName ∧
        e'.Copy l info.intermediateTemplate (linkMeaning l e e' info link) sym

/-- Relocations refer to original functions by the first symbols with their names only. -/
def Elf.FirstOnly (l : Layout) (infos : List ImportedReplacementInfo) (e : Elf) : Prop :=
  ∀ info ∈ infos, ∀ rel sym, e.HasRel rel → e.target l rel = some sym →
    e.symName l sym = info.origName → e.lookup l info.origName = some (rSym e.is32 rel.info)

end Meaning

section Copies

/-- A template that was loaded, for modules of the same class, which refers to the given names. -/
structure CodeTemplate.Suits (l : Layout) (is32 : Bool) (names : List CString)
    (template : CodeTemplate) : Prop where
  loaded : ∃ e scn offset size, ctLoad e scn offset size template.align = .ok template
  is32 : template.is32 = is32
  relType : template.relType = l.relType
  align : 0 < template.align
  nonempty : template.relocations ≠ []
  symbols : ∀ src ∈ template.relocations, src.symbol < template.symbols.length
  types : ∀ src ∈ template.relocations, 0 ≤ src.type
  refers : ∀ name ∈ template.symbols, name ∈ names

variable {names : List CString} {template : CodeTemplate}

theorem CodeTemplate.Suits.src_spec (h : template.Suits l is32 names) {src : CodeTemplateRel}
    (hsrc : src ∈ template.relocations) :
    src.offset < template.code.length ∧ src.type < typeLimit is32 ∧
      (if template.relType = .rela then src.addend else 0) = src.addend := by
  obtain ⟨e, scn, offset, size, hload⟩ := h.loaded
  obtain ⟨s, -, -, hlength, -, hclass, hrels⟩ := ctLoad_spec hload
  rcases hrels with ⟨-, hnil⟩ | ⟨i, r, -, -, htype, hall⟩
  · exact absurd hnil h.nonempty
  · obtain ⟨k, hk, rfl⟩ := List.getElem_of_mem hsrc
    have htaken := hall.get (hall.length_eq ▸ hk) hk
    simp only [List.get_eq_getElem] at htaken
    refine ⟨?_, ?_, ?_⟩
    · rw [hlength]
      exact htaken.inside
    · rw [htaken.type, ← h.is32, hclass]
      exact rType_lt _ _
    · rw [htype, htaken.addend]
      split_ifs <;> rfl

theorem CodeTemplate.Suits.fits (h : template.Suits l is32 names) : template.Fits l is32 :=
  ⟨h.is32, h.relType, h.align, fun _ hsrc => (h.src_spec hsrc).1, h.nonempty⟩

theorem Elf.Embedded.copy {e : Elf} {index : CString → Nat} {sym : Sym}
    (h : e.Embedded l template index sym) (hsuits : template.Suits l e.is32 names)
    {meaning : CString → Sym → Prop} (hmeaning : ∀ name ∈ template.symbols, ∃ target,
      (e.symbols l.symtab)[index name]? = some target ∧ meaning name target)
    (hroom : (e.symbols l.symtab).length ≤ symbolLimit e.is32) : e.Copy l template meaning sym := by
  have hcopied : ∀ src ∈ template.relocations, e.IsCopied l template meaning sym.value src
      (ctRelCopy template.is32 template.relType sym.value (template.symbols.map index) src) := by
    intro src hsrc
    obtain ⟨-, htype, haddend⟩ := hsuits.src_spec hsrc
    have hpos := hsuits.types src hsrc
    have hlt := hsuits.symbols src hsrc
    obtain ⟨target, htarget, hmeans⟩ :=
      hmeaning template.symbols[src.symbol] (List.getElem_mem hlt)
    have hindex : (template.symbols.map index).getD src.symbol 0 =
        index template.symbols[src.symbol] := by
      rw [List.getD_eq_getElem?_getD, List.getElem?_map, List.getElem?_eq_getElem hlt,
        Option.map_some, Option.getD_some]
    have hbound : index template.symbols[src.symbol] < symbolLimit e.is32 :=
      Nat.lt_of_lt_of_le (List.getElem?_eq_some_iff.mp htarget).1 hroom
    refine ⟨rfl, ?_, haddend, template.symbols[src.symbol], target, List.getElem?_eq_getElem hlt, ?_,
      hmeans⟩
    · rw [ctRelCopy, hindex, hsuits.is32]
      exact rType_rInfo hbound hpos htype
    · rw [Elf.target, ctRelCopy, hindex, hsuits.is32]
      dsimp only
      rw [rSym_rInfo hbound hpos htype, htarget]
  refine ⟨h.placed.bytes, h.size, ?_, ?_⟩
  · obtain ⟨r, hd, hheader, hreloc, -, hlink, hinfo, hrels⟩ := h.placed.rels
    refine ⟨r, hd, hheader, hreloc, hlink, hinfo, fun src hsrc => ?_⟩
    exact ⟨_, hrels _ (List.mem_map_of_mem hsrc), hcopied src hsrc⟩
  · intro r hd hheader hreloc hinfo rel hrel hlow hhigh
    obtain ⟨src, hsrc, rfl⟩ :=
      List.mem_map.mp (h.placed.only r hd hheader hreloc hinfo rel hrel hlow hhigh)
    exact ⟨src, hsrc, hcopied src hsrc⟩

end Copies

variable {infos : List ImportedReplacementInfo}

section Instrumentation

def initModule : CString := cstring "init_module"

def cleanupModule : CString := cstring "cleanup_module"

structure Elf.Instrumentable (l : Layout) (infos : List ImportedReplacementInfo)
    (initTemplate exitTemplate : CodeTemplate) (e : Elf) : Prop where
  shape : e.Shape l
  named : e.Named l
  room : (e.symbols l.symtab).length + 2 * (infos.length + 2) ≤ symbolLimit e.is32
  distinct : (infos.flatMap ImportedReplacementInfo.names).Nodup
  free : ∀ name ∈ [mcount, thisModule, initModule, cleanupModule],
    name ∉ infos.flatMap ImportedReplacementInfo.names
  mcount : mcount ∈ e.symNames l
  thisModule : thisModule ∈ e.symNames l
  strings : ∀ info ∈ infos, 0 ∉ info.replName ∧ 0 ∉ info.intermediateName
  imports : ∀ info ∈ infos,
    info.intermediateTemplate.Suits l e.is32 [info.replName, BinaryInstrument.mcount,
      BinaryInstrument.thisModule]
  init : initTemplate.Suits l e.is32 [cstring "payload_init_target", cstring "init_module_dummy",
    BinaryInstrument.mcount, BinaryInstrument.thisModule]
  exit : exitTemplate.Suits l e.is32 [cstring "payload_exit_target", cstring "exit_module_dummy",
    BinaryInstrument.mcount, BinaryInstrument.thisModule]
  aliases : ∀ name ∈ [initModule, cleanupModule], ∀ i link, e.lookup l name = some i →
    (e.symbols l.symtab)[i]? = some link → ∃ sym ∈ e.symbols l.symtab, link.Alias sym

/-- The two links are not links to one function. -/
def Elf.LinksApart (l : Layout) (e : Elf) : Prop :=
  ∀ i j init exit, e.lookup l initModule = some i → e.lookup l cleanupModule = some j →
    (e.symbols l.symtab)[i]? = some init → (e.symbols l.symtab)[j]? = some exit →
      ¬ init.SamePlace exit

variable {e : Elf} {name : CString}

theorem Elf.lookup_of_mem (h : name ∈ e.symNames l) : ∃ i, e.lookup l name = some i := by
  refine Option.isSome_iff_exists.mp ?_
  rw [Elf.lookup, List.findIdx?_isSome, List.any_eq_true]
  exact ⟨name, h, decide_eq_true rfl⟩

theorem Elf.Runs.lookup_entry {e' : Elf} {changed used : List CString} {count : Nat}
    (h : e.Runs l e' changed used count) (hn : e.Named l) (hused : name ∉ used)
    (hchanged : name ∉ changed) {i : Nat} {sym : Sym} (hi : e'.lookup l name = some i)
    (hsym : (e'.symbols l.symtab)[i]? = some sym) :
    e.lookup l name = some i ∧ (e.symbols l.symtab)[i]? = some sym := by
  rw [h.lookup name hused] at hi
  obtain ⟨old, hold, hname⟩ := Elf.lookup_eq_some hi
  have hentry := (h.entry hn hold (by rw [hname]; exact hchanged)).1
  rw [hsym] at hentry
  cases hentry
  exact ⟨hi, hold⟩

variable {template : CodeTemplate}

theorem initReplacementInfo_proper (crc : BitVec 64)
    (h : template.Suits l is32 [cstring "payload_init_target", cstring "init_module_dummy", mcount,
      thisModule]) : (initReplacementInfo crc template).Proper l is32 := by
  refine ⟨cstring_ne_zero rfl, cstring_ne_zero rfl, h.fits, fun name hname => ?_⟩
  have hrefers := h.refers name hname
  simp only [List.mem_cons, List.not_mem_nil, or_false] at hrefers
  exact hrefers

theorem exitReplacementInfo_proper (crc : BitVec 64)
    (h : template.Suits l is32 [cstring "payload_exit_target", cstring "exit_module_dummy", mcount,
      thisModule]) : (exitReplacementInfo crc template).Proper l is32 := by
  refine ⟨cstring_ne_zero rfl, cstring_ne_zero rfl, h.fits, fun name hname => ?_⟩
  have hrefers := h.refers name hname
  simp only [List.mem_cons, List.not_mem_nil, or_false] at hrefers
  exact hrefers

/-- A name that no replacement uses is neither the name of a replacement function nor that of
an intermediate one. -/
theorem names_ne_of_not_mem (hname : name ∉ infos.flatMap ImportedReplacementInfo.names)
    {info : ImportedReplacementInfo} (hinfo : info ∈ infos) :
    info.replName ≠ name ∧ info.intermediateName ≠ name := by
  refine ⟨?_, ?_⟩
  · rintro rfl
    exact hname (List.mem_flatMap.mpr ⟨info, hinfo, by simp [ImportedReplacementInfo.names]⟩)
  · rintro rfl
    exact hname (List.mem_flatMap.mpr ⟨info, hinfo, by simp [ImportedReplacementInfo.names]⟩)

theorem not_mem_init_names (crc : BitVec 64) (template : CodeTemplate) :
    ∀ name ∈ [mcount, thisModule, cleanupModule],
      name ∉ (initReplacementInfo crc template).names := by
  show ∀ name ∈ [mcount, thisModule, cleanupModule], name ∉ [cstring "init_module",
    cstring "payload_init_target", cstring "init_module_intermediate"]
  decide

theorem origName_not_mem (hname : name ∉ infos.flatMap ImportedReplacementInfo.names) :
    name ∉ infos.map ImportedReplacementInfo.origName := by
  intro hmem
  obtain ⟨info, hinfo, rfl⟩ := List.mem_map.mp hmem
  exact hname (List.mem_flatMap.mpr ⟨info, hinfo, List.mem_cons_self⟩)

/-- What is known of the module after all replacements. -/
structure Elf.Instrumented (l : Layout) (infos : List ImportedReplacementInfo)
    (links : List LinkReplacementInfo) (m t : Nat) (e e' : Elf) : Prop where
  runs : ∃ used, e.Runs l e' (infos.map ImportedReplacementInfo.origName ++
    links.map LinkReplacementInfo.linkName) used (infos.length + 2)
  imports : ∀ info ∈ infos, ∀ i, e.lookup l info.origName = some i → e'.ImportDone l info m t i
  links : ∀ info ∈ links, ∀ i link, e.lookup l info.linkName = some i →
    (e.symbols l.symtab)[i]? = some link → ∃ orig, e'.LinkDone l info link m t i orig

theorem Elf.Instrumentable.replaceImports {initTemplate exitTemplate : CodeTemplate}
    (h : e.Instrumentable l infos initTemplate exitTemplate) {m t : Nat}
    (hm : e.lookup l BinaryInstrument.mcount = some m)
    (ht : e.lookup l BinaryInstrument.thisModule = some t) :
    ∃ e1, BinaryInstrument.replaceImports infos e = .ok e1 ∧
      e.Runs l e1 (infos.map ImportedReplacementInfo.origName)
        (infos.flatMap ImportedReplacementInfo.names) infos.length ∧
      (∀ sym ∈ e.symbols l.symtab, sym ∈ e1.symbols l.symtab) ∧
      ∀ info ∈ infos, ∀ i, e.lookup l info.origName = some i → e1.ImportDone l info m t i := by
  refine replaceImports_spec infos h.shape h.named (fun info hinfo => ⟨(h.strings info hinfo).1,
    (h.strings info hinfo).2, (h.imports info hinfo).fits, fun name hname => ?_⟩) h.distinct hm ht
    (h.free _ (by simp)) (h.free _ (by simp))
  simpa only [List.mem_cons, List.not_mem_nil, or_false] using
    (h.imports info hinfo).refers name hname

/-- Three runs are one, as no run uses the name of a link that is replaced after it. -/
theorem Elf.Instrumentable.runs_trans {initTemplate exitTemplate : CodeTemplate}
    (h : e.Instrumentable l infos initTemplate exitTemplate) {initCrc : BitVec 64}
    {e1 e2 e3 : Elf} {used : List CString}
    (h₁ : e.Runs l e1 (infos.map ImportedReplacementInfo.origName)
      (infos.flatMap ImportedReplacementInfo.names) infos.length)
    (h₂ : e1.Runs l e2 [initModule] (initReplacementInfo initCrc initTemplate).names 1)
    (h₃ : e2.Runs l e3 [cleanupModule] used 1) :
    e.Runs l e3 (infos.map ImportedReplacementInfo.origName ++ [initModule, cleanupModule])
      (infos.flatMap ImportedReplacementInfo.names ++
        (initReplacementInfo initCrc initTemplate).names ++ used) (infos.length + 2) := by
  have hrun := (h₁.trans h₂ (by
    intro name hname
    rw [List.mem_singleton.mp hname]
    exact h.free _ (by simp))).trans h₃ (by
      intro name hname
      rw [List.mem_singleton.mp hname, List.mem_append, not_or]
      exact ⟨h.free _ (by simp), not_mem_init_names initCrc initTemplate cleanupModule (by simp)⟩)
  rwa [List.append_assoc] at hrun

/-- Whatever the links are to, nothing but the given names is touched. -/
theorem instrument_runs {initTemplate exitTemplate : CodeTemplate}
    (h : e.Instrumentable l infos initTemplate exitTemplate) {initCrc exitCrc : BitVec 64}
    {e' : Elf} (heq : instrument infos (initReplacementInfo initCrc initTemplate)
      (exitReplacementInfo exitCrc exitTemplate) e = .ok e') :
    ∃ used, e.Runs l e' (infos.map ImportedReplacementInfo.origName ++
      [initModule, cleanupModule]) used (infos.length + 2) := by
  obtain ⟨m, hm⟩ := Elf.lookup_of_mem h.mcount
  obtain ⟨t, ht⟩ := Elf.lookup_of_mem h.thisModule
  have hfree := h.free
  simp only [List.forall_mem_cons, List.not_mem_nil, false_imp_iff, implies_true, and_true] at hfree
  obtain ⟨hfreeMcount, hfreeThis, hfreeInit, hfreeExit⟩ := hfree
  have hnames := not_mem_init_names initCrc initTemplate
  obtain ⟨e1, heq1, hrun1, -⟩ := h.replaceImports hm ht
  rw [instrument, heq1] at heq
  simp only [bind, Except.bind] at heq
  split at heq
  case h_1 => cases heq
  case h_2 e2 heq2 =>
  have hrun2 := replaceLink_runs hrun1.shape hrun1.named (by
    rw [hrun1.grows.is32]
    exact initReplacementInfo_proper initCrc h.init)
    (show 0 ∉ newSectionInit from cstring_ne_zero rfl) ((hrun1.lookup _ hfreeMcount).trans hm)
    ((hrun1.lookup _ hfreeThis).trans ht) heq2
  have hrun3 := replaceLink_runs hrun2.shape hrun2.named (by
    rw [hrun2.grows.is32, hrun1.grows.is32]
    exact exitReplacementInfo_proper exitCrc h.exit)
    (show 0 ∉ newSectionExit from cstring_ne_zero rfl)
    (((hrun2.lookup _ (hnames _ (by simp))).trans (hrun1.lookup _ hfreeMcount)).trans hm)
    (((hrun2.lookup _ (hnames _ (by simp))).trans (hrun1.lookup _ hfreeThis)).trans ht) heq
  exact ⟨_, h.runs_trans hrun1 hrun2 hrun3⟩

/-- Every replacement is carried out, for the imports and for the links. -/
theorem instrument_spec {initTemplate exitTemplate : CodeTemplate}
    (h : e.Instrumentable l infos initTemplate exitTemplate) (hapart : e.LinksApart l)
    (initCrc exitCrc : BitVec 64) {m t : Nat} (hm : e.lookup l mcount = some m)
    (ht : e.lookup l thisModule = some t) :
    ∃ e', instrument infos (initReplacementInfo initCrc initTemplate)
        (exitReplacementInfo exitCrc exitTemplate) e = .ok e' ∧
      e.Instrumented l infos [initReplacementInfo initCrc initTemplate,
        exitReplacementInfo exitCrc exitTemplate] m t e' := by
  have hfree := h.free
  simp only [List.forall_mem_cons, List.not_mem_nil, false_imp_iff, implies_true, and_true] at hfree
  obtain ⟨hfreeMcount, hfreeThis, hfreeInit, hfreeExit⟩ := hfree
  have hnames := not_mem_init_names initCrc initTemplate
  -- imported functions
  obtain ⟨e1, heq1, hrun1, hremains1, hdone1⟩ := h.replaceImports hm ht
  have hback1 : ∀ name ∈ [initModule, cleanupModule], ∀ i sym, e1.lookup l name = some i →
      (e1.symbols l.symtab)[i]? = some sym →
        e.lookup l name = some i ∧ (e.symbols l.symtab)[i]? = some sym := by
    intro name hname i sym hi hsym
    have hfreeName := h.free name (List.mem_cons_of_mem _ (List.mem_cons_of_mem _ hname))
    exact hrun1.lookup_entry h.named hfreeName (origName_not_mem hfreeName) hi hsym
  -- the link to the function for loading
  obtain ⟨e2, heq2, hrun2, hremains2, hdone2⟩ := replaceLink_spec hrun1.shape hrun1.named
    (show (initReplacementInfo initCrc initTemplate).Proper l e1.is32 by
      rw [hrun1.grows.is32]
      exact initReplacementInfo_proper initCrc h.init)
    (show 0 ∉ newSectionInit from cstring_ne_zero rfl)
    (m := m) (t := t) (by rw [hrun1.lookup _ hfreeMcount, hm])
    (by rw [hrun1.lookup _ hfreeThis, ht])
    (fun i link hi hlink => by
      obtain ⟨hi', hlink'⟩ := hback1 initModule List.mem_cons_self i link hi hlink
      obtain ⟨sym, hsym, halias⟩ := h.aliases initModule List.mem_cons_self i link hi' hlink'
      exact ⟨sym, hremains1 sym hsym, halias⟩)
  have hback2 : ∀ j sym, e2.lookup l cleanupModule = some j →
      (e2.symbols l.symtab)[j]? = some sym →
        e.lookup l cleanupModule = some j ∧ (e.symbols l.symtab)[j]? = some sym := by
    intro j sym hj hsym
    obtain ⟨hj', hsym'⟩ := hrun2.lookup_entry hrun1.named (hnames _ (by simp))
      (by show cleanupModule ∉ [cstring "init_module"]; decide) hj hsym
    exact hback1 cleanupModule (by simp) j sym hj' hsym'
  -- the link to the function for unloading
  obtain ⟨e3, heq3, hrun3, -, hdone3⟩ := replaceLink_spec hrun2.shape hrun2.named
    (show (exitReplacementInfo exitCrc exitTemplate).Proper l e2.is32 by
      rw [hrun2.grows.is32, hrun1.grows.is32]
      exact exitReplacementInfo_proper exitCrc h.exit)
    (show 0 ∉ newSectionExit from cstring_ne_zero rfl)
    (m := m) (t := t) (by rw [hrun2.lookup _ (hnames _ (by simp)), hrun1.lookup _ hfreeMcount, hm])
    (by rw [hrun2.lookup _ (hnames _ (by simp)), hrun1.lookup _ hfreeThis, ht])
    (fun j link hj hlink => by
      obtain ⟨hj', hlink'⟩ := hback2 j link hj hlink
      obtain ⟨sym, hsym, halias⟩ := h.aliases cleanupModule (by simp) j link hj' hlink'
      rcases hremains2 sym (hremains1 sym hsym) with hsym2 | ⟨i, hi, hinit⟩
      · exact ⟨sym, hsym2, halias⟩
      · -- the other link is no alias
        obtain ⟨hi', hinit'⟩ := hback1 initModule List.mem_cons_self i sym hi hinit
        obtain ⟨⟨h1, h2, h3⟩, -⟩ := halias
        exact absurd ⟨h1.symm, h2.symm, h3.symm⟩ (hapart i j sym link hi' hj' hinit' hlink'))
  refine ⟨e3, ?_, ⟨⟨_, h.runs_trans hrun1 hrun2 hrun3⟩, ?_, ?_⟩⟩
  · rw [instrument, heq1]
    simp only [bind, Except.bind, heq2, heq3]
  · intro info hinfo i hi
    obtain ⟨hrepl, hintermediate⟩ := names_ne_of_not_mem hfreeInit hinfo
    obtain ⟨hrepl', hintermediate'⟩ := names_ne_of_not_mem hfreeExit hinfo
    exact ((hdone1 info hinfo i hi).run hrun1.named hrun2
      (fun hmem => hrepl (List.mem_singleton.mp hmem))
      (fun hmem => hintermediate (List.mem_singleton.mp hmem))).run hrun2.named hrun3
      (fun hmem => hrepl' (List.mem_singleton.mp hmem))
      (fun hmem => hintermediate' (List.mem_singleton.mp hmem))
  · intro info hinfo i link hi hlink
    rcases List.mem_cons.mp hinfo with rfl | hinfo
    · have hentry := (hrun1.entry h.named hlink (by
        rw [Elf.symName_of_lookup hi hlink]
        exact origName_not_mem hfreeInit)).1
      obtain ⟨orig, origSym, horig, halias, hdone⟩ := hdone2 i link
        ((hrun1.lookup _ hfreeInit).trans hi) hentry
      refine ⟨orig, hdone.run hrun2.named hrun3
        (by show initModule ≠ cleanupModule; decide)
        (by show cstring "payload_init_target" ≠ cleanupModule; decide) ?_⟩
      -- the alias that was taken is not the other link
      intro hexit
      have hexit1 : e1.lookup l cleanupModule = some orig := by
        rw [← hrun2.lookup _ (hnames _ (by simp))]
        exact hexit
      obtain ⟨hj, hexit'⟩ := hback1 cleanupModule (by simp) orig origSym hexit1 horig
      exact hapart i orig link origSym hi hj hlink hexit' halias.1
    · rw [List.mem_singleton.mp hinfo] at hi ⊢
      have hname : e.symName l link = cleanupModule := Elf.symName_of_lookup hi hlink
      have hentry := hrun1.entry h.named hlink (by
        rw [hname]
        exact origName_not_mem hfreeExit)
      have hentry2 := (hrun2.entry hrun1.named hentry.1 (by
        rw [hentry.2, hname]
        show cleanupModule ∉ [cstring "init_module"]
        decide)).1
      obtain ⟨orig, origSym, -, -, hdone⟩ := hdone3 i link
        (((hrun2.lookup _ (hnames cleanupModule (by simp))).trans (hrun1.lookup _ hfreeExit)).trans hi)
        hentry2
      exact ⟨orig, hdone⟩

end Instrumentation

variable {m t : Nat}

section Redirection

variable {links : List LinkReplacementInfo} {e e' : Elf}

variable {p : Nat} {name : CString}

variable {sym : Sym} {i : Nat}

theorem Elf.Instrumented.entry (h : e.Instrumented l infos links m t e') (hn : e.Named l)
    (hp : (e.symbols l.symtab)[p]? = some sym)
    (hinfos : ∀ info ∈ infos, e.lookup l info.origName ≠ some p)
    (hlinks : ∀ info ∈ links, e.lookup l info.linkName ≠ some p) :
    (e'.symbols l.symtab)[p]? = some sym ∧ e'.symName l sym = e.symName l sym := by
  obtain ⟨used, hrun⟩ := h.runs
  refine ⟨hrun.keeps p sym hp fun name hname => ?_,
    hn.symName_eq hrun.grows (List.mem_of_getElem? hp)⟩
  rcases List.mem_append.mp hname with hname | hname
  · obtain ⟨info, hinfo, rfl⟩ := List.mem_map.mp hname
    exact hinfos info hinfo
  · obtain ⟨info, hinfo, rfl⟩ := List.mem_map.mp hname
    exact hlinks info hinfo

theorem Elf.lookup_ne (hp : (e.symbols l.symtab)[p]? = some sym) (hname : e.symName l sym ≠ name) :
    e.lookup l name ≠ some p := by
  intro hlookup
  exact hname (Elf.symName_of_lookup hlookup hp)

theorem Elf.Instrumented.entry_of_name (h : e.Instrumented l infos links m t e') (hn : e.Named l)
    (hp : e.lookup l name = some p) (hinfos : ∀ info ∈ infos, name ≠ info.origName)
    (hlinks : ∀ info ∈ links, name ≠ info.linkName) :
    ∃ sym, (e'.symbols l.symtab)[p]? = some sym ∧ e'.symName l sym = name ∧
      sym ∈ e.symbols l.symtab := by
  obtain ⟨sym, hsym, rfl⟩ := Elf.lookup_eq_some hp
  obtain ⟨hentry, hname⟩ := h.entry hn hsym
    (fun info hinfo => Elf.lookup_ne hsym (hinfos info hinfo))
    (fun info hinfo => Elf.lookup_ne hsym (hlinks info hinfo))
  exact ⟨sym, hentry, hname, List.mem_of_getElem? hsym⟩

/-- The symbols of the module that templates refer to. -/
def Elf.Constant (l : Layout) (e e' : Elf) (name : CString) (p : Nat) : Prop :=
  ∃ sym, (e'.symbols l.symtab)[p]? = some sym ∧ e'.symName l sym = name ∧ sym ∈ e.symbols l.symtab

theorem importIndex_meaning {replName : CString} {repl : Sym} {r : Nat}
    (hr : (e'.symbols l.symtab)[r]? = some repl) (hname : e'.symName l repl = replName)
    (hshndx : repl.shndx = 0) (hm : e.Constant l e' mcount m) (ht : e.Constant l e' thisModule t)
    (hrefers : name ∈ [replName, mcount, thisModule]) :
    ∃ target, (e'.symbols l.symtab)[importIndex replName r m t name]? = some target ∧
      importMeaning l e e' replName name target := by
  rw [importIndex]
  by_cases hrepl : name = replName
  · rw [if_pos hrepl]
    exact ⟨repl, hr, by rw [hname, hrepl], by rw [if_pos hrepl]; exact hshndx⟩
  · rw [if_neg hrepl]
    by_cases hmcount : name = mcount
    · obtain ⟨sym, hsym, hsymName, hmem⟩ := hm
      rw [if_pos hmcount]
      exact ⟨sym, hsym, by rw [hsymName, hmcount], by rw [if_neg hrepl]; exact hmem⟩
    · have hthis : name = thisModule := by
        simpa only [List.mem_cons, hrepl, hmcount, List.not_mem_nil, or_false, false_or] using hrefers
      obtain ⟨sym, hsym, hsymName, hmem⟩ := ht
      rw [if_neg hmcount]
      exact ⟨sym, hsym, by rw [hsymName, hthis], by rw [if_neg hrepl]; exact hmem⟩

theorem Elf.ImportDone.copy {info : ImportedReplacementInfo} (h : e'.ImportDone l info m t i)
    (hsuits : info.intermediateTemplate.Suits l e'.is32 [info.replName, mcount, thisModule])
    (hm : e.Constant l e' mcount m) (ht : e.Constant l e' thisModule t)
    (hroom : (e'.symbols l.symtab).length ≤ symbolLimit e'.is32) :
    ∃ func, (e'.symbols l.symtab)[i]? = some func ∧ e.ImportCopy l e' info func := by
  obtain ⟨func, repl, r, hfunc, hfuncName, hrepl, hreplName, hshndx, -, hembedded⟩ := h
  refine ⟨func, hfunc, hfuncName, hembedded.copy hsuits (fun name hname => ?_) hroom⟩
  exact importIndex_meaning hrepl hreplName hshndx hm ht (hsuits.refers name hname)

theorem Elf.LinkDone.copy {info : LinkReplacementInfo} {link : Sym} {orig : Nat}
    (h : e'.LinkDone l info link m t i orig)
    (hplaceholder : info.replName ≠ info.linkPlaceholderName)
    (hsuits : info.intermediateTemplate.Suits l e'.is32
      [info.replName, info.linkPlaceholderName, mcount, thisModule]) (hm : e.Constant l e' mcount m)
    (ht : e.Constant l e' thisModule t)
    (hroom : (e'.symbols l.symtab).length ≤ symbolLimit e'.is32) :
    ∃ sym, (e'.symbols l.symtab)[i]? = some sym ∧ e'.symName l sym = info.linkName ∧
      e'.Copy l info.intermediateTemplate (linkMeaning l e e' info link) sym := by
  obtain ⟨new, repl, r, origSym, hnew, hnewName, -, hrepl, hreplName, hshndx, -, horig, hplace,
    hembedded⟩ := h
  refine ⟨new, hnew, hnewName, hembedded.copy hsuits (fun name hname => ?_) hroom⟩
  by_cases hother : name = info.linkPlaceholderName
  · refine ⟨origSym, ?_, ?_⟩
    · rw [linkIndex, if_neg (by rw [hother]; exact Ne.symm hplaceholder), if_pos hother, horig]
    · rw [linkMeaning, if_pos hother]
      exact hplace
  · have hindex : linkIndex info r orig m t name = importIndex info.replName r m t name := by
      rw [linkIndex, if_neg hother, importIndex]
    have hrefers := hsuits.refers name hname
    simp only [List.mem_cons, hother, false_or] at hrefers
    obtain ⟨target, htarget, hmeans⟩ := importIndex_meaning hrepl hreplName hshndx hm ht
      (show name ∈ [info.replName, mcount, thisModule] by simpa only [List.mem_cons] using hrefers)
    refine ⟨target, by rw [hindex, htarget], ?_⟩
    rw [linkMeaning, if_neg hother]
    exact hmeans

end Redirection

section Result

variable {initTemplate exitTemplate : CodeTemplate} {e : Elf}

variable {initCrc exitCrc : BitVec 64} {e' : Elf}

/-- Everything is redirected as it should when relocations refer to the first symbols. -/
theorem Elf.Instrumented.redirects (h : e.Instrumentable l infos initTemplate exitTemplate)
    (hm : e.lookup l mcount = some m) (ht : e.lookup l thisModule = some t)
    (hdone : e.Instrumented l infos [initReplacementInfo initCrc initTemplate,
      exitReplacementInfo exitCrc exitTemplate] m t e') (hfirst : e.FirstOnly l infos) :
    e.Redirects l infos [initReplacementInfo initCrc initTemplate,
      exitReplacementInfo exitCrc exitTemplate] e' := by
  obtain ⟨used, hrun⟩ := hdone.runs
  have hclass := hrun.grows.is32
  have hroom : (e'.symbols l.symtab).length ≤ symbolLimit e'.is32 := by
    have hlength := hrun.length
    have hlimit := h.room
    rw [hclass]
    omega
  have htarget : ∀ rel, e'.target l rel = (e'.symbols l.symtab)[rSym e.is32 rel.info]? := fun rel => by
    rw [Elf.target, hclass]
  have horig : ∀ name ∈ [mcount, thisModule, initModule, cleanupModule], ∀ info ∈ infos,
      name ≠ info.origName := by
    rintro name hname info hinfo rfl
    exact h.free _ hname (List.mem_flatMap.mpr ⟨info, hinfo, List.mem_cons_self⟩)
  have hlinkNames : ∀ name ∈ [mcount, thisModule], ∀ info ∈ [initReplacementInfo initCrc initTemplate,
      exitReplacementInfo exitCrc exitTemplate], name ≠ info.linkName := by
    intro name hname info hinfo
    have hne : ∀ name ∈ [mcount, thisModule], name ≠ initModule ∧ name ≠ cleanupModule := by decide
    rcases List.mem_cons.mp hinfo with rfl | hinfo
    · exact (hne name hname).1
    · rw [List.mem_singleton.mp hinfo]
      exact (hne name hname).2
  have hmcount : e.Constant l e' mcount m :=
    hdone.entry_of_name h.named hm (horig _ (by simp)) (hlinkNames _ (by simp))
  have hthis : e.Constant l e' thisModule t :=
    hdone.entry_of_name h.named ht (horig _ (by simp)) (hlinkNames _ (by simp))
  have himport : ∀ info ∈ infos, ∀ i, e.lookup l info.origName = some i →
      ∃ func, (e'.symbols l.symtab)[i]? = some func ∧ e.ImportCopy l e' info func := by
    intro info hinfo i hi
    exact (hdone.imports info hinfo i hi).copy (by rw [hclass]; exact h.imports info hinfo) hmcount
      hthis hroom
  have hlink : ∀ info ∈ [initReplacementInfo initCrc initTemplate,
      exitReplacementInfo exitCrc exitTemplate], ∀ i link, e.lookup l info.linkName = some i →
        (e.symbols l.symtab)[i]? = some link →
          ∃ sym, (e'.symbols l.symtab)[i]? = some sym ∧ e'.symName l sym = info.linkName ∧
            e'.Copy l info.intermediateTemplate (linkMeaning l e e' info link) sym := by
    intro info hinfo i link hi hentry
    obtain ⟨orig, hlinkDone⟩ := hdone.links info hinfo i link hi hentry
    rcases List.mem_cons.mp hinfo with rfl | hinfo
    · refine hlinkDone.copy ?_ (by rw [hclass]; exact h.init) hmcount hthis hroom
      show cstring "payload_init_target" ≠ cstring "init_module_dummy"
      decide
    · rw [List.mem_singleton.mp hinfo] at hlinkDone ⊢
      refine hlinkDone.copy ?_ (by rw [hclass]; exact h.exit) hmcount hthis hroom
      show cstring "payload_exit_target" ≠ cstring "exit_module_dummy"
      decide
  refine ⟨hrun.grows.contents, hrun.grows.relocs, ?_, ?_, ?_, hlink⟩
  · intro info hinfo rel sym hrel hsym hname
    rw [htarget]
    exact himport info hinfo _ (hfirst info hinfo rel sym hrel hsym hname)
  · intro rel sym _ hsym hother
    rw [htarget]
    rw [Elf.target] at hsym
    have hinfos : ∀ info ∈ infos, e.lookup l info.origName ≠ some (rSym e.is32 rel.info) :=
      fun info hinfo => Elf.lookup_ne hsym (hother info hinfo)
    by_cases hlinked : ∃ info ∈ [initReplacementInfo initCrc initTemplate,
        exitReplacementInfo exitCrc exitTemplate],
          e.lookup l info.linkName = some (rSym e.is32 rel.info)
    · obtain ⟨info, hinfo, hi⟩ := hlinked
      obtain ⟨new, hnew, hnewName, -⟩ := hlink info hinfo _ sym hi hsym
      have hsymName := Elf.symName_of_lookup hi hsym
      exact ⟨new, hnew, by rw [hnewName, hsymName], fun hno => absurd hsymName (hno info hinfo)⟩
    · obtain ⟨hentry, hname⟩ := hdone.entry h.named hsym hinfos
        (fun info hinfo hi => hlinked ⟨info, hinfo, hi⟩)
      exact ⟨sym, hentry, hname, fun _ => rfl⟩
  · intro info hinfo hmem
    obtain ⟨i, hi⟩ := Elf.lookup_of_mem hmem
    obtain ⟨func, hfunc, hcopy⟩ := himport info hinfo i hi
    exact ⟨func, List.mem_of_getElem? hfunc, hcopy⟩

/-- A second symbol with the name of an original function is left as it is. -/
theorem Elf.Redirects.firstOnly (h : e.Instrumentable l infos initTemplate exitTemplate)
    (hrun : ∃ used, e.Runs l e' (infos.map ImportedReplacementInfo.origName ++
      [initModule, cleanupModule]) used (infos.length + 2)) {links : List LinkReplacementInfo}
    (hredirects : e.Redirects l infos links e') : e.FirstOnly l infos := by
  obtain ⟨used, hrun⟩ := hrun
  intro info hinfo rel sym hrel hsym hname
  by_contra hsecond
  have hentry := hrun.keeps (rSym e.is32 rel.info) sym hsym fun other _ hother => by
    rw [← Elf.symName_of_lookup hother hsym, hname] at hother
    exact hsecond hother
  obtain ⟨func, hfunc, hfuncName, -⟩ := hredirects.originals info hinfo rel sym hrel hsym hname
  rw [Elf.target, hrun.grows.is32, hentry] at hfunc
  cases hfunc
  rw [h.named.symName_eq hrun.grows (List.mem_of_getElem? hsym), hname] at hfuncName
  have hnodup := List.nodup_flatMap.mp h.distinct |>.1 info hinfo
  rw [ImportedReplacementInfo.names, hfuncName] at hnodup
  simp at hnodup

/--
The calls of original functions are redirected only if no relocation refers to a second symbol with
the name of such a function.  This is enough when the two links are not links to one function.
-/
theorem instrument_redirects (h : e.Instrumentable l infos initTemplate exitTemplate)
    (initCrc exitCrc : BitVec 64) :
    ((∃ e', instrument infos (initReplacementInfo initCrc initTemplate)
        (exitReplacementInfo exitCrc exitTemplate) e = .ok e' ∧
      e.Redirects l infos [initReplacementInfo initCrc initTemplate,
        exitReplacementInfo exitCrc exitTemplate] e') → e.FirstOnly l infos) ∧
    (e.FirstOnly l infos ∧ e.LinksApart l →
      ∃ e', instrument infos (initReplacementInfo initCrc initTemplate)
          (exitReplacementInfo exitCrc exitTemplate) e = .ok e' ∧
        e.Redirects l infos [initReplacementInfo initCrc initTemplate,
          exitReplacementInfo exitCrc exitTemplate] e') := by
  constructor
  · rintro ⟨e', heq, hredirects⟩
    exact hredirects.firstOnly h (instrument_runs h heq)
  · rintro ⟨hfirst, hapart⟩
    obtain ⟨m, hm⟩ := Elf.lookup_of_mem h.mcount
    obtain ⟨t, ht⟩ := Elf.lookup_of_mem h.thisModule
    obtain ⟨e', heq, hdone⟩ := instrument_spec h hapart initCrc exitCrc hm ht
    exact ⟨e', heq, hdone.redirects h hm ht hfirst⟩

end Result

section Samples

def stringTable (strings : List String) : List Byte := strings.flatMap fun s => cstring s ++ [0]

/-- A section of a sample, which is not aligned unless it has relocations. -/
def sampleSection (name : Nat) (type : SectionType) (link info : Nat) (bytes : List Byte)
    (syms : List Sym) (rels : List Rel) : Section :=
  ⟨⟨name, type, 0, link, info, 8, 24⟩, bytes, syms, rels⟩

/-- A file with code, relocations for it, symbols and strings. -/
def sampleElf (code : List Byte) (rels : List Rel) (syms : List Sym) (strings : List String) : Elf where
  is32 := false
  shstrndx := 5
  sections := [
    sampleSection 0 .null 0 0 [] [] [],
    sampleSection 1 .progbits 0 0 code [] [],
    sampleSection 7 .rela 3 1 [] [] rels,
    sampleSection 18 .symtab 4 0 [] syms [],
    sampleSection 26 .strtab 0 0 (stringTable strings) [] [],
    sampleSection 34 .strtab 0 0
      (stringTable ["", ".text", ".rela.text", ".symtab", ".strtab", ".shstrtab"]) [] []]

def sampleLayout : Layout := ⟨3, 4, .rela⟩

/-- A module with a jump to `kfree`, whose first function has the name at the given offset. -/
def sampleModule (name : Nat) : Elf :=
  sampleElf [0xe9, 0, 0, 0, 0, 0xc3, 0xc3] [⟨1, rInfo false 2 2, -4⟩]
    [⟨0, 0, 0, 0, 0, 0⟩, ⟨name, 0, 5, 2, 0, 1⟩, ⟨8, 0, 0, 16, 0, 0⟩, ⟨14, 0, 0, 16, 0, 0⟩,
      ⟨21, 0, 0, 16, 0, 1⟩, ⟨35, 5, 1, 18, 0, 1⟩, ⟨47, 5, 1, 2, 0, 1⟩, ⟨59, 6, 1, 18, 0, 1⟩,
      ⟨74, 6, 1, 2, 0, 1⟩]
    ["", "helper", "kfree", "mcount", "__this_module", "init_module", "sample_init",
      "cleanup_module", "sample_exit"]

def sampleTemplates : Elf :=
  sampleElf [0xe9, 0, 0, 0, 0, 0xe9, 0, 0, 0, 0, 0xe9, 0, 0, 0, 0]
    [⟨1, rInfo false 1 2, -4⟩, ⟨6, rInfo false 2 2, -4⟩, ⟨11, rInfo false 3 2, -4⟩]
    [⟨0, 0, 0, 0, 0, 0⟩, ⟨1, 0, 0, 16, 0, 0⟩, ⟨15, 0, 0, 16, 0, 0⟩, ⟨35, 0, 0, 16, 0, 0⟩]
    ["", "payload_kfree", "payload_init_target", "payload_exit_target"]

def sampleTemplate (name : String) : CodeTemplate :=
  ⟨[0xe9, 0, 0, 0, 0], 16, [⟨1, 2, 0, -4⟩], false, .rela, [cstring name]⟩

def sampleInfos : List ImportedReplacementInfo :=
  [⟨cstring "kfree", cstring "payload_kfree", cstring "kfree_intermediate", 0,
    sampleTemplate "payload_kfree"⟩]

theorem sampleTemplate_suits {name : String} {offset : Nat}
    (h : ctLoad sampleTemplates 1 offset 5 16 = .ok (sampleTemplate name)) {names : List CString}
    (hnames : cstring name ∈ names) : (sampleTemplate name).Suits sampleLayout false names where
  loaded := ⟨sampleTemplates, 1, offset, 5, h⟩
  is32 := rfl
  relType := rfl
  align := show 0 < 16 by decide
  nonempty := List.cons_ne_nil _ _
  symbols := by
    intro src hsrc
    rw [List.mem_singleton.mp hsrc]
    exact Nat.one_pos
  types := by
    intro src hsrc
    rw [List.mem_singleton.mp hsrc]
    decide
  refers := by
    intro name' hname'
    rw [List.mem_singleton.mp hname']
    exact hnames

variable {name : Nat}

theorem sampleModule_header {i : Nat} {h : Shdr} (hi : (sampleModule name).header i = some h) :
    (i = 0 ∧ h = ⟨0, .null, 0, 0, 0, 8, 24⟩) ∨ (i = 1 ∧ h = ⟨1, .progbits, 0, 0, 0, 8, 24⟩) ∨
      (i = 2 ∧ h = ⟨7, .rela, 0, 3, 1, 8, 24⟩) ∨ (i = 3 ∧ h = ⟨18, .symtab, 0, 4, 0, 8, 24⟩) ∨
      (i = 4 ∧ h = ⟨26, .strtab, 0, 0, 0, 8, 24⟩) ∨ (i = 5 ∧ h = ⟨34, .strtab, 0, 0, 0, 8, 24⟩) := by
  match i with
  | 0 => cases hi; simp [sampleSection]
  | 1 => cases hi; simp [sampleSection]
  | 2 => cases hi; simp [sampleSection]
  | 3 => cases hi; simp [sampleSection]
  | 4 => cases hi; simp [sampleSection]
  | 5 => cases hi; simp [sampleSection]
  | i + 6 => cases hi

theorem sampleModule_shape (name : Nat) : (sampleModule name).Shape sampleLayout where
  pos := by decide
  symtab := ⟨⟨18, .symtab, 0, 4, 0, 8, 24⟩, rfl, rfl, rfl, by
    show (0 : Byte) ∈ (stringTable ["", ".text", ".rela.text", ".symtab", ".strtab",
      ".shstrtab"]).drop 18
    decide, rfl⟩
  first := by
    intro i h hpos hlt hi
    have hlt : i < 3 := hlt
    rcases sampleModule_header hi with ⟨rfl, rfl⟩ | ⟨rfl, rfl⟩ | ⟨rfl, rfl⟩ | ⟨rfl, rfl⟩ | ⟨rfl, rfl⟩ |
      ⟨rfl, rfl⟩ <;> first | omega | decide
  strtab := ⟨⟨26, .strtab, 0, 0, 0, 8, 24⟩, rfl, rfl⟩
  shstrtab := ⟨⟨34, .strtab, 0, 0, 0, 8, 24⟩, rfl, rfl⟩
  names := by
    intro i h _ hi
    have hlength : ((sampleModule name).contents (sampleModule name).shstrndx).length = 44 := rfl
    rw [hlength]
    rcases sampleModule_header hi with ⟨-, rfl⟩ | ⟨-, rfl⟩ | ⟨-, rfl⟩ | ⟨-, rfl⟩ | ⟨-, rfl⟩ |
      ⟨-, rfl⟩ <;> decide
  form := rfl
  relocations := by
    intro i h hi hrel
    rcases sampleModule_header hi with ⟨-, rfl⟩ | ⟨-, rfl⟩ | ⟨-, rfl⟩ | ⟨-, rfl⟩ | ⟨-, rfl⟩ |
      ⟨-, rfl⟩
    case inr.inr.inl => exact ⟨rfl, rfl, by decide, by decide, show 1 < 6 by decide⟩
    all_goals cases hrel
  bounds := by
    intro i h hi hrel rel hmem
    rcases sampleModule_header hi with ⟨-, rfl⟩ | ⟨-, rfl⟩ | ⟨rfl, rfl⟩ | ⟨-, rfl⟩ | ⟨-, rfl⟩ |
      ⟨-, rfl⟩
    case inr.inr.inl =>
      rw [List.mem_singleton.mp hmem]
      exact show 1 < 7 by decide
    all_goals cases hrel

theorem sampleModule_hasRel {rel : Rel} (h : (sampleModule name).HasRel rel) :
    rel = ⟨1, rInfo false 2 2, -4⟩ := by
  obtain ⟨i, hd, hi, hrel, hmem⟩ := h
  rcases sampleModule_header hi with ⟨-, rfl⟩ | ⟨-, rfl⟩ | ⟨rfl, rfl⟩ | ⟨-, rfl⟩ | ⟨-, rfl⟩ |
    ⟨-, rfl⟩
  case inr.inr.inl => exact List.mem_singleton.mp hmem
  all_goals cases hrel

theorem sampleModule_instrumentable (hname : name = 1 ∨ name = 8) :
    (sampleModule name).Instrumentable sampleLayout sampleInfos
      (sampleTemplate "payload_init_target") (sampleTemplate "payload_exit_target") := by
  have hsuits : ∀ replName offset other,
      ctLoad sampleTemplates 1 offset 5 16 = .ok (sampleTemplate replName) →
      (sampleTemplate replName).Suits sampleLayout false (cstring replName :: other) :=
    fun _ _ _ h => sampleTemplate_suits h List.mem_cons_self
  have hindex : (sampleModule name).lookup sampleLayout mcount = some 3 ∧
      (sampleModule name).lookup sampleLayout thisModule = some 4 ∧
      (sampleModule name).lookup sampleLayout initModule = some 5 ∧
      (sampleModule name).lookup sampleLayout cleanupModule = some 7 := by
    rcases hname with rfl | rfl <;> decide
  refine ⟨sampleModule_shape name, ?_, ?_, ?_, ?_, ?_, ?_, ?_, ?_, hsuits _ 5 _ rfl,
    hsuits _ 10 _ rfl, ?_⟩
  · have hstrings : ∀ n ∈ [0, 1, 8, 14, 21, 35, 47, 59, 74], (0 : Byte) ∈ (stringTable ["", "helper",
        "kfree", "mcount", "__this_module", "init_module", "sample_init", "cleanup_module",
        "sample_exit"]).drop n := by decide
    intro sym hsym
    refine hstrings sym.name ?_
    have hnames := List.mem_map_of_mem (f := Sym.name) hsym
    change sym.name ∈ [0, name, 8, 14, 21, 35, 47, 59, 74] at hnames
    rcases hname with rfl | rfl <;> simp only [List.mem_cons] at hnames ⊢ <;> tauto
  · show 9 + 2 * (1 + 2) ≤ 2 ^ 32
    decide
  · show [cstring "kfree", cstring "payload_kfree", cstring "kfree_intermediate"].Nodup
    decide
  · show ∀ name ∈ [mcount, thisModule, initModule, cleanupModule],
      name ∉ [cstring "kfree", cstring "payload_kfree", cstring "kfree_intermediate"]
    decide
  · obtain ⟨sym, hsym, hname⟩ := Elf.lookup_eq_some hindex.1
    exact hname ▸ List.mem_map_of_mem (List.mem_of_getElem? hsym)
  · obtain ⟨sym, hsym, hname⟩ := Elf.lookup_eq_some hindex.2.1
    exact hname ▸ List.mem_map_of_mem (List.mem_of_getElem? hsym)
  · intro info hinfo
    rw [List.mem_singleton.mp hinfo]
    exact ⟨cstring_ne_zero rfl, cstring_ne_zero rfl⟩
  · intro info hinfo
    rw [List.mem_singleton.mp hinfo]
    exact hsuits _ 0 _ rfl
  · intro link hlink i sym hi hsym
    simp only [List.mem_cons, List.not_mem_nil, or_false] at hlink
    rcases hlink with rfl | rfl
    · rw [hindex.2.2.1] at hi
      cases hi
      cases hsym
      exact ⟨⟨47, 5, 1, 2, 0, 1⟩, List.mem_of_getElem? (i := 6) rfl, ⟨rfl, rfl, rfl⟩, by decide⟩
    · rw [hindex.2.2.2] at hi
      cases hi
      cases hsym
      exact ⟨⟨74, 6, 1, 2, 0, 1⟩, List.mem_of_getElem? (i := 8) rfl, ⟨rfl, rfl, rfl⟩, by decide⟩

theorem sampleModule_linksApart (hname : name = 1 ∨ name = 8) :
    (sampleModule name).LinksApart sampleLayout := by
  have hindex : (sampleModule name).lookup sampleLayout initModule = some 5 ∧
      (sampleModule name).lookup sampleLayout cleanupModule = some 7 := by
    rcases hname with rfl | rfl <;> decide
  intro i j init exit hi hj hinit hexit hplace
  rw [hindex.1] at hi
  rw [hindex.2] at hj
  cases hi
  cases hj
  cases hinit
  cases hexit
  exact absurd hplace.2.1 (by decide)

/-- A module with one symbol of each name. -/
theorem instrument_redirects_sample :
    ∃ e', instrument sampleInfos (initReplacementInfo 0 (sampleTemplate "payload_init_target"))
        (exitReplacementInfo 0 (sampleTemplate "payload_exit_target")) (sampleModule 1) = .ok e' ∧
      (sampleModule 1).Redirects sampleLayout sampleInfos
        [initReplacementInfo 0 (sampleTemplate "payload_init_target"),
          exitReplacementInfo 0 (sampleTemplate "payload_exit_target")] e' := by
  refine (instrument_redirects (sampleModule_instrumentable (.inl rfl)) 0 0).2
    ⟨?_, sampleModule_linksApart (.inl rfl)⟩
  intro info hinfo rel sym hrel _ _
  rw [sampleModule_hasRel hrel, List.mem_singleton.mp hinfo]
  decide

/-- The first function has the name `kfree`, so that it is replaced instead of the imported one. -/
theorem not_instrument_redirects_local :
    (sampleModule 8).Instrumentable sampleLayout sampleInfos (sampleTemplate "payload_init_target")
        (sampleTemplate "payload_exit_target") ∧
      (sampleModule 8).LinksApart sampleLayout ∧
      ¬ ∃ e', instrument sampleInfos
          (initReplacementInfo 0 (sampleTemplate "payload_init_target"))
          (exitReplacementInfo 0 (sampleTemplate "payload_exit_target")) (sampleModule 8) = .ok e' ∧
        (sampleModule 8).Redirects sampleLayout sampleInfos
          [initReplacementInfo 0 (sampleTemplate "payload_init_target"),
            exitReplacementInfo 0 (sampleTemplate "payload_exit_target")] e' := by
  have hinstrumentable := sampleModule_instrumentable (Or.inr (Eq.refl 8))
  have hapart := sampleModule_linksApart (Or.inr (Eq.refl 8))
  refine ⟨hinstrumentable, hapart, ?_⟩
  rintro ⟨e', heq, hredirects⟩
  have hfirst := hredirects.firstOnly hinstrumentable (instrument_runs hinstrumentable heq) _
    List.mem_cons_self
    ⟨1, rInfo false 2 2, -4⟩ ⟨8, 0, 0, 16, 0, 0⟩
    ⟨2, ⟨7, .rela, 0, 3, 1, 8, 24⟩, rfl, rfl, List.mem_cons_self⟩ (by decide) (by decide)
  exact absurd hfirst (by decide)

end Samples

end BinaryInstrument
end KedrAux
