import KedrAux.BinaryInstrument.Layout

/-!
# Instantiation of templates

What each step of an instantiation adds to the module, and what is known of the copy of the code
afterwards: its bytes, its relocations, and that no other relocation belongs to it.
-/

namespace KedrAux
namespace BinaryInstrument

open LittleEndian (Byte)

variable {l : Layout}
variable {i : Nat}

section Additions

theorem le_alignVal {n a : Nat} (ha : 0 < a) : n ≤ alignVal n a := by
  have hdiv := Nat.div_add_mod (n + (a - 1)) a
  have hmod := Nat.mod_lt (n + (a - 1)) ha
  rw [alignVal, Nat.mul_comm]
  omega

variable {e : Elf} {h : Shdr}

/-- Only the given section changes: padding and the data follow its bytes. -/
theorem Elf.Shape.extendSection_spec (hs : e.Shape l) {align : Nat} (hi : e.header i = some h)
    (ha : 0 < align) (data : List Byte) :
    ∃ e' pad, e.extendSection i data align = .ok (e', (e.contents i ++ pad).length) ∧
      e.Adds l e' [] ∧ e'.contents i = e.contents i ++ pad ++ data ∧
      ∀ j, i ≠ j → e'.contents j = e.contents j := by
  have hpad : ∃ pad, alignVal (e.contents i).length align = (e.contents i ++ pad).length ∧
      pad = List.replicate (alignVal (e.contents i).length align - (e.contents i).length) 0 := by
    refine ⟨_, ?_, rfl⟩
    have hle := @le_alignVal (e.contents i).length align ha
    rw [List.length_append, List.length_replicate]
    omega
  obtain ⟨pad, hoffset, hpadEq⟩ := hpad
  have hf : (fun s : Section => { s with
      bytes := s.bytes ++
        List.replicate (alignVal (e.contents i).length align - s.bytes.length) 0 ++ data }) =
      fun s : Section => { s with
        bytes := s.bytes ++
          (List.replicate (alignVal (e.contents i).length align - s.bytes.length) 0 ++ data) } := by
    funext s
    rw [List.append_assoc]
  obtain ⟨hgrows, hshape, hrelocs⟩ := hs.modify i (f := fun s => { s with
      bytes := s.bytes ++
        (List.replicate (alignVal (e.contents i).length align - s.bytes.length) 0 ++ data) })
    (fun _ => rfl) (fun s => List.prefix_append _ _) (fun _ => rfl)
  have hcontents := Elf.contents_modify e (Elf.lt_length_of_header hi) (fun s => { s with
      bytes := s.bytes ++
        (List.replicate (alignVal (e.contents i).length align - s.bytes.length) 0 ++ data) })
    (g := fun bytes => bytes ++
      (List.replicate (alignVal (e.contents i).length align - bytes.length) 0 ++ data))
    (fun _ => rfl)
  refine ⟨_, pad, ?_, ⟨hgrows, hshape, hrelocs, ?_⟩, ?_, ?_⟩
  · rw [Elf.extendSection, (Elf.getscn_of_header hi).1]
    simp only [bind, Except.bind, if_neg (Nat.ne_of_gt ha), pure, Except.pure]
    rw [hf, hoffset]
  · rw [List.append_nil]
    exact Elf.symbols_modify_of_eq e i (by intro _; rfl) _
  · rw [hcontents, if_pos rfl, hpadEq, List.append_assoc]
  · intro j hj
    rw [hcontents, if_neg hj]

theorem Elf.Shape.addString_spec (hs : e.Shape l) (hi : e.header i = some h)
    {str : CString} (hstr : 0 ∉ str) :
    ∃ e' offset, e.addString i str = .ok (e', offset) ∧ e.Adds l e' [] ∧
      StringIn (e'.contents i) offset ∧ stringAt (e'.contents i) offset = str := by
  obtain ⟨e', pad, heq, hadds, hcontents, -⟩ :=
    hs.extendSection_spec hi Nat.one_pos (str ++ [0])
  refine ⟨e', _, heq, hadds, ?_, ?_⟩
  · rw [StringIn, hcontents, List.drop_left]
    simp
  · rw [hcontents]
    exact stringAt_append hstr

theorem Elf.Shape.addSymbol_eq (hs : e.Shape l) (type : Nat) :
    e.addSymbol type stbGlobal = .ok (e.modify l.symtab fun s =>
      { s with syms := s.syms ++ [⟨0, 0, 0, stInfo stbGlobal type, 0, 0⟩] },
        (e.symbols l.symtab).length) := by
  obtain ⟨h, hh, -⟩ := hs.symtab
  rw [Elf.addSymbol, hs.getSymbolsSection_eq]
  simp only [bind, Except.bind, (Elf.getscn_of_header hh).1, ne_eq, not_true_eq_false, if_false,
    pure, Except.pure]

theorem modify_concat_length {α : Type} (xs : List α) (x : α) (f : α → α) :
    (xs ++ [x]).modify xs.length f = xs ++ [f x] := by
  induction xs with
  | nil => rfl
  | cons y xs ih => rw [List.cons_append, List.length_cons, List.modify_succ_cons, ih,
      List.cons_append]

theorem Elf.modifySymbol_last (e : Elf) (i : Nat) (hi : e.header i = some h) (sym : Sym)
    (f : Sym → Sym) :
    (e.modify i fun s => { s with syms := s.syms ++ [sym] }).modifySymbol i (e.symbols i).length f =
      e.modify i fun s => { s with syms := s.syms ++ [f sym] } := by
  obtain ⟨-, hsec⟩ := Elf.getscn_of_header hi
  have hlist : ((e.modify i fun s => { s with syms := s.syms ++ [sym] }).modifySymbol i
      (e.symbols i).length f).sections =
        (e.modify i fun s => { s with syms := s.syms ++ [f sym] }).sections := by
    refine List.ext_getElem? fun j => ?_
    rw [Elf.modifySymbol, Elf.getElem?_modify, Elf.getElem?_modify, Elf.getElem?_modify]
    by_cases hj : i = j
    · subst hj
      rw [if_pos rfl, if_pos rfl, if_pos rfl, hsec]
      simp only [Option.map_some, modify_concat_length]
    · rw [if_neg hj, if_neg hj, if_neg hj]
  exact congrArg (fun sections => { e with sections }) hlist

theorem Elf.Shape.addSymbolImported_spec (hs : e.Shape l) (name : Nat) :
    ∃ e', e.addSymbolImported name = .ok (e', (e.symbols l.symtab).length) ∧
      e.Adds l e' [⟨name, 0, 0, stInfo stbGlobal sttNotype, 0, 0⟩] ∧
      ∀ j, e'.contents j = e.contents j := by
  obtain ⟨h, hh, -⟩ := hs.symtab
  have hadded := hs.adds_symbol ⟨0, 0, 0, stInfo stbGlobal sttNotype, 0, 0⟩
  refine ⟨_, ?_, hs.adds_symbol ⟨name, 0, 0, stInfo stbGlobal sttNotype, 0, 0⟩, ?_⟩
  · rw [Elf.addSymbolImported, hs.addSymbol_eq]
    simp only [bind, Except.bind, hadded.shape.getSymbolsSection_eq, pure, Except.pure,
      Elf.modifySymbol_last e l.symtab hh]
  · exact Elf.contents_modify_of_eq e l.symtab (by intro _; rfl)

theorem Elf.Shape.addSymbolVersion_spec (hs : e.Shape l) (name : CString) (crc : BitVec 64) :
    ∃ e', e.addSymbolVersion name crc = .ok e' ∧ e.Adds l e' [] := by
  obtain ⟨found, hfound, hsome⟩ := hs.findSection_spec (cstring "__versions")
  rw [Elf.addSymbolVersion, Elf.getVersionsSection, hfound]
  cases found with
  | none =>
    exact ⟨e, rfl, ⟨Elf.Grows.refl e, hs, fun _ => rfl, (List.append_nil _).symm⟩⟩
  | some i =>
    obtain ⟨-, h, hh⟩ := hsome i rfl
    obtain ⟨e', pad, heq, hadds, -⟩ :=
      hs.extendSection_spec hh (show 0 < 64 by decide) (symVersion e.is32 name crc)
    refine ⟨e', ?_, hadds⟩
    simp only [bind, Except.bind, heq, pure, Except.pure]

theorem Elf.Shape.addReplacementFunction_spec (hs : e.Shape l) {name : CString} (hname : 0 ∉ name)
    (crc : BitVec 64) :
    ∃ e' sym, addReplacementFunction e name crc = .ok (e', (e.symbols l.symtab).length) ∧
      e.Adds l e' [sym] ∧ StringIn (e'.contents l.strtab) sym.name ∧ e'.symName l sym = name ∧
      sym.shndx = 0 ∧ sym.value = 0 := by
  obtain ⟨h, hh, -, hlink, -⟩ := hs.symtab
  obtain ⟨hstr, hhstr, -⟩ := hs.strtab
  obtain ⟨e1, offset, heq1, hadds1, hin, hstring⟩ := hs.addString_spec hhstr hname
  obtain ⟨e2, heq2, hadds2, hcontents⟩ := hadds1.shape.addSymbolImported_spec offset
  obtain ⟨e3, heq3, hadds3⟩ := hadds2.shape.addSymbolVersion_spec name crc
  have hlength : (e1.symbols l.symtab).length = (e.symbols l.symtab).length := by
    rw [hadds1.symbols, List.append_nil]
  have hin2 : StringIn (e2.contents l.strtab) offset := by
    rw [hcontents]
    exact hin
  refine ⟨e3, ⟨offset, 0, 0, stInfo stbGlobal sttNotype, 0, 0⟩, ?_,
    (hadds1.trans hadds2).trans hadds3, hin2.mono (hadds3.grows.contents _), ?_, rfl, rfl⟩
  · rw [addReplacementFunction, hs.getSymbolsSection_eq]
    simp only [bind, Except.bind, (Elf.getscn_of_header hh).1, hlink, heq1, heq2, heq3, pure,
      Except.pure, hlength]
  · rw [Elf.symName, hin2.stringAt_mono (hadds3.grows.contents _), hcontents, hstring]

end Additions

section Sections

/-- The file has got symbols, bytes and relocations for these bytes. -/
structure Elf.Extends (l : Layout) (e e' : Elf) (added : List Sym) : Prop where
  grows : e.Grows e'
  shape : e'.Shape l
  fresh : e.Fresh e'
  symbols : e'.symbols l.symtab = e.symbols l.symtab ++ added

variable {e e' : Elf} {added : List Sym}

theorem Elf.Adds.extends (h : e.Adds l e' added) : e.Extends l e' added :=
  ⟨h.grows, h.shape, h.fresh, h.symbols⟩

theorem Elf.Extends.trans {e'' : Elf} {added' : List Sym} (h : e.Extends l e' added)
    (h' : e'.Extends l e'' added') : e.Extends l e'' (added ++ added') :=
  ⟨h.grows.trans h'.grows, h'.shape, h.fresh.trans h'.fresh h.grows h'.grows, by
    rw [h'.symbols, h.symbols, List.append_assoc]⟩

theorem Elf.Extends.named (h : e.Extends l e' added) (hn : e.Named l)
    (hadded : ∀ sym ∈ added, StringIn (e'.contents l.strtab) sym.name) :
    e'.Named l := by
  intro sym hsym
  rw [h.symbols] at hsym
  rcases List.mem_append.mp hsym with hsym | hsym
  · exact (hn sym hsym).mono (h.grows.contents _)
  · exact hadded sym hsym

theorem Elf.Shape.getOrCreateSection_spec (hs : e.Shape l) {name : CString} (hname : 0 ∉ name)
    (align : Nat) :
    ∃ e' i, getOrCreateSection e name align = .ok (e', i) ∧ e.Adds l e' [] ∧ 0 < i ∧
      ∃ h, e'.header i = some h := by
  obtain ⟨found, hfound, hsome⟩ := hs.findSection_spec name
  rw [getOrCreateSection, hfound]
  cases found with
  | some i =>
    obtain ⟨hpos, hheader⟩ := hsome i rfl
    exact ⟨e, i, rfl, ⟨Elf.Grows.refl e, hs, fun _ => rfl, (List.append_nil _).symm⟩, hpos,
      hheader⟩
  | none =>
    obtain ⟨h, hh, -⟩ := hs.shstrtab
    obtain ⟨e1, offset, heq, hadds, hin, -⟩ := hs.addString_spec hh hname
    rw [← hadds.grows.shstrndx] at hin
    obtain ⟨hadds2, hheader⟩ := hadds.shape.adds_section
      (h := ⟨offset, .progbits, codeFlags, 0, 0, align, 0⟩) hin.lt (fun h => by cases h)
    refine ⟨_, e1.sections.length, ?_, hadds.trans hadds2, ?_, _, hheader⟩
    · simp only [bind, Except.bind, heq, pure, Except.pure]
      rfl
    · obtain ⟨h', hh', -⟩ := hadds.shape.symtab
      exact Nat.lt_of_lt_of_le hs.pos (Nat.le_of_lt (Elf.lt_length_of_header hh'))

theorem Elf.findRelocationSection_spec (e : Elf) (i : Nat) :
    ∃ found, e.findRelocationSection i = .ok found ∧
      ∀ r, found = some r → ∃ h, e.header r = some h ∧ isRelocation h.type = true ∧ h.info = i := by
  obtain ⟨found, hfound, hsome, -⟩ := e.firstSection_spec
    (fun s => .ok (isRelocation s.shdr.type && s.shdr.info = i))
    (fun s => isRelocation s.shdr.type && s.shdr.info = i) (fun _ _ _ _ => rfl)
  refine ⟨found, hfound, fun r hr => ?_⟩
  obtain ⟨-, s, hs, hp, -⟩ := hsome r hr
  rw [Bool.and_eq_true, decide_eq_true_eq] at hp
  exact ⟨s.shdr, by rw [Elf.header, hs, Option.map_some], hp⟩

theorem relEntsize_dvd (is32 : Bool) (relType : SectionType) :
    (if is32 then 4 else 8) ∣ relEntsize is32 relType := by
  unfold relEntsize
  split_ifs <;> decide

theorem Elf.Shape.createRelocationsScn_spec (hs : e.Shape l) {h : Shdr} (hpos : 0 < i)
    (hi : e.header i = some h) :
    ∃ e' r h', createRelocationsScn e i l.relType = .ok (e', r) ∧ e.Adds l e' [] ∧
      e'.header r = some h' ∧ h'.type = l.relType ∧ h'.info = i := by
  obtain ⟨hget, hsec⟩ := Elf.getscn_of_header hi
  obtain ⟨hsh, hhsh, -⟩ := hs.shstrtab
  obtain ⟨e1, pad, heq, hadds, hcontents, -⟩ := hs.extendSection_spec hhsh Nat.one_pos
    (relSectionName l.relType (stringAt (e.contents e.shstrndx) h.name))
  have hlt : (e.contents e.shstrndx ++ pad).length < (e1.contents e1.shstrndx).length := by
    have hne : 0 < (relSectionName l.relType
        (stringAt (e.contents e.shstrndx) h.name)).length := by
      unfold relSectionName
      split_ifs <;> simp [cstring]
    rw [hadds.grows.shstrndx, hcontents]
    simp only [List.length_append]
    omega
  have hsection := hadds.shape.adds_section
    (h := ⟨(e.contents e.shstrndx ++ pad).length, l.relType, 0, l.symtab, i,
      if e1.is32 then 4 else 8, relEntsize e1.is32 l.relType⟩) hlt
    (fun _ => ⟨rfl, rfl, by dsimp only; split_ifs <;> decide, relEntsize_dvd _ _,
      Nat.lt_of_lt_of_le (Elf.lt_length_of_header hi) hadds.grows.length⟩)
  refine ⟨_, e1.sections.length, _, ?_, hadds.trans hsection.1, hsection.2, rfl, rfl⟩
  have hname := hs.sectionName hpos hsec
  dsimp only at hname
  rw [createRelocationsScn, hs.getSymbolsSection_eq]
  simp only [bind, Except.bind, hget, hname, heq, pure, Except.pure]
  rfl

theorem Elf.Shape.getOrCreateRelocationsScn_spec (hs : e.Shape l) {h : Shdr}
    (hpos : 0 < i) (hi : e.header i = some h) :
    ∃ e' r h', getOrCreateRelocationsScn e i l.relType = .ok (e', r) ∧ e.Adds l e' [] ∧
      e'.header r = some h' ∧ h'.type = l.relType ∧ h'.info = i := by
  obtain ⟨found, hfound, hsome⟩ := e.findRelocationSection_spec i
  rw [getOrCreateRelocationsScn, hfound]
  cases found with
  | some r =>
    obtain ⟨h', hheader, hreloc, hinfo⟩ := hsome r rfl
    exact ⟨e, r, h', rfl, ⟨Elf.Grows.refl e, hs, fun _ => rfl, (List.append_nil _).symm⟩, hheader,
      (hs.relocations r h' hheader hreloc).1, hinfo⟩
  | none => exact hs.createRelocationsScn_spec hpos hi

end Sections

variable {symbols : List Nat}

section Copies

structure CodeTemplate.Fits (l : Layout) (is32 : Bool) (template : CodeTemplate) : Prop where
  is32 : template.is32 = is32
  relType : template.relType = l.relType
  align : 0 < template.align
  offsets : ∀ src ∈ template.relocations, src.offset < template.code.length
  nonempty : template.relocations ≠ []

variable {template : CodeTemplate} {e : Elf}

theorem CodeTemplate.Fits.code_ne_nil {is32 : Bool} (h : template.Fits l is32) :
    0 < template.code.length := by
  obtain ⟨src, rest, hcons⟩ := List.exists_cons_of_ne_nil h.nonempty
  have hsrc := h.offsets src (by rw [hcons]; exact List.mem_cons_self)
  omega

def CodeTemplate.copies (template : CodeTemplate) (offset : Nat) (symbols : List Nat) : List Rel :=
  template.relocations.map (ctRelCopy template.is32 template.relType offset symbols)

/-- The code is at the given place, with its relocations and no other ones. -/
structure Elf.Placed (l : Layout) (e : Elf) (template : CodeTemplate) (scn offset : Nat)
    (symbols : List Nat) : Prop where
  bytes : template.code <+: (e.contents scn).drop offset
  rels : ∃ r h, e.header r = some h ∧ isRelocation h.type = true ∧ h.type = template.relType ∧
    h.link = l.symtab ∧ h.info = scn ∧ ∀ rel ∈ template.copies offset symbols, rel ∈ e.relocs r
  only : ∀ r h, e.header r = some h → isRelocation h.type = true → h.info = scn →
    ∀ rel ∈ e.relocs r, offset ≤ rel.offset → rel.offset < offset + template.code.length →
      rel ∈ template.copies offset symbols

theorem Elf.Placed.grows {e' : Elf} {scn offset : Nat}
    (h : e.Placed l template scn offset symbols) (hg : e.Grows e') (hf : e.Fresh e')
    (hcode : 0 < template.code.length) :
    e'.Placed l template scn offset symbols := by
  have hend : offset + template.code.length ≤ (e.contents scn).length := by
    have hlength := h.bytes.length_le
    rw [List.length_drop] at hlength
    omega
  refine ⟨h.bytes.trans ((hg.contents scn).drop offset), ?_, ?_⟩
  · obtain ⟨r, hd, hheader, hreloc, htype, hlink, hinfo, hrels⟩ := h.rels
    exact ⟨r, hd, hg.header r hd hheader, hreloc, htype, hlink, hinfo, fun rel hrel =>
      (hg.relocs r).subset (hrels rel hrel)⟩
  · intro r hd hheader hreloc hinfo rel hrel hlow hhigh
    obtain ⟨new, hnew⟩ := hg.relocs r
    rw [← hnew] at hrel
    rcases List.mem_append.mp hrel with hrel | hrel
    · cases hold : e.header r with
      | none =>
        rw [Elf.relocs_of_header_none hold] at hrel
        cases hrel
      | some hd' =>
        have hsame := hg.header r hd' hold
        rw [hheader] at hsame
        cases hsame
        exact h.only r hd hold hreloc hinfo rel hrel hlow hhigh
    · have hlater := hf r hd new hheader hnew.symm rel hrel
      rw [hinfo] at hlater
      omega

theorem Elf.Shape.ctAddRelocationsData_spec (hs : e.Shape l) {r : Nat} {h : Shdr}
    (hr : e.header r = some h) (hreloc : isRelocation h.type = true) (template : CodeTemplate)
    (offset : Nat) (symbols : List Nat) (hoffsets : ∀ src ∈ template.relocations,
      src.offset + offset < (e.contents h.info).length) :
    ∃ e', ctAddRelocationsData template e r offset symbols = .ok e' ∧ e.Grows e' ∧ e'.Shape l ∧
      e'.symbols l.symtab = e.symbols l.symtab ∧ (∀ i, e'.header i = e.header i) ∧
      (∀ i, e'.relocs i =
        if r = i then e.relocs i ++ template.copies offset symbols else e.relocs i) := by
  obtain ⟨htype, hlink, halign, hdvd, hinfo⟩ := hs.relocations r h hr hreloc
  have hlt := Elf.lt_length_of_header hr
  have hheader : ∀ i, (e.modify r fun s => { s with
      rels := s.rels ++ template.copies offset symbols }).header i = e.header i :=
    fun i => Elf.header_modify e r (by intro _; rfl) i
  have hcontents : ∀ i, (e.modify r fun s => { s with
      rels := s.rels ++ template.copies offset symbols }).contents i = e.contents i :=
    fun i => Elf.contents_modify_of_eq e r (by intro _; rfl) i
  have hrelocs := Elf.relocs_modify e hlt
    (fun s => { s with rels := s.rels ++ template.copies offset symbols })
    (g := (· ++ template.copies offset symbols)) (fun _ => rfl)
  have hgrows : e.Grows (e.modify r fun s => { s with
      rels := s.rels ++ template.copies offset symbols }) := by
    refine ⟨rfl, rfl, by rw [Elf.length_modify], fun i hd hi => by rw [hheader, hi], fun i => ?_,
      fun i => ?_⟩
    · rw [hcontents]
    · rw [hrelocs]
      split_ifs
      · exact List.prefix_append _ _
      · exact List.prefix_refl _
  refine ⟨_, ?_, hgrows, hs.of_grows hgrows (Elf.length_modify _ _ _) ?_, ?_, hheader, hrelocs⟩
  · have hmod : h.entsize * (e.relocs r).length % h.addralign = 0 :=
      Nat.mod_eq_zero_of_dvd (hdvd.mul_right _)
    rw [ctAddRelocationsData, (Elf.getscn_of_header hr).1]
    simp only [bind, Except.bind, if_neg (Nat.ne_of_gt halign), hmod, ne_eq, not_true_eq_false,
      if_false, pure, Except.pure]
    rfl
  · intro i hd hi _ rel hrel
    rw [hheader] at hi
    rw [hrelocs] at hrel
    split_ifs at hrel with hri
    · subst hri
      rw [hr] at hi
      cases hi
      rcases List.mem_append.mp hrel with hrel | hrel
      · exact .inl hrel
      · obtain ⟨src, hsrc, rfl⟩ := List.mem_map.mp hrel
        rw [hcontents]
        exact .inr (hoffsets src hsrc)
    · exact .inl hrel
  · exact Elf.symbols_modify_of_eq e r (by intro _; rfl) _

/-- A template that fits is placed in the section, and only new entries are added. -/
theorem Elf.Shape.ctInstantiate_spec (hs : e.Shape l) (hfits : template.Fits l e.is32) {scn : Nat}
    {h : Shdr} (hpos : 0 < scn) (hscn : e.header scn = some h)
    {correspondences : List SymbolCorrespondence}
    (hsymbols : translateSymbols template.symbols correspondences = .ok symbols) :
    ∃ e' offset, ctInstantiate template e scn correspondences = .ok (e', offset) ∧
      e.Extends l e' [] ∧ e'.Placed l template scn offset symbols := by
  obtain ⟨e1, pad, heq1, hadds1, hcontents, -⟩ :=
    hs.extendSection_spec hscn hfits.align template.code
  obtain ⟨e2, r, hr, heq2, hadds2, hheader, htype, hinfo⟩ :=
    hadds1.shape.getOrCreateRelocationsScn_spec hpos (hadds1.grows.header _ _ hscn)
  have hadds := hadds1.trans hadds2
  have hreloc : isRelocation hr.type = true := by
    rw [htype]
    exact hs.form
  have hlow : (e.contents scn).length ≤ (e.contents scn ++ pad).length := by
    rw [List.length_append]
    omega
  have hbytes : template.code <+: (e2.contents scn).drop (e.contents scn ++ pad).length := by
    refine List.IsPrefix.trans ?_ ((hadds2.grows.contents scn).drop _)
    rw [hcontents, List.drop_left]
  have hend : (e.contents scn ++ pad).length + template.code.length ≤ (e2.contents scn).length := by
    have hlength := hadds2.grows.length_contents scn
    rw [hcontents, List.length_append] at hlength
    exact hlength
  obtain ⟨e3, heq3, hgrows3, hshape3, hsyms3, hheader3, hrelocs3⟩ :=
    hadds2.shape.ctAddRelocationsData_spec hheader hreloc template
      (e.contents scn ++ pad).length symbols (fun src hsrc => by
        have hsrc' := hfits.offsets src hsrc
        rw [hinfo]
        omega)
  have hgrows : e.Grows e3 := hadds.grows.trans hgrows3
  have hrelocs : ∀ i, e3.relocs i = if r = i then
      e.relocs i ++ template.copies (e.contents scn ++ pad).length symbols else e.relocs i := by
    intro i
    rw [hrelocs3, hadds.relocs]
  refine ⟨e3, (e.contents scn ++ pad).length, ?_, ⟨hgrows, hshape3, ?_, ?_⟩, ⟨?_, ?_, ?_⟩⟩
  · have hclass : ¬ (template.is32 ≠ e1.is32) := by
      rw [hadds1.grows.is32, hfits.is32]
      exact fun h => h rfl
    have hsame : ¬ (hr.type ≠ template.relType) := by
      rw [htype, hfits.relType]
      exact fun h => h rfl
    rw [ctInstantiate, hsymbols]
    rw [← hfits.relType] at heq2
    simp only [bind, Except.bind, heq1, if_neg hclass, heq2, (Elf.getscn_of_header hheader).1,
      if_neg hsame, heq3, pure, Except.pure]
  · -- the new relocations are those of the copy
    intro i hd new hi hnew rel hrel
    rw [hrelocs] at hnew
    split_ifs at hnew with hri
    · subst hri
      rw [hheader3, hheader] at hi
      cases hi
      rw [← List.append_cancel_left hnew] at hrel
      obtain ⟨src, -, rfl⟩ := List.mem_map.mp hrel
      rw [hinfo, ctRelCopy]
      dsimp only
      omega
    · rw [List.self_eq_append_right.mp hnew] at hrel
      cases hrel
  · rw [hsyms3, hadds.symbols, List.append_nil]
  · exact hbytes.trans ((hgrows3.contents scn).drop _)
  · refine ⟨r, hr, hgrows3.header _ _ hheader, hreloc, by rw [htype, hfits.relType],
      (hadds2.shape.relocations r hr hheader hreloc).2.1, hinfo, fun rel hrel => ?_⟩
    rw [hrelocs, if_pos rfl]
    exact List.mem_append_right _ hrel
  · intro i hd hi hrel hinfo' rel hmem hge hlt
    have hold : rel ∈ e.relocs i →
        rel ∈ template.copies (e.contents scn ++ pad).length symbols := by
      intro hmem
      cases hi' : e.header i with
      | none =>
        rw [Elf.relocs_of_header_none hi'] at hmem
        cases hmem
      | some hd' =>
        have hsame := hgrows.header i hd' hi'
        rw [hi] at hsame
        cases hsame
        have hbound := hs.bounds i hd hi' hrel rel hmem
        rw [hinfo'] at hbound
        omega
    rw [hrelocs] at hmem
    split_ifs at hmem
    · rcases List.mem_append.mp hmem with hmem | hmem
      · exact hold hmem
      · exact hmem
    · exact hold hmem

end Copies

section CopySymbols

def translated (correspondences : List SymbolCorrespondence) (name : CString) : Nat :=
  ((correspondences.find? fun c => name = c.name).map SymbolCorrespondence.index).getD 0

theorem translated_cons (c : SymbolCorrespondence) (cs : List SymbolCorrespondence) (name : CString) :
    translated (c :: cs) name = if name = c.name then c.index else translated cs name := by
  rw [translated, translated, List.find?_cons]
  by_cases h : name = c.name <;> simp [h]

theorem translateSymbols_eq (names : List CString) (correspondences : List SymbolCorrespondence)
    (h : ∀ name ∈ names, ∃ c ∈ correspondences, name = c.name) :
    translateSymbols names correspondences = .ok (names.map (translated correspondences)) := by
  induction names with
  | nil => rfl
  | cons name names ih =>
    have htail := ih fun name' hname' => h name' (List.mem_cons_of_mem _ hname')
    obtain ⟨c, hc, hname⟩ := h name List.mem_cons_self
    have hsome : (correspondences.find? fun c => name = c.name).isSome = true :=
      List.find?_isSome.mpr ⟨c, hc, by simpa using hname⟩
    obtain ⟨c', hfind⟩ := Option.isSome_iff_exists.mp hsome
    rw [translateSymbols] at htail ⊢
    rw [List.mapM_cons, htail, List.map_cons, translated, hfind]
    rfl

/-- An instantiated template is code of its own with relocations to its symbols. -/
theorem Elf.Shape.functionTemplateInstantiate_spec {e : Elf} (hs : e.Shape l)
    {template : CodeTemplate} (hfits : template.Fits l e.is32) {sectionName functionName : CString}
    (hsection : 0 ∉ sectionName) (hfunction : 0 ∉ functionName)
    {correspondences : List SymbolCorrespondence}
    (hsymbols : translateSymbols template.symbols correspondences = .ok symbols) :
    ∃ e' scn offset sym,
      functionTemplateInstantiate template e sectionName correspondences functionName =
        .ok (e', (e.symbols l.symtab).length) ∧
      e.Extends l e' [sym] ∧ e'.Placed l template scn offset symbols ∧
      StringIn (e'.contents l.strtab) sym.name ∧ e'.symName l sym = functionName ∧
      sym.shndx = scn ∧ sym.value = offset ∧ sym.size = template.code.length := by
  obtain ⟨e1, scn, heq1, hadds1, hpos, h, hscn⟩ := hs.getOrCreateSection_spec hsection template.align
  rw [← hadds1.grows.is32] at hfits
  obtain ⟨e2, offset, heq2, hext2, hplaced⟩ :=
    hadds1.shape.ctInstantiate_spec hfits hpos hscn hsymbols
  obtain ⟨hsym, hhsym, -, hlink, -⟩ := hext2.shape.symtab
  obtain ⟨hstr, hhstr, -⟩ := hext2.shape.strtab
  obtain ⟨e3, nameOffset, heq3, hadds3, hin, hstring⟩ := hext2.shape.addString_spec hhstr hfunction
  obtain ⟨hsym3, hhsym3, -⟩ := hadds3.shape.symtab
  have hadds4 := hadds3.shape.adds_symbol
    ⟨nameOffset, offset, template.code.length, stInfo stbGlobal sttFunc, 0, scn⟩
  have hcontents := Elf.contents_modify_of_eq e3 l.symtab
    (f := fun s => { s with syms := s.syms ++ [(⟨nameOffset, offset, template.code.length,
      stInfo stbGlobal sttFunc, 0, scn⟩ : Sym)] }) (fun _ => rfl)
  have hlength : (e3.symbols l.symtab).length = (e.symbols l.symtab).length := by
    rw [hadds3.symbols, hext2.symbols, hadds1.symbols, List.append_nil, List.append_nil,
      List.append_nil]
  refine ⟨_, scn, offset, ⟨nameOffset, offset, template.code.length, stInfo stbGlobal sttFunc, 0,
    scn⟩, ?_, ((hadds1.extends.trans hext2).trans hadds3.extends).trans hadds4.extends,
    (hplaced.grows hadds3.grows hadds3.fresh hfits.code_ne_nil).grows hadds4.grows hadds4.fresh
      hfits.code_ne_nil, ?_, ?_, rfl, rfl, rfl⟩
  · rw [functionTemplateInstantiate, heq1]
    simp only [bind, Except.bind, heq2, hext2.shape.getSymbolsSection_eq,
      (Elf.getscn_of_header hhsym).1, hlink, heq3, hadds3.shape.addSymbol_eq, pure, Except.pure]
    rw [Elf.modifySymbol_last e3 l.symtab hhsym3, hlength]
  · rw [hcontents]
    exact hin
  · rw [Elf.symName, hcontents, hstring]

end CopySymbols

end BinaryInstrument
end KedrAux
