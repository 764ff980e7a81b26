import KedrAux.BinaryInstrument.Instantiation

/-!
# Redirection of symbols

Each replacement changes one entry of the table of symbols and appends two.  All other entries keep
their indices, so that relocations that use them still mean the same symbols.
-/

namespace KedrAux
namespace BinaryInstrument

open LittleEndian (Byte)

variable {l : Layout} {i : Nat} {sym new : Sym} {added : List Sym}

section Tables

def Elf.lookup (l : Layout) (e : Elf) (name : CString) : Option Nat :=
  (e.symNames l).findIdx? (· = name)

variable {e e' : Elf} {name : CString}

theorem Elf.lookup_eq_some (h : e.lookup l name = some i) :
    ∃ sym, (e.symbols l.symtab)[i]? = some sym ∧ e.symName l sym = name := by
  obtain ⟨hlt, hname, -⟩ := List.findIdx?_eq_some_iff_getElem.mp h
  rw [Elf.symNames, List.length_map] at hlt
  refine ⟨(e.symbols l.symtab)[i], List.getElem?_eq_getElem hlt, ?_⟩
  simpa [Elf.symNames] using hname

theorem Elf.symName_of_lookup (h : e.lookup l name = some i)
    (hsym : (e.symbols l.symtab)[i]? = some sym) :
    e.symName l sym = name := by
  obtain ⟨sym', hsym', hname⟩ := Elf.lookup_eq_some h
  rw [hsym] at hsym'
  cases hsym'
  exact hname

variable {α : Type} {p : α → Bool} {xs ys : List α}

theorem findIdx?_append_of_some (h : xs.findIdx? p = some i) : (xs ++ ys).findIdx? p = some i := by
  rw [List.findIdx?_append, h]
  rfl

theorem findIdx?_append_of_not (h : ∀ y ∈ ys, p y = false) :
    (xs ++ ys).findIdx? p = xs.findIdx? p := by
  have hnone : ys.findIdx? p = none := List.findIdx?_eq_none_iff.mpr h
  rw [List.findIdx?_append, hnone]
  cases xs.findIdx? p <;> rfl

theorem findIdx?_set_of_not {x y : α} (hi : xs[i]? = some x) (hx : p x = false) (hy : p y = false) :
    (xs.set i y).findIdx? p = xs.findIdx? p := by
  induction xs generalizing i with
  | nil => cases hi
  | cons z xs ih =>
    cases i with
    | zero =>
      cases hi
      rw [List.set_cons_zero, List.findIdx?_cons, List.findIdx?_cons, hx, hy]
    | succ i =>
      rw [List.set_cons_succ, List.findIdx?_cons, List.findIdx?_cons, ih hi]

structure Elf.Replaces (l : Layout) (e e' : Elf) (i : Nat) (new : Sym) (added : List Sym) :
    Prop where
  grows : e.Grows e'
  shape : e'.Shape l
  fresh : e.Fresh e'
  named : e'.Named l
  symbols : e'.symbols l.symtab = (e.symbols l.symtab).set i new ++ added

variable {p : Nat}

section

variable (h : e.Replaces l e' i new added)
include h

theorem Elf.Replaces.getElem?_of_ne
    (hp : (e.symbols l.symtab)[p]? = some sym) (hne : p ≠ i) :
    (e'.symbols l.symtab)[p]? = some sym := by
  have hlt := (List.getElem?_eq_some_iff.mp hp).1
  rw [h.symbols, List.getElem?_append_left (by rw [List.length_set]; exact hlt),
    List.getElem?_set_ne (Ne.symm hne), hp]

theorem Elf.Replaces.getElem?_self
    (hi : (e.symbols l.symtab)[i]? = some sym) :
    (e'.symbols l.symtab)[i]? = some new := by
  have hlt := (List.getElem?_eq_some_iff.mp hi).1
  rw [h.symbols, List.getElem?_append_left (by rw [List.length_set]; exact hlt),
    List.getElem?_set_self hlt]

theorem Elf.Replaces.origin
    (hp : (e'.symbols l.symtab)[p]? = some sym) :
    (e.symbols l.symtab)[p]? = some sym ∨ sym = new ∨ sym ∈ added := by
  rw [h.symbols] at hp
  by_cases hlt : p < (e.symbols l.symtab).length
  · rw [List.getElem?_append_left (by rw [List.length_set]; exact hlt)] at hp
    by_cases hpi : i = p
    · subst hpi
      rw [List.getElem?_set_self hlt] at hp
      cases hp
      exact .inr (.inl rfl)
    · rw [List.getElem?_set_ne hpi] at hp
      exact .inl hp
  · rw [List.getElem?_append_right (by rw [List.length_set]; omega)] at hp
    exact .inr (.inr (List.mem_of_getElem? hp))

theorem Elf.Replaces.remains (hsym : sym ∈ e.symbols l.symtab) :
    sym ∈ e'.symbols l.symtab ∨ (e.symbols l.symtab)[i]? = some sym := by
  obtain ⟨p, hp⟩ := List.mem_iff_getElem?.mp hsym
  by_cases hpi : p = i
  · subst hpi
    exact .inr hp
  · exact .inl (List.mem_of_getElem? (h.getElem?_of_ne hp hpi))

theorem Elf.Replaces.symNames_eq (hn : e.Named l) :
    e'.symNames l = (e.symNames l).set i (e'.symName l new) ++ added.map (e'.symName l) := by
  have hold : (e.symbols l.symtab).map (e'.symName l) = e.symNames l :=
    List.map_congr_left fun sym hsym => hn.symName_eq h.grows hsym
  rw [Elf.symNames, h.symbols, List.map_append, List.map_set, hold]

theorem Elf.Replaces.lookup_eq {old : Sym} (hn : e.Named l)
    (hi : (e.symbols l.symtab)[i]? = some old) (hold : e.symName l old ≠ name)
    (hnew : e'.symName l new ≠ name) (hadded : ∀ sym ∈ added, e'.symName l sym ≠ name) :
    e'.lookup l name = e.lookup l name := by
  rw [Elf.lookup, Elf.lookup, h.symNames_eq hn, findIdx?_append_of_not]
  · refine findIdx?_set_of_not (x := e.symName l old) ?_ (by simpa using hold) (by simpa using hnew)
    rw [Elf.symNames, List.getElem?_map, hi, Option.map_some]
  · intro name' hname'
    obtain ⟨sym, hsym, rfl⟩ := List.mem_map.mp hname'
    simpa using hadded sym hsym

end

theorem Elf.Extends.symNames_eq (h : e.Extends l e' added) (hn : e.Named l) :
    e'.symNames l = e.symNames l ++ added.map (e'.symName l) := by
  have hold : (e.symbols l.symtab).map (e'.symName l) = e.symNames l :=
    List.map_congr_left fun sym hsym => hn.symName_eq h.grows hsym
  rw [Elf.symNames, h.symbols, List.map_append, hold]

theorem Elf.Extends.lookup_of_some (h : e.Extends l e' added) (hn : e.Named l)
    (hi : e.lookup l name = some i) :
    e'.lookup l name = some i := by
  rw [Elf.lookup, h.symNames_eq hn]
  exact findIdx?_append_of_some hi

theorem fillCorrespondence_eq (hs : e.Shape l) (hn : e.Named l) (hi : e.lookup l name = some i) :
    fillCorrespondence e name = .ok [⟨name, i⟩] := by
  rw [fillCorrespondence, hs.findSymbol_eq hn]
  rw [Elf.lookup] at hi
  rw [hi]
  rfl

theorem Elf.Shape.modifySymbol_spec (hs : e.Shape l) (i : Nat) (f : Sym → Sym) :
    e.Grows (e.modifySymbol l.symtab i f) ∧ (e.modifySymbol l.symtab i f).Shape l ∧
      e.Fresh (e.modifySymbol l.symtab i f) ∧
      (e.modifySymbol l.symtab i f).symbols l.symtab = (e.symbols l.symtab).modify i f ∧
      ∀ j, (e.modifySymbol l.symtab i f).contents j = e.contents j := by
  obtain ⟨h, hh, -⟩ := hs.symtab
  obtain ⟨hgrows, hshape, hrelocs⟩ :=
    hs.modify l.symtab (f := fun s => { s with syms := s.syms.modify i f }) (fun _ => rfl)
      (fun s => List.prefix_refl _) (fun _ => rfl)
  refine ⟨hgrows, hshape, Elf.fresh_of_relocs hrelocs, ?_, ?_⟩
  · exact (Elf.symbols_modify e (Elf.lt_length_of_header hh)
      (fun s => { s with syms := s.syms.modify i f }) (g := fun syms => syms.modify i f)
      (fun _ => rfl) l.symtab).trans (if_pos rfl)
  · exact Elf.contents_modify_of_eq e l.symtab (f := fun s => { s with syms := s.syms.modify i f })
      (fun _ => rfl)

end Tables

section Imports

theorem cstring_ne_zero {s : String} (h : s.toList.all (fun c => c.toNat % 256 ≠ 0) = true) :
    0 ∉ cstring s := by
  intro hmem
  obtain ⟨c, hc, hzero⟩ := List.mem_map.mp hmem
  have hne := List.all_eq_true.mp h c hc
  have hnat := congrArg BitVec.toNat hzero
  rw [BitVec.toNat_ofNat] at hnat
  simp at hne
  exact hne hnat

variable {e : Elf}

theorem Elf.Shape.addReplacement_spec (hs : e.Shape l) (hn : e.Named l) {name : CString}
    (hname : 0 ∉ name) (crc : BitVec 64) {m t : Nat} (hm : e.lookup l mcount = some m)
    (ht : e.lookup l thisModule = some t) :
    ∃ e' sym, addReplacementFunction e name crc = .ok (e', (e.symbols l.symtab).length) ∧
      e.Extends l e' [sym] ∧ e'.Named l ∧ e'.symName l sym = name ∧ sym.shndx = 0 ∧ sym.value = 0 ∧
      fillCorrespondence e' mcount = .ok [⟨mcount, m⟩] ∧
      fillCorrespondence e' thisModule = .ok [⟨thisModule, t⟩] := by
  obtain ⟨e', sym, heq, hadds, hin, hsymName, hshndx, hvalue⟩ :=
    hs.addReplacementFunction_spec hname crc
  have hn' : e'.Named l := by
    refine hadds.extends.named hn fun sym' hsym' => ?_
    rw [List.mem_singleton.mp hsym']
    exact hin
  exact ⟨e', sym, heq, hadds.extends, hn', hsymName, hshndx, hvalue,
    fillCorrespondence_eq hadds.shape hn' (hadds.extends.lookup_of_some hn hm),
    fillCorrespondence_eq hadds.shape hn' (hadds.extends.lookup_of_some hn ht)⟩

/-- The symbol stands for the code of the template, with the given symbols for its names. -/
structure Elf.Embedded (l : Layout) (e : Elf) (template : CodeTemplate) (index : CString → Nat)
    (sym : Sym) : Prop where
  placed : e.Placed l template sym.shndx sym.value (template.symbols.map index)
  size : sym.size = template.code.length
  code : 0 < template.code.length

theorem Elf.Embedded.grows {e' : Elf} {template : CodeTemplate} {index : CString → Nat} {sym : Sym}
    (h : e.Embedded l template index sym) (hg : e.Grows e') (hf : e.Fresh e') :
    e'.Embedded l template index sym :=
  ⟨h.placed.grows hg hf h.code, h.size, h.code⟩

variable {info : ImportedReplacementInfo}

theorem Elf.Shape.exchangeSymbols_spec {e2 : Elf} {repl func orig : Sym}
    (hext : e.Extends l e2 [repl, func]) (hn2 : e2.Named l)
    (hi : (e.symbols l.symtab)[i]? = some orig) :
    ∃ e', exchangeSymbols e2 i ((e.symbols l.symtab).length + 1) = .ok e' ∧
      e.Replaces l e' i func [repl, orig] ∧ (∀ j, e'.contents j = e2.contents j) ∧
      e2.Grows e' ∧ e2.Fresh e' := by
  obtain ⟨h, hh, -⟩ := hext.shape.symtab
  have hlt := (List.getElem?_eq_some_iff.mp hi).1
  have hfirst : (e2.symbols l.symtab)[i]? = some orig := by
    rw [hext.symbols, List.getElem?_append_left hlt, hi]
  have hsecond : (e2.symbols l.symtab)[(e.symbols l.symtab).length + 1]? = some func := by
    rw [hext.symbols, List.getElem?_append_right (by omega)]
    simp
  obtain ⟨hgrows3, hshape3, hfresh3, hsyms3, hcontents3⟩ :=
    hext.shape.modifySymbol_spec i (fun _ => func)
  obtain ⟨hgrows4, hshape4, hfresh4, hsyms4, hcontents4⟩ :=
    hshape3.modifySymbol_spec ((e.symbols l.symtab).length + 1) (fun _ => orig)
  have hcontents : ∀ j, ((e2.modifySymbol l.symtab i fun _ => func).modifySymbol l.symtab
      ((e.symbols l.symtab).length + 1) fun _ => orig).contents j = e2.contents j := by
    intro j
    rw [hcontents4, hcontents3]
  have hsymbols : ((e2.modifySymbol l.symtab i fun _ => func).modifySymbol l.symtab
      ((e.symbols l.symtab).length + 1) fun _ => orig).symbols l.symtab =
        (e.symbols l.symtab).set i func ++ [repl, orig] := by
    rw [hsyms4, hsyms3, hext.symbols, ← List.set_eq_modify, ← List.set_eq_modify,
      List.set_append_left _ _ hlt, List.set_append_right _ _ (by rw [List.length_set]; omega),
      List.length_set, Nat.add_sub_cancel_left]
    rfl
  refine ⟨_, ?_, ⟨(hext.grows.trans hgrows3).trans hgrows4, hshape4,
    ((hext.fresh.trans hfresh3 hext.grows hgrows3).trans hfresh4 (hext.grows.trans hgrows3)
      hgrows4), ?_, hsymbols⟩, hcontents, hgrows3.trans hgrows4,
    hfresh3.trans hfresh4 hgrows3 hgrows4⟩
  · rw [exchangeSymbols, hext.shape.getSymbolsSection_eq]
    simp only [bind, Except.bind, (Elf.getscn_of_header hh).1, hfirst, hsecond, pure, Except.pure]
  · intro sym hsym
    rw [hcontents]
    refine hn2 sym ?_
    rw [hsymbols] at hsym
    rw [hext.symbols]
    rcases List.mem_append.mp hsym with hsym | hsym
    · rcases List.mem_or_eq_of_mem_set hsym with hsym | rfl
      · exact List.mem_append_left _ hsym
      · exact List.mem_append_right _ (by simp)
    · rcases List.mem_cons.mp hsym with rfl | hsym
      · exact List.mem_append_right _ (by simp)
      · rw [List.mem_singleton.mp hsym]
        exact List.mem_append_left _ (List.mem_of_getElem? hi)

/-- Symbols for the names in a template of an imported function. -/
def importIndex (replName : CString) (repl m t : Nat) (name : CString) : Nat :=
  if name = replName then repl else if name = mcount then m else t

structure ImportedReplacementInfo.Proper (l : Layout) (is32 : Bool) (info : ImportedReplacementInfo) :
    Prop where
  replName : 0 ∉ info.replName
  intermediateName : 0 ∉ info.intermediateName
  fits : info.intermediateTemplate.Fits l is32
  refers : ∀ name ∈ info.intermediateTemplate.symbols,
    name = info.replName ∨ name = mcount ∨ name = thisModule

theorem replaceImport_none (hs : e.Shape l) (hn : e.Named l)
    (hi : e.lookup l info.origName = none) :
    replaceImport info e = .ok e := by
  rw [Elf.lookup] at hi
  rw [replaceImport, hs.findSymbol_eq hn, hi]
  rfl

theorem replaceImport_some (hs : e.Shape l) (hn : e.Named l) (hproper : info.Proper l e.is32)
    {m t : Nat} (hm : e.lookup l mcount = some m) (ht : e.lookup l thisModule = some t)
    (hi : e.lookup l info.origName = some i) :
    ∃ e' orig repl func, replaceImport info e = .ok e' ∧
      (e.symbols l.symtab)[i]? = some orig ∧ e.symName l orig = info.origName ∧
      e.Replaces l e' i func [repl, orig] ∧
      e'.symName l func = info.intermediateName ∧ e'.symName l repl = info.replName ∧
      repl.shndx = 0 ∧ repl.value = 0 ∧
      e'.Embedded l info.intermediateTemplate
        (importIndex info.replName (e.symbols l.symtab).length m t) func := by
  obtain ⟨orig, horig, horigName⟩ := Elf.lookup_eq_some hi
  obtain ⟨e1, repl, heq1, hext1, hn1, hreplName, hshndx, hvalue, hmcount, hthis⟩ :=
    hs.addReplacement_spec hn hproper.replName info.replCrc hm ht
  have hfits := hproper.fits
  rw [← hext1.grows.is32] at hfits
  have hindex : ∀ name ∈ info.intermediateTemplate.symbols,
      translated ([⟨info.replName, (e.symbols l.symtab).length⟩] ++ [⟨mcount, m⟩] ++
        [⟨thisModule, t⟩]) name =
          importIndex info.replName (e.symbols l.symtab).length m t name := by
    intro name hname
    simp only [List.cons_append, List.nil_append, translated_cons, importIndex]
    split_ifs with h1 h2 h3
    · rfl
    · rfl
    · rfl
    · rcases hproper.refers name hname with h | h | h
      · exact absurd h h1
      · exact absurd h h2
      · exact absurd h h3
  have hsymbols := translateSymbols_eq info.intermediateTemplate.symbols
    ([⟨info.replName, (e.symbols l.symtab).length⟩] ++ [⟨mcount, m⟩] ++ [⟨thisModule, t⟩]) (by
      intro name hname
      rcases hproper.refers name hname with rfl | rfl | rfl <;> simp)
  rw [List.map_congr_left hindex] at hsymbols
  obtain ⟨e2, scn, offset, func, heq2, hext2, hplaced, hin, hfuncName, rfl, rfl, hsize⟩ :=
    hext1.shape.functionTemplateInstantiate_spec hfits
      (cstring_ne_zero (s := ".replacements.text") rfl) hproper.intermediateName hsymbols
  have hn2 : e2.Named l := hext2.named hn1 fun sym hsym => by
    rw [List.mem_singleton.mp hsym]
    exact hin
  have hlength : (e1.symbols l.symtab).length = (e.symbols l.symtab).length + 1 := by
    rw [hext1.symbols, List.length_append, List.length_singleton]
  obtain ⟨e3, heq3, hreplaces, hcontents, hgrows3, hfresh3⟩ :=
    Elf.Shape.exchangeSymbols_spec (hext1.trans hext2) hn2 horig
  have hnames : ∀ sym, e3.symName l sym = e2.symName l sym := fun sym => by
    rw [Elf.symName, hcontents, Elf.symName]
  refine ⟨e3, orig, repl, func, ?_, horig, horigName, hreplaces, ?_, ?_, hshndx, hvalue, ?_⟩
  · rw [Elf.lookup] at hi
    rw [replaceImport, hs.findSymbol_eq hn, hi]
    simp only [bind, Except.bind, heq1, hmcount, hthis]
    rw [newSection, heq2, hlength]
    exact heq3
  · rw [hnames, hfuncName]
  · rw [hnames, hn1.symName_eq hext2.grows, hreplName]
    rw [hext1.symbols]
    exact List.mem_append_right _ (List.mem_singleton_self _)
  · exact ⟨hplaced.grows hgrows3 hfresh3 hfits.code_ne_nil, hsize, hfits.code_ne_nil⟩

end Imports

section Runs

/--
A run of replacements: the first symbols with names in `changed` are replaced, all new entries
have names in `used`, and two symbols at most are added for each of `count` replacements.
-/
structure Elf.Runs (l : Layout) (e e' : Elf) (changed used : List CString) (count : Nat) :
    Prop where
  grows : e.Grows e'
  fresh : e.Fresh e'
  shape : e'.Shape l
  named : e'.Named l
  keeps : ∀ (p : Nat) (sym : Sym), (e.symbols l.symtab)[p]? = some sym →
    (∀ name ∈ changed, e.lookup l name ≠ some p) → (e'.symbols l.symtab)[p]? = some sym
  origin : ∀ (p : Nat) (sym : Sym), (e'.symbols l.symtab)[p]? = some sym →
    (e.symbols l.symtab)[p]? = some sym ∨ e'.symName l sym ∈ used
  length : (e'.symbols l.symtab).length ≤ (e.symbols l.symtab).length + 2 * count
  lookup : ∀ name, name ∉ used → e'.lookup l name = e.lookup l name

variable {e e' : Elf} {changed used : List CString} {count m t : Nat}

theorem Elf.Runs.refl (hs : e.Shape l) (hn : e.Named l) : e.Runs l e [] [] 0 :=
  ⟨Elf.Grows.refl e, Elf.fresh_of_relocs fun _ => rfl, hs, hn, fun _ _ h _ => h,
    fun _ _ h => .inl h, Nat.le_refl _, fun _ _ => rfl⟩

variable {used' : List CString} {count' : Nat} {info : ImportedReplacementInfo}

theorem Elf.Runs.trans {e'' : Elf} {changed' : List CString} (h : e.Runs l e' changed used count)
    (h' : e'.Runs l e'' changed' used' count') (hdisjoint : ∀ name ∈ changed', name ∉ used) :
    e.Runs l e'' (changed ++ changed') (used ++ used') (count + count') := by
  refine ⟨h.grows.trans h'.grows, h.fresh.trans h'.fresh h.grows h'.grows, h'.shape, h'.named, ?_,
    ?_, ?_, ?_⟩
  · intro p sym hp hother
    refine h'.keeps p sym (h.keeps p sym hp fun name hname =>
      hother name (List.mem_append_left _ hname)) fun name hname => ?_
    rw [h.lookup name (hdisjoint name hname)]
    exact hother name (List.mem_append_right _ hname)
  · intro p sym hp
    rcases h'.origin p sym hp with hp' | hused
    · rcases h.origin p sym hp' with hp | hused
      · exact .inl hp
      · refine .inr (List.mem_append_left _ ?_)
        rwa [h.named.symName_eq h'.grows (List.mem_of_getElem? hp')]
    · exact .inr (List.mem_append_right _ hused)
  · have hlength := h.length
    have hlength' := h'.length
    omega
  · intro name hname
    rw [List.mem_append, not_or] at hname
    rw [h'.lookup name hname.2, h.lookup name hname.1]

theorem Elf.Runs.mono (h : e.Runs l e' changed used count) (hused : used ⊆ used')
    (hcount : count ≤ count') :
    e.Runs l e' changed used' count' :=
  ⟨h.grows, h.fresh, h.shape, h.named, h.keeps, fun p sym hp =>
    (h.origin p sym hp).imp_right fun hmem => hused hmem, by have := h.length; omega,
    fun name hname => h.lookup name fun hmem => hname (hused hmem)⟩

theorem Elf.Runs.entry (h : e.Runs l e' changed used count) (hn : e.Named l) {p : Nat}
    (hp : (e.symbols l.symtab)[p]? = some sym) (hname : e.symName l sym ∉ changed) :
    (e'.symbols l.symtab)[p]? = some sym ∧ e'.symName l sym = e.symName l sym := by
  refine ⟨h.keeps p sym hp fun name hmem hlookup => ?_,
    hn.symName_eq h.grows (List.mem_of_getElem? hp)⟩
  rw [Elf.symName_of_lookup hlookup hp] at hname
  exact hname hmem

theorem Elf.Runs.unchanged (hs : e.Shape l) (hn : e.Named l) (changed used : List CString)
    (count : Nat) : e.Runs l e changed used count := by
  have hrun := (Elf.Runs.refl hs hn).mono (List.nil_subset used) (Nat.zero_le count)
  exact ⟨hrun.grows, hrun.fresh, hrun.shape, hrun.named, fun _ _ h _ => h, hrun.origin, hrun.length,
    hrun.lookup⟩

theorem Elf.Replaces.runs {old : Sym} {name : CString} (h : e.Replaces l e' i new added)
    (hn : e.Named l) (hi : e.lookup l name = some i) (hold : (e.symbols l.symtab)[i]? = some old)
    (hname : name ∈ used) (hnew : e'.symName l new ∈ used)
    (hadded : ∀ sym ∈ added, e'.symName l sym ∈ used) (hlength : added.length ≤ 2 * count) :
    e.Runs l e' [name] used count := by
  refine ⟨h.grows, h.fresh, h.shape, h.named, ?_, ?_, ?_, ?_⟩
  · intro p sym hp hother
    refine h.getElem?_of_ne hp ?_
    rintro rfl
    exact hother _ (List.mem_singleton_self _) hi
  · intro p sym hp
    rcases h.origin hp with hp | rfl | hp
    · exact .inl hp
    · exact .inr hnew
    · exact .inr (hadded sym hp)
  · rw [h.symbols, List.length_append, List.length_set]
    omega
  · intro other hother
    refine h.lookup_eq hn hold ?_ ?_ ?_
    · rw [Elf.symName_of_lookup hi hold]
      rintro rfl
      exact hother hname
    · exact fun heq => hother (heq ▸ hnew)
    · exact fun sym hsym heq => hother (heq ▸ hadded sym hsym)

theorem Elf.Replaces.getElem?_length (h : e.Replaces l e' i new (sym :: added)) :
    (e'.symbols l.symtab)[(e.symbols l.symtab).length]? = some sym := by
  rw [h.symbols, List.getElem?_append_right (by rw [List.length_set]), List.length_set, Nat.sub_self]
  rfl

/-- The entry for an imported function stands for the copy of its intermediate function. -/
def Elf.ImportDone (l : Layout) (e : Elf) (info : ImportedReplacementInfo) (m t i : Nat) : Prop :=
  ∃ func repl r, (e.symbols l.symtab)[i]? = some func ∧
    e.symName l func = info.intermediateName ∧
    (e.symbols l.symtab)[r]? = some repl ∧ e.symName l repl = info.replName ∧
    repl.shndx = 0 ∧ repl.value = 0 ∧
    e.Embedded l info.intermediateTemplate (importIndex info.replName r m t) func

/-- The functions behind it leave a redirected import as it is. -/
theorem Elf.ImportDone.run (h : e.ImportDone l info m t i) (hn : e.Named l)
    (hrun : e.Runs l e' changed used count) (hrepl : info.replName ∉ changed)
    (hintermediate : info.intermediateName ∉ changed) :
    e'.ImportDone l info m t i := by
  obtain ⟨func, repl, r, hfunc, hfuncName, hreplEntry, hreplName, hshndx, hvalue, hembedded⟩ := h
  obtain ⟨hfunc', hfuncName'⟩ := hrun.entry hn hfunc (by rw [hfuncName]; exact hintermediate)
  obtain ⟨hrepl', hreplName'⟩ := hrun.entry hn hreplEntry (by rw [hreplName]; exact hrepl)
  exact ⟨func, repl, r, hfunc', hfuncName'.trans hfuncName, hrepl', hreplName'.trans hreplName,
    hshndx, hvalue, hembedded.grows hrun.grows hrun.fresh⟩

def ImportedReplacementInfo.names (info : ImportedReplacementInfo) : List CString :=
  [info.origName, info.replName, info.intermediateName]

/-- The step of a run: one import is replaced. -/
theorem replaceImport_spec (hs : e.Shape l) (hn : e.Named l) (hproper : info.Proper l e.is32)
    (hm : e.lookup l mcount = some m) (ht : e.lookup l thisModule = some t) :
    ∃ e', replaceImport info e = .ok e' ∧ e.Runs l e' [info.origName] info.names 1 ∧
      (∀ sym ∈ e.symbols l.symtab, sym ∈ e'.symbols l.symtab) ∧
      ∀ i, e.lookup l info.origName = some i → e'.ImportDone l info m t i := by
  cases hi : e.lookup l info.origName with
  | none =>
    exact ⟨e, replaceImport_none hs hn hi, .unchanged hs hn _ _ _, fun _ h => h,
      fun i h => by cases h⟩
  | some i =>
    obtain ⟨e', orig, repl, func, heq, horig, horigName, hreplaces, hfuncName, hreplName, hshndx,
      hvalue, hembedded⟩ := replaceImport_some hs hn hproper hm ht hi
    have horigName' : e'.symName l orig = info.origName := by
      rw [hn.symName_eq hreplaces.grows (List.mem_of_getElem? horig), horigName]
    refine ⟨e', heq, hreplaces.runs hn hi horig ?_ ?_ ?_ (Nat.le_refl _), ?_, ?_⟩
    · simp [ImportedReplacementInfo.names]
    · rw [hfuncName]
      simp [ImportedReplacementInfo.names]
    · intro sym hsym
      rcases List.mem_cons.mp hsym with rfl | hsym
      · rw [hreplName]
        simp [ImportedReplacementInfo.names]
      · rw [List.mem_singleton.mp hsym, horigName']
        simp [ImportedReplacementInfo.names]
    · intro sym hsym
      rcases hreplaces.remains hsym with hmem | hmem
      · exact hmem
      · rw [horig] at hmem
        cases hmem
        rw [hreplaces.symbols]
        exact List.mem_append_right _ (by simp)
    · intro j hj
      cases hj
      exact ⟨func, repl, (e.symbols l.symtab).length, hreplaces.getElem?_self horig, hfuncName,
        hreplaces.getElem?_length, hreplName, hshndx, hvalue, hembedded⟩

/-- All imports are replaced; the induction is on their list. -/
theorem replaceImports_spec (infos : List ImportedReplacementInfo) (hs : e.Shape l) (hn : e.Named l)
    (hproper : ∀ info ∈ infos, info.Proper l e.is32)
    (hnames : (infos.flatMap ImportedReplacementInfo.names).Nodup) (hm : e.lookup l mcount = some m)
    (ht : e.lookup l thisModule = some t)
    (hmcount : mcount ∉ infos.flatMap ImportedReplacementInfo.names)
    (hthis : thisModule ∉ infos.flatMap ImportedReplacementInfo.names) :
    ∃ e', replaceImports infos e = .ok e' ∧
      e.Runs l e' (infos.map ImportedReplacementInfo.origName)
        (infos.flatMap ImportedReplacementInfo.names) infos.length ∧
      (∀ sym ∈ e.symbols l.symtab, sym ∈ e'.symbols l.symtab) ∧
      ∀ info ∈ infos, ∀ i, e.lookup l info.origName = some i → e'.ImportDone l info m t i := by
  induction infos generalizing e with
  | nil =>
    exact ⟨e, rfl, Elf.Runs.refl hs hn, fun _ h => h,
      fun info hinfo => absurd hinfo List.not_mem_nil⟩
  | cons info infos ih =>
    rw [List.flatMap_cons] at hnames hmcount hthis
    rw [List.mem_append, not_or] at hmcount hthis
    obtain ⟨hheadNames, htailNames, hapart⟩ := List.nodup_append.mp hnames
    obtain ⟨e1, heq1, hrun1, hremains1, hdone1⟩ :=
      replaceImport_spec hs hn (hproper info List.mem_cons_self) hm ht
    have horigs : ∀ other ∈ infos, ∀ name ∈ info.names, other.origName ≠ name := by
      intro other hother name hname heq
      refine hapart name hname other.origName ?_ heq.symm
      exact List.mem_flatMap.mpr ⟨other, hother, List.mem_cons_self⟩
    obtain ⟨e2, heq2, hrun2, hremains2, hdone2⟩ := ih hrun1.shape hrun1.named
      (fun other hother => by
        rw [hrun1.grows.is32]
        exact hproper other (List.mem_cons_of_mem _ hother))
      htailNames (by rw [hrun1.lookup _ hmcount.1, hm]) (by rw [hrun1.lookup _ hthis.1, ht])
      hmcount.2 hthis.2
    refine ⟨e2, ?_, ?_, fun sym hsym => hremains2 sym (hremains1 sym hsym), ?_⟩
    · rw [replaceImports, heq1]
      exact heq2
    · have hrun := hrun1.trans hrun2 (by
        intro name hname hmem
        obtain ⟨other, hother, rfl⟩ := List.mem_map.mp hname
        exact horigs other hother _ hmem rfl)
      rw [List.length_cons, Nat.add_comm infos.length 1]
      exact hrun
    · intro other hother i hi
      rcases List.mem_cons.mp hother with rfl | hother
      · refine (hdone1 i hi).run hrun1.named hrun2 ?_ ?_
        · intro hmem
          obtain ⟨other', hother', heq⟩ := List.mem_map.mp hmem
          exact horigs other' hother' other.replName (by simp [ImportedReplacementInfo.names]) heq
        · intro hmem
          obtain ⟨other', hother', heq⟩ := List.mem_map.mp hmem
          exact horigs other' hother' other.intermediateName
            (by simp [ImportedReplacementInfo.names]) heq
      · refine hdone2 other hother i ?_
        rw [hrun1.lookup, hi]
        intro hmem
        exact horigs other hother _ hmem rfl

end Runs

end BinaryInstrument
end KedrAux
