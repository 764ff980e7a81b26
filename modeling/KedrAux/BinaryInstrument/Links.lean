import KedrAux.BinaryInstrument.Redirection

/-!
# Replacement of links

The symbol of a link is redirected in place.  The function that it was a link to is found by its
section, value and size, and stays where it is.
-/

namespace KedrAux
namespace BinaryInstrument

variable {l : Layout}

section OneLink

def Sym.SamePlace (link sym : Sym) : Prop :=
  sym.shndx = link.shndx ∧ sym.value = link.value ∧ sym.size = link.size

/-- The symbol has other name, but same section, value and size. -/
def Sym.Alias (link sym : Sym) : Prop := link.SamePlace sym ∧ sym.name ≠ link.name

variable {e : Elf} {link : Sym} {info : LinkReplacementInfo} {sectionName : CString} {i m t : Nat}

/-- When the link has an alias, one is found. -/
theorem Elf.Extends.linkGetOrig_spec {e1 : Elf} {added : List Sym} (hext : e.Extends l e1 added) :
    ∃ found, linkGetOrig e1 link = .ok found ∧
      ((∃ sym ∈ e.symbols l.symtab, link.Alias sym) → ∃ orig origSym, found = some orig ∧
        (e.symbols l.symtab)[orig]? = some origSym ∧ link.Alias origSym) := by
  obtain ⟨hd, hhd, -⟩ := hext.shape.symtab
  refine ⟨(e1.symbols l.symtab).findIdx? fun sym => decide (sym.shndx = link.shndx ∧
    sym.value = link.value ∧ sym.size = link.size ∧ sym.name ≠ link.name), ?_, ?_⟩
  · rw [linkGetOrig, hext.shape.getSymbolsSection_eq]
    simp only [bind, Except.bind, (Elf.getscn_of_header hhd).1, pure, Except.pure]
  · rintro ⟨sym, hsym, ⟨hshndx, hvalue, hsize⟩, hname⟩
    have hfound : ((e.symbols l.symtab).findIdx? fun sym => decide (sym.shndx = link.shndx ∧
        sym.value = link.value ∧ sym.size = link.size ∧ sym.name ≠ link.name)).isSome = true := by
      rw [List.findIdx?_isSome, List.any_eq_true]
      exact ⟨sym, hsym, decide_eq_true ⟨hshndx, hvalue, hsize, hname⟩⟩
    obtain ⟨orig, horig⟩ := Option.isSome_iff_exists.mp hfound
    obtain ⟨hlt, hp, -⟩ := List.findIdx?_eq_some_iff_getElem.mp horig
    obtain ⟨h1, h2, h3, h4⟩ := of_decide_eq_true hp
    refine ⟨orig, (e.symbols l.symtab)[orig], ?_, List.getElem?_eq_getElem hlt, ⟨h1, h2, h3⟩, h4⟩
    rw [hext.symbols]
    exact findIdx?_append_of_some horig

def linkIndex (info : LinkReplacementInfo) (repl orig m t : Nat) (name : CString) : Nat :=
  if name = info.replName then repl
  else if name = info.linkPlaceholderName then orig
  else if name = mcount then m
  else t

structure LinkReplacementInfo.Proper (l : Layout) (is32 : Bool) (info : LinkReplacementInfo) :
    Prop where
  replName : 0 ∉ info.replName
  intermediateName : 0 ∉ info.intermediateName
  fits : info.intermediateTemplate.Fits l is32
  refers : ∀ name ∈ info.intermediateTemplate.symbols,
    name = info.replName ∨ name = info.linkPlaceholderName ∨ name = mcount ∨ name = thisModule

theorem replaceLink_none (hs : e.Shape l) (hn : e.Named l) (hi : e.lookup l info.linkName = none) :
    replaceLink info sectionName e = .ok e := by
  rw [Elf.lookup] at hi
  rw [replaceLink, hs.findSymbol_eq hn, hi]
  rfl

/-- The entry of the link gets the place of the copy. -/
def Sym.moved (link func : Sym) : Sym :=
  { link with shndx := func.shndx, value := func.value, size := func.size }

theorem Elf.Shape.moveSymbol_spec {e2 : Elf} {repl func : Sym} (hext : e.Extends l e2 [repl, func])
    (hn2 : e2.Named l) (hi : (e.symbols l.symtab)[i]? = some link) :
    e.Replaces l (e2.modifySymbol l.symtab i fun sym => sym.moved func) i (link.moved func)
        [repl, func] ∧
      (∀ j, (e2.modifySymbol l.symtab i fun sym => sym.moved func).contents j = e2.contents j) ∧
      e2.Grows (e2.modifySymbol l.symtab i fun sym => sym.moved func) ∧
      e2.Fresh (e2.modifySymbol l.symtab i fun sym => sym.moved func) := by
  obtain ⟨hlt, hget⟩ := List.getElem?_eq_some_iff.mp hi
  obtain ⟨hgrows, hshape, hfresh, hsyms, hcontents⟩ :=
    hext.shape.modifySymbol_spec i (fun sym => sym.moved func)
  have hsymbols : (e2.modifySymbol l.symtab i fun sym => sym.moved func).symbols l.symtab =
      (e.symbols l.symtab).set i (link.moved func) ++ [repl, func] := by
    have hmodify : (e2.symbols l.symtab)[i]? = some link := by
      rw [hext.symbols, List.getElem?_append_left hlt, hi]
    rw [hsyms, List.modify_eq_set_getElem?, hmodify, ← List.set_append_left _ _ hlt, ← hext.symbols]
    rfl
  refine ⟨⟨hext.grows.trans hgrows, hshape, hext.fresh.trans hfresh hext.grows hgrows, ?_, hsymbols⟩,
    hcontents, hgrows, hfresh⟩
  intro sym hsym
  rw [hcontents]
  rw [hsymbols] at hsym
  rcases List.mem_append.mp hsym with hsym | hsym
  · rcases List.mem_or_eq_of_mem_set hsym with hsym | rfl
    · refine hn2 sym ?_
      rw [hext.symbols]
      exact List.mem_append_left _ hsym
    · -- the name of the link is not changed
      refine hn2 link ?_
      rw [hext.symbols]
      exact List.mem_append_left _ (List.mem_of_getElem? hi)
  · refine hn2 sym ?_
    rw [hext.symbols]
    exact List.mem_append_right _ hsym

/-- What has a link done to it, unless no function is found that it is a link to. -/
theorem replaceLink_some (hs : e.Shape l) (hn : e.Named l) (hproper : info.Proper l e.is32)
    (hsection : 0 ∉ sectionName) (hm : e.lookup l mcount = some m)
    (ht : e.lookup l thisModule = some t) (hi : e.lookup l info.linkName = some i)
    (hlink : (e.symbols l.symtab)[i]? = some link) :
    (replaceLink info sectionName e = .error .einval ∧
        ¬ ∃ sym ∈ e.symbols l.symtab, link.Alias sym) ∨
      ∃ e' orig repl func, replaceLink info sectionName e = .ok e' ∧
        e.Replaces l e' i (link.moved func) [repl, func] ∧
        ((∃ sym ∈ e.symbols l.symtab, link.Alias sym) → ∃ origSym,
          (e.symbols l.symtab)[orig]? = some origSym ∧ link.Alias origSym) ∧
        e'.symName l func = info.intermediateName ∧ e'.symName l repl = info.replName ∧
        repl.shndx = 0 ∧ repl.value = 0 ∧
        e'.Embedded l info.intermediateTemplate
          (linkIndex info (e.symbols l.symtab).length orig m t) (link.moved func) := by
  obtain ⟨e1, repl, heq1, hext1, hn1, hreplName, hshndx, hvalue, hmcount, hthis⟩ :=
    hs.addReplacement_spec hn hproper.replName info.replCrc hm ht
  obtain ⟨found, hfound, halias⟩ :=
    (hext1.linkGetOrig_spec : ∃ found, linkGetOrig e1 link = .ok found ∧ _)
  obtain ⟨hd1, hhd1, -⟩ := hext1.shape.symtab
  have hlink1 : (e1.symbols l.symtab)[i]? = some link := by
    rw [hext1.symbols, List.getElem?_append_left (List.getElem?_eq_some_iff.mp hlink).1, hlink]
  rw [Elf.lookup] at hi
  cases found with
  | none =>
    refine .inl ⟨?_, fun hsome => ?_⟩
    · rw [replaceLink, hs.findSymbol_eq hn, hi]
      simp only [bind, Except.bind, heq1, hext1.shape.getSymbolsSection_eq,
        (Elf.getscn_of_header hhd1).1, hlink1, hfound]
    · obtain ⟨orig, origSym, heq, -⟩ := halias hsome
      cases heq
  | some orig =>
    have hfits := hproper.fits
    rw [← hext1.grows.is32] at hfits
    have hindex : ∀ name ∈ info.intermediateTemplate.symbols,
        translated ([⟨info.replName, (e.symbols l.symtab).length⟩, ⟨info.linkPlaceholderName, orig⟩] ++
          [⟨mcount, m⟩] ++ [⟨thisModule, t⟩]) name =
            linkIndex info (e.symbols l.symtab).length orig m t name := by
      intro name hname
      simp only [List.cons_append, List.nil_append, translated_cons, linkIndex]
      split_ifs with h1 h2 h3 h4
      · rfl
      · rfl
      · rfl
      · rfl
      · rcases hproper.refers name hname with h | h | h | h
        · exact absurd h h1
        · exact absurd h h2
        · exact absurd h h3
        · exact absurd h h4
    have hsymbols := translateSymbols_eq info.intermediateTemplate.symbols
      ([⟨info.replName, (e.symbols l.symtab).length⟩, ⟨info.linkPlaceholderName, orig⟩] ++
        [⟨mcount, m⟩] ++ [⟨thisModule, t⟩]) (by
        intro name hname
        rcases hproper.refers name hname with rfl | rfl | rfl | rfl <;> simp)
    rw [List.map_congr_left hindex] at hsymbols
    obtain ⟨e2, scn, offset, func, heq2, hext2, hplaced, hin, hfuncName, rfl, rfl, hsize⟩ :=
      hext1.shape.functionTemplateInstantiate_spec hfits hsection hproper.intermediateName hsymbols
    have hn2 : e2.Named l := hext2.named hn1 fun sym hsym => by
      rw [List.mem_singleton.mp hsym]
      exact hin
    obtain ⟨hd2, hhd2, -⟩ := hext2.shape.symtab
    have hfunc2 : (e2.symbols l.symtab)[(e1.symbols l.symtab).length]? = some func := by
      rw [hext2.symbols, List.getElem?_append_right (Nat.le_refl _), Nat.sub_self]
      rfl
    obtain ⟨hreplaces, hcontents, hgrows3, hfresh3⟩ :=
      Elf.Shape.moveSymbol_spec (hext1.trans hext2) hn2 hlink
    refine .inr ⟨_, orig, repl, func, ?_, hreplaces, ?_, ?_, ?_, hshndx, hvalue, ?_⟩
    · rw [replaceLink, hs.findSymbol_eq hn, hi]
      simp only [bind, Except.bind, heq1, hext1.shape.getSymbolsSection_eq,
        (Elf.getscn_of_header hhd1).1, hlink1, hfound, hmcount, hthis]
      rw [heq2]
      simp only [(Elf.getscn_of_header hhd2).1, hfunc2, pure, Except.pure, Sym.moved]
    · intro hsome
      obtain ⟨orig', origSym, heq, horigSym, halias'⟩ := halias hsome
      cases heq
      exact ⟨origSym, horigSym, halias'⟩
    · rw [Elf.symName, hcontents, ← Elf.symName, hfuncName]
    · rw [Elf.symName, hcontents, ← Elf.symName, hn1.symName_eq hext2.grows, hreplName]
      rw [hext1.symbols]
      exact List.mem_append_right _ (List.mem_singleton_self _)
    · exact ⟨hplaced.grows hgrows3 hfresh3 hfits.code_ne_nil, hsize, hfits.code_ne_nil⟩

/-- All names that the replacement of a link gives to symbols. -/
def LinkReplacementInfo.names (info : LinkReplacementInfo) : List CString :=
  [info.linkName, info.replName, info.intermediateName]

/--
The entry of a link stands for the copy of its intermediate function, which calls the function at
the place of the given symbol.
-/
def Elf.LinkDone (l : Layout) (e : Elf) (info : LinkReplacementInfo) (link : Sym)
    (m t i orig : Nat) : Prop :=
  ∃ new repl r origSym, (e.symbols l.symtab)[i]? = some new ∧ e.symName l new = info.linkName ∧
    new.name = link.name ∧ (e.symbols l.symtab)[r]? = some repl ∧
    e.symName l repl = info.replName ∧ repl.shndx = 0 ∧ repl.value = 0 ∧
    (e.symbols l.symtab)[orig]? = some origSym ∧ link.SamePlace origSym ∧
    e.Embedded l info.intermediateTemplate (linkIndex info r orig m t) new

/-- The links behind it leave a redirected link as it is. -/
theorem Elf.LinkDone.run {e' : Elf} {orig : Nat} (h : e.LinkDone l info link m t i orig)
    (hn : e.Named l) {other : CString} {used : List CString} {count : Nat}
    (hrun : e.Runs l e' [other] used count) (hlink : info.linkName ≠ other)
    (hrepl : info.replName ≠ other) (horig : e.lookup l other ≠ some orig) :
    e'.LinkDone l info link m t i orig := by
  obtain ⟨new, repl, r, origSym, hnew, hnewName, hname, hreplEntry, hreplName, hshndx, hvalue,
    horigEntry, hplace, hembedded⟩ := h
  obtain ⟨hnew', hnewName'⟩ := hrun.entry hn hnew (by rw [hnewName]; simpa using hlink)
  obtain ⟨hrepl', hreplName'⟩ := hrun.entry hn hreplEntry (by rw [hreplName]; simpa using hrepl)
  have horig' := hrun.keeps orig origSym horigEntry fun name hmem => by
    rw [List.mem_singleton.mp hmem]
    exact horig
  exact ⟨new, repl, r, origSym, hnew', hnewName'.trans hnewName, hname, hrepl',
    hreplName'.trans hreplName, hshndx, hvalue, horig', hplace,
    hembedded.grows hrun.grows hrun.fresh⟩

/-- A run of the replacement that does not fail changes the entry of the link only. -/
theorem replaceLink_runs (hs : e.Shape l) (hn : e.Named l) (hproper : info.Proper l e.is32)
    (hsection : 0 ∉ sectionName) (hm : e.lookup l mcount = some m)
    (ht : e.lookup l thisModule = some t) {e' : Elf} (heq : replaceLink info sectionName e = .ok e') :
    e.Runs l e' [info.linkName] info.names 1 := by
  cases hi : e.lookup l info.linkName with
  | none =>
    rw [replaceLink_none hs hn hi] at heq
    cases heq
    exact .unchanged hs hn _ _ _
  | some i =>
    obtain ⟨link, hlink, hlinkName⟩ := Elf.lookup_eq_some hi
    rcases replaceLink_some hs hn hproper hsection hm ht hi hlink with ⟨herror, -⟩ |
      ⟨e'', orig, repl, func, heq', hreplaces, -, hfuncName, hreplName, -⟩
    · rw [herror] at heq
      cases heq
    · rw [heq'] at heq
      cases heq
      refine hreplaces.runs hn hi hlink ?_ ?_ ?_ (Nat.le_refl _)
      · simp [LinkReplacementInfo.names]
      · have hold := hn.symName_eq hreplaces.grows (List.mem_of_getElem? hlink)
        rw [hlinkName] at hold
        rw [show e'.symName l (link.moved func) = info.linkName from hold]
        simp [LinkReplacementInfo.names]
      · intro sym hsym
        rcases List.mem_cons.mp hsym with rfl | hsym
        · rw [hreplName]
          simp [LinkReplacementInfo.names]
        · rw [List.mem_singleton.mp hsym, hfuncName]
          simp [LinkReplacementInfo.names]

/-- A link that the object file has is redirected. -/
theorem replaceLink_spec (hs : e.Shape l) (hn : e.Named l) (hproper : info.Proper l e.is32)
    (hsection : 0 ∉ sectionName) (hm : e.lookup l mcount = some m)
    (ht : e.lookup l thisModule = some t)
    (halias : ∀ i link, e.lookup l info.linkName = some i → (e.symbols l.symtab)[i]? = some link →
      ∃ sym ∈ e.symbols l.symtab, link.Alias sym) :
    ∃ e', replaceLink info sectionName e = .ok e' ∧ e.Runs l e' [info.linkName] info.names 1 ∧
      (∀ sym ∈ e.symbols l.symtab, sym ∈ e'.symbols l.symtab ∨
        ∃ i, e.lookup l info.linkName = some i ∧ (e.symbols l.symtab)[i]? = some sym) ∧
      ∀ i link, e.lookup l info.linkName = some i → (e.symbols l.symtab)[i]? = some link →
        ∃ orig origSym, (e.symbols l.symtab)[orig]? = some origSym ∧ link.Alias origSym ∧
          e'.LinkDone l info link m t i orig := by
  cases hi : e.lookup l info.linkName with
  | none =>
    exact ⟨e, replaceLink_none hs hn hi, .unchanged hs hn _ _ _, fun _ h => .inl h,
      fun i _ h => by cases h⟩
  | some i =>
    obtain ⟨link, hlink, hlinkName⟩ := Elf.lookup_eq_some hi
    rcases replaceLink_some hs hn hproper hsection hm ht hi hlink with ⟨-, hnone⟩ |
      ⟨e', orig, repl, func, heq, hreplaces, horig, hfuncName, hreplName, hshndx, hvalue, hembedded⟩
    · exact absurd (halias i link hi hlink) hnone
    obtain ⟨origSym, horig, halias'⟩ := horig (halias i link hi hlink)
    have hnewName : e'.symName l (link.moved func) = info.linkName := by
      have hold := hn.symName_eq hreplaces.grows (List.mem_of_getElem? hlink)
      rw [hlinkName] at hold
      exact hold
    refine ⟨e', heq, replaceLink_runs hs hn hproper hsection hm ht heq, ?_, ?_⟩
    · intro sym hsym
      exact (hreplaces.remains hsym).imp_right fun hmem => ⟨i, rfl, hmem⟩
    · intro j link' hj hlink'
      cases hj
      rw [hlink] at hlink'
      cases hlink'
      have hne : orig ≠ i := by
        rintro rfl
        rw [hlink] at horig
        cases horig
        exact halias'.2 rfl
      exact ⟨orig, origSym, horig, halias', link.moved func, repl, (e.symbols l.symtab).length,
        origSym, hreplaces.getElem?_self hlink, hnewName, rfl, hreplaces.getElem?_length, hreplName,
        hshndx, hvalue, hreplaces.getElem?_of_ne horig hne, halias'.1, hembedded⟩

end OneLink

end BinaryInstrument
end KedrAux
