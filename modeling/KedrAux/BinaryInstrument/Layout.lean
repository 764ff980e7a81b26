import KedrAux.BinaryInstrument.Replacements
import Mathlib.Data.List.Infix
import Mathlib.Data.List.TakeDrop

/-!
# Layout of modules and its growth

What is expected of a module before it is instrumented, and how every operation lets it grow:
headers stay, contents and relocations get longer at their ends.  Strings and copies of code are
found again after any growth.
-/

namespace KedrAux
namespace BinaryInstrument

open FailingSearch
open LittleEndian (Byte)

section Parts

def Elf.header (e : Elf) (i : Nat) : Option Shdr := e.sections[i]?.map Section.shdr

def Elf.contents (e : Elf) (i : Nat) : List Byte := (e.sections[i]?.map Section.bytes).getD []

def Elf.symbols (e : Elf) (i : Nat) : List Sym := (e.sections[i]?.map Section.syms).getD []

def Elf.relocs (e : Elf) (i : Nat) : List Rel := (e.sections[i]?.map Section.rels).getD []

variable {e : Elf} {i j : Nat} {f : Section → Section}

theorem Elf.getscn_of_header {h : Shdr} (hi : e.header i = some h) :
    e.getscn i = .ok ⟨h, e.contents i, e.symbols i, e.relocs i⟩ ∧
      e.sections[i]? = some ⟨h, e.contents i, e.symbols i, e.relocs i⟩ := by
  obtain ⟨s, hs, rfl⟩ := Option.map_eq_some_iff.mp hi
  simp [Elf.getscn, Elf.contents, Elf.symbols, Elf.relocs, hs]

theorem Elf.lt_length_of_header {h : Shdr} (hi : e.header i = some h) : i < e.sections.length := by
  obtain ⟨s, hs, -⟩ := Option.map_eq_some_iff.mp hi
  exact (List.getElem?_eq_some_iff.mp hs).1

theorem Elf.header_of_lt (hi : i < e.sections.length) : ∃ h, e.header i = some h :=
  ⟨_, by rw [Elf.header, List.getElem?_eq_getElem hi, Option.map_some]⟩

theorem Elf.relocs_of_header_none (hi : e.header i = none) : e.relocs i = [] := by
  rw [Elf.relocs, Option.map_eq_none_iff.mp hi, Option.map_none, Option.getD_none]

theorem Elf.getElem?_modify (e : Elf) (j : Nat) (f : Section → Section) (i : Nat) :
    (e.modify j f).sections[i]? = if j = i then e.sections[i]?.map f else e.sections[i]? := by
  rw [Elf.modify, List.getElem?_modify]
  split_ifs with h
  · cases e.sections[i]? <;> rfl
  · cases e.sections[i]? <;> rfl

@[simp] theorem Elf.length_modify (e : Elf) (j : Nat) (f : Section → Section) :
    (e.modify j f).sections.length = e.sections.length := by
  rw [Elf.modify, List.length_modify]

theorem Elf.header_modify (e : Elf) (j : Nat) (hf : ∀ s, (f s).shdr = s.shdr) (i : Nat) :
    (e.modify j f).header i = e.header i := by
  rw [Elf.header, Elf.header, Elf.getElem?_modify]
  split_ifs
  · cases e.sections[i]? <;> simp [hf]
  · rfl

theorem Elf.contents_modify (e : Elf) (hj : j < e.sections.length) (f : Section → Section)
    {g : List Byte → List Byte} (hf : ∀ s, (f s).bytes = g s.bytes) (i : Nat) :
    (e.modify j f).contents i = if j = i then g (e.contents i) else e.contents i := by
  rw [Elf.contents, Elf.contents, Elf.getElem?_modify]
  split_ifs with h
  · subst h
    rw [List.getElem?_eq_getElem hj]
    simp [hf]
  · rfl

theorem Elf.symbols_modify (e : Elf) (hj : j < e.sections.length) (f : Section → Section)
    {g : List Sym → List Sym} (hf : ∀ s, (f s).syms = g s.syms) (i : Nat) :
    (e.modify j f).symbols i = if j = i then g (e.symbols i) else e.symbols i := by
  rw [Elf.symbols, Elf.symbols, Elf.getElem?_modify]
  split_ifs with h
  · subst h
    rw [List.getElem?_eq_getElem hj]
    simp [hf]
  · rfl

theorem Elf.relocs_modify (e : Elf) (hj : j < e.sections.length) (f : Section → Section)
    {g : List Rel → List Rel} (hf : ∀ s, (f s).rels = g s.rels) (i : Nat) :
    (e.modify j f).relocs i = if j = i then g (e.relocs i) else e.relocs i := by
  rw [Elf.relocs, Elf.relocs, Elf.getElem?_modify]
  split_ifs with h
  · subst h
    rw [List.getElem?_eq_getElem hj]
    simp [hf]
  · rfl

theorem Elf.contents_modify_of_eq (e : Elf) (j : Nat) (hf : ∀ s, (f s).bytes = s.bytes) (i : Nat) :
    (e.modify j f).contents i = e.contents i := by
  rw [Elf.contents, Elf.contents, Elf.getElem?_modify]
  split_ifs
  · cases e.sections[i]? <;> simp [hf]
  · rfl

theorem Elf.symbols_modify_of_eq (e : Elf) (j : Nat) (hf : ∀ s, (f s).syms = s.syms) (i : Nat) :
    (e.modify j f).symbols i = e.symbols i := by
  rw [Elf.symbols, Elf.symbols, Elf.getElem?_modify]
  split_ifs
  · cases e.sections[i]? <;> simp [hf]
  · rfl

theorem Elf.relocs_modify_of_eq (e : Elf) (j : Nat) (hf : ∀ s, (f s).rels = s.rels) (i : Nat) :
    (e.modify j f).relocs i = e.relocs i := by
  rw [Elf.relocs, Elf.relocs, Elf.getElem?_modify]
  split_ifs
  · cases e.sections[i]? <;> simp [hf]
  · rfl

def Elf.addSection (e : Elf) (s : Section) : Elf := { e with sections := e.sections ++ [s] }

theorem Elf.getElem?_addSection (e : Elf) (s : Section) (i : Nat) :
    (e.addSection s).sections[i]? = if i = e.sections.length then some s else e.sections[i]? := by
  rw [Elf.addSection, List.getElem?_append]
  split_ifs with h1 h2 h2
  · omega
  · rfl
  · simp [h2]
  · rw [List.getElem?_eq_none (by simp; omega), List.getElem?_eq_none (by omega)]

end Parts

section Strings

/-- There is a string at the offset, with the null byte at its end. -/
def StringIn (bytes : List Byte) (offset : Nat) : Prop := 0 ∈ bytes.drop offset

variable {bytes : List Byte} {offset : Nat}

theorem StringIn.lt (h : StringIn bytes offset) : offset < bytes.length := by
  by_contra hlt
  rw [StringIn, List.drop_eq_nil_of_le (by omega)] at h
  cases h

theorem StringIn.mono {bytes' : List Byte} (h : StringIn bytes offset) (hb : bytes <+: bytes') :
    StringIn bytes' offset :=
  (hb.drop offset).subset h

theorem takeWhile_append_of_mem {l l' : List Byte} (h : 0 ∈ l) :
    (l ++ l').takeWhile (· ≠ 0) = l.takeWhile (· ≠ 0) := by
  induction l with
  | nil => cases h
  | cons b l ih =>
    by_cases hb : b = 0
    · simp [hb]
    · have hl : 0 ∈ l := by
        rcases List.mem_cons.mp h with h | h
        · exact absurd h.symm hb
        · exact h
      rw [List.cons_append, List.takeWhile_cons_of_pos (by simpa using hb),
        List.takeWhile_cons_of_pos (by simpa using hb), ih hl]

theorem StringIn.stringAt_mono {bytes' : List Byte} (h : StringIn bytes offset)
    (hb : bytes <+: bytes') : stringAt bytes' offset = stringAt bytes offset := by
  obtain ⟨rest, hrest⟩ := hb.drop offset
  rw [stringAt, stringAt, ← hrest, takeWhile_append_of_mem h]

theorem stringAt_append {rest : List Byte} {str : CString} (hstr : 0 ∉ str) :
    stringAt (bytes ++ (str ++ 0 :: rest)) bytes.length = str := by
  have hne : ∀ b ∈ str, (decide (b ≠ 0)) = true := by
    intro b hb
    rw [decide_eq_true_eq]
    rintro rfl
    exact hstr hb
  rw [stringAt, List.drop_left, List.takeWhile_append_of_pos hne]
  simp

end Strings

section Layouts

/-- The numbers of the sections with symbols and with their names, and the form of relocations. -/
structure Layout where
  symtab : Nat
  strtab : Nat
  relType : SectionType

structure Elf.Shape (l : Layout) (e : Elf) : Prop where
  pos : 0 < l.symtab
  symtab : ∃ h, e.header l.symtab = some h ∧ h.type = .symtab ∧ h.link = l.strtab ∧
    StringIn (e.contents e.shstrndx) h.name ∧
    stringAt (e.contents e.shstrndx) h.name = cstring ".symtab"
  first : ∀ i h, 0 < i → i < l.symtab → e.header i = some h → h.type ≠ .symtab
  strtab : ∃ h, e.header l.strtab = some h ∧ h.type = .strtab
  shstrtab : ∃ h, e.header e.shstrndx = some h ∧ h.type = .strtab
  names : ∀ i h, 0 < i → e.header i = some h → h.name < (e.contents e.shstrndx).length
  form : isRelocation l.relType = true
  relocations : ∀ i h, e.header i = some h → isRelocation h.type = true →
    h.type = l.relType ∧ h.link = l.symtab ∧ 0 < h.addralign ∧ h.addralign ∣ h.entsize ∧
      h.info < e.sections.length
  bounds : ∀ i h, e.header i = some h → isRelocation h.type = true →
    ∀ rel ∈ e.relocs i, rel.offset < (e.contents h.info).length

def Elf.Named (l : Layout) (e : Elf) : Prop :=
  ∀ sym ∈ e.symbols l.symtab, StringIn (e.contents l.strtab) sym.name

def Elf.symName (l : Layout) (e : Elf) (sym : Sym) : CString :=
  stringAt (e.contents l.strtab) sym.name

def Elf.symNames (l : Layout) (e : Elf) : List CString :=
  (e.symbols l.symtab).map (e.symName l)

/-- Headers stay, contents and relocations get longer. -/
structure Elf.Grows (e e' : Elf) : Prop where
  is32 : e'.is32 = e.is32
  shstrndx : e'.shstrndx = e.shstrndx
  length : e.sections.length ≤ e'.sections.length
  header : ∀ i h, e.header i = some h → e'.header i = some h
  contents : ∀ i, e.contents i <+: e'.contents i
  relocs : ∀ i, e.relocs i <+: e'.relocs i

theorem Elf.Grows.refl (e : Elf) : e.Grows e :=
  ⟨rfl, rfl, Nat.le_refl _, fun _ _ h => h, fun _ => List.prefix_refl _, fun _ =>
    List.prefix_refl _⟩

variable {e e' : Elf}

theorem Elf.Grows.trans {e'' : Elf} (h : e.Grows e') (h' : e'.Grows e'') : e.Grows e'' :=
  ⟨h'.is32.trans h.is32, h'.shstrndx.trans h.shstrndx, Nat.le_trans h.length h'.length,
    fun i hd hi => h'.header i hd (h.header i hd hi), fun i => (h.contents i).trans (h'.contents i),
    fun i => (h.relocs i).trans (h'.relocs i)⟩

theorem Elf.Grows.length_contents (h : e.Grows e') (i : Nat) :
    (e.contents i).length ≤ (e'.contents i).length :=
  (h.contents i).length_le

/-- New relocations belong to new contents. -/
def Elf.Fresh (e e' : Elf) : Prop :=
  ∀ i h new, e'.header i = some h → e'.relocs i = e.relocs i ++ new →
    ∀ rel ∈ new, (e.contents h.info).length ≤ rel.offset

theorem Elf.fresh_of_relocs (h : ∀ i, e'.relocs i = e.relocs i) : e.Fresh e' := by
  intro i hd new _ hnew rel hrel
  rw [h i] at hnew
  rw [List.self_eq_append_right.mp hnew] at hrel
  cases hrel

theorem Elf.Fresh.trans {e'' : Elf} (h : e.Fresh e') (h' : e'.Fresh e'') (hg : e.Grows e')
    (hg' : e'.Grows e'') : e.Fresh e'' := by
  intro i hd new hi hnew rel hrel
  obtain ⟨added, hadded⟩ := hg.relocs i
  obtain ⟨added', hadded'⟩ := hg'.relocs i
  have hsplit : new = added ++ added' := by
    rw [← hadded', ← hadded, List.append_assoc] at hnew
    exact (List.append_cancel_left hnew).symm
  rw [hsplit] at hrel
  rcases List.mem_append.mp hrel with hrel | hrel
  · cases hhead : e'.header i with
    | none =>
      rw [Elf.relocs_of_header_none hhead] at hadded
      rw [(List.append_eq_nil_iff.mp hadded).2] at hrel
      cases hrel
    | some hd' =>
      have hsame := hg'.header i hd' hhead
      rw [hi] at hsame
      cases hsame
      exact h i hd added hhead hadded.symm rel hrel
  · have hlater := h' i hd added' hi hadded'.symm rel hrel
    have hlength := hg.length_contents hd.info
    omega

variable {l : Layout}

theorem Elf.Shape.of_grows (hs : e.Shape l) (hg : e.Grows e')
    (hlength : e'.sections.length = e.sections.length)
    (hrelocs : ∀ i h, e'.header i = some h → isRelocation h.type = true →
      ∀ rel ∈ e'.relocs i, rel ∈ e.relocs i ∨ rel.offset < (e'.contents h.info).length) :
    e'.Shape l := by
  have hback : ∀ i h, e'.header i = some h → e.header i = some h := by
    intro i h hi
    have hlt := Elf.lt_length_of_header hi
    rw [hlength] at hlt
    obtain ⟨h', hh'⟩ := Elf.header_of_lt hlt
    have hsame := hg.header i h' hh'
    rw [hi] at hsame
    cases hsame
    exact hh'
  obtain ⟨h, hh, htype, hlink, hin, hname⟩ := hs.symtab
  obtain ⟨hstr, hhstr, hstrType⟩ := hs.strtab
  obtain ⟨hsh, hhsh, hshType⟩ := hs.shstrtab
  refine ⟨hs.pos, ⟨h, hg.header _ _ hh, htype, hlink, ?_, ?_⟩, ?_,
    ⟨hstr, hg.header _ _ hhstr, hstrType⟩, ⟨hsh, ?_, hshType⟩, ?_, hs.form, ?_, ?_⟩
  · rw [hg.shstrndx]
    exact hin.mono (hg.contents _)
  · rw [hg.shstrndx, hin.stringAt_mono (hg.contents _), hname]
  · exact fun i h hpos hlt hi => hs.first i h hpos hlt (hback i h hi)
  · rw [hg.shstrndx]
    exact hg.header _ _ hhsh
  · intro i h hpos hi
    rw [hg.shstrndx]
    exact Nat.lt_of_lt_of_le (hs.names i h hpos (hback i h hi)) (hg.length_contents _)
  · intro i h hi hrel
    rw [hlength]
    exact hs.relocations i h (hback i h hi) hrel
  · intro i h hi hrel rel hmem
    rcases hrelocs i h hi hrel rel hmem with hmem | hlt
    · exact Nat.lt_of_lt_of_le (hs.bounds i h (hback i h hi) hrel rel hmem) (hg.length_contents _)
    · exact hlt

theorem Elf.Named.symName_eq (hn : e.Named l) (hg : e.Grows e') {sym : Sym}
    (hsym : sym ∈ e.symbols l.symtab) : e'.symName l sym = e.symName l sym :=
  (hn sym hsym).stringAt_mono (hg.contents _)

end Layouts

section Reading

variable {l : Layout}

/-- The search gives the first section with the property. -/
theorem Elf.firstSection_spec (e : Elf) (test : Section → Except Error Bool) (p : Section → Bool)
    (h : ∀ i s, 0 < i → e.sections[i]? = some s → test s = .ok (p s)) :
    ∃ found, e.firstSection test = .ok found ∧
      (∀ i, found = some i → 0 < i ∧ ∃ s, e.sections[i]? = some s ∧ p s = true ∧
        ∀ j s', 0 < j → j < i → e.sections[j]? = some s' → p s' = false) ∧
      (found = none → ∀ i s, 0 < i → e.sections[i]? = some s → p s = false) := by
  have htail : ∀ s ∈ e.sections.tail, test s = .ok (p s) := by
    intro s hs
    obtain ⟨i, hi, rfl⟩ := List.mem_iff_getElem.mp hs
    refine h (i + 1) _ (Nat.succ_pos i) ?_
    rw [← List.getElem?_tail, List.getElem?_eq_getElem hi]
  refine ⟨_, by rw [Elf.firstSection, firstIndex_eq htail]; rfl, ?_, ?_⟩
  · intro i hi
    obtain ⟨j, hj, rfl⟩ := Option.map_eq_some_iff.mp hi
    obtain ⟨hlt, hp, hbefore⟩ := List.findIdx?_eq_some_iff_getElem.mp hj
    refine ⟨Nat.succ_pos j, e.sections.tail[j], ?_, hp, ?_⟩
    · rw [← List.getElem?_tail, List.getElem?_eq_getElem hlt]
    · intro k s' hk hkj hs'
      obtain ⟨m, rfl⟩ : ∃ m, k = m + 1 := ⟨k - 1, by omega⟩
      rw [← List.getElem?_tail] at hs'
      obtain ⟨hm, rfl⟩ := List.getElem?_eq_some_iff.mp hs'
      simpa using hbefore m (by omega)
  · intro hnone i s hi hs
    obtain ⟨m, rfl⟩ : ∃ m, i = m + 1 := ⟨i - 1, by omega⟩
    rw [← List.getElem?_tail] at hs
    have hall := List.findIdx?_eq_none_iff.mp (Option.map_eq_none_iff.mp hnone)
    exact hall s (List.mem_of_getElem? hs)

variable {e : Elf}

theorem Elf.strptr_eq {i offset : Nat} {h : Shdr} (hi : e.header i = some h)
    (htype : h.type = .strtab) (hlt : offset < (e.contents i).length) :
    e.strptr i offset = .ok (stringAt (e.contents i) offset) := by
  rw [Elf.strptr, (Elf.getscn_of_header hi).1]
  simp only [bind, Except.bind, htype, hlt, and_self, if_true]
  rfl

theorem Elf.Shape.sectionName (hs : e.Shape l) {i : Nat} {s : Section} (hpos : 0 < i)
    (hi : e.sections[i]? = some s) :
    e.strptr e.shstrndx s.shdr.name = .ok (stringAt (e.contents e.shstrndx) s.shdr.name) := by
  obtain ⟨h, hh, htype⟩ := hs.shstrtab
  refine Elf.strptr_eq hh htype (hs.names i s.shdr hpos ?_)
  rw [Elf.header, hi, Option.map_some]

theorem Elf.Shape.findSection_spec (hs : e.Shape l) (name : CString) :
    ∃ found, e.findSection name = .ok found ∧
      ∀ i, found = some i → 0 < i ∧ ∃ h, e.header i = some h := by
  obtain ⟨found, hfound, hsome, -⟩ := e.firstSection_spec
    (fun s => do
      let sectionName ← e.strptr e.shstrndx s.shdr.name
      return decide (sectionName = name))
    (fun s => stringAt (e.contents e.shstrndx) s.shdr.name = name)
    (fun i s hpos hi => by rw [hs.sectionName hpos hi]; rfl)
  refine ⟨found, hfound, fun i hi => ?_⟩
  obtain ⟨hpos, s, hsec, -⟩ := hsome i hi
  exact ⟨hpos, s.shdr, by rw [Elf.header, hsec, Option.map_some]⟩

theorem Elf.Shape.getSymbolsSection_eq (hs : e.Shape l) : e.getSymbolsSection = .ok l.symtab := by
  obtain ⟨h, hh, htype, -, hin, hname⟩ := hs.symtab
  obtain ⟨hsh, hhsh, hshType⟩ := hs.shstrtab
  obtain ⟨found, hfound, hsome, hnone⟩ := e.firstSection_spec
    (fun s => .ok (decide (s.shdr.type = .symtab))) (fun s => s.shdr.type = .symtab)
    (fun _ _ _ _ => rfl)
  obtain ⟨hget, hsec⟩ := Elf.getscn_of_header hh
  have hthis : found = some l.symtab := by
    cases found with
    | none => simpa [htype] using hnone rfl _ _ hs.pos hsec
    | some i =>
      obtain ⟨hpos, s, hi, hp, hbefore⟩ := hsome i rfl
      have hle : ¬ l.symtab < i := by
        intro hlt
        simpa [htype] using hbefore _ _ hs.pos hlt hsec
      have hge : ¬ i < l.symtab := by
        intro hlt
        refine hs.first i s.shdr hpos hlt ?_ (by simpa using hp)
        rw [Elf.header, hi, Option.map_some]
      rw [show i = l.symtab by omega]
  rw [Elf.getSymbolsSection, hfound, hthis]
  simp only [bind, Except.bind, hget, Elf.strptr_eq hhsh hshType hin.lt, hname, if_true]
  rfl

theorem Elf.Shape.findSymbol_eq (hs : e.Shape l) (hn : e.Named l) (name : CString) :
    e.findSymbol name = .ok ((e.symNames l).findIdx? (· = name)) := by
  obtain ⟨h, hh, -, hlink, -⟩ := hs.symtab
  obtain ⟨hstr, hhstr, hstrType⟩ := hs.strtab
  rw [Elf.findSymbol, hs.getSymbolsSection_eq]
  simp only [bind, Except.bind, (Elf.getscn_of_header hh).1, hlink]
  rw [firstIndex_eq (p := fun sym => e.symName l sym = name)]
  · rw [Elf.symNames, List.findIdx?_map]
    rfl
  · intro sym hsym
    rw [Elf.strptr_eq hhstr hstrType (hn sym hsym).lt]
    rfl

end Reading

section Extension

variable {l : Layout}

/-- The file has got symbols and bytes, but no relocations. -/
structure Elf.Adds (l : Layout) (e e' : Elf) (added : List Sym) : Prop where
  grows : e.Grows e'
  shape : e'.Shape l
  relocs : ∀ i, e'.relocs i = e.relocs i
  symbols : e'.symbols l.symtab = e.symbols l.symtab ++ added

variable {e : Elf}

theorem Elf.Adds.trans {e' e'' : Elf} {added added' : List Sym} (h : e.Adds l e' added)
    (h' : e'.Adds l e'' added') : e.Adds l e'' (added ++ added') :=
  ⟨h.grows.trans h'.grows, h'.shape, fun i => (h'.relocs i).trans (h.relocs i), by
    rw [h'.symbols, h.symbols, List.append_assoc]⟩

theorem Elf.Adds.fresh {e' : Elf} {added : List Sym} (h : e.Adds l e' added) : e.Fresh e' :=
  Elf.fresh_of_relocs h.relocs

theorem Elf.Shape.modify (hs : e.Shape l) (i : Nat) {f : Section → Section}
    (hheader : ∀ s, (f s).shdr = s.shdr) (hbytes : ∀ s, s.bytes <+: (f s).bytes)
    (hrels : ∀ s, (f s).rels = s.rels) :
    e.Grows (e.modify i f) ∧ (e.modify i f).Shape l ∧
      ∀ j, (e.modify i f).relocs j = e.relocs j := by
  have hrelocs := Elf.relocs_modify_of_eq e i hrels
  have hgrows : e.Grows (e.modify i f) := by
    refine ⟨rfl, rfl, by rw [Elf.length_modify], fun j h hj => ?_, fun j => ?_, fun j => ?_⟩
    · rw [Elf.header_modify e i hheader, hj]
    · rw [Elf.contents, Elf.contents, Elf.getElem?_modify]
      split_ifs
      · cases e.sections[j]? <;> simp [hbytes]
      · exact List.prefix_refl _
    · rw [hrelocs]
  refine ⟨hgrows, hs.of_grows hgrows (Elf.length_modify _ _ _) ?_, hrelocs⟩
  intro j h _ _ rel hrel
  rw [hrelocs] at hrel
  exact .inl hrel

theorem Elf.Shape.adds_symbol (hs : e.Shape l) (sym : Sym) :
    e.Adds l (e.modify l.symtab fun s => { s with syms := s.syms ++ [sym] }) [sym] := by
  obtain ⟨h, hh, -⟩ := hs.symtab
  obtain ⟨hgrows, hshape, hrelocs⟩ :=
    hs.modify l.symtab (f := fun s => { s with syms := s.syms ++ [sym] }) (fun _ => rfl)
      (fun s => List.prefix_refl _) (fun _ => rfl)
  refine ⟨hgrows, hshape, hrelocs, ?_⟩
  rw [Elf.symbols_modify e (Elf.lt_length_of_header hh) _ (g := (· ++ [sym])) (fun _ => rfl),
    if_pos rfl]

theorem Elf.Shape.adds_section (hs : e.Shape l) {h : Shdr}
    (hname : h.name < (e.contents e.shstrndx).length)
    (hrel : isRelocation h.type = true → h.type = l.relType ∧ h.link = l.symtab ∧
      0 < h.addralign ∧ h.addralign ∣ h.entsize ∧ h.info < e.sections.length) :
    e.Adds l (e.addSection ⟨h, [], [], []⟩) [] ∧
      (e.addSection ⟨h, [], [], []⟩).header e.sections.length = some h := by
  have hget := Elf.getElem?_addSection e ⟨h, [], [], []⟩
  have hold : ∀ i, i ≠ e.sections.length →
      (e.addSection ⟨h, [], [], []⟩).sections[i]? = e.sections[i]? := fun i hi => by
    rw [hget, if_neg hi]
  have hnew : e.sections[e.sections.length]? = none := List.getElem?_eq_none (Nat.le_refl _)
  have hcontents : ∀ i, (e.addSection ⟨h, [], [], []⟩).contents i = e.contents i := by
    intro i
    by_cases hi : i = e.sections.length
    · rw [Elf.contents, Elf.contents, hget, if_pos hi, hi, hnew]
      rfl
    · rw [Elf.contents, Elf.contents, hold i hi]
  have hrelocs : ∀ i, (e.addSection ⟨h, [], [], []⟩).relocs i = e.relocs i := by
    intro i
    by_cases hi : i = e.sections.length
    · rw [Elf.relocs, Elf.relocs, hget, if_pos hi, hi, hnew]
      rfl
    · rw [Elf.relocs, Elf.relocs, hold i hi]
  have hheader : ∀ i, (e.addSection ⟨h, [], [], []⟩).header i =
      if i = e.sections.length then some h else e.header i := by
    intro i
    rw [Elf.header, hget]
    split_ifs <;> rfl
  have hgrows : e.Grows (e.addSection ⟨h, [], [], []⟩) := by
    refine ⟨rfl, rfl, by simp [Elf.addSection], fun i hd hi => ?_, fun i => ?_, fun i => ?_⟩
    · rw [hheader, if_neg (Nat.ne_of_lt (Elf.lt_length_of_header hi)), hi]
    · rw [hcontents]
    · rw [hrelocs]
  have hback : ∀ i hd, i ≠ e.sections.length →
      (e.addSection ⟨h, [], [], []⟩).header i = some hd → e.header i = some hd := by
    intro i hd hi hheader'
    rwa [hheader, if_neg hi] at hheader'
  obtain ⟨hsym, hhsym, htype, hlink, hin, hstring⟩ := hs.symtab
  obtain ⟨hstr, hhstr, hstrType⟩ := hs.strtab
  obtain ⟨hsh, hhsh, hshType⟩ := hs.shstrtab
  refine ⟨⟨hgrows, ⟨hs.pos, ⟨hsym, hgrows.header _ _ hhsym, htype, hlink, ?_, ?_⟩, ?_,
    ⟨hstr, hgrows.header _ _ hhstr, hstrType⟩, ⟨hsh, hgrows.header _ _ hhsh, hshType⟩, ?_, hs.form,
    ?_, ?_⟩, hrelocs, ?_⟩, ?_⟩
  · rwa [hcontents]
  · rwa [hcontents]
  · intro i hd hpos hlt hi
    have hsymLt := Elf.lt_length_of_header hhsym
    exact hs.first i hd hpos hlt (hback i hd (by omega) hi)
  · intro i hd hpos hi
    rw [hcontents]
    by_cases hlast : i = e.sections.length
    · rw [hheader, if_pos hlast] at hi
      cases hi
      exact hname
    · exact hs.names i hd hpos (hback i hd hlast hi)
  · intro i hd hi hreloc
    have hlength := hgrows.length
    by_cases hlast : i = e.sections.length
    · rw [hheader, if_pos hlast] at hi
      cases hi
      obtain ⟨h1, h2, h3, h4, h5⟩ := hrel hreloc
      exact ⟨h1, h2, h3, h4, by omega⟩
    · obtain ⟨h1, h2, h3, h4, h5⟩ := hs.relocations i hd (hback i hd hlast hi) hreloc
      exact ⟨h1, h2, h3, h4, by omega⟩
  · intro i hd hi hreloc rel hmem
    rw [hrelocs] at hmem
    rw [hcontents]
    by_cases hlast : i = e.sections.length
    · rw [hlast, Elf.relocs, hnew] at hmem
      cases hmem
    · exact hs.bounds i hd (hback i hd hlast hi) hreloc rel hmem
  · rw [Elf.symbols, Elf.symbols, hold l.symtab (Nat.ne_of_lt (Elf.lt_length_of_header hhsym)),
      List.append_nil]
  · rw [hheader, if_pos rfl]

end Extension

end BinaryInstrument
end KedrAux
