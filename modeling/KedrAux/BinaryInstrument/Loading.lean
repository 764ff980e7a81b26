import KedrAux.BinaryInstrument.Instantiation

/-!
# Loading of templates

A template has the bytes of its function and one relocation for each of those that lie in these
bytes, in their order.  The names of symbols are collected in one array, which only gets longer.
-/

namespace KedrAux
namespace BinaryInstrument

/-- The relocation of the template module lies in the code. -/
def InCode (offset size : Nat) (rel : Rel) : Bool :=
  decide (offset ≤ rel.offset) && decide (rel.offset < offset + size)

/-- The relocation of the template that stands for one of the template module. -/
structure Taken (e : Elf) (relType : SectionType) (offset size symbolSectionIndex : Nat)
    (symbols : List CString) (rel : Rel) (src : CodeTemplateRel) : Prop where
  offset : src.offset + offset = rel.offset
  inside : src.offset < size
  type : src.type = rType e.is32 rel.info
  addend : src.addend = if relType = .rela then rel.addend else 0
  symbol : ∃ s sym, e.getscn symbolSectionIndex = .ok s ∧ s.syms[rSym e.is32 rel.info]? = some sym ∧
    (sym.info % 2 ^ 4 ≠ sttSection → ∃ name, e.strptr s.shdr.link sym.name = .ok name ∧
      symbols[src.symbol]? = some name)

variable {e : Elf} {offset size symbolSectionIndex : Nat} {template template' : CodeTemplate}

theorem Taken.mono {relType : SectionType} {symbols symbols' : List CString} {rel : Rel}
    {src : CodeTemplateRel} (h : Taken e relType offset size symbolSectionIndex symbols rel src)
    (hs : symbols <+: symbols') :
    Taken e relType offset size symbolSectionIndex symbols' rel src := by
  obtain ⟨s, sym, hget, hsym, hname⟩ := h.symbol
  refine ⟨h.offset, h.inside, h.type, h.addend, s, sym, hget, hsym, fun hsection => ?_⟩
  obtain ⟨name, hstr, hfound⟩ := hname hsection
  obtain ⟨rest, rfl⟩ := hs
  refine ⟨name, hstr, ?_⟩
  rw [List.getElem?_append_left (List.getElem?_eq_some_iff.mp hfound).1, hfound]

theorem stringArrayAddStringUnique_spec (array : List CString) (str : CString) :
    array <+: (stringArrayAddStringUnique array str).1 ∧
      (stringArrayAddStringUnique array str).1[(stringArrayAddStringUnique array str).2]? =
        some str := by
  rw [stringArrayAddStringUnique]
  cases hfound : array.idxOf? str with
  | none => exact ⟨List.prefix_append _ _, by simp⟩
  | some i =>
    obtain ⟨hlt, heq, -⟩ := List.findIdx?_eq_some_iff_getElem.mp hfound
    refine ⟨List.prefix_refl _, ?_⟩
    rw [List.getElem?_eq_getElem hlt]
    exact congrArg some (by simpa using heq)

theorem ctAddSym_spec {symbolIndex symbol : Nat}
    (h : ctAddSym template e symbolIndex symbolSectionIndex = .ok (template', symbol)) :
    ∃ symbols s sym, template' = { template with symbols } ∧ template.symbols <+: symbols ∧
      e.getscn symbolSectionIndex = .ok s ∧ s.syms[symbolIndex]? = some sym ∧
      (sym.info % 2 ^ 4 ≠ sttSection → ∃ name, e.strptr s.shdr.link sym.name = .ok name ∧
        symbols[symbol]? = some name) := by
  rw [ctAddSym] at h
  cases hget : e.getscn symbolSectionIndex with
  | error err => simp [hget, bind, Except.bind] at h
  | ok s =>
    simp only [hget, bind, Except.bind] at h
    by_cases htype : s.shdr.type ≠ .symtab
    · rw [if_pos htype] at h
      cases h
    rw [if_neg htype] at h
    cases hsym : s.syms[symbolIndex]? with
    | none => simp [hsym] at h
    | some sym =>
      simp only [hsym] at h
      by_cases hsection : sym.info % 2 ^ 4 = sttSection
      · -- symbols of sections have no names in the array
        rw [if_pos hsection] at h
        split_ifs at h
        cases h
        exact ⟨template.symbols, s, sym, rfl, List.prefix_refl _, rfl, hsym,
          fun hno => absurd hsection hno⟩
      · rw [if_neg hsection] at h
        cases hstr : e.strptr s.shdr.link sym.name with
        | error err => simp [hstr] at h
        | ok name =>
          simp only [hstr, pure, Except.pure, Except.ok.injEq, Prod.mk.injEq] at h
          obtain ⟨rfl, rfl⟩ := h
          obtain ⟨hgrown, hfound⟩ :=
            stringArrayAddStringUnique_spec template.symbols name
          exact ⟨_, s, sym, rfl, hgrown, rfl, hsym, fun _ => ⟨name, hstr, hfound⟩⟩

theorem ctAddRel_spec {info : Nat} {addend : Int}
    (h : ctAddRel template e offset info addend symbolSectionIndex = .ok template') :
    ∃ symbols symbol s sym, template' = { template with
        symbols
        relocations := template.relocations ++ [⟨offset, rType e.is32 info, symbol, addend⟩] } ∧
      template.symbols <+: symbols ∧ e.getscn symbolSectionIndex = .ok s ∧
      s.syms[rSym e.is32 info]? = some sym ∧
      (sym.info % 2 ^ 4 ≠ sttSection → ∃ name, e.strptr s.shdr.link sym.name = .ok name ∧
        symbols[symbol]? = some name) := by
  rw [ctAddRel] at h
  cases hadd : ctAddSym template e (rSym e.is32 info) symbolSectionIndex with
  | error err => simp [hadd, bind, Except.bind] at h
  | ok result =>
    obtain ⟨added, symbol⟩ := result
    obtain ⟨symbols, s, sym, rfl, hgrown, hget, hsym, hname⟩ := ctAddSym_spec hadd
    simp only [hadd, bind, Except.bind] at h
    split_ifs at h
    cases h
    exact ⟨symbols, symbol, s, sym, rfl, hgrown, hget, hsym, hname⟩

theorem ctAddRels_spec (rels : List Rel)
    (h : ctAddRels e offset size symbolSectionIndex rels template = .ok template') :
    ∃ symbols new, template' = { template with
        symbols
        relocations := template.relocations ++ new } ∧
      template.symbols <+: symbols ∧
      List.Forall₂ (Taken e template.relType offset size symbolSectionIndex symbols)
        (rels.filter (InCode offset size)) new := by
  induction rels generalizing template with
  | nil =>
    rw [ctAddRels, Except.ok.injEq] at h
    subst h
    exact ⟨template.symbols, [], by simp, List.prefix_refl _, .nil⟩
  | cons rel rels ih =>
    rw [ctAddRels] at h
    by_cases hout : rel.offset < offset ∨ offset + size ≤ rel.offset
    · have hskip : InCode offset size rel = false := by
        rw [InCode]
        rcases hout with hlow | hhigh
        · simp [Nat.not_le.mpr hlow]
        · simp [Nat.not_lt.mpr hhigh]
      rw [if_pos hout] at h
      rw [List.filter_cons_of_neg (by rw [hskip]; exact Bool.false_ne_true)]
      exact ih h
    · rw [if_neg hout] at h
      rw [not_or, Nat.not_lt, Nat.not_le] at hout
      have htake : InCode offset size rel = true := by
        rw [InCode, decide_eq_true hout.1, decide_eq_true hout.2]
        rfl
      dsimp only [bind, Except.bind] at h
      cases hadd : ctAddRel template e (rel.offset - offset) rel.info
          (if template.relType = .rela then rel.addend else 0) symbolSectionIndex with
      | error err => simp [hadd] at h
      | ok added =>
        obtain ⟨symbols1, symbol, s, sym, rfl, hgrown1, hget, hsym, hname⟩ :=
          ctAddRel_spec hadd
        rw [hadd] at h
        obtain ⟨symbols, new, rfl, hgrown, hall⟩ := ih h
        refine ⟨symbols, ⟨rel.offset - offset, rType e.is32 rel.info, symbol,
          if template.relType = .rela then rel.addend else 0⟩ :: new, ?_,
          hgrown1.trans hgrown, ?_⟩
        · dsimp only
          rw [List.append_assoc, List.singleton_append]
        rw [List.filter_cons_of_pos htake]
        have hfirst : Taken e template.relType offset size symbolSectionIndex symbols1 rel
            ⟨rel.offset - offset, rType e.is32 rel.info, symbol,
              if template.relType = .rela then rel.addend else 0⟩ :=
          ⟨Nat.sub_add_cancel hout.1, by dsimp only; omega, rfl, rfl, s, sym, hget, hsym, hname⟩
        exact .cons (hfirst.mono hgrown) hall

/-- What a loaded template has from its section and the relocations. -/
theorem ctLoad_spec {scn align : Nat} (h : ctLoad e scn offset size align = .ok template) :
    ∃ s, e.getscn scn = .ok s ∧ template.code = (s.bytes.drop offset).take size ∧
      template.code.length = size ∧ template.align = align ∧ template.is32 = e.is32 ∧
      ((e.findRelocationSection scn = .ok none ∧ template.relocations = []) ∨
        ∃ i r, e.findRelocationSection scn = .ok (some i) ∧ e.getscn i = .ok r ∧
          template.relType = r.shdr.type ∧
          List.Forall₂ (Taken e r.shdr.type offset size r.shdr.link template.symbols)
            (r.rels.filter (InCode offset size)) template.relocations) := by
  rw [ctLoad] at h
  cases hget : e.getscn scn with
  | error err => simp [hget, bind, Except.bind] at h
  | ok s =>
    simp only [hget, bind, Except.bind] at h
    split_ifs at h with hbounds
    rw [not_or, Nat.not_le, Nat.not_lt] at hbounds
    have hlength : ((s.bytes.drop offset).take size).length = size := by
      rw [List.length_take, List.length_drop]
      omega
    cases hfound : e.findRelocationSection scn with
    | error err => simp [hfound] at h
    | ok found =>
      simp only [hfound] at h
      cases found with
      | none =>
        cases h
        exact ⟨s, rfl, rfl, hlength, rfl, rfl, .inl ⟨rfl, rfl⟩⟩
      | some i =>
        cases hr : e.getscn i with
        | error err => simp [hr] at h
        | ok r =>
          simp only [hr] at h
          obtain ⟨symbols, new, rfl, -, hall⟩ := ctAddRels_spec r.rels h
          exact ⟨s, rfl, rfl, hlength, rfl, rfl, .inr ⟨i, r, rfl, hr, rfl, hall⟩⟩

end BinaryInstrument
end KedrAux
