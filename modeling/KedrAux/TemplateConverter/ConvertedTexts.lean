import KedrAux.Lib.LimitedParser
import KedrAux.TemplateConverter.Jinja
import Mathlib.Data.List.Chain

/-!
# Texts of converted templates

The file that is written for a tree is read by jinja2 item by item: characters of texts, constants
for the replaced signs, variables and blocks.  Every item is read as it was meant when no two
neighbours form an opening delimiter.
-/

namespace KedrAux
namespace TemplateConverter

open LimitedParser

section Meaning

/-- Texts, simple references to parameters and conditions on parameters. -/
inductive Simple : List ASTElem → Prop where
  | nil : Simple []
  | text
      {elems : List ASTElem}
      (position : Position)
      (value text : CString)
      (helems : Simple elems) :
      Simple (.text position value text :: elems)
  | ref
      {elems : List ASTElem}
      (paramName : CString)
      (position : Position)
      (value : CString)
      (joinStr : Option CString)
      (helems : Simple elems) :
      Simple (.ref (.paramRef paramName position value) false joinStr :: elems)
  | ifEndif
      {elems ifSequence : List ASTElem}
      (paramName : CString)
      (position : Position)
      (value : CString)
      (hif : Simple ifSequence)
      (helems : Simple elems) :
      Simple (.ifEndif (.paramRef paramName position value) false ifSequence :: elems)
  | ifElse
      {elems ifSequence elseSequence : List ASTElem}
      (paramName : CString)
      (position : Position)
      (value : CString)
      (hif : Simple ifSequence)
      (helse : Simple elseSequence)
      (helems : Simple elems) :
      Simple (.ifElse (.paramRef paramName position value) false ifSequence elseSequence :: elems)

variable (methods : Methods)

def ElemRef.written (elemRef : ElemRef) : CString := relName methods elemRef.getBaseContext

mutual

def selectedElem (values : CString → Value) : ASTElem → CString
  | .text _ _ text => text
  | .ref elemRef _ _ => (values (elemRef.written methods)).text
  | .ifEndif elemRef _ ifSequence =>
    if (values (elemRef.written methods)).holds then selected values ifSequence else []
  | .ifElse elemRef _ ifSequence elseSequence =>
    if (values (elemRef.written methods)).holds then selected values ifSequence
    else selected values elseSequence

def selected (values : CString → Value) : List ASTElem → CString
  | [] => []
  | elem :: elems => selectedElem values elem ++ selected values elems

end

/-- The stored template gives the texts and values of the selected branches. -/
def TextsSurvive
    (joinContext : CString)
    (render : (CString → Value) → CString → Option CString)
    (elems : List ASTElem) : Prop :=
  ∀ values, ∃ file,
    store methods joinContext elems = .ok file ∧
    render values file = some (selected methods values elems)

end Meaning

section Items

def Part.item : Part → Item
  | plain c => .char c
  | special group => .output (.literal group)

variable (methods : Methods)

mutual

def elemItems : ASTElem → List Item
  | .text _ _ text => (parts text).map Part.item
  | .ref elemRef _ _ => [.output (.name (elemRef.written methods))]
  | .ifEndif elemRef _ ifSequence =>
    .ifBegin (elemRef.written methods) :: (items ifSequence ++ [.endifMark])
  | .ifElse elemRef _ ifSequence elseSequence =>
    .ifBegin (elemRef.written methods) ::
      (items ifSequence ++ .elseMark :: (items elseSequence ++ [.endifMark]))

def items : List ASTElem → List Item
  | [] => []
  | elem :: elems => elemItems elem ++ items elems

end

def Item.written : Item → CString
  | char c => [c]
  | output (.name name) => ['{', '{'] ++ name ++ ['}', '}']
  | output (.literal s) => converter s
  | ifBegin name => ['<', '$', 'i', 'f', ' '] ++ name ++ ['$', '>']
  | elseMark => ['<', '$', 'e', 'l', 's', 'e', '$', '>']
  | endifMark => ['<', '$', 'e', 'n', 'd', 'i', 'f', '$', '>']

def Item.isBlock : Item → Bool
  | char _ => false
  | output _ => false
  | _ => true

/-- The two characters begin a block, a comment or a variable. -/
def opens (c d : Char) : Bool :=
  (c = '<' && (d = '$' || d = '#')) || (c = '{' && d = '{')

/-- A character of a text does not form a delimiter with what is written after it. -/
def Apart : Item → Item → Prop
  | .char c, next => ∀ d ∈ next.written.head?, opens c d = false
  | _, _ => True

/-- Names are names for jinja2, too, and lines end with newlines only. -/
def Item.Plain : Item → Prop
  | char c => isOtherLineEnd c = false
  | output (.name name) => isVariableName name = true
  | ifBegin name => isVariableName name = true
  | _ => True

/-- The trees whose texts survive. -/
structure Clean (elems : List ASTElem) : Prop where
  plain : ∀ item ∈ items methods elems, item.Plain
  apart : (items methods elems).IsChain Apart

end Items

section Parts

@[simp] theorem parts_nil : parts [] = [] := by
  rw [parts]

theorem parts_cons (c : Char) (s : CString) :
    parts (c :: s) =
      match specialAt (c :: s) with
      | some (group, rest) => .special group :: parts rest
      | none => .plain c :: parts s := by
  rw [parts]
  split <;> simp_all

def Part.value : Part → CString
  | plain c => [c]
  | special group => group

theorem flatMap_value_parts (text : CString) : (parts text).flatMap Part.value = text := by
  induction text using parts.induct with
  | case1 => rw [parts_nil, List.flatMap_nil]
  | case2 c s group rest h ih =>
    rw [parts_cons, h, (specialAt_eq h).1]
    simp only [List.flatMap_cons, Part.value, ih]
  | case3 c s h ih =>
    rw [parts_cons, h]
    simp only [List.flatMap_cons, Part.value, ih, List.singleton_append]

variable {text : CString}

theorem special_mem_parts {group : CString} (h : .special group ∈ parts text) :
    group ∈ [['<'], ['<', '#'], ['{', '{'], ['}', '}'], ['#', '>']] := by
  induction text using parts.induct with
  | case1 =>
    rw [parts_nil] at h
    cases h
  | case2 c s group' rest hspecial ih =>
    rw [parts_cons, hspecial] at h
    rcases List.mem_cons.mp h with h | h
    · cases h
      exact (specialAt_eq hspecial).2
    · exact ih h
  | case3 c s hspecial ih =>
    rw [parts_cons, hspecial] at h
    rcases List.mem_cons.mp h with h | h
    · cases h
    · exact ih h

theorem parts_ne_nil (h : text ≠ []) : parts text ≠ [] := by
  intro hnil
  have hvalue := flatMap_value_parts text
  rw [hnil] at hvalue
  exact h hvalue.symm

end Parts

section Emission

/-- Items are written one after another. -/
def Output.emit (out : Output) (item : Item) : Output :=
  ⟨out.contents ++ (if out.newlineTrimmed && item = .char '\n' then ['\n'] else []) ++ item.written,
    item.isBlock, item = .char '\n'⟩

@[simp] theorem Item.written_ne_nil (item : Item) : item.written ≠ [] := by
  rcases item with c | e | name | _ | _
  · simp [Item.written]
  · cases e <;> simp [Item.written, converter]
  all_goals simp [Item.written]

theorem Part.written_item (part : Part) : part.item.written = part.written := by
  cases part <;> rfl

theorem Item.head_written (item : Item) : item.written.head? = some '\n' ↔ item = .char '\n' := by
  rcases item with c | e | name | _ | _
  · simp [Item.written]
  · cases e <;> simp [Item.written, converter]
  all_goals simp [Item.written]

theorem Item.getLast_written (item : Item) :
    item.written.getLast? = some '\n' ↔ item = .char '\n' := by
  rcases item with c | e | name | _ | _
  · simp [Item.written]
  · cases e <;> simp [Item.written, converter, List.getLast?_append, List.getLast?_cons]
  all_goals simp [Item.written, List.getLast?_append, List.getLast?_cons]

theorem foldl_emit_parts (ps : List Part) (p : Part) (out : Output) :
    ((p :: ps).map Part.item).foldl Output.emit out =
      ⟨out.contents ++ (if out.newlineTrimmed && p.item = .char '\n' then ['\n'] else []) ++
          (p :: ps).flatMap Part.written,
        false, (p :: ps).getLast?.any (fun p => p.item = .char '\n')⟩ := by
  induction ps generalizing p out with
  | nil =>
    have hblock : p.item.isBlock = false := by
      cases p <;> rfl
    simp [Output.emit, Part.written_item, hblock]
  | cons q ps ih =>
    have hfirst : (out.emit p.item).newlineTrimmed = false := by
      cases p <;> rfl
    rw [List.map_cons, List.foldl_cons, ih, hfirst, List.getLast?_cons_cons]
    simp only [Output.emit, Part.written_item, Bool.false_and, List.flatMap_cons,
      List.append_assoc, Bool.false_eq_true, if_false, List.nil_append]

theorem getLast?_flatMap_written (ps : List Part) (p : Part) :
    ((p :: ps).flatMap Part.written).getLast? = some '\n' ↔
      (p :: ps).getLast?.any (fun p => p.item = .char '\n') = true := by
  obtain ⟨init, last, hps⟩ : ∃ init last, p :: ps = init ++ [last] :=
    ⟨_, _, (List.dropLast_append_getLast (List.cons_ne_nil p ps)).symm⟩
  have hne : last.written ≠ [] := by
    rw [← Part.written_item]
    exact Item.written_ne_nil _
  rw [hps, List.flatMap_append, List.flatMap_singleton, List.getLast?_append_of_ne_nil _ hne,
    ← Part.written_item, Item.getLast_written, List.getLast?_concat, Option.any_some]
  simp

theorem emitText_eq (out : Output) (text : CString) :
    out.emitText text = ((parts text).map Part.item).foldl Output.emit out := by
  by_cases hnil : text = []
  · subst hnil
    rw [parts_nil]
    rfl
  · obtain ⟨p, ps, hps⟩ := List.exists_cons_of_ne_nil (parts_ne_nil hnil)
    have hhead : (escape text).head? = some '\n' ↔ p.item = .char '\n' := by
      rw [← Item.head_written, Part.written_item, escape, hps, List.flatMap_cons]
      rw [List.head?_append_of_ne_nil]
      rw [← Part.written_item]
      exact Item.written_ne_nil _
    have hlast : (escape text).getLast? = some '\n' ↔
        (p :: ps).getLast?.any (fun p => p.item = .char '\n') = true := by
      rw [escape, hps]
      exact getLast?_flatMap_written ps p
    rw [hps, foldl_emit_parts, ← hps, ← escape, Output.emitText,
      if_neg (fun h => hnil (List.eq_nil_of_length_eq_zero h))]
    cases htrimmed : out.newlineTrimmed <;> by_cases hp : p.item = .char '\n' <;>
      simp [Output.write, hhead, hlast, hp, htrimmed, hps]

end Emission

section Stored

theorem emitVariable_eq (out : Output) (name : CString) :
    out.emitVariable name = out.emit (.output (.name name)) := by
  simp [Output.emitVariable, Output.emit, Output.write, Item.written, Item.isBlock]

theorem emitBlock_ifBegin (out : Output) (name : CString) :
    out.emitBlock (['i', 'f', ' '] ++ name) = out.emit (.ifBegin name) := by
  simp [Output.emitBlock, Output.emit, Output.write, Item.written, Item.isBlock]

theorem emitBlock_elseMark (out : Output) :
    out.emitBlock ['e', 'l', 's', 'e'] = out.emit .elseMark := by
  simp [Output.emitBlock, Output.emit, Output.write, Item.written, Item.isBlock]

theorem emitBlock_endifMark (out : Output) :
    out.emitBlock ['e', 'n', 'd', 'i', 'f'] = out.emit .endifMark := by
  simp [Output.emitBlock, Output.emit, Output.write, Item.written, Item.isBlock]

variable {methods : Methods}

variable {paramName : CString} {elems : List ASTElem}

theorem relParamName_eq (h : isVariableName (relName methods paramName) = true) :
    relParamName methods paramName = .ok (relName methods paramName) := by
  rw [relParamName, if_neg]
  intro hlength
  rw [List.eq_nil_of_length_eq_zero hlength] at h
  simp [relName, relativeTo, isVariableName, startsIdentifier] at h

theorem getConditionStr_eq (joinContext : CString) (position : Position) (value : CString)
    (h : isVariableName (relName methods paramName) = true) :
    getConditionStr methods joinContext (.paramRef paramName position value) false =
      .ok (relName methods paramName) :=
  relParamName_eq h

theorem Simple.emitSequence_eq (h : Simple elems) (joinContext : CString)
    (hplain : ∀ item ∈ items methods elems, item.Plain) (out : Output) :
    emitSequence methods joinContext elems out =
      .ok ((items methods elems).foldl Output.emit out) := by
  induction h generalizing out with
  | nil => rfl
  | text position value text _ ih =>
    simp only [items, List.mem_append] at hplain
    rw [emitSequence, emitElem, emitText_eq, items, elemItems, List.foldl_append]
    exact ih (fun item hitem => hplain item (.inr hitem)) _
  | ref paramName position value joinStr _ ih =>
    simp only [items, List.mem_append] at hplain
    have hname := relParamName_eq (hplain (.output (.name (relName methods paramName)))
      (.inl (List.mem_singleton_self _)))
    have hemit : emitElem methods joinContext
        (.ref (.paramRef paramName position value) false joinStr) out =
          .ok (out.emit (.output (.name (relName methods paramName)))) := by
      rw [← emitVariable_eq]
      simp only [emitElem, emitRef, emitRefSimple, hname]
      rfl
    rw [emitSequence, hemit, items, List.foldl_append]
    exact ih (fun item hitem => hplain item (.inr hitem)) _
  | ifEndif paramName position value _ _ ihif ih =>
    simp only [items, elemItems, List.mem_append, List.mem_cons, List.not_mem_nil,
      or_false] at hplain
    have hname := getConditionStr_eq joinContext position value
      (hplain (.ifBegin (relName methods paramName)) (.inl (.inl rfl)))
    have hbody := ihif (fun item hitem => hplain item (.inl (.inr (.inl hitem))))
    rw [emitSequence, emitElem, hname, items, elemItems, List.foldl_append, List.foldl_cons,
      List.foldl_append]
    simp only [bind, Except.bind, pure, Except.pure, emitBlock_ifBegin, hbody,
      emitBlock_endifMark]
    exact ih (fun item hitem => hplain item (.inr hitem)) _
  | ifElse paramName position value _ _ _ ihif ihelse ih =>
    simp only [items, elemItems, List.mem_append, List.mem_cons, List.not_mem_nil,
      or_false] at hplain
    have hname := getConditionStr_eq joinContext position value
      (hplain (.ifBegin (relName methods paramName)) (.inl (.inl rfl)))
    have hbody := ihif (fun item hitem => hplain item (.inl (.inr (.inl hitem))))
    have helse := ihelse
      (fun item hitem => hplain item (.inl (.inr (.inr (.inr (.inl hitem))))))
    rw [emitSequence, emitElem, hname, items, elemItems, List.foldl_append, List.foldl_cons,
      List.foldl_append, List.foldl_cons, List.foldl_append]
    simp only [bind, Except.bind, pure, Except.pure, emitBlock_ifBegin, hbody,
      emitBlock_elseMark, helse, emitBlock_endifMark]
    exact ih (fun item hitem => hplain item (.inr hitem)) _

/-- Newlines right after a block are doubled. -/
def spell : Bool → List Item → CString
  | _, [] => []
  | trimmed, item :: items =>
    (if trimmed && item = .char '\n' then ['\n'] else []) ++ item.written ++
      spell item.isBlock items

theorem contents_foldl_emit (items : List Item) (out : Output) :
    (items.foldl Output.emit out).contents = out.contents ++ spell out.newlineTrimmed items := by
  induction items generalizing out with
  | nil => rw [spell, List.append_nil, List.foldl_nil]
  | cons item items ih =>
    rw [List.foldl_cons, ih, spell]
    simp only [Output.emit, List.append_assoc]

theorem lastNewLine_foldl_emit (items : List Item) (out : Output)
    (h : out.contents.getLast? = some '\n' ↔ out.lastNewLine = true) :
    (items.foldl Output.emit out).contents.getLast? = some '\n' ↔
      (items.foldl Output.emit out).lastNewLine = true := by
  induction items generalizing out with
  | nil => exact h
  | cons item items ih =>
    refine ih _ ?_
    rw [Output.emit, List.getLast?_append_of_ne_nil _ item.written_ne_nil, Item.getLast_written]
    simp

theorem Simple.store_eq (h : Simple elems) (joinContext : CString)
    (hplain : ∀ item ∈ items methods elems, item.Plain) :
    ∃ file, store methods joinContext elems = .ok file ∧
      dropLastNewline file = spell false (items methods elems) ∧
      (∀ c ∈ file, c ∈ spell false (items methods elems) ∨ c = '\n') := by
  have hlast := lastNewLine_foldl_emit (items methods elems) ⟨[], false, false⟩ (by simp)
  have hcontents := contents_foldl_emit (items methods elems) ⟨[], false, false⟩
  rw [List.nil_append] at hcontents
  rw [store, h.emitSequence_eq joinContext hplain]
  refine ⟨_, rfl, ?_⟩
  cases hnewline : ((items methods elems).foldl Output.emit ⟨[], false, false⟩).lastNewLine with
  | false =>
    rw [hnewline] at hlast
    refine ⟨?_, fun c hc => .inl ?_⟩
    · rw [if_neg Bool.false_ne_true, dropLastNewline, if_neg (by simpa using hlast), hcontents]
    · rwa [if_neg Bool.false_ne_true, hcontents] at hc
  | true =>
    refine ⟨?_, fun c hc => ?_⟩
    · rw [if_pos rfl, dropLastNewline, if_pos List.getLast?_concat, List.dropLast_concat,
        hcontents]
    · rw [if_pos rfl, hcontents, List.mem_append, List.mem_singleton] at hc
      exact hc

end Stored

section Reading

variable {p : Char → Bool} {name s rest : CString} {c : Char} {n : Nat} {item : Item}

theorem takeWhile_append_stop (hname : ∀ d ∈ name, p d = true) (hc : p c = false) :
    (name ++ c :: s).takeWhile p = name := by
  rw [List.takeWhile_append_of_pos hname, List.takeWhile_cons_of_neg (by simp [hc]),
    List.append_nil]

theorem dropWhile_append_stop (hname : ∀ d ∈ name, p d = true) (hc : p c = false) :
    (name ++ c :: s).dropWhile p = c :: s := by
  rw [List.dropWhile_append_of_pos hname, List.dropWhile_cons_of_neg (by simp [hc])]

theorem isSpace_of_isName (h : isName c = true) : isSpace c = false := by
  by_contra hspace
  simp only [isSpace, Bool.not_eq_false, Bool.or_eq_true, decide_eq_true_eq] at hspace
  rcases hspace with (rfl | rfl) | rfl <;> exact absurd h (by decide)

theorem ne_quote_of_isName (h : isName c = true) : c ≠ quote := by
  rintro rfl
  exact absurd h (by decide)

theorem isVariableName_cons (h : isVariableName name = true) :
    (∀ c ∈ name, isName c = true) ∧ ∃ c s, name = c :: s := by
  simp only [isVariableName, Bool.and_eq_true, List.all_eq_true] at h
  refine ⟨h.1.1, List.exists_cons_of_ne_nil ?_⟩
  rintro rfl
  simp [startsIdentifier] at h

theorem readName_append (h : isVariableName name = true) (hc : isName c = false) :
    readName (name ++ c :: s) = some (name, c :: s) := by
  obtain ⟨hchars, _⟩ := isVariableName_cons h
  rw [readName, takeWhile_append_stop hchars hc, dropWhile_append_stop hchars hc, if_pos h]

theorem readVariable_name (h : isVariableName name = true) (s : CString) :
    readVariable (name ++ '}' :: '}' :: s) = some (.output (.name name), s) := by
  obtain ⟨hchars, c, t, rfl⟩ := isVariableName_cons h
  have hc := hchars c List.mem_cons_self
  have hspace : (c :: t ++ '}' :: '}' :: s).dropWhile isSpace = c :: t ++ '}' :: '}' :: s :=
    List.dropWhile_cons_of_neg (by simp [isSpace_of_isName hc])
  have hread : readExpr (c :: t ++ '}' :: '}' :: s) = some (.name (c :: t), '}' :: '}' :: s) := by
    rw [List.cons_append, readExpr, if_neg (ne_quote_of_isName hc), ← List.cons_append,
      readName_append h rfl]
    rfl
  rw [readVariable, hspace, hread]
  rfl

theorem readVariable_literal {group : CString}
    (h : group ∈ [['<'], ['<', '#'], ['{', '{'], ['}', '}'], ['#', '>']]) (s : CString) :
    readVariable (' ' :: quote :: (group ++ quote :: ' ' :: '}' :: '}' :: s)) =
      some (.output (.literal group), s) := by
  simp only [List.mem_cons, List.not_mem_nil, or_false] at h
  rcases h with rfl | rfl | rfl | rfl | rfl <;> rfl

theorem readBlock_ifBegin (h : isVariableName name = true) (s : CString) :
    readBlock (['i', 'f', ' '] ++ name ++ '$' :: '>' :: s) = some (.ifBegin name, s) := by
  obtain ⟨hchars, c, t, rfl⟩ := isVariableName_cons h
  have hc := hchars c List.mem_cons_self
  have hspace : (' ' :: (c :: t ++ '$' :: '>' :: s)).dropWhile isSpace =
      c :: t ++ '$' :: '>' :: s := by
    rw [List.dropWhile_cons_of_pos (by rfl)]
    exact List.dropWhile_cons_of_neg (by simp [isSpace_of_isName hc])
  have hread : readStatement (['i', 'f', ' '] ++ (c :: t) ++ '$' :: '>' :: s) =
      some (.ifBegin (c :: t), '$' :: '>' :: s) := by
    have hword : (['i', 'f', ' '] ++ (c :: t) ++ '$' :: '>' :: s).takeWhile isName = ['i', 'f'] :=
      rfl
    have hrest : (['i', 'f', ' '] ++ (c :: t) ++ '$' :: '>' :: s).dropWhile isName =
        ' ' :: (c :: t ++ '$' :: '>' :: s) :=
      rfl
    rw [readStatement, hword, hrest, if_pos rfl, if_pos (by rfl), hspace, readName_append h rfl]
    rfl
  have hstart : (['i', 'f', ' '] ++ (c :: t) ++ '$' :: '>' :: s).dropWhile isSpace =
      ['i', 'f', ' '] ++ (c :: t) ++ '$' :: '>' :: s :=
    rfl
  rw [readBlock, hstart, hread]
  rfl

theorem readBlock_elseMark (s : CString) :
    readBlock ('e' :: 'l' :: 's' :: 'e' :: '$' :: '>' :: s) = some (.elseMark, s) :=
  rfl

theorem readBlock_endifMark (s : CString) :
    readBlock ('e' :: 'n' :: 'd' :: 'i' :: 'f' :: '$' :: '>' :: s) = some (.endifMark, s) :=
  rfl

theorem lexFrom_char {items : List Item} (hopens : ∀ d ∈ s.head?, opens c d = false)
    (h : lexFrom n s = some items) :
    lexFrom (n + 1) (c :: s) = some (.char c :: items) := by
  unfold lexFrom
  split
  · simp_all
  · simp_all
  · simp_all [opens]
  · simp_all [opens]
  · simp_all [opens]
  · simp_all

theorem lexFrom_block {items : List Item} (hread : readBlock s = some (item, rest))
    (h : lexFrom n (trimNewline rest) = some items) :
    lexFrom (n + 1) ('<' :: '$' :: s) = some (item :: items) := by
  rw [lexFrom, hread]
  simp [h]

theorem lexFrom_variable {items : List Item} (hread : readVariable s = some (item, rest))
    (h : lexFrom n rest = some items) :
    lexFrom (n + 1) ('{' :: '{' :: s) = some (item :: items) := by
  rw [lexFrom, hread]
  simp [h]

theorem trimNewline_spell (items : List Item) :
    trimNewline (spell true items) = spell false items := by
  cases items with
  | nil => rfl
  | cons item items =>
    rw [spell, spell, Bool.true_and, Bool.false_and, if_neg Bool.false_ne_true, List.nil_append]
    by_cases hitem : item = .char '\n'
    · rw [if_pos (by simpa using hitem)]
      rfl
    · rw [if_neg (by simpa using hitem), List.nil_append]
      have hhead := mt item.head_written.mp hitem
      obtain ⟨c, s, hwritten⟩ := List.exists_cons_of_ne_nil item.written_ne_nil
      rw [hwritten] at hhead ⊢
      unfold trimNewline
      split
      · simp_all
      · rfl

theorem length_spell_le (items : List Item) :
    (spell false items).length ≤ (spell true items).length := by
  cases items with
  | nil => exact Nat.le_refl _
  | cons item items => simp [spell]

/-- The constants are those that the writer makes. -/
def Item.Readable : Item → Prop
  | output (.literal s) => s ∈ [['<'], ['<', '#'], ['{', '{'], ['}', '}'], ['#', '>']]
  | item => item.Plain

theorem lexFrom_spell (items : List Item) (hread : ∀ item ∈ items, item.Readable)
    (hapart : items.IsChain Apart) (n : Nat) (hn : (spell false items).length ≤ n) :
    lexFrom n (spell false items) = some items := by
  induction items generalizing n with
  | nil => rw [spell, lexFrom]
  | cons item items ih =>
    have hitem := hread item List.mem_cons_self
    have htail := ih (fun i hi => hread i (List.mem_cons_of_mem _ hi)) hapart.tail
    have hlength := length_spell_le items
    rw [spell, Bool.false_and, if_neg Bool.false_ne_true, List.nil_append] at hn ⊢
    rw [List.length_append] at hn
    have hpos : 0 < item.written.length := List.length_pos_iff.mpr item.written_ne_nil
    obtain ⟨m, rfl⟩ : ∃ m, n = m + 1 := ⟨n - 1, by omega⟩
    rcases item with c | e | name | _ | _
    · simp only [Item.written, Item.isBlock, List.singleton_append]
      refine lexFrom_char ?_ (htail m ?_)
      · intro d hd
        cases items with
        | nil => cases hd
        | cons next items =>
          refine (List.isChain_cons_cons.mp hapart).1 d ?_
          rw [spell, Bool.false_and, if_neg Bool.false_ne_true, List.nil_append,
            List.head?_append_of_ne_nil _ next.written_ne_nil] at hd
          exact hd
      · simp only [Item.isBlock] at hn
        omega
    · have hrest := htail m (by simp only [Item.isBlock] at hn; omega)
      cases e with
      | name name =>
        simp only [Item.written, List.cons_append, List.append_assoc, List.nil_append]
        exact lexFrom_variable (readVariable_name hitem _) hrest
      | literal group =>
        simp only [Item.written, converter, List.cons_append, List.append_assoc,
          List.nil_append]
        exact lexFrom_variable (readVariable_literal hitem _) hrest
    all_goals
      have hrest := htail m (by simp only [Item.isBlock] at hn; omega)
      rw [← trimNewline_spell] at hrest
    · have hblock := readBlock_ifBegin hitem (spell true items)
      simp only [Item.written, Item.isBlock, List.cons_append, List.append_assoc,
        List.nil_append] at hblock ⊢
      exact lexFrom_block hblock hrest
    · exact lexFrom_block (readBlock_elseMark _) hrest
    · exact lexFrom_block (readBlock_endifMark _) hrest

end Reading

section Nodes

variable {items' : List Item} {nodes nodes' : List Node} {elems : List ASTElem}

theorem parses_char (c : Char) : Parses parseNodes [.char c] [.char c] :=
  parses_leaf fun _ _ => by rw [parseNodes]

theorem parses_output (e : Expr) : Parses parseNodes [.output e] [.output e] :=
  parses_leaf fun _ _ => by rw [parseNodes]

theorem parseNodes_mark {mark : Item} (hmark : mark = .elseMark ∨ mark = .endifMark)
    (tail : List Item) (n : Nat) :
    parseNodes (n + 1) (mark :: tail) = some ([], mark :: tail) := by
  rcases hmark with rfl | rfl <;> rw [parseNodes] <;> simp

theorem parses_ifEndif {items : List Item} (name : CString) (h : Parses parseNodes items nodes) :
    Parses parseNodes (.ifBegin name :: (items ++ [.endifMark])) [.cond name nodes []] := by
  intro tail tailNodes rest m htail n hn
  rw [List.length_cons, List.length_append, List.length_singleton] at hn
  obtain ⟨k, rfl⟩ : ∃ k, n = k + 1 := ⟨n - 1, by omega⟩
  rw [List.cons_append, List.append_assoc, List.singleton_append, parseNodes,
    h.until_mark (parseNodes_mark (.inr rfl) tail) (by omega)]
  simp [htail k (by omega)]

theorem parses_ifElse {items : List Item} (name : CString)
    (h : Parses parseNodes items nodes) (h' : Parses parseNodes items' nodes') :
    Parses parseNodes (.ifBegin name :: (items ++ .elseMark :: (items' ++ [.endifMark])))
      [.cond name nodes nodes'] := by
  intro tail tailNodes rest m htail n hn
  rw [List.length_cons, List.length_append, List.length_cons, List.length_append,
    List.length_singleton] at hn
  obtain ⟨k, rfl⟩ : ∃ k, n = k + 1 := ⟨n - 1, by omega⟩
  rw [List.cons_append, List.append_assoc, List.cons_append, List.append_assoc,
    List.singleton_append, parseNodes, h.until_mark (parseNodes_mark (.inl rfl) _) (by omega)]
  have hend : items'.length + 1 ≤ k := by omega
  simp [h'.until_mark (parseNodes_mark (.inr rfl) tail) hend, htail k (by omega)]

theorem renderNodes_append (values : CString → Value) (nodes nodes' : List Node) :
    renderNodes values (nodes ++ nodes') =
      renderNodes values nodes ++ renderNodes values nodes' := by
  induction nodes with
  | nil => rw [renderNodes, List.nil_append, List.nil_append]
  | cons node nodes ih => rw [List.cons_append, renderNodes, renderNodes, ih, List.append_assoc]

theorem renderNodes_singleton (values : CString → Value) (node : Node) :
    renderNodes values [node] = renderNode values node := by
  rw [renderNodes, renderNodes, List.append_nil]

theorem parses_parts (ps : List Part) :
    ∃ nodes, Parses parseNodes (ps.map Part.item) nodes ∧
      ∀ values, renderNodes values nodes = ps.flatMap Part.value := by
  induction ps with
  | nil => exact ⟨[], Parses.nil, fun values => by rw [renderNodes, List.flatMap_nil]⟩
  | cons p ps ih =>
    obtain ⟨nodes, hparses, hrender⟩ := ih
    cases p with
    | plain c =>
      refine ⟨_, (parses_char c).append hparses, fun values => ?_⟩
      rw [renderNodes_append, renderNodes_singleton, hrender, List.flatMap_cons, renderNode,
        Part.value]
    | special group =>
      refine ⟨_, (parses_output (.literal group)).append hparses, fun values => ?_⟩
      rw [renderNodes_append, renderNodes_singleton, hrender, List.flatMap_cons, renderNode,
        Part.value, Expr.text]

theorem Simple.parses (methods : Methods) (h : Simple elems) :
    ∃ nodes, Parses parseNodes (items methods elems) nodes ∧
      ∀ values, renderNodes values nodes = selected methods values elems := by
  induction h with
  | nil => exact ⟨[], Parses.nil, fun values => by rw [renderNodes, selected]⟩
  | text position value text _ ih =>
    obtain ⟨nodes, hparses, hrender⟩ := ih
    obtain ⟨textNodes, htext, hvalue⟩ := parses_parts (parts text)
    refine ⟨_, htext.append hparses, fun values => ?_⟩
    rw [renderNodes_append, hvalue, hrender, flatMap_value_parts, selected, selectedElem]
  | ref paramName position value joinStr _ ih =>
    obtain ⟨nodes, hparses, hrender⟩ := ih
    refine ⟨_, (parses_output _).append hparses, fun values => ?_⟩
    rw [renderNodes_append, renderNodes_singleton, hrender, selected, selectedElem, renderNode,
      Expr.text]
  | ifEndif paramName position value _ _ ihif ih =>
    obtain ⟨nodes, hparses, hrender⟩ := ih
    obtain ⟨ifNodes, hif, hrenderIf⟩ := ihif
    refine ⟨_, (parses_ifEndif _ hif).append hparses, fun values => ?_⟩
    rw [renderNodes_append, renderNodes_singleton, hrender, selected, selectedElem, renderNode,
      hrenderIf, renderNodes]
  | ifElse paramName position value _ _ _ ihif ihelse ih =>
    obtain ⟨nodes, hparses, hrender⟩ := ih
    obtain ⟨ifNodes, hif, hrenderIf⟩ := ihif
    obtain ⟨elseNodes, helse, hrenderElse⟩ := ihelse
    refine ⟨_, (parses_ifElse _ hif helse).append hparses, fun values => ?_⟩
    rw [renderNodes_append, renderNodes_singleton, hrender, selected, selectedElem, renderNode,
      hrenderIf, hrenderElse]

theorem Simple.readable {methods : Methods} (h : Simple elems)
    (hplain : ∀ item ∈ items methods elems, item.Plain) :
    ∀ item ∈ items methods elems, item.Readable := by
  intro item hitem
  have hitemPlain := hplain item hitem
  rcases item with c | e | name | _ | _
  · exact hitemPlain
  · cases e with
    | name name => exact hitemPlain
    | literal group =>
      clear hplain hitemPlain
      induction h with
      | nil => cases hitem
      | text position value text _ ih =>
        rcases List.mem_append.mp hitem with hmem | hmem
        · obtain ⟨p, hp, heq⟩ := List.mem_map.mp hmem
          cases p with
          | plain c => cases heq
          | special group' =>
            cases heq
            exact special_mem_parts hp
        · exact ih hmem
      | ref paramName position value joinStr _ ih =>
        rcases List.mem_append.mp hitem with hmem | hmem
        · cases List.mem_singleton.mp hmem
        · exact ih hmem
      | ifEndif paramName position value _ _ ihif ih =>
        simp only [items, elemItems, List.mem_append, List.mem_cons, List.not_mem_nil,
          or_false, reduceCtorEq, false_or] at hitem
        exact hitem.elim ihif ih
      | ifElse paramName position value _ _ _ ihif ihelse ih =>
        simp only [items, elemItems, List.mem_append, List.mem_cons, List.not_mem_nil,
          or_false, reduceCtorEq, false_or] at hitem
        exact hitem.elim (fun h => h.elim ihif ihelse) ih
  all_goals exact hitemPlain

end Nodes

section Survival

theorem isOtherLineEnd_of_isName {c : Char} (h : isName c = true) : isOtherLineEnd c = false := by
  by_contra hend
  simp only [isOtherLineEnd, Bool.not_eq_false, Bool.or_eq_true, decide_eq_true_eq] at hend
  rcases hend with (((((((rfl | rfl) | rfl) | rfl) | rfl) | rfl) | rfl) | rfl) | rfl <;>
    exact absurd h (by decide)

theorem not_lineEnd_of_all {s : CString} (h : s.all (fun c => !isOtherLineEnd c) = true) :
    ∀ c ∈ s, isOtherLineEnd c = false := by
  intro c hc
  simpa using List.all_eq_true.mp h c hc

theorem Item.Readable.written {item : Item} (h : item.Readable) :
    ∀ c ∈ item.written, isOtherLineEnd c = false := by
  have hname : ∀ {name : CString}, isVariableName name = true →
      ∀ c ∈ name, isOtherLineEnd c = false := fun h c hc =>
    isOtherLineEnd_of_isName ((isVariableName_cons h).1 c hc)
  rcases item with c | e | name | _ | _
  · intro d hd
    rw [Item.written, List.mem_singleton] at hd
    rw [hd]
    exact h
  · cases e with
    | name name =>
      intro c hc
      simp only [Item.written, List.mem_append] at hc
      rcases hc with (hc | hc) | hc
      · exact not_lineEnd_of_all rfl c hc
      · exact hname h c hc
      · exact not_lineEnd_of_all rfl c hc
    | literal group =>
      simp only [Item.Readable, List.mem_cons, List.not_mem_nil, or_false] at h
      rcases h with rfl | rfl | rfl | rfl | rfl <;> exact not_lineEnd_of_all rfl
  · intro c hc
    simp only [Item.written, List.mem_append] at hc
    rcases hc with (hc | hc) | hc
    · exact not_lineEnd_of_all rfl c hc
    · exact hname h c hc
    · exact not_lineEnd_of_all rfl c hc
  all_goals exact not_lineEnd_of_all rfl

variable {methods : Methods}

theorem any_spell {items : List Item} (h : ∀ item ∈ items, item.Readable) (trimmed : Bool) :
    ∀ c ∈ spell trimmed items, isOtherLineEnd c = false := by
  induction items generalizing trimmed with
  | nil => exact fun c hc => absurd hc List.not_mem_nil
  | cons item items ih =>
    intro c hc
    rw [spell, List.mem_append, List.mem_append] at hc
    rcases hc with (hc | hc) | hc
    · split_ifs at hc
      · rw [List.mem_singleton.mp hc]
        rfl
      · cases hc
    · exact (h item List.mem_cons_self).written c hc
    · exact ih (fun i hi => h i (List.mem_cons_of_mem _ hi)) _ c hc

theorem Simple.readTemplate_eq {elems : List ASTElem} (h : Simple elems)
    (hclean : Clean methods elems) (joinContext : CString) :
    ∃ file nodes, store methods joinContext elems = .ok file ∧ readTemplate file = some nodes ∧
      ∀ values, renderNodes values nodes = selected methods values elems := by
  obtain ⟨file, hstore, hspell, hchars⟩ := h.store_eq joinContext hclean.plain
  obtain ⟨nodes, hparses, hrender⟩ := h.parses methods
  have hreadable := h.readable hclean.plain
  have hends : file.any isOtherLineEnd = false := by
    rw [List.any_eq_false]
    intro c hc
    rcases hchars c hc with hc | rfl
    · simp [any_spell hreadable false c hc]
    · decide
  have hlength : (spell false (items methods elems)).length ≤ file.length := by
    rw [← hspell, dropLastNewline]
    split_ifs
    · rw [List.length_dropLast]
      omega
    · exact Nat.le_refl _
  have hlex := lexFrom_spell _ hreadable hclean.apart file.length hlength
  have hparse := hparses [] [] [] 1 (fun n hn => by
    obtain ⟨k, rfl⟩ : ∃ k, n = k + 1 := ⟨n - 1, by omega⟩
    rw [parseNodes]) ((items methods elems).length + 1) (by omega)
  rw [List.append_nil, List.append_nil] at hparse
  refine ⟨file, nodes, hstore, ?_, hrender⟩
  rw [readTemplate, if_neg (by simp [hends]), hspell, hlex]
  simp [hparse]

/-- Texts survive when nothing of them is taken for a delimiter. -/
theorem textsSurvive_of_clean (methods : Methods)
    (render : (CString → Value) → CString → Option CString) (hrender : Documented render)
    (joinContext : CString) (elems : List ASTElem) (h : Simple elems)
    (hclean : Clean methods elems) : TextsSurvive methods joinContext render elems := by
  intro values
  obtain ⟨file, nodes, hstore, hread, hvalue⟩ := h.readTemplate_eq hclean joinContext
  refine ⟨file, hstore, ?_⟩
  rw [hrender values file nodes hread, hvalue]

/-- Replaced signs, newlines after blocks and a newline at the end. -/
def sampleElems : List ASTElem :=
  [.text ⟨['t'], 1, 0⟩ ['<', '#', 'a', '\n'] ['<', '#', 'a', '\n'],
    .ifElse (.paramRef ['x'] ⟨['t'], 2, 1⟩ []) false
      [.text ⟨['t'], 2, 8⟩ ['\n', '{', '{'] ['\n', '{', '{'],
        .ref (.paramRef ['y'] ⟨['t'], 3, 3⟩ []) false none]
      [.text ⟨['t'], 3, 8⟩ ['<'] ['<'], .text ⟨['t'], 3, 9⟩ ['$', '\n'] ['$', '\n']],
    .text ⟨['t'], 4, 9⟩ ['\n'] ['\n']]

theorem sampleElems_items : items ⟨fun _ => some none, id, fun _ => none⟩ sampleElems =
    [.output (.literal ['<', '#']), .char 'a', .char '\n', .ifBegin ['x'], .char '\n',
      .output (.literal ['{', '{']), .output (.name ['y']), .elseMark, .output (.literal ['<']),
      .char '$', .char '\n', .endifMark, .char '\n'] := by
  simp [sampleElems, items, elemItems, parts_cons, parts_nil, specialAt, atEnd, Part.item,
    ElemRef.written, ElemRef.getBaseContext, relName, relativeTo, parentParam]

/-- Texts with all kinds of signs and newlines survive. -/
theorem textsSurvive_of_clean_sample :
    TextsSurvive ⟨fun _ => some none, id, fun _ => none⟩ [] renderDescribed sampleElems := by
  refine textsSurvive_of_clean _ _ renderDescribed_documented _ _ ?_ ⟨?_, ?_⟩
  · exact .text _ _ _ (.ifElse _ _ _ (.text _ _ _ (.ref _ _ _ _ .nil))
      (.text _ _ _ (.text _ _ _ .nil)) (.text _ _ _ .nil))
  · have hx : isVariableName ['x'] = true := rfl
    have hy : isVariableName ['y'] = true := rfl
    rw [sampleElems_items]
    simp [Item.Plain, isOtherLineEnd, hx, hy]
  · rw [sampleElems_items]
    simp [Apart, Item.written, converter, opens]

def textElem (token : Token) : ASTElem := .text token.position token.value token.value

/-- A condition that is written in two lines is text for kedr_gen and a block for jinja2. -/
theorem not_textsSurvive_block :
    ∃ text,
      (∀ token ∈ (Scanner.mk text ⟨['t'], 1, 0⟩).tokens, token.name = .textSentence) ∧
      ∀ render, Documented render →
        ¬ TextsSurvive ⟨fun _ => some none, id, fun _ => none⟩ [] render
          ((Scanner.mk text ⟨['t'], 1, 0⟩).tokens.map textElem) := by
  let text : CString := ['<', '$', '\n', 'i', 'f', ' ', 'x', '$', '>', 'a', '<', '$', '\n', 'e', 'n',
    'd', 'i', 'f', '$', '>']
  let first : CString := ['<', '$', '\n', 'i', 'f', ' ', 'x', '$', '>', 'a']
  let second : CString := ['<', '$', '\n', 'e', 'n', 'd', 'i', 'f', '$', '>']
  have htokens : (Scanner.mk text ⟨['t'], 1, 0⟩).tokens =
      [⟨.textSentence, first, [(.sentence .textSentence, first)], ⟨['t'], 1, 0⟩⟩,
        ⟨.textSentence, second, [(.sentence .textSentence, second)], ⟨['t'], 2, 8⟩⟩] := by
    decide +kernel
  refine ⟨text, ?_, ?_⟩
  · rw [htokens]
    simp
  · intro render hrender hsurvive
    obtain ⟨file, hstore, hvalue⟩ := hsurvive fun _ => ⟨[], false⟩
    have hfile : file = text := by
      rw [htokens] at hstore
      simp [store, emitSequence, emitElem, textElem, emitText_eq, first, second, parts_cons,
        specialAt, atEnd, parts_nil, Part.item, Output.emit, Item.written, Item.isBlock, bind,
        Except.bind, pure, Except.pure] at hstore
      exact hstore.symm
    have hread : readTemplate text = some [.cond ['x'] [.char 'a'] []] := rfl
    rw [hfile, hrender _ _ _ hread, htokens] at hvalue
    simp [renderNodes, renderNode, selected, selectedElem, textElem, first] at hvalue

end Survival

end TemplateConverter
end KedrAux
