import KedrAux.TemplateConverter.LoopReading
import KedrAux.TemplateConverter.Places

/-!
# Joins of parameters and templates

A join is written as the filter `join`, as this filter with an attribute, or as loops.  The first
two forms and a single loop keep the separator when it is not changed by the quoting of the form;
the condition that is written for several loops is an error of syntax.
-/

namespace KedrAux
namespace TemplateConverter
namespace Loops

open LimitedParser

section Meaning

variable (methods : Methods)

/-- Names of the reference are read as they are meant. -/
def RefNamed : ElemRef → Prop
  | .paramRef paramName _ _ => Named methods paramName
  | .templateRef template _ _ =>
    Named methods template.baseContext ∧
      ∀ c ∈ template.templateName, c ≠ quote ∧ c ≠ '\\' ∧ isOtherLineEnd c = false

/-- The rendered join gives all values with the separator between them. -/
def JoinSurvives
    (joinContext : CString)
    (render : (CString → Env → CString) → Env → CString → Option CString)
    (elemRef : ElemRef)
    (sep : CString) : Prop :=
  ∀ includes env texts,
    joinedTexts methods joinContext env includes elemRef = some texts →
    ∃ out,
      emitRef methods joinContext elemRef true (some sep) ⟨[], false, false⟩ = .ok out ∧
      render includes env out.contents = some (sep.intercalate texts)

end Meaning

def SeparatorKept (contexts : List CString) (sep : CString) : ElemRef → Prop
  | .paramRef paramName _ _ =>
    match contexts with
    | [context] =>
      if context = paramName then sep.all isEncodable = true else isVerbatim sep = true
    | _ => sep = [] ∧ contexts.head? ≠ some paramName
  | .templateRef _ _ _ =>
    match contexts with
    | [_] => (∀ c ∈ sep, isOtherLineEnd c = false) ∧ ((parts sep).map Part.item).IsChain Apart
    | _ => sep = []

variable {elemRef : ElemRef}

section Emission

def emitBlocks (out : Output) (bs : List CString) : Output := bs.foldl Output.emitBlock out

@[simp] theorem contents_emitBlock (out : Output) (b : CString) :
    (out.emitBlock b).contents = out.contents ++ block b := by
  simp [Output.emitBlock, Output.write, block]

@[simp] theorem contents_emitVariable (out : Output) (v : CString) :
    (out.emitVariable v).contents = out.contents ++ variableText v := by
  simp [Output.emitVariable, Output.write, variableText]

theorem contents_emitBlocks (out : Output) (bs : List CString) :
    (emitBlocks out bs).contents = out.contents ++ bs.flatMap block := by
  induction bs generalizing out with
  | nil => simp [emitBlocks]
  | cons b bs ih =>
    rw [emitBlocks, List.foldl_cons, ← emitBlocks, ih, contents_emitBlock,
      List.flatMap_cons, List.append_assoc]

theorem foldl_endfor {α : Type} (contexts : List α) (out : Output) :
    contexts.foldl (fun out _ => out.emitBlock "endfor".toList) out =
      emitBlocks out (List.replicate contexts.length "endfor".toList) := by
  induction contexts generalizing out with
  | nil => rfl
  | cons context contexts ih => exact ih _

variable (methods : Methods)

def iteratorOf (context : CString) : CString := (methods.getSequenceIterator context).getD []

/-- The block that begins the loop over a sequence. -/
def forBlock (context : CString) : CString :=
  "for ".toList ++ iteratorOf methods context ++ " in ".toList ++ relName methods context

/-- The blocks that keep the loops and begin the next ones, from the `n`-th loop on. -/
def loopBlocks (total : Nat) : Nat → List CString → List CString
  | _, [] => []
  | n, context :: contexts =>
    (if n ≠ total - 1 then
      ["set loop".toList ++ (toString n).toList ++ " = loop".toList]
    else []) ++
      forBlock methods context :: loopBlocks total (n + 1) contexts

variable {methods}

theorem relParamName_of_ne_nil {paramName : CString} (h : paramName ≠ []) :
    relParamName methods paramName = .ok (relName methods paramName) := by
  rw [relParamName, if_neg (fun hlength => h (List.eq_nil_of_length_eq_zero hlength))]

def IsSequence (methods : Methods) (context : CString) : Prop :=
  context ≠ [] ∧ (methods.getSequenceIterator context).isSome = true

theorem forBlock_eq {context : CString} (h : IsSequence methods context) :
    "for ".toList ++ (methods.getSequenceIterator context).getD "None".toList ++ " in ".toList ++
      relName methods context = forBlock methods context := by
  obtain ⟨i, hi⟩ := Option.isSome_iff_exists.mp h.2
  rw [forBlock, iteratorOf, hi]
  rfl

variable {joinStr : CString} {total : Nat}

theorem emitLoops_simple (hsimple : total = 1 ∨ joinStr = []) (contexts : List CString)
    (hcontexts : ∀ context ∈ contexts, IsSequence methods context) (n : Nat) (out : Output) :
    emitLoops methods joinStr total n contexts out =
      .ok (emitBlocks out (contexts.map (forBlock methods))) := by
  induction contexts generalizing n out with
  | nil => rfl
  | cons context contexts ih =>
    have hcontext := hcontexts context List.mem_cons_self
    have hset : ¬ (total ≠ 1 ∧ joinStr ≠ [] ∧ n ≠ total - 1) := by
      rcases hsimple with h | h <;> simp [h]
    simp only [emitLoops, if_neg hset, relParamName_of_ne_nil hcontext.1, forBlock_eq hcontext,
      bind, Except.bind]
    exact ih (fun context hmem => hcontexts context (List.mem_cons_of_mem _ hmem)) _ _

theorem emitLoops_several (htotal : 1 < total) (hjoinStr : joinStr ≠ []) (contexts : List CString)
    (hcontexts : ∀ context ∈ contexts, IsSequence methods context) (n : Nat) (out : Output) :
    emitLoops methods joinStr total n contexts out =
      .ok (emitBlocks out (loopBlocks methods total n contexts)) := by
  induction contexts generalizing n out with
  | nil => rfl
  | cons context contexts ih =>
    have hcontext := hcontexts context List.mem_cons_self
    have htotal' : total ≠ 1 := by omega
    have hrest := ih (fun context hmem => hcontexts context (List.mem_cons_of_mem _ hmem))
    rw [emitLoops, loopBlocks]
    simp only [relParamName_of_ne_nil hcontext.1, forBlock_eq hcontext, bind, Except.bind]
    by_cases hn : n ≠ total - 1
    · rw [if_pos ⟨htotal', hjoinStr, hn⟩, if_pos hn, hrest]
      rfl
    · rw [if_neg (fun h => hn h.2.2), if_neg hn, hrest]
      rfl

variable (methods) in
def refText : ElemRef → CString
  | .paramRef paramName _ _ => variableText (relName methods paramName)
  | .templateRef template _ _ =>
    block ("include ".toList ++ [quote] ++ template.templateName ++ [quote])

variable (methods) in
theorem exists_emitRefSimple (hne : elemRef.getBaseContext ≠ []) (out : Output) :
    ∃ out', emitRefSimple methods elemRef out = .ok out' ∧
      out'.contents = out.contents ++ refText methods elemRef := by
  cases elemRef with
  | paramRef paramName position value =>
    have hname : relParamName methods paramName = .ok (relName methods paramName) :=
      relParamName_of_ne_nil hne
    refine ⟨_, ?_, contents_emitVariable out _⟩
    simp only [emitRefSimple, hname]
    rfl
  | templateRef template position value => exact ⟨_, rfl, contents_emitBlock out _⟩

def separatorText (sep : CString) (total : Nat) : CString :=
  if sep = [] then []
  else
    block ("if ".toList ++ notFirst total) ++
      spell true ((parts sep).map Part.item ++ [.endifMark])

theorem contents_separator (sep : CString) (total : Nat) (out : Output) :
    (((out.emitBlock ("if ".toList ++ notFirst total)).emitText sep).emitBlock
        "endif".toList).contents =
      out.contents ++ (block ("if ".toList ++ notFirst total) ++
        spell true ((parts sep).map Part.item ++ [.endifMark])) := by
  have hendif (out : Output) : out.emitBlock "endif".toList = out.emit .endifMark :=
    emitBlock_endifMark out
  have hfold (items : List TemplateConverter.Item) (out : Output) :
      (items.foldl Output.emit out).emit .endifMark =
        (items ++ [TemplateConverter.Item.endifMark]).foldl Output.emit out := by
    rw [List.foldl_append, List.foldl_cons, List.foldl_nil]
  rw [emitText_eq, hendif, hfold, contents_foldl_emit, contents_emitBlock, List.append_assoc]
  rfl

theorem exists_emitJoinGeneric (hne : elemRef.getBaseContext ≠ []) {contexts bs : List CString}
    {sep : CString} {out : Output}
    (hloops : emitLoops methods sep contexts.length 0 contexts.reverse out =
      .ok (emitBlocks out bs)) :
    ∃ out', emitJoinGeneric methods elemRef contexts (some sep) out = .ok out' ∧
      out'.contents = out.contents ++ (bs.flatMap block ++ (separatorText sep contexts.length ++
        (refText methods elemRef ++
          (List.replicate contexts.length "endfor".toList).flatMap block))) := by
  simp only [emitJoinGeneric, hloops, bind, Except.bind, pure, Except.pure, foldl_endfor]
  by_cases hsep : sep = []
  · obtain ⟨out', hemit, hcontents⟩ :=
      exists_emitRefSimple methods hne (emitBlocks out bs)
    refine ⟨emitBlocks out' (List.replicate contexts.length "endfor".toList), ?_, ?_⟩
    · simp only [hsep, ne_eq, not_true_eq_false, if_false, hemit]
    · rw [contents_emitBlocks, hcontents, contents_emitBlocks, separatorText, if_pos hsep]
      simp
  · obtain ⟨out', hemit, hcontents⟩ := exists_emitRefSimple methods hne
      ((((emitBlocks out bs).emitBlock ("if ".toList ++ notFirst contexts.length)).emitText
        sep).emitBlock "endif".toList)
    refine ⟨emitBlocks out' (List.replicate contexts.length "endfor".toList), ?_, ?_⟩
    · simp only [ne_eq, hsep, not_false_eq_true, if_true, hemit]
    · rw [contents_emitBlocks, hcontents, contents_separator, contents_emitBlocks, separatorText,
        if_neg hsep]
      simp only [List.append_assoc]

end Emission

variable {joinContext context : CString} {contexts : List CString}

section LoopItems

variable {methods : Methods}

theorem Below.named {path : List CString} (hbelow : Below methods joinContext context path)
    (hnamed : context ≠ [] → Named methods context) :
    ∀ c ∈ path, Named methods c ∧ IsSequence methods c := by
  have hparent {context : CString} (hne : context ≠ [])
    (hnamed : context ≠ [] → Named methods context) :
      parentParam context ≠ [] → Named methods (parentParam context) :=
    fun hnil => ((hnamed hne).parent hnil).2.2.2
  induction hbelow with
  | join => exact fun c hc => absurd hc List.not_mem_nil
  | single _ hne _ _ ih => exact ih (hparent hne hnamed)
  | sequence _ hne hi _ ih =>
    intro c hc
    rcases List.mem_cons.mp hc with rfl | hc
    · exact ⟨hnamed hne, hne, by rw [hi]; rfl⟩
    · exact ih (hparent hne hnamed) c hc

theorem Named.isIterator (h : Named methods context) (hsequence : IsSequence methods context) :
    IsIterator (iteratorOf methods context) := by
  obtain ⟨i, hi⟩ := Option.isSome_iff_exists.mp hsequence.2
  obtain ⟨hvariable, hpoint, hloop⟩ := h.iterators context i (.inl rfl) hi
  rw [iteratorOf, hi]
  exact ⟨hvariable, hpoint, hloop⟩

/-- The loop over the sequence has names that can be read. -/
def IsLoop (methods : Methods) (context : CString) : Prop :=
  LoopNames (iteratorOf methods context) (relName methods context)

theorem Named.blockReads_forBlock (h : Named methods context)
    (hsequence : IsSequence methods context) (hloop : IsLoop methods context) :
    BlockReads (forBlock methods context)
      (.forBegin (iteratorOf methods context) ((relName methods context).splitOn '.')) :=
  blockReads_for (h.isIterator hsequence) h.objectName_variable.1 hloop

def loopOf (methods : Methods) (context : CString) : CString × List CString :=
  (iteratorOf methods context, (relName methods context).splitOn '.')

def forItem (loop : CString × List CString) : Item := .forBegin loop.1 loop.2

theorem blockReads_forBlocks (h : ∀ c ∈ contexts, Named methods c ∧ IsSequence methods c)
    (hloops : ∀ c ∈ contexts, IsLoop methods c) :
    List.Forall₂ BlockReads (contexts.map (forBlock methods))
      ((contexts.map (loopOf methods)).map forItem) := by
  rw [List.map_map, List.forall₂_map_left_iff, List.forall₂_map_right_iff, List.forall₂_same]
  exact fun c hc => (h c hc).1.blockReads_forBlock (h c hc).2 (hloops c hc)

theorem loopBlocks_read (total : Nat)
    (h : ∀ c ∈ contexts, Named methods c ∧ IsSequence methods c) (n : Nat) :
    ∀ b ∈ loopBlocks methods total n contexts, (∃ item, BlockReads b item) ∨ BlockFails b := by
  induction contexts generalizing n with
  | nil =>
    intro b hb
    cases hb
  | cons context contexts ih =>
    have hrest := ih (fun c hc => h c (List.mem_cons_of_mem _ hc)) (n + 1)
    obtain ⟨hnamed, hsequence⟩ := h context List.mem_cons_self
    have hfor : (∃ item, BlockReads (forBlock methods context) item) ∨
        BlockFails (forBlock methods context) := by
      by_cases hloop : IsLoop methods context
      · exact .inl ⟨_, hnamed.blockReads_forBlock hsequence hloop⟩
      · exact .inr (blockFails_for (hnamed.isIterator hsequence) hnamed.objectName_variable.1 hloop)
    intro b hb
    rw [loopBlocks, List.mem_append, List.mem_cons] at hb
    rcases hb with hb | rfl | hb
    · split_ifs at hb
      · rw [List.mem_singleton.mp hb]
        exact .inl ⟨_, blockReads_set n⟩
      · cases hb
    · exact hfor
    · exact hrest b hb

theorem blockReads_endfors (n : Nat) :
    List.Forall₂ BlockReads (List.replicate n "endfor".toList) (List.replicate n .endforMark) := by
  induction n with
  | zero => exact .nil
  | succ n ih => exact ih.cons blockReads_endfor

def refItem (methods : Methods) : ElemRef → Item
  | .paramRef paramName _ _ => .output (.path ((relName methods paramName).splitOn '.'))
  | .templateRef template _ _ => .inclusion template.templateName

theorem piece_ref {elemRef : ElemRef} (h : RefNamed methods elemRef) :
    Piece (refText methods elemRef) [refItem methods elemRef] := by
  cases elemRef with
  | paramRef paramName position value =>
    exact piece_variable (variableReads_name (Named.objectName_variable h).1)
  | templateRef template position value =>
    exact piece_block (blockReads_include fun c hc => ⟨(h.2 c hc).1, (h.2 c hc).2.1⟩)

theorem spell_parts (ps : List Part) (items : List TemplateConverter.Item) :
    spell false (ps.map Part.item ++ items) = ps.flatMap Part.written ++ spell false items := by
  induction ps with
  | nil => rfl
  | cons p ps ih =>
    have hblock : p.item.isBlock = false := by cases p <;> rfl
    rw [List.map_cons, List.cons_append, spell, hblock, ih, Part.written_item, List.flatMap_cons]
    simp only [Bool.false_and, Bool.false_eq_true, if_false, List.nil_append, List.append_assoc]

theorem trimNewline_append {a : CString} (ha : a ≠ []) (s : CString) :
    trimNewline (a ++ s) = trimNewline a ++ s := by
  obtain ⟨c, a, rfl⟩ := List.exists_cons_of_ne_nil ha
  by_cases hc : c = '\n'
  · subst hc
    rfl
  · simp [trimNewline, hc]

theorem piece_separator {sep : CString} (hsep : sep ≠ [])
    (hapart : ((parts sep).map Part.item).IsChain Apart) :
    Piece (separatorText sep 1)
      (.ifNotFirst :: ((parts sep).map partItem ++ [.endifMark])) := by
  intro s items htrim hs
  have hendif : spell false [TemplateConverter.Item.endifMark] = block "endif".toList := rfl
  have hne : spell true ((parts sep).map Part.item ++ [TemplateConverter.Item.endifMark]) ≠ [] := by
    obtain ⟨p, ps, hps⟩ := List.exists_cons_of_ne_nil (parts_ne_nil hsep)
    rw [hps, List.map_cons, List.cons_append, spell]
    simp [Item.written_ne_nil]
  rw [separatorText, if_neg hsep, List.append_assoc, List.cons_append]
  refine ⟨trimNewline_block _ _, reads_block blockReads_notFirst ?_⟩
  rw [trimNewline_append hne, trimNewline_spell, spell_parts, hendif, List.append_assoc,
    List.append_assoc]
  exact reads_parts ((piece_block blockReads_endif) s items htrim hs).2 _
    (fun group => special_mem_parts) hapart

end LoopItems

section Nodes

variable {items : List Item} {nodes : List Node}

theorem parses_char (c : Char) : Parses parseNodes [.char c] [.char c] :=
  parses_leaf fun _ _ => by rw [parseNodes]

theorem parses_output (e : Expr) : Parses parseNodes [.output e] [.output e] :=
  parses_leaf fun _ _ => by rw [parseNodes]

theorem parses_inclusion (name : CString) : Parses parseNodes [.inclusion name] [.inclusion name] :=
  parses_leaf fun _ _ => by rw [parseNodes]

theorem parseNodes_mark {mark : Item} (hmark : mark = .endforMark ∨ mark = .endifMark)
    (tail : List Item) (n : Nat) :
    parseNodes (n + 1) (mark :: tail) = some ([], mark :: tail) := by
  rcases hmark with rfl | rfl <;> rw [parseNodes] <;> simp

theorem parses_loop (target : CString) (names : List CString) (h : Parses parseNodes items nodes) :
    Parses parseNodes (.forBegin target names :: (items ++ [.endforMark])) [.loop target names nodes] := by
  intro tail tailNodes rest m htail n hn
  rw [List.length_cons, List.length_append, List.length_singleton] at hn
  obtain ⟨k, rfl⟩ : ∃ k, n = k + 1 := ⟨n - 1, by omega⟩
  rw [List.cons_append, List.append_assoc, List.singleton_append, parseNodes,
    h.until_mark (parseNodes_mark (.inl rfl) tail) (by omega)]
  simp [htail k (by omega)]

theorem parses_notFirst (h : Parses parseNodes items nodes) :
    Parses parseNodes (.ifNotFirst :: (items ++ [.endifMark])) [.notFirst nodes] := by
  intro tail tailNodes rest m htail n hn
  rw [List.length_cons, List.length_append, List.length_singleton] at hn
  obtain ⟨k, rfl⟩ : ∃ k, n = k + 1 := ⟨n - 1, by omega⟩
  rw [List.cons_append, List.append_assoc, List.singleton_append, parseNodes,
    h.until_mark (parseNodes_mark (.inr rfl) tail) (by omega)]
  simp [htail k (by omega)]

/-- Loops, the outermost first, around the nodes. -/
def nestNodes : List (CString × List CString) → List Node → List Node
  | [], body => body
  | loop :: loops, body => [.loop loop.1 loop.2 (nestNodes loops body)]

theorem parses_nest (h : Parses parseNodes items nodes) (loops : List (CString × List CString)) :
    Parses parseNodes (loops.map forItem ++ (items ++ List.replicate loops.length .endforMark))
      (nestNodes loops nodes) := by
  induction loops with
  | nil =>
    rw [List.map_nil, List.nil_append, List.length_nil, List.replicate_zero, List.append_nil]
    exact h
  | cons loop loops ih =>
    have hloop := parses_loop loop.1 loop.2 ih
    rw [List.length_cons, List.replicate_succ', List.map_cons, List.cons_append, nestNodes]
    rwa [List.append_assoc, List.append_assoc] at hloop

theorem parseNodes_eq_of_parses (h : Parses parseNodes items nodes) :
    parseNodes (items.length + 1) items = some (nodes, []) := by
  have hend := h [] [] [] 1 (fun n hn => by
    obtain ⟨k, rfl⟩ : ∃ k, n = k + 1 := ⟨n - 1, by omega⟩
    rw [parseNodes]) (items.length + 1) (by omega)
  rwa [List.append_nil, List.append_nil] at hend

variable (includes : CString → Env → CString)

theorem renderNodes_append (env : Env) (first : Option Bool) {nodes' : List Node}
    {text text' : CString} (h : renderNodes includes env first nodes = some text)
    (h' : renderNodes includes env first nodes' = some text') :
    renderNodes includes env first (nodes ++ nodes') = some (text ++ text') := by
  induction nodes generalizing text with
  | nil =>
    cases h
    exact h'
  | cons node nodes ih =>
    rw [renderNodes] at h
    obtain ⟨t, ht, h⟩ := Option.bind_eq_some_iff.mp h
    obtain ⟨ts, hts, heq⟩ := Option.bind_eq_some_iff.mp h
    cases heq
    rw [List.cons_append, renderNodes, ht, ih hts]
    simp

theorem renderNodes_singleton (env : Env) (first : Option Bool) (node : Node) :
    renderNodes includes env first [node] = renderNode includes env first node := by
  rw [renderNodes]
  cases renderNode includes env first node <;> simp [renderNodes]

theorem exists_parses_parts (ps : List Part) :
    ∃ nodes, Parses parseNodes (ps.map partItem) nodes ∧
      ∀ env first, renderNodes includes env first nodes = some (ps.flatMap Part.value) := by
  induction ps with
  | nil => exact ⟨[], Parses.nil, fun env first => by rw [renderNodes, List.flatMap_nil]⟩
  | cons p ps ih =>
    obtain ⟨nodes, hparses, hrender⟩ := ih
    cases p with
    | plain c =>
      refine ⟨_, (parses_char c).append hparses, fun env first => ?_⟩
      refine renderNodes_append includes env first ?_ (hrender env first)
      rw [renderNodes_singleton, renderNode]
      rfl
    | special group =>
      refine ⟨_, (parses_output (.constant group)).append hparses, fun env first => ?_⟩
      refine renderNodes_append includes env first ?_ (hrender env first)
      rw [renderNodes_singleton, renderNode]
      rfl

end Nodes

variable {env : Env}
variable {found : List (Env × Data)}

section Places

variable {body : Bool → Data → Option CString} {text : Data → CString} {elems : List Data}
variable {path : List CString}

theorem renderEach_eq (h : ∀ e ∈ elems, ∀ first, body first e = some (text e)) (first : Bool) :
    renderEach body first elems = some (elems.flatMap text) := by
  induction elems generalizing first with
  | nil => rfl
  | cons e elems ih =>
    rw [renderEach, h e List.mem_cons_self,
      ih (fun e he => h e (List.mem_cons_of_mem _ he)) false]
    rfl

theorem renderEach_separated {sep : CString} (hfirst : ∀ e ∈ elems, body true e = some (text e))
    (hnext : ∀ e ∈ elems, body false e = some (sep ++ text e)) :
    renderEach body true elems = some (sep.intercalate (elems.map text)) := by
  have hrest {elems : List Data} (h : ∀ e ∈ elems, body false e = some (sep ++ text e)) :
      renderEach body false elems = some (elems.flatMap fun e => sep ++ text e) := by
    induction elems with
    | nil => rfl
    | cons e elems ih =>
      rw [renderEach, h e List.mem_cons_self, ih (fun e he => h e (List.mem_cons_of_mem _ he))]
      rfl
  have hintercalate (e : Data) (elems : List Data) :
      sep.intercalate ((e :: elems).map text) =
        text e ++ elems.flatMap fun e => sep ++ text e := by
    induction elems generalizing e with
    | nil => simp
    | cons e' elems ih =>
      rw [List.map_cons, List.map_cons, List.intercalate_cons_cons, ← List.map_cons, ih,
        List.flatMap_cons, List.append_assoc, List.append_assoc]
  cases elems with
  | nil => rfl
  | cons e elems =>
    rw [renderEach, hfirst e List.mem_cons_self,
      hrest (fun e he => hnext e (List.mem_cons_of_mem _ he)), hintercalate]
    rfl

theorem exists_text_of_forall₂ {α β : Type} {R : α → List β → Prop} {as : List α}
    {bss : List (List β)} {render : α → Option Bool → Option CString} {text : β → CString}
    (h : List.Forall₂ R as bss)
    (hstep : ∀ a ∈ as, ∀ bs ∈ bss, R a bs → ∀ first, render a first = some (bs.flatMap text)) :
    ∃ text' : α → CString, (∀ a ∈ as, ∀ first, render a first = some (text' a)) ∧
      as.flatMap text' = bss.flatten.flatMap text := by
  have htext {a : α} {bs : List β} (heq : ∀ first, render a first = some (bs.flatMap text)) :
      ((render a none).getD []) = bs.flatMap text := by
    rw [heq none]
    rfl
  refine ⟨fun a => (render a none).getD [], ?_, ?_⟩
  · intro a ha first
    obtain ⟨bs, hbs, hR⟩ := mem_left_of_forall₂ h.flip ha
    have heq := hstep a ha bs hbs hR
    exact (heq first).trans (congrArg some (htext heq).symm)
  · induction h with
    | nil => rfl
    | @cons a bs as bss hR _ ih =>
      rw [List.flatMap_cons, List.flatten_cons, List.flatMap_append,
        htext (hstep a List.mem_cons_self bs List.mem_cons_self hR),
        ih fun a ha bs hbs => hstep a (List.mem_cons_of_mem _ ha) bs (List.mem_cons_of_mem _ hbs)]

theorem nestNodes_concat (loops : List (CString × List CString)) (loop : CString × List CString)
    (body : List Node) :
    nestNodes (loops ++ [loop]) body = nestNodes loops [.loop loop.1 loop.2 body] := by
  induction loops with
  | nil => rfl
  | cons l loops ih => rw [List.cons_append, nestNodes, ih, nestNodes]

variable {methods : Methods}
variable (includes : CString → Env → CString)

theorem renderNode_loop {i : CString} {outer : List (Env × Data)} (hnamed : Named methods context)
    (hi : methods.getSequenceIterator context = some i)
    (hbelow : Below methods joinContext (parentParam context) path)
    (houter : places methods joinContext env (parentParam context) = some outer)
    {place : Env × Data} (hplace : place ∈ outer) {next : List (Env × Data)}
    (hnext : placesIn methods context place = some next) {body : List Node}
    {text : Env × Data → CString}
    (hbody : ∀ inner ∈ next, ∀ first, renderNodes includes inner.1 first body = some (text inner))
    (first : Option Bool) :
    renderNodes includes place.1 first
        [.loop (loopOf methods context).1 (loopOf methods context).2 body] =
      some (next.flatMap text) := by
  obtain ⟨elems, hlist, rfl⟩ := hnamed.nameValue_sequence hi hbelow houter hplace hnext
  have hiterator : iteratorOf methods context = i := by
    rw [iteratorOf, hi]
    rfl
  have hstep : ∀ e ∈ elems, ∀ first : Bool,
      renderNodes includes ((i, e) :: place.1) (some first) body =
        some (text ((i, e) :: place.1, e)) :=
    fun e he first => hbody _ (List.mem_map_of_mem he) (some first)
  rw [nameValue] at hlist
  rw [renderNodes_singleton, renderNode, loopOf, hlist, hiterator]
  refine (renderEach_eq hstep true).trans ?_
  rw [List.flatMap_map]

theorem renderNodes_nest (hbelow : Below methods joinContext context path)
    (hnamed : context ≠ [] → Named methods context)
    (hplaces : places methods joinContext env context = some found) {body : List Node}
    {text : Env × Data → CString} (hbody : ∀ place ∈ found, ∀ first,
      renderNodes includes place.1 first body = some (text place)) (first : Option Bool) :
    renderNodes includes env first (nestNodes (path.reverse.map (loopOf methods)) body) =
      some (found.flatMap text) := by
  induction hbelow generalizing found body text first with
  | join =>
    rw [places_join] at hplaces
    obtain ⟨d, -, rfl⟩ := Option.map_eq_some_iff.mp hplaces
    rw [List.flatMap_singleton]
    exact hbody _ (List.mem_singleton_self _) first
  | @single context path hjoin hne hi hbelow ih =>
    obtain ⟨outer, inner, houter, hinner, rfl⟩ := exists_places_parent hjoin hne hplaces
    -- The body does not see the value of the place, only the variables.
    have hstep : ∀ place ∈ outer, ∀ next ∈ inner, placesIn methods context place = some next →
        ∀ first, renderNodes includes place.1 first body = some (next.flatMap text) := by
      intro place _ next hnext hin first
      rw [placesIn_none hi] at hin
      obtain ⟨d, -, rfl⟩ := Option.map_eq_some_iff.mp hin
      rw [List.flatMap_singleton]
      exact hbody (place.1, d)
        (List.mem_flatten.mpr ⟨_, hnext, List.mem_singleton_self _⟩) first
    obtain ⟨text', htext', heq⟩ := exists_text_of_forall₂ hinner hstep
    rw [← heq]
    exact ih (fun hnil => ((hnamed hne).parent hnil).2.2.2) houter htext' first
  | @sequence context path i hjoin hne hi hbelow ih =>
    obtain ⟨outer, inner, houter, hinner, rfl⟩ := exists_places_parent hjoin hne hplaces
    have hstep : ∀ place ∈ outer, ∀ next ∈ inner, placesIn methods context place = some next →
        ∀ first, renderNodes includes place.1 first
          [.loop (loopOf methods context).1 (loopOf methods context).2 body] =
            some (next.flatMap text) :=
      fun place hplace next hnext hin => renderNode_loop includes (hnamed hne) hi hbelow houter
        hplace hin fun p hp => hbody p (List.mem_flatten.mpr ⟨_, hnext, hp⟩)
    obtain ⟨text', htext', heq⟩ := exists_text_of_forall₂ hinner hstep
    rw [List.reverse_cons, List.map_append, List.map_singleton, nestNodes_concat, ← heq]
    exact ih (fun hnil => ((hnamed hne).parent hnil).2.2.2) houter htext' first

end Places

variable {sep : CString}
variable {v : CString}

section Forms

variable {methods : Methods}

theorem below_of_getContextPath (hpath : getContextPath methods joinContext elemRef = .ok contexts)
    (hne : contexts ≠ []) :
    elemRef.getBaseContext ≠ [] ∧ Below methods joinContext elemRef.getBaseContext contexts := by
  rw [getContextPath] at hpath
  by_cases hlength : elemRef.getBaseContext.length = 0
  · rw [if_pos hlength] at hpath
    cases hpath
    exact absurd rfl hne
  · rw [if_neg hlength] at hpath
    dsimp only at hpath
    split_ifs at hpath with hleft
    cases hpath
    refine ⟨fun hnil => hlength (by rw [hnil, List.length_nil]), ?_⟩
    exact below_of_contextPathFrom _ _ _ (Nat.le_refl _) (Prod.ext rfl (not_not.mp hleft))

theorem RefNamed.named (h : RefNamed methods elemRef) : Named methods elemRef.getBaseContext := by
  cases elemRef with
  | paramRef paramName position value => exact h
  | templateRef template position value => exact h.1

/-- Templates, and parameters below several sequences, are joined by loops. -/
theorem emitRef_eq_generic (hpath : getContextPath methods joinContext elemRef = .ok contexts)
    (hne : contexts ≠ [])
    (hseveral : ∀ paramName position value, elemRef = .paramRef paramName position value →
      1 < contexts.length) (joinStr : Option CString) (out : Output) :
    emitRef methods joinContext elemRef true joinStr out =
      emitJoinGeneric methods elemRef contexts joinStr out := by
  simp only [emitRef, if_true, hpath, bind, Except.bind]
  cases elemRef with
  | paramRef paramName position value =>
    have hlength := hseveral _ _ _ rfl
    rcases contexts with _ | ⟨_, _ | ⟨_, _⟩⟩
    · exact absurd hlength (Nat.not_lt_zero 1)
    · exact absurd hlength (Nat.lt_irrefl 1)
    · rfl
  | templateRef template position value =>
    rcases contexts with _ | ⟨_, _ | ⟨_, _⟩⟩
    · exact absurd rfl hne
    · rfl
    · rfl

/-- Lines of the text end with newlines only. -/
def Lined (s : CString) : Prop := ∀ c ∈ s, isOtherLineEnd c = false

variable {s : CString}

theorem lined_of_all (h : s.all (fun c => !isOtherLineEnd c) = true) : Lined s :=
  not_lineEnd_of_all h

theorem Lined.append {t : CString} (hs : Lined s) (ht : Lined t) : Lined (s ++ t) := by
  intro c hc
  exact (List.mem_append.mp hc).elim (hs c) (ht c)

theorem Lined.block {b : CString} (hb : Lined b) : Lined (block b) :=
  ((lined_of_all (s := ['<', '$']) rfl).append hb).append
    (lined_of_all (s := ['$', '>']) rfl)

theorem Lined.variableText (hv : Lined v) : Lined (variableText v) :=
  ((lined_of_all (s := ['{', '{']) rfl).append hv).append
    (lined_of_all (s := ['}', '}']) rfl)

theorem lined_blocks {bs : List CString} (h : ∀ b ∈ bs, Lined b) : Lined (bs.flatMap block) := by
  intro c hc
  obtain ⟨b, hb, hc⟩ := List.mem_flatMap.mp hc
  exact (h b hb).block c hc

theorem lined_of_isVariableName {name : CString} (h : isVariableName name = true) : Lined name :=
  fun c hc => isOtherLineEnd_of_isName ((isVariableName_cons h).1 c hc)

theorem lined_forBlock {context : CString} (h : Named methods context)
    (hsequence : IsSequence methods context) : Lined (forBlock methods context) :=
  (((lined_of_all (s := "for ".toList) rfl).append
    (lined_of_isVariableName (h.isIterator hsequence).isVariable)).append
      (lined_of_all (s := " in ".toList) rfl)).append
        (lined_of_isVariableName h.objectName_variable.1)

theorem lined_refText (h : RefNamed methods elemRef) : Lined (refText methods elemRef) := by
  cases elemRef with
  | paramRef paramName position value =>
    exact (lined_of_isVariableName (Named.objectName_variable h).1).variableText
  | templateRef template position value =>
    have hname : Lined template.templateName := fun c hc => (h.2 c hc).2.2
    exact (((lined_of_all (s := "include ".toList ++ [quote]) rfl).append
      hname).append (lined_of_all (s := [quote]) rfl)).block

theorem lined_spell (h : Lined sep) :
    Lined (spell true ((parts sep).map Part.item ++ [TemplateConverter.Item.endifMark])) := by
  refine any_spell (fun item hitem => ?_) true
  rcases List.mem_append.mp hitem with hitem | hitem
  · obtain ⟨part, hpart, rfl⟩ := List.mem_map.mp hitem
    cases part with
    | plain c =>
      refine h c ?_
      rw [← flatMap_value_parts sep]
      exact List.mem_flatMap.mpr ⟨_, hpart, List.mem_singleton_self _⟩
    | special group => exact special_mem_parts hpart
  · rw [List.mem_singleton.mp hitem]
    trivial

theorem lined_separatorText (h : Lined sep) : Lined (separatorText sep 1) := by
  rw [separatorText]
  split_ifs
  · exact lined_of_all rfl
  · exact (lined_of_all (s := "if ".toList ++ notFirst 1) rfl).block.append (lined_spell h)

theorem getLast?_block (s b : CString) : (s ++ block b).getLast? = some '>' := by
  rw [block, ← List.append_assoc, List.getLast?_append_of_ne_nil _ (List.cons_ne_nil _ _)]
  rfl

theorem getLast?_endfors {n : Nat} (hn : n ≠ 0) (s : CString) :
    (s ++ (List.replicate n "endfor".toList).flatMap block).getLast? = some '>' := by
  obtain ⟨k, rfl⟩ := Nat.exists_eq_succ_of_ne_zero hn
  rw [List.replicate_succ', List.flatMap_append, List.flatMap_singleton, ← List.append_assoc,
    getLast?_block]

end Forms

variable {render : (CString → Env → CString) → Env → CString → Option CString}

section LoopForms

variable {methods : Methods}
variable {includes : CString → Env → CString}

def refNode (methods : Methods) : ElemRef → Node
  | .paramRef paramName _ _ => .output (.path ((relName methods paramName).splitOn '.'))
  | .templateRef template _ _ => .inclusion template.templateName

variable (methods) in
theorem parses_ref (elemRef : ElemRef) :
    Parses parseNodes [refItem methods elemRef] [refNode methods elemRef] := by
  cases elemRef with
  | paramRef paramName position value => exact parses_output _
  | templateRef template position value => exact parses_inclusion _

def PlaceText (includes : CString → Env → CString) (place : Env × Data) (text : CString) :
    ElemRef → Prop
  | .paramRef _ _ _ => place.2.printed = some text
  | .templateRef template _ _ => includes template.templateName place.1 = text

theorem exists_texts {texts : List CString}
    (h : joinedTexts methods joinContext env includes elemRef = some texts) :
    ∃ found, ∃ text : Env × Data → CString,
      places methods joinContext env elemRef.getBaseContext = some found ∧
      texts = found.map text ∧ ∀ place ∈ found, PlaceText includes place (text place) elemRef := by
  cases elemRef with
  | paramRef paramName position value =>
    obtain ⟨found, hplaces, hprinted⟩ := Option.bind_eq_some_iff.mp h
    have htexts := forall₂_of_mapM hprinted
    refine ⟨found, fun place => place.2.printed.getD [], hplaces, ?_, ?_⟩
    · clear h hplaces hprinted
      induction htexts with
      | nil => rfl
      | cons htext _ ih => rw [List.map_cons, ← ih, htext, Option.getD_some]
    · intro place hplace
      obtain ⟨text, -, htext⟩ := mem_left_of_forall₂ htexts.flip hplace
      change place.2.printed = some (place.2.printed.getD [])
      rw [htext, Option.getD_some]
  | templateRef template position value =>
    obtain ⟨found, hplaces, htexts⟩ := Option.bind_eq_some_iff.mp h
    cases htexts
    exact ⟨found, _, hplaces, rfl, fun place _ => rfl⟩

/-- The reference is a value in the loops around it. -/
def IsValue (methods : Methods) : ElemRef → Prop
  | .paramRef paramName _ _ => methods.getSequenceIterator paramName = none
  | .templateRef _ _ _ => True

theorem renderNodes_ref (hnamed : RefNamed methods elemRef) (hvalue : IsValue methods elemRef)
    (hbelow : Below methods joinContext elemRef.getBaseContext contexts)
    (hplaces : places methods joinContext env elemRef.getBaseContext = some found)
    {place : Env × Data} (hplace : place ∈ found) {text : CString}
    (htext : PlaceText includes place text elemRef) (first : Option Bool) :
    renderNodes includes place.1 first [refNode methods elemRef] = some text := by
  rw [renderNodes_singleton]
  cases elemRef with
  | paramRef paramName position value =>
    have hobject : objectName methods paramName = relName methods paramName := by
      have hi : methods.getSequenceIterator paramName = none := hvalue
      rw [objectName, hi, Option.getD_none]
    have hplaceValue : objectOf methods place.1 (contextsOf paramName) = some place.2 :=
      objectOf_of_mem hbelow hplaces hplace
    have hname := (Named.nameValue_eq hnamed place.1).2
    rw [hobject, nameValue, hplaceValue] at hname
    rw [refNode, renderNode, Expr.text, hname]
    exact htext
  | templateRef template position value =>
    rw [refNode, renderNode]
    exact congrArg some htext

theorem intercalate_nil_left (texts : List CString) :
    ([] : CString).intercalate texts = texts.flatten := by
  induction texts with
  | nil => rfl
  | cons text texts ih =>
    cases texts with
    | nil => simp
    | cons next texts =>
      rw [List.intercalate_cons_cons, ih, List.append_nil]
      rfl

theorem exists_readTemplate_loops (hnamed : RefNamed methods elemRef)
    (hpath : getContextPath methods joinContext elemRef = .ok contexts) (hne : contexts ≠ [])
    (hloops : ∀ c ∈ contexts, IsLoop methods c) (hsimple : contexts.length = 1 ∨ sep = [])
    {items : List Item} {nodes : List Node}
    (hpiece : Piece (separatorText sep contexts.length) items) (hparses : Parses parseNodes items nodes)
    (hlined : Lined (separatorText sep contexts.length)) :
    ∃ out,
      emitJoinGeneric methods elemRef contexts (some sep) ⟨[], false, false⟩ = .ok out ∧
      readTemplate out.contents =
        .ok (nestNodes (contexts.reverse.map (loopOf methods))
          (nodes ++ [refNode methods elemRef])) := by
  obtain ⟨hbase, hbelow⟩ := below_of_getContextPath hpath hne
  have hsequences : ∀ c ∈ contexts.reverse, Named methods c ∧ IsSequence methods c :=
    fun c hc => hbelow.named (fun _ => hnamed.named) c (List.mem_reverse.mp hc)
  obtain ⟨out, hemit, hcontents⟩ := exists_emitJoinGeneric hbase
    (emitLoops_simple hsimple contexts.reverse (fun c hc => (hsequences c hc).2) 0
      ⟨[], false, false⟩)
  refine ⟨out, hemit, ?_⟩
  rw [hcontents, List.nil_append]
  have htotal := (piece_blocks (blockReads_forBlocks hsequences
      fun c hc => hloops c (List.mem_reverse.mp hc))).append
    (hpiece.append ((piece_ref hnamed).append (piece_blocks (blockReads_endfors contexts.length))))
  have hnest := parses_nest (hparses.append (parses_ref methods elemRef))
    (contexts.reverse.map (loopOf methods))
  rw [List.length_map, List.length_reverse, List.append_assoc] at hnest
  refine readTemplate_of_piece htotal (parseNodes_eq_of_parses hnest) ?_ ?_
  · refine (lined_blocks fun b hb => ?_).append (hlined.append ((lined_refText hnamed).append
      (lined_blocks fun b hb => ?_)))
    · obtain ⟨c, hc, rfl⟩ := List.mem_map.mp hb
      exact lined_forBlock (hsequences c hc).1 (hsequences c hc).2
    · rw [List.eq_of_mem_replicate hb]
      exact lined_of_all rfl
  · rw [← List.append_assoc, ← List.append_assoc, getLast?_endfors]
    · decide
    · exact fun hlength => hne (List.eq_nil_of_length_eq_zero hlength)

theorem joinSurvives_nil (hrender : Documented render) (hnamed : RefNamed methods elemRef)
    (hpath : getContextPath methods joinContext elemRef = .ok contexts) (hne : contexts ≠ [])
    (hloops : ∀ c ∈ contexts, IsLoop methods c)
    (hseveral : ∀ paramName position value, elemRef = .paramRef paramName position value →
      1 < contexts.length) (hvalue : IsValue methods elemRef) :
    JoinSurvives methods joinContext render elemRef [] := by
  intro includes env texts hjoined
  obtain ⟨-, hbelow⟩ := below_of_getContextPath hpath hne
  obtain ⟨found, text, hplaces, rfl, htext⟩ := exists_texts hjoined
  have hpiece : Piece (separatorText [] contexts.length) [] := Piece.nil
  obtain ⟨out, hemit, hread⟩ := exists_readTemplate_loops hnamed hpath hne hloops (.inr rfl)
    hpiece
    Parses.nil (lined_of_all rfl)
  refine ⟨out, (emitRef_eq_generic hpath hne hseveral _ _).trans hemit, ?_⟩
  refine hrender.rendered includes env _ _ _ hread ?_
  rw [intercalate_nil_left, ← List.flatMap_def]
  exact renderNodes_nest includes hbelow (fun _ => hnamed.named) hplaces
    (fun place hplace first =>
      renderNodes_ref hnamed hvalue hbelow hplaces hplace (htext place hplace) first) none

theorem joinSurvives_template (hrender : Documented render) {template : Template}
    {position : Position} {value context : CString}
    (hnamed : RefNamed methods (.templateRef template position value))
    (hpath : getContextPath methods joinContext (.templateRef template position value) =
      .ok [context]) (hloop : IsLoop methods context) (hsep : sep ≠ []) (hends : Lined sep)
    (hapart : ((parts sep).map Part.item).IsChain Apart) :
    JoinSurvives methods joinContext render (.templateRef template position value) sep := by
  intro includes env texts hjoined
  have hne : [context] ≠ [] := List.cons_ne_nil _ _
  obtain ⟨-, hbelow⟩ := below_of_getContextPath hpath hne
  obtain ⟨found, text, hplaces, rfl, htext⟩ := exists_texts hjoined
  obtain ⟨sepNodes, hparses, hsepText⟩ := exists_parses_parts includes (parts sep)
  obtain ⟨out, hemit, hread⟩ := exists_readTemplate_loops hnamed hpath hne
    (fun c hc => List.mem_singleton.mp hc ▸ hloop) (.inl rfl)
    (piece_separator hsep hapart) (parses_notFirst hparses) (lined_separatorText hends)
  refine ⟨out, (emitRef_eq_generic hpath hne (fun _ _ _ h => by cases h) _ _).trans hemit, ?_⟩
  refine hrender.rendered includes env _ _ _ hread ?_
  obtain ⟨i, elems, names, hi, hlist, -, hplaceOf⟩ :=
    places_of_one_sequence hbelow hnamed.named hplaces
  have hiterator : iteratorOf methods context = i := by
    rw [iteratorOf, hi]
    rfl
  have htexts : found.map text = elems.map fun e => includes template.templateName ((i, e) :: env) := by
    clear hplaces hjoined hlist
    induction hplaceOf with
    | nil => rfl
    | @cons e place elems found hplace _ ih =>
      rw [List.map_cons, List.map_cons, ih fun p hp => htext p (List.mem_cons_of_mem _ hp),
        ← hplace.1]
      exact congrArg (· :: _) (htext place List.mem_cons_self).symm
  have hbody (e : Data) (first : Bool) :
      renderNodes includes ((i, e) :: env) (some first)
          ([.notFirst sepNodes] ++ [refNode methods (.templateRef template position value)]) =
        some ((if first then [] else sep) ++ includes template.templateName ((i, e) :: env)) := by
    refine renderNodes_append includes _ _ ?_ ?_
    · rw [renderNodes_singleton, renderNode, Option.bind_some]
      cases first with
      | true => rfl
      | false => rw [if_neg Bool.false_ne_true, hsepText, flatMap_value_parts]; rfl
    · rw [renderNodes_singleton]
      rfl
  have hnext : ∀ e ∈ elems,
      renderNodes includes ((i, e) :: env) (some false)
          ([.notFirst sepNodes] ++ [refNode methods (.templateRef template position value)]) =
        some (sep ++ includes template.templateName ((i, e) :: env)) :=
    fun e _ => hbody e false
  rw [nameValue] at hlist
  rw [htexts]
  simp only [List.reverse_singleton, List.map_singleton, nestNodes, renderNodes_singleton,
    renderNode, loopOf, hlist, hiterator, Option.bind_eq_bind, Option.bind_some, Data.elements]
  exact renderEach_separated (fun e _ => hbody e true) hnext

/-- There are data for every join: two elements in each sequence and empty texts. -/
theorem exists_joinedTexts (hnamed : RefNamed methods elemRef)
    (hbelow : Below methods joinContext elemRef.getBaseContext contexts) (hne : contexts ≠ []) :
    ∃ env, joinedTexts methods joinContext env (fun _ _ => []) elemRef =
      some (List.replicate (2 ^ contexts.length) []) := by
  have hjoin : elemRef.getBaseContext ≠ joinContext := by
    intro heq
    cases hbelow with
    | join => exact hne rfl
    | single hjoin => exact hjoin heq
    | sequence hjoin => exact hjoin heq
  obtain ⟨env, found, hplaces, hlength, hvalues⟩ := hbelow.exists_places
    (fun _ => hnamed.named) (.text []) (fun heq => absurd heq hjoin)
  have htexts : (found.map fun _ => ([] : CString)) = List.replicate (2 ^ contexts.length) [] := by
    rw [List.map_const', hlength]
  refine ⟨env, ?_⟩
  rw [← htexts]
  cases elemRef with
  | paramRef paramName position value =>
    change places methods joinContext env paramName = some found at hplaces
    change (places methods joinContext env paramName).bind _ = _
    rw [hplaces, Option.bind_some]
    refine mapM_eq_of_forall fun place hplace => ?_
    rw [hvalues place hplace]
    rfl
  | templateRef template position value =>
    change places methods joinContext env template.baseContext = some found at hplaces
    change (places methods joinContext env template.baseContext).bind _ = _
    rw [hplaces]
    rfl

theorem exists_readTemplate_several (hnamed : RefNamed methods elemRef)
    (hpath : getContextPath methods joinContext elemRef = .ok contexts)
    (hseveral : 1 < contexts.length) (hsep : sep ≠ []) :
    ∃ out,
      emitRef methods joinContext elemRef true (some sep) ⟨[], false, false⟩ = .ok out ∧
      readTemplate out.contents = .error .syntaxError := by
  have hne : contexts ≠ [] := by
    rintro rfl
    exact absurd hseveral (Nat.not_lt_zero _)
  obtain ⟨hbase, hbelow⟩ := below_of_getContextPath hpath hne
  have hsequences : ∀ c ∈ contexts.reverse, Named methods c ∧ IsSequence methods c :=
    fun c hc => hbelow.named (fun _ => hnamed.named) c (List.mem_reverse.mp hc)
  have hblocks := loopBlocks_read contexts.length hsequences 0
  obtain ⟨out, hemit, hcontents⟩ := exists_emitJoinGeneric hbase
    (emitLoops_several hseveral hsep contexts.reverse (fun c hc => (hsequences c hc).2) 0
      ⟨[], false, false⟩)
  refine ⟨out, (emitRef_eq_generic hpath hne (fun _ _ _ _ => hseveral) _ _).trans hemit, ?_⟩
  rw [hcontents, List.nil_append, separatorText, if_neg hsep]
  refine readTemplate_of_rejects ?_ ?_
  · rw [List.append_assoc]
    exact (rejects_blocks hblocks (trimNewline_block _ _)
      (rejects_error (readBlock_notFirst hseveral) _)).2
  · rw [← List.append_assoc, ← List.append_assoc, ← List.append_assoc, getLast?_endfors]
    · decide
    · omega

end LoopForms

variable {paramName value : CString} {position : Position}

section FilterForms

variable {methods : Methods} {sequence : CString}

/-- The attribute that is joined for a parameter, if it is not the sequence itself. -/
def attributeOf (paramName sequence : CString) : Option CString :=
  if sequence = paramName then none else some (paramName.drop (sequence.length + 1))

theorem attributeOf_self (paramName : CString) : attributeOf paramName paramName = none :=
  if_pos rfl

@[simp] theorem attributeOf_append (sequence attr : CString) :
    attributeOf (sequence ++ '.' :: attr) sequence = some attr := by
  rw [attributeOf, if_neg]
  · rw [← List.singleton_append, ← List.append_assoc]
    exact congrArg some (List.drop_left' (by simp))
  · intro heq
    have hlength := congrArg List.length heq
    rw [List.length_append, List.length_cons] at hlength
    omega

variable {names : List CString}

theorem Members.attributeFields_eq (h : Members sequence paramName names) :
    attributeFields (attributeOf paramName sequence) = names := by
  rcases h with ⟨rfl, rfl⟩ | ⟨attr, rfl, rfl⟩
  · rw [attributeOf_self]
    rfl
  · rw [attributeOf_append]
    rfl

theorem Members.visible (h : Members sequence paramName names) (hnamed : Named methods paramName) :
    ∀ name ∈ names, isHidden name = false := by
  rcases h with ⟨-, rfl⟩ | ⟨attr, rfl, rfl⟩
  · exact fun name hname => absurd hname List.not_mem_nil
  · intro name hname
    refine hnamed.visible name ?_
    rw [List.splitOn_append_cons_self, List.tail_append_of_ne_nil (List.splitOn_ne_nil _ _)]
    exact List.mem_append_right _ hname

theorem foldlM_field (h : ∀ name ∈ names, isHidden name = false) (e : Data) :
    names.foldlM field e = memberPath e names := by
  induction names generalizing e with
  | nil => rfl
  | cons name names ih =>
    have hfield : field e name = e.member name := by
      rw [field, h name List.mem_cons_self]
      rfl
    rw [List.foldlM_cons, memberPath, List.foldlM_cons, hfield]
    refine congrArg _ (funext fun d => ?_)
    exact ih (fun name hname => h name (List.mem_cons_of_mem _ hname)) d

theorem renderNodes_filter {env : Env} (includes : CString → Env → CString)
    (hbelow : Below methods joinContext paramName [sequence]) (hnamed : Named methods paramName)
    (hplaces : places methods joinContext env paramName = some found)
    {texts : List CString} (htexts : (found.mapM fun place => place.2.printed) = some texts) :
    renderNodes includes env none
        [.output (.join ((relName methods sequence).splitOn '.') sep
          (attributeOf paramName sequence))] =
      some (sep.intercalate texts) := by
  obtain ⟨i, elems, names, -, hlist, hmembers, hplaceOf⟩ :=
    places_of_one_sequence hbelow hnamed hplaces
  have hvisible := hmembers.visible hnamed
  have hvalues : (elems.mapM fun e => (names.foldlM field e).bind Data.printed) = some texts := by
    rw [← htexts]
    clear hplaces htexts hlist
    induction hplaceOf with
    | nil => rfl
    | @cons e place elems found hplace _ ih =>
      rw [List.mapM_cons, List.mapM_cons, ih, foldlM_field hvisible, hplace.2]
      rfl
  rw [nameValue] at hlist
  rw [renderNodes_singleton, renderNode, Expr.text, hlist, hmembers.attributeFields_eq]
  simp only [Option.bind_some, Data.elements, Option.bind_eq_bind, hvalues]
  rfl

theorem readTemplate_variable {e : Expr} (hv : VariableReads v (.output e))
    (hlined : Lined v) : readTemplate (variableText v) = .ok [.output e] := by
  refine readTemplate_of_piece (piece_variable hv) (parseNodes_eq_of_parses (parses_output e))
    hlined.variableText ?_
  rw [variableText, List.getLast?_append_of_ne_nil _ (List.cons_ne_nil _ _)]
  decide

theorem lined_of_isVerbatim {s : CString} (h : isVerbatim s = true) : Lined s := by
  induction s with
  | nil => exact lined_of_all rfl
  | cons c s ih =>
    obtain ⟨-, hc, -, hs⟩ := isVerbatim_cons h
    intro d hd
    rcases List.mem_cons.mp hd with rfl | hd
    · exact hc
    · exact ih hs d hd

theorem isOtherLineEnd_of_printable {c : Char} (h : ' ' ≤ c ∧ c ≤ '~') : isOtherLineEnd c = false := by
  by_contra hend
  simp only [isOtherLineEnd, Bool.not_eq_false, Bool.or_eq_true, decide_eq_true_eq] at hend
  rcases hend with (((((((rfl | rfl) | rfl) | rfl) | rfl) | rfl) | rfl) | rfl) | rfl <;>
    exact absurd h (by decide)

theorem lined_hexDigits (b : UInt8) : Lined ('\\' :: 'x' :: hexDigits b) := by
  have hdigit : ∀ d < 16, isOtherLineEnd (Nat.digitChar d) = false := by decide
  have hbyte := b.toNat_lt
  intro c hc
  simp only [hexDigits, List.mem_cons, List.not_mem_nil, or_false] at hc
  rcases hc with rfl | rfl | rfl | rfl
  · rfl
  · rfl
  · exact hdigit _ (by omega)
  · exact hdigit _ (by omega)

theorem lined_escapeChar (c : Char) : Lined (escapeChar c) := by
  unfold escapeChar
  split_ifs with _ _ _ _ _ hprintable
  · exact lined_of_all rfl
  · exact lined_of_all rfl
  · exact lined_of_all rfl
  · exact lined_of_all rfl
  · exact lined_of_all rfl
  · intro d hd
    rw [List.mem_singleton.mp hd]
    exact isOtherLineEnd_of_printable hprintable
  · intro d hd
    obtain ⟨b, -, hd⟩ := List.mem_flatMap.mp hd
    exact lined_hexDigits b d hd

theorem lined_stringEscape (s : CString) : Lined (stringEscape s) := by
  intro d hd
  obtain ⟨c, -, hd⟩ := List.mem_flatMap.mp hd
  exact lined_escapeChar c d hd

/-- A variable with the filter survives exactly when its constant is read as the separator. -/
theorem joinSurvives_variable_iff (hrender : Documented render) (hnamed : Named methods paramName)
    (hbelow : Below methods joinContext paramName [sequence]) {d : CString}
    (hemit : emitRef methods joinContext (.paramRef paramName position value) true (some sep)
      ⟨[], false, false⟩ = .ok ((⟨[], false, false⟩ : Output).emitVariable v))
    (hv : VariableReads v (.output (.join ((relName methods sequence).splitOn '.') d
      (attributeOf paramName sequence)))) (hlined : Lined v) :
    JoinSurvives methods joinContext render (.paramRef paramName position value) sep ↔ d = sep := by
  have htext (includes : CString → Env → CString) (env : Env) {texts : List CString}
      (hjoined : joinedTexts methods joinContext env includes
        (.paramRef paramName position value) = some texts) :
      render includes env ((⟨[], false, false⟩ : Output).emitVariable v).contents =
        some (d.intercalate texts) := by
    obtain ⟨found, hplaces, htexts⟩ := Option.bind_eq_some_iff.mp hjoined
    rw [contents_emitVariable, List.nil_append]
    exact hrender.rendered includes env _ _ _ (readTemplate_variable hv hlined)
      (renderNodes_filter includes hbelow hnamed hplaces htexts)
  constructor
  · intro hsurvives
    -- Two elements with empty texts show the separator alone.
    obtain ⟨env, hjoined⟩ := exists_joinedTexts
      (show RefNamed methods (.paramRef paramName position value) from hnamed) hbelow
      (List.cons_ne_nil _ _)
    obtain ⟨out, hout, hrendered⟩ := hsurvives _ _ _ hjoined
    rw [hemit] at hout
    cases hout
    rw [htext _ _ hjoined] at hrendered
    simpa using hrendered
  · rintro rfl includes env texts hjoined
    exact ⟨_, hemit, htext includes env hjoined⟩

variable {d : CString}

theorem joinSurvives_filter_iff (hrender : Documented render) (hnamed : Named methods paramName)
    (hpath : getContextPath methods joinContext (.paramRef paramName position value) =
      .ok [paramName]) (hread : ConstantReads (stringEscape sep) d) :
    JoinSurvives methods joinContext render (.paramRef paramName position value) sep ↔ d = sep := by
  obtain ⟨hne, hbelow⟩ := below_of_getContextPath hpath (List.cons_ne_nil _ _)
  have hrel := hnamed.objectName_variable.1
  refine joinSurvives_variable_iff hrender hnamed hbelow ?_
    (attributeOf_self paramName ▸ variableReads_join hrel hread) ?_
  · have hname : relParamName methods paramName = .ok (relName methods paramName) :=
      relParamName_of_ne_nil hne
    simp only [emitRef, if_true, hpath, bind, Except.bind, emitParameterJoined, hname]
    rfl
  · exact (((lined_of_isVariableName hrel).append (lined_of_all rfl)).append
      (lined_stringEscape sep)).append (lined_of_all rfl)

theorem joinSurvives_attribute_iff (hrender : Documented render) (hnamed : Named methods paramName)
    (hpath : getContextPath methods joinContext (.paramRef paramName position value) =
      .ok [sequence]) (hother : sequence ≠ paramName) (hsep : Lined sep)
    (hread : ConstantReads sep d) :
    JoinSurvives methods joinContext render (.paramRef paramName position value) sep ↔ d = sep := by
  obtain ⟨hne, hbelow⟩ := below_of_getContextPath hpath (List.cons_ne_nil _ _)
  obtain ⟨hnamed', hsequence⟩ :=
    hbelow.named (fun _ => hnamed) sequence (List.mem_singleton_self _)
  have hrel := hnamed'.objectName_variable.1
  obtain ⟨names, ⟨heq, -⟩ | ⟨attr, heq, -⟩⟩ := hbelow.exists_members hnamed
  · exact absurd heq.symm hother
  change paramName = sequence ++ '.' :: attr at heq
  have hattr : IsAttribute attr := by
    have hvariable := hnamed.isVariable
    rw [heq] at hvariable
    simp only [isVariableName, Bool.and_eq_true, List.all_eq_true, List.splitOn_append_cons_self,
      List.mem_append, List.mem_cons] at hvariable
    exact ⟨fun c hc => hvariable.1.1 c (.inr (.inr hc)),
      List.all_eq_true.mpr fun name hname => hvariable.1.2 name (.inr hname)⟩
  have hattribute : attributeOf paramName sequence = some attr := by
    rw [heq, attributeOf_append]
  have hdrop : paramName.drop (sequence.length + 1) = attr := by
    rw [attributeOf, if_neg hother] at hattribute
    exact Option.some_inj.mp hattribute
  refine joinSurvives_variable_iff hrender hnamed hbelow ?_
    (hattribute ▸ variableReads_joinAttribute hrel hread hattr) ?_
  · have hname : relParamName methods sequence = .ok (relName methods sequence) :=
      relParamName_of_ne_nil hsequence.1
    simp only [emitRef, if_true, hpath, bind, Except.bind, if_neg hother, emitParameterJoinedAttr,
      hname, hdrop]
    rfl
  · exact (((((lined_of_isVariableName hrel).append (lined_of_all rfl)).append hsep).append
      (lined_of_all rfl)).append (fun c hc => isOtherLineEnd_of_isName (hattr.isName c hc))).append
        (lined_of_all rfl)

end FilterForms

section Joins

variable {methods : Methods}

theorem isValue_of_head (hbelow : Below methods joinContext paramName contexts)
    (hne : contexts ≠ []) (hhead : contexts.head? ≠ some paramName) :
    IsValue methods (.paramRef paramName position value) := by
  cases hbelow with
  | join => exact absurd rfl hne
  | single _ _ hi => exact hi
  | sequence => exact absurd rfl hhead

/-- The loops that are written for the join are read as loops.  A parameter below one sequence has
no loop. -/
def LoopsRead (methods : Methods) (contexts : List CString) : ElemRef → Prop
  | .paramRef _ _ _ => 1 < contexts.length → ∀ c ∈ contexts, IsLoop methods c
  | .templateRef _ _ _ => ∀ c ∈ contexts, IsLoop methods c

def FilterReads (contexts : List CString) (sep d : CString) : ElemRef → Prop
  | .paramRef paramName _ _ =>
    contexts = [paramName] ∧ ConstantReads (stringEscape sep) d ∨
      ∃ context, context ≠ paramName ∧ contexts = [context] ∧ Lined sep ∧ ConstantReads sep d
  | .templateRef _ _ _ => False

theorem joinSurvives_iff_of_filterReads (hrender : Documented render)
    (hpath : getContextPath methods joinContext elemRef = .ok contexts)
    (hnamed : RefNamed methods elemRef) {d : CString} (hread : FilterReads contexts sep d elemRef) :
    JoinSurvives methods joinContext render elemRef sep ↔ d = sep := by
  cases elemRef with
  | paramRef paramName position value =>
    rcases hread with ⟨rfl, hread⟩ | ⟨context, hother, rfl, hsep, hread⟩
    · exact joinSurvives_filter_iff hrender hnamed hpath hread
    · exact joinSurvives_attribute_iff hrender hnamed hpath hother hsep hread
  | templateRef template position value => exact hread.elim

theorem SeparatorKept.filterReads {context : CString}
    (h : SeparatorKept [context] sep (.paramRef paramName position value)) :
    FilterReads [context] sep sep (.paramRef paramName position value) := by
  rw [SeparatorKept] at h
  split_ifs at h with hcontext
  · exact .inl ⟨by rw [hcontext], readConstant_stringEscape h⟩
  · exact .inr ⟨context, hcontext, rfl, lined_of_isVerbatim h, readConstant_verbatim h⟩

theorem joinSurvives_of_separatorKept (hrender : Documented render)
    (hpath : getContextPath methods joinContext elemRef = .ok contexts) (hne : contexts ≠ [])
    (hnamed : RefNamed methods elemRef) (hkept : SeparatorKept contexts sep elemRef)
    (hloops : LoopsRead methods contexts elemRef) :
    JoinSurvives methods joinContext render elemRef sep := by
  obtain ⟨-, hbelow⟩ := below_of_getContextPath hpath hne
  cases elemRef with
  | paramRef paramName position value =>
    match contexts, hne with
    | [context], _ =>
      exact (joinSurvives_iff_of_filterReads hrender hpath hnamed hkept.filterReads).mpr rfl
    | context :: context' :: contexts, hne =>
      obtain ⟨rfl, hhead⟩ : sep = [] ∧ _ := hkept
      exact joinSurvives_nil hrender hnamed hpath hne (hloops (by simp))
        (fun _ _ _ _ => by simp) (isValue_of_head hbelow hne hhead)
  | templateRef template position value =>
    match contexts, hne with
    | [context], hne =>
      obtain ⟨hends, hapart⟩ : (∀ c ∈ sep, isOtherLineEnd c = false) ∧ _ := hkept
      by_cases hsep : sep = []
      · subst hsep
        exact joinSurvives_nil hrender hnamed hpath hne hloops (fun _ _ _ h => by cases h) trivial
      · exact joinSurvives_template hrender hnamed hpath (hloops context List.mem_cons_self) hsep
          hends hapart
    | context :: context' :: contexts, hne =>
      obtain rfl : sep = [] := hkept
      exact joinSurvives_nil hrender hnamed hpath hne hloops (fun _ _ _ h => by cases h) trivial

theorem not_joinSurvives_of_several (hrender : Documented render)
    (hpath : getContextPath methods joinContext elemRef = .ok contexts)
    (hnamed : RefNamed methods elemRef) (hseveral : 1 < contexts.length) (hsep : sep ≠ []) :
    ¬ JoinSurvives methods joinContext render elemRef sep := by
  have hne : contexts ≠ [] := by
    rintro rfl
    exact absurd hseveral (Nat.not_lt_zero _)
  intro hsurvives
  obtain ⟨-, hbelow⟩ := below_of_getContextPath hpath hne
  obtain ⟨env, hjoined⟩ := exists_joinedTexts hnamed hbelow hne
  obtain ⟨out, hout, hrendered⟩ := hsurvives _ _ _ hjoined
  obtain ⟨out', hout', hread⟩ := exists_readTemplate_several hnamed hpath hseveral hsep
  rw [hout] at hout'
  cases hout'
  rw [hrender.rejected _ env _ hread] at hrendered
  cases hrendered

/--
A join survives when its form keeps the separator and its loops can be read.  It does not
survive with a separator for several loops, nor with one that the filter reads as another text.
-/
theorem joinSurvives_forms
    (render : (CString → Env → CString) → Env → CString → Option CString)
    (hrender : Documented render)
    (methods : Methods)
    (joinContext : CString)
    (elemRef : ElemRef)
    (contexts : List CString)
    (sep : CString)
    (hpath : getContextPath methods joinContext elemRef = .ok contexts)
    (hne : contexts ≠ [])
    (hnamed : RefNamed methods elemRef) :
    (SeparatorKept contexts sep elemRef ∧ LoopsRead methods contexts elemRef →
      JoinSurvives methods joinContext render elemRef sep) ∧
    (1 < contexts.length → sep ≠ [] →
      ¬ JoinSurvives methods joinContext render elemRef sep) ∧
    (∀ d, FilterReads contexts sep d elemRef → d ≠ sep →
      ¬ JoinSurvives methods joinContext render elemRef sep) := by
  refine ⟨fun h => joinSurvives_of_separatorKept hrender hpath hne hnamed h.1 h.2,
    not_joinSurvives_of_several hrender hpath hnamed, fun d hread hd hsurvives => hd ?_⟩
  exact (joinSurvives_iff_of_filterReads hrender hpath hnamed hread).mp hsurvives

def nestedMethods : Methods where
  getTemplate _ := some none
  mapParam := id
  getSequenceIterator paramName :=
    if paramName = ['a'] then some ['i']
    else if paramName = ['a', '.', 'b'] then some ['j']
    else none

theorem nestedMethods_named {paramName : CString} (hvariable : isVariableName paramName = true)
    (hloop : paramName.takeWhile (· ≠ '.') ≠ loopName)
    (hvisible : ∀ name ∈ (paramName.splitOn '.').tail, isHidden name = false) :
    Named nestedMethods paramName where
  isVariable := hvariable
  notLoop := hloop
  visible := hvisible
  iterators context i _ hi := by
    rw [nestedMethods] at hi
    dsimp only at hi
    split_ifs at hi
    · cases hi
      decide
    · cases hi
      decide

/-- A join over the attributes of one sequence. -/
theorem joinSurvives_forms_member :
    JoinSurvives nestedMethods [] renderDescribed
      (.paramRef ['a', '.', 'd'] ⟨['t'], 1, 0⟩ []) [',', ' '] :=
  (joinSurvives_forms renderDescribed renderDescribed_documented nestedMethods []
    (.paramRef ['a', '.', 'd'] ⟨['t'], 1, 0⟩ []) [['a']] [',', ' '] rfl (by decide)
    (nestedMethods_named (by decide) (by decide) (by decide))).1
      ⟨by rw [SeparatorKept, if_neg (by decide)]; rfl, fun h => absurd h (by decide)⟩

/-- The join of a member below two sequences is an error of syntax for jinja2. -/
theorem not_joinSurvives_nested :
    ¬ ∃ render, Documented render ∧
      JoinSurvives nestedMethods [] render
        (.paramRef ['a', '.', 'b', '.', 'c'] ⟨['t'], 1, 0⟩ []) [',', ' '] := by
  rintro ⟨render, hrender, hsurvives⟩
  have hpath : getContextPath nestedMethods []
      (.paramRef ['a', '.', 'b', '.', 'c'] ⟨['t'], 1, 0⟩ []) =
        .ok [['a', '.', 'b'], ['a']] := rfl
  have hnamed : RefNamed nestedMethods
      (.paramRef ['a', '.', 'b', '.', 'c'] ⟨['t'], 1, 0⟩ []) :=
    nestedMethods_named (by decide) (by decide) (by decide)
  exact not_joinSurvives_of_several hrender hpath hnamed (by decide) (by decide) hsurvives

end Joins

end Loops
end TemplateConverter
end KedrAux
