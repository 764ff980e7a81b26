import KedrAux.Mist.BuiltBlocks

/-!
# Emptiness of blocks

`isEmpty` is a second evaluator of blocks, which stops as soon as some text is found.
It is compared with the text that `evaluate` writes.  The test of an indented block
asks for the content only, although the indent is written before any content.
-/

namespace KedrAux
namespace Mist
namespace MistTemplateGroupBlock

mutual

/-- The block with all its indents taken off. -/
def unindented : MistTemplateGroupBlock → MistTemplateGroupBlock
  | .empty => .empty
  | .sequence subtemplates => .sequence (unindentedAll subtemplates)
  | .text s => .text s
  | .paramRef name => .paramRef name
  | .ifGroup conditionBlock ifBlock elseBlock =>
    .ifGroup conditionBlock.unindented ifBlock.unindented elseBlock.unindented
  | .join reversed block context textBetween mask submask =>
    .join reversed block.unindented context textBetween mask submask
  | .index first depth => .index first depth
  | .indent block _ => block.unindented

def unindentedAll : List MistTemplateGroupBlock → List MistTemplateGroupBlock
  | [] => []
  | subtemplate :: subtemplates => subtemplate.unindented :: unindentedAll subtemplates

end

/--
Evaluation comes to an indent: through sequences, iterations of joins and the branches
that the texts of conditions, without indents, choose.
-/
inductive ReachesIndent : MistTemplateGroupBlock → Scope → List Nat → Prop
  | indent (b : MistTemplateGroupBlock) (tab : Str) (scope : Scope) (indices : List Nat) :
      ReachesIndent (.indent b tab) scope indices
  | sequence {b : MistTemplateGroupBlock} {bs : List MistTemplateGroupBlock} {scope : Scope}
      {indices : List Nat} (hb : b ∈ bs) (h : ReachesIndent b scope indices) :
      ReachesIndent (.sequence bs) scope indices
  | ifBlock {c t : MistTemplateGroupBlock} {scope : Scope} {indices : List Nat} {s : Str}
      (e : MistTemplateGroupBlock) (hc : c.unindented.meaning scope indices = some s) (hs : s ≠ [])
      (h : ReachesIndent t scope indices) : ReachesIndent (.ifGroup c t e) scope indices
  | elseBlock {c e : MistTemplateGroupBlock} {scope : Scope} {indices : List Nat}
      (t : MistTemplateGroupBlock) (hc : c.unindented.meaning scope indices = some [])
      (h : ReachesIndent e scope indices) : ReachesIndent (.ifGroup c t e) scope indices
  | join {b : MistTemplateGroupBlock} {context : MistParamNameAbs} {submask : MistParamMask}
      {scope scope' base : Scope} {indices : List Nat} {set : Choice × Nat}
      (reversed : Bool) (textBetween : Str) (mask : MistParamMask)
      (hbase : scope.lookup context = some base) (hset : set ∈ joinSets submask base)
      (hscope : scope.set context set.1 = some scope')
      (h : ReachesIndent b scope' (set.2 :: indices)) :
      ReachesIndent (.join reversed b context textBetween mask submask) scope indices

theorem intercalate_eq_nil_iff (textBetween : Str) (pieces : List Str) :
    textBetween.intercalate pieces = [] ↔
      (∀ piece ∈ pieces, piece = []) ∧ (textBetween = [] ∨ pieces.length ≤ 1) := by
  induction pieces with
  | nil => simp [List.intercalate]
  | cons piece pieces ih =>
    cases pieces with
    | nil => simp [List.intercalate]
    | cons piece' pieces =>
      have hcons : textBetween.intercalate (piece :: piece' :: pieces) =
          piece ++ (textBetween ++ textBetween.intercalate (piece' :: pieces)) := by
        simp [List.intercalate]
      rw [hcons, List.append_eq_nil_iff, List.append_eq_nil_iff, ih]
      simp only [List.mem_cons, forall_eq_or_imp, List.length_cons]
      constructor
      · rintro ⟨rfl, rfl, hall, -⟩
        exact ⟨⟨rfl, hall⟩, Or.inl rfl⟩
      · rintro ⟨⟨rfl, hall⟩, hbetween | hlen⟩
        · exact ⟨rfl, hbetween, hall, Or.inl hbetween⟩
        · omega

theorem joinText_eq_nil_iff (reversed : Bool) (textBetween : Str) (pieces : List Str) :
    joinText reversed textBetween pieces = [] ↔
      (∀ piece ∈ pieces, piece = []) ∧ (textBetween = [] ∨ pieces.length ≤ 1) := by
  rw [joinText, intercalate_eq_nil_iff]
  cases reversed <;> simp

theorem indentText_ne_nil {tab : Str} (htab : tab ≠ []) (s : Str) : indentText tab s ≠ [] := by
  simp [indentText, htab]

/--
The texts of a block with and without its indents.  The test for emptiness is right
about the latter; the former has indents in addition.
-/
structure Agrees (b : MistTemplateGroupBlock) (scope : Scope) (indices : List Nat)
    (s content : Str) : Prop where
  meaning_eq : b.meaning scope indices = some s
  content_eq : b.unindented.meaning scope indices = some content
  emptiness_eq : b.emptiness scope indices = some content.isEmpty
  content_emptiness_eq : b.unindented.emptiness scope indices = some content.isEmpty
  eq_nil_iff : s = [] ↔ content = [] ∧ ¬ ReachesIndent b scope indices

section Agrees

variable {scope : Scope} {indices : List Nat}

variable {b : MistTemplateGroupBlock} {contents : List Str} {context : MistParamNameAbs}
variable {submask : MistParamMask} {base : Scope}

theorem agrees_leaf {s : Str} (hplain : b.unindented = b)
    (hmeaning : b.meaning scope indices = some s)
    (hempty : b.emptiness scope indices = some s.isEmpty)
    (hreach : ¬ ReachesIndent b scope indices) :
    Agrees b scope indices s s :=
  ⟨hmeaning, by rw [hplain, hmeaning], hempty, by rw [hplain, hempty], by simp [hreach]⟩

theorem agrees_sequence {bs : List MistTemplateGroupBlock}
    (h : ∀ b ∈ bs, ∃ s content, Agrees b scope indices s content) :
    ∃ s content, Agrees (.sequence bs) scope indices s content := by
  suffices hall : ∃ s content, meaningAll bs scope indices = some s ∧
      meaningAll (unindentedAll bs) scope indices = some content ∧
      emptinessAll bs scope indices = some content.isEmpty ∧
      emptinessAll (unindentedAll bs) scope indices = some content.isEmpty ∧
      (s = [] ↔ content = [] ∧ ∀ b ∈ bs, ¬ ReachesIndent b scope indices) by
    obtain ⟨s, content, hs, hcontent, hempty, hempty', hnil⟩ := hall
    refine ⟨s, content, hs, hcontent, hempty, hempty', hnil.trans (and_congr_right fun _ => ?_)⟩
    constructor
    · intro hnot hreach
      cases hreach with
      | sequence hb hb' => exact hnot _ hb hb'
    · exact fun hnot b hb hreach => hnot (.sequence hb hreach)
  induction bs with
  | nil => exact ⟨[], [], rfl, rfl, rfl, rfl, by simp⟩
  | cons b bs ih =>
    obtain ⟨s, content, hb⟩ := h b List.mem_cons_self
    obtain ⟨s', content', hs', hcontent', hempty', hcempty', hnil'⟩ :=
      ih fun b' hb' => h b' (List.mem_cons_of_mem _ hb')
    refine ⟨s ++ s', content ++ content', ?_, ?_, ?_, ?_, ?_⟩
    · rw [meaningAll, hb.meaning_eq, hs']
      rfl
    · rw [unindentedAll, meaningAll, hb.content_eq, hcontent']
      rfl
    · rw [emptinessAll, hb.emptiness_eq, hempty']
      cases content <;> rfl
    · rw [unindentedAll, emptinessAll, hb.content_emptiness_eq, hcempty']
      cases content <;> rfl
    · rw [List.append_eq_nil_iff, List.append_eq_nil_iff, hb.eq_nil_iff, hnil']
      simp only [List.mem_cons, forall_eq_or_imp]
      tauto

theorem agrees_ifGroup {c t e : MistTemplateGroupBlock} {sc cc st ct se ce : Str}
    (hc : Agrees c scope indices sc cc) (ht : Agrees t scope indices st ct)
    (he : Agrees e scope indices se ce) :
    ∃ s content, Agrees (.ifGroup c t e) scope indices s content := by
  cases hcc : cc with
  | nil =>
    rw [hcc] at hc
    refine ⟨se, ce, ?_, ?_, ?_, ?_, he.eq_nil_iff.trans (and_congr_right fun _ => not_congr ?_)⟩
    · rw [meaning, hc.emptiness_eq]
      exact he.meaning_eq
    · rw [unindented, meaning, hc.content_emptiness_eq]
      exact he.content_eq
    · rw [emptiness, hc.emptiness_eq]
      exact he.emptiness_eq
    · rw [unindented, emptiness, hc.content_emptiness_eq]
      exact he.content_emptiness_eq
    · constructor
      · exact .elseBlock t hc.content_eq
      · intro hreach
        cases hreach with
        | ifBlock _ hc' hs =>
          rw [hc.content_eq] at hc'
          cases hc'
          exact absurd rfl hs
        | elseBlock _ _ hreach => exact hreach
  | cons x xs =>
    rw [hcc] at hc
    refine ⟨st, ct, ?_, ?_, ?_, ?_, ht.eq_nil_iff.trans (and_congr_right fun _ => not_congr ?_)⟩
    · rw [meaning, hc.emptiness_eq]
      exact ht.meaning_eq
    · rw [unindented, meaning, hc.content_emptiness_eq]
      exact ht.content_eq
    · rw [emptiness, hc.emptiness_eq]
      exact ht.emptiness_eq
    · rw [unindented, emptiness, hc.content_emptiness_eq]
      exact ht.content_emptiness_eq
    · constructor
      · exact .ifBlock e hc.content_eq (List.cons_ne_nil x xs)
      · intro hreach
        cases hreach with
        | ifBlock _ _ _ hreach => exact hreach
        | elseBlock _ hc' _ =>
          rw [hc.content_eq] at hc'
          cases hc'

theorem allM_isEmpty {α : Type*} {f : α → Option Bool} {as : List α}
    (h : List.Forall₂ (fun a content => f a = some (List.isEmpty content)) as contents) :
    allM f as = some (contents.all List.isEmpty) := by
  induction h with
  | nil => rfl
  | @cons a content as contents ha _ ih =>
    rw [allM, ha, Option.bind_some, ih, List.all_cons]
    cases content.isEmpty <;> rfl

theorem emptiness_join (reversed : Bool) (textBetween : Str) (mask : MistParamMask)
    (hbase : scope.lookup context = some base)
    (h : List.Forall₂ (fun set content => ((scope.set context set.1).bind fun scope =>
      b.emptiness scope (set.2 :: indices)) = some (List.isEmpty content))
        (joinSets submask base) contents) :
    (MistTemplateGroupBlock.join reversed b context textBetween mask submask).emptiness scope
      indices = some (joinText reversed textBetween contents).isEmpty := by
  have hne : joinSets submask base ≠ [] := by
    simp [joinSets, enum_ne_nil]
  rw [emptiness, hbase, Option.bind_some]
  cases hsets : joinSets submask base with
  | nil => exact absurd hsets hne
  | cons set sets =>
    rw [hsets] at h
    cases h with
    | @cons _ content _ contents hset hrest =>
      have hnil := joinText_eq_nil_iff reversed textBetween (content :: contents)
      have hlen : sets.length = contents.length := hrest.length_eq
      rw [List.length_cons] at hnil
      simp only [hset, Option.bind_some, allM_isEmpty hrest, Bool.not_eq_true']
      split_ifs with h1 h2 h3
      · -- the first text is not empty
        rw [Option.some_inj, eq_comm, List.isEmpty_eq_false_iff]
        intro htext
        have hcontent := (hnil.mp htext).1 content List.mem_cons_self
        simp [hcontent] at h1
      · -- there is only one text
        rw [List.isEmpty_iff] at h2
        rw [h2, List.length_nil, eq_comm, List.length_eq_zero_iff] at hlen
        rw [Option.some_inj, eq_comm, List.isEmpty_iff, hnil, hlen]
        simpa using h1
      · -- the text between is not empty
        rw [Option.some_inj, eq_comm, List.isEmpty_eq_false_iff]
        intro htext
        rcases (hnil.mp htext).2 with hbetween | hle
        · simp [hbetween] at h3
        · rw [List.isEmpty_iff, ← List.length_eq_zero_iff] at h2
          omega
      · rw [Bool.not_eq_false, List.isEmpty_iff] at h1 h3
        rw [Option.some_inj, Bool.eq_iff_iff, List.isEmpty_iff, hnil, List.all_eq_true]
        simp [h1, h3]

theorem all_nil_iff {α : Type*} {P : α → Prop} {as : List α} {texts : List (Str × Str)}
    (h : List.Forall₂ (fun a texts => texts.1 = [] ↔ texts.2 = [] ∧ ¬ P a) as texts) :
    (∀ s ∈ texts.map Prod.fst, s = []) ↔
      (∀ content ∈ texts.map Prod.snd, content = []) ∧ ¬ ∃ a ∈ as, P a := by
  induction h with
  | nil => simp
  | cons hab _ ih =>
    simp only [List.map_cons, List.mem_cons, forall_eq_or_imp, exists_eq_or_imp, ih, hab]
    rw [not_or, and_and_and_comm]

theorem agrees_join (reversed : Bool) (textBetween : Str) (mask : MistParamMask)
    (hbase : scope.lookup context = some base)
    (h : ∀ set ∈ joinSets submask base, ∃ scope', scope.set context set.1 = some scope' ∧
      ∃ s content, Agrees b scope' (set.2 :: indices) s content) :
    ∃ s content, Agrees (.join reversed b context textBetween mask submask) scope indices
      s content := by
  obtain ⟨texts, htexts⟩ := exists_forall₂ (R := fun (set : Choice × Nat) (texts : Str × Str) =>
    ∃ scope', scope.set context set.1 = some scope' ∧
      Agrees b scope' (set.2 :: indices) texts.1 texts.2) (fun set hset => by
    obtain ⟨scope', hscope', s, content, hagrees⟩ := h set hset
    exact ⟨(s, content), scope', hscope', hagrees⟩)
  refine ⟨joinText reversed textBetween (texts.map Prod.fst),
    joinText reversed textBetween (texts.map Prod.snd), ?_, ?_, ?_, ?_, ?_⟩
  · have hpieces := mapM_eq_some_of_forall₂ Prod.fst htexts
      (f := fun set => (scope.set context set.1).bind fun scope =>
        b.meaning scope (set.2 :: indices)) (fun set texts ⟨scope', hscope', hagrees⟩ => by
      rw [hscope', Option.bind_some, hagrees.meaning_eq])
    rw [meaning, hbase, Option.bind_some, hpieces]
    rfl
  · have hpieces := mapM_eq_some_of_forall₂ Prod.snd htexts
      (f := fun set => (scope.set context set.1).bind fun scope =>
        b.unindented.meaning scope (set.2 :: indices)) (fun set texts ⟨scope', hscope', hagrees⟩ => by
      rw [hscope', Option.bind_some, hagrees.content_eq])
    rw [unindented, meaning, hbase, Option.bind_some, hpieces]
    rfl
  · refine emptiness_join reversed textBetween mask hbase ?_
    rw [List.forall₂_map_right_iff]
    refine htexts.imp fun set texts ⟨scope', hscope', hagrees⟩ => ?_
    rw [hscope', Option.bind_some, hagrees.emptiness_eq]
  · rw [unindented]
    refine emptiness_join reversed textBetween mask hbase ?_
    rw [List.forall₂_map_right_iff]
    refine htexts.imp fun set texts ⟨scope', hscope', hagrees⟩ => ?_
    rw [hscope', Option.bind_some, hagrees.content_emptiness_eq]
  · have hreach : ReachesIndent (.join reversed b context textBetween mask submask) scope indices ↔
        ∃ set ∈ joinSets submask base, ∃ scope', scope.set context set.1 = some scope' ∧
          ReachesIndent b scope' (set.2 :: indices) := by
      constructor
      · intro hreach
        cases hreach with
        | join _ _ _ hbase' hset hscope' hreach =>
          rw [hbase] at hbase'
          cases hbase'
          exact ⟨_, hset, _, hscope', hreach⟩
      · rintro ⟨set, hset, scope', hscope', hreach⟩
        exact .join reversed textBetween mask hbase hset hscope' hreach
    rw [joinText_eq_nil_iff, joinText_eq_nil_iff, hreach, List.length_map, List.length_map,
      and_right_comm]
    refine and_congr_left fun _ => ?_
    refine all_nil_iff (htexts.imp fun set texts ⟨scope', hscope', hagrees⟩ => ?_)
    rw [hagrees.eq_nil_iff, hscope']
    simp

end Agrees

theorem Built.exists_agrees {b : MistTemplateGroupBlock} {scope : Scope} (h : Built b)
    (hcovers : scope.Covers b.getParamMask) (indices : List Nat) (hfits : b.Fits indices.length) :
    ∃ s content, Agrees b scope indices s content := by
  induction h generalizing scope indices with
  | empty => exact ⟨[], [], agrees_leaf rfl rfl rfl (by rintro ⟨⟩)⟩
  | @sequence bs hbs ih =>
    cases hfits with
    | sequence hfits =>
      exact agrees_sequence fun b hb => ih b hb (fun name hname =>
        hcovers name (has_appendParamMasks_of_mem hb hname)) indices (hfits b hb)
  | text s => exact ⟨s, s, agrees_leaf rfl rfl rfl (by rintro ⟨⟩)⟩
  | paramRef name =>
    obtain ⟨sub, hsub⟩ := Option.isSome_iff_exists.mp
      (hcovers name (MistParamMask.has_ofName name))
    exact ⟨sub.value.getValue, sub.value.getValue,
      agrees_leaf rfl (by rw [meaning, hsub]; rfl) (by rw [emptiness, hsub]; rfl) (by rintro ⟨⟩)⟩
  | @ifGroup c t e _ _ _ ihc iht ihe =>
    cases hfits with
    | ifGroup hc ht he =>
      obtain ⟨sc, cc, hc⟩ := ihc (fun name hname => hcovers name
        (MistParamMask.has_append_left (MistParamMask.has_append_left hname))) indices hc
      obtain ⟨st, ct, ht⟩ := iht (fun name hname => hcovers name
        (MistParamMask.has_append_left (MistParamMask.has_append_right hname))) indices ht
      obtain ⟨se, ce, he⟩ := ihe (fun name hname => hcovers name
        (MistParamMask.has_append_right hname)) indices he
      exact agrees_ifGroup hc ht he
  | @join reversed b block context textBetween hb hnew ih =>
    obtain ⟨mask, submask, hspec, -, -⟩ := newJoin_spec reversed b context textBetween
    rw [hspec] at hnew
    cases hnew
    obtain ⟨base, hbase, hsets⟩ := covers_of_newJoin hspec hcovers
    cases hfits with
    | join _ _ _ _ _ hfits =>
      refine agrees_join reversed textBetween mask hbase fun set hset => ?_
      obtain ⟨scope', hscope', hcovers'⟩ := hsets set hset
      exact ⟨scope', hscope', ih hcovers' (set.2 :: indices) hfits⟩
  | index first depth =>
    cases hfits with
    | index _ hlt =>
      refine ⟨_, _, agrees_leaf rfl (by rw [meaning, List.getElem?_eq_getElem hlt]; rfl) ?_
        (by rintro ⟨⟩)⟩
      rw [emptiness, eq_comm, Option.some_inj, List.isEmpty_eq_false_iff]
      exact Nat.toDigits_ne_nil
  | @indent b tab hb htab ih =>
    cases hfits with
    | indent _ hfits =>
      obtain ⟨s, content, hagrees⟩ := ih hcovers indices hfits
      refine ⟨indentText tab s, content, by rw [meaning, hagrees.meaning_eq]; rfl,
        hagrees.content_eq, ?_, hagrees.content_emptiness_eq, ?_⟩
      · have htab' : (!tab.isEmpty) = true := by
          simpa using htab
        rw [emptiness, if_pos htab', hagrees.emptiness_eq]
      · constructor
        · intro hnil
          exact absurd hnil (indentText_ne_nil htab s)
        · rintro ⟨-, hreach⟩
          exact absurd (.indent b tab scope indices) hreach

/--
The test of a block agrees with the text that is written exactly if evaluation meets
no indent or writes something else too.  Both leave the stack as it was, and then a
condition chooses the branch by its text.
-/
theorem isEmpty_agrees_iff
    {b : MistTemplateGroupBlock} (h : Built b) (back : JoinContext) (ctx : GroupContext)
    (hnames : ∀ name, b.getParamMask.Has name → (back.slice.getSubslice name).isSome)
    (hfits : b.Fits (back :: ctx).length) :
    ∃ r s, b.isEmpty (back :: ctx) = some (r, back :: ctx) ∧
      b.evaluate (back :: ctx) = some (s, back :: ctx) ∧
      ((r = true ↔ s = []) ↔
        (ReachesIndent b back.scope (GroupContext.indices (back :: ctx)) →
          b.unindented.evaluate (back :: ctx) ≠ some ([], back :: ctx))) ∧
      ((r = true ↔ s = []) → ∀ t e,
        (MistTemplateGroupBlock.ifGroup b t e).evaluate (back :: ctx) =
          if s = [] then e.evaluate (back :: ctx) else t.evaluate (back :: ctx)) := by
  have hcovers : back.scope.Covers b.getParamMask := fun name hname => by
    rw [JoinContext.scope, ParamSetSlice.lookup_scope, Option.isSome_map]
    exact hnames name hname
  have hlen : (back :: ctx).length = (GroupContext.indices (back :: ctx)).length := by
    simp [GroupContext.indices]
  rw [hlen] at hfits
  obtain ⟨s, content, hagrees⟩ := h.exists_agrees hcovers _ hfits
  have hempty : b.isEmpty (back :: ctx) = some (content.isEmpty, back :: ctx) := by
    rw [isEmpty_eq, hagrees.emptiness_eq]
    rfl
  refine ⟨content.isEmpty, s, hempty, ?_, ?_, ?_⟩
  · rw [evaluate_eq, hagrees.meaning_eq]
    rfl
  · have hcontent : b.unindented.evaluate (back :: ctx) = some (content, back :: ctx) := by
      rw [evaluate_eq, hagrees.content_eq]
      rfl
    rw [hcontent, hagrees.eq_nil_iff, List.isEmpty_iff, Ne, Option.some_inj, Prod.mk.injEq]
    tauto
  · intro hr t e
    rw [evaluate, hempty]
    cases hc : content.isEmpty with
    | true => simp [hr.mp hc]
    | false =>
      have hs : s ≠ [] := fun hs => by
        rw [hr.mpr hs] at hc
        cases hc
      simp [hs]

/-- A text with an indent that is not empty. -/
theorem isEmpty_agrees_iff_indented_value :
    ∃ r s,
      (MistTemplateGroupBlock.indent (.text ['x']) ['\t']).isEmpty [.first .emptySet .nil] =
        some (r, [.first .emptySet .nil]) ∧
      (MistTemplateGroupBlock.indent (.text ['x']) ['\t']).evaluate [.first .emptySet .nil] =
        some (s, [.first .emptySet .nil]) ∧ (r = true ↔ s = []) := by
  obtain ⟨r, s, hr, hs, hiff, -⟩ := isEmpty_agrees_iff
    (.indent (.text ['x']) (List.cons_ne_nil '\t' [])) (.first .emptySet .nil) []
    (first_names .emptySet .nil) (.indent ['\t'] (.text ['x'] 1))
  refine ⟨r, s, hr, hs, hiff.mpr fun _ hcontent => ?_⟩
  simp [unindented, evaluate] at hcontent

/-- An indent before an empty value is written, but the test does not see it. -/
theorem isEmpty_of_indented_empty :
    Built (.indent (.paramRef [['p']]) ['\t']) ∧
    (MistTemplateGroupBlock.indent (.paramRef [['p']]) ['\t']).isEmpty
        [.first .emptySet (.ofName [['p']])] =
      some (true, [.first .emptySet (.ofName [['p']])]) ∧
    (MistTemplateGroupBlock.indent (.paramRef [['p']]) ['\t']).evaluate
        [.first .emptySet (.ofName [['p']])] =
      some (['\t'], [.first .emptySet (.ofName [['p']])]) :=
  ⟨.indent (.paramRef _) (List.cons_ne_nil _ _), rfl, rfl⟩

end MistTemplateGroupBlock
end Mist
end KedrAux
