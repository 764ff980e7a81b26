import KedrAux.Mist.InPlace

/-!
# Numbers of iterations

The functions `i` and `i0` print the number of an iteration.  Which join is meant is
found while a group is built, from the bases of the joins there, and is stored as a
depth in the block.

The numbers are defined here from the joins around the function when it is reached.  The
depth is right if it is that of the same join there; the block of a template is made at
one reference and may be evaluated for another one, in other joins.
-/

namespace KedrAux
namespace Mist

open MistTemplateGroupBlock

def Iterates (base : MistParamNameAbs) (mask : MistParamMask) : Prop :=
  ∃ name, mask.Has name ∧ base <+: name ∧ base ≠ name

variable {mask : MistParamMask}

@[simp] theorem iterates_nil : Iterates [] mask ↔ mask ≠ .nil := by
  constructor
  · rintro ⟨name, hname, -, hne⟩ rfl
    cases name with
    | nil => exact hne rfl
    | cons component name =>
      obtain ⟨sub, hfind, -⟩ := MistParamMask.has_cons.mp hname
      cases hfind
  · intro hne
    cases mask with
    | nil => exact absurd rfl hne
    | cons subname submask submasks =>
      refine ⟨[subname], MistParamMask.has_cons.mpr ⟨submask, ?_, ?_⟩, List.nil_prefix,
        (List.cons_ne_nil _ _).symm⟩
      · simp [MistParamMask.find]
      · exact MistParamMask.has_nil submask

theorem iterates_cons {component : Str} {base : MistParamNameAbs} :
    Iterates (component :: base) mask ↔
      ∃ submask, mask.find component = some submask ∧ Iterates base submask := by
  constructor
  · rintro ⟨name, hname, hstarts, hne⟩
    obtain ⟨rest, rfl⟩ := hstarts
    obtain ⟨submask, hfind, hsub⟩ := MistParamMask.has_cons.mp hname
    refine ⟨submask, hfind, base ++ rest, hsub, List.prefix_append _ _, fun heq => hne ?_⟩
    rw [List.cons_append, ← heq]
  · rintro ⟨submask, hfind, name, hname, hstarts, hne⟩
    refine ⟨component :: name, MistParamMask.has_cons.mpr ⟨submask, hfind, hname⟩,
      List.cons_prefix_cons.mpr ⟨rfl, hstarts⟩, fun heq => hne ?_⟩
    exact (List.cons_eq_cons.mp heq).2

@[simp] theorem joinUses_iff (base : MistParamNameAbs) (mask : MistParamMask) :
    joinUses base mask = true ↔ Iterates base mask := by
  induction base generalizing mask with
  | nil => rw [joinUses, bne_iff_ne, iterates_nil]
  | cons component base ih =>
    rw [joinUses, iterates_cons]
    cases hfind : mask.find component with
    | none => simp
    | some submask => simp [ih]

instance (base : MistParamNameAbs) (mask : MistParamMask) : Decidable (Iterates base mask) :=
  decidable_of_iff _ (joinUses_iff base mask)

/--
The joins around a place with the numbers of their current iterations, from 0 and the
innermost one first; the last entry is the virtual root join.
-/
abbrev JoinStack := List (MistParamNameAbs × Nat)

namespace JoinStack

def root : JoinStack := [([], 0)]

def bases (stack : JoinStack) : List MistParamNameAbs :=
  stack.map Prod.fst

def numbers (stack : JoinStack) : List Nat :=
  stack.map Prod.snd

def iterationNumber (stack : JoinStack) (mask : MistParamMask) : Nat :=
  match stack.dropLast.find? fun entry => decide (Iterates entry.1 mask) with
  | some entry => entry.2
  | none => 0

def Rooted (stack : JoinStack) : Prop :=
  ∃ entries, stack = entries ++ root

theorem rooted_root : Rooted root :=
  ⟨[], rfl⟩

variable {stack : JoinStack}

theorem Rooted.cons (h : stack.Rooted) (entry : MistParamNameAbs × Nat) :
    Rooted (entry :: stack) := by
  obtain ⟨entries, rfl⟩ := h
  exact ⟨entry :: entries, rfl⟩

theorem numbers_findIdx (entries : JoinStack) (mask : MistParamMask) :
    (numbers (entries ++ root))[entries.bases.findIdx fun base => joinUses base mask]? =
      some (iterationNumber (entries ++ root) mask) := by
  rw [iterationNumber, root, List.dropLast_concat]
  induction entries with
  | nil => rfl
  | cons entry entries ih =>
    rw [bases, List.map_cons, List.findIdx_cons, List.find?_cons, numbers, List.cons_append,
      List.map_cons]
    by_cases huses : joinUses entry.1 mask = true
    · simp [huses, (joinUses_iff _ _).mp huses]
    · have hnot : ¬ Iterates entry.1 mask := fun h => huses ((joinUses_iff _ _).mpr h)
      rw [Bool.not_eq_true] at huses
      simp only [huses, cond_false, hnot, decide_false, List.getElem?_cons_succ]
      exact ih

theorem Rooted.numbers_joinDepth (h : stack.Rooted) (mask : MistParamMask) :
    stack.numbers[joinDepth stack.bases mask (stack.bases.length - 1)]? =
      some (stack.iterationNumber mask) := by
  obtain ⟨entries, rfl⟩ := h
  have htake : (bases (entries ++ root)).take ((bases (entries ++ root)).length - 1) =
      entries.bases := by
    simp [bases, root]
  rw [joinDepth, htake]
  exact numbers_findIdx entries mask

end JoinStack

/-- A function for the number of an iteration, when it is evaluated. -/
structure IndexUse where
  /-- The bases of the joins where its block was made. -/
  joins : List MistParamNameAbs
  /-- The joins around it now. -/
  stack : JoinStack
  mask : MistParamMask

namespace IndexUse

def depth (use : IndexUse) : Nat :=
  joinDepth use.joins use.mask (use.joins.length - 1)

/-- The depth of the join that is meant is the same now. -/
def DepthsAgree (use : IndexUse) : Prop :=
  use.depth = joinDepth use.stack.bases use.mask (use.stack.bases.length - 1)

instance (use : IndexUse) : Decidable use.DepthsAgree :=
  inferInstanceAs (Decidable (_ = _))

/-- There are enough joins for the depth. -/
def Within (use : IndexUse) : Prop :=
  use.depth < use.stack.length

end IndexUse

abbrev NumberedText := Str × List IndexUse

section TextOf

variable (blocks : Reference → Option MistTemplateGroupBlock)
variable (texts : Reference → Scope → JoinStack → Option NumberedText)

mutual

/--
The text of a template, when the blocks and the texts of references are given: the names
and the masks are those of its block, the numbers those of the joins around it.
-/
def textOf : Template → MistParamNameAbs → List MistParamNameAbs → Scope → JoinStack →
    Option NumberedText
  | .empty, _, _, _, _ => some ([], [])
  | .sequence subtemplates, base, joins, scope, stack => textsOf subtemplates base joins scope stack
  | .text s, _, _, _, _ => some (s, [])
  | .ref name, base, joins, scope, stack =>
    match name.single? with
    | some component => texts ⟨component, base, joins⟩ scope stack
    | none => (scope.lookup (name.resolve base)).map fun sub => (sub.value.getValue, [])
  | .ifTemplate conditionTemplate positiveTemplate elseTemplate, base, joins, scope, stack => do
      let conditionBlock ← groupOf blocks conditionTemplate base joins
      let conditionEmpty ← conditionBlock.emptiness scope stack.numbers
      if !conditionEmpty then textOf positiveTemplate base joins scope stack
      else textOf elseTemplate base joins scope stack
  | .join reversed templateInternal textBetween, base, joins, scope, stack => do
      let blockInternal ← groupOf blocks templateInternal base (base :: joins)
      let submask ← ((MistParamMask.ofName base).append blockInternal.getParamMask).getSubmask base
      let sub ← scope.lookup base
      let pieces ← (joinSets submask sub).mapM fun set =>
        (scope.set base set.1).bind fun scope =>
          textOf templateInternal base (base :: joins) scope ((base, set.2) :: stack)
      return (joinText reversed textBetween (pieces.map Prod.fst), pieces.flatMap Prod.snd)
  | .withContext context templateInternal, base, joins, scope, stack =>
    textOf templateInternal (context.resolve base) joins scope stack
  | .index first templateInternal, base, joins, _, stack => do
      let blockTmp ← groupOf blocks templateInternal base joins
      let mask := blockTmp.getParamMask
      return (Nat.toDigits 10 (stack.iterationNumber mask + first), [⟨joins, stack, mask⟩])
  | .indent templateInternal tab, base, joins, scope, stack => do
      let (s, uses) ← textOf templateInternal base joins scope stack
      return (if !tab.isEmpty then indentText tab s else s, uses)

def textsOf : List Template → MistParamNameAbs → List MistParamNameAbs → Scope → JoinStack →
    Option NumberedText
  | [], _, _, _, _ => some ([], [])
  | subtemplate :: subtemplates, base, joins, scope, stack => do
      let (s, uses) ← textOf subtemplate base joins scope stack
      let (rest, usesRest) ← textsOf subtemplates base joins scope stack
      return (s ++ rest, uses ++ usesRest)

end

end TextOf

/-- The text of a reference, when blocks are made at the given references. -/
def numberedText (collection : TemplateCollection) :
    List Reference → Reference → Scope → JoinStack → Option NumberedText
  | [], x, scope, _ =>
    match collection.findTemplate x.name with
    | none => (scope.lookup [x.name]).map fun sub => (sub.value.getValue, [])
    | some _ => none
  | site :: sites, x, scope, stack =>
    match collection.findTemplate x.name with
    | none => (scope.lookup [x.name]).map fun sub => (sub.value.getValue, [])
    | some t =>
      if SharesBlock t site x then
        textOf (siteBlocks collection sites) (numberedText collection sites) t site.base
          site.joins scope stack
      else numberedText collection sites x scope stack

/-- The text is the one of the block, as far as the depths are right. -/
structure Reads (block : MistTemplateGroupBlock) (scope : Scope) (stack : JoinStack)
    (text : NumberedText) : Prop where
  meaning_eq : (∀ use ∈ text.2, use.DepthsAgree) →
    block.meaning scope stack.numbers = some text.1
  isSome_iff : (block.meaning scope stack.numbers).isSome ↔ ∀ use ∈ text.2, use.Within

section Reads

variable {block b : MistTemplateGroupBlock} {bs : List MistTemplateGroupBlock} {scope : Scope}
variable {stack : JoinStack} {s : Str}

theorem Reads.of_some (h : block.meaning scope stack.numbers = some s) :
    Reads block scope stack (s, []) :=
  ⟨fun _ => h, by simp [h]⟩

theorem meaning_sequenceGroup (bs : List MistTemplateGroupBlock) (scope : Scope)
    (indices : List Nat) :
    (sequenceGroup bs).meaning scope indices = meaningAll bs scope indices := by
  unfold sequenceGroup
  split
  · rfl
  · rename_i b
    rw [meaningAll, meaningAll]
    cases b.meaning scope indices <;> simp
  · rfl

theorem meaning_indentGroup (b : MistTemplateGroupBlock) (tab : Str) (scope : Scope)
    (indices : List Nat) :
    (indentGroup b tab).meaning scope indices =
      (b.meaning scope indices).map fun s => if !tab.isEmpty then indentText tab s else s := by
  unfold indentGroup
  split_ifs
  · rfl
  · simp

theorem covers_of_sequenceGroup (h : scope.Covers (sequenceGroup bs).getParamMask) (hb : b ∈ bs) :
    scope.Covers b.getParamMask := by
  revert h
  unfold sequenceGroup
  split
  · cases hb
  · rw [List.mem_singleton] at hb
    exact fun h => hb ▸ h
  · exact fun h name hname => h name (has_appendParamMasks_of_mem hb hname)

theorem covers_of_indentGroup {tab : Str} (h : scope.Covers (indentGroup b tab).getParamMask) :
    scope.Covers b.getParamMask := by
  unfold indentGroup at h
  split_ifs at h
  · exact h
  · exact h

/-- The pieces of a join. -/
theorem reads_pieces {α : Type} {sets : List α} {f : α → Option NumberedText} {g : α → Option Str}
    (h : ∀ set ∈ sets, ∃ text, f set = some text ∧
      ((∀ use ∈ text.2, use.DepthsAgree) → g set = some text.1) ∧
      ((g set).isSome ↔ ∀ use ∈ text.2, use.Within)) :
    ∃ pieces, sets.mapM f = some pieces ∧
      ((∀ use ∈ pieces.flatMap Prod.snd, use.DepthsAgree) →
        sets.mapM g = some (pieces.map Prod.fst)) ∧
      ((sets.mapM g).isSome ↔ ∀ use ∈ pieces.flatMap Prod.snd, use.Within) := by
  induction sets with
  | nil => exact ⟨[], rfl, fun _ => rfl, by simp⟩
  | cons set sets ih =>
    obtain ⟨text, htext, heq, hsome⟩ := h set List.mem_cons_self
    obtain ⟨pieces, hpieces, heqs, hsomes⟩ := ih fun set hset => h set (List.mem_cons_of_mem _ hset)
    refine ⟨text :: pieces, by simp [List.mapM_cons, htext, hpieces], ?_, ?_⟩
    · rw [List.flatMap_cons, List.forall_mem_append]
      rintro ⟨huses, hrest⟩
      simp [List.mapM_cons, heq huses, heqs hrest]
    · rw [List.flatMap_cons, List.forall_mem_append, ← hsome, ← hsomes, List.mapM_cons]
      cases g set <;> cases sets.mapM g <;> simp

theorem reads_paramRef {name : MistParamNameAbs}
    (hcovers : scope.Covers (paramRef name).getParamMask) :
    ∃ text, ((scope.lookup name).map fun sub => (sub.value.getValue, [])) = some text ∧
      Reads (.paramRef name) scope stack text := by
  obtain ⟨sub, hsub⟩ := Option.isSome_iff_exists.mp (hcovers _ (MistParamMask.has_ofName name))
  refine ⟨(sub.value.getValue, []), by rw [hsub]; rfl, .of_some ?_⟩
  rw [meaning, hsub]
  rfl

variable {blocks : Reference → Option MistTemplateGroupBlock} {t : Template}
variable {texts : Reference → Scope → JoinStack → Option NumberedText}
variable {base : MistParamNameAbs} {joins : List MistParamNameAbs}

theorem exists_textOf (hrooted : stack.Rooted) (hcovers : scope.Covers block.getParamMask)
    (h : groupOf blocks t base joins = some block)
    (hbuilt : ∀ x b, blocks x = some b → Built b)
    (htexts : ∀ x b scope stack, blocks x = some b → stack.Rooted → scope.Covers b.getParamMask →
      ∃ text, texts x scope stack = some text ∧ Reads b scope stack text) :
    ∃ text, textOf blocks texts t base joins scope stack = some text ∧
      Reads block scope stack text := by
  induction t using Template.ind generalizing base joins stack block scope with
  | empty =>
    cases h
    exact ⟨_, rfl, .of_some rfl⟩
  | sequence ts ih =>
    rw [groupOf, Option.map_eq_some_iff] at h
    obtain ⟨bs, hbs, rfl⟩ := h
    rw [textOf]
    suffices hall : ∃ text, textsOf blocks texts ts base joins scope stack = some text ∧
        ((∀ use ∈ text.2, use.DepthsAgree) →
          meaningAll bs scope stack.numbers = some text.1) ∧
        ((meaningAll bs scope stack.numbers).isSome ↔ ∀ use ∈ text.2, use.Within) by
      obtain ⟨text, htext, heq, hsome⟩ := hall
      exact ⟨text, htext, by rwa [meaning_sequenceGroup], by rwa [meaning_sequenceGroup]⟩
    have hcovers' := fun b hb => covers_of_sequenceGroup (b := b) hcovers hb
    clear hcovers
    induction ts generalizing bs with
    | nil =>
      cases hbs
      exact ⟨_, rfl, fun _ => rfl, by simp [meaningAll]⟩
    | cons t ts ihts =>
      simp only [groupsOf, Option.bind_eq_bind, Option.bind_eq_some_iff] at hbs
      obtain ⟨b, hb, rest, hrest, heq⟩ := hbs
      cases heq
      obtain ⟨text, htext, hreads⟩ := ih t List.mem_cons_self hrooted
        (hcovers' b List.mem_cons_self) hb
      obtain ⟨texts', htexts', heq, hsome⟩ :=
        ihts (fun t' ht' => ih t' (List.mem_cons_of_mem _ ht')) rest hrest
          fun b' hb' => hcovers' b' (List.mem_cons_of_mem _ hb')
      refine ⟨(text.1 ++ texts'.1, text.2 ++ texts'.2), ?_, ?_, ?_⟩
      · rw [textsOf, htext, htexts']
        rfl
      · rw [List.forall_mem_append]
        rintro ⟨huses, hrest⟩
        rw [meaningAll, hreads.meaning_eq huses, heq hrest]
        rfl
      · rw [List.forall_mem_append, ← hreads.isSome_iff, ← hsome, meaningAll]
        cases b.meaning scope stack.numbers <;> simp
  | text s =>
    cases h
    exact ⟨_, rfl, .of_some rfl⟩
  | ref name =>
    rw [groupOf] at h
    rw [textOf]
    cases hsingle : name.single? with
    | none =>
      rw [hsingle] at h
      cases h
      exact reads_paramRef hcovers
    | some component =>
      rw [hsingle] at h
      exact htexts _ block scope stack h hrooted hcovers
  | ifTemplate c p e ihc ihp ihe =>
    simp only [groupOf, Option.bind_eq_bind, Option.bind_eq_some_iff] at h
    obtain ⟨bc, hc, bp, hp, be, he, heq⟩ := h
    cases heq
    have hcovers' : scope.Covers bc.getParamMask := fun name hname => hcovers name
      (MistParamMask.has_append_left (MistParamMask.has_append_left hname))
    -- the condition is only asked whether it is empty
    obtain ⟨r, hr⟩ := (built_of_groupOf hc fun x _ b hb => hbuilt x b hb).emptiness_isSome
      hcovers' stack.numbers
    have htext : textOf blocks texts (.ifTemplate c p e) base joins scope stack =
        if !r then textOf blocks texts p base joins scope stack
        else textOf blocks texts e base joins scope stack := by
      rw [textOf, hc]
      simp [hr]
    have hmeaning : (ifGroup bc bp be).meaning scope stack.numbers =
        if !r then bp.meaning scope stack.numbers else be.meaning scope stack.numbers := by
      rw [meaning, hr]
      rfl
    cases r with
    | false =>
      obtain ⟨text, hp', hreads⟩ := ihp hrooted (fun name hname => hcovers name
        (MistParamMask.has_append_left (MistParamMask.has_append_right hname))) hp
      exact ⟨text, htext.trans hp', fun huses => hmeaning.trans (hreads.meaning_eq huses),
        hmeaning ▸ hreads.isSome_iff⟩
    | true =>
      obtain ⟨text, he', hreads⟩ := ihe hrooted (fun name hname => hcovers name
        (MistParamMask.has_append_right hname)) he
      exact ⟨text, htext.trans he', fun huses => hmeaning.trans (hreads.meaning_eq huses),
        hmeaning ▸ hreads.isSome_iff⟩
  | join reversed t textBetween ih =>
    simp only [groupOf, Option.bind_eq_bind, Option.bind_eq_some_iff] at h
    obtain ⟨b, hb, hnew⟩ := h
    obtain ⟨mask, submask, hspec, -, -⟩ := newJoin_spec reversed b base textBetween
    rw [hspec] at hnew
    cases hnew
    obtain ⟨sub, hsub, hsets⟩ := covers_of_newJoin hspec hcovers
    simp only [newJoin, Option.bind_eq_bind, Option.bind_eq_some_iff] at hspec
    obtain ⟨submask', hsubmask, mask', -, heq⟩ := hspec
    cases heq
    obtain ⟨pieces, hpieces, heq, hsome⟩ := reads_pieces
      (f := fun set => (scope.set base set.1).bind fun scope =>
        textOf blocks texts t base (base :: joins) scope ((base, set.2) :: stack))
      (g := fun set => (scope.set base set.1).bind fun scope =>
        b.meaning scope (set.2 :: stack.numbers)) fun set (hset : set ∈ joinSets submask sub) => by
      obtain ⟨scope', hscope', hcovers'⟩ := hsets set hset
      obtain ⟨text, htext, hreads⟩ := ih (hrooted.cons (base, set.2)) hcovers' hb
      rw [hscope']
      exact ⟨text, htext, hreads.meaning_eq, hreads.isSome_iff⟩
    refine ⟨(joinText reversed textBetween (pieces.map Prod.fst), pieces.flatMap Prod.snd), ?_,
      fun huses => ?_, ?_⟩
    · rw [textOf, hb]
      simp only [Option.bind_eq_bind, Option.bind_some, hsubmask, hsub, hpieces]
      rfl
    · rw [meaning, hsub, Option.bind_some, heq huses]
      rfl
    · rw [meaning, hsub, Option.bind_some, Option.isSome_map, hsome]
  | withContext context t ih => exact ih hrooted hcovers h
  | index first t ih =>
    rw [groupOf, Option.map_eq_some_iff] at h
    obtain ⟨b, hb, rfl⟩ := h
    refine ⟨_, by rw [textOf, hb]; rfl, fun huses => ?_, ?_⟩
    · have hdepth := huses _ List.mem_cons_self
      rw [IndexUse.DepthsAgree, IndexUse.depth] at hdepth
      rw [meaning, hdepth, hrooted.numbers_joinDepth b.getParamMask]
      rfl
    · simp [meaning, IndexUse.Within, IndexUse.depth, JoinStack.numbers]
  | indent t tab ih =>
    rw [groupOf, Option.map_eq_some_iff] at h
    obtain ⟨b, hb, rfl⟩ := h
    obtain ⟨text, htext, hreads⟩ := ih hrooted (covers_of_indentGroup hcovers) hb
    refine ⟨_, by rw [textOf, htext]; rfl, fun huses => ?_, ?_⟩
    · rw [meaning_indentGroup, hreads.meaning_eq huses]
      rfl
    · rw [meaning_indentGroup, Option.isSome_map, hreads.isSome_iff]

end Reads

section NumberedText

variable {collection : TemplateCollection} {sites : List Reference} {x : Reference}
variable {block : MistTemplateGroupBlock} {scope : Scope} {stack : JoinStack}

theorem built_siteBlocks (h : siteBlocks collection sites x = some block) : Built block := by
  induction sites generalizing x block with
  | nil =>
    cases hfind : collection.findTemplate x.name with
    | none =>
      rw [siteBlocks_of_param hfind] at h
      cases h
      exact .paramRef _
    | some t =>
      rw [siteBlocks, hfind] at h
      cases h
  | cons site sites ih =>
    by_cases hshares : ∃ t, collection.findTemplate x.name = some t ∧ SharesBlock t site x
    · obtain ⟨t, hfind, hshares⟩ := hshares
      rw [siteBlocks_of_shares hfind hshares] at h
      exact built_of_groupOf h fun _ _ _ hb => ih hb
    · rw [siteBlocks_of_not_shares fun t hfind hshares' => hshares ⟨t, hfind, hshares'⟩] at h
      exact ih h

theorem exists_numberedText (hrooted : stack.Rooted) (hcovers : scope.Covers block.getParamMask)
    (h : siteBlocks collection sites x = some block) :
    ∃ text, numberedText collection sites x scope stack = some text ∧
      Reads block scope stack text := by
  induction sites generalizing x block scope stack with
  | nil =>
    cases hfind : collection.findTemplate x.name with
    | none =>
      rw [siteBlocks_of_param hfind] at h
      cases h
      rw [numberedText, hfind]
      exact reads_paramRef hcovers
    | some t =>
      rw [siteBlocks, hfind] at h
      cases h
  | cons site sites ih =>
    cases hfind : collection.findTemplate x.name with
    | none =>
      rw [siteBlocks_of_param hfind] at h
      cases h
      rw [numberedText, hfind]
      exact reads_paramRef hcovers
    | some t =>
      rw [numberedText, hfind]
      by_cases hshares : SharesBlock t site x
      · rw [siteBlocks_of_shares hfind hshares] at h
        simp only [if_pos hshares]
        exact exists_textOf hrooted hcovers h (fun _ _ hb => built_siteBlocks hb)
          fun _ _ _ _ hb hrooted' hcovers' => ih hrooted' hcovers' hb
      · simp only [if_neg hshares]
        refine ih hrooted hcovers ?_
        rw [← h, siteBlocks_of_not_shares fun t' hfind' => ?_]
        rw [hfind] at hfind'
        cases hfind'
        exact hshares

end NumberedText

/-- The template `a` prints the number of a join on `p`; it is used at two depths. -/
def twoNestings : TemplateCollection :=
  [(['m'], .sequence [.withContext ⟨[['p']], false⟩ (.join false
      (.withContext ⟨[['q']], false⟩ (.join false (.ref ⟨[['a']], false⟩) [])) []),
      .ref ⟨[['a']], false⟩]),
    (['a'], .index 1 (.ref ⟨[['p'], ['x']], false⟩))]

/-- The same template is used outside of the joins only in a branch that is not taken. -/
def untakenBranch : TemplateCollection :=
  [(['m'], .sequence [.withContext ⟨[['p']], false⟩ (.join false
      (.sequence [.ref ⟨[['x']], true⟩,
        .withContext ⟨[['q']], false⟩ (.join false (.ref ⟨[['a']], false⟩) [])]) [',']),
      .ifTemplate .empty (.ref ⟨[['a']], false⟩) (.text ['.'])]),
    (['a'], .index 1 (.ref ⟨[['p'], ['x']], false⟩))]

/-- Two values for the join on `p`. -/
def untakenBranchValues : ParamSet :=
  .mk [] [(['p'], .mk [] [(['x'], .mk ['u'] [], [.mk ['v'] []])], [])]

end Mist
end KedrAux
