import KedrAux.Mist.InPlace

/-!
# A reference means the content of the template

The collection in which every reference to a template is replaced by the tree of this
template is built without any sharing.  The group of the original collection is compared
with it.
-/

namespace KedrAux
namespace Mist

namespace Template

section Expand

variable (tree : Str → Option Template)

mutual

/-- The template with trees in place of the references to templates. -/
def expand : Template → Template
  | .empty => .empty
  | .sequence subtemplates => .sequence (expandAll subtemplates)
  | .text s => .text s
  | .ref name =>
    match name.single?.bind tree with
    | some t => t
    | none => .ref name
  | .ifTemplate conditionTemplate positiveTemplate elseTemplate =>
    .ifTemplate (expand conditionTemplate) (expand positiveTemplate) (expand elseTemplate)
  | .join reversed templateInternal textBetween =>
    .join reversed (expand templateInternal) textBetween
  | .withContext context templateInternal => .withContext context (expand templateInternal)
  | .index first templateInternal => .index first (expand templateInternal)
  | .indent templateInternal tab => .indent (expand templateInternal) tab

def expandAll : List Template → List Template
  | [] => []
  | subtemplate :: subtemplates => expand subtemplate :: expandAll subtemplates

end

theorem expandAll_eq_map (ts : List Template) : expandAll tree ts = ts.map (expand tree) := by
  induction ts with
  | nil => rfl
  | cons t ts ih => rw [expandAll, ih, List.map_cons]

end Expand

end Template

namespace TemplateCollection

/-- The trees of templates, with references replaced down to the given depth. -/
def expanded (collection : TemplateCollection) : Nat → Str → Option Template
  | 0, _ => none
  | depth + 1, name => (collection.findTemplate name).map (Template.expand (collection.expanded depth))

/-- The collection with all references to templates replaced, everywhere and recursively. -/
def inlined (collection : TemplateCollection) : TemplateCollection :=
  collection.map fun entry => (entry.1, entry.2.expand (collection.expanded collection.length))

theorem findTemplate_inlined (collection : TemplateCollection) (name : Str) :
    collection.inlined.findTemplate name = collection.expanded (fullDepth collection) name := by
  have hlookup : ∀ (f : Template → Template) (entries : TemplateCollection),
      (entries.map fun entry => (entry.1, f entry.2)).lookup name = (entries.lookup name).map f := by
    intro f entries
    induction entries with
    | nil => rfl
    | cons entry entries ih =>
      rw [List.map_cons, List.lookup_cons, List.lookup_cons, ih]
      cases name == entry.1 <;> rfl
  exact hlookup _ collection

end TemplateCollection

section Expand

variable {blocks : Reference → Option MistTemplateGroupBlock} {tree : Str → Option Template}

/-- The blocks of references, with trees in place of some of them. -/
def treeBlocks (blocks : Reference → Option MistTemplateGroupBlock) (tree : Str → Option Template)
    (x : Reference) : Option MistTemplateGroupBlock :=
  match tree x.name with
  | some t => groupOf blocks t x.base x.joins
  | none => blocks x

theorem groupOf_expand (t : Template) (base : MistParamNameAbs) (joins : List MistParamNameAbs) :
    groupOf blocks (t.expand tree) base joins = groupOf (treeBlocks blocks tree) t base joins := by
  induction t using Template.ind generalizing base joins with
  | empty => rfl
  | sequence ts ih =>
    rw [Template.expand, groupOf, groupOf]
    congr 1
    induction ts with
    | nil => rfl
    | cons t ts ihts =>
      rw [Template.expandAll, groupsOf, groupsOf, ih t List.mem_cons_self base joins,
        ihts fun t' ht' => ih t' (List.mem_cons_of_mem _ ht')]
  | text s => rfl
  | ref name =>
    rw [Template.expand]
    cases hsingle : name.single? with
    | none => simp [groupOf, hsingle]
    | some component =>
      cases htree : tree component with
      | none
      | some t => simp [groupOf, hsingle, treeBlocks, htree]
  | ifTemplate c p e ihc ihp ihe =>
    rw [Template.expand, groupOf, groupOf, ihc base joins, ihp base joins, ihe base joins]
  | join reversed t textBetween ih => rw [Template.expand, groupOf, groupOf, ih base (base :: joins)]
  | withContext context t ih =>
    rw [Template.expand, groupOf, groupOf, ih (context.resolve base) joins]
  | index first t ih
  | indent t s ih => rw [Template.expand, groupOf, groupOf, ih base joins]

theorem mem_references_expand
    {t : Template} {base : MistParamNameAbs} {joins : List MistParamNameAbs} {y : Reference}
    (hy : y ∈ (t.expand tree).references base joins) :
    ∃ x ∈ t.references base joins,
      ((tree x.name = none ∧ y = x) ∨
        ∃ t', tree x.name = some t' ∧ y ∈ t'.references x.base x.joins) := by
  induction t using Template.ind generalizing base joins with
  | empty => cases hy
  | sequence ts ih =>
    rw [Template.expand, Template.references] at hy
    rw [Template.expandAll_eq_map] at hy
    obtain ⟨t', ht', hy⟩ := Template.mem_referencesAll.mp hy
    obtain ⟨t, ht, rfl⟩ := List.mem_map.mp ht'
    obtain ⟨x, hx, h⟩ := ih t ht hy
    exact ⟨x, Template.mem_referencesAll.mpr ⟨t, ht, hx⟩, h⟩
  | text s => cases hy
  | ref name =>
    rw [Template.expand] at hy
    rw [Template.references]
    cases hsingle : name.single? with
    | none => simp [Template.references, hsingle] at hy
    | some component =>
      refine ⟨⟨component, base, joins⟩, List.mem_cons_self, ?_⟩
      rw [hsingle, Option.bind_some] at hy
      cases htree : tree component with
      | none =>
        rw [htree] at hy
        simp only [Template.references, hsingle, List.mem_singleton] at hy
        exact Or.inl ⟨rfl, hy⟩
      | some t =>
        rw [htree] at hy
        exact Or.inr ⟨t, rfl, hy⟩
  | ifTemplate c p e ihc ihp ihe =>
    rw [Template.expand, Template.references] at hy
    rw [Template.references]
    rcases List.mem_append.mp hy with hy | hy
    · obtain ⟨x, hx, h⟩ := ihc hy
      exact ⟨x, List.mem_append_left _ hx, h⟩
    · rcases List.mem_append.mp hy with hy | hy
      · obtain ⟨x, hx, h⟩ := ihp hy
        exact ⟨x, List.mem_append_right _ (List.mem_append_left _ hx), h⟩
      · obtain ⟨x, hx, h⟩ := ihe hy
        exact ⟨x, List.mem_append_right _ (List.mem_append_right _ hx), h⟩
  | join reversed t textBetween ih => exact ih hy
  | withContext context t ih => exact ih hy
  | index first t ih => exact ih hy
  | indent t s ih => exact ih hy

end Expand

def paramBlock (x : Reference) : Option MistTemplateGroupBlock :=
  some (.paramRef [x.name])

variable {collection : TemplateCollection} {block : MistTemplateGroupBlock}

section Inlined

variable {mainTemplate : Str} {depth : Nat} {x : Reference}

theorem treeBlocks_of_inPlace (h : inPlace collection depth x = some block) :
    treeBlocks paramBlock (collection.expanded depth) x = some block := by
  induction depth generalizing x block with
  | zero => cases h
  | succ depth ih =>
    cases hfind : collection.findTemplate x.name with
    | none =>
      rw [inPlace_of_param hfind] at h
      simp [treeBlocks, TemplateCollection.expanded, hfind, paramBlock, ← h]
    | some t =>
      rw [inPlace_of_findTemplate hfind] at h
      simp only [treeBlocks, TemplateCollection.expanded, hfind, Option.map_some, groupOf_expand]
      exact groupOf_mono h fun y _ b hb => ih hb

variable {t : Template}

theorem findTemplate_eq_none_of_mem_references (h : inPlace collection (depth + 1) x = some block)
    (hfind : collection.findTemplate x.name = some t) {y : Reference}
    (hy : y ∈ (t.expand (collection.expanded depth)).references x.base x.joins) :
    collection.findTemplate y.name = none := by
  induction depth generalizing x t block with
  | zero =>
    rw [inPlace_of_findTemplate hfind] at h
    obtain ⟨z, hz, -⟩ := mem_references_expand hy
    obtain ⟨b, hb⟩ := exists_of_groupOf h hz
    cases hb
  | succ depth ih =>
    rw [inPlace_of_findTemplate hfind] at h
    obtain ⟨z, hz, hkept | htree⟩ := mem_references_expand hy
    · obtain ⟨hnone, rfl⟩ := hkept
      rw [TemplateCollection.expanded, Option.map_eq_none_iff] at hnone
      exact hnone
    · obtain ⟨t', ht', hy'⟩ := htree
      rw [TemplateCollection.expanded, Option.map_eq_some_iff] at ht'
      obtain ⟨t1, hfind', rfl⟩ := ht'
      obtain ⟨b, hb⟩ := exists_of_groupOf h hz
      exact ih hb hfind' hy'

theorem findTemplate_inlined_eq_none_iff (collection : TemplateCollection) (name : Str) :
    collection.inlined.findTemplate name = none ↔ collection.findTemplate name = none := by
  rw [TemplateCollection.findTemplate_inlined, fullDepth, TemplateCollection.expanded,
    Option.map_eq_none_iff]

theorem kept_inlined
    (h : inPlace collection (fullDepth collection) (.main mainTemplate) = some block) :
    Kept collection.inlined
      (fun x => x = .main mainTemplate ∨ collection.inlined.findTemplate x.name = none)
      fun lookup => ∀ name base b, lookup name base = some b →
        (collection.inlined.findTemplate name = none → b = .paramRef [name]) ∧
        (collection.inlined.findTemplate name ≠ none → name = mainTemplate → b = block) := by
  refine Kept.pointwise (Q := fun name base b =>
    (collection.inlined.findTemplate name = none → b = .paramRef [name]) ∧
    (collection.inlined.findTemplate name ≠ none → name = mainTemplate → b = block))
    (fun name base hnone => ⟨fun _ => rfl, fun hne => absurd hnone hne⟩) ?_
  intro name t base joins b blocks hfind hreached hgroup hblocks base' _
  refine ⟨fun hnone => by simp [hfind] at hnone, fun _ hname => ?_⟩
  rcases hreached with hmain | hnone
  · cases hmain
    -- the tree of the main template has references to parameters only
    have htree := treeBlocks_of_inPlace h
    rw [treeBlocks, ← TemplateCollection.findTemplate_inlined, Reference.main, hfind] at htree
    have hparams : groupOf paramBlock t [] [[]] = some b := by
      refine groupOf_mono hgroup fun y hy b' hb' => ?_
      have hnone : collection.inlined.findTemplate y.name = none := by
        rw [TemplateCollection.findTemplate_inlined, fullDepth, TemplateCollection.expanded,
          Option.map_eq_some_iff] at hfind
        obtain ⟨t1, hfind1, rfl⟩ := hfind
        rw [findTemplate_inlined_eq_none_iff]
        exact findTemplate_eq_none_of_mem_references h hfind1 hy
      rw [paramBlock, (hblocks y hy b' hb').1 hnone]
    exact Option.some_inj.mp (hparams.symm.trans htree)
  · simp [hfind] at hnone

theorem buildGroup_inlined (order : EvalOrder) {limit : Nat} (hlimit : collection.length < limit)
    (hfind : collection.findTemplate mainTemplate = some t)
    (h : inPlace collection (fullDepth collection) (.main mainTemplate) = some block) :
    ∃ context, buildGroup collection.inlined order limit mainTemplate = .ok (block, context) := by
  have hfind' : ∃ t', collection.inlined.findTemplate mainTemplate = some t' := by
    rw [← Option.ne_none_iff_exists', Ne, findTemplate_inlined_eq_none_iff, hfind]
    simp
  obtain ⟨t', hfind'⟩ := hfind'
  have hparams : ∀ y ∈ t'.references [] [[]],
      collection.inlined.findTemplate y.name = none := by
    intro y hy
    rw [TemplateCollection.findTemplate_inlined, fullDepth, TemplateCollection.expanded, hfind,
      Option.map_some] at hfind'
    cases hfind'
    rw [findTemplate_inlined_eq_none_iff]
    exact findTemplate_eq_none_of_mem_references h hfind hy
  have hlimit' : collection.inlined.length < limit := by
    rw [TemplateCollection.inlined, List.length_map]
    exact hlimit
  have hreached : ∀ (x : Reference) t,
      (x = .main mainTemplate ∨ collection.inlined.findTemplate x.name = none) →
      collection.inlined.findTemplate x.name = some t → ∀ y ∈ t.references x.base x.joins,
      y = .main mainTemplate ∨ collection.inlined.findTemplate y.name = none := by
    rintro x t2 (rfl | hnone) hx y hy
    · rw [Reference.main, hfind'] at hx
      cases hx
      exact Or.inr (hparams y hy)
    · rw [hnone] at hx
      cases hx
  rcases buildGroup_yields order mainTemplate (kept_inlined h) hreached (Or.inl rfl)
      (fun _ _ _ hnone => by cases hnone) hlimit' hfind' with
    ⟨block', cache, hbuild, hgood, hlookup⟩ | ⟨-, hcycle⟩
  · have hblock := (hgood.kept mainTemplate [] block' hlookup).2 (by simp [hfind']) rfl
    rw [hblock] at hbuild
    exact ⟨_, hbuild⟩
  · exfalso
    obtain ⟨name, hrefers, -⟩ := hcycle.exists_refersTo
    obtain ⟨y, hy, rfl⟩ := hrefers.exists_mem_references hfind' [] [[]]
    obtain ⟨-, t2, -, ht2, -⟩ := hrefers
    rw [hparams y hy] at ht2
    cases ht2

end Inlined

theorem groupOf_joins {blocks : Reference → Option MistTemplateGroupBlock}
    (hblocks : ∀ name base joins joins', blocks ⟨name, base, joins⟩ = blocks ⟨name, base, joins'⟩)
    (t : Template) (hindex : t.withoutIndex = true) (base : MistParamNameAbs)
    (joins joins' : List MistParamNameAbs) :
    groupOf blocks t base joins = groupOf blocks t base joins' := by
  induction t using Template.ind generalizing base joins joins' with
  | empty => rfl
  | sequence ts ih =>
    rw [Template.withoutIndex] at hindex
    rw [groupOf, groupOf]
    congr 1
    induction ts with
    | nil => rfl
    | cons t ts ihts =>
      rw [Template.withoutIndexAll, Bool.and_eq_true] at hindex
      rw [groupsOf, groupsOf, ih t List.mem_cons_self hindex.1 base joins joins',
        ihts (fun t' ht' => ih t' (List.mem_cons_of_mem _ ht')) hindex.2]
  | text s => rfl
  | ref name =>
    rw [groupOf, groupOf]
    cases name.single? with
    | none => rfl
    | some component => exact hblocks component base joins joins'
  | ifTemplate c p e ihc ihp ihe =>
    rw [Template.withoutIndex, Bool.and_eq_true, Bool.and_eq_true] at hindex
    rw [groupOf, groupOf, ihc hindex.1.1 base joins joins', ihp hindex.1.2 base joins joins',
      ihe hindex.2 base joins joins']
  | join reversed t textBetween ih =>
    rw [groupOf, groupOf, ih hindex base (base :: joins) (base :: joins')]
  | withContext context t ih =>
    rw [groupOf, groupOf, ih hindex (context.resolve base) joins joins']
  | index first t ih => cases hindex
  | indent t s ih => rw [groupOf, groupOf, ih hindex base joins joins']

theorem inPlace_joins (hindex : collection.withoutIndex = true) (depth : Nat) (name : Str)
    (base : MistParamNameAbs) (joins joins' : List MistParamNameAbs) :
    inPlace collection depth ⟨name, base, joins⟩ = inPlace collection depth ⟨name, base, joins'⟩ := by
  induction depth generalizing name base joins joins' with
  | zero => rfl
  | succ depth ih =>
    rw [inPlace, inPlace]
    cases hfind : collection.findTemplate name with
    | none => rfl
    | some t =>
      exact groupOf_joins ih t
        (TemplateCollection.withoutIndex_of_findTemplate hindex hfind) base joins joins'

/--
The references to a template that does not use its context itself have the same block in
place, in whatever `with` context they are made.
-/
def SharedAlike (collection : TemplateCollection) (mainTemplate : Str) : Prop :=
  ∀ x y t, Reaches collection mainTemplate x → Reaches collection mainTemplate y →
    x.name = y.name → collection.findTemplate x.name = some t → t.usesContext = false →
    inPlace collection (fullDepth collection) x = inPlace collection (fullDepth collection) y

theorem SharedAlike.coherent {mainTemplate : Str} (hindex : collection.withoutIndex = true)
    (h : SharedAlike collection mainTemplate) :
    Coherent collection mainTemplate := by
  intro x y t hx hy hname hfind hbase
  cases huses : t.usesContext with
  | false => exact h x y t hx hy hname hfind huses
  | true =>
    obtain ⟨name, base, joins⟩ := x
    obtain ⟨name', base', joins'⟩ := y
    obtain rfl : name = name' := hname
    obtain rfl : base = base' := hbase huses
    exact inPlace_joins hindex _ name base joins joins'

theorem kept_closed (collection : TemplateCollection) (Reached : Reference → Prop) :
    Kept collection Reached fun lookup => ∀ name base block, lookup name base = some block →
      (collection.findTemplate name = none → block = .paramRef [name]) ∧
      ∀ t, collection.findTemplate name = some t → ∃ base' joins',
        groupOf (fun x => lookup x.name x.base) t base' joins' = some block where
  param {lookup name} h hfind name' base block hlookup := by
    simp only at hlookup
    split_ifs at hlookup with heq
    · cases hlookup
      refine ⟨fun _ => by rw [heq], fun t ht => ?_⟩
      rw [heq, hfind] at ht
      cases ht
    · refine ⟨(h name' base block hlookup).1, fun t ht => ?_⟩
      obtain ⟨base', joins', hgroup⟩ := (h name' base block hlookup).2 t ht
      refine ⟨base', joins', groupOf_mono hgroup fun x _ b hb => ?_⟩
      simp only
      split_ifs with hx
      · rw [(h x.name x.base b hb).1 (by rw [hx, hfind]), hx]
      · exact hb
  template {lookup name t base joins block} h hfind _ hgroup hnone name' base' block' hlookup := by
    have hmono : ∀ x : Reference, ∀ b, lookup x.name x.base = some b →
        (if x.name = name ∧ (t.usesContext = true → x.base = base) then some block
          else lookup x.name x.base) = some b := by
      intro x b hb
      split_ifs with hand
      · rw [hand.1, hnone x.base hand.2] at hb
        cases hb
      · exact hb
    simp only at hlookup
    split_ifs at hlookup with hand
    · cases hlookup
      obtain ⟨rfl, -⟩ := hand
      refine ⟨fun hnot => ?_, fun t' ht' => ?_⟩
      · rw [hfind] at hnot
        cases hnot
      · rw [hfind] at ht'
        cases ht'
        exact ⟨base, joins, groupOf_mono hgroup fun x _ b hb => hmono x b hb⟩
    · refine ⟨(h name' base' block' hlookup).1, fun t' ht' => ?_⟩
      obtain ⟨base'', joins'', hgroup'⟩ := (h name' base' block' hlookup).2 t' ht'
      exact ⟨base'', joins'', groupOf_mono hgroup' fun x _ b hb => hmono x b hb⟩

theorem sequenceGroup_injective
    {bs bs' : List MistTemplateGroupBlock} (hlen : bs.length = bs'.length)
    (h : sequenceGroup bs = sequenceGroup bs') :
    bs = bs' := by
  match bs, bs' with
  | [], [] => rfl
  | [b], [b'] => exact congrArg (fun b => [b]) h
  | b1 :: b2 :: bs, b1' :: b2' :: bs' => injection h
  | [], _ :: _ => cases hlen
  | _ :: _, [] => cases hlen
  | [_], _ :: _ :: _ => cases hlen
  | _ :: _ :: _, [_] => cases hlen

theorem indentGroup_injective
    {b b' : MistTemplateGroupBlock} {tab : Str} (h : indentGroup b tab = indentGroup b' tab) :
    b = b' := by
  unfold indentGroup at h
  split_ifs at h
  · injection h
  · exact h

theorem forall₂_references {blocks blocks' : Reference → Option MistTemplateGroupBlock}
    {t : Template} (hindex : t.withoutIndex = true) {base base' : MistParamNameAbs}
    {joins joins' : List MistParamNameAbs} (h : groupOf blocks t base joins = some block)
    (h' : groupOf blocks' t base' joins' = some block) :
    List.Forall₂ (fun x x' => x.name = x'.name ∧ blocks x = blocks' x')
      (t.references base joins) (t.references base' joins') := by
  induction t using Template.ind generalizing base base' joins joins' block with
  | empty => exact .nil
  | sequence ts ih =>
    rw [groupOf, Option.map_eq_some_iff] at h h'
    obtain ⟨bs, hbs, rfl⟩ := h
    obtain ⟨bs', hbs', heq⟩ := h'
    obtain rfl := sequenceGroup_injective
      ((forall₂_of_groupsOf hbs').length_eq.symm.trans (forall₂_of_groupsOf hbs).length_eq) heq
    rw [Template.withoutIndex] at hindex
    rw [Template.references, Template.references]
    clear heq
    induction ts generalizing bs' with
    | nil => exact .nil
    | cons t ts ihts =>
      simp only [groupsOf, Option.bind_eq_bind, Option.bind_eq_some_iff] at hbs hbs'
      obtain ⟨b, hb, rest, hrest, heq⟩ := hbs
      cases heq
      obtain ⟨b', hb', rest', hrest', heq⟩ := hbs'
      cases heq
      rw [Template.withoutIndexAll, Bool.and_eq_true] at hindex
      rw [Template.referencesAll, Template.referencesAll]
      exact List.rel_append (ih t List.mem_cons_self hindex.1 hb hb')
        (ihts (fun t' ht' => ih t' (List.mem_cons_of_mem _ ht')) hindex.2 rest hrest' hrest)
  | text s => exact .nil
  | ref name =>
    rw [groupOf] at h h'
    rw [Template.references, Template.references]
    cases hsingle : name.single? with
    | none => exact .nil
    | some component =>
      rw [hsingle] at h h'
      exact .cons ⟨rfl, h.trans h'.symm⟩ .nil
  | ifTemplate c p e ihc ihp ihe =>
    simp only [groupOf, Option.bind_eq_bind, Option.bind_eq_some_iff] at h h'
    obtain ⟨bc, hc, bp, hp, be, he, heq⟩ := h
    cases heq
    obtain ⟨bc', hc', bp', hp', be', he', heq⟩ := h'
    cases heq
    rw [Template.withoutIndex, Bool.and_eq_true, Bool.and_eq_true] at hindex
    rw [Template.references, Template.references]
    exact List.rel_append (ihc hindex.1.1 hc hc')
      (List.rel_append (ihp hindex.1.2 hp hp') (ihe hindex.2 he he'))
  | join reversed t textBetween ih =>
    simp only [groupOf, Option.bind_eq_bind, Option.bind_eq_some_iff] at h h'
    obtain ⟨b, hb, hnew⟩ := h
    obtain ⟨b', hb', hnew'⟩ := h'
    obtain ⟨mask, submask, hspec, -, -⟩ :=
      MistTemplateGroupBlock.newJoin_spec reversed b base textBetween
    obtain ⟨mask', submask', hspec', -, -⟩ :=
      MistTemplateGroupBlock.newJoin_spec reversed b' base' textBetween
    rw [hspec] at hnew
    rw [hspec'] at hnew'
    cases hnew
    cases hnew'
    exact ih hindex hb hb'
  | withContext context t ih => exact ih hindex h h'
  | index first t ih => cases hindex
  | indent t s ih =>
    rw [groupOf, Option.map_eq_some_iff] at h h'
    obtain ⟨b, hb, rfl⟩ := h
    obtain ⟨b', hb', heq⟩ := h'
    obtain rfl := indentGroup_injective heq
    exact ih hindex hb hb'

/-- If the group is the one in place, then every reference in place has a cached block. -/
theorem exists_lookup_of_reaches {mainTemplate : Str} {cache : NamedCache}
    (hindex : collection.withoutIndex = true) (hcycle : ¬ ReachesCycle collection mainTemplate)
    (hclosed : ∀ name base b, cache.lookup name base = some b →
      (collection.findTemplate name = none → b = .paramRef [name]) ∧
      ∀ t, collection.findTemplate name = some t → ∃ base' joins',
        groupOf (fun x => cache.lookup x.name x.base) t base' joins' = some b)
    (hlookup : cache.lookup mainTemplate [] = some block)
    (hblock : inPlace collection (fullDepth collection) (.main mainTemplate) = some block)
    {x : Reference} (hx : Reaches collection mainTemplate x) :
    ∃ base, cache.lookup x.name base = inPlace collection (fullDepth collection) x := by
  induction hx with
  | main => exact ⟨[], hlookup.trans hblock.symm⟩
  | @step x y t hx hfind hy ih =>
    obtain ⟨base, hbase⟩ := ih
    obtain ⟨b, hb⟩ := hx.inPlace_isSome hcycle
    rw [hb] at hbase
    obtain ⟨base', joins', hgroup⟩ := (hclosed x.name base b hbase).2 t hfind
    rw [hx.inPlace_eq hcycle hfind] at hb
    have hrefs := forall₂_references
      (TemplateCollection.withoutIndex_of_findTemplate hindex hfind) hgroup hb
    obtain ⟨x', -, hname, hsame⟩ :=
      MistTemplateGroupBlock.exists_of_forall₂_right hrefs hy
    exact ⟨x'.base, by rw [← hname, hsame]⟩

/--
A reference means the content of its template exactly if the blocks that are shared
between `with` contexts are the same in all of them.
-/
theorem buildGroup_eq_inlined_iff
    (collection : TemplateCollection) (order : EvalOrder) (mainTemplate : Str) (limit : Nat)
    (hlimit : collection.length < limit) (hindex : collection.withoutIndex = true)
    (hcycle : ¬ ReachesCycle collection mainTemplate)
    (hmain : (collection.findTemplate mainTemplate).isSome) :
    ∃ block context block' context',
      buildGroup collection order limit mainTemplate = .ok (block, context) ∧
      buildGroup collection.inlined order limit mainTemplate = .ok (block', context') ∧
      (block = block' ↔ SharedAlike collection mainTemplate) ∧
      (SharedAlike collection mainTemplate → ∀ paramSet,
        block.instantiate paramSet = block'.instantiate paramSet) := by
  obtain ⟨t, hfind⟩ := Option.isSome_iff_exists.mp hmain
  obtain ⟨block', hblock'⟩ := Reaches.main.inPlace_isSome hcycle
  obtain ⟨context', hbuild'⟩ := buildGroup_inlined order hlimit hfind hblock'
  have hshared : SharedAlike collection mainTemplate → ∀ block context,
      buildGroup collection order limit mainTemplate = .ok (block, context) → block = block' := by
    intro hshared block context hbuild
    obtain ⟨block1, context1, hbuild1, hblock1⟩ :=
      buildGroup_eq_inPlace order hlimit hcycle hfind (hshared.coherent hindex)
    rw [hbuild] at hbuild1
    cases hbuild1
    rw [hblock'] at hblock1
    exact (Option.some_inj.mp hblock1).symm
  rcases buildGroup_yields order mainTemplate (kept_closed collection fun _ => True)
      (fun _ _ _ _ _ _ => trivial) trivial (fun _ _ _ h => by cases h) hlimit hfind with
    ⟨block, cache, hbuild, hgood, hlookup⟩ | ⟨-, hcycle'⟩
  · refine ⟨block, _, block', context', hbuild, hbuild', ⟨?_, fun h => hshared h block _ hbuild⟩,
      fun h paramSet => by rw [hshared h block _ hbuild]⟩
    rintro rfl
    intro x y t' hx hy hname hfind' huses
    obtain ⟨base, hbase⟩ := exists_lookup_of_reaches hindex hcycle hgood.kept hlookup hblock' hx
    obtain ⟨base', hbase'⟩ := exists_lookup_of_reaches hindex hcycle hgood.kept hlookup hblock' hy
    rw [← hbase, ← hbase', ← hname, NamedCache.lookup_eq_refGlobal hgood.keyed hfind' huses,
      NamedCache.lookup_eq_refGlobal hgood.keyed hfind' huses]
  · exact absurd hcycle' hcycle

/-- The template `a` refers to `b`, which has a relative name; `a` is used in two contexts. -/
def twoContexts : TemplateCollection :=
  [(['m'], .sequence [.withContext ⟨[['p']], false⟩ (.ref ⟨[['a']], false⟩),
      .withContext ⟨[['q']], false⟩ (.ref ⟨[['a']], false⟩)]),
    (['a'], .ref ⟨[['b']], false⟩), (['b'], .ref ⟨[['x']], true⟩)]

def twoContextsValues : ParamSet :=
  .mk [] [(['p'], .mk [] [(['x'], .mk ['1'] [], [])], []),
    (['q'], .mk [] [(['x'], .mk ['2'] [], [])], [])]

/-- The text that a collection gives, if there is one. -/
def instantiateGroup (collection : TemplateCollection) (order : EvalOrder) (limit : Nat)
    (mainTemplate : Str) (paramSet : ParamSet) : Option MistTemplateGroupBlock.Outcome :=
  match buildGroup collection order limit mainTemplate with
  | .ok (block, _) => block.instantiate paramSet
  | .error _ => none

/-- The block from the first `with` context is used in the second one. -/
theorem instantiateGroup_twoContexts :
    instantiateGroup twoContexts .abc 4 ['m'] twoContextsValues = some (.text ['1', '1']) ∧
    instantiateGroup twoContexts.inlined .abc 4 ['m'] twoContextsValues =
      some (.text ['1', '2']) := by
  decide

theorem mem_of_reaches_diamond {x : Reference} (hx : Reaches diamond ['m'] x) :
    x ∈ [⟨['m'], [], [[]]⟩, ⟨['a'], [], [[]]⟩, ⟨['b'], [], [[]]⟩, (⟨['c'], [], [[]]⟩ : Reference)] := by
  induction hx with
  | main => exact List.mem_cons_self
  | @step x y t _ hfind hy ih =>
    simp only [List.mem_cons, List.not_mem_nil, or_false] at ih
    rcases ih with rfl | rfl | rfl | rfl <;> cases hfind
    · revert y
      decide
    · revert y
      decide
    · revert y
      decide
    · cases hy

/-- A template that is referred to twice, always at the root. -/
theorem buildGroup_eq_inlined_iff_diamond :
    ∃ block context block' context', buildGroup diamond .abc 5 ['m'] = .ok (block, context) ∧
      buildGroup diamond.inlined .abc 5 ['m'] = .ok (block', context') ∧ block = block' := by
  have hcycle : ¬ ReachesCycle diamond ['m'] :=
    not_reachesCycle_of_buildGroup .abc (by decide : diamond.length < 5) rfl rfl
  obtain ⟨block, context, block', context', hbuild, hbuild', hiff, -⟩ :=
    buildGroup_eq_inlined_iff diamond .abc ['m'] 5 (by decide) rfl hcycle rfl
  refine ⟨block, context, block', context', hbuild, hbuild', hiff.mpr ?_⟩
  intro x y t hx hy hname _ _
  have hx := mem_of_reaches_diamond hx
  have hy := mem_of_reaches_diamond hy
  have heq : x = y := by
    simp only [List.mem_cons, List.not_mem_nil, or_false] at hx hy
    rcases hx with rfl | rfl | rfl | rfl <;> rcases hy with rfl | rfl | rfl | rfl <;>
      first | rfl | cases hname
  rw [heq]

end Mist
end KedrAux
