import KedrAux.Mist.TemplateBuild

/-!
# References of templates

The references that a template makes, each with the bases in force there, and the block
of a template for given blocks of its references.
-/

variable {base : MistParamNameAbs} {joins : List MistParamNameAbs}

namespace KedrAux
namespace Mist

/-- A reference to a template or to a parameter, with the bases in force. -/
structure Reference where
  name : Str
  base : MistParamNameAbs
  joins : List MistParamNameAbs
deriving DecidableEq

namespace Template

mutual

/-- The references by absolute names of one component. -/
def references : Template → MistParamNameAbs → List MistParamNameAbs → List Reference
  | .empty, _, _ => []
  | .sequence subtemplates, base, joins => referencesAll subtemplates base joins
  | .text _, _, _ => []
  | .ref name, base, joins =>
    match name.single? with
    | some component => [⟨component, base, joins⟩]
    | none => []
  | .ifTemplate conditionTemplate positiveTemplate elseTemplate, base, joins =>
    conditionTemplate.references base joins ++
      (positiveTemplate.references base joins ++ elseTemplate.references base joins)
  | .join _ templateInternal _, base, joins => templateInternal.references base (base :: joins)
  | .withContext context templateInternal, base, joins =>
    templateInternal.references (context.resolve base) joins
  | .index _ templateInternal, base, joins => templateInternal.references base joins
  | .indent templateInternal _, base, joins => templateInternal.references base joins

def referencesAll : List Template → MistParamNameAbs → List MistParamNameAbs → List Reference
  | [], _, _ => []
  | subtemplate :: subtemplates, base, joins =>
    subtemplate.references base joins ++ referencesAll subtemplates base joins

end

mutual

/-- The references in the order in which the builder makes their blocks. -/
def referencesIn (order : EvalOrder) :
    Template → MistParamNameAbs → List MistParamNameAbs → List Reference
  | .empty, _, _ => []
  | .sequence subtemplates, base, joins => referencesInAll order subtemplates base joins
  | .text _, _, _ => []
  | .ref name, base, joins =>
    match name.single? with
    | some component => [⟨component, base, joins⟩]
    | none => []
  | .ifTemplate conditionTemplate positiveTemplate elseTemplate, base, joins =>
    order.arrange (conditionTemplate.referencesIn order base joins)
      (positiveTemplate.referencesIn order base joins) (elseTemplate.referencesIn order base joins)
  | .join _ templateInternal _, base, joins =>
    templateInternal.referencesIn order base (base :: joins)
  | .withContext context templateInternal, base, joins =>
    templateInternal.referencesIn order (context.resolve base) joins
  | .index _ templateInternal, base, joins => templateInternal.referencesIn order base joins
  | .indent templateInternal _, base, joins => templateInternal.referencesIn order base joins

def referencesInAll (order : EvalOrder) :
    List Template → MistParamNameAbs → List MistParamNameAbs → List Reference
  | [], _, _ => []
  | subtemplate :: subtemplates, base, joins =>
    subtemplate.referencesIn order base joins ++ referencesInAll order subtemplates base joins

end

variable {x : Reference}

theorem mem_referencesAll {ts : List Template} :
    x ∈ referencesAll ts base joins ↔ ∃ t ∈ ts, x ∈ t.references base joins := by
  induction ts with
  | nil => simp [referencesAll]
  | cons t ts ih => simp [referencesAll, ih]

theorem map_name_references
    (t : Template) (base base' : MistParamNameAbs) (joins joins' : List MistParamNameAbs) :
    (t.references base joins).map Reference.name =
      (t.references base' joins').map Reference.name := by
  induction t using Template.ind generalizing base base' joins joins' with
  | empty => rfl
  | sequence ts ih =>
    rw [references, references]
    induction ts with
    | nil => rfl
    | cons t ts ihts =>
      rw [referencesAll, referencesAll, List.map_append, List.map_append,
        ih t List.mem_cons_self base base' joins joins',
        ihts fun t' ht' => ih t' (List.mem_cons_of_mem _ ht')]
  | text s => rfl
  | ref name =>
    rw [references, references]
    cases name.single? <;> rfl
  | ifTemplate c p e ihc ihp ihe =>
    simp only [references, List.map_append]
    rw [ihc base base' joins joins', ihp base base' joins joins', ihe base base' joins joins']
  | join reversed t textBetween ih => exact ih _ _ _ _
  | withContext context t ih => exact ih _ _ _ _
  | index first t ih => exact ih _ _ _ _
  | indent t s ih => exact ih _ _ _ _

theorem joins_ne_nil_of_mem_references {t : Template} (hx : x ∈ t.references base joins)
    (hjoins : joins ≠ []) :
    x.joins ≠ [] := by
  induction t using Template.ind generalizing base joins with
  | empty => cases hx
  | sequence ts ih =>
    rw [references] at hx
    obtain ⟨t, ht, hx⟩ := mem_referencesAll.mp hx
    exact ih t ht hx hjoins
  | text s => cases hx
  | ref name =>
    rw [references] at hx
    cases hsingle : name.single? with
    | none =>
      rw [hsingle] at hx
      cases hx
    | some component =>
      rw [hsingle, List.mem_singleton] at hx
      exact hx ▸ hjoins
  | ifTemplate c p e ihc ihp ihe =>
    rw [references] at hx
    rcases List.mem_append.mp hx with hx | hx
    · exact ihc hx hjoins
    · rcases List.mem_append.mp hx with hx | hx
      · exact ihp hx hjoins
      · exact ihe hx hjoins
  | join reversed t textBetween ih => exact ih hx (List.cons_ne_nil _ _)
  | withContext context t ih => exact ih hx hjoins
  | index first t ih => exact ih hx hjoins
  | indent t s ih => exact ih hx hjoins

end Template

section GroupOf

variable (blocks : Reference → Option MistTemplateGroupBlock)

mutual

/-- The block of a template, when the blocks of references are given. -/
def groupOf : Template → MistParamNameAbs → List MistParamNameAbs → Option MistTemplateGroupBlock
  | .empty, _, _ => some .empty
  | .sequence subtemplates, base, joins => (groupsOf subtemplates base joins).map sequenceGroup
  | .text s, _, _ => some (.text s)
  | .ref name, base, joins =>
    match name.single? with
    | some component => blocks ⟨component, base, joins⟩
    | none => some (.paramRef (name.resolve base))
  | .ifTemplate conditionTemplate positiveTemplate elseTemplate, base, joins => do
      let conditionBlock ← groupOf conditionTemplate base joins
      let ifBlock ← groupOf positiveTemplate base joins
      let elseBlock ← groupOf elseTemplate base joins
      return .ifGroup conditionBlock ifBlock elseBlock
  | .join reversed templateInternal textBetween, base, joins => do
      let blockInternal ← groupOf templateInternal base (base :: joins)
      MistTemplateGroupBlock.newJoin reversed blockInternal base textBetween
  | .withContext context templateInternal, base, joins =>
    groupOf templateInternal (context.resolve base) joins
  | .index first templateInternal, base, joins =>
    (groupOf templateInternal base joins).map fun blockTmp =>
      .index first (joinDepth joins blockTmp.getParamMask (joins.length - 1))
  | .indent templateInternal tab, base, joins =>
    (groupOf templateInternal base joins).map fun block => indentGroup block tab

def groupsOf : List Template → MistParamNameAbs → List MistParamNameAbs →
    Option (List MistTemplateGroupBlock)
  | [], _, _ => some []
  | subtemplate :: subtemplates, base, joins => do
      let block ← groupOf subtemplate base joins
      let rest ← groupsOf subtemplates base joins
      return block :: rest

end

end GroupOf

variable {block : MistTemplateGroupBlock}

section GroupOf

variable {blocks blocks' : Reference → Option MistTemplateGroupBlock}

theorem forall₂_of_groupsOf {ts : List Template} {bs : List MistTemplateGroupBlock}
    (h : groupsOf blocks ts base joins = some bs) :
    List.Forall₂ (fun t b => groupOf blocks t base joins = some b) ts bs := by
  induction ts generalizing bs with
  | nil =>
    cases h
    exact .nil
  | cons t ts ih =>
    simp only [groupsOf, Option.bind_eq_bind, Option.bind_eq_some_iff] at h
    obtain ⟨b, hb, rest, hrest, heq⟩ := h
    cases heq
    exact .cons hb (ih hrest)

theorem groupOf_congr (t : Template) (base : MistParamNameAbs) (joins : List MistParamNameAbs)
    (h : ∀ x ∈ t.references base joins, blocks x = blocks' x) :
    groupOf blocks t base joins = groupOf blocks' t base joins := by
  induction t using Template.ind generalizing base joins with
  | empty => rfl
  | sequence ts ih =>
    rw [groupOf, groupOf]
    congr 1
    rw [Template.references] at h
    induction ts with
    | nil => rfl
    | cons t ts ihts =>
      rw [Template.referencesAll] at h
      rw [groupsOf, groupsOf, ih t List.mem_cons_self base joins
          fun x hx => h x (List.mem_append_left _ hx),
        ihts (fun t' ht' => ih t' (List.mem_cons_of_mem _ ht'))
          fun x hx => h x (List.mem_append_right _ hx)]
  | text s => rfl
  | ref name =>
    rw [Template.references] at h
    rw [groupOf, groupOf]
    cases hsingle : name.single? with
    | none => rfl
    | some component =>
      rw [hsingle] at h
      exact h _ List.mem_cons_self
  | ifTemplate c p e ihc ihp ihe =>
    rw [Template.references] at h
    rw [groupOf, groupOf, ihc base joins fun x hx => h x (List.mem_append_left _ hx),
      ihp base joins fun x hx => h x (List.mem_append_right _ (List.mem_append_left _ hx)),
      ihe base joins fun x hx => h x (List.mem_append_right _ (List.mem_append_right _ hx))]
  | join reversed t textBetween ih => rw [groupOf, groupOf, ih base (base :: joins) h]
  | withContext context t ih => rw [groupOf, groupOf, ih (context.resolve base) joins h]
  | index first t ih => rw [groupOf, groupOf, ih base joins h]
  | indent t s ih => rw [groupOf, groupOf, ih base joins h]

theorem exists_of_groupOf {t : Template}
    (h : groupOf blocks t base joins = some block) {x : Reference}
    (hx : x ∈ t.references base joins) :
    ∃ b, blocks x = some b := by
  induction t using Template.ind generalizing base joins block with
  | empty => cases hx
  | sequence ts ih =>
    rw [groupOf, Option.map_eq_some_iff] at h
    obtain ⟨bs, hbs, -⟩ := h
    rw [Template.references] at hx
    obtain ⟨t, ht, hx⟩ := Template.mem_referencesAll.mp hx
    obtain ⟨b, -, hb⟩ := MistTemplateGroupBlock.exists_of_forall₂_right
      (forall₂_of_groupsOf hbs).flip ht
    exact ih t ht hb hx
  | text s => cases hx
  | ref name =>
    rw [groupOf] at h
    rw [Template.references] at hx
    cases hsingle : name.single? with
    | none =>
      rw [hsingle] at hx
      cases hx
    | some component =>
      rw [hsingle] at h hx
      rw [List.mem_singleton] at hx
      exact ⟨block, hx ▸ h⟩
  | ifTemplate c p e ihc ihp ihe =>
    simp only [groupOf, Option.bind_eq_bind, Option.bind_eq_some_iff] at h
    obtain ⟨bc, hc, bp, hp, be, he, -⟩ := h
    rw [Template.references] at hx
    rcases List.mem_append.mp hx with hx | hx
    · exact ihc hc hx
    · rcases List.mem_append.mp hx with hx | hx
      · exact ihp hp hx
      · exact ihe he hx
  | join reversed t textBetween ih =>
    simp only [groupOf, Option.bind_eq_bind, Option.bind_eq_some_iff] at h
    obtain ⟨b, hb, -⟩ := h
    exact ih hb hx
  | withContext context t ih => exact ih h hx
  | index first t ih
  | indent t s ih =>
    rw [groupOf, Option.map_eq_some_iff] at h
    obtain ⟨b, hb, -⟩ := h
    exact ih hb hx

theorem groupOf_isSome (t : Template) (base : MistParamNameAbs) (joins : List MistParamNameAbs)
    (h : ∀ x ∈ t.references base joins, ∃ b, blocks x = some b) :
    ∃ block, groupOf blocks t base joins = some block := by
  induction t using Template.ind generalizing base joins with
  | empty => exact ⟨.empty, rfl⟩
  | sequence ts ih =>
    rw [Template.references] at h
    suffices hall : ∃ bs, groupsOf blocks ts base joins = some bs by
      obtain ⟨bs, hbs⟩ := hall
      exact ⟨sequenceGroup bs, by rw [groupOf, hbs]; rfl⟩
    induction ts with
    | nil => exact ⟨[], rfl⟩
    | cons t ts ihts =>
      rw [Template.referencesAll] at h
      obtain ⟨b, hb⟩ := ih t List.mem_cons_self base joins
        fun x hx => h x (List.mem_append_left _ hx)
      obtain ⟨bs, hbs⟩ := ihts (fun t' ht' => ih t' (List.mem_cons_of_mem _ ht'))
        fun x hx => h x (List.mem_append_right _ hx)
      exact ⟨b :: bs, by simp [groupsOf, hb, hbs]⟩
  | text s => exact ⟨.text s, rfl⟩
  | ref name =>
    rw [Template.references] at h
    rw [groupOf]
    cases hsingle : name.single? with
    | none => exact ⟨_, rfl⟩
    | some component =>
      rw [hsingle] at h
      exact h _ List.mem_cons_self
  | ifTemplate c p e ihc ihp ihe =>
    rw [Template.references] at h
    obtain ⟨bc, hc⟩ := ihc base joins fun x hx => h x (List.mem_append_left _ hx)
    obtain ⟨bp, hp⟩ := ihp base joins
      fun x hx => h x (List.mem_append_right _ (List.mem_append_left _ hx))
    obtain ⟨be, he⟩ := ihe base joins
      fun x hx => h x (List.mem_append_right _ (List.mem_append_right _ hx))
    exact ⟨.ifGroup bc bp be, by simp [groupOf, hc, hp, he]⟩
  | join reversed t textBetween ih =>
    obtain ⟨b, hb⟩ := ih base (base :: joins) h
    obtain ⟨mask, submask, hnew, -, -⟩ :=
      MistTemplateGroupBlock.newJoin_spec reversed b base textBetween
    exact ⟨_, by simp only [groupOf, hb]; exact hnew⟩
  | withContext context t ih => exact ih (context.resolve base) joins h
  | index first t ih
  | indent t s ih =>
    obtain ⟨b, hb⟩ := ih base joins h
    exact ⟨_, by rw [groupOf, hb]; rfl⟩

theorem groupOf_mono {t : Template}
    (h : groupOf blocks t base joins = some block)
    (hblocks : ∀ x ∈ t.references base joins, ∀ b, blocks x = some b → blocks' x = some b) :
    groupOf blocks' t base joins = some block := by
  rw [← h]
  refine (groupOf_congr t base joins fun x hx => ?_).symm
  obtain ⟨b, hb⟩ := exists_of_groupOf h hx
  rw [hb, hblocks x hx b hb]

end GroupOf

/-- The references get one block: the same one, unless the template uses its context. -/
def SharesBlock (t : Template) (x y : Reference) : Prop :=
  x.name = y.name ∧ (t.usesContext = true → x.base = y.base)

instance (t : Template) (x y : Reference) : Decidable (SharesBlock t x y) :=
  inferInstanceAs (Decidable (_ ∧ _))

/--
The references at which blocks are made, the last one first, when one more reference is
visited: those of its template come before it.  Nothing is made for a reference that gets
the block of another one.
-/
def visit (collection : TemplateCollection) (order : EvalOrder) :
    Nat → List Reference → Reference → List Reference
  | 0, sites, _ => sites
  | limit + 1, sites, x =>
    match collection.findTemplate x.name with
    | none => sites
    | some t =>
      if sites.any fun y => decide (SharesBlock t y x) then sites
      else x :: (t.referencesIn order x.base x.joins).foldl (visit collection order limit) sites

def Reference.main (mainTemplate : Str) : Reference :=
  ⟨mainTemplate, [], [[]]⟩

/-- The references at which the blocks of a group are made. -/
def buildSites (collection : TemplateCollection) (order : EvalOrder) (limit : Nat)
    (mainTemplate : Str) : List Reference :=
  visit collection order limit [] (.main mainTemplate)

/-- The block that a reference gets, when blocks are made at the given references. -/
def siteBlocks (collection : TemplateCollection) :
    List Reference → Reference → Option MistTemplateGroupBlock
  | [], x =>
    match collection.findTemplate x.name with
    | none => some (.paramRef [x.name])
    | some _ => none
  | site :: sites, x =>
    match collection.findTemplate x.name with
    | none => some (.paramRef [x.name])
    | some t =>
      if SharesBlock t site x then groupOf (siteBlocks collection sites) t site.base site.joins
      else siteBlocks collection sites x

variable {collection : TemplateCollection} {t : Template}

section SiteBlocks

variable {sites : List Reference} {site x : Reference}

theorem siteBlocks_of_param (hfind : collection.findTemplate x.name = none) :
    siteBlocks collection sites x = some (.paramRef [x.name]) := by
  cases sites <;> rw [siteBlocks, hfind]

theorem siteBlocks_of_shares (hfind : collection.findTemplate x.name = some t)
    (hshares : SharesBlock t site x) :
    siteBlocks collection (site :: sites) x =
      groupOf (siteBlocks collection sites) t site.base site.joins := by
  rw [siteBlocks, hfind]
  exact if_pos hshares

theorem siteBlocks_of_not_shares
    (hshares : ∀ t, collection.findTemplate x.name = some t → ¬ SharesBlock t site x) :
    siteBlocks collection (site :: sites) x = siteBlocks collection sites x := by
  cases hfind : collection.findTemplate x.name with
  | none => rw [siteBlocks_of_param hfind, siteBlocks_of_param hfind]
  | some t =>
    rw [siteBlocks, hfind]
    exact if_neg (hshares t hfind)

theorem exists_sharesBlock
    (hfind : collection.findTemplate x.name = some t)
    (hblock : siteBlocks collection sites x = some block) :
    ∃ y ∈ sites, SharesBlock t y x := by
  induction sites with
  | nil =>
    rw [siteBlocks, hfind] at hblock
    cases hblock
  | cons site sites ih =>
    by_cases hshares : SharesBlock t site x
    · exact ⟨site, List.mem_cons_self, hshares⟩
    · rw [siteBlocks_of_not_shares fun t' hfind' => ?_] at hblock
      · obtain ⟨y, hy, hyx⟩ := ih hblock
        exact ⟨y, List.mem_cons_of_mem _ hy, hyx⟩
      · rw [hfind] at hfind'
        cases hfind'
        exact hshares

end SiteBlocks

/-- A template refers to another one, in any of its parts. -/
def RefersTo (collection : TemplateCollection) (name name' : Str) : Prop :=
  ∃ t t', collection.findTemplate name = some t ∧ collection.findTemplate name' = some t' ∧
    name' ∈ (t.references [] []).map Reference.name

def ReachesCycle (collection : TemplateCollection) (name : Str) : Prop :=
  ∃ name', Relation.ReflTransGen (RefersTo collection) name name' ∧
    Relation.TransGen (RefersTo collection) name' name'

section Cycles

variable {name name' : Str}

theorem RefersTo.of_mem_references {t' : Template} {base : MistParamNameAbs}
    {joins : List MistParamNameAbs} {x : Reference} (ht : collection.findTemplate name = some t)
    (hx : x ∈ t.references base joins) (ht' : collection.findTemplate x.name = some t') :
    RefersTo collection name x.name := by
  refine ⟨t, t', ht, ht', ?_⟩
  rw [t.map_name_references [] base [] joins]
  exact List.mem_map_of_mem hx

theorem RefersTo.exists_mem_references (h : RefersTo collection name name')
    (ht : collection.findTemplate name = some t) (base : MistParamNameAbs)
    (joins : List MistParamNameAbs) :
    ∃ x ∈ t.references base joins, x.name = name' := by
  obtain ⟨t1, -, ht1, -, hmem⟩ := h
  rw [ht] at ht1
  cases ht1
  rw [t.map_name_references [] base [] joins] at hmem
  exact List.mem_map.mp hmem

theorem ReachesCycle.of_refersTo
    (h : RefersTo collection name name') (hcycle : ReachesCycle collection name') :
    ReachesCycle collection name := by
  obtain ⟨x, hreach, hx⟩ := hcycle
  exact ⟨x, .head h hreach, hx⟩

theorem ReachesCycle.exists_refersTo (h : ReachesCycle collection name) :
    ∃ name', RefersTo collection name name' ∧ ReachesCycle collection name' := by
  obtain ⟨x, hreach, hx⟩ := h
  rcases Relation.ReflTransGen.cases_head hreach with rfl | ⟨y, hy, hyx⟩
  · obtain ⟨y, hy, hyx⟩ := Relation.TransGen.head'_iff.mp hx
    exact ⟨y, hy, name, hyx, hx⟩
  · exact ⟨y, hy, x, hyx, hx⟩

theorem not_reachesCycle_of_findTemplate_eq_none (h : collection.findTemplate name = none) :
    ¬ ReachesCycle collection name := by
  intro hcycle
  obtain ⟨name', ⟨t, -, ht, -⟩, -⟩ := hcycle.exists_refersTo
  rw [h] at ht
  cases ht

end Cycles

end Mist
end KedrAux
