import KedrAux.Mist.CircularReferences

/-!
# Groups that are built

The builder makes blocks in which every name can be looked up.  Without functions for
the numbers of iterations their evaluation cannot fail.
-/

namespace KedrAux
namespace Mist

open MistTemplateGroupBlock

namespace Template

mutual

/-- There are no functions for the numbers of iterations. -/
def withoutIndex : Template → Bool
  | .empty => true
  | .sequence subtemplates => withoutIndexAll subtemplates
  | .text _ => true
  | .ref _ => true
  | .ifTemplate conditionTemplate positiveTemplate elseTemplate =>
    conditionTemplate.withoutIndex && positiveTemplate.withoutIndex && elseTemplate.withoutIndex
  | .join _ templateInternal _ => templateInternal.withoutIndex
  | .withContext _ templateInternal => templateInternal.withoutIndex
  | .index _ _ => false
  | .indent templateInternal _ => templateInternal.withoutIndex

def withoutIndexAll : List Template → Bool
  | [] => true
  | subtemplate :: subtemplates => subtemplate.withoutIndex && withoutIndexAll subtemplates

end

theorem withoutIndexAll_eq_false
    {ts : List Template} {t : Template} (ht : t ∈ ts) (h : t.withoutIndex = false) :
    withoutIndexAll ts = false := by
  induction ts with
  | nil => cases ht
  | cons t' ts ih =>
    rcases List.mem_cons.mp ht with rfl | ht
    · simp [withoutIndexAll, h]
    · simp [withoutIndexAll, ih ht]

end Template

def TemplateCollection.withoutIndex (collection : TemplateCollection) : Bool :=
  collection.all fun entry => entry.2.withoutIndex

variable {collection : TemplateCollection}

theorem TemplateCollection.withoutIndex_of_findTemplate {name : Str} {t : Template}
    (h : collection.withoutIndex = true) (hfind : collection.findTemplate name = some t) :
    t.withoutIndex = true := by
  obtain ⟨before, after, heq, -⟩ := List.lookup_eq_some_iff.mp hfind
  rw [withoutIndex, List.all_eq_true] at h
  exact h (name, t) (by simp [heq])

section GroupOf

variable {blocks : Reference → Option MistTemplateGroupBlock} {t : Template}
variable {base : MistParamNameAbs} {joins : List MistParamNameAbs} {block : MistTemplateGroupBlock}

variable {bs : List MistTemplateGroupBlock} {n : Nat}

theorem built_sequenceGroup (h : ∀ b ∈ bs, Built b) : Built (sequenceGroup bs) := by
  unfold sequenceGroup
  split
  · exact .empty
  · exact h _ List.mem_cons_self
  · exact .sequence h

theorem built_indentGroup (h : Built block) (tab : Str) : Built (indentGroup block tab) := by
  unfold indentGroup
  split_ifs with htab
  · exact .indent h (by simpa using htab)
  · exact h

theorem built_of_groupOf (h : groupOf blocks t base joins = some block)
    (hblocks : ∀ x ∈ t.references base joins, ∀ b, blocks x = some b → Built b) :
    Built block := by
  induction t using Template.ind generalizing base joins block with
  | empty =>
    cases h
    exact .empty
  | sequence ts ih =>
    rw [groupOf, Option.map_eq_some_iff] at h
    obtain ⟨bs, hbs, rfl⟩ := h
    rw [Template.references] at hblocks
    apply built_sequenceGroup
    intro b hb
    obtain ⟨t, ht, hgroup⟩ := exists_of_forall₂_right (forall₂_of_groupsOf hbs) hb
    exact ih t ht hgroup fun x hx => hblocks x (Template.mem_referencesAll.mpr ⟨t, ht, hx⟩)
  | text s =>
    cases h
    exact .text s
  | ref name =>
    rw [groupOf] at h
    rw [Template.references] at hblocks
    cases hsingle : name.single? with
    | none =>
      rw [hsingle] at h
      cases h
      exact .paramRef _
    | some component =>
      rw [hsingle] at h hblocks
      exact hblocks _ List.mem_cons_self block h
  | ifTemplate c p e ihc ihp ihe =>
    simp only [groupOf, Option.bind_eq_bind, Option.bind_eq_some_iff] at h
    obtain ⟨bc, hc, bp, hp, be, he, heq⟩ := h
    cases heq
    rw [Template.references] at hblocks
    exact .ifGroup (ihc hc fun x hx => hblocks x (List.mem_append_left _ hx))
      (ihp hp fun x hx => hblocks x (List.mem_append_right _ (List.mem_append_left _ hx)))
      (ihe he fun x hx => hblocks x (List.mem_append_right _ (List.mem_append_right _ hx)))
  | join reversed t textBetween ih =>
    simp only [groupOf, Option.bind_eq_bind, Option.bind_eq_some_iff] at h
    obtain ⟨b, hb, hnew⟩ := h
    exact .join (ih hb hblocks) hnew
  | withContext context t ih => exact ih h hblocks
  | index first t ih =>
    rw [groupOf, Option.map_eq_some_iff] at h
    obtain ⟨b, -, rfl⟩ := h
    exact .index _ _
  | indent t s ih =>
    rw [groupOf, Option.map_eq_some_iff] at h
    obtain ⟨b, hb, rfl⟩ := h
    exact built_indentGroup (ih hb hblocks) s

theorem fits_sequenceGroup (h : ∀ b ∈ bs, b.Fits n) : (sequenceGroup bs).Fits n := by
  unfold sequenceGroup
  split
  · exact .empty n
  · exact h _ List.mem_cons_self
  · exact .sequence h

theorem fits_indentGroup (h : block.Fits n) (tab : Str) : (indentGroup block tab).Fits n := by
  unfold indentGroup
  split_ifs
  · exact .indent tab h
  · exact h

/--
The depths in a block stay within the joins around it, if this is so for the blocks of the
references; the size of the stack is one more in each join.
-/
theorem fits_of_groupOf {F : List MistParamNameAbs → Nat → Prop}
    (hcons : ∀ base joins n, F joins n → F (base :: joins) (n + 1))
    (hindex : ∀ joins n mask, t.withoutIndex = false → F joins n →
      joinDepth joins mask (joins.length - 1) < n) (h : groupOf blocks t base joins = some block)
    (hblocks : ∀ x ∈ t.references base joins, ∀ b, blocks x = some b →
      ∀ n, F x.joins n → b.Fits n) (hfits : F joins n) :
    block.Fits n := by
  induction t using Template.ind generalizing base joins block n with
  | empty =>
    cases h
    exact .empty n
  | sequence ts ih =>
    rw [groupOf, Option.map_eq_some_iff] at h
    obtain ⟨bs, hbs, rfl⟩ := h
    rw [Template.references] at hblocks
    rw [Template.withoutIndex] at hindex
    apply fits_sequenceGroup
    intro b hb
    obtain ⟨t, ht, hgroup⟩ := exists_of_forall₂_right (forall₂_of_groupsOf hbs) hb
    exact ih t ht (fun joins n mask hnot =>
      hindex joins n mask (Template.withoutIndexAll_eq_false ht hnot)) hgroup
      (fun x hx => hblocks x (Template.mem_referencesAll.mpr ⟨t, ht, hx⟩)) hfits
  | text s =>
    cases h
    exact .text s n
  | ref name =>
    rw [groupOf] at h
    rw [Template.references] at hblocks
    cases hsingle : name.single? with
    | none =>
      rw [hsingle] at h
      cases h
      exact .paramRef _ n
    | some component =>
      rw [hsingle] at h hblocks
      exact hblocks _ List.mem_cons_self block h n hfits
  | ifTemplate c p e ihc ihp ihe =>
    simp only [groupOf, Option.bind_eq_bind, Option.bind_eq_some_iff] at h
    obtain ⟨bc, hc, bp, hp, be, he, heq⟩ := h
    cases heq
    rw [Template.references] at hblocks
    rw [Template.withoutIndex] at hindex
    refine .ifGroup ?_ ?_ ?_
    · exact ihc (fun joins n mask hnot => hindex joins n mask (by simp [hnot])) hc
        (fun x hx => hblocks x (List.mem_append_left _ hx)) hfits
    · exact ihp (fun joins n mask hnot => hindex joins n mask (by simp [hnot])) hp
        (fun x hx => hblocks x (List.mem_append_right _ (List.mem_append_left _ hx))) hfits
    · exact ihe (fun joins n mask hnot => hindex joins n mask (by simp [hnot])) he
        (fun x hx => hblocks x (List.mem_append_right _ (List.mem_append_right _ hx))) hfits
  | join reversed t textBetween ih =>
    simp only [groupOf, Option.bind_eq_bind, Option.bind_eq_some_iff] at h
    obtain ⟨b, hb, hnew⟩ := h
    obtain ⟨mask, submask, hspec, -, -⟩ := newJoin_spec reversed b base textBetween
    rw [hspec] at hnew
    cases hnew
    exact .join _ _ _ _ _ (ih hindex hb hblocks (hcons base joins n hfits))
  | withContext context t ih => exact ih hindex h hblocks hfits
  | index first t ih =>
    rw [groupOf, Option.map_eq_some_iff] at h
    obtain ⟨b, -, rfl⟩ := h
    exact .index first (hindex joins n b.getParamMask rfl hfits)
  | indent t s ih =>
    rw [groupOf, Option.map_eq_some_iff] at h
    obtain ⟨b, hb, rfl⟩ := h
    exact fits_indentGroup (ih hindex hb hblocks hfits) s

end GroupOf

theorem kept_built (collection : TemplateCollection) (Reached : Reference → Prop) :
    Kept collection Reached fun lookup => ∀ name base block, lookup name base = some block →
      Built block := by
  refine Kept.pointwise (Q := fun _ _ block => Built block) (fun name base _ => .paramRef _) ?_
  intro name t base joins block blocks _ _ hgroup hblocks _ _
  exact built_of_groupOf hgroup hblocks

theorem kept_fits (Reached : Reference → Prop) (hindex : collection.withoutIndex = true) :
    Kept collection Reached fun lookup => ∀ name base block, lookup name base = some block →
      ∀ n, block.Fits n := by
  refine Kept.pointwise (Q := fun _ _ block => ∀ n, block.Fits n)
    (fun name base _ n => .paramRef _ n) ?_
  intro name t base joins block blocks hfind _ hgroup hblocks _ _ n
  refine fits_of_groupOf (F := fun _ _ => True) (fun _ _ _ _ => trivial) ?_ hgroup
    (fun x hx b hb n _ => hblocks x hx b hb n) trivial
  intro joins n mask hnot
  rw [TemplateCollection.withoutIndex_of_findTemplate hindex hfind] at hnot
  cases hnot

theorem Kept.and {Reached : Reference → Prop}
    {I J : (Str → MistParamNameAbs → Option MistTemplateGroupBlock) → Prop}
    (hI : Kept collection Reached I) (hJ : Kept collection Reached J) :
    Kept collection Reached fun lookup => I lookup ∧ J lookup where
  param h hfind := ⟨hI.param h.1 hfind, hJ.param h.2 hfind⟩
  template h hfind hreached hgroup hnone :=
    ⟨hI.template h.1 hfind hreached hgroup hnone, hJ.template h.2 hfind hreached hgroup hnone⟩

/--
No assertion fails.  Masks can always be split at the bases of joins while a group is
built; every name and every base is found when it is evaluated, and the stack of joins is
in the end as it was.
-/
theorem instantiate_finds_names
    (collection : TemplateCollection) (order : EvalOrder) (mainTemplate : Str) (limit : Nat)
    (hlimit : collection.length < limit) (hindex : collection.withoutIndex = true) :
    buildGroup collection order limit mainTemplate ≠ .error .assertion ∧
    ∀ block context, buildGroup collection order limit mainTemplate = .ok (block, context) →
      ∀ paramSet, (JoinContext.first paramSet block.getParamMask).slice.isSetLast = true →
        ∃ s, block.evaluate [JoinContext.first paramSet block.getParamMask] =
            some (s, [JoinContext.first paramSet block.getParamMask]) ∧
          block.instantiate paramSet = some (.text s) := by
  cases hfind : collection.findTemplate mainTemplate with
  | none =>
    have hbuild : buildGroup collection order limit mainTemplate = .error .absent := by
      rw [buildGroup, hfind]
    refine ⟨by simp [hbuild], fun block context h => ?_⟩
    rw [hbuild] at h
    cases h
  | some t =>
    rcases buildGroup_yields order mainTemplate
        ((kept_built collection fun _ => True).and (kept_fits (fun _ => True) hindex))
        (fun _ _ _ _ _ _ => trivial) trivial
        ⟨fun _ _ _ h => (by cases h), fun _ _ _ h => (by cases h)⟩ hlimit hfind with
      ⟨block, cache, hbuild, hgood, hlookup⟩ | ⟨hbuild, -⟩
    · obtain ⟨hbuilt, hfits⟩ := hgood.kept
      refine ⟨by simp [hbuild], fun block' context h paramSet hlast => ?_⟩
      rw [hbuild] at h
      cases h
      obtain ⟨s, hs⟩ := (hbuilt mainTemplate [] block hlookup).meaning_isSome
        (first_covers paramSet block.getParamMask)
        (GroupContext.indices [JoinContext.first paramSet block.getParamMask])
        (hfits mainTemplate [] block hlookup _)
      have heval : block.evaluate [JoinContext.first paramSet block.getParamMask] =
          some (s, [JoinContext.first paramSet block.getParamMask]) := by
        rw [evaluate_eq, hs]
        rfl
      refine ⟨s, heval, ?_⟩
      simp [instantiate, hlast, heval]
    · refine ⟨by simp [hbuild], fun block context h => ?_⟩
      rw [hbuild] at h
      cases h

/-- A join based on a subparameter inside a join based on its parent. -/
def nestedJoins : TemplateCollection :=
  [(['m'], .withContext ⟨[['p']], false⟩ (.join false
    (.withContext ⟨[['q']], true⟩ (.join true (.ref ⟨[['r']], true⟩) [','])) [';']))]

/-- A join inside of another one. -/
theorem instantiate_finds_names_nestedJoins :
    ∃ block context s, buildGroup nestedJoins .abc 2 ['m'] = .ok (block, context) ∧
      block.evaluate [JoinContext.first .emptySet block.getParamMask] =
        some (s, [JoinContext.first .emptySet block.getParamMask]) := by
  have h := (instantiate_finds_names nestedJoins .abc ['m'] 2 (by decide) rfl).2
  obtain ⟨s, hs, -⟩ := h _ _ rfl .emptySet rfl
  exact ⟨_, _, s, rfl, hs⟩

end Mist
end KedrAux
