import KedrAux.Mist.BuiltGroups

/-!
# Templates in place of their references

The block of a reference when the content of the template is taken in place of it, with
the bases that are in force there.  A cached block is right for a reference if the block
that is made in its place is the same one.
-/

namespace KedrAux
namespace Mist

/-- The block of a reference in place; the number limits the nesting of references. -/
def inPlace (collection : TemplateCollection) : Nat → Reference → Option MistTemplateGroupBlock
  | 0, _ => none
  | depth + 1, x =>
    match collection.findTemplate x.name with
    | none => some (.paramRef [x.name])
    | some t => groupOf (inPlace collection depth) t x.base x.joins

inductive Reaches (collection : TemplateCollection) (mainTemplate : Str) : Reference → Prop
  | main : Reaches collection mainTemplate (.main mainTemplate)
  | step {x y : Reference} {t : Template} (hx : Reaches collection mainTemplate x)
      (hfind : collection.findTemplate x.name = some t) (hy : y ∈ t.references x.base x.joins) :
      Reaches collection mainTemplate y

variable {collection : TemplateCollection} {mainTemplate : Str}

section InPlace

variable {depth : Nat} {x : Reference}
variable {block : MistTemplateGroupBlock}

theorem inPlace_of_findTemplate {t : Template} (hfind : collection.findTemplate x.name = some t) :
    inPlace collection (depth + 1) x = groupOf (inPlace collection depth) t x.base x.joins := by
  rw [inPlace, hfind]

theorem inPlace_of_param (hfind : collection.findTemplate x.name = none) :
    inPlace collection (depth + 1) x = some (.paramRef [x.name]) := by
  rw [inPlace, hfind]

theorem inPlace_succ (h : inPlace collection depth x = some block) :
    inPlace collection (depth + 1) x = some block := by
  induction depth generalizing x block with
  | zero => cases h
  | succ depth ih =>
    cases hfind : collection.findTemplate x.name with
    | none => rw [inPlace_of_param hfind, ← h, inPlace_of_param hfind]
    | some t =>
      rw [inPlace_of_findTemplate hfind] at h ⊢
      exact groupOf_mono h fun y _ b hb => ih hb

/-- The depth is enough for all references to templates that are not on the path. -/
theorem inPlace_isSome (onPath : Str → Bool) (hcycle : ¬ ReachesCycle collection x.name)
    (hpath : ∀ name, onPath name = true → ∀ t, collection.findTemplate x.name = some t →
      Relation.TransGen (RefersTo collection) name x.name)
    (hdepth : (idleTemplates collection onPath).card < depth) :
    ∃ block, inPlace collection depth x = some block := by
  induction depth generalizing x onPath with
  | zero => exact absurd hdepth (Nat.not_lt_zero _)
  | succ depth ih =>
    cases hfind : collection.findTemplate x.name with
    | none => exact ⟨_, inPlace_of_param hfind⟩
    | some t =>
      rw [inPlace_of_findTemplate hfind]
      have hidle : onPath x.name = false := by
        by_contra hnot
        rw [Bool.not_eq_false] at hnot
        exact hcycle ⟨x.name, .refl, hpath x.name hnot t hfind⟩
      have hmem := mem_idleTemplates hfind hidle
      have hpos := Finset.card_pos.mpr ⟨x.name, hmem⟩
      refine groupOf_isSome t x.base x.joins fun y hy => ?_
      cases hfind' : collection.findTemplate y.name with
      | none =>
        cases depth with
        | zero => omega
        | succ depth => exact ⟨_, inPlace_of_param hfind'⟩
      | some t' =>
        have hrefers := RefersTo.of_mem_references hfind hy hfind'
        refine ih (Function.update onPath x.name true)
          (fun hcycle' => hcycle (hcycle'.of_refersTo hrefers)) ?_ ?_
        · intro name hname _ _
          rw [Function.update_apply] at hname
          split_ifs at hname with heq
          · exact heq ▸ .single hrefers
          · exact (hpath name hname t hfind).tail hrefers
        · rw [idleTemplates_update, Finset.card_erase_of_mem hmem]
          omega

theorem Reaches.not_reachesCycle
    (hx : Reaches collection mainTemplate x) (hcycle : ¬ ReachesCycle collection mainTemplate) :
    ¬ ReachesCycle collection x.name := by
  induction hx with
  | main => exact hcycle
  | @step x y t _ hfind hy ih =>
    intro hcycle'
    cases hfind' : collection.findTemplate y.name with
    | none => exact not_reachesCycle_of_findTemplate_eq_none hfind' hcycle'
    | some t' => exact ih (hcycle'.of_refersTo (RefersTo.of_mem_references hfind hy hfind'))

def fullDepth (collection : TemplateCollection) : Nat :=
  collection.length + 1

theorem Reaches.inPlace_isSome
    (hx : Reaches collection mainTemplate x) (hcycle : ¬ ReachesCycle collection mainTemplate) :
    ∃ block, inPlace collection (fullDepth collection) x = some block := by
  refine Mist.inPlace_isSome (fun _ => false) (hx.not_reachesCycle hcycle)
    (fun _ h => by cases h) ?_
  exact Nat.lt_succ_of_le (card_idleTemplates_le _ _)

/-- The block of a template in place is made from the blocks of its references in place. -/
theorem Reaches.inPlace_eq {t : Template} (hx : Reaches collection mainTemplate x)
    (hcycle : ¬ ReachesCycle collection mainTemplate)
    (hfind : collection.findTemplate x.name = some t) :
    inPlace collection (fullDepth collection) x =
      groupOf (inPlace collection (fullDepth collection)) t x.base x.joins := by
  obtain ⟨block, hblock⟩ := hx.inPlace_isSome hcycle
  rw [hblock, ← inPlace_of_findTemplate hfind, inPlace_succ hblock]

end InPlace

/--
References that get the same cached block have the same block in place: those to one
template, in any context if the template does not use it, else in the same one.
-/
def Coherent (collection : TemplateCollection) (mainTemplate : Str) : Prop :=
  ∀ x y t, Reaches collection mainTemplate x → Reaches collection mainTemplate y →
    x.name = y.name → collection.findTemplate x.name = some t →
    (t.usesContext = true → x.base = y.base) →
    inPlace collection (fullDepth collection) x = inPlace collection (fullDepth collection) y

section Coherent

theorem kept_inPlace (hcycle : ¬ ReachesCycle collection mainTemplate)
    (hcoherent : Coherent collection mainTemplate) :
    Kept collection (Reaches collection mainTemplate) fun lookup =>
      ∀ name base block, lookup name base = some block →
        (collection.findTemplate name = none → block = .paramRef [name]) ∧
        ∀ t, collection.findTemplate name = some t → ∃ x, Reaches collection mainTemplate x ∧
          x.name = name ∧ (t.usesContext = true → x.base = base) ∧
          inPlace collection (fullDepth collection) x = some block := by
  refine Kept.pointwise (Q := fun name base block =>
    (collection.findTemplate name = none → block = .paramRef [name]) ∧
    ∀ t, collection.findTemplate name = some t → ∃ x, Reaches collection mainTemplate x ∧
      x.name = name ∧ (t.usesContext = true → x.base = base) ∧
      inPlace collection (fullDepth collection) x = some block) ?_ ?_
  · intro name base hfind
    refine ⟨fun _ => rfl, fun t ht => ?_⟩
    rw [hfind] at ht
    cases ht
  · intro name t base joins block blocks hfind hreached hgroup hblocks base' hbase'
    refine ⟨fun hnone => ?_, fun t' ht' => ?_⟩
    · rw [hfind] at hnone
      cases hnone
    · rw [hfind] at ht'
      cases ht'
      refine ⟨⟨name, base, joins⟩, hreached, rfl, fun huses => (hbase' huses).symm, ?_⟩
      rw [hreached.inPlace_eq hcycle hfind]
      refine groupOf_mono hgroup fun y hy b hb => ?_
      have hy' : Reaches collection mainTemplate y := hreached.step hfind hy
      obtain ⟨hparam, htemplate⟩ := hblocks y hy b hb
      cases hfind' : collection.findTemplate y.name with
      | none => rw [hparam hfind', fullDepth, inPlace_of_param hfind']
      | some t' =>
        obtain ⟨x, hx, hname, hbase, hinPlace⟩ := htemplate t' hfind'
        rw [← hinPlace]
        exact (hcoherent x y t' hx hy' hname (by rw [hname, hfind']) hbase).symm

theorem buildGroup_eq_inPlace
    {t : Template} (order : EvalOrder) {limit : Nat} (hlimit : collection.length < limit)
    (hcycle : ¬ ReachesCycle collection mainTemplate)
    (hfind : collection.findTemplate mainTemplate = some t)
    (hcoherent : Coherent collection mainTemplate) :
    ∃ block context, buildGroup collection order limit mainTemplate = .ok (block, context) ∧
      inPlace collection (fullDepth collection) (.main mainTemplate) = some block := by
  rcases buildGroup_yields order mainTemplate (kept_inPlace hcycle hcoherent)
      (fun x t hx hfind y hy => hx.step hfind hy) .main (fun _ _ _ h => by cases h) hlimit hfind with
    ⟨block, cache, hbuild, hgood, hlookup⟩ | ⟨-, hcycle'⟩
  · obtain ⟨x, hx, hname, hbase, hinPlace⟩ := (hgood.kept mainTemplate [] block hlookup).2 t hfind
    refine ⟨block, _, hbuild, ?_⟩
    rw [← hinPlace]
    exact (hcoherent x (.main mainTemplate) t hx .main hname (by rw [hname, hfind]) hbase).symm
  · exact absurd hcycle' hcycle

end Coherent

end Mist
end KedrAux
