import KedrAux.Mist.TemplateGroup

/-!
# Names in built blocks

A join reports the names of its block upwards, except for those below its base, and
puts the latter into the slice itself.  The values that are chosen in a scope
therefore cover the mask of every block that is evaluated in it.
-/

namespace KedrAux
namespace Mist

/-- Every name of the mask has a value. -/
def Scope.Covers (scope : Scope) (mask : MistParamMask) : Prop :=
  ∀ name, mask.Has name → (scope.lookup name).isSome

variable {subname : Str} {f : Scope → Option Scope} {choice : Choice}

theorem Choice.modify_eq_some {choice' : Choice} (h : choice.modify subname f = some choice') :
    ∃ sub sub', choice.find subname = some sub ∧ f sub = some sub' ∧
      ∀ name, choice'.find name = if name = subname then some sub' else choice.find name := by
  induction choice generalizing choice' with
  | nil => cases h
  | cons n value c rest _ ih =>
    rw [Choice.modify] at h
    split_ifs at h with hn
    · subst hn
      obtain ⟨scope, hf, rfl⟩ := Option.map_eq_some_iff.mp h
      refine ⟨⟨value, c⟩, scope, by simp [Choice.find], hf, fun name => ?_⟩
      by_cases hname : name = n
      · simp [Choice.find, hname]
      · simp [Choice.find, hname, Ne.symm hname]
    · obtain ⟨rest', hrest, rfl⟩ := Option.map_eq_some_iff.mp h
      obtain ⟨sub, sub', hfind, hf, hfind'⟩ := ih hrest
      refine ⟨sub, sub', by simp [Choice.find, hn, hfind], hf, fun name => ?_⟩
      rw [Choice.find, hfind', Choice.find]
      by_cases hname : name = subname
      · simp [hname, hn]
      · simp [hname]

theorem Choice.modify_isSome {sub : Scope} (hfind : choice.find subname = some sub)
    (hf : (f sub).isSome) :
    (choice.modify subname f).isSome := by
  induction choice with
  | nil => cases hfind
  | cons n value c rest _ ih =>
    rw [Choice.find] at hfind
    rw [Choice.modify]
    split_ifs at hfind ⊢ with hn
    · cases hfind
      simpa using hf
    · simpa using ih hfind

variable {scope : Scope}

namespace Scope

@[simp] theorem lookup_append (scope : Scope) (name name' : MistParamNameAbs) :
    scope.lookup (name ++ name') = (scope.lookup name).bind fun sub => sub.lookup name' := by
  induction name generalizing scope with
  | nil => rfl
  | cons subname name ih =>
    rw [List.cons_append, lookup, lookup, Option.bind_assoc]
    congr 1
    funext sub
    exact ih sub

variable {scope' : Scope} {context : MistParamNameAbs}

theorem set_isSome (choice : Choice) (h : (scope.lookup context).isSome) :
    (scope.set context choice).isSome := by
  induction context generalizing scope with
  | nil => rfl
  | cons subname name ih =>
    rw [lookup] at h
    cases hfind : scope.choice.find subname with
    | none => simp [hfind] at h
    | some sub =>
      rw [hfind] at h
      rw [set, Option.isSome_map]
      exact Choice.modify_isSome hfind (ih h)

theorem lookup_set_base {base : Scope} (h : scope.set context choice = some scope')
    (hbase : scope.lookup context = some base) :
    scope'.lookup context = some ⟨base.value, choice⟩ := by
  induction context generalizing scope scope' with
  | nil =>
    cases h
    cases hbase
    rfl
  | cons subname name ih =>
    obtain ⟨choice', hmodify, rfl⟩ := Option.map_eq_some_iff.mp h
    obtain ⟨sub, sub', hfind, hset, hfind'⟩ := Choice.modify_eq_some hmodify
    rw [lookup, hfind, Option.bind_some] at hbase
    rw [lookup, hfind', if_pos rfl]
    exact ih hset hbase

theorem lookup_set_of_not_prefix {name : MistParamNameAbs}
    (h : scope.set context choice = some scope') (hname : ¬ context <+: name) :
    (scope'.lookup name).isSome = (scope.lookup name).isSome := by
  induction context generalizing scope scope' name with
  | nil => exact absurd List.nil_prefix hname
  | cons subname context ih =>
    obtain ⟨choice', hmodify, rfl⟩ := Option.map_eq_some_iff.mp h
    obtain ⟨sub, sub', hfind, hset, hfind'⟩ := Choice.modify_eq_some hmodify
    cases name with
    | nil => rfl
    | cons component name =>
      rw [lookup, lookup, hfind']
      split_ifs with heq
      · subst heq
        have hname' : ¬ context <+: name := fun hstarts =>
          hname (List.cons_prefix_cons.mpr ⟨rfl, hstarts⟩)
        rw [hfind]
        exact ih hset hname'
      · rfl

end Scope

theorem enum_covers {mask : MistParamMask} {v : ParamSet} (h : choice ∈ enum mask v) :
    Scope.Covers ⟨v, choice⟩ mask := by
  induction mask generalizing v choice with
  | nil =>
    intro name hname
    cases name with
    | nil => rfl
    | cons subname name =>
      obtain ⟨sub, hfind, -⟩ := MistParamMask.has_cons.mp hname
      cases hfind
  | cons subname submask submasks ihsub ihrest =>
    rw [enum_cons] at h
    obtain ⟨⟨u, c⟩, hchild, rest, hrest, rfl⟩ := Lockstep.mem_zip _
      (enumChild_ne_nil submask v subname) (enum_ne_nil submasks v) h
    obtain ⟨u', -, hu⟩ := List.mem_flatMap.mp hchild
    obtain ⟨c', hc, heq⟩ := List.mem_map.mp hu
    cases heq
    intro name hname
    cases name with
    | nil => rfl
    | cons component name =>
      obtain ⟨sub, hfind, hsub⟩ := MistParamMask.has_cons.mp hname
      rw [MistParamMask.find] at hfind
      rw [Scope.lookup, Choice.find]
      split_ifs at hfind ⊢ with heq
      · cases hfind
        exact ihsub hc name hsub
      · exact ihrest hrest (component :: name) (MistParamMask.has_cons.mpr ⟨sub, hfind, hsub⟩)

namespace MistTemplateGroupBlock

inductive Built : MistTemplateGroupBlock → Prop
  | empty : Built .empty
  | sequence {bs : List MistTemplateGroupBlock} (h : ∀ b ∈ bs, Built b) : Built (.sequence bs)
  | text (s : Str) : Built (.text s)
  | paramRef (name : MistParamNameAbs) : Built (.paramRef name)
  | ifGroup {c t e : MistTemplateGroupBlock} (hc : Built c) (ht : Built t) (he : Built e) :
      Built (.ifGroup c t e)
  | join {reversed : Bool} {b block : MistTemplateGroupBlock} {context : MistParamNameAbs}
      {textBetween : Str} (hb : Built b)
      (h : newJoin reversed b context textBetween = some block) : Built block
  | index (first depth : Nat) : Built (.index first depth)
  | indent {b : MistTemplateGroupBlock} {tab : Str} (hb : Built b) (htab : tab ≠ []) :
      Built (.indent b tab)

/-- The depths of indices stay within a stack of `n` join contexts. -/
inductive Fits : MistTemplateGroupBlock → Nat → Prop
  | empty (n : Nat) : Fits .empty n
  | sequence {bs : List MistTemplateGroupBlock} {n : Nat} (h : ∀ b ∈ bs, Fits b n) :
      Fits (.sequence bs) n
  | text (s : Str) (n : Nat) : Fits (.text s) n
  | paramRef (name : MistParamNameAbs) (n : Nat) : Fits (.paramRef name) n
  | ifGroup {c t e : MistTemplateGroupBlock} {n : Nat} (hc : Fits c n) (ht : Fits t n)
      (he : Fits e n) : Fits (.ifGroup c t e) n
  | join {b : MistTemplateGroupBlock} {n : Nat} (reversed : Bool) (context : MistParamNameAbs)
      (textBetween : Str) (mask submask : MistParamMask) (hb : Fits b (n + 1)) :
      Fits (.join reversed b context textBetween mask submask) n
  | index {depth n : Nat} (first : Nat) (h : depth < n) : Fits (.index first depth) n
  | indent {b : MistTemplateGroupBlock} {n : Nat} (tab : Str) (hb : Fits b n) :
      Fits (.indent b tab) n

variable {b : MistTemplateGroupBlock}

section Masks

variable {bs : List MistTemplateGroupBlock}
variable {mask : MistParamMask} {name : MistParamNameAbs}

theorem has_appendParamMasks_of_has (h : mask.Has name) : (appendParamMasks mask bs).Has name := by
  induction bs generalizing mask with
  | nil => exact h
  | cons b bs ih => exact ih (MistParamMask.has_append_left h)

theorem has_appendParamMasks_of_mem (hb : b ∈ bs) (h : b.getParamMask.Has name) :
    (appendParamMasks mask bs).Has name := by
  induction bs generalizing mask with
  | nil => cases hb
  | cons b' bs ih =>
    rw [appendParamMasks]
    rcases List.mem_cons.mp hb with rfl | hb
    · exact has_appendParamMasks_of_has (MistParamMask.has_append_right h)
    · exact ih hb

/-- No assertion fails in the constructor of a join. -/
theorem newJoin_spec (reversed : Bool) (b : MistTemplateGroupBlock) (context : MistParamNameAbs)
    (textBetween : Str) :
    ∃ mask submask, newJoin reversed b context textBetween =
        some (.join reversed b context textBetween mask submask) ∧ mask.Has context ∧
      ∀ name, b.getParamMask.Has name →
        (∃ name', name = context ++ name' ∧ submask.Has name') ∨
          (¬ context <+: name ∧ mask.Has name) := by
  set maskAll := (MistParamMask.ofName context).append b.getParamMask with hall
  have hcontext : maskAll.Has context := MistParamMask.has_append_left (MistParamMask.has_ofName _)
  obtain ⟨submask, hsubmask⟩ := Option.isSome_iff_exists.mp hcontext
  obtain ⟨mask, hcut, hmask, hrest⟩ := MistParamMask.cut_spec hcontext
  refine ⟨mask, submask, ?_, hmask, fun name hname => ?_⟩
  · simp only [newJoin, ← hall, hsubmask, hcut]
    rfl
  · have hname' : maskAll.Has name := MistParamMask.has_append_right hname
    by_cases hstarts : context <+: name
    · -- the part of the name below the base is in the submask
      obtain ⟨name', rfl⟩ := hstarts
      refine Or.inl ⟨name', rfl, ?_⟩
      rw [MistParamMask.Has, MistParamMask.getSubmask_append, hsubmask] at hname'
      exact hname'
    · rcases hrest name hname' with hbelow | hkept
      · exact absurd (List.isPrefixOf_iff_prefix.mp hbelow) hstarts
      · exact Or.inr ⟨hstarts, hkept⟩

end Masks

section Present

theorem covers_of_newJoin {reversed : Bool} {context : MistParamNameAbs} {textBetween : Str}
    {mask submask : MistParamMask}
    (h : newJoin reversed b context textBetween =
      some (.join reversed b context textBetween mask submask))
    (hcovers : scope.Covers mask) :
    ∃ base, scope.lookup context = some base ∧
      ∀ set ∈ joinSets submask base,
        ∃ scope', scope.set context set.1 = some scope' ∧ scope'.Covers b.getParamMask := by
  obtain ⟨mask', submask', hnew, hcontext, hnames⟩ := newJoin_spec reversed b context textBetween
  rw [hnew] at h
  cases h
  obtain ⟨base, hbase⟩ := Option.isSome_iff_exists.mp (hcovers context hcontext)
  refine ⟨base, hbase, fun set hset => ?_⟩
  have hmem : set.1 ∈ enum submask base.value := List.fst_mem_of_mem_zipIdx hset
  obtain ⟨scope', hscope⟩ := Option.isSome_iff_exists.mp
    (Scope.set_isSome set.1 (by rw [hbase]; rfl : (scope.lookup context).isSome))
  refine ⟨scope', hscope, fun name hname => ?_⟩
  rcases hnames name hname with ⟨name', rfl, hsub⟩ | ⟨hstarts, hmask⟩
  · rw [Scope.lookup_append, Scope.lookup_set_base hscope hbase]
    exact enum_covers hmem name' hsub
  · rw [Scope.lookup_set_of_not_prefix hscope hstarts]
    exact hcovers name hmask

variable {α β γ : Type*} {f : α → Option Bool} {as : List α} {R : α → β → Prop} {bs : List β}

theorem allM_isSome (h : ∀ a ∈ as, ∃ r, f a = some r) : ∃ r, allM f as = some r := by
  induction as with
  | nil => exact ⟨true, rfl⟩
  | cons a as ih =>
    obtain ⟨r, hr⟩ := h a List.mem_cons_self
    rw [allM, hr]
    cases r with
    | false => exact ⟨false, rfl⟩
    | true => exact ih fun a' ha' => h a' (List.mem_cons_of_mem _ ha')

theorem mapM_isSome {f : α → Option β} (as : List α) (h : ∀ a ∈ as, ∃ r, f a = some r) :
    ∃ rs, as.mapM f = some rs := by
  induction as with
  | nil => exact ⟨[], rfl⟩
  | cons a as ih =>
    obtain ⟨r, hr⟩ := h a List.mem_cons_self
    obtain ⟨rs, hrs⟩ := ih fun a' ha' => h a' (List.mem_cons_of_mem _ ha')
    exact ⟨r :: rs, by simp [List.mapM_cons, hr, hrs]⟩

theorem exists_forall₂ (h : ∀ a ∈ as, ∃ b, R a b) : ∃ bs, List.Forall₂ R as bs := by
  induction as with
  | nil => exact ⟨[], .nil⟩
  | cons a as ih =>
    obtain ⟨b, hb⟩ := h a List.mem_cons_self
    obtain ⟨bs, hbs⟩ := ih fun a' ha' => h a' (List.mem_cons_of_mem _ ha')
    exact ⟨b :: bs, .cons hb hbs⟩

theorem exists_of_forall₂_right (h : List.Forall₂ R as bs) {b : β} (hb : b ∈ bs) :
    ∃ a ∈ as, R a b := by
  induction h with
  | nil => cases hb
  | @cons a' b' as bs hab _ ih =>
    rcases List.mem_cons.mp hb with rfl | hb
    · exact ⟨a', List.mem_cons_self, hab⟩
    · obtain ⟨a, ha, hR⟩ := ih hb
      exact ⟨a, List.mem_cons_of_mem _ ha, hR⟩

theorem mapM_eq_of_forall₂ {f : α → Option γ} {g : β → Option γ} (h : List.Forall₂ R as bs)
    (hfg : ∀ a b, R a b → f a = g b) :
    as.mapM f = bs.mapM g := by
  induction h with
  | nil => rfl
  | cons hab _ ih => rw [List.mapM_cons, List.mapM_cons, hfg _ _ hab, ih]

theorem mapM_eq_some_of_forall₂ {f : α → Option γ} (g : β → γ) (h : List.Forall₂ R as bs)
    (hfg : ∀ a b, R a b → f a = some (g b)) :
    as.mapM f = some (bs.map g) := by
  induction h with
  | nil => rfl
  | cons hab _ ih => simp [List.mapM_cons, hfg _ _ hab, ih]

theorem allM_eq_of_forall₂ {g : β → Option Bool} (h : List.Forall₂ R as bs)
    (hfg : ∀ a b, R a b → f a = g b) :
    allM f as = allM g bs := by
  induction h with
  | nil => rfl
  | cons hab _ ih => rw [allM, allM, hfg _ _ hab, ih]

theorem Built.emptiness_isSome
    (h : Built b) (hcovers : scope.Covers b.getParamMask) (indices : List Nat) :
    ∃ r, b.emptiness scope indices = some r := by
  induction h generalizing scope indices with
  | empty => exact ⟨true, rfl⟩
  | @sequence bs hbs ih =>
    rw [emptiness]
    have hcovers' : ∀ b ∈ bs, scope.Covers b.getParamMask := fun b hb name hname =>
      hcovers name (has_appendParamMasks_of_mem hb hname)
    clear hcovers hbs
    induction bs with
    | nil => exact ⟨true, rfl⟩
    | cons b bs ihbs =>
      obtain ⟨r, hr⟩ := ih b List.mem_cons_self (hcovers' b List.mem_cons_self) indices
      rw [emptinessAll, hr]
      cases r with
      | false => exact ⟨false, rfl⟩
      | true =>
        exact ihbs (fun b' hb' => ih b' (List.mem_cons_of_mem _ hb'))
          (fun b' hb' => hcovers' b' (List.mem_cons_of_mem _ hb'))
  | text s => exact ⟨s.isEmpty, rfl⟩
  | paramRef name =>
    obtain ⟨sub, hsub⟩ := Option.isSome_iff_exists.mp
      (hcovers name (MistParamMask.has_ofName name))
    exact ⟨sub.value.getValue.isEmpty, by rw [emptiness, hsub]; rfl⟩
  | @ifGroup c t e _ _ _ ihc iht ihe =>
    obtain ⟨r, hr⟩ := ihc (fun name hname => hcovers name
      (MistParamMask.has_append_left (MistParamMask.has_append_left hname))) indices
    rw [emptiness, hr]
    cases r with
    | false =>
      exact iht (fun name hname => hcovers name
        (MistParamMask.has_append_left (MistParamMask.has_append_right hname))) indices
    | true =>
      exact ihe (fun name hname => hcovers name (MistParamMask.has_append_right hname)) indices
  | @join reversed b block context textBetween hb hnew ih =>
    obtain ⟨mask, submask, hspec, -, -⟩ := newJoin_spec reversed b context textBetween
    rw [hspec] at hnew
    cases hnew
    obtain ⟨base, hbase, hsets⟩ := covers_of_newJoin hspec hcovers
    -- every set that is tried gives a result
    have hset : ∀ set ∈ joinSets submask base, ∃ r,
        ((scope.set context set.1).bind fun scope => b.emptiness scope (set.2 :: indices)) =
          some r := by
      intro set hmem
      obtain ⟨scope', hscope', hcovers'⟩ := hsets set hmem
      rw [hscope']
      exact ih hcovers' (set.2 :: indices)
    rw [emptiness, hbase, Option.bind_some]
    have hne : joinSets submask base ≠ [] := by
      simp [joinSets, enum_ne_nil]
    cases hcons : joinSets submask base with
    | nil => exact absurd hcons hne
    | cons set sets =>
      rw [hcons] at hset
      obtain ⟨r, hr⟩ := hset set List.mem_cons_self
      simp only [hr, Option.bind_some]
      split_ifs
      · exact ⟨false, rfl⟩
      · exact ⟨true, rfl⟩
      · exact ⟨false, rfl⟩
      · exact allM_isSome fun set' hmem => hset set' (List.mem_cons_of_mem _ hmem)
  | index first depth => exact ⟨false, rfl⟩
  | @indent b tab hb htab ih =>
    rw [emptiness]
    split_ifs
    · exact ih hcovers indices
    · exact ⟨false, rfl⟩

/-- A built block has a text for all values that its mask asks for. -/
theorem Built.meaning_isSome
    (h : Built b) (hcovers : scope.Covers b.getParamMask) (indices : List Nat)
    (hfits : b.Fits indices.length) :
    ∃ s, b.meaning scope indices = some s := by
  induction h generalizing scope indices with
  | empty => exact ⟨[], rfl⟩
  | @sequence bs hbs ih =>
    rw [meaning]
    have hcovers' : ∀ b ∈ bs, scope.Covers b.getParamMask := fun b hb name hname =>
      hcovers name (has_appendParamMasks_of_mem hb hname)
    cases hfits with
    | sequence hfits =>
      clear hcovers hbs
      induction bs with
      | nil => exact ⟨[], rfl⟩
      | cons b bs ihbs =>
        obtain ⟨s, hs⟩ := ih b List.mem_cons_self (hcovers' b List.mem_cons_self)
          indices (hfits b List.mem_cons_self)
        obtain ⟨rest, hrest⟩ := ihbs (fun b' hb' => ih b' (List.mem_cons_of_mem _ hb'))
          (fun b' hb' => hcovers' b' (List.mem_cons_of_mem _ hb'))
          (fun b' hb' => hfits b' (List.mem_cons_of_mem _ hb'))
        exact ⟨s ++ rest, by rw [meaningAll, hs, hrest]; rfl⟩
  | text s => exact ⟨s, rfl⟩
  | paramRef name =>
    obtain ⟨sub, hsub⟩ := Option.isSome_iff_exists.mp
      (hcovers name (MistParamMask.has_ofName name))
    exact ⟨sub.value.getValue, by rw [meaning, hsub]; rfl⟩
  | @ifGroup c t e hc _ _ _ iht ihe =>
    obtain ⟨r, hr⟩ := hc.emptiness_isSome (fun name hname => hcovers name
      (MistParamMask.has_append_left (MistParamMask.has_append_left hname))) indices
    rw [meaning, hr]
    cases hfits with
    | ifGroup _ ht he =>
      cases r with
      | false =>
        exact iht (fun name hname => hcovers name
          (MistParamMask.has_append_left (MistParamMask.has_append_right hname))) indices ht
      | true =>
        exact ihe (fun name hname => hcovers name (MistParamMask.has_append_right hname)) indices he
  | @join reversed b block context textBetween hb hnew ih =>
    obtain ⟨mask, submask, hspec, -, -⟩ := newJoin_spec reversed b context textBetween
    rw [hspec] at hnew
    cases hnew
    obtain ⟨base, hbase, hsets⟩ := covers_of_newJoin hspec hcovers
    rw [meaning, hbase, Option.bind_some]
    cases hfits with
    | join _ _ _ _ _ hfits =>
      obtain ⟨pieces, hpieces⟩ := mapM_isSome (joinSets submask base)
        (f := fun set => (scope.set context set.1).bind fun scope =>
          b.meaning scope (set.2 :: indices)) (fun set hmem => by
        obtain ⟨scope', hscope', hcovers'⟩ := hsets set hmem
        simp only [hscope', Option.bind_some]
        exact ih hcovers' (set.2 :: indices) hfits)
      exact ⟨joinText reversed textBetween pieces, by rw [hpieces]; rfl⟩
  | index first depth =>
    cases hfits with
    | index _ hlt => exact ⟨_, by rw [meaning, List.getElem?_eq_getElem hlt]; rfl⟩
  | @indent b tab hb htab ih =>
    cases hfits with
    | indent _ hfits =>
      obtain ⟨s, hs⟩ := ih hcovers indices hfits
      exact ⟨indentText tab s, by rw [meaning, hs]; rfl⟩

theorem first_covers (paramSet : ParamSet) (mask : MistParamMask) :
    (JoinContext.first paramSet mask).scope.Covers mask := by
  have hat := ParamSetSlice.new_at paramSet mask
  have hmem : (JoinContext.first paramSet mask).slice.subslices.choice ∈ enum mask paramSet := by
    change (ParamSetSlice.new paramSet mask).subslices.choice ∈ _
    rw [hat.subslices.choice_eq]
    exact Lockstep.clamp_mem (enum_ne_nil _ _) 0
  exact enum_covers hmem

theorem first_names (paramSet : ParamSet) (mask : MistParamMask) (name : MistParamNameAbs)
    (h : mask.Has name) :
    ((JoinContext.first paramSet mask).slice.getSubslice name).isSome := by
  have hlookup := first_covers paramSet mask name h
  rwa [JoinContext.scope, ParamSetSlice.lookup_scope, Option.isSome_map] at hlookup

end Present

end MistTemplateGroupBlock

end Mist
end KedrAux
