import KedrAux.Mist.BuiltBlocks

/-!
# Empty subparameters

A parameter that has no subparameters with a name behaves as if it had an empty one.
Two parameter sets that cannot be told apart by values and by the vectors of values
for names give the same text in every block.
-/

namespace KedrAux
namespace Mist

/-- Related sets have the same value, and related values for each name. -/
structure Indistinct (R : ParamSet → ParamSet → Prop) : Prop where
  getValue_eq : ∀ {v v'}, R v v' → v.getValue = v'.getValue
  getSubsets : ∀ {v v'}, R v v' → ∀ name, List.Forall₂ R (v.getSubsets name) (v'.getSubsets name)

/-- Related values are chosen for the same names. -/
inductive Choice.Related (R : ParamSet → ParamSet → Prop) : Choice → Choice → Prop
  | nil : Related R .nil .nil
  | cons {value value' : ParamSet} {choice choice' rest rest' : Choice} (name : Str)
      (hvalue : R value value') (hchoice : Related R choice choice')
      (hrest : Related R rest rest') :
      Related R (.cons name value choice rest) (.cons name value' choice' rest')

structure Scope.Related (R : ParamSet → ParamSet → Prop) (scope scope' : Scope) : Prop where
  value : R scope.value scope'.value
  choice : scope.choice.Related R scope'.choice

theorem rel_cases
    {α β : Type*} {R : α → β → Prop} {x : Option α} {y : Option β} (h : Option.Rel R x y) :
    (x = none ∧ y = none) ∨ ∃ a b, x = some a ∧ y = some b ∧ R a b := by
  cases h with
  | none => exact Or.inl ⟨rfl, rfl⟩
  | some hab => exact Or.inr ⟨_, _, rfl, rfl, hab⟩

variable {R : ParamSet → ParamSet → Prop}

section Related

theorem enum_related (hR : Indistinct R) (mask : MistParamMask) {v v' : ParamSet} (h : R v v') :
    List.Forall₂ (Choice.Related R) (enum mask v) (enum mask v') := by
  induction mask generalizing v v' with
  | nil => exact .cons .nil .nil
  | cons name submask submasks ihsub ihrest =>
    have hchild : List.Forall₂ (fun c c' => R c.1 c'.1 ∧ Choice.Related R c.2 c'.2)
        (enumChild name submask v) (enumChild name submask v') := by
      refine List.rel_flatMap (hR.getSubsets h name) fun u u' hu => ?_
      exact List.rel_map (fun e e' he => ⟨hu, he⟩) (ihsub hu)
    rw [enum_cons, enum_cons]
    refine Lockstep.rel_zip hchild (ihrest h) (enumChild_ne_nil submask v name)
      (enum_ne_nil submasks v) ?_
    rintro c c' e e' ⟨hvalue, hchoice⟩ he
    exact .cons name hvalue hchoice he

variable {choice choice' : Choice} {scope scope' : Scope}

theorem Choice.Related.find (h : choice.Related R choice') (name : Str) :
    Option.Rel (Scope.Related R) (choice.find name) (choice'.find name) := by
  induction h with
  | nil => exact .none
  | cons subname hvalue hchoice _ _ ih =>
    simp only [Choice.find]
    split_ifs
    · exact .some ⟨hvalue, hchoice⟩
    · exact ih

theorem Scope.Related.lookup (h : scope.Related R scope') (name : MistParamNameAbs) :
    Option.Rel (Scope.Related R) (scope.lookup name) (scope'.lookup name) := by
  induction name generalizing scope scope' with
  | nil => exact .some h
  | cons subname name ih =>
    rw [Scope.lookup, Scope.lookup]
    obtain ⟨hx, hy⟩ | ⟨sub, sub', hx, hy, hsub⟩ := rel_cases (h.choice.find subname)
    · rw [hx, hy]
      exact .none
    · rw [hx, hy]
      exact ih hsub

theorem Choice.Related.modify {f f' : Scope → Option Scope} (h : choice.Related R choice')
    (hf : ∀ scope scope', Scope.Related R scope scope' →
      Option.Rel (Scope.Related R) (f scope) (f' scope')) (name : Str) :
    Option.Rel (Choice.Related R) (choice.modify name f) (choice'.modify name f') := by
  induction h with
  | nil => exact .none
  | cons subname hvalue hchoice hrest _ ih =>
    simp only [Choice.modify]
    split_ifs
    · obtain ⟨hx, hy⟩ | ⟨sub, sub', hx, hy, hsub⟩ :=
        rel_cases (hf ⟨_, _⟩ ⟨_, _⟩ ⟨hvalue, hchoice⟩)
      · rw [hx, hy]
        exact .none
      · rw [hx, hy]
        exact .some (.cons subname hsub.value hsub.choice hrest)
    · obtain ⟨hx, hy⟩ | ⟨rest, rest', hx, hy, hrest'⟩ := rel_cases ih
      · rw [hx, hy]
        exact .none
      · rw [hx, hy]
        exact .some (.cons subname hvalue hchoice hrest')

theorem Scope.Related.set (h : scope.Related R scope') (hchoice : choice.Related R choice')
    (context : MistParamNameAbs) :
    Option.Rel (Scope.Related R) (scope.set context choice) (scope'.set context choice') := by
  induction context generalizing scope scope' with
  | nil => exact .some ⟨h.value, hchoice⟩
  | cons subname name ih =>
    rw [Scope.set, Scope.set]
    obtain ⟨hx, hy⟩ | ⟨choice, choice', hx, hy, hmodify⟩ :=
      rel_cases (h.choice.modify (fun _ _ hsub => ih hsub) subname)
    · rw [hx, hy]
      exact .none
    · rw [hx, hy]
      exact .some ⟨h.value, hmodify⟩

end Related

namespace MistTemplateGroupBlock

theorem joinSets_related (hR : Indistinct R) (submask : MistParamMask) {base base' : Scope}
    (h : Scope.Related R base base') :
    List.Forall₂ (fun set set' => Choice.Related R set.1 set'.1 ∧ set.2 = set'.2)
      (joinSets submask base) (joinSets submask base') := by
  have henum := enum_related hR submask h.value
  rw [List.forall₂_iff_get] at henum ⊢
  obtain ⟨hlen, hget⟩ := henum
  refine ⟨by simp [joinSets, hlen], fun k h1 h2 => ?_⟩
  simp only [joinSets, List.length_zipIdx] at h1 h2
  simpa [joinSets] using hget k h1 h2

theorem bind_set_eq {α : Type*} {f : Scope → List Nat → Option α} {context : MistParamNameAbs}
    {scope scope' : Scope} (h : Scope.Related R scope scope') (indices : List Nat)
    (hf : ∀ scope scope' indices, Scope.Related R scope scope' → f scope indices = f scope' indices)
    {set set' : Choice × Nat} (hset : Choice.Related R set.1 set'.1 ∧ set.2 = set'.2) :
    ((scope.set context set.1).bind fun scope => f scope (set.2 :: indices)) =
      (scope'.set context set'.1).bind fun scope => f scope (set'.2 :: indices) := by
  obtain ⟨hchoice, hindex⟩ := hset
  rw [hindex]
  obtain ⟨hx, hy⟩ | ⟨sub, sub', hx, hy, hsub⟩ := rel_cases (h.set hchoice context)
  · rw [hx, hy]
  · rw [hx, hy]
    exact hf _ _ _ hsub

theorem emptiness_related
    (hR : Indistinct R) (b : MistTemplateGroupBlock) (scope scope' : Scope) (indices : List Nat)
    (h : Scope.Related R scope scope') :
    b.emptiness scope indices = b.emptiness scope' indices := by
  induction b using MistTemplateGroupBlock.ind generalizing scope scope' indices with
  | empty => rfl
  | sequence bs ih =>
    rw [emptiness, emptiness]
    induction bs with
    | nil => rfl
    | cons b bs ihbs =>
      rw [emptinessAll, emptinessAll, ih b List.mem_cons_self scope scope' indices h,
        ihbs fun b' hb' => ih b' (List.mem_cons_of_mem _ hb')]
  | text s => rfl
  | paramRef name =>
    rw [emptiness, emptiness]
    obtain ⟨hx, hy⟩ | ⟨sub, sub', hx, hy, hsub⟩ := rel_cases (h.lookup name)
    · rw [hx, hy]
    · simp [hx, hy, hR.getValue_eq hsub.value]
  | ifGroup c t e ihc iht ihe =>
    rw [emptiness, emptiness, ihc _ _ _ h, iht _ _ _ h, ihe _ _ _ h]
  | join reversed b context textBetween mask submask ih =>
    rw [emptiness, emptiness]
    obtain ⟨hx, hy⟩ | ⟨base, base', hx, hy, hbase⟩ := rel_cases (h.lookup context)
    · rw [hx, hy]
      rfl
    · rw [hx, hy, Option.bind_some, Option.bind_some]
      have hsets := joinSets_related hR submask hbase
      revert hsets
      generalize joinSets submask base = sets
      generalize joinSets submask base' = sets'
      intro hsets
      cases hsets with
      | nil => rfl
      | @cons set set' sets sets' hset hrest =>
        simp only
        rw [bind_set_eq h indices ih hset,
          allM_eq_of_forall₂ hrest fun set set' hset => bind_set_eq h indices ih hset]
        have hlen : sets.isEmpty = sets'.isEmpty := by
          cases hrest <;> rfl
        rw [hlen]
  | index first depth => rfl
  | indent b tab ih => rw [emptiness, emptiness, ih _ _ _ h]

/-- Sets that cannot be told apart give the same text. -/
theorem meaning_related
    (hR : Indistinct R) (b : MistTemplateGroupBlock) (scope scope' : Scope) (indices : List Nat)
    (h : Scope.Related R scope scope') :
    b.meaning scope indices = b.meaning scope' indices := by
  induction b using MistTemplateGroupBlock.ind generalizing scope scope' indices with
  | empty => rfl
  | sequence bs ih =>
    rw [meaning, meaning]
    induction bs with
    | nil => rfl
    | cons b bs ihbs =>
      rw [meaningAll, meaningAll, ih b List.mem_cons_self scope scope' indices h,
        ihbs fun b' hb' => ih b' (List.mem_cons_of_mem _ hb')]
  | text s => rfl
  | paramRef name =>
    rw [meaning, meaning]
    obtain ⟨hx, hy⟩ | ⟨sub, sub', hx, hy, hsub⟩ := rel_cases (h.lookup name)
    · rw [hx, hy]
    · simp [hx, hy, hR.getValue_eq hsub.value]
  | ifGroup c t e ihc iht ihe =>
    rw [meaning, meaning, emptiness_related hR c _ _ _ h, iht _ _ _ h, ihe _ _ _ h]
  | join reversed b context textBetween mask submask ih =>
    rw [meaning, meaning]
    obtain ⟨hx, hy⟩ | ⟨base, base', hx, hy, hbase⟩ := rel_cases (h.lookup context)
    · rw [hx, hy]
      rfl
    · rw [hx, hy, Option.bind_some, Option.bind_some, mapM_eq_of_forall₂
        (joinSets_related hR submask hbase) fun set set' hset => bind_set_eq h indices ih hset]
  | index first depth => rfl
  | indent b tab ih => rw [meaning, meaning, ih _ _ _ h]

theorem instantiate_related
    (hR : Indistinct R) (b : MistTemplateGroupBlock) {v v' : ParamSet} (h : R v v') :
    b.instantiate v = b.instantiate v' := by
  have henum := enum_related hR b.getParamMask h
  have hat := ParamSetSlice.new_at v b.getParamMask
  have hat' := ParamSetSlice.new_at v' b.getParamMask
  have hlast : (JoinContext.first v b.getParamMask).slice.isSetLast =
      (JoinContext.first v' b.getParamMask).slice.isSetLast := by
    rw [Bool.eq_iff_iff, JoinContext.first, JoinContext.first, hat.isSetLast_iff,
      hat'.isSetLast_iff]
    change (enum b.getParamMask v).length ≤ _ ↔ (enum b.getParamMask v').length ≤ _
    rw [henum.length_eq]
  have hscope : Scope.Related R (JoinContext.first v b.getParamMask).scope
      (JoinContext.first v' b.getParamMask).scope := by
    refine ⟨h, ?_⟩
    change Choice.Related R (ParamSetSlice.new v b.getParamMask).subslices.choice
      (ParamSetSlice.new v' b.getParamMask).subslices.choice
    rw [hat.subslices.choice_eq, hat'.subslices.choice_eq]
    exact Lockstep.rel_clamp henum (enum_ne_nil _ _) 0
  rw [instantiate, instantiate, hlast]
  simp only [evaluate_eq, meaning_related hR b _ _ _ hscope]
  split_ifs
  · rfl
  · change (Option.map _ (b.meaning _ [0])).bind _ = (Option.map _ (b.meaning _ [0])).bind _
    cases b.meaning (JoinContext.first v' b.getParamMask).scope [0] <;> rfl

end MistTemplateGroupBlock

/--
A subparameter with an empty value is added to one node of a parameter set, under a
name that the node has no subparameter of.
-/
inductive AddsEmpty : ParamSet → ParamSet → Prop
  | node (v : ParamSet) (name : Str) (h : v.findSubsets name = none) :
      AddsEmpty v (v.addSubset name)
  | inside {u u' : ParamSet} {first first' : ParamSet} {rest rest' : List ParamSet}
      (value name : Str) (subsets subsets' : List (Str × ParamSet × List ParamSet))
      (before after : List ParamSet)
      (h : AddsEmpty u u') (hvalues : first :: rest = before ++ u :: after)
      (hvalues' : first' :: rest' = before ++ u' :: after) :
      AddsEmpty (.mk value (subsets ++ (name, first, rest) :: subsets'))
        (.mk value (subsets ++ (name, first', rest') :: subsets'))

variable {subname : Str}

theorem ParamSet.lookup_pushSubset {subset : ParamSet}
    {subsets : List (Str × ParamSet × List ParamSet)} (h : subsets.lookup subname = none)
    (name : Str) :
    (pushSubset subname subset subsets).lookup name =
      if name = subname then some (subset, []) else subsets.lookup name := by
  induction subsets with
  | nil =>
    rw [pushSubset, List.lookup_cons]
    by_cases hname : name = subname
    · simp [hname]
    · simp [hname, beq_false_of_ne hname]
  | cons entry subsets ih =>
    obtain ⟨n, first, rest⟩ := entry
    rw [List.lookup_cons] at h
    split at h
    · cases h
    · rename_i hn
      have hn' : ¬ n = subname := fun heq => by simp [heq] at hn
      rw [pushSubset, if_neg hn', List.lookup_cons, List.lookup_cons, ih h]
      by_cases hname : name = n
      · simp [hname, hn']
      · simp [beq_false_of_ne hname]

theorem ParamSet.getSubsets_addSubset {v : ParamSet} (h : v.findSubsets subname = none)
    (name : Str) :
    (v.addSubset subname).getSubsets name = v.getSubsets name := by
  have hlookup : (v.addSubset subname).findSubsets name =
      if name = subname then some (emptySet, []) else v.findSubsets name :=
    lookup_pushSubset h name
  rw [getSubsets, getSubsets, hlookup]
  by_cases hname : name = subname
  · simp [hname, h]
  · simp [hname]

theorem ParamSet.getSubsets_of_entry
    (value subname : Str) (first first' : ParamSet) (rest rest' : List ParamSet)
    (subsets subsets' : List (Str × ParamSet × List ParamSet)) (name : Str) :
    (mk value (subsets ++ (subname, first, rest) :: subsets')).getSubsets name =
        (mk value (subsets ++ (subname, first', rest') :: subsets')).getSubsets name ∨
      (mk value (subsets ++ (subname, first, rest) :: subsets')).getSubsets name = first :: rest ∧
      (mk value (subsets ++ (subname, first', rest') :: subsets')).getSubsets name =
        first' :: rest' := by
  have hfind : ∀ f r, (mk value (subsets ++ (subname, f, r) :: subsets')).findSubsets name =
      (subsets.lookup name).or (if name = subname then some (f, r) else subsets'.lookup name) := by
    intro f r
    rw [findSubsets, ParamSet.subsets, List.lookup_append, List.lookup_cons]
    by_cases hname : name = subname
    · simp [hname]
    · simp [hname, beq_false_of_ne hname]
  rw [getSubsets, getSubsets, hfind, hfind]
  cases subsets.lookup name with
  | some entry => exact Or.inl rfl
  | none =>
    by_cases hname : name = subname
    · exact Or.inr ⟨by simp [hname], by simp [hname]⟩
    · exact Or.inl (by simp [hname])

theorem AddsEmpty.indistinct : Indistinct fun v v' => v = v' ∨ AddsEmpty v v' where
  getValue_eq := by
    rintro v v' (rfl | h)
    · rfl
    · cases h with
      | node _ _ _ => rfl
      | inside _ _ _ _ _ _ _ _ _ => rfl
  getSubsets := by
    have hrefl : ∀ vs : List ParamSet, List.Forall₂ (fun v v' => v = v' ∨ AddsEmpty v v') vs vs :=
      fun vs => List.forall₂_same.mpr fun v _ => Or.inl rfl
    rintro v v' (rfl | h) name
    · exact hrefl _
    · cases h with
      | node _ _ hname =>
        rw [ParamSet.getSubsets_addSubset hname]
        exact hrefl _
      | @inside u u' first first' rest rest' value subname subsets subsets' before after hu hvalues
          hvalues' =>
          rcases ParamSet.getSubsets_of_entry value subname first first' rest rest' subsets subsets'
            name with heq | ⟨heq, heq'⟩
          · rw [heq]
            exact hrefl _
          · -- the vector with the changed value
            rw [heq, heq', hvalues, hvalues']
            exact List.rel_append (hrefl before) (.cons (Or.inr hu) (hrefl after))

/-- An empty subparameter that is added to any node does not change the outcome. -/
theorem instantiate_eq_of_addsEmpty
    (block : MistTemplateGroupBlock) {paramSet paramSet' : ParamSet}
    (h : AddsEmpty paramSet paramSet') :
    block.instantiate paramSet' = block.instantiate paramSet :=
  (MistTemplateGroupBlock.instantiate_related AddsEmpty.indistinct block (Or.inr h)).symm

/-- An empty subset that is added below a subset. -/
theorem instantiate_eq_of_addsEmpty_inside :
    (MistTemplateGroupBlock.paramRef [['p'], ['q']]).instantiate
        (.mk [] [(['p'], .mk ['a'] [(['q'], .emptySet, [])], [])]) =
      some (.text []) := by
  have hnode : AddsEmpty (.mk ['a'] []) (.mk ['a'] [(['q'], .emptySet, [])]) :=
    .node (.mk ['a'] []) ['q'] rfl
  have hinside : AddsEmpty (.mk [] [(['p'], .mk ['a'] [], [])])
      (.mk [] [(['p'], .mk ['a'] [(['q'], .emptySet, [])], [])]) :=
    .inside [] ['p'] [] [] [] [] hnode rfl rfl
  rw [instantiate_eq_of_addsEmpty _ hinside]
  decide

end Mist
end KedrAux
