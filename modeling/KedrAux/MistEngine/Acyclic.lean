import KedrAux.MistEngine.History

/-!
# Groups without recursion

When no template of a group refers to itself, directly or through others, the templates have a
meaning: each one has the values that are made from the values of what it refers to.  The
evaluation gives the values of this meaning.
-/

namespace KedrAux
namespace MistEngine

open ErrorCodes

/-- The values of a conditional placeholder, given by those of its condition and its branches. -/
def conditionalValues (isConcat : Bool) (conds thenVals elseVals : List Str) : List Str :=
  if isConcat then
    if conds.any fun c => c.length ≠ 0 then thenVals else elseVals
  else selectedValues thenVals elseVals conds

/-- What the placeholders contribute when the templates have the given values. -/
def Placeholders.columns (value : Str → List Str) : Placeholders → List Column
  | .nil => []
  | .plain name rest => ⟨none, value name⟩ :: rest.columns value
  | .join name sep rest => ⟨some sep, value name⟩ :: rest.columns value
  | .cond name isConcat thenSch thenPh elseSch elsePh rest =>
    ⟨none, conditionalValues isConcat (value name)
      (templateValues thenSch (thenPh.columns value))
      (templateValues elseSch (elsePh.columns value))⟩ :: rest.columns value

/-- The values of all templates fit together: an attribute has the values that were added, or an
empty one, and the values of a template are made from those that it refers to. -/
def IsMeaning (group : Group) (params value : Str → List Str) : Prop :=
  ∀ name, value name =
    if (group.template name).sch.length = 0 then
      if (params name).length = 0 then [[]] else params name
    else templateValues (group.template name).sch ((group.template name).ph.columns value)

variable {group : Group} {params value value' : Str → List Str}

theorem IsMeaning.ne_nil (h : IsMeaning group params value) (name : Str) : value name ≠ [] := by
  rw [h name]
  split_ifs with hsch hparams
  · exact List.cons_ne_nil _ _
  · exact fun hnil => hparams (congrArg List.length hnil)
  · exact templateValues_ne_nil _ _

theorem Placeholders.columns_congr
    {ph : Placeholders} (h : ∀ name ∈ ph.names, value name = value' name) :
    ph.columns value = ph.columns value' := by
  induction ph with
  | nil => rfl
  | plain name rest ih
  | join name sep rest ih =>
    rw [columns, columns, h name List.mem_cons_self,
      ih fun name' hname' => h name' (List.mem_cons_of_mem _ hname')]
  | cond name isConcat thenSch thenPh elseSch elsePh rest ihThen ihElse ih =>
    have hparts : ∀ name' ∈ thenPh.names ++ (elsePh.names ++ rest.names),
        value name' = value' name' :=
      fun name' hname' => h name' (List.mem_cons_of_mem _ hname')
    have hthen := ihThen fun name' hname' => hparts name' (List.mem_append_left _ hname')
    have helse := ihElse fun name' hname' =>
      hparts name' (List.mem_append_right _ (List.mem_append_left _ hname'))
    have hrest := ih fun name' hname' =>
      hparts name' (List.mem_append_right _ (List.mem_append_right _ hname'))
    rw [columns, columns, h name List.mem_cons_self, hthen, helse, hrest]

def Refers (group : Group) (name name' : Str) : Prop :=
  name' ∈ (group.template name).ph.names

/-- No template refers to itself, also not through other templates. -/
def Acyclic (group : Group) : Prop :=
  ∀ name, ¬ Relation.TransGen (Refers group) name name

theorem Acyclic.wellFounded (h : Acyclic group) :
    WellFounded fun name' name => Refers group name name' := by
  have horder : IsStrictOrder Str fun name' name => Relation.TransGen (Refers group) name name' :=
    { irrefl := h, trans := fun _ _ _ h1 h2 => h2.trans h1 }
  have hfinite : Set.WellFoundedOn {name | name ∈ group.templates.map Prod.fst}
      fun name' name => Relation.TransGen (Refers group) name name' :=
    Set.Finite.wellFoundedOn (List.finite_toSet _)
  have hattribute : ∀ name, name ∉ group.templates.map Prod.fst →
      Acc (fun name' name => Refers group name name') name := by
    intro name hname
    refine Acc.intro name fun name' hrefers => ?_
    have hlookup : group.templates.lookup name = none := by
      refine List.lookup_eq_none_iff.mpr fun p hp => bne_iff_ne.mpr ?_
      rintro rfl
      exact hname (List.mem_map_of_mem hp)
    rw [Refers, Group.template, hlookup] at hrefers
    cases hrefers
  refine ⟨fun name => ?_⟩
  by_cases hname : name ∈ group.templates.map Prod.fst
  · refine hfinite.induction hname fun name _ ih => Acc.intro name fun name' hrefers => ?_
    by_cases hname' : name' ∈ group.templates.map Prod.fst
    · exact ih name' hname' (.single hrefers)
    · exact hattribute name' hname'
  · exact hattribute name hname

theorem IsMeaning.unique (hacyclic : Acyclic group) (h : IsMeaning group params value)
    (h' : IsMeaning group params value') :
    value = value' := by
  funext name
  induction name using hacyclic.wellFounded.induction with
  | _ name ih =>
    rw [h name, h' name, Placeholders.columns_congr ih]

theorem exists_isMeaning (hacyclic : Acyclic group) (params : Str → List Str) :
    ∃ value, IsMeaning group params value := by
  classical
  let F : ∀ name, (∀ name', Refers group name name' → List Str) → List Str := fun name value =>
    if (group.template name).sch.length = 0 then
      if (params name).length = 0 then [[]] else params name
    else templateValues (group.template name).sch ((group.template name).ph.columns
      fun name' => if hrefers : Refers group name name' then value name' hrefers else [])
  refine ⟨hacyclic.wellFounded.fix F, fun name => ?_⟩
  have hcolumns : ((group.template name).ph.columns fun name' =>
      if Refers group name name' then hacyclic.wellFounded.fix F name' else []) =
      (group.template name).ph.columns (hacyclic.wellFounded.fix F) :=
    Placeholders.columns_congr fun name' hname' => if_pos hname'
  rw [hacyclic.wellFounded.fix_eq, ← hcolumns]
  rfl

theorem selectedValues_congr
    {thenVals elseVals thenVals' elseVals' conds : List Str} (hconds : conds ≠ [])
    (h : ∀ c ∈ conds, branchFor thenVals elseVals c = branchFor thenVals' elseVals' c) :
    selectedValues thenVals elseVals conds = selectedValues thenVals' elseVals' conds := by
  have hnum : numSelected thenVals elseVals conds = numSelected thenVals' elseVals' conds := by
    rw [numSelected, numSelected]
    exact List.foldl_ext _ _ _ fun num c hc => by rw [h c hc]
  rw [selectedValues, selectedValues, hnum]
  refine List.map_congr_left fun i _ => ?_
  rw [h _ (pick_mem hconds i)]

/-- Only values of the given meaning are added to the table. -/
abbrev Meant (value : Str → List Str) (name : Str) (vals : List Str) : Prop :=
  vals = value name

/-- A part of an evaluation gives the expected result, from each table with the given property. -/
def PartGives {α : Type} (Inv : Memo → Prop) (value : Str → List Str)
    (part : Memo → Except Stop (α × Memo)) (r : α) : Prop :=
  ∀ m, Inv m → ∃ m', part m = .ok (r, m') ∧ Grows (Meant value) m m'

section Conditional

variable {Inv : Memo → Prop} {evaluateThen evaluateElse : Memo → Except Stop (List Str × Memo)}
  {thenVals elseVals : List Str} {m : Memo}
  (hmono : ∀ {m m'}, Inv m → Grows (Meant value) m m' → Inv m')
  (hthen : PartGives Inv value evaluateThen thenVals)
  (helse : PartGives Inv value evaluateElse elseVals)

theorem memoTemplate_gives {columns : Memo → Except Stop (List Column × Memo)} {cs : List Column}
    (h : PartGives Inv value columns cs) (a : Address) (sch : List Str) :
    PartGives Inv value (memoTemplate noFailure a sch columns) (templateValues sch cs) := by
  intro m hm
  obtain ⟨m', hcolumns, hgrows⟩ := h m hm
  refine ⟨m', ?_, hgrows⟩
  rw [memoTemplate, hcolumns]
  simp only [ok_bind, allocate_noFailure]
  rfl

/-- What is known about the branches that were evaluated. -/
def Branches.Meant (b : Branches) (thenVals elseVals : List Str) : Prop :=
  ∀ c vals, b.selected c = some vals → vals = branchFor thenVals elseVals c

include hthen helse

theorem memoBranch_gives (hm : Inv m) {b : Branches} (hb : b.Meant thenVals elseVals) (c : Str) :
    ∃ b' m', memoBranch evaluateThen evaluateElse b m c = .ok (b', m') ∧
      Grows (Meant value) m m' ∧ b'.Meant thenVals elseVals ∧ (b'.selected c).isSome = true ∧
      b.Extends b' := by
  rw [memoBranch]
  split_ifs with hc hsome hsome
  · refine ⟨b, m, rfl, .refl m, hb, ?_, fun _ _ h => h⟩
    rwa [Branches.selected, if_pos hc]
  · obtain ⟨m', hok, hgrows⟩ := hthen m hm
    refine ⟨{ b with thenVals := some thenVals }, m', by rw [hok]; rfl, hgrows, ?_, ?_, ?_⟩
    · intro c' vals hvals
      rw [Branches.selected] at hvals
      rw [branchFor]
      split_ifs at hvals ⊢ with hc'
      · exact (Option.some.inj hvals).symm
      · have := hb c' vals
        rw [Branches.selected, if_neg hc', branchFor, if_neg hc'] at this
        exact this hvals
    · rw [Branches.selected, if_pos hc]
      rfl
    · intro c' vals hvals
      rw [Branches.selected] at hvals ⊢
      split_ifs at hvals ⊢
      · rw [hvals] at hsome
        exact absurd rfl hsome
      · exact hvals
  · refine ⟨b, m, rfl, .refl m, hb, ?_, fun _ _ h => h⟩
    rwa [Branches.selected, if_neg hc]
  · obtain ⟨m', hok, hgrows⟩ := helse m hm
    refine ⟨{ b with elseVals := some elseVals }, m', by rw [hok]; rfl, hgrows, ?_, ?_, ?_⟩
    · intro c' vals hvals
      rw [Branches.selected] at hvals
      rw [branchFor]
      split_ifs at hvals ⊢ with hc'
      · have := hb c' vals
        rw [Branches.selected, if_pos hc', branchFor, if_pos hc'] at this
        exact this hvals
      · exact (Option.some.inj hvals).symm
    · rw [Branches.selected, if_neg hc]
      rfl
    · intro c' vals hvals
      rw [Branches.selected] at hvals ⊢
      split_ifs at hvals ⊢
      · exact hvals
      · rw [hvals] at hsome
        exact absurd rfl hsome

include hmono

theorem memoBranches_gives
    (conds : List Str) (hm : Inv m) {b : Branches} (hb : b.Meant thenVals elseVals) :
    ∃ b' m', memoBranches evaluateThen evaluateElse conds b m = .ok (b', m') ∧
      Grows (Meant value) m m' ∧ b'.Meant thenVals elseVals ∧
      (∀ c ∈ conds, (b'.selected c).isSome = true) ∧ b.Extends b' := by
  induction conds generalizing b m with
  | nil => exact ⟨b, m, rfl, .refl m, hb, fun c hc => (by cases hc), fun _ _ h => h⟩
  | cons c conds ih =>
    obtain ⟨b1, m1, hbranch, hgrows1, hb1, hc, hextends1⟩ := memoBranch_gives hthen helse hm hb c
    obtain ⟨b2, m2, hbranches, hgrows2, hb2, hconds, hextends2⟩ := ih (hmono hm hgrows1) hb1
    refine ⟨b2, m2, by rw [memoBranches, hbranch]; exact hbranches, hgrows1.trans hgrows2, hb2,
      fun c' hc' => ?_, fun c' vals hvals => hextends2 c' vals (hextends1 c' vals hvals)⟩
    rcases List.mem_cons.mp hc' with rfl | hc'
    · obtain ⟨vals, hvals⟩ := Option.isSome_iff_exists.mp hc
      rw [hextends2 c' vals hvals]
      rfl
    · exact hconds c' hc'

theorem memoConditional_gives
    {conds : List Str} (hconds : conds ≠ []) (isConcat : Bool) (result : Address) :
    PartGives Inv value (memoConditional noFailure conds isConcat result evaluateThen evaluateElse)
      (conditionalValues isConcat conds thenVals elseVals) := by
  intro m hm
  rw [memoConditional, assert_true (show 1 ≤ _ from List.length_pos_of_ne_nil hconds), ok_bind,
    conditionalValues]
  cases isConcat with
  | true =>
    simp only [if_true, allocate_noFailure, ok_bind]
    split_ifs
    · obtain ⟨m', hok, hgrows⟩ := hthen m hm
      exact ⟨m', by rw [hok]; rfl, hgrows⟩
    · obtain ⟨m', hok, hgrows⟩ := helse m hm
      exact ⟨m', by rw [hok]; rfl, hgrows⟩
  | false =>
    have hnone : Branches.Meant ⟨none, none⟩ thenVals elseVals := by
      intro c vals hvals
      rw [Branches.selected] at hvals
      split_ifs at hvals
    obtain ⟨b, m', hok, hgrows, hb, hselected, -⟩ :=
      memoBranches_gives hmono hthen helse conds hm hnone
    refine ⟨m', ?_, hgrows⟩
    have hvalues : selectedValues (b.thenVals.getD []) (b.elseVals.getD []) conds =
        selectedValues thenVals elseVals conds := by
      refine selectedValues_congr hconds fun c hc => ?_
      obtain ⟨vals, hvals⟩ := Option.isSome_iff_exists.mp (hselected c hc)
      rw [← hb c vals hvals, ← Branches.getD_selected, hvals]
      rfl
    rw [if_neg Bool.false_ne_true, if_neg Bool.false_ne_true, hok]
    simp only [ok_bind, allocate_noFailure, hvalues]
    rfl

end Conditional

theorem memoPlaceholders_gives
    {Inv : Memo → Prop} (hmono : ∀ {m m'}, Inv m → Grows (Meant value) m m' → Inv m')
    (hvalue : ∀ name, value name ≠ []) {call : Str → Memo → Except Stop Memo} (ph : Placeholders)
    (hcall : ∀ name ∈ ph.names, ∀ m, Inv m → ∃ m', call name m = .ok m' ∧
      m'.vals name = some (value name) ∧ Grows (Meant value) m m') (a : Address) (i : Nat) :
    PartGives Inv value (memoPlaceholders noFailure call a i ph) (ph.columns value) := by
  induction ph generalizing a i with
  | nil => exact fun m _ => ⟨m, rfl, .refl m⟩
  | plain name rest ih
  | join name sep rest ih =>
    intro m hm
    obtain ⟨m1, hname, hvals, hgrows1⟩ := hcall name List.mem_cons_self m hm
    obtain ⟨m2, hrest, hgrows2⟩ := ih (fun name' hname' => hcall name' (List.mem_cons_of_mem _ hname'))
      a (i + 1) m1 (hmono hm hgrows1)
    refine ⟨m2, ?_, hgrows1.trans hgrows2⟩
    rw [memoPlaceholders, hname, ok_bind, hrest, ok_bind, Memo.get, hvals]
    rfl
  | cond name isConcat thenSch thenPh elseSch elsePh rest ihThen ihElse ih =>
    intro m hm
    obtain ⟨m1, hname, hvals, hgrows1⟩ := hcall name List.mem_cons_self m hm
    have hparts := fun name' hname' => hcall name' (List.mem_cons_of_mem _ hname')
    have hthen := memoTemplate_gives (ihThen (fun name' hname' =>
      hparts name' (List.mem_append_left _ hname')) (a.child i .thenBranch) 0)
      (a.child i .thenBranch) thenSch
    have helse := memoTemplate_gives (ihElse (fun name' hname' =>
      hparts name' (List.mem_append_right _ (List.mem_append_left _ hname')))
      (a.child i .elseBranch) 0) (a.child i .elseBranch) elseSch
    obtain ⟨m2, hconditional, hgrows2⟩ := memoConditional_gives hmono hthen helse (hvalue name)
      isConcat (a.child i .result) m1 (hmono hm hgrows1)
    obtain ⟨m3, hrest, hgrows3⟩ := ih (fun name' hname' =>
      hparts name' (List.mem_append_right _ (List.mem_append_right _ hname'))) a (i + 1) m2
      (hmono (hmono hm hgrows1) hgrows2)
    refine ⟨m3, ?_, (hgrows1.trans hgrows2).trans hgrows3⟩
    have hget : m1.get name = value name := by
      rw [Memo.get, hvals]
      rfl
    rw [memoPlaceholders, hname, ok_bind, hget, hconditional]
    simp only [ok_bind, hrest]
    rfl

/-- The table has no other values for the templates that the given one leads to. -/
def Memo.Correct (group : Group) (value : Str → List Str) (name : Str) (m : Memo) : Prop :=
  ∀ name' vals, Relation.ReflTransGen (Refers group) name name' → m.vals name' = some vals →
    vals = value name'

theorem Memo.Correct.mono
    {m m' : Memo} {name : Str} (h : m.Correct group value name) (hgrows : Grows (Meant value) m m') :
    m'.Correct group value name := by
  intro name' vals hleads hvals
  cases hold : m.vals name' with
  | none => exact hgrows.good name' vals hold hvals
  | some old =>
    have hkept := hgrows.vals name' old hold
    rw [hvals, Option.some.injEq] at hkept
    rw [hkept]
    exact h name' old hleads hold

/-- The empty list of values of a template that is being evaluated is not seen from the templates
that it refers to. -/
theorem Memo.Correct.enter
    {m : Memo} {name : Str} (hacyclic : Acyclic group) (h : m.Correct group value name)
    {name' : Str} (hrefers : Refers group name name') :
    (m.enter name).Correct group value name' := by
  intro name'' vals hleads hvals
  have hne : name'' ≠ name := by
    rintro rfl
    exact hacyclic name'' (.head' hrefers hleads)
  rw [Memo.enter, memo_set_other _ _ hne] at hvals
  exact h name'' vals (.head hrefers hleads) hvals

theorem memoNamed_gives
    (hacyclic : Acyclic group) (h : IsMeaning group params value) (name : Str) (fuel : Nat) (m : Memo)
    (hfuel : m.remaining group ≤ fuel) (hm : m.Correct group value name) :
    ∃ m', memoNamed group noFailure params fuel name m = .ok m' ∧
      m'.vals name = some (value name) ∧ Grows (Meant value) m m' := by
  induction name using hacyclic.wellFounded.induction generalizing fuel m with
  | _ name ih =>
    have hname := h name
    cases hvals : m.vals name with
    | some vals =>
      refine ⟨m, ?_, ?_, .refl m⟩
      · cases fuel <;> rw [memoNamed, memoEvaluate, hvals] <;> rfl
      · rw [hvals, hm name vals .refl hvals]
    | none =>
      by_cases hsch : (group.template name).sch.length = 0
      · -- an attribute
        rw [if_pos hsch] at hname
        refine ⟨{ m with log := m.log ++ [name] }.set name (value name), ?_, memo_set_same _ _ _,
          ?_⟩
        · cases fuel <;>
            rw [memoNamed, memoEvaluate, hvals, if_neg (by simp), if_pos hsch,
              attributeValues_noFailure, ← hname] <;> rfl
        · have hset : Grows (Meant value) m ((m.enter name).set name (value name)) :=
            Grows.set hvals (.refl (m.enter name)) rfl
          rwa [Memo.enter, Memo.set, Memo.set, Function.update_idem] at hset
      · rw [if_neg hsch] at hname
        have hlt := remaining_enter_lt hsch hvals
        obtain ⟨fuel, rfl⟩ : ∃ fuel', fuel = fuel' + 1 := ⟨fuel - 1, by omega⟩
        -- the property of tables that the calls for the placeholders start from
        let Inv : Memo → Prop := fun m' => m'.remaining group ≤ fuel ∧
          ∀ name', Refers group name name' → m'.Correct group value name'
        have hmono : ∀ {m m'}, Inv m → Grows (Meant value) m m' → Inv m' :=
          fun hinv hgrows => ⟨(hgrows.remaining_le group).trans hinv.1,
            fun name' hname' => (hinv.2 name' hname').mono hgrows⟩
        have hgives := memoPlaceholders_gives hmono h.ne_nil (group.template name).ph
          (fun name' hname' m' hm' => ih name' hname' fuel m' hm'.1 (hm'.2 name' hname'))
          (named name) 0
        obtain ⟨m', hok, hgrows⟩ := memoTemplate_gives hgives (named name)
          (group.template name).sch (m.enter name)
          ⟨by omega, fun name' hrefers => hm.enter hacyclic hrefers⟩
        refine ⟨m'.set name (value name), ?_, memo_set_same _ _ _, hgrows.set hvals rfl⟩
        rw [memoNamed, memoEvaluate, hvals, if_neg (by simp), if_neg hsch, hok, ← hname]
        rfl

/-- The evaluation of a group without recursion gives the values of its only meaning, with the
values that its attributes have at this time.  No buffer is left and no assertion fails. -/
theorem tgEvaluate_isMeaning (hacyclic : Acyclic group) (s : State) :
    (∃! value, IsMeaning group s.attributes value) ∧
      ∀ value, IsMeaning group s.attributes value →
        ∃ s', tgEvaluate group noFailure s = .ok (s', value group.main) := by
  obtain ⟨value, hvalue⟩ := exists_isMeaning hacyclic s.attributes
  refine ⟨⟨value, hvalue, fun value' hvalue' => hvalue'.unique hacyclic hvalue⟩,
    fun value hvalue => ?_⟩
  obtain ⟨m, hm, hmain, -⟩ := memoNamed_gives hacyclic hvalue group.main group.templates.length
    .empty (remaining_le_length group _) (fun name' vals _ hvals => by cases hvals)
  obtain ⟨s', hs', -⟩ := tgEvaluate_of_memoGroup (s := s) hm hmain fun _ _ => rfl
  exact ⟨s', hs'⟩

theorem smallGroup_template_of_ne {name : Str} (h : name ≠ [109]) :
    smallGroup.template name = ⟨[], .nil⟩ := by
  have hlookup : smallGroup.templates.lookup name = none := by
    refine List.lookup_eq_none_iff.mpr fun p hp => bne_iff_ne.mpr ?_
    rwa [List.eq_of_mem_singleton hp]
  rw [Group.template, hlookup]
  rfl

theorem acyclic_smallGroup : Acyclic smallGroup := by
  have hrefers : ∀ {name name'}, Refers smallGroup name name' → name = [109] ∧ name' = [112] := by
    intro name name' h
    by_cases hname : name = [109]
    · subst hname
      change name' ∈ [[112], [112]] at h
      exact ⟨rfl, by simpa using h⟩
    · rw [Refers, smallGroup_template_of_ne hname] at h
      cases h
  intro name hcycle
  obtain ⟨name', hfirst, -⟩ := Relation.TransGen.head'_iff.mp hcycle
  obtain ⟨name'', -, hlast⟩ := Relation.TransGen.tail'_iff.mp hcycle
  have heq := (hrefers hfirst).1.symm.trans (hrefers hlast).2
  cases heq

def smallState : State :=
  tgAddValue smallGroup (tgAddValue smallGroup .create [112] [50]) [112] []

theorem isMeaning_smallState :
    IsMeaning smallGroup smallState.attributes fun name =>
      if name = [109] then [[49, 50], []] else if name = [112] then [[50], []] else [[]] := by
  intro name
  by_cases hname : name = [109]
  · subst hname
    rfl
  · have htemplate := smallGroup_template_of_ne hname
    by_cases hp : name = [112]
    · subst hp
      rfl
    · have hempty : smallState.attributes name = [] := by
        have hnamed : named name ≠ named [112] := fun h => hp (congrArg Address.root h)
        have hhas : smallGroup.has [112] = true := rfl
        rw [State.attributes, smallState, tgAddValue, if_pos hhas, templateAddValue,
          set_other _ _ hnamed, tgAddValue, if_pos hhas, templateAddValue, set_other _ _ hnamed]
        rfl
      simp only [hname, hp, if_false, htemplate, hempty]
      rfl

/-- The values of the small group. -/
theorem tgEvaluate_smallState :
    Acyclic smallGroup ∧
      ∃ s', tgEvaluate smallGroup noFailure smallState = .ok (s', [[49, 50], []]) :=
  ⟨acyclic_smallGroup, (tgEvaluate_isMeaning acyclic_smallGroup smallState).2 _ isMeaning_smallState⟩

end MistEngine
end KedrAux
