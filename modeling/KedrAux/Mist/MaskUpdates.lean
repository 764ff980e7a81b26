import KedrAux.Mist.MaskModifier

/-!
# Changes of the vector on the top of a stack

What `addSubmask` and `removeSubmasks` do with the paths of the modified mask and of all
others.
-/

namespace KedrAux
namespace Mist
namespace Masks

open MaskStore (refsAt submasksAt child descend Has SameVectors Shrinks)

variable {ms : Masks} {a : Nat} {indicies : List Nat} {name name' : MistParamNameAbs}
variable {locs : List MaskLocation} {loc : MaskLocation} {p q r x : Addr} {subname : Str}

section Update

variable {store store' : MaskStore} {vars : List (Option Addr)} {v : Nat}
variable {y : Addr} {impl : MaskImpl}
variable {pending pending' : List Addr}

variable {submasks : List (Str × Addr)}

theorem write_submasks_counted (h : Counted ⟨store, vars⟩ pending) (hget : store.get? x = some impl)
    (hwrite : store.write x { impl with submasks := submasks } = some store')
    (hnodup : (submasks.map Prod.fst).Nodup)
    (hcount : ∀ q, (submasks.map Prod.snd).count q + pending'.count q =
      impl.children.count q + pending.count q) :
    Counted ⟨store', vars⟩ pending' := by
  obtain ⟨-, -, hget'⟩ := ObjectHeap.write_eq_some hwrite
  constructor
  · intro q
    have hq := h.refs_eq q
    have hq' := hcount q
    have hincoming := ObjectHeap.incoming_write MaskImpl.children hwrite hget q
    have hrefs : refsAt store' q = refsAt store q := by
      rw [MaskStore.refsAt_of_write hwrite]
      split_ifs with hqx
      · rw [hqx, MaskStore.refsAt_of_get? hget]
      · rfl
    simp only [handles, MaskImpl.children] at hq hq' hincoming ⊢
    omega
  · intro y submasks' hy
    rw [submasksAt, hget'] at hy
    split_ifs at hy with hyx
    · rw [Option.map_some, Option.some.injEq] at hy
      rw [← hy]
      exact hnodup
    · exact h.names_nodup y submasks' hy

theorem child_of_snoc (hget : submasksAt store x = some submasks)
    (hget' : submasksAt store' x = some (submasks ++ [(subname, q)]))
    (hnew : child store x subname = none) (subname' : Str) :
    child store' x subname' = if subname' = subname then some q else child store x subname' := by
  rw [child, hget, Option.bind_some, Option.map_eq_none_iff] at hnew
  rw [child, hget', Option.bind_some, List.find?_append, child, hget, Option.bind_some]
  split_ifs with heq
  · rw [heq, hnew]
    simp
  · simp [Ne.symm heq]

theorem nodup_names_snoc (hget : submasksAt store x = some submasks)
    (hnodup : (submasks.map Prod.fst).Nodup) (hnew : child store x subname = none) :
    ((submasks ++ [(subname, q)]).map Prod.fst).Nodup := by
  rw [List.map_append, List.map_singleton, List.nodup_append]
  refine ⟨hnodup, List.nodup_singleton _, ?_⟩
  rintro n hn n' hn' rfl
  rw [List.mem_singleton] at hn'
  subst hn'
  obtain ⟨entry, hentry, rfl⟩ := List.mem_map.mp hn
  rw [MaskStore.child_of_mem hget hnodup hentry] at hnew
  cases hnew

/-- A vector that is reached through one variable and one path only. -/
structure OnlyPath (ms : Masks) (a : Nat) (p : Addr) (name : MistParamNameAbs) (x : Addr) :
    Prop where
  root : ms.vars[a]? = some (some p)
  descend_eq : descend ms.store p name = some x
  unique : ∀ v r name', ms.vars[v]? = some (some r) → descend ms.store r name' = some x →
    v = a ∧ name' = name

theorem Stack.onlyPath
    (hcounted : Counted ms []) (hstack : Stack ms ms.Unshared a indicies name locs loc)
    (hloc : loc.impl ms = some x) (hx : ms.Unshared x) (hroot : ms.vars[a]? = some (some p)) :
    OnlyPath ms a p name x :=
  ⟨hroot, hstack.descend hcounted hloc hroot,
    fun _ _ _ hv hr => hstack.unique hcounted hloc hx hv hr⟩

section OnlyPath

variable (h : OnlyPath ms a p name x)
variable (hsame : ∀ y, y ≠ x → submasksAt store' y = submasksAt ms.store y)

include h hsame

theorem OnlyPath.sameFor : SameFor a ms ⟨store', ms.vars⟩ := by
  refine ⟨fun _ _ => rfl, ?_⟩
  intro v r name' y hv hr hy
  apply hsame y
  rintro rfl
  exact hv (h.unique v r name' hr hy).1

theorem OnlyPath.descend_of_ne (hname : ∀ subname rest, name' ≠ name ++ subname :: rest) :
    descend store' p name' = descend ms.store p name' := by
  apply MaskStore.descend_congr_on
  intro name1 subname name2 y heq hy
  apply hsame y
  rintro rfl
  obtain ⟨-, rfl⟩ := h.unique a p name1 h.root hy
  exact hname subname name2 heq

theorem OnlyPath.has_append_cons {rest : MistParamNameAbs} :
    Has store' p (name ++ subname :: rest) ↔
      ∃ q, child store' x subname = some q ∧ Has store' q rest := by
  have hx : descend store' p name = some x := by
    rw [h.descend_of_ne hsame, h.descend_eq]
    intro subname rest heq
    have hlength := congrArg List.length heq
    rw [List.length_append, List.length_cons] at hlength
    omega
  exact MaskStore.has_append_cons hx

theorem OnlyPath.has_child (hchild : child ms.store x subname = some q) (rest : MistParamNameAbs) :
    Has store' q rest ↔ Has ms.store q rest := by
  rw [Has, MaskStore.descend_congr ?_ rest, Has]
  intro name1 y hy
  apply hsame y
  rintro rfl
  have hpath : descend ms.store p (name ++ subname :: name1) = some y := by
    rw [MaskStore.descend_append, h.descend_eq, Option.bind_some, descend, hchild,
      Option.bind_some, hy]
  have hlength := congrArg List.length (h.unique a p _ h.root hpath).2
  rw [List.length_append, List.length_cons] at hlength
  omega

theorem OnlyPath.has_snoc (hnew : child ms.store x subname = none)
    (hchild : ∀ subname', child store' x subname' =
      if subname' = subname then some q else child ms.store x subname') :
    Has store' p name' ↔
      Has ms.store p name' ∨ ∃ rest, name' = name ++ subname :: rest ∧ Has store' q rest := by
  by_cases hname : ∃ subname' rest, name' = name ++ subname' :: rest
  · obtain ⟨subname', rest, rfl⟩ := hname
    rw [h.has_append_cons hsame, hchild subname', MaskStore.has_append_cons h.descend_eq]
    by_cases heq : subname' = subname
    · subst heq
      simp [hnew]
    · rw [if_neg heq]
      constructor
      · rintro ⟨z, hz, hhas⟩
        exact Or.inl ⟨z, hz, (h.has_child hsame hz rest).mp hhas⟩
      · rintro (⟨z, hz, hhas⟩ | ⟨rest', hrest, -⟩)
        · exact ⟨z, hz, (h.has_child hsame hz rest).mpr hhas⟩
        · rw [List.append_cancel_left_eq, List.cons.injEq] at hrest
          exact absurd hrest.1 heq
  · rw [Has, h.descend_of_ne hsame fun subname' rest heq => hname ⟨subname', rest, heq⟩]
    constructor
    · exact Or.inl
    · rintro (hhas | ⟨rest, heq, -⟩)
      · exact hhas
      · exact absurd ⟨subname, rest, heq⟩ hname

end OnlyPath

theorem Shrinks.submasksAt_of_descend
    (h : Shrinks store store') (hcounted : Counted ⟨store', vars⟩ pending)
    (hpos : 0 < handles ⟨store', vars⟩ r) (hy : descend store r name = some y) :
    submasksAt store' y = submasksAt store y := by
  induction name generalizing r with
  | nil =>
    cases hy
    obtain ⟨impl, hget, -⟩ := hcounted.exists_of_pos (Nat.add_pos_left hpos _)
    exact (MaskStore.submasksAt_of_get? hget).trans (h.submasksAt_of_get? hget).symm
  | cons subname name ih =>
    obtain ⟨q, hchild, hy⟩ := Option.bind_eq_some_iff.mp hy
    obtain ⟨impl, hget, -⟩ := hcounted.exists_of_pos (Nat.add_pos_left hpos _)
    obtain ⟨submasks, hsubmasks, hmem⟩ := MaskStore.exists_of_child hchild
    rw [h.submasksAt_of_get? hget, Option.some.injEq] at hsubmasks
    have hget' := MaskStore.submasksAt_of_get? hget
    rw [hsubmasks] at hget'
    have hpos' : 0 < handles ⟨store', vars⟩ q := handles_pos_of_child hget' hmem
    exact ih hpos' hy

theorem Shrinks.descend_eq (h : Shrinks store store') (hcounted : Counted ⟨store', vars⟩ pending)
    (hpos : 0 < handles ⟨store', vars⟩ r) (name : MistParamNameAbs) :
    descend store' r name = descend store r name :=
  MaskStore.descend_congr
    (fun _ _ hy => Shrinks.submasksAt_of_descend h hcounted hpos hy) name

end Update

section Modifiers

variable {ok : Addr → Prop} {b : Nat}
variable {node : Addr}

/-- The state after the change of the vector on the top: the stack has the same indices. -/
structure Modified (ms ms' : Masks) (a : Nat) (indicies : List Nat) (name : MistParamNameAbs)
    (maskStack : List MaskLocation) : Prop where
  counted : Counted ms' []
  others : SameFor a ms ms'
  top : ∃ locs loc x, Stack ms' (fun _ => True) a indicies name locs loc ∧
    loc.impl ms' = some x ∧ maskStack = locs ++ [loc]

theorem Stack.of_grown
    (h : Stack ms ok a indicies name locs loc) (ms' : Masks) (hvars : ms'.vars = ms.vars)
    (hgrown : ∀ y submasks, submasksAt ms.store y = some submasks →
      ∃ more, submasksAt ms'.store y = some (submasks ++ more)) :
    Stack ms' (fun _ => True) a indicies name locs loc ∧
      ∀ x, loc.impl ms = some x → loc.impl ms' = some x := by
  have hentry : ∀ {y submasks} {index : Nat} {entry : Str × Addr}, submasksAt ms.store y =
    some submasks →
      submasks[index]? = some entry → ∃ submasks', submasksAt ms'.store y = some submasks' ∧
        submasks'[index]? = some entry := by
    intro y submasks index entry hget hindex
    obtain ⟨more, hget'⟩ := hgrown y submasks hget
    refine ⟨submasks ++ more, hget', ?_⟩
    rw [List.getElem?_append_left (List.getElem?_eq_some_iff.mp hindex).1, hindex]
  have himpl : ∀ (loc : MaskLocation) (x : Addr), loc.impl ms = some x →
      loc.impl ms' = some x := by
    intro loc x hx
    cases loc with
    | var v =>
      rw [impl_var_eq_some] at hx ⊢
      rw [hvars, hx]
    | slot y index =>
      obtain ⟨submasks, subname, hget, hindex⟩ := impl_slot_eq_some.mp hx
      obtain ⟨submasks', hget', hindex'⟩ := hentry hget hindex
      exact impl_slot_eq_some.mpr ⟨submasks', subname, hget', hindex'⟩
  refine ⟨h.transport ?_ ?_, himpl loc⟩
  · exact fun _ _ _ loc x _ hx _ => ⟨himpl loc x hx, trivial⟩
  · intro y submasks index entry _ hget hindex
    obtain ⟨submasks', hget', hindex'⟩ := hentry hget hindex
    exact ⟨submasks', entry.2, hget', hindex'⟩

/-- **`addSubmask`.**  The mask gets the paths of the submask, which belongs to another
variable, below the top of the stack. -/
theorem addSubmask_spec (hcounted : Counted ms []) (hstack : Stack ms ok a indicies name locs loc)
    (hloc : loc.impl ms = some x) (hroot : ms.vars[a]? = some (some p))
    (hnew : child ms.store x subname = none) (hba : b ≠ a)
    (hb : ms.vars[b]? = some (some r)) (hnode : descend ms.store r name' = some node)
    {index : Nat} (hsub : (MaskLocation.slot node index).impl ms = some q)
    (hq : child ms.store node subname = some q) :
    ∃ ms' maskStack,
      Modifier.addSubmask ms ⟨locs ++ [loc], indicies⟩ subname (.slot node index) =
        some (ms', ⟨maskStack, indicies⟩) ∧
      Modified ms ms' a indicies name maskStack ∧
      ∃ p', ms'.vars[a]? = some (some p') ∧ ∀ name', Has ms'.store p' name' ↔
        Has ms.store p name' ∨
          ∃ rest, name' = name ++ subname :: rest ∧ Has ms.store q rest := by
  obtain ⟨ms1, maskStack, hprepare, hprepared⟩ := prepareForModify_spec hcounted hstack hloc
  obtain ⟨locs1, loc1, x1, hstack1, hloc1, hx1, rfl⟩ := hprepared.top
  obtain ⟨p1, hroot1, hhas1⟩ := hprepared.same.own p hroot
  have honly := hstack1.onlyPath hprepared.counted hloc1 hx1 hroot1
  have hothers := hprepared.same.others
  -- the submask is where it was
  have hsame1 := hothers.submasksAt_eq b r name' node hba hb hnode
  have hsub1 : (MaskLocation.slot node index).impl ms1 = some q := by
    obtain ⟨submasks, subname', hget, hentry⟩ := impl_slot_eq_some.mp hsub
    exact impl_slot_eq_some.mpr ⟨submasks, subname', hsame1.trans hget, hentry⟩
  have hq0 : descend ms.store r (name' ++ [subname]) = some q := by
    rw [MaskStore.descend_snoc, hnode, Option.bind_some, hq]
  -- and its name is new in the prepared vector, too
  have hnew1 : child ms1.store x1 subname = none := by
    have hnot : ¬ Has ms1.store p1 (name ++ [subname]) := by
      rw [hhas1, Has, MaskStore.descend_snoc, hstack.descend hcounted hloc hroot,
        Option.bind_some, hnew]
      exact Bool.false_ne_true
    rwa [Has, MaskStore.descend_snoc, honly.descend_eq, Option.bind_some,
      Option.not_isSome_iff_eq_none] at hnot
  obtain ⟨implq, hgetq⟩ := hprepared.counted.exists_of_impl hsub1
  obtain ⟨store2, href, hsame2, hcounted2⟩ :=
    ref_counted hprepared.counted (Option.isSome_of_eq_some hgetq)
  obtain ⟨implx, hgetx⟩ := hprepared.counted.exists_of_impl hloc1
  have hsubmasks1 := MaskStore.submasksAt_of_get? hgetx
  obtain ⟨refs2, hgetx2⟩ := MaskStore.exists_of_submasksAt
    ((hsame2.submasksAt_eq x1).trans hsubmasks1)
  obtain ⟨store3, hwrite, -, hget3⟩ := ObjectHeap.write_of_isSome
    (⟨refs2, implx.submasks ++ [(subname, q)]⟩ : MaskImpl) (Option.isSome_of_eq_some hgetx2)
  have hsubmasks3 : submasksAt store3 x1 = some (implx.submasks ++ [(subname, q)]) := by
    rw [submasksAt, hget3, if_pos rfl, Option.map_some]
  have hsame3 : ∀ y, y ≠ x1 → submasksAt store3 y = submasksAt ms1.store y := by
    intro y hy
    rw [← hsame2.submasksAt_eq y, submasksAt, hget3, if_neg hy, submasksAt]
  have hothers3 := hothers.trans (honly.sameFor hsame3)
  refine ⟨⟨store3, ms1.vars⟩, locs1 ++ [loc1], ?_, ⟨?_, ?_, locs1, loc1, x1, ?_⟩,
    p1, hroot1, ?_⟩
  · rw [Modifier.addSubmask, hprepare, Option.bind_some, hsub1, Option.bind_some, href,
      Option.bind_some, Modifier.current, List.getLast?_concat, Option.bind_some, hloc1,
      Option.bind_some, hgetx2, Option.bind_some]
    dsimp only
    rw [hwrite, Option.map_some]
  · refine write_submasks_counted hcounted2 hgetx2 hwrite
      (nodup_names_snoc hsubmasks1 (hprepared.counted.names_nodup x1 _ hsubmasks1) hnew1) ?_
    intro q'
    rw [List.map_append, List.map_singleton, List.count_append, MaskImpl.children]
    rfl
  · exact hothers3
  · have hgrown := hstack1.of_grown ⟨store3, ms1.vars⟩ rfl (by
      intro y submasks hy
      by_cases hyx : y = x1
      · subst hyx
        rw [hsubmasks1, Option.some.injEq] at hy
        exact ⟨_, hy ▸ hsubmasks3⟩
      · exact ⟨[], by rw [List.append_nil, hsame3 y hyx, hy]⟩)
    exact ⟨hgrown.1, hgrown.2 x1 hloc1, rfl⟩
  · intro name1
    have hqpaths : ∀ rest, Has store3 q rest ↔ Has ms.store q rest :=
      hothers3.has_iff hba hb hq0
    rw [honly.has_snoc hsame3 hnew1 (child_of_snoc hsubmasks1 hsubmasks3 hnew1), hhas1 name1]
    simp only [hqpaths]

/-- What is below the path is taken out of this mask only. -/
theorem removeSubmasks_spec
    (hcounted : Counted ms []) (hstack : Stack ms ok a indicies name locs loc)
    (hloc : loc.impl ms = some x) (hroot : ms.vars[a]? = some (some p)) :
    ∃ ms' modifier,
      Modifier.removeSubmasks ms ⟨locs ++ [loc], indicies⟩ = some (ms', modifier) ∧
      Counted ms' [] ∧ SameFor a ms ms' ∧
      ∃ p', ms'.vars[a]? = some (some p') ∧ ∀ name', Has ms'.store p' name' ↔
        Has ms.store p name' ∧ ¬ ∃ subname rest, name' = name ++ subname :: rest := by
  obtain ⟨ms1, maskStack, hprepare, hprepared⟩ := prepareForModify_spec hcounted hstack hloc
  obtain ⟨locs1, loc1, x1, hstack1, hloc1, hx1, rfl⟩ := hprepared.top
  obtain ⟨p1, hroot1, hhas1⟩ := hprepared.same.own p hroot
  have honly := hstack1.onlyPath hprepared.counted hloc1 hx1 hroot1
  obtain ⟨implx, hgetx⟩ := hprepared.counted.exists_of_impl hloc1
  obtain ⟨store2, hwrite, -, hget2⟩ := ObjectHeap.write_of_isSome
    ({ implx with submasks := [] } : MaskImpl) (Option.isSome_of_eq_some hgetx)
  have hsubmasks2 : submasksAt store2 x1 = some [] := by
    rw [submasksAt, hget2, if_pos rfl, Option.map_some]
  have hsame2 : ∀ y, y ≠ x1 → submasksAt store2 y = submasksAt ms1.store y := by
    intro y hy
    rw [submasksAt, hget2, if_neg hy, submasksAt]
  have hcounted2 : Counted ⟨store2, ms1.vars⟩ (implx.children ++ []) := by
    refine write_submasks_counted hprepared.counted hgetx hwrite
      List.nodup_nil ?_
    intro q
    rw [List.map_nil, List.count_nil, List.append_nil, Nat.zero_add, Nat.add_zero]
  obtain ⟨store3, hall, hcounted3, hshrinks⟩ := unrefAll_unref_counted hcounted2
  have hothers2 := honly.sameFor hsame2
  have hothers3 : SameFor a ⟨store2, ms1.vars⟩ ⟨store3, ms1.vars⟩ := by
    refine ⟨fun _ _ => rfl, ?_⟩
    intro v r name' y _ hv hy
    exact Shrinks.submasksAt_of_descend hshrinks hcounted3 (handles_pos_of_var hv) hy
  refine ⟨⟨store3, ms1.vars⟩, ⟨locs1 ++ [loc1], indicies⟩, ?_, hcounted3,
    (hprepared.same.others.trans hothers2).trans hothers3, p1, hroot1, ?_⟩
  · rw [Modifier.removeSubmasks, hprepare, Option.bind_some, Modifier.current,
      List.getLast?_concat, Option.bind_some, hloc1, Option.bind_some, hgetx, Option.bind_some,
      hwrite, Option.bind_some, hall, Option.map_some]
  · intro name'
    have hshrink : Has store3 p1 name' ↔ Has store2 p1 name' := by
      rw [Has, Shrinks.descend_eq hshrinks hcounted3 (handles_pos_of_var hroot1), Has]
    rw [hshrink, ← hhas1 name']
    by_cases hname : ∃ subname rest, name' = name ++ subname :: rest
    · obtain ⟨subname, rest, rfl⟩ := hname
      rw [honly.has_append_cons hsame2, child, hsubmasks2]
      simp
    · rw [Has, honly.descend_of_ne hsame2 fun subname rest heq => hname ⟨subname, rest, heq⟩]
      exact ⟨fun hhas => ⟨hhas, hname⟩, And.left⟩

end Modifiers

end Masks
end Mist
end KedrAux
