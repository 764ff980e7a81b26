import KedrAux.Mist.ParamSetStore

/-!
# Copies of parameter sets

The copy constructor makes an independent tree.  The assignment deletes the subsets of the
assigned set instead of copying them: the result is right when there are none.
-/

namespace KedrAux
namespace Mist
namespace ParamSetStore

variable {store store' : ParamSetStore} {ps : List Addr} {p : Addr}

section Deletion

variable {delete : ParamSetStore → Addr → Option ParamSetStore}
variable {limit : Nat}

/-- Objects have been deleted, and the others are as before. -/
structure Shrinks (store store' : ParamSetStore) : Prop where
  next_eq : store'.next = store.next
  get?_cases : ∀ q, store'.get? q = store.get? q ∨ store'.get? q = none

theorem Shrinks.refl (store : ParamSetStore) : Shrinks store store :=
  ⟨rfl, fun _ => Or.inl rfl⟩

theorem Shrinks.trans
    {store'' : ParamSetStore} (h : Shrinks store store') (h' : Shrinks store' store'') :
    Shrinks store store'' := by
  refine ⟨h'.next_eq.trans h.next_eq, ?_⟩
  intro q
  rcases h'.get?_cases q with heq | hnone
  · rw [heq]
    exact h.get?_cases q
  · exact Or.inr hnone

theorem Shrinks.get?_none (h : Shrinks store store') {q : Addr} (hq : store.get? q = none) :
    store'.get? q = none := by
  rcases h.get?_cases q with heq | hnone
  · rw [heq, hq]
  · exact hnone

/-- What the deletion of one object does, when it succeeds. -/
def Deletes (delete : ParamSetStore → Addr → Option ParamSetStore) : Prop :=
  ∀ store store' p, delete store p = some store' → Shrinks store store' ∧ store'.get? p = none

theorem deleteAll_deletes (hdelete : Deletes delete) (h : deleteAll delete store ps = some store') :
    Shrinks store store' ∧ ∀ p ∈ ps, store'.get? p = none := by
  induction ps generalizing store with
  | nil =>
    cases h
    exact ⟨Shrinks.refl _, fun p hp => absurd hp List.not_mem_nil⟩
  | cons p ps ih =>
    obtain ⟨store1, hp, hps⟩ := Option.bind_eq_some_iff.mp h
    obtain ⟨hshrinks, hnone⟩ := hdelete store store1 p hp
    obtain ⟨hshrinks', hnone'⟩ := ih hps
    refine ⟨hshrinks.trans hshrinks', ?_⟩
    intro q hq
    rcases List.mem_cons.mp hq with rfl | hq
    · exact hshrinks'.get?_none hnone
    · exact hnone' q hq

theorem deleteSet_deletes (limit : Nat) : Deletes (deleteSet limit) := by
  induction limit with
  | zero => exact fun _ _ _ h => nomatch h
  | succ limit ih =>
    intro store store' p h
    obtain ⟨object, -, h⟩ := Option.bind_eq_some_iff.mp h
    obtain ⟨store1, hall, hfree⟩ := Option.bind_eq_some_iff.mp h
    obtain ⟨hshrinks, -⟩ := deleteAll_deletes ih hall
    obtain ⟨-, hnext, hget⟩ := ObjectHeap.free_eq_some hfree
    refine ⟨hshrinks.trans ⟨hnext, ?_⟩, by rw [hget, if_pos rfl]⟩
    intro q
    rw [hget]
    split_ifs
    · exact Or.inr rfl
    · exact Or.inl rfl

theorem ForestAt.deleteAll {ts : List ParamSet} {owned : List Addr} (h : ForestAt store ps ts owned)
    (hnodup : owned.Nodup) :
    ∃ limit0, ∀ limit, limit0 ≤ limit → ∀ store1 : ParamSetStore,
      (∀ q ∈ owned, store1.get? q = store.get? q) →
      ∃ store2, ParamSetStore.deleteAll (deleteSet limit) store1 ps = some store2 ∧
        ∀ q, store2.get? q = if q ∈ owned then none else store1.get? q := by
  induction h with
  | nil => exact ⟨0, fun _ _ store1 _ => ⟨store1, rfl, fun q => (if_neg List.not_mem_nil).symm⟩⟩
  | @cons p value subsets sets ps ts owned owned' hget _ hsub _ ih ih' =>
    rw [List.cons_append, List.nodup_cons, List.nodup_append] at hnodup
    obtain ⟨hp, hnodup, hnodup', hdisjoint⟩ := hnodup
    rw [List.mem_append, not_or] at hp
    obtain ⟨limit1, hlimit1⟩ := ih hnodup
    obtain ⟨limit2, hlimit2⟩ := ih' hnodup'
    refine ⟨max (limit1 + 1) limit2, ?_⟩
    intro limit hlimit store1 hsame
    obtain ⟨limit, rfl⟩ : ∃ n, limit = n + 1 := ⟨limit - 1, by omega⟩
    have hroot : store1.get? p = some ⟨value, subsets⟩ := by
      rw [hsame p (by simp), hget]
    -- the subsets, then the object itself
    obtain ⟨store2, hall, hget2⟩ := hlimit1 limit (by omega) store1
      (fun q hq => hsame q (by simp [hq]))
    have hroot2 : (store2.get? p).isSome := by
      rw [hget2, if_neg hp.1, hroot]
      rfl
    obtain ⟨store3, hfree, -, hget3⟩ := ObjectHeap.free_of_isSome hroot2
    have hdelete : deleteSet (limit + 1) store1 p = some store3 := by
      rw [deleteSet, hroot, Option.bind_some, hall, Option.bind_some, hfree]
    -- the other trees are still there
    have hrest : ∀ q ∈ owned', store3.get? q = store.get? q := by
      intro q hq
      have hne : q ≠ p := by
        rintro rfl
        exact hp.2 hq
      have hnot : q ∉ owned := fun hmem => hdisjoint q hmem q hq rfl
      rw [hget3, if_neg hne, hget2, if_neg hnot, hsame q (by simp [hq])]
    obtain ⟨store4, hall', hget4⟩ := hlimit2 (limit + 1) (by omega) store3 hrest
    refine ⟨store4, ?_, ?_⟩
    · rw [ParamSetStore.deleteAll, hdelete, Option.bind_some, hall']
    · intro q
      rw [hget4, hget3, hget2]
      by_cases hqp : q = p
      · simp [hqp]
      · by_cases hq : q ∈ owned
        · simp [hq]
        · simp [hqp, hq]

end Deletion

section Copy

variable {copy : ParamSetStore → Addr → Option (ParamSetStore × Addr)}

variable {qs : List Addr} {subsets : Subsets Addr} {ts : List ParamSet}

theorem replaceVector_append {ps' : List Addr}
    (h : replaceVector copy store (ps ++ ps') = some (store', qs)) :
    ∃ store1 qs1 qs2, replaceVector copy store ps = some (store1, qs1) ∧
      replaceVector copy store1 ps' = some (store', qs2) ∧ qs = qs1 ++ qs2 := by
  induction ps generalizing store qs with
  | nil => exact ⟨store, [], qs, rfl, h, rfl⟩
  | cons p ps ih =>
    rw [List.cons_append] at h
    obtain ⟨r, hcopy, hrest⟩ := Option.bind_eq_some_iff.mp h
    obtain ⟨r', hps, hr'⟩ := Option.map_eq_some_iff.mp hrest
    cases hr'
    obtain ⟨store1, qs1, qs2, h1, h2, hqs⟩ := ih hps
    refine ⟨store1, r.2 :: qs1, qs2, ?_, h2, ?_⟩
    · rw [replaceVector, hcopy, Option.bind_some, h1, Option.map_some]
    · rw [hqs, List.cons_append]

theorem length_replaceVector (h : replaceVector copy store ps = some (store', qs)) :
    qs.length = ps.length := by
  induction ps generalizing store qs with
  | nil =>
    cases h
    rfl
  | cons p ps ih =>
    obtain ⟨r, -, hrest⟩ := Option.bind_eq_some_iff.mp h
    obtain ⟨r', hps, hr'⟩ := Option.map_eq_some_iff.mp hrest
    cases hr'
    rw [List.length_cons, List.length_cons, ih hps]

theorem replaceSubsets_of_replaceVector
    (h : replaceVector copy store (Subsets.elems subsets) = some (store', qs)) :
    ∃ subsets', replaceSubsets copy store subsets = some (store', subsets') ∧
      Subsets.elems subsets' = qs ∧ SameShape subsets' subsets := by
  induction subsets generalizing store qs with
  | nil =>
    cases h
    exact ⟨[], rfl, rfl, .nil⟩
  | cons entry subsets ih =>
    obtain ⟨name, p, ps⟩ := entry
    obtain ⟨r, hcopy, hrest⟩ := Option.bind_eq_some_iff.mp h
    obtain ⟨r', hps, hr'⟩ := Option.map_eq_some_iff.mp hrest
    cases hr'
    obtain ⟨store1, qs1, qs2, h1, h2, hqs⟩ := replaceVector_append hps
    obtain ⟨subsets', hsubsets', helems, hshape⟩ := ih h2
    refine ⟨(name, r.2, qs1) :: subsets', ?_, ?_, ?_⟩
    · rw [replaceSubsets, hcopy, Option.bind_some, h1, Option.bind_some, hsubsets',
        Option.map_some]
    · rw [hqs, ← helems]
      rfl
    · exact .cons ⟨rfl, length_replaceVector h1⟩ hshape

theorem SameShape.trans
    {α β γ : Type} {subsets : Subsets α} {subsets' : Subsets β} {subsets'' : Subsets γ}
    (h : SameShape subsets subsets') (h' : SameShape subsets' subsets'') :
    SameShape subsets subsets'' := by
  induction h generalizing subsets'' with
  | nil =>
    cases h'
    exact .nil
  | cons hentry _ ih =>
    cases h' with
    | cons hentry' hrest =>
      exact .cons ⟨hentry.1.trans hentry'.1, hentry.2.trans hentry'.2⟩ (ih hrest)

theorem copySet_of_subsets {limit : Nat} {store1 store2 : ParamSetStore} {p : Addr} {value : Str}
    {owned2 : List Addr} (hroot : store1.get? p = some ⟨value, subsets⟩)
    (hvector : ParamSetStore.replaceVector (copySet limit) (store1.alloc ⟨value, subsets⟩)
      (Subsets.elems subsets) = some (store2, qs)) (hforest : ForestAt store2 qs ts owned2)
    (hc : store1.next ∉ owned2) (hext : (store1.alloc ⟨value, subsets⟩).Extends store2) :
    ∃ store3 subsets', copySet (limit + 1) store1 p = some (store3, store1.next) ∧
      store3.get? store1.next = some ⟨value, subsets'⟩ ∧ Subsets.elems subsets' = qs ∧
      SameShape subsets' subsets ∧ ForestAt store3 qs ts owned2 ∧ store1.Extends store3 := by
  obtain ⟨subsets', hreplace, helems, hshape⟩ := replaceSubsets_of_replaceVector hvector
  have hc2 : store2.get? store1.next = some ⟨value, subsets⟩ := by
    rw [hext.get?_eq _ (Nat.lt_succ_self _), ObjectHeap.get?_alloc_next]
  obtain ⟨store3, hwrite, hnext3, hget3⟩ :=
    ObjectHeap.write_of_isSome ⟨value, subsets'⟩ (Option.isSome_of_eq_some hc2)
  refine ⟨store3, subsets', ?_, ?_, helems, hshape, ?_, ?_, ?_⟩
  · rw [copySet, hroot, Option.bind_some, hreplace, Option.bind_some, hwrite, Option.map_some]
  · rw [hget3, if_pos rfl]
  · apply hforest.frame
    intro q hq
    rw [hget3, if_neg]
    rintro rfl
    exact hc hq
  · have hext1 := (ObjectHeap.extends_alloc store1 ⟨value, subsets⟩).trans hext
    rw [hnext3]
    exact hext1.next_le
  · intro q hq
    have hext1 := (ObjectHeap.extends_alloc store1 ⟨value, subsets⟩).trans hext
    rw [hget3, if_neg hq.ne, hext1.get?_eq q hq]

theorem ForestAt.replaceVector {owned : List Addr} (h : ForestAt store ps ts owned) :
    ∃ limit0, ∀ limit, limit0 ≤ limit → ∀ store1 : ParamSetStore,
      (∀ q ∈ owned, store1.get? q = store.get? q) →
      ∃ store2 qs owned2,
        ParamSetStore.replaceVector (copySet limit) store1 ps = some (store2, qs) ∧
        ForestAt store2 qs ts owned2 ∧ owned2.Nodup ∧ (∀ q ∈ owned2, store1.next ≤ q) ∧
        store1.Extends store2 := by
  induction h with
  | nil =>
    exact ⟨0, fun _ _ store1 _ => ⟨store1, [], [], rfl, .nil, List.nodup_nil,
      fun q hq => absurd hq List.not_mem_nil, ObjectHeap.Extends.refl store1⟩⟩
  | @cons p value subsets sets ps ts owned owned' hget hshape hsub hrest ih ih' =>
    obtain ⟨limit1, hlimit1⟩ := ih
    obtain ⟨limit2, hlimit2⟩ := ih'
    refine ⟨max (limit1 + 1) limit2, ?_⟩
    intro limit hlimit store1 hsame
    obtain ⟨limit, rfl⟩ : ∃ n, limit = n + 1 := ⟨limit - 1, by omega⟩
    have hroot : store1.get? p = some ⟨value, subsets⟩ := by
      rw [hsame p (by simp), hget]
    have hforest1 : ForestAt store1 (p :: ps) (.mk value sets :: ts) (p :: owned ++ owned') :=
      (ForestAt.cons hget hshape hsub hrest).frame hsame
    have hold : ∀ q, q ∈ p :: owned ++ owned' → q < store1.next :=
      fun q hq => hforest1.lt_next hq
    -- the member-wise copy
    have hext1 := ObjectHeap.extends_alloc store1 ⟨value, subsets⟩
    have hsame1 : ∀ q ∈ owned, (store1.alloc ⟨value, subsets⟩).get? q = store.get? q := by
      intro q hq
      rw [hext1.get?_eq q (hold q (by simp [hq])), hsame q (by simp [hq])]
    -- its subsets
    obtain ⟨store2, qs, owned2, hvector, hforest2, hnodup2, hnew2, hext2⟩ :=
      hlimit1 limit (by omega) (store1.alloc ⟨value, subsets⟩) hsame1
    have hc : store1.next ∉ owned2 := fun hmem => absurd (hnew2 _ hmem) (by simp)
    obtain ⟨store3, subsets', hcopy, hroot3, helems, hshape', hforest3, hext3⟩ :=
      copySet_of_subsets hroot hvector hforest2 hc hext2
    -- the other trees
    have hsame3 : ∀ q ∈ owned', store3.get? q = store.get? q := by
      intro q hq
      rw [hext3.get?_eq q (hold q (by simp [hq])), hsame q (by simp [hq])]
    obtain ⟨store4, qs', owned4, hvector', hforest4, hnodup4, hnew4, hext4⟩ :=
      hlimit2 (limit + 1) (by omega) store3 hsame3
    have hlt3 : ∀ q, q ∈ store1.next :: owned2 → q < store3.next := by
      intro q hq
      rcases List.mem_cons.mp hq with rfl | hq
      · exact ObjectHeap.lt_next hroot3
      · exact hforest3.lt_next hq
    refine ⟨store4, store1.next :: qs', store1.next :: owned2 ++ owned4, ?_, ?_, ?_, ?_,
      hext3.trans hext4⟩
    · rw [ParamSetStore.replaceVector, hcopy, Option.bind_some, hvector', Option.map_some]
    · have hroot4 : store4.get? store1.next = some ⟨value, subsets'⟩ := by
        rw [hext4.get?_eq _ (hlt3 _ List.mem_cons_self), hroot3]
      refine .cons hroot4 (hshape'.trans hshape) ?_ hforest4
      rw [helems]
      exact hforest3.of_extends hext4
    · rw [List.nodup_append]
      refine ⟨List.nodup_cons.mpr ⟨hc, hnodup2⟩, hnodup4, ?_⟩
      rintro q hq q' hq' rfl
      exact absurd (hnew4 q hq') (Nat.not_le.mpr (hlt3 q hq))
    · intro q hq
      rw [List.cons_append, List.mem_cons, List.mem_append] at hq
      rcases hq with rfl | hq | hq
      · exact le_rfl
      · exact (Nat.le_succ _).trans (hnew2 q hq)
      · exact hext3.next_le.trans (hnew4 q hq)

end Copy

/-- In the second store `a` and `b` are roots of independent trees, and both denote what `b`
denotes in the first one. -/
structure Copied (store store' : ParamSetStore) (b a : Addr) : Prop where
  trees : ∃ paramSet owned owned1 owned2, TreeAt store b paramSet owned ∧
    TreeAt store' b paramSet owned1 ∧ TreeAt store' a paramSet owned2
  alive : ∀ q, Reachable store' a q ∨ Reachable store' b q → (store'.get? q).isSome
  disjoint : ∀ q, Reachable store' a q → ¬ Reachable store' b q

/-- A copy constructor call returns and makes a copy of the tree at `b`. -/
def ConstructorCopies (store : ParamSetStore) (b : Addr) : Prop :=
  ∃ limit0, ∀ limit, limit0 ≤ limit → ∃ store' c, copySet limit store b = some (store', c) ∧
    Copied store store' b c

/-- The assignment of `b` to `a` returns and makes a copy of the tree at `b`. -/
def AssignmentCopies (store : ParamSetStore) (a b : Addr) : Prop :=
  ∃ limit0, ∀ limit, limit0 ≤ limit → ∃ store', assign limit store a b = some store' ∧
    Copied store store' b a

section Copies

variable {a b : Addr} {paramSet paramSet' : ParamSet}
variable {owned owned' owned1 owned2 : List Addr}

theorem copied_of_trees (hb : TreeAt store b paramSet owned) (hb' : TreeAt store' b paramSet owned1)
    (ha' : TreeAt store' a paramSet owned2) (hdisjoint : ∀ q ∈ owned2, q ∉ owned1) :
    Copied store store' b a := by
  have hmemA : ∀ q, Reachable store' a q → q ∈ owned2 :=
    fun q hq => hq.mem ha'.1 (ha'.1.roots List.mem_cons_self)
  have hmemB : ∀ q, Reachable store' b q → q ∈ owned1 :=
    fun q hq => hq.mem hb'.1 (hb'.1.roots List.mem_cons_self)
  refine ⟨⟨paramSet, owned, owned1, owned2, hb, hb', ha'⟩, ?_, ?_⟩
  · rintro q (hq | hq)
    · exact ha'.1.isSome (hmemA q hq)
    · exact hb'.1.isSome (hmemB q hq)
  · exact fun q hqa hqb => hdisjoint q (hmemA q hqa) (hmemB q hqb)

theorem TreeAt.cases (h : TreeAt store p paramSet owned) :
    ∃ value subsets sets below, paramSet = .mk value sets ∧
      store.get? p = some ⟨value, subsets⟩ ∧ SameShape subsets sets ∧
      ForestAt store (Subsets.elems subsets) (Subsets.elems sets) below ∧
      owned = p :: below ∧ p ∉ below ∧ below.Nodup := by
  obtain ⟨hforest, hnodup⟩ := h
  cases hforest with
  | @cons _ value subsets sets _ _ below rest hget hshape hsub hrest =>
    cases hrest
    rw [List.append_nil] at hnodup ⊢
    obtain ⟨hp, hbelow⟩ := List.nodup_cons.mp hnodup
    exact ⟨value, subsets, sets, below, rfl, hget, hshape, hsub, rfl, hp, hbelow⟩

variable {value : Str}

theorem treeAt_leaf (h : store.get? p = some ⟨value, []⟩) : TreeAt store p (.mk value []) [p] :=
  ⟨.cons h .nil .nil .nil, List.nodup_singleton p⟩

theorem constructorCopies (hb : TreeAt store b paramSet owned) : ConstructorCopies store b := by
  obtain ⟨limit0, hlimit0⟩ := hb.1.replaceVector
  refine ⟨limit0, ?_⟩
  intro limit hlimit
  obtain ⟨store', qs, owned2, hvector, hforest, hnodup, hnew, hext⟩ :=
    hlimit0 limit hlimit store (fun _ _ => rfl)
  obtain ⟨r, hcopy, hrest⟩ := Option.bind_eq_some_iff.mp hvector
  obtain ⟨r', hnil, hr'⟩ := Option.map_eq_some_iff.mp hrest
  cases hnil
  cases hr'
  refine ⟨_, _, hcopy, ?_⟩
  refine copied_of_trees hb ⟨hb.1.of_extends hext, hb.2⟩ ⟨hforest, hnodup⟩ ?_
  intro q hq hmem
  exact absurd (hnew q hq) (Nat.not_le.mpr (hb.1.lt_next hmem))

theorem assignmentCopies_of_leaf (ha : TreeAt store a paramSet owned)
    (hb : store.get? b = some ⟨value, []⟩) (hnot : b ∉ owned) :
    AssignmentCopies store a b := by
  obtain ⟨value', subsets, sets, below, -, hget, -, hforest, rfl, hbelow, hnodup⟩ := ha.cases
  obtain ⟨limit0, hlimit0⟩ := hforest.deleteAll hnodup
  rw [List.mem_cons, not_or] at hnot
  refine ⟨limit0, ?_⟩
  intro limit hlimit
  obtain ⟨store1, hall, hget1⟩ := hlimit0 limit hlimit store (fun _ _ => rfl)
  have hb1 : store1.get? b = some ⟨value, []⟩ := by
    rw [hget1, if_neg hnot.2, hb]
  have ha1 : (store1.get? a).isSome := by
    rw [hget1, if_neg hbelow, hget]
    rfl
  obtain ⟨store2, hwrite, -, hget2⟩ := ObjectHeap.write_of_isSome ⟨value, []⟩ ha1
  have hb2 : store2.get? b = some ⟨value, []⟩ := by
    rw [hget2, if_neg hnot.1, hb1]
  have ha2 : store2.get? a = some ⟨value, []⟩ := by
    rw [hget2, if_pos rfl]
  refine ⟨store2, ?_, ?_⟩
  · rw [assign, hget, Option.bind_some, hall, Option.bind_some, hb1, Option.bind_some, hwrite]
    rfl
  · refine copied_of_trees (treeAt_leaf hb) (treeAt_leaf hb2) (treeAt_leaf ha2) ?_
    intro q hq hmem
    rw [List.mem_singleton] at hq hmem
    exact hnot.1 (hmem.symm.trans hq)

theorem elems_eq_nil_of_assignmentCopies {object : ParamSetObject} (h : AssignmentCopies store a b)
    (hb : store.get? b = some object) :
    Subsets.elems object.subsets = [] := by
  obtain ⟨limit0, hlimit0⟩ := h
  obtain ⟨store', hassign, hcopied⟩ := hlimit0 limit0 le_rfl
  obtain ⟨objectA, -, hassign⟩ := Option.bind_eq_some_iff.mp hassign
  obtain ⟨store1, hall, hassign⟩ := Option.bind_eq_some_iff.mp hassign
  obtain ⟨object', hb1, hassign⟩ := Option.bind_eq_some_iff.mp hassign
  obtain ⟨store2, hwrite, hlast⟩ := Option.bind_eq_some_iff.mp hassign
  obtain ⟨hshrinks, -⟩ := deleteAll_deletes (deleteSet_deletes limit0) hall
  obtain ⟨hshrinks', hdeleted⟩ := deleteAll_deletes (deleteSet_deletes limit0) hlast
  obtain ⟨-, -, hget2⟩ := ObjectHeap.write_eq_some hwrite
  obtain rfl : object' = object := by
    rcases hshrinks.get?_cases b with heq | hnone
    · exact Option.some.inj (hb1.symm.trans (heq.trans hb))
    · rw [hnone] at hb1
      cases hb1
  -- what `a` denotes afterwards has been copied from `b`
  obtain ⟨paramSet, -, -, owned, -, -, htree⟩ := hcopied.trees
  have hmem := htree.1.roots (List.mem_cons_self (a := a))
  have hroot : store'.get? a = some object' := by
    rcases hshrinks'.get?_cases a with heq | hnone
    · rw [heq, hget2, if_pos rfl]
    · have halive := htree.1.isSome hmem
      rw [hnone] at halive
      cases halive
  rw [List.eq_nil_iff_forall_not_mem]
  intro q hq
  have halive := htree.1.isSome (htree.1.closed hmem hroot hq)
  rw [hdeleted q hq] at halive
  cases halive

/--
**Copies of parameter trees.**  The copy constructor makes a copy of every tree.  The
assignment does so exactly when the assigned set has no subsets.
-/
theorem copies_iff
    (ha : TreeAt store a paramSet' owned') (hb : TreeAt store b paramSet owned)
    (hdisjoint : ∀ q ∈ owned', q ∉ owned) :
    ConstructorCopies store b ∧ (AssignmentCopies store a b ↔ paramSet.subsets = []) := by
  refine ⟨constructorCopies hb, ?_⟩
  obtain ⟨value, subsets, sets, below, rfl, hget, hshape, -, rfl, -, -⟩ := hb.cases
  constructor
  · intro h
    have helems := elems_eq_nil_of_assignmentCopies h hget
    cases hshape with
    | nil => rfl
    | cons _ _ => cases helems
  · rintro rfl
    cases hshape
    exact assignmentCopies_of_leaf ha hget fun hmem => hdisjoint b hmem List.mem_cons_self

end Copies

def sampleStore : ParamSetStore :=
  ((ObjectHeap.empty.alloc ⟨[], []⟩).alloc ⟨['b'], [(['x'], 2, [])]⟩).alloc ⟨['v'], []⟩

theorem sampleStore_empty : TreeAt sampleStore 0 (.mk [] []) [0] :=
  treeAt_leaf rfl

theorem sampleStore_subset :
    TreeAt sampleStore 1 (.mk ['b'] [(['x'], .mk ['v'] [], [])]) [1, 2] := by
  have hroot : sampleStore.get? 1 = some ⟨['b'], [(['x'], 2, [])]⟩ := rfl
  have hleaf : TreeAt sampleStore 2 (.mk ['v'] []) [2] := treeAt_leaf rfl
  have hshape : SameShape [(['x'], 2, ([] : List Addr))] [(['x'], ParamSet.mk ['v'] [], [])] :=
    .cons ⟨rfl, rfl⟩ .nil
  exact ⟨.cons hroot hshape hleaf.1 .nil, by decide⟩

/-- The copy of a set, and its assignment. -/
theorem copies_sampleStore :
    ConstructorCopies sampleStore 1 ∧ (AssignmentCopies sampleStore 0 1 ↔
      (ParamSet.mk ['b'] [(['x'], .mk ['v'] [], [])]).subsets = []) :=
  copies_iff sampleStore_empty sampleStore_subset (by decide)

/-- A set with one subset is assigned: the copied subset is deleted. -/
theorem not_assignmentCopies_sampleStore :
    ¬ ∀ (store : ParamSetStore) (a b : Addr) (paramSet paramSet' : ParamSet)
      (owned owned' : List Addr), TreeAt store a paramSet' owned' →
      TreeAt store b paramSet owned → (∀ q ∈ owned', q ∉ owned) →
      AssignmentCopies store a b ∧ ConstructorCopies store b := by
  intro h
  have hcopies := (h sampleStore 0 1 _ _ _ _ sampleStore_empty sampleStore_subset (by decide)).1
  have hroot : sampleStore.get? 1 = some ⟨['b'], [(['x'], 2, [])]⟩ := rfl
  exact absurd (elems_eq_nil_of_assignmentCopies hcopies hroot) (by decide)

end ParamSetStore
end Mist
end KedrAux
