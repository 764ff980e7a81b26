import KedrAux.Mist.MaskPaths

/-!
# Modification of shared masks

`prepareForModify` replaces the shared implementations on the stack by copies.  No mask gets
other paths by this, and afterwards the whole stack is unshared, so that the vector on its
top can be changed.
-/

namespace KedrAux
namespace Mist
namespace Masks

open MaskStore (refsAt submasksAt child descend Has SameVectors Shrinks)

section MakePrivate

variable {ms : Masks} {p c q : Addr} {loc : MaskLocation} {impl : MaskImpl}

theorem count_set_add
    {α : Type} [BEq α] [LawfulBEq α] {l : List α} {i : Nat} {x : α} (hi : l[i]? = some x)
    (y z : α) :
    (l.set i y).count z + [x].count z = l.count z + [y].count z := by
  induction l generalizing i with
  | nil => cases hi
  | cons w l ih =>
    cases i with
    | zero =>
      rw [List.getElem?_cons_zero, Option.some.injEq] at hi
      simp only [List.set_cons_zero, List.count_cons, List.count_nil, hi]
      omega
    | succ i =>
      rw [List.getElem?_cons_succ] at hi
      have hrest := ih hi
      simp only [List.set_cons_succ, List.count_cons, List.count_nil] at hrest ⊢
      omega

/-- `makePrivate` for a shared implementation: the reference to the original is released,
and that to the copy is not stored yet. -/
theorem makePrivate_spec
    (h : Counted ms []) (hget : ms.store.get? p = some impl) (hshared : 2 ≤ impl.refs) :
    ∃ store' c, MaskStore.makePrivate ms.store p = some (store', c) ∧
      ms.store.get? c = none ∧
      (∀ q, refsAt store' q + [p].count q = handles ⟨store', ms.vars⟩ q + [c].count q) ∧
      submasksAt store' c = some impl.submasks ∧ refsAt store' c = 1 ∧
      (∀ y, y ≠ c → submasksAt store' y = submasksAt ms.store y) ∧
      (∀ y, y ≠ p → y ≠ c → y ∉ impl.children → refsAt store' y = refsAt ms.store y) := by
  have hrefs := h.refs_eq p
  rw [MaskStore.refsAt_of_get? hget, List.count_nil, Nat.add_zero] at hrefs
  have hchildren : ∀ q ∈ impl.children, (ms.store.get? q).isSome := by
    intro q hq
    obtain ⟨entry, hentry, rfl⟩ := List.mem_map.mp hq
    have hpos := handles_pos_of_child (MaskStore.submasksAt_of_get? hget) hentry
    obtain ⟨impl', hget', -⟩ := h.exists_of_pos (Nat.add_pos_left hpos _)
    exact Option.isSome_of_eq_some hget'
  -- the copied vector
  obtain ⟨store1, hall, hsame1, hcounted1⟩ := refAll_counted h hchildren
  have hnodup := h.names_nodup p _ (MaskStore.submasksAt_of_get? hget)
  have hcounted2 := alloc_counted hnodup hcounted1
  have hfresh : ms.store.get? store1.next = none := by
    rw [hsame1.next_eq]
    exact ms.store.fresh _ le_rfl
  have hpc : p ≠ store1.next := by
    rintro rfl
    rw [hget] at hfresh
    cases hfresh
  -- the original has still another reference
  have hsubmasks2 : ∀ y, y ≠ store1.next →
      submasksAt (store1.alloc ⟨1, impl.submasks⟩) y = submasksAt ms.store y := by
    intro y hy
    rw [← hsame1.submasksAt_eq, submasksAt, ObjectHeap.get?_alloc, if_neg hy, submasksAt]
  obtain ⟨refs2, hget2⟩ := MaskStore.exists_of_submasksAt
    ((hsubmasks2 p hpc).trans (MaskStore.submasksAt_of_get? hget))
  have hrefs2 := hcounted2.refs_eq p
  rw [handles, ObjectHeap.incoming_alloc, hsame1.incoming_eq,
    MaskStore.refsAt_of_get? hget2] at hrefs2
  unfold handles at hrefs
  dsimp only at hrefs2
  obtain ⟨store3, hwrite, -, -⟩ := ObjectHeap.write_of_isSome
    (⟨refs2 - 1, impl.submasks⟩ : MaskImpl) (Option.isSome_of_eq_some hget2)
  have hsame3 := MaskStore.sameVectors_of_write hget2 hwrite
  refine ⟨store3, store1.next, ?_, hfresh, ?_, ?_, ?_, ?_, ?_⟩
  · have hunref : MaskStore.unref (store1.alloc ⟨1, impl.submasks⟩) p = some store3 := by
      rw [MaskStore.unref, MaskStore.unrefRec, hget2, Option.bind_some, if_neg (by
        dsimp only
        omega), hwrite]
    rw [MaskStore.makePrivate, hget, Option.bind_some, hall, Option.bind_some, hunref,
      Option.map_some]
  · intro q
    have hq := hcounted2.refs_eq q
    rw [SameVectors.handles_eq hsame3, MaskStore.refsAt_of_write hwrite]
    by_cases hqp : q = p
    · subst hqp
      rw [MaskStore.refsAt_of_get? hget2] at hq
      rw [if_pos rfl, List.count_singleton_self]
      dsimp only at hq ⊢
      omega
    · rw [if_neg hqp, List.count_eq_zero_of_not_mem (by simpa using hqp)]
      exact hq
  · rw [hsame3.submasksAt_eq, submasksAt, ObjectHeap.get?_alloc_next, Option.map_some]
  · rw [MaskStore.refsAt_of_write hwrite, if_neg hpc.symm,
      MaskStore.refsAt_of_get? (ObjectHeap.get?_alloc_next store1 _)]
  · intro y hy
    rw [hsame3.submasksAt_eq, hsubmasks2 y hy]
  · intro y hyp hyc hchild
    have hy1 := hcounted1.refs_eq y
    have hy := h.refs_eq y
    rw [SameVectors.handles_eq hsame1, List.count_append,
      List.count_eq_zero_of_not_mem hchild] at hy1
    rw [MaskStore.refsAt_of_write hwrite, if_neg hyp, refsAt, ObjectHeap.get?_alloc, if_neg hyc]
    rw [refsAt] at hy1
    dsimp only at hy1
    rw [hy1, hy, List.count_nil, Nat.add_zero]

/-- Entries with the same names, and `c` for some of the pointers to `p`. -/
def Replaces (p c : Addr) (submasks submasks' : List (Str × Addr)) : Prop :=
  List.Forall₂ (fun entry entry' =>
    entry'.1 = entry.1 ∧ (entry'.2 = entry.2 ∨ entry.2 = p ∧ entry'.2 = c)) submasks submasks'

theorem Replaces.refl (p c : Addr) (submasks : List (Str × Addr)) :
    Replaces p c submasks submasks :=
  List.forall₂_same.mpr fun _ _ => ⟨rfl, Or.inl rfl⟩

variable {submasks submasks' : List (Str × Addr)} {index : Nat}

theorem replaces_set {subname : Str} (h : submasks[index]? = some (subname, p)) :
    Replaces p c submasks (submasks.set index (subname, c)) := by
  induction submasks generalizing index with
  | nil => cases h
  | cons entry submasks ih =>
    cases index with
    | zero =>
      rw [List.getElem?_cons_zero, Option.some.injEq] at h
      rw [List.set_cons_zero, h]
      exact .cons ⟨rfl, Or.inr ⟨rfl, rfl⟩⟩ (Replaces.refl p c submasks)
    | succ index =>
      rw [List.getElem?_cons_succ] at h
      rw [List.set_cons_succ]
      exact .cons ⟨rfl, Or.inl rfl⟩ (ih h)

theorem Replaces.names_eq (h : Replaces p c submasks submasks') :
    submasks'.map Prod.fst = submasks.map Prod.fst := by
  induction h with
  | nil => rfl
  | cons hentry _ ih => rw [List.map_cons, List.map_cons, ih, hentry.1]

theorem Replaces.getElem? (h : Replaces p c submasks submasks') {entry : Str × Addr}
    (hentry : submasks[index]? = some entry) :
    ∃ q', submasks'[index]? = some (entry.1, q') ∧ (q' = entry.2 ∨ entry.2 = p ∧ q' = c) := by
  induction h generalizing index with
  | nil => cases hentry
  | @cons e e' submasks submasks' he _ ih =>
    cases index with
    | zero =>
      rw [List.getElem?_cons_zero, Option.some.injEq] at hentry
      refine ⟨e'.2, ?_, hentry ▸ he.2⟩
      rw [List.getElem?_cons_zero, ← hentry, ← he.1]
    | succ index =>
      rw [List.getElem?_cons_succ] at hentry ⊢
      exact ih hentry

/-- The implementation `p` of the mask at `loc` has been replaced by its copy `c`. -/
structure Privatized (ms ms' : Masks) (loc : MaskLocation) (p c : Addr) : Prop where
  counted : Counted ms' []
  fresh : ms.store.get? c = none
  impl_eq : loc.impl ms' = some c
  unshared : ms'.Unshared c
  vars_eq : ∀ v, loc ≠ .var v → ms'.vars[v]? = ms.vars[v]?
  copy_eq : submasksAt ms'.store c = submasksAt ms.store p
  submasksAt_eq : ∀ y, y ≠ c → (∀ index, loc ≠ .slot y index) →
    submasksAt ms'.store y = submasksAt ms.store y
  replaces : ∀ y submasks, submasksAt ms.store y = some submasks →
    ∃ submasks', submasksAt ms'.store y = some submasks' ∧ Replaces p c submasks submasks'
  refsAt_eq : ∀ y, y ≠ p → y ≠ c →
    (∀ submasks, submasksAt ms.store p = some submasks → y ∉ submasks.map Prod.snd) →
    refsAt ms'.store y = refsAt ms.store y

/-- One handle is moved from an implementation to another one. -/
theorem setImpl_spec (hloc : loc.impl ms = some p) (c : Addr) :
    ∃ ms', loc.setImpl ms c = some ms' ∧ loc.impl ms' = some c ∧
      (∀ q, ms'.handles q + [p].count q = ms.handles q + [c].count q) ∧
      (∀ q, refsAt ms'.store q = refsAt ms.store q) ∧
      (∀ v, loc ≠ .var v → ms'.vars[v]? = ms.vars[v]?) ∧
      (∀ y, (∀ index, loc ≠ .slot y index) →
        submasksAt ms'.store y = submasksAt ms.store y) ∧
      (∀ y submasks, submasksAt ms.store y = some submasks →
        ∃ submasks', submasksAt ms'.store y = some submasks' ∧ Replaces p c submasks submasks') := by
  cases loc with
  | var v =>
    have hv := impl_var_eq_some.mp hloc
    refine ⟨{ ms with vars := ms.vars.set v (some c) }, ?_, ?_, ?_, fun _ => rfl, ?_,
      fun _ _ => rfl, fun y submasks hy => ⟨submasks, hy, Replaces.refl p c submasks⟩⟩
    · rw [MaskLocation.setImpl, hv, Option.join_some, Option.map_some]
    · rw [impl_var_eq_some, List.getElem?_set_self (List.getElem?_eq_some_iff.mp hv).1]
    · intro q
      have hcount := count_set_add hv (some c) (some q)
      rw [handles, handles]
      simp only [List.count_singleton, beq_iff_eq, Option.some.injEq] at hcount ⊢
      omega
    · intro v' hv'
      exact List.getElem?_set_ne fun heq => hv' (congrArg MaskLocation.var heq)
  | slot x index =>
    obtain ⟨submasks, subname, hget, hentry⟩ := impl_slot_eq_some.mp hloc
    obtain ⟨refs, hget⟩ := MaskStore.exists_of_submasksAt hget
    obtain ⟨store', hwrite, -, hget'⟩ := ObjectHeap.write_of_isSome
      (⟨refs, submasks.set index (subname, c)⟩ : MaskImpl) (Option.isSome_of_eq_some hget)
    have hx : submasksAt store' x = some (submasks.set index (subname, c)) := by
      rw [submasksAt, hget', if_pos rfl, Option.map_some]
    have hne : ∀ y, y ≠ x → submasksAt store' y = submasksAt ms.store y := by
      intro y hy
      rw [submasksAt, hget', if_neg hy, submasksAt]
    refine ⟨{ ms with store := store' }, ?_, ?_, ?_, ?_, fun _ _ => rfl, ?_, ?_⟩
    · rw [MaskLocation.setImpl, hget, Option.bind_some]
      dsimp only
      rw [hentry, Option.bind_some, hwrite, Option.map_some]
    · exact impl_slot_eq_some.mpr ⟨_, subname, hx,
        List.getElem?_set_self (List.getElem?_eq_some_iff.mp hentry).1⟩
    · intro q
      have hincoming := ObjectHeap.incoming_write MaskImpl.children hwrite hget q
      have hchild : (submasks.map Prod.snd)[index]? = some p := by
        rw [List.getElem?_map, hentry, Option.map_some]
      have hcount := count_set_add hchild c q
      rw [MaskImpl.children, MaskImpl.children, List.map_set] at hincoming
      rw [handles, handles]
      dsimp only at hincoming ⊢
      omega
    · intro q
      rw [MaskStore.refsAt_of_write hwrite]
      split_ifs with hq
      · rw [hq, MaskStore.refsAt_of_get? hget]
      · rfl
    · intro y hy
      exact hne y fun heq => hy index (by rw [heq])
    · intro y submasks' hy
      by_cases hyx : y = x
      · subst hyx
        rw [MaskStore.submasksAt_of_get? hget, Option.some.injEq] at hy
        rw [← hy]
        exact ⟨_, hx, replaces_set hentry⟩
      · exact ⟨submasks', (hne y hyx).trans hy, Replaces.refl p c submasks'⟩

theorem makePrivate_privatized
    (h : Counted ms []) (hloc : loc.impl ms = some p) (hshared : 2 ≤ refsAt ms.store p) :
    ∃ ms' c, loc.makePrivate ms = some (ms', c) ∧ Privatized ms ms' loc p c := by
  obtain ⟨impl, hget⟩ := h.exists_of_impl hloc
  rw [MaskStore.refsAt_of_get? hget] at hshared
  obtain ⟨store', c, hprivate, hfresh, hrefs, hcopy, hone, hsame, hrefsAt⟩ :=
    makePrivate_spec h hget hshared
  have hne : ∀ {y : Addr} {impl : MaskImpl}, ms.store.get? y = some impl → y ≠ c := by
    rintro y impl hy rfl
    rw [hfresh] at hy
    cases hy
  have hloc' : loc.impl { ms with store := store' } = some p := by
    cases loc with
    | var v => exact hloc
    | slot x index =>
      obtain ⟨submasks, subname, hx, hentry⟩ := impl_slot_eq_some.mp hloc
      obtain ⟨refs, hgetx⟩ := MaskStore.exists_of_submasksAt hx
      exact impl_slot_eq_some.mpr ⟨submasks, subname, (hsame x (hne hgetx)).trans hx, hentry⟩
  obtain ⟨ms', hset, himpl, hhandles, hrefs', hvars, hsubmasks, hreplaces⟩ :=
    setImpl_spec hloc' c
  have hsubmasksNone : submasksAt ms.store c = none := MaskStore.submasksAt_of_none hfresh
  have hcopy' : submasksAt ms'.store c = some impl.submasks := by
    -- the location is not in the copy
    refine (hsubmasks c ?_).trans hcopy
    rintro index rfl
    obtain ⟨submasks, subname, hx, -⟩ := impl_slot_eq_some.mp hloc
    rw [hsubmasksNone] at hx
    cases hx
  refine ⟨ms', c, ?_, ?_⟩
  · rw [MaskLocation.makePrivate, hloc, Option.bind_some, hprivate, Option.bind_some, hset,
      Option.map_some]
  · have hrefs_eq : ∀ q, refsAt ms'.store q = ms'.handles q := by
      intro q
      have hq := hrefs q
      have hq' := hhandles q
      rw [hrefs' q]
      change refsAt store' q = _
      change ms'.handles q + _ = handles ⟨store', ms.vars⟩ q + _ at hq'
      omega
    refine
      { counted := ⟨fun q => by rw [hrefs_eq, List.count_nil, Nat.add_zero], ?_⟩
        fresh := hfresh
        impl_eq := himpl
        unshared := ?_
        vars_eq := hvars
        copy_eq := hcopy'.trans (MaskStore.submasksAt_of_get? hget).symm
        submasksAt_eq := ?_
        replaces := ?_
        refsAt_eq := ?_ }
    · intro y submasks hy
      by_cases hyc : y = c
      · rw [hyc, hcopy', Option.some.injEq] at hy
        rw [← hy]
        exact h.names_nodup p _ (MaskStore.submasksAt_of_get? hget)
      · by_cases hyloc : ∀ index, loc ≠ .slot y index
        · rw [hsubmasks y hyloc, hsame y hyc] at hy
          exact h.names_nodup y submasks hy
        · push Not at hyloc
          obtain ⟨index, rfl⟩ := hyloc
          obtain ⟨submasks0, subname, hy0, -⟩ := impl_slot_eq_some.mp hloc
          obtain ⟨submasks1, hy1, hreplace⟩ :=
            hreplaces y submasks0 ((hsame y hyc).trans hy0)
          rw [hy, Option.some.injEq] at hy1
          rw [hy1, hreplace.names_eq]
          exact h.names_nodup y submasks0 hy0
    · exact (hrefs' c).trans hone
    · intro y hyc hyloc
      exact (hsubmasks y hyloc).trans (hsame y hyc)
    · intro y submasks hy
      obtain ⟨refs, hgety⟩ := MaskStore.exists_of_submasksAt hy
      exact hreplaces y submasks ((hsame y (hne hgety)).trans hy)
    · intro y hyp hyc hchild
      rw [hrefs', hrefsAt y hyp hyc (hchild _ (MaskStore.submasksAt_of_get? hget))]

end MakePrivate

/-- The paths of all variables are as before. -/
structure SamePaths (a : Nat) (ms ms' : Masks) : Prop where
  others : SameFor a ms ms'
  own : ∀ p, ms.vars[a]? = some (some p) → ∃ p', ms'.vars[a]? = some (some p') ∧
    ∀ name, Has ms'.store p' name ↔ Has ms.store p name

theorem SamePaths.refl (a : Nat) (ms : Masks) : SamePaths a ms ms :=
  ⟨SameFor.refl a ms, fun p hp => ⟨p, hp, fun _ => Iff.rfl⟩⟩

theorem SamePaths.trans
    {a : Nat} {ms ms' ms'' : Masks} (h : SamePaths a ms ms') (h' : SamePaths a ms' ms'') :
    SamePaths a ms ms'' := by
  refine ⟨h.others.trans h'.others, ?_⟩
  intro p hp
  obtain ⟨p', hp', hhas⟩ := h.own p hp
  obtain ⟨p'', hp'', hhas'⟩ := h'.own p' hp'
  exact ⟨p'', hp'', fun name => (hhas' name).trans (hhas name)⟩

section Privatized

variable {ms ms' : Masks} {a : Nat} {indicies indicies' : List Nat}
variable {name name' : MistParamNameAbs} {locs rest : List MaskLocation}
variable {loc loc' : MaskLocation} {p c x y r : Addr} {submasks submasks' : List (Str × Addr)}

theorem Replaces.find? (h : Replaces p c submasks submasks') (subname : Str) :
    ((submasks.find? fun entry => entry.1 = subname) = none ∧
      (submasks'.find? fun entry => entry.1 = subname) = none) ∨
    ∃ entry entry', (submasks.find? fun entry => entry.1 = subname) = some entry ∧
      (submasks'.find? fun entry => entry.1 = subname) = some entry' ∧
      (entry'.2 = entry.2 ∨ entry.2 = p ∧ entry'.2 = c) := by
  induction h with
  | nil => exact Or.inl ⟨rfl, rfl⟩
  | @cons entry entry' submasks submasks' hentry _ ih =>
    by_cases hname : entry.1 = subname
    · refine Or.inr ⟨entry, entry', ?_, ?_, hentry.2⟩
      · rw [List.find?_cons_of_pos (by simpa using hname)]
      · rw [List.find?_cons_of_pos (by simpa [hentry.1] using hname)]
    · rw [List.find?_cons_of_neg (by simpa using hname),
        List.find?_cons_of_neg (by simpa [hentry.1] using hname)]
      exact ih

section

variable (h : Privatized ms ms' loc p c)
include h

theorem Privatized.ne_of_pos (hcounted : Counted ms []) (hy : 0 < ms.handles y) :
    y ≠ c := by
  rintro rfl
  obtain ⟨impl, hget, -⟩ := hcounted.exists_of_pos (p := y) (Nat.add_pos_left hy _)
  rw [h.fresh] at hget
  cases hget

theorem Privatized.impl_of_ne (hloc : loc.impl ms = some p)
    (hx : loc'.impl ms = some x) (hne : x ≠ p) :
    loc'.impl ms' = some x := by
  cases loc' with
  | var v =>
    rw [impl_var_eq_some] at hx ⊢
    rw [h.vars_eq v ?_, hx]
    rintro rfl
    rw [impl_var_eq_some, hx] at hloc
    cases hloc
    exact hne rfl
  | slot y index =>
    obtain ⟨submasks, subname, hget, hentry⟩ := impl_slot_eq_some.mp hx
    obtain ⟨submasks', hget', hreplaces⟩ := h.replaces y submasks hget
    obtain ⟨q', hentry', hq'⟩ := hreplaces.getElem? hentry
    rcases hq' with rfl | ⟨heq, -⟩
    · exact impl_slot_eq_some.mpr ⟨submasks', subname, hget', hentry'⟩
    · exact absurd heq hne

theorem Privatized.stack (hcounted : Counted ms []) (hloc : loc.impl ms = some p)
    (hshared : 2 ≤ refsAt ms.store p) (hstack : Stack ms ms.Unshared a indicies name locs loc) :
    Stack ms' ms'.Unshared a indicies name locs loc := by
  apply hstack.transport
  · intro indicies' name' locs' loc' x hstack' hx hunshared
    have hxp : x ≠ p := by
      rintro rfl
      unfold Unshared at hunshared
      omega
    refine ⟨h.impl_of_ne hloc hx hxp, ?_⟩
    rw [Unshared, h.refsAt_eq x hxp (h.ne_of_pos hcounted (handles_pos_of_impl hx)) ?_]
    · exact hunshared
    · -- a pointer in the original would be another mask with `x`
      intro submasks hget hchild
      obtain ⟨entry, hentry, rfl⟩ := List.mem_map.mp hchild
      obtain ⟨index, hindex⟩ := List.mem_iff_getElem?.mp hentry
      have hslot : (MaskLocation.slot p index).impl ms = some entry.2 :=
        impl_slot_eq_some.mpr ⟨submasks, entry.1, hget, hindex⟩
      rw [← hcounted.loc_unique hunshared hx hslot] at hstack'
      obtain ⟨_, _, _, _, _, -, -, hp, -⟩ := hstack'.holder
      unfold Unshared at hp
      omega
  · intro x submasks index entry _ hget hindex
    obtain ⟨submasks', hget', hreplaces⟩ := h.replaces x submasks hget
    obtain ⟨q', hindex', -⟩ := hreplaces.getElem? hindex
    exact ⟨submasks', q', hget', hindex'⟩

theorem Privatized.submasksAt_of_descend (hcounted : Counted ms [])
    (hstack : Stack ms ms.Unshared a indicies name locs loc) {v : Nat}
    (hv : ms.vars[v]? = some (some r)) (hy : MaskStore.descend ms.store r name' = some y)
    (hname : v ≠ a ∨ name.length ≤ name'.length) :
    submasksAt ms'.store y = submasksAt ms.store y := by
  apply h.submasksAt_eq y (h.ne_of_pos hcounted (handles_pos_of_descend hv hy))
  rintro index rfl
  obtain ⟨indicies1, name1, locs1, loc1, subname, hstack1, hloc1, hunshared, rfl⟩ := hstack.holder
  obtain ⟨hva, rfl⟩ := hstack1.unique hcounted hloc1 hunshared hv hy
  rcases hname with hne | hlength
  · exact hne hva
  · rw [List.length_append, List.length_singleton] at hlength
    omega

theorem Privatized.samePaths (hcounted : Counted ms []) (hloc : loc.impl ms = some p)
    (hstack : Stack ms ms.Unshared a indicies name locs loc) :
    SamePaths a ms ms' := by
  refine ⟨⟨?_, ?_⟩, ?_⟩
  · intro v hv
    apply h.vars_eq v
    rintro rfl
    exact hv hstack.eq_of_var
  · intro v r name' y hv hr hy
    exact h.submasksAt_of_descend hcounted hstack hr hy (Or.inl hv)
  · intro p0 hp0
    have hrelated : ∀ name, ∀ q q', (q' = q ∧ 0 < ms.handles q) ∨ (q = p ∧ q' = c) →
        (Has ms'.store q' name ↔ Has ms.store q name) := by
      intro name q q' hq
      refine MaskStore.has_iff_of_related
        (fun q q' => (q' = q ∧ 0 < ms.handles q) ∨ (q = p ∧ q' = c)) ?_ hq name
      rintro q q' (⟨rfl, hpos⟩ | ⟨rfl, rfl⟩) subname
      · obtain ⟨impl, hget, -⟩ := hcounted.exists_of_pos (Nat.add_pos_left hpos _)
        have hsubmasks := MaskStore.submasksAt_of_get? hget
        obtain ⟨submasks', hsubmasks', hreplaces⟩ := h.replaces _ _ hsubmasks
        rw [child, hsubmasks, child, hsubmasks', Option.bind_some, Option.bind_some]
        rcases hreplaces.find? subname with ⟨hnone, hnone'⟩ | ⟨entry, entry', he, he', hrel⟩
        · left
          rw [hnone, hnone']
          exact ⟨rfl, rfl⟩
        · right
          refine ⟨entry.2, entry'.2, by rw [he, Option.map_some], by rw [he', Option.map_some], ?_⟩
          rcases hrel with heq | hpc
          · exact Or.inl ⟨heq, handles_pos_of_child hsubmasks (List.mem_of_find?_eq_some he)⟩
          · exact Or.inr hpc
      · rw [child, child, h.copy_eq, ← child]
        cases hchild : child ms.store q subname with
        | none => exact Or.inl ⟨rfl, rfl⟩
        | some z =>
          obtain ⟨submasks, hget, hmem⟩ := MaskStore.exists_of_child hchild
          exact Or.inr ⟨z, z, rfl, rfl, Or.inl ⟨rfl, handles_pos_of_child hget hmem⟩⟩
    by_cases hvar : loc = .var a
    · subst hvar
      rw [impl_var_eq_some, hp0] at hloc
      cases hloc
      exact ⟨c, impl_var_eq_some.mp h.impl_eq, fun name => hrelated name _ _ (Or.inr ⟨rfl, rfl⟩)⟩
    · exact ⟨p0, (h.vars_eq a hvar).trans hp0,
        fun name => hrelated name _ _ (Or.inl ⟨rfl, handles_pos_of_var hp0⟩)⟩

end

/-- The stack is unshared up to its top, and no paths have changed. -/
structure Prepared (ms ms' : Masks) (a : Nat) (indicies : List Nat) (name : MistParamNameAbs)
    (maskStack : List MaskLocation) : Prop where
  counted : Counted ms' []
  same : SamePaths a ms ms'
  top : ∃ locs loc x, Stack ms' ms'.Unshared a indicies name locs loc ∧
    loc.impl ms' = some x ∧ ms'.Unshared x ∧ maskStack = locs ++ [loc]

theorem Prepared.of_samePaths
    {ms0 : Masks} {maskStack : List MaskLocation} (h0 : SamePaths a ms0 ms)
    (h : Prepared ms ms' a indicies name maskStack) :
    Prepared ms0 ms' a indicies name maskStack :=
  ⟨h.counted, h0.trans h.same, h.top⟩

/-- The shared implementations on the path are replaced by copies, and other masks stay. -/
theorem makePrivateFrom_spec
    (hcounted : Counted ms []) (hstack : Stack ms ms.Unshared a indicies name locs loc)
    (hloc : loc.impl ms = some p) (hshared : 2 ≤ refsAt ms.store p)
    (hbelow : Below ms.store p indicies' name' rest) :
    ∃ ms' stack, makePrivateFrom ms loc rest indicies' = some (ms', stack) ∧
      Prepared ms ms' a (indicies ++ indicies') (name ++ name') (locs ++ stack) := by
  induction rest generalizing ms indicies name locs loc p indicies' name' with
  | nil =>
    obtain ⟨ms1, c, hprivate, h⟩ := makePrivate_privatized hcounted hloc hshared
    cases hbelow
    refine ⟨ms1, [loc], ?_, h.counted, h.samePaths hcounted hloc hstack, locs, loc, c, ?_,
      h.impl_eq, h.unshared, rfl⟩
    · rw [makePrivateFrom, hprivate, Option.map_some]
    · rw [List.append_nil, List.append_nil]
      exact h.stack hcounted hloc hshared hstack
  | cons loc' rest ih =>
    obtain ⟨ms1, c, hprivate, h⟩ := makePrivate_privatized hcounted hloc hshared
    cases hbelow with
    | @cons p q submasks index subname indicies' name' _ hget hentry hbelow =>
      have hstack1 := h.stack hcounted hloc hshared hstack
      obtain ⟨r, hr⟩ := hstack.root hloc
      have hdescend := hstack.descend hcounted hloc hr
      have hsame : ∀ name1 y, MaskStore.descend ms.store p name1 = some y →
          submasksAt ms1.store y = submasksAt ms.store y := by
        intro name1 y hy
        have hy' : MaskStore.descend ms.store r (name ++ name1) = some y := by
          rw [MaskStore.descend_append, hdescend, Option.bind_some, hy]
        refine h.submasksAt_of_descend hcounted hstack hr hy' (Or.inr ?_)
        rw [List.length_append]
        omega
      -- the next mask of the stack is in the copy now
      have hget1 : submasksAt ms1.store c = some submasks := h.copy_eq.trans hget
      have hstack2 := Stack.slot hstack1 h.impl_eq h.unshared hget1 hentry
      have hloc2 : (MaskLocation.slot c index).impl ms1 = some q :=
        impl_slot_eq_some.mpr ⟨submasks, subname, hget1, hentry⟩
      have hshared2 : 2 ≤ refsAt ms1.store q := by
        have hslot : (MaskLocation.slot p index).impl ms1 = some q :=
          impl_slot_eq_some.mpr ⟨submasks, subname, (hsame [] p rfl).trans hget, hentry⟩
        have hpos := handles_pos_of_impl hslot
        have hrefs := h.counted.refs_eq q
        by_contra hlt
        have hone : ms1.Unshared q := by
          unfold Unshared
          omega
        have heq := h.counted.loc_unique hone hloc2 hslot
        rw [MaskLocation.slot.injEq] at heq
        exact h.ne_of_pos hcounted (handles_pos_of_impl hloc) heq.1
      have hbelow2 : Below ms1.store q indicies' name' rest := by
        apply hbelow.transport hcounted.names_nodup
        intro name1 y hy
        refine hsame (subname :: name1) y ?_
        rw [MaskStore.descend, MaskStore.child_of_mem hget (hcounted.names_nodup p _ hget)
          (List.mem_of_getElem? hentry), Option.bind_some, hy]
      obtain ⟨ms', stack, hrest, hprepared⟩ :=
        ih h.counted hstack2 hloc2 hshared2 hbelow2
      refine ⟨ms', loc :: stack, ?_, ?_⟩
      · rw [makePrivateFrom, hprivate, Option.bind_some, hrest, Option.map_some]
      · rw [List.append_assoc, List.append_assoc, List.append_assoc, List.singleton_append,
          List.singleton_append, List.singleton_append] at hprepared
        exact hprepared.of_samePaths (h.samePaths hcounted hloc hstack)

/-- The search for the first shared implementation goes up the unshared part. -/
theorem prepareStack_spec
    (hcounted : Counted ms []) (hstack : Stack ms ms.Unshared a indicies name locs loc)
    (hloc : loc.impl ms = some p) (hbelow : Below ms.store p indicies' name' rest) :
    ∃ ms' stack, prepareStack ms (loc :: rest) indicies' = some (ms', stack) ∧
      Prepared ms ms' a (indicies ++ indicies') (name ++ name') (locs ++ stack) := by
  induction rest generalizing indicies name locs loc p indicies' name' with
  | nil =>
    obtain ⟨impl, hget⟩ := hcounted.exists_of_impl hloc
    have hrefs := MaskStore.refsAt_of_get? hget
    rw [prepareStack, hloc, Option.bind_some, hget, Option.bind_some]
    split_ifs with hone
    · have hpos := handles_pos_of_impl hloc
      have heq := hcounted.refs_eq p
      exact makePrivateFrom_spec hcounted hstack hloc (by omega) hbelow
    · cases hbelow
      refine ⟨ms, [loc], rfl, hcounted, SamePaths.refl a ms, locs, loc, p, ?_, hloc,
        hrefs.trans (not_not.mp hone), rfl⟩
      rw [List.append_nil, List.append_nil]
      exact hstack
  | cons loc' rest ih =>
    obtain ⟨impl, hget⟩ := hcounted.exists_of_impl hloc
    have hrefs := MaskStore.refsAt_of_get? hget
    rw [prepareStack, hloc, Option.bind_some, hget, Option.bind_some]
    split_ifs with hone
    · have hpos := handles_pos_of_impl hloc
      have heq := hcounted.refs_eq p
      exact makePrivateFrom_spec hcounted hstack hloc (by omega) hbelow
    · cases hbelow with
      | @cons p q submasks index subname indicies' name' _ hsubmasks hentry hbelow =>
        have hstack' := Stack.slot hstack hloc (hrefs.trans (not_not.mp hone)) hsubmasks hentry
        have hloc' : (MaskLocation.slot p index).impl ms = some q :=
          impl_slot_eq_some.mpr ⟨submasks, subname, hsubmasks, hentry⟩
        obtain ⟨ms', stack, hrest, hprepared⟩ := ih hstack' hloc' hbelow
        refine ⟨ms', loc :: stack, ?_, ?_⟩
        · rw [List.tail_cons, hrest, Option.map_some]
        · rw [List.append_assoc, List.append_assoc, List.append_assoc, List.singleton_append,
            List.singleton_append, List.singleton_append] at hprepared
          exact hprepared

/-- **`prepareForModify`.**  The stack of the modifier becomes unshared, and no mask gets
other paths. -/
theorem prepareForModify_spec
    {ok : Addr → Prop} (hcounted : Counted ms []) (hstack : Stack ms ok a indicies name locs loc)
    (hloc : loc.impl ms = some x) :
    ∃ ms' maskStack,
      Modifier.prepareForModify ms ⟨locs ++ [loc], indicies⟩ = some (ms', ⟨maskStack, indicies⟩) ∧
      Prepared ms ms' a indicies name maskStack := by
  obtain ⟨p, rest, hroot, hbelow, hlocs⟩ := hstack.fromBottom hloc (.nil x)
  obtain ⟨ms', stack, hprepare, hprepared⟩ :=
    prepareStack_spec hcounted .var (impl_var_eq_some.mpr hroot) hbelow
  rw [List.append_nil] at hprepare hprepared
  rw [List.append_nil] at hprepared
  refine ⟨ms', stack, ?_, hprepared⟩
  rw [Modifier.prepareForModify, if_neg (by simp)]
  dsimp only
  rw [hlocs, hprepare, Option.map_some]

end Privatized

end Masks
end Mist
end KedrAux
