import KedrAux.Mist.MaskStore

/-!
# Reference counts of masks

The counter of every implementation is the number of masks that have it.  Inside of the
functions some masks are not stored anywhere: those that have been created or taken out of
a vector.  They are pending.
-/

namespace KedrAux
namespace Mist

variable {store store' : MaskStore} {p q : Addr} {impl : MaskImpl}

namespace MaskStore

def submasksAt (store : MaskStore) (p : Addr) : Option (List (Str × Addr)) :=
  (store.get? p).map MaskImpl.submasks

def refsAt (store : MaskStore) (p : Addr) : Nat :=
  (store.get? p).elim 0 MaskImpl.refs

section Vectors

theorem submasksAt_of_get? (h : store.get? p = some impl) :
    store.submasksAt p = some impl.submasks := by
  rw [submasksAt, h, Option.map_some]

theorem refsAt_of_get? (h : store.get? p = some impl) : store.refsAt p = impl.refs := by
  rw [refsAt, h]
  rfl

theorem exists_of_submasksAt
    {submasks : List (Str × Addr)} (h : store.submasksAt p = some submasks) :
    ∃ refs, store.get? p = some ⟨refs, submasks⟩ := by
  obtain ⟨impl, hget, rfl⟩ := Option.map_eq_some_iff.mp h
  exact ⟨impl.refs, hget⟩

theorem exists_of_refsAt_pos (h : 0 < store.refsAt p) : ∃ impl, store.get? p = some impl := by
  cases hget : store.get? p with
  | none =>
    rw [refsAt, hget] at h
    exact absurd h (lt_irrefl 0)
  | some impl => exact ⟨impl, rfl⟩

theorem pointers_eq_of_submasksAt (h : store'.submasksAt p = store.submasksAt p) :
    store'.pointers MaskImpl.children p = store.pointers MaskImpl.children p := by
  unfold submasksAt at h
  unfold ObjectHeap.pointers
  cases hget : store.get? p with
  | none =>
    rw [hget, Option.map_none, Option.map_eq_none_iff] at h
    rw [h]
  | some impl =>
    rw [hget, Option.map_some, Option.map_eq_some_iff] at h
    obtain ⟨impl', hget', hsubmasks⟩ := h
    rw [hget', Option.elim_some, Option.elim_some, MaskImpl.children, hsubmasks,
      MaskImpl.children]

/-- Only counters have changed. -/
structure SameVectors (store store' : MaskStore) : Prop where
  next_eq : store'.next = store.next
  submasksAt_eq : ∀ p, store'.submasksAt p = store.submasksAt p

theorem SameVectors.refl (store : MaskStore) : SameVectors store store :=
  ⟨rfl, fun _ => rfl⟩

variable {store'' : MaskStore}

theorem SameVectors.trans (h : SameVectors store store') (h' : SameVectors store' store'') :
    SameVectors store store'' :=
  ⟨h'.next_eq.trans h.next_eq, fun p => (h'.submasksAt_eq p).trans (h.submasksAt_eq p)⟩

theorem SameVectors.incoming_eq (h : SameVectors store store') (q : Addr) :
    store'.incoming MaskImpl.children q = store.incoming MaskImpl.children q :=
  ObjectHeap.incoming_congr _ h.next_eq
    (fun p => pointers_eq_of_submasksAt (h.submasksAt_eq p)) q

theorem sameVectors_of_write {refs : Nat} (h : store.get? p = some impl)
    (hwrite : store.write p { impl with refs := refs } = some store') :
    SameVectors store store' := by
  obtain ⟨-, hnext, hget⟩ := ObjectHeap.write_eq_some hwrite
  refine ⟨hnext, ?_⟩
  intro q
  rw [submasksAt, submasksAt, hget]
  split_ifs with hq
  · rw [hq, h]
    rfl
  · rfl

theorem refsAt_of_write (hwrite : store.write p impl = some store') (q : Addr) :
    store'.refsAt q = if q = p then impl.refs else store.refsAt q := by
  obtain ⟨-, -, hget⟩ := ObjectHeap.write_eq_some hwrite
  rw [refsAt, hget]
  split_ifs
  · rfl
  · rfl

/-- Implementations have been deleted, and of the others only counters have changed. -/
structure Shrinks (store store' : MaskStore) : Prop where
  next_eq : store'.next = store.next
  submasksAt_cases : ∀ p, store'.get? p = none ∨ store'.submasksAt p = store.submasksAt p

theorem Shrinks.refl (store : MaskStore) : Shrinks store store :=
  ⟨rfl, fun _ => Or.inr rfl⟩

theorem SameVectors.shrinks (h : SameVectors store store') : Shrinks store store' :=
  ⟨h.next_eq, fun p => Or.inr (h.submasksAt_eq p)⟩

theorem submasksAt_of_none (h : store.get? p = none) : store.submasksAt p = none := by
  rw [submasksAt, h, Option.map_none]

theorem get?_eq_none_of_submasksAt (h : store.submasksAt p = none) : store.get? p = none :=
  Option.map_eq_none_iff.mp h

theorem Shrinks.trans (h : Shrinks store store') (h' : Shrinks store' store'') :
    Shrinks store store'' := by
  refine ⟨h'.next_eq.trans h.next_eq, ?_⟩
  intro p
  rcases h'.submasksAt_cases p with hnone | heq
  · exact Or.inl hnone
  · rcases h.submasksAt_cases p with hnone | heq'
    · rw [submasksAt_of_none hnone] at heq
      exact Or.inl (get?_eq_none_of_submasksAt heq)
    · exact Or.inr (heq.trans heq')

theorem Shrinks.submasksAt_of_get? (h : Shrinks store store') (hget : store'.get? p = some impl) :
    store.submasksAt p = some impl.submasks := by
  rcases h.submasksAt_cases p with hnone | heq
  · rw [hnone] at hget
    cases hget
  · rw [← heq, MaskStore.submasksAt_of_get? hget]

def liveCount (store : MaskStore) : Nat :=
  ((Finset.range store.next).filter fun p => (store.get? p).isSome).card

theorem liveCount_le (store : MaskStore) : store.liveCount ≤ store.next :=
  (Finset.card_filter_le _ _).trans_eq (Finset.card_range _)

theorem Shrinks.liveCount_le (h : Shrinks store store') : store'.liveCount ≤ store.liveCount := by
  unfold liveCount
  rw [h.next_eq]
  apply Finset.card_le_card
  intro p hp
  rw [Finset.mem_filter] at hp ⊢
  refine ⟨hp.1, ?_⟩
  obtain ⟨impl, hget⟩ := Option.isSome_iff_exists.mp hp.2
  obtain ⟨refs, hget'⟩ := exists_of_submasksAt (h.submasksAt_of_get? hget)
  exact Option.isSome_of_eq_some hget'

theorem liveCount_of_free (h : store.free p = some store') :
    store'.liveCount < store.liveCount := by
  obtain ⟨hp, hnext, hget⟩ := ObjectHeap.free_eq_some h
  obtain ⟨impl, hpget⟩ := Option.isSome_iff_exists.mp hp
  unfold liveCount
  rw [hnext]
  apply Finset.card_lt_card
  rw [Finset.ssubset_iff_of_subset]
  · refine ⟨p, Finset.mem_filter.mpr ⟨Finset.mem_range.mpr (ObjectHeap.lt_next hpget), hp⟩, ?_⟩
    rw [Finset.mem_filter, hget, if_pos rfl]
    exact fun hmem => absurd hmem.2 Bool.false_ne_true
  · intro q hq
    rw [Finset.mem_filter, hget] at hq
    rw [Finset.mem_filter]
    refine ⟨hq.1, ?_⟩
    by_cases hqp : q = p
    · rw [if_pos hqp] at hq
      exact absurd hq.2 Bool.false_ne_true
    · rw [if_neg hqp] at hq
      exact hq.2

end Vectors

end MaskStore

open MaskStore (refsAt submasksAt SameVectors Shrinks)

namespace Masks

def handles (ms : Masks) (p : Addr) : Nat :=
  ms.vars.count (some p) + ms.store.incoming MaskImpl.children p

/-- Every counter is the number of masks, with the pending ones, and sibling names differ. -/
structure Counted (ms : Masks) (pending : List Addr) : Prop where
  refs_eq : ∀ p, refsAt ms.store p = ms.handles p + pending.count p
  names_nodup : ∀ p submasks, submasksAt ms.store p = some submasks →
    (submasks.map Prod.fst).Nodup

section Counting

variable {ms : Masks} {vars : List (Option Addr)}
variable {pending pending' ps : List Addr}

theorem Counted.of_count
    (h : Counted ms pending) (hcount : ∀ q, pending'.count q = pending.count q) :
    Counted ms pending' :=
  ⟨fun q => by rw [h.refs_eq, hcount], h.names_nodup⟩

theorem Counted.exists_of_pos (h : Counted ms pending) (hpos : 0 < ms.handles p + pending.count p) :
    ∃ impl, ms.store.get? p = some impl ∧ impl.refs = ms.handles p + pending.count p := by
  rw [← h.refs_eq] at hpos
  obtain ⟨impl, hget⟩ := MaskStore.exists_of_refsAt_pos hpos
  exact ⟨impl, hget, by rw [← h.refs_eq, MaskStore.refsAt_of_get? hget]⟩

variable {submasks : List (Str × Addr)}

theorem handles_pos_of_child {entry : Str × Addr} (hget : submasksAt ms.store p = some submasks)
    (hentry : entry ∈ submasks) :
    0 < ms.handles entry.2 := by
  obtain ⟨refs, hget⟩ := MaskStore.exists_of_submasksAt hget
  have hincoming := ObjectHeap.incoming_pos MaskImpl.children hget
    (List.mem_map_of_mem (f := Prod.snd) hentry)
  unfold handles
  omega

theorem handles_pos_of_var {v : Nat} (hv : ms.vars[v]? = some (some p)) : 0 < ms.handles p := by
  have hcount := List.count_pos_iff.mpr (List.mem_of_getElem? hv)
  unfold handles
  omega

theorem SameVectors.handles_eq (h : SameVectors store store') (q : Addr) :
    handles ⟨store', vars⟩ q = handles ⟨store, vars⟩ q := by
  rw [handles, handles, h.incoming_eq]

theorem SameVectors.names_nodup
    (h : SameVectors store store') (hnodup : Counted ⟨store, vars⟩ pending) :
    ∀ p submasks, submasksAt store' p = some submasks → (submasks.map Prod.fst).Nodup := by
  intro p submasks hget
  rw [h.submasksAt_eq] at hget
  exact hnodup.names_nodup p submasks hget

theorem ref_counted (h : Counted ⟨store, vars⟩ pending) (hp : (store.get? p).isSome) :
    ∃ store', MaskStore.ref store p = some store' ∧ SameVectors store store' ∧
      Counted ⟨store', vars⟩ (p :: pending) := by
  obtain ⟨impl, hget⟩ := Option.isSome_iff_exists.mp hp
  obtain ⟨store', hwrite, -, -⟩ :=
    ObjectHeap.write_of_isSome { impl with refs := impl.refs + 1 } hp
  have hsame := MaskStore.sameVectors_of_write hget hwrite
  refine ⟨store', ?_, hsame, ⟨?_, SameVectors.names_nodup hsame h⟩⟩
  · rw [MaskStore.ref, hget, Option.bind_some, hwrite]
  · intro q
    have hq := h.refs_eq q
    rw [SameVectors.handles_eq hsame, MaskStore.refsAt_of_write hwrite]
    by_cases hqp : q = p
    · subst hqp
      rw [MaskStore.refsAt_of_get? hget] at hq
      rw [if_pos rfl, List.count_cons_self]
      change impl.refs + 1 = _
      omega
    · rw [if_neg hqp, List.count_cons_of_ne (Ne.symm hqp)]
      exact hq

theorem refAll_counted
    (h : Counted ⟨store, vars⟩ pending) (hps : ∀ p ∈ ps, (store.get? p).isSome) :
    ∃ store', MaskStore.refAll store ps = some store' ∧ SameVectors store store' ∧
      Counted ⟨store', vars⟩ (ps ++ pending) := by
  induction ps generalizing store pending with
  | nil => exact ⟨store, rfl, MaskStore.SameVectors.refl store, h⟩
  | cons p ps ih =>
    obtain ⟨store1, href, hsame1, hcounted1⟩ := ref_counted h (hps p List.mem_cons_self)
    obtain ⟨store2, hrefs, hsame2, hcounted2⟩ := ih hcounted1 (by
      intro q hq
      have hlive := hps q (List.mem_cons_of_mem _ hq)
      have heq := hsame1.submasksAt_eq q
      rw [Option.isSome_iff_exists] at hlive ⊢
      obtain ⟨impl, hget⟩ := hlive
      rw [MaskStore.submasksAt_of_get? hget] at heq
      obtain ⟨refs, hget'⟩ := MaskStore.exists_of_submasksAt heq
      exact ⟨_, hget'⟩)
    refine ⟨store2, ?_, hsame1.trans hsame2, hcounted2.of_count ?_⟩
    · rw [MaskStore.refAll, href, Option.bind_some, hrefs]
    · intro q
      rw [List.count_append, List.count_append, List.count_cons, List.count_cons]
      omega

theorem alloc_counted (hnodup : (submasks.map Prod.fst).Nodup)
    (h : Counted ⟨store, vars⟩ (submasks.map Prod.snd ++ pending)) :
    Counted ⟨store.alloc ⟨1, submasks⟩, vars⟩ (store.next :: pending) := by
  have hfresh : store.get? store.next = none := store.fresh _ le_rfl
  constructor
  · intro q
    have hq := h.refs_eq q
    rw [handles, List.count_append] at hq
    rw [handles, ObjectHeap.incoming_alloc, MaskStore.refsAt, ObjectHeap.get?_alloc]
    by_cases hqn : q = store.next
    · subst hqn
      rw [MaskStore.refsAt, hfresh] at hq
      rw [if_pos rfl, List.count_cons_self]
      simp only [Option.elim_none, Option.elim_some, MaskImpl.children] at hq ⊢
      omega
    · rw [if_neg hqn, List.count_cons_of_ne (Ne.symm hqn)]
      rw [MaskStore.refsAt] at hq
      simp only [MaskImpl.children] at hq ⊢
      omega
  · intro q submasks' hget
    rw [submasksAt, ObjectHeap.get?_alloc] at hget
    split_ifs at hget with hq
    · rw [Option.map_some, Option.some.injEq] at hget
      rw [← hget]
      exact hnodup
    · exact h.names_nodup q submasks' hget

theorem write_counted (h : Counted ⟨store, vars⟩ (p :: pending)) (hget : store.get? p = some impl)
    (hwrite : store.write p { impl with refs := impl.refs - 1 } = some store') :
    Counted ⟨store', vars⟩ pending := by
  have hsame := MaskStore.sameVectors_of_write hget hwrite
  refine ⟨?_, SameVectors.names_nodup hsame h⟩
  intro q
  have hq := h.refs_eq q
  rw [SameVectors.handles_eq hsame, MaskStore.refsAt_of_write hwrite]
  by_cases hqp : q = p
  · subst hqp
    rw [MaskStore.refsAt_of_get? hget, List.count_cons_self] at hq
    rw [if_pos rfl]
    change impl.refs - 1 = _
    omega
  · rw [List.count_cons_of_ne (Ne.symm hqp)] at hq
    rw [if_neg hqp]
    exact hq

theorem free_counted (h : Counted ⟨store, vars⟩ (p :: pending)) (hget : store.get? p = some impl)
    (hrefs : impl.refs = 1) (hfree : store.free p = some store') :
    Counted ⟨store', vars⟩ (impl.children ++ pending) ∧ Shrinks store store' := by
  obtain ⟨-, hnext, hget'⟩ := ObjectHeap.free_eq_some hfree
  have hshrinks : Shrinks store store' := by
    refine ⟨hnext, ?_⟩
    intro q
    by_cases hqp : q = p
    · left
      rw [hget', if_pos hqp]
    · right
      rw [submasksAt, hget', if_neg hqp, submasksAt]
  refine ⟨⟨?_, ?_⟩, hshrinks⟩
  · intro q
    have hq := h.refs_eq q
    have hincoming := ObjectHeap.incoming_free MaskImpl.children hfree hget q
    rw [handles] at hq
    rw [handles, List.count_append, MaskStore.refsAt, hget']
    by_cases hqp : q = p
    · subst hqp
      rw [MaskStore.refsAt_of_get? hget, List.count_cons_self] at hq
      rw [if_pos rfl, Option.elim_none]
      dsimp only at hq ⊢
      omega
    · rw [List.count_cons_of_ne (Ne.symm hqp), MaskStore.refsAt] at hq
      rw [if_neg hqp]
      dsimp only at hq ⊢
      omega
  · intro q submasks hq
    obtain ⟨refs, hgetq⟩ := MaskStore.exists_of_submasksAt hq
    exact h.names_nodup q submasks (hshrinks.submasksAt_of_get? hgetq)

def Releases (unref : MaskStore → Addr → Option MaskStore) (vars : List (Option Addr))
    (bound : Nat) : Prop :=
  ∀ store p pending, Counted ⟨store, vars⟩ (p :: pending) → store.liveCount < bound →
    ∃ store', unref store p = some store' ∧ Counted ⟨store', vars⟩ pending ∧ Shrinks store store'

theorem unrefAll_counted {unref : MaskStore → Addr → Option MaskStore} {bound : Nat}
    (hunref : Releases unref vars bound) (h : Counted ⟨store, vars⟩ (ps ++ pending))
    (hlive : store.liveCount < bound) :
    ∃ store', MaskStore.unrefAll unref store ps = some store' ∧
      Counted ⟨store', vars⟩ pending ∧ Shrinks store store' := by
  induction ps generalizing store with
  | nil => exact ⟨store, rfl, h, MaskStore.Shrinks.refl store⟩
  | cons p ps ih =>
    obtain ⟨store1, hp, hcounted1, hshrinks1⟩ := hunref store p (ps ++ pending) h hlive
    obtain ⟨store2, hps, hcounted2, hshrinks2⟩ :=
      ih hcounted1 (hshrinks1.liveCount_le.trans_lt hlive)
    refine ⟨store2, ?_, hcounted2, hshrinks1.trans hshrinks2⟩
    rw [MaskStore.unrefAll, hp, Option.bind_some, hps]

theorem unrefRec_releases (limit : Nat) : Releases (MaskStore.unrefRec limit) vars limit := by
  induction limit with
  | zero => exact fun _ _ _ _ hlive => absurd hlive (Nat.not_lt_zero _)
  | succ limit ih =>
    intro store p pending h hlive
    obtain ⟨impl, hget, -⟩ := h.exists_of_pos (p := p) (by
      rw [List.count_cons_self]
      omega)
    dsimp only at hget
    by_cases hrefs : impl.refs = 1
    · obtain ⟨store1, hfree, -, -⟩ :=
        ObjectHeap.free_of_isSome (Option.isSome_of_eq_some hget)
      obtain ⟨hcounted1, hshrinks1⟩ := free_counted h hget hrefs hfree
      have hless := MaskStore.liveCount_of_free hfree
      obtain ⟨store2, hall, hcounted2, hshrinks2⟩ :=
        unrefAll_counted ih hcounted1 (by omega)
      refine ⟨store2, ?_, hcounted2, hshrinks1.trans hshrinks2⟩
      rw [MaskStore.unrefRec, hget, Option.bind_some, if_pos hrefs, hfree, Option.bind_some,
        hall]
    · obtain ⟨store1, hwrite, -, -⟩ := ObjectHeap.write_of_isSome
        { impl with refs := impl.refs - 1 } (Option.isSome_of_eq_some hget)
      refine ⟨store1, ?_, write_counted h hget hwrite,
        (MaskStore.sameVectors_of_write hget hwrite).shrinks⟩
      rw [MaskStore.unrefRec, hget, Option.bind_some, if_neg hrefs, hwrite]

theorem unref_counted (h : Counted ⟨store, vars⟩ (p :: pending)) :
    ∃ store', MaskStore.unref store p = some store' ∧ Counted ⟨store', vars⟩ pending ∧
      Shrinks store store' :=
  unrefRec_releases (store.next + 1) store p pending h
    (Nat.lt_succ_of_le store.liveCount_le)

theorem unrefAll_unref_counted (h : Counted ⟨store, vars⟩ (ps ++ pending)) :
    ∃ store', MaskStore.unrefAll MaskStore.unref store ps = some store' ∧
      Counted ⟨store', vars⟩ pending ∧ Shrinks store store' := by
  have hreleases : Releases MaskStore.unref vars (store.liveCount + 1) :=
    fun _ _ _ hcounted _ => unref_counted hcounted
  exact unrefAll_counted hreleases h (Nat.lt_succ_self _)

end Counting

end Masks

end Mist
end KedrAux
