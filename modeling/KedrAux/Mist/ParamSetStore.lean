import KedrAux.Lib.ObjectHeap
import KedrAux.Mist.ParamSet

/-!
# Parameter sets as objects

The objects of the class `ParamSet` with their pointers (`mist_param_set.cpp`): deletion,
copy constructor and assignment.  A parameter set owns the sets in its map.  The use of a
deleted object fails, and so does its second deletion.

The recursion of the destructor and the copy constructor has a limit.  The pointers to the
copies are stored together when all of them are made: nobody sees the new object before.
-/

namespace KedrAux
namespace Mist

abbrev Addr := Nat

/-- The map `subsets`, for pointers or for whole sets.  A vector has a first element. -/
abbrev Subsets (α : Type) := List (Str × α × List α)

/-- All elements, in the order of the loops over the map and its vectors. -/
def Subsets.elems {α : Type} (subsets : Subsets α) : List α :=
  subsets.flatMap fun entry => entry.2.1 :: entry.2.2

structure ParamSetObject where
  value : Str
  subsets : Subsets Addr
deriving DecidableEq

abbrev ParamSetStore := ObjectHeap ParamSetObject

namespace ParamSetStore

def deleteAll (delete : ParamSetStore → Addr → Option ParamSetStore) :
    ParamSetStore → List Addr → Option ParamSetStore
  | store, [] => some store
  | store, p :: ps => (delete store p).bind fun store => deleteAll delete store ps

def deleteSet : (limit : Nat) → ParamSetStore → Addr → Option ParamSetStore
  | 0, _, _ => none
  | limit + 1, store, p =>
    (store.get? p).bind fun object =>
      (deleteAll (deleteSet limit) store (Subsets.elems object.subsets)).bind fun store =>
        store.free p

/-- The loop over a vector, which replaces the pointers. -/
def replaceVector (copy : ParamSetStore → Addr → Option (ParamSetStore × Addr)) :
    ParamSetStore → List Addr → Option (ParamSetStore × List Addr)
  | store, [] => some (store, [])
  | store, p :: ps =>
    (copy store p).bind fun r =>
      (replaceVector copy r.1 ps).map fun r' => (r'.1, r.2 :: r'.2)

/-- The loop over the map. -/
def replaceSubsets (copy : ParamSetStore → Addr → Option (ParamSetStore × Addr)) :
    ParamSetStore → Subsets Addr → Option (ParamSetStore × Subsets Addr)
  | store, [] => some (store, [])
  | store, (name, p, ps) :: subsets =>
    (copy store p).bind fun r =>
      (replaceVector copy r.1 ps).bind fun r' =>
        (replaceSubsets copy r'.1 subsets).map fun r'' => (r''.1, (name, r.2, r'.2) :: r''.2)

/-- `ParamSet(const ParamSet&)`: the new object is a member-wise copy, and then its
pointers are replaced by those to copies. -/
def copySet : (limit : Nat) → ParamSetStore → Addr → Option (ParamSetStore × Addr)
  | 0, _, _ => none
  | limit + 1, store, p =>
    (store.get? p).bind fun object =>
      (replaceSubsets (copySet limit) (store.alloc object) object.subsets).bind fun r =>
        (r.1.write store.next { object with subsets := r.2 }).map fun store' =>
          (store', store.next)

/-- `operator=` for the objects at `a` and `b`.  The last loop is that of the source: it
deletes the sets whose pointers have been copied. -/
def assign (limit : Nat) (store : ParamSetStore) (a b : Addr) : Option ParamSetStore :=
  (store.get? a).bind fun object =>
    (deleteAll (deleteSet limit) store (Subsets.elems object.subsets)).bind fun store =>
      (store.get? b).bind fun paramSet =>
        (store.write a paramSet).bind fun store =>
          deleteAll (deleteSet limit) store (Subsets.elems paramSet.subsets)

/-- The same names with as many elements. -/
def SameShape {α β : Type} (subsets : Subsets α) (subsets' : Subsets β) : Prop :=
  List.Forall₂ (fun entry entry' => entry.1 = entry'.1 ∧ entry.2.2.length = entry'.2.2.length)
    subsets subsets'

/-- The objects at the addresses are the roots of the given parameter sets; `owned` are the
addresses of all their objects. -/
inductive ForestAt (store : ParamSetStore) :
    List Addr → List ParamSet → (owned : List Addr) → Prop
  | nil : ForestAt store [] [] []
  | cons {p : Addr} {value : Str} {subsets : Subsets Addr} {sets : Subsets ParamSet}
      {ps : List Addr} {ts : List ParamSet} {owned owned' : List Addr} :
      store.get? p = some ⟨value, subsets⟩ → SameShape subsets sets →
      ForestAt store (Subsets.elems subsets) (Subsets.elems sets) owned →
      ForestAt store ps ts owned' →
      ForestAt store (p :: ps) (.mk value sets :: ts) (p :: owned ++ owned')

/-- The parameter tree with the root at `p`: no object has two owners. -/
def TreeAt (store : ParamSetStore) (p : Addr) (paramSet : ParamSet) (owned : List Addr) : Prop :=
  ForestAt store [p] [paramSet] owned ∧ owned.Nodup

/-- The objects that can be reached through the pointers. -/
inductive Reachable (store : ParamSetStore) (p : Addr) : Addr → Prop
  | root : Reachable store p p
  | step {q r : Addr} {object : ParamSetObject} :
      Reachable store p q → store.get? q = some object → r ∈ Subsets.elems object.subsets →
      Reachable store p r

section Forests

variable {store store' : ParamSetStore} {ps owned : List Addr} {ts : List ParamSet}

section

variable (h : ForestAt store ps ts owned)
include h

theorem ForestAt.isSome {q : Addr} (hq : q ∈ owned) :
    (store.get? q).isSome := by
  induction h with
  | nil => exact absurd hq (List.not_mem_nil)
  | cons hget _ _ _ ih ih' =>
    rw [List.cons_append, List.mem_cons, List.mem_append] at hq
    rcases hq with rfl | hq | hq
    · rw [hget]
      rfl
    · exact ih hq
    · exact ih' hq

theorem ForestAt.lt_next {q : Addr} (hq : q ∈ owned) :
    q < store.next := by
  obtain ⟨object, hobject⟩ := Option.isSome_iff_exists.mp (h.isSome hq)
  exact ObjectHeap.lt_next hobject

theorem ForestAt.frame (hsame : ∀ q ∈ owned, store'.get? q = store.get? q) :
    ForestAt store' ps ts owned := by
  induction h with
  | nil => exact .nil
  | cons hget hshape _ _ ih ih' =>
    refine .cons ?_ hshape (ih ?_) (ih' ?_)
    · rw [hsame _ (by simp), hget]
    · exact fun q hq => hsame q (by simp [hq])
    · exact fun q hq => hsame q (by simp [hq])

theorem ForestAt.of_extends (hext : store.Extends store') :
    ForestAt store' ps ts owned :=
  h.frame fun q hq => hext.get?_eq q (h.lt_next hq)

theorem ForestAt.roots {q : Addr} (hq : q ∈ ps) : q ∈ owned := by
  induction h with
  | nil => exact hq
  | cons _ _ _ _ _ ih' =>
    rw [List.cons_append, List.mem_cons, List.mem_append]
    rcases List.mem_cons.mp hq with rfl | hq
    · exact Or.inl rfl
    · exact Or.inr (Or.inr (ih' hq))

theorem ForestAt.closed {q r : Addr} {object : ParamSetObject}
    (hq : q ∈ owned) (hget : store.get? q = some object)
    (hr : r ∈ Subsets.elems object.subsets) :
    r ∈ owned := by
  induction h with
  | nil => exact absurd hq (List.not_mem_nil)
  | cons hroot _ hsub _ ih ih' =>
    rw [List.cons_append, List.mem_cons, List.mem_append] at hq ⊢
    rcases hq with rfl | hq | hq
    · rw [hroot] at hget
      cases hget
      exact Or.inr (Or.inl (hsub.roots hr))
    · exact Or.inr (Or.inl (ih hq))
    · exact Or.inr (Or.inr (ih' hq))

end

theorem Reachable.mem
    {p q : Addr} (hq : Reachable store p q) (h : ForestAt store ps ts owned) (hp : p ∈ owned) :
    q ∈ owned := by
  induction hq with
  | root => exact hp
  | step _ hget hr ih => exact h.closed ih hget hr

end Forests

end ParamSetStore

end Mist
end KedrAux
