import Mathlib.Tactic

/-!
# Heaps of objects

Objects behind addresses.  New objects get addresses that were never used before; an access
to a deleted object fails.
-/

universe u

/-- The objects, and the bound from which on the addresses are new. -/
structure ObjectHeap (α : Type u) where
  get? : Nat → Option α
  next : Nat
  fresh : ∀ p, next ≤ p → get? p = none

namespace ObjectHeap

variable {α : Type u}

def empty : ObjectHeap α where
  get? _ := none
  next := 0
  fresh _ _ := rfl

def alloc (heap : ObjectHeap α) (x : α) : ObjectHeap α where
  get? p := if p = heap.next then some x else heap.get? p
  next := heap.next + 1
  fresh p hp := by
    rw [if_neg (by omega)]
    exact heap.fresh p (by omega)

def write (heap : ObjectHeap α) (p : Nat) (x : α) : Option (ObjectHeap α) :=
  if h : (heap.get? p).isSome then
    some {
      get? := fun q => if q = p then some x else heap.get? q
      next := heap.next
      fresh := by
        intro q hq
        have hne : q ≠ p := by
          rintro rfl
          rw [heap.fresh q hq] at h
          cases h
        rw [if_neg hne]
        exact heap.fresh q hq }
  else none

def free (heap : ObjectHeap α) (p : Nat) : Option (ObjectHeap α) :=
  if (heap.get? p).isSome then
    some {
      get? := fun q => if q = p then none else heap.get? q
      next := heap.next
      fresh := by
        intro q hq
        split_ifs
        · rfl
        · exact heap.fresh q hq }
  else none

section Operations

variable {heap heap' : ObjectHeap α} {p : Nat} {x : α}

theorem lt_next (h : heap.get? p = some x) : p < heap.next := by
  by_contra hle
  rw [heap.fresh p (Nat.le_of_not_lt hle)] at h
  cases h

@[simp] theorem next_alloc (heap : ObjectHeap α) (x : α) : (heap.alloc x).next = heap.next + 1 :=
  rfl

@[simp] theorem get?_alloc (heap : ObjectHeap α) (x : α) (q : Nat) :
    (heap.alloc x).get? q = if q = heap.next then some x else heap.get? q :=
  rfl

@[simp] theorem get?_alloc_next (heap : ObjectHeap α) (x : α) :
    (heap.alloc x).get? heap.next = some x :=
  if_pos rfl

theorem get?_alloc_of_lt {q : Nat} (h : q < heap.next) : (heap.alloc x).get? q = heap.get? q :=
  if_neg h.ne

theorem write_of_isSome (x : α) (h : (heap.get? p).isSome) :
    ∃ heap', heap.write p x = some heap' ∧ heap'.next = heap.next ∧
      ∀ q, heap'.get? q = if q = p then some x else heap.get? q := by
  rw [write, dif_pos h]
  exact ⟨_, rfl, rfl, fun _ => rfl⟩

theorem write_eq_some (h : heap.write p x = some heap') :
    (heap.get? p).isSome ∧ heap'.next = heap.next ∧
      ∀ q, heap'.get? q = if q = p then some x else heap.get? q := by
  unfold write at h
  split_ifs at h with hp
  cases h
  exact ⟨hp, rfl, fun _ => rfl⟩

theorem free_of_isSome (h : (heap.get? p).isSome) :
    ∃ heap', heap.free p = some heap' ∧ heap'.next = heap.next ∧
      ∀ q, heap'.get? q = if q = p then none else heap.get? q := by
  rw [free, if_pos h]
  exact ⟨_, rfl, rfl, fun _ => rfl⟩

theorem free_eq_some (h : heap.free p = some heap') :
    (heap.get? p).isSome ∧ heap'.next = heap.next ∧
      ∀ q, heap'.get? q = if q = p then none else heap.get? q := by
  unfold free at h
  split_ifs at h with hp
  cases h
  exact ⟨hp, rfl, fun _ => rfl⟩

end Operations

/-- New objects have come and the old ones are as before. -/
structure Extends (heap heap' : ObjectHeap α) : Prop where
  next_le : heap.next ≤ heap'.next
  get?_eq : ∀ p, p < heap.next → heap'.get? p = heap.get? p

theorem Extends.refl (heap : ObjectHeap α) : heap.Extends heap :=
  ⟨le_rfl, fun _ _ => rfl⟩

theorem Extends.trans
    {heap heap' heap'' : ObjectHeap α} (h : heap.Extends heap') (h' : heap'.Extends heap'') :
    heap.Extends heap'' :=
  ⟨h.next_le.trans h'.next_le, fun p hp =>
    (h'.get?_eq p (hp.trans_le h.next_le)).trans (h.get?_eq p hp)⟩

theorem extends_alloc (heap : ObjectHeap α) (x : α) : heap.Extends (heap.alloc x) :=
  ⟨Nat.le_succ _, fun _ hp => get?_alloc_of_lt hp⟩

section Incoming

variable (children : α → List Nat) {heap heap' : ObjectHeap α} {p p' q : Nat} {x y : α}

def pointers (heap : ObjectHeap α) (p : Nat) : List Nat :=
  (heap.get? p).elim [] children

/-- The number of pointers to an address in all objects. -/
def incoming (heap : ObjectHeap α) (q : Nat) : Nat :=
  ∑ p ∈ Finset.range heap.next, (pointers children heap p).count q

theorem pointers_of_get? (h : heap.get? p = some x) : pointers children heap p = children x := by
  rw [pointers, h]
  rfl

theorem pointers_of_none (h : heap.get? p = none) : pointers children heap p = [] := by
  rw [pointers, h]
  rfl

theorem incoming_congr (hnext : heap'.next = heap.next)
    (h : ∀ p, pointers children heap' p = pointers children heap p) (q : Nat) :
    incoming children heap' q = incoming children heap q := by
  rw [incoming, incoming, hnext]
  exact Finset.sum_congr rfl fun p _ => by rw [h]

theorem incoming_of_eq (hp : p < heap.next) (hnext : heap'.next = heap.next)
    (h : ∀ r, r ≠ p → heap'.get? r = heap.get? r) (q : Nat) :
    incoming children heap' q + (pointers children heap p).count q =
      incoming children heap q + (pointers children heap' p).count q := by
  have hmem := Finset.mem_range.mpr hp
  have hrest : ∑ r ∈ (Finset.range heap.next).erase p, (pointers children heap' r).count q =
      ∑ r ∈ (Finset.range heap.next).erase p, (pointers children heap r).count q := by
    refine Finset.sum_congr rfl ?_
    intro r hr
    rw [pointers, pointers, h r (Finset.ne_of_mem_erase hr)]
  rw [incoming, incoming, hnext, ← Finset.add_sum_erase _ _ hmem, ← Finset.add_sum_erase _ _ hmem,
    hrest]
  omega

theorem incoming_alloc (heap : ObjectHeap α) (x : α) (q : Nat) :
    incoming children (heap.alloc x) q = incoming children heap q + (children x).count q := by
  rw [incoming, next_alloc, Finset.sum_range_succ,
    pointers_of_get? children (get?_alloc_next heap x), incoming]
  congr 1
  refine Finset.sum_congr rfl ?_
  intro p hp
  rw [pointers, get?_alloc_of_lt (Finset.mem_range.mp hp), pointers]

theorem incoming_write (h : heap.write p x = some heap') (hp : heap.get? p = some y) (q : Nat) :
    incoming children heap' q + (children y).count q =
      incoming children heap q + (children x).count q := by
  obtain ⟨-, hnext, hget⟩ := write_eq_some h
  have hcount := incoming_of_eq children (lt_next hp) hnext
    (fun r hr => by rw [hget, if_neg hr]) q
  rwa [pointers_of_get? children hp,
    pointers_of_get? children (by rw [hget, if_pos rfl])] at hcount

theorem incoming_free (h : heap.free p = some heap') (hp : heap.get? p = some y) (q : Nat) :
    incoming children heap' q + (children y).count q = incoming children heap q := by
  obtain ⟨-, hnext, hget⟩ := free_eq_some h
  have hcount := incoming_of_eq children (lt_next hp) hnext
    (fun r hr => by rw [hget, if_neg hr]) q
  rwa [pointers_of_get? children hp,
    pointers_of_none children (by rw [hget, if_pos rfl])] at hcount

theorem count_le_incoming (hp : heap.get? p = some x) (q : Nat) :
    (children x).count q ≤ incoming children heap q := by
  rw [← pointers_of_get? children hp]
  exact Finset.single_le_sum (f := fun r => (pointers children heap r).count q)
    (fun _ _ => Nat.zero_le _) (Finset.mem_range.mpr (lt_next hp))

theorem incoming_pos (hp : heap.get? p = some x) (hq : q ∈ children x) :
    0 < incoming children heap q :=
  (List.count_pos_iff.mpr hq).trans_le (count_le_incoming children hp q)

theorem eq_of_incoming_eq_one
    (h : incoming children heap q = 1) (hp : heap.get? p = some x) (hq : q ∈ children x)
    (hp' : heap.get? p' = some y) (hq' : q ∈ children y) :
    p' = p := by
  by_contra hne
  have hmem := Finset.mem_range.mpr (lt_next hp)
  have hmem' : p' ∈ (Finset.range heap.next).erase p :=
    Finset.mem_erase.mpr ⟨hne, Finset.mem_range.mpr (lt_next hp')⟩
  have hsplit := Finset.add_sum_erase _ (fun r => (pointers children heap r).count q) hmem
  have hle := Finset.single_le_sum (f := fun r => (pointers children heap r).count q)
    (fun _ _ => Nat.zero_le _) hmem'
  rw [pointers_of_get? children hp] at hsplit
  rw [pointers_of_get? children hp'] at hle
  have hpos := List.count_pos_iff.mpr hq
  have hpos' := List.count_pos_iff.mpr hq'
  unfold incoming at h
  omega

end Incoming

end ObjectHeap
