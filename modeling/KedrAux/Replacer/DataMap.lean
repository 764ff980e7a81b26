import KedrAux.Lib.ErrorCodes
import Mathlib.Tactic

/-!
# Maps from keys to data

The hash table of the operation replacer (`data_map.c`).  `DEBUG` is defined in the
source, so that keys which are in use are rejected.  The hash function of the kernel is a
parameter; locks are left out.
-/

namespace KedrAux
namespace Replacer

open ErrorCodes

/-- `void*`; 0 is `NULL`. -/
abbrev Pointer := Nat

/-- `struct data_map`: the elements of each chain of the table, the first one first. -/
structure DataMap (D : Type) where
  sizeBits : Nat
  hashTable : Nat → List (Pointer × D)

namespace DataMap

variable {D : Type} (hashPtr : Pointer → Nat → Nat)

def add (map : DataMap D) (alloc : Bool) (key : Pointer) (data : D) : Int × DataMap D :=
  let hash := hashPtr key map.sizeBits
  if !alloc then (-ENOMEM, map)
  else if (map.hashTable hash).any fun elem => elem.1 == key then (-EINVAL, map)
  else
    (0, { map with
      hashTable := Function.update map.hashTable hash ((key, data) :: map.hashTable hash) })

/-- `data_map_get`; `none` is `ERR_PTR(-EINVAL)`. -/
def get (map : DataMap D) (key : Pointer) : Option D :=
  ((map.hashTable (hashPtr key map.sizeBits)).find? fun elem => elem.1 == key).map Prod.snd

/-- `data_map_delete`: the first element with the key is taken out of its chain. -/
def delete (map : DataMap D) (key : Pointer) : Option D × DataMap D :=
  let hash := hashPtr key map.sizeBits
  (map.get hashPtr key,
    { map with
      hashTable := Function.update map.hashTable hash
        ((map.hashTable hash).eraseP fun elem => elem.1 == key) })

/-- The data that was found for a key is changed in place. -/
def setData (map : DataMap D) (key : Pointer) (data : D) : DataMap D :=
  let hash := hashPtr key map.sizeBits
  { map with
    hashTable := Function.update map.hashTable hash
      ((map.hashTable hash).map fun elem => if elem.1 == key then (elem.1, data) else elem) }

/-- `data_map_delete_all`; what `free_data` does with the elements is left out. -/
def deleteAll (map : DataMap D) : DataMap D :=
  { map with hashTable := fun i => if i < 2 ^ map.sizeBits then [] else map.hashTable i }

variable {hashPtr}

theorem any_eq_isSome_get (map : DataMap D) (key : Pointer) :
    (map.hashTable (hashPtr key map.sizeBits)).any (fun elem => elem.1 == key) =
      (map.get hashPtr key).isSome := by
  rw [get, Option.isSome_map, Bool.eq_iff_iff, List.any_eq_true, List.find?_isSome]

theorem get_add {map : DataMap D} {key : Pointer} (hkey : map.get hashPtr key = none) (data : D) :
    (map.add hashPtr true key data).1 = 0 ∧
      (map.add hashPtr true key data).2.get hashPtr key = some data := by
  have hany : (map.hashTable (hashPtr key map.sizeBits)).any (fun elem => elem.1 == key) = false := by
    rw [any_eq_isSome_get, hkey, Option.isSome_none]
  constructor
  · simp [add, hany]
  · simp [add, hany, get]

/-- No key is twice in a chain. -/
def DistinctKeys (map : DataMap D) : Prop :=
  ∀ i, ((map.hashTable i).map Prod.fst).Nodup

theorem find?_map_set (l : List (Pointer × D)) (key key' : Pointer) (data : D) :
    (l.map fun elem => if elem.1 == key then (elem.1, data) else elem).find?
        (fun elem => elem.1 == key') =
      (l.find? fun elem => elem.1 == key').map fun elem =>
        if elem.1 == key then (elem.1, data) else elem := by
  induction l with
  | nil => rfl
  | cons elem l ih =>
    have hfst : (if elem.1 == key then (elem.1, data) else elem).1 = elem.1 := by
      split_ifs <;> rfl
    rw [List.map_cons]
    by_cases hkey : elem.1 = key'
    · rw [List.find?_cons_of_pos (by rw [hfst]; simpa using hkey),
        List.find?_cons_of_pos (by simpa using hkey), Option.map_some]
    · rw [List.find?_cons_of_neg (by rw [hfst]; simpa using hkey),
        List.find?_cons_of_neg (by simpa using hkey), ih]

theorem map_fst_set (l : List (Pointer × D)) (key : Pointer) (data : D) :
    (l.map fun elem => if elem.1 == key then (elem.1, data) else elem).map Prod.fst =
      l.map Prod.fst := by
  rw [List.map_map]
  apply List.map_congr_left
  intro elem _
  simp only [Function.comp_apply]
  split_ifs <;> rfl

theorem find?_eraseP {l : List (Pointer × D)} (hl : (l.map Prod.fst).Nodup) (key key' : Pointer) :
    (l.eraseP fun elem => elem.1 == key).find? (fun elem => elem.1 == key') =
      if key' = key then none else l.find? fun elem => elem.1 == key' := by
  induction l with
  | nil => simp
  | cons elem l ih =>
    rw [List.map_cons, List.nodup_cons] at hl
    by_cases hkey : elem.1 = key
    · rw [List.eraseP_cons_of_pos (by simpa using hkey)]
      split_ifs with heq
      · rw [List.find?_eq_none]
        intro elem' hmem htest
        have hfst : elem'.1 = elem.1 := by
          rw [hkey, ← heq]
          simpa using htest
        exact hl.1 (hfst ▸ List.mem_map_of_mem hmem)
      · rw [List.find?_cons_of_neg (by simpa [hkey] using Ne.symm heq)]
    · rw [List.eraseP_cons_of_neg (by simpa using hkey)]
      by_cases hkey' : elem.1 = key'
      · rw [List.find?_cons_of_pos (by simpa using hkey'), if_neg fun heq => hkey (hkey'.trans heq),
          List.find?_cons_of_pos (by simpa using hkey')]
      · rw [List.find?_cons_of_neg (by simpa using hkey'), ih hl.2,
          List.find?_cons_of_neg (by simpa using hkey')]

section Find

variable {map : DataMap D}

variable {key : Pointer} {chain : List (Pointer × D)}

/-- Only the chain of the key is changed, and only the key is found otherwise in it. -/
theorem get_update {found : Option D}
    (hchain : ∀ key', (chain.find? fun elem => elem.1 == key').map Prod.snd =
      if key' = key then found else
        ((map.hashTable (hashPtr key map.sizeBits)).find? fun elem => elem.1 == key').map Prod.snd)
    (key' : Pointer) :
    get hashPtr { map with
        hashTable := Function.update map.hashTable (hashPtr key map.sizeBits) chain } key' =
      if key' = key then found else map.get hashPtr key' := by
  by_cases hhash : hashPtr key' map.sizeBits = hashPtr key map.sizeBits
  · simp only [get, hhash, Function.update_self]
    exact hchain key'
  · have hne : key' ≠ key := fun heq => hhash (heq ▸ rfl)
    rw [if_neg hne]
    simp only [get, Function.update_of_ne hhash]

/-- Either nothing changes, or only the given key. -/
theorem add_cases (alloc : Bool) (key : Pointer) (data : D) :
    ((map.add hashPtr alloc key data).1 ≠ 0 ∧ (map.add hashPtr alloc key data).2 = map) ∨
      ((map.add hashPtr alloc key data).1 = 0 ∧ map.get hashPtr key = none ∧
        ∀ key', (map.add hashPtr alloc key data).2.get hashPtr key' =
          if key' = key then some data else map.get hashPtr key') := by
  cases alloc with
  | false =>
    have hne : -ENOMEM ≠ 0 := by decide
    exact Or.inl ⟨hne, rfl⟩
  | true =>
    by_cases hany : (map.hashTable (hashPtr key map.sizeBits)).any (fun elem => elem.1 == key) = true
    · refine Or.inl ⟨?_, ?_⟩
      · have hne : -EINVAL ≠ 0 := by decide
        simpa [add, hany] using hne
      · simp [add, hany]
    · have hnone : map.get hashPtr key = none := by
        rw [any_eq_isSome_get] at hany
        simpa using hany
      refine Or.inr ⟨(get_add hnone data).1, hnone, fun key' => ?_⟩
      simp only [add, hany, Bool.not_true, Bool.false_eq_true, if_false]
      apply get_update
      intro key'
      by_cases heq : key' = key
      · simp [heq]
      · rw [List.find?_cons_of_neg (by simpa using Ne.symm heq), if_neg heq]

theorem get_setData {old : D} (hkey : map.get hashPtr key = some old) (data : D) (key' : Pointer) :
    (map.setData hashPtr key data).get hashPtr key' =
      if key' = key then some data else map.get hashPtr key' := by
  apply get_update
  intro key'
  rw [find?_map_set]
  split_ifs with heq
  · subst heq
    obtain ⟨elem, helem, -⟩ := Option.map_eq_some_iff.mp hkey
    have hfst := List.find?_some helem
    rw [helem, Option.map_some, if_pos hfst, Option.map_some]
  · rw [Option.map_map]
    apply Option.map_congr
    intro elem helem
    have hne : ¬ (elem.1 == key) = true := by
      have hfst := List.find?_some helem
      rw [beq_iff_eq] at hfst
      simpa [hfst] using heq
    rw [Function.comp_apply, if_neg hne]

theorem get_delete (h : map.DistinctKeys) (key key' : Pointer) :
    (map.delete hashPtr key).2.get hashPtr key' =
      if key' = key then none else map.get hashPtr key' := by
  apply get_update
  intro key'
  rw [find?_eraseP (h _)]
  split_ifs <;> rfl

theorem DistinctKeys.update (h : map.DistinctKeys) {i : Nat} (hchain : (chain.map Prod.fst).Nodup) :
    DistinctKeys { map with hashTable := Function.update map.hashTable i chain } := by
  intro j
  by_cases heq : j = i
  · subst heq
    simpa using hchain
  · simpa [heq] using h j

theorem DistinctKeys.add (h : map.DistinctKeys) (alloc : Bool) (key : Pointer) (data : D) :
    (map.add hashPtr alloc key data).2.DistinctKeys := by
  rw [DataMap.add]
  split_ifs with halloc hany
  · exact h
  · exact h
  · refine h.update ?_
    rw [List.map_cons, List.nodup_cons]
    refine ⟨fun hmem => hany ?_, h _⟩
    obtain ⟨elem, hmem, hfst⟩ := List.mem_map.mp hmem
    exact List.any_eq_true.mpr ⟨elem, hmem, by simpa using hfst⟩

theorem DistinctKeys.setData (h : map.DistinctKeys) (key : Pointer) (data : D) :
    (map.setData hashPtr key data).DistinctKeys := by
  refine h.update ?_
  rw [map_fst_set]
  exact h _

theorem DistinctKeys.delete (h : map.DistinctKeys) (key : Pointer) :
    (map.delete hashPtr key).2.DistinctKeys :=
  h.update ((h _).sublist (List.eraseP_sublist.map Prod.fst))

end Find

end DataMap

end Replacer
end KedrAux
