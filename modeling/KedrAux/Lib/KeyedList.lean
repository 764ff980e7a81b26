import Mathlib.Data.List.Basic
import Mathlib.Tactic

/-!
# Lists with keys

A list that is searched for the first element with a key; new elements are added at the end.
-/

namespace KeyedList

variable {α κ : Type*} [DecidableEq κ] (key : α → κ)

def lookup (k : κ) (xs : List α) : Option α := xs.find? fun x => key x = k

/-- The list without the first element with the key. -/
def remove (k : κ) (xs : List α) : List α := xs.eraseP fun x => key x = k

variable {key} {k k' : κ} {x : α} {xs : List α}

theorem lookup_eq_none_iff : lookup key k xs = none ↔ ∀ x ∈ xs, key x ≠ k := by
  simp [lookup]

theorem lookup_eq_none_iff_notMem : lookup key k xs = none ↔ k ∉ xs.map key := by
  rw [lookup_eq_none_iff, List.mem_map]
  simp

theorem lookup_append_of_eq (hx : key x = k) (h : lookup key k xs = none) :
    lookup key k (xs ++ [x]) = some x := by
  rw [lookup] at h
  rw [lookup, List.find?_append, h, List.find?_cons_of_pos (by simpa using hx)]
  rfl

theorem lookup_append_of_ne (hx : key x ≠ k) : lookup key k (xs ++ [x]) = lookup key k xs := by
  rw [lookup, lookup, List.find?_append, List.find?_cons_of_neg (by simpa using hx)]
  simp

theorem nodup_append (hxs : (xs.map key).Nodup) (h : lookup key (key x) xs = none) :
    ((xs ++ [x]).map key).Nodup := by
  rw [List.map_append, List.nodup_append]
  refine ⟨hxs, List.nodup_singleton _, ?_⟩
  rintro a ha b hb rfl
  rw [List.mem_singleton.mp hb] at ha
  exact lookup_eq_none_iff_notMem.mp h ha

theorem remove_sublist : (remove key k xs).Sublist xs := List.eraseP_sublist

theorem nodup_remove (hxs : (xs.map key).Nodup) : ((remove key k xs).map key).Nodup :=
  hxs.sublist (remove_sublist.map key)

theorem lookup_remove_self (hxs : (xs.map key).Nodup) : lookup key k (remove key k xs) = none := by
  induction xs with
  | nil => rfl
  | cons x xs ih =>
    rw [List.map_cons, List.nodup_cons] at hxs
    by_cases hx : key x = k
    · rw [remove, List.eraseP_cons_of_pos (by simpa using hx), lookup_eq_none_iff_notMem, ← hx]
      exact hxs.1
    · rw [remove, List.eraseP_cons_of_neg (by simpa using hx), lookup,
        List.find?_cons_of_neg (by simpa using hx)]
      exact ih hxs.2

theorem lookup_remove_of_ne (hk : k' ≠ k) : lookup key k' (remove key k xs) = lookup key k' xs := by
  induction xs with
  | nil => rfl
  | cons x xs ih =>
    by_cases hx : key x = k
    · have hx' : key x ≠ k' := fun heq => hk (heq.symm.trans hx)
      rw [remove, List.eraseP_cons_of_pos (by simpa using hx), lookup, lookup,
        List.find?_cons_of_neg (by simpa using hx')]
    · rw [remove, List.eraseP_cons_of_neg (by simpa using hx), lookup, lookup, List.find?_cons,
        List.find?_cons]
      rw [lookup, lookup, remove] at ih
      rw [ih]

end KeyedList
