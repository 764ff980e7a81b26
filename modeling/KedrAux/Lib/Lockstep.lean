import Mathlib.Data.List.Basic
import Mathlib.Data.List.GetD
import Mathlib.Tactic

/-!
# Lists read in lockstep

Several lists are read one element at a time.  A list that is at its end stays at its
last element until the other ones are read.
-/

namespace Lockstep

variable {α β γ : Type*}

/-- The element at the position `k`, or the last one if the list is shorter. -/
def clamp [Inhabited α] (xs : List α) (k : Nat) : α :=
  xs.getD (min k (xs.length - 1)) default

def zip [Inhabited α] [Inhabited β] (f : α → β → γ) (xs : List α) (ys : List β) : List γ :=
  (List.range (max xs.length ys.length)).map fun k => f (clamp xs k) (clamp ys k)

section Clamp

variable [Inhabited α] {xs : List α}

theorem clamp_of_lt {k : Nat} (hk : k < xs.length) : clamp xs k = xs[k] := by
  have hmin : min k (xs.length - 1) = k := by omega
  rw [clamp, hmin, List.getD_eq_getElem _ _ hk]

theorem clamp_eq_of_getElem? {k : Nat} {x : α} (h : xs[min k (xs.length - 1)]? = some x) :
    clamp xs k = x := by
  rw [clamp, List.getD_eq_getElem?_getD, h]
  rfl

theorem clamp_mem (hne : xs ≠ []) (k : Nat) : clamp xs k ∈ xs := by
  have hpos : 0 < xs.length := List.length_pos_iff.mpr hne
  have hlt : min k (xs.length - 1) < xs.length := by omega
  rw [clamp, List.getD_eq_getElem _ _ hlt]
  exact List.getElem_mem hlt

end Clamp

section Zip

variable [Inhabited α] [Inhabited β] (f : α → β → γ) (xs : List α) (ys : List β)

@[simp] theorem length_zip : (zip f xs ys).length = max xs.length ys.length := by
  rw [zip, List.length_map, List.length_range]

variable {xs ys}

theorem zip_ne_nil (hxs : xs ≠ []) : zip f xs ys ≠ [] := by
  have hpos : 0 < xs.length := List.length_pos_iff.mpr hxs
  rw [← List.length_pos_iff, length_zip]
  omega

theorem mem_zip (hxs : xs ≠ []) (hys : ys ≠ []) {z : γ} (h : z ∈ zip f xs ys) :
    ∃ x ∈ xs, ∃ y ∈ ys, f x y = z := by
  rw [zip, List.mem_map] at h
  obtain ⟨k, -, rfl⟩ := h
  exact ⟨clamp xs k, clamp_mem hxs k, clamp ys k, clamp_mem hys k, rfl⟩

theorem clamp_zip [Inhabited γ] (hxs : xs ≠ []) (hys : ys ≠ []) (k : Nat) :
    clamp (zip f xs ys) k = f (clamp xs k) (clamp ys k) := by
  have hposx : 0 < xs.length := List.length_pos_iff.mpr hxs
  have hposy : 0 < ys.length := List.length_pos_iff.mpr hys
  apply clamp_eq_of_getElem?
  have hlt : min k (max xs.length ys.length - 1) < max xs.length ys.length := by omega
  rw [length_zip, zip, List.getElem?_map, List.getElem?_range hlt, Option.map_some]
  have hx : min (min k (max xs.length ys.length - 1)) (xs.length - 1) = min k (xs.length - 1) := by
    omega
  have hy : min (min k (max xs.length ys.length - 1)) (ys.length - 1) = min k (ys.length - 1) := by
    omega
  simp only [clamp, hx, hy]

end Zip

section Related

variable {α' β' γ' : Type*} [Inhabited α] [Inhabited β] [Inhabited α'] [Inhabited β']
variable {R : α → α' → Prop} {S : β → β' → Prop} {T : γ → γ' → Prop}
variable {f : α → β → γ} {f' : α' → β' → γ'}
variable {xs : List α} {xs' : List α'} {ys : List β} {ys' : List β'}

theorem rel_clamp (h : List.Forall₂ R xs xs') (hne : xs ≠ []) (k : Nat) :
    R (clamp xs k) (clamp xs' k) := by
  have hpos : 0 < xs.length := List.length_pos_iff.mpr hne
  have hlt : min k (xs.length - 1) < xs.length := by omega
  have hlen := h.length_eq
  have hlt' : min k (xs.length - 1) < xs'.length := by omega
  rw [clamp, clamp, ← hlen, List.getD_eq_getElem _ _ hlt, List.getD_eq_getElem _ _ hlt']
  exact h.get hlt hlt'

theorem rel_zip
    (hx : List.Forall₂ R xs xs') (hy : List.Forall₂ S ys ys') (hxs : xs ≠ []) (hys : ys ≠ [])
    (hf : ∀ x x' y y', R x x' → S y y' → T (f x y) (f' x' y')) :
    List.Forall₂ T (zip f xs ys) (zip f' xs' ys') := by
  rw [zip, zip, hx.length_eq, hy.length_eq, List.forall₂_map_left_iff, List.forall₂_map_right_iff,
    List.forall₂_same]
  intro k _
  exact hf _ _ _ _ (rel_clamp hx hxs k) (rel_clamp hy hys k)

end Related

/-- The position at which the part of the element `index` starts. -/
def offset (g : α → List β) (xs : List α) (index : Nat) : Nat :=
  ((xs.take index).flatMap g).length

section Offset

variable (g : α → List β) {xs : List α} {index : Nat}

@[simp] theorem offset_zero : offset g xs 0 = 0 := by
  simp [offset]

theorem offset_succ (h : index < xs.length) :
    offset g xs (index + 1) = offset g xs index + (g xs[index]).length := by
  rw [offset, List.take_add_one, List.getElem?_eq_getElem h, List.flatMap_append,
    List.length_append, offset]
  simp

@[simp] theorem offset_length : offset g xs xs.length = (xs.flatMap g).length := by
  rw [offset, List.take_length]

theorem offset_le (xs : List α) {index' : Nat} (h : index ≤ index') :
    offset g xs index ≤ offset g xs index' := by
  obtain ⟨d, rfl⟩ := Nat.exists_eq_add_of_le h
  rw [offset, offset, List.take_add, List.flatMap_append, List.length_append]
  exact Nat.le_add_right _ _

theorem getElem?_flatMap_offset (h : index < xs.length) {j : Nat} (hj : j < (g xs[index]).length) :
    (xs.flatMap g)[offset g xs index + j]? = (g xs[index])[j]? := by
  have hsplit : xs.flatMap g =
      (xs.take index).flatMap g ++ (g xs[index] ++ (xs.drop (index + 1)).flatMap g) := by
    conv_lhs => rw [← List.take_append_drop index xs, List.drop_eq_getElem_cons h]
    rw [List.flatMap_append, List.flatMap_cons]
  rw [hsplit, offset, List.getElem?_append_right (Nat.le_add_right _ _), Nat.add_sub_cancel_left,
    List.getElem?_append_left hj]

/-- The last position is the last one of the last list. -/
theorem offset_add_eq_last_iff (h : index < xs.length) (hne : ∀ x ∈ xs, g x ≠ []) {j : Nat}
    (hj : j < (g xs[index]).length) :
    offset g xs index + j = (xs.flatMap g).length - 1 ↔
      index + 1 = xs.length ∧ j + 1 = (g xs[index]).length := by
  have hsucc := offset_succ g h
  have hle : offset g xs (index + 1) ≤ (xs.flatMap g).length := by
    rw [← offset_length]
    exact offset_le g xs h
  constructor
  · intro hlast
    have hend : offset g xs (index + 1) = (xs.flatMap g).length := by omega
    refine ⟨?_, by omega⟩
    by_contra hnot
    -- the next part would be empty
    have hnext : index + 1 < xs.length := by omega
    have hpart := offset_succ g hnext
    have hpos : 0 < (g xs[index + 1]).length :=
      List.length_pos_iff.mpr (hne _ (List.getElem_mem hnext))
    have hle' : offset g xs (index + 1 + 1) ≤ (xs.flatMap g).length := by
      rw [← offset_length]
      exact offset_le g xs hnext
    omega
  · rintro ⟨hindex, hlast⟩
    rw [← offset_length, ← hindex, hsucc]
    omega

end Offset

end Lockstep
