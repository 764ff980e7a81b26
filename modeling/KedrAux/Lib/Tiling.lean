import Mathlib.Tactic

/-!
# Tilings of intervals

A list of pieces tiles an interval when each piece is not empty and begins where the one before
ends.  Positions in ascending order cut an interval into such pieces.
-/

namespace Tiling

universe u

section Tiles

variable {α : Type u} (start length : α → Nat)

/-- The pieces tile the numbers from `a` to `e`, without `e`. -/
def Tiles : List α → Nat → Nat → Prop
  | [], a, e => a = e
  | x :: xs, a, e => start x = a ∧ 0 < length x ∧ Tiles xs (a + length x) e

variable {start length} {x y : α} {xs ys : List α} {a b e : Nat}

section

variable (h : Tiles start length xs a e)
include h

theorem Tiles.le : a ≤ e := by
  induction xs generalizing a with
  | nil => exact Nat.le_of_eq h
  | cons x xs ih => exact Nat.le_trans (Nat.le_add_right a _) (ih h.2.2)

theorem Tiles.mem_bounds (hx : x ∈ xs) :
    a ≤ start x ∧ 0 < length x ∧ start x + length x ≤ e := by
  induction xs generalizing a with
  | nil => cases hx
  | cons y xs ih =>
    obtain ⟨hstart, hpos, htail⟩ := h
    rcases List.mem_cons.mp hx with rfl | hx
    · exact ⟨Nat.le_of_eq hstart.symm, hpos, hstart ▸ htail.le⟩
    · obtain ⟨hle, hpos', hend⟩ := ih htail hx
      exact ⟨by omega, hpos', hend⟩

theorem Tiles.not_inside (hx : x ∈ xs) (hy : y ∈ xs) :
    start y ≤ start x ∨ start x + length x ≤ start y := by
  induction xs generalizing a with
  | nil => cases hx
  | cons z xs ih =>
    obtain ⟨hstart, hpos, htail⟩ := h
    rcases List.mem_cons.mp hx with rfl | hx' <;> rcases List.mem_cons.mp hy with rfl | hy'
    · exact Or.inl (le_refl _)
    · have hle := (htail.mem_bounds hy').1
      exact Or.inr (by omega)
    · have hle := (htail.mem_bounds hx').1
      exact Or.inl (by omega)
    · exact ih htail hx' hy'

theorem Tiles.end_mem (hx : x ∈ xs) :
    start x + length x ∈ xs.map start ∨ start x + length x = e := by
  induction xs generalizing a with
  | nil => cases hx
  | cons y xs ih =>
    obtain ⟨hstart, hpos, htail⟩ := h
    rcases List.mem_cons.mp hx with rfl | hx
    · cases xs with
      | nil => exact Or.inr (hstart ▸ htail)
      | cons z xs =>
        refine Or.inl (List.mem_cons_of_mem _ ?_)
        rw [hstart, ← htail.1]
        exact List.mem_cons_self
    · rcases ih htail hx with hmem | hend
      · exact Or.inl (List.mem_cons_of_mem _ hmem)
      · exact Or.inr hend

theorem Tiles.pairwise :
    xs.Pairwise fun x y => start x + length x ≤ start y := by
  induction xs generalizing a with
  | nil => exact List.Pairwise.nil
  | cons x xs ih =>
    obtain ⟨hstart, hpos, htail⟩ := h
    refine List.pairwise_cons.mpr ⟨fun y hy => ?_, ih htail⟩
    rw [hstart]
    exact (htail.mem_bounds hy).1

end

theorem Tiles.append (h : Tiles start length xs a b) (h' : Tiles start length ys b e) :
    Tiles start length (xs ++ ys) a e := by
  induction xs generalizing a with
  | nil =>
    rw [Tiles] at h
    rw [h]
    exact h'
  | cons x xs ih => exact ⟨h.1, h.2.1, ih h.2.2⟩

end Tiles

section Cut

/-- The pieces between the positions, which may be repeated. -/
def cut : Nat → List Nat → List (Nat × Nat)
  | _, [] => []
  | a, c :: cs => if c = a then cut a cs else (a, c - a) :: cut c cs

variable {a x n : Nat} {cs : List Nat}

theorem cut_tiles (h : (a :: cs).Pairwise (· ≤ ·)) :
    Tiles Prod.fst Prod.snd (cut a cs) a ((a :: cs).getLast (List.cons_ne_nil _ _)) := by
  induction cs generalizing a with
  | nil => rfl
  | cons c cs ih =>
    have hc : a ≤ c := (List.pairwise_cons.mp h).1 c List.mem_cons_self
    have htail := ih (List.pairwise_cons.mp h).2
    rw [cut, List.getLast_cons (List.cons_ne_nil _ _)]
    split_ifs with heq
    · subst heq
      exact htail
    · refine ⟨rfl, by simp only; omega, ?_⟩
      simp only
      rw [Nat.add_sub_cancel' hc]
      exact htail

theorem mem_cut (h : (a :: cs).Pairwise (· ≤ ·)) (hx : (x, n) ∈ cut a cs) :
    x ∈ a :: cs ∧ x + n ∈ cs := by
  induction cs generalizing a with
  | nil => cases hx
  | cons c cs ih =>
    have hc : a ≤ c := (List.pairwise_cons.mp h).1 c List.mem_cons_self
    have ih' := ih (List.pairwise_cons.mp h).2
    rw [cut] at hx
    split_ifs at hx with heq
    · subst heq
      obtain ⟨hmem, hmem'⟩ := ih' hx
      exact ⟨List.mem_cons_of_mem _ hmem, List.mem_cons_of_mem _ hmem'⟩
    · rcases List.mem_cons.mp hx with heq' | hx
      · obtain ⟨rfl, rfl⟩ := Prod.mk.inj heq'
        exact ⟨List.mem_cons_self, by rw [Nat.add_sub_cancel' hc]; exact List.mem_cons_self⟩
      · obtain ⟨hmem, hmem'⟩ := ih' hx
        exact ⟨List.mem_cons_of_mem _ hmem, List.mem_cons_of_mem _ hmem'⟩

theorem exists_mem_cut (h : (a :: cs).Pairwise (· ≤ ·)) (hx : x ∈ a :: cs)
    (hlast : x < (a :: cs).getLast (List.cons_ne_nil _ _)) :
    ∃ n, (x, n) ∈ cut a cs ∧ ∀ y ∈ cs, x < y → x + n ≤ y := by
  induction cs generalizing a with
  | nil =>
    rw [List.mem_singleton.mp hx] at hlast
    exact absurd hlast (lt_irrefl a)
  | cons c cs ih =>
    obtain ⟨hle, hsorted⟩ := List.pairwise_cons.mp h
    have hc : a ≤ c := hle c List.mem_cons_self
    rw [List.getLast_cons (List.cons_ne_nil _ _)] at hlast
    rw [cut]
    split_ifs with heq
    · subst heq
      have hx' : x ∈ c :: cs := by
        rcases List.mem_cons.mp hx with rfl | hx
        · exact List.mem_cons_self
        · exact hx
      obtain ⟨n, hmem, hnext⟩ := ih hsorted hx' hlast
      refine ⟨n, hmem, fun y hy hlt => ?_⟩
      rcases List.mem_cons.mp hy with rfl | hy
      · rcases List.mem_cons.mp hx' with rfl | hx'
        · exact absurd hlt (lt_irrefl _)
        · have hge := (List.pairwise_cons.mp hsorted).1 x hx'
          omega
      · exact hnext y hy hlt
    · rcases List.mem_cons.mp hx with rfl | hx
      · refine ⟨c - x, List.mem_cons_self, fun y hy hlt => ?_⟩
        rw [Nat.add_sub_cancel' hc]
        rcases List.mem_cons.mp hy with rfl | hy
        · exact le_refl _
        · exact (List.pairwise_cons.mp hsorted).1 y hy
      · obtain ⟨n, hmem, hnext⟩ := ih hsorted hx hlast
        refine ⟨n, List.mem_cons_of_mem _ hmem, fun y hy hlt => ?_⟩
        rcases List.mem_cons.mp hy with rfl | hy
        · rcases List.mem_cons.mp hx with rfl | hx
          · exact absurd hlt (lt_irrefl _)
          · have hge := (List.pairwise_cons.mp hsorted).1 x hx
            omega
        · exact hnext y hy hlt

end Cut

end Tiling
