import Mathlib.Data.List.Pairwise

/-!
# Gaps between neighbours of a sorted list

In a list that is sorted by key each element owns the keys from its own one up to the key of its
successor. Of the elements with one key only the last owns anything.
-/

namespace SortedGaps

variable {α : Type*} (key : α → Nat)

def Sorted (xs : List α) : Prop := xs.Pairwise fun x y => key x ≤ key y

/-- Each element but the last one with the distance to its successor. -/
def gaps : List α → List (α × Nat)
  | x :: y :: xs => (x, key y - key x) :: gaps (y :: xs)
  | _ => []

@[simp] theorem gaps_cons_cons (x y : α) (xs : List α) :
    gaps key (x :: y :: xs) = (x, key y - key x) :: gaps key (y :: xs) := rfl

@[simp] theorem gaps_singleton (x : α) : gaps key [x] = [] := rfl

variable {key} {xs : List α}

theorem fst_mem_of_mem_gaps {g : α × Nat} (h : g ∈ gaps key xs) : g.1 ∈ xs := by
  induction xs with
  | nil => simp [gaps] at h
  | cons x xs ih =>
    cases xs with
    | nil => simp [gaps] at h
    | cons y xs =>
      rcases List.mem_cons.mp h with rfl | hin
      · exact List.mem_cons_self
      · exact List.mem_cons_of_mem _ (ih hin)

section

variable (hxs : Sorted key xs)
include hxs

theorem mem_gaps_of_lt {x y : α} (hx : x ∈ xs) (hy : y ∈ xs)
    (hlt : key x < key y) : ∃ n, (x, n) ∈ gaps key xs := by
  induction xs with
  | nil => cases hx
  | cons w xs ih =>
    obtain ⟨hw, hxs'⟩ := List.pairwise_cons.mp hxs
    have hy' : y ∈ xs := by
      rcases List.mem_cons.mp hy with rfl | hy'
      · rcases List.mem_cons.mp hx with rfl | hx'
        · omega
        · have := hw x hx'
          omega
      · exact hy'
    cases xs with
    | nil => cases hy'
    | cons z xs =>
      rcases List.mem_cons.mp hx with rfl | hx'
      · exact ⟨_, List.mem_cons_self⟩
      · obtain ⟨n, hn⟩ := ih hxs' hx' hy'
        exact ⟨n, List.mem_cons_of_mem _ hn⟩

theorem gap_empty {g : α × Nat} (h : g ∈ gaps key xs) {y : α} (hy : y ∈ xs) :
    key y ≤ key g.1 ∨ key g.1 + g.2 ≤ key y := by
  induction xs with
  | nil => simp [gaps] at h
  | cons x xs ih =>
    cases xs with
    | nil => simp [gaps] at h
    | cons z xs =>
      obtain ⟨hx, hxs'⟩ := List.pairwise_cons.mp hxs
      have hz := hx z List.mem_cons_self
      rcases List.mem_cons.mp h with rfl | hin
      · rcases List.mem_cons.mp hy with rfl | hy'
        · exact .inl (Nat.le_refl _)
        · right
          rcases List.mem_cons.mp hy' with rfl | hy'
          · dsimp only
            omega
          · have := (List.pairwise_cons.mp hxs').1 y hy'
            dsimp only
            omega
      · rcases List.mem_cons.mp hy with rfl | hy'
        · exact .inl (hx _ (fst_mem_of_mem_gaps hin))
        · exact ih hxs' hin hy'

theorem gaps_pairwise :
    (gaps key xs).Pairwise fun g h => key g.1 + g.2 ≤ key h.1 := by
  induction xs with
  | nil => exact List.Pairwise.nil
  | cons x xs ih =>
    cases xs with
    | nil => exact List.Pairwise.nil
    | cons y xs =>
      obtain ⟨hx, hxs'⟩ := List.pairwise_cons.mp hxs
      refine List.pairwise_cons.mpr ⟨?_, ih hxs'⟩
      intro g hg
      have hy := hx y List.mem_cons_self
      have hle : key y ≤ key g.1 := by
        rcases List.mem_cons.mp (fst_mem_of_mem_gaps hg) with h | h
        · exact Nat.le_of_eq (congrArg key h.symm)
        · exact (List.pairwise_cons.mp hxs').1 _ h
      dsimp only
      omega

theorem gaps_disjoint {g h : α × Nat} (hg : g ∈ gaps key xs)
    (hh : h ∈ gaps key xs) (hne : g.1 ≠ h.1) :
    key g.1 + g.2 ≤ key h.1 ∨ key h.1 + h.2 ≤ key g.1 := by
  have hsym : (gaps key xs).Pairwise fun g h =>
      key g.1 + g.2 ≤ key h.1 ∨ key h.1 + h.2 ≤ key g.1 :=
    (gaps_pairwise hxs).imp Or.inl
  have : Std.Symm fun g h : α × Nat =>
      key g.1 + g.2 ≤ key h.1 ∨ key h.1 + h.2 ≤ key g.1 := ⟨fun _ _ => Or.symm⟩
  exact hsym.forall hg hh fun heq => hne (congrArg Prod.fst heq)

theorem exists_gap {y z : α} (hy : y ∈ xs) (hz : z ∈ xs) {v : Nat}
    (hv : key y ≤ v) (hlt : v < key z) :
    ∃ g ∈ gaps key xs, key g.1 ≤ v ∧ v < key g.1 + g.2 := by
  induction xs generalizing y with
  | nil => cases hy
  | cons x xs ih =>
    obtain ⟨hx, hxs'⟩ := List.pairwise_cons.mp hxs
    have hxv : key x ≤ v := by
      rcases List.mem_cons.mp hy with rfl | hy'
      · exact hv
      · exact Nat.le_trans (hx y hy') hv
    have hz' : z ∈ xs := by
      rcases List.mem_cons.mp hz with rfl | hz'
      · omega
      · exact hz'
    cases xs with
    | nil => cases hz'
    | cons w xs =>
      -- either the first element owns the key, or it is at or above the next key
      by_cases hw : v < key w
      · refine ⟨(x, key w - key x), List.mem_cons_self, hxv, ?_⟩
        dsimp only
        omega
      · obtain ⟨g, hg, hown⟩ :=
          ih hxs' List.mem_cons_self hz' (Nat.le_of_not_lt hw)
        exact ⟨g, List.mem_cons_of_mem _ hg, hown⟩

theorem exists_owner {y z : α} (hy : y ∈ xs) (hz : z ∈ xs)
    (hlt : key y < key z) : ∃ g ∈ gaps key xs, key g.1 = key y ∧ g.2 ≠ 0 := by
  obtain ⟨g, hg, hle, hown⟩ := exists_gap hxs hy hz (Nat.le_refl _) hlt
  rcases gap_empty hxs hg hy with h | h
  · exact ⟨g, hg, Nat.le_antisymm hle h, by omega⟩
  · omega

end

end SortedGaps
