import Mathlib.Tactic

/-!
# Sets covered by intervals

Every element of a list stands for an interval of numbers.  Disjoint intervals cover as many
numbers as they have together, so a part of an interval that is covered up to its end is found
from the lengths alone.
-/

namespace IntervalCover

universe u

variable {α : Type u} (start length : α → Nat)

def interval (x : α) : Finset Nat :=
  Finset.Ico (start x) (start x + length x)

def cover : List α → Finset Nat
  | [] => ∅
  | x :: xs => interval start length x ∪ cover xs

/-- No two intervals of the list have a number in common. -/
def Apart (xs : List α) : Prop :=
  xs.Pairwise fun x y => Disjoint (interval start length x) (interval start length y)

variable {start length} {x y : α} {xs ys : List α} {i e : Nat}

theorem mem_interval : i ∈ interval start length x ↔ start x ≤ i ∧ i < start x + length x :=
  Finset.mem_Ico

theorem mem_cover : i ∈ cover start length xs ↔ ∃ x ∈ xs, i ∈ interval start length x := by
  induction xs with
  | nil => simp [cover]
  | cons x xs ih => simp [cover, ih]

@[simp] theorem cover_append : cover start length (xs ++ ys) =
    cover start length xs ∪ cover start length ys := by
  ext i
  simp only [mem_cover, Finset.mem_union, List.mem_append]
  constructor
  · rintro ⟨x, hx | hx, hi⟩
    · exact Or.inl ⟨x, hx, hi⟩
    · exact Or.inr ⟨x, hx, hi⟩
  · rintro (⟨x, hx, hi⟩ | ⟨x, hx, hi⟩)
    · exact ⟨x, Or.inl hx, hi⟩
    · exact ⟨x, Or.inr hx, hi⟩

theorem Apart.eq_of_mem (h : Apart start length xs) (hx : x ∈ xs) (hy : y ∈ xs)
    (hix : i ∈ interval start length x) (hiy : i ∈ interval start length y) : x = y := by
  induction xs with
  | nil => cases hx
  | cons z xs ih =>
    obtain ⟨hz, hxs⟩ := List.pairwise_cons.mp h
    rcases List.mem_cons.mp hx with rfl | hx'
    · rcases List.mem_cons.mp hy with rfl | hy'
      · rfl
      · exact absurd hiy (Finset.disjoint_left.mp (hz y hy') hix)
    · rcases List.mem_cons.mp hy with rfl | hy'
      · exact absurd hix (Finset.disjoint_left.mp (hz x hx') hiy)
      · exact ih hxs hx' hy'

theorem Apart.sublist (h : Apart start length ys) (hsub : xs.Sublist ys) : Apart start length xs :=
  List.Pairwise.sublist hsub h

theorem Apart.card_cover (h : Apart start length xs) :
    (cover start length xs).card = (xs.map length).sum := by
  induction xs with
  | nil => rfl
  | cons x xs ih =>
    obtain ⟨hx, hxs⟩ := List.pairwise_cons.mp h
    have hdisj : Disjoint (interval start length x) (cover start length xs) := by
      rw [Finset.disjoint_left]
      intro i hix hi
      obtain ⟨y, hy, hiy⟩ := mem_cover.mp hi
      exact Finset.disjoint_left.mp (hx y hy) hix hiy
    rw [cover, Finset.card_union_of_disjoint hdisj, ih hxs, interval, Nat.card_Ico,
      List.map_cons, List.sum_cons, Nat.add_sub_cancel_left]

/-- A set with everything behind its numbers, up to `e`, is determined by its size. -/
theorem eq_Ico_of_upward {s : Finset Nat} (hend : ∀ i ∈ s, i < e)
    (hup : ∀ i j, i ∈ s → i ≤ j → j < e → j ∈ s) : s = Finset.Ico (e - s.card) e := by
  rcases s.eq_empty_or_nonempty with rfl | hne
  · simp
  · have hs : s = Finset.Ico (s.min' hne) e := by
      ext i
      rw [Finset.mem_Ico]
      exact ⟨fun hi => ⟨s.min'_le i hi, hend i hi⟩,
        fun ⟨hle, hlt⟩ => hup _ i (s.min'_mem hne) hle hlt⟩
    have hlt := hend _ (s.min'_mem hne)
    have hcard : s.card = e - s.min' hne := by
      conv_lhs => rw [hs]
      exact Nat.card_Ico _ _
    rw [hcard, Nat.sub_sub_self (Nat.le_of_lt hlt)]
    exact hs

end IntervalCover
