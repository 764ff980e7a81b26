import Mathlib.Data.List.Lex
import Mathlib.Tactic

/-!
# Subsets in depth-first order

Finite sets of indices are increasing lists.  In lexicographic order a set comes right
before its extensions, so a depth-first search through all sets goes upwards.  We compare
a set with the positions that such a search can go to.
-/

namespace SubsetOrder

structure IndexSet (n : Nat) (l : List Nat) : Prop where
  increasing : l.Pairwise (· < ·)
  lt : ∀ i ∈ l, i < n

theorem indexSet_range (n : Nat) : IndexSet n (List.range n) :=
  ⟨List.pairwise_lt_range, fun _ hi => List.mem_range.mp hi⟩

theorem indexSet_iff {n : Nat} {l : List Nat} : IndexSet n l ↔ l ∈ (List.range n).sublists := by
  rw [List.mem_sublists]
  constructor
  · intro h
    have hnodup : l.Nodup := h.increasing.imp fun hlt => hlt.ne
    exact List.sublist_of_subperm_of_pairwise
      (hnodup.subperm fun i hi => List.mem_range.mpr (h.lt i hi))
      (h.increasing.imp fun hlt => hlt.le) (List.pairwise_lt_range.imp fun hlt => hlt.le)
  · intro h
    exact ⟨List.pairwise_lt_range.sublist h, fun i hi => List.mem_range.mp (h.subset hi)⟩

/-- The set of all indices leaves out no index. -/
theorem range_ne_of_lt {n i k : Nat} {p tl : List Nat} (hp : ∀ j ∈ p, j < i) (hik : i < k) :
    List.range n ≠ p ++ k :: tl := by
  intro heq
  have hsorted : (p ++ k :: tl).Pairwise (· < ·) := heq ▸ List.pairwise_lt_range
  have hk : k ∈ List.range n := heq ▸ List.mem_append_right p List.mem_cons_self
  have hmem : i ∈ p ++ k :: tl := heq ▸ List.mem_range.mpr (hik.trans (List.mem_range.mp hk))
  rcases List.mem_append.mp hmem with hmem | hmem
  · exact lt_irrefl i (hp i hmem)
  · rcases List.mem_cons.mp hmem with rfl | hmem
    · exact lt_irrefl i hik
    · have hki := (List.pairwise_cons.mp (List.pairwise_append.mp hsorted).2.1).1 i hmem
      exact lt_asymm hik hki

theorem lt_append_cons (l : List Nat) (k : Nat) (tl : List Nat) : l < l ++ k :: tl := by
  induction l with
  | nil => exact List.Lex.nil
  | cons a l ih => exact List.cons_lt_cons_iff.mpr (Or.inr ⟨rfl, ih⟩)

variable {j k i a b : Nat} {o p tl q tl' : List Nat}

theorem append_lt_append (l : List Nat) (h : j < k) (tl tl' : List Nat) :
    l ++ j :: tl < l ++ k :: tl' := by
  induction l with
  | nil => exact List.Lex.rel h
  | cons a l ih => exact List.cons_lt_cons_iff.mpr (Or.inr ⟨rfl, ih⟩)

theorem append_singleton_le (l : List Nat) (h : j ≤ k) (tl : List Nat) :
    l ++ [j] ≤ l ++ k :: tl := by
  rcases h.lt_or_eq with hlt | rfl
  · exact (append_lt_append l hlt [] tl).le
  · cases tl with
    | nil => exact le_rfl
    | cons c tl =>
      have hlt := lt_append_cons (l ++ [j]) c tl
      rw [List.append_assoc, List.singleton_append] at hlt
      exact hlt.le

theorem lt_cases {l : List Nat} (h : l < o) :
    (∃ k tl, o = l ++ k :: tl) ∨
      ∃ q a tl b tl', l = q ++ a :: tl ∧ o = q ++ b :: tl' ∧ a < b := by
  induction l generalizing o with
  | nil =>
    cases o with
    | nil => exact absurd h (lt_irrefl _)
    | cons k tl => exact Or.inl ⟨k, tl, rfl⟩
  | cons a l ih =>
    cases o with
    | nil => exact absurd h (by simp)
    | cons b o =>
      rcases List.cons_lt_cons_iff.mp h with hab | ⟨rfl, hlo⟩
      · exact Or.inr ⟨[], a, l, b, o, rfl, rfl, hab⟩
      · rcases ih hlo with ⟨k, tl, rfl⟩ | ⟨q, c, tl, d, tl', rfl, rfl, hcd⟩
        · exact Or.inl ⟨k, tl, rfl⟩
        · exact Or.inr ⟨a :: q, c, tl, d, tl', rfl, rfl, hcd⟩

theorem lt_of_extends (h : (p ++ i :: k :: tl).Pairwise (· < ·)) : i < k :=
  (List.pairwise_cons.mp (List.pairwise_append.mp h).2.1).1 k List.mem_cons_self

/-- Behind `p ++ [i]` there are its extensions, the sets that have a greater index in the
place of `i`, and the sets that leave `p`. -/
theorem behind_cases (h : p ++ [i] < o) :
    (∃ k tl, o = p ++ i :: k :: tl) ∨ (∃ k tl, i < k ∧ o = p ++ k :: tl) ∨
      ∃ q a tl b tl', p = q ++ a :: tl ∧ o = q ++ b :: tl' ∧ a < b := by
  rcases lt_cases h with ⟨k, tl, rfl⟩ | ⟨q, a, tl, b, tl', hl, rfl, hab⟩
  · exact Or.inl ⟨k, tl, by simp⟩
  · rcases List.eq_nil_or_concat tl with rfl | ⟨tl, c, rfl⟩
    · obtain ⟨rfl, heq⟩ := List.append_inj' hl rfl
      obtain ⟨rfl, -⟩ := List.cons.inj heq
      exact Or.inr (Or.inl ⟨b, tl', hab, rfl⟩)
    · have hp : p = q ++ a :: tl := by
        have hl' : p ++ [i] = (q ++ a :: tl) ++ [c] := by simpa using hl
        exact (List.append_inj' hl' rfl).1
      exact Or.inr (Or.inr ⟨q, a, tl, b, tl', hp, rfl, hab⟩)

theorem lt_of_leaves (hab : a < b) (r : List Nat) : (q ++ a :: tl) ++ r < q ++ b :: tl' := by
  rw [List.append_assoc, List.cons_append]
  exact append_lt_append q hab _ _

theorem succ_le_of_lt (ho : o.Pairwise (· < ·)) (h : p ++ [i] < o) : p ++ [i, i + 1] ≤ o := by
  rcases behind_cases h with ⟨k, tl, rfl⟩ | ⟨k, tl, hik, rfl⟩ | ⟨q, a, tl, b, tl', rfl, rfl, hab⟩
  · have hik := lt_of_extends ho
    have hle := append_singleton_le (p ++ [i]) (Nat.succ_le_of_lt hik) tl
    simpa using hle
  · exact (append_lt_append p hik [i + 1] tl).le
  · exact (lt_of_leaves hab [i, i + 1]).le

theorem next_le_of_leaves (hp : p ++ [j] = q ++ a :: tl) (hab : a < b) :
    p ++ [j + 1] ≤ q ++ b :: tl' := by
  rcases List.eq_nil_or_concat tl with rfl | ⟨tl, c, rfl⟩
  · obtain ⟨rfl, heq⟩ := List.append_inj' hp rfl
    obtain ⟨rfl, -⟩ := List.cons.inj heq
    exact append_singleton_le p (Nat.succ_le_of_lt hab) tl'
  · have hp' : p = q ++ a :: tl := by
      have hl' : p ++ [j] = (q ++ a :: tl) ++ [c] := by simpa using hp
      exact (List.append_inj' hl' rfl).1
    rw [hp']
    exact (lt_of_leaves hab [j + 1]).le

end SubsetOrder
