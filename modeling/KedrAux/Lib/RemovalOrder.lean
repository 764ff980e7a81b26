import Mathlib.Tactic

/-!
# Loops that remove elements of an array

A loop over an array removes the current element by putting the last one in its place.  So it
comes to the elements from the front, and to one from the back after each removal.
-/

namespace RemovalOrder

variable {α β : Type*}

def lastFirst : List α → List α
  | [] => []
  | a :: l => (a :: l).getLast (by simp) :: (a :: l).dropLast

theorem lastFirst_perm (l : List α) : (lastFirst l).Perm l := by
  cases l with
  | nil => exact List.Perm.nil
  | cons a l =>
    have h := List.dropLast_append_getLast (l := a :: l) (by simp)
    conv_rhs => rw [← h]
    exact (List.perm_append_singleton _ _).symm

theorem lastFirst_map (f : α → β) (l : List α) : lastFirst (l.map f) = (lastFirst l).map f := by
  cases l with
  | nil => rfl
  | cons a l =>
    have hlast : ((a :: l).map f).getLast (by simp) = f ((a :: l).getLast (by simp)) :=
      List.getLast_map ..
    have hinit : ((a :: l).map f).dropLast = (a :: l).dropLast.map f := (List.map_dropLast ..).symm
    exact congrArg₂ List.cons hlast hinit

/-- The first `n` elements that the loop comes to after those of `done`. -/
def visits (leaves : List α → α → Bool) : (n : Nat) → (done rest : List α) → List α
  | 0, _, _ => []
  | _ + 1, _, [] => []
  | n + 1, done, a :: rest =>
    a :: visits leaves n (done ++ [a]) (if leaves done a then lastFirst rest else rest)

/-- The order in which the loop comes to the elements of `rest`, after those of `done`. -/
def order (leaves : List α → α → Bool) (done rest : List α) : List α :=
  visits leaves rest.length done rest

variable (leaves : List α → α → Bool) (done rest : List α) {a : α}

@[simp] theorem order_nil : order leaves done [] = [] :=
  rfl

theorem order_of_leaves (h : leaves done a = true) :
    order leaves done (a :: rest) = a :: order leaves (done ++ [a]) (lastFirst rest) := by
  rw [order, List.length_cons, visits, if_pos h, order, (lastFirst_perm rest).length_eq]

theorem order_of_stays (h : ¬leaves done a = true) :
    order leaves done (a :: rest) = a :: order leaves (done ++ [a]) rest := by
  rw [order, List.length_cons, visits, if_neg h, order]

theorem order_cons (a : α) : ∃ rest', order leaves done (a :: rest) = a :: rest' := by
  by_cases h : leaves done a = true
  · exact ⟨_, order_of_leaves leaves done rest h⟩
  · exact ⟨_, order_of_stays leaves done rest h⟩

theorem order_perm : (order leaves done rest).Perm rest := by
  suffices h : ∀ n done, ∀ rest : List α, rest.length = n → (order leaves done rest).Perm rest from
    h _ done rest rfl
  intro n
  induction n with
  | zero =>
    intro done rest hlength
    rw [List.eq_nil_of_length_eq_zero hlength, order_nil]
  | succ n ih =>
    intro done rest hlength
    cases rest with
    | nil => cases hlength
    | cons a rest =>
      have hrest : rest.length = n := by simpa using hlength
      by_cases h : leaves done a = true
      · rw [order_of_leaves leaves done rest h]
        have hlast := lastFirst_perm rest
        exact ((ih _ _ (hlast.length_eq.trans hrest)).trans hlast).cons a
      · rw [order_of_stays leaves done rest h]
        exact (ih _ _ hrest).cons a

end RemovalOrder
