import Mathlib.Tactic

/-!
# Scans of sorted lists

A loop that searches for the first element with a property, and then again and again for
the next one behind the current element.  In a sorted list such a loop visits the elements
with the property in their order.
-/

namespace SortedScan

universe u v

variable {α : Type u} [LinearOrder α] (l : List α) (p : α → Bool)

def first : Option α :=
  l.find? p

def next (a : α) : Option α :=
  l.find? fun b => decide (a < b) && p b

/-- The loop, which ends when there is no next element. -/
def loop {S : Type v} (body : S → α → Option S) : (fuel : Nat) → Option α → S → Option S
  | _, none, s => some s
  | 0, some _, _ => none
  | fuel + 1, some a, s => (body s a).bind fun s' => loop body fuel (next l p a) s'

variable {l p}

theorem next_append
    {before after : List α} {a : α} (hsorted : (before ++ a :: after).Pairwise (· < ·)) :
    next (before ++ a :: after) p a = after.find? p := by
  obtain ⟨-, hafter, hbefore⟩ := List.pairwise_append.mp hsorted
  have hle : ∀ b ∈ before ++ [a], ¬ a < b := by
    intro b hb
    rcases List.mem_append.mp hb with hb | hb
    · exact not_lt_of_gt (hbefore b hb a List.mem_cons_self)
    · rw [List.mem_singleton.mp hb]
      exact lt_irrefl a
  have hnone : (before ++ [a]).find? (fun b => decide (a < b) && p b) = none := by
    rw [List.find?_eq_none]
    intro b hb
    simp [hle b hb]
  rw [next, List.append_cons, List.find?_append, hnone, Option.none_or]
  apply List.find?_congr
  intro b hb
  simp [(List.pairwise_cons.mp hafter).1 b hb]

/-- The search from the found element on visits all further elements. -/
theorem loop_append {S : Type v} {body : S → α → Option S} {before after : List α} {fuel : Nat}
    (hsorted : (before ++ after).Pairwise (· < ·)) (hfuel : after.length ≤ fuel) (s : S) :
    loop (before ++ after) p body fuel (after.find? p) s = (after.filter p).foldlM body s := by
  induction after generalizing before fuel s with
  | nil => cases fuel <;> rfl
  | cons a after ih =>
    have hsorted' : ((before ++ [a]) ++ after).Pairwise (· < ·) := by
      rwa [List.append_assoc]
    rw [List.length_cons] at hfuel
    cases hp : p a with
    | false =>
      rw [List.find?_cons_of_neg (by simp [hp]), List.filter_cons_of_neg (by simp [hp]),
        List.append_cons]
      exact ih hsorted' (by omega) s
    | true =>
      obtain ⟨fuel, rfl⟩ : ∃ fuel', fuel = fuel' + 1 := ⟨fuel - 1, by omega⟩
      rw [List.find?_cons_of_pos hp, List.filter_cons_of_pos hp, loop, next_append hsorted,
        List.foldlM_cons]
      congr 1
      funext s'
      rw [List.append_cons]
      exact ih hsorted' (by omega) s'

theorem loop_first
    {S : Type v} {body : S → α → Option S} {fuel : Nat} (hsorted : l.Pairwise (· < ·))
    (hfuel : l.length ≤ fuel) (s : S) :
    loop l p body fuel (first l p) s = (l.filter p).foldlM body s :=
  @loop_append _ _ _ _ body [] l fuel hsorted hfuel s

end SortedScan
