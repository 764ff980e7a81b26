import Mathlib.Data.List.Basic

/-!
# Search with a test that may fail

The first element that passes a test, where the test may end the search with an error.  When it
ends for no element, this is the search for an index with the outcome of the test.
-/

namespace FailingSearch

variable {α ε : Type*}

def firstIndex (test : α → Except ε Bool) : List α → Except ε (Option Nat)
  | [] => .ok none
  | a :: l => do
      if ← test a then return some 0
      else
        let i ← firstIndex test l
        return i.map (· + 1)

theorem firstIndex_eq {test : α → Except ε Bool} {p : α → Bool} {l : List α}
    (h : ∀ a ∈ l, test a = .ok (p a)) : firstIndex test l = .ok (l.findIdx? p) := by
  induction l with
  | nil => rfl
  | cons a l ih =>
    have htail := ih fun b hb => h b (List.mem_cons_of_mem _ hb)
    rw [firstIndex, h a List.mem_cons_self, htail, List.findIdx?_cons]
    cases hp : p a <;> simp [bind, Except.bind, pure, Except.pure]

end FailingSearch
