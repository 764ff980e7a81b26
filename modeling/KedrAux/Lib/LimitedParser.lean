import Mathlib.Tactic.TypeStar

/-!
# Parsers with a limit

A parser that takes nodes from a list of items as far as it can, with a limit for the number
of its steps.  What it makes of a part of the list does not depend on what follows.
-/

namespace LimitedParser

variable {ι ν : Type*} {parse : Nat → List ι → Option (List ν × List ι)}
variable {items items' : List ι} {nodes nodes' : List ν}

/-- Whatever follows, the items are parsed as the nodes; each of them needs one step at most. -/
def Parses (parse : Nat → List ι → Option (List ν × List ι)) (items : List ι)
    (nodes : List ν) : Prop :=
  ∀ tail tailNodes rest m,
    (∀ n, m ≤ n → parse n tail = some (tailNodes, rest)) →
    ∀ n, m + items.length ≤ n → parse n (items ++ tail) = some (nodes ++ tailNodes, rest)

theorem Parses.nil : Parses parse [] [] := by
  intro tail tailNodes rest m h n hn
  exact h n hn

theorem Parses.append (h : Parses parse items nodes) (h' : Parses parse items' nodes') :
    Parses parse (items ++ items') (nodes ++ nodes') := by
  intro tail tailNodes rest m htail n hn
  rw [List.length_append] at hn
  rw [List.append_assoc, List.append_assoc]
  exact h _ _ rest (m + items'.length) (h' tail tailNodes rest m htail) n (by omega)

/-- An item that is parsed in one step, before what follows. -/
theorem parses_leaf {item : ι} {node : ν}
    (hitem : ∀ n tail, parse (n + 1) (item :: tail) = do
      let r ← parse n tail
      return (node :: r.1, r.2)) : Parses parse [item] [node] := by
  intro tail tailNodes rest m h n hn
  rw [List.length_singleton] at hn
  obtain ⟨k, rfl⟩ : ∃ k, n = k + 1 := ⟨n - 1, by omega⟩
  rw [List.singleton_append, hitem, h k (by omega)]
  rfl

/-- The parser stops at a mark, which it leaves to the caller. -/
theorem Parses.until_mark (h : Parses parse items nodes) {mark : ι} {tail : List ι}
    (hmark : ∀ n, parse (n + 1) (mark :: tail) = some ([], mark :: tail)) {n : Nat}
    (hn : items.length + 1 ≤ n) :
    parse n (items ++ mark :: tail) = some (nodes, mark :: tail) := by
  have hstop : ∀ n, 1 ≤ n → parse n (mark :: tail) = some ([], mark :: tail) := by
    intro n hn
    obtain ⟨k, rfl⟩ : ∃ k, n = k + 1 := ⟨n - 1, by omega⟩
    exact hmark k
  rw [h _ _ _ 1 hstop n (by omega), List.append_nil]

end LimitedParser
