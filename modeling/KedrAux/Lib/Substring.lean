import Mathlib.Tactic

/-!
# The first occurrence of a substring

`find` splits a list at the first place where another list begins.
-/

namespace Substring

universe u

variable {α : Type u}

/-- No `what` begins in `s` at one of the first `n` places. -/
def NoneBefore (what s : List α) (n : Nat) : Prop :=
  ∀ i, i < n → ¬ what <+: s.drop i

@[simp] theorem noneBefore_zero (what s : List α) : NoneBefore what s 0 :=
  fun _ hi => absurd hi (Nat.not_lt_zero _)

theorem noneBefore_cons_succ {what s : List α} {a : α} {n : Nat} :
    NoneBefore what (a :: s) (n + 1) ↔ ¬ what <+: a :: s ∧ NoneBefore what s n := by
  constructor
  · intro h
    exact ⟨h 0 (Nat.succ_pos n), fun i hi => h (i + 1) (Nat.succ_lt_succ hi)⟩
  · rintro ⟨hhead, htail⟩ i hi
    cases i with
    | zero => exact hhead
    | succ i => exact htail i (Nat.lt_of_succ_lt_succ hi)

theorem isPrefix_of_isPrefix_append_cons {what l r : List α} {a : α} (ha : a ∉ what)
    (h : what <+: l ++ a :: r) : what <+: l := by
  rcases List.prefix_or_prefix_of_prefix h (List.prefix_append l (a :: r)) with hl | ⟨rest, rfl⟩
  · exact hl
  · cases rest with
    | nil => rw [List.append_nil]
    | cons b rest =>
      rw [List.prefix_append_right_inj] at h
      obtain ⟨rfl, -⟩ := List.cons_prefix_cons.mp h
      exact absurd (by simp) ha

/-- What is before the first `what`, and what is after it. -/
def find [DecidableEq α] (what : List α) : List α → Option (List α × List α)
  | [] => if what = [] then some ([], []) else none
  | a :: s =>
    if what <+: a :: s then some ([], (a :: s).drop what.length)
    else (find what s).map fun split => (a :: split.1, split.2)

variable [DecidableEq α] {what s before after : List α}

theorem find_of_isPrefix (h : what <+: s) : find what s = some ([], s.drop what.length) := by
  cases s with
  | nil =>
    rw [List.prefix_nil.mp h]
    rfl
  | cons a s => rw [find, if_pos h]

theorem find_cons_of_not_isPrefix {a : α} (h : ¬ what <+: a :: s) :
    find what (a :: s) = (find what s).map fun split => (a :: split.1, split.2) := by
  rw [find, if_neg h]

theorem find_eq_none_iff : find what s = none ↔ ¬ what <:+: s := by
  induction s with
  | nil =>
    rw [find, List.infix_nil]
    by_cases h : what = [] <;> simp [h]
  | cons a s ih =>
    rw [List.infix_cons_iff]
    by_cases h : what <+: a :: s
    · rw [find_of_isPrefix h]
      simp [h]
    · rw [find_cons_of_not_isPrefix h, Option.map_eq_none_iff, ih]
      simp [h]

theorem find_eq_some_iff :
    find what s = some (before, after) ↔
      s = before ++ what ++ after ∧ NoneBefore what s before.length := by
  induction s generalizing before with
  | nil =>
    rw [find]
    constructor
    · intro h
      split_ifs at h with hwhat
      cases h
      exact ⟨by simp [hwhat], noneBefore_zero what []⟩
    · rintro ⟨h, -⟩
      obtain ⟨hleft, rfl⟩ := List.append_eq_nil_iff.mp h.symm
      obtain ⟨rfl, rfl⟩ := List.append_eq_nil_iff.mp hleft
      rfl
  | cons a s ih =>
    by_cases h : what <+: a :: s
    · rw [find_of_isPrefix h]
      constructor
      · rintro ⟨⟩
        exact ⟨(List.prefix_iff_eq_append.mp h).symm, noneBefore_zero what _⟩
      · rintro ⟨heq, hnone⟩
        cases before with
        | nil =>
          rw [heq, List.nil_append, List.drop_left]
        | cons b before => exact absurd h (hnone 0 (Nat.succ_pos _))
    · rw [find_cons_of_not_isPrefix h, Option.map_eq_some_iff]
      constructor
      · rintro ⟨⟨before', after'⟩, hfind, heq⟩
        cases heq
        obtain ⟨hs, hnone⟩ := ih.mp hfind
        refine ⟨?_, noneBefore_cons_succ.mpr ⟨h, hnone⟩⟩
        rw [hs]
        rfl
      · rintro ⟨heq, hnone⟩
        cases before with
        | nil =>
          rw [List.nil_append] at heq
          exact absurd ⟨after, heq.symm⟩ h
        | cons b before =>
          obtain ⟨rfl, hs⟩ := List.cons.inj heq
          exact ⟨(before, after), ih.mpr ⟨hs, (noneBefore_cons_succ.mp hnone).2⟩, rfl⟩

theorem find_append (h : find what s = some (before, after)) : s = before ++ what ++ after :=
  (find_eq_some_iff.mp h).1

end Substring
