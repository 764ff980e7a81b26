import Mathlib.Data.List.Basic
import Mathlib.Data.List.TakeWhile

/-!
# Names that are made of components

Components of a name are separated by one character; in a proper name no component is empty.
-/

namespace DottedNames

variable {α : Type*} {sep : α} {n a b : List α}

theorem intercalate_concat {xs : List (List α)} (hxs : xs ≠ []) (x : List α) :
    [sep].intercalate (xs ++ [x]) = [sep].intercalate xs ++ sep :: x := by
  induction xs with
  | nil => exact absurd rfl hxs
  | cons y xs ih =>
    cases xs with
    | nil => simp
    | cons z xs =>
      have ih := ih (List.cons_ne_nil _ _)
      rw [List.cons_append] at ih
      rw [List.cons_append, List.cons_append, List.intercalate_cons_cons, ih,
        List.intercalate_cons_cons, List.append_assoc, List.append_assoc, List.append_assoc]

variable [DecidableEq α]

def Proper (sep : α) (n : List α) : Prop := ∀ c ∈ n.splitOn sep, c ≠ []

instance : Decidable (Proper sep n) := inferInstanceAs (Decidable (∀ c ∈ n.splitOn sep, c ≠ []))

theorem Proper.right (h : Proper sep (a ++ sep :: b)) : Proper sep b := by
  intro c hc
  apply h c
  rw [List.splitOn_append_cons_self]
  exact List.mem_append_right _ hc

theorem Proper.takeWhile_ne_nil (h : Proper sep n) : n.takeWhile (· ≠ sep) ≠ [] := by
  cases n with
  | nil => exact absurd rfl (h [] (by simp))
  | cons c n =>
    by_cases hc : c = sep
    · subst hc
      have hmem : [] ∈ (c :: n).splitOn c := by simp [List.splitOn_cons_eq_if_modifyHead]
      exact absurd rfl (h [] hmem)
    · rw [List.takeWhile_cons_of_pos (by simpa using hc)]
      exact List.cons_ne_nil _ _

theorem eq_takeWhile_or (sep : α) (n : List α) :
    n = n.takeWhile (· ≠ sep) ∨ n.takeWhile (· ≠ sep) ++ [sep] <+: n := by
  induction n with
  | nil => exact .inl rfl
  | cons c n ih =>
    by_cases hc : c = sep
    · right
      rw [List.takeWhile_cons_of_neg (by simpa using hc), hc]
      exact ⟨n, rfl⟩
    · rw [List.takeWhile_cons_of_pos (by simpa using hc)]
      rcases ih with heq | hle
      · exact .inl (congrArg _ heq)
      · exact .inr ((List.prefix_cons_inj c).mpr hle)

theorem splitOn_append_cons (a : List α) (hb : sep ∉ b) :
    (a ++ sep :: b).splitOn sep = a.splitOn sep ++ [b] := by
  rw [List.splitOn_append_cons_self, List.splitOn_eq_singleton hb]

theorem mem_of_mem_splitOn {x : List α} (hx : x ∈ n.splitOn sep) {c : α} (hc : c ∈ x) :
    c ∈ n ∧ c ≠ sep := by
  induction n generalizing x with
  | nil =>
    rw [List.splitOn_nil, List.mem_singleton] at hx
    rw [hx] at hc
    cases hc
  | cons d n ih =>
    rw [List.splitOn_cons_eq_if_modifyHead] at hx
    by_cases hd : d = sep
    · rw [if_pos (by simpa using hd)] at hx
      rcases List.mem_cons.mp hx with rfl | hx
      · cases hc
      · exact ⟨List.mem_cons_of_mem _ (ih hx hc).1, (ih hx hc).2⟩
    · rw [if_neg (by simpa using hd)] at hx
      obtain ⟨y, ys, hsplit⟩ := List.exists_cons_of_ne_nil (List.splitOn_ne_nil sep n)
      rw [hsplit, List.modifyHead_cons] at hx
      rw [hsplit] at ih
      rcases List.mem_cons.mp hx with rfl | hx
      · rcases List.mem_cons.mp hc with rfl | hc
        · exact ⟨List.mem_cons_self, hd⟩
        · have hmem := ih List.mem_cons_self hc
          exact ⟨List.mem_cons_of_mem _ hmem.1, hmem.2⟩
      · have hmem := ih (List.mem_cons_of_mem _ hx) hc
        exact ⟨List.mem_cons_of_mem _ hmem.1, hmem.2⟩

theorem exists_splitOn_eq (sep : α) (n : List α) :
    ∃ xs, n.splitOn sep = n.takeWhile (· ≠ sep) :: xs := by
  induction n with
  | nil => exact ⟨[], rfl⟩
  | cons d n ih =>
    obtain ⟨xs, hxs⟩ := ih
    rw [List.splitOn_cons_eq_if_modifyHead]
    by_cases hd : d = sep
    · rw [if_pos (by simpa using hd), List.takeWhile_cons_of_neg (by simpa using hd)]
      exact ⟨_, rfl⟩
    · rw [if_neg (by simpa using hd), List.takeWhile_cons_of_pos (by simpa using hd), hxs]
      exact ⟨xs, rfl⟩

section Last

variable (sep n)

/-- The name without its last component. -/
def parent : List α := ((n.reverse.dropWhile (· ≠ sep)).drop 1).reverse

def last : List α := (n.reverse.takeWhile (· ≠ sep)).reverse

variable {sep n}

theorem parent_last_append (a : List α) (hb : sep ∉ b) :
    parent sep (a ++ sep :: b) = a ∧ last sep (a ++ sep :: b) = b := by
  have hpos : ∀ c ∈ b.reverse, decide (c ≠ sep) = true := by
    intro c hc
    simpa using fun heq : c = sep => hb (heq ▸ List.mem_reverse.mp hc)
  have hreverse : (a ++ sep :: b).reverse = b.reverse ++ sep :: a.reverse := by simp
  constructor
  · rw [parent, hreverse, List.dropWhile_append_of_pos hpos,
      List.dropWhile_cons_of_neg (by simp), List.drop_one, List.tail_cons, List.reverse_reverse]
  · rw [last, hreverse, List.takeWhile_append_of_pos hpos,
      List.takeWhile_cons_of_neg (by simp), List.append_nil, List.reverse_reverse]

theorem parent_last_of_notMem (h : sep ∉ n) : parent sep n = [] ∧ last sep n = n := by
  have hpos : ∀ c ∈ n.reverse, decide (c ≠ sep) = true := by
    intro c hc
    simpa using fun heq : c = sep => h (heq ▸ List.mem_reverse.mp hc)
  constructor
  · rw [parent, List.dropWhile_eq_nil_iff.mpr hpos]
    rfl
  · rw [last, List.takeWhile_eq_self_iff.mpr hpos, List.reverse_reverse]

theorem exists_last (h : sep ∈ n) : ∃ b, n = parent sep n ++ sep :: b ∧ last sep n = b ∧ sep ∉ b := by
  obtain ⟨as, bs, heq, has⟩ := List.eq_append_cons_of_mem (List.mem_reverse.mpr h)
  have hn : n = bs.reverse ++ sep :: as.reverse := by
    rw [← List.reverse_reverse n, heq]
    simp
  have hb : sep ∉ as.reverse := fun hmem => has (List.mem_reverse.mp hmem)
  obtain ⟨hparent, hlast⟩ := parent_last_append bs.reverse hb
  rw [← hn] at hparent hlast
  exact ⟨as.reverse, by rw [hparent, ← hn], hlast, hb⟩

theorem length_parent_lt (h : n ≠ []) : (parent sep n).length < n.length := by
  by_cases hmem : sep ∈ n
  · obtain ⟨b, hb, _⟩ := exists_last hmem
    have hlength := congrArg List.length hb
    rw [List.length_append, List.length_cons] at hlength
    omega
  · rw [(parent_last_of_notMem hmem).1]
    exact List.length_pos_iff.mpr h

end Last

end DottedNames
