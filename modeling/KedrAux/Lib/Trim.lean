import Mathlib.Data.List.DropRight
import Mathlib.Tactic

/-!
# Trimmed lists

The elements of a kind are removed from both ends of a list.
-/

namespace Trim

universe u

variable {α : Type u} (p : α → Bool)

def trim (s : List α) : List α :=
  (s.dropWhile p).rdropWhile p

/-- There is nothing to remove at the ends. -/
structure Trimmed (s : List α) : Prop where
  head : ∀ a, s.head? = some a → p a = false
  last : ∀ a, s.getLast? = some a → p a = false

variable {p} {s l r : List α}

theorem head_dropWhile {a : α} (h : (s.dropWhile p).head? = some a) : p a = false := by
  induction s with
  | nil => cases h
  | cons b s ih =>
    by_cases hb : p b = true
    · rw [List.dropWhile_cons_of_pos hb] at h
      exact ih h
    · rw [List.dropWhile_cons_of_neg hb] at h
      cases h
      exact Bool.eq_false_iff.mpr hb

theorem last_rdropWhile {a : α} (h : (s.rdropWhile p).getLast? = some a) : p a = false := by
  have hne : s.rdropWhile p ≠ [] := by
    intro hnil
    rw [hnil] at h
    cases h
  have hlast := List.rdropWhile_last_not p s hne
  rw [List.getLast?_eq_some_getLast hne] at h
  cases h
  exact Bool.eq_false_iff.mpr hlast

theorem trimmed_trim (s : List α) : Trimmed p (trim p s) := by
  refine ⟨fun a ha => ?_, fun a ha => last_rdropWhile ha⟩
  have hne : (s.dropWhile p).rdropWhile p ≠ [] := by
    intro hnil
    rw [trim, hnil] at ha
    cases ha
  obtain ⟨tail, htail⟩ := List.rdropWhile_prefix p (l := s.dropWhile p)
  refine head_dropWhile (s := s) ?_
  rw [← htail, List.head?_append_of_ne_nil _ hne]
  exact ha

@[simp] theorem trim_eq_nil_iff : trim p s = [] ↔ ∀ a ∈ s, p a = true := by
  rw [trim, List.rdropWhile_eq_nil_iff]
  constructor
  · intro h
    by_contra hne
    have hbeg : s.dropWhile p ≠ [] := fun hnil => hne (List.dropWhile_eq_nil_iff.mp hnil)
    have hhead := List.head?_eq_some_head hbeg
    have ha := head_dropWhile hhead
    rw [h _ (List.head_mem hbeg)] at ha
    cases ha
  · intro h a ha
    exact h a ((List.dropWhile_suffix p).subset ha)

theorem trim_of_trimmed (h : Trimmed p s) : trim p s = s := by
  have hbeg : s.dropWhile p = s := by
    cases s with
    | nil => rfl
    | cons a s => exact List.dropWhile_cons_of_neg (by simp [h.head a rfl])
  rw [trim, hbeg, List.rdropWhile_eq_self_iff]
  intro hne
  simp [h.last _ (List.getLast?_eq_some_getLast hne)]

theorem trim_eq_self_iff : trim p s = s ↔ Trimmed p s :=
  ⟨fun h => h ▸ trimmed_trim s, trim_of_trimmed⟩

theorem rdropWhile_append_of_all (hr : ∀ a ∈ r, p a = true) :
    (s ++ r).rdropWhile p = s.rdropWhile p := by
  induction r using List.reverseRecOn with
  | nil => rw [List.append_nil]
  | append_singleton r a ih =>
    rw [← List.append_assoc, List.rdropWhile_concat_pos p _ _ (hr a (by simp))]
    exact ih fun b hb => hr b (by simp [hb])

theorem trim_append (hl : ∀ a ∈ l, p a = true) (hr : ∀ a ∈ r, p a = true) :
    trim p (l ++ s ++ r) = trim p s := by
  have hbeg : (l ++ s ++ r).dropWhile p = (s ++ r).dropWhile p := by
    rw [List.append_assoc, List.dropWhile_append_of_pos hl]
  rw [trim, hbeg]
  by_cases hs : ∀ a ∈ s, p a = true
  · have hall : ∀ a ∈ s ++ r, p a = true := by
      intro a ha
      exact (List.mem_append.mp ha).elim (hs a) (hr a)
    rw [List.dropWhile_eq_nil_iff.mpr hall, trim, List.dropWhile_eq_nil_iff.mpr hs]
  · have hne : s.dropWhile p ≠ [] := fun hnil => hs (List.dropWhile_eq_nil_iff.mp hnil)
    rw [List.dropWhile_append, if_neg (by simpa using hne), rdropWhile_append_of_all hr, trim]

theorem exists_eq_append_trim (s : List α) :
    ∃ l r, (∀ a ∈ l, p a = true) ∧ (∀ a ∈ r, p a = true) ∧ s = l ++ trim p s ++ r := by
  refine ⟨s.takeWhile p, (s.dropWhile p).rtakeWhile p, fun a => List.mem_takeWhile_imp,
    fun a => List.mem_rtakeWhile_imp, ?_⟩
  rw [trim, List.append_assoc, List.rdropWhile_append_rtakeWhile, List.takeWhile_append_dropWhile]

end Trim
