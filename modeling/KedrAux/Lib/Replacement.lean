import KedrAux.Lib.Substring

/-!
# Replacement of substrings

The occurrences of a list in another one are replaced from left to right; the next occurrence
is searched behind the last one.
-/

namespace Replacement

universe u

variable {α : Type u}

/-- The list `s` becomes `t` when `c` occurrences of `what` are replaced by `by_`. -/
inductive Replaces (what by_ : List α) : List α → List α → Nat → Prop where
  | none {s : List α} : ¬ what <:+: s → Replaces what by_ s s 0
  | some {before after t : List α} {c : Nat} :
      Substring.NoneBefore what (before ++ what ++ after) before.length →
      Replaces what by_ after t c →
      Replaces what by_ (before ++ what ++ after) (before ++ by_ ++ t) (c + 1)

variable {what by_ s t t' : List α} {c c' : Nat}

theorem Replaces.length_eq (h : Replaces what by_ s t c) :
    t.length + c * what.length = s.length + c * by_.length := by
  induction h with
  | none => simp
  | some _ _ ih =>
    simp only [List.length_append, Nat.succ_mul]
    omega

theorem Replaces.count_mul_le (h : Replaces what by_ s t c) : c * what.length ≤ s.length := by
  induction h with
  | none => simp
  | some _ _ ih =>
    simp only [List.length_append, Nat.succ_mul]
    omega

theorem Replaces.eq_of_zero (h : Replaces what by_ s t 0) : t = s := by
  cases h
  rfl

theorem Replaces.mem_or_mem (h : Replaces what by_ s t c) {a : α} (ha : a ∈ t) :
    a ∈ s ∨ a ∈ by_ := by
  induction h with
  | none => exact Or.inl ha
  | some _ _ ih =>
    simp only [List.mem_append] at ha ⊢
    rcases ha with (ha | ha) | ha
    · exact Or.inl (Or.inl (Or.inl ha))
    · exact Or.inr ha
    · exact (ih ha).imp_left Or.inr

theorem replaces_of_find [DecidableEq α] {before after : List α}
    (hfind : Substring.find what s = some (before, after)) (h : Replaces what by_ after t c) :
    Replaces what by_ s (before ++ by_ ++ t) (c + 1) := by
  obtain ⟨rfl, hnone⟩ := Substring.find_eq_some_iff.mp hfind
  exact .some hnone h

theorem exists_replaces (hne : what ≠ []) (by_ s : List α) : ∃ t c, Replaces what by_ s t c := by
  classical
  induction hn : s.length using Nat.strong_induction_on generalizing s with
  | h n ih =>
    cases hfind : Substring.find what s with
    | none => exact ⟨s, 0, .none (Substring.find_eq_none_iff.mp hfind)⟩
    | some split =>
      obtain ⟨before, after⟩ := split
      have hlength := congrArg List.length (Substring.find_append hfind)
      have hpos := List.length_pos_iff.mpr hne
      rw [List.length_append, List.length_append] at hlength
      obtain ⟨t, c, h⟩ := ih after.length (by omega) after rfl
      exact ⟨before ++ by_ ++ t, c + 1, replaces_of_find hfind h⟩

theorem infix_of_parts {before after : List α} : what <:+: before ++ what ++ after :=
  ⟨before, after, rfl⟩

theorem exists_replaces_replicate (a : α) (by_ : List α) (n : Nat) :
    ∃ t, Replaces [a] by_ (List.replicate n a) t n := by
  induction n with
  | zero => exact ⟨[], .none (by simp)⟩
  | succ n ih =>
    obtain ⟨t, h⟩ := ih
    exact ⟨[] ++ by_ ++ t, .some (Substring.noneBefore_zero [a] ([] ++ [a] ++ _)) h⟩

theorem Replaces.unique (h : Replaces what by_ s t c) (h' : Replaces what by_ s t' c') :
    t = t' ∧ c = c' := by
  classical
  induction h generalizing t' c' with
  | none hno =>
    cases h' with
    | none => exact ⟨rfl, rfl⟩
    | some => exact absurd infix_of_parts hno
  | @some before after t c hbefore _ ih =>
    have hfind := Substring.find_eq_some_iff.mpr ⟨rfl, hbefore⟩
    generalize hs : before ++ what ++ after = s at h' hfind
    cases h' with
    | none hno => exact absurd (hs ▸ infix_of_parts) hno
    | some hbefore' hrest =>
      rw [Substring.find_eq_some_iff.mpr ⟨rfl, hbefore'⟩] at hfind
      cases hfind
      obtain ⟨rfl, rfl⟩ := ih hrest
      exact ⟨rfl, rfl⟩

theorem infix_or_of_infix_append_cons {l r : List α} {a : α} (ha : a ∉ what)
    (h : what <:+: l ++ a :: r) : what <:+: l ∨ what <:+: r := by
  induction l with
  | nil =>
    rcases List.infix_cons_iff.mp h with hpre | hin
    · exact Or.inl (Substring.isPrefix_of_isPrefix_append_cons ha hpre).isInfix
    · exact Or.inr hin
  | cons b l ih =>
    rcases List.infix_cons_iff.mp h with hpre | hin
    · exact Or.inl (Substring.isPrefix_of_isPrefix_append_cons ha hpre).isInfix
    · exact (ih hin).imp_left fun hl => hl.trans (List.suffix_cons b l).isInfix

theorem infix_or_of_infix_append {l m r : List α} (hne : m ≠ []) (hm : ∀ a ∈ m, a ∉ what)
    (h : what <:+: l ++ m ++ r) : what <:+: l ∨ what <:+: r := by
  induction m generalizing l with
  | nil => exact absurd rfl hne
  | cons a m ih =>
    rw [List.append_assoc, List.cons_append] at h
    rcases infix_or_of_infix_append_cons (hm a List.mem_cons_self) h with hl | hr
    · exact Or.inl hl
    · by_cases hnil : m = []
      · rw [hnil, List.nil_append] at hr
        exact Or.inr hr
      · rw [← List.nil_append m] at hr
        rcases ih hnil (fun b hb => hm b (List.mem_cons_of_mem a hb)) hr with hempty | hr
        · exact Or.inl (hempty.trans List.nil_infix)
        · exact Or.inr hr

theorem Replaces.not_isInfix (h : Replaces what by_ s t c) (hne : by_ ≠ [])
    (hby : ∀ a ∈ by_, a ∉ what) : ¬ what <:+: t := by
  induction h with
  | none hno => exact hno
  | @some before after t c hbefore _ ih =>
    intro hin
    rcases infix_or_of_infix_append hne hby hin with ⟨l, r, hl⟩ | hr
    · by_cases hwhat : what = []
      · exact ih (hwhat ▸ List.nil_infix)
      · have hpos := List.length_pos_iff.mpr hwhat
        have hlength := congrArg List.length hl
        rw [List.length_append, List.length_append] at hlength
        refine hbefore l.length (by omega) ⟨r ++ what ++ after, ?_⟩
        rw [← hl]
        simp [List.append_assoc]
    · exact ih hr

end Replacement
