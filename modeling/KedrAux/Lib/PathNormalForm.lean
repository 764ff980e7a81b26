import Mathlib.Tactic

/-!
# Normal forms of paths

A path is cut into components at its separators.  The components are put on a stack; one of them,
`here`, has no effect, and another one, `up`, takes the last component away.
-/

namespace PathNormalForm

universe u

variable {α : Type u} {isSep : α → Bool} {s l : List α} {c : List α} {cs : List (List α)} {x : α}

/-- What is between the separators, as far as it is not empty. -/
def components (isSep : α → Bool) (s : List α) : List (List α) :=
  (s.splitOnP isSep).filter fun c => !c.isEmpty

theorem splitOnP_cons_of_isSep (s : List α) (hx : isSep x = true) :
    (x :: s).splitOnP isSep = [] :: s.splitOnP isSep := by
  rw [List.splitOnP_cons_eq_if_modifyHead, if_pos hx]

@[simp] theorem components_nil : components isSep [] = [] := rfl

theorem components_append_cons (s l : List α) (hx : isSep x = true) :
    components isSep (s ++ x :: l) = components isSep s ++ components isSep l := by
  rw [components, List.splitOnP_append_cons s l hx, List.filter_append]
  rfl

theorem components_cons (s : List α) (hx : isSep x = true) :
    components isSep (x :: s) = components isSep s :=
  components_append_cons [] s hx

theorem components_append_of_all (s : List α) (hl : ∀ a ∈ l, isSep a = true) :
    components isSep (l ++ s) = components isSep s := by
  induction l with
  | nil => rfl
  | cons a l ih =>
    rw [List.cons_append, components_cons _ (hl a List.mem_cons_self)]
    exact ih fun b hb => hl b (List.mem_cons_of_mem a hb)

theorem components_of_none (hc : ∀ a ∈ c, isSep a = false) (hne : c ≠ []) :
    components isSep c = [c] := by
  rw [components, List.splitOnP_eq_singleton hc]
  simp [hne]

theorem components_ne_nil (hc : c ∈ components isSep s) : c ≠ [] := by
  have hfilter := List.of_mem_filter hc
  simpa using hfilter

theorem mem_of_mem_splitOnP (hc : c ∈ s.splitOnP isSep) : ∀ a ∈ c, a ∈ s ∧ isSep a = false := by
  induction s generalizing c with
  | nil =>
    rw [List.splitOnP_nil, List.mem_singleton] at hc
    subst hc
    simp
  | cons b s ih =>
    have hcons : ∀ d ∈ s.splitOnP isSep, ∀ a ∈ d, a ∈ b :: s ∧ isSep a = false :=
      fun d hd a ha => ⟨List.mem_cons_of_mem b (ih hd a ha).1, (ih hd a ha).2⟩
    by_cases hb : isSep b = true
    · rw [splitOnP_cons_of_isSep s hb, List.mem_cons] at hc
      rcases hc with rfl | hc
      · simp
      · exact hcons c hc
    · obtain ⟨d, ds, hds⟩ := List.exists_cons_of_ne_nil (List.splitOnP_ne_nil isSep s)
      rw [List.splitOnP_cons_eq_if_modifyHead, if_neg hb, hds, List.modifyHead_cons,
        List.mem_cons] at hc
      rw [hds] at hcons
      rcases hc with rfl | hc
      · intro a ha
        rcases List.mem_cons.mp ha with rfl | ha
        · exact ⟨List.mem_cons_self, Bool.eq_false_iff.mpr hb⟩
        · exact hcons d List.mem_cons_self a ha
      · exact hcons c (List.mem_cons_of_mem d hc)

theorem components_subset (hc : c ∈ components isSep s) : c ⊆ s :=
  fun a ha => (mem_of_mem_splitOnP (List.mem_of_mem_filter hc) a ha).1

theorem components_not_isSep (hc : c ∈ components isSep s) : ∀ a ∈ c, isSep a = false :=
  fun a ha => (mem_of_mem_splitOnP (List.mem_of_mem_filter hc) a ha).2

/-- The size of a path, with one separator for each component. -/
def size (cs : List (List α)) : Nat :=
  (cs.map fun c => c.length + 1).sum

@[simp] theorem size_append (cs ds : List (List α)) : size (cs ++ ds) = size cs + size ds := by
  rw [size, List.map_append, List.sum_append]
  rfl

theorem size_le_of_sublist {cs ds : List (List α)} (h : cs.Sublist ds) : size cs ≤ size ds :=
  List.Sublist.sum_le_sum (h.map fun c : List α => c.length + 1) fun _ _ => Nat.zero_le _

theorem size_components_le (isSep : α → Bool) (s : List α) :
    size (components isSep s) ≤ s.length + 1 := by
  induction hn : s.length using Nat.strong_induction_on generalizing s with
  | _ n ih =>
    by_cases hsep : ∃ a ∈ s, isSep a = true
    · obtain ⟨a, ha, hsepa⟩ := hsep
      obtain ⟨l, r, rfl⟩ := List.append_of_mem ha
      rw [List.length_append, List.length_cons] at hn
      have hl := ih l.length (by omega) l rfl
      have hr := ih r.length (by omega) r rfl
      rw [components_append_cons l r hsepa, size_append]
      omega
    · have hnone : ∀ a ∈ s, isSep a = false := by
        intro a ha
        exact Bool.eq_false_iff.mpr fun hsepa => hsep ⟨a, ha, hsepa⟩
      by_cases hs : s = []
      · subst hs
        exact Nat.zero_le _
      · rw [components_of_none hnone hs, size, hn.symm]
        simp

def join (sep : α) (cs : List (List α)) : List α :=
  cs.flatMap fun c => sep :: c

/-- The path of the components; without any it is the root. -/
def render (sep : α) (cs : List (List α)) : List α :=
  if cs.isEmpty then [sep] else join sep cs

variable {sep : α}

@[simp] theorem join_cons (c : List α) (cs : List (List α)) :
    join sep (c :: cs) = sep :: (c ++ join sep cs) := rfl

theorem length_join (cs : List (List α)) : (join sep cs).length = size cs := by
  rw [join, List.length_flatMap, size]
  simp only [List.length_cons]

theorem head_render (cs : List (List α)) : (render sep cs).head? = some sep := by
  cases cs with
  | nil => rfl
  | cons c cs => rfl

theorem mem_render {a : α} (ha : a ∈ render sep cs) : a = sep ∨ ∃ c ∈ cs, a ∈ c := by
  rw [render] at ha
  split_ifs at ha
  · exact Or.inl (List.mem_singleton.mp ha)
  · obtain ⟨c, hc, ha⟩ := List.mem_flatMap.mp ha
    rcases List.mem_cons.mp ha with rfl | ha
    · exact Or.inl rfl
    · exact Or.inr ⟨c, hc, ha⟩

theorem splitOnP_join (hsep : isSep sep = true) (hcs : ∀ c ∈ cs, ∀ a ∈ c, isSep a = false) :
    (join sep cs).splitOnP isSep = [] :: cs := by
  induction cs with
  | nil => rfl
  | cons c cs ih =>
    have hrest := ih fun d hd => hcs d (List.mem_cons_of_mem c hd)
    have hc := hcs c List.mem_cons_self
    rw [join_cons, splitOnP_cons_of_isSep _ hsep]
    congr 1
    cases cs with
    | nil => rw [join, List.flatMap_nil, List.append_nil, List.splitOnP_eq_singleton hc]
    | cons d cs =>
      rw [join_cons, splitOnP_cons_of_isSep _ hsep] at hrest
      rw [join_cons, List.splitOnP_append_cons_of_forall_mem hc sep hsep,
        List.tail_eq_of_cons_eq hrest]

theorem components_render (hsep : isSep sep = true)
    (hcs : ∀ c ∈ cs, c ≠ [] ∧ ∀ a ∈ c, isSep a = false) :
    components isSep (render sep cs) = cs := by
  cases cs with
  | nil => exact components_cons [] hsep
  | cons c cs =>
    change components isSep (join sep (c :: cs)) = c :: cs
    rw [components, splitOnP_join hsep fun d hd => (hcs d hd).2,
      List.filter_cons_of_neg (by simp), List.filter_eq_self]
    intro d hd
    simp [(hcs d hd).1]

theorem splitOnP_tail_join (hsep : isSep sep = true) (hne : cs ≠ [])
    (hcs : ∀ c ∈ cs, ∀ a ∈ c, isSep a = false) :
    (join sep cs).tail.splitOnP isSep = cs := by
  obtain ⟨c, cs, rfl⟩ := List.exists_cons_of_ne_nil hne
  have hsplit := splitOnP_join hsep hcs
  rw [join_cons, splitOnP_cons_of_isSep _ hsep] at hsplit
  exact List.tail_eq_of_cons_eq hsplit

variable [DecidableEq α] {here up : List α}

def push (here up : List α) (stack : List (List α)) (c : List α) : List (List α) :=
  if c = here then stack
  else if c = up then stack.dropLast
  else stack ++ [c]

def resolve (here up : List α) (cs : List (List α)) : List (List α) :=
  cs.foldl (push here up) []

@[simp] theorem resolve_nil : resolve here up [] = [] := rfl

theorem resolve_append_singleton (cs : List (List α)) (c : List α) :
    resolve here up (cs ++ [c]) = push here up (resolve here up cs) c := by
  rw [resolve, List.foldl_append]
  rfl

theorem resolve_sublist (here up : List α) (cs : List (List α)) : (resolve here up cs).Sublist cs := by
  induction cs using List.reverseRecOn with
  | nil => exact List.Sublist.refl []
  | append_singleton cs c ih =>
    rw [resolve_append_singleton, push]
    split_ifs
    · exact ih.trans (List.sublist_append_left cs [c])
    · exact (List.dropLast_sublist _).trans (ih.trans (List.sublist_append_left cs [c]))
    · exact ih.append (List.Sublist.refl [c])

theorem ne_of_mem_resolve (hc : c ∈ resolve here up cs) : c ≠ here ∧ c ≠ up := by
  induction cs using List.reverseRecOn with
  | nil => cases hc
  | append_singleton cs d ih =>
    rw [resolve_append_singleton, push] at hc
    split_ifs at hc with hhere hup
    · exact ih hc
    · exact ih (List.mem_of_mem_dropLast hc)
    · rcases List.mem_append.mp hc with hc | hc
      · exact ih hc
      · rw [List.mem_singleton.mp hc]
        exact ⟨hhere, hup⟩

theorem resolve_of_ne (h : ∀ c ∈ cs, c ≠ here ∧ c ≠ up) : resolve here up cs = cs := by
  induction cs using List.reverseRecOn with
  | nil => rfl
  | append_singleton cs c ih =>
    have hc := h c (by simp)
    rw [resolve_append_singleton, ih fun d hd => h d (by simp [hd]), push, if_neg hc.1,
      if_neg hc.2]

/-- The path with the components that stay on the stack. -/
def normalized (isSep : α → Bool) (here up : List α) (sep : α) (s : List α) : List α :=
  render sep (resolve here up (components isSep s))

theorem mem_resolve_components (hc : c ∈ resolve here up (components isSep s)) :
    c ≠ [] ∧ (∀ a ∈ c, isSep a = false) ∧ c ≠ here ∧ c ≠ up := by
  have hmem := (resolve_sublist here up (components isSep s)).subset hc
  exact ⟨components_ne_nil hmem, components_not_isSep hmem, ne_of_mem_resolve hc⟩

theorem mem_normalized {a : α} (ha : a ∈ normalized isSep here up sep s) :
    a = sep ∨ a ∈ s ∧ isSep a = false := by
  rcases mem_render ha with rfl | ⟨c, hc, ha⟩
  · exact Or.inl rfl
  · have hmem := (resolve_sublist here up (components isSep s)).subset hc
    exact Or.inr ⟨components_subset hmem ha, components_not_isSep hmem a ha⟩

theorem normalized_normalized (hsep : isSep sep = true) (s : List α) :
    normalized isSep here up sep (normalized isSep here up sep s) =
      normalized isSep here up sep s := by
  have hcs : ∀ c ∈ resolve here up (components isSep s), _ :=
    fun c hc => mem_resolve_components hc
  rw [normalized, normalized, components_render hsep fun c hc => ⟨(hcs c hc).1, (hcs c hc).2.1⟩,
    resolve_of_ne fun c hc => (hcs c hc).2.2]

/-- One separator in front of each component, and only such components that stay; or the root. -/
structure NormalForm (isSep : α → Bool) (here up : List α) (sep : α) (s : List α) : Prop where
  head : s.head? = some sep
  components : s ≠ [sep] →
    ∀ c ∈ s.tail.splitOn sep, c ≠ [] ∧ (∀ a ∈ c, isSep a = false) ∧ c ≠ here ∧ c ≠ up

theorem normalForm_normalized (s : List α) (hsep : isSep sep = true) :
    NormalForm isSep here up sep (normalized isSep here up sep s) := by
  have hmem : ∀ c ∈ resolve here up (components isSep s), _ :=
    fun c hc => mem_resolve_components hc
  refine ⟨head_render _, fun hroot c hc => ?_⟩
  rw [normalized, render] at hroot hc
  by_cases hnil : (resolve here up (components isSep s)).isEmpty = true
  · rw [if_pos hnil] at hroot
    exact absurd rfl hroot
  · have hsplit : (join sep (resolve here up (components isSep s))).tail.splitOnP (· == sep) =
        resolve here up (components isSep s) := splitOnP_tail_join (beq_self_eq_true sep)
      (fun h => hnil (List.isEmpty_iff.mpr h)) fun d hd a ha => by
        have hnot := (hmem d hd).2.1 a ha
        exact beq_eq_false_iff_ne.mpr fun heq => by rw [heq, hsep] at hnot; cases hnot
    rw [if_neg hnil, List.splitOn_eq_splitOnP, hsplit] at hc
    exact hmem c hc

end PathNormalForm
