import Mathlib.Data.List.DropRight
import Mathlib.Tactic

/-!
# Insertion from the tail

An element is inserted into a list behind the last element whose key is not greater.  The
place is found on the way from the tail of the list.
-/

namespace TailInsertion

universe u v

variable {α : Type u} {κ : Type v} [LinearOrder κ]

def insert (key : α → κ) (a : α) (k : κ) (l : List α) : List α :=
  let newer := fun b => !decide (key b ≤ k)
  l.rdropWhile newer ++ a :: l.rtakeWhile newer

theorem rdropWhile_append_rtakeWhile (p : α → Bool) (l : List α) :
    l.rdropWhile p ++ l.rtakeWhile p = l := by
  rw [List.rdropWhile, List.rtakeWhile, ← List.reverse_append, List.takeWhile_append_dropWhile,
    List.reverse_reverse]

theorem insert_perm (key : α → κ) (a : α) (k : κ) (l : List α) :
    (insert key a k l).Perm (a :: l) := by
  have hmiddle : (insert key a k l).Perm (a :: (l.rdropWhile (fun b => !decide (key b ≤ k)) ++
      l.rtakeWhile fun b => !decide (key b ≤ k))) :=
    List.perm_middle
  rwa [rdropWhile_append_rtakeWhile] at hmiddle

variable {key : α → κ} {l : List α}

theorem key_le_of_mem_rdropWhile (hsorted : l.Pairwise fun b c => key b ≤ key c) (k : κ)
    {b : α} (hb : b ∈ l.rdropWhile fun b => !decide (key b ≤ k)) :
    key b ≤ k := by
  induction l using List.reverseRecOn with
  | nil => cases hb
  | append_singleton l c ih =>
    obtain ⟨hl, -, hc⟩ := List.pairwise_append.mp hsorted
    by_cases hle : key c ≤ k
    · rw [List.rdropWhile_concat_neg _ _ _ (by simpa using hle)] at hb
      rcases List.mem_append.mp hb with hb | hb
      · exact (hc b hb c List.mem_cons_self).trans hle
      · exact List.eq_of_mem_singleton hb ▸ hle
    · rw [List.rdropWhile_concat_pos _ _ _ (by simpa using hle)] at hb
      exact ih hl hb

theorem lt_key_of_mem_rtakeWhile {k : κ} {b : α}
    (hb : b ∈ l.rtakeWhile fun b => !decide (key b ≤ k)) :
    k < key b := by
  simpa using List.mem_rtakeWhile_imp hb

/-- The list stays sorted when the key of the inserted element changes. -/
theorem insert_sorted
    {key' : α → κ} {a : α} (hsorted : l.Pairwise fun b c => key b ≤ key c)
    (hkey : ∀ b ∈ l, key' b = key b) :
    (insert key a (key' a) l).Pairwise fun b c => key' b ≤ key' c := by
  have hsub := rdropWhile_append_rtakeWhile (fun b => !decide (key b ≤ key' a)) l
  have hl' : l.Pairwise fun b c => key' b ≤ key' c :=
    hsorted.imp_of_mem fun hb hc hle => by rwa [hkey _ hb, hkey _ hc]
  have hparts := hl'
  rw [← hsub] at hparts
  obtain ⟨hdrop, htake, hcross⟩ := List.pairwise_append.mp hparts
  have hmemDrop : ∀ b, b ∈ l.rdropWhile (fun b => !decide (key b ≤ key' a)) → b ∈ l :=
    fun b hb => hsub ▸ List.mem_append_left _ hb
  have hmemTake : ∀ b, b ∈ l.rtakeWhile (fun b => !decide (key b ≤ key' a)) → b ∈ l :=
    fun b hb => hsub ▸ List.mem_append_right _ hb
  refine List.pairwise_append.mpr ⟨hdrop, List.pairwise_cons.mpr ⟨?_, htake⟩, ?_⟩
  · intro b hb
    rw [hkey b (hmemTake b hb)]
    exact (lt_key_of_mem_rtakeWhile hb).le
  · intro b hb c hc
    rcases List.mem_cons.mp hc with rfl | hc
    · rw [hkey b (hmemDrop b hb)]
      exact key_le_of_mem_rdropWhile hsorted _ hb
    · exact hcross b hb c hc

end TailInsertion
