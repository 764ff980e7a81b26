import Mathlib.Tactic
import Mathlib.Order.Lex
import Mathlib.Data.List.Lex

/-!
# Prefixes of ordered lists

In lexicographic order the lists that begin with a given list form an interval which
the given list starts.  So they can be found by a scan of a sorted sequence, and a
common prefix can be computed by a scan that compares only the positions which both
lists have.
-/

namespace CommonPrefix

universe u v

section

variable {β : Type v} {low inside : β → Bool}

theorem takeWhile_dropWhile {l : List β} (hlow : ∀ b, low b = true → inside b = false)
    (hsorted : l.Pairwise fun a b =>
      (low b = true → low a = true) ∧ (low a = false → inside b = true → inside a = true)) :
    (l.dropWhile low).takeWhile inside = l.filter inside := by
  have htake : ∀ l : List β, (l.Pairwise fun a b => inside b = true → inside a = true) →
      l.takeWhile inside = l.filter inside := by
    intro l hl
    induction l with
    | nil => rfl
    | cons a l ih =>
      obtain ⟨ha, hl⟩ := List.pairwise_cons.mp hl
      cases hin : inside a with
      | true => rw [List.takeWhile_cons_of_pos hin, List.filter_cons_of_pos hin, ih hl]
      | false =>
        rw [List.takeWhile_cons_of_neg (by simp [hin]), List.filter_cons_of_neg (by simp [hin])]
        symm
        rw [List.filter_eq_nil_iff]
        intro b hb hin'
        rw [ha b hb hin'] at hin
        cases hin
  induction l with
  | nil => rfl
  | cons a l ih =>
    obtain ⟨ha, hl⟩ := List.pairwise_cons.mp hsorted
    cases hla : low a with
    | true =>
      rw [List.dropWhile_cons_of_pos hla, ih hl,
        List.filter_cons_of_neg (by simp [hlow a hla])]
    | false =>
      rw [List.dropWhile_cons_of_neg (by simp [hla])]
      apply htake
      -- nothing behind the first element that is not low is low
      have hnot : ∀ b ∈ a :: l, low b = false := by
        intro b hb
        rcases List.mem_cons.mp hb with rfl | hb
        · exact hla
        · by_contra hlb
          rw [(ha b hb).1 (by simpa using hlb)] at hla
          cases hla
      exact hsorted.imp_of_mem fun hx _ h => h.2 (hnot _ hx)

end

variable {α : Type u} [LinearOrder α]

theorem le_of_isPrefix {p l : List α} (h : p <+: l) : p ≤ l :=
  not_lt.mp h.le

@[simp] theorem cons_le_cons {a b : α} {l m : List α} : a :: l ≤ b :: m ↔ a < b ∨ a = b ∧ l ≤ m := by
  rw [← not_lt, ← not_lt, List.cons_lt_cons_iff, not_or, not_lt, not_and]
  constructor
  · rintro ⟨hle, hlm⟩
    rcases hle.lt_or_eq with hlt | heq
    · exact Or.inl hlt
    · exact Or.inr ⟨heq, hlm heq.symm⟩
  · rintro (hlt | ⟨rfl, hlm⟩)
    · exact ⟨hlt.le, fun heq => absurd heq.symm hlt.ne⟩
    · exact ⟨le_rfl, fun _ => hlm⟩

theorem prefix_of_between {p f g : List α} (hpf : p ≤ f) (hfg : f ≤ g) (hpg : p <+: g) :
    p <+: f := by
  induction p generalizing f g with
  | nil => exact List.nil_prefix
  | cons a p ih =>
    obtain ⟨g, rfl, hg⟩ : ∃ g', g = a :: g' ∧ p <+: g' := by
      obtain ⟨t, rfl⟩ := hpg
      exact ⟨p ++ t, rfl, t, rfl⟩
    cases f with
    | nil =>
      have hle : [] ≤ a :: p := le_of_isPrefix (List.prefix_append [] (a :: p))
      exact absurd hle (not_le.mpr (lt_of_le_of_ne hpf (by simp)))
    | cons b f =>
      rw [cons_le_cons] at hpf hfg
      obtain rfl : a = b := by
        rcases hpf with hlt | ⟨heq, -⟩
        · rcases hfg with hlt' | ⟨heq', -⟩
          · exact absurd (hlt.trans hlt') (lt_irrefl a)
          · exact heq'.symm
        · exact heq
      have hpf' : p ≤ f := (hpf.resolve_left (lt_irrefl a)).2
      have hfg' : f ≤ g := (hfg.resolve_left (lt_irrefl a)).2
      exact List.prefix_cons_inj a |>.mpr (ih hpf' hfg' hg)

/-- `p` begins all the lists, and everything that begins all of them begins `p`. -/
structure IsLongest (p : List α) (names : List (List α)) : Prop where
  common : ∀ n ∈ names, p <+: n
  longest : ∀ q, (∀ n ∈ names, q <+: n) → q <+: p

omit [LinearOrder α] in
theorem isLongest_singleton (n : List α) :
    IsLongest n [n] where
  common := by simp
  longest q hq := hq n List.mem_cons_self

theorem IsLongest.keep {p : List α} {names : List (List α)} (h : IsLongest p names) {n m : List α}
    (hm : m ∈ names) (hle : m ≤ n) (hagree : p <+: n ∨ n <+: p) :
    IsLongest p (names ++ [n]) := by
  have hpn : p <+: n := by
    rcases hagree with hpn | hnp
    · exact hpn
    · have hnm : n <+: m := hnp.trans (h.common m hm)
      rw [le_antisymm (le_of_isPrefix hnm) hle]
      exact h.common m hm
  constructor
  · intro k hk
    rcases List.mem_append.mp hk with hk | hk
    · exact h.common k hk
    · rw [List.mem_singleton.mp hk]
      exact hpn
  · exact fun q hq => h.longest q fun k hk => hq k (List.mem_append_left _ hk)

omit [LinearOrder α] in
theorem IsLongest.cut
    {p : List α} {names : List (List α)} (h : IsLongest p names) {n : List α} {i : Nat}
    (hsame : p.take i = n.take i) (hp : i < p.length) (hn : i < n.length) (hdiff : p[i] ≠ n[i]) :
    IsLongest (p.take i) (names ++ [n]) := by
  constructor
  · intro k hk
    rcases List.mem_append.mp hk with hk | hk
    · have htake := List.take_prefix i p
      exact htake.trans (h.common k hk)
    · rw [List.mem_singleton.mp hk, hsame]
      exact List.take_prefix i n
  · intro q hq
    have hqp : q <+: p := h.longest q fun k hk => hq k (List.mem_append_left _ hk)
    have hqn : q <+: n := hq n (by simp)
    have hlen : q.length ≤ i := by
      by_contra hlong
      have hi : i < q.length := by omega
      exact hdiff ((hqp.getElem hi).symm.trans (hqn.getElem hi))
    rw [List.prefix_iff_eq_take.mp hqp]
    exact List.take_prefix_take_left hlen

end CommonPrefix
