import Mathlib.Tactic

/-!
# Override by key

The elements of a list are replaced by those of another list that have the same keys.  What
the result must be is said for each key alone; lists with different keys can be put together.
-/

namespace KeyedOverride

universe u v

variable {α : Type u} {κ : Type v} [DecidableEq κ] (key : α → κ)

/-- The elements with a key, in their order. -/
def atKey (k : κ) (xs : List α) : List α :=
  xs.filter fun a => key a = k

variable {key}

@[simp] theorem atKey_append (k : κ) (xs ys : List α) :
    atKey key k (xs ++ ys) = atKey key k xs ++ atKey key k ys :=
  List.filter_append xs ys

variable {a : α} {xs : List α}

@[simp] theorem mem_atKey {k : κ} : a ∈ atKey key k xs ↔ a ∈ xs ∧ key a = k := by
  simp [atKey]

theorem atKey_eq_nil_iff {k : κ} : atKey key k xs = [] ↔ k ∉ xs.map key := by
  simp [atKey, List.filter_eq_nil_iff]

theorem atKey_eq_of_sublist {r : α → α → Prop} {ys : List α} (hperm : ys.Perm xs)
    (hequal : ∀ a b, key a = key b → r a b)
    (hsub : ∀ zs : List α, zs.Pairwise r → zs.Sublist xs → zs.Sublist ys) (k : κ) :
    atKey key k ys = atKey key k xs := by
  have hpart : (atKey key k xs).Sublist ys := by
    refine hsub _ (List.pairwise_of_forall_mem_list fun a ha b hb => ?_) List.filter_sublist
    exact hequal a b ((mem_atKey.mp ha).2.trans (mem_atKey.mp hb).2.symm)
  have hidem : atKey key k (atKey key k xs) = atKey key k xs := by
    rw [atKey, atKey, List.filter_filter]
    simp
  have hfilter : (atKey key k (atKey key k xs)).Sublist (atKey key k ys) := hpart.filter _
  rw [hidem] at hfilter
  exact (hfilter.eq_of_length (hperm.filter _).length_eq.symm).symm

/-- The list `res` has the elements of `upds`, and those of `olds` with other keys; the others
are `freed`. -/
structure Overrides (key : α → κ) (olds upds res freed : List α) : Prop where
  values : ∀ k, atKey key k res =
    if k ∈ upds.map key then atKey key k upds else atKey key k olds
  freed_eq : freed = olds.filter fun a => key a ∈ upds.map key

theorem overrides_old (olds : List α) : Overrides key olds [] olds [] :=
  ⟨fun _ => rfl, by simp⟩

theorem overrides_upd (upds : List α) : Overrides key [] upds upds [] := by
  refine ⟨fun k => ?_, rfl⟩
  by_cases hk : k ∈ upds.map key
  · rw [if_pos hk]
  · rw [if_neg hk, atKey_eq_nil_iff.mpr hk]
    rfl

theorem overrides_same {olds upds : List α} (h : ∀ a ∈ olds, key a ∈ upds.map key) :
    Overrides key olds upds upds olds := by
  refine ⟨fun k => ?_, ?_⟩
  · by_cases hk : k ∈ upds.map key
    · rw [if_pos hk]
    · have hold : k ∉ olds.map key := by
        rintro hmem
        obtain ⟨a, ha, rfl⟩ := List.mem_map.mp hmem
        exact hk (h a ha)
      rw [if_neg hk, atKey_eq_nil_iff.mpr hk, atKey_eq_nil_iff.mpr hold]
  · exact (List.filter_eq_self.mpr fun a ha => decide_eq_true (h a ha)).symm

variable {olds upds res freed olds' upds' res' freed' : List α}

theorem Overrides.append (h : Overrides key olds upds res freed)
    (h' : Overrides key olds' upds' res' freed')
    (hkeys : ∀ a ∈ olds ++ upds, ∀ b ∈ olds' ++ upds', key a ≠ key b) :
    Overrides key (olds ++ olds') (upds ++ upds') (res ++ res') (freed ++ freed') := by
  have hold : ∀ a ∈ olds, key a ∉ upds'.map key := by
    rintro a ha hmem
    obtain ⟨b, hb, heq⟩ := List.mem_map.mp hmem
    exact hkeys a (List.mem_append_left _ ha) b (List.mem_append_right _ hb) heq.symm
  have hold' : ∀ b ∈ olds', key b ∉ upds.map key := by
    rintro b hb hmem
    obtain ⟨a, ha, heq⟩ := List.mem_map.mp hmem
    exact hkeys a (List.mem_append_right _ ha) b (List.mem_append_left _ hb) heq
  refine ⟨fun k => ?_, ?_⟩
  · rw [atKey_append, atKey_append, atKey_append, h.values, h'.values, List.map_append]
    by_cases hk : k ∈ upds.map key
    · have hk' : k ∉ (olds' ++ upds').map key := by
        rintro hmem
        obtain ⟨b, hb, rfl⟩ := List.mem_map.mp hmem
        obtain ⟨a, ha, heq⟩ := List.mem_map.mp hk
        exact hkeys a (List.mem_append_right _ ha) b hb heq
      rw [List.map_append, List.mem_append, not_or] at hk'
      rw [if_pos hk, if_neg hk'.2, if_pos (List.mem_append_left _ hk),
        atKey_eq_nil_iff.mpr hk'.1, atKey_eq_nil_iff.mpr hk'.2]
    · by_cases hk' : k ∈ upds'.map key
      · have hkold : k ∉ olds.map key := by
          rintro hmem
          obtain ⟨a, ha, rfl⟩ := List.mem_map.mp hmem
          exact hold a ha hk'
        rw [if_neg hk, if_pos hk', if_pos (List.mem_append_right _ hk'),
          atKey_eq_nil_iff.mpr hkold, atKey_eq_nil_iff.mpr hk]
      · rw [if_neg hk, if_neg hk', if_neg (by simp [hk, hk'])]
  · rw [h.freed_eq, h'.freed_eq, List.filter_append]
    congr 1
    · refine List.filter_congr fun a ha => ?_
      simp [hold a ha]
    · refine List.filter_congr fun b hb => ?_
      simp [hold' b hb]

theorem Overrides.mem_res (h : Overrides key olds upds res freed) (ha : a ∈ res) :
    a ∈ olds ++ upds := by
  have hmem : a ∈ atKey key (key a) res := mem_atKey.mpr ⟨ha, rfl⟩
  rw [h.values] at hmem
  split_ifs at hmem
  · exact List.mem_append_right _ (mem_atKey.mp hmem).1
  · exact List.mem_append_left _ (mem_atKey.mp hmem).1

theorem Overrides.mem_freed (h : Overrides key olds upds res freed) :
    a ∈ freed ↔ a ∈ olds ∧ key a ∈ upds.map key := by
  rw [h.freed_eq, List.mem_filter, decide_eq_true_iff]

theorem count_atKey [DecidableEq α] (key : α → κ) (a : α) (xs : List α) :
    (atKey key (key a) xs).count a = xs.count a :=
  List.count_filter (by simp)

theorem Overrides.count_res [DecidableEq α] (h : Overrides key olds upds res freed) (a : α) :
    res.count a = if key a ∈ upds.map key then upds.count a else olds.count a := by
  rw [← count_atKey key, h.values]
  split_ifs <;> rw [count_atKey]

theorem exists_split {ι : Type*} [LinearOrder ι] {rank : α → ι}
    (h : xs.Pairwise fun a b => rank a ≤ rank b) (k : ι) :
    ∃ less same more, xs = less ++ (same ++ more) ∧ (∀ a ∈ less, rank a < k) ∧
      (∀ a ∈ same, rank a = k) ∧ ∀ a ∈ more, k < rank a := by
  induction xs with
  | nil => exact ⟨[], [], [], rfl, by simp, by simp, by simp⟩
  | cons x xs ih =>
    obtain ⟨hx, hxs⟩ := List.pairwise_cons.mp h
    rcases lt_trichotomy (rank x) k with hlt | heq | hgt
    · obtain ⟨less, same, more, hsplit, hless, hsame, hmore⟩ := ih hxs
      exact ⟨x :: less, same, more, by rw [hsplit]; rfl,
        List.forall_mem_cons.mpr ⟨hlt, hless⟩, hsame, hmore⟩
    · obtain ⟨less, same, more, hsplit, hless, hsame, hmore⟩ := ih hxs
      -- nothing behind `x` is less
      have hnil : less = [] := by
        refine List.eq_nil_iff_forall_not_mem.mpr fun a ha => ?_
        have hle := hx a (by rw [hsplit]; exact List.mem_append_left _ ha)
        exact absurd (hless a ha) (not_lt.mpr (heq ▸ hle))
      subst hnil
      exact ⟨[], x :: same, more, by rw [hsplit]; rfl, by simp,
        List.forall_mem_cons.mpr ⟨heq, hsame⟩, hmore⟩
    · refine ⟨[], [], x :: xs, rfl, by simp, by simp, ?_⟩
      exact List.forall_mem_cons.mpr ⟨hgt, fun a ha => hgt.trans_le (hx a ha)⟩

end KeyedOverride
