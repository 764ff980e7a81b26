import Mathlib.Algebra.Order.Field.Basic
import Mathlib.Data.Finset.Union
import KedrAux.Lib.SubsetOrder

/-!
# Searching for the lightest cover

A depth-first search through sets of indices looks for the lightest set that covers all points.  It
comes to a greater index in the place of another one only if it has gone on with the set which ends
there.  It does so when the points that are left, at the price of the next index, still make a
lighter cover than the best one known.
-/

namespace CoverSearch

open SubsetOrder

variable {κ α : Type*} [DecidableEq κ] [Field α] [LinearOrder α]

section Definitions

variable (n : Nat) (w : Nat → α) (c : Nat → Finset κ) (U : Finset κ)

def uncovered (set : List Nat) : Finset κ :=
  U \ set.toFinset.biUnion c

def weight (set : List Nat) : α :=
  (set.map w).sum

/-- The weight per point. -/
def price (i : Nat) : α :=
  w i / (c i).card

structure Covering (set : List Nat) : Prop where
  indices : IndexSet n set
  covers : uncovered c U set = ∅

structure Cheapest (set : List Nat) : Prop where
  covering : Covering n c U set
  le : ∀ o, Covering n c U o → weight w set ≤ weight w o

/--
The search goes on with the set `x`, where `i` comes next, whatever covering set before `x` is the
best one known.  It starts with the set of all indices.
-/
structure Continues (x : List Nat) (i : Nat) : Prop where
  uncovered_ne : uncovered c U x ≠ ∅
  price_le : ∀ o, o = List.range n ∨ Covering n c U o ∧ o < x →
    price w c i * (uncovered c U x).card ≤ weight w o - weight w x

/-- The search goes on with every set that has a smaller index in the place of one of `o`. -/
structure Findable (o : List Nat) : Prop where
  cheapest : Cheapest n w c U o
  continues : ∀ p i k tl, o = p ++ k :: tl → (∀ j ∈ p, j < i) → i < k →
    Continues n w c U (p ++ [i]) (i + 1)

end Definitions

section Decidable

variable (n : Nat) (w : Nat → α) (c : Nat → Finset κ) (U : Finset κ) (o x : List Nat) (i : Nat)

instance : Decidable (Covering n c U o) :=
  decidable_of_iff (o ∈ (List.range n).sublists ∧ uncovered c U o = ∅)
    ⟨fun h => ⟨indexSet_iff.mpr h.1, h.2⟩, fun h => ⟨indexSet_iff.mp h.indices, h.covers⟩⟩

instance : Decidable (Cheapest n w c U o) :=
  decidable_of_iff (Covering n c U o ∧
      ∀ o' ∈ (List.range n).sublists, Covering n c U o' → weight w o ≤ weight w o')
    ⟨fun h => ⟨h.1, fun o' ho' => h.2 o' (indexSet_iff.mp ho'.indices) ho'⟩,
      fun h => ⟨h.covering, fun o' _ => h.le o'⟩⟩

instance : Decidable (Continues n w c U x i) :=
  decidable_of_iff (uncovered c U x ≠ ∅ ∧ ∀ o ∈ (List.range n).sublists,
      o = List.range n ∨ Covering n c U o ∧ o < x →
        price w c i * (uncovered c U x).card ≤ weight w o - weight w x)
    ⟨fun h => ⟨h.1, fun o ho => h.2 o
    (ho.elim (fun heq => heq ▸ List.mem_sublists.mpr (List.Sublist.refl _))
        fun ho => indexSet_iff.mp ho.1.indices) ho⟩,
      fun h => ⟨h.uncovered_ne, fun o _ => h.price_le o⟩⟩

theorem forall_split_iff {P : List Nat → Nat → Prop} :
    (∀ p k tl, o = p ++ k :: tl → P p k) ↔
      ∀ j (h : j < o.length), P (o.take j) o[j] := by
  constructor
  · intro h j hj
    exact h _ _ (o.drop (j + 1)) (by rw [List.getElem_cons_drop, List.take_append_drop])
  · rintro h p k tl rfl
    have hsplit := h p.length (by simp)
    simpa using hsplit

instance : Decidable (Findable n w c U o) :=
  decidable_of_iff (Cheapest n w c U o ∧ ∀ j (h : j < o.length), ∀ i, i < o[j] →
      (∀ j' ∈ o.take j, j' < i) → Continues n w c U (o.take j ++ [i]) (i + 1)) (by
    rw [← forall_split_iff (P := fun p k => ∀ i, i < k → (∀ j' ∈ p, j' < i) →
      Continues n w c U (p ++ [i]) (i + 1))]
    exact ⟨fun h => ⟨h.1, fun p i k tl ho hp hik => h.2 p k tl ho i hik hp⟩,
      fun h => ⟨h.cheapest, fun p k tl ho i hik hp => h.continues p i k tl ho hp hik⟩⟩)

end Decidable

section Points

variable {n : Nat} {w w' : Nat → α} {c : Nat → Finset κ} {U : Finset κ} {set o : List Nat} {k : κ}

@[simp] theorem mem_uncovered : k ∈ uncovered c U set ↔ k ∈ U ∧ ¬∃ i ∈ set, k ∈ c i := by
  simp [uncovered]

variable {κ' : Type*} [DecidableEq κ'] {f : κ → κ'}

theorem uncovered_image (hf : Set.InjOn f U) (hc : ∀ i ∈ set, c i ⊆ U) :
    uncovered (fun i => (c i).image f) (U.image f) set = (uncovered c U set).image f := by
  ext k
  rw [mem_uncovered, Finset.mem_image, Finset.mem_image]
  constructor
  · rintro ⟨⟨a, ha, rfl⟩, hnot⟩
    refine ⟨a, mem_uncovered.mpr ⟨ha, fun ⟨i, hi, hmem⟩ => hnot ⟨i, hi, ?_⟩⟩, rfl⟩
    exact Finset.mem_image_of_mem f hmem
  · rintro ⟨a, ha, rfl⟩
    obtain ⟨ha, hnot⟩ := mem_uncovered.mp ha
    refine ⟨⟨a, ha, rfl⟩, fun ⟨i, hi, hmem⟩ => hnot ⟨i, hi, ?_⟩⟩
    obtain ⟨b, hb, heq⟩ := Finset.mem_image.mp hmem
    rwa [← hf (hc i hi hb) ha heq]

/-- What counts are the numbers of points, not the points. -/
theorem Findable.of_image (hf : Set.InjOn f U) (hc : ∀ i, i < n → c i ⊆ U)
    (hw : ∀ i, i < n → w' i = w i) {c' : Nat → Finset κ'} (hc' : ∀ i, i < n → c' i = (c i).image f)
    (h : Findable n w' c' (U.image f) o) :
    Findable n w c U o := by
  have huncovered : ∀ set, IndexSet n set →
      uncovered c' (U.image f) set = (uncovered c U set).image f := by
    intro set hset
    rw [← uncovered_image hf fun i hi => hc i (hset.lt i hi)]
    ext k
    rw [mem_uncovered, mem_uncovered]
    refine and_congr_right fun _ => not_congr (exists_congr fun i => and_congr_right fun hi => ?_)
    rw [hc' i (hset.lt i hi)]
  have hinj : ∀ set, Set.InjOn f (uncovered c U set) := fun set =>
    hf.mono fun k hk => (mem_uncovered.mp hk).1
  have hempty : ∀ set, IndexSet n set →
      (uncovered c' (U.image f) set = ∅ ↔ uncovered c U set = ∅) := by
    intro set hset
    rw [huncovered set hset, Finset.image_eq_empty]
  have hcovering : ∀ set, Covering n c U set ↔ Covering n c' (U.image f) set := fun set =>
    ⟨fun hset => ⟨hset.indices, (hempty set hset.indices).mpr hset.covers⟩,
      fun hset => ⟨hset.indices, (hempty set hset.indices).mp hset.covers⟩⟩
  have hweight : ∀ set, IndexSet n set → weight w' set = weight w set := fun set hset =>
    congrArg List.sum (List.map_congr_left fun i hi => hw i (hset.lt i hi))
  have ho := h.cheapest.covering.indices
  refine ⟨⟨(hcovering o).mpr h.cheapest.covering, fun o' ho' => ?_⟩, ?_⟩
  · rw [← hweight o ho, ← hweight o' ho'.indices]
    exact h.cheapest.le o' ((hcovering o').mp ho')
  · intro p i k tl heq hp hik
    have hcontinues := h.continues p i k tl heq hp hik
    have hkn : k < n := ho.lt k (by simp [heq])
    have hx : IndexSet n (p ++ [i]) := by
      have hincreasing := ho.increasing
      rw [heq, List.pairwise_append] at hincreasing
      refine ⟨List.pairwise_append.mpr ⟨hincreasing.1, List.pairwise_singleton _ _, ?_⟩, ?_⟩
      · intro j hj i' hi'
        rw [List.mem_singleton.mp hi']
        exact hp j hj
      · intro j hj
        rcases List.mem_append.mp hj with hj | hj
        · exact ho.lt j (by simp [heq, hj])
        · rw [List.mem_singleton.mp hj]
          exact hik.trans hkn
    have hnext : i + 1 < n := by omega
    refine ⟨fun hnone => hcontinues.uncovered_ne ((hempty _ hx).mpr hnone), ?_⟩
    intro o' ho'
    have ho'n : IndexSet n o' :=
      ho'.elim (fun heq => heq ▸ indexSet_range n) fun h => h.1.indices
    have hle := hcontinues.price_le o' (ho'.imp id (And.imp_left (hcovering o').mp))
    rwa [huncovered _ hx, Finset.card_image_of_injOn (hinj _), hweight _ hx, hweight _ ho'n, price,
      hw _ hnext, hc' _ hnext, Finset.card_image_of_injOn (hf.mono (hc _ hnext))] at hle

end Points

end CoverSearch
