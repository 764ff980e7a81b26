import Mathlib.Algebra.BigOperators.Field
import Mathlib.Algebra.Order.BigOperators.Group.Finset
import Mathlib.Algebra.Order.Field.Basic
import Mathlib.Data.Finset.Union
import Mathlib.Tactic

/-!
# Weighted set covers

Elements with weights cover finite sets.  A family of elements that covers a set
has to pay for it at least at the lowest price per covered point.
-/

namespace WeightedCover

variable {ι κ α : Type*} [DecidableEq κ]
variable [Field α] [LinearOrder α] [IsStrictOrderedRing α]

/-- The elements of `S` cover the set `U` together. -/
def IsCover (c : ι → Finset κ) (U : Finset κ) (S : Finset ι) : Prop :=
  U ⊆ S.biUnion c

variable {c : ι → Finset κ} {w : ι → α} {U : Finset κ} {S : Finset ι} {d : α}

theorem IsCover.card_le (h : IsCover c U S) : U.card ≤ ∑ i ∈ S, (c i).card :=
  (Finset.card_le_card h).trans Finset.card_biUnion_le

theorem IsCover.density_le
    (h : IsCover c U S) (hd : 0 ≤ d) (hdense : ∀ i ∈ S, d * (c i).card ≤ w i) :
    d * U.card ≤ ∑ i ∈ S, w i := by
  have hcard : (U.card : α) ≤ ∑ i ∈ S, ((c i).card : α) := by
    exact_mod_cast h.card_le
  calc d * U.card ≤ d * ∑ i ∈ S, ((c i).card : α) := mul_le_mul_of_nonneg_left hcard hd
    _ = ∑ i ∈ S, d * (c i).card := Finset.mul_sum _ _ _
    _ ≤ ∑ i ∈ S, w i := Finset.sum_le_sum hdense

end WeightedCover
