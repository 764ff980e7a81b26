import KedrAux.Lib.SortProgram
import KedrAux.MistEngine.StringMap

/-!
# Sorting of string maps

`grar_sort` with `string_pair_compare_sort`.  The comparison decides between equal keys by the
addresses of the slots, and this only makes `qsort` stable if it compares the elements while they
are at their first slots.

A `qsort` is a program that compares and exchanges elements; it fulfils its contract when the
elements that it leaves side by side compare in the right order.
-/

namespace KedrAux
namespace MistEngine

open KeyedOverride (atKey)

def smapCreate : CStringMap :=
  ⟨[], false⟩

def smapAddElement (smap : CStringMap) (sp : PairPtr) : CStringMap :=
  ⟨smap.container ++ [sp], false⟩

/-- A program for each number of elements. -/
abbrev QSort := Nat → SortProgram

section Source

variable (memory : PairPtr → TStringPair)

/-- `string_pair_compare_sort` for two slots of an array, with their elements. -/
def stringPairCompareSort (i : Nat) (lhs : PairPtr) (j : Nat) (rhs : PairPtr) : Int :=
  let res := stringPairCompare memory lhs rhs
  if res = 0 then
    if i = j then 0
    else if i < j then -1 else 1
  else res

/-- `grar_sort`; `none` when `qsort` leaves the bounds of the array. -/
def grarSort (qsort : QSort) (array : List PairPtr) : Option (List PairPtr) :=
  (qsort array.length).run (stringPairCompareSort memory) array

/-- `if (smap->sorted == 0) { grar_sort(..); smap->sorted = 1; }` -/
def CStringMap.sort (qsort : QSort) (smap : CStringMap) : Option CStringMap :=
  if smap.sorted = false then (grarSort memory qsort smap.container).map fun array => ⟨array, true⟩
  else some smap

end Source

/-- No element compares as greater than the one in the next slot. -/
def InOrder (memory : PairPtr → TStringPair) (array : List PairPtr) : Prop :=
  ∀ i lhs rhs, array[i]? = some lhs → array[i + 1]? = some rhs →
    stringPairCompareSort memory i lhs (i + 1) rhs ≤ 0

/-- The contract of `qsort`, for this comparison. -/
def QSort.Conforms (qsort : QSort) : Prop :=
  ∀ memory array, ∃ result, grarSort memory qsort array = some result ∧ InOrder memory result

/-- The map to which some elements were added in this order. -/
def filledMap (elements : List PairPtr) : CStringMap :=
  elements.foldl smapAddElement smapCreate

/-- Equal keys are left in the order in which they were added. -/
def SortsInAddedOrder (memory : PairPtr → TStringPair) (elements : List PairPtr)
    (qsort : QSort) : Prop :=
  ∃ result, (filledMap elements).sort memory qsort = some result ∧
    ∀ key, atKey (keyOf memory) key result.container = atKey (keyOf memory) key elements

section Sorts

variable {memory : PairPtr → TStringPair}

theorem stringPairCompareSort_succ (i : Nat) (lhs : PairPtr) (j : Nat) (rhs : PairPtr) :
    stringPairCompareSort memory (i + 1) lhs (j + 1) rhs =
      stringPairCompareSort memory i lhs j rhs := by
  simp [stringPairCompareSort]

/-- Neighbours are compared by their keys only. -/
theorem stringPairCompareSort_next_pos_iff (i : Nat) (lhs rhs : PairPtr) :
    0 < stringPairCompareSort memory i lhs (i + 1) rhs ↔
      ¬ rankOf memory lhs ≤ rankOf memory rhs := by
  rw [stringPairCompareSort, not_le]
  by_cases heq : rankOf memory lhs = rankOf memory rhs
  · have hzero := stringPairCompare_eq_zero_iff.mpr heq
    simp [hzero, heq]
  · have hne : stringPairCompare memory lhs rhs ≠ 0 := mt stringPairCompare_eq_zero_iff.mp heq
    have hlt : stringPairCompare memory lhs rhs < 0 ↔ rankOf memory lhs < rankOf memory rhs :=
      stringPairCompare_lt_zero_iff
    simp only [hne, if_false]
    constructor
    · intro hpos
      have hnot : ¬ rankOf memory lhs < rankOf memory rhs := fun h => by
        have hneg := hlt.mpr h
        omega
      exact lt_of_le_of_ne (not_lt.mp hnot) (Ne.symm heq)
    · intro hgt
      have hnot : ¬ stringPairCompare memory lhs rhs < 0 := fun h => (hlt.mp h).asymm hgt
      omega

theorem inOrder_of_sorted {array : List PairPtr}
    (h : array.Pairwise fun a b => rankOf memory a ≤ rankOf memory b) :
    InOrder memory array := by
  intro i lhs rhs hlhs hrhs
  by_contra hpos
  obtain ⟨hi, rfl⟩ := List.getElem?_eq_some_iff.mp hlhs
  obtain ⟨hi', rfl⟩ := List.getElem?_eq_some_iff.mp hrhs
  refine (stringPairCompareSort_next_pos_iff i _ _).mp (not_le.mp hpos) ?_
  exact List.pairwise_iff_getElem.mp h i (i + 1) hi hi' (Nat.lt_succ_self i)

/-- The array is reversed, and then it is sorted by insertion. -/
def reversingSort : QSort :=
  fun n => (SortProgram.reversal n).append (SortProgram.insertion n)

theorem grarSort_reversingSort (array : List PairPtr) :
    grarSort memory reversingSort array =
      some (array.reverse.insertionSort fun a b => rankOf memory a ≤ rankOf memory b) := by
  rw [grarSort, reversingSort, SortProgram.run_append,
    SortProgram.run_reversal stringPairCompareSort_succ, Option.bind_some, ← List.length_reverse]
  exact SortProgram.run_insertion stringPairCompareSort_succ
    (stringPairCompareSort_next_pos_iff 0) array.reverse

theorem reversingSort_conforms : reversingSort.Conforms := by
  intro memory array
  refine ⟨_, grarSort_reversingSort array, inOrder_of_sorted ?_⟩
  exact List.pairwise_insertionSort _ _

theorem atKey_reversingSort {array result : List PairPtr}
    (h : grarSort memory reversingSort array = some result) (key : Str) :
    atKey (keyOf memory) key result = (atKey (keyOf memory) key array).reverse := by
  rw [grarSort_reversingSort] at h
  cases h
  let r : PairPtr → PairPtr → Prop := fun a b => rankOf memory a ≤ rankOf memory b
  have hkeys : ∀ a b, keyOf memory a = keyOf memory b → r a b :=
    fun a b hkey => le_of_eq (rankOf_eq_iff.mpr hkey)
  have hstable : atKey (keyOf memory) key (array.reverse.insertionSort r) =
      atKey (keyOf memory) key array.reverse :=
    KeyedOverride.atKey_eq_of_sublist (List.perm_insertionSort r array.reverse) hkeys
      (fun zs hzs hsub => List.sublist_insertionSort hzs hsub) key
  rw [hstable]
  exact List.filter_reverse

theorem filledMap_eq (elements : List PairPtr) : filledMap elements = ⟨elements, false⟩ := by
  have hfold (container : List PairPtr) :
      elements.foldl smapAddElement ⟨container, false⟩ = ⟨container ++ elements, false⟩ := by
    induction elements generalizing container with
    | nil => simp
    | cons sp elements ih =>
      rw [List.foldl_cons, smapAddElement, ih]
      simp
  exact hfold []

theorem sort_filledMap (qsort : QSort) (elements : List PairPtr) :
    (filledMap elements).sort memory qsort =
      (grarSort memory qsort elements).map fun array => ⟨array, true⟩ := by
  rw [filledMap_eq]
  rfl

/-- A list of different elements that is its own reverse has at most one of them. -/
theorem length_le_one_of_reverse {elements : List PairPtr} (hnodup : elements.Nodup)
    (h : elements.reverse = elements) : elements.length ≤ 1 := by
  by_contra hlong
  have hfirst : elements[0]? = elements[elements.length - 1]? := by
    nth_rewrite 1 [← h]
    rw [List.getElem?_reverse (by omega)]
    rfl
  have hindex := (List.getElem?_inj (by omega) hnodup).mp hfirst
  omega

theorem eq_of_perm_of_length_le_one {xs ys : List PairPtr} (hperm : xs.Perm ys)
    (h : ys.length ≤ 1) : xs = ys := by
  match ys, h with
  | [], _ => exact List.perm_nil.mp hperm
  | [sp], _ => exact List.perm_singleton.mp hperm

theorem length_atKey (elements : List PairPtr) (key : Str) :
    (atKey (keyOf memory) key elements).length = (elements.map (keyOf memory)).count key := by
  rw [atKey, ← List.countP_eq_length_filter, List.count, List.countP_map]
  exact List.countP_congr fun sp _ => by simp

/-- All sorts leave equal keys in the order in which they were added if and only if there are
no equal keys. -/
theorem forall_sortsInAddedOrder_iff (memory : PairPtr → TStringPair)
    (elements : { elements : List PairPtr // elements.Nodup }) :
    (∀ qsort : QSort, qsort.Conforms → SortsInAddedOrder memory elements qsort) ↔
      (elements.val.map (keyOf memory)).Nodup := by
  rw [List.nodup_iff_count_le_one]
  constructor
  · intro h key
    obtain ⟨result, hsort, horder⟩ := h reversingSort reversingSort_conforms
    rw [sort_filledMap, grarSort_reversingSort, Option.map_some, Option.some.injEq] at hsort
    subst hsort
    have hrun : grarSort memory reversingSort elements.val = some _ :=
      grarSort_reversingSort elements.val
    have hreverse := atKey_reversingSort hrun key
    rw [← length_atKey]
    refine length_le_one_of_reverse (elements.property.filter _) ?_
    exact hreverse.symm.trans (horder key)
  · intro h qsort hconforms
    obtain ⟨result, hresult, -⟩ := hconforms memory elements.val
    refine ⟨⟨result, true⟩, by rw [sort_filledMap, hresult]; rfl, fun key => ?_⟩
    have hperm : (atKey (keyOf memory) key result).Perm
        (atKey (keyOf memory) key elements.val) :=
      (SortProgram.run_perm hresult).filter _
    have hlength : (atKey (keyOf memory) key elements.val).length ≤ 1 := by
      rw [length_atKey]
      exact h key
    exact eq_of_perm_of_length_le_one hperm hlength

/-- Two equal keys, in a map of two elements. -/
theorem forall_sortsInAddedOrder_false :
    ¬ ∀ qsort : QSort, qsort.Conforms → SortsInAddedOrder (fun _ => ⟨[98], []⟩) [0, 1] qsort := by
  intro h
  obtain ⟨result, hsort, horder⟩ := h reversingSort reversingSort_conforms
  rw [sort_filledMap, grarSort_reversingSort, Option.map_some, Option.some.injEq] at hsort
  subst hsort
  have hreverse := (horder [98]).symm.trans
    (atKey_reversingSort (grarSort_reversingSort [0, 1]) [98])
  exact absurd hreverse (by decide)

end Sorts

end MistEngine
end KedrAux
