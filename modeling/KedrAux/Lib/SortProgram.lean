import Mathlib.Data.List.Sort
import Mathlib.Tactic

/-!
# Programs that sort an array

A program compares and exchanges elements at slots of an array, and the next step depends on
the results.  A comparison gets the slots along with the elements, so it may depend on where
the elements are at that time.
-/

inductive SortProgram where
  | done
  | compare (i j : Nat) (next : Int → SortProgram)
  | swap (i j : Nat) (next : SortProgram)

namespace SortProgram

universe u

variable {α : Type u}

def swapAt (array : List α) (i j : Nat) : Option (List α) := do
  let x ← array[i]?
  let y ← array[j]?
  return (array.set i y).set j x

/-- The array that a program leaves; `none` when it leaves the bounds of the array. -/
def run (cmp : Nat → α → Nat → α → Int) : SortProgram → List α → Option (List α)
  | .done, array => some array
  | .compare i j next, array => do
      let x ← array[i]?
      let y ← array[j]?
      run cmp (next (cmp i x j y)) array
  | .swap i j next, array => do
      run cmp next (← swapAt array i j)

/-- The program for the slots behind the first one. -/
def shift : SortProgram → SortProgram
  | .done => .done
  | .compare i j next => .compare (i + 1) (j + 1) fun result => (next result).shift
  | .swap i j next => .swap (i + 1) (j + 1) next.shift

def append : SortProgram → SortProgram → SortProgram
  | .done, q => q
  | .compare i j next, q => .compare i j fun result => (next result).append q
  | .swap i j next, q => .swap i j (next.append q)

theorem swapAt_perm {array array' : List α} {i j : Nat} (h : swapAt array i j = some array') :
    array'.Perm array := by
  rw [swapAt] at h
  cases hi : array[i]? with
  | none => simp [hi] at h
  | some x =>
    cases hj : array[j]? with
    | none => simp [hi, hj] at h
    | some y =>
      simp only [hi, hj, Option.bind_eq_bind, Option.bind_some, pure, Option.some.injEq] at h
      subst h
      obtain ⟨hilt, rfl⟩ := List.getElem?_eq_some_iff.mp hi
      obtain ⟨hjlt, rfl⟩ := List.getElem?_eq_some_iff.mp hj
      exact List.set_set_perm hilt hjlt

/-- A program only rearranges the array. -/
theorem run_perm {cmp : Nat → α → Nat → α → Int} {p : SortProgram} {array result : List α}
    (h : run cmp p array = some result) : result.Perm array := by
  induction p generalizing array with
  | done =>
    cases h
    exact .refl _
  | compare i j next ih =>
    rw [run] at h
    cases hi : array[i]? with
    | none => simp [hi] at h
    | some x =>
      cases hj : array[j]? with
      | none => simp [hi, hj] at h
      | some y =>
        simp only [hi, hj, Option.bind_eq_bind, Option.bind_some] at h
        exact ih _ h
  | swap i j next ih =>
    rw [run] at h
    cases hswap : swapAt array i j with
    | none => simp [hswap] at h
    | some array' =>
      simp only [hswap, Option.bind_eq_bind, Option.bind_some] at h
      exact (ih h).trans (swapAt_perm hswap)

theorem run_append (cmp : Nat → α → Nat → α → Int) (p q : SortProgram) (array : List α) :
    run cmp (p.append q) array = (run cmp p array).bind (run cmp q) := by
  induction p generalizing array with
  | done => rfl
  | compare i j next ih
  | swap i j next ih =>
    simp only [append, run, Option.bind_eq_bind, ih, Option.bind_assoc]

theorem swapAt_cons_succ (x : α) (array : List α) (i j : Nat) :
    swapAt (x :: array) (i + 1) (j + 1) = (swapAt array i j).map (x :: ·) := by
  cases hi : array[i]? <;> cases hj : array[j]? <;> simp [swapAt, hi, hj]

theorem run_shift {cmp : Nat → α → Nat → α → Int}
    (hcmp : ∀ i a j b, cmp (i + 1) a (j + 1) b = cmp i a j b) (p : SortProgram) (x : α)
    (array : List α) :
    run cmp p.shift (x :: array) = (run cmp p array).map (x :: ·) := by
  induction p generalizing array with
  | done => rfl
  | compare i j next ih =>
    cases hi : array[i]? with
    | none => simp [shift, run, hi]
    | some a =>
      cases hj : array[j]? with
      | none => simp [shift, run, hi, hj]
      | some b => simp [shift, run, hi, hj, hcmp, ih]
  | swap i j next ih =>
    rw [shift, run, run, swapAt_cons_succ]
    cases hswap : swapAt array i j with
    | none => rfl
    | some array' => exact ih array'

/-- The first element is moved to the end, over `n` others. -/
def sink : Nat → SortProgram
  | 0 => .done
  | n + 1 => .swap 0 1 (sink n).shift

def reversal : Nat → SortProgram
  | 0 => .done
  | n + 1 => (reversal n).shift.append (sink n)

/-- The first element is moved behind those that have to come before it. -/
def sift : Nat → SortProgram
  | 0 => .done
  | n + 1 => .compare 0 1 fun result => if 0 < result then .swap 0 1 (sift n).shift else .done

def insertion : Nat → SortProgram
  | 0 => .done
  | n + 1 => (insertion n).shift.append (sift n)

section Runs

variable {cmp : Nat → α → Nat → α → Int}

@[simp] theorem swapAt_zero_one (x y : α) (array : List α) :
    swapAt (x :: y :: array) 0 1 = some (y :: x :: array) :=
  rfl

theorem run_sink (hcmp : ∀ i a j b, cmp (i + 1) a (j + 1) b = cmp i a j b) (x : α)
    (array : List α) :
    run cmp (sink array.length) (x :: array) = some (array ++ [x]) := by
  induction array with
  | nil => rfl
  | cons y array ih =>
    rw [List.length_cons, sink, run, swapAt_zero_one, Option.bind_eq_bind, Option.bind_some,
      run_shift hcmp, ih]
    rfl

theorem run_reversal (hcmp : ∀ i a j b, cmp (i + 1) a (j + 1) b = cmp i a j b) (array : List α) :
    run cmp (reversal array.length) array = some array.reverse := by
  induction array with
  | nil => rfl
  | cons x array ih =>
    rw [List.length_cons, reversal, run_append, run_shift hcmp, ih, Option.map_some,
      Option.bind_some, ← List.length_reverse, run_sink hcmp, List.reverse_cons]

variable {r : α → α → Prop} [DecidableRel r]

theorem run_sift (hcmp : ∀ i a j b, cmp (i + 1) a (j + 1) b = cmp i a j b)
    (hr : ∀ a b, 0 < cmp 0 a 1 b ↔ ¬ r a b) (x : α) (array : List α) :
    run cmp (sift array.length) (x :: array) = some (array.orderedInsert r x) := by
  induction array with
  | nil => rfl
  | cons y array ih =>
    rw [List.length_cons, sift, run]
    simp only [List.getElem?_cons_zero, List.getElem?_cons_succ, Option.bind_eq_bind,
      Option.bind_some, List.orderedInsert_cons]
    by_cases h : r x y
    · rw [if_neg (not_not.mpr h ∘ (hr x y).mp), if_pos h]
      rfl
    · rw [if_pos ((hr x y).mpr h), if_neg h, run, swapAt_zero_one, Option.bind_eq_bind,
        Option.bind_some, run_shift hcmp, ih]
      rfl

theorem run_insertion (hcmp : ∀ i a j b, cmp (i + 1) a (j + 1) b = cmp i a j b)
    (hr : ∀ a b, 0 < cmp 0 a 1 b ↔ ¬ r a b) (array : List α) :
    run cmp (insertion array.length) array = some (array.insertionSort r) := by
  induction array with
  | nil => rfl
  | cons x array ih =>
    rw [List.length_cons, insertion, run_append, run_shift hcmp, ih, Option.map_some,
      Option.bind_some, ← List.length_insertionSort r array, run_sift hcmp hr]
    rfl

end Runs

end SortProgram
