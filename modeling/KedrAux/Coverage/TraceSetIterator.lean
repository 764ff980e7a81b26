import Mathlib.Algebra.Order.Field.Rat
import KedrAux.Lib.Loop
import KedrAux.Coverage.LineMasks

/-!
# The search for an optimal set of traces

`TraceSetIterator` (`test_set_optimizer.cpp`) goes through sets of traces, given
by their indices in the array of traces.  Every trace has flags which tell what
groups of lines it covers.

Weights are exact.  The vectors that are used as stacks, `currentSet` and
`coverageStack`, are kept with the last element first.  An access outside of a
vector gives `none`.
-/

namespace KedrAux
namespace Coverage

/-- Information about test trace with which the optimizer operates. -/
structure TestTraceInfo where
  trace : Trace
  weight : Rat
  /-- The pointer to the test, as its index. -/
  test : Nat
  /-- Groups which are included into trace. -/
  groups : List Bool
  /-- Weight per number of groups included. -/
  sWeight : Rat

def TestTraceInfo.groupsCovered (traceInfo : TestTraceInfo) : Nat :=
  traceInfo.groups.count true

structure GroupsCoverage where
  covered : List Bool
  /-- Number of currently uncovered groups. -/
  groupsUncovered : Int
deriving DecidableEq

structure TraceSetIterator where
  optSet : List Nat
  optWeight : Rat
  currentSet : List Nat
  currentWeight : Rat
  coverageStack : List GroupsCoverage

namespace TraceSetIterator

def new (traces : List TestTraceInfo) : Option TraceSetIterator :=
  match traces with
  | [] => none
  | firstTraceInfo :: _ =>
    some
      { optSet := List.range traces.length
        optWeight := (traces.map TestTraceInfo.weight).sum
        currentSet := []
        currentWeight := 0
        coverageStack := [⟨List.replicate firstTraceInfo.groups.length false,
          firstTraceInfo.groups.length⟩] }

def coverGroups : (covered groups : List Bool) → (groupsUncovered : Int) → Option GroupsCoverage
  | [], _, groupsUncovered => some ⟨[], groupsUncovered⟩
  | _ :: _, [], _ => none
  | c :: covered, g :: groups, groupsUncovered =>
    if !c && g then
      (coverGroups covered groups (groupsUncovered - 1)).map fun r =>
        { r with covered := true :: r.covered }
    else
      (coverGroups covered groups groupsUncovered).map fun r =>
        { r with covered := c :: r.covered }

def setAddTraceAt (traces : List TestTraceInfo) (it : TraceSetIterator) (index : Nat) :
    Option TraceSetIterator := do
  let traceInfo ← traces[index]?
  let coverage ← it.coverageStack.head?
  let coverage ← coverGroups coverage.covered traceInfo.groups coverage.groupsUncovered
  return { it with
    currentSet := index :: it.currentSet
    currentWeight := it.currentWeight + traceInfo.weight
    coverageStack := coverage :: it.coverageStack }

def setDropTrace (traces : List TestTraceInfo) (it : TraceSetIterator) :
    Option TraceSetIterator := do
  let index ← it.currentSet.head?
  let traceInfo ← traces[index]?
  return { it with
    currentSet := it.currentSet.tail
    currentWeight := it.currentWeight - traceInfo.weight
    coverageStack := it.coverageStack.tail }

/-- Setup first trace set, which contains only first trace. -/
def setFirst (traces : List TestTraceInfo) (it : TraceSetIterator) : Option TraceSetIterator :=
  it.setAddTraceAt traces 0

def setCheck (traces : List TestTraceInfo) (it : TraceSetIterator) :
    Option (TraceSetIterator × Bool) :=
  if it.optWeight ≤ it.currentWeight then some (it, false)
  else do
    let coverage ← it.coverageStack.head?
    if coverage.groupsUncovered = 0 then
      return ({ it with optSet := it.currentSet.reverse, optWeight := it.currentWeight }, false)
    let last ← it.currentSet.head?
    match traces[last + 1]? with
    | none => return (it, false)
    | some nextTraceInfo =>
      return (it, !decide ((it.optWeight - it.currentWeight) / coverage.groupsUncovered <
        nextTraceInfo.sWeight))

def setAddTrace (traces : List TestTraceInfo) (it : TraceSetIterator) :
    Option (TraceSetIterator × Bool) := do
  let last ← it.currentSet.head?
  if last + 1 ≥ traces.length then return (it, false)
  return (← it.setAddTraceAt traces (last + 1), true)

def setDropAndNext (traces : List TestTraceInfo) (it : TraceSetIterator) :
    Option (TraceSetIterator × Bool) := do
  let it ← it.setDropTrace traces
  match it.currentSet.head? with
  | none => return (it, false)
  | some last =>
    let it ← it.setDropTrace traces
    return (← it.setAddTraceAt traces (last + 1), true)

/-- The body of the loop through the trace sets. -/
def searchBody (traces : List TestTraceInfo) (it : TraceSetIterator) :
    Option (Loop.Round TraceSetIterator TraceSetIterator) := do
  let (it, canBeContinued) ← it.setCheck traces
  let (it, added) ← if canBeContinued then it.setAddTrace traces else some (it, false)
  if added then return .next it
  let (it, moved) ← it.setDropAndNext traces
  if moved then return .next it else return .done it

/-- The loop; there are fewer than `2 ^ traces.length` trace sets. -/
def search (traces : List TestTraceInfo) : Option TraceSetIterator := do
  let it ← new traces
  let it ← it.setFirst traces
  Loop.run (searchBody traces) (2 ^ traces.length) it

def CoversGroup (traces : List TestTraceInfo) (i k : Nat) : Prop :=
  ∃ traceInfo, traces[i]? = some traceInfo ∧ traceInfo.groups[k]? = some true

def CoversAll (traces : List TestTraceInfo) (m : Nat) (set : List Nat) : Prop :=
  ∀ k, k < m → ∃ i ∈ set, CoversGroup traces i k

def weightAt (traces : List TestTraceInfo) (i : Nat) : Rat :=
  (traces[i]?).elim 0 TestTraceInfo.weight

structure CoverageIs (traces : List TestTraceInfo) (m : Nat) (set : List Nat)
    (coverage : GroupsCoverage) : Prop where
  length : coverage.covered.length = m
  covered : ∀ k, coverage.covered[k]? = some true ↔ k < m ∧ ∃ i ∈ set, CoversGroup traces i k
  uncovered : coverage.groupsUncovered = coverage.covered.count false

/-- The stack holds the coverage of the set without its last elements. -/
inductive StackIs (traces : List TestTraceInfo) (m : Nat) :
    List Nat → List GroupsCoverage → Prop
  | empty {coverage : GroupsCoverage} (h : CoverageIs traces m [] coverage) :
      StackIs traces m [] [coverage]
  | add {i : Nat} {set : List Nat} {coverage : GroupsCoverage} {stack : List GroupsCoverage}
      (h : CoverageIs traces m (i :: set) coverage) (hstack : StackIs traces m set stack) :
      StackIs traces m (i :: set) (coverage :: stack)

/-- What holds for the iterator between two calls. -/
structure SearchInvariant (traces : List TestTraceInfo) (m : Nat) (it : TraceSetIterator) :
    Prop where
  increasing : it.currentSet.Pairwise (· > ·)
  inRange : ∀ i ∈ it.currentSet, i < traces.length
  stack : StackIs traces m it.currentSet it.coverageStack
  weight : it.currentWeight = (it.currentSet.map (weightAt traces)).sum
  optNodup : it.optSet.Nodup
  optInRange : ∀ i ∈ it.optSet, i < traces.length
  optCovers : it.optSet = List.range traces.length ∨ CoversAll traces m it.optSet

variable {traces : List TestTraceInfo} {m : Nat} {set : List Nat}

theorem StackIs.head {stack : List GroupsCoverage} (h : StackIs traces m set stack) :
    ∃ coverage, stack.head? = some coverage ∧ CoverageIs traces m set coverage := by
  cases h with
  | empty h => exact ⟨_, rfl, h⟩
  | add h _ => exact ⟨_, rfl, h⟩

theorem coverGroups_eq :
    ∀ {covered groups : List Bool} (groupsUncovered : Int), covered.length = groups.length →
      coverGroups covered groups groupsUncovered =
        some ⟨List.zipWith (· || ·) covered groups,
          groupsUncovered - covered.count false +
            (List.zipWith (· || ·) covered groups).count false⟩
  | [], [], u, _ => by
      simp [coverGroups]
  | c :: covered, g :: groups, u, h => by
      have hlen : covered.length = groups.length := by simpa using h
      have ih := fun u => coverGroups_eq u hlen
      cases c <;> cases g <;>
        simp only [coverGroups, ih, Option.map_some, Bool.not_true, Bool.not_false,
          Bool.and_true, Bool.and_false, if_true, if_false, reduceCtorEq,
          List.zipWith_cons_cons, List.count_cons, Bool.or_true, Bool.or_false, beq_iff_eq] <;>
        congr 2 <;> push_cast <;> ring

theorem CoverageIs.add {coverage : GroupsCoverage} (h : CoverageIs traces m set coverage)
    {index : Nat} {traceInfo : TestTraceInfo} (hindex : traces[index]? = some traceInfo)
    (hlen : traceInfo.groups.length = m) :
    ∃ coverage',
      coverGroups coverage.covered traceInfo.groups coverage.groupsUncovered = some coverage' ∧
        CoverageIs traces m (index :: set) coverage' := by
  have hsame : coverage.covered.length = traceInfo.groups.length := h.length.trans hlen.symm
  refine ⟨_, coverGroups_eq _ hsame, ?_, ?_, ?_⟩
  · rw [List.length_zipWith, h.length, hlen, Nat.min_self]
  · intro k
    have hgroup : CoversGroup traces index k ↔ traceInfo.groups[k]? = some true := by
      simp [CoversGroup, hindex]
    rw [List.getElem?_zipWith]
    by_cases hk : k < m
    · have hc := h.covered k
      have hk1 : k < coverage.covered.length := by rw [h.length]; exact hk
      have hk2 : k < traceInfo.groups.length := by rw [hlen]; exact hk
      rw [List.getElem?_eq_getElem hk1] at hc ⊢
      rw [List.getElem?_eq_getElem hk2] at hgroup ⊢
      simp only [Option.some.injEq, Bool.or_eq_true, List.mem_cons] at hc hgroup ⊢
      rw [hc, ← hgroup]
      constructor
      · rintro (⟨-, i, hi, hcover⟩ | hcover)
        · exact ⟨hk, i, Or.inr hi, hcover⟩
        · exact ⟨hk, index, Or.inl rfl, hcover⟩
      · rintro ⟨-, i, rfl | hi, hcover⟩
        · exact Or.inr hcover
        · exact Or.inl ⟨hk, i, hi, hcover⟩
    · have hk1 : coverage.covered.length ≤ k := by rw [h.length]; omega
      rw [List.getElem?_eq_none hk1]
      simp [hk]
  · simp only [h.uncovered]
    ring

theorem CoverageIs.groupsUncovered_eq_zero_iff {coverage : GroupsCoverage}
    (h : CoverageIs traces m set coverage) :
    coverage.groupsUncovered = 0 ↔ CoversAll traces m set := by
  rw [h.uncovered, Int.natCast_eq_zero, List.count_eq_zero]
  constructor
  · intro hfalse k hk
    have hlt : k < coverage.covered.length := by rw [h.length]; exact hk
    refine ((h.covered k).mp ?_).2
    rw [List.getElem?_eq_getElem hlt]
    cases hc : coverage.covered[k] with
    | true => rfl
    | false => exact absurd (hc ▸ List.getElem_mem hlt) hfalse
  · intro hall hmem
    obtain ⟨k, hlt, hc⟩ := List.getElem_of_mem hmem
    have hk : k < m := by rw [← h.length]; exact hlt
    have htrue := (h.covered k).mpr ⟨hk, hall k hk⟩
    rw [List.getElem?_eq_getElem hlt, hc] at htrue
    cases htrue

section Steps

variable {it : TraceSetIterator}

/-- A trace behind the last one of the set can be added. -/
theorem setAddTraceAt_spec (hgroups : ∀ traceInfo ∈ traces, traceInfo.groups.length = m)
    (h : SearchInvariant traces m it) {index : Nat} (hindex : index < traces.length)
    (hlast : ∀ i ∈ it.currentSet, i < index) :
    ∃ it', it.setAddTraceAt traces index = some it' ∧ SearchInvariant traces m it' ∧
      it'.currentSet = index :: it.currentSet ∧ it'.optSet = it.optSet ∧
      it'.optWeight = it.optWeight := by
  obtain ⟨coverage, hhead, hcoverage⟩ := h.stack.head
  have htrace : traces[index]? = some traces[index] := List.getElem?_eq_getElem hindex
  obtain ⟨coverage', hadd, hcoverage'⟩ :=
    hcoverage.add htrace (hgroups _ (List.getElem_mem hindex))
  have hrun : it.setAddTraceAt traces index = some { it with
      currentSet := index :: it.currentSet
      currentWeight := it.currentWeight + traces[index].weight
      coverageStack := coverage' :: it.coverageStack } := by
    simp only [setAddTraceAt, htrace, hhead, hadd, Option.bind_eq_bind, Option.bind_some,
      Option.pure_def]
  refine ⟨_, hrun, ?_, rfl, rfl, rfl⟩
  constructor
  · exact List.pairwise_cons.mpr ⟨fun i hi => hlast i hi, h.increasing⟩
  · intro i hi
    rcases List.mem_cons.mp hi with rfl | hi
    · exact hindex
    · exact h.inRange i hi
  · exact StackIs.add hcoverage' h.stack
  · rw [h.weight, List.map_cons, List.sum_cons, weightAt, htrace]
    exact add_comm _ _
  · exact h.optNodup
  · exact h.optInRange
  · exact h.optCovers

variable {i n : Nat}

theorem setDropTrace_spec (h : SearchInvariant traces m it) (hset : it.currentSet = i :: set) :
    ∃ it', it.setDropTrace traces = some it' ∧ SearchInvariant traces m it' ∧
      it'.currentSet = set ∧ it'.optSet = it.optSet ∧ it'.optWeight = it.optWeight := by
  have hi : i < traces.length := h.inRange i (by rw [hset]; exact List.mem_cons_self)
  have htrace : traces[i]? = some traces[i] := List.getElem?_eq_getElem hi
  have hstack := h.stack
  have hincreasing := h.increasing
  have hweight := h.weight
  rw [hset] at hstack hincreasing hweight
  have hrun : it.setDropTrace traces = some { it with
      currentSet := set
      currentWeight := it.currentWeight - traces[i].weight
      coverageStack := it.coverageStack.tail } := by
    simp only [setDropTrace, hset, List.head?_cons, List.tail_cons, htrace, Option.bind_eq_bind,
      Option.bind_some, Option.pure_def]
  refine ⟨_, hrun, ?_, rfl, rfl, rfl⟩
  constructor
  · exact (List.pairwise_cons.mp hincreasing).2
  · intro j hj
    exact h.inRange j (by rw [hset]; exact List.mem_cons_of_mem _ hj)
  · generalize it.coverageStack = stack at hstack
    cases hstack with
    | add _ hstack => exact hstack
  · rw [hweight, List.map_cons, List.sum_cons, weightAt, htrace]
    simp
  · exact h.optNodup
  · exact h.optInRange
  · exact h.optCovers

theorem setCheck_spec (h : SearchInvariant traces m it) (hset : it.currentSet = i :: set) :
    ∃ it' canBeContinued, it.setCheck traces = some (it', canBeContinued) ∧
      SearchInvariant traces m it' ∧ it'.currentSet = it.currentSet := by
  obtain ⟨coverage, hhead, hcoverage⟩ := h.stack.head
  unfold setCheck
  split_ifs with hweight
  · exact ⟨it, false, rfl, h, rfl⟩
  · simp only [hhead, Option.bind_eq_bind, Option.bind_some]
    split_ifs with hzero
    · refine ⟨_, false, rfl, ⟨h.increasing, h.inRange, h.stack, h.weight, ?_, ?_, ?_⟩, rfl⟩
      · exact List.nodup_reverse.mpr (h.increasing.imp fun hlt => (ne_of_lt hlt).symm)
      · intro j hj
        exact h.inRange j (List.mem_reverse.mp hj)
      · right
        intro k hk
        obtain ⟨j, hj, hcover⟩ := hcoverage.groupsUncovered_eq_zero_iff.mp hzero k hk
        exact ⟨j, List.mem_reverse.mpr hj, hcover⟩
    · simp only [hset, List.head?_cons, Option.bind_some]
      cases traces[i + 1]? with
      | none => exact ⟨it, false, rfl, h, hset⟩
      | some nextTraceInfo => exact ⟨it, _, rfl, h, hset⟩

theorem setAddTrace_spec (hgroups : ∀ traceInfo ∈ traces, traceInfo.groups.length = m)
    (h : SearchInvariant traces m it) (hset : it.currentSet = i :: set) :
    it.setAddTrace traces = some (it, false) ∨
      ∃ it', it.setAddTrace traces = some (it', true) ∧ SearchInvariant traces m it' ∧
        i + 1 < traces.length ∧ it'.currentSet = (i + 1) :: i :: set := by
  simp only [setAddTrace, hset, List.head?_cons, Option.bind_eq_bind, Option.bind_some]
  split_ifs with hend
  · exact Or.inl rfl
  · right
    have hlast : ∀ j ∈ it.currentSet, j < i + 1 := by
      intro j hj
      have hincreasing := h.increasing
      rw [hset] at hj hincreasing
      rcases List.mem_cons.mp hj with rfl | hj
      · exact Nat.lt_succ_self j
      · exact ((List.pairwise_cons.mp hincreasing).1 j hj).trans (Nat.lt_succ_self i)
    have hnext : i + 1 < traces.length := by omega
    obtain ⟨it', hadd, h', hset', -⟩ := setAddTraceAt_spec hgroups h hnext hlast
    refine ⟨it', ?_, h', hnext, by rw [hset', hset]⟩
    simp only [hadd, Option.bind_some, Option.pure_def]

/-- The last trace is dropped, and the one before it is replaced by the next. -/
theorem setDropAndNext_spec
    (hgroups : ∀ traceInfo ∈ traces, traceInfo.groups.length = m)
    (h : SearchInvariant traces m it) (hset : it.currentSet = i :: set) :
    (∃ it', it.setDropAndNext traces = some (it', false) ∧ SearchInvariant traces m it' ∧
        it'.optSet = it.optSet) ∨
      ∃ it' j rest, it.setDropAndNext traces = some (it', true) ∧ SearchInvariant traces m it' ∧
        set = j :: rest ∧ j < i ∧ it'.currentSet = (j + 1) :: rest := by
  obtain ⟨it1, hdrop, h₁, hset1, hopt1, -⟩ := setDropTrace_spec h hset
  simp only [setDropAndNext, hdrop, Option.bind_eq_bind, Option.bind_some, hset1]
  cases hset' : set with
  | nil => exact Or.inl ⟨it1, rfl, h₁, hopt1⟩
  | cons j rest =>
    right
    rw [hset'] at hset1 hset
    have hincreasing := h.increasing
    have hincreasing1 := h₁.increasing
    rw [hset] at hincreasing
    rw [hset1] at hincreasing1
    have hji : j < i := (List.pairwise_cons.mp hincreasing).1 j List.mem_cons_self
    have hi : i < traces.length := h.inRange i (by rw [hset]; exact List.mem_cons_self)
    obtain ⟨it2, hdrop2, h₂, hset2, -, -⟩ := setDropTrace_spec h₁ hset1
    -- the index that comes next does not exceed the one that was dropped
    have hlast : ∀ l ∈ it2.currentSet, l < j + 1 := by
      intro l hl
      rw [hset2] at hl
      exact ((List.pairwise_cons.mp hincreasing1).1 l hl).trans (Nat.lt_succ_self j)
    obtain ⟨it3, hadd, h3, hset3, -, -⟩ :=
      setAddTraceAt_spec hgroups h₂ (by omega : j + 1 < traces.length) hlast
    refine ⟨it3, j, rest, ?_, h3, rfl, hji, by rw [hset3, hset2]⟩
    simp only [List.head?_cons, hdrop2, hadd, Option.bind_some, Option.pure_def]

/-- The number of sets that are still to be visited after the given one. -/
def setsLeft (n : Nat) : List Nat → Nat
  | [] => 0
  | i :: set => 2 ^ (n - 1 - i) + ((i :: set).map fun j => 2 ^ (n - 1 - j) - 1).sum

theorem setsLeft_first (hn : 0 < n) : setsLeft n [0] < 2 ^ n := by
  obtain ⟨e, rfl⟩ : ∃ e, n = e + 1 := ⟨n - 1, by omega⟩
  have hpow : 0 < 2 ^ e := Nat.two_pow_pos e
  simp only [setsLeft, List.map_cons, List.map_nil, List.sum_cons, List.sum_nil,
    Nat.add_sub_cancel, Nat.sub_zero, pow_succ]
  omega

theorem setsLeft_add (hi : i + 1 < n) :
    setsLeft n ((i + 1) :: i :: set) < setsLeft n (i :: set) := by
  obtain ⟨e, rfl⟩ : ∃ e, n = i + 2 + e := ⟨n - i - 2, by omega⟩
  have h1 : i + 2 + e - 1 - (i + 1) = e := by omega
  have h2 : i + 2 + e - 1 - i = e + 1 := by omega
  have hpos : 0 < 2 ^ e := Nat.two_pow_pos e
  simp only [setsLeft, List.map_cons, List.sum_cons, h1, h2, pow_succ]
  omega

theorem setsLeft_next {j : Nat} (hji : j < i) (hi : i < n) :
    setsLeft n ((j + 1) :: set) < setsLeft n (i :: j :: set) := by
  obtain ⟨e, rfl⟩ : ∃ e, n = j + 2 + e := ⟨n - j - 2, by omega⟩
  have h1 : j + 2 + e - 1 - (j + 1) = e := by omega
  have h2 : j + 2 + e - 1 - j = e + 1 := by omega
  have hpos : 0 < 2 ^ e := Nat.two_pow_pos e
  have hpos' : 0 < 2 ^ (j + 2 + e - 1 - i) := Nat.two_pow_pos _
  simp only [setsLeft, List.map_cons, List.sum_cons, h1, h2, pow_succ]
  omega

section

variable (hgroups : ∀ traceInfo ∈ traces, traceInfo.groups.length = m)
include hgroups

/-- A round of the search keeps the invariant and has fewer sets left. -/
theorem searchBody_spec
    (h : SearchInvariant traces m it) (hne : it.currentSet ≠ []) :
    (∃ it', searchBody traces it = some (.next it') ∧
        (SearchInvariant traces m it' ∧ it'.currentSet ≠ []) ∧
        setsLeft traces.length it'.currentSet < setsLeft traces.length it.currentSet) ∨
      ∃ it', searchBody traces it = some (.done it') ∧ SearchInvariant traces m it' := by
  obtain ⟨i, set, hset⟩ := List.exists_cons_of_ne_nil hne
  obtain ⟨it1, canBeContinued, hcheck, h₁, hset1⟩ := setCheck_spec h hset
  rw [hset] at hset1
  have hi : i < traces.length := h.inRange i (by rw [hset]; exact List.mem_cons_self)
  have hdrop :
      (∃ it', (it1.setDropAndNext traces).bind (fun r =>
          if r.2 then some (Loop.Round.next r.1) else some (.done r.1)) = some (.next it') ∧
        (SearchInvariant traces m it' ∧ it'.currentSet ≠ []) ∧
        setsLeft traces.length it'.currentSet < setsLeft traces.length it.currentSet) ∨
      ∃ it', (it1.setDropAndNext traces).bind (fun r =>
          if r.2 then some (Loop.Round.next r.1) else some (.done r.1)) = some (.done it') ∧
        SearchInvariant traces m it' := by
    rcases setDropAndNext_spec hgroups h₁ hset1 with
      ⟨it2, hnext, h₂, -⟩ | ⟨it2, j, rest, hnext, h₂, rfl, hji, hset2⟩
    · exact Or.inr ⟨it2, by simp [hnext], h₂⟩
    · left
      refine ⟨it2, by simp [hnext], ⟨h₂, by simp [hset2]⟩, ?_⟩
      rw [hset2, hset]
      exact setsLeft_next hji hi
  simp only [searchBody, hcheck, Option.bind_eq_bind, Option.bind_some, Option.pure_def]
  cases canBeContinued with
  | false =>
    simp only [Bool.false_eq_true, if_false]
    exact hdrop
  | true =>
    rcases setAddTrace_spec hgroups h₁ hset1 with hadd | ⟨it2, hadd, h₂, hnext, hset2⟩
    · simp only [if_true, hadd, Option.bind_some, Bool.false_eq_true, if_false]
      exact hdrop
    · left
      refine ⟨it2, by simp [hadd], ⟨h₂, by simp [hset2]⟩, ?_⟩
      rw [hset2, hset]
      exact setsLeft_add hnext

theorem new_spec
    (hne : traces ≠ []) :
    ∃ it, new traces = some it ∧ SearchInvariant traces m it ∧ it.currentSet = [] ∧
      it.optSet = List.range traces.length ∧
      it.optWeight = (traces.map TestTraceInfo.weight).sum := by
  obtain ⟨first, rest, rfl⟩ := List.exists_cons_of_ne_nil hne
  have hm : first.groups.length = m := hgroups first List.mem_cons_self
  refine ⟨_, rfl, ⟨List.Pairwise.nil, ?_, StackIs.empty ⟨?_, ?_, ?_⟩, rfl, ?_, ?_, Or.inl rfl⟩,
    rfl, rfl, rfl⟩
  · intro i hi
    cases hi
  · rw [List.length_replicate, hm]
  · intro k
    rw [List.getElem?_replicate]
    split_ifs <;> simp
  · simp
  · exact List.nodup_range
  · intro i hi
    exact List.mem_range.mp hi

theorem setFirst_spec
    (hne : traces ≠ []) :
    ∃ it it', new traces = some it ∧ it.setFirst traces = some it' ∧
      SearchInvariant traces m it' ∧ it'.currentSet = [0] ∧
      it'.optSet = List.range traces.length ∧
      it'.optWeight = (traces.map TestTraceInfo.weight).sum := by
  obtain ⟨it, hnew, h, hset, hopt, hweight⟩ := new_spec hgroups hne
  have hlast : ∀ i ∈ it.currentSet, i < 0 := by
    intro i hi
    rw [hset] at hi
    cases hi
  obtain ⟨it', hfirst, h', hset', hopt', hweight'⟩ :=
    setAddTraceAt_spec hgroups h (List.length_pos_iff.mpr hne) hlast
  exact ⟨it, it', hnew, hfirst, h', by rw [hset', hset], by rw [hopt', hopt],
    by rw [hweight', hweight]⟩

/-- The loop of `optimize` ends without an access out of range. -/
theorem search_spec
    (hne : traces ≠ []) :
    ∃ it, search traces = some it ∧ SearchInvariant traces m it := by
  obtain ⟨it, it', hnew, hfirst, h, hset, -⟩ := setFirst_spec hgroups hne
  have hfuel : setsLeft traces.length it'.currentSet < 2 ^ traces.length := by
    rw [hset]
    exact setsLeft_first (List.length_pos_iff.mpr hne)
  obtain ⟨r, hrun, hr⟩ := Loop.run_eq_some
    (fun it => SearchInvariant traces m it ∧ it.currentSet ≠ []) (SearchInvariant traces m)
    (fun it => setsLeft traces.length it.currentSet)
    (fun it hit => searchBody_spec hgroups hit.1 hit.2)
    ⟨h, by simp [hset]⟩ hfuel
  refine ⟨r, ?_, hr⟩
  simp only [search, hnew, hfirst, Option.bind_eq_bind, Option.bind_some]
  exact hrun

end

end Steps

end TraceSetIterator

end Coverage
end KedrAux
