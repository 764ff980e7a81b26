import KedrAux.Coverage.TraceSetIterator
import KedrAux.Lib.RemovalOrder

/-!
# Optimization of a set of tests

`TestSetOptimizer::optimize` (`test_set_optimizer.cpp`).  Tests without weight are
included at once.  The lines of the other ones are combined into groups, such that
every trace covers a group as a whole or not at all; a test that is the only one to
cover a group is included.  A search through the sets of the remaining traces
completes the result.

The trace file of a test is represented by the trace that was read from it, and a
pointer to a test by the index of the test.  The messages of the verbose mode are
left out, as is the flag `allCover`, which is set but not used.
-/

namespace KedrAux
namespace Coverage

structure TestCoverageDesc where
  /-- What `traceFile` contains. -/
  trace : Trace
  weight : Rat
deriving DecidableEq

/-- A realization of `std::sort` with the comparison `sWeightLess`. -/
structure TraceSort where
  sort : List TestTraceInfo → List TestTraceInfo
  perm : ∀ traces, (sort traces).Perm traces
  sorted : ∀ traces, (sort traces).Pairwise fun a b => ¬b.sWeight < a.sWeight

def TraceSort.insertion : TraceSort where
  sort := List.insertionSort fun a b => a.sWeight ≤ b.sWeight
  perm := List.perm_insertionSort _
  sorted traces := by
    have htotal : Std.Total fun a b : TestTraceInfo => a.sWeight ≤ b.sWeight :=
      ⟨fun a b => le_total a.sWeight b.sWeight⟩
    have htrans : IsTrans TestTraceInfo fun a b => a.sWeight ≤ b.sWeight :=
      ⟨fun a b c => le_trans⟩
    exact (List.pairwise_insertionSort _ traces).imp fun h => not_lt.mpr h

namespace TestSetOptimizer

open RemovalOrder (lastFirst)

/-- `testTraceArrayRemoveAt`: an element that is not last is swapped with last. -/
def testTraceArrayRemoveAt (traces : List TestTraceInfo) (index : Nat) : List TestTraceInfo :=
  match traces.getLast? with
  | none => []
  | some back =>
    if index ≠ traces.length - 1 then (traces.set index back).dropLast else traces.dropLast

def clearMasked (mask : Trace) (traceInfo : TestTraceInfo) : TestTraceInfo :=
  { traceInfo with trace := traceClearLinesMasked traceInfo.trace mask }

/-- `testTraceArrayRemoveAtIncluded`: coverage of the element is substracted from others. -/
def testTraceArrayRemoveAtIncluded (traces : List TestTraceInfo) (index : Nat) :
    List TestTraceInfo :=
  match traces[index]? with
  | none => traces
  | some traceInfo =>
    testTraceArrayRemoveAt
      (traces.mapIdx fun i traceInfo1 =>
        if i = index then traceInfo1 else clearMasked traceInfo.trace traceInfo1)
      index

/-- The tests that are included so far and the array of the other ones. -/
structure State where
  testTraces : List TestTraceInfo
  includedTests : List Nat
  /-- The loop variable. -/
  current : Nat

def loadTestTrace (tests : List TestCoverageDesc) (i : Nat) : Option TestTraceInfo := do
  let test ← tests[i]?
  let trace ← loadTest test.trace
  return { trace := trace, weight := test.weight, test := i, groups := [], sWeight := 0 }

/-- Filter 0-weight traces, which are always included into result. -/
def zeroWeightBody (s : State) : Option (Loop.Round State State) :=
  match s.testTraces[s.current]? with
  | none => some (.done s)
  | some traceInfo =>
    if traceInfo.weight = 0 then
      some (.next { s with
        includedTests := s.includedTests ++ [traceInfo.test]
        testTraces := testTraceArrayRemoveAtIncluded s.testTraces s.current })
    else some (.next { s with current := s.current + 1 })

def pushGroup (covered : Bool) (traceInfo : TestTraceInfo) : TestTraceInfo :=
  { traceInfo with groups := traceInfo.groups ++ [covered] }

def popGroup (traceInfo : TestTraceInfo) : TestTraceInfo :=
  { traceInfo with groups := traceInfo.groups.dropLast }

/-- A group of lines: its coverage, and whether only the current trace covers it. -/
structure Group where
  groupTrace : Trace
  oneCover : Bool

/-- The loop over further traces, which may contain the group. -/
def restrictGroup (lineID : TraceLineID) :
    List TestTraceInfo → Group → Option (List TestTraceInfo × Group)
  | [], group => some ([], group)
  | traceInfo1 :: further, group => do
      let hasLine ← traceHasLine traceInfo1.trace lineID
      let group :=
        if hasLine then ⟨traceClearLinesNotMasked group.groupTrace traceInfo1.trace, false⟩
        else ⟨traceClearLinesMasked group.groupTrace traceInfo1.trace, group.oneCover⟩
      let (further, group) ← restrictGroup lineID further group
      return (pushGroup hasLine traceInfo1 :: further, group)

/-- Remove coverage, corresponded to the group, from a trace which includes it. -/
def clearGroup (groupTrace : Trace) (traceInfo1 : TestTraceInfo) : TestTraceInfo :=
  if traceInfo1.groups.getLast? = some true then clearMasked groupTrace traceInfo1 else traceInfo1

/-- A round of the grouping loop in which a line is covered. -/
def makeGroup (s : State) (traceInfo : TestTraceInfo) (lineID : TraceLineID) : Option State := do
  let previous := (s.testTraces.take s.current).map (pushGroup false)
  let (further, group) ←
    restrictGroup lineID (s.testTraces.drop (s.current + 1)) ⟨traceInfo.trace, true⟩
  let traceInfo := clearGroup group.groupTrace (pushGroup true traceInfo)
  let testTraces := previous ++ traceInfo :: further.map (clearGroup group.groupTrace)
  if group.oneCover then
    return { s with
      includedTests := s.includedTests ++ [traceInfo.test]
      testTraces := (testTraceArrayRemoveAtIncluded testTraces s.current).map popGroup }
  else return { s with testTraces := testTraces }

/-- Combine covered lines into groups. -/
def groupingBody (s : State) : Option (Loop.Round State State) :=
  match s.testTraces[s.current]? with
  | none => some (.done s)
  | some traceInfo => do
      match ← traceGetLineCovered traceInfo.trace with
      | none =>
        if traceInfo.groupsCovered = 0 then
          return .next { s with testTraces := testTraceArrayRemoveAt s.testTraces s.current }
        else return .next { s with current := s.current + 1 }
      | some lineID => return .next (← makeGroup s traceInfo lineID)

def linesOf (trace : Trace) : List TraceLineID :=
  trace.fileGroups.entries.flatMap fun group =>
    (group.2.files.find group.1.filename).elim [] fun file =>
      file.lines.keys.map fun line => ⟨group.1, line⟩

/-- A bound for the number of rounds of the grouping loop. -/
def groupingRounds (traces : List TestTraceInfo) : Nat :=
  (traces.map fun traceInfo => (linesOf traceInfo.trace).length).sum + 2 * traces.length

/-- The array without the tests without weight. -/
def filterTests (tests : List TestCoverageDesc) : Option State := do
  let testTraces ← (List.range tests.length).mapM (loadTestTrace tests)
  Loop.run zeroWeightBody (2 * testTraces.length + 1) ⟨testTraces, [], 0⟩

/-- The array after both loops and the tests included by them. -/
def groupTests (tests : List TestCoverageDesc) : Option State := do
  let s ← filterTests tests
  Loop.run groupingBody (groupingRounds s.testTraces + 1) { s with current := 0 }

def setSWeight (traceInfo : TestTraceInfo) : TestTraceInfo :=
  { traceInfo with sWeight := traceInfo.weight / traceInfo.groupsCovered }

@[simp] theorem setSWeight_test (traceInfo : TestTraceInfo) :
    (setSWeight traceInfo).test = traceInfo.test :=
  rfl

@[simp] theorem setSWeight_weight (traceInfo : TestTraceInfo) :
    (setSWeight traceInfo).weight = traceInfo.weight :=
  rfl

@[simp] theorem setSWeight_groups (traceInfo : TestTraceInfo) :
    (setSWeight traceInfo).groups = traceInfo.groups :=
  rfl

/-- The tests of the result, as indices in increasing order. -/
def optimalTests (sorting : TraceSort) (tests : List TestCoverageDesc) : Option (List Nat) := do
  let s ← groupTests tests
  if s.testTraces.isEmpty then return s.includedTests.insertionSort (· ≤ ·)
  let testTraces := sorting.sort (s.testTraces.map setSWeight)
  let it ← TraceSetIterator.search testTraces
  let found ← it.optSet.mapM fun i => (testTraces[i]?).map TestTraceInfo.test
  return (s.includedTests ++ found).insertionSort (· ≤ ·)

def optimize (sorting : TraceSort) (tests : List TestCoverageDesc) :
    Option (List TestCoverageDesc) := do
  let optTests ← optimalTests sorting tests
  optTests.mapM fun i => tests[i]?

theorem testTraceArrayRemoveAt_eq
    (previous further : List TestTraceInfo) (traceInfo : TestTraceInfo) :
    testTraceArrayRemoveAt (previous ++ traceInfo :: further) previous.length =
      previous ++ lastFirst further := by
  unfold testTraceArrayRemoveAt
  cases further with
  | nil => simp [lastFirst]
  | cons b further =>
    have hback : (previous ++ traceInfo :: b :: further).getLast? =
        some ((b :: further).getLast (by simp)) := by
      simp [List.getLast?_eq_some_getLast]
    have hset : (previous ++ traceInfo :: b :: further).set previous.length
        ((b :: further).getLast (by simp)) =
          previous ++ (b :: further).getLast (by simp) :: b :: further := by
      simp
    simp only [hback, hset]
    rw [if_pos (by simp)]
    simp [lastFirst, List.dropLast_append_of_ne_nil]

theorem testTraceArrayRemoveAtIncluded_eq
    (previous further : List TestTraceInfo) (traceInfo : TestTraceInfo) :
    testTraceArrayRemoveAtIncluded (previous ++ traceInfo :: further) previous.length =
      previous.map (clearMasked traceInfo.trace) ++
        lastFirst (further.map (clearMasked traceInfo.trace)) := by
  have hget : (previous ++ traceInfo :: further)[previous.length]? = some traceInfo := by simp
  have hmap : ((previous ++ traceInfo :: further).mapIdx fun i traceInfo1 =>
      if i = previous.length then traceInfo1 else clearMasked traceInfo.trace traceInfo1) =
        previous.map (clearMasked traceInfo.trace) ++
          traceInfo :: further.map (clearMasked traceInfo.trace) := by
    apply List.ext_getElem?
    intro i
    rw [List.getElem?_mapIdx]
    rcases Nat.lt_trichotomy i previous.length with hi | rfl | hi
    · rw [List.getElem?_append_left hi, List.getElem?_append_left (by simpa using hi),
        List.getElem?_map]
      simp [hi.ne]
    · simp
    · obtain ⟨d, rfl⟩ := Nat.exists_eq_add_of_lt hi
      rw [List.getElem?_append_right (by omega), List.getElem?_append_right (by simp; omega)]
      have hd : previous.length + d + 1 - previous.length = d + 1 := by omega
      have hne : ¬previous.length + d + 1 = previous.length := by omega
      simp only [List.length_map, hd, List.getElem?_cons_succ, List.getElem?_map, hne, if_false]
  unfold testTraceArrayRemoveAtIncluded
  rw [hget]
  simp only [hmap]
  have h := testTraceArrayRemoveAt_eq (previous.map (clearMasked traceInfo.trace))
    (further.map (clearMasked traceInfo.trace)) traceInfo
  rwa [List.length_map] at h

end TestSetOptimizer

end Coverage
end KedrAux
