import KedrAux.Coverage.LineGroups

/-!
# Optimization keeps the coverage

The result of `TestSetOptimizer::optimize` is a part of the tests, in their order,
with all the tests without weight and with the lines that all tests cover together.
This needs counters that are not negative: `traceClearLinesNotMasked` takes every
counter other than `0` for a covered line.
-/

namespace KedrAux
namespace Coverage
namespace TestSetOptimizer

open RemovalOrder

def TestSet.ofTests (tests : List TestCoverageDesc) : TestSet where
  size := tests.length
  trace i := ((tests[i]?).bind fun test => loadTest test.trace).getD Trace.empty
  weight i := (tests[i]?).elim 0 TestCoverageDesc.weight

def TestSet.loaded (T : TestSet) (i : Nat) : TestTraceInfo :=
  { trace := T.trace i, weight := T.weight i, test := i, groups := [], sWeight := 0 }

theorem mapM_eq_some_map {α β : Type*} {f : α → Option β} {g : α → β} :
    ∀ {l : List α}, (∀ a ∈ l, f a = some (g a)) → l.mapM f = some (l.map g)
  | [], _ => rfl
  | a :: l, h => by
      rw [List.mapM_cons, h a List.mem_cons_self,
        mapM_eq_some_map fun a' ha' => h a' (List.mem_cons_of_mem _ ha')]
      rfl

section Loading

variable {tests : List TestCoverageDesc}
variable (hinv : ∀ test ∈ tests, test.trace.GroupInvariant)

include hinv

theorem loadTest_getElem {i : Nat} {test : TestCoverageDesc} (hi : tests[i]? = some test) :
    ∃ t', test.trace.groupFiles = some t' ∧
      loadTest test.trace = some ((TestSet.ofTests tests).trace i) ∧
      ((TestSet.ofTests tests).trace i).Grouped ∧
      ∀ lineID, ((TestSet.ofTests tests).trace i).counterOf lineID = t'.counterOf lineID := by
  obtain ⟨t', loaded, hgroup, hload, hgrouped, hcounter⟩ :=
    loadTest_spec (hinv test (List.mem_of_getElem? hi))
  have htrace : (TestSet.ofTests tests).trace i = loaded := by
    simp [TestSet.ofTests, hi, hload]
  rw [htrace]
  exact ⟨t', hgroup, hload, hgrouped, hcounter⟩

theorem loadTests_eq :
    (List.range tests.length).mapM (loadTestTrace tests) =
      some ((List.range tests.length).map (TestSet.ofTests tests).loaded) := by
  apply mapM_eq_some_map
  intro i hi
  have hlt := List.mem_range.mp hi
  have hget : tests[i]? = some tests[i] := List.getElem?_eq_getElem hlt
  obtain ⟨-, -, hload, -, -⟩ := loadTest_getElem hinv hget
  simp only [loadTestTrace, hget, Option.bind_eq_bind, Option.bind_some, hload, Option.pure_def]
  simp [TestSet.loaded, TestSet.ofTests, hget]

theorem tracked_loaded :
    Tracked (TestSet.ofTests tests) []
      ((List.range tests.length).map (TestSet.ofTests tests).loaded) := by
  have hmem : ∀ t ∈ (List.range tests.length).map (TestSet.ofTests tests).loaded,
      ∃ i, i < tests.length ∧ t = (TestSet.ofTests tests).loaded i := by
    intro t ht
    obtain ⟨i, hi, rfl⟩ := List.mem_map.mp ht
    exact ⟨i, List.mem_range.mp hi, rfl⟩
  have htests : ((List.range tests.length).map (TestSet.ofTests tests).loaded).map
      TestTraceInfo.test = List.range tests.length := by
    rw [List.map_map]
    exact List.map_id _
  constructor
  · intro t ht
    obtain ⟨i, hi, rfl⟩ := hmem t ht
    obtain ⟨-, -, -, hgrouped, -⟩ := loadTest_getElem hinv (List.getElem?_eq_getElem hi)
    exact ⟨rfl, hgrouped, fun lineID c hc => hc⟩
  · refine ⟨0, fun t ht => ?_⟩
    obtain ⟨i, hi, rfl⟩ := hmem t ht
    rfl
  · rw [htests, List.nil_append]
    exact List.nodup_range
  · rw [htests, List.nil_append]
    exact fun i hi => List.mem_range.mp hi
  · intro i lineID hi hcover
    right
    left
    intro t ht
    obtain ⟨j, hj, rfl⟩ := hmem t ht
    exact Iff.rfl
  · rintro lineID t ⟨j, hj, -⟩
    cases hj
  · intro i hi
    right
    left
    exact ⟨_, List.mem_map_of_mem (List.mem_range.mpr hi), rfl⟩

end Loading

/-- The order in which the first loop comes to the tests. -/
def TestSet.filtered (T : TestSet) : List Nat :=
  order (fun _ i => decide (T.weight i = 0)) [] (List.range T.size)

def TestSet.array (T : TestSet) : List Nat :=
  T.filtered.filter fun i => decide (T.weight i ≠ 0)

/-- What holds in every round of the first loop. -/
structure Filtering (T : TestSet) (s : State) : Prop where
  tracked : Tracked T s.includedTests s.testTraces
  noGroups : ∀ t ∈ s.testTraces, t.groups = []
  zeros : ∀ i ∈ s.includedTests, T.weight i = 0
  passed : ∀ t ∈ s.testTraces.take s.current, t.weight ≠ 0
  all : ∀ i, i < T.size → i ∈ s.includedTests ∨ ∃ t ∈ s.testTraces, t.test = i
  order : ∃ done, (s.testTraces.take s.current).map TestTraceInfo.test =
      done.filter (fun i => decide (T.weight i ≠ 0)) ∧
    T.filtered = done ++ order (fun _ i => decide (T.weight i = 0)) done
      ((s.testTraces.drop s.current).map TestTraceInfo.test)

variable {T : TestSet} {s : State} {tests : List TestCoverageDesc} {traces : List TestTraceInfo}
variable {i : Nat}

/-- A round of the loop over the tests without weight. -/
theorem zeroWeightBody_spec (h : Filtering T s) :
    (∃ s', zeroWeightBody s = some (.next s') ∧ Filtering T s' ∧
        2 * s'.testTraces.length - s'.current < 2 * s.testTraces.length - s.current) ∨
      zeroWeightBody s = some (.done s) ∧ s.testTraces.length ≤ s.current := by
  cases hget : s.testTraces[s.current]? with
  | none => exact Or.inr ⟨by simp [zeroWeightBody, hget], List.getElem?_eq_none_iff.mp hget⟩
  | some traceInfo =>
    left
    obtain ⟨previous, further, hat⟩ := atCurrent_of_getElem hget
    have hpassed := h.passed
    rw [hat.take] at hpassed
    obtain ⟨done, htake, horder⟩ := h.order
    rw [hat.take] at htake
    rw [hat.drop, List.map_cons] at horder
    have htestWeight := (h.tracked.derived traceInfo (by simp [hat.traces])).weight
    have hlength := hat.perm.length_eq
    rw [List.length_cons, List.length_append] at hlength
    have hcurrent := hat.current
    by_cases hweight : traceInfo.weight = 0
    · have hremove := testTraceArrayRemoveAtIncluded_eq previous further traceInfo
      rw [← hat.traces, ← hat.current] at hremove
      have hself : traceInfo ∈ s.testTraces := by simp [hat.traces]
      have hperm := withoutIncluded_perm previous further traceInfo
      have hbody : zeroWeightBody s = some (.next { s with
          includedTests := s.includedTests ++ [traceInfo.test]
          testTraces := withoutIncluded previous traceInfo further }) := by
        simp only [zeroWeightBody, hget, hweight, if_true, hremove, withoutIncluded]
      rw [hweight] at htestWeight
      rw [order_of_leaves _ _ _ (decide_eq_true htestWeight.symm)] at horder
      refine ⟨_, hbody, ⟨?_, ?_, ?_, ?_, ?_, done ++ [traceInfo.test], ?_, ?_⟩, ?_⟩
      · have hinclude := (h.tracked.perm hat.perm.symm).include (g := id)
          ⟨0, fun t ht => by
            rw [id, h.noGroups t (hat.perm.symm.subset (List.mem_cons_of_mem _ ht))]
            rfl⟩
          (fun k t _ _ hk => ⟨hk, rfl⟩)
        have hid : withGroups id = id := rfl
        rw [hid, List.map_id] at hinclude
        exact hinclude.perm hperm
      · intro t' ht'
        obtain ⟨t, ht, rfl⟩ := List.mem_map.mp (hperm.subset ht')
        exact h.noGroups t (hat.perm.symm.subset (List.mem_cons_of_mem _ ht))
      · intro i hi
        rcases List.mem_append.mp hi with hi | hi
        · exact h.zeros i hi
        · rw [List.mem_singleton.mp hi, ← (h.tracked.derived traceInfo hself).weight]
          exact hweight
      · intro t' ht'
        rw [hat.current, withoutIncluded, List.take_left' (by simp)] at ht'
        obtain ⟨t, ht, rfl⟩ := List.mem_map.mp ht'
        exact hpassed t ht
      · intro i hi
        rcases h.all i hi with hincluded | ⟨t, ht, htest⟩
        · exact Or.inl (List.mem_append_left _ hincluded)
        · rcases List.mem_cons.mp (hat.perm.subset ht) with rfl | ht
          · exact Or.inl (by simp [htest])
          · exact Or.inr ⟨_, hperm.symm.subset (List.mem_map_of_mem ht), htest⟩
      · have htests : TestTraceInfo.test ∘ clearMasked traceInfo.trace = TestTraceInfo.test := rfl
        rw [hat.current, withoutIncluded, List.take_left' (by simp), List.map_map, htests, htake,
          List.filter_append, List.filter_singleton, ← htestWeight]
        simp
      · rw [hat.current, withoutIncluded, List.drop_left' (by simp), ← lastFirst_map,
          List.map_map, List.append_assoc]
        exact horder
      · have hlength' := hperm.length_eq.trans (List.length_map _)
        rw [List.length_append] at hlength'
        change 2 * (withoutIncluded previous traceInfo further).length - s.current < _
        omega
    · have hbody : zeroWeightBody s = some (.next { s with current := s.current + 1 }) := by
        simp only [zeroWeightBody, hget, hweight, if_false]
      rw [htestWeight] at hweight
      rw [order_of_stays _ _ _ (by simpa using hweight)] at horder
      rw [← htestWeight] at hweight
      refine ⟨_, hbody,
        ⟨h.tracked, h.noGroups, h.zeros, ?_, h.all, done ++ [traceInfo.test], ?_, ?_⟩, ?_⟩
      · intro t ht
        rw [hat.take_succ, List.mem_append, List.mem_singleton] at ht
        rcases ht with ht | rfl
        · exact hpassed t ht
        · exact hweight
      · rw [hat.take_succ, List.map_append, htake, List.filter_append, List.filter_singleton,
          ← htestWeight]
        simp [hweight]
      · rw [hat.drop_succ, List.append_assoc]
        exact horder
      · change 2 * s.testTraces.length - (s.current + 1) < _
        omega

theorem Filtering.grouping (h : Filtering T s) (hend : s.testTraces.length ≤ s.current) :
    Grouping T { s with current := 0 } := by
  refine ⟨h.tracked, ?_, ?_, Nat.zero_le _⟩
  · intro z hz hweight
    rcases h.all z hz with hincluded | ⟨t, ht, rfl⟩
    · exact hincluded
    · have hpassed := h.passed t (by rwa [List.take_of_length_le hend])
      rw [(h.tracked.derived t ht).weight] at hpassed
      exact absurd hweight hpassed
  · intro t ht
    cases ht

/-- The loop of `filterTests` ends at the end of the array. -/
theorem filterTests_spec (hinv : ∀ test ∈ tests, test.trace.GroupInvariant) :
    ∃ s, filterTests tests = some s ∧ Filtering (TestSet.ofTests tests) s ∧
      s.testTraces.length ≤ s.current := by
  have hfilter : Filtering (TestSet.ofTests tests)
      ⟨(List.range tests.length).map (TestSet.ofTests tests).loaded, [], 0⟩ := by
    refine ⟨tracked_loaded hinv, ?_, ?_, ?_, ?_, [], rfl, ?_⟩
    · intro t ht
      obtain ⟨i, -, rfl⟩ := List.mem_map.mp ht
      rfl
    · intro i hi
      cases hi
    · intro t ht
      cases ht
    · intro i hi
      exact Or.inr ⟨_, List.mem_map_of_mem (List.mem_range.mpr hi), rfl⟩
    · rw [List.drop_zero, List.map_map]
      exact congrArg _ (List.map_id _).symm
  obtain ⟨s, hrun, hs, hend⟩ := Loop.run_eq_some (Filtering (TestSet.ofTests tests))
    (fun s => Filtering (TestSet.ofTests tests) s ∧ s.testTraces.length ≤ s.current)
    (fun s => 2 * s.testTraces.length - s.current)
    (fun s hs => by
      rcases zeroWeightBody_spec hs with hnext | ⟨hbody, hend⟩
      · exact Or.inl hnext
      · exact Or.inr ⟨s, hbody, hs, hend⟩)
    hfilter
    (by simp : _ < 2 * ((List.range tests.length).map (TestSet.ofTests tests).loaded).length + 1)
  refine ⟨s, ?_, hs, hend⟩
  simp only [filterTests, loadTests_eq hinv, Option.bind_eq_bind, Option.bind_some]
  exact hrun

/-- The array behind the loop. -/
theorem Filtering.array_eq (h : Filtering T s) (hend : s.testTraces.length ≤ s.current) :
    s.testTraces.map TestTraceInfo.test = T.array := by
  obtain ⟨done, htake, horder⟩ := h.order
  rw [List.take_of_length_le hend] at htake
  rw [List.drop_eq_nil_of_le hend, List.map_nil, order_nil, List.append_nil] at horder
  rw [htake, TestSet.array, horder]

/-- The tests that the search adds to the included ones. -/
structure Found (traces : List TestTraceInfo) (found : List Nat) : Prop where
  nodup : found.Nodup
  mem : ∀ i ∈ found, ∃ t ∈ traces, t.test = i
  covers : (∀ t ∈ traces, t.test ∈ found) ∨
    ∀ k t, t ∈ traces → k < t.groups.length →
      ∃ t' ∈ traces, t'.test ∈ found ∧ t'.groups[k]? = some true

def testAt (traces : List TestTraceInfo) (i : Nat) : Nat :=
  (traces[i]?).elim 0 TestTraceInfo.test

variable {t : TestTraceInfo}

theorem testAt_of_getElem (h : traces[i]? = some t) : testAt traces i = t.test := by
  rw [testAt, h]
  rfl

theorem testAt_injOn (h : (traces.map TestTraceInfo.test).Nodup) {j : Nat} (hi : i < traces.length)
    (hj : j < traces.length) (heq : testAt traces i = testAt traces j) :
    i = j := by
  have hgeti := List.getElem?_eq_getElem hi
  have hgetj := List.getElem?_eq_getElem hj
  rw [testAt_of_getElem hgeti, testAt_of_getElem hgetj] at heq
  refine (List.getElem?_inj (by simpa using hi) h).mp ?_
  rw [List.getElem?_map, List.getElem?_map, hgeti, hgetj, Option.map_some, Option.map_some, heq]

theorem optimalTests_eq (sorting : TraceSort) {it : TraceSetIterator}
    (hs : groupTests tests = some s) (hne : s.testTraces ≠ [])
    (htraces : sorting.sort (s.testTraces.map setSWeight) = traces)
    (hsearch : TraceSetIterator.search traces = some it)
    (hrange : ∀ i ∈ it.optSet, i < traces.length) :
    optimalTests sorting tests = some
      ((s.includedTests ++ it.optSet.map (testAt traces)).insertionSort (· ≤ ·)) := by
  have hfound : it.optSet.mapM (fun i => (traces[i]?).map TestTraceInfo.test) =
      some (it.optSet.map (testAt traces)) := by
    apply mapM_eq_some_map
    intro i hi
    have hget := List.getElem?_eq_getElem (hrange i hi)
    rw [hget, testAt_of_getElem hget]
    rfl
  simp only [optimalTests, hs, Option.bind_eq_bind, Option.bind_some, List.isEmpty_iff, hne,
    if_false, htraces, hsearch, hfound, Option.pure_def]

theorem optimalTests_eq_of_empty (sorting : TraceSort) (hs : groupTests tests = some s)
    (hempty : s.testTraces = []) :
    optimalTests sorting tests = some (s.includedTests.insertionSort (· ≤ ·)) := by
  simp [optimalTests, hs, hempty]

theorem mem_sort (sorting : TraceSort) (ht : t ∈ sorting.sort (traces.map setSWeight)) :
    ∃ t' ∈ traces, t = setSWeight t' := by
  obtain ⟨t', ht', rfl⟩ := List.mem_map.mp ((sorting.perm _).subset ht)
  exact ⟨t', ht', rfl⟩

theorem sort_ne_nil (sorting : TraceSort) (hne : traces ≠ []) :
    sorting.sort (traces.map setSWeight) ≠ [] := by
  intro hnil
  have hperm := sorting.perm (traces.map setSWeight)
  rw [hnil] at hperm
  exact hne (List.map_eq_nil_iff.mp hperm.symm.eq_nil)

/-- The result consists of the included tests and of those that the search has found. -/
theorem optimalTests_spec (sorting : TraceSort) (hs : groupTests tests = some s)
    (h : Tracked (TestSet.ofTests tests) s.includedTests s.testTraces) :
    ∃ found, optimalTests sorting tests =
        some ((s.includedTests ++ found).insertionSort (· ≤ ·)) ∧ Found s.testTraces found := by
  by_cases hempty : s.testTraces = []
  · refine ⟨[], ?_, List.nodup_nil, fun i hi => absurd hi (by simp), Or.inl ?_⟩
    · rw [List.append_nil]
      exact optimalTests_eq_of_empty sorting hs hempty
    · intro t ht
      rw [hempty] at ht
      cases ht
  · obtain ⟨m, hm⟩ := h.lengths
    have hperm := sorting.perm (s.testTraces.map setSWeight)
    have hmem : ∀ t ∈ sorting.sort (s.testTraces.map setSWeight),
        ∃ t' ∈ s.testTraces, t = setSWeight t' :=
      fun t ht => mem_sort sorting ht
    have hlengths : ∀ t ∈ sorting.sort (s.testTraces.map setSWeight), t.groups.length = m := by
      intro t ht
      obtain ⟨t', ht', rfl⟩ := hmem t ht
      exact hm t' ht'
    obtain ⟨it, hsearch, hit⟩ := TraceSetIterator.search_spec hlengths (sort_ne_nil sorting hempty)
    generalize htraces : sorting.sort (s.testTraces.map setSWeight) = traces at *
    have htests : (traces.map TestTraceInfo.test).Perm (s.testTraces.map TestTraceInfo.test) := by
      have hmap := hperm.map TestTraceInfo.test
      rwa [List.map_map] at hmap
    have hnodup := htests.nodup_iff.mpr (List.nodup_append.mp h.nodup).2.1
    refine ⟨it.optSet.map (testAt traces),
      optimalTests_eq sorting hs hempty htraces hsearch hit.optInRange, ?_, ?_, ?_⟩
    · exact hit.optNodup.map_on fun i hi j hj heq =>
        testAt_injOn hnodup (hit.optInRange i hi) (hit.optInRange j hj) heq
    · intro j hj
      obtain ⟨i, hi, rfl⟩ := List.mem_map.mp hj
      have hget := List.getElem?_eq_getElem (hit.optInRange i hi)
      obtain ⟨t, ht, heq⟩ := hmem _ (List.getElem_mem (hit.optInRange i hi))
      exact ⟨t, ht, by rw [testAt_of_getElem hget, heq]; rfl⟩
    · rcases hit.optCovers with hall | hcovers
      · left
        intro t ht
        obtain ⟨i, hi, hget⟩ := List.getElem_of_mem (hperm.symm.subset (List.mem_map_of_mem ht))
        refine List.mem_map.mpr ⟨i, by rw [hall]; exact List.mem_range.mpr hi, ?_⟩
        rw [testAt_of_getElem (List.getElem?_eq_getElem hi), hget]
        rfl
      · right
        intro k t ht hk
        obtain ⟨i, hi, t1, hget, hflag⟩ := hcovers k (by rw [← hm t ht]; exact hk)
        obtain ⟨t', ht', rfl⟩ := hmem t1 (List.mem_of_getElem? hget)
        exact ⟨t', ht', List.mem_map.mpr ⟨i, hi, (testAt_of_getElem hget).trans rfl⟩, hflag⟩

theorem Grouping.covers_found {found : List Nat} (h : Grouping T s)
    (hend : s.testTraces.length ≤ s.current) (hfound : Found s.testTraces found) (hi : i < T.size)
    {lineID : TraceLineID} (hcover : T.Covers i lineID) :
    ∃ j ∈ s.includedTests ++ found, T.Covers j lineID := by
  have hincluded : Included T s.includedTests lineID →
      ∃ j ∈ s.includedTests ++ found, T.Covers j lineID := by
    rintro ⟨j, hj, hcover'⟩
    exact ⟨j, List.mem_append_left _ hj, hcover'⟩
  rcases h.tracked.accounted i hi with hmem | ⟨t, ht, rfl⟩ | hall
  · exact hincluded ⟨i, hmem, hcover⟩
  · rcases h.tracked.lines t.test lineID hi hcover with hinc | huntouched | ⟨k, hgroup⟩
    · exact hincluded hinc
    · -- no line is left in the traces
      have hdead := (h.passed t (by rwa [List.take_of_length_le hend])).1 lineID
      exact absurd ((huntouched t ht).mpr hcover) hdead
    · rcases hfound.covers with hall | hcovers
      · exact ⟨t.test, List.mem_append_right _ (hall t ht), hcover⟩
      · obtain ⟨t', ht', hmem, hflag⟩ := hcovers k t ht (hgroup t ht).1
        exact ⟨t'.test, List.mem_append_right _ hmem, (hgroup t' ht').2.2.mp hflag⟩
  · exact hincluded (hall lineID hcover)

theorem mapM_eq_some_filterMap {α β : Type*} {f : α → Option β} :
    ∀ {l : List α}, (∀ a ∈ l, (f a).isSome) → l.mapM f = some (l.filterMap f)
  | [], _ => rfl
  | a :: l, h => by
      obtain ⟨b, hb⟩ := Option.isSome_iff_exists.mp (h a List.mem_cons_self)
      rw [List.mapM_cons, hb, mapM_eq_some_filterMap fun a' ha' => h a' (List.mem_cons_of_mem _ ha'),
        List.filterMap_cons_some hb]
      rfl

theorem range_filterMap_getElem {α : Type*} :
    ∀ l : List α, (List.range l.length).filterMap (fun i => l[i]?) = l
  | [] => rfl
  | a :: l => by
      have hhead : (fun i => (a :: l)[i]?) 0 = some a := rfl
      rw [List.length_cons, List.range_succ_eq_map, List.filterMap_cons_some hhead,
        List.filterMap_map]
      exact congrArg (a :: ·) (range_filterMap_getElem l)

theorem filterMap_getElem_sublist {α : Type*} {l : List α} {indices : List Nat}
    (hsorted : indices.Pairwise (· < ·)) (hrange : ∀ i ∈ indices, i < l.length) :
    (indices.filterMap fun i => l[i]?).Sublist l := by
  have hnodup : indices.Nodup := hsorted.imp fun h => h.ne
  have hsubperm : indices.Subperm (List.range l.length) :=
    hnodup.subperm fun i hi => List.mem_range.mpr (hrange i hi)
  have hsublist : indices.Sublist (List.range l.length) :=
    List.sublist_of_subperm_of_pairwise hsubperm (hsorted.imp fun h => h.le)
      (List.pairwise_lt_range.imp fun h => h.le)
  have h := hsublist.filterMap fun i => l[i]?
  rwa [range_filterMap_getElem] at h

end TestSetOptimizer

open TestSetOptimizer

def TestCoverageDesc.counterOf (test : TestCoverageDesc) (lineID : TraceLineID) : Option Int :=
  test.trace.groupFiles.bind fun t => t.counterOf lineID

def TestCoverageDesc.Covers (test : TestCoverageDesc) (lineID : TraceLineID) : Prop :=
  Hit (test.counterOf lineID)

instance (test : TestCoverageDesc) (lineID : TraceLineID) : Decidable (test.Covers lineID) :=
  inferInstanceAs (Decidable (Hit (test.counterOf lineID)))

def NeededLine (tests : List TestCoverageDesc) (lineID : TraceLineID) : Prop :=
  ∀ test ∈ tests, test.weight = 0 → ¬test.Covers lineID

/--
Two tests that cover a line together agree on the other lines of the first one: the
second test has no negative counter for them.  (Lines that are covered by a test
without weight do not matter.)
-/
def CountersConsistent (tests : List TestCoverageDesc) : Prop :=
  ∀ a b lineID lineID', a ∈ tests → b ∈ tests →
    NeededLine tests lineID → NeededLine tests lineID' →
    a.Covers lineID → a.Covers lineID' → b.Covers lineID →
    0 ≤ (b.counterOf lineID').getD 0

section ByIndex

variable {tests : List TestCoverageDesc}

variable {i : Nat} {test : TestCoverageDesc}

section

variable (hinv : ∀ test ∈ tests, test.trace.GroupInvariant)
include hinv

theorem ofTests_counterOf
    (hi : tests[i]? = some test) (lineID : TraceLineID) :
    ((TestSet.ofTests tests).trace i).counterOf lineID = test.counterOf lineID := by
  obtain ⟨t', hgroup, -, -, hcounter⟩ := loadTest_getElem hinv hi
  rw [hcounter, TestCoverageDesc.counterOf, hgroup]
  rfl

theorem ofTests_covers
    (hi : tests[i]? = some test) (lineID : TraceLineID) :
    (TestSet.ofTests tests).Covers i lineID ↔ test.Covers lineID := by
  rw [TestSet.Covers, Trace.Covers, ofTests_counterOf hinv hi]
  rfl

theorem ofTests_needed
    {lineID : TraceLineID} (h : (TestSet.ofTests tests).Needed lineID) :
    NeededLine tests lineID := by
  intro test htest hweight hcover
  obtain ⟨i, hi, rfl⟩ := List.getElem_of_mem htest
  have hget := List.getElem?_eq_getElem hi
  exact h i hi (by simpa [TestSet.ofTests, hget] using hweight)
    ((ofTests_covers hinv hget lineID).mpr hcover)

end

end ByIndex

/-- The result when the lines are grouped as they should be. -/
theorem optimize_of_grouping
    (sorting : TraceSort) {tests : List TestCoverageDesc} {s : State}
    (hinv : ∀ test ∈ tests, test.trace.GroupInvariant) (hs : groupTests tests = some s)
    (hgrouping : Grouping (TestSet.ofTests tests) s)
    (hend : s.testTraces.length ≤ s.current) :
    ∃ indices : List Nat, indices.Pairwise (· < ·) ∧
      optimize sorting tests = some (indices.filterMap fun i => tests[i]?) ∧
      (indices.filterMap fun i => tests[i]?).Sublist tests ∧
      (∀ i test, tests[i]? = some test → test.weight = 0 → i ∈ indices) ∧
      ∀ lineID, (∃ test, test ∈ indices.filterMap (fun i => tests[i]?) ∧ test.Covers lineID) ↔
        ∃ test ∈ tests, test.Covers lineID := by
  obtain ⟨found, hrun, hfound⟩ := optimalTests_spec sorting hs hgrouping.tracked
  have hperm := List.perm_insertionSort (· ≤ ·) (s.includedTests ++ found)
  have hrange : ∀ i ∈ s.includedTests ++ found, i < tests.length := by
    intro i hi
    rcases List.mem_append.mp hi with hi | hi
    · exact hgrouping.tracked.inRange i (List.mem_append_left _ hi)
    · obtain ⟨t, ht, rfl⟩ := hfound.mem i hi
      exact hgrouping.tracked.test_lt ht
  have hnodup : (s.includedTests ++ found).Nodup := by
    obtain ⟨hincluded, -, hdisjoint⟩ := List.nodup_append.mp hgrouping.tracked.nodup
    refine List.nodup_append.mpr ⟨hincluded, hfound.nodup, ?_⟩
    intro a ha b hb
    obtain ⟨t, ht, rfl⟩ := hfound.mem b hb
    exact hdisjoint a ha t.test (List.mem_map_of_mem ht)
  have hsorted : ((s.includedTests ++ found).insertionSort (· ≤ ·)).Pairwise (· < ·) := by
    have hle := List.pairwise_insertionSort (· ≤ ·) (s.includedTests ++ found)
    exact (hle.and (hperm.nodup_iff.mpr hnodup)).imp fun h => lt_of_le_of_ne h.1 h.2
  have hrange' : ∀ i, i ∈ (s.includedTests ++ found).insertionSort (· ≤ ·) → i < tests.length :=
    fun i hi => hrange i (hperm.subset hi)
  refine ⟨_, hsorted, ?_, filterMap_getElem_sublist hsorted hrange', ?_, ?_⟩
  · rw [optimize, hrun]
    refine mapM_eq_some_filterMap fun i hi => ?_
    rw [List.getElem?_eq_getElem (hrange' i hi)]
    rfl
  · intro i test hget hweight
    have hi : i < tests.length := (List.getElem?_eq_some_iff.mp hget).1
    refine hperm.symm.subset (List.mem_append_left _ (hgrouping.zeros i hi ?_))
    simpa [TestSet.ofTests, hget] using hweight
  · intro lineID
    constructor
    · rintro ⟨test, htest, hcover⟩
      obtain ⟨i, -, hget⟩ := List.mem_filterMap.mp htest
      exact ⟨test, List.mem_of_getElem? hget, hcover⟩
    · rintro ⟨test, htest, hcover⟩
      obtain ⟨i, hi, rfl⟩ := List.getElem_of_mem htest
      have hget := List.getElem?_eq_getElem hi
      obtain ⟨j, hj, hcoverj⟩ := hgrouping.covers_found hend hfound hi
        ((ofTests_covers hinv hget lineID).mpr hcover)
      have hgetj := List.getElem?_eq_getElem (hrange j hj)
      exact ⟨_, List.mem_filterMap.mpr ⟨j, hperm.symm.subset hj, hgetj⟩,
        (ofTests_covers hinv hgetj lineID).mp hcoverj⟩

variable {tests : List TestCoverageDesc}

theorem countersConsistent_of_inRange
    (h : ∀ test ∈ tests, test.trace.GroupInvariant ∧ test.trace.CountersInRange) :
    CountersConsistent tests := by
  intro a b lineID lineID' _ hb _ _ _ _ _
  obtain ⟨hinv, hrange⟩ := h b hb
  obtain ⟨t', hgroup, -⟩ := groupFiles_spec hinv
  have hcounter : b.counterOf lineID' =
      FilesGrouper.sumCounters (b.trace.lineCounters lineID'.groupID.testName lineID'.groupID.filename
        lineID'.line) := by
    rw [TestCoverageDesc.counterOf, hgroup]
    exact groupFiles_lineOf hinv hgroup _ _ _
  rw [hcounter, FilesGrouper.sumCounters]
  split_ifs
  · exact le_refl 0
  · refine List.sum_nonneg fun c hc => ?_
    obtain ⟨⟨g, gi⟩, he, hc⟩ := List.mem_filterMap.mp hc
    split_ifs at hc
    refine hrange.lines g lineID'.groupID.filename lineID'.line c ?_
    rw [Trace.lineOf, Trace.fileOf, (OrderedMap.find_eq_some_iff _ _ _).mpr he]
    exact hc

theorem readTests_spec
    (h : ∀ test ∈ tests, ∃ is, Readable is ∧ Trace.empty.read 0 is = .ok test.trace) :
    (∀ test ∈ tests, test.trace.GroupInvariant) ∧ CountersConsistent tests := by
  have hinv : ∀ test ∈ tests, test.trace.GroupInvariant := by
    intro test htest
    obtain ⟨is, -, hread⟩ := h test htest
    exact Trace.readWith_groupInvariant (Trace.groupInvariant_of_entries (by decide)) hread
  refine ⟨hinv, countersConsistent_of_inRange fun test htest => ⟨hinv test htest, ?_⟩⟩
  obtain ⟨is, his, hread⟩ := h test htest
  exact (Trace.read_writable his hread).countersInRange

def twoLinesText (counter : String) : Str :=
  ("TN:\nSF:/a.c\nDA:1,1\nDA:2," ++ counter ++ "\nend_of_record\n").toList

def twoLinesTrace (counter : Int) : Trace :=
  ⟨OrderedMap.empty.set ⟨[], "/a.c".toList⟩ ⟨OrderedMap.empty.set "/a.c".toList
    { FileInfo.empty with lines := (OrderedMap.empty.set 1 1).set 2 counter }⟩⟩

end Coverage
end KedrAux
