import KedrAux.Coverage.OptimizedCoverage

/-!
# States of the grouping loop

What holds whenever a round of the grouping loop begins.  The flags of all traces have the same
length, the traces before the current one are empty, and the loop ends, for any tests.  Each line is
accounted for as long as no group takes in a line with a negative counter in another trace of the
group.
-/

namespace KedrAux
namespace Coverage
namespace TestSetOptimizer

open RemovalOrder (lastFirst_perm)

/-- The states in which the rounds begin, where all rounds before meet the condition. -/
inductive GroupingRun (tests : List TestCoverageDesc) (Condition : State → Prop) : State → Prop
  | start
      {s : State}
      (hfilter : filterTests tests = some s) :
      GroupingRun tests Condition { s with current := 0 }
  | round
      {s s' : State}
      (hrun : GroupingRun tests Condition s)
      (hcondition : Condition s)
      (hbody : groupingBody s = some (.next s')) :
      GroupingRun tests Condition s'

/--
The line picked in the round makes no group with a line that has a negative counter in a later
trace which covers the picked one.
-/
def NoNegativeCounter (s : State) : Prop :=
  ∀ traceInfo lineID lineID',
    s.testTraces[s.current]? = some traceInfo →
    traceGetLineCovered traceInfo.trace = some (some lineID) →
    traceInfo.trace.Covers lineID' →
    (∀ t ∈ s.testTraces.drop (s.current + 1), Admits lineID lineID' t) →
    ∀ t ∈ s.testTraces.drop (s.current + 1), t.trace.Covers lineID →
      0 ≤ (t.trace.counterOf lineID').getD 0

def SameLengths (s : State) : Prop :=
  ∃ m, ∀ t ∈ s.testTraces, t.groups.length = m

/-- No positive line is left in the traces before the current one. -/
def PassedEmpty (s : State) : Prop :=
  ∀ t ∈ s.testTraces.take s.current, ∀ lineID, ¬t.trace.Covers lineID

/--
Every line that a loaded test covers is covered by an included test, or still positive in just
the traces that covered it, or in a group whose flags tell what traces covered it.
-/
def LinesAccounted (tests : List TestCoverageDesc) (s : State) : Prop :=
  ∀ i lineID, i < tests.length → (TestSet.ofTests tests).Covers i lineID →
    Included (TestSet.ofTests tests) s.includedTests lineID ∨
      Untouched (TestSet.ofTests tests) s.testTraces lineID ∨
      ∃ g, InGroup (TestSet.ofTests tests) s.testTraces lineID g

structure ProperState (tests : List TestCoverageDesc) (s : State) : Prop where
  lengths : SameLengths s
  passed : PassedEmpty s
  lines : LinesAccounted tests s

/-- What holds in every round, for any counters. -/
structure Shaped (s : State) : Prop where
  grouped : ∀ t ∈ s.testTraces, t.trace.Grouped
  lengths : SameLengths s
  passed : PassedEmpty s
  current_le : s.current ≤ s.testTraces.length

section Shaped

variable {s s' : State} {previous further : List TestTraceInfo} {traceInfo : TestTraceInfo}

theorem grouped_regroup
    {t : TestTraceInfo} (h : t.trace.Grouped) (lineID : TraceLineID) (groupTrace : Trace) :
    (regroup lineID groupTrace t).trace.Grouped := by
  rw [regroup_eq]
  split_ifs
  · exact grouped_clearLinesMasked h groupTrace
  · exact h

theorem mem_forced {lineID : TraceLineID} {groupTrace : Trace} {t' : TestTraceInfo}
    (h : t' ∈ (withoutIncluded (previous.map (regroup lineID groupTrace))
      (regroup lineID groupTrace traceInfo) (further.map (regroup lineID groupTrace))).map popGroup) :
    ∃ t ∈ previous ++ further, t' = popGroup
      (clearMasked (regroup lineID groupTrace traceInfo).trace (regroup lineID groupTrace t)) := by
  obtain ⟨t1, ht1, rfl⟩ := List.mem_map.mp h
  obtain ⟨t2, ht2, rfl⟩ := List.mem_map.mp ((withoutIncluded_perm _ _ _).subset ht1)
  rw [← List.map_append] at ht2
  obtain ⟨t, ht, rfl⟩ := List.mem_map.mp ht2
  exact ⟨t, ht, rfl⟩

theorem GroupingStep.shaped (h : Shaped s) (hat : AtCurrent s previous traceInfo further)
    (hstep : GroupingStep s previous traceInfo further s') :
    Shaped s' := by
  have hsub : previous ++ further ⊆ s.testTraces := by
    intro t ht
    exact hat.perm.symm.subset (List.mem_cons_of_mem _ ht)
  have hpassed := h.passed
  rw [PassedEmpty, hat.take] at hpassed
  obtain ⟨m, hm⟩ := h.lengths
  cases hstep with
  | discard hlines hgroups =>
    have hperm := (lastFirst_perm further).append_left previous
    refine ⟨fun t ht => h.grouped t (hsub (hperm.subset ht)),
      ⟨m, fun t ht => hm t (hsub (hperm.subset ht))⟩, ?_, by simp [hat.current]⟩
    rw [PassedEmpty, hat.current, List.take_left' rfl]
    exact hpassed
  | pass hlines hgroups =>
    refine ⟨h.grouped, h.lengths, ?_, by simp [hat.traces, hat.current]⟩
    intro t ht
    rw [hat.take_succ, List.mem_append, List.mem_singleton] at ht
    rcases ht with ht | rfl
    · exact hpassed t ht
    · exact hlines
  | @group lineID groupTrace hpicked hline hgroup hshared =>
    refine ⟨?_, ⟨m + 1, ?_⟩, ?_, by simpa using h.current_le⟩
    · intro t' ht'
      obtain ⟨t, ht, rfl⟩ := List.mem_map.mp ht'
      exact grouped_regroup (h.grouped t ht) lineID groupTrace
    · intro t' ht'
      obtain ⟨t, ht, rfl⟩ := List.mem_map.mp ht'
      rw [regroup_groups, List.length_append, hm t ht]
      rfl
    · intro t' ht' lineID' hcover
      rw [← List.map_take, hat.take] at ht'
      obtain ⟨t, ht, rfl⟩ := List.mem_map.mp ht'
      exact hpassed t ht lineID' ((regroup_covers _ _ _ _).mp hcover).1
  | @force lineID groupTrace hline hgroup honly =>
    refine ⟨?_, ⟨m, ?_⟩, ?_, by simp [withoutIncluded, hat.current]⟩
    · intro t' ht'
      obtain ⟨t, ht, rfl⟩ := mem_forced ht'
      exact grouped_clearLinesMasked
        (grouped_regroup (h.grouped t (hsub ht)) lineID groupTrace) _
    · intro t' ht'
      obtain ⟨t, ht, rfl⟩ := mem_forced ht'
      simp [popGroup, clearMasked, regroup_groups, hm t (hsub ht)]
    · intro t' ht' lineID' hcover
      rw [withoutIncluded, List.map_append, hat.current, List.take_left' (by simp)] at ht'
      simp only [List.map_map, List.mem_map] at ht'
      obtain ⟨t, ht, rfl⟩ := ht'
      have hregroup := ((covers_clearLinesMasked _ _ _).mp hcover).1
      exact hpassed t ht lineID' ((regroup_covers _ _ _ _).mp hregroup).1

theorem Shaped.step (h : Shaped s) (hbody : groupingBody s = some (.next s')) :
    ∃ previous traceInfo further, AtCurrent s previous traceInfo further ∧
      GroupingStep s previous traceInfo further s' := by
  rcases groupingBody_spec h.grouped (fun t lineID ht => h.passed t ht lineID) with
    ⟨previous, traceInfo, further, s'', hat, hnext, hstep⟩ | ⟨hdone, -⟩
  · rw [hnext] at hbody
    cases hbody
    exact ⟨previous, traceInfo, further, hat, hstep⟩
  · rw [hdone] at hbody
    cases hbody

theorem Grouping.shaped {T : TestSet} (h : Grouping T s) :
    Shaped s where
  grouped t ht := (h.tracked.derived t ht).grouped
  lengths := h.tracked.lengths
  passed t ht := (h.passed t ht).1
  current_le := h.current_le

end Shaped

section Runs

variable {tests : List TestCoverageDesc} {s : State}

theorem GroupingRun.shaped
    (hinv : ∀ test ∈ tests, test.trace.GroupInvariant) {Condition : State → Prop}
    (h : GroupingRun tests Condition s) :
    Shaped s := by
  induction h with
  | start hfilter =>
    obtain ⟨s', hfilter', hs', hend⟩ := filterTests_spec hinv
    rw [hfilter] at hfilter'
    cases hfilter'
    exact (hs'.grouping hend).shaped
  | round _ _ hbody ih =>
    obtain ⟨previous, traceInfo, further, hat, hstep⟩ := ih.step hbody
    exact hstep.shaped ih hat

/-- The loop ends, in a state of its run. -/
theorem groupTests_run (hinv : ∀ test ∈ tests, test.trace.GroupInvariant) :
    ∃ s, groupTests tests = some s ∧ GroupingRun tests (fun _ => True) s ∧
      s.testTraces.length ≤ s.current := by
  obtain ⟨s, hfilter, -, -⟩ := filterTests_spec hinv
  have hfuel : roundsLeft { s with current := 0 } < groupingRounds s.testTraces + 1 := by
    have hle : liveCount s.testTraces ≤
        (s.testTraces.map fun t => (linesOf t.trace).length).sum :=
      List.sum_le_sum fun t _ => card_coveredLines_le t.trace
    unfold roundsLeft groupingRounds
    simp only
    omega
  obtain ⟨s', hrun, hs', hend⟩ := Loop.run_eq_some (GroupingRun tests fun _ => True)
    (fun s => GroupingRun tests (fun _ => True) s ∧ s.testTraces.length ≤ s.current) roundsLeft
    (fun s hs => by
      have hshaped := hs.shaped hinv
      rcases groupingBody_spec hshaped.grouped (fun t lineID ht => hshaped.passed t ht lineID) with
        ⟨previous, traceInfo, further, s', hat, hbody, hstep⟩ | ⟨hbody, hend⟩
      · exact Or.inl ⟨s', hbody, .round hs trivial hbody, hstep.roundsLeft_lt hat⟩
      · exact Or.inr ⟨s, hbody, hs, hend⟩)
    (.start hfilter) hfuel
  refine ⟨s', ?_, hs', hend⟩
  simp only [groupTests, hfilter, Option.bind_eq_bind, Option.bind_some]
  exact hrun

theorem NoNegativeCounter.exact
    {T : TestSet} {previous further : List TestTraceInfo} {traceInfo : TestTraceInfo}
    (hcondition : NoNegativeCounter s) (h : Grouping T s)
    (hat : AtCurrent s previous traceInfo further)
    {lineID : TraceLineID} {groupTrace : Trace}
    (hpicked : traceGetLineCovered traceInfo.trace = some (some lineID))
    (hline : traceInfo.trace.Covers lineID)
    (hgroup : IsGroup traceInfo further lineID groupTrace) :
    ExactGroup s.testTraces lineID groupTrace := by
  intro lineID' t hcover ht
  obtain ⟨hline', hadmits⟩ := (hgroup lineID').mp hcover
  have hget : s.testTraces[s.current]? = some traceInfo := by
    rw [hat.traces, hat.current]
    simp
  have hdrop : s.testTraces.drop (s.current + 1) = further := by
    rw [hat.traces, hat.current]
    simp
  have hcases : t ∈ previous ∨ t = traceInfo ∨ t ∈ further := by
    simpa [hat.traces] using ht
  rcases hcases with hprevious | rfl | hfurther
  · have hdead := (h.passed t (hat.take ▸ hprevious)).1
    simp [hdead]
  · simp [hline, hline']
  · have hadmit := hadmits t hfurther
    unfold Admits at hadmit
    split_ifs at hadmit with htline
    · have hnonneg := hcondition traceInfo lineID lineID' hget hpicked hline'
        (by rwa [hdrop]) t (by rwa [hdrop]) htline
      refine iff_of_true htline ?_
      cases hc : t.trace.counterOf lineID' with
      | none => simp [hc] at hadmit
      | some c =>
        rw [hc, Option.getD_some] at hadmit hnonneg
        exact (hit_iff _).mpr ⟨c, hc, by omega⟩
    · exact iff_of_false htline hadmit

theorem GroupingRun.grouping (hinv : ∀ test ∈ tests, test.trace.GroupInvariant)
    (h : GroupingRun tests NoNegativeCounter s) :
    Grouping (TestSet.ofTests tests) s := by
  induction h with
  | start hfilter =>
    obtain ⟨s', hfilter', hs', hend⟩ := filterTests_spec hinv
    rw [hfilter] at hfilter'
    cases hfilter'
    exact hs'.grouping hend
  | round _ hcondition hbody ih =>
    obtain ⟨previous, traceInfo, further, hat, hstep⟩ := ih.shaped.step hbody
    refine hstep.grouping_of_exact ih hat ?_
    intro lineID groupTrace hpicked hline hgroup
    exact hcondition.exact ih hat hpicked hline hgroup

/--
The lengths, the traces that are passed and the end of the loop do not depend on the counters.  In
a run whose rounds meet no negative counter, the whole invariant holds in every round.
-/
theorem grouping_states
    (tests : List TestCoverageDesc)
    (hinv : ∀ test ∈ tests, test.trace.GroupInvariant) :
    (∀ s, GroupingRun tests (fun _ => True) s → SameLengths s ∧ PassedEmpty s) ∧
      (∃ s, groupTests tests = some s) ∧
      ∀ s, GroupingRun tests NoNegativeCounter s → ProperState tests s := by
  obtain ⟨s, hend, -⟩ := groupTests_run hinv
  refine ⟨fun s hs => ?_, ⟨s, hend⟩, fun s hs => ?_⟩
  · have hshaped := hs.shaped hinv
    exact ⟨hshaped.lengths, hshaped.passed⟩
  · have hgrouping := hs.grouping hinv
    exact ⟨hgrouping.shaped.lengths, hgrouping.shaped.passed, hgrouping.tracked.lines⟩

/-- Two tests with two lines each, one of which the second test does not hit. -/
theorem grouping_states_twoLines :
    (∀ s, GroupingRun [⟨twoLinesTrace 1, 2⟩, ⟨twoLinesTrace 0, 1⟩] (fun _ => True) s →
        SameLengths s ∧ PassedEmpty s) ∧
      (∃ s, groupTests [⟨twoLinesTrace 1, 2⟩, ⟨twoLinesTrace 0, 1⟩] = some s) ∧
      ∀ s, GroupingRun [⟨twoLinesTrace 1, 2⟩, ⟨twoLinesTrace 0, 1⟩] NoNegativeCounter s →
        ProperState [⟨twoLinesTrace 1, 2⟩, ⟨twoLinesTrace 0, 1⟩] s :=
  grouping_states [⟨twoLinesTrace 1, 2⟩, ⟨twoLinesTrace 0, 1⟩] (by
    intro test htest
    rcases List.mem_cons.mp htest with rfl | htest
    · exact Trace.groupInvariant_of_entries (by decide +kernel)
    · rw [List.mem_singleton.mp htest]
      exact Trace.groupInvariant_of_entries (by decide +kernel))

def firstRound (tests : List TestCoverageDesc) : Option State :=
  (filterTests tests).bind fun s =>
    (groupingBody { s with current := 0 }).bind fun round =>
      match round with
      | .next s' => some s'
      | .done _ => none

theorem groupingRun_firstRound (h : firstRound tests = some s) :
    GroupingRun tests (fun _ => True) s := by
  obtain ⟨s0, hfilter, hround⟩ := Option.bind_eq_some_iff.mp h
  obtain ⟨round, hbody, hnext⟩ := Option.bind_eq_some_iff.mp hround
  cases round with
  | done _ => cases hnext
  | next s' =>
    cases hnext
    exact .round (.start hfilter) trivial hbody

/-- The second line goes to the group of the first one, though the second test does not cover it. -/
theorem not_properState_of_negative_counter :
    ¬∀ (tests : List TestCoverageDesc) (s : State),
      (∀ test ∈ tests,
        (∃ is, Trace.empty.read 0 is = .ok test.trace) ∧ test.trace.GroupInvariant) →
      GroupingRun tests (fun _ => True) s → ProperState tests s := by
  intro hproper
  let tests : List TestCoverageDesc := [⟨twoLinesTrace 1, 2⟩, ⟨twoLinesTrace (-1), 1⟩]
  let line : TraceLineID := ⟨⟨[], "/a.c".toList⟩, 2⟩
  have hround : (firstRound tests).map (fun s =>
      (s.includedTests, s.testTraces.map fun t =>
        (t.test, t.groups, decide (t.trace.Covers line)))) =
      some ([], [(0, [true], false), (1, [true], false)]) := by
    decide +kernel
  obtain ⟨s, hs, hview⟩ := Option.map_eq_some_iff.mp hround
  rw [Prod.ext_iff] at hview
  obtain ⟨hincluded, htraces⟩ := hview
  have hstate := hproper tests s (by
    intro test htest
    rcases List.mem_cons.mp htest with rfl | htest
    · exact ⟨⟨twoLinesText "1", by decide +kernel⟩,
        Trace.groupInvariant_of_entries (by decide +kernel)⟩
    · rw [List.mem_singleton.mp htest]
      exact ⟨⟨twoLinesText "18446744073709551615", by decide +kernel⟩,
        Trace.groupInvariant_of_entries (by decide +kernel)⟩) (groupingRun_firstRound hs)
  simp only at hincluded htraces
  have hmem : ∀ i, i < 2 → ∃ t ∈ s.testTraces, t.test = i ∧ t.groups = [true] ∧
      ¬t.trace.Covers line := by
    intro i hi
    have hview : (i, [true], false) ∈ s.testTraces.map fun t =>
        (t.test, t.groups, decide (t.trace.Covers line)) := by
      rw [htraces]
      interval_cases i <;> simp
    obtain ⟨t, ht, heq⟩ := List.mem_map.mp hview
    simp only [Prod.mk.injEq, decide_eq_false_iff_not] at heq
    exact ⟨t, ht, heq⟩
  have hfirst : (TestSet.ofTests tests).Covers 0 line := by
    change ((TestSet.ofTests tests).trace 0).Covers line
    decide +kernel
  have hsecond : ¬(TestSet.ofTests tests).Covers 1 line := by
    change ¬((TestSet.ofTests tests).trace 1).Covers line
    decide +kernel
  obtain ⟨t0, ht0, htest0, -, hcleared⟩ := hmem 0 (by decide)
  obtain ⟨t1, ht1, htest1, hgroups, -⟩ := hmem 1 (by decide)
  rcases hstate.lines 0 line (by decide) hfirst with ⟨j, hj, -⟩ | huntouched | ⟨g, hgroup⟩
  · rw [hincluded] at hj
    cases hj
  · exact hcleared ((huntouched t0 ht0).mpr (htest0 ▸ hfirst))
  · -- the flag of the second test is set in the only group
    obtain ⟨hg, -, hflag⟩ := hgroup t1 ht1
    rw [hgroups, htest1] at hflag
    rw [hgroups, List.length_singleton, Nat.lt_one_iff] at hg
    subst hg
    exact hsecond (hflag.mp rfl)

end Runs

end TestSetOptimizer
end Coverage
end KedrAux
