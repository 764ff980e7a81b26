import KedrAux.Coverage.GroupingStates

/-!
# Tests with lines of their own

A test that is the only one to cover a line has to be in the result.  The grouping loop includes
these tests, and no other ones that have a weight; the groups consist of lines that several tests
cover.
-/

namespace KedrAux
namespace Coverage
namespace TestSetOptimizer

open RemovalOrder (lastFirst lastFirst_perm)

section Lines

variable (T : TestSet)

instance (i : Nat) (lineID : TraceLineID) : Decidable (T.Covers i lineID) :=
  inferInstanceAs (Decidable ((T.trace i).Covers lineID))

instance (lineID : TraceLineID) : Decidable (T.Needed lineID) :=
  inferInstanceAs (Decidable (∀ z, z < T.size → T.weight z = 0 → ¬T.Covers z lineID))

def TestSet.OwnLine (i : Nat) (lineID : TraceLineID) : Prop :=
  T.Needed lineID ∧ T.Covers i lineID ∧ ∀ j, j < T.size → T.Covers j lineID → j = i

instance (i : Nat) (lineID : TraceLineID) : Decidable (T.OwnLine i lineID) :=
  inferInstanceAs (Decidable (_ ∧ _ ∧ ∀ j, j < T.size → T.Covers j lineID → j = i))

/-- The test covers a line that no other test covers. -/
def TestSet.HasOwn (i : Nat) : Prop :=
  ∃ lineID, T.OwnLine i lineID

instance (i : Nat) : Decidable (T.HasOwn i) :=
  decidable_of_iff (∃ lineID ∈ coveredLines (T.trace i), T.OwnLine i lineID)
    ⟨fun ⟨lineID, _, h⟩ => ⟨lineID, h⟩, fun ⟨lineID, h⟩ => ⟨lineID, mem_coveredLines.mpr h.2.1, h⟩⟩

def TestSet.coverers (lineID : TraceLineID) : Finset Nat :=
  (Finset.range T.size).filter fun i => T.Covers i lineID

variable {T}

variable {i : Nat}

@[simp] theorem TestSet.mem_coverers {lineID : TraceLineID} :
    i ∈ T.coverers lineID ↔ i < T.size ∧ T.Covers i lineID := by
  simp [TestSet.coverers]

end Lines

/--
What the grouping loop does for tests with lines of their own, and what the groups
are: `reps` has a line for every group.
-/
structure Essential (T : TestSet) (included : List Nat) (traces : List TestTraceInfo)
    (reps : List TraceLineID) : Prop where
  included_own : ∀ i ∈ included, T.weight i = 0 ∨ T.HasOwn i
  own : ∀ i lineID, i < T.size → T.OwnLine i lineID →
    i ∈ included ∨ ∃ t ∈ traces, t.test = i ∧ t.trace.Covers lineID
  length : ∀ t ∈ traces, t.groups.length = reps.length
  rep : ∀ k lineID, reps[k]? = some lineID → InGroup T traces lineID k
  needed : ∀ lineID ∈ reps, T.Needed lineID
  shared : ∀ lineID ∈ reps, ∃ i j, i ∈ T.coverers lineID ∧ j ∈ T.coverers lineID ∧ i ≠ j
  /-- The lines of the class of a group are cleared with it. -/
  class_cleared : ∀ lineID lineID' t, lineID ∈ reps → T.coverers lineID = T.coverers lineID' →
    t ∈ traces → ¬t.trace.Covers lineID'
  distinct : (reps.map T.coverers).Nodup

section Steps

variable {T : TestSet} {included : List Nat} {traces : List TestTraceInfo}
variable {reps : List TraceLineID}

theorem Essential.mono {traces' : List TestTraceInfo} (h : Essential T included traces reps)
    (hfrom : ∀ t' ∈ traces', ∃ t ∈ traces, t'.test = t.test ∧ t'.groups = t.groups ∧
      ∀ lineID, t'.trace.Covers lineID → t.trace.Covers lineID)
    {included' : List Nat}
    (hincluded : ∀ i ∈ included', T.weight i = 0 ∨ T.HasOwn i)
    (hown : ∀ i lineID, i < T.size → T.OwnLine i lineID →
      i ∈ included' ∨ ∃ t ∈ traces', t.test = i ∧ t.trace.Covers lineID) :
    Essential T included' traces' reps := by
  refine ⟨hincluded, hown, ?_, ?_, h.needed, h.shared, ?_, h.distinct⟩
  · intro t' ht'
    obtain ⟨t, ht, -, hgroups, -⟩ := hfrom t' ht'
    rw [hgroups]
    exact h.length t ht
  · intro k lineID hk t' ht'
    obtain ⟨t, ht, htest, hgroups, hcovers⟩ := hfrom t' ht'
    obtain ⟨hlt, hcleared, hflag⟩ := h.rep k lineID hk t ht
    rw [hgroups, htest]
    exact ⟨hlt, fun hc => hcleared (hcovers lineID hc), hflag⟩
  · intro lineID lineID' t' hmem hclass ht' hc
    obtain ⟨t, ht, -, -, hcovers⟩ := hfrom t' ht'
    exact h.class_cleared lineID lineID' t hmem hclass ht (hcovers lineID' hc)

variable {t : TestTraceInfo}

/-- The flags tell what groups the test covers. -/
theorem Essential.groups_eq (h : Essential T included traces reps)
    (ht : t ∈ traces) :
    t.groups = reps.map fun lineID => decide (T.Covers t.test lineID) := by
  apply List.ext_getElem?
  intro k
  rw [List.getElem?_map]
  cases hk : reps[k]? with
  | none =>
    rw [List.getElem?_eq_none_iff] at hk
    rw [List.getElem?_eq_none (by rw [h.length t ht]; exact hk)]
    rfl
  | some lineID =>
    obtain ⟨hlt, -, hflag⟩ := h.rep k lineID hk t ht
    rw [List.getElem?_eq_getElem hlt, Option.some_inj] at hflag
    rw [List.getElem?_eq_getElem hlt, Option.map_some, Option.some_inj, Bool.eq_iff_iff, hflag,
      decide_eq_true_iff]

theorem Essential.groupsCovered_ne_zero_iff (h : Essential T included traces reps) (ht : t ∈ traces) :
    t.groupsCovered ≠ 0 ↔ ∃ rep ∈ reps, T.Covers t.test rep := by
  rw [TestTraceInfo.groupsCovered, h.groups_eq ht, Ne, List.count_eq_zero, not_not, List.mem_map]
  exact exists_congr fun rep => and_congr_right fun _ => decide_eq_true_iff

variable {s : State} {previous further : List TestTraceInfo} {traceInfo : TestTraceInfo}

theorem AtCurrent.test_ne (hat : AtCurrent s previous traceInfo further)
    (h : Tracked T included s.testTraces) (ht : t ∈ previous ++ further) :
    t.test ≠ traceInfo.test := by
  have hnodup := (hat.perm.map TestTraceInfo.test).nodup_iff.mp (List.nodup_append.mp h.nodup).2.1
  rw [List.map_cons, List.nodup_cons] at hnodup
  intro heq
  exact hnodup.1 (heq ▸ List.mem_map_of_mem ht)

variable {lineID : TraceLineID}

theorem Tracked.mem_coverers_iff (h : Tracked T included traces)
    (ht : t ∈ traces) (hcover : t.trace.Covers lineID) (i : Nat) :
    i ∈ T.coverers lineID ↔ ∃ t' ∈ traces, t'.test = i ∧ t'.trace.Covers lineID := by
  have huntouched := h.untouched ht hcover
  rw [TestSet.mem_coverers]
  constructor
  · rintro ⟨hi, hcoveri⟩
    rcases h.accounted i hi with hincluded | ⟨t', ht', rfl⟩ | hall
    · exact absurd hcover (h.cleared lineID t ⟨i, hincluded, hcoveri⟩ ht)
    · exact ⟨t', ht', rfl, (huntouched t' ht').mpr hcoveri⟩
    · exact absurd hcover (h.cleared lineID t (hall lineID hcoveri) ht)
  · rintro ⟨t', ht', rfl, hcover'⟩
    exact ⟨h.test_lt ht', (huntouched t' ht').mp hcover'⟩

theorem Essential.group (hgrouping : Grouping T s)
    (h : Essential T s.includedTests s.testTraces reps)
    (hat : AtCurrent s previous traceInfo further) {groupTrace : Trace}
    (hline : traceInfo.trace.Covers lineID) (hgroup : IsGroup traceInfo further lineID groupTrace)
    (hshared : ∃ t ∈ further, t.trace.Covers lineID)
    (hexact : ExactGroup s.testTraces lineID groupTrace) :
    Essential T s.includedTests (s.testTraces.map (regroup lineID groupTrace))
      (reps ++ [lineID]) := by
  have hself : traceInfo ∈ s.testTraces := by simp [hat.traces]
  have htracked := hgrouping.tracked
  have hiff := hgroup.covers_iff hat hexact
  obtain ⟨t2, ht2, hline2⟩ := hshared
  have ht2' : t2 ∈ s.testTraces := by simp [hat.traces, ht2]
  have hne : t2.test ≠ traceInfo.test := hat.test_ne htracked (List.mem_append_right _ ht2)
  have hcoverers := htracked.mem_coverers_iff hself hline
  constructor
  · exact h.included_own
  · intro i lineID' hi hown
    rcases h.own i lineID' hi hown with hincluded | ⟨t, ht, htest, hcover⟩
    · exact Or.inl hincluded
    · right
      refine ⟨_, List.mem_map_of_mem ht, by rw [regroup_test]; exact htest, ?_⟩
      rw [regroup_covers]
      refine ⟨hcover, fun hnew => ?_⟩
      -- two tests would cover the line
      obtain ⟨hcover', hall⟩ := (hiff lineID').mp hnew.2
      have h1 := hown.2.2 _ (htracked.test_lt hself) ((htracked.derived _ hself).covers hcover')
      have h2 := hown.2.2 _ (htracked.test_lt ht2')
        ((htracked.derived _ ht2').covers ((hall t2 ht2').mp hline2))
      exact hne (h2.trans h1.symm)
  · intro t' ht'
    obtain ⟨t, ht, rfl⟩ := List.mem_map.mp ht'
    rw [regroup_groups, List.length_append, List.length_append, h.length t ht]
    rfl
  · intro k lineID' hk
    by_cases hlt : k < reps.length
    · rw [List.getElem?_append_left hlt] at hk
      exact (h.rep k lineID' hk).regrouped lineID groupTrace
    · rw [List.getElem?_append_right (by omega), List.getElem?_singleton] at hk
      split_ifs at hk with hzero
      cases hk
      have hkm : k = reps.length := by omega
      rw [hkm]
      exact (htracked.untouched hself hline).inGroup h.length (hgroup.self hline)
        fun t _ => Iff.rfl
  · intro lineID' hmem
    rcases List.mem_append.mp hmem with hmem | hmem
    · exact h.needed lineID' hmem
    · rw [List.mem_singleton.mp hmem]
      exact hgrouping.needed hself hline
  · intro lineID' hmem
    rcases List.mem_append.mp hmem with hmem | hmem
    · exact h.shared lineID' hmem
    · rw [List.mem_singleton.mp hmem]
      exact ⟨t2.test, traceInfo.test, (hcoverers _).mpr ⟨t2, ht2', rfl, hline2⟩,
        (hcoverers _).mpr ⟨traceInfo, hself, rfl, hline⟩, hne⟩
  · intro lineID1 lineID' t' hmem hclass ht' hc
    obtain ⟨t, ht, rfl⟩ := List.mem_map.mp ht'
    obtain ⟨hc, hnot⟩ := (regroup_covers _ _ _ _).mp hc
    rcases List.mem_append.mp hmem with hmem | hmem
    · exact h.class_cleared lineID1 lineID' t hmem hclass ht hc
    · -- a line of the same class goes to the group
      rw [List.mem_singleton.mp hmem] at hclass
      have hsame : ∀ t ∈ s.testTraces, (t.trace.Covers lineID ↔ t.trace.Covers lineID') := by
        intro t1 ht1
        have huntouched := htracked.untouched hself hline t1 ht1
        have huntouched' := htracked.untouched ht hc t1 ht1
        have hlt := htracked.test_lt ht1
        have hmem1 : t1.test ∈ T.coverers lineID ↔ t1.test ∈ T.coverers lineID' := by rw [hclass]
        rw [TestSet.mem_coverers, TestSet.mem_coverers] at hmem1
        rw [huntouched, huntouched']
        simpa [hlt] using hmem1
      exact hnot ⟨(hsame t ht).mpr hc,
        (hiff lineID').mpr ⟨(hsame traceInfo hself).mp hline, hsame⟩⟩
  · rw [List.map_append, List.nodup_append]
    refine ⟨h.distinct, by simp, ?_⟩
    intro a ha b hb heq
    obtain ⟨lineID1, hmem, rfl⟩ := List.mem_map.mp ha
    rw [List.map_singleton, List.mem_singleton] at hb
    rw [hb] at heq
    exact h.class_cleared lineID1 lineID traceInfo hmem heq hself hline

theorem Grouping.ownLine_of_force (hgrouping : Grouping T s)
    (hat : AtCurrent s previous traceInfo further) (hline : traceInfo.trace.Covers lineID)
    (honly : ∀ t ∈ further, ¬t.trace.Covers lineID) :
    T.OwnLine traceInfo.test lineID := by
  have hself : traceInfo ∈ s.testTraces := by simp [hat.traces]
  refine ⟨hgrouping.needed hself hline,
    (hgrouping.tracked.derived traceInfo hself).covers hline, ?_⟩
  intro j hj hcover
  have hmem := TestSet.mem_coverers.mpr ⟨hj, hcover⟩
  obtain ⟨t, ht, rfl, htline⟩ := (hgrouping.tracked.mem_coverers_iff hself hline j).mp hmem
  have hcases : t ∈ previous ∨ t = traceInfo ∨ t ∈ further := by simpa [hat.traces] using ht
  rcases hcases with hprevious | rfl | hfurther
  · exact absurd htline ((hgrouping.passed t (hat.take ▸ hprevious)).1 lineID)
  · rfl
  · exact absurd htline (honly t hfurther)

theorem Essential.discard (h : Essential T s.includedTests s.testTraces reps)
    (hat : AtCurrent s previous traceInfo further)
    (hlines : ∀ lineID, ¬traceInfo.trace.Covers lineID) :
    Essential T s.includedTests (previous ++ lastFirst further) reps := by
  have hperm := (lastFirst_perm further).append_left previous
  refine h.mono ?_ h.included_own ?_
  · intro t ht
    have hmem := hat.perm.symm.subset (List.mem_cons_of_mem _ (hperm.subset ht))
    exact ⟨t, hmem, rfl, rfl, fun _ hc => hc⟩
  · intro i lineID hi hown
    rcases h.own i lineID hi hown with hincluded | ⟨t, ht, htest, hcover⟩
    · exact Or.inl hincluded
    · rcases List.mem_cons.mp (hat.perm.subset ht) with rfl | ht
      · exact absurd hcover (hlines lineID)
      · exact Or.inr ⟨t, hperm.symm.subset ht, htest, hcover⟩

variable {groupTrace : Trace}

/-- A trace that does not cover the line of the group loses the lines of the included one. -/
theorem forced_covers (ht : ¬t.trace.Covers lineID) (lineID' : TraceLineID) :
    (popGroup (clearMasked (regroup lineID groupTrace traceInfo).trace
        (regroup lineID groupTrace t))).trace.Covers lineID' ↔
      t.trace.Covers lineID' ∧ ¬(regroup lineID groupTrace traceInfo).trace.Covers lineID' := by
  refine (covers_clearLinesMasked _ _ _).trans (and_congr_left' ?_)
  rw [regroup_covers]
  exact and_iff_left fun hc => ht hc.1

theorem Grouping.not_covers_of_force (hgrouping : Grouping T s)
    (hat : AtCurrent s previous traceInfo further)
    (honly : ∀ t ∈ further, ¬t.trace.Covers lineID)
    (ht : t ∈ previous ++ further) :
    ¬t.trace.Covers lineID := by
  rcases List.mem_append.mp ht with hprevious | hfurther
  · exact (hgrouping.passed t (hat.take ▸ hprevious)).1 lineID
  · exact honly t hfurther

theorem Essential.force (hgrouping : Grouping T s)
    (h : Essential T s.includedTests s.testTraces reps)
    (hat : AtCurrent s previous traceInfo further) (hline : traceInfo.trace.Covers lineID)
    (honly : ∀ t ∈ further, ¬t.trace.Covers lineID) :
    Essential T (s.includedTests ++ [traceInfo.test])
      ((withoutIncluded (previous.map (regroup lineID groupTrace))
        (regroup lineID groupTrace traceInfo)
        (further.map (regroup lineID groupTrace))).map popGroup) reps := by
  have htracked := hgrouping.tracked
  have hself : traceInfo ∈ s.testTraces := by simp [hat.traces]
  have hperm := (withoutIncluded_perm (previous.map (regroup lineID groupTrace))
    (further.map (regroup lineID groupTrace)) (regroup lineID groupTrace traceInfo)).map popGroup
  rw [← List.map_append, List.map_map, List.map_map] at hperm
  refine h.mono ?_ ?_ ?_
  · intro t' ht'
    obtain ⟨t, ht, rfl⟩ := mem_forced ht'
    refine ⟨t, hat.perm.symm.subset (List.mem_cons_of_mem _ ht), regroup_test _ _ _, ?_, ?_⟩
    · change (regroup lineID groupTrace t).groups.dropLast = t.groups
      rw [regroup_groups, List.dropLast_concat]
    · intro lineID' hc
      exact ((forced_covers (hgrouping.not_covers_of_force hat honly ht) lineID').mp hc).1
  · intro i hi
    rcases List.mem_append.mp hi with hi | hi
    · exact h.included_own i hi
    · rw [List.mem_singleton.mp hi]
      exact Or.inr ⟨lineID, hgrouping.ownLine_of_force hat hline honly⟩
  · intro i lineID' hi hown
    rcases h.own i lineID' hi hown with hincluded | ⟨t, ht, htest, hcover⟩
    · exact Or.inl (List.mem_append_left _ hincluded)
    · rcases List.mem_cons.mp (hat.perm.subset ht) with rfl | ht'
      · exact Or.inl (by simp [htest])
      · refine Or.inr ⟨_, hperm.symm.subset (List.mem_map_of_mem ht'), ?_, ?_⟩
        · exact (regroup_test _ _ _).trans htest
        · refine (forced_covers (hgrouping.not_covers_of_force hat honly ht') lineID').mpr
            ⟨hcover, fun hc => ?_⟩
          -- the included test does not cover the line
          have hself' := ((regroup_covers _ _ _ _).mp hc).1
          have heq := hown.2.2 _ (htracked.test_lt hself)
            ((htracked.derived _ hself).covers hself')
          exact hat.test_ne htracked ht' (htest.trans heq.symm)

end Steps

theorem Filtering.essential {T : TestSet} {s : State} (h : Filtering T s) :
    Essential T s.includedTests s.testTraces [] := by
  refine ⟨fun i hi => Or.inl (h.zeros i hi), ?_, ?_, ?_, ?_, ?_, ?_, List.nodup_nil⟩
  · intro i lineID hi hown
    rcases h.all i hi with hincluded | ⟨t, ht, htest⟩
    · exact Or.inl hincluded
    · rcases h.tracked.lines i lineID hi hown.2.1 with ⟨j, hj, hcover⟩ | huntouched | ⟨k, hgroup⟩
      · left
        have hlt := h.tracked.inRange j (List.mem_append_left _ hj)
        rwa [← hown.2.2 j hlt hcover]
      · exact Or.inr ⟨t, ht, htest, (huntouched t ht).mpr (htest ▸ hown.2.1)⟩
      · have hlt := (hgroup t ht).1
        rw [h.noGroups t ht] at hlt
        exact absurd hlt (Nat.not_lt_zero k)
  · intro t ht
    rw [h.noGroups t ht]
    rfl
  · intro k lineID hk
    cases hk
  · intro lineID hmem
    cases hmem
  · intro lineID hmem
    cases hmem
  · intro lineID lineID' t hmem
    cases hmem

end TestSetOptimizer
end Coverage
end KedrAux
