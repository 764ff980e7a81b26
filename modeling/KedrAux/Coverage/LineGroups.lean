import KedrAux.Coverage.TestSetOptimizer

/-!
# The grouping of lines keeps track of the coverage

The invariant of the two loops of `TestSetOptimizer::optimize` before the search.
The traces in the array are the traces of the tests as they were loaded, with some
lines cleared.
-/

namespace KedrAux
namespace Coverage
namespace TestSetOptimizer

open RemovalOrder (lastFirst lastFirst_perm)

theorem counterOf_clearLinesMasked (t mask : Trace) (lineID : TraceLineID) :
    (traceClearLinesMasked t mask).counterOf lineID =
      if mask.Covers lineID then none else t.counterOf lineID :=
  lineOf_clearLinesMasked t mask _ _ _

theorem covers_clearLinesMasked (t mask : Trace) (lineID : TraceLineID) :
    (traceClearLinesMasked t mask).Covers lineID ↔ t.Covers lineID ∧ ¬mask.Covers lineID := by
  rw [Trace.Covers, counterOf_clearLinesMasked]
  split_ifs with hmask
  · simp [Hit, hmask]
  · exact ⟨fun h => ⟨h, hmask⟩, fun h => h.1⟩

theorem covers_clearLinesNotMasked (t mask : Trace) (lineID : TraceLineID) :
    (traceClearLinesNotMasked t mask).Covers lineID ↔
      t.Covers lineID ∧ (mask.counterOf lineID).getD 0 ≠ 0 := by
  rw [Trace.Covers, Trace.counterOf, lineOf_clearLinesNotMasked]
  change Hit (if (mask.counterOf lineID).getD 0 = 0 then none else t.counterOf lineID) ↔ _
  split_ifs with hmask
  · simp [Hit, hmask]
  · simp [Trace.Covers, hmask]

variable {lineID : TraceLineID} {T : TestSet} {traceInfo : TestTraceInfo} {included : List Nat}
variable {traces traces' : List TestTraceInfo} {s : State}

variable {t groupTrace : Trace} {lineID' : TraceLineID}

theorem mem_linesOf (h : t.Covers lineID) : lineID ∈ linesOf t := by
  obtain ⟨n, hn, -⟩ := (hit_iff _).mp h
  rw [Trace.counterOf, Trace.lineOf, Trace.fileOf] at hn
  obtain ⟨fi, hfi, hline⟩ := Option.bind_eq_some_iff.mp hn
  obtain ⟨gi, hgi, hfile⟩ := Option.bind_eq_some_iff.mp hfi
  refine List.mem_flatMap.mpr
    ⟨(lineID.groupID, gi), (OrderedMap.find_eq_some_iff _ _ _).mp hgi, ?_⟩
  simp only [hfile, Option.elim_some]
  exact List.mem_map.mpr ⟨lineID.line, (fi.lines.mem_keys_iff _).mpr ⟨n, hline⟩, rfl⟩

def coveredLines (t : Trace) : Finset TraceLineID :=
  (linesOf t).toFinset.filter fun lineID => t.Covers lineID

theorem mem_coveredLines : lineID ∈ coveredLines t ↔ t.Covers lineID := by
  rw [coveredLines, Finset.mem_filter, List.mem_toFinset]
  exact ⟨fun h => h.2, fun h => ⟨mem_linesOf h, h⟩⟩

theorem card_coveredLines_le (t : Trace) : (coveredLines t).card ≤ (linesOf t).length :=
  (Finset.card_filter_le _ _).trans (List.toFinset_card_le _)

/-- The tests, by index: their traces as they were loaded and their weights. -/
structure TestSet where
  size : Nat
  trace : Nat → Trace
  weight : Nat → Rat

def TestSet.Covers (T : TestSet) (i : Nat) (lineID : TraceLineID) : Prop :=
  (T.trace i).Covers lineID

/-- An element of the array: grouped, and with counters of the loaded trace only. -/
structure Derived (T : TestSet) (traceInfo : TestTraceInfo) : Prop where
  weight : traceInfo.weight = T.weight traceInfo.test
  grouped : traceInfo.trace.Grouped
  counter : ∀ lineID c, traceInfo.trace.counterOf lineID = some c →
    (T.trace traceInfo.test).counterOf lineID = some c

theorem Derived.covers (h : Derived T traceInfo) (hcover : traceInfo.trace.Covers lineID) :
    T.Covers traceInfo.test lineID := by
  obtain ⟨n, hn, hpos⟩ := (hit_iff _).mp hcover
  exact (hit_iff _).mpr ⟨n, h.counter lineID n hn, hpos⟩

theorem Derived.cleared (h : Derived T traceInfo) (mask : Trace) :
    Derived T (clearMasked mask traceInfo) where
  weight := h.weight
  grouped := grouped_clearLinesMasked h.grouped mask
  counter lineID c hc := by
    have hcounter := counterOf_clearLinesMasked traceInfo.trace mask lineID
    change (traceClearLinesMasked traceInfo.trace mask).counterOf lineID = some c at hc
    rw [hcounter] at hc
    split_ifs at hc
    exact h.counter lineID c hc

def Included (T : TestSet) (included : List Nat) (lineID : TraceLineID) : Prop :=
  ∃ j ∈ included, T.Covers j lineID

/-- The line was not touched: the traces cover it as they did when they were loaded. -/
def Untouched (T : TestSet) (traces : List TestTraceInfo) (lineID : TraceLineID) : Prop :=
  ∀ traceInfo ∈ traces,
    (traceInfo.trace.Covers lineID ↔ T.Covers traceInfo.test lineID)

/-- The line is in the group `k`: it is cleared, and the flags tell what traces covered it. -/
def InGroup (T : TestSet) (traces : List TestTraceInfo) (lineID : TraceLineID)
    (k : Nat) : Prop :=
  ∀ traceInfo ∈ traces,
    k < traceInfo.groups.length ∧ ¬traceInfo.trace.Covers lineID ∧
      (traceInfo.groups[k]? = some true ↔ T.Covers traceInfo.test lineID)

/-- What holds for the included tests and the array of traces in every round. -/
structure Tracked (T : TestSet) (included : List Nat)
    (traces : List TestTraceInfo) : Prop where
  derived : ∀ traceInfo ∈ traces, Derived T traceInfo
  lengths : ∃ m, ∀ traceInfo ∈ traces, traceInfo.groups.length = m
  nodup : (included ++ traces.map TestTraceInfo.test).Nodup
  inRange : ∀ i ∈ included ++ traces.map TestTraceInfo.test, i < T.size
  lines : ∀ i lineID, i < T.size → T.Covers i lineID →
    Included T included lineID ∨ Untouched T traces lineID ∨
      ∃ k, InGroup T traces lineID k
  cleared : ∀ lineID traceInfo, Included T included lineID → traceInfo ∈ traces →
    ¬traceInfo.trace.Covers lineID
  /-- A test that was discarded covers nothing new. -/
  accounted : ∀ i, i < T.size → i ∈ included ∨ (∃ traceInfo ∈ traces, traceInfo.test = i) ∨
    ∀ lineID, T.Covers i lineID → Included T included lineID

theorem Included.mono {included' : List Nat} (h : Included T included lineID)
    (hsub : included ⊆ included') :
    Included T included' lineID := by
  obtain ⟨j, hj, hcover⟩ := h
  exact ⟨j, hsub hj, hcover⟩

theorem Untouched.mono (h : Untouched T traces lineID) (hsub : traces' ⊆ traces) :
    Untouched T traces' lineID :=
  fun traceInfo hmem => h traceInfo (hsub hmem)

theorem InGroup.mono {k : Nat} (h : InGroup T traces lineID k) (hsub : traces' ⊆ traces) :
    InGroup T traces' lineID k :=
  fun traceInfo hmem => h traceInfo (hsub hmem)

theorem Tracked.perm (h : Tracked T included traces) (hperm : traces'.Perm traces) :
    Tracked T included traces' := by
  have hsub : traces' ⊆ traces := hperm.subset
  have htests : (included ++ traces'.map TestTraceInfo.test).Perm
      (included ++ traces.map TestTraceInfo.test) :=
    (hperm.map _).append_left included
  constructor
  · exact fun traceInfo hmem => h.derived traceInfo (hsub hmem)
  · obtain ⟨m, hm⟩ := h.lengths
    exact ⟨m, fun traceInfo hmem => hm traceInfo (hsub hmem)⟩
  · exact htests.nodup_iff.mpr h.nodup
  · exact fun i hi => h.inRange i (htests.subset hi)
  · intro i lineID hi hcover
    rcases h.lines i lineID hi hcover with hincluded | huntouched | ⟨k, hgroup⟩
    · exact Or.inl hincluded
    · exact Or.inr (Or.inl (huntouched.mono hsub))
    · exact Or.inr (Or.inr ⟨k, hgroup.mono hsub⟩)
  · exact fun lineID traceInfo hincluded hmem => h.cleared lineID traceInfo hincluded (hsub hmem)
  · intro i hi
    rcases h.accounted i hi with hincluded | ⟨traceInfo, hmem, htest⟩ | hall
    · exact Or.inl hincluded
    · exact Or.inr (Or.inl ⟨traceInfo, hperm.symm.subset hmem, htest⟩)
    · exact Or.inr (Or.inr hall)

theorem Tracked.discard (h : Tracked T included (traceInfo :: traces))
    (hlines : ∀ lineID, ¬traceInfo.trace.Covers lineID) (hgroups : traceInfo.groupsCovered = 0) :
    Tracked T included traces := by
  have hsub : traces ⊆ traceInfo :: traces := List.subset_cons_self _ _
  have hnodup := h.nodup
  rw [List.map_cons, List.nodup_middle] at hnodup
  constructor
  · exact fun t hmem => h.derived t (hsub hmem)
  · obtain ⟨m, hm⟩ := h.lengths
    exact ⟨m, fun t hmem => hm t (hsub hmem)⟩
  · exact (List.nodup_cons.mp hnodup).2
  · intro i hi
    apply h.inRange i
    rw [List.map_cons]
    rcases List.mem_append.mp hi with hi | hi
    · exact List.mem_append_left _ hi
    · exact List.mem_append_right _ (List.mem_cons_of_mem _ hi)
  · intro i lineID hi hcover
    rcases h.lines i lineID hi hcover with hincluded | huntouched | ⟨k, hgroup⟩
    · exact Or.inl hincluded
    · exact Or.inr (Or.inl (huntouched.mono hsub))
    · exact Or.inr (Or.inr ⟨k, hgroup.mono hsub⟩)
  · exact fun lineID t hincluded hmem => h.cleared lineID t hincluded (hsub hmem)
  · intro i hi
    rcases h.accounted i hi with hincluded | ⟨t, hmem, htest⟩ | hall
    · exact Or.inl hincluded
    · rcases List.mem_cons.mp hmem with rfl | hmem
      · -- the lines of the discarded trace are covered by included tests
        right
        right
        intro lineID hcover
        rw [← htest] at hcover
        rcases h.lines i lineID hi (htest ▸ hcover) with hincluded | huntouched | ⟨k, hgroup⟩
        · exact hincluded
        · exact absurd ((huntouched t List.mem_cons_self).mpr hcover) (hlines lineID)
        · have hflag := (hgroup t List.mem_cons_self).2.2.mpr hcover
          exact absurd (List.mem_of_getElem? hflag) (List.count_eq_zero.mp hgroups)
      · exact Or.inr (Or.inl ⟨t, hmem, htest⟩)
    · exact Or.inr (Or.inr hall)

def withGroups (g : List Bool → List Bool) (traceInfo : TestTraceInfo) : TestTraceInfo :=
  { traceInfo with groups := g traceInfo.groups }

/--
A trace is included and its lines are cleared in the other ones.  The flags may
change, except for the groups that the included trace does not cover.
-/
theorem Tracked.include {g : List Bool → List Bool} (h : Tracked T included (traceInfo :: traces))
    (hlengths : ∃ m, ∀ t ∈ traces, (g t.groups).length = m)
    (hflags : ∀ k t, traceInfo.groups[k]? ≠ some true → t ∈ traces → k < t.groups.length →
      k < (g t.groups).length ∧ (g t.groups)[k]? = t.groups[k]?) :
    Tracked T (included ++ [traceInfo.test])
      ((traces.map (clearMasked traceInfo.trace)).map (withGroups g)) := by
  have hself : traceInfo ∈ traceInfo :: traces := List.mem_cons_self
  have hsub : traces ⊆ traceInfo :: traces := List.subset_cons_self _ _
  have hmem : ∀ t', t' ∈ (traces.map (clearMasked traceInfo.trace)).map
      (withGroups g) → ∃ t ∈ traces,
        t' = withGroups g (clearMasked traceInfo.trace t) := by
    intro t' ht'
    obtain ⟨t1, ht1, rfl⟩ := List.mem_map.mp ht'
    obtain ⟨t, ht, rfl⟩ := List.mem_map.mp ht1
    exact ⟨t, ht, rfl⟩
  have htests : ((traces.map (clearMasked traceInfo.trace)).map
      (withGroups g)).map TestTraceInfo.test = traces.map TestTraceInfo.test := by
    rw [List.map_map, List.map_map]
    rfl
  have hcovers : ∀ t lineID,
      (withGroups g (clearMasked traceInfo.trace t)).trace.Covers lineID ↔
        t.trace.Covers lineID ∧ ¬traceInfo.trace.Covers lineID :=
    fun t lineID => covers_clearLinesMasked t.trace traceInfo.trace lineID
  have hold : ∀ lineID, Included T included lineID →
      Included T (included ++ [traceInfo.test]) lineID :=
    fun lineID hincluded => hincluded.mono (List.subset_append_left _ _)
  have hnew : ∀ lineID, T.Covers traceInfo.test lineID →
      Included T (included ++ [traceInfo.test]) lineID :=
    fun lineID hcover => ⟨traceInfo.test, by simp, hcover⟩
  constructor
  · intro t' ht'
    obtain ⟨t, ht, rfl⟩ := hmem t' ht'
    have hderived := (h.derived t (hsub ht)).cleared traceInfo.trace
    exact ⟨hderived.weight, hderived.grouped, hderived.counter⟩
  · obtain ⟨m, hm⟩ := hlengths
    refine ⟨m, fun t' ht' => ?_⟩
    obtain ⟨t, ht, rfl⟩ := hmem t' ht'
    exact hm t ht
  · rw [htests, List.append_assoc]
    exact h.nodup
  · rw [htests, List.append_assoc]
    exact h.inRange
  · intro i lineID hi hcover
    by_cases hself' : T.Covers traceInfo.test lineID
    · exact Or.inl (hnew lineID hself')
    · rcases h.lines i lineID hi hcover with hincluded | huntouched | ⟨k, hgroup⟩
      · exact Or.inl (hold lineID hincluded)
      · right
        left
        intro t' ht'
        obtain ⟨t, ht, rfl⟩ := hmem t' ht'
        rw [hcovers, huntouched traceInfo hself]
        exact ⟨fun hc => (huntouched t (hsub ht)).mp hc.1,
          fun hc => ⟨(huntouched t (hsub ht)).mpr hc, hself'⟩⟩
      · right
        right
        refine ⟨k, ?_⟩
        intro t' ht'
        obtain ⟨t, ht, rfl⟩ := hmem t' ht'
        obtain ⟨hk, hcleared, hflag⟩ := hgroup t (hsub ht)
        have hnotrue : traceInfo.groups[k]? ≠ some true :=
          fun htrue => hself' ((hgroup traceInfo hself).2.2.mp htrue)
        obtain ⟨hk', hsame⟩ := hflags k t hnotrue ht hk
        refine ⟨hk', fun hc => hcleared ((hcovers t lineID).mp hc).1, ?_⟩
        change (g t.groups)[k]? = some true ↔ _
        rw [hsame]
        exact hflag
  · rintro lineID t' ⟨j, hj, hcover⟩ ht' hc
    obtain ⟨t, ht, rfl⟩ := hmem t' ht'
    obtain ⟨hc, hnot⟩ := (hcovers t lineID).mp hc
    rcases List.mem_append.mp hj with hj | hj
    · exact h.cleared lineID t ⟨j, hj, hcover⟩ (hsub ht) hc
    · -- the included trace still covers the line, unless it is cleared everywhere
      rw [List.mem_singleton.mp hj] at hcover
      have hn : traceInfo.test < T.size := h.inRange _ (by simp)
      rcases h.lines traceInfo.test lineID hn hcover with hincluded | huntouched | ⟨k, hgroup⟩
      · exact h.cleared lineID t hincluded (hsub ht) hc
      · exact hnot ((huntouched traceInfo hself).mpr hcover)
      · exact (hgroup t (hsub ht)).2.1 hc
  · intro i hi
    rcases h.accounted i hi with hincluded | ⟨t, ht, rfl⟩ | hall
    · exact Or.inl (List.mem_append_left _ hincluded)
    · rcases List.mem_cons.mp ht with rfl | ht
      · exact Or.inl (by simp)
      · exact Or.inr (Or.inl ⟨_, List.mem_map_of_mem (List.mem_map_of_mem ht), rfl⟩)
    · exact Or.inr (Or.inr fun lineID hcover => hold lineID (hall lineID hcover))

/-- A trace after a new group was made for the line. -/
def regroup (lineID : TraceLineID) (groupTrace : Trace) (traceInfo : TestTraceInfo) :
    TestTraceInfo :=
  clearGroup groupTrace (pushGroup (decide (traceInfo.trace.Covers lineID)) traceInfo)

section Regroup

variable (lineID : TraceLineID) (groupTrace : Trace) (traceInfo : TestTraceInfo)

theorem regroup_eq :
    regroup lineID groupTrace traceInfo =
      { traceInfo with
        groups := traceInfo.groups ++ [decide (traceInfo.trace.Covers lineID)]
        trace := if traceInfo.trace.Covers lineID then
          traceClearLinesMasked traceInfo.trace groupTrace else traceInfo.trace } := by
  unfold regroup clearGroup pushGroup
  by_cases h : traceInfo.trace.Covers lineID
  · simp [h, clearMasked]
  · simp [h]

theorem regroup_test : (regroup lineID groupTrace traceInfo).test = traceInfo.test := by
  rw [regroup_eq]

theorem regroup_groups :
    (regroup lineID groupTrace traceInfo).groups =
      traceInfo.groups ++ [decide (traceInfo.trace.Covers lineID)] := by
  rw [regroup_eq]

theorem regroup_covers (lineID' : TraceLineID) :
    (regroup lineID groupTrace traceInfo).trace.Covers lineID' ↔
      traceInfo.trace.Covers lineID' ∧
        ¬(traceInfo.trace.Covers lineID ∧ groupTrace.Covers lineID') := by
  rw [regroup_eq]
  by_cases h : traceInfo.trace.Covers lineID
  · simp only [h, if_true, covers_clearLinesMasked, true_and]
  · simp only [h, if_false, false_and, not_false_eq_true, and_true]

variable {lineID groupTrace traceInfo}

theorem Derived.regrouped {T : TestSet} (h : Derived T traceInfo) :
    Derived T (regroup lineID groupTrace traceInfo) := by
  rw [regroup_eq]
  by_cases hcover : traceInfo.trace.Covers lineID
  · have hclear := h.cleared groupTrace
    simp only [hcover, if_true]
    exact ⟨hclear.weight, hclear.grouped, hclear.counter⟩
  · simp only [hcover, if_false]
    exact ⟨h.weight, h.grouped, h.counter⟩

end Regroup

theorem Untouched.inGroup {m : Nat} (h : Untouched T traces lineID')
    (hm : ∀ t ∈ traces, t.groups.length = m) (hnew : groupTrace.Covers lineID')
    (hsame : ∀ t ∈ traces, (t.trace.Covers lineID ↔ t.trace.Covers lineID')) :
    InGroup T (traces.map (regroup lineID groupTrace)) lineID' m := by
  intro t' ht'
  obtain ⟨t, ht, rfl⟩ := List.mem_map.mp ht'
  have hsame := hsame t ht
  rw [regroup_groups, regroup_test, regroup_covers]
  refine ⟨by simp [hm t ht], fun hc => hc.2 ⟨hsame.mpr hc.1, hnew⟩, ?_⟩
  rw [← hm t ht, List.getElem?_concat_length, ← h t ht, ← hsame]
  simp

theorem InGroup.regrouped {k : Nat} (h : InGroup T traces lineID' k) (lineID : TraceLineID)
    (groupTrace : Trace) :
    InGroup T (traces.map (regroup lineID groupTrace)) lineID' k := by
  intro t' ht'
  obtain ⟨t, ht, rfl⟩ := List.mem_map.mp ht'
  obtain ⟨hlt, hcleared, hflag⟩ := h t ht
  rw [regroup_groups, regroup_test, regroup_covers]
  refine ⟨by simp; omega, fun hc => hcleared hc.1, ?_⟩
  rw [List.getElem?_append_left hlt]
  exact hflag

/-- The group consists of lines that the same traces cover. -/
def ExactGroup (traces : List TestTraceInfo) (lineID : TraceLineID) (groupTrace : Trace) : Prop :=
  ∀ lineID' t, groupTrace.Covers lineID' → t ∈ traces →
    (t.trace.Covers lineID ↔ t.trace.Covers lineID')

theorem Tracked.regrouped (h : Tracked T included traces)
    (hgroup : ExactGroup traces lineID groupTrace) :
    Tracked T included (traces.map (regroup lineID groupTrace)) := by
  have htests : (traces.map (regroup lineID groupTrace)).map TestTraceInfo.test =
      traces.map TestTraceInfo.test := by
    rw [List.map_map]
    exact List.map_congr_left fun t _ => regroup_test lineID groupTrace t
  constructor
  · intro t' ht'
    obtain ⟨t, ht, rfl⟩ := List.mem_map.mp ht'
    exact (h.derived t ht).regrouped
  · obtain ⟨m, hm⟩ := h.lengths
    refine ⟨m + 1, fun t' ht' => ?_⟩
    obtain ⟨t, ht, rfl⟩ := List.mem_map.mp ht'
    rw [regroup_groups, List.length_append, hm t ht]
    rfl
  · rw [htests]
    exact h.nodup
  · rw [htests]
    exact h.inRange
  · intro i lineID' hi hcover
    rcases h.lines i lineID' hi hcover with hincluded | huntouched | ⟨k, hk⟩
    · exact Or.inl hincluded
    · by_cases hnew : groupTrace.Covers lineID'
      · -- the line goes to the new group
        right
        right
        obtain ⟨m, hm⟩ := h.lengths
        exact ⟨m, huntouched.inGroup hm hnew fun t ht => hgroup lineID' t hnew ht⟩
      · right
        left
        intro t' ht'
        obtain ⟨t, ht, rfl⟩ := List.mem_map.mp ht'
        rw [regroup_covers, regroup_test, huntouched t ht]
        simp [hnew]
    · exact Or.inr (Or.inr ⟨k, hk.regrouped lineID groupTrace⟩)
  · intro lineID' t' hincluded ht' hc
    obtain ⟨t, ht, rfl⟩ := List.mem_map.mp ht'
    exact h.cleared lineID' t hincluded ht ((regroup_covers _ _ _ _).mp hc).1
  · intro i hi
    rcases h.accounted i hi with hincluded | ⟨t, ht, rfl⟩ | hall
    · exact Or.inl hincluded
    · exact Or.inr (Or.inl ⟨_, List.mem_map_of_mem ht, regroup_test _ _ _⟩)
    · exact Or.inr (Or.inr hall)

def Admits (lineID lineID' : TraceLineID) (traceInfo : TestTraceInfo) : Prop :=
  if traceInfo.trace.Covers lineID then (traceInfo.trace.counterOf lineID').getD 0 ≠ 0
  else ¬traceInfo.trace.Covers lineID'

theorem restrictGroup_spec (lineID : TraceLineID) :
    ∀ (further : List TestTraceInfo) (group : Group),
      (∀ t ∈ further, t.trace.Grouped) →
      ∃ group', restrictGroup lineID further group =
          some (further.map fun t => pushGroup (decide (t.trace.Covers lineID)) t, group') ∧
        (group'.oneCover = true ↔
          group.oneCover = true ∧ ∀ t ∈ further, ¬t.trace.Covers lineID) ∧
        ∀ lineID', group'.groupTrace.Covers lineID' ↔
          group.groupTrace.Covers lineID' ∧ ∀ t ∈ further, Admits lineID lineID' t
  | [], group, _ => ⟨group, rfl, by simp, by simp⟩
  | t :: further, group, hgrouped => by
      have ht := traceHasLine_spec (hgrouped t List.mem_cons_self) lineID
      obtain ⟨group', hrun, hone, hcovers⟩ := restrictGroup_spec lineID further
        (if t.trace.Covers lineID then
          ⟨traceClearLinesNotMasked group.groupTrace t.trace, false⟩
        else ⟨traceClearLinesMasked group.groupTrace t.trace, group.oneCover⟩)
        (fun t' ht' => hgrouped t' (List.mem_cons_of_mem _ ht'))
      refine ⟨group', ?_, ?_, ?_⟩
      · simp only [restrictGroup, ht, Option.bind_eq_bind, Option.bind_some, decide_eq_true_eq,
          hrun, Option.pure_def, List.map_cons]
      · rw [hone]
        split_ifs with hline
        · simp [hline]
        · simp [hline]
      · intro lineID'
        rw [hcovers]
        split_ifs with hline
        · simp [covers_clearLinesNotMasked, Admits, hline, and_assoc]
        · simp [covers_clearLinesMasked, Admits, hline, and_assoc]

def IsGroup (traceInfo : TestTraceInfo) (further : List TestTraceInfo) (lineID : TraceLineID)
    (groupTrace : Trace) : Prop :=
  ∀ lineID', groupTrace.Covers lineID' ↔
    traceInfo.trace.Covers lineID' ∧ ∀ t ∈ further, Admits lineID lineID' t

/-- The array without its current element, whose lines are cleared in the other ones. -/
def withoutIncluded (previous : List TestTraceInfo) (traceInfo : TestTraceInfo)
    (further : List TestTraceInfo) : List TestTraceInfo :=
  previous.map (clearMasked traceInfo.trace) ++
    lastFirst (further.map (clearMasked traceInfo.trace))

theorem makeGroup_spec {previous further : List TestTraceInfo}
    (htraces : s.testTraces = previous ++ traceInfo :: further)
    (hcurrent : s.current = previous.length)
    (hprevious : ∀ t ∈ previous, ¬t.trace.Covers lineID) (hline : traceInfo.trace.Covers lineID)
    (hfurther : ∀ t ∈ further, t.trace.Grouped) :
    ∃ groupTrace, IsGroup traceInfo further lineID groupTrace ∧
      (((∃ t ∈ further, t.trace.Covers lineID) ∧
          makeGroup s traceInfo lineID =
            some { s with testTraces := s.testTraces.map (regroup lineID groupTrace) }) ∨
        (∀ t ∈ further, ¬t.trace.Covers lineID) ∧
          makeGroup s traceInfo lineID = some { s with
            includedTests := s.includedTests ++ [traceInfo.test]
            testTraces := (withoutIncluded (previous.map (regroup lineID groupTrace))
              (regroup lineID groupTrace traceInfo)
              (further.map (regroup lineID groupTrace))).map popGroup }) := by
  obtain ⟨group, hrun, hone, hcovers⟩ :=
    restrictGroup_spec lineID further ⟨traceInfo.trace, true⟩ hfurther
  have htake : s.testTraces.take s.current = previous := by
    rw [htraces, hcurrent, List.take_left']
    rfl
  have hdrop : s.testTraces.drop (s.current + 1) = further := by
    rw [htraces, hcurrent, ← List.drop_drop, List.drop_left']
    · rfl
    · rfl
  have hleft : previous.map (pushGroup false) = previous.map (regroup lineID group.groupTrace) := by
    apply List.map_congr_left
    intro t ht
    simp [regroup, hprevious t ht, clearGroup, pushGroup]
  have hself : clearGroup group.groupTrace (pushGroup true traceInfo) =
      regroup lineID group.groupTrace traceInfo := by
    simp [regroup, hline]
  have hright : (further.map fun t => pushGroup (decide (t.trace.Covers lineID)) t).map
      (clearGroup group.groupTrace) = further.map (regroup lineID group.groupTrace) := by
    rw [List.map_map]
    rfl
  refine ⟨group.groupTrace, hcovers, ?_⟩
  simp only [makeGroup, htake, hdrop, hrun, hleft, hself, hright, Option.bind_eq_bind,
    Option.bind_some, Option.pure_def]
  cases honeCover : group.oneCover with
  | true =>
    right
    refine ⟨(hone.mp honeCover).2, ?_⟩
    have hremove := testTraceArrayRemoveAtIncluded_eq
      (previous.map (regroup lineID group.groupTrace))
      (further.map (regroup lineID group.groupTrace)) (regroup lineID group.groupTrace traceInfo)
    rw [List.length_map, ← hcurrent] at hremove
    simp only [if_true, hremove, regroup_test]
    rfl
  | false =>
    left
    refine ⟨?_, ?_⟩
    · by_contra hnone
      push Not at hnone
      exact absurd (hone.mpr ⟨rfl, hnone⟩) (by simp [honeCover])
    · simp only [Bool.false_eq_true, if_false, htraces, List.map_append, List.map_cons]

/-- A round of the grouping loop, for the current element `traceInfo` of the array. -/
inductive GroupingStep (s : State) (previous : List TestTraceInfo) (traceInfo : TestTraceInfo)
    (further : List TestTraceInfo) : State → Prop
  /-- The trace covers no group and is forgotten. -/
  | discard
      (hlines : ∀ lineID, ¬traceInfo.trace.Covers lineID)
      (hgroups : traceInfo.groupsCovered = 0) :
      GroupingStep s previous traceInfo further
        { s with testTraces := previous ++ lastFirst further }
  /-- All groups in the trace are defined. -/
  | pass
      (hlines : ∀ lineID, ¬traceInfo.trace.Covers lineID)
      (hgroups : traceInfo.groupsCovered ≠ 0) :
      GroupingStep s previous traceInfo further { s with current := s.current + 1 }
  /-- A new group is covered by other traces too. -/
  | group {lineID : TraceLineID} {groupTrace : Trace}
      (hpicked : traceGetLineCovered traceInfo.trace = some (some lineID))
      (hline : traceInfo.trace.Covers lineID)
      (hgroup : IsGroup traceInfo further lineID groupTrace)
      (hshared : ∃ t ∈ further, t.trace.Covers lineID) :
      GroupingStep s previous traceInfo further
        { s with testTraces := s.testTraces.map (regroup lineID groupTrace) }
  /-- A new group is covered only by the trace, which is included. -/
  | force {lineID : TraceLineID} {groupTrace : Trace}
      (hpicked : traceGetLineCovered traceInfo.trace = some (some lineID))
      (hline : traceInfo.trace.Covers lineID)
      (hgroup : IsGroup traceInfo further lineID groupTrace)
      (honly : ∀ t ∈ further, ¬t.trace.Covers lineID) :
      GroupingStep s previous traceInfo further
        { s with
          includedTests := s.includedTests ++ [traceInfo.test]
          testTraces := (withoutIncluded (previous.map (regroup lineID groupTrace))
            (regroup lineID groupTrace traceInfo)
            (further.map (regroup lineID groupTrace))).map popGroup }

structure AtCurrent (s : State) (previous : List TestTraceInfo) (traceInfo : TestTraceInfo)
    (further : List TestTraceInfo) : Prop where
  traces : s.testTraces = previous ++ traceInfo :: further
  current : s.current = previous.length

theorem atCurrent_of_getElem (h : s.testTraces[s.current]? = some traceInfo) :
    ∃ previous further, AtCurrent s previous traceInfo further := by
  obtain ⟨hlt, hget⟩ := List.getElem?_eq_some_iff.mp h
  refine ⟨s.testTraces.take s.current, s.testTraces.drop (s.current + 1), ?_, ?_⟩
  · rw [← hget, List.getElem_cons_drop, List.take_append_drop]
  · rw [List.length_take]
    omega

/-- A round of the loop makes one of the steps, or the array is at its end. -/
theorem groupingBody_spec (hgrouped : ∀ t ∈ s.testTraces, t.trace.Grouped)
    (hpassed : ∀ t lineID, t ∈ s.testTraces.take s.current → ¬t.trace.Covers lineID) :
    (∃ previous traceInfo further s', AtCurrent s previous traceInfo further ∧
        groupingBody s = some (.next s') ∧ GroupingStep s previous traceInfo further s') ∨
      groupingBody s = some (.done s) ∧ s.testTraces.length ≤ s.current := by
  cases hget : s.testTraces[s.current]? with
  | none => exact Or.inr ⟨by simp [groupingBody, hget], List.getElem?_eq_none_iff.mp hget⟩
  | some traceInfo =>
    left
    obtain ⟨previous, further, hat⟩ := atCurrent_of_getElem hget
    have htraces := hat.traces
    have htake : s.testTraces.take s.current = previous := by
      rw [htraces, hat.current, List.take_left']
      rfl
    have hself : traceInfo.trace.Grouped := hgrouped traceInfo (by simp [htraces])
    simp only [groupingBody, hget]
    rcases traceGetLineCovered_spec hself with
      ⟨lineID, hfound, hline, -⟩ | ⟨hfound, hlines⟩
    · obtain ⟨groupTrace, hgroup, ⟨hshared, hmake⟩ | ⟨honly, hmake⟩⟩ :=
        makeGroup_spec htraces hat.current
          (fun t ht => hpassed t lineID (htake ▸ ht)) hline
          (fun t ht => hgrouped t (by simp [htraces, ht]))
      · exact ⟨previous, traceInfo, further, _, hat, by simp [hfound, hmake],
          GroupingStep.group hfound hline hgroup hshared⟩
      · exact ⟨previous, traceInfo, further, _, hat, by simp [hfound, hmake],
          GroupingStep.force hfound hline hgroup honly⟩
    · have hremove := testTraceArrayRemoveAt_eq previous further traceInfo
      rw [← htraces, ← hat.current] at hremove
      by_cases hgroups : traceInfo.groupsCovered = 0
      · exact ⟨previous, traceInfo, further, _, hat, by simp [hfound, hgroups, hremove],
          GroupingStep.discard hlines hgroups⟩
      · exact ⟨previous, traceInfo, further, _, hat, by simp [hfound, hgroups],
          GroupingStep.pass hlines hgroups⟩

/-- The line is not covered by a test without weight. -/
def TestSet.Needed (T : TestSet) (lineID : TraceLineID) : Prop :=
  ∀ z, z < T.size → T.weight z = 0 → ¬T.Covers z lineID

/-- What holds in every round of the grouping loop. -/
structure Grouping (T : TestSet) (s : State) : Prop where
  tracked : Tracked T s.includedTests s.testTraces
  zeros : ∀ z, z < T.size → T.weight z = 0 → z ∈ s.includedTests
  passed : ∀ t ∈ s.testTraces.take s.current,
    (∀ lineID, ¬t.trace.Covers lineID) ∧ t.groupsCovered ≠ 0
  current_le : s.current ≤ s.testTraces.length

theorem Tracked.test_lt (h : Tracked T included traces) {t : TestTraceInfo} (ht : t ∈ traces) :
    t.test < T.size :=
  h.inRange t.test (List.mem_append_right _ (List.mem_map_of_mem ht))

section Rounds

variable {T : TestSet} {s : State}
variable {previous further : List TestTraceInfo} {traceInfo : TestTraceInfo}

variable {t : TestTraceInfo} {lineID : TraceLineID} {groupTrace : Trace} {s' : State}

theorem Grouping.needed (h : Grouping T s) (ht : t ∈ s.testTraces)
    (hcover : t.trace.Covers lineID) :
    T.Needed lineID := by
  intro z hz hweight hcover'
  exact h.tracked.cleared lineID t ⟨z, h.zeros z hz hweight, hcover'⟩ ht hcover

theorem Tracked.untouched {included : List Nat} {traces : List TestTraceInfo}
    (h : Tracked T included traces) (ht : t ∈ traces) (hcover : t.trace.Covers lineID) :
    Untouched T traces lineID := by
  rcases h.lines t.test lineID (h.test_lt ht) ((h.derived t ht).covers hcover) with
    hincluded | huntouched | ⟨k, hgroup⟩
  · exact absurd hcover (h.cleared lineID t hincluded ht)
  · exact huntouched
  · exact absurd hcover (hgroup t ht).2.1

section

variable (hat : AtCurrent s previous traceInfo further)
include hat

theorem AtCurrent.take :
    s.testTraces.take s.current = previous := by
  rw [hat.traces, hat.current, List.take_left']
  rfl

theorem AtCurrent.drop :
    s.testTraces.drop s.current = traceInfo :: further := by
  rw [hat.traces, hat.current, List.drop_left' rfl]

theorem AtCurrent.drop_succ :
    s.testTraces.drop (s.current + 1) = further := by
  rw [← List.drop_drop, hat.drop, List.drop_one, List.tail_cons]

theorem AtCurrent.take_succ :
    s.testTraces.take (s.current + 1) = previous ++ [traceInfo] := by
  rw [hat.traces, hat.current]
  simp [List.take_append]

theorem AtCurrent.perm :
    s.testTraces.Perm (traceInfo :: (previous ++ further)) := by
  rw [hat.traces]
  exact List.perm_middle

end

theorem IsGroup.covers_iff (hgroup : IsGroup traceInfo further lineID groupTrace)
    (hat : AtCurrent s previous traceInfo further)
    (hexact : ExactGroup s.testTraces lineID groupTrace) (lineID' : TraceLineID) :
    groupTrace.Covers lineID' ↔
      traceInfo.trace.Covers lineID' ∧
        ∀ t ∈ s.testTraces, (t.trace.Covers lineID ↔ t.trace.Covers lineID') := by
  constructor
  · exact fun h => ⟨((hgroup lineID').mp h).1, fun t ht => hexact lineID' t h ht⟩
  · rintro ⟨hline', hall⟩
    refine (hgroup lineID').mpr ⟨hline', fun t ht => ?_⟩
    have hsame := hall t (by simp [hat.traces, ht])
    unfold Admits
    split_ifs with htline
    · obtain ⟨c, hc, hpos⟩ := (hit_iff _).mp (hsame.mp htline)
      rw [hc, Option.getD_some]
      exact hpos.ne'
    · exact fun hcover => htline (hsame.mpr hcover)

theorem regroup_groupsCovered (groupTrace : Trace) (h : ¬t.trace.Covers lineID) :
    (regroup lineID groupTrace t).groupsCovered = t.groupsCovered := by
  simp [TestTraceInfo.groupsCovered, regroup_groups, h]

theorem withoutIncluded_perm (previous further : List TestTraceInfo) (traceInfo : TestTraceInfo) :
    (withoutIncluded previous traceInfo further).Perm
      ((previous ++ further).map (clearMasked traceInfo.trace)) := by
  rw [withoutIncluded, List.map_append]
  exact (lastFirst_perm _).append_left _

theorem Tracked.force {included : List Nat}
    (h : Tracked T included (regroup lineID groupTrace traceInfo ::
      (previous ++ further).map (regroup lineID groupTrace)))
    (hline : traceInfo.trace.Covers lineID) :
    Tracked T (included ++ [traceInfo.test])
      ((withoutIncluded (previous.map (regroup lineID groupTrace))
        (regroup lineID groupTrace traceInfo)
        (further.map (regroup lineID groupTrace))).map popGroup) := by
  obtain ⟨m, hm⟩ := h.lengths
  have hlength : ∀ t ∈ (previous ++ further).map (regroup lineID groupTrace),
      t.groups.length = m := fun t ht => hm t (List.mem_cons_of_mem _ ht)
  have hflags : ∀ k t,
      (regroup lineID groupTrace traceInfo).groups[k]? ≠ some true →
      t ∈ (previous ++ further).map (regroup lineID groupTrace) →
      k < t.groups.length →
      k < t.groups.dropLast.length ∧ t.groups.dropLast[k]? = t.groups[k]? := by
    intro k t htrue ht hk
    have hself := hm _ List.mem_cons_self
    rw [regroup_groups, List.length_append, List.length_singleton] at hself
    rw [hlength t ht] at hk
    -- the last flag of the included trace is set
    have hne : k ≠ traceInfo.groups.length := by
      rintro rfl
      apply htrue
      rw [regroup_groups, List.getElem?_concat_length, decide_eq_true hline]
    have hlt : k < t.groups.dropLast.length := by
      rw [List.length_dropLast, hlength t ht]
      omega
    exact ⟨hlt, by rw [List.getElem?_dropLast, if_pos (by rw [hlength t ht]; omega)]⟩
  have hinclude := h.include (g := List.dropLast)
    ⟨m - 1, fun t ht => by rw [List.length_dropLast, hlength t ht]⟩ hflags
  rw [regroup_test] at hinclude
  rw [List.map_append] at hinclude
  exact hinclude.perm ((withoutIncluded_perm _ _ _).map popGroup)

theorem Grouping.exact_of_only (h : Grouping T s) (hat : AtCurrent s previous traceInfo further)
    (hline : traceInfo.trace.Covers lineID) (hgroup : IsGroup traceInfo further lineID groupTrace)
    (honly : ∀ t ∈ further, ¬t.trace.Covers lineID) :
    ExactGroup s.testTraces lineID groupTrace := by
  intro lineID' t hcover ht
  obtain ⟨hline', hadmits⟩ := (hgroup lineID').mp hcover
  have hcases : t ∈ previous ∨ t = traceInfo ∨ t ∈ further := by
    simpa [hat.traces] using ht
  rcases hcases with hprevious | rfl | hfurther
  · have hdead := (h.passed t (hat.take ▸ hprevious)).1
    simp [hdead]
  · simp [hline, hline']
  · have hadmit := hadmits t hfurther
    rw [Admits, if_neg (honly t hfurther)] at hadmit
    exact iff_of_false (honly t hfurther) hadmit

/-- A round keeps the invariant if its group consists of lines that the same traces cover. -/
theorem GroupingStep.grouping_of_exact (h : Grouping T s)
    (hat : AtCurrent s previous traceInfo further)
    (hexact : ∀ lineID groupTrace, traceGetLineCovered traceInfo.trace = some (some lineID) →
      traceInfo.trace.Covers lineID → IsGroup traceInfo further lineID groupTrace →
      ExactGroup s.testTraces lineID groupTrace)
    (hstep : GroupingStep s previous traceInfo further s') :
    Grouping T s' := by
  have hpassed := h.passed
  rw [hat.take] at hpassed
  cases hstep with
  | discard hlines hgroups =>
    refine ⟨?_, h.zeros, ?_, ?_⟩
    · exact ((h.tracked.perm hat.perm.symm).discard hlines hgroups).perm
        ((lastFirst_perm further).append_left previous)
    · rw [hat.current, List.take_left']
      · exact hpassed
      · rfl
    · simp [hat.current]
  | pass hlines hgroups =>
    refine ⟨h.tracked, h.zeros, ?_, ?_⟩
    · intro t ht
      rw [hat.take_succ, List.mem_append, List.mem_singleton] at ht
      rcases ht with ht | rfl
      · exact hpassed t ht
      · exact ⟨hlines, hgroups⟩
    · simp [hat.traces, hat.current]
  | @group lineID groupTrace hpicked hline hgroup hshared =>
    refine ⟨?_, h.zeros, ?_, ?_⟩
    · exact h.tracked.regrouped (hexact lineID groupTrace hpicked hline hgroup)
    · intro t' ht'
      rw [← List.map_take, hat.take] at ht'
      obtain ⟨t, ht, rfl⟩ := List.mem_map.mp ht'
      obtain ⟨hdead, hcount⟩ := hpassed t ht
      rw [regroup_groupsCovered groupTrace (hdead lineID)]
      exact ⟨fun lineID' hc => hdead lineID' ((regroup_covers _ _ _ _).mp hc).1, hcount⟩
    · simpa using h.current_le
  | @force lineID groupTrace hpicked hline hgroup honly =>
    have hregroup : Tracked T s.includedTests (s.testTraces.map (regroup lineID groupTrace)) :=
      h.tracked.regrouped (h.exact_of_only hat hline hgroup honly)
    refine ⟨(hregroup.perm (hat.perm.map _).symm).force hline, ?_, ?_, ?_⟩
    · intro z hz hweight
      exact List.mem_append_left _ (h.zeros z hz hweight)
    · intro t' ht'
      rw [withoutIncluded, List.map_append, hat.current, List.take_left' (by simp)] at ht'
      simp only [List.map_map, List.mem_map] at ht'
      obtain ⟨t, ht, rfl⟩ := ht'
      obtain ⟨hdead, hcount⟩ := hpassed t ht
      refine ⟨fun lineID' hc => ?_, ?_⟩
      · have hcover := ((covers_clearLinesMasked _ _ _).mp hc).1
        exact hdead lineID' ((regroup_covers _ _ _ _).mp hcover).1
      · simpa [TestTraceInfo.groupsCovered, popGroup, clearMasked, regroup_groups] using hcount
    · simp [withoutIncluded, hat.current]

/-- The number of lines that are covered in the traces. -/
def liveCount (traces : List TestTraceInfo) : Nat :=
  (traces.map fun t => (coveredLines t.trace).card).sum

theorem liveCount_perm {traces traces' : List TestTraceInfo} (h : traces.Perm traces') :
    liveCount traces = liveCount traces' :=
  (h.map _).sum_eq

@[simp] theorem liveCount_cons (t : TestTraceInfo) (traces : List TestTraceInfo) :
    liveCount (t :: traces) = (coveredLines t.trace).card + liveCount traces :=
  List.sum_cons

theorem liveCount_map_le {f : TestTraceInfo → TestTraceInfo}
    (hf : ∀ t lineID, (f t).trace.Covers lineID → t.trace.Covers lineID)
    (traces : List TestTraceInfo) :
    liveCount (traces.map f) ≤ liveCount traces := by
  unfold liveCount
  rw [List.map_map]
  refine List.sum_le_sum fun t _ => Finset.card_le_card fun lineID hmem => ?_
  exact mem_coveredLines.mpr (hf t lineID (mem_coveredLines.mp hmem))

def roundsLeft (s : State) : Nat :=
  liveCount s.testTraces + 2 * s.testTraces.length - s.current

theorem IsGroup.self (hgroup : IsGroup traceInfo further lineID groupTrace)
    (hline : traceInfo.trace.Covers lineID) :
    groupTrace.Covers lineID := by
  refine (hgroup lineID).mpr ⟨hline, fun t _ => ?_⟩
  unfold Admits
  split_ifs with ht
  · obtain ⟨c, hc, hpos⟩ := (hit_iff _).mp ht
    rw [hc, Option.getD_some]
    exact hpos.ne'
  · exact ht

/-- Every round of the grouping loop lowers the measure. -/
theorem GroupingStep.roundsLeft_lt (hat : AtCurrent s previous traceInfo further)
    (hstep : GroupingStep s previous traceInfo further s') :
    roundsLeft s' < roundsLeft s := by
  have hlive := liveCount_perm hat.perm
  have hlength := hat.perm.length_eq
  have hcurrent := hat.current
  rw [liveCount_cons] at hlive
  rw [List.length_cons, List.length_append] at hlength
  cases hstep with
  | discard hlines hgroups =>
    have hperm := (lastFirst_perm further).append_left previous
    have hlength' : (previous ++ lastFirst further).length = previous.length + further.length := by
      rw [hperm.length_eq, List.length_append]
    simp only [roundsLeft, liveCount_perm hperm, hlength']
    omega
  | pass hlines hgroups =>
    simp only [roundsLeft]
    omega
  | @group lineID groupTrace hpicked hline hgroup hshared =>
    have hlive' := liveCount_perm (hat.perm.map (regroup lineID groupTrace))
    rw [List.map_cons, liveCount_cons] at hlive'
    have hle : liveCount ((previous ++ further).map (regroup lineID groupTrace)) ≤
        liveCount (previous ++ further) :=
      liveCount_map_le (fun t lineID' hc => ((regroup_covers _ _ _ _).mp hc).1) _
    -- the current trace loses at least the line of the group
    have hlt : (coveredLines (regroup lineID groupTrace traceInfo).trace).card <
        (coveredLines traceInfo.trace).card := by
      apply Finset.card_lt_card
      refine (Finset.ssubset_iff_of_subset fun lineID' hmem => ?_).mpr
        ⟨lineID, mem_coveredLines.mpr hline, fun hmem => ?_⟩
      · exact mem_coveredLines.mpr ((regroup_covers _ _ _ _).mp (mem_coveredLines.mp hmem)).1
      · exact ((regroup_covers _ _ _ _).mp (mem_coveredLines.mp hmem)).2
          ⟨hline, hgroup.self hline⟩
    simp only [roundsLeft, List.length_map]
    omega
  | @force lineID groupTrace hpicked hline hgroup honly =>
    have hperm := (withoutIncluded_perm (previous.map (regroup lineID groupTrace))
      (further.map (regroup lineID groupTrace)) (regroup lineID groupTrace traceInfo)).map popGroup
    rw [← List.map_append, List.map_map, List.map_map] at hperm
    have hle : liveCount ((previous ++ further).map ((popGroup ∘
        clearMasked (regroup lineID groupTrace traceInfo).trace) ∘ regroup lineID groupTrace)) ≤
          liveCount (previous ++ further) := by
      refine liveCount_map_le (fun t lineID' hc => ?_) _
      have hcover := ((covers_clearLinesMasked _ _ _).mp hc).1
      exact ((regroup_covers _ _ _ _).mp hcover).1
    have hlength' := hperm.length_eq.trans (List.length_map _)
    rw [List.length_append] at hlength'
    simp only [roundsLeft, liveCount_perm hperm, hlength']
    omega

end Rounds

end TestSetOptimizer
end Coverage
end KedrAux
