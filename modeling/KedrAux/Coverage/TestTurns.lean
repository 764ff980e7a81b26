import KedrAux.Coverage.EssentialTests

/-!
# The order of the tests

The grouping loop comes to the tests from the front of the array, and to one from its back
whenever the current test leaves the array: it is included for a line of its own, or there is
nothing left of it.  What becomes of a line is up to the first test that covers it.

A counter that is not positive can be taken for a covered line only in the turn of a test which
is the first one to cover both lines.  So it depends on the order of the tests whether
`traceClearLinesNotMasked` comes to a negative counter.
-/

namespace KedrAux
namespace Coverage
namespace TestSetOptimizer

open RemovalOrder

section Problem

variable (T : TestSet)

def TestSet.firstOf (l : List Nat) (lineID : TraceLineID) : Option Nat :=
  l.find? fun i => decide (T.Covers i lineID)

/-- The test has a line of its own before all lines of the class of `lineID`: it is included
before these lines make a group. -/
def TestSet.TakesOut (i : Nat) (lineID : TraceLineID) : Prop :=
  ∃ own, T.OwnLine i own ∧ ∀ lineID', T.Covers i lineID' →
    T.coverers lineID' = T.coverers lineID → own.Before lineID'

instance (i : Nat) (lineID : TraceLineID) : Decidable (T.TakesOut i lineID) :=
  decidable_of_iff (∃ own ∈ coveredLines (T.trace i), T.OwnLine i own ∧
      ∀ lineID' ∈ coveredLines (T.trace i), T.coverers lineID' = T.coverers lineID →
        own.Before lineID')
    ⟨fun ⟨own, _, hown, hall⟩ => ⟨own, hown, fun lineID' h => hall lineID' (mem_coveredLines.mpr h)⟩,
      fun ⟨own, hown, hall⟩ => ⟨own, mem_coveredLines.mpr hown.2.1, hown,
        fun lineID' h => hall lineID' (mem_coveredLines.mp h)⟩⟩

/-- The test leaves the array after the turns of `done`: it has a line of its own, or its lines
were taken out with earlier tests. -/
def TestSet.Leaves (done : List Nat) (i : Nat) : Prop :=
  T.HasOwn i ∨ ∀ lineID, T.Covers i lineID → T.Needed lineID →
    ∃ j ∈ T.firstOf done lineID, T.TakesOut j lineID

instance (done : List Nat) (i : Nat) : Decidable (T.Leaves done i) :=
  decidable_of_iff (T.HasOwn i ∨ ∀ lineID ∈ coveredLines (T.trace i), T.Needed lineID →
      ∃ j ∈ T.firstOf done lineID, T.TakesOut j lineID)
    (or_congr_right ⟨fun h lineID hc => h lineID (mem_coveredLines.mpr hc),
      fun h lineID hc => h lineID (mem_coveredLines.mp hc)⟩)

/-- The tests in the order of their turns in the grouping loop. -/
def TestSet.turns : List Nat :=
  order (fun done i => decide (T.Leaves done i)) [] T.array

/--
In the turn of the test `i` a group is made for `lineID` that takes in `lineID'`, although the
second line has only counters that are not positive, namely negative ones, in some of the traces
which cover the first line.
-/
structure TestSet.TakesIn (i : Nat) (lineID lineID' : TraceLineID) : Prop where
  needed : T.Needed lineID
  first : T.firstOf T.turns lineID = some i
  least : ∀ lineID1, T.coverers lineID1 = T.coverers lineID →
    lineID1 = lineID ∨ lineID.Before lineID1
  covers : T.Covers i lineID'
  subset : ∀ j, j < T.size → T.Covers j lineID' → T.Covers j lineID
  negative : ∀ j, j < T.size → T.Covers j lineID → ¬T.Covers j lineID' →
    ((T.trace j).counterOf lineID').getD 0 < 0
  proper : ∃ j, j < T.size ∧ T.Covers j lineID ∧ ¬T.Covers j lineID'
  /-- No group is made for the second line before. -/
  before : ∀ lineID1, T.coverers lineID1 = T.coverers lineID' → lineID.Before lineID1
  /-- The test is not included before. -/
  own : ∀ lineID1, T.OwnLine i lineID1 → lineID.Before lineID1

def TestSet.TakesNone : Prop :=
  ∀ i lineID lineID', ¬T.TakesIn i lineID lineID'

end Problem

section First

variable {T : TestSet} {l : List Nat} {i j : Nat} {lineID : TraceLineID}

theorem firstOf_append (h : j ∈ T.firstOf l lineID) (l' : List Nat) :
    j ∈ T.firstOf (l ++ l') lineID := by
  rw [TestSet.firstOf, List.find?_append, ← TestSet.firstOf, Option.mem_def.mp h]
  rfl

theorem firstOf_fresh (hfresh : ∀ i ∈ l, ¬T.Covers i lineID) (hcover : T.Covers j lineID)
    (l' : List Nat) :
    T.firstOf (l ++ j :: l') lineID = some j := by
  have hnone : l.find? (fun i => decide (T.Covers i lineID)) = none :=
    List.find?_eq_none.mpr fun i hi => by simpa using hfresh i hi
  rw [TestSet.firstOf, List.find?_append, hnone, Option.none_or, List.find?_cons_of_pos]
  exact decide_eq_true hcover

theorem mem_of_firstOf (h : j ∈ T.firstOf l lineID) : j ∈ l :=
  List.mem_of_find?_eq_some h

theorem covers_of_firstOf (h : j ∈ T.firstOf l lineID) : T.Covers j lineID :=
  of_decide_eq_true (List.find?_some (p := fun i => decide (T.Covers i lineID)) h)

theorem lt_size_of_mem_turns (h : i ∈ T.turns) : i < T.size := by
  have harray := (order_perm _ _ _).subset h
  exact List.mem_range.mp ((order_perm _ _ _).subset (List.mem_of_mem_filter harray))

theorem TestSet.TakesIn.covers_first {lineID' : TraceLineID} (h : T.TakesIn i lineID lineID') :
    T.Covers i lineID :=
  covers_of_firstOf (Option.mem_def.mpr h.first)

theorem TestSet.TakesIn.lt_size {lineID' : TraceLineID} (h : T.TakesIn i lineID lineID') :
    i < T.size :=
  lt_size_of_mem_turns (mem_of_firstOf (Option.mem_def.mpr h.first))

/-- The lines that are compared with a covered line are among the lines of the test. -/
theorem forall_class_iff (hi : i < T.size) (hcover : T.Covers i lineID)
    {Property : TraceLineID → Prop} :
    (∀ lineID1, T.coverers lineID1 = T.coverers lineID → Property lineID1) ↔
      ∀ lineID1 ∈ coveredLines (T.trace i), T.coverers lineID1 = T.coverers lineID →
        Property lineID1 := by
  refine ⟨fun h lineID1 _ => h lineID1, fun h lineID1 hclass => h lineID1 ?_ hclass⟩
  have hmem : i ∈ T.coverers lineID1 := hclass ▸ TestSet.mem_coverers.mpr ⟨hi, hcover⟩
  exact mem_coveredLines.mpr (TestSet.mem_coverers.mp hmem).2

instance (T : TestSet) (i : Nat) (lineID lineID' : TraceLineID) :
    Decidable (T.TakesIn i lineID lineID') :=
  decidable_of_iff (T.Needed lineID ∧ T.firstOf T.turns lineID = some i ∧
      (∀ lineID1 ∈ coveredLines (T.trace i), T.coverers lineID1 = T.coverers lineID →
        lineID1 = lineID ∨ lineID.Before lineID1) ∧
      T.Covers i lineID' ∧
      (∀ j, j < T.size → T.Covers j lineID' → T.Covers j lineID) ∧
      (∀ j, j < T.size → T.Covers j lineID → ¬T.Covers j lineID' →
        ((T.trace j).counterOf lineID').getD 0 < 0) ∧
      (∃ j, j < T.size ∧ T.Covers j lineID ∧ ¬T.Covers j lineID') ∧
      (∀ lineID1 ∈ coveredLines (T.trace i), T.coverers lineID1 = T.coverers lineID' →
        lineID.Before lineID1) ∧
      ∀ lineID1 ∈ coveredLines (T.trace i), T.OwnLine i lineID1 → lineID.Before lineID1) (by
    constructor
    · rintro ⟨hneeded, hfirst, hleast, hcover, hsubset, hnegative, hproper, hbefore, hown⟩
      have hmem := Option.mem_def.mpr hfirst
      have hi := lt_size_of_mem_turns (mem_of_firstOf hmem)
      exact ⟨hneeded, hfirst, (forall_class_iff hi (covers_of_firstOf hmem)).mpr hleast, hcover,
        hsubset, hnegative, hproper, (forall_class_iff hi hcover).mpr hbefore,
        fun lineID1 h => hown lineID1 (mem_coveredLines.mpr h.2.1) h⟩
    · intro h
      exact ⟨h.needed, h.first, fun lineID1 _ => h.least lineID1, h.covers, h.subset, h.negative,
        h.proper, fun lineID1 _ => h.before lineID1, fun lineID1 _ => h.own lineID1⟩)

instance (T : TestSet) : Decidable T.TakesNone :=
  decidable_of_iff (∀ i, i < T.size → ∀ lineID ∈ coveredLines (T.trace i),
      ∀ lineID' ∈ coveredLines (T.trace i), ¬T.TakesIn i lineID lineID')
    ⟨fun h i lineID lineID' htakes => h i htakes.lt_size lineID
        (mem_coveredLines.mpr htakes.covers_first) lineID' (mem_coveredLines.mpr htakes.covers) htakes,
      fun h i _ lineID _ lineID' _ => h i lineID lineID'⟩

end First

/--
What holds in the grouping loop after the turns of `done`, where `reps` has a line for every
group.
-/
structure InTurn (T : TestSet) (s : State) (reps : List TraceLineID) (done : List Nat) : Prop where
  turns : T.turns = done ++ order (fun done i => decide (T.Leaves done i)) done
    ((s.testTraces.drop s.current).map TestTraceInfo.test)
  fresh : ∀ i lineID t, i ∈ done → T.Covers i lineID → t ∈ s.testTraces → ¬t.trace.Covers lineID
  /-- Lines of one class are cleared together. -/
  closed : ∀ t lineID lineID', t ∈ s.testTraces → T.coverers lineID = T.coverers lineID' →
    t.trace.Covers lineID → t.trace.Covers lineID'
  /-- A line that is cleared is in a group, or it was taken out. -/
  cleared : ∀ t lineID, t ∈ s.testTraces → T.Covers t.test lineID → T.Needed lineID →
    ¬t.trace.Covers lineID →
      (∃ rep ∈ reps, T.Covers t.test rep) ∨ ∃ j ∈ T.firstOf done lineID, T.TakesOut j lineID
  grouped : ∀ rep ∈ reps,
    ∃ j ∈ T.firstOf (done ++ ((s.testTraces.drop s.current).map TestTraceInfo.test).take 1) rep,
      ¬T.TakesOut j rep

theorem Filtering.inTurn {T : TestSet} {s : State} (h : Filtering T s)
    (hend : s.testTraces.length ≤ s.current) :
    InTurn T { s with current := 0 } [] [] := by
  have hlines : ∀ t lineID, t ∈ s.testTraces → T.Covers t.test lineID → T.Needed lineID →
      t.trace.Covers lineID := by
    intro t lineID ht hcover hneeded
    rcases h.tracked.lines t.test lineID (h.tracked.test_lt ht) hcover with
      ⟨j, hj, hcoverj⟩ | huntouched | ⟨k, hgroup⟩
    · have hlt := h.tracked.inRange j (List.mem_append_left _ hj)
      exact absurd hcoverj (hneeded j hlt (h.zeros j hj))
    · exact (huntouched t ht).mpr hcover
    · have hlt := (hgroup t ht).1
      rw [h.noGroups t ht] at hlt
      exact absurd hlt (Nat.not_lt_zero k)
  refine ⟨?_, ?_, ?_, ?_, ?_⟩
  · rw [List.drop_zero, h.array_eq hend]
    rfl
  · intro i lineID t hi
    cases hi
  · intro t lineID lineID' ht hclass hcover
    have hmem : t.test ∈ T.coverers lineID := TestSet.mem_coverers.mpr
      ⟨h.tracked.test_lt ht, (h.tracked.derived t ht).covers hcover⟩
    rw [hclass, TestSet.mem_coverers] at hmem
    refine hlines t lineID' ht hmem.2 fun z hz hweight hcoverz => ?_
    have hmemz : z ∈ T.coverers lineID := hclass ▸ TestSet.mem_coverers.mpr ⟨hz, hcoverz⟩
    rcases h.all z hz with hincluded | ⟨t', ht', rfl⟩
    · exact h.tracked.cleared lineID t ⟨z, hincluded, (TestSet.mem_coverers.mp hmemz).2⟩ ht hcover
    · have hpassed := h.passed t' (by rwa [List.take_of_length_le hend])
      rw [(h.tracked.derived t' ht').weight] at hpassed
      exact hpassed hweight
  · exact fun t lineID ht hcover hneeded hnot => absurd (hlines t lineID ht hcover hneeded) hnot
  · intro rep hrep
    cases hrep

section Rounds

variable {T : TestSet} {s s' : State} {reps : List TraceLineID} {done : List Nat}
variable {previous further : List TestTraceInfo} {traceInfo : TestTraceInfo}
variable {lineID : TraceLineID}

theorem InTurn.turns_eq (h : InTurn T s reps done) (hat : AtCurrent s previous traceInfo further) :
    ∃ rest, T.turns = done ++ traceInfo.test :: rest := by
  obtain ⟨rest, hrest⟩ := order_cons (fun done i => decide (T.Leaves done i)) done
    (further.map TestTraceInfo.test) traceInfo.test
  have hturns := h.turns
  rw [hat.drop, List.map_cons, hrest] at hturns
  exact ⟨rest, hturns⟩

/-- The current test is the first one to cover what is left of it. -/
theorem InTurn.firstOf_current (h : InTurn T s reps done) (hgrouping : Grouping T s)
    (hat : AtCurrent s previous traceInfo further) (hcover : traceInfo.trace.Covers lineID)
    (rest : List Nat) :
    T.firstOf (done ++ traceInfo.test :: rest) lineID = some traceInfo.test := by
  have hself : traceInfo ∈ s.testTraces := by simp [hat.traces]
  exact firstOf_fresh (fun i hi hc => h.fresh i lineID traceInfo hi hc hself hcover)
    ((hgrouping.tracked.derived traceInfo hself).covers hcover) rest

/-- Lines of its own are left in the current trace. -/
theorem Essential.own_current (h : Essential T s.includedTests s.testTraces reps)
    (hgrouping : Grouping T s) (hat : AtCurrent s previous traceInfo further)
    (hown : T.OwnLine traceInfo.test lineID) :
    traceInfo.trace.Covers lineID := by
  have hself : traceInfo ∈ s.testTraces := by simp [hat.traces]
  have hnodup := List.nodup_append.mp hgrouping.tracked.nodup
  rcases h.own traceInfo.test lineID (hgrouping.tracked.test_lt hself) hown with
    hincluded | ⟨t, ht, htest, hcover⟩
  · exact absurd rfl (hnodup.2.2 _ hincluded _ (List.mem_map_of_mem hself))
  · rwa [← List.inj_on_of_nodup_map hnodup.2.1 ht hself htest]

section

variable (h : InTurn T s reps done)
include h

theorem InTurn.grouped_current
    (hat : AtCurrent s previous traceInfo further) {rep : TraceLineID} (hrep : rep ∈ reps) :
    ∃ j ∈ T.firstOf (done ++ [traceInfo.test]) rep, ¬T.TakesOut j rep := by
  have hgrouped := h.grouped rep hrep
  rwa [hat.drop] at hgrouped

/-- A test of which nothing is left leaves the array. -/
theorem InTurn.leaves_of_discard
    (hessential : Essential T s.includedTests s.testTraces reps)
    (hat : AtCurrent s previous traceInfo further)
    (hlines : ∀ lineID, ¬traceInfo.trace.Covers lineID) (hgroups : traceInfo.groupsCovered = 0) :
    T.Leaves done traceInfo.test := by
  have hself : traceInfo ∈ s.testTraces := by simp [hat.traces]
  right
  intro lineID hcover hneeded
  rcases h.cleared traceInfo lineID hself hcover hneeded (hlines lineID) with hrep | htaken
  · exact absurd hgroups ((hessential.groupsCovered_ne_zero_iff hself).mpr hrep)
  · exact htaken

theorem InTurn.stays_of_pass (hgrouping : Grouping T s)
    (hessential : Essential T s.includedTests s.testTraces reps)
    (hat : AtCurrent s previous traceInfo further)
    (hlines : ∀ lineID, ¬traceInfo.trace.Covers lineID) (hgroups : traceInfo.groupsCovered ≠ 0) :
    ¬T.Leaves done traceInfo.test := by
  have hself : traceInfo ∈ s.testTraces := by simp [hat.traces]
  rintro (⟨lineID, hown⟩ | htaken)
  · exact hlines lineID (hessential.own_current hgrouping hat hown)
  · obtain ⟨rep, hrep, hcover⟩ := (hessential.groupsCovered_ne_zero_iff hself).mp hgroups
    obtain ⟨j, hj, hnot⟩ := h.grouped_current hat hrep
    obtain ⟨j', hj', htakes⟩ := htaken rep hcover (hessential.needed rep hrep)
    have heq := Option.mem_unique hj (firstOf_append hj' _)
    exact hnot (heq ▸ htakes)

/-- A round that comes to a negative counter takes in a line that it should not. -/
theorem InTurn.noNegativeCounter (hgrouping : Grouping T s)
    (hessential : Essential T s.includedTests s.testTraces reps)
    (hnot : T.TakesNone) :
    NoNegativeCounter s := by
  intro traceInfo lineID lineID' hget hpicked hcover' hadmits t ht hcovert
  obtain ⟨previous, further, hat⟩ := atCurrent_of_getElem hget
  rw [hat.drop_succ] at hadmits ht
  have htracked := hgrouping.tracked
  have hself : traceInfo ∈ s.testTraces := by simp [hat.traces]
  have hmem : t ∈ s.testTraces := by simp [hat.traces, ht]
  obtain ⟨hcover, hleast⟩ := picked_spec (htracked.derived traceInfo hself).grouped hpicked
  obtain ⟨rest, hturns⟩ := h.turns_eq hat
  by_contra hnegative
  -- what the traces behind the current one have for the two lines
  have hcases : ∀ t' ∈ s.testTraces, t' ∈ previous ∨ t' = traceInfo ∨ t' ∈ further := by
    intro t' ht'
    simpa [hat.traces] using ht'
  have hdead : ∀ t' ∈ previous, ∀ line, ¬t'.trace.Covers line :=
    fun t' ht' => (hgrouping.passed t' (hat.take ▸ ht')).1
  have hnotCovers : ¬T.Covers t.test lineID' := by
    intro hc
    obtain ⟨n, hn, hpos⟩ := (hit_iff _).mp
      ((htracked.untouched hself hcover' t hmem).mpr hc)
    rw [hn] at hnegative
    exact hnegative hpos.le
  have hne : ∀ {line}, T.coverers line = T.coverers lineID → ¬T.OwnLine traceInfo.test line := by
    intro line hclass hown
    have hmemt : t.test ∈ T.coverers line := hclass ▸ TestSet.mem_coverers.mpr
      ⟨htracked.test_lt hmem, (htracked.derived t hmem).covers hcovert⟩
    have heq := hown.2.2 _ (htracked.test_lt hmem) (TestSet.mem_coverers.mp hmemt).2
    exact hnotCovers (heq ▸ (htracked.derived traceInfo hself).covers hcover')
  refine hnot traceInfo.test lineID lineID' ⟨hgrouping.needed hself hcover, ?_, ?_,
    (htracked.derived traceInfo hself).covers hcover', ?_, ?_,
    ⟨t.test, htracked.test_lt hmem, (htracked.derived t hmem).covers hcovert, hnotCovers⟩, ?_, ?_⟩
  · rw [hturns]
    exact h.firstOf_current hgrouping hat hcover rest
  · intro line hclass
    by_cases heq : line = lineID
    · exact Or.inl heq
    · exact Or.inr ((TraceLineID.before_or_before heq).resolve_left
        (hleast line (h.closed traceInfo lineID line hself hclass.symm hcover)))
  · intro j hj hc
    obtain ⟨t', ht', rfl, hc'⟩ := (htracked.mem_coverers_iff hself hcover' j).mp
      (TestSet.mem_coverers.mpr ⟨hj, hc⟩)
    rcases hcases t' ht' with hprevious | rfl | hfurther
    · exact absurd hc' (hdead t' hprevious lineID')
    · exact (htracked.derived t' ht').covers hcover
    · by_contra hnone
      have hadmit := hadmits t' hfurther
      rw [Admits, if_neg fun hc1 => hnone ((htracked.derived t' ht').covers hc1)] at hadmit
      exact hadmit hc'
  · intro j hj hc hnone
    obtain ⟨t', ht', rfl, hc'⟩ := (htracked.mem_coverers_iff hself hcover j).mp
      (TestSet.mem_coverers.mpr ⟨hj, hc⟩)
    rcases hcases t' ht' with hprevious | rfl | hfurther
    · exact absurd hc' (hdead t' hprevious lineID)
    · exact absurd ((htracked.derived t' ht').covers hcover') hnone
    · have hadmit := hadmits t' hfurther
      rw [Admits, if_pos hc'] at hadmit
      cases hcounter : t'.trace.counterOf lineID' with
      | none => simp [hcounter] at hadmit
      | some c =>
        have hloaded := (htracked.derived t' ht').counter lineID' c hcounter
        rw [hcounter, Option.getD_some] at hadmit
        rw [hloaded, Option.getD_some]
        have hle : ¬0 < c := fun hpos => hnone ((hit_iff _).mpr ⟨c, hloaded, hpos⟩)
        omega
  · intro line hclass
    have hline := h.closed traceInfo lineID' line hself hclass.symm hcover'
    refine (TraceLineID.before_or_before ?_).resolve_right (hleast line hline)
    rintro rfl
    have hmemt : t.test ∈ T.coverers lineID := TestSet.mem_coverers.mpr
      ⟨htracked.test_lt hmem, (htracked.derived t hmem).covers hcovert⟩
    rw [hclass] at hmemt
    exact hnotCovers (TestSet.mem_coverers.mp hmemt).2
  · intro line hown
    refine (TraceLineID.before_or_before ?_).resolve_right
      (hleast line (hessential.own_current hgrouping hat hown))
    rintro rfl
    exact hne rfl hown

/-- The turn of a test ends without another group. -/
theorem InTurn.next (hgrouping : Grouping T s)
    (hat : AtCurrent s previous traceInfo further)
    (hlines : ∀ lineID, ¬traceInfo.trace.Covers lineID) {s' : State}
    (hsub : s'.testTraces ⊆ s.testTraces)
    (hturns : T.turns = (done ++ [traceInfo.test]) ++ order (fun done i => decide (T.Leaves done i))
      (done ++ [traceInfo.test]) ((s'.testTraces.drop s'.current).map TestTraceInfo.test)) :
    InTurn T s' reps (done ++ [traceInfo.test]) := by
  have hself : traceInfo ∈ s.testTraces := by simp [hat.traces]
  refine ⟨hturns, ?_, fun t lineID lineID' ht => h.closed t lineID lineID' (hsub ht), ?_, ?_⟩
  · intro i lineID t hi hcover ht hc
    rcases List.mem_append.mp hi with hi | hi
    · exact h.fresh i lineID t hi hcover (hsub ht) hc
    · rw [List.mem_singleton.mp hi] at hcover
      exact hlines lineID ((hgrouping.tracked.untouched (hsub ht) hc traceInfo hself).mpr hcover)
  · intro t lineID ht hcover hneeded hnot
    rcases h.cleared t lineID (hsub ht) hcover hneeded hnot with hrep | ⟨j, hj, htakes⟩
    · exact Or.inl hrep
    · exact Or.inr ⟨j, firstOf_append hj _, htakes⟩
  · intro rep hrep
    obtain ⟨j, hj, hnot⟩ := h.grouped_current hat hrep
    exact ⟨j, firstOf_append hj _, hnot⟩

/-- A group is made for the first line that is left in the current trace. -/
theorem InTurn.group (hgrouping : Grouping T s)
    (hessential : Essential T s.includedTests s.testTraces reps)
    (hat : AtCurrent s previous traceInfo further) {groupTrace : Trace}
    (hpicked : traceGetLineCovered traceInfo.trace = some (some lineID))
    (hgroup : IsGroup traceInfo further lineID groupTrace)
    (hexact : ExactGroup s.testTraces lineID groupTrace) :
    InTurn T { s with testTraces := s.testTraces.map (regroup lineID groupTrace) }
      (reps ++ [lineID]) done := by
  have hself : traceInfo ∈ s.testTraces := by simp [hat.traces]
  have htests : ((s.testTraces.map (regroup lineID groupTrace)).drop s.current).map
      TestTraceInfo.test = (s.testTraces.drop s.current).map TestTraceInfo.test := by
    rw [← List.map_drop, List.map_map]
    exact List.map_congr_left fun t _ => regroup_test lineID groupTrace t
  have hiff := hgroup.covers_iff hat hexact
  obtain ⟨hcover, hleast⟩ :=
    picked_spec (hgrouping.tracked.derived traceInfo hself).grouped hpicked
  refine ⟨?_, ?_, ?_, ?_, ?_⟩
  · rw [htests]
    exact h.turns
  · intro i lineID' t' hi hcover' ht' hc
    obtain ⟨t, ht, rfl⟩ := List.mem_map.mp ht'
    exact h.fresh i lineID' t hi hcover' ht ((regroup_covers _ _ _ _).mp hc).1
  · intro t' line line' ht' hclass hc
    obtain ⟨t, ht, rfl⟩ := List.mem_map.mp ht'
    rw [regroup_covers] at hc ⊢
    refine ⟨h.closed t line line' ht hclass hc.1, fun hnew => hc.2 ⟨hnew.1, ?_⟩⟩
    obtain ⟨hself', hall⟩ := (hiff line').mp hnew.2
    refine (hiff line).mpr ⟨h.closed traceInfo line' line hself hclass.symm hself', ?_⟩
    intro t1 ht1
    rw [hall t1 ht1]
    exact ⟨h.closed t1 line' line ht1 hclass.symm, h.closed t1 line line' ht1 hclass⟩
  · intro t' lineID' ht' hcover' hneeded hnot
    obtain ⟨t, ht, rfl⟩ := List.mem_map.mp ht'
    rw [regroup_test] at hcover' ⊢
    by_cases hc : t.trace.Covers lineID'
    · rw [regroup_covers, not_and_not_right] at hnot
      exact Or.inl ⟨lineID, by simp, (hgrouping.tracked.derived t ht).covers (hnot hc).1⟩
    · rcases h.cleared t lineID' ht hcover' hneeded hc with ⟨rep, hrep, hcovers⟩ | htaken
      · exact Or.inl ⟨rep, List.mem_append_left _ hrep, hcovers⟩
      · exact Or.inr htaken
  · intro rep hrep
    rw [htests]
    rcases List.mem_append.mp hrep with hrep | hrep
    · exact h.grouped rep hrep
    · rw [List.mem_singleton.mp hrep, hat.drop]
      refine ⟨traceInfo.test, h.firstOf_current hgrouping hat hcover [], ?_⟩
      rintro ⟨own, hown, hbefore⟩
      exact hleast own (hessential.own_current hgrouping hat hown)
        (hbefore lineID ((hgrouping.tracked.derived traceInfo hself).covers hcover) rfl)

/-- The current test is included for a line of its own. -/
theorem InTurn.force (hgrouping : Grouping T s)
    (hat : AtCurrent s previous traceInfo further) {groupTrace : Trace}
    (hpicked : traceGetLineCovered traceInfo.trace = some (some lineID))
    (hgroup : IsGroup traceInfo further lineID groupTrace)
    (honly : ∀ t ∈ further, ¬t.trace.Covers lineID) :
    InTurn T
      { s with
        includedTests := s.includedTests ++ [traceInfo.test]
        testTraces := (withoutIncluded (previous.map (regroup lineID groupTrace))
          (regroup lineID groupTrace traceInfo)
          (further.map (regroup lineID groupTrace))).map popGroup }
      reps (done ++ [traceInfo.test]) := by
  have htracked := hgrouping.tracked
  have hself : traceInfo ∈ s.testTraces := by simp [hat.traces]
  obtain ⟨hcover, hleast⟩ := picked_spec (htracked.derived traceInfo hself).grouped hpicked
  have hown := hgrouping.ownLine_of_force hat hcover honly
  have hiff := hgroup.covers_iff hat (hgrouping.exact_of_only hat hcover hgroup honly)
  have hmem : ∀ {t}, t ∈ previous ++ further → t ∈ s.testTraces :=
    fun ht => hat.perm.symm.subset (List.mem_cons_of_mem _ ht)
  have hcovers : ∀ {t}, t ∈ previous ++ further → ∀ line, _ ↔ _ := fun ht =>
    @forced_covers _ traceInfo lineID groupTrace (hgrouping.not_covers_of_force hat honly ht)
  -- what is left of the current trace is closed, too
  have hclosed : ∀ line line', T.coverers line = T.coverers line' →
      (regroup lineID groupTrace traceInfo).trace.Covers line →
      (regroup lineID groupTrace traceInfo).trace.Covers line' := by
    intro line line' hclass hc
    rw [regroup_covers] at hc ⊢
    refine ⟨h.closed traceInfo line line' hself hclass hc.1, fun hnew => hc.2 ⟨hnew.1, ?_⟩⟩
    obtain ⟨-, hall⟩ := (hiff line').mp hnew.2
    refine (hiff line).mpr ⟨hc.1, fun t1 ht1 => (hall t1 ht1).trans ?_⟩
    exact ⟨h.closed t1 line' line ht1 hclass.symm, h.closed t1 line line' ht1 hclass⟩
  refine ⟨?_, ?_, ?_, ?_, ?_⟩
  · have hturns := h.turns
    have hleaves : T.Leaves done traceInfo.test := Or.inl ⟨lineID, hown⟩
    rw [hat.drop, List.map_cons, order_of_leaves _ _ _ (decide_eq_true hleaves)] at hturns
    have htests : ∀ l : List TestTraceInfo, ((((l.map (regroup lineID groupTrace)).map
        (clearMasked (regroup lineID groupTrace traceInfo).trace)).map popGroup).map
          TestTraceInfo.test) = l.map TestTraceInfo.test := by
      intro l
      rw [List.map_map, List.map_map, List.map_map]
      exact List.map_congr_left fun t _ => regroup_test lineID groupTrace t
    rw [withoutIncluded, List.map_append, hat.current, List.drop_left' (by simp),
      ← lastFirst_map, ← lastFirst_map, htests, List.append_assoc]
    exact hturns
  · intro i line t' hi hcover' ht' hc
    obtain ⟨t, ht, rfl⟩ := mem_forced ht'
    obtain ⟨hc, hnot⟩ := (hcovers ht line).mp hc
    rcases List.mem_append.mp hi with hi | hi
    · exact h.fresh i line t hi hcover' (hmem ht) hc
    · rw [List.mem_singleton.mp hi] at hcover'
      have hline := (htracked.untouched (hmem ht) hc traceInfo hself).mpr hcover'
      refine hnot ((regroup_covers _ _ _ _).mpr ⟨hline, fun hnew => ?_⟩)
      exact hgrouping.not_covers_of_force hat honly ht
        ((((hiff line).mp hnew.2).2 t (hmem ht)).mpr hc)
  · intro t' line line' ht' hclass hc
    obtain ⟨t, ht, rfl⟩ := mem_forced ht'
    obtain ⟨hc, hnot⟩ := (hcovers ht line).mp hc
    exact (hcovers ht line').mpr ⟨h.closed t line line' (hmem ht) hclass hc,
      fun hc' => hnot (hclosed line' line hclass.symm hc')⟩
  · intro t' line ht' hcover' hneeded hnot
    obtain ⟨t, ht, rfl⟩ := mem_forced ht'
    have htest : (popGroup (clearMasked (regroup lineID groupTrace traceInfo).trace
        (regroup lineID groupTrace t))).test = t.test := regroup_test _ _ _
    rw [htest] at hcover' ⊢
    by_cases hc : t.trace.Covers line
    · -- the line is taken out with the current test
      rw [hcovers ht line, not_and_not_right] at hnot
      have hline := ((regroup_covers _ _ _ _).mp (hnot hc)).1
      refine Or.inr ⟨traceInfo.test, h.firstOf_current hgrouping hat hline [], lineID, hown, ?_⟩
      intro line' _ hclass
      have hline' := h.closed traceInfo line line' hself hclass.symm hline
      refine (TraceLineID.before_or_before ?_).resolve_right (hleast line' hline')
      rintro rfl
      have hmem' : t.test ∈ T.coverers lineID :=
        hclass ▸ TestSet.mem_coverers.mpr ⟨htracked.test_lt (hmem ht), hcover'⟩
      exact hat.test_ne htracked ht (hown.2.2 _ (htracked.test_lt (hmem ht))
        (TestSet.mem_coverers.mp hmem').2)
    · rcases h.cleared t line (hmem ht) hcover' hneeded hc with hrep | ⟨j, hj, htakes⟩
      · exact Or.inl hrep
      · exact Or.inr ⟨j, firstOf_append hj _, htakes⟩
  · intro rep hrep
    obtain ⟨j, hj, hnot⟩ := h.grouped_current hat hrep
    exact ⟨j, firstOf_append hj _, hnot⟩

/-- The step lemma. -/
theorem GroupingStep.inTurn (hgrouping : Grouping T s)
    (hessential : Essential T s.includedTests s.testTraces reps) (hcondition : NoNegativeCounter s)
    (hat : AtCurrent s previous traceInfo further)
    (hstep : GroupingStep s previous traceInfo further s') :
    ∃ reps' done', Essential T s'.includedTests s'.testTraces reps' ∧ InTurn T s' reps' done' := by
  have hturns := h.turns
  rw [hat.drop, List.map_cons] at hturns
  cases hstep with
  | discard hlines hgroups =>
    refine ⟨reps, _, hessential.discard hat hlines, h.next hgrouping hat hlines ?_ ?_⟩
    · intro t ht
      exact hat.perm.symm.subset (List.mem_cons_of_mem _
        (((lastFirst_perm further).append_left previous).subset ht))
    · rw [order_of_leaves _ _ _
        (decide_eq_true (h.leaves_of_discard hessential hat hlines hgroups))] at hturns
      rw [hat.current, List.drop_left' rfl, ← lastFirst_map, List.append_assoc]
      exact hturns
  | pass hlines hgroups =>
    refine ⟨reps, _, hessential, h.next hgrouping hat hlines (fun t ht => ht) ?_⟩
    rw [order_of_stays _ _ _ (by
      simpa using h.stays_of_pass hgrouping hessential hat hlines hgroups)] at hturns
    rw [hat.drop_succ, List.append_assoc]
    exact hturns
  | @group lineID groupTrace hpicked hline hgroup hshared =>
    have hexact := hcondition.exact hgrouping hat hpicked hline hgroup
    exact ⟨_, done, hessential.group hgrouping hat hline hgroup hshared hexact,
      h.group hgrouping hessential hat hpicked hgroup hexact⟩
  | @force lineID groupTrace hpicked hline hgroup honly =>
    exact ⟨reps, _, hessential.force hgrouping hat hline honly,
      h.force hgrouping hat hpicked hgroup honly⟩

end

end Rounds

/-- The condition holds in all rounds when no line is taken in. -/
theorem groupingRun_inTurn {tests : List TestCoverageDesc}
    (hinv : ∀ test ∈ tests, test.trace.GroupInvariant)
    (hnot : (TestSet.ofTests tests).TakesNone) {s : State}
    (h : GroupingRun tests (fun _ => True) s) :
    GroupingRun tests NoNegativeCounter s ∧
      ∃ reps done, Essential (TestSet.ofTests tests) s.includedTests s.testTraces reps ∧
        InTurn (TestSet.ofTests tests) s reps done := by
  induction h with
  | start hfilter =>
    obtain ⟨s', hfilter', hs', hend⟩ := filterTests_spec hinv
    rw [hfilter] at hfilter'
    cases hfilter'
    exact ⟨.start hfilter, [], [], hs'.essential, hs'.inTurn hend⟩
  | round _ _ hbody ih =>
    obtain ⟨hrun, reps, done, hessential, hinTurn⟩ := ih
    have hgrouping := hrun.grouping hinv
    have hcondition := hinTurn.noNegativeCounter hgrouping hessential hnot
    obtain ⟨previous, traceInfo, further, hat, hstep⟩ := hgrouping.shaped.step hbody
    exact ⟨.round hrun hcondition hbody, hstep.inTurn hinTurn hgrouping hessential hcondition hat⟩

end TestSetOptimizer

open TestSetOptimizer

section Consistent

variable {tests : List TestCoverageDesc}

/-- Tests of which no two disagree have no line taken in, in any order. -/
theorem CountersConsistent.takesNone (hcounters : CountersConsistent tests)
    (hinv : ∀ test ∈ tests, test.trace.GroupInvariant) :
    (TestSet.ofTests tests).TakesNone := by
  intro i lineID lineID' h
  have hneeded' : (TestSet.ofTests tests).Needed lineID' := fun z hz hweight hcover =>
    h.needed z hz hweight (h.subset z hz hcover)
  obtain ⟨j, hj, hcoverj, hnot⟩ := h.proper
  have hgeti := List.getElem?_eq_getElem (l := tests) h.lt_size
  have hgetj := List.getElem?_eq_getElem (l := tests) hj
  have hnonneg := hcounters _ _ lineID lineID' (List.mem_of_getElem? hgeti)
    (List.mem_of_getElem? hgetj) (ofTests_needed hinv h.needed) (ofTests_needed hinv hneeded')
    ((ofTests_covers hinv hgeti lineID).mp h.covers_first)
    ((ofTests_covers hinv hgeti lineID').mp h.covers)
    ((ofTests_covers hinv hgetj lineID).mp hcoverj)
  have hnegative := h.negative j hj hcoverj hnot
  rw [ofTests_counterOf hinv hgetj] at hnegative
  omega

end Consistent

/-- The covered lines stay the same when no line is taken in with a negative counter. -/
theorem optimize_covers
    (sorting : TraceSort) (tests : List TestCoverageDesc)
    (hinv : ∀ test ∈ tests, test.trace.GroupInvariant)
    (hcounters : (TestSet.ofTests tests).TakesNone) :
    ∃ indices : List Nat, indices.Pairwise (· < ·) ∧
      optimize sorting tests = some (indices.filterMap fun i => tests[i]?) ∧
      (indices.filterMap fun i => tests[i]?).Sublist tests ∧
      (∀ i test, tests[i]? = some test → test.weight = 0 → i ∈ indices) ∧
      ∀ lineID, (∃ test, test ∈ indices.filterMap (fun i => tests[i]?) ∧ test.Covers lineID) ↔
        ∃ test ∈ tests, test.Covers lineID := by
  obtain ⟨s, hs, hrun, hend⟩ := groupTests_run hinv
  have hgrouping := (groupingRun_inTurn hinv hcounters hrun).1.grouping hinv
  exact optimize_of_grouping sorting hinv hs hgrouping hend

/-- The test with the negative counter comes first, so that the counter is in no later trace. -/
theorem optimize_covers_twoLines :
    Trace.empty.read 0 (twoLinesText "18446744073709551615") = .ok (twoLinesTrace (-1)) ∧
      ∃ result, optimize .insertion [⟨twoLinesTrace (-1), 1⟩, ⟨twoLinesTrace 1, 2⟩] = some result ∧
        ∀ lineID, (∃ test ∈ result, test.Covers lineID) ↔
          ∃ test : TestCoverageDesc,
            test ∈ [⟨twoLinesTrace (-1), 1⟩, ⟨twoLinesTrace 1, 2⟩] ∧ test.Covers lineID := by
  have hinv : ∀ test : TestCoverageDesc,
      test ∈ [⟨twoLinesTrace (-1), 1⟩, ⟨twoLinesTrace 1, 2⟩] → test.trace.GroupInvariant := by
    intro test htest
    rcases List.mem_cons.mp htest with rfl | htest
    · exact Trace.groupInvariant_of_entries (by decide +kernel)
    · rw [List.mem_singleton.mp htest]
      exact Trace.groupInvariant_of_entries (by decide +kernel)
  obtain ⟨indices, -, hrun, -, -, hcovers⟩ := optimize_covers .insertion
    [⟨twoLinesTrace (-1), 1⟩, ⟨twoLinesTrace 1, 2⟩] hinv (by decide +kernel)
  exact ⟨by decide +kernel, _, hrun, hcovers⟩

/--
The second test has the counter `2 ^ 64 - 1`, which is read as `-1`, for a line of
the first one.  It is taken for a test that covers the line and replaces the first
one, which is heavier.
-/
theorem optimize_of_negative_counter :
    ¬∀ (sorting : TraceSort) (tests : List TestCoverageDesc),
      (∀ test ∈ tests,
        (∃ is, Trace.empty.read 0 is = .ok test.trace) ∧ test.trace.GroupInvariant ∧
          0 ≤ test.weight) →
      ∃ result, optimize sorting tests = some result ∧ result.Sublist tests ∧
        (∀ test ∈ tests, test.weight = 0 → test ∈ result) ∧
        ∀ lineID, (∃ test ∈ result, test.Covers lineID) ↔
          ∃ test ∈ tests, test.Covers lineID := by
  intro h
  obtain ⟨result, hrun, -, -, hcovers⟩ :=
    h .insertion [⟨twoLinesTrace 1, 2⟩, ⟨twoLinesTrace (-1), 1⟩] (by
      intro test htest
      rcases List.mem_cons.mp htest with rfl | htest
      · exact ⟨⟨twoLinesText "1", by decide +kernel⟩,
          Trace.groupInvariant_of_entries (by decide +kernel), by decide +kernel⟩
      · rw [List.mem_singleton.mp htest]
        exact ⟨⟨twoLinesText "18446744073709551615", by decide +kernel⟩,
          Trace.groupInvariant_of_entries (by decide +kernel), by decide +kernel⟩)
  have hresult : optimize .insertion [⟨twoLinesTrace 1, 2⟩, ⟨twoLinesTrace (-1), 1⟩] =
      some [⟨twoLinesTrace (-1), 1⟩] := by
    decide +kernel
  rw [hresult] at hrun
  cases hrun
  obtain ⟨test, htest, hcover⟩ := (hcovers ⟨⟨[], "/a.c".toList⟩, 2⟩).mpr
    ⟨⟨twoLinesTrace 1, 2⟩, by simp, by decide +kernel⟩
  rw [List.mem_singleton.mp htest] at hcover
  exact absurd hcover (by decide +kernel)

end Coverage
end KedrAux
