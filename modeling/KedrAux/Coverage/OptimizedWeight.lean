import KedrAux.Coverage.SearchPruning
import KedrAux.Coverage.TestTurns

/-!
# The weight of the result

When the result of `TestSetOptimizer::optimize` has the least weight.  Two parts of
the code can make it too heavy: the flags of a group stay set when the group is
covered by a test that is included later, so that the search covers the group once
more, and `setDropAndNext` leaves out the sets that differ from the current one in
the last trace.  The first happens when a line that a test with a line of its own covers
is put into a group in the turn of another test, or before that line.
-/

namespace KedrAux
namespace Coverage
variable {tests : List TestCoverageDesc}

namespace TestSetOptimizer

open RemovalOrder

section Problem

variable (T : TestSet)

/-- The line is left for the search: no test that has to be included covers it. -/
def TestSet.Open (lineID : TraceLineID) : Prop :=
  T.Needed lineID ∧ ∀ j, j < T.size → T.Covers j lineID → ¬T.HasOwn j

instance (lineID : TraceLineID) : Decidable (T.Open lineID) :=
  inferInstanceAs (Decidable (_ ∧ ∀ j, j < T.size → T.Covers j lineID → ¬T.HasOwn j))

/-- The classes of open lines of the test: lines covered by the same tests are in one class. -/
def TestSet.classes (i : Nat) : Finset (Finset Nat) :=
  ((coveredLines (T.trace i)).filter fun lineID => T.Open lineID).image T.coverers

def TestSet.openClasses : Finset (Finset Nat) :=
  (Finset.range T.size).biUnion T.classes

/-- The weight of the test per class of lines. -/
def TestSet.price (i : Nat) : Rat :=
  T.weight i / (T.classes i).card

/-- All tests leave the array, so that nothing is left for the search. -/
def TestSet.AllLeave : Prop :=
  ∀ i, i < T.size → T.Leaves T.turns i

instance : Decidable T.AllLeave :=
  inferInstanceAs (Decidable (∀ i, i < T.size → T.Leaves T.turns i))

def TestSet.SharedByOwn (lineID : TraceLineID) : Prop :=
  ∃ j, j < T.size ∧ T.Covers j lineID ∧ T.HasOwn j ∧ ¬T.OwnLine j lineID

instance (lineID : TraceLineID) : Decidable (T.SharedByOwn lineID) :=
  inferInstanceAs (Decidable (∃ j, j < T.size ∧ T.Covers j lineID ∧ T.HasOwn j ∧
    ¬T.OwnLine j lineID))

/--
The lines that a test with a line of its own shares with others are taken out by the first test that
covers them, so that they make no group.
-/
def TestSet.OwnFirst : Prop :=
  ∀ i lineID, T.Needed lineID → T.firstOf T.turns lineID = some i → T.SharedByOwn lineID →
    T.TakesOut i lineID

instance : Decidable T.OwnFirst :=
  decidable_of_iff (∀ i, i < T.size → ∀ lineID ∈ coveredLines (T.trace i), T.Needed lineID →
      T.firstOf T.turns lineID = some i → T.SharedByOwn lineID → T.TakesOut i lineID)
    ⟨fun h i lineID hneeded hfirst => h i
        (lt_size_of_mem_turns (mem_of_firstOf (Option.mem_def.mpr hfirst))) lineID
        (mem_coveredLines.mpr (covers_of_firstOf (Option.mem_def.mpr hfirst))) hneeded hfirst,
      fun h i _ lineID _ => h i lineID⟩

/-- The tests with open lines in an order in which the search can get them. -/
structure TestSet.SearchOrder (l : List Nat) : Prop where
  nodup : l.Nodup
  mem_iff : ∀ i, i ∈ l ↔ i < T.size ∧ (T.classes i).Nonempty
  sorted : l.Pairwise fun i j => T.price i ≤ T.price j

/-- The search through the tests of the list finds this set of their positions. -/
def TestSet.FindableIn (l o : List Nat) : Prop :=
  CoverSearch.Findable l.length (fun k => (l[k]?).elim 0 T.weight)
    (fun k => (l[k]?).elim ∅ T.classes) T.openClasses o

instance (l o : List Nat) : Decidable (T.FindableIn l o) :=
  inferInstanceAs (Decidable (CoverSearch.Findable _ _ _ _ o))

/-- Whatever the order of tests of the same price is, the search finds a cheapest set. -/
def TestSet.SearchFinds : Prop :=
  ∀ l, T.SearchOrder l → ∃ o, T.FindableIn l o

theorem searchOrder_iff (l : List Nat) :
    T.SearchOrder l ↔
      l ∈ ((List.range T.size).filter fun i => (T.classes i).Nonempty).permutations' ∧
        l.Pairwise fun i j => T.price i ≤ T.price j := by
  have hmem : ∀ i, i ∈ (List.range T.size).filter (fun i => (T.classes i).Nonempty) ↔
      i < T.size ∧ (T.classes i).Nonempty := by
    simp
  rw [List.mem_permutations']
  constructor
  · intro h
    refine ⟨(List.perm_ext_iff_of_nodup h.nodup (List.nodup_range.filter _)).mpr ?_, h.sorted⟩
    exact fun i => (h.mem_iff i).trans (hmem i).symm
  · rintro ⟨hperm, hsorted⟩
    exact ⟨hperm.nodup_iff.mpr (List.nodup_range.filter _),
      fun i => hperm.mem_iff.trans (hmem i), hsorted⟩

instance : Decidable T.SearchFinds :=
  decidable_of_iff (∀ l ∈ ((List.range T.size).filter fun i =>
      (T.classes i).Nonempty).permutations', (l.Pairwise fun i j => T.price i ≤ T.price j) →
        ∃ o ∈ (List.range l.length).sublists, T.FindableIn l o) (by
    refine forall_congr' fun l => ?_
    rw [searchOrder_iff, and_imp]
    refine forall_congr' fun _ => forall_congr' fun _ => exists_congr fun o => ?_
    exact and_iff_right_of_imp fun ho =>
      SubsetOrder.indexSet_iff.mp ho.cheapest.covering.indices)

variable {T}

variable {i : Nat}

theorem TestSet.mem_classes {c : Finset Nat} :
    c ∈ T.classes i ↔ ∃ lineID, T.Covers i lineID ∧ T.Open lineID ∧ T.coverers lineID = c := by
  simp only [TestSet.classes, Finset.mem_image, Finset.mem_filter, mem_coveredLines, and_assoc]
  rfl

end Problem

structure Finished (T : TestSet) (s : State) (reps : List TraceLineID) : Prop where
  grouping : Grouping T s
  ended : s.testTraces.length ≤ s.current
  essential : Essential T s.includedTests s.testTraces reps
  grouped : ∀ rep ∈ reps, ∃ j ∈ T.firstOf T.turns rep, ¬T.TakesOut j rep

variable {s : State} {reps : List TraceLineID} {t : TestTraceInfo}

section End

variable {T : TestSet}

variable {lineID : TraceLineID}

section

variable (h : Finished T s reps)
include h

theorem Finished.passed (ht : t ∈ s.testTraces) :
    (∀ lineID, ¬t.trace.Covers lineID) ∧ t.groupsCovered ≠ 0 :=
  h.grouping.passed t (by rwa [List.take_of_length_le h.ended])

theorem Finished.not_included (ht : t ∈ s.testTraces) :
    t.test ∉ s.includedTests := by
  intro hmem
  exact (List.nodup_append.mp h.grouping.tracked.nodup).2.2 _ hmem _ (List.mem_map_of_mem ht) rfl

theorem Finished.own_included {i : Nat} (hi : i < T.size) (hown : T.HasOwn i) :
    i ∈ s.includedTests := by
  obtain ⟨lineID, hown⟩ := hown
  rcases h.essential.own i lineID hi hown with hincluded | ⟨t, ht, -, hcover⟩
  · exact hincluded
  · exact absurd hcover ((h.passed ht).1 lineID)

theorem Finished.not_own (ht : t ∈ s.testTraces) : ¬T.HasOwn t.test :=
  fun hown => h.not_included ht (h.own_included (h.grouping.tracked.test_lt ht) hown)

theorem Finished.exists_rep (ht : t ∈ s.testTraces) :
    ∃ lineID ∈ reps, T.Covers t.test lineID :=
  (h.essential.groupsCovered_ne_zero_iff ht).mp (h.passed ht).2

theorem Finished.testTraces_eq_nil (hall : T.AllLeave) : s.testTraces = [] := by
  rw [List.eq_nil_iff_forall_not_mem]
  intro t ht
  obtain ⟨rep, hmem, hcover⟩ := h.exists_rep ht
  obtain ⟨j, hj, hnot⟩ := h.grouped rep hmem
  rcases hall t.test (h.grouping.tracked.test_lt ht) with hown | htaken
  · exact h.not_own ht hown
  · obtain ⟨j', hj', htakes⟩ := htaken rep hcover (h.essential.needed rep hmem)
    exact hnot (Option.mem_unique hj' hj ▸ htakes)

theorem Finished.open_reps (hfirst : T.OwnFirst) {rep : TraceLineID} (hrep : rep ∈ reps) :
    T.Open rep := by
  have hneeded := h.essential.needed rep hrep
  obtain ⟨i, hi, hnot⟩ := h.grouped rep hrep
  refine ⟨hneeded, fun j hj hcover hown => hnot (hfirst i rep hneeded hi ⟨j, hj, hcover, hown, ?_⟩)⟩
  intro hline
  obtain ⟨a, b, ha, hb, hne⟩ := h.essential.shared rep hrep
  obtain ⟨ha, hcovera⟩ := TestSet.mem_coverers.mp ha
  obtain ⟨hb, hcoverb⟩ := TestSet.mem_coverers.mp hb
  exact hne ((hline.2.2 a ha hcovera).trans (hline.2.2 b hb hcoverb).symm)

theorem Finished.not_covers_included (hopen : T.Open lineID) {j : Nat}
    (hj : j ∈ s.includedTests) :
    ¬T.Covers j lineID := by
  intro hcover
  have hlt := h.grouping.tracked.inRange j (List.mem_append_left _ hj)
  rcases h.essential.included_own j hj with hzero | hown
  · exact hopen.1 j hlt hzero hcover
  · exact hopen.2 j hlt hcover hown

theorem Finished.mem_coverers_iff (hopen : T.Open lineID) (i : Nat) :
    i ∈ T.coverers lineID ↔ ∃ t ∈ s.testTraces, t.test = i ∧ T.Covers t.test lineID := by
  rw [TestSet.mem_coverers]
  constructor
  · rintro ⟨hi, hcover⟩
    rcases h.grouping.tracked.accounted i hi with hincluded | ⟨t, ht, rfl⟩ | hall
    · exact absurd hcover (h.not_covers_included hopen hincluded)
    · exact ⟨t, ht, rfl, hcover⟩
    · obtain ⟨j, hj, hcoverj⟩ := hall lineID hcover
      exact absurd hcoverj (h.not_covers_included hopen hj)
  · rintro ⟨t, ht, rfl, hcover⟩
    exact ⟨h.grouping.tracked.test_lt ht, hcover⟩

theorem Finished.exists_class
    (hreps : ∀ lineID ∈ reps, T.Open lineID) (ht : t ∈ s.testTraces)
    (hopen : T.Open lineID) (hcover : T.Covers t.test lineID) :
    ∃ lineID' ∈ reps, T.coverers lineID' = T.coverers lineID := by
  rcases h.grouping.tracked.lines t.test lineID (h.grouping.tracked.test_lt ht) hcover with
    ⟨j, hj, hcoverj⟩ | huntouched | ⟨k, hgroup⟩
  · exact absurd hcoverj (h.not_covers_included hopen hj)
  · exact absurd ((huntouched t ht).mpr hcover) ((h.passed ht).1 lineID)
  · have hlt : k < reps.length := h.essential.length t ht ▸ (hgroup t ht).1
    have hget := List.getElem?_eq_getElem hlt
    have hrep := h.essential.rep k reps[k] hget
    refine ⟨reps[k], List.getElem_mem hlt, ?_⟩
    ext i
    rw [h.mem_coverers_iff hopen, h.mem_coverers_iff (hreps _ (List.getElem_mem hlt))]
    refine exists_congr fun t' => and_congr_right fun ht' => and_congr_right fun _ => ?_
    rw [← (hrep t' ht').2.2, ← (hgroup t' ht').2.2]

theorem Finished.classes_eq
    (hreps : ∀ lineID ∈ reps, T.Open lineID) (ht : t ∈ s.testTraces) :
    T.classes t.test =
      ((reps.filter fun lineID => decide (T.Covers t.test lineID)).map T.coverers).toFinset := by
  ext c
  rw [TestSet.mem_classes, List.mem_toFinset, List.mem_map]
  constructor
  · rintro ⟨lineID, hcover, hopen, rfl⟩
    obtain ⟨lineID', hmem, heq⟩ := h.exists_class hreps ht hopen hcover
    refine ⟨lineID', List.mem_filter.mpr ⟨hmem, decide_eq_true ?_⟩, heq⟩
    have hself := TestSet.mem_coverers.mpr ⟨h.grouping.tracked.test_lt ht, hcover⟩
    rw [← heq] at hself
    exact (TestSet.mem_coverers.mp hself).2
  · rintro ⟨lineID, hmem, rfl⟩
    obtain ⟨hmem, hcover⟩ := List.mem_filter.mp hmem
    exact ⟨lineID, of_decide_eq_true hcover, hreps lineID hmem, rfl⟩

theorem Finished.groupsCovered_eq
    (hreps : ∀ lineID ∈ reps, T.Open lineID) (ht : t ∈ s.testTraces) :
    t.groupsCovered = (T.classes t.test).card := by
  have hnodup : ((reps.filter fun lineID => decide (T.Covers t.test lineID)).map
      T.coverers).Nodup :=
    (List.filter_sublist.map T.coverers).nodup h.essential.distinct
  rw [h.classes_eq hreps ht, List.toFinset_card_of_nodup hnodup, List.length_map,
    TestTraceInfo.groupsCovered, h.essential.groups_eq ht, List.count, List.countP_map,
    List.countP_eq_length_filter]
  congr 1
  apply List.filter_congr
  intro lineID _
  simp

end

end End

/-- The sets of tests that cover all lines. -/
structure TestSet.Complete (T : TestSet) (S : Finset Nat) : Prop where
  inRange : ∀ i ∈ S, i < T.size
  covers : ∀ i lineID, i < T.size → T.Covers i lineID → ∃ j ∈ S, T.Covers j lineID

variable {S : Finset Nat}

section Minimum

variable {T : TestSet}

theorem TestSet.Complete.own_mem
    (hS : T.Complete S) {i : Nat} (hi : i < T.size) (hown : T.HasOwn i) :
    i ∈ S := by
  obtain ⟨lineID, -, hcover, honly⟩ := hown
  obtain ⟨j, hj, hcoverj⟩ := hS.covers i lineID hi hcover
  rwa [← honly j (hS.inRange j hj) hcoverj]

theorem Finished.included_sum_le {s : State} {reps : List TraceLineID} (h : Finished T s reps)
    (hweights : ∀ i, 0 ≤ T.weight i) (hS : T.Complete S) :
    (s.includedTests.map T.weight).sum ≤ ∑ i ∈ S with T.HasOwn i, T.weight i := by
  have hnodup := (List.nodup_append.mp h.grouping.tracked.nodup).1
  have hown : ∀ i ∈ s.includedTests.toFinset, T.weight i ≠ 0 → T.HasOwn i := by
    intro i hi hne
    exact (h.essential.included_own i (List.mem_toFinset.mp hi)).resolve_left hne
  rw [← List.sum_toFinset _ hnodup, ← Finset.sum_filter_of_ne hown]
  apply Finset.sum_le_sum_of_subset_of_nonneg
  · intro i hi
    obtain ⟨hi, hown⟩ := Finset.mem_filter.mp hi
    have hlt := h.grouping.tracked.inRange i (List.mem_append_left _ (List.mem_toFinset.mp hi))
    exact Finset.mem_filter.mpr ⟨hS.own_mem hlt hown, hown⟩
  · exact fun i _ _ => hweights i

end Minimum

section Search

variable {T : TestSet}

theorem Finished.weight_pos (h : Finished T s reps) (hweights : ∀ i, 0 ≤ T.weight i)
    (ht : t ∈ s.testTraces) :
    0 < t.weight := by
  rw [(h.grouping.tracked.derived t ht).weight]
  refine lt_of_le_of_ne (hweights _) fun hzero => ?_
  exact h.not_included ht (h.grouping.zeros _ (h.grouping.tracked.test_lt ht) hzero.symm)

theorem Finished.sWeight_eq (h : Finished T s reps)
    (hreps : ∀ lineID ∈ reps, T.Open lineID) (ht : t ∈ s.testTraces) :
    (setSWeight t).sWeight = T.price t.test := by
  rw [TestSet.price, ← h.groupsCovered_eq hreps ht, ← (h.grouping.tracked.derived t ht).weight]
  rfl

theorem Finished.mem_classes_iff (h : Finished T s reps)
    (hreps : ∀ lineID ∈ reps, T.Open lineID) (i : Nat) :
    i < T.size ∧ (T.classes i).Nonempty ↔ ∃ t ∈ s.testTraces, t.test = i := by
  constructor
  · rintro ⟨hi, c, hc⟩
    obtain ⟨lineID, hcover, hopen, -⟩ := TestSet.mem_classes.mp hc
    obtain ⟨t, ht, htest, -⟩ :=
      (h.mem_coverers_iff hopen i).mp (TestSet.mem_coverers.mpr ⟨hi, hcover⟩)
    exact ⟨t, ht, htest⟩
  · rintro ⟨t, ht, rfl⟩
    refine ⟨h.grouping.tracked.test_lt ht, ?_⟩
    rw [← Finset.card_pos, ← h.groupsCovered_eq hreps ht]
    exact Nat.pos_of_ne_zero (h.passed ht).2

def classOf (T : TestSet) (reps : List TraceLineID) (k : Nat) : Finset Nat :=
  (reps[k]?).elim ∅ T.coverers

theorem Finished.classOf_injOn (h : Finished T s reps) :
    Set.InjOn (classOf T reps) (Finset.range reps.length) := by
  intro k hk k' hk' heq
  rw [Finset.mem_coe, Finset.mem_range] at hk hk'
  rw [classOf, classOf, List.getElem?_eq_getElem hk, List.getElem?_eq_getElem hk'] at heq
  have hdistinct := h.essential.distinct
  refine (List.getElem?_inj (by simpa using hk) hdistinct).mp ?_
  rw [List.getElem?_map, List.getElem?_map, List.getElem?_eq_getElem hk,
    List.getElem?_eq_getElem hk', Option.map_some, Option.map_some]
  exact congrArg some heq

theorem Finished.openClasses_eq (h : Finished T s reps)
    (hreps : ∀ lineID ∈ reps, T.Open lineID) :
    T.openClasses = (Finset.range reps.length).image (classOf T reps) := by
  ext c
  rw [TestSet.openClasses, Finset.mem_biUnion, Finset.mem_image]
  constructor
  · rintro ⟨i, hi, hc⟩
    obtain ⟨t, ht, rfl⟩ := (h.mem_classes_iff hreps i).mp ⟨Finset.mem_range.mp hi, c, hc⟩
    obtain ⟨lineID, hcover, hopen, rfl⟩ := TestSet.mem_classes.mp hc
    obtain ⟨lineID', hmem, heq⟩ := h.exists_class hreps ht hopen hcover
    obtain ⟨k, hk, rfl⟩ := List.getElem_of_mem hmem
    refine ⟨k, Finset.mem_range.mpr hk, ?_⟩
    rw [classOf, List.getElem?_eq_getElem hk]
    exact heq
  · rintro ⟨k, hk, rfl⟩
    rw [Finset.mem_range] at hk
    obtain ⟨j, -, hj, -, -⟩ := h.essential.shared reps[k] (List.getElem_mem hk)
    obtain ⟨hlt, hcover⟩ := TestSet.mem_coverers.mp hj
    refine ⟨j, Finset.mem_range.mpr hlt, ?_⟩
    rw [classOf, List.getElem?_eq_getElem hk]
    exact TestSet.mem_classes.mpr ⟨_, hcover, hreps _ (List.getElem_mem hk), rfl⟩

theorem Finished.coversGroup_iff (h : Finished T s reps) {traces : List TestTraceInfo} {i k : Nat}
    (ht : t ∈ s.testTraces) (hget : traces[i]? = some (setSWeight t)) (hk : k < reps.length) :
    TraceSetIterator.CoversGroup traces i k ↔ T.Covers t.test reps[k] := by
  rw [TraceSetIterator.CoversGroup, hget]
  simp only [Option.some.injEq, exists_eq_left']
  rw [setSWeight_groups, h.essential.groups_eq ht, List.getElem?_map, List.getElem?_eq_getElem hk,
    Option.map_some,
    Option.some_inj, decide_eq_true_iff]

theorem Finished.classes_eq_image (h : Finished T s reps)
    (hreps : ∀ lineID ∈ reps, T.Open lineID) {traces : List TestTraceInfo} {i : Nat}
    (ht : t ∈ s.testTraces) (hget : traces[i]? = some (setSWeight t)) :
    T.classes t.test =
      (TraceSetIterator.groupsOf traces reps.length i).image (classOf T reps) := by
  ext c
  rw [h.classes_eq hreps ht, List.mem_toFinset, List.mem_map, Finset.mem_image]
  constructor
  · rintro ⟨lineID, hmem, rfl⟩
    obtain ⟨hmem, hcover⟩ := List.mem_filter.mp hmem
    obtain ⟨k, hk, rfl⟩ := List.getElem_of_mem hmem
    refine ⟨k, TraceSetIterator.mem_groupsOf.mpr ⟨hk, ?_⟩, ?_⟩
    · exact (h.coversGroup_iff ht hget hk).mpr (of_decide_eq_true hcover)
    · rw [classOf, List.getElem?_eq_getElem hk]
      rfl
  · rintro ⟨k, hk, rfl⟩
    obtain ⟨hk, hcover⟩ := TraceSetIterator.mem_groupsOf.mp hk
    refine ⟨reps[k], List.mem_filter.mpr ⟨List.getElem_mem hk, ?_⟩, ?_⟩
    · exact decide_eq_true ((h.coversGroup_iff ht hget hk).mp hcover)
    · rw [classOf, List.getElem?_eq_getElem hk]
      rfl

variable {sorting : TraceSort}

/-- The array that the search gets. -/
theorem Finished.validTraces (sorting : TraceSort) (h : Finished T s reps)
    (hreps : ∀ lineID ∈ reps, T.Open lineID) (hweights : ∀ i, 0 ≤ T.weight i)
    (hne : s.testTraces ≠ []) :
    TraceSetIterator.ValidTraces (sorting.sort (s.testTraces.map setSWeight)) reps.length where
  nonempty := sort_ne_nil sorting hne
  weight_pos t ht := by
    obtain ⟨t', ht', rfl⟩ := mem_sort sorting ht
    rw [setSWeight_weight]
    exact h.weight_pos hweights ht'
  length t ht := by
    obtain ⟨t', ht', rfl⟩ := mem_sort sorting ht
    exact h.essential.length t' ht'
  covers_some t ht := by
    obtain ⟨t', ht', rfl⟩ := mem_sort sorting ht
    exact Nat.pos_of_ne_zero (h.passed ht').2
  covered k hk := by
    obtain ⟨j, -, hj, -, -⟩ := h.essential.shared reps[k] (List.getElem_mem hk)
    obtain ⟨t, ht, rfl, hcover⟩ := (h.mem_coverers_iff (hreps _ (List.getElem_mem hk)) j).mp hj
    obtain ⟨i, hi, hget⟩ := List.getElem_of_mem
      ((sorting.perm _).symm.subset (List.mem_map_of_mem (f := setSWeight) ht))
    exact ⟨i, (h.coversGroup_iff ht (hget ▸ List.getElem?_eq_getElem hi) hk).mpr hcover⟩
  sWeight_eq t ht := by
    obtain ⟨t', -, rfl⟩ := mem_sort sorting ht
    rfl
  sorted := (sorting.sorted _).imp fun hlt => not_lt.mp hlt

theorem Finished.searchOrder (sorting : TraceSort) (h : Finished T s reps)
    (hreps : ∀ lineID ∈ reps, T.Open lineID) :
    T.SearchOrder ((sorting.sort (s.testTraces.map setSWeight)).map TestTraceInfo.test) := by
  have hperm := (sorting.perm (s.testTraces.map setSWeight)).map TestTraceInfo.test
  rw [List.map_map] at hperm
  refine ⟨hperm.nodup_iff.mpr (List.nodup_append.mp h.grouping.tracked.nodup).2.1, ?_, ?_⟩
  · intro i
    rw [h.mem_classes_iff hreps, hperm.mem_iff, List.mem_map]
    rfl
  · rw [List.pairwise_map]
    refine List.Pairwise.imp_of_mem ?_ (sorting.sorted _)
    intro a b ha hb hlt
    obtain ⟨a', ha', rfl⟩ := mem_sort sorting ha
    obtain ⟨b', hb', rfl⟩ := mem_sort sorting hb
    rw [not_lt, h.sWeight_eq hreps ha', h.sWeight_eq hreps hb'] at hlt
    exact hlt

section

variable (h : Finished T s reps)
include h

/-- The search is given the problem of the tests with open lines. -/
theorem Finished.findableSet
    (hreps : ∀ lineID ∈ reps, T.Open lineID) {o : List Nat}
    (ho : T.FindableIn ((sorting.sort (s.testTraces.map setSWeight)).map TestTraceInfo.test) o) :
    TraceSetIterator.FindableSet (sorting.sort (s.testTraces.map setSWeight)) reps.length o := by
  have hget : ∀ i, i < (sorting.sort (s.testTraces.map setSWeight)).length → ∃ t,
      t ∈ s.testTraces ∧ (sorting.sort (s.testTraces.map setSWeight))[i]? = some (setSWeight t) := by
    intro i hi
    obtain ⟨t, ht, heq⟩ := mem_sort sorting (List.getElem_mem hi)
    exact ⟨t, ht, heq ▸ List.getElem?_eq_getElem hi⟩
  rw [TestSet.FindableIn, List.length_map, h.openClasses_eq hreps] at ho
  refine ho.of_image h.classOf_injOn (fun i _ => Finset.filter_subset _ _) ?_ ?_
  · intro i hi
    obtain ⟨t, ht, heq⟩ := hget i hi
    rw [List.getElem?_map, TraceSetIterator.weightAt, heq]
    exact (h.grouping.tracked.derived t ht).weight.symm
  · intro i hi
    obtain ⟨t, ht', heq⟩ := hget i hi
    rw [List.getElem?_map, heq]
    rw [Option.map_some, setSWeight_test]
    exact h.classes_eq_image hreps ht' heq

theorem Finished.weightAt_eq {i : Nat}
    (hi : i < (sorting.sort (s.testTraces.map setSWeight)).length) :
    TraceSetIterator.weightAt (sorting.sort (s.testTraces.map setSWeight)) i =
      T.weight (testAt (sorting.sort (s.testTraces.map setSWeight)) i) := by
  have hget := List.getElem?_eq_getElem hi
  obtain ⟨t, ht, heq⟩ := mem_sort sorting (List.getElem_mem hi)
  rw [TraceSetIterator.weightAt, testAt_of_getElem hget, hget, heq]
  exact (h.grouping.tracked.derived t ht).weight

theorem Finished.setWeight_eq {set : List Nat}
    (hrange : ∀ i ∈ set, i < (sorting.sort (s.testTraces.map setSWeight)).length) :
    TraceSetIterator.setWeight (sorting.sort (s.testTraces.map setSWeight)) set =
      ((set.map (testAt (sorting.sort (s.testTraces.map setSWeight)))).map T.weight).sum := by
  rw [TraceSetIterator.setWeight, List.map_map]
  exact congrArg List.sum (List.map_congr_left fun i hi => h.weightAt_eq (hrange i hi))

/-- The traces of the tests in a complete set cover all groups. -/
theorem Finished.covering
    (hreps : ∀ lineID ∈ reps, T.Open lineID) (hS : T.Complete S) :
    TraceSetIterator.Covering (sorting.sort (s.testTraces.map setSWeight)) reps.length
      ((List.range (sorting.sort (s.testTraces.map setSWeight)).length).filter fun i =>
        decide (testAt (sorting.sort (s.testTraces.map setSWeight)) i ∈ S)) := by
  refine ⟨SubsetOrder.indexSet_iff.mpr (List.mem_sublists.mpr List.filter_sublist), ?_⟩
  intro k hk
  obtain ⟨j, -, hj, -, -⟩ := h.essential.shared reps[k] (List.getElem_mem hk)
  obtain ⟨hlt, hcover⟩ := TestSet.mem_coverers.mp hj
  obtain ⟨i, hiS, hcoveri⟩ := hS.covers j reps[k] hlt hcover
  obtain ⟨t, ht, rfl, -⟩ := (h.mem_coverers_iff (hreps _ (List.getElem_mem hk)) i).mp
    (TestSet.mem_coverers.mpr ⟨hS.inRange i hiS, hcoveri⟩)
  obtain ⟨n, hn, hget⟩ := List.getElem_of_mem
    ((sorting.perm _).symm.subset (List.mem_map_of_mem (f := setSWeight) ht))
  have hget' := hget ▸ List.getElem?_eq_getElem hn
  refine ⟨n, List.mem_filter.mpr ⟨List.mem_range.mpr hn, decide_eq_true ?_⟩,
    (h.coversGroup_iff ht hget' hk).mpr hcoveri⟩
  rw [testAt_of_getElem hget']
  exact hiS

theorem Finished.covering_weight_le (hweights : ∀ i, 0 ≤ T.weight i)
    (S : Finset Nat) :
    TraceSetIterator.setWeight (sorting.sort (s.testTraces.map setSWeight))
        ((List.range (sorting.sort (s.testTraces.map setSWeight)).length).filter fun i =>
          decide (testAt (sorting.sort (s.testTraces.map setSWeight)) i ∈ S)) ≤
      ∑ i ∈ S with ¬T.HasOwn i, T.weight i := by
  have hrange : ∀ i, i ∈ (List.range (sorting.sort (s.testTraces.map setSWeight)).length).filter
      (fun i => decide (testAt (sorting.sort (s.testTraces.map setSWeight)) i ∈ S)) →
      i < (sorting.sort (s.testTraces.map setSWeight)).length := fun i hi =>
    List.mem_range.mp (List.mem_of_mem_filter hi)
  have hperm := (sorting.perm (s.testTraces.map setSWeight)).map TestTraceInfo.test
  rw [List.map_map] at hperm
  have hnodup := hperm.nodup_iff.mpr (List.nodup_append.mp h.grouping.tracked.nodup).2.1
  have hdistinct : (((List.range (sorting.sort (s.testTraces.map setSWeight)).length).filter
      fun i => decide (testAt (sorting.sort (s.testTraces.map setSWeight)) i ∈ S)).map
        (testAt (sorting.sort (s.testTraces.map setSWeight)))).Nodup :=
    (List.nodup_range.filter _).map_on fun i hi j hj heq =>
      testAt_injOn hnodup (hrange i hi) (hrange j hj) heq
  rw [h.setWeight_eq hrange, ← List.sum_toFinset _ hdistinct]
  apply Finset.sum_le_sum_of_subset_of_nonneg
  · intro j hj
    obtain ⟨i, hi, rfl⟩ := List.mem_map.mp (List.mem_toFinset.mp hj)
    have hget := List.getElem?_eq_getElem (hrange i hi)
    obtain ⟨t, ht, heq⟩ := mem_sort sorting (List.getElem_mem (hrange i hi))
    refine Finset.mem_filter.mpr ⟨of_decide_eq_true (List.mem_filter.mp hi).2, ?_⟩
    rw [testAt_of_getElem hget, heq, setSWeight_test]
    exact h.not_own ht
  · exact fun i _ _ => hweights i

end

/-- What the search adds is not heavier than what a complete set has instead. -/
theorem Finished.search_le (sorting : TraceSort) (h : Finished T s reps)
    (hreps : ∀ lineID ∈ reps, T.Open lineID) (hweights : ∀ i, 0 ≤ T.weight i)
    (hfindable : T.SearchFinds) (hne : s.testTraces ≠ []) :
    ∃ it, TraceSetIterator.search (sorting.sort (s.testTraces.map setSWeight)) = some it ∧
      (∀ i ∈ it.optSet, i < (sorting.sort (s.testTraces.map setSWeight)).length) ∧
      ∀ S, T.Complete S →
        ((it.optSet.map (testAt (sorting.sort (s.testTraces.map setSWeight)))).map T.weight).sum ≤
          ∑ i ∈ S with ¬T.HasOwn i, T.weight i := by
  have hv := h.validTraces sorting hreps hweights hne
  obtain ⟨o, ho⟩ := hfindable _ (h.searchOrder sorting hreps)
  obtain ⟨it, hrun, -, hle⟩ := (h.findableSet hreps ho).searchOptimal hv
  obtain ⟨it', hrun', hit⟩ := TraceSetIterator.search_spec hv.length hv.nonempty
  obtain rfl : it = it' := Option.some.inj (hrun.symm.trans hrun')
  refine ⟨it, hrun, hit.optInRange, fun S hS => ?_⟩
  rw [← h.setWeight_eq hit.optInRange]
  exact (hle _ (h.covering hreps hS)).trans (h.covering_weight_le hweights S)

end Search

section Rounds

theorem groupTests_finished (hinv : ∀ test ∈ tests, test.trace.GroupInvariant)
    (hcounters : (TestSet.ofTests tests).TakesNone) :
    ∃ s reps, groupTests tests = some s ∧ Finished (TestSet.ofTests tests) s reps := by
  obtain ⟨s, hs, hrun, hend⟩ := groupTests_run hinv
  obtain ⟨hrun', reps, done, hessential, hinTurn⟩ := groupingRun_inTurn hinv hcounters hrun
  refine ⟨s, reps, hs, hrun'.grouping hinv, hend, hessential, fun rep hrep => ?_⟩
  -- every test has had its turn
  have hturns := hinTurn.turns
  rw [List.drop_eq_nil_of_le hend, List.map_nil, order_nil, List.append_nil] at hturns
  have hgrouped := hinTurn.grouped rep hrep
  rwa [List.drop_eq_nil_of_le hend, List.map_nil, List.take_nil, List.append_nil, ← hturns]
    at hgrouped

end Rounds

theorem filterMap_getElem_weights {tests : List TestCoverageDesc} :
    ∀ {indices : List Nat}, (∀ i ∈ indices, i < tests.length) →
      (indices.filterMap fun i => tests[i]?).map TestCoverageDesc.weight =
        indices.map (TestSet.ofTests tests).weight
  | [], _ => rfl
  | i :: indices, h => by
      have hget := List.getElem?_eq_getElem (h i List.mem_cons_self)
      rw [List.filterMap_cons_some hget, List.map_cons, List.map_cons,
        filterMap_getElem_weights fun j hj => h j (List.mem_cons_of_mem _ hj)]
      simp [TestSet.ofTests, hget]

end TestSetOptimizer

open TestSetOptimizer

section Least

theorem ofTests_weight_nonneg (hweights : ∀ test ∈ tests, 0 ≤ test.weight) (i : Nat) :
    0 ≤ (TestSet.ofTests tests).weight i := by
  cases hget : tests[i]? with
  | none => simp [TestSet.ofTests, hget]
  | some test => simpa [TestSet.ofTests, hget] using hweights test (List.mem_of_getElem? hget)

theorem exists_complete_of_sublist (hinv : ∀ test ∈ tests, test.trace.GroupInvariant)
    {us : List TestCoverageDesc} (hsub : us.Sublist tests)
    (hcovers : ∀ lineID, (∃ test ∈ us, test.Covers lineID) ↔
      ∃ test ∈ tests, test.Covers lineID) :
    ∃ S, (TestSet.ofTests tests).Complete S ∧
      (us.map TestCoverageDesc.weight).sum = ∑ i ∈ S, (TestSet.ofTests tests).weight i := by
  obtain ⟨indices, rfl, hsorted⟩ := List.sublist_eq_map_getElem hsub
  have hdistinct : indices.Nodup := hsorted.imp fun h => h.ne
  have hnodup : (indices.map Fin.val).Nodup := hdistinct.map Fin.val_injective
  refine ⟨(indices.map Fin.val).toFinset, ⟨?_, ?_⟩, ?_⟩
  · intro i hi
    obtain ⟨k, -, rfl⟩ := List.mem_map.mp (List.mem_toFinset.mp hi)
    exact k.isLt
  · intro i lineID hi hcover
    have hget := List.getElem?_eq_getElem hi
    obtain ⟨test, htest, hcover'⟩ := (hcovers lineID).mpr
      ⟨_, List.getElem_mem hi, (ofTests_covers hinv hget lineID).mp hcover⟩
    obtain ⟨k, hk, rfl⟩ := List.mem_map.mp htest
    exact ⟨k, List.mem_toFinset.mpr (List.mem_map_of_mem hk),
      (ofTests_covers hinv (List.getElem?_eq_getElem k.isLt) lineID).mpr hcover'⟩
  · rw [List.sum_toFinset _ hnodup, List.map_map, List.map_map]
    congr 1
    apply List.map_congr_left
    intro k _
    simp [TestSet.ofTests]

end Least

/--
The result has the least weight among the parts of the tests with the same coverage, if no line is
taken in and nothing is left for the search, or if the lines that tests with lines of their own share
make no groups and the search finds a cheapest set of the others.
-/
theorem optimize_weight_le
    (sorting : TraceSort) (tests : List TestCoverageDesc)
    (hinv : ∀ test ∈ tests, test.trace.GroupInvariant)
    (hweights : ∀ test ∈ tests, 0 ≤ test.weight)
    (hcounters : (TestSet.ofTests tests).TakesNone)
    (hleast : (TestSet.ofTests tests).AllLeave ∨
      (TestSet.ofTests tests).OwnFirst ∧ (TestSet.ofTests tests).SearchFinds) :
    ∃ result, optimize sorting tests = some result ∧
      ∀ us : List TestCoverageDesc, us.Sublist tests →
        (∀ lineID, (∃ test ∈ us, test.Covers lineID) ↔
          ∃ test ∈ tests, test.Covers lineID) →
        (result.map TestCoverageDesc.weight).sum ≤ (us.map TestCoverageDesc.weight).sum := by
  obtain ⟨s, reps, hs, h⟩ := groupTests_finished hinv hcounters
  have hnonneg := ofTests_weight_nonneg hweights
  have hfound : ∃ found, optimalTests sorting tests =
        some ((s.includedTests ++ found).insertionSort (· ≤ ·)) ∧
      (∀ i ∈ found, i < tests.length) ∧
      ∀ S, (TestSet.ofTests tests).Complete S → (found.map (TestSet.ofTests tests).weight).sum ≤
        ∑ i ∈ S with ¬(TestSet.ofTests tests).HasOwn i, (TestSet.ofTests tests).weight i := by
    by_cases hempty : s.testTraces = []
    · refine ⟨[], ?_, fun i hi => absurd hi (by simp), fun S hS => ?_⟩
      · rw [List.append_nil]
        exact optimalTests_eq_of_empty sorting hs hempty
      · exact Finset.sum_nonneg fun i _ => hnonneg i
    · rcases hleast with hall | ⟨hfirst, hfindable⟩
      · exact absurd (h.testTraces_eq_nil hall) hempty
      · obtain ⟨it, hsearch, hrange, hle⟩ :=
          h.search_le sorting (fun _ => h.open_reps hfirst) hnonneg hfindable hempty
        refine ⟨_, optimalTests_eq sorting hs hempty rfl hsearch hrange, ?_, hle⟩
        intro i hi
        obtain ⟨k, hk, rfl⟩ := List.mem_map.mp hi
        obtain ⟨t, ht, heq⟩ := mem_sort sorting (List.getElem_mem (hrange k hk))
        rw [testAt_of_getElem (List.getElem?_eq_getElem (hrange k hk)), heq, setSWeight_test]
        exact h.grouping.tracked.test_lt ht
  obtain ⟨found, hrun, hrange, hbound⟩ := hfound
  have hperm := List.perm_insertionSort (· ≤ ·) (s.includedTests ++ found)
  have hrange' : ∀ i, i ∈ (s.includedTests ++ found).insertionSort (· ≤ ·) → i < tests.length := by
    intro i hi
    rcases List.mem_append.mp (hperm.subset hi) with hi | hi
    · exact h.grouping.tracked.inRange i (List.mem_append_left _ hi)
    · exact hrange i hi
  refine ⟨((s.includedTests ++ found).insertionSort (· ≤ ·)).filterMap fun i => tests[i]?, ?_, ?_⟩
  · rw [optimize, hrun]
    refine mapM_eq_some_filterMap fun i hi => ?_
    rw [List.getElem?_eq_getElem (hrange' i hi)]
    rfl
  · intro us hsub hcovers
    obtain ⟨S, hS, hsum⟩ := exists_complete_of_sublist hinv hsub hcovers
    rw [filterMap_getElem_weights hrange', (hperm.map _).sum_eq, List.map_append, List.sum_append,
      hsum, ← Finset.sum_filter_add_sum_filter_not S (TestSet.ofTests tests).HasOwn]
    exact add_le_add (h.included_sum_le hnonneg hS) (hbound S hS)

def linesText (lines : List String) : Str :=
  "TN:\nSF:/a.c\n".toList ++ (lines.flatMap fun line => ("DA:" ++ line ++ ",1\n").toList) ++
    "end_of_record\n".toList

def linesTrace (lines : List Int) : Trace :=
  ⟨OrderedMap.empty.set ⟨[], "/a.c".toList⟩ ⟨OrderedMap.empty.set "/a.c".toList
    { FileInfo.empty with
      lines := lines.foldl (fun lines line => lines.set line 1) OrderedMap.empty }⟩⟩

/-- A test with a line of its own, and tests of which the search combines two. -/
def commonTests : List TestCoverageDesc :=
  [⟨linesTrace [1, 2], 2⟩, ⟨linesTrace [2, 3], 1⟩, ⟨linesTrace [3, 4], 6⟩, ⟨linesTrace [5], 6⟩,
    ⟨linesTrace [4, 5], 13⟩]

/-- Five tests that share lines; three of them are enough. -/
theorem optimize_weight_le_commonTests :
    optimize .insertion commonTests =
        some [⟨linesTrace [1, 2], 2⟩, ⟨linesTrace [3, 4], 6⟩, ⟨linesTrace [5], 6⟩] ∧
      ∀ us : List TestCoverageDesc, us.Sublist commonTests →
        (∀ lineID, (∃ test ∈ us, test.Covers lineID) ↔
          ∃ test ∈ commonTests, test.Covers lineID) →
        14 ≤ (us.map TestCoverageDesc.weight).sum := by
  have hread : ∀ test ∈ commonTests,
      ∃ is, Readable is ∧ Trace.empty.read 0 is = .ok test.trace := by
    intro test htest
    simp only [commonTests, List.mem_cons, List.not_mem_nil, or_false] at htest
    rcases htest with rfl | rfl | rfl | rfl | rfl
    · exact ⟨linesText ["1", "2"], ⟨by decide +kernel, by decide +kernel⟩, by decide +kernel⟩
    · exact ⟨linesText ["2", "3"], ⟨by decide +kernel, by decide +kernel⟩, by decide +kernel⟩
    · exact ⟨linesText ["3", "4"], ⟨by decide +kernel, by decide +kernel⟩, by decide +kernel⟩
    · exact ⟨linesText ["5"], ⟨by decide +kernel, by decide +kernel⟩, by decide +kernel⟩
    · exact ⟨linesText ["4", "5"], ⟨by decide +kernel, by decide +kernel⟩, by decide +kernel⟩
  obtain ⟨hinv, hcounters⟩ := readTests_spec hread
  obtain ⟨result, hrun, hleast⟩ := optimize_weight_le .insertion commonTests hinv
    (by decide +kernel) (hcounters.takesNone hinv)
    (Or.inr ⟨by decide +kernel, by decide +kernel⟩)
  have hresult : optimize .insertion commonTests =
      some [⟨linesTrace [1, 2], 2⟩, ⟨linesTrace [3, 4], 6⟩, ⟨linesTrace [5], 6⟩] := by
    decide +kernel
  rw [hresult] at hrun
  cases hrun
  have hweight : (([⟨linesTrace [1, 2], 2⟩, ⟨linesTrace [3, 4], 6⟩, ⟨linesTrace [5], 6⟩] :
      List TestCoverageDesc).map TestCoverageDesc.weight).sum = 14 := by
    decide +kernel
  rw [hweight] at hleast
  exact ⟨hresult, hleast⟩

/--
The second test covers a part of the lines of the first one, which is included for
the other line.  The flag of the group stays, and the second test is taken too.
-/
theorem optimize_of_stale_group :
    ¬∀ (sorting : TraceSort) (tests : List TestCoverageDesc),
      (∀ test ∈ tests,
        (∃ is, Trace.empty.read 0 is = .ok test.trace) ∧ test.trace.GroupInvariant ∧
          0 ≤ test.weight) →
      ∃ result, optimize sorting tests = some result ∧
        ∀ us : List TestCoverageDesc, us.Sublist tests →
          (∀ lineID, (∃ test ∈ us, test.Covers lineID) ↔
            ∃ test ∈ tests, test.Covers lineID) →
          (result.map TestCoverageDesc.weight).sum ≤ (us.map TestCoverageDesc.weight).sum := by
  intro h
  have hread : ∀ test : TestCoverageDesc, test ∈ [⟨linesTrace [1, 2], 1⟩, ⟨linesTrace [1], 1⟩] →
      ∃ is, Readable is ∧ Trace.empty.read 0 is = .ok test.trace := by
    intro test htest
    simp only [List.mem_cons, List.not_mem_nil, or_false] at htest
    rcases htest with rfl | rfl
    · exact ⟨linesText ["1", "2"], ⟨by decide +kernel, by decide +kernel⟩, by decide +kernel⟩
    · exact ⟨linesText ["1"], ⟨by decide +kernel, by decide +kernel⟩, by decide +kernel⟩
  have hinv := (readTests_spec hread).1
  have hweights : ∀ test ∈ [⟨linesTrace [1, 2], 1⟩, ⟨linesTrace [1], 1⟩],
      0 ≤ TestCoverageDesc.weight test := by
    decide +kernel
  obtain ⟨result, hrun, hleast⟩ :=
    h .insertion [⟨linesTrace [1, 2], 1⟩, ⟨linesTrace [1], 1⟩] (by
      intro test htest
      obtain ⟨is, -, his⟩ := hread test htest
      exact ⟨⟨is, his⟩, hinv test htest, hweights test htest⟩)
  have hresult : optimize .insertion [⟨linesTrace [1, 2], 1⟩, ⟨linesTrace [1], 1⟩] =
      some [⟨linesTrace [1, 2], 1⟩, ⟨linesTrace [1], 1⟩] := by
    decide +kernel
  rw [hresult] at hrun
  cases hrun
  -- the first test covers all lines
  have hsub : ∀ lineID ∈ coveredLines ((TestSet.ofTests
      [⟨linesTrace [1, 2], 1⟩, ⟨linesTrace [1], 1⟩]).trace 1),
      (⟨linesTrace [1, 2], 1⟩ : TestCoverageDesc).Covers lineID := by
    decide +kernel
  have hweight := hleast [⟨linesTrace [1, 2], 1⟩] (by simp) (by
    intro lineID
    constructor
    · rintro ⟨test, htest, hcover⟩
      exact ⟨test, by simp [List.mem_singleton.mp htest], hcover⟩
    · rintro ⟨test, htest, hcover⟩
      refine ⟨_, List.mem_singleton.mpr rfl, ?_⟩
      rcases List.mem_cons.mp htest with rfl | htest
      · exact hcover
      · rw [List.mem_singleton.mp htest] at hcover
        exact hsub lineID (mem_coveredLines.mpr ((ofTests_covers hinv rfl lineID).mpr hcover)))
  revert hweight
  decide +kernel

end Coverage
end KedrAux
