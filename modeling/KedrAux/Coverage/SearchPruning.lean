import KedrAux.Coverage.TraceSetIterator
import KedrAux.Lib.CoverSearch
import KedrAux.Lib.WeightedCover

/-!
# Pruning of the search

The loop of `TestSetOptimizer::optimize` goes through the sets of traces in
depth-first order.  When `setCheck` stops it, the extensions of the current set are
skipped, and `setDropAndNext` skips with them all sets that have a greater index in
the place of the last one.  The extensions can be skipped safely; the other sets are
jumped over.  Whether a set can be jumped over is told by the traces: it cannot when the
search would go on, with any covering set before as the best one, at each set that has a
smaller index in the place of one of its indices.
-/

namespace KedrAux
namespace Coverage
namespace TraceSetIterator

open SubsetOrder Relation
open CoverSearch (uncovered mem_uncovered price)

structure ValidTraces (traces : List TestTraceInfo) (m : Nat) : Prop where
  nonempty : traces ≠ []
  weight_pos : ∀ t ∈ traces, 0 < t.weight
  length : ∀ t ∈ traces, t.groups.length = m
  covers_some : ∀ t ∈ traces, 0 < t.groupsCovered
  covered : ∀ k, k < m → ∃ i, CoversGroup traces i k
  sWeight_eq : ∀ t ∈ traces, t.sWeight = t.weight / t.groupsCovered
  sorted : traces.Pairwise fun t t' => t.sWeight ≤ t'.sWeight

def setWeight (traces : List TestTraceInfo) (set : List Nat) : Rat :=
  (set.map (weightAt traces)).sum

/-- A set of indices of traces which covers all groups. -/
structure Covering (traces : List TestTraceInfo) (m : Nat) (set : List Nat) : Prop where
  indices : IndexSet traces.length set
  covers : CoversAll traces m set

structure Cheapest (traces : List TestTraceInfo) (m : Nat) (set : List Nat) : Prop where
  covering : Covering traces m set
  le : ∀ o, Covering traces m o → setWeight traces set ≤ setWeight traces o

def SearchStep (traces : List TestTraceInfo) (it it' : TraceSetIterator) : Prop :=
  searchBody traces it = some (.next it')

/-- The search comes to the iterator. -/
def Reached (traces : List TestTraceInfo) (it : TraceSetIterator) : Prop :=
  ∃ it0 it1, new traces = some it0 ∧ it0.setFirst traces = some it1 ∧
    ReflTransGen (SearchStep traces) it1 it

/-- The extensions of the current set are not visited. -/
def Stopped (traces : List TestTraceInfo) (it : TraceSetIterator) : Prop :=
  ∃ it', it.setCheck traces = some (it', false)

/-- The search is stopped at a set from which the set `o` differs in having a greater
index in the place of the last one. -/
def JumpsOver (traces : List TestTraceInfo) (it : TraceSetIterator) (o : List Nat) : Prop :=
  Stopped traces it ∧ ∃ i p k tl, it.currentSet = i :: p ∧ i < k ∧ o = p.reverse ++ k :: tl

/-- The set is jumped over, although it is lighter than the best one found till then. -/
def Lost (traces : List TestTraceInfo) (o : List Nat) : Prop :=
  ∃ u stop, Reached traces u ∧ u.setCheck traces = some (stop, false) ∧ JumpsOver traces u o ∧
    setWeight traces o < stop.optWeight

variable {traces : List TestTraceInfo} {m i : Nat} {set : List Nat}

section Groups

theorem count_eq_card (l : List Bool) (b : Bool) :
    l.count b = ((Finset.range l.length).filter fun k => l[k]? = some b).card := by
  induction l using List.reverseRecOn with
  | nil => rfl
  | append_singleton l x ih =>
    have hfilter : ((Finset.range l.length).filter fun k => (l ++ [x])[k]? = some b) =
        (Finset.range l.length).filter fun k => l[k]? = some b := by
      apply Finset.filter_congr
      intro k hk
      rw [List.getElem?_append_left (Finset.mem_range.mp hk)]
    rw [List.count_append, List.length_append, List.length_singleton, Finset.range_add_one,
      Finset.filter_insert, hfilter, ih]
    by_cases hx : x = b
    · rw [if_pos (by simp [hx]), Finset.card_insert_of_notMem (by simp), hx]
      simp
    · rw [if_neg (by simp [hx])]
      simp [hx]

instance (traces : List TestTraceInfo) (i k : Nat) : Decidable (CoversGroup traces i k) :=
  decidable_of_iff ((traces[i]?).bind (fun t => t.groups[k]?) = some true) Option.bind_eq_some_iff

def groupsOf (traces : List TestTraceInfo) (m i : Nat) : Finset Nat :=
  (Finset.range m).filter (CoversGroup traces i)

variable {k : Nat}

@[simp] theorem mem_groupsOf : k ∈ groupsOf traces m i ↔ k < m ∧ CoversGroup traces i k := by
  simp [groupsOf]

theorem ValidTraces.card_groupsOf (h : ValidTraces traces m) {t : TestTraceInfo}
    (ht : traces[i]? = some t) :
    (groupsOf traces m i).card = t.groupsCovered := by
  rw [TestTraceInfo.groupsCovered, count_eq_card, h.length t (List.mem_of_getElem? ht)]
  congr 1
  ext k
  rw [mem_groupsOf, Finset.mem_filter, Finset.mem_range]
  simp [CoversGroup, ht]

def uncoveredBy (traces : List TestTraceInfo) (m : Nat) (set : List Nat) : Finset Nat :=
  uncovered (groupsOf traces m) (Finset.range m) set

theorem mem_uncoveredBy :
    k ∈ uncoveredBy traces m set ↔ k < m ∧ ¬ ∃ i ∈ set, CoversGroup traces i k := by
  rw [uncoveredBy, mem_uncovered, Finset.mem_range]
  refine and_congr_right fun hk => not_congr (exists_congr fun i => and_congr_right fun _ => ?_)
  rw [mem_groupsOf, and_iff_right hk]

theorem uncoveredBy_eq_empty_iff : uncoveredBy traces m set = ∅ ↔ CoversAll traces m set := by
  rw [Finset.eq_empty_iff_forall_notMem, CoversAll]
  refine forall_congr' fun k => ?_
  rw [mem_uncoveredBy, not_and, not_not]

theorem covering_iff :
    Covering traces m set ↔
      CoverSearch.Covering traces.length (groupsOf traces m) (Finset.range m) set :=
  ⟨fun h => ⟨h.indices, uncoveredBy_eq_empty_iff.mpr h.covers⟩,
    fun h => ⟨h.indices, uncoveredBy_eq_empty_iff.mp h.covers⟩⟩

theorem CoverageIs.card_uncoveredBy {coverage : GroupsCoverage}
    (h : CoverageIs traces m set coverage) :
    coverage.groupsUncovered = (uncoveredBy traces m set).card := by
  rw [h.uncovered, count_eq_card, h.length]
  congr 2
  ext k
  rw [Finset.mem_filter, mem_uncoveredBy, Finset.mem_range]
  apply and_congr_right
  intro hk
  have hlt : k < coverage.covered.length := by rwa [h.length]
  have hcovered := h.covered k
  rw [List.getElem?_eq_getElem hlt, Option.some.injEq] at hcovered ⊢
  rw [← Bool.not_eq_true, hcovered]
  simp [hk]

end Groups

variable {it : TraceSetIterator}

section Check

@[simp] theorem setWeight_append (traces : List TestTraceInfo) (set tl : List Nat) :
    setWeight traces (set ++ tl) = setWeight traces set + setWeight traces tl := by
  simp [setWeight]

@[simp] theorem setWeight_reverse (traces : List TestTraceInfo) (set : List Nat) :
    setWeight traces set.reverse = setWeight traces set := by
  simp [setWeight, List.map_reverse, List.sum_reverse]

theorem ValidTraces.weightAt_nonneg (h : ValidTraces traces m) (i : Nat) :
    0 ≤ weightAt traces i := by
  unfold weightAt
  cases ht : traces[i]? with
  | none => exact le_rfl
  | some t => exact (h.weight_pos t (List.mem_of_getElem? ht)).le

theorem ValidTraces.setWeight_nonneg (h : ValidTraces traces m) (set : List Nat) :
    0 ≤ setWeight traces set := by
  apply List.sum_nonneg
  intro w hw
  obtain ⟨i, -, rfl⟩ := List.mem_map.mp hw
  exact h.weightAt_nonneg i

variable {next : TestTraceInfo} {tl : List Nat}

variable {j : Nat}

/-- Behind the trace `next` a group costs at least the special weight of `next`. -/
theorem ValidTraces.density_le (h : ValidTraces traces m) (hnext : traces[i]? = some next)
    (hij : i ≤ j) (hj : j < traces.length) :
    next.sWeight * (groupsOf traces m j).card ≤ weightAt traces j := by
  have htrace : traces[j]? = some traces[j] := List.getElem?_eq_getElem hj
  have hmem : traces[j] ∈ traces := List.getElem_mem hj
  have hle : next.sWeight ≤ traces[j].sWeight := by
    obtain ⟨hi, rfl⟩ := List.getElem?_eq_some_iff.mp hnext
    rcases hij.lt_or_eq with hlt | rfl
    · exact List.pairwise_iff_getElem.mp h.sorted i j hi hj hlt
    · exact le_rfl
  have hpos : (0 : Rat) < traces[j].groupsCovered := by
    exact_mod_cast h.covers_some _ hmem
  rw [h.sWeight_eq _ hmem, le_div_iff₀ hpos] at hle
  rw [h.card_groupsOf htrace, weightAt, htrace]
  exact hle

theorem ValidTraces.extension_le (h : ValidTraces traces m) (set : List Nat)
    (hnext : traces[i]? = some next) (hcovers : CoversAll traces m (set ++ tl)) (hnodup : tl.Nodup)
    (htl : ∀ j ∈ tl, i ≤ j ∧ j < traces.length) :
    next.sWeight * (uncoveredBy traces m set).card ≤ setWeight traces tl := by
  have hcover : WeightedCover.IsCover (groupsOf traces m) (uncoveredBy traces m set)
      tl.toFinset := by
    intro k hk
    obtain ⟨hkm, hnot⟩ := mem_uncoveredBy.mp hk
    obtain ⟨j, hj, hjk⟩ := hcovers k hkm
    rcases List.mem_append.mp hj with hj | hj
    · exact absurd ⟨j, hj, hjk⟩ hnot
    · exact Finset.mem_biUnion.mpr ⟨j, List.mem_toFinset.mpr hj, mem_groupsOf.mpr ⟨hkm, hjk⟩⟩
  have hnonneg : 0 ≤ next.sWeight := by
    have hmem := List.mem_of_getElem? hnext
    rw [h.sWeight_eq _ hmem]
    exact div_nonneg (h.weight_pos _ hmem).le (Nat.cast_nonneg _)
  have hbound := hcover.density_le (w := weightAt traces) hnonneg fun j hj => by
    obtain ⟨hij, hjn⟩ := htl j (List.mem_toFinset.mp hj)
    exact h.density_le hnext hij hjn
  rwa [List.sum_toFinset _ hnodup] at hbound

def Extends (it : TraceSetIterator) (o : List Nat) : Prop :=
  ∃ tl, o = it.currentSet.reverse ++ tl

theorem lt_of_mem_extension (hset : it.currentSet = i :: set)
    (ho : IndexSet traces.length (it.currentSet.reverse ++ tl)) (hj : j ∈ tl) :
    i + 1 ≤ j ∧ j < traces.length := by
  have hincreasing := ho.increasing
  rw [hset, List.reverse_cons, List.append_assoc, List.singleton_append] at hincreasing
  exact ⟨(List.pairwise_cons.mp (List.pairwise_append.mp hincreasing).2.1).1 j hj,
    ho.lt j (List.mem_append_right _ hj)⟩

/-- The further traces of a covering extension weigh at least as much as is left, when the
next trace is too heavy. -/
theorem ValidTraces.optWeight_sub_le (hv : ValidTraces traces m) {coverage : GroupsCoverage}
    (hcoverage : CoverageIs traces m it.currentSet coverage) (hne : coverage.groupsUncovered ≠ 0)
    (hset : it.currentSet = i :: set) (hnext : traces[i + 1]? = some next)
    (hdense : (it.optWeight - it.currentWeight) / coverage.groupsUncovered < next.sWeight)
    (ho : Covering traces m (it.currentSet.reverse ++ tl)) :
    it.optWeight - it.currentWeight ≤ setWeight traces tl := by
  have hbound := hv.extension_le it.currentSet hnext (by
    intro k hk
    obtain ⟨j, hj, hjk⟩ := ho.covers k hk
    exact ⟨j, by simpa using hj, hjk⟩)
    ((List.pairwise_append.mp ho.indices.increasing).2.1.imp fun hlt => hlt.ne)
    (fun j hj => lt_of_mem_extension hset ho.indices hj)
  have hcard := hcoverage.card_uncoveredBy
  have hpos : (0 : Rat) < coverage.groupsUncovered := by
    have hnonneg : 0 ≤ coverage.groupsUncovered := by
      rw [hcard]
      exact Int.natCast_nonneg _
    exact_mod_cast lt_of_le_of_ne hnonneg hne.symm
  rw [div_lt_iff₀ hpos] at hdense
  have hcast : (coverage.groupsUncovered : Rat) =
      ((uncoveredBy traces m it.currentSet).card : Rat) := by
    exact_mod_cast congrArg (Int.cast (R := Rat)) hcard
  rw [hcast] at hdense
  linarith

/-- What `setCheck` does to the optimal set when it stops the search. -/
structure StopResult (traces : List TestTraceInfo) (m : Nat) (it it' : TraceSetIterator) :
    Prop where
  search : SearchInvariant traces m it'
  currentSet_eq : it'.currentSet = it.currentSet
  opt : (it'.optSet = it.optSet ∧ it'.optWeight = it.optWeight) ∨
    (it'.optSet = it.currentSet.reverse ∧ it'.optWeight = it.currentWeight)
  le : it'.optWeight ≤ it.optWeight
  bound : ∀ o, Covering traces m o → Extends it o → it'.optWeight ≤ setWeight traces o

/-- `setCheck` goes on with a set that does not cover all groups, or it stops and no
extension is better than the optimal set. -/
theorem setCheck_cases (hv : ValidTraces traces m) (h : SearchInvariant traces m it)
    (hset : it.currentSet = i :: set) :
    (it.setCheck traces = some (it, true) ∧ i + 1 < traces.length ∧
        ¬ CoversAll traces m it.currentSet) ∨
      ∃ it', it.setCheck traces = some (it', false) ∧ StopResult traces m it it' := by
  obtain ⟨coverage, hhead, hcoverage⟩ := h.stack.head
  have hcurrent : setWeight traces it.currentSet.reverse = it.currentWeight := by
    rw [setWeight_reverse, h.weight, setWeight]
  have hextends : ∀ o, Extends it o → it.currentWeight ≤ setWeight traces o := by
    rintro o ⟨tl, rfl⟩
    rw [setWeight_append, hcurrent]
    have := hv.setWeight_nonneg tl
    linarith
  unfold setCheck
  split_ifs with hweight
  · -- the current set is heavier than the optimal one
    exact Or.inr ⟨it, rfl, h, rfl, Or.inl ⟨rfl, rfl⟩, le_rfl,
      fun o _ ho => hweight.trans (hextends o ho)⟩
  · simp only [hhead, Option.bind_eq_bind, Option.bind_some]
    split_ifs with hzero
    · -- the current set is the new optimal one
      right
      obtain ⟨it', canBeContinued, hrun, h', hset'⟩ := setCheck_spec h hset
      have hresult : it.setCheck traces = some ({ it with
          optSet := it.currentSet.reverse, optWeight := it.currentWeight }, false) := by
        simp [setCheck, hweight, hhead, hzero]
      rw [hresult] at hrun
      cases hrun
      exact ⟨_, rfl, h', rfl, Or.inr ⟨rfl, rfl⟩, (not_le.mp hweight).le,
        fun o _ ho => hextends o ho⟩
    · have hnot : ¬ CoversAll traces m it.currentSet := fun hall =>
        hzero (hcoverage.groupsUncovered_eq_zero_iff.mpr hall)
      -- a covering set that extends the current one has further traces
      have hfurther : ∀ o, Covering traces m o → ∀ tl, o = it.currentSet.reverse ++ tl →
          tl ≠ [] := by
        rintro o ho tl rfl rfl
        apply hnot
        intro k hk
        obtain ⟨j, hj, hjk⟩ := ho.covers k hk
        exact ⟨j, by simpa using hj, hjk⟩
      simp only [hset, List.head?_cons, Option.bind_some]
      cases hnext : traces[i + 1]? with
      | none =>
        right
        refine ⟨it, by simp, h, rfl, Or.inl ⟨rfl, rfl⟩, le_rfl, ?_⟩
        rintro o ho ⟨tl, rfl⟩
        obtain ⟨j, hj⟩ := List.exists_mem_of_ne_nil tl (hfurther _ ho tl rfl)
        have hrange := lt_of_mem_extension hset ho.indices hj
        have hend := List.getElem?_eq_none_iff.mp hnext
        omega
      | some next =>
        simp only [Option.pure_def, Option.some.injEq, Prod.mk.injEq, Bool.not_eq_true',
          decide_eq_false_iff_not, Bool.not_eq_false', decide_eq_true_eq]
        by_cases hdense :
            (it.optWeight - it.currentWeight) / coverage.groupsUncovered < next.sWeight
        · right
          refine ⟨it, ⟨rfl, hdense⟩, h, rfl, Or.inl ⟨rfl, rfl⟩, le_rfl, ?_⟩
          rintro o ho ⟨tl, rfl⟩
          rw [setWeight_append, hcurrent]
          have hbound := hv.optWeight_sub_le hcoverage hzero hset hnext hdense ho
          linarith
        · left
          refine ⟨⟨trivial, hdense⟩, ?_, hset ▸ hnot⟩
          exact (List.getElem?_eq_some_iff.mp hnext).1

end Check

variable {it' : TraceSetIterator}

section Rounds

def SameOpt (it it' : TraceSetIterator) : Prop :=
  it'.optSet = it.optSet ∧ it'.optWeight = it.optWeight

theorem SameOpt.trans {it it'' : TraceSetIterator} (h : SameOpt it it') (h' : SameOpt it' it'') :
    SameOpt it it'' :=
  ⟨h'.1.trans h.1, h'.2.trans h.2⟩

theorem setAddTraceAt_opt {index : Nat} (h : it.setAddTraceAt traces index = some it') :
    SameOpt it it' := by
  simp only [setAddTraceAt, Option.bind_eq_bind, Option.bind_eq_some_iff, Option.pure_def,
    Option.some.injEq] at h
  obtain ⟨_, -, _, -, _, -, rfl⟩ := h
  exact ⟨rfl, rfl⟩

theorem setDropTrace_opt (h : it.setDropTrace traces = some it') : SameOpt it it' := by
  simp only [setDropTrace, Option.bind_eq_bind, Option.bind_eq_some_iff, Option.pure_def,
    Option.some.injEq] at h
  obtain ⟨_, -, _, -, rfl⟩ := h
  exact ⟨rfl, rfl⟩

theorem setAddTrace_opt (h : it.setAddTrace traces = some (it', true)) : SameOpt it it' := by
  simp only [setAddTrace, Option.bind_eq_bind, Option.bind_eq_some_iff] at h
  obtain ⟨last, -, h⟩ := h
  split_ifs at h
  · cases h
  · obtain ⟨it1, hadd, heq⟩ := Option.bind_eq_some_iff.mp h
    cases heq
    exact setAddTraceAt_opt hadd

theorem setDropAndNext_opt {moved : Bool} (h : it.setDropAndNext traces = some (it', moved)) :
    SameOpt it it' := by
  simp only [setDropAndNext, Option.bind_eq_bind, Option.bind_eq_some_iff] at h
  obtain ⟨it1, hdrop, h⟩ := h
  cases hlast : it1.currentSet.head? with
  | none =>
    rw [hlast] at h
    cases h
    exact setDropTrace_opt hdrop
  | some last =>
    rw [hlast] at h
    obtain ⟨it2, hdrop2, h⟩ := Option.bind_eq_some_iff.mp h
    obtain ⟨it3, hadd, heq⟩ := Option.bind_eq_some_iff.mp h
    cases heq
    exact ((setDropTrace_opt hdrop).trans (setDropTrace_opt hdrop2)).trans
      (setAddTraceAt_opt hadd)

structure AddsNext (traces : List TestTraceInfo) (m i : Nat) (it it' : TraceSetIterator) :
    Prop where
  step : SearchStep traces it it'
  search : SearchInvariant traces m it'
  not_stopped : ¬ Stopped traces it
  not_covers : ¬ CoversAll traces m it.currentSet
  currentSet_eq : it'.currentSet = (i + 1) :: it.currentSet
  opt : SameOpt it it'

/-- The search drops the last trace and replaces the one before, `j`, by the next one. -/
structure MovesOn (traces : List TestTraceInfo) (m j : Nat) (rest : List Nat)
    (it stop it' : TraceSetIterator) : Prop where
  step : SearchStep traces it it'
  search : SearchInvariant traces m it'
  currentSet_eq : it'.currentSet = (j + 1) :: rest
  opt : SameOpt stop it'

theorem searchBody_cases
    (hv : ValidTraces traces m) (h : SearchInvariant traces m it) {i : Nat} {set : List Nat}
    (hset : it.currentSet = i :: set) :
    (∃ it', AddsNext traces m i it it') ∨
      ∃ stop, it.setCheck traces = some (stop, false) ∧ StopResult traces m it stop ∧
        ((set = [] ∧ ∃ r, searchBody traces it = some (.done r) ∧ SameOpt stop r) ∨
          ∃ j rest it', set = j :: rest ∧ MovesOn traces m j rest it stop it') := by
  rcases setCheck_cases hv h hset with ⟨hcheck, hnext, hnot⟩ | ⟨stop, hcheck, hstop⟩
  · left
    rcases setAddTrace_spec hv.length h hset with hend | ⟨it', hadd, h', -, hset'⟩
    · simp only [setAddTrace, hset, List.head?_cons, Option.bind_eq_bind, Option.bind_some,
        if_neg (by omega : ¬ i + 1 ≥ traces.length)] at hend
      obtain ⟨it1, -, heq⟩ := Option.bind_eq_some_iff.mp hend
      cases heq
    · refine ⟨it', ?_, h', ?_, hnot, by rw [hset', hset], setAddTrace_opt hadd⟩
      · simp [SearchStep, searchBody, hcheck, hadd]
      · rintro ⟨stop, hstop⟩
        rw [hcheck] at hstop
        cases hstop
  · right
    have hset' : stop.currentSet = i :: set := hstop.currentSet_eq.trans hset
    refine ⟨stop, hcheck, hstop, ?_⟩
    rcases setDropAndNext_spec hv.length hstop.search hset' with
      ⟨r, hdrop, -, -⟩ | ⟨it', j, rest, hdrop, h', rfl, -, hset''⟩
    · left
      refine ⟨?_, r, by simp [searchBody, hcheck, hdrop], setDropAndNext_opt hdrop⟩
      cases set with
      | nil => rfl
      | cons j rest =>
        obtain ⟨it1, hdrop1, -, hset1, -⟩ := setDropTrace_spec hstop.search hset'
        simp only [setDropAndNext, hdrop1, Option.bind_eq_bind, Option.bind_some, hset1,
          List.head?_cons] at hdrop
        obtain ⟨it2, -, hdrop⟩ := Option.bind_eq_some_iff.mp hdrop
        obtain ⟨it3, -, heq⟩ := Option.bind_eq_some_iff.mp hdrop
        cases heq
    · right
      exact ⟨j, rest, it', rfl, by simp [SearchStep, searchBody, hcheck, hdrop], h', hset'',
        setDropAndNext_opt hdrop⟩

end Rounds

section Order

def visitedSet (it : TraceSetIterator) : List Nat :=
  it.currentSet.reverse

variable {o : List Nat}

theorem visitedSet_eq (hset : it.currentSet = i :: set) : visitedSet it = set.reverse ++ [i] := by
  rw [visitedSet, hset, List.reverse_cons]

/-- What is known of the iterators that the search comes to. -/
structure RunInvariant (traces : List TestTraceInfo) (m : Nat) (it : TraceSetIterator) :
    Prop where
  search : SearchInvariant traces m it
  nonempty : it.currentSet ≠ []
  optWeight_eq : it.optWeight = setWeight traces it.optSet
  optWeight_le : it.optWeight ≤ setWeight traces (List.range traces.length)
  /-- The best set comes before the current one. -/
  optSet_before : it.optSet = List.range traces.length ∨
    (∃ u, Reached traces u ∧ it.optSet = visitedSet u) ∧ it.optSet < visitedSet it
  accounted : ∀ o, Covering traces m o →
    visitedSet it ≤ o ∨ Lost traces o ∨ it.optWeight ≤ setWeight traces o
  /-- The search has gone on with the sets before in depth-first order. -/
  came : ∀ p k tl i, visitedSet it = p ++ k :: tl → (∀ j ∈ p, j < i) → i < k ∨ i = k ∧ tl ≠ [] →
    ∃ u, Reached traces u ∧ visitedSet u = p ++ [i] ∧ ¬ Stopped traces u

theorem Covering.ne_nil (hv : ValidTraces traces m) (ho : Covering traces m o) : o ≠ [] := by
  rintro rfl
  obtain ⟨t, rest, htraces⟩ := List.exists_cons_of_ne_nil hv.nonempty
  have hmem : t ∈ traces := by simp [htraces]
  have hpos := hv.covers_some t hmem
  have hle : t.groupsCovered ≤ t.groups.length := List.count_le_length
  rw [hv.length t hmem] at hle
  obtain ⟨i, hi, -⟩ := ho.covers 0 (by omega)
  cases hi

theorem setWeight_range (traces : List TestTraceInfo) :
    setWeight traces (List.range traces.length) = (traces.map TestTraceInfo.weight).sum := by
  unfold setWeight
  congr 1
  apply List.ext_getElem
  · simp
  · intro i hi hi'
    simp only [List.length_map, List.length_range] at hi
    simp [weightAt, List.getElem?_eq_getElem hi]

theorem runInvariant_first (hv : ValidTraces traces m) :
    ∃ it0 it1, new traces = some it0 ∧ it0.setFirst traces = some it1 ∧
      RunInvariant traces m it1 := by
  obtain ⟨it0, it1, hnew, hfirst, h, hset, hopt, hweight⟩ := setFirst_spec hv.length hv.nonempty
  refine ⟨it0, it1, hnew, hfirst, h, by simp [hset], ?_, ?_, Or.inl hopt, ?_, ?_⟩
  · rw [hopt, hweight, setWeight_range]
  · rw [hweight, setWeight_range]
  · intro o ho
    left
    obtain ⟨a, tl, rfl⟩ := List.exists_cons_of_ne_nil (ho.ne_nil hv)
    rw [visitedSet, hset]
    exact append_singleton_le [] (Nat.zero_le a) tl
  · intro p k tl i heq _ hi
    have hsingle : [0] = p ++ k :: tl := by rw [← heq, visitedSet, hset, List.reverse_singleton]
    rcases List.append_eq_singleton_iff.mp hsingle.symm with ⟨rfl, hcons⟩ | ⟨-, hcons⟩
    · obtain ⟨rfl, rfl⟩ := List.cons.inj hcons
      rcases hi with hlt | ⟨-, hne⟩
      · exact absurd hlt (Nat.not_lt_zero i)
      · exact absurd rfl hne
    · cases hcons

variable {stop : TraceSetIterator}

/-- A set that the search leaves behind when it is stopped has no chance, or is jumped over. -/
theorem StopResult.accounted (hreached : Reached traces it)
    (hcheck : it.setCheck traces = some (stop, false)) (hstop : StopResult traces m it stop)
    (hset : it.currentSet = i :: set) (ho : Covering traces m o) (hle : visitedSet it ≤ o) :
    stop.optWeight ≤ setWeight traces o ∨ Lost traces o ∨
      ∃ q a tl b tl', set.reverse = q ++ a :: tl ∧ o = q ++ b :: tl' ∧ a < b := by
  rcases hle.lt_or_eq with hlt | rfl
  · rw [visitedSet_eq hset] at hlt
    rcases behind_cases hlt with ⟨k, tl, rfl⟩ | ⟨k, tl, hik, rfl⟩ | hleaves
    · left
      refine hstop.bound _ ho ⟨k :: tl, ?_⟩
      rw [hset, List.reverse_cons, List.append_assoc]
      rfl
    · rcases le_or_gt stop.optWeight (setWeight traces (set.reverse ++ k :: tl)) with hge | hlighter
      · exact Or.inl hge
      · exact Or.inr (Or.inl ⟨it, stop, hreached, hcheck,
          ⟨⟨stop, hcheck⟩, i, set, k, tl, hset, hik, rfl⟩, hlighter⟩)
    · exact Or.inr (Or.inr hleaves)
  · exact Or.inl (hstop.bound _ ho ⟨[], (List.append_nil _).symm⟩)

theorem StopResult.optWeight_eq (h : RunInvariant traces m it)
    (hstop : StopResult traces m it stop) :
    stop.optWeight = setWeight traces stop.optSet := by
  rcases hstop.opt with ⟨hset, hweight⟩ | ⟨hset, hweight⟩
  · rw [hset, hweight, h.optWeight_eq]
  · rw [hset, hweight, setWeight_reverse, h.search.weight, setWeight]

theorem StopResult.optSet_before (h : RunInvariant traces m it) (hreached : Reached traces it)
    (hstop : StopResult traces m it stop) :
    stop.optSet = List.range traces.length ∨
      (∃ u, Reached traces u ∧ stop.optSet = visitedSet u) ∧ stop.optSet ≤ visitedSet it := by
  rcases hstop.opt with ⟨hset, -⟩ | ⟨hset, -⟩
  · rw [hset]
    exact h.optSet_before.imp id (And.imp_right le_of_lt)
  · exact Or.inr ⟨⟨it, hreached, hset⟩, hset.le⟩

/-- The step lemma. -/
theorem RunInvariant.step
    (hv : ValidTraces traces m) (h : RunInvariant traces m it) (hreached : Reached traces it)
    (hstep : SearchStep traces it it') :
    RunInvariant traces m it' := by
  obtain ⟨i, set, hset⟩ := List.exists_cons_of_ne_nil h.nonempty
  rcases searchBody_cases hv h.search hset with
    ⟨it1, hadds⟩ | ⟨stop, hcheck, hstop, ⟨-, r, hdone, -⟩ | ⟨j, rest, it1, rfl, hmoves⟩⟩
  · obtain rfl : it1 = it' := by
      have heq := hadds.step.symm.trans hstep
      cases heq
      rfl
    have hvisited : visitedSet it1 = visitedSet it ++ [i + 1] := by
      rw [visitedSet_eq hadds.currentSet_eq]
      rfl
    have hlt : visitedSet it < visitedSet it1 := hvisited ▸ lt_append_cons _ _ _
    refine ⟨hadds.search, by simp [hadds.currentSet_eq], ?_, ?_, ?_, ?_, ?_⟩
    · rw [hadds.opt.1, hadds.opt.2, h.optWeight_eq]
    · rw [hadds.opt.2]
      exact h.optWeight_le
    · rw [hadds.opt.1]
      exact h.optSet_before.imp id (And.imp_right fun hbefore => hbefore.trans hlt)
    · intro o ho
      rw [hadds.opt.2]
      rcases h.accounted o ho with hle | hother
      · left
        rcases hle.lt_or_eq with hlt | rfl
        · rw [visitedSet_eq hset] at hlt
          rw [hvisited, visitedSet_eq hset, List.append_assoc]
          exact succ_le_of_lt ho.indices.increasing hlt
        · refine absurd ?_ hadds.not_covers
          intro k hk
          obtain ⟨j, hj, hjk⟩ := ho.covers k hk
          exact ⟨j, List.mem_reverse.mp hj, hjk⟩
      · exact Or.inr hother
    · intro p k tl i' heq hp hi'
      rw [hvisited] at heq
      rcases List.eq_nil_or_concat tl with rfl | ⟨tl, c, rfl⟩
      · -- nothing lies between the last index and the next one
        obtain ⟨rfl, hcons⟩ := List.append_inj' heq rfl
        obtain ⟨rfl, -⟩ := List.cons.inj hcons
        have hlast := hp i (by rw [visitedSet_eq hset]; simp)
        rcases hi' with hlt | ⟨-, hne⟩
        · omega
        · exact absurd rfl hne
      · have heq' : visitedSet it ++ [i + 1] = (p ++ k :: tl) ++ [c] := by simpa using heq
        have hold := (List.append_inj' heq' rfl).1
        rcases List.eq_nil_or_concat tl with rfl | ⟨tl, d, rfl⟩
        · rcases hi' with hlt | ⟨rfl, -⟩
          · exact h.came p k [] i' hold hp (Or.inl hlt)
          · exact ⟨it, hreached, hold, hadds.not_stopped⟩
        · exact h.came p k _ i' hold hp (hi'.imp id (And.imp_right fun _ => by simp))
  · have heq := hdone.symm.trans hstep
    cases heq
  · obtain rfl : it1 = it' := by
      have heq := hmoves.step.symm.trans hstep
      cases heq
      rfl
    have hvisited := visitedSet_eq hmoves.currentSet_eq
    have hold : visitedSet it = rest.reverse ++ j :: [i] := by
      rw [visitedSet_eq hset, List.reverse_cons, List.append_assoc]
      rfl
    have hlt : visitedSet it < visitedSet it1 := by
      rw [hvisited, hold]
      exact append_lt_append rest.reverse (Nat.lt_succ_self j) _ _
    refine ⟨hmoves.search, by simp [hmoves.currentSet_eq], ?_, ?_, ?_, ?_, ?_⟩
    · rw [hmoves.opt.1, hmoves.opt.2]
      exact hstop.optWeight_eq h
    · rw [hmoves.opt.2]
      exact hstop.le.trans h.optWeight_le
    · rw [hmoves.opt.1]
      exact (hstop.optSet_before h hreached).imp id
        (And.imp_right fun hbefore => hbefore.trans_lt hlt)
    · intro o ho
      rw [hmoves.opt.2]
      rcases h.accounted o ho with hle | hlost | hweight
      · rcases hstop.accounted hreached hcheck hset ho hle with
          hbound | hlost | ⟨q, a, tl, b, tl', hleaves, rfl, hab⟩
        · exact Or.inr (Or.inr hbound)
        · exact Or.inr (Or.inl hlost)
        · left
          rw [hvisited]
          rw [List.reverse_cons] at hleaves
          exact next_le_of_leaves hleaves hab
      · exact Or.inr (Or.inl hlost)
      · exact Or.inr (Or.inr (hstop.le.trans hweight))
    · intro p k tl i' heq hp hi'
      rw [hvisited] at heq
      rcases List.eq_nil_or_concat tl with rfl | ⟨tl, c, rfl⟩
      · obtain ⟨rfl, hcons⟩ := List.append_inj' heq rfl
        obtain ⟨rfl, -⟩ := List.cons.inj hcons
        rcases hi' with hlt | ⟨-, hne⟩
        · refine h.came _ j [i] i' hold hp ?_
          rcases (Nat.lt_succ_iff.mp hlt).lt_or_eq with hlt | rfl
          · exact Or.inl hlt
          · exact Or.inr ⟨rfl, by simp⟩
        · exact absurd rfl hne
      · have heq' : rest.reverse ++ [j + 1] = (p ++ k :: tl) ++ [c] := by simpa using heq
        refine h.came p k (tl ++ [j, i]) i' ?_ hp (hi'.imp id (And.imp_right fun _ => by simp))
        rw [hold, (List.append_inj' heq' rfl).1]
        simp

end Order

section Runs

theorem Reached.step (h : Reached traces it) (hstep : SearchStep traces it it') :
    Reached traces it' := by
  obtain ⟨it0, it1, hnew, hfirst, hsteps⟩ := h
  exact ⟨it0, it1, hnew, hfirst, hsteps.tail hstep⟩

/-- What is known of the iterators holds for all that the search comes to. -/
theorem Reached.runInvariant (hv : ValidTraces traces m) (h : Reached traces it) :
    RunInvariant traces m it := by
  obtain ⟨it0, it1, hnew, hfirst, hsteps⟩ := h
  obtain ⟨it0', it1', hnew', hfirst', hstart⟩ := runInvariant_first hv
  rw [hnew] at hnew'
  cases hnew'
  rw [hfirst] at hfirst'
  cases hfirst'
  induction hsteps with
  | refl => exact hstart
  | tail hsteps hstep ih => exact ih.step hv ⟨it0, it1, hnew, hfirst, hsteps⟩ hstep

theorem search_ends (hv : ValidTraces traces m) :
    ∃ r last, search traces = some r ∧ Reached traces last ∧
      searchBody traces last = some (.done r) := by
  obtain ⟨it0, it1, hnew, hfirst, h, hset, -⟩ := setFirst_spec hv.length hv.nonempty
  have hfuel : setsLeft traces.length it1.currentSet < 2 ^ traces.length := by
    rw [hset]
    exact setsLeft_first (List.length_pos_iff.mpr hv.nonempty)
  obtain ⟨r, hrun, last, hlast, hdone⟩ := Loop.run_eq_some (Reached traces)
    (fun r => ∃ last, Reached traces last ∧ searchBody traces last = some (.done r))
    (fun it => setsLeft traces.length it.currentSet)
    (fun it hit => by
      have hrun := hit.runInvariant hv
      rcases searchBody_spec hv.length hrun.search hrun.nonempty with
        ⟨it', hstep, -, hlt⟩ | ⟨r, hdone, -⟩
      · exact Or.inl ⟨it', hstep, hit.step hstep, hlt⟩
      · exact Or.inr ⟨r, hdone, it, hit, hdone⟩)
    ⟨it0, it1, hnew, hfirst, ReflTransGen.refl⟩ hfuel
  refine ⟨r, last, ?_, hlast, hdone⟩
  simp only [search, hnew, hfirst, Option.bind_eq_bind, Option.bind_some]
  exact hrun

structure SearchResult (traces : List TestTraceInfo) (m : Nat) (r : TraceSetIterator) :
    Prop where
  optWeight_eq : r.optWeight = setWeight traces r.optSet
  optSet_visited : r.optSet = List.range traces.length ∨
    ∃ u, Reached traces u ∧ r.optSet = visitedSet u
  accounted : ∀ o, Covering traces m o → Lost traces o ∨ r.optWeight ≤ setWeight traces o

theorem search_result (hv : ValidTraces traces m) :
    ∃ r, search traces = some r ∧ SearchResult traces m r := by
  obtain ⟨r, last, hrun, hlast, hdone⟩ := search_ends hv
  refine ⟨r, hrun, ?_⟩
  have h := hlast.runInvariant hv
  obtain ⟨i, set, hset⟩ := List.exists_cons_of_ne_nil h.nonempty
  rcases searchBody_cases hv h.search hset with
    ⟨it', hadds⟩ | ⟨stop, hcheck, hstop, ⟨rfl, r', hdone', hopt⟩ | ⟨j, rest, it', -, hmoves⟩⟩
  · have heq := hadds.step.symm.trans hdone
    cases heq
  · have heq := hdone'.symm.trans hdone
    cases heq
    refine ⟨?_, ?_, ?_⟩
    · rw [hopt.1, hopt.2]
      exact hstop.optWeight_eq h
    · rw [hopt.1]
      exact (hstop.optSet_before h hlast).imp id And.left
    · intro o ho
      rw [hopt.2]
      rcases h.accounted o ho with hle | hlost | hweight
      · rcases hstop.accounted hlast hcheck hset ho hle with
          hbound | hlost | ⟨q, a, tl, b, tl', hleaves, -⟩
        · exact Or.inr hbound
        · exact Or.inl hlost
        · simp at hleaves
      · exact Or.inl hlost
      · exact Or.inr (hstop.le.trans hweight)
  · have heq := hmoves.step.symm.trans hdone
    cases heq

end Runs

section Optimal

/-- The search finds a covering set of least weight. -/
def SearchOptimal (traces : List TestTraceInfo) (m : Nat) : Prop :=
  ∃ it, search traces = some it ∧ CoversAll traces m it.optSet ∧
    ∀ o, Covering traces m o → setWeight traces it.optSet ≤ setWeight traces o

theorem ValidTraces.range_covers (hv : ValidTraces traces m) :
    CoversAll traces m (List.range traces.length) := by
  intro k hk
  obtain ⟨i, t, ht, hcover⟩ := hv.covered k hk
  exact ⟨i, List.mem_range.mpr (List.getElem?_eq_some_iff.mp ht).1, t, ht, hcover⟩

theorem SearchInvariant.visitedSet_indices (h : SearchInvariant traces m it) :
    IndexSet traces.length (visitedSet it) where
  increasing := List.pairwise_reverse.mpr h.increasing
  lt i hi := h.inRange i (List.mem_reverse.mp hi)

theorem ValidTraces.price_eq (hv : ValidTraces traces m) {t : TestTraceInfo}
    (ht : traces[i]? = some t) :
    price (weightAt traces) (groupsOf traces m) i = t.sWeight := by
  rw [price, hv.card_groupsOf ht, hv.sWeight_eq t (List.mem_of_getElem? ht), weightAt, ht]
  rfl

theorem uncoveredBy_visitedSet (traces : List TestTraceInfo) (m : Nat) (it : TraceSetIterator) :
    uncoveredBy traces m (visitedSet it) = uncoveredBy traces m it.currentSet := by
  rw [uncoveredBy, uncoveredBy, uncovered, uncovered, visitedSet, List.toFinset_reverse]

/-- When the search goes on with the current set. -/
theorem not_stopped_iff (hv : ValidTraces traces m) (h : SearchInvariant traces m it)
    (hset : it.currentSet = i :: set) :
    ¬ Stopped traces it ↔
      i + 1 < traces.length ∧ uncoveredBy traces m (visitedSet it) ≠ ∅ ∧
        price (weightAt traces) (groupsOf traces m) (i + 1) *
            (uncoveredBy traces m (visitedSet it)).card ≤
          it.optWeight - it.currentWeight := by
  obtain ⟨coverage, hhead, hcoverage⟩ := h.stack.head
  rw [uncoveredBy_visitedSet]
  have hcard : (coverage.groupsUncovered : Rat) = (uncoveredBy traces m it.currentSet).card := by
    exact_mod_cast congrArg (Int.cast (R := Rat)) hcoverage.card_uncoveredBy
  have hzero : coverage.groupsUncovered = 0 ↔ uncoveredBy traces m it.currentSet = ∅ := by
    rw [hcoverage.groupsUncovered_eq_zero_iff, uncoveredBy_eq_empty_iff]
  have hpos : uncoveredBy traces m it.currentSet ≠ ∅ →
      (0 : Rat) < (uncoveredBy traces m it.currentSet).card := by
    intro hne
    exact_mod_cast Finset.card_pos.mpr (Finset.nonempty_of_ne_empty hne)
  constructor
  · intro hnot
    rcases setCheck_cases hv h hset with ⟨hcheck, hnext, hcovers⟩ | ⟨stop, hcheck, -⟩
    · have hne : uncoveredBy traces m it.currentSet ≠ ∅ := fun hempty =>
        hcovers (uncoveredBy_eq_empty_iff.mp hempty)
      refine ⟨hnext, hne, ?_⟩
      have htrace := List.getElem?_eq_getElem hnext
      unfold setCheck at hcheck
      split_ifs at hcheck with hweight
      · cases hcheck
      · simp only [hhead, Option.bind_eq_bind, Option.bind_some, if_neg (mt hzero.mp hne), hset,
          List.head?_cons, htrace, Option.pure_def, Option.some.injEq, Prod.mk.injEq,
          Bool.not_eq_true', decide_eq_false_iff_not, not_lt] at hcheck
        rw [hv.price_eq htrace, ← hcard, ← le_div_iff₀ (hcard ▸ hpos hne)]
        exact hcheck.2
    · exact absurd ⟨stop, hcheck⟩ hnot
  · rintro ⟨hnext, hne, hdense⟩ ⟨stop, hcheck⟩
    have htrace := List.getElem?_eq_getElem hnext
    rw [hv.price_eq htrace] at hdense
    have hmem := List.mem_of_getElem? htrace
    have hprice : 0 < traces[i + 1].sWeight := by
      rw [hv.sWeight_eq _ hmem]
      exact div_pos (hv.weight_pos _ hmem) (by exact_mod_cast hv.covers_some _ hmem)
    unfold setCheck at hcheck
    split_ifs at hcheck with hweight
    · have hleft := mul_pos hprice (hpos hne)
      linarith
    · simp only [hhead, Option.bind_eq_bind, Option.bind_some, if_neg (mt hzero.mp hne), hset,
        List.head?_cons, htrace, Option.pure_def, Option.some.injEq, Prod.mk.injEq,
        Bool.not_eq_false', decide_eq_true_eq] at hcheck
      have hlt := hcheck.2
      rw [div_lt_iff₀ (hcard ▸ hpos hne), hcard] at hlt
      exact absurd hdense (not_le.mpr hlt)

theorem RunInvariant.currentWeight_eq (h : RunInvariant traces m it) :
    it.currentWeight = setWeight traces (visitedSet it) := by
  rw [visitedSet, setWeight_reverse, h.search.weight, setWeight]

/-- A cheapest set that cannot be jumped over. -/
def FindableSet (traces : List TestTraceInfo) (m : Nat) (o : List Nat) : Prop :=
  CoverSearch.Findable traces.length (weightAt traces) (groupsOf traces m) (Finset.range m) o

instance (traces : List TestTraceInfo) (m : Nat) (o : List Nat) :
    Decidable (FindableSet traces m o) :=
  inferInstanceAs (Decidable (CoverSearch.Findable _ _ _ _ o))

theorem FindableSet.not_jumpsOver {o : List Nat} (hv : ValidTraces traces m)
    (ho : FindableSet traces m o) (hreached : Reached traces it) :
    ¬ JumpsOver traces it o := by
  rintro ⟨hstopped, i, p, k, tl, hset, hik, heq⟩
  have h := hreached.runInvariant hv
  have hvisited := visitedSet_eq hset
  have hincreasing := h.search.visitedSet_indices.increasing
  rw [hvisited, List.pairwise_append] at hincreasing
  obtain ⟨huncovered, hprice⟩ := ho.continues p.reverse i k tl heq
    (fun j hj => hincreasing.2.2 j hj i (List.mem_singleton_self i)) hik
  have hk := ho.cheapest.covering.indices.lt k (by simp [heq])
  refine (not_stopped_iff hv h.search hset).mpr ⟨by omega, ?_, ?_⟩ hstopped
  · rw [hvisited]
    exact huncovered
  · rw [h.currentWeight_eq, h.optWeight_eq, hvisited]
    refine hprice _ (h.optSet_before.imp id ?_)
    rintro ⟨⟨u, hu, hopt⟩, hbefore⟩
    rw [hvisited] at hbefore
    refine ⟨covering_iff.mp ⟨?_, ?_⟩, hbefore⟩
    · rw [hopt]
      exact (hu.runInvariant hv).search.visitedSet_indices
    · rcases h.search.optCovers with hrange | hcovers
      · rw [hrange]
        exact hv.range_covers
      · exact hcovers

/-- A set that the search came to is findable when no lighter set was lost. -/
theorem Reached.findableSet (hv : ValidTraces traces m) (hreached : Reached traces it)
    (hcheapest : Cheapest traces m (visitedSet it))
    (hlost : ∀ o, Covering traces m o → ¬ Lost traces o) :
    FindableSet traces m (visitedSet it) := by
  refine ⟨⟨covering_iff.mp hcheapest.covering,
    fun o ho => hcheapest.le o (covering_iff.mpr ho)⟩, ?_⟩
  intro p i k tl heq hp hik
  obtain ⟨u, hu, hvisited, hnot⟩ := (hreached.runInvariant hv).came p k tl i heq hp (Or.inl hik)
  have h := hu.runInvariant hv
  have hset : u.currentSet = i :: p.reverse := by
    rw [← List.reverse_reverse u.currentSet, ← visitedSet, hvisited, List.reverse_concat]
  obtain ⟨-, huncovered, hprice⟩ := (not_stopped_iff hv h.search hset).mp hnot
  rw [h.currentWeight_eq, hvisited] at hprice
  rw [hvisited] at huncovered
  refine ⟨huncovered, fun o ho => hprice.trans (sub_le_sub_right ?_ _)⟩
  rcases ho with rfl | ⟨ho, hbefore⟩
  · exact h.optWeight_le
  · rcases h.accounted o (covering_iff.mpr ho) with hle | hlosto | hweight
    · rw [hvisited] at hle
      exact absurd hbefore (not_lt.mpr hle)
    · exact absurd hlosto (hlost o (covering_iff.mpr ho))
    · exact hweight

theorem findableSet_range (hcheapest : Cheapest traces m (List.range traces.length)) :
    FindableSet traces m (List.range traces.length) :=
  ⟨⟨covering_iff.mp hcheapest.covering, fun o ho => hcheapest.le o (covering_iff.mpr ho)⟩,
    fun _ _ _ _ heq hp hik => absurd heq (range_ne_of_lt hp hik)⟩

theorem FindableSet.searchOptimal {o : List Nat} (ho : FindableSet traces m o)
    (hv : ValidTraces traces m) :
    SearchOptimal traces m := by
  obtain ⟨r, hrun, hr⟩ := search_result hv
  obtain ⟨r', hrun', hinv⟩ := search_spec hv.length hv.nonempty
  obtain rfl : r = r' := Option.some.inj (hrun.symm.trans hrun')
  refine ⟨r, hrun, ?_, fun o' ho' => ?_⟩
  · rcases hinv.optCovers with hset | hcovers
    · rw [hset]
      exact hv.range_covers
    · exact hcovers
  · rw [← hr.optWeight_eq]
    rcases hr.accounted o (covering_iff.mpr ho.cheapest.covering) with
      ⟨u, -, hu, -, hjump, -⟩ | hweight
    · exact absurd hjump (ho.not_jumpsOver hv hu)
    · exact hweight.trans (ho.cheapest.le o' (covering_iff.mp ho'))

/--
**Pruning of the search.**  The search finds a covering set of least weight if one is findable.  If
none is, it does not, or it jumps over a covering set that is lighter than the best one found till
then.
-/
theorem searchOptimal_of_findable
    (hv : ValidTraces traces m) :
    ((∃ o, FindableSet traces m o) → SearchOptimal traces m) ∧
      (SearchOptimal traces m →
        (∃ o, FindableSet traces m o) ∨ ∃ o, Covering traces m o ∧ Lost traces o) := by
  constructor
  · rintro ⟨o, ho⟩
    exact ho.searchOptimal hv
  · rintro ⟨r, hrun, hcovers, hle⟩
    obtain ⟨r', hrun', hr⟩ := search_result hv
    obtain rfl : r = r' := Option.some.inj (hrun.symm.trans hrun')
    by_cases hlost : ∃ o, Covering traces m o ∧ Lost traces o
    · exact Or.inr hlost
    · have hnone : ∀ o, Covering traces m o → ¬ Lost traces o := fun o ho hl => hlost ⟨o, ho, hl⟩
      left
      rcases hr.optSet_visited with hset | ⟨u, hu, hset⟩
      · rw [hset] at hcovers hle
        exact ⟨_, findableSet_range ⟨⟨indexSet_range _, hcovers⟩, hle⟩⟩
      · rw [hset] at hcovers hle
        have hindices := (hu.runInvariant hv).search.visitedSet_indices
        exact ⟨_, hu.findableSet hv ⟨⟨hindices, hcovers⟩, hle⟩ hnone⟩

def ofGroups (weight : Rat) (test : Nat) (groups : List Bool) : TestTraceInfo :=
  ⟨Trace.empty, weight, test, groups, weight / groups.count true⟩

/-- The first group is covered by two traces, of which the heavier one is needed. -/
def combinedTraces : List TestTraceInfo :=
  [ofGroups 1 0 [true, false, false], ofGroups 6 1 [true, true, false],
    ofGroups 6 2 [false, false, true]]

theorem validTraces_combined :
    ValidTraces combinedTraces 3 where
  nonempty := by simp [combinedTraces]
  weight_pos := by decide +kernel
  length := by decide +kernel
  covers_some := by decide +kernel
  covered := by
    intro k hk
    interval_cases k
    · exact ⟨1, _, rfl, rfl⟩
    · exact ⟨1, _, rfl, rfl⟩
    · exact ⟨2, _, rfl, rfl⟩
  sWeight_eq := by decide +kernel
  sorted := by decide +kernel

/-- The search comes to the second trace after the sets with the first one. -/
theorem searchOptimal_combined :
    FindableSet combinedTraces 3 [1, 2] ∧ SearchOptimal combinedTraces 3 := by
  have hfindable : FindableSet combinedTraces 3 [1, 2] := by decide +kernel
  exact ⟨hfindable, (searchOptimal_of_findable validTraces_combined).1 ⟨_, hfindable⟩⟩

/-- The second trace covers both groups, the others cover one group each. -/
def jumpedTraces : List TestTraceInfo :=
  [ofGroups 1 0 [true, false], ofGroups 4 1 [true, true], ofGroups (5 / 2) 2 [false, true]]

theorem validTraces_jumped :
    ValidTraces jumpedTraces 2 where
  nonempty := by simp [jumpedTraces]
  weight_pos := by decide +kernel
  length := by decide +kernel
  covers_some := by decide +kernel
  covered := by
    intro k hk
    refine ⟨1, ofGroups 4 1 [true, true], rfl, ?_⟩
    interval_cases k <;> rfl
  sWeight_eq := by decide +kernel
  sorted := by decide +kernel

/-- The first and the third trace together are lighter than the second one, but after the
set of the first two traces the search goes on with the second trace alone. -/
theorem not_search_optimal_jumped :
    ¬ ∀ (traces : List TestTraceInfo) (m : Nat), ValidTraces traces m →
      SearchOptimal traces m := by
  intro h
  obtain ⟨it, hrun, -, hle⟩ := h jumpedTraces 2 validTraces_jumped
  have hresult : (search jumpedTraces).map TraceSetIterator.optSet = some [1] := by
    decide +kernel
  rw [hrun, Option.map_some, Option.some.injEq] at hresult
  rw [hresult] at hle
  have hcovering : Covering jumpedTraces 2 [0, 2] := by
    refine ⟨⟨by decide, by decide⟩, ?_⟩
    intro k hk
    interval_cases k
    · exact ⟨0, by simp, _, rfl, rfl⟩
    · exact ⟨2, by simp, _, rfl, rfl⟩
  exact absurd (hle [0, 2] hcovering) (by decide +kernel)

end Optimal

end TraceSetIterator
end Coverage
end KedrAux
