import KedrAux.Coverage.SearchPruning

/-!
# States of the search

What holds for the iterator whenever the loop of `TestSetOptimizer::optimize` has made a call, and
between the calls that `setDropAndNext` makes.  The vectors are taken in the order of the source
here, with the first element first.
-/

namespace KedrAux
namespace Coverage
namespace TraceSetIterator

/-- The current set and the stack of its initial parts. -/
structure SearchState (traces : List TestTraceInfo) (m : Nat) (it : TraceSetIterator) : Prop where
  increasing : it.currentSet.reverse.Pairwise (· < ·)
  inRange : ∀ i ∈ it.currentSet.reverse, i < traces.length
  levels : it.coverageStack.reverse.length = it.currentSet.reverse.length + 1
  coverage : ∀ k coverage, it.coverageStack.reverse[k]? = some coverage →
    CoverageIs traces m (it.currentSet.reverse.take k) coverage
  weight : it.currentWeight = (it.currentSet.reverse.map (weightAt traces)).sum

/-- The loop drops the last trace after `setCheck` and, when that allows it, `setAddTrace`. -/
def Drops (traces : List TestTraceInfo) (it : TraceSetIterator) (canBeContinued : Bool) : Prop :=
  canBeContinued = false ∨ it.setAddTrace traces = some (it, false)

/-- The states of the iterator in a run of the loop. -/
inductive Visited (traces : List TestTraceInfo) : TraceSetIterator → Prop
  | constructed
      {it : TraceSetIterator}
      (hnew : new traces = some it) :
      Visited traces it
  | round
      {it : TraceSetIterator}
      (hreached : Reached traces it) :
      Visited traces it
  | checked
      {it it' : TraceSetIterator}
      {canBeContinued : Bool}
      (hreached : Reached traces it)
      (hcheck : it.setCheck traces = some (it', canBeContinued)) :
      Visited traces it'
  | added
      {it it' it'' : TraceSetIterator}
      {added : Bool}
      (hreached : Reached traces it)
      (hcheck : it.setCheck traces = some (it', true))
      (hadd : it'.setAddTrace traces = some (it'', added)) :
      Visited traces it''
  | dropped
      {it it' it'' : TraceSetIterator}
      {canBeContinued : Bool}
      (hreached : Reached traces it)
      (hcheck : it.setCheck traces = some (it', canBeContinued))
      (hdrops : Drops traces it' canBeContinued)
      (hdrop : it'.setDropTrace traces = some it'') :
      Visited traces it''
  | droppedNext
      {it it' it'' it''' : TraceSetIterator}
      {canBeContinued : Bool}
      (hreached : Reached traces it)
      (hcheck : it.setCheck traces = some (it', canBeContinued))
      (hdrops : Drops traces it' canBeContinued)
      (hdrop : it'.setDropTrace traces = some it'')
      (hnext : it''.setDropTrace traces = some it''') :
      Visited traces it'''
  | moved
      {it it' it'' : TraceSetIterator}
      {canBeContinued moved : Bool}
      (hreached : Reached traces it)
      (hcheck : it.setCheck traces = some (it', canBeContinued))
      (hdrops : Drops traces it' canBeContinued)
      (hmove : it'.setDropAndNext traces = some (it'', moved)) :
      Visited traces it''

section States

variable {traces : List TestTraceInfo} {m : Nat} {it : TraceSetIterator}

variable {set : List Nat} {stack : List GroupsCoverage} {it' : TraceSetIterator}

theorem StackIs.length (h : StackIs traces m set stack) : stack.length = set.length + 1 := by
  induction h with
  | empty h => rfl
  | add h hstack ih => rw [List.length_cons, List.length_cons, ih]

theorem CoverageIs.reverse {coverage : GroupsCoverage} (h : CoverageIs traces m set coverage) :
    CoverageIs traces m set.reverse coverage where
  length := h.length
  covered k := by simp only [h.covered, List.mem_reverse]
  uncovered := h.uncovered

theorem StackIs.level (h : StackIs traces m set stack) (k : Nat) (coverage : GroupsCoverage)
    (hk : stack.reverse[k]? = some coverage) :
    CoverageIs traces m (set.reverse.take k) coverage := by
  induction h with
  | @empty bottom hbottom =>
    rw [List.reverse_singleton, List.getElem?_singleton] at hk
    split_ifs at hk
    cases hk
    rwa [List.reverse_nil, List.take_nil]
  | @add i set top stack htop hstack ih =>
    have hlength := hstack.length
    rw [List.reverse_cons] at hk ⊢
    by_cases hlast : k < stack.reverse.length
    · rw [List.getElem?_append_left hlast] at hk
      rw [List.length_reverse] at hlast
      rw [List.take_append_of_le_length (by rw [List.length_reverse]; omega)]
      exact ih hk
    · rw [List.getElem?_append_right (by omega), List.getElem?_singleton] at hk
      split_ifs at hk with hzero
      cases hk
      rw [List.length_reverse] at hlast hzero
      rw [List.take_of_length_le (by simp; omega), ← List.reverse_cons]
      exact htop.reverse

theorem SearchInvariant.searchState (h : SearchInvariant traces m it) :
    SearchState traces m it where
  increasing := List.pairwise_reverse.mpr h.increasing
  inRange i hi := h.inRange i (List.mem_reverse.mp hi)
  levels := by simp only [List.length_reverse, h.stack.length]
  coverage := h.stack.level
  weight := by rw [h.weight, List.map_reverse, List.sum_reverse]

theorem Reached.invariant
    (hne : traces ≠ []) (hgroups : ∀ traceInfo ∈ traces, traceInfo.groups.length = m)
    (h : Reached traces it) :
    SearchInvariant traces m it ∧ it.currentSet ≠ [] := by
  obtain ⟨it0, it1, hnew, hfirst, hsteps⟩ := h
  obtain ⟨it0', it1', hnew', hfirst', hinv, hset, -⟩ := setFirst_spec hgroups hne
  rw [hnew] at hnew'
  cases hnew'
  rw [hfirst] at hfirst'
  cases hfirst'
  induction hsteps with
  | refl => exact ⟨hinv, by simp [hset]⟩
  | tail _ hstep ih =>
    rcases searchBody_spec hgroups ih.1 ih.2 with ⟨it', hnext, hit', -⟩ | ⟨it', hdone, -⟩
    · rw [SearchStep, hnext] at hstep
      cases hstep
      exact hit'
    · rw [SearchStep, hdone] at hstep
      cases hstep

theorem SearchInvariant.dropped (h : SearchInvariant traces m it)
    (hdrop : it.setDropTrace traces = some it') :
    SearchInvariant traces m it' := by
  cases hset : it.currentSet with
  | nil => simp [setDropTrace, hset] at hdrop
  | cons i set =>
    obtain ⟨it1, hrun, h1, -⟩ := setDropTrace_spec h hset
    rw [hrun] at hdrop
    cases hdrop
    exact h1

theorem SearchInvariant.checked {canBeContinued : Bool} (h : SearchInvariant traces m it)
    (hne : it.currentSet ≠ []) (hcheck : it.setCheck traces = some (it', canBeContinued)) :
    SearchInvariant traces m it' ∧ it'.currentSet ≠ [] := by
  obtain ⟨i, set, hset⟩ := List.exists_cons_of_ne_nil hne
  obtain ⟨it1, b, hrun, h1, hset1⟩ := setCheck_spec h hset
  rw [hrun] at hcheck
  cases hcheck
  exact ⟨h1, by rwa [hset1]⟩

/-- The invariant of the search holds in every state that it visits. -/
theorem Visited.invariant
    (hne : traces ≠ []) (hgroups : ∀ traceInfo ∈ traces, traceInfo.groups.length = m)
    (h : Visited traces it) :
    SearchInvariant traces m it := by
  cases h with
  | constructed hnew =>
    obtain ⟨it0, hnew', hinv, -⟩ := new_spec hgroups hne
    rw [hnew] at hnew'
    cases hnew'
    exact hinv
  | round hreached => exact (hreached.invariant hne hgroups).1
  | checked hreached hcheck =>
    obtain ⟨hinv, hset⟩ := hreached.invariant hne hgroups
    exact (hinv.checked hset hcheck).1
  | added hreached hcheck hadd =>
    obtain ⟨hinv, hset⟩ := hreached.invariant hne hgroups
    obtain ⟨hinv', hset'⟩ := hinv.checked hset hcheck
    obtain ⟨i, set, hcons⟩ := List.exists_cons_of_ne_nil hset'
    rcases setAddTrace_spec hgroups hinv' hcons with hend | ⟨it1, hnext, h1, -⟩
    · rw [hend] at hadd
      cases hadd
      exact hinv'
    · rw [hnext] at hadd
      cases hadd
      exact h1
  | dropped hreached hcheck _ hdrop =>
    obtain ⟨hinv, hset⟩ := hreached.invariant hne hgroups
    exact (hinv.checked hset hcheck).1.dropped hdrop
  | droppedNext hreached hcheck _ hdrop hnext =>
    obtain ⟨hinv, hset⟩ := hreached.invariant hne hgroups
    exact ((hinv.checked hset hcheck).1.dropped hdrop).dropped hnext
  | moved hreached hcheck _ hmove =>
    obtain ⟨hinv, hset⟩ := hreached.invariant hne hgroups
    obtain ⟨hinv', hset'⟩ := hinv.checked hset hcheck
    obtain ⟨i, set, hcons⟩ := List.exists_cons_of_ne_nil hset'
    rcases setDropAndNext_spec hgroups hinv' hcons with
      ⟨it1, hend, h1, -⟩ | ⟨it1, j, rest, hnext, h1, -⟩
    · rw [hend] at hmove
      cases hmove
      exact h1
    · rw [hnext] at hmove
      cases hmove
      exact h1

/--
Every state of the search is proper, no call reads outside of a vector, and the loop ends.  The
flags of all traces have the same length.
-/
theorem search_states
    (traces : List TestTraceInfo) (m : Nat) (hne : traces ≠ [])
    (hgroups : ∀ traceInfo ∈ traces, traceInfo.groups.length = m) :
    (∀ it, Visited traces it → SearchState traces m it) ∧
      (∃ it0 it1, new traces = some it0 ∧ it0.setFirst traces = some it1) ∧
      (∀ it, Reached traces it → ∃ round, searchBody traces it = some round) ∧
      ∃ it, search traces = some it := by
  refine ⟨fun it hit => (hit.invariant hne hgroups).searchState, ?_, ?_, ?_⟩
  · obtain ⟨it0, it1, hnew, hfirst, -⟩ := setFirst_spec hgroups hne
    exact ⟨it0, it1, hnew, hfirst⟩
  · intro it hit
    obtain ⟨hinv, hset⟩ := hit.invariant hne hgroups
    rcases searchBody_spec hgroups hinv hset with ⟨it', hnext, -⟩ | ⟨it', hdone, -⟩
    · exact ⟨_, hnext⟩
    · exact ⟨_, hdone⟩
  · obtain ⟨it, hsearch, -⟩ := search_spec hgroups hne
    exact ⟨it, hsearch⟩

/-- A trace that covers both groups and two that cover one of them. -/
def overlappingTraces : List TestTraceInfo :=
  [ofGroups 1 0 [true, false], ofGroups 3 1 [true, true], ofGroups 2 2 [false, true]]

/-- Traces with a common group. -/
theorem search_states_overlapping :
    (∀ it, Visited overlappingTraces it → SearchState overlappingTraces 2 it) ∧
      (∃ it0 it1, new overlappingTraces = some it0 ∧
        it0.setFirst overlappingTraces = some it1) ∧
      (∀ it, Reached overlappingTraces it →
        ∃ round, searchBody overlappingTraces it = some round) ∧
      ∃ it, search overlappingTraces = some it :=
  search_states overlappingTraces 2 (by simp [overlappingTraces]) (by decide +kernel)

end States

end TraceSetIterator
end Coverage
end KedrAux
