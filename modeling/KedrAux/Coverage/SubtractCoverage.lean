import KedrAux.Coverage.BinaryOperations
import KedrAux.Coverage.LineMasks

/-!
# Subtraction of covered lines

Lines covered by one trace are taken from another one in two places of the code:
`traceClearLinesMasked` of the optimizer erases them, the 'new-coverage' operation
sets their counters to `0`.  `traceClearLinesNotMasked` is the complement of the
first function, but it looks for counters different from `0`, not for positive ones.
-/

namespace KedrAux
namespace Coverage

def Trace.hitLines (t : Trace) : Set (FileGroupID × Str × Int) :=
  {id | Hit (t.lineOf id.1 id.2.1 id.2.2)}

@[simp] theorem Trace.mem_hitLines {t : Trace} {id : FileGroupID × Str × Int} :
    id ∈ t.hitLines ↔ Hit (t.lineOf id.1 id.2.1 id.2.2) :=
  Iff.rfl

@[simp] theorem not_hit_none : ¬ Hit none := by
  simp [Hit]

theorem hitLines_clearLinesMasked (t m : Trace) :
    (traceClearLinesMasked t m).hitLines = t.hitLines \ m.hitLines := by
  ext id
  rw [Trace.mem_hitLines, lineOf_clearLinesMasked, Set.mem_sdiff, Trace.mem_hitLines,
    Trace.mem_hitLines]
  by_cases hm : Hit (m.lineOf id.1 id.2.1 id.2.2) <;> simp [hm]

theorem mem_hitLines_clearLinesNotMasked (t m : Trace) (id : FileGroupID × Str × Int) :
    id ∈ (traceClearLinesNotMasked t m).hitLines ↔
      id ∈ t.hitLines ∧ (m.lineOf id.1 id.2.1 id.2.2).getD 0 ≠ 0 := by
  rw [Trace.mem_hitLines, lineOf_clearLinesNotMasked, Trace.mem_hitLines]
  by_cases hm : (m.lineOf id.1 id.2.1 id.2.2).getD 0 = 0 <;> simp [hm]

theorem hit_lineResult_newCoverage (x y : Option Int) :
    Hit (whenPresent (lineResult traceOperationNewCoverage) [x, y]) ↔ Hit x ∧ ¬ Hit y := by
  rw [lineResult_newCoverage, ← lineOperand_pos_iff x]
  by_cases hy : Hit y
  · rw [if_pos hy]
    exact ⟨fun hzero => absurd hzero (lt_irrefl _), fun h => absurd hy h.2⟩
  · simp only [hy, if_false, not_false_iff, and_true]
    split_ifs with hx
    · exact Iff.rfl
    · simp only [not_hit_none, false_iff]
      omega

theorem hitLines_newCoverage {t m r : Trace}
    (hr : doTraceOperation traceOperationNewCoverage [t, m] = some r) :
    r.hitLines = t.hitLines \ m.hitLines := by
  obtain ⟨r', hr', hresult⟩ := doTraceOperation_spec traceOperationNewCoverage [t, m] (by simp)
  obtain rfl : r = r' := Option.some.inj (hr.symm.trans hr')
  ext id
  rw [Trace.mem_hitLines, hresult.lineOf_eq]
  exact hit_lineResult_newCoverage _ _

/-- Both subtractions leave the same covered lines, and the complement leaves the others. -/
def SubtractionsAgree (t m : Trace) : Prop :=
  (∃ r, doTraceOperation traceOperationNewCoverage [t, m] = some r ∧
    (traceClearLinesMasked t m).hitLines = r.hitLines) ∧
  (traceClearLinesNotMasked t m).hitLines = t.hitLines ∩ m.hitLines

/--
The functions agree exactly when no line covered by `t` has a negative counter in
the mask.
-/
theorem subtractionsAgree_iff
    (t m : Trace) :
    SubtractionsAgree t m ↔
      ∀ id ∈ t.hitLines, ∀ c, m.lineOf id.1 id.2.1 id.2.2 = some c → 0 ≤ c := by
  obtain ⟨r, hr, -⟩ := doTraceOperation_spec traceOperationNewCoverage [t, m] (by simp)
  have hmasked : (traceClearLinesMasked t m).hitLines = r.hitLines :=
    (hitLines_clearLinesMasked t m).trans (hitLines_newCoverage hr).symm
  constructor
  · rintro ⟨-, hnotMasked⟩ id hid c hc
    by_contra hneg
    have hleft : id ∈ (traceClearLinesNotMasked t m).hitLines := by
      rw [mem_hitLines_clearLinesNotMasked, hc]
      exact ⟨hid, by simp only [Option.getD_some]; omega⟩
    rw [hnotMasked] at hleft
    have hpos : Hit (some c) := hc ▸ hleft.2
    simp only [Hit, Option.getD_some] at hpos
    omega
  · intro hcounters
    refine ⟨⟨r, hr, hmasked⟩, ?_⟩
    ext id
    rw [mem_hitLines_clearLinesNotMasked, Set.mem_inter_iff, Trace.mem_hitLines (t := m)]
    apply and_congr_right
    intro hid
    cases hc : m.lineOf id.1 id.2.1 id.2.2 with
    | none => simp
    | some c =>
      have hnonneg := hcounters id hid c hc
      simp only [Option.getD_some, Hit]
      omega

theorem grouped_singleFileTrace (fi : FileInfo) : (singleFileTrace fi).Grouped := by
  intro g gi hg
  rw [singleFileTrace, OrderedMap.find_set] at hg
  split_ifs at hg with h
  · obtain rfl := Option.some.inj hg
    rw [h]
    rfl
  · cases hg

/-- The mask read from a text with the counter `2 ^ 64 - 1`, which is read as `-1`. -/
theorem not_subtractionsAgree_of_negative_counter :
    ∃ t m, Trace.empty.read 0 oneLineText = .ok t ∧
      Trace.empty.read 0
        "TN:\nSF:/a.c\nDA:1,18446744073709551615\nend_of_record\n".toList = .ok m ∧
      t.Grouped ∧ m.Grouped ∧ ¬ SubtractionsAgree t m := by
  refine ⟨singleFileTrace (singleLineFile 1 5), singleFileTrace (singleLineFile 1 (-1)),
    read_oneLineText, by decide +kernel, grouped_singleFileTrace _, grouped_singleFileTrace _, ?_⟩
  intro h
  have hleft : (⟨[], "/a.c".toList⟩, "/a.c".toList, 1) ∈
      (traceClearLinesNotMasked (singleFileTrace (singleLineFile 1 5))
        (singleFileTrace (singleLineFile 1 (-1)))).hitLines := by
    rw [mem_hitLines_clearLinesNotMasked, Trace.mem_hitLines]
    decide +kernel
  rw [h.2] at hleft
  exact absurd hleft.2 (by rw [Trace.mem_hitLines]; decide +kernel)

end Coverage
end KedrAux
