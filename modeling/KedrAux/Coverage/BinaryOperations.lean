import KedrAux.Coverage.DoTraceOperation
import KedrAux.Coverage.TraceReader

/-!
# The 'diff' and 'new-coverage' operations

Both operations (`program.cpp`) take two traces.  Their documented meaning keeps
the objects of the first trace and lowers some counters.  The operations work on
encoded operands, in which an absent counter is `-1` and a `-` branch is `-2`,
and these codes take part in the arithmetic and in the comparisons.
-/

namespace KedrAux
namespace Coverage

namespace TraceOperationDiff

def counterOperation (operands : List Int) : Int :=
  let op1 := operands.getD 0 (-1)
  let op2 := operands.getD 1 (-1)
  if op1 > 0 then
    if op2 ≥ op1 then 0 else op1 - op2
  else op1

end TraceOperationDiff

namespace TraceOperationNewCoverage

def counterOperation (operands : List Int) : Int :=
  if operands.getD 1 (-1) > 0 then 0 else operands.getD 0 (-1)

end TraceOperationNewCoverage

def traceOperationDiff : TraceOperation :=
  .unified TraceOperationDiff.counterOperation

/-- New coverage of a trace with respect to a second one. -/
def traceOperationNewCoverage : TraceOperation :=
  .unified TraceOperationNewCoverage.counterOperation

def Trace.funcCounterOf (t : Trace) (g : FileGroupID) (f n : Str) : Option Int :=
  (t.funcOf g f n).map FuncInfo.counter

theorem functionResult_counter (count : List Int → Int) (iters : List (Option FuncInfo)) :
    (whenPresent (functionResult (.unified count)) iters).map FuncInfo.counter =
      whenPresent (lineResult (.unified count))
        (iters.map fun it => it.map FuncInfo.counter) := by
  have hany : (iters.map fun it => it.map FuncInfo.counter).any Option.isSome =
      iters.any Option.isSome := by
    rw [List.any_map]
    congr 1
    funext it
    cases it <;> rfl
  have hoperands : (iters.map fun it => it.map FuncInfo.counter).map lineOperand =
      iters.map functionOperand := by
    rw [List.map_map]
    apply List.map_congr_left
    intro it _
    cases it <;> rfl
  unfold whenPresent functionResult lineResult
  rw [hany, hoperands]
  simp only [TraceOperation.unified]
  by_cases hpos : count (iters.map functionOperand) ≥ 0
  · simp only [hpos, if_true]
    split_ifs <;> rfl
  · simp only [hpos, if_false]
    split_ifs <;> rfl

variable {count : List Int → Int} {d : Int}

theorem OperationResult.funcCounterOf_eq {operands : List Trace} {r : Trace}
    (h : OperationResult (.unified count) operands r) (g : FileGroupID) (f n : Str) :
    r.funcCounterOf g f n =
      whenPresent (lineResult (.unified count))
        (operands.map fun t => t.funcCounterOf g f n) := by
  rw [Trace.funcCounterOf, h.funcOf_eq g f n, functionResult_counter, List.map_map]
  rfl

/-- A relation between the counters of two traces and of a result, object by object. -/
structure EachResult
    (P Q : Option Int → Option Int → Option Int → Prop) (t u r : Trace) : Prop where
  functions : ∀ g f n,
    P (t.funcCounterOf g f n) (u.funcCounterOf g f n) (r.funcCounterOf g f n)
  lines : ∀ g f l, P (t.lineOf g f l) (u.lineOf g f l) (r.lineOf g f l)
  branches : ∀ g f b, Q (t.branchOf g f b) (u.branchOf g f b) (r.branchOf g f b)

/-- A relation between the counters of two traces, object by object. -/
structure EachPair
    (P Q : Option Int → Option Int → Prop) (t u : Trace) : Prop where
  functions : ∀ g f n, P (t.funcCounterOf g f n) (u.funcCounterOf g f n)
  lines : ∀ g f l, P (t.lineOf g f l) (u.lineOf g f l)
  branches : ∀ g f b, Q (t.branchOf g f b) (u.branchOf g f b)

/--
A unified operation relates two traces to its result as soon as it relates every
pair of counters to the counter it makes of them, and only then.
-/
theorem doTraceOperation_pair_iff {P Q : Option Int → Option Int → Option Int → Prop}
    {P' Q' : Option Int → Option Int → Prop} (hcounter : ∀ x y,
      P x y (whenPresent (lineResult (.unified count)) [x, y]) ↔ P' x y) (hbranch : ∀ x y,
      Q x y (whenPresent (branchResult (.unified count)) [x, y]) ↔ Q' x y) (t u : Trace) :
    (∃ r, doTraceOperation (.unified count) [t, u] = some r ∧ EachResult P Q t u r) ↔
      EachPair P' Q' t u := by
  obtain ⟨r, hr, hres⟩ := doTraceOperation_spec (.unified count) [t, u] (by simp)
  have hfn : ∀ g f n, P (t.funcCounterOf g f n) (u.funcCounterOf g f n)
      (r.funcCounterOf g f n) ↔ P' (t.funcCounterOf g f n) (u.funcCounterOf g f n) := by
    intro g f n
    rw [hres.funcCounterOf_eq g f n]
    exact hcounter _ _
  have hln : ∀ g f l, P (t.lineOf g f l) (u.lineOf g f l) (r.lineOf g f l) ↔
      P' (t.lineOf g f l) (u.lineOf g f l) := by
    intro g f l
    rw [hres.lineOf_eq g f l]
    exact hcounter _ _
  have hbr : ∀ g f b, Q (t.branchOf g f b) (u.branchOf g f b) (r.branchOf g f b) ↔
      Q' (t.branchOf g f b) (u.branchOf g f b) := by
    intro g f b
    rw [hres.branchOf_eq g f b]
    exact hbranch _ _
  constructor
  · rintro ⟨r', hr', hall⟩
    obtain rfl : r = r' := Option.some.inj (hr.symm.trans hr')
    exact ⟨fun g f n => (hfn g f n).mp (hall.functions g f n),
      fun g f l => (hln g f l).mp (hall.lines g f l),
      fun g f b => (hbr g f b).mp (hall.branches g f b)⟩
  · intro hall
    exact ⟨r, hr, fun g f n => (hfn g f n).mpr (hall.functions g f n),
      fun g f l => (hln g f l).mpr (hall.lines g f l),
      fun g f b => (hbr g f b).mpr (hall.branches g f b)⟩

/-- The counter that is subtracted: `0` for an absent object and for `-`. -/
def subtrahend : Option Int → Int
  | some d => if d = -1 then 0 else d
  | none => 0

/--
Documented difference of a line or function counter: the object is kept, and a
counter `c` becomes `max 0 (c - d)`, which does not exceed `c`.
-/
def DiffCounter (x y r : Option Int) : Prop :=
  r.isSome = x.isSome ∧
    ∀ c, x = some c → 0 ≤ c →
      r = some (max 0 (c - y.getD 0)) ∧ max 0 (c - y.getD 0) ≤ c

/-- Documented difference of a branch counter: moreover, `-` is kept. -/
def DiffBranch (x y r : Option Int) : Prop :=
  r.isSome = x.isSome ∧
    (x = some (-1) → r = some (-1)) ∧
    ∀ c, x = some c → 0 ≤ c →
      r = some (max 0 (c - subtrahend y)) ∧ max 0 (c - subtrahend y) ≤ c

def IsDiff (t u r : Trace) : Prop :=
  EachResult DiffCounter DiffBranch t u r

/-- A line or function counter on which the code subtracts as documented. -/
def DiffCounterMet (x y : Option Int) : Prop :=
  ∀ c, x = some c →
    0 ≤ c ∧ (0 < c → y.isSome) ∧ ∀ d, y = some d → 0 ≤ d

/-- A branch counter on which the code subtracts as documented. -/
def DiffBranchMet (x y : Option Int) : Prop :=
  ∀ c, x = some c → 0 ≤ c →
    (0 < c → ∃ d, y = some d ∧ d ≠ -1) ∧ ∀ d, y = some d → -1 ≤ d

/--
The pairs of traces on which `diff` has its documented meaning: every positive
counter of the first trace has a counter, and not `-`, in the second one (and
no negative number poses as a counter).
-/
def DiffMet (t u : Trace) : Prop :=
  EachPair DiffCounterMet DiffBranchMet t u

theorem counterOperationDiff_pair (c d : Int) :
    TraceOperationDiff.counterOperation [c, d] = if 0 < c then max 0 (c - d) else c := by
  simp only [TraceOperationDiff.counterOperation, List.getD_cons_zero, List.getD_cons_succ]
  split_ifs <;> omega

theorem lineResult_diff_none (y : Option Int) :
    whenPresent (lineResult traceOperationDiff) [none, y] = none := by
  unfold whenPresent
  split_ifs
  · simp [lineResult, traceOperationDiff, TraceOperation.unified, lineOperand,
      counterOperationDiff_pair]
  · rfl

theorem lineResult_diff_some (c : Int) (y : Option Int) :
    whenPresent (lineResult traceOperationDiff) [some c, y] =
      if 0 < c then some (max 0 (c - lineOperand y))
      else if c = 0 then some 0 else none := by
  have hany : [some c, y].any Option.isSome = true := by simp
  rw [whenPresent, if_pos hany, lineResult]
  simp only [traceOperationDiff, TraceOperation.unified, List.map_cons, List.map_nil,
    counterOperationDiff_pair, lineOperand_some]
  by_cases hpos : 0 < c
  · simp [hpos]
  · by_cases hzero : c = 0
    · simp [hzero]
    · have hneg : ¬c ≥ 0 := by omega
      simp [hpos, hzero, hneg]

theorem diffCounter_iff (x y : Option Int) :
    DiffCounter x y (whenPresent (lineResult traceOperationDiff) [x, y]) ↔
      DiffCounterMet x y := by
  unfold DiffCounter DiffCounterMet
  cases x with
  | none => simp [lineResult_diff_none]
  | some c =>
    rw [lineResult_diff_some]
    cases y with
    | none =>
      simp only [lineOperand_none]
      split_ifs <;> simp <;> omega
    | some d =>
      simp only [lineOperand_some]
      split_ifs <;> simp <;> omega

theorem branchResult_diff_none (y : Option Int) :
    whenPresent (branchResult traceOperationDiff) [none, y] = none := by
  unfold whenPresent
  split_ifs
  · simp [branchResult, traceOperationDiff, TraceOperation.unified,
      counterOperationDiff_pair]
  · rfl

theorem branchResult_diff_some (c : Int) (y : Option Int) :
    whenPresent (branchResult traceOperationDiff) [some c, y] =
      if 0 < c then some (max 0 (c - branchOperand y))
      else if c = -2 then some (-1) else some c := by
  have hany : [some c, y].any Option.isSome = true := by simp
  rw [whenPresent, if_pos hany, branchResult]
  simp only [traceOperationDiff, TraceOperation.unified, List.map_cons, List.map_nil,
    counterOperationDiff_pair]
  by_cases hdash : c = -1
  · subst hdash
    simp
  · rw [branchOperand_some hdash]
    by_cases hpos : 0 < c
    · have h1 : max 0 (c - branchOperand y) ≠ -1 := by omega
      have h2 : max 0 (c - branchOperand y) ≠ -2 := by omega
      simp [hpos, h1, h2]
    · by_cases htwo : c = -2
      · simp [htwo]
      · simp [hpos, htwo, hdash]

theorem diffBranch_iff (x y : Option Int) :
    DiffBranch x y (whenPresent (branchResult traceOperationDiff) [x, y]) ↔
      DiffBranchMet x y := by
  unfold DiffBranch DiffBranchMet
  cases x with
  | none => simp [branchResult_diff_none]
  | some c =>
    rw [branchResult_diff_some]
    cases y with
    | none =>
      simp only [branchOperand_none, subtrahend]
      split_ifs <;> simp <;> omega
    | some d =>
      by_cases hd : d = -1
      · subst hd
        simp only [branchOperand_dash, subtrahend, if_true]
        split_ifs <;> simp <;> omega
      · simp only [branchOperand_some hd, subtrahend, hd, if_false]
        split_ifs <;> simp <;> omega

/--
**Meaning of 'diff'.**  The result of the code is the documented difference
exactly for the pairs of traces described by `DiffMet`.
-/
theorem doTraceOperation_diff_iff (t u : Trace) :
    (∃ r, doTraceOperation traceOperationDiff [t, u] = some r ∧ IsDiff t u r) ↔
      DiffMet t u :=
  doTraceOperation_pair_iff diffCounter_iff diffBranch_iff t u

/-- The trace of one test without name that covers the single file `/a.c`. -/
def singleFileTrace (fi : FileInfo) : Trace :=
  ⟨OrderedMap.empty.set ⟨[], ['/', 'a', '.', 'c']⟩
    ⟨OrderedMap.empty.set ['/', 'a', '.', 'c'] fi⟩⟩

def singleLineFile (line counter : Int) : FileInfo :=
  { FileInfo.empty with lines := OrderedMap.empty.set line counter }

def oneLineText : Str := "TN:\nSF:/a.c\nDA:1,5\nend_of_record\n".toList

def noLinesText : Str := "TN:\nSF:/a.c\nend_of_record\n".toList

theorem read_oneLineText :
    Trace.empty.read 0 oneLineText = .ok (singleFileTrace (singleLineFile 1 5)) := by
  decide +kernel

theorem read_noLinesText :
    Trace.empty.read 0 noLinesText = .ok (singleFileTrace FileInfo.empty) := by
  decide +kernel

/--
A line hit five times that the second trace does not list: the code subtracts
the code `-1` of an absent counter, and six hits remain.
-/
theorem diff_of_unlisted_line :
    ∃ t u, Trace.empty.read 0 oneLineText = .ok t ∧ Trace.empty.read 0 noLinesText = .ok u ∧
      doTraceOperation traceOperationDiff [t, u] =
        some (singleFileTrace (singleLineFile 1 6)) ∧
      ¬∃ r, doTraceOperation traceOperationDiff [t, u] = some r ∧ IsDiff t u r := by
  have hresult : doTraceOperation traceOperationDiff
      [singleFileTrace (singleLineFile 1 5), singleFileTrace FileInfo.empty] =
      some (singleFileTrace (singleLineFile 1 6)) := by
    decide +kernel
  refine ⟨_, _, read_oneLineText, read_noLinesText, hresult, ?_⟩
  rintro ⟨r, hr, hdiff⟩
  obtain rfl := Option.some.inj (hresult.symm.trans hr)
  have hline := (hdiff.lines ⟨[], ['/', 'a', '.', 'c']⟩ ['/', 'a', '.', 'c'] 1).2 5
    (by decide +kernel) (by decide)
  exact absurd hline.1 (by decide +kernel)

/--
Documented new coverage of a counter: the object is kept, and its counter is
reset when it is positive in both traces and left as it is otherwise.
-/
def NewCoverageCounter (x y r : Option Int) : Prop :=
  r = x.map fun c => if 0 < c ∧ Hit y then 0 else c

def IsNewCoverage (t u r : Trace) : Prop :=
  EachResult NewCoverageCounter NewCoverageCounter t u r

/-- A line or function counter on which the code works as documented. -/
def NewCoverageCounterMet (x y : Option Int) : Prop :=
  (Hit y → x.isSome) ∧ ∀ c, x = some c → 0 ≤ c

/-- A branch counter on which the code works as documented. -/
def NewCoverageBranchMet (x y : Option Int) : Prop :=
  (Hit y → ∃ c, x = some c ∧ 0 ≤ c) ∧ x ≠ some (-2)

/--
The pairs of traces on which `new-coverage` has its documented meaning: every
object hit in the second trace has a counter, and not `-`, in the first one (and
no negative number poses as a counter).
-/
def NewCoverageMet (t u : Trace) : Prop :=
  EachPair NewCoverageCounterMet NewCoverageBranchMet t u

theorem lineOperand_pos_iff (y : Option Int) : 0 < lineOperand y ↔ Hit y := by
  cases y <;> simp [Hit]

theorem branchOperand_pos_iff (y : Option Int) : 0 < branchOperand y ↔ Hit y := by
  cases y with
  | none => simp [Hit]
  | some d =>
    by_cases hd : d = -1
    · subst hd
      simp [Hit]
    · simp [branchOperand_some hd, Hit]

theorem counterOperationNewCoverage_of_pos (c : Int) (h : 0 < d) :
    TraceOperationNewCoverage.counterOperation [c, d] = 0 := by
  simp [TraceOperationNewCoverage.counterOperation, h]

theorem counterOperationNewCoverage_of_not_pos (c : Int) (h : ¬0 < d) :
    TraceOperationNewCoverage.counterOperation [c, d] = c := by
  simp [TraceOperationNewCoverage.counterOperation, h]

theorem whenPresent_pair {V W : Type*} (g : List (Option V) → Option W) (x y : Option V)
    (hnone : g [none, none] = none) :
    whenPresent g [x, y] = g [x, y] := by
  cases x <;> cases y <;> simp [whenPresent, hnone]

theorem lineResult_newCoverage (x y : Option Int) :
    whenPresent (lineResult traceOperationNewCoverage) [x, y] =
      if Hit y then some 0
      else if 0 ≤ lineOperand x then some (lineOperand x) else none := by
  rw [whenPresent_pair _ _ _ (by decide)]
  simp only [lineResult, traceOperationNewCoverage, TraceOperation.unified,
    List.map_cons, List.map_nil]
  by_cases hy : Hit y
  · rw [counterOperationNewCoverage_of_pos _ ((lineOperand_pos_iff y).mpr hy), if_pos hy]
    rfl
  · rw [counterOperationNewCoverage_of_not_pos _
      (fun h => hy ((lineOperand_pos_iff y).mp h)), if_neg hy]

theorem branchResult_newCoverage (x y : Option Int) :
    whenPresent (branchResult traceOperationNewCoverage) [x, y] =
      if Hit y then some 0
      else if branchOperand x = -2 then some (-1) else x := by
  rw [whenPresent_pair _ _ _ (by decide)]
  simp only [branchResult, traceOperationNewCoverage, TraceOperation.unified,
    List.map_cons, List.map_nil]
  by_cases hy : Hit y
  · rw [counterOperationNewCoverage_of_pos _ ((branchOperand_pos_iff y).mpr hy), if_pos hy]
    rfl
  · rw [counterOperationNewCoverage_of_not_pos _
      (fun h => hy ((branchOperand_pos_iff y).mp h)), if_neg hy]
    cases x with
    | none => rfl
    | some c =>
      by_cases hdash : c = -1
      · subst hdash
        rfl
      · rw [branchOperand_some hdash]
        by_cases htwo : c = -2
        · simp [htwo]
        · simp [htwo, hdash]

theorem newCoverageCounter_iff (x y : Option Int) :
    NewCoverageCounter x y (whenPresent (lineResult traceOperationNewCoverage) [x, y]) ↔
      NewCoverageCounterMet x y := by
  rw [lineResult_newCoverage]
  unfold NewCoverageCounter NewCoverageCounterMet
  cases x with
  | none =>
    by_cases hy : Hit y <;> simp [hy]
  | some c =>
    by_cases hy : Hit y
    · simp only [hy, if_true, and_true, Option.map_some]
      split_ifs <;> simp <;> omega
    · by_cases hc : 0 ≤ c <;> simp [hy, hc]

theorem newCoverageBranch_iff (x y : Option Int) :
    NewCoverageCounter x y (whenPresent (branchResult traceOperationNewCoverage) [x, y]) ↔
      NewCoverageBranchMet x y := by
  rw [branchResult_newCoverage]
  unfold NewCoverageCounter NewCoverageBranchMet
  cases x with
  | none =>
    by_cases hy : Hit y <;> simp [hy]
  | some c =>
    by_cases hy : Hit y
    · simp only [hy, if_true, and_true, Option.map_some]
      split_ifs <;> simp <;> omega
    · by_cases hdash : c = -1
      · subst hdash
        simp [hy]
      · rw [branchOperand_some hdash]
        by_cases htwo : c = -2 <;> simp [hy, htwo]

/--
**Meaning of 'new-coverage'.**  The result of the code is the documented new
coverage exactly for the pairs of traces described by `NewCoverageMet`.
-/
theorem doTraceOperation_newCoverage_iff (t u : Trace) :
    (∃ r, doTraceOperation traceOperationNewCoverage [t, u] = some r ∧
        IsNewCoverage t u r) ↔
      NewCoverageMet t u :=
  doTraceOperation_pair_iff newCoverageCounter_iff newCoverageBranch_iff t u

/--
A line that only the second trace lists, with a hit: the code adds it to the
result with counter `0`.
-/
theorem newCoverage_of_unlisted_line :
    ∃ t u, Trace.empty.read 0 noLinesText = .ok t ∧ Trace.empty.read 0 oneLineText = .ok u ∧
      doTraceOperation traceOperationNewCoverage [t, u] =
        some (singleFileTrace (singleLineFile 1 0)) ∧
      ¬∃ r, doTraceOperation traceOperationNewCoverage [t, u] = some r ∧
        IsNewCoverage t u r := by
  have hresult : doTraceOperation traceOperationNewCoverage
      [singleFileTrace FileInfo.empty, singleFileTrace (singleLineFile 1 5)] =
      some (singleFileTrace (singleLineFile 1 0)) := by
    decide +kernel
  refine ⟨_, _, read_noLinesText, read_oneLineText, hresult, ?_⟩
  rintro ⟨r, hr, hnew⟩
  obtain rfl := Option.some.inj (hresult.symm.trans hr)
  have hline := hnew.lines ⟨[], ['/', 'a', '.', 'c']⟩ ['/', 'a', '.', 'c'] 1
  exact absurd hline (by unfold NewCoverageCounter; decide +kernel)

end Coverage
end KedrAux
