import KedrAux.Coverage.BinaryOperations

/-!
# The 'add' operation

`TraceOperationAdd` (`program.cpp`) sums the counters of the same object in any
number of traces.  The sum starts from the first operand as it is, so when no
trace has a real counter the result is the code of the first operand, `-1` for
an absent object or `-2` for a `-` branch.  The start line of a function comes
from the first trace that has the function.
-/

namespace KedrAux
namespace Coverage

namespace TraceOperationAdd

def addOperand (result op : Int) : Int :=
  if op ≥ 0 then (if result < 0 then 0 else result) + op else result

def counterOperation (n : Nat) (operands : List Int) : Int :=
  ((operands.take n).drop 1).foldl addOperand (operands.getD 0 (-1))

end TraceOperationAdd

def traceOperationAdd (n : Nat) : TraceOperation :=
  .unified (TraceOperationAdd.counterOperation n)

/-- The `add` command: the operation is created for the number of its operands. -/
def addTraces (ts : List Trace) : Option Trace :=
  doTraceOperation (traceOperationAdd ts.length) ts

def realCounters (operands : List Int) : List Int :=
  operands.filter fun c => decide (0 ≤ c)

theorem realCounters_cons (c : Int) (l : List Int) :
    realCounters (c :: l) = if 0 ≤ c then c :: realCounters l else realCounters l := by
  simp [realCounters, List.filter_cons]

@[simp] theorem realCounters_append (l l' : List Int) :
    realCounters (l ++ l') = realCounters l ++ realCounters l' := by
  simp [realCounters]

variable {l : List Int} {iters : List (Option FuncInfo)} {ts : List Trace}

theorem realCounters_perm {l' : List Int} (h : l.Perm l') :
    (realCounters l).Perm (realCounters l') :=
  h.filter _

theorem realCounters_sum_nonneg (l : List Int) : 0 ≤ (realCounters l).sum := by
  apply List.sum_nonneg
  intro c hc
  simpa using (List.mem_filter.mp hc).2

theorem realCounters_eq_nil_iff (l : List Int) : realCounters l = [] ↔ ∀ c ∈ l, c < 0 := by
  simp [realCounters]

theorem foldl_addOperand (l : List Int) (result : Int) :
    l.foldl TraceOperationAdd.addOperand result =
      if realCounters l = [] then result
      else max result 0 + (realCounters l).sum := by
  induction l generalizing result with
  | nil =>
    simp [realCounters]
  | cons c l ih =>
    rw [List.foldl_cons, ih, realCounters_cons]
    by_cases hc : 0 ≤ c
    · have hstep : TraceOperationAdd.addOperand result c = max result 0 + c := by
        simp only [TraceOperationAdd.addOperand, ge_iff_le, hc, if_true]
        split_ifs <;> omega
      rw [hstep]
      by_cases hl : realCounters l = []
      · simp [hl, hc]
      · have hnonneg : max (max result 0 + c) 0 = max result 0 + c := by omega
        simp [hl, hc, hnonneg, add_assoc]
    · have hstep : TraceOperationAdd.addOperand result c = result := by
        simp [TraceOperationAdd.addOperand, hc]
      simp [hstep, hc]

theorem counterOperationAdd_cons (c : Int) (l : List Int) :
    TraceOperationAdd.counterOperation (l.length + 1) (c :: l) =
      if realCounters (c :: l) = [] then c else (realCounters (c :: l)).sum := by
  have htake : ((c :: l).take (l.length + 1)).drop 1 = l := by simp
  rw [TraceOperationAdd.counterOperation, htake, foldl_addOperand, realCounters_cons,
    List.getD_cons_zero]
  by_cases hc : 0 ≤ c
  · by_cases hl : realCounters l = [] <;> simp [hl, hc]
  · have hmax : max c 0 = 0 := by omega
    by_cases hl : realCounters l = []
    · simp [hl, hc]
    · simp [hl, hc, hmax]

/-- The sum as a line or function counter; it is absent without a real counter. -/
def lineSum (iters : List (Option Int)) : Option Int :=
  if realCounters (iters.map lineOperand) = [] then none
  else some (realCounters (iters.map lineOperand)).sum

def branchDecode (newCounter : Int) : Option Int :=
  if newCounter ≠ -1 then some (if newCounter ≠ -2 then newCounter else -1) else none

/-- The sum as a branch counter; without a real counter the first operand decides. -/
def branchSum (iters : List (Option Int)) : Option Int :=
  if realCounters (iters.map branchOperand) = [] then
    branchDecode ((iters.map branchOperand).headD (-1))
  else some (realCounters (iters.map branchOperand)).sum

def functionSum (iters : List (Option FuncInfo)) : Option FuncInfo :=
  if realCounters (iters.map functionOperand) = [] then none
  else some ⟨functionLine iters, (realCounters (iters.map functionOperand)).sum⟩

theorem whenPresent_eq {V W : Type*} {g g' : List (Option V) → Option W} {iters : List (Option V)}
    (heq : g iters = g' iters)
    (habsent : (∀ it ∈ iters, it = none) → g' iters = none) :
    whenPresent g iters = g' iters := by
  unfold whenPresent
  split_ifs with h
  · exact heq
  · symm
    apply habsent
    intro it hit
    simp only [List.any_eq_true, not_exists, not_and] at h
    exact Option.not_isSome_iff_eq_none.mp (h it hit)

theorem realCounters_map_eq_nil {V : Type*} {operand : Option V → Int} {iters : List (Option V)}
    (hop : operand none = -1)
    (h : ∀ it ∈ iters, it = none) :
    realCounters (iters.map operand) = [] := by
  rw [realCounters_eq_nil_iff]
  intro c hc
  obtain ⟨it, hit, rfl⟩ := List.mem_map.mp hc
  rw [h it hit, hop]
  omega

theorem lineResult_add (iters : List (Option Int)) :
    whenPresent (lineResult (traceOperationAdd iters.length)) iters = lineSum iters := by
  apply whenPresent_eq
  · cases iters with
    | nil => rfl
    | cons x iters =>
      simp only [lineResult, traceOperationAdd, TraceOperation.unified, List.map_cons,
        List.length_cons, lineSum]
      rw [← iters.length_map (f := lineOperand), counterOperationAdd_cons]
      split_ifs with hnil hpos hpos
      · rw [realCounters_eq_nil_iff] at hnil
        have := hnil (lineOperand x) (by simp)
        omega
      · rfl
      · rfl
      · have := realCounters_sum_nonneg (lineOperand x :: iters.map lineOperand)
        omega
  · intro habsent
    rw [lineSum, if_pos (realCounters_map_eq_nil rfl habsent)]

theorem functionResult_add (iters : List (Option FuncInfo)) :
    whenPresent (functionResult (traceOperationAdd iters.length)) iters =
      functionSum iters := by
  apply whenPresent_eq
  · cases iters with
    | nil => rfl
    | cons x iters =>
      simp only [functionResult, traceOperationAdd, TraceOperation.unified,
        List.map_cons, List.length_cons, functionSum]
      rw [← iters.length_map (f := functionOperand), counterOperationAdd_cons]
      split_ifs with hnil hpos hpos
      · rw [realCounters_eq_nil_iff] at hnil
        have := hnil (functionOperand x) (by simp)
        omega
      · rfl
      · rfl
      · have := realCounters_sum_nonneg (functionOperand x :: iters.map functionOperand)
        omega
  · intro habsent
    rw [functionSum, if_pos (realCounters_map_eq_nil rfl habsent)]

theorem branchDecode_of_nonneg {c : Int} (h : 0 ≤ c) : branchDecode c = some c := by
  have h1 : c ≠ -1 := by omega
  have h2 : c ≠ -2 := by omega
  simp [branchDecode, h1, h2]

theorem branchResult_add (iters : List (Option Int)) :
    whenPresent (branchResult (traceOperationAdd iters.length)) iters =
      branchSum iters := by
  apply whenPresent_eq
  · cases iters with
    | nil => rfl
    | cons x iters =>
      change branchDecode _ = _
      simp only [traceOperationAdd, TraceOperation.unified, List.map_cons,
        List.length_cons, branchSum, List.headD_cons]
      rw [← iters.length_map (f := branchOperand), counterOperationAdd_cons]
      split_ifs with hnil
      · rfl
      · exact branchDecode_of_nonneg (realCounters_sum_nonneg _)
  · intro habsent
    rw [branchSum, if_pos (realCounters_map_eq_nil rfl habsent)]
    cases iters with
    | nil => rfl
    | cons x iters =>
      rw [habsent x (by simp)]
      rfl

/-- What `add` computes, object by object. -/
structure IsSum (ts : List Trace) (r : Trace) : Prop where
  group_isSome : ∀ g, (r.fileGroups.find g).isSome =
    ts.any fun t => (t.fileGroups.find g).isSome
  file_isSome : ∀ g f, (r.fileOf g f).isSome = ts.any fun t => (t.fileOf g f).isSome
  funcOf_eq : ∀ g f n, r.funcOf g f n = functionSum (ts.map fun t => t.funcOf g f n)
  lineOf_eq : ∀ g f l, r.lineOf g f l = lineSum (ts.map fun t => t.lineOf g f l)
  branchOf_eq : ∀ g f b, r.branchOf g f b = branchSum (ts.map fun t => t.branchOf g f b)

theorem addTraces_spec (ts : List Trace) (hn : ts ≠ []) :
    ∃ r, addTraces ts = some r ∧ IsSum ts r := by
  obtain ⟨r, hr, hres⟩ := doTraceOperation_spec (traceOperationAdd ts.length) ts hn
  refine ⟨r, hr, hres.group_isSome, hres.file_isSome, ?_, ?_, ?_⟩
  · intro g f n
    have := functionResult_add (ts.map fun t => t.funcOf g f n)
    rw [List.length_map] at this
    rw [hres.funcOf_eq g f n, this]
  · intro g f l
    have := lineResult_add (ts.map fun t => t.lineOf g f l)
    rw [List.length_map] at this
    rw [hres.lineOf_eq g f l, this]
  · intro g f b
    have := branchResult_add (ts.map fun t => t.branchOf g f b)
    rw [List.length_map] at this
    rw [hres.branchOf_eq g f b, this]

/-- The start lines of the listed functions, those given as `-2` left out. -/
def startLines (iters : List (Option FuncInfo)) : List Int :=
  (iters.filterMap fun it => it.map FuncInfo.lineStart).filter fun l => decide (l ≠ -2)

@[simp] theorem startLines_append (iters iters' : List (Option FuncInfo)) :
    startLines (iters ++ iters') = startLines iters ++ startLines iters' := by
  simp [startLines]

theorem mem_startLines {l : Int} :
    l ∈ startLines iters ↔ ∃ fn, some fn ∈ iters ∧ fn.lineStart = l ∧ l ≠ -2 := by
  simp only [startLines, List.mem_filter, List.mem_filterMap, Option.map_eq_some_iff,
    decide_eq_true_eq]
  constructor
  · rintro ⟨⟨it, hit, fn, rfl, rfl⟩, hl⟩
    exact ⟨fn, hit, rfl, hl⟩
  · rintro ⟨fn, hfn, rfl, hl⟩
    exact ⟨⟨some fn, hfn, fn, rfl, rfl⟩, hl⟩

theorem functionLine_eq (iters : List (Option FuncInfo)) :
    functionLine iters = (startLines iters).headD (-2) := by
  obtain ⟨step, hline, hnone, hsome⟩ : ∃ step : Int → Option FuncInfo → Int,
      (∀ iters, functionLine iters = iters.foldl step (-2)) ∧
      (∀ line, step line none = line) ∧
      ∀ line fn, step line (some fn) = if line = -2 then fn.lineStart else line :=
    ⟨_, fun _ => rfl, fun _ => rfl, fun _ _ => rfl⟩
  have hfold : ∀ (iters : List (Option FuncInfo)) (line : Int),
      iters.foldl step line =
      if line = -2 then (startLines iters).headD (-2) else line := by
    intro iters
    induction iters with
    | nil =>
      intro line
      by_cases hline : line = -2 <;> simp [startLines, hline]
    | cons it iters ih =>
      intro line
      rw [List.foldl_cons, ih]
      cases it with
      | none => simp [hnone, startLines]
      | some fn =>
        rw [hsome]
        by_cases hline : line = -2
        · by_cases hfn : fn.lineStart = -2 <;> simp [startLines, hline, hfn]
        · simp [hline]
  rw [hline, hfold, if_pos rfl]

/--
The lists of traces whose sum does not depend on their order: traces that have a
function agree on its start line, and a branch without a counter anywhere is
either `-` in all traces or absent from all of them.
-/
structure AddOrderFree (ts : List Trace) : Prop where
  functions : ∀ g f n,
    (∃ t ∈ ts, ∃ fn, t.funcOf g f n = some fn ∧ 0 ≤ fn.counter) →
    ∀ t t' fn fn', t ∈ ts → t' ∈ ts →
      t.funcOf g f n = some fn → t'.funcOf g f n = some fn' →
      fn.lineStart ≠ -2 → fn'.lineStart ≠ -2 → fn.lineStart = fn'.lineStart
  branches : ∀ g f b,
    (∃ t ∈ ts, ∃ c, t.branchOf g f b = some c ∧ 0 ≤ c) ∨
    ∀ t t', t ∈ ts → t' ∈ ts →
      branchOperand (t.branchOf g f b) = branchOperand (t'.branchOf g f b)

theorem realCounters_functions_eq_nil_iff {g : FileGroupID} {f n : Str} :
    realCounters ((ts.map fun t => t.funcOf g f n).map functionOperand) = [] ↔
      ¬∃ t ∈ ts, ∃ fn, t.funcOf g f n = some fn ∧ 0 ≤ fn.counter := by
  rw [realCounters_eq_nil_iff]
  simp only [List.map_map, List.mem_map, Function.comp_apply, not_exists, not_and]
  constructor
  · intro h t ht fn hfn
    have := h _ ⟨t, ht, rfl⟩
    simp only [hfn, functionOperand] at this
    omega
  · rintro h c ⟨t, ht, rfl⟩
    cases hfn : t.funcOf g f n with
    | none => simp [functionOperand]
    | some fn =>
      have := h t ht fn hfn
      simp only [functionOperand]
      omega

theorem realCounters_branches_eq_nil_iff {g : FileGroupID} {f : Str} {b : BranchID} :
    realCounters ((ts.map fun t => t.branchOf g f b).map branchOperand) = [] ↔
      ¬∃ t ∈ ts, ∃ c, t.branchOf g f b = some c ∧ 0 ≤ c := by
  rw [realCounters_eq_nil_iff]
  simp only [List.map_map, List.mem_map, Function.comp_apply, not_exists, not_and]
  constructor
  · intro h t ht c hc hpos
    have hne : c ≠ -1 := by omega
    have := h _ ⟨t, ht, rfl⟩
    rw [hc, branchOperand_some hne] at this
    omega
  · rintro h c ⟨t, ht, rfl⟩
    cases hc : t.branchOf g f b with
    | none => simp
    | some c =>
      have := h t ht c hc
      by_cases hne : c = -1
      · simp [hne]
      · rw [branchOperand_some hne]
        omega

theorem headD_eq_of_perm {l' : List Int} (d : Int) (hperm : l.Perm l')
    (heq : ∀ a b, a ∈ l → b ∈ l → a = b) :
    l.headD d = l'.headD d := by
  cases l with
  | nil =>
    rw [hperm.nil_eq]
  | cons a l =>
    cases l' with
    | nil => exact absurd hperm.eq_nil (by simp)
    | cons a' l' =>
      exact heq a a' (by simp) (hperm.mem_iff.mpr (by simp))

theorem IsSum.eq_of_perm {us : List Trace} {r r' : Trace} (h : IsSum ts r) (h' : IsSum us r')
    (hperm : us.Perm ts) (hfree : AddOrderFree ts) :
    r' = r := by
  have hany : ∀ p : Trace → Bool, us.any p = ts.any p := fun p => hperm.any_eq
  apply Trace.ext_counters
  · intro g
    rw [h'.group_isSome, h.group_isSome, hany]
  · intro g f
    rw [h'.file_isSome, h.file_isSome, hany]
  · intro g f n
    have hmap := hperm.map fun t => t.funcOf g f n
    have hreal := realCounters_perm (hmap.map functionOperand)
    rw [h'.funcOf_eq, h.funcOf_eq, functionSum, functionSum, hreal.sum_eq]
    by_cases hnil : realCounters ((ts.map fun t => t.funcOf g f n).map functionOperand) = []
    · rw [if_pos hnil, if_pos (hnil ▸ hreal).eq_nil]
    · have hnil' : ¬realCounters ((us.map fun t => t.funcOf g f n).map functionOperand) =
          [] := fun he => hnil (he ▸ hreal).symm.eq_nil
      rw [if_neg hnil, if_neg hnil', functionLine_eq, functionLine_eq]
      have hcounter : ∃ t ∈ ts, ∃ fn, t.funcOf g f n = some fn ∧ 0 ≤ fn.counter := by
        by_contra hno
        exact hnil (realCounters_functions_eq_nil_iff.mpr hno)
      congr 2
      apply headD_eq_of_perm
      · exact (hmap.filterMap _).filter _
      · intro a b ha hb
        obtain ⟨fn, hfn, rfl, hfn2⟩ := mem_startLines.mp ha
        obtain ⟨fn', hfn', rfl, hfn2'⟩ := mem_startLines.mp hb
        obtain ⟨t, ht, hte⟩ := List.mem_map.mp hfn
        obtain ⟨t', ht', hte'⟩ := List.mem_map.mp hfn'
        exact hfree.functions g f n hcounter t t' fn fn' (hperm.mem_iff.mp ht)
          (hperm.mem_iff.mp ht') hte hte' hfn2 hfn2'
  · intro g f l
    have hreal := realCounters_perm ((hperm.map fun t => t.lineOf g f l).map lineOperand)
    rw [h'.lineOf_eq, h.lineOf_eq, lineSum, lineSum, hreal.sum_eq]
    by_cases hnil : realCounters ((ts.map fun t => t.lineOf g f l).map lineOperand) = []
    · rw [if_pos hnil, if_pos (hnil ▸ hreal).eq_nil]
    · rw [if_neg hnil, if_neg fun he => hnil (he ▸ hreal).symm.eq_nil]
  · intro g f b
    have hmap := hperm.map fun t => t.branchOf g f b
    have hreal := realCounters_perm (hmap.map branchOperand)
    rw [h'.branchOf_eq, h.branchOf_eq, branchSum, branchSum, hreal.sum_eq]
    by_cases hnil : realCounters ((ts.map fun t => t.branchOf g f b).map branchOperand) = []
    · rw [if_pos hnil, if_pos (hnil ▸ hreal).eq_nil]
      rcases hfree.branches g f b with hsome | hsame
      · exact absurd hsome (realCounters_branches_eq_nil_iff.mp hnil)
      · -- no counter anywhere: both results are decoded from the first operand
        congr 1
        apply headD_eq_of_perm (-1) (hmap.map branchOperand)
        intro a b ha hb
        simp only [List.map_map, List.mem_map, Function.comp_apply] at ha hb
        obtain ⟨t, ht, rfl⟩ := ha
        obtain ⟨t', ht', rfl⟩ := hb
        exact hsame t t' (hperm.mem_iff.mp ht) (hperm.mem_iff.mp ht')
    · rw [if_neg hnil, if_neg fun he => hnil (he ▸ hreal).symm.eq_nil]

theorem branchDecode_injective : Function.Injective branchDecode := by
  intro a b h
  unfold branchDecode at h
  split_ifs at h <;> simp_all

theorem isSum_first {t r : Trace} (hfree : ∀ us, us.Perm ts → addTraces us = addTraces ts)
    (hr : addTraces ts = some r) (ht : t ∈ ts) :
    IsSum (t :: ts.erase t) r := by
  have hperm : (t :: ts.erase t).Perm ts := (List.perm_cons_erase ht).symm
  obtain ⟨r', hr', hsum⟩ := addTraces_spec (t :: ts.erase t) (by simp)
  rw [hfree _ hperm, hr] at hr'
  cases hr'
  exact hsum

theorem addOrderFree_of_perm (hfree : ∀ us, us.Perm ts → addTraces us = addTraces ts) :
    AddOrderFree ts := by
  by_cases hn : ts = []
  · subst hn
    exact ⟨by simp, by simp⟩
  obtain ⟨r, hr, -⟩ := addTraces_spec ts hn
  constructor
  · intro g f n hcounter
    -- each trace that has the function can be made the one that gives the start line
    have hline : ∀ t fn, t ∈ ts → t.funcOf g f n = some fn → fn.lineStart ≠ -2 →
        (r.funcOf g f n).map FuncInfo.lineStart = some fn.lineStart := by
      intro t fn ht hfn hl
      rw [(isSum_first hfree hr ht).funcOf_eq, functionSum, if_neg]
      · simp [functionLine_eq, startLines, hfn, hl]
      · intro hnil
        rw [realCounters_functions_eq_nil_iff] at hnil
        obtain ⟨t', ht', hfn'⟩ := hcounter
        exact hnil ⟨t', (List.perm_cons_erase ht).mem_iff.mp ht', hfn'⟩
    intro t t' fn fn' ht ht' hfn hfn' hl hl'
    have heq := (hline t fn ht hfn hl).symm.trans (hline t' fn' ht' hfn' hl')
    exact Option.some.inj heq
  · intro g f b
    by_cases hsome : ∃ t ∈ ts, ∃ c, t.branchOf g f b = some c ∧ 0 ≤ c
    · exact Or.inl hsome
    right
    have hcode : ∀ t ∈ ts,
        r.branchOf g f b = branchDecode (branchOperand (t.branchOf g f b)) := by
      intro t ht
      rw [(isSum_first hfree hr ht).branchOf_eq, branchSum, if_pos]
      · rfl
      · rw [realCounters_branches_eq_nil_iff]
        rintro ⟨t', ht', hc⟩
        exact hsome ⟨t', (List.perm_cons_erase ht).mem_iff.mpr ht', hc⟩
    intro t t' ht ht'
    exact branchDecode_injective ((hcode t ht).symm.trans (hcode t' ht'))

/-- The sum is the same for every order of the operands exactly for such lists. -/
theorem addTraces_perm_iff (ts : List Trace) :
    (∀ us, us.Perm ts → addTraces us = addTraces ts) ↔ AddOrderFree ts := by
  constructor
  · exact addOrderFree_of_perm
  · intro hfree us hperm
    by_cases hn : ts = []
    · subst hn
      rw [hperm.eq_nil]
    have hn' : us ≠ [] := fun he => hn (he ▸ hperm).symm.eq_nil
    obtain ⟨r, hr, hsum⟩ := addTraces_spec ts hn
    obtain ⟨r', hr', hsum'⟩ := addTraces_spec us hn'
    rw [hr, hr', hsum.eq_of_perm hsum' hperm hfree]

def dashBranchText : Str := "TN:\nSF:/a.c\nBRDA:1,0,0,-\nend_of_record\n".toList

/-- The branch is kept when the trace that lists it comes first, and lost otherwise. -/
theorem addTraces_of_dash_branch :
    ¬∀ ts us : List Trace,
      (∀ t ∈ ts, ∃ is, Readable is ∧ Trace.empty.read 0 is = .ok t) →
      us.Perm ts → addTraces us = addTraces ts := by
  intro h
  have hdash : Readable dashBranchText := ⟨by decide +kernel, by decide +kernel⟩
  have hnone : Readable noLinesText := ⟨by decide +kernel, by decide +kernel⟩
  have hread : Trace.empty.read 0 dashBranchText = .ok (singleFileTrace
      { FileInfo.empty with branches := OrderedMap.empty.set ⟨1, 0, 0⟩ (-1) }) := by
    decide +kernel
  have hswap := h
    [singleFileTrace FileInfo.empty,
      singleFileTrace { FileInfo.empty with branches := OrderedMap.empty.set ⟨1, 0, 0⟩ (-1) }]
    [singleFileTrace { FileInfo.empty with branches := OrderedMap.empty.set ⟨1, 0, 0⟩ (-1) },
      singleFileTrace FileInfo.empty]
    (by
      intro t ht
      rcases List.mem_cons.mp ht with rfl | ht
      · exact ⟨noLinesText, hnone, read_noLinesText⟩
      · rw [List.mem_singleton.mp ht]
        exact ⟨dashBranchText, hdash, hread⟩)
    (.swap _ _ _)
  revert hswap
  decide +kernel

/-- A code that stands for the sum of some operands in a further sum. -/
structure StandsFor (l : List Int) (s : Int) : Prop where
  neg : realCounters l = [] → s < 0
  sum : realCounters l ≠ [] → s = (realCounters l).sum

theorem StandsFor.append {s : Int} (h : StandsFor l s) (c : Int) :
    (realCounters (l ++ [c]) = [] ↔ realCounters [s, c] = []) ∧
      (realCounters (l ++ [c])).sum = (realCounters [s, c]).sum := by
  rw [realCounters_append, realCounters_cons s [c]]
  by_cases hnil : realCounters l = []
  · have hs : ¬0 ≤ s := not_le.mpr (h.neg hnil)
    simp [hnil, hs]
  · simp [hnil, h.sum hnil, realCounters_sum_nonneg]

theorem lineSum_standsFor (iters : List (Option Int)) :
    StandsFor (iters.map lineOperand) (lineOperand (lineSum iters)) := by
  constructor
  · intro hnil
    simp [lineSum, hnil]
  · intro hnil
    simp [lineSum, hnil]

theorem functionSum_standsFor (iters : List (Option FuncInfo)) :
    StandsFor (iters.map functionOperand) (functionOperand (functionSum iters)) := by
  constructor
  · intro hnil
    simp [functionSum, hnil, functionOperand]
  · intro hnil
    simp [functionSum, hnil, functionOperand]

theorem branchOperand_branchDecode (c : Int) : branchOperand (branchDecode c) = c := by
  unfold branchDecode
  split_ifs with h1 h2
  · exact branchOperand_some h1
  · rw [branchOperand_dash]
    omega
  · rw [branchOperand_none]
    omega

theorem branchSum_standsFor (iters : List (Option Int)) :
    StandsFor (iters.map branchOperand) (branchOperand (branchSum iters)) := by
  have hsum := realCounters_sum_nonneg (iters.map branchOperand)
  constructor
  · intro hnil
    rw [branchSum, if_pos hnil, branchOperand_branchDecode]
    cases iters with
    | nil => simp
    | cons it iters => exact (realCounters_eq_nil_iff _).mp hnil _ (by simp)
  · intro hnil
    rw [branchSum, if_neg hnil]
    exact branchOperand_some (by omega)

theorem lineSum_append (iters : List (Option Int)) (it : Option Int) :
    lineSum (iters ++ [it]) = lineSum [lineSum iters, it] := by
  obtain ⟨hnil, hsum⟩ := (lineSum_standsFor iters).append (lineOperand it)
  rw [lineSum, lineSum]
  simp only [List.map_append, List.map_cons, List.map_nil, hnil, hsum]

theorem branchSum_append {iters : List (Option Int)} (hn : iters ≠ []) (it : Option Int) :
    branchSum (iters ++ [it]) = branchSum [branchSum iters, it] := by
  obtain ⟨hnil, hsum⟩ := (branchSum_standsFor iters).append (branchOperand it)
  -- without counters the code of the first operand survives the intermediate result
  have hhead : realCounters (iters.map branchOperand ++ [branchOperand it]) = [] →
      (iters.map branchOperand ++ [branchOperand it]).headD (-1) =
        branchOperand (branchSum iters) := by
    intro he
    rw [realCounters_append, List.append_eq_nil_iff] at he
    rw [branchSum, if_pos he.1, branchOperand_branchDecode]
    obtain ⟨x, iters, rfl⟩ := List.exists_cons_of_ne_nil hn
    rfl
  rw [branchSum, branchSum]
  simp only [List.map_append, List.map_cons, List.map_nil, ← hnil, hsum, List.headD_cons]
  split_ifs with he
  · rw [hhead he]
  · rfl

theorem startLines_functionSum (hcounter : ∀ fn, some fn ∈ iters → 0 ≤ fn.counter) :
    (startLines [functionSum iters]).head? = (startLines iters).head? := by
  unfold functionSum
  by_cases hnil : realCounters (iters.map functionOperand) = []
  · have hempty : startLines iters = [] := by
      rw [List.eq_nil_iff_forall_not_mem]
      intro l hl
      obtain ⟨fn, hfn, -, -⟩ := mem_startLines.mp hl
      have hneg := (realCounters_eq_nil_iff _).mp hnil fn.counter
        (List.mem_map.mpr ⟨some fn, hfn, rfl⟩)
      have := hcounter fn hfn
      omega
    rw [if_pos hnil, hempty]
    rfl
  · rw [if_neg hnil, functionLine_eq]
    cases hlines : startLines iters with
    | nil => simp [startLines]
    | cons l ls =>
      obtain ⟨-, -, -, hl⟩ := mem_startLines.mp (hlines ▸ List.mem_cons_self)
      simp [startLines, hl]

theorem functionSum_append (hcounter : ∀ fn, some fn ∈ iters → 0 ≤ fn.counter)
    (it : Option FuncInfo) :
    functionSum (iters ++ [it]) = functionSum [functionSum iters, it] := by
  obtain ⟨hnil, hsum⟩ := (functionSum_standsFor iters).append (functionOperand it)
  have hline : functionLine (iters ++ [it]) = functionLine [functionSum iters, it] := by
    have hsplit : startLines [functionSum iters, it] =
        startLines [functionSum iters] ++ startLines [it] :=
      startLines_append [functionSum iters] [it]
    rw [functionLine_eq, functionLine_eq, startLines_append, hsplit,
      List.headD_eq_head?_getD, List.headD_eq_head?_getD, List.head?_append,
      List.head?_append, startLines_functionSum hcounter]
  rw [functionSum, functionSum.eq_def [_, _]]
  simp only [List.map_append, List.map_cons, List.map_nil, hnil, hsum, hline]

theorem addTraces_append (u : Trace) (hn : ts ≠ [])
    (hcounter : ∀ t ∈ ts, ∀ g f n fn, t.funcOf g f n = some fn → 0 ≤ fn.counter) :
    addTraces (ts ++ [u]) = (addTraces ts).bind fun r => addTraces [r, u] := by
  obtain ⟨r, hr, hsum⟩ := addTraces_spec ts hn
  obtain ⟨r2, hr2, hsum2⟩ := addTraces_spec [r, u] (by simp)
  obtain ⟨r3, hr3, hsum3⟩ := addTraces_spec (ts ++ [u]) (by simp)
  rw [hr, hr3, Option.bind_some, hr2, Option.some.injEq]
  apply Trace.ext_counters
  · intro g
    simp [hsum3.group_isSome, hsum2.group_isSome, hsum.group_isSome]
  · intro g f
    simp [hsum3.file_isSome, hsum2.file_isSome, hsum.file_isSome]
  · intro g f n
    rw [hsum3.funcOf_eq, hsum2.funcOf_eq, List.map_append, List.map_cons, List.map_nil,
      functionSum_append]
    · simp [hsum.funcOf_eq]
    · intro fn hfn
      obtain ⟨t, ht, hte⟩ := List.mem_map.mp hfn
      exact hcounter t ht g f n fn hte
  · intro g f l
    rw [hsum3.lineOf_eq, hsum2.lineOf_eq, List.map_append, List.map_cons, List.map_nil,
      lineSum_append]
    simp [hsum.lineOf_eq]
  · intro g f b
    rw [hsum3.branchOf_eq, hsum2.branchOf_eq, List.map_append, List.map_cons, List.map_nil,
      branchSum_append (by simpa using hn)]
    simp [hsum.branchOf_eq]

/-- Adding traces one by one gives the same trace as adding all of them at once. -/
theorem addTraces_snoc
    {ts : List Trace} {u : Trace}
    (hn : ts ≠ []) (hrange : ∀ t ∈ ts ++ [u], t.CountersInRange) :
    addTraces (ts ++ [u]) = (addTraces ts).bind fun r => addTraces [r, u] := by
  apply addTraces_append u hn
  intro t ht g f n fn hfn
  exact ((hrange t (by simp [ht])).functions g f n fn hfn).2

/-- A sum of three traces that were read from texts. -/
theorem addTraces_snoc_texts :
    addTraces [singleFileTrace (singleLineFile 1 5), singleFileTrace FileInfo.empty,
      singleFileTrace (singleLineFile 1 5)] =
    (addTraces [singleFileTrace (singleLineFile 1 5), singleFileTrace FileInfo.empty]).bind
      fun r => addTraces [r, singleFileTrace (singleLineFile 1 5)] := by
  have hone : (singleFileTrace (singleLineFile 1 5)).CountersInRange :=
    (Trace.read_writable ⟨by decide +kernel, by decide +kernel⟩
      read_oneLineText).countersInRange
  have hnone : (singleFileTrace FileInfo.empty).CountersInRange :=
    (Trace.read_writable ⟨by decide +kernel, by decide +kernel⟩
      read_noLinesText).countersInRange
  have hrange : ∀ t, t ∈ [singleFileTrace (singleLineFile 1 5), singleFileTrace FileInfo.empty] ++
      [singleFileTrace (singleLineFile 1 5)] → t.CountersInRange := by
    intro t ht
    simp only [List.cons_append, List.nil_append, List.mem_cons, List.not_mem_nil,
      or_false] at ht
    rcases ht with rfl | rfl | rfl
    · exact hone
    · exact hnone
    · exact hone
  exact addTraces_snoc (by simp) hrange

end Coverage
end KedrAux
