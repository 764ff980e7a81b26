import KedrAux.Coverage.ForEachVector
import KedrAux.Coverage.Trace

/-!
# Per-counter operations on traces

`doTraceOperation` (`do_trace_operation.cpp`) combines the counters of the same
object in several traces into one counter of the resulting trace.  Counters are
encoded for the operation: a non-negative number is a real counter, `-1` an
absent one and `-2` the `-` of a branch record.

A group or file of the result is created whenever some operand has it; whether
a counter is created depends on the value of the operation.  `none` stands for a
failed assertion.
-/

namespace KedrAux
namespace Coverage

/-- Operation with the counters of one object; see `trace_operation.hh`. -/
structure TraceOperation where
  lineOperation : List Int → Int
  functionOperation : List Int → Int
  branchOperation : List Int → Int

/-- `TraceOperationUnified`: the same operation for all kinds of counters. -/
def TraceOperation.unified (counterOperation : List Int → Int) : TraceOperation where
  lineOperation := counterOperation
  functionOperation := counterOperation
  branchOperation := counterOperation

def functionLine (iters : List (Option FuncInfo)) : Int :=
  iters.foldl
    (fun line it =>
      match it with
      | some fn => if line = -2 then fn.lineStart else line
      | none => line)
    (-2)

def functionOperand : Option FuncInfo → Int
  | some fn => fn.counter
  | none => -1

def lineOperand : Option Int → Int
  | some c => c
  | none => -1

def branchOperand : Option Int → Int
  | some c => if c ≠ -1 then c else -2
  | none => -1

@[simp] theorem lineOperand_some (c : Int) : lineOperand (some c) = c := rfl

@[simp] theorem lineOperand_none : lineOperand none = -1 := rfl

@[simp] theorem branchOperand_none : branchOperand none = -1 := rfl

@[simp] theorem branchOperand_dash : branchOperand (some (-1)) = -2 := rfl

theorem branchOperand_some {c : Int} (h : c ≠ -1) : branchOperand (some c) = c := by
  simp [branchOperand, h]

/-- The function inserted into the result, if any. -/
def functionResult (op : TraceOperation) (iters : List (Option FuncInfo)) :
    Option FuncInfo :=
  let newCounter := op.functionOperation (iters.map functionOperand)
  if newCounter ≥ 0 then some ⟨functionLine iters, newCounter⟩ else none

/-- The line counter inserted into the result, if any. -/
def lineResult (op : TraceOperation) (iters : List (Option Int)) : Option Int :=
  let newCounter := op.lineOperation (iters.map lineOperand)
  if newCounter ≥ 0 then some newCounter else none

/-- The branch counter inserted into the result, if any. -/
def branchResult (op : TraceOperation) (iters : List (Option Int)) : Option Int :=
  let newCounter := op.branchOperation (iters.map branchOperand)
  if newCounter ≠ -1 then some (if newCounter ≠ -2 then newCounter else -1) else none

def doFile (op : TraceOperation) (iters : List (Option FileInfo)) : Option FileInfo := do
  let functions ← forEachVector (iters.map fun it => it.map FileInfo.functions)
  let lines ← forEachVector (iters.map fun it => it.map FileInfo.lines)
  let branches ← forEachVector (iters.map fun it => it.map FileInfo.branches)
  return {
    functions := .insertResults (fun _ => functionResult op) functions .empty
    lines := .insertResults (fun _ => lineResult op) lines .empty
    branches := .insertResults (fun _ => branchResult op) branches .empty }

def doGroup (op : TraceOperation) (iters : List (Option FileGroupInfo)) :
    Option FileGroupInfo := do
  let calls ← forEachVector (iters.map fun it => it.map FileGroupInfo.files)
  let files ← calls.foldlM
    (fun files call => (doFile op call.2).bind fun file => files.insertNew call.1 file)
    .empty
  return ⟨files⟩

/-- Perform an operation on traces; the result starts empty. -/
def doTraceOperation (op : TraceOperation) (operands : List Trace) : Option Trace := do
  let calls ← forEachVector (operands.map fun t => some t.fileGroups)
  let groups ← calls.foldlM
    (fun groups call => (doGroup op call.2).bind fun gi => groups.insertNew call.1 gi)
    .empty
  return ⟨groups⟩

/-- The result of `f` on the operands, for an object that some operand has. -/
def whenPresent {V W : Type*} (f : List (Option V) → Option W)
    (iters : List (Option V)) : Option W :=
  if iters.any Option.isSome then f iters else none

variable {K V F W : Type*}

theorem lookups_map [LinearOrder K] (sel : F → OrderedMap K V) (iters : List (Option F)) (k : K) :
    lookups (iters.map fun it => it.map sel) k =
      iters.map fun it => it.bind fun x => (sel x).find k := by
  unfold lookups
  rw [List.map_map]
  apply List.map_congr_left
  intro it _
  cases it <;> rfl

theorem find_insertResults_forEachVector [LinearOrder K] (sel : F → OrderedMap K V)
    {iters : List (Option F)} (hn : iters ≠ []) (g : List (Option V) → Option W) :
    ∃ calls, forEachVector (iters.map fun it => it.map sel) = some calls ∧
      ∀ k, (OrderedMap.insertResults (fun _ => g) calls .empty).find k =
        whenPresent g (iters.map fun it => it.bind fun x => (sel x).find k) := by
  obtain ⟨m, hm, hfind⟩ :=
    forEachVector_spec (iters.map fun it => it.map sel) (by simpa using hn)
  refine ⟨m.entries, hm, ?_⟩
  intro k
  rw [OrderedMap.insertResults_entries, OrderedMap.find_filterMapVal, hfind k,
    lookups_map, whenPresent]
  split_ifs <;> rfl

theorem foldlM_insertNew_forEachVector [LinearOrder K] (sel : F → OrderedMap K V)
    {iters : List (Option F)} (hn : iters ≠ []) {f : List (Option V) → Option W}
    {g : List (Option V) → W} (hf : ∀ vs : List (Option V), vs ≠ [] → f vs = some (g vs)) :
    ∃ m : OrderedMap K W,
      ((forEachVector (iters.map fun it => it.map sel)).bind fun calls =>
        calls.foldlM
          (fun acc call => (f call.2).bind fun w => acc.insertNew call.1 w) .empty) =
        some m ∧
      ∀ k, m.find k =
        whenPresent (fun vs => some (g vs))
          (iters.map fun it => it.bind fun x => (sel x).find k) := by
  obtain ⟨m, hm, hfind⟩ :=
    forEachVector_spec (iters.map fun it => it.map sel) (by simpa using hn)
  have hcalls : ∀ e ∈ m.entries, f e.2 = some (g e.2) := by
    rintro ⟨k, vs⟩ he
    apply hf
    rw [← OrderedMap.find_eq_some_iff, hfind k, lookups_map] at he
    split_ifs at he
    obtain rfl := Option.some.inj he
    simpa using hn
  refine ⟨m.filterMapVal fun _ vs => some (g vs), ?_, ?_⟩
  · rw [hm, Option.bind_some,
      OrderedMap.foldlM_insertNew (f := fun _ => f) (g := fun _ => g) m.sorted hcalls
        (by simp),
      OrderedMap.insertResults_entries]
  · intro k
    rw [OrderedMap.find_filterMapVal, hfind k, lookups_map, whenPresent]
    split_ifs <;> rfl

variable {iters : List (Option FileInfo)}

theorem doFile_spec (op : TraceOperation) (hn : iters ≠ []) :
    ∃ fi, doFile op iters = some fi ∧
      (∀ n, fi.functions.find n = whenPresent (functionResult op)
        (iters.map fun it => it.bind fun x => x.functions.find n)) ∧
      (∀ l, fi.lines.find l = whenPresent (lineResult op)
        (iters.map fun it => it.bind fun x => x.lines.find l)) ∧
      (∀ b, fi.branches.find b = whenPresent (branchResult op)
        (iters.map fun it => it.bind fun x => x.branches.find b)) := by
  obtain ⟨functions, hfn, hfind⟩ :=
    find_insertResults_forEachVector FileInfo.functions hn (functionResult op)
  obtain ⟨lines, hln, hlind⟩ :=
    find_insertResults_forEachVector FileInfo.lines hn (lineResult op)
  obtain ⟨branches, hbr, hbind⟩ :=
    find_insertResults_forEachVector FileInfo.branches hn (branchResult op)
  refine ⟨⟨_, _, _⟩, ?_, hfind, hlind, hbind⟩
  unfold doFile
  rw [hfn, hln, hbr]
  rfl

/-- `doFile` as a total function on the operands of a file. -/
def fileResult (op : TraceOperation) (iters : List (Option FileInfo)) : FileInfo :=
  (doFile op iters).getD FileInfo.empty

theorem doFile_eq (op : TraceOperation) (hn : iters ≠ []) :
    doFile op iters = some (fileResult op iters) := by
  obtain ⟨fi, hfi, _⟩ := doFile_spec op hn
  simp [fileResult, hfi]

theorem find_fileResult (op : TraceOperation) (hn : iters ≠ []) :
    (∀ n, (fileResult op iters).functions.find n = whenPresent (functionResult op)
      (iters.map fun it => it.bind fun x => x.functions.find n)) ∧
    (∀ l, (fileResult op iters).lines.find l = whenPresent (lineResult op)
      (iters.map fun it => it.bind fun x => x.lines.find l)) ∧
    (∀ b, (fileResult op iters).branches.find b = whenPresent (branchResult op)
      (iters.map fun it => it.bind fun x => x.branches.find b)) := by
  obtain ⟨fi, hfi, hfind⟩ := doFile_spec op hn
  have heq : fileResult op iters = fi := by simp [fileResult, hfi]
  rw [heq]
  exact hfind

theorem doGroup_spec (op : TraceOperation) {iters : List (Option FileGroupInfo)} (hn : iters ≠ []) :
    ∃ gi, doGroup op iters = some gi ∧
      ∀ f, gi.files.find f = whenPresent (fun vs => some (fileResult op vs))
        (iters.map fun it => it.bind fun x => x.files.find f) := by
  obtain ⟨m, hm, hfind⟩ :=
    foldlM_insertNew_forEachVector FileGroupInfo.files hn
      (f := doFile op) (g := fileResult op) (fun _ hvs => doFile_eq op hvs)
  refine ⟨⟨m⟩, ?_, hfind⟩
  obtain ⟨calls, hcalls, hfold⟩ := Option.bind_eq_some_iff.mp hm
  simp [doGroup, hcalls, hfold]

/-- `doGroup` as a total function on the operands of a group. -/
def groupResult (op : TraceOperation) (iters : List (Option FileGroupInfo)) :
    FileGroupInfo :=
  (doGroup op iters).getD default

theorem doGroup_eq (op : TraceOperation) {iters : List (Option FileGroupInfo)} (hn : iters ≠ []) :
    doGroup op iters = some (groupResult op iters) := by
  obtain ⟨gi, hgi, _⟩ := doGroup_spec op hn
  simp [groupResult, hgi]

theorem find_groupResult (op : TraceOperation) {iters : List (Option FileGroupInfo)}
    (hn : iters ≠ []) (f : Str) :
    (groupResult op iters).files.find f = whenPresent (fun vs => some (fileResult op vs))
      (iters.map fun it => it.bind fun x => x.files.find f) := by
  obtain ⟨gi, hgi, hfind⟩ := doGroup_spec op hn
  simpa [groupResult, hgi] using hfind f

theorem whenPresent_isSome (g : List (Option V) → W) (iters : List (Option V)) :
    (whenPresent (fun vs => some (g vs)) iters).isSome = iters.any Option.isSome := by
  unfold whenPresent
  split_ifs with h
  · simp [h]
  · simpa using h

/--
What `doTraceOperation` computes: the groups and files that some operand has,
and for each object the result of the operation on its operands.
-/
structure OperationResult
    (op : TraceOperation) (operands : List Trace) (result : Trace) : Prop where
  group_isSome : ∀ g, (result.fileGroups.find g).isSome =
    operands.any fun t => (t.fileGroups.find g).isSome
  file_isSome : ∀ g f, (result.fileOf g f).isSome =
    operands.any fun t => (t.fileOf g f).isSome
  funcOf_eq : ∀ g f n, result.funcOf g f n =
    whenPresent (functionResult op) (operands.map fun t => t.funcOf g f n)
  lineOf_eq : ∀ g f l, result.lineOf g f l =
    whenPresent (lineResult op) (operands.map fun t => t.lineOf g f l)
  branchOf_eq : ∀ g f b, result.branchOf g f b =
    whenPresent (branchResult op) (operands.map fun t => t.branchOf g f b)

theorem any_isSome_of_bind {α β : Type*} {l : List (Option α)} {f : α → Option β}
    (h : (l.map fun it => it.bind f).any Option.isSome) :
    l.any Option.isSome := by
  simp only [List.any_map, List.any_eq_true, Function.comp_apply] at h ⊢
  obtain ⟨it, hit, hsome⟩ := h
  cases it with
  | none => simp at hsome
  | some x => exact ⟨some x, hit, rfl⟩

theorem bind_fileResult (op : TraceOperation) (sel : FileInfo → Option W)
    (sel' : FileInfo → Option V) (g : List (Option V) → Option W)
    (hsel : sel (fileResult op iters) =
      whenPresent g (iters.map fun it => it.bind sel')) :
    (whenPresent (fun vs => some (fileResult op vs)) iters).bind sel =
      whenPresent g (iters.map fun it => it.bind sel') := by
  by_cases h : iters.any Option.isSome
  · rw [whenPresent, if_pos h, Option.bind_some, hsel]
  · rw [whenPresent, if_neg h, Option.bind_none, whenPresent,
      if_neg fun h' => h (any_isSome_of_bind h')]

/-- Every operation on at least one trace has a result. -/
theorem doTraceOperation_spec (op : TraceOperation) (operands : List Trace) (hn : operands ≠ []) :
    ∃ result, doTraceOperation op operands = some result ∧
      OperationResult op operands result := by
  have hmaps : (operands.map fun t => some t.fileGroups) =
      (operands.map some).map fun it => it.map Trace.fileGroups := by
    rw [List.map_map]
    rfl
  have hn' : operands.map some ≠ [] := by simpa using hn
  obtain ⟨m, hm, hfind⟩ :=
    foldlM_insertNew_forEachVector Trace.fileGroups hn'
      (f := doGroup op) (g := groupResult op) (fun _ hvs => doGroup_eq op hvs)
  have hfind' : ∀ g, m.find g = whenPresent (fun vs => some (groupResult op vs))
      (operands.map fun t => t.fileGroups.find g) := by
    intro g
    rw [hfind g, List.map_map]
    rfl
  have hfile : ∀ g f, (⟨m⟩ : Trace).fileOf g f =
      whenPresent (fun vs => some (fileResult op vs))
        (operands.map fun t => t.fileOf g f) := by
    intro g f
    have hmap : (operands.map fun t => t.fileOf g f) =
        (operands.map fun t => t.fileGroups.find g).map
          fun it => it.bind fun gi => gi.files.find f := by
      rw [List.map_map]
      rfl
    have hne : (operands.map fun t => t.fileGroups.find g) ≠ [] := by simpa using hn
    rw [Trace.fileOf, hfind' g, hmap]
    by_cases h : (operands.map fun t => t.fileGroups.find g).any Option.isSome
    · rw [whenPresent, if_pos h, Option.bind_some, find_groupResult op hne]
    · rw [whenPresent, if_neg h, Option.bind_none, whenPresent,
        if_neg fun h' => h (any_isSome_of_bind h')]
  refine ⟨⟨m⟩, ?_, ?_⟩
  · obtain ⟨calls, hcalls, hfold⟩ := Option.bind_eq_some_iff.mp hm
    rw [← hmaps] at hcalls
    simp [doTraceOperation, hcalls, hfold]
  · have hne : ∀ g f, (operands.map fun t => t.fileOf g f) ≠ [] := by
      intro g f
      simpa using hn
    constructor
    · intro g
      rw [hfind' g, whenPresent_isSome, List.any_map]
      rfl
    · intro g f
      rw [hfile g f, whenPresent_isSome, List.any_map]
      rfl
    · intro g f n
      rw [Trace.funcOf, hfile g f,
        bind_fileResult op _ (fun fi => fi.functions.find n) (functionResult op)
          ((find_fileResult op (hne g f)).1 n),
        List.map_map]
      rfl
    · intro g f l
      rw [Trace.lineOf, hfile g f,
        bind_fileResult op _ (fun fi => fi.lines.find l) (lineResult op)
          ((find_fileResult op (hne g f)).2.1 l),
        List.map_map]
      rfl
    · intro g f b
      rw [Trace.branchOf, hfile g f,
        bind_fileResult op _ (fun fi => fi.branches.find b) (branchResult op)
          ((find_fileResult op (hne g f)).2.2 b),
        List.map_map]
      rfl

/-- The result of an operation keeps the group invariant of the operands. -/
theorem OperationResult.groupInvariant
    {op : TraceOperation} {operands : List Trace} {result : Trace}
    (h : OperationResult op operands result)
    (hinv : ∀ t ∈ operands, t.GroupInvariant) :
    result.GroupInvariant := by
  constructor
  · intro g gi hg
    have hsome : operands.any fun t => (t.fileGroups.find g).isSome := by
      rw [← h.group_isSome g, hg]
      rfl
    obtain ⟨t, ht, hsome⟩ := List.any_eq_true.mp hsome
    obtain ⟨gi0, hgi0⟩ := Option.isSome_iff_exists.mp hsome
    have hown : (t.fileOf g g.filename).isSome := by
      rw [Trace.fileOf, hgi0]
      exact (hinv t ht).own_file g gi0 hgi0
    have hres : (result.fileOf g g.filename).isSome := by
      rw [h.file_isSome g g.filename]
      exact List.any_eq_true.mpr ⟨t, ht, hown⟩
    simpa [Trace.fileOf, hg] using hres
  · intro g gi f hg hf hsrc
    have hres : (result.fileOf g f).isSome := by
      simpa [Trace.fileOf, hg] using hf
    rw [h.file_isSome g f] at hres
    obtain ⟨t, ht, hsome⟩ := List.any_eq_true.mp hres
    cases hgi : t.fileGroups.find g with
    | none => simp [Trace.fileOf, hgi] at hsome
    | some gi0 =>
      exact (hinv t ht).source_is_own g gi0 f hgi
        (by simpa [Trace.fileOf, hgi] using hsome) hsrc

end Coverage
end KedrAux
