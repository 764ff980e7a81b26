import KedrAux.Coverage.TraceParser

/-!
# Reading of traces

`Trace::TraceBuilder` (`trace.cpp`) receives the events of the parser and fills
the trace.  The identificator of a group is guessed from its first file and
replaced when a file with extension `.c` comes.

The pointer to the file under construction is modelled by the name of the file
in the current group.  `FuncInfo(lineStart)` leaves the counter of a new function
uninitialized; the value found there is the parameter `garbage`.
-/

namespace KedrAux
namespace Coverage

/-- What `Trace::read` reports when it throws. -/
inductive ReadError where
  /-- `Trace parsing failed` -/
  | parsing (e : ParseError)
  /-- `Incorrect trace file` -/
  | incorrect (traceLine : Nat) (msg : Str)
  /-- a null or dangling pointer is used; the grammar excludes it -/
  | pointer
deriving DecidableEq

/-- Pretty printer for group identificators. -/
def FileGroupID.text (g : FileGroupID) : Str :=
  ['\x7b'] ++ (if g.testName = [] then [] else g.testName ++ [',']) ++ g.filename ++ ['\x7d']

structure TraceBuilder where
  trace : Trace
  currentGroupInfo : Option FileGroupInfo
  currentGroupID : FileGroupID
  currentFile : Str

def TraceBuilder.new (trace : Trace) : TraceBuilder :=
  ⟨trace, none, ⟨[], []⟩, []⟩

namespace FileInfo

/-- FN: `<funcLine>`, `<funcName>`. -/
def onFunction (garbage : Int) (funcName : Str) (funcLine : Int) (traceLine : Nat)
    (fi : FileInfo) : Except ReadError FileInfo :=
  match fi.functions.insertNew funcName ⟨funcLine, garbage⟩ with
  | some functions => .ok { fi with functions := functions }
  | none => .error (.incorrect traceLine
      ("Attempt to add function '".toList ++ funcName ++
        "' for file which already has it.".toList))

/-- FNDA: `<counter>`, `<funcName>`. -/
def onFunctionCounter (funcName : Str) (counter : Int) (fi : FileInfo) : FileInfo :=
  let lineStart :=
    match fi.functions.find funcName with
    | some fn => fn.lineStart
    | none => -1
  { fi with functions := fi.functions.set funcName ⟨lineStart, counter⟩ }

/-- BRDA with a counter, or with `-` as `-1`; the message differs. -/
def onBranch (branchID : BranchID) (counter : Int) (msg : Str) (traceLine : Nat)
    (fi : FileInfo) : Except ReadError FileInfo :=
  match fi.branches.insertNew branchID counter with
  | some branches => .ok { fi with branches := branches }
  | none => .error (.incorrect traceLine msg)

def onLineCounter (line counter : Int) (traceLine : Nat) (fi : FileInfo) :
    Except ReadError FileInfo :=
  match fi.lines.insertNew line counter with
  | some lines => .ok { fi with lines := lines }
  | none => .error (.incorrect traceLine
      ("Attempt to add counter for line ".toList ++ (toString line).toList ++
        " to file which already has it.".toList))

end FileInfo

namespace TraceBuilder

/-- Access through `currentFile`. -/
def updateFile (b : TraceBuilder) (f : FileInfo → Except ReadError FileInfo) :
    Except ReadError TraceBuilder :=
  match b.currentGroupInfo with
  | none => .error .pointer
  | some gi =>
    match gi.files.find b.currentFile with
    | none => .error .pointer
    | some fi =>
      match f fi with
      | .error e => .error e
      | .ok fi' =>
        .ok { b with currentGroupInfo := some ⟨gi.files.set b.currentFile fi'⟩ }

/-- TN: `<testName>`. -/
def onTestStart (b : TraceBuilder) (testName : Str) : TraceBuilder :=
  { b with currentGroupInfo := some ⟨.empty⟩, currentGroupID := ⟨testName, []⟩ }

/-- A test without files is ignored. -/
def onTestEnd (b : TraceBuilder) (traceLine : Nat) : Except ReadError TraceBuilder :=
  match b.currentGroupInfo with
  | none => .error .pointer
  | some gi =>
    if b.currentGroupID.filename = [] then .ok { b with currentGroupInfo := none }
    else
      match b.trace.fileGroups.insertNew b.currentGroupID gi with
      | some fileGroups => .ok { b with trace := ⟨fileGroups⟩, currentGroupInfo := none }
      | none => .error (.incorrect traceLine
          ("Information for files group ".toList ++ b.currentGroupID.text ++
            " is written twice.".toList))

/-- SF: `<sourcePath>`. -/
def onSourceStart (b : TraceBuilder) (sourcePath : Str) (traceLine : Nat) :
    Except ReadError TraceBuilder :=
  match b.currentGroupInfo with
  | none => .error .pointer
  | some gi =>
    match gi.files.insertNew sourcePath .empty with
    | none => .error (.incorrect traceLine
        ("Attempt to add information about file '".toList ++ sourcePath ++
          "' to group".toList ++ b.currentGroupID.text ++ " which already has it.".toList))
    | some files =>
      let b' := { b with currentGroupInfo := some ⟨files⟩, currentFile := sourcePath }
      let named := { b' with currentGroupID := ⟨b.currentGroupID.testName, sourcePath⟩ }
      if b.currentGroupID.filename = [] then .ok named
      else if isSource sourcePath then
        if isSource b.currentGroupID.filename then
          .error (.incorrect traceLine
            ("Two source files in group ".toList ++ b.currentGroupID.text ++ ".".toList))
        else .ok named
      else .ok b'

def handle (garbage : Int) (b : TraceBuilder) : Event → Except ReadError TraceBuilder
  | .testStart testName _ => .ok (b.onTestStart testName)
  | .testEnd traceLine => b.onTestEnd traceLine
  | .sourceStart sourcePath traceLine => b.onSourceStart sourcePath traceLine
  | .function funcName funcLine traceLine =>
    b.updateFile (FileInfo.onFunction garbage funcName funcLine traceLine)
  | .functionCounter funcName counter _ =>
    b.updateFile fun fi => .ok (fi.onFunctionCounter funcName counter)
  | .branchCoverage branchLine blockNumber branchNumber counter traceLine =>
    b.updateFile (FileInfo.onBranch ⟨branchLine, blockNumber, branchNumber⟩ counter
      "Attempt to add counter for branch to file which already has it.".toList traceLine)
  | .branchNotCovered branchLine blockNumber branchNumber traceLine =>
    b.updateFile (FileInfo.onBranch ⟨branchLine, blockNumber, branchNumber⟩ (-1)
      "Attempt to add '-' taken for branch to file which already has it.".toList traceLine)
  | .lineCounter line counter traceLine =>
    b.updateFile (FileInfo.onLineCounter line counter traceLine)
  -- these events are not overridden
  | .sourceEnd _ | .functionsTotal _ _ | .functionsTotalHit _ _ | .branchesTotal _ _
  | .branchesTotalHit _ _ | .linesTotal _ _ | .linesTotalHit _ _ => .ok b

/-- The calls for a sequence of events; the first exception ends it. -/
def run (garbage : Int) (b : TraceBuilder) (events : List Event) :
    Except ReadError TraceBuilder :=
  events.foldlM (handle garbage) b

def eventProcessor (garbage : Int) (b : TraceBuilder) : EventProcessor :=
  fun events => (b.run garbage events).toBool

end TraceBuilder

/-- `Trace::read` with an existing parser; the parser after the call is returned too. -/
def Trace.readWith (garbage : Int) (t : Trace) (is : Str) (parser : TraceParser) :
    Except ReadError Trace × TraceParser :=
  let builder := TraceBuilder.new t
  let r := parser.parse is (builder.eventProcessor garbage)
  let result :=
    match builder.run garbage r.events, r.outcome with
    | .error e, _ => .error e
    | .ok _, .failed e => .error (.parsing e)
    | .ok b, _ => .ok b.trace
  (result, r.parser)

def Trace.read (garbage : Int) (t : Trace) (is : Str) : Except ReadError Trace :=
  (t.readWith garbage is .new).1

/-- The events of a run, if no call throws. -/
def ParseRun.events (run : ParseRun) : List Event :=
  run.reductions.map fun r => r.1.event

theorem TraceBuilder.run_append (garbage : Int) (b : TraceBuilder) (events events' : List Event) :
    b.run garbage (events ++ events') =
      (b.run garbage events).bind fun b' => b'.run garbage events' := by
  simp only [TraceBuilder.run, List.foldlM_append]
  rfl

theorem TraceBuilder.run_cons
    (garbage : Int) (b : TraceBuilder) (event : Event) (events : List Event) :
    b.run garbage (event :: events) =
      (b.handle garbage event).bind fun b' => b'.run garbage events := by
  simp only [TraceBuilder.run, List.foldlM_cons]
  rfl

/-- The trace when the builder has received all events of a run. -/
def finishRead (built : Except ReadError TraceBuilder) (result : Except ParseError Unit) :
    Except ReadError Trace :=
  match built, result with
  | .error e, _ => .error e
  | .ok _, .error e => .error (.parsing e)
  | .ok b, .ok _ => .ok b.trace

theorem deliver_builder (garbage : Int) (b : TraceBuilder) (result : Except ParseError Unit)
    (after : StartCondition) (made : List Event)
    (reductions : List (Reduction × StartCondition))
    (hmade : (b.run garbage made).toBool = true) :
    (match b.run garbage
        (deliver (b.eventProcessor garbage) result after made reductions).events,
      (deliver (b.eventProcessor garbage) result after made reductions).outcome with
      | .error e, _ => .error e
      | .ok _, .failed e => .error (.parsing e)
      | .ok b, _ => .ok b.trace) =
      finishRead (b.run garbage (made ++ reductions.map fun r => r.1.event)) result := by
  induction reductions generalizing made with
  | nil =>
    simp only [deliver, List.map_nil, List.append_nil]
    cases hrun : b.run garbage made with
    | error e =>
      rw [hrun] at hmade
      cases hmade
    | ok b' =>
      cases result <;> rfl
  | cons r reductions ih =>
    have happend : made ++ (r :: reductions).map (fun r => r.1.event) =
        (made ++ [r.1.event]) ++ reductions.map fun r => r.1.event := by simp
    rw [deliver, happend]
    by_cases hnext : b.eventProcessor garbage (made ++ [r.1.event]) = true
    · simp only [hnext, if_true]
      exact ih (made ++ [r.1.event]) hnext
    · cases hrun : b.run garbage (made ++ [r.1.event]) with
      | error e =>
        rw [TraceBuilder.run_append, hrun]
        simp [hnext, hrun, finishRead, Except.bind]
      | ok b' =>
        simp [TraceBuilder.eventProcessor, hrun, Except.toBool] at hnext

theorem Trace.readWith_eq (garbage : Int) (t : Trace) (is : Str) (parser : TraceParser) :
    (t.readWith garbage is parser).1 =
      finishRead ((TraceBuilder.new t).run garbage (parser.run is).events)
        (parser.run is).result :=
  deliver_builder garbage (TraceBuilder.new t) (parser.run is).result (parser.run is).after
    [] (parser.run is).reductions rfl

variable {t : Trace} {garbage : Int} {b b' : TraceBuilder} {path filename : Str}
variable {gi : FileGroupInfo} {r : Reduction}

theorem finishRead_eq_ok_iff {built : Except ReadError TraceBuilder}
    {result : Except ParseError Unit} :
    finishRead built result = .ok t ↔
      result = .ok () ∧ ∃ b, built = .ok b ∧ b.trace = t := by
  unfold finishRead
  split
  · simp
  · simp
  · simp

theorem TraceBuilder.run_induction {P : TraceBuilder → Prop} {events : List Event}
    (hstep : ∀ b event b', event ∈ events → P b → b.handle garbage event = .ok b' → P b') (hb : P b)
    (hrun : b.run garbage events = .ok b') :
    P b' := by
  induction events generalizing b with
  | nil =>
    cases hrun
    exact hb
  | cons event events ih =>
    rw [TraceBuilder.run_cons] at hrun
    cases hnext : b.handle garbage event with
    | error e =>
      rw [hnext] at hrun
      cases hrun
    | ok b1 =>
      rw [hnext] at hrun
      exact ih (fun b event b' hmem => hstep b event b' (by simp [hmem]))
        (hstep b event b1 (by simp) hb hnext) hrun

theorem TraceBuilder.updateFile_eq_ok {f : FileInfo → Except ReadError FileInfo}
    (h : b.updateFile f = .ok b') :
    ∃ gi fi fi', b.currentGroupInfo = some gi ∧ gi.files.find b.currentFile = some fi ∧
      f fi = .ok fi' ∧
      b' = { b with currentGroupInfo := some ⟨gi.files.set b.currentFile fi'⟩ } := by
  unfold TraceBuilder.updateFile at h
  split at h
  · cases h
  · rename_i gi hgi
    split at h
    · cases h
    · rename_i fi hfi
      split at h
      · cases h
      · rename_i fi' hfi'
        cases h
        exact ⟨gi, fi, fi', hgi, hfi, hfi', rfl⟩

variable {traceLine : Nat} {text : Str}

theorem TraceBuilder.onTestEnd_eq_ok (h : b.onTestEnd traceLine = .ok b') :
    ∃ gi, b.currentGroupInfo = some gi ∧
      ((b.currentGroupID.filename = [] ∧ b' = { b with currentGroupInfo := none }) ∨
       (b.currentGroupID.filename ≠ [] ∧ b.trace.fileGroups.find b.currentGroupID = none ∧
        b' = { b with
          trace := ⟨b.trace.fileGroups.set b.currentGroupID gi⟩
          currentGroupInfo := none })) := by
  unfold TraceBuilder.onTestEnd at h
  split at h
  · cases h
  · rename_i gi hgi
    refine ⟨gi, hgi, ?_⟩
    split_ifs at h with hempty
    · cases h
      exact Or.inl ⟨hempty, rfl⟩
    · split at h
      · rename_i fileGroups hinsert
        cases h
        obtain ⟨hnew, rfl⟩ := OrderedMap.insertNew_eq_some hinsert
        exact Or.inr ⟨hempty, hnew, rfl⟩
      · cases h

theorem TraceBuilder.onSourceStart_eq_ok {sourcePath : Str}
    (h : b.onSourceStart sourcePath traceLine = .ok b') :
    ∃ gi filename, b.currentGroupInfo = some gi ∧ gi.files.find sourcePath = none ∧
      b' = { b with
        currentGroupInfo := some ⟨gi.files.set sourcePath .empty⟩
        currentFile := sourcePath
        currentGroupID := ⟨b.currentGroupID.testName, filename⟩ } ∧
      ((filename = sourcePath ∧ b.currentGroupID.filename = []) ∨
       (filename = sourcePath ∧ b.currentGroupID.filename ≠ [] ∧
        isSource sourcePath = true ∧ isSource b.currentGroupID.filename = false) ∨
       (filename = b.currentGroupID.filename ∧ filename ≠ [] ∧
        isSource sourcePath = false)) := by
  unfold TraceBuilder.onSourceStart at h
  split at h
  · cases h
  · rename_i gi hgi
    split at h
    · cases h
    · rename_i files hinsert
      obtain ⟨hnew, rfl⟩ := OrderedMap.insertNew_eq_some hinsert
      simp only at h
      split_ifs at h with hempty hsource hboth
      · cases h
        exact ⟨gi, sourcePath, hgi, hnew, rfl, Or.inl ⟨rfl, hempty⟩⟩
      · cases h
        exact ⟨gi, sourcePath, hgi, hnew, rfl,
          Or.inr (Or.inl ⟨rfl, hempty, hsource, by simpa using hboth⟩)⟩
      · cases h
        exact ⟨gi, b.currentGroupID.filename, hgi, hnew, rfl,
          Or.inr (Or.inr ⟨rfl, hempty, by simpa using hsource⟩)⟩

/-- What an event does with the file under construction. -/
inductive FileStep (garbage : Int) : Event → FileInfo → FileInfo → Prop
  | function
      (name : Str) (line : Int) (traceLine : Nat) {fi : FileInfo}
      (hnew : fi.functions.find name = none) :
      FileStep garbage (.function name line traceLine) fi
        { fi with functions := fi.functions.set name ⟨line, garbage⟩ }
  | functionCounter
      (name : Str) (counter : Int) (traceLine : Nat) (fi : FileInfo) :
      FileStep garbage (.functionCounter name counter traceLine) fi
        (fi.onFunctionCounter name counter)
  | branchCoverage
      (line block branch counter : Int) (traceLine : Nat) {fi : FileInfo}
      (hnew : fi.branches.find ⟨line, block, branch⟩ = none) :
      FileStep garbage (.branchCoverage line block branch counter traceLine) fi
        { fi with branches := fi.branches.set ⟨line, block, branch⟩ counter }
  | branchNotCovered
      (line block branch : Int) (traceLine : Nat) {fi : FileInfo}
      (hnew : fi.branches.find ⟨line, block, branch⟩ = none) :
      FileStep garbage (.branchNotCovered line block branch traceLine) fi
        { fi with branches := fi.branches.set ⟨line, block, branch⟩ (-1) }
  | lineCounter
      (line counter : Int) (traceLine : Nat) {fi : FileInfo}
      (hnew : fi.lines.find line = none) :
      FileStep garbage (.lineCounter line counter traceLine) fi
        { fi with lines := fi.lines.set line counter }

/-- All that a successful call of the builder can do. -/
inductive BuilderStep (garbage : Int) (b : TraceBuilder) : Event → TraceBuilder → Prop
  | testStart (testName : Str) (traceLine : Nat) :
      BuilderStep garbage b (.testStart testName traceLine) (b.onTestStart testName)
  | testEnd {traceLine : Nat} {b' : TraceBuilder} (h : b.onTestEnd traceLine = .ok b') :
      BuilderStep garbage b (.testEnd traceLine) b'
  | sourceStart {sourcePath : Str} {traceLine : Nat} {b' : TraceBuilder}
      (h : b.onSourceStart sourcePath traceLine = .ok b') :
      BuilderStep garbage b (.sourceStart sourcePath traceLine) b'
  | file {event : Event} {gi : FileGroupInfo} {fi fi' : FileInfo}
      (hgi : b.currentGroupInfo = some gi)
      (hfi : gi.files.find b.currentFile = some fi)
      (hstep : FileStep garbage event fi fi') :
      BuilderStep garbage b event
        { b with currentGroupInfo := some ⟨gi.files.set b.currentFile fi'⟩ }
  | ignored (event : Event)
      (h : ∀ b' : TraceBuilder, b'.handle garbage event = .ok b') :
      BuilderStep garbage b event b

theorem builderStep_of_handle {event : Event} (h : b.handle garbage event = .ok b') :
    BuilderStep garbage b event b' := by
  cases event with
  | testStart testName traceLine =>
    cases h
    exact .testStart testName traceLine
  | testEnd traceLine => exact .testEnd h
  | sourceStart sourcePath traceLine => exact .sourceStart h
  | function name line traceLine =>
    obtain ⟨gi, fi, fi', hgi, hfi, hok, rfl⟩ := TraceBuilder.updateFile_eq_ok h
    refine .file hgi hfi ?_
    unfold FileInfo.onFunction at hok
    split at hok
    · rename_i functions hinsert
      obtain ⟨hnew, rfl⟩ := OrderedMap.insertNew_eq_some hinsert
      cases hok
      exact .function name line traceLine hnew
    · cases hok
  | functionCounter name counter traceLine =>
    rw [TraceBuilder.handle] at h
    obtain ⟨gi, fi, fi', hgi, hfi, hok, rfl⟩ := TraceBuilder.updateFile_eq_ok h
    cases hok
    exact .file hgi hfi (.functionCounter name counter traceLine fi)
  | branchCoverage line block branch counter traceLine =>
    obtain ⟨gi, fi, fi', hgi, hfi, hok, rfl⟩ := TraceBuilder.updateFile_eq_ok h
    refine .file hgi hfi ?_
    unfold FileInfo.onBranch at hok
    split at hok
    · rename_i branches hinsert
      obtain ⟨hnew, rfl⟩ := OrderedMap.insertNew_eq_some hinsert
      cases hok
      exact .branchCoverage line block branch counter traceLine hnew
    · cases hok
  | branchNotCovered line block branch traceLine =>
    obtain ⟨gi, fi, fi', hgi, hfi, hok, rfl⟩ := TraceBuilder.updateFile_eq_ok h
    refine .file hgi hfi ?_
    unfold FileInfo.onBranch at hok
    split at hok
    · rename_i branches hinsert
      obtain ⟨hnew, rfl⟩ := OrderedMap.insertNew_eq_some hinsert
      cases hok
      exact .branchNotCovered line block branch traceLine hnew
    · cases hok
  | lineCounter line counter traceLine =>
    obtain ⟨gi, fi, fi', hgi, hfi, hok, rfl⟩ := TraceBuilder.updateFile_eq_ok h
    refine .file hgi hfi ?_
    unfold FileInfo.onLineCounter at hok
    split at hok
    · rename_i lines hinsert
      obtain ⟨hnew, rfl⟩ := OrderedMap.insertNew_eq_some hinsert
      cases hok
      exact .lineCounter line counter traceLine hnew
    · cases hok
  | _ =>
    cases h
    exact .ignored _ fun _ => rfl

structure CurrentGroupInvariant (filename : Str) (gi : FileGroupInfo) : Prop where
  unnamed : filename = [] → ∀ f, gi.files.find f = none
  own_file : filename ≠ [] → (gi.files.find filename).isSome
  source_is_own : ∀ f, (gi.files.find f).isSome → EndsInDotC f → f = filename

structure BuilderInvariant (b : TraceBuilder) : Prop where
  trace : b.trace.GroupInvariant
  named : b.currentGroupID.filename = [] ∨ IsPath b.currentGroupID.filename
  current : ∀ gi, b.currentGroupInfo = some gi →
    CurrentGroupInvariant b.currentGroupID.filename gi

theorem IsPath.isSource_iff (h : IsPath path) : isSource path = true ↔ EndsInDotC path := by
  rw [Coverage.isSource_iff]
  refine and_iff_left ?_
  rintro rfl
  exact absurd h (by decide)

theorem CurrentGroupInvariant.set_of_isSome {f : Str} {fi fi' : FileInfo}
    (h : CurrentGroupInvariant filename gi) (hf : gi.files.find f = some fi) :
    CurrentGroupInvariant filename ⟨gi.files.set f fi'⟩ := by
  have hsome : ∀ f', ((gi.files.set f fi').find f').isSome = (gi.files.find f').isSome := by
    intro f'
    rw [OrderedMap.find_set]
    split_ifs with heq
    · rw [heq, hf]
      rfl
    · rfl
  constructor
  · intro hempty
    rw [h.unnamed hempty f] at hf
    cases hf
  · intro hne
    rw [hsome]
    exact h.own_file hne
  · intro f' hf' hend
    rw [hsome] at hf'
    exact h.source_is_own f' hf' hend

/-- A file that comes first, or replaces a name that is not one of a source file. -/
theorem CurrentGroupInvariant.rename (h : CurrentGroupInvariant filename gi) (hpath : path ≠ [])
    (hname : filename = [] ∨ ¬EndsInDotC filename) (fi : FileInfo) :
    CurrentGroupInvariant path ⟨gi.files.set path fi⟩ := by
  constructor
  · exact fun hempty => absurd hempty hpath
  · intro _
    simp
  · intro f hf hend
    by_contra hne
    rw [OrderedMap.find_set_of_ne _ _ hne] at hf
    -- `f` was in the group before, so it was the file of the old name
    have hold := h.source_is_own f hf hend
    rcases hname with hname | hname
    · rw [h.unnamed hname f] at hf
      cases hf
    · exact hname (hold ▸ hend)

theorem CurrentGroupInvariant.set_header (h : CurrentGroupInvariant filename gi)
    (hname : filename ≠ []) (hpath : ¬EndsInDotC path) (fi : FileInfo) :
    CurrentGroupInvariant filename ⟨gi.files.set path fi⟩ := by
  constructor
  · exact fun hempty => absurd hempty hname
  · intro _
    rw [OrderedMap.find_set]
    split_ifs
    · rfl
    · exact h.own_file hname
  · intro f hf hend
    have hne : f ≠ path := fun heq => hpath (heq ▸ hend)
    rw [OrderedMap.find_set_of_ne _ _ hne] at hf
    exact h.source_is_own f hf hend

theorem CurrentGroupInvariant.store {id : FileGroupID} (ht : t.GroupInvariant)
    (h : CurrentGroupInvariant id.filename gi) (hname : id.filename ≠ []) :
    Trace.GroupInvariant ⟨t.fileGroups.set id gi⟩ := by
  constructor
  · intro g gi' hg
    rw [OrderedMap.find_set] at hg
    split_ifs at hg with heq
    · cases hg
      rw [heq]
      exact h.own_file hname
    · exact ht.own_file g gi' hg
  · intro g gi' f hg hf hend
    rw [OrderedMap.find_set] at hg
    split_ifs at hg with heq
    · cases hg
      rw [heq]
      exact h.source_is_own f hf hend
    · exact ht.source_is_own g gi' f hg hf hend

def Event.PathWellFormed : Event → Prop
  | .sourceStart path _ => IsPath path
  | _ => True

theorem IsPath.ne_nil (h : IsPath path) : path ≠ [] := by
  rintro rfl
  exact absurd h (by decide)

/-- An accepted event keeps the invariant of the builder. -/
theorem BuilderStep.builderInvariant {event : Event} (hstep : BuilderStep garbage b event b')
    (hevent : event.PathWellFormed) (hb : BuilderInvariant b) :
    BuilderInvariant b' := by
  cases hstep with
  | testStart testName traceLine =>
    refine ⟨hb.trace, Or.inl rfl, ?_⟩
    rintro gi ⟨⟩
    exact ⟨fun _ f => by simp, fun hne => absurd rfl hne, fun f hf => by simp at hf⟩
  | testEnd h =>
    obtain ⟨gi, hgi, ⟨hempty, rfl⟩ | ⟨hname, -, rfl⟩⟩ := TraceBuilder.onTestEnd_eq_ok h
    · exact ⟨hb.trace, hb.named, fun gi' h => by cases h⟩
    · exact ⟨(hb.current gi hgi).store hb.trace hname, hb.named, fun gi' h => by cases h⟩
  | sourceStart h =>
    obtain ⟨gi, filename, hgi, hnew, rfl, hcases⟩ := TraceBuilder.onSourceStart_eq_ok h
    have hcur := hb.current gi hgi
    have hpath : IsPath _ := hevent
    rcases hcases with ⟨rfl, hempty⟩ | ⟨rfl, hne, hsource, hold⟩ | ⟨rfl, hne, hheader⟩
    · refine ⟨hb.trace, Or.inr hpath, ?_⟩
      rintro gi' ⟨⟩
      exact hcur.rename hpath.ne_nil (Or.inl hempty) _
    · refine ⟨hb.trace, Or.inr hpath, ?_⟩
      rintro gi' ⟨⟩
      refine hcur.rename hpath.ne_nil (Or.inr ?_) _
      rw [← (hb.named.resolve_left hne).isSource_iff, hold]
      exact Bool.false_ne_true
    · refine ⟨hb.trace, hb.named, ?_⟩
      rintro gi' ⟨⟩
      refine hcur.set_header hne ?_ _
      rw [← hpath.isSource_iff, hheader]
      exact Bool.false_ne_true
  | file hgi hfi hstep =>
    refine ⟨hb.trace, hb.named, ?_⟩
    rintro gi' ⟨⟩
    exact (hb.current _ hgi).set_of_isSome hfi
  | ignored event h => exact hb

theorem Reduction.WellFormed.event (h : r.WellFormed) : r.event.PathWellFormed := by
  cases r with
  | test endLine => trivial
  | directive d line =>
    cases d with
    | sf path => exact h
    | _ => trivial

theorem ParseRun.events_pathWellFormed (parser : TraceParser) (is : Str) :
    ∀ event ∈ (parser.run is).events, event.PathWellFormed := by
  intro event hevent
  obtain ⟨r, hr, rfl⟩ := List.mem_map.mp hevent
  exact (run_wellFormed parser is r hr).event

/-- Files stay in groups of their own while a trace is built. -/
theorem TraceBuilder.run_groupInvariant {events : List Event} (ht : t.GroupInvariant)
    (hevents : ∀ event ∈ events, event.PathWellFormed)
    (hrun : (TraceBuilder.new t).run garbage events = .ok b) :
    b.trace.GroupInvariant := by
  have hnew : BuilderInvariant (TraceBuilder.new t) :=
    ⟨ht, Or.inl rfl, fun gi h => by cases h⟩
  have hb : BuilderInvariant b := by
    refine TraceBuilder.run_induction ?_ hnew hrun
    intro b event b' hmem hb hstep
    exact (builderStep_of_handle hstep).builderInvariant (hevents event hmem) hb
  exact hb.trace

theorem Trace.readWith_groupInvariant {t' : Trace} {is : Str} {parser : TraceParser}
    (ht : t.GroupInvariant) (hread : (t.readWith garbage is parser).1 = .ok t') :
    t'.GroupInvariant := by
  rw [Trace.readWith_eq, finishRead_eq_ok_iff] at hread
  obtain ⟨-, b, hrun, rfl⟩ := hread
  exact TraceBuilder.run_groupInvariant ht (ParseRun.events_pathWellFormed parser is) hrun

def numberValue (text : Str) : Nat :=
  Nat.ofDigitChars 10 text 0

def FitsInt (text : Str) : Prop :=
  numberValue text < 2 ^ 31

def FitsLong (text : Str) : Prop :=
  numberValue text < 2 ^ 63

theorem strToLong_eq (text : Str) : strToLong text = numberValue text % 2 ^ 64 := by
  have hfold : ∀ (text : Str) (r r' : Nat), r = r' % 2 ^ 64 →
      text.foldl (fun result c => (result * 10 + (c.toNat - '0'.toNat)) % 2 ^ 64) r =
        Nat.ofDigitChars 10 text r' % 2 ^ 64 := by
    intro text
    induction text with
    | nil =>
      intro r r' h
      exact h
    | cons c text ih =>
      intro r r' h
      rw [List.foldl_cons, Nat.ofDigitChars_cons]
      apply ih
      omega
  exact hfold text 0 0 rfl

theorem bmod_of_lt {n w : Nat} (h : n < 2 ^ w) : Int.bmod (n : Int) (2 ^ (w + 1)) = n := by
  rw [pow_succ]
  generalize 2 ^ w = m at h
  apply Int.bmod_eq_of_le
  · push_cast
    omega
  · push_cast
    omega

theorem toInt_eq (h : FitsInt text) : toInt text = numberValue text := by
  have hlt : numberValue text < 2 ^ 31 := h
  have hmod : strToLong text = numberValue text := by
    rw [strToLong_eq, Nat.mod_eq_of_lt]
    omega
  unfold toInt
  rw [hmod, bmod_of_lt hlt]

theorem toLong_eq (h : FitsLong text) : toLong text = numberValue text := by
  have hlt : numberValue text < 2 ^ 63 := h
  have hmod : strToLong text = numberValue text := by
    rw [strToLong_eq, Nat.mod_eq_of_lt]
    omega
  unfold toLong
  rw [hmod, bmod_of_lt hlt]

/-- Line, block and branch numbers fit in `int`, counters fit in `long`. -/
def Directive.NumbersFit : Directive → Prop
  | .fn line _ => FitsInt line
  | .fnda counter _ => FitsLong counter
  | .da line counter => FitsInt line ∧ FitsLong counter
  | .daNegative line _ => FitsInt line
  | .brda line block branch counter =>
    FitsInt line ∧ FitsInt block ∧ FitsInt branch ∧ FitsLong counter
  | .brdaNotCovered line block branch => FitsInt line ∧ FitsInt block ∧ FitsInt branch
  | _ => True

def Reduction.NumbersFit : Reduction → Prop
  | .directive d _ => d.NumbersFit
  | .test _ => True

instance (text : Str) : Decidable (FitsInt text) :=
  inferInstanceAs (Decidable (_ < _))

instance (text : Str) : Decidable (FitsLong text) :=
  inferInstanceAs (Decidable (_ < _))

instance : (d : Directive) → Decidable d.NumbersFit
  | .fn line _ => inferInstanceAs (Decidable (FitsInt line))
  | .fnda counter _ => inferInstanceAs (Decidable (FitsLong counter))
  | .da line counter => inferInstanceAs (Decidable (FitsInt line ∧ FitsLong counter))
  | .daNegative line _ => inferInstanceAs (Decidable (FitsInt line))
  | .brda line block branch counter =>
    inferInstanceAs (Decidable
      (FitsInt line ∧ FitsInt block ∧ FitsInt branch ∧ FitsLong counter))
  | .brdaNotCovered line block branch =>
    inferInstanceAs (Decidable (FitsInt line ∧ FitsInt block ∧ FitsInt branch))
  | .tn _ | .sf _ | .eor | .fnf _ | .fnh _ | .lf _ | .lh _ | .brf _ | .brh _ =>
    inferInstanceAs (Decidable True)

instance : (r : Reduction) → Decidable r.NumbersFit
  | .directive d _ => inferInstanceAs (Decidable d.NumbersFit)
  | .test _ => inferInstanceAs (Decidable True)

/-- A directive inside of a file section. -/
def Reduction.inSection : Reduction → Bool
  | .directive (.tn _) _ | .directive (.sf _) _ | .directive .eor _ | .test _ => false
  | _ => true

/-- Whether an FNDA record for the function follows in the same section. -/
def fndaFollows (name : Str) (rs : List Reduction) : Bool :=
  (rs.takeWhile Reduction.inSection).any fun r =>
    match r with
    | .directive (.fnda _ n) _ => n = name
    | _ => false

/-- Every FN record has an FNDA record in its section. -/
def fnHasFnda : List Reduction → Bool
  | [] => true
  | .directive (.fn _ name) _ :: rs => fndaFollows name rs && fnHasFnda rs
  | _ :: rs => fnHasFnda rs

/-- Texts whose numbers fit and in which every FN record has an FNDA record. -/
structure Readable (is : Str) : Prop where
  numbersFit : ∀ r ∈ (TraceParser.new.run is).reductions, r.1.NumbersFit
  fnHasFnda : fnHasFnda ((TraceParser.new.run is).reductions.map Prod.fst) = true

/--
The numbers of a file are those that a text can give, except for counters of the
functions that are still `pending`.
-/
structure FileInfo.Fits (pending : Str → Prop) (fi : FileInfo) : Prop where
  functionNames : ∀ n fn, fi.functions.find n = some fn → IsId n
  functionLines : ∀ n fn, fi.functions.find n = some fn →
    -1 ≤ fn.lineStart ∧ fn.lineStart < 2 ^ 31
  functions : ∀ n fn, fi.functions.find n = some fn → ¬pending n →
    0 ≤ fn.counter ∧ fn.counter < 2 ^ 63
  lines : ∀ l c, fi.lines.find l = some c →
    0 ≤ l ∧ l < 2 ^ 31 ∧ 0 ≤ c ∧ c < 2 ^ 63
  branches : ∀ b c, fi.branches.find b = some c →
    (0 ≤ b.line ∧ b.line < 2 ^ 31) ∧ (0 ≤ b.blockNumber ∧ b.blockNumber < 2 ^ 31) ∧
    (0 ≤ b.branchNumber ∧ b.branchNumber < 2 ^ 31) ∧ -1 ≤ c ∧ c < 2 ^ 63

def FileInfo.Complete (fi : FileInfo) : Prop :=
  fi.Fits fun _ => False

theorem FileInfo.Fits.mono {pending pending' : Str → Prop} {fi : FileInfo}
    (h : fi.Fits pending) (hle : ∀ n, pending n → pending' n) :
    fi.Fits pending' where
  functionNames := h.functionNames
  functionLines := h.functionLines
  functions n fn hfn hn := h.functions n fn hfn fun hp => hn (hle n hp)
  lines := h.lines
  branches := h.branches

theorem FileInfo.empty_complete : FileInfo.empty.Complete := by
  constructor <;> simp [FileInfo.empty]

/-- What `Trace::read` makes of a readable text. -/
structure Trace.Writable (t : Trace) : Prop where
  groups : t.GroupInvariant
  testName : ∀ g gi, t.fileGroups.find g = some gi → g.testName = [] ∨ IsId g.testName
  path : ∀ g gi f fi, t.fileGroups.find g = some gi → gi.files.find f = some fi → IsPath f
  file : ∀ g gi f fi, t.fileGroups.find g = some gi → gi.files.find f = some fi →
    fi.Complete

/-- The same for a builder that has still to receive the events for `rs`. -/
structure ReadInvariant (rs : List Reduction) (b : TraceBuilder) : Prop where
  trace : b.trace.Writable
  builder : BuilderInvariant b
  testName : b.currentGroupID.testName = [] ∨ IsId b.currentGroupID.testName
  path : ∀ gi f fi, b.currentGroupInfo = some gi → gi.files.find f = some fi → IsPath f
  file : ∀ gi f fi, b.currentGroupInfo = some gi → gi.files.find f = some fi →
    fi.Fits fun n => f = b.currentFile ∧ fndaFollows n rs = true

theorem fndaFollows_boundary (h : r.inSection = false) (n : Str) (rs : List Reduction) :
    fndaFollows n (r :: rs) = false := by
  simp [fndaFollows, h]

theorem fndaFollows_cons {n : Str} {rs : List Reduction} (h : fndaFollows n (r :: rs) = true) :
    (∃ c line, r = .directive (.fnda c n) line) ∨ fndaFollows n rs = true := by
  unfold fndaFollows at h ⊢
  rw [List.takeWhile_cons] at h
  split_ifs at h
  · rw [List.any_cons, Bool.or_eq_true] at h
    rcases h with h | h
    · left
      split at h
      · rename_i c n' line _
        exact ⟨c, line, by rw [of_decide_eq_true h]⟩
      · cases h
    · exact Or.inr h
  · simp at h

variable {rs : List Reduction} {line : Nat}

section FileSteps

variable {fi fi' : FileInfo}

variable {pending : Str → Prop}

theorem FileInfo.Fits.set_function {pending' : Str → Prop} {name : Str} {fn : FuncInfo}
    (h : fi.Fits pending) (hname : IsId name) (hline : -1 ≤ fn.lineStart ∧ fn.lineStart < 2 ^ 31)
    (hcounter : ¬pending' name → 0 ≤ fn.counter ∧ fn.counter < 2 ^ 63)
    (hle : ∀ n, n ≠ name → pending n → pending' n) :
    { fi with functions := fi.functions.set name fn }.Fits pending' := by
  refine ⟨?_, ?_, ?_, h.lines, h.branches⟩
  · intro n fn' hfn'
    rw [OrderedMap.find_set] at hfn'
    split_ifs at hfn' with heq
    · rwa [heq]
    · exact h.functionNames n fn' hfn'
  · intro n fn' hfn'
    rw [OrderedMap.find_set] at hfn'
    split_ifs at hfn' with heq
    · cases hfn'
      exact hline
    · exact h.functionLines n fn' hfn'
  · intro n fn' hfn' hn
    rw [OrderedMap.find_set] at hfn'
    split_ifs at hfn' with heq
    · cases hfn'
      exact hcounter (heq ▸ hn)
    · exact h.functions n fn' hfn' fun hp => hn (hle n heq hp)

variable {c : Int}

theorem FileInfo.Fits.set_line {l : Int} (h : fi.Fits pending) (hl : 0 ≤ l ∧ l < 2 ^ 31)
    (hc : 0 ≤ c ∧ c < 2 ^ 63) :
    { fi with lines := fi.lines.set l c }.Fits pending := by
  refine ⟨h.functionNames, h.functionLines, h.functions, ?_, h.branches⟩
  intro l' c' hc'
  rw [OrderedMap.find_set] at hc'
  split_ifs at hc' with heq
  · cases hc'
    rw [heq]
    exact ⟨hl.1, hl.2, hc.1, hc.2⟩
  · exact h.lines l' c' hc'

theorem FileInfo.Fits.set_branch {b : BranchID} (h : fi.Fits pending)
    (hb : (0 ≤ b.line ∧ b.line < 2 ^ 31) ∧ (0 ≤ b.blockNumber ∧ b.blockNumber < 2 ^ 31) ∧
      (0 ≤ b.branchNumber ∧ b.branchNumber < 2 ^ 31)) (hc : -1 ≤ c ∧ c < 2 ^ 63) :
    { fi with branches := fi.branches.set b c }.Fits pending := by
  refine ⟨h.functionNames, h.functionLines, h.functions, h.lines, ?_⟩
  intro b' c' hc'
  rw [OrderedMap.find_set] at hc'
  split_ifs at hc' with heq
  · cases hc'
    rw [heq]
    exact ⟨hb.1, hb.2.1, hb.2.2, hc.1, hc.2⟩
  · exact h.branches b' c' hc'

theorem toInt_range (h : FitsInt text) : 0 ≤ toInt text ∧ toInt text < 2 ^ 31 := by
  rw [toInt_eq h]
  have hlt : numberValue text < 2 ^ 31 := h
  constructor
  · omega
  · exact_mod_cast hlt

theorem toLong_range (h : FitsLong text) : 0 ≤ toLong text ∧ toLong text < 2 ^ 63 := by
  rw [toLong_eq h]
  have hlt : numberValue text < 2 ^ 63 := h
  constructor
  · omega
  · exact_mod_cast hlt

theorem FileStep.fits {d : Directive} (hstep : FileStep garbage (d.event line) fi fi')
    (hd : d.WellFormed) (hnum : d.NumbersFit)
    (hfollows : ∀ l name, d = .fn l name → fndaFollows name rs = true)
    (h : fi.Fits fun n => fndaFollows n (.directive d line :: rs) = true) :
    fi'.Fits fun n => fndaFollows n rs = true := by
  have hle : ∀ n, (∀ c, d ≠ .fnda c n) →
      fndaFollows n (.directive d line :: rs) = true → fndaFollows n rs = true := by
    intro n hne hfol
    rcases fndaFollows_cons hfol with ⟨c, line', heq⟩ | hfol
    · cases heq
      exact absurd rfl (hne c)
    · exact hfol
  cases d with
  | fn l name =>
    cases hstep with
    | function _ _ _ hnew =>
      have hrange : 0 ≤ toInt l ∧ toInt l < 2 ^ 31 := toInt_range hnum
      have hlower : -1 ≤ toInt l := by omega
      refine h.set_function hd.2 ⟨hlower, hrange.2⟩ ?_ fun n _ => hle n (by simp)
      exact fun hn => absurd (hfollows l name rfl) hn
  | fnda counter name =>
    cases hstep with
    | functionCounter _ _ _ _ =>
      refine h.set_function hd.2 ?_ ?_ ?_
      · cases hfind : fi.functions.find name with
        | none => norm_num
        | some fn => exact h.functionLines name fn hfind
      · exact fun _ => toLong_range hnum
      · intro n hne
        exact hle n (by simp [Ne.symm hne])
  | da l c =>
    cases hstep with
    | lineCounter _ _ _ hnew =>
      exact (h.mono fun n => hle n (by simp)).set_line (toInt_range hnum.1)
        (toLong_range hnum.2)
  | daNegative l c =>
    cases hstep with
    | lineCounter _ _ _ hnew =>
      exact (h.mono fun n => hle n (by simp)).set_line (toInt_range hnum) (by norm_num)
  | brda l block branch c =>
    cases hstep with
    | branchCoverage _ _ _ _ _ hnew =>
      have hc := toLong_range hnum.2.2.2
      exact (h.mono fun n => hle n (by simp)).set_branch
        ⟨toInt_range hnum.1, toInt_range hnum.2.1, toInt_range hnum.2.2.1⟩
        ⟨by omega, hc.2⟩
  | brdaNotCovered l block branch =>
    cases hstep with
    | branchNotCovered _ _ _ _ hnew =>
      exact (h.mono fun n => hle n (by simp)).set_branch
        ⟨toInt_range hnum.1, toInt_range hnum.2.1, toInt_range hnum.2.2⟩ (by norm_num)
  | _ => cases hstep

end FileSteps

section Steps

theorem ReadInvariant.complete (h : ReadInvariant (r :: rs) b) (hr : r.inSection = false)
    {gi : FileGroupInfo} (hgi : b.currentGroupInfo = some gi)
    {f : Str} {fi : FileInfo} (hf : gi.files.find f = some fi) :
    fi.Complete := by
  apply (h.file gi f fi hgi hf).mono
  rintro n ⟨-, hn⟩
  rw [fndaFollows_boundary hr] at hn
  cases hn

theorem ReadInvariant.boundary (h : ReadInvariant (r :: rs) b) (hr : r.inSection = false) :
    ReadInvariant rs b :=
  ⟨h.trace, h.builder, h.testName, h.path,
    fun _ _ _ hgi hf => (h.complete hr hgi hf).mono fun _ => False.elim⟩

variable {d : Directive}

theorem ReadInvariant.testEnd (h : ReadInvariant (r :: rs) b) (hr : r.inSection = false)
    (hok : b.onTestEnd traceLine = .ok b') (hb' : BuilderInvariant b') :
    ReadInvariant rs b' := by
  obtain ⟨gi, hgi, ⟨-, rfl⟩ | ⟨hname, -, rfl⟩⟩ := TraceBuilder.onTestEnd_eq_ok hok
  · refine ⟨h.trace, hb', h.testName, ?_, ?_⟩
    · rintro gi' f fi ⟨⟩
    · rintro gi' f fi ⟨⟩
  · refine ⟨⟨hb'.trace, ?_, ?_, ?_⟩, hb', h.testName, ?_, ?_⟩
    · intro g gi' hg
      rw [OrderedMap.find_set] at hg
      split_ifs at hg with heq
      · rw [heq]
        exact h.testName
      · exact h.trace.testName g gi' hg
    · intro g gi' f fi hg hf
      rw [OrderedMap.find_set] at hg
      split_ifs at hg with heq
      · cases hg
        exact h.path gi f fi hgi hf
      · exact h.trace.path g gi' f fi hg hf
    · intro g gi' f fi hg hf
      rw [OrderedMap.find_set] at hg
      split_ifs at hg with heq
      · cases hg
        exact h.complete hr hgi hf
      · exact h.trace.file g gi' f fi hg hf
    · rintro gi' f fi ⟨⟩
    · rintro gi' f fi ⟨⟩

theorem ReadInvariant.sourceStart {path : Str} (h : ReadInvariant (r :: rs) b)
    (hr : r.inSection = false) (hpath : IsPath path) (hok : b.onSourceStart path traceLine = .ok b')
    (hb' : BuilderInvariant b') :
    ReadInvariant rs b' := by
  obtain ⟨gi, filename, hgi, hnew, rfl, -⟩ := TraceBuilder.onSourceStart_eq_ok hok
  refine ⟨h.trace, hb', h.testName, ?_, ?_⟩
  · rintro gi' f fi ⟨⟩ hf
    rw [OrderedMap.find_set] at hf
    split_ifs at hf with heq
    · rwa [heq]
    · exact h.path gi f fi hgi hf
  · rintro gi' f fi ⟨⟩ hf
    rw [OrderedMap.find_set] at hf
    split_ifs at hf with heq
    · cases hf
      exact FileInfo.empty_complete.mono fun _ => False.elim
    · exact (h.complete hr hgi hf).mono fun _ => False.elim

theorem BuilderStep.of_inSection (hstep : BuilderStep garbage b (d.event line) b')
    (hsection : (Reduction.directive d line).inSection = true) :
    (∃ gi fi fi', b.currentGroupInfo = some gi ∧ gi.files.find b.currentFile = some fi ∧
      FileStep garbage (d.event line) fi fi' ∧
      b' = { b with currentGroupInfo := some ⟨gi.files.set b.currentFile fi'⟩ }) ∨
    (b' = b ∧ ∀ c n, d ≠ .fnda c n) := by
  generalize hevent : d.event line = event at hstep ⊢
  cases hstep with
  | testStart testName traceLine =>
    cases d <;> cases hevent
    cases hsection
  | testEnd h => cases d <;> cases hevent
  | sourceStart h =>
    cases d <;> cases hevent
    cases hsection
  | file hgi hfi hfile => exact Or.inl ⟨_, _, _, hgi, hfi, hfile, rfl⟩
  | ignored event h =>
    refine Or.inr ⟨rfl, ?_⟩
    rintro c n rfl
    have := h ⟨.empty, none, ⟨[], []⟩, []⟩
    rw [← hevent] at this
    cases this

theorem ReadInvariant.inSection (h : ReadInvariant (.directive d line :: rs) b)
    (hstep : BuilderStep garbage b (d.event line) b')
    (hsection : (Reduction.directive d line).inSection = true) (hd : d.WellFormed)
    (hnum : d.NumbersFit) (hfollows : ∀ l name, d = .fn l name → fndaFollows name rs = true)
    (hb' : BuilderInvariant b') :
    ReadInvariant rs b' := by
  rcases hstep.of_inSection hsection with ⟨gi, fi, fi', hgi, hfi, hfile, rfl⟩ | ⟨rfl, hne⟩
  · refine ⟨h.trace, hb', h.testName, ?_, ?_⟩
    · rintro gi' f fi1 ⟨⟩ hf
      rw [OrderedMap.find_set] at hf
      split_ifs at hf with heq
      · rw [heq]
        exact h.path gi _ fi hgi hfi
      · exact h.path gi f fi1 hgi hf
    · rintro gi' f fi1 ⟨⟩ hf
      rw [OrderedMap.find_set] at hf
      split_ifs at hf with heq
      · cases hf
        have hfits := (h.file gi _ fi hgi hfi).mono fun n hn => hn.2
        exact (hfile.fits hd hnum hfollows hfits).mono fun n hn => ⟨heq, hn⟩
      · exact (h.file gi f fi1 hgi hf).mono fun n hn => absurd hn.1 heq
  · refine ⟨h.trace, hb', h.testName, h.path, ?_⟩
    intro gi f fi hgi hf
    apply (h.file gi f fi hgi hf).mono
    rintro n ⟨hcur, hn⟩
    rcases fndaFollows_cons hn with ⟨c, line', heq⟩ | hn
    · cases heq
      exact absurd rfl (hne c n)
    · exact ⟨hcur, hn⟩

/-- A directive that the builder accepts keeps the invariant. -/
theorem ReadInvariant.step (h : ReadInvariant (r :: rs) b) (hr : r.WellFormed) (hnum : r.NumbersFit)
    (hfnda : fnHasFnda (r :: rs) = true)
    (hok : b.handle garbage r.event = .ok b') :
    ReadInvariant rs b' := by
  have hstep := builderStep_of_handle hok
  have hb' := hstep.builderInvariant hr.event h.builder
  cases r with
  | test endLine => exact h.testEnd rfl hok hb'
  | directive d line =>
    cases d with
    | tn name =>
      cases hok
      refine ⟨h.trace, hb', hr, ?_, ?_⟩
      · rintro gi f fi ⟨⟩ hf
        simp at hf
      · rintro gi f fi ⟨⟩ hf
        simp at hf
    | sf path => exact h.sourceStart rfl hr hok hb'
    | eor =>
      cases hok
      exact h.boundary rfl
    | fn l name =>
      simp only [fnHasFnda, Bool.and_eq_true] at hfnda
      refine h.inSection hstep rfl hr hnum ?_ hb'
      rintro l' name' ⟨⟩
      exact hfnda.1
    | _ => exact h.inSection hstep rfl hr hnum (by simp) hb'

theorem fnHasFnda_tail (h : fnHasFnda (r :: rs) = true) : fnHasFnda rs = true := by
  unfold fnHasFnda at h
  split at h
  · rename_i heq
    cases heq
  · rename_i heq
    cases heq
    exact (Bool.and_eq_true _ _ ▸ h).2
  · rename_i heq
    cases heq
    exact h

theorem ReadInvariant.run (h : ReadInvariant rs b)
    (hwf : ∀ r ∈ rs, r.WellFormed) (hnum : ∀ r ∈ rs, r.NumbersFit)
    (hfnda : fnHasFnda rs = true)
    (hrun : b.run garbage (rs.map Reduction.event) = .ok b') :
    ReadInvariant [] b' := by
  induction rs generalizing b with
  | nil =>
    cases hrun
    exact h
  | cons r rs ih =>
    rw [List.map_cons, TraceBuilder.run_cons] at hrun
    cases hnext : b.handle garbage r.event with
    | error e =>
      rw [hnext] at hrun
      cases hrun
    | ok b1 =>
      rw [hnext] at hrun
      exact ih (h.step (hwf r (by simp)) (hnum r (by simp)) hfnda hnext)
        (fun r' hr' => hwf r' (by simp [hr'])) (fun r' hr' => hnum r' (by simp [hr']))
        (fnHasFnda_tail hfnda) hrun

end Steps

theorem Trace.empty_writable : Trace.empty.Writable := by
  refine ⟨⟨?_, ?_⟩, ?_, ?_, ?_⟩ <;> simp [Trace.empty]

theorem Trace.read_writable {is : Str} (his : Readable is)
    (hread : Trace.empty.read garbage is = .ok t) :
    t.Writable := by
  unfold Trace.read at hread
  rw [Trace.readWith_eq, finishRead_eq_ok_iff] at hread
  obtain ⟨-, b, hrun, rfl⟩ := hread
  have hnew : ReadInvariant ((TraceParser.new.run is).reductions.map Prod.fst)
      (TraceBuilder.new .empty) := by
    refine ⟨Trace.empty_writable, ⟨Trace.empty_writable.groups, Or.inl rfl, ?_⟩,
      Or.inl rfl, ?_, ?_⟩
    · rintro gi ⟨⟩
    · rintro gi f fi ⟨⟩
    · rintro gi f fi ⟨⟩
  have hrun' : (TraceBuilder.new .empty).run garbage
      (((TraceParser.new.run is).reductions.map Prod.fst).map Reduction.event) = .ok b := by
    rw [List.map_map]
    exact hrun
  refine (hnew.run ?_ ?_ his.fnHasFnda hrun').trace
  · intro r hr
    obtain ⟨r', hr', rfl⟩ := List.mem_map.mp hr
    exact run_wellFormed TraceParser.new is r' hr'
  · intro r hr
    obtain ⟨r', hr', rfl⟩ := List.mem_map.mp hr
    exact his.numbersFit r' hr'

theorem Trace.Writable.countersInRange (ht : t.Writable) : t.CountersInRange := by
  have hfile : ∀ g f fi, t.fileOf g f = some fi → fi.Complete := by
    intro g f fi hfi
    obtain ⟨gi, hgi, hfi⟩ := Option.bind_eq_some_iff.mp hfi
    exact ht.file g gi f fi hgi hfi
  refine ⟨?_, ?_, ?_⟩
  · intro g f n fn hfn
    obtain ⟨fi, hfi, hfn⟩ := Option.bind_eq_some_iff.mp hfn
    have h := hfile g f fi hfi
    exact ⟨(h.functionLines n fn hfn).1, (h.functions n fn hfn id).1⟩
  · intro g f l c hc
    obtain ⟨fi, hfi, hc⟩ := Option.bind_eq_some_iff.mp hc
    exact ((hfile g f fi hfi).lines l c hc).2.2.1
  · intro g f b c hc
    obtain ⟨fi, hfi, hc⟩ := Option.bind_eq_some_iff.mp hc
    exact ((hfile g f fi hfi).branches b c hc).2.2.2.1

end Coverage
end KedrAux
