import KedrAux.Coverage.TraceReader

/-!
# Writing of traces

`Trace::write` (`trace.cpp`).  The text consists of lines separated by newlines,
one directive in a line and no newline at the end; `Trace.write_eq` says which
directives these are.  The totals are counted in `int` by the source; they are
not reduced modulo `2 ^ 32` here.
-/

namespace KedrAux
namespace Coverage

def decimal : Int → Str
  | .ofNat n => Nat.toDigits 10 n
  | .negSucc n => '-' :: Nat.toDigits 10 (n + 1)

def endl : Str := ['\n']

/-- Number of the entries for which something holds, as the loops count them. -/
def countEntries {K V : Type*} (p : V → Bool) (entries : List (K × V)) : Int :=
  (entries.countP fun e => p e.2 : Nat)

def writeFileInfoToStream (fileInfo : FileInfo) : Str :=
  let functions := fileInfo.functions.entries
  let branches := fileInfo.branches.entries
  let lines := fileInfo.lines.entries
  (functions.flatMap fun func =>
    if func.2.lineStart ≠ -1 then
      "FN:".toList ++ decimal func.2.lineStart ++ [','] ++ func.1 ++ endl
    else []) ++
  (functions.flatMap fun func =>
    "FNDA:".toList ++ decimal func.2.counter ++ [','] ++ func.1 ++ endl) ++
  ("FNF:".toList ++ decimal (countEntries (fun _ => true) functions) ++ endl) ++
  ("FNH:".toList ++ decimal (countEntries (fun fn => fn.counter > 0) functions) ++ endl) ++
  (branches.flatMap fun branch =>
    "BRDA:".toList ++ decimal branch.1.line ++ [','] ++ decimal branch.1.blockNumber ++
      [','] ++ decimal branch.1.branchNumber ++ [','] ++
      (if branch.2 ≠ -1 then decimal branch.2 else ['-']) ++ endl) ++
  ("BRF:".toList ++ decimal (countEntries (fun _ => true) branches) ++ endl) ++
  ("BRH:".toList ++ decimal (countEntries (fun c => c > 0) branches) ++ endl) ++
  (lines.flatMap fun line =>
    "DA:".toList ++ decimal line.1 ++ [','] ++ decimal line.2 ++ endl) ++
  ("LF:".toList ++ decimal (countEntries (fun _ => true) lines) ++ endl) ++
  ("LH:".toList ++ decimal (countEntries (fun c => c > 0) lines) ++ endl)

def writeSource (file : Str × FileInfo) : Str :=
  "SF:".toList ++ file.1 ++ endl ++ writeFileInfoToStream file.2 ++ "end_of_record".toList

def writeFileGroupInfoToStream (groupInfo : FileGroupInfo) : Option Str :=
  match groupInfo.files.entries with
  | [] => none
  | file :: files => some (writeSource file ++ files.flatMap fun file => endl ++ writeSource file)

def writeGroup (group : FileGroupID × FileGroupInfo) : Option Str := do
  let text ← writeFileGroupInfoToStream group.2
  return "TN:".toList ++ group.1.testName ++ endl ++ text

/-- `Trace::write`; groups without files are not written. -/
def Trace.write (t : Trace) : Option Str :=
  match t.fileGroups.entries.filter fun group => !group.2.files.entries.isEmpty with
  | [] => some "TN:".toList
  | group :: groups => do
      let first ← writeGroup group
      let others ← groups.mapM writeGroup
      return first ++ others.flatMap fun text => endl ++ text

def Directive.key : Directive → Key
  | .tn _ => .tn
  | .sf _ => .sf
  | .eor => .eor
  | .fnf _ => .fnf
  | .fnh _ => .fnh
  | .fn _ _ => .fn
  | .fnda _ _ => .fnda
  | .da _ _ | .daNegative _ _ => .da
  | .lf _ => .lf
  | .lh _ => .lh
  | .brda _ _ _ _ | .brdaNotCovered _ _ _ => .brda
  | .brf _ => .brf
  | .brh _ => .brh

def Directive.tokens : Directive → List Token
  | .tn name => .colon :: (if name = [] then [] else [.id name])
  | .sf path => [.colon, .path path]
  | .eor => []
  | .fnf n | .fnh n | .lf n | .lh n | .brf n | .brh n => [.colon, .number n]
  | .fn l name => [.colon, .number l, .comma, .id name]
  | .fnda c name => [.colon, .number c, .comma, .id name]
  | .da l c => [.colon, .number l, .comma, .number c]
  | .daNegative l c => [.colon, .number l, .comma, .minus, .number c]
  | .brda l b n c =>
    [.colon, .number l, .comma, .number b, .comma, .number n, .comma, .number c]
  | .brdaNotCovered l b n =>
    [.colon, .number l, .comma, .number b, .comma, .number n, .comma, .minus]

def Token.text : Token → Str
  | .key k => k.text
  | .number text | .id text | .path text => text
  | .minus => ['-']
  | .comma => [',']
  | .colon => [':']

def Directive.text (d : Directive) : Str :=
  d.key.text ++ d.tokens.flatMap Token.text

/-- The directives of a file, in the order in which they are written. -/
def fileDirectives (fi : FileInfo) : List Directive :=
  (fi.functions.entries.flatMap fun func =>
    if func.2.lineStart ≠ -1 then [Directive.fn (decimal func.2.lineStart) func.1] else []) ++
  (fi.functions.entries.map fun func => Directive.fnda (decimal func.2.counter) func.1) ++
  [ Directive.fnf (decimal (countEntries (fun _ => true) fi.functions.entries)),
    Directive.fnh (decimal (countEntries (fun fn => fn.counter > 0) fi.functions.entries)) ] ++
  (fi.branches.entries.map fun branch =>
    if branch.2 ≠ -1 then
      Directive.brda (decimal branch.1.line) (decimal branch.1.blockNumber)
        (decimal branch.1.branchNumber) (decimal branch.2)
    else
      Directive.brdaNotCovered (decimal branch.1.line) (decimal branch.1.blockNumber)
        (decimal branch.1.branchNumber)) ++
  [ Directive.brf (decimal (countEntries (fun _ => true) fi.branches.entries)),
    Directive.brh (decimal (countEntries (fun c => c > 0) fi.branches.entries)) ] ++
  (fi.lines.entries.map fun line => Directive.da (decimal line.1) (decimal line.2)) ++
  [ Directive.lf (decimal (countEntries (fun _ => true) fi.lines.entries)),
    Directive.lh (decimal (countEntries (fun c => c > 0) fi.lines.entries)) ]

def sourceDirectives (file : Str × FileInfo) : List Directive :=
  .sf file.1 :: (fileDirectives file.2 ++ [.eor])

def groupDirectives (group : FileGroupID × FileGroupInfo) : List Directive :=
  .tn group.1.testName :: group.2.files.entries.flatMap sourceDirectives

def lines (ds : List Directive) : Str :=
  ds.flatMap fun d => '\n' :: d.text

@[simp] theorem lines_append (ds ds' : List Directive) : lines (ds ++ ds') = lines ds ++ lines ds' :=
  List.flatMap_append

theorem flatMap_newline {α : Type*} (f : α → Str) (l : List α) :
    ['\n'] ++ (l.flatMap fun a => f a ++ ['\n']) = (l.flatMap fun a => '\n' :: f a) ++ ['\n'] := by
  induction l with
  | nil => rfl
  | cons a l ih =>
    rw [List.flatMap_cons, List.flatMap_cons, List.append_assoc (f a), ih]
    simp

theorem writeFileInfoToStream_eq (fi : FileInfo) :
    writeFileInfoToStream fi = (fileDirectives fi).flatMap fun d => d.text ++ ['\n'] := by
  have hfn : ∀ func : Str × FuncInfo,
      (if func.2.lineStart ≠ -1 then
        "FN:".toList ++ decimal func.2.lineStart ++ [','] ++ func.1 ++ endl else []) =
      List.flatMap (fun d => d.text ++ ['\n'])
        (if func.2.lineStart ≠ -1 then
          [Directive.fn (decimal func.2.lineStart) func.1] else []) := by
    intro func
    split_ifs
    · simp [Directive.text, Directive.key, Directive.tokens, Token.text, Key.text, endl]
    · rfl
  have hbrda : ∀ branch : BranchID × Int,
      "BRDA:".toList ++ decimal branch.1.line ++ [','] ++ decimal branch.1.blockNumber ++
        [','] ++ decimal branch.1.branchNumber ++ [','] ++
        (if branch.2 ≠ -1 then decimal branch.2 else ['-']) ++ endl =
      (if branch.2 ≠ -1 then
        Directive.brda (decimal branch.1.line) (decimal branch.1.blockNumber)
          (decimal branch.1.branchNumber) (decimal branch.2)
      else
        .brdaNotCovered (decimal branch.1.line) (decimal branch.1.blockNumber)
          (decimal branch.1.branchNumber)).text ++ ['\n'] := by
    intro branch
    split_ifs <;>
      simp [Directive.text, Directive.key, Directive.tokens, Token.text, Key.text, endl]
  simp only [writeFileInfoToStream, fileDirectives, hfn, hbrda, List.flatMap_append,
    List.flatMap_cons, List.flatMap_nil, List.flatMap_map, List.flatMap_assoc, List.append_nil]
  simp [Directive.text, Directive.key, Directive.tokens, Token.text, Key.text, endl]

theorem endl_writeSource (file : Str × FileInfo) :
    endl ++ writeSource file = lines (sourceDirectives file) := by
  have hnewline := flatMap_newline Directive.text (fileDirectives file.2)
  have hsf : "SF:".toList ++ file.1 = (Directive.sf file.1).text := by
    simp [Directive.text, Directive.key, Directive.tokens, Token.text, Key.text]
  have heor : "end_of_record".toList = Directive.eor.text := by
    simp [Directive.text, Directive.key, Directive.tokens, Key.text]
  calc
    endl ++ writeSource file =
        '\n' :: (Directive.sf file.1).text ++
          (['\n'] ++ (fileDirectives file.2).flatMap fun d => d.text ++ ['\n']) ++
          Directive.eor.text := by
      simp only [writeSource, writeFileInfoToStream_eq, hsf, heor, endl]
      simp
    _ = lines (sourceDirectives file) := by
      rw [hnewline]
      simp [lines, sourceDirectives]

theorem endl_writeGroup {group : FileGroupID × FileGroupInfo} (h : group.2.files.entries ≠ []) :
    ∃ text, writeGroup group = some text ∧ endl ++ text = lines (groupDirectives group) := by
  obtain ⟨file, files, hfiles⟩ := List.exists_cons_of_ne_nil h
  have htn : "TN:".toList ++ group.1.testName = (Directive.tn group.1.testName).text := by
    by_cases hname : group.1.testName = [] <;>
      simp [Directive.text, Directive.key, Directive.tokens, Token.text, Key.text, hname]
  refine ⟨_, by simp only [writeGroup, writeFileGroupInfoToStream, hfiles]; rfl, ?_⟩
  have hflat : (files.flatMap fun file => endl ++ writeSource file) =
      lines (files.flatMap sourceDirectives) := by
    simp only [endl_writeSource, lines, List.flatMap_assoc]
  rw [htn, hflat, groupDirectives, hfiles, List.flatMap_cons]
  have hfile := endl_writeSource file
  simp only [lines, List.flatMap_cons, List.flatMap_append] at hfile ⊢
  rw [← hfile]
  simp [endl]

theorem mapM_writeGroup {groups : List (FileGroupID × FileGroupInfo)}
    (h : ∀ group ∈ groups, group.2.files.entries ≠ []) :
    ∃ texts, groups.mapM writeGroup = some texts ∧
      (texts.flatMap fun text => endl ++ text) = lines (groups.flatMap groupDirectives) := by
  induction groups with
  | nil => exact ⟨[], rfl, rfl⟩
  | cons group groups ih =>
    obtain ⟨text, htext, hlines⟩ := endl_writeGroup (h group (by simp))
    obtain ⟨texts, htexts, hflat⟩ := ih fun group hgroup => h group (by simp [hgroup])
    refine ⟨text :: texts, ?_, ?_⟩
    · simp [List.mapM_cons, htext, htexts]
    · rw [List.flatMap_cons, List.flatMap_cons, hlines, hflat, lines_append]

def Trace.directives (t : Trace) : List Directive :=
  if t.fileGroups.entries = [] then [.tn []]
  else t.fileGroups.entries.flatMap groupDirectives

theorem Trace.write_eq
    {t : Trace} (h : ∀ group ∈ t.fileGroups.entries, group.2.files.entries ≠ []) :
    ∃ text, t.write = some text ∧ '\n' :: text = lines t.directives := by
  have hfilter : (t.fileGroups.entries.filter fun group => !group.2.files.entries.isEmpty) =
      t.fileGroups.entries := by
    rw [List.filter_eq_self]
    intro group hgroup
    simpa using h group hgroup
  unfold Trace.write Trace.directives
  rw [hfilter]
  cases hgroups : t.fileGroups.entries with
  | nil =>
    refine ⟨_, rfl, ?_⟩
    simp [lines, Directive.text, Directive.key, Directive.tokens, Token.text, Key.text]
  | cons group groups =>
    rw [hgroups] at h
    obtain ⟨text, htext, hlines⟩ := endl_writeGroup (h group (by simp))
    have hothers : ∀ g ∈ groups, g.2.files.entries ≠ [] :=
      fun g hg => h g (by simp [hg])
    obtain ⟨texts, htexts, hflat⟩ := mapM_writeGroup hothers
    refine ⟨text ++ texts.flatMap fun text => endl ++ text, ?_, ?_⟩
    · simp [htext, htexts]
    · rw [if_neg (by simp), List.flatMap_cons, lines_append, ← hlines, ← hflat]
      rfl

end Coverage
end KedrAux
