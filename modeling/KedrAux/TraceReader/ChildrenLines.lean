import Mathlib.Data.List.Basic
import Mathlib.Tactic

/-!
# Lines for child processes

The reader of the trace writes every line into the pipes of its child processes.  A write may take a
part of the line, and it may fail because the pipe is full; then the pipe is polled and the line is
written from its beginning.
-/

namespace KedrAux
namespace TraceReader

inductive Errno where
  | eagain
  | eintr
  | epipe
  | other
deriving DecidableEq

/-- Outcome of `write`: the pipe takes at most `room + 1` bytes, or there is an error. -/
inductive WriteAnswer where
  | takes (room : Nat)
  | fails (errno : Errno)
deriving DecidableEq

/-- Outcome of `poll`: the number of descriptors, or an error. -/
inductive PollAnswer where
  | returns (result : Nat)
  | fails (errno : Errno)
deriving DecidableEq

/-- System calls with their outcomes. -/
inductive SysCall where
  | write (buffer : List UInt8) (answer : WriteAnswer)
  | poll (answer : PollAnswer)
deriving DecidableEq

/-- Outcomes of the next calls. The program waits when there are no more. -/
structure Answers where
  writes : List WriteAnswer
  polls : List PollAnswer
deriving DecidableEq

/-- The calls that are made, and what is returned, unless the last call has not come back yet. -/
def writeUntilError (buffer : List UInt8) (bytesWritten : Nat) :
    List WriteAnswer → List SysCall × Option (Except Errno Nat × List WriteAnswer)
  | [] => ([], none)
  | .takes room :: writes =>
    let result := min (room + 1) buffer.length
    if (buffer.drop result).length ≠ 0 then
      let rest := writeUntilError (buffer.drop result) (bytesWritten + result) writes
      (.write buffer (.takes room) :: rest.1, rest.2)
    else ([.write buffer (.takes room)], some (.ok (bytesWritten + result), writes))
  | .fails errno :: writes =>
    if errno = .eintr then
      -- `continue` leads to the condition of the loop
      if buffer.length ≠ 0 then
        let rest := writeUntilError buffer bytesWritten writes
        (.write buffer (.fails errno) :: rest.1, rest.2)
      else ([.write buffer (.fails errno)], some (.ok bytesWritten, writes))
    else ([.write buffer (.fails errno)], some (.error errno, writes))

def pollIo : List PollAnswer → List SysCall × Option (Int × List PollAnswer)
  | [] => ([], none)
  | .returns result :: polls =>
    ([.poll (.returns result)], some (if result = 0 then -1 else 0, polls))
  | .fails errno :: polls =>
    if errno = .eintr then
      let rest := pollIo polls
      (.poll (.fails errno) :: rest.1, rest.2)
    else ([.poll (.fails errno)], some (-1, polls))

theorem length_writes_lt {buffer : List UInt8} {bytesWritten : Nat} {writes writes' : List WriteAnswer}
    {result : Except Errno Nat}
    (h : (writeUntilError buffer bytesWritten writes).2 = some (result, writes')) :
    writes'.length < writes.length := by
  induction writes generalizing buffer bytesWritten with
  | nil => cases h
  | cons answer writes ih =>
    rw [List.length_cons]
    cases answer with
    | takes room =>
      rw [writeUntilError] at h
      split_ifs at h with hrest
      · exact (ih h).trans (Nat.lt_succ_self _)
      · cases h
        exact Nat.lt_succ_self _
    | fails errno =>
      rw [writeUntilError] at h
      split_ifs at h with hintr hsize
      · exact (ih h).trans (Nat.lt_succ_self _)
      · cases h
        exact Nat.lt_succ_self _
      · cases h
        exact Nat.lt_succ_self _

/-- The result of the loop in `children_process_line`, and whether it is left for an error; what is
printed is left out, and `test_sigint` only changes what is polled. -/
def writeLine (str : List UInt8) (answers : Answers) :
    List SysCall × Option ((Int × Bool) × Answers) :=
  match _hwrite : writeUntilError str 0 answers.writes with
  | (calls, none) => (calls, none)
  -- the result is the value of the comparison with -1
  | (calls, some (.ok _, writes)) => (calls, some ((0, false), ⟨writes, answers.polls⟩))
  | (calls, some (.error errno, writes)) =>
    if errno = .eagain then
      match pollIo answers.polls with
      | (polled, none) => (calls ++ polled, none)
      | (polled, some (result, polls)) =>
        if result = -1 then (calls ++ polled, some ((1, true), ⟨writes, polls⟩))
        else
          let rest := writeLine str ⟨writes, polls⟩
          (calls ++ polled ++ rest.1, rest.2)
    else (calls, some ((1, true), ⟨writes, answers.polls⟩))
termination_by answers.writes.length
decreasing_by
  exact length_writes_lt (congrArg Prod.snd _hwrite)

def skipColumns : Nat → List UInt8 → List UInt8
  | 0, str => str
  | _ + 1, [] => []
  | columns + 1, c :: str => skipColumns (if c = 9 then columns else columns + 1) str

/-- There is no type if the line ends before it. -/
def getLineType (str : List UInt8) : Option (List UInt8) :=
  match skipColumns 2 str with
  | [] => none
  | c :: rest => some ((c :: rest).takeWhile fun c => c ≠ 9 ∧ c ≠ 10)

/-- `strncmp` gives 0; strings are followed by zeros. -/
def strncmpEq : Nat → List UInt8 → List UInt8 → Bool
  | 0, _, _ => true
  | n + 1, s, t =>
    s.headD 0 = t.headD 0 ∧ (s.headD 0 = 0 ∨ strncmpEq n s.tail t.tail)

def filterLineType (type : List UInt8) (types : List (List UInt8)) : Nat :=
  if types.any fun t => strncmpEq type.length type t && t.getD type.length 0 = 0 then 0 else 1

def unknownType : List UInt8 := [117, 110, 107, 110, 111, 119, 110, 32, 116, 121, 112, 101]

/-- A child process; the calls are those that were made for its pipe. -/
structure Child where
  fdWrite : Int
  types : Option (List (List UInt8))
  calls : List SysCall
deriving DecidableEq

def Child.isWriteable (child : Child) : Bool := child.fdWrite ≠ -1

def Child.stopWrite (child : Child) : Child := { child with fdWrite := -1 }

/-- The global filter accepts the line or not, sets `should_stop` and may change its data. -/
structure FilterResult (δ : Type) where
  accepted : Bool
  shouldStop : Bool
  data : δ

structure Children (δ : Type) where
  list : List Child
  filter : Option (List UInt8 → δ → FilterResult δ)
  filterData : δ

/-- One round of the loop over the children, with the value that is added to `trace_used`. -/
def processChild (str type : List UInt8) (child : Child) (answers : Answers) :
    Child × Option (Nat × Answers) :=
  if !child.isWriteable then (child, some (0, answers))
  else if (child.types.map (filterLineType type)) = some 0 then (child, some (1, answers))
  else
    let written := writeLine str answers
    let child := { child with calls := child.calls ++ written.1 }
    match written.2 with
    | none => (child, none)
    | some ((result, stopped), answers) =>
      (if stopped then child.stopWrite else child, some (if result ≠ -1 then 1 else 0, answers))

def processChildren (str type : List UInt8) :
    List Child → Answers → List Child × Option (Nat × Answers)
  | [], answers => ([], some (0, answers))
  | child :: children, answers =>
    match processChild str type child answers with
    | (child, none) => (child :: children, none)
    | (child, some (used, answers)) =>
      let rest := processChildren str type children answers
      (child :: rest.1, rest.2.map fun r => (used + r.1, r.2))

section Lines

variable {δ : Type}

/-- The answer of the filter; without one every line is accepted. -/
def Children.filterLine (children : Children δ) (str : List UInt8) : FilterResult δ :=
  match children.filter with
  | none => ⟨true, false, children.filterData⟩
  | some filter => filter str children.filterData

def childrenProcessLine (children : Children δ) (str : List UInt8) (answers : Answers) :
    Children δ × Option (Int × Answers) :=
  let r := children.filterLine str
  let children := { children with filterData := r.data }
  let out : Int := if r.shouldStop then 1 else 0
  if !r.accepted then (children, some (out, answers))
  else
    let type := (getLineType str).getD unknownType
    let processed := processChildren str type children.list answers
    ({ children with list := processed.1 },
      processed.2.map fun used => (if used.1 = 0 then 1 else out, used.2))

/-- Calls for one line after the other, with their results. -/
def processLines (children : Children δ) :
    List (List UInt8) → Answers → Children δ × Option (List Int × Answers)
  | [], answers => (children, some ([], answers))
  | str :: lines, answers =>
    match childrenProcessLine children str answers with
    | (children, none) => (children, none)
    | (children, some (result, answers)) =>
      let rest := processLines children lines answers
      (rest.1, rest.2.map fun r => (result :: r.1, r.2))

/-- The lines that the filter accepts when it is asked for all of them in their order. -/
def Children.acceptedLines (children : Children δ) : List (List UInt8) → List (List UInt8)
  | [] => []
  | str :: lines =>
    let r := children.filterLine str
    let rest := Children.acceptedLines { children with filterData := r.data } lines
    if r.accepted then str :: rest else rest

end Lines

def SysCall.written : SysCall → List UInt8
  | .write buffer (.takes room) => buffer.take (room + 1)
  | _ => []

def written (calls : List SysCall) : List UInt8 := calls.flatMap SysCall.written

/-- Errors after which nothing more is written. -/
def SysCall.Fails : SysCall → Prop
  | .write _ (.fails errno) => errno ≠ .eagain ∧ errno ≠ .eintr
  | .poll (.fails errno) => errno ≠ .eintr
  | .poll (.returns result) => result = 0
  | .write _ (.takes _) => False

/-- Whether the last write that took bytes took only a part of them. -/
def SysCall.short (before : Bool) : SysCall → Bool
  | .write buffer (.takes room) => room + 1 < buffer.length
  | _ => before

/-- No poll succeeds after a write that took only a part of its bytes. -/
def PollsAfterWhole : Bool → List SysCall → Prop
  | _, [] => True
  | before, call :: calls =>
    (∀ result, call = .poll (.returns (result + 1)) → before = false) ∧
      PollsAfterWhole (call.short before) calls

section Calls

variable {before : Bool} {calls calls' : List SysCall}

@[simp] theorem written_nil : written [] = [] := rfl

@[simp] theorem written_cons (call : SysCall) : written (call :: calls) =
    call.written ++ written calls :=
  rfl

@[simp] theorem written_append : written (calls ++ calls') = written calls ++ written calls' :=
  List.flatMap_append

theorem pollsAfterWhole_append :
    PollsAfterWhole before (calls ++ calls') ↔
      PollsAfterWhole before calls ∧ PollsAfterWhole (calls.foldl SysCall.short before) calls' := by
  induction calls generalizing before with
  | nil => simp [PollsAfterWhole]
  | cons call calls ih =>
    rw [List.cons_append, PollsAfterWhole, PollsAfterWhole, ih, List.foldl_cons, and_assoc]

end Calls

section Line

variable {before : Bool} {buffer str : List UInt8} {bytesWritten : Nat}
    {writes writes' : List WriteAnswer}

theorem written_writeUntilError_part (buffer : List UInt8) (bytesWritten : Nat)
    (writes : List WriteAnswer) :
    written (writeUntilError buffer bytesWritten writes).1 <+: buffer := by
  fun_induction writeUntilError buffer bytesWritten writes with
  | case1 => exact List.nil_prefix
  | case2 buffer bytesWritten room writes result hrest rest ih =>
    have hresult : buffer.take (room + 1) = buffer.take result := List.take_eq_take_min
    rw [written_cons, SysCall.written, hresult]
    conv_rhs => rw [← List.take_append_drop result buffer]
    exact List.prefix_append_right_inj _ |>.mpr ih
  | case3 buffer bytesWritten room writes result hrest =>
    rw [written_cons, written_nil, List.append_nil]
    exact List.take_prefix ..
  | case4 buffer bytesWritten writes hsize rest ih => exact ih
  | case5 => exact List.nil_prefix
  | case6 => exact List.nil_prefix

variable {n : Nat} {errno : Errno} {result : Int} {answers' : Answers}

theorem written_writeUntilError_ok
    (h : (writeUntilError buffer bytesWritten writes).2 = some (.ok n, writes')) :
    written (writeUntilError buffer bytesWritten writes).1 = buffer := by
  fun_induction writeUntilError buffer bytesWritten writes with
  | case1 => cases h
  | case2 buffer bytesWritten room writes result hrest rest ih =>
    have hresult : buffer.take (room + 1) = buffer.take result := List.take_eq_take_min
    rw [written_cons, SysCall.written, hresult, ih h, List.take_append_drop]
  | case3 buffer bytesWritten room writes result hrest =>
    have hresult : buffer.take (room + 1) = buffer.take result := List.take_eq_take_min
    have hdrop : buffer.drop result = [] := List.eq_nil_of_length_eq_zero (not_not.mp hrest)
    rw [written_cons, written_nil, List.append_nil, SysCall.written, hresult]
    conv_rhs => rw [← List.take_append_drop result buffer, hdrop, List.append_nil]
  | case4 buffer bytesWritten writes hsize rest ih => exact ih h
  | case5 buffer bytesWritten writes hsize => exact
    (List.eq_nil_of_length_eq_zero (not_not.mp hsize)).symm
  | case6 => cases h

theorem pollsAfterWhole_writeUntilError (before : Bool) (buffer : List UInt8) (bytesWritten : Nat)
    (writes : List WriteAnswer) :
    PollsAfterWhole before (writeUntilError buffer bytesWritten writes).1 := by
  fun_induction writeUntilError buffer bytesWritten writes generalizing before with
  | case1 => trivial
  | case2 buffer bytesWritten room writes result hrest rest ih =>
    exact ⟨fun _ hcall => (by cases hcall), ih _⟩
  | case4 buffer bytesWritten writes hsize rest ih =>
    exact ⟨fun _ hcall => (by cases hcall), ih _⟩
  | case3 | case5 | case6 => exact ⟨fun _ hcall => (by cases hcall), trivial⟩

theorem short_writeUntilError_ok (before : Bool) (hbefore : before = false ∨ buffer ≠ [])
    (h : (writeUntilError buffer bytesWritten writes).2 = some (.ok n, writes')) :
    (writeUntilError buffer bytesWritten writes).1.foldl SysCall.short before = false := by
  fun_induction writeUntilError buffer bytesWritten writes generalizing before with
  | case1 => cases h
  | case2 buffer bytesWritten room writes result hrest rest ih =>
    exact ih _ (.inr (List.ne_nil_of_length_pos (Nat.pos_of_ne_zero hrest))) h
  | case3 buffer bytesWritten room writes result hrest =>
    rw [List.length_drop] at hrest
    have hroom : ¬ room + 1 < buffer.length := by omega
    exact decide_eq_false hroom
  | case4 buffer bytesWritten writes hsize rest ih => exact ih _ hbefore h
  | case5 buffer bytesWritten writes hsize =>
    have hbuffer : buffer = [] := List.eq_nil_of_length_eq_zero (not_not.mp hsize)
    exact hbefore.resolve_right (not_not.mpr hbuffer)
  | case6 => cases h

theorem short_writeUntilError_error (before : Bool)
    (h : (writeUntilError buffer bytesWritten writes).2 = some (.error errno, writes')) :
    (writeUntilError buffer bytesWritten writes).1.foldl SysCall.short before =
      (before || !(written (writeUntilError buffer bytesWritten writes).1).isEmpty) := by
  fun_induction writeUntilError buffer bytesWritten writes generalizing before with
  | case1 => cases h
  | case2 buffer bytesWritten room writes result hrest rest ih =>
    rw [List.length_drop] at hrest
    have hroom : room + 1 < buffer.length := by omega
    have hshort : (SysCall.write buffer (.takes room)).short before = true := decide_eq_true hroom
    have hbuffer : buffer ≠ [] := List.ne_nil_of_length_pos (by omega)
    rw [List.foldl_cons, ih _ h, hshort, written_cons, SysCall.written]
    simp [hbuffer]
  | case3 => cases h
  | case4 buffer bytesWritten writes hsize rest ih => exact ih _ h
  | case5 => cases h
  | case6 => simp [SysCall.short, SysCall.written]

theorem fails_of_writeUntilError (herrno : errno ≠ .eagain)
    (h : (writeUntilError buffer bytesWritten writes).2 = some (.error errno, writes')) :
    ∃ call ∈ (writeUntilError buffer bytesWritten writes).1, call.Fails := by
  fun_induction writeUntilError buffer bytesWritten writes with
  | case1 => cases h
  | case2 buffer bytesWritten room writes result hrest rest ih =>
    obtain ⟨call, hmem, hfails⟩ := ih h
    exact ⟨call, List.mem_cons_of_mem _ hmem, hfails⟩
  | case3 => cases h
  | case4 buffer bytesWritten writes hsize rest ih =>
    obtain ⟨call, hmem, hfails⟩ := ih h
    exact ⟨call, List.mem_cons_of_mem _ hmem, hfails⟩
  | case5 => cases h
  | case6 buffer bytesWritten errno' writes hintr =>
    cases h
    exact ⟨_, List.mem_cons_self, herrno, hintr⟩

variable {polls polls' : List PollAnswer}

@[simp] theorem written_pollIo (polls : List PollAnswer) : written (pollIo polls).1 = [] := by
  fun_induction pollIo polls with
  | case1 => rfl
  | case2 => rfl
  | case3 polls rest ih => exact ih
  | case4 => rfl

@[simp] theorem short_pollIo (before : Bool) (polls : List PollAnswer) :
    (pollIo polls).1.foldl SysCall.short before = before := by
  fun_induction pollIo polls with
  | case1 => rfl
  | case2 => rfl
  | case3 polls rest ih => exact ih
  | case4 => rfl

theorem pollsAfterWhole_pollIo (hresult : result ≠ -1)
    (h : (pollIo polls).2 = some (result, polls')) :
    PollsAfterWhole before (pollIo polls).1 ↔ before = false := by
  fun_induction pollIo polls with
  | case1 => cases h
  | case2 n polls =>
    have hn : n ≠ 0 := by
      rintro rfl
      cases h
      exact hresult rfl
    obtain ⟨n, rfl⟩ := Nat.exists_eq_succ_of_ne_zero hn
    exact ⟨fun hwhole => hwhole.1 n rfl, fun hbefore => ⟨fun _ _ => hbefore, trivial⟩⟩
  | case3 polls rest ih =>
    refine Iff.trans ⟨fun hwhole => hwhole.2, fun hwhole => ⟨fun _ hcall => ?_, hwhole⟩⟩ (ih h)
    cases hcall
  | case4 =>
    cases h
    exact absurd rfl hresult

theorem fails_of_pollIo (h : (pollIo polls).2 = some (-1, polls')) :
    ∃ call ∈ (pollIo polls).1, call.Fails := by
  fun_induction pollIo polls with
  | case1 => cases h
  | case2 n polls =>
    have hn : n = 0 := by
      by_contra hn
      rw [if_neg hn] at h
      cases h
    exact ⟨_, List.mem_cons_self, hn⟩
  | case3 polls rest ih =>
    obtain ⟨call, hmem, hfails⟩ := ih h
    exact ⟨call, List.mem_cons_of_mem _ hmem, hfails⟩
  | case4 errno polls hintr => exact ⟨_, List.mem_cons_self, hintr⟩

theorem written_writeLine_part (str : List UInt8) (answers : Answers)
    (hwhole : PollsAfterWhole false (writeLine str answers).1) :
    written (writeLine str answers).1 <+: str := by
  fun_induction writeLine str answers with
  | case1 answers calls hwrite =>
    obtain ⟨rfl, -⟩ := Prod.ext_iff.mp hwrite
    exact written_writeUntilError_part ..
  | case2 answers calls n writes hwrite =>
    obtain ⟨rfl, -⟩ := Prod.ext_iff.mp hwrite
    exact written_writeUntilError_part ..
  | case3 answers calls writes polled hwrite hpoll =>
    obtain ⟨rfl, -⟩ := Prod.ext_iff.mp hwrite
    obtain ⟨rfl, -⟩ := Prod.ext_iff.mp hpoll
    rw [written_append, written_pollIo, List.append_nil]
    exact written_writeUntilError_part ..
  | case4 answers calls writes polled polls hwrite hpoll =>
    obtain ⟨rfl, -⟩ := Prod.ext_iff.mp hwrite
    obtain ⟨rfl, -⟩ := Prod.ext_iff.mp hpoll
    rw [written_append, written_pollIo, List.append_nil]
    exact written_writeUntilError_part ..
  | case5 answers calls writes polled result polls hpoll hresult rest hwrite ih =>
    obtain ⟨rfl, hreturned⟩ := Prod.ext_iff.mp hwrite
    obtain ⟨rfl, hpolled⟩ := Prod.ext_iff.mp hpoll
    dsimp only at hreturned hpolled hwhole ⊢
    rw [pollsAfterWhole_append, pollsAfterWhole_append, List.foldl_append, short_pollIo,
      short_writeUntilError_error _ hreturned, pollsAfterWhole_pollIo hresult hpolled] at hwhole
    obtain ⟨⟨-, hnone⟩, hrest⟩ := hwhole
    rw [hnone] at hrest
    have hempty : written (writeUntilError str 0 answers.writes).1 = [] := by simpa using hnone
    rw [written_append, written_append, written_pollIo, hempty]
    exact ih hrest
  | case6 answers calls errno writes hwrite herrno =>
    obtain ⟨rfl, -⟩ := Prod.ext_iff.mp hwrite
    exact written_writeUntilError_part ..

theorem written_writeLine (before : Bool) (str : List UInt8) (answers : Answers)
    (hbefore : before = false ∨ str ≠ [])
    (h : (writeLine str answers).2 = some ((result, false), answers')) :
    ∃ resent, written (writeLine str answers).1 = resent ++ str ∧
      (writeLine str answers).1.foldl SysCall.short before = false ∧
      (before = false → (PollsAfterWhole false (writeLine str answers).1 ↔ resent = [])) := by
  fun_induction writeLine str answers generalizing before with
  | case1 => cases h
  | case2 answers calls n writes hwrite =>
    obtain ⟨rfl, hreturned⟩ := Prod.ext_iff.mp hwrite
    refine ⟨[], written_writeUntilError_ok hreturned, short_writeUntilError_ok _ hbefore hreturned,
      fun _ => ?_⟩
    exact iff_of_true (pollsAfterWhole_writeUntilError ..) rfl
  | case3 => cases h
  | case4 => cases h
  | case5 answers calls writes polled result polls hpoll hresult rest hwrite ih =>
    obtain ⟨rfl, hreturned⟩ := Prod.ext_iff.mp hwrite
    obtain ⟨rfl, hpolled⟩ := Prod.ext_iff.mp hpoll
    dsimp only at hreturned hpolled h ⊢
    have hshort := short_writeUntilError_error before hreturned
    obtain ⟨part, hpart⟩ := written_writeUntilError_part str 0 answers.writes
    generalize hcalls : (writeUntilError str 0 answers.writes).1 = calls at *
    have hbefore' : calls.foldl SysCall.short before = false ∨ str ≠ [] := by
      rw [hshort]
      rcases hbefore with rfl | hstr
      · by_cases hstr : str = []
        · left
          rw [hstr, List.append_eq_nil_iff] at hpart
          rw [hpart.1]
          rfl
        · exact .inr hstr
      · exact .inr hstr
    obtain ⟨resent, hwritten, hlast, hiff⟩ := ih _ hbefore' h
    refine ⟨written calls ++ resent, ?_, ?_, ?_⟩
    · rw [written_append, written_append, written_pollIo, hwritten, List.append_nil,
        List.append_assoc]
    · rwa [List.foldl_append, List.foldl_append, short_pollIo]
    · rintro rfl
      rw [pollsAfterWhole_append, pollsAfterWhole_append, List.foldl_append, short_pollIo,
        pollsAfterWhole_pollIo hresult hpolled, List.append_eq_nil_iff]
      have hclean : PollsAfterWhole false calls := hcalls ▸ pollsAfterWhole_writeUntilError ..
      have hnone : calls.foldl SysCall.short false = false ↔ written calls = [] := by
        rw [hshort]
        simp
      constructor
      · rintro ⟨⟨-, hfalse⟩, hrest⟩
        rw [hfalse] at hrest
        exact ⟨hnone.mp hfalse, (hiff hfalse).mp hrest⟩
      · rintro ⟨hempty, hresent⟩
        have hfalse := hnone.mpr hempty
        refine ⟨⟨hclean, hfalse⟩, ?_⟩
        rw [hfalse]
        exact (hiff hfalse).mpr hresent
  | case6 => cases h

theorem fails_of_writeLine {str : List UInt8} {answers : Answers}
    (h : (writeLine str answers).2 = some ((result, true), answers')) :
    ∃ call ∈ (writeLine str answers).1, call.Fails := by
  fun_induction writeLine str answers with
  | case1 => cases h
  | case2 => cases h
  | case3 => cases h
  | case4 answers calls writes polled polls hwrite hpoll =>
    obtain ⟨rfl, hpolled⟩ := Prod.ext_iff.mp hpoll
    obtain ⟨call, hmem, hfails⟩ := fails_of_pollIo hpolled
    exact ⟨call, List.mem_append_right _ hmem, hfails⟩
  | case5 answers calls writes polled result polls hpoll hresult rest hwrite ih =>
    obtain ⟨call, hmem, hfails⟩ := ih h
    exact ⟨call, List.mem_append_right _ hmem, hfails⟩
  | case6 answers calls errno writes hwrite herrno =>
    obtain ⟨rfl, hreturned⟩ := Prod.ext_iff.mp hwrite
    exact fails_of_writeUntilError herrno hreturned

end Line

/-- The calls wrote the bytes, and more when a line was begun anew. -/
structure Whole (calls : List SysCall) (sent : List UInt8) : Prop where
  short : calls.foldl SysCall.short false = false
  written : PollsAfterWhole false calls → written calls = sent
  length : ∃ more, (TraceReader.written calls).length = sent.length + more ∧
    (more = 0 → PollsAfterWhole false calls)

/-- What a child that takes all types was given: all, or something until an error. -/
structure Received (child : Child) (sent : List UInt8) : Prop where
  types : child.types = none
  whole : child.isWriteable = true → Whole child.calls sent
  part : child.isWriteable =
    false → (PollsAfterWhole false child.calls → written child.calls <+: sent) ∧
    ∃ call ∈ child.calls, call.Fails

/-- While the calls go on, it is a part; after them it is all. -/
structure Receives (returned : Prop) (child : Child) (sent : List UInt8) : Prop where
  part : PollsAfterWhole false child.calls → written child.calls <+: sent
  received : returned → Received child sent

section Children

variable {child : Child} {calls : List SysCall} {sent str type : List UInt8}

theorem Whole.written_eq_iff (h : Whole calls sent) :
    TraceReader.written calls = sent ↔ PollsAfterWhole false calls := by
  refine ⟨fun hwritten => ?_, h.written⟩
  obtain ⟨more, hlength, hmore⟩ := h.length
  rw [hwritten] at hlength
  exact hmore (by omega)

theorem Whole.append_line (h : Whole calls sent) {answers answers' : Answers} {result : Int}
    (hline : (writeLine str answers).2 = some ((result, false), answers')) :
    Whole (calls ++ (writeLine str answers).1) (sent ++ str) := by
  obtain ⟨resent, hwritten, hshort, hiff⟩ := written_writeLine false str answers (.inl rfl) hline
  have happend : PollsAfterWhole false (calls ++ (writeLine str answers).1) ↔
      PollsAfterWhole false calls ∧ resent = [] := by
    rw [pollsAfterWhole_append, h.short, hiff rfl]
  refine ⟨?_, fun hwhole => ?_, ?_⟩
  · rwa [List.foldl_append, h.short]
  · obtain ⟨hcalls, rfl⟩ := happend.mp hwhole
    rw [written_append, hwritten, h.written hcalls, List.nil_append]
  · obtain ⟨more, hlength, hmore⟩ := h.length
    refine ⟨more + resent.length, ?_, fun hzero => ?_⟩
    · rw [written_append, hwritten, List.length_append, List.length_append, List.length_append, hlength]
      omega
    · rw [happend]
      exact ⟨hmore (by omega), List.eq_nil_of_length_eq_zero (by omega)⟩

theorem Received.part_of_sent (h : Received child sent) (hwhole : PollsAfterWhole false child.calls) :
    written child.calls <+: sent := by
  cases hopen : child.isWriteable with
  | true => exact ((h.whole hopen).written hwhole).symm ▸ List.prefix_refl _
  | false => exact (h.part hopen).1 hwhole

theorem Received.receives (h : Received child sent) {returned : Prop} (rest : List UInt8)
    (hreturned : ¬ returned) : Receives returned child (sent ++ rest) :=
  ⟨fun hwhole => (h.part_of_sent hwhole).trans (List.prefix_append ..), fun hr => absurd hr hreturned⟩

theorem Received.of_closed (h : Received child sent) (hclosed : child.isWriteable = false)
    (rest : List UInt8) : Received child (sent ++ rest) :=
  ⟨h.types, fun hopen => absurd (hclosed.symm.trans hopen) Bool.false_ne_true, fun _ =>
    ⟨fun hwhole => (h.part_of_sent hwhole).trans (List.prefix_append ..), (h.part hclosed).2⟩⟩

theorem processChild_receives (h : Received child sent) (str type : List UInt8) (answers : Answers) :
    Receives ((processChild str type child answers).2.isSome)
      (processChild str type child answers).1 (sent ++ str) := by
  have hclosed : child.isWriteable = false → Receives True child (sent ++ str) := fun hclosed =>
    ⟨(h.of_closed hclosed str).part_of_sent, fun _ => h.of_closed hclosed str⟩
  rw [processChild]
  by_cases hopen : child.isWriteable = true
  · have hwhole := h.whole hopen
    have hpart : PollsAfterWhole false (child.calls ++ (writeLine str answers).1) →
        written (child.calls ++ (writeLine str answers).1) <+: sent ++ str := by
      rw [pollsAfterWhole_append, hwhole.short]
      rintro ⟨hcalls, hline⟩
      rw [written_append, hwhole.written hcalls]
      exact List.prefix_append_right_inj _ |>.mpr (written_writeLine_part str answers hline)
    rw [hopen, h.types]
    simp only [Bool.not_true, Bool.false_eq_true, if_false, Option.map_none, reduceCtorEq]
    cases hreturned : (writeLine str answers).2 with
    | none => exact ⟨hpart, fun hr => absurd hr (by simp)⟩
    | some r =>
      obtain ⟨⟨result, stopped⟩, answers'⟩ := r
      cases stopped with
      | false =>
        refine ⟨hpart, fun _ => ⟨rfl, fun _ => hwhole.append_line hreturned, fun hclosed => ?_⟩⟩
        exact absurd (hclosed.symm.trans hopen) Bool.false_ne_true
      | true =>
        refine ⟨hpart, fun _ => ⟨rfl, fun hr => absurd hr Bool.false_ne_true, fun _ => ?_⟩⟩
        obtain ⟨call, hmem, hfails⟩ := fails_of_writeLine hreturned
        exact ⟨hpart, call, List.mem_append_right _ hmem, hfails⟩
  · rw [Bool.not_eq_true] at hopen
    rw [hopen]
    exact ⟨(hclosed hopen).part, fun _ => (hclosed hopen).received trivial⟩

variable {i : Nat}

theorem processChildren_receives (str type : List UInt8) {children : List Child} (answers : Answers)
    (hchild : children[i]? = some child) (h : Received child sent) :
    ∃ child', (processChildren str type children answers).1[i]? = some child' ∧
      Receives ((processChildren str type children answers).2.isSome) child' (sent ++ str) := by
  induction children generalizing answers i with
  | nil => cases hchild
  | cons first children ih =>
    rw [processChildren]
    rcases hfirst : processChild str type first answers with ⟨first', _ | ⟨used, answers'⟩⟩
    · -- the loop waits at the first child
      cases i with
      | zero =>
        obtain rfl := Option.some_inj.mp hchild
        have hreceives := processChild_receives h str type answers
        rw [hfirst] at hreceives
        exact ⟨first', rfl, hreceives⟩
      | succ i => exact ⟨child, hchild, h.receives str (by simp)⟩
    · cases i with
      | zero =>
        obtain rfl := Option.some_inj.mp hchild
        have hreceives := processChild_receives h str type answers
        rw [hfirst] at hreceives
        exact ⟨first', rfl, hreceives.part, fun _ => hreceives.received rfl⟩
      | succ i =>
        obtain ⟨child', hchild', hreceives⟩ := ih answers' hchild
        refine ⟨child', hchild', hreceives.part, fun hreturned => hreceives.received ?_⟩
        rwa [Option.isSome_map] at hreturned

variable {δ : Type}

theorem childrenProcessLine_receives (children : Children δ) (str : List UInt8) (answers : Answers)
    (hchild : children.list[i]? = some child) (h : Received child sent) :
    ∃ child', (childrenProcessLine children str answers).1.list[i]? = some child' ∧
      Receives ((childrenProcessLine children str answers).2.isSome) child'
        (sent ++ if (children.filterLine str).accepted then str else []) := by
  rw [childrenProcessLine]
  cases (children.filterLine str).accepted with
  | false =>
    refine ⟨child, hchild, ?_⟩
    simp only [Bool.false_eq_true, if_false, List.append_nil]
    exact ⟨h.part_of_sent, fun _ => h⟩
  | true =>
    simp only [Bool.not_true, Bool.false_eq_true, if_false, if_true, Option.isSome_map]
    exact processChildren_receives str _ answers hchild h

theorem acceptedLines_list (children : Children δ) (list : List Child) (lines : List (List UInt8)) :
    Children.acceptedLines { children with list } lines = children.acceptedLines lines := by
  induction lines generalizing children with
  | nil => rfl
  | cons str lines ih =>
    have hrest := ih { children with filterData := (children.filterLine str).data }
    rw [Children.acceptedLines, Children.acceptedLines]
    exact if_congr Iff.rfl (congrArg _ hrest) hrest

theorem exists_childrenProcessLine_eq (children : Children δ) (str : List UInt8) (answers : Answers) :
    ∃ list, (childrenProcessLine children str answers).1 =
      { children with list, filterData := (children.filterLine str).data } := by
  rw [childrenProcessLine]
  by_cases haccepted : (children.filterLine str).accepted = true
  · rw [haccepted]
    exact ⟨_, rfl⟩
  · rw [Bool.not_eq_true] at haccepted
    rw [haccepted]
    exact ⟨_, rfl⟩

theorem acceptedLines_cons (children : Children δ) (str : List UInt8) (lines : List (List UInt8))
    (answers : Answers) :
    (children.acceptedLines (str :: lines)).flatten =
      (if (children.filterLine str).accepted then str else []) ++
        ((childrenProcessLine children str answers).1.acceptedLines lines).flatten := by
  obtain ⟨list, hlist⟩ := exists_childrenProcessLine_eq children str answers
  have hrest : (childrenProcessLine children str answers).1.acceptedLines lines =
      Children.acceptedLines { children with filterData := (children.filterLine str).data } lines := by
    rw [hlist]
    exact acceptedLines_list { children with filterData := (children.filterLine str).data } list lines
  rw [hrest, Children.acceptedLines]
  cases (children.filterLine str).accepted <;> rfl

theorem processLines_receives (children : Children δ) (lines : List (List UInt8))
    (answers : Answers) (hchild : children.list[i]? = some child) (h : Received child sent) :
    ∃ child', (processLines children lines answers).1.list[i]? = some child' ∧
      Receives ((processLines children lines answers).2.isSome) child'
        (sent ++ (children.acceptedLines lines).flatten) := by
  induction lines generalizing children answers child sent with
  | nil =>
    rw [Children.acceptedLines, List.flatten_nil, List.append_nil]
    exact ⟨child, hchild, h.part_of_sent, fun _ => h⟩
  | cons str lines ih =>
    obtain ⟨child', hchild', hreceives⟩ := childrenProcessLine_receives children str answers hchild h
    rw [acceptedLines_cons children str lines answers, ← List.append_assoc, processLines]
    rcases hline : childrenProcessLine children str answers with ⟨children', _ | ⟨result, answers'⟩⟩
    · rw [hline] at hchild' hreceives
      refine ⟨child', hchild', fun hwhole => ?_, fun hr => absurd hr (by simp)⟩
      exact (hreceives.part hwhole).trans (List.prefix_append ..)
    · rw [hline] at hchild' hreceives
      obtain ⟨child'', hchild'', hrest⟩ := ih children' answers' hchild' (hreceives.received rfl)
      refine ⟨child'', hchild'', hrest.part, fun hreturned => hrest.received ?_⟩
      rwa [Option.isSome_map] at hreturned

end Children

/-- A child that takes all types gets a part of the accepted lines, and all of them, one after the
other, when the calls are done and no error came, as long as no poll succeeds after a short write. -/
theorem processLines_child {δ : Type} (children : Children δ) (lines : List (List UInt8))
    (answers : Answers) {i : Nat} {child : Child} (hchild : children.list[i]? = some child)
    (hopen : child.isWriteable = true) (htypes : child.types = none) (hcalls : child.calls = []) :
    ∃ child', (processLines children lines answers).1.list[i]? = some child' ∧
      (PollsAfterWhole false child'.calls →
        written child'.calls <+: (children.acceptedLines lines).flatten) ∧
      ((processLines children lines answers).2.isSome → (∀ call ∈ child'.calls, ¬ call.Fails) →
        (written child'.calls = (children.acceptedLines lines).flatten ↔
          PollsAfterWhole false child'.calls)) := by
  have hstart : Received child [] := by
    refine ⟨htypes, fun _ => ?_, fun hclosed => absurd (hclosed.symm.trans hopen) Bool.false_ne_true⟩
    rw [hcalls]
    exact ⟨rfl, fun _ => rfl, 0, rfl, fun _ => trivial⟩
  obtain ⟨child', hchild', hreceives⟩ := processLines_receives children lines answers hchild hstart
  rw [List.nil_append] at hreceives
  refine ⟨child', hchild', hreceives.part, fun hreturned hfails => ?_⟩
  have hreceived := hreceives.received hreturned
  cases hopen' : child'.isWriteable with
  | true => exact (hreceived.whole hopen').written_eq_iff
  | false =>
    obtain ⟨-, call, hmem, hfailed⟩ := hreceived.part hopen'
    exact absurd hfailed (hfails call hmem)

def sampleChildren : Children Unit := ⟨[⟨5, none, []⟩], none, ()⟩

/-- The pipe is full before the line and takes it in two parts. -/
theorem processLines_child_sample :
    ∃ child', (processLines sampleChildren [[76, 10]]
        ⟨[.fails .eagain, .takes 0, .fails .eintr, .takes 0], [.returns 1]⟩).1.list[0]? = some child' ∧
      (PollsAfterWhole false child'.calls →
        written child'.calls <+: (sampleChildren.acceptedLines [[76, 10]]).flatten) ∧
      ((processLines sampleChildren [[76, 10]]
          ⟨[.fails .eagain, .takes 0, .fails .eintr, .takes 0], [.returns 1]⟩).2.isSome →
        (∀ call ∈ child'.calls, ¬ call.Fails) →
        (written child'.calls = (sampleChildren.acceptedLines [[76, 10]]).flatten ↔
          PollsAfterWhole false child'.calls)) :=
  processLines_child sampleChildren [[76, 10]] _ (i := 0) rfl rfl rfl rfl

/-- After a part of the line the pipe is full: then the part is written again. -/
theorem processLines_repeats :
    ¬ ∀ (children : Children Unit) (lines : List (List UInt8)) (answers : Answers)
    (child child' : Child),
      children.list[0]? = some child → child.isWriteable = true → child.types = none →
      child.calls = [] → (processLines children lines answers).1.list[0]? = some child' →
      written child'.calls <+: (children.acceptedLines lines).flatten := by
  intro h
  have hwritten := h sampleChildren [[76, 10]] ⟨[.takes 0, .fails .eagain, .takes 1], [.returns 1]⟩
    ⟨5, none, []⟩ ⟨5, none, [.write [76, 10] (.takes 0), .write [10] (.fails .eagain),
      .poll (.returns 1), .write [76, 10] (.takes 1)]⟩ rfl rfl rfl rfl (by decide +kernel)
  exact absurd hwritten (by decide +kernel)

end TraceReader
end KedrAux
