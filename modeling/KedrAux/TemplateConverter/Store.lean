import KedrAux.TemplateConverter.Loader

/-!
# Storing of templates for jinja2

The tree of a template is written as a template of jinja2.  The newline after a block and the
newline at the end of the file are dropped by jinja2, so the writer keeps two flags and writes such
newlines twice.
-/

namespace KedrAux
namespace TemplateConverter

inductive StoreError where
  | assertionError
  | attributeError
  | typeError
  | wrongReference (message : CString)
deriving DecidableEq

/-- The anchor `$` of Python: the end of the text or the place before its last newline. -/
def atEnd (s : CString) : Bool := s = [] || s = ['\n']

/--
A match of `<$|$>|{{|}}|<#|#>` at the beginning of the text, with what follows it.  The sign `$`
stands for the anchor in the first two alternatives.
-/
def specialAt : CString → Option (CString × CString)
  | '<' :: s =>
    if atEnd s then some (['<'], s)
    else
      match s with
      | '#' :: s => some (['<', '#'], s)
      | _ => none
  | '>' :: s => if atEnd ('>' :: s) then some (['>'], s) else none
  | '{' :: '{' :: s => some (['{', '{'], s)
  | '}' :: '}' :: s => some (['}', '}'], s)
  | '#' :: '>' :: s => some (['#', '>'], s)
  | _ => none

/-- Text between the matches, by characters, and the matches themselves. -/
inductive Part where
  | plain (c : Char)
  | special (group : CString)
deriving DecidableEq

theorem specialAt_eq {text group rest : CString} (h : specialAt text = some (group, rest)) :
    text = group ++ rest ∧
      group ∈ [['<'], ['<', '#'], ['{', '{'], ['}', '}'], ['#', '>']] := by
  unfold specialAt at h
  repeat' split at h
  all_goals first
    | simp_all [atEnd]; done
    | cases h; exact ⟨rfl, by simp⟩

theorem specialAt_length {text group rest : CString} (h : specialAt text = some (group, rest)) :
    rest.length < text.length := by
  obtain ⟨rfl, hgroup⟩ := specialAt_eq h
  have hpos : 0 < group.length := by
    simp only [List.mem_cons, List.not_mem_nil, or_false] at hgroup
    rcases hgroup with rfl | rfl | rfl | rfl | rfl <;> simp
  rw [List.length_append]
  omega

/-- Matches are searched from the left and do not overlap. -/
def parts : CString → List Part
  | [] => []
  | c :: s =>
    match _h : specialAt (c :: s) with
    | some (group, rest) => .special group :: parts rest
    | none => .plain c :: parts s
termination_by text => text.length
decreasing_by
  · exact specialAt_length ‹_›
  · simp

def quote : Char := '\x27'

/-- Match as a string constant of jinja2. -/
def converter (group : CString) : CString :=
  ['{', '{', ' ', quote] ++ group ++ [quote, ' ', '}', '}']

def Part.written : Part → CString
  | plain c => [c]
  | special group => converter group

/-- The text with all matches replaced. -/
def escape (text : CString) : CString := (parts text).flatMap Part.written

/--
The file written so far, whether next newline symbol will be automatically trimmed, and whether
current last symbol is a newline.
-/
structure Output where
  contents : CString
  newlineTrimmed : Bool
  lastNewLine : Bool
deriving DecidableEq

def Output.write (out : Output) (s : CString) : Output :=
  { out with contents := out.contents ++ s }

def Output.emitText (out : Output) (text : CString) : Output :=
  if text.length = 0 then out
  else
    let s := escape text
    let out :=
      if out.newlineTrimmed then
        { (if s.head? = some '\n' then out.write ['\n'] else out) with newlineTrimmed := false }
      else out
    { out.write s with lastNewLine := s.getLast? = some '\n' }

def Output.emitBlock (out : Output) (b : CString) : Output :=
  { ((out.write ['<', '$']).write b).write ['$', '>'] with
    newlineTrimmed := true, lastNewLine := false }

def Output.emitVariable (out : Output) (v : CString) : Output :=
  { ((out.write ['{', '{']).write v).write ['}', '}'] with
    newlineTrimmed := false, lastNewLine := false }

variable (methods : Methods) (joinContext : CString)

/-- Name relative to the most inner sequence around it; `n` is at least the length of `context`. -/
def relativeTo (paramName : CString) : Nat → CString → CString
  | 0, _ => paramName
  | n + 1, context =>
    if context = [] then paramName
    else
      match methods.getSequenceIterator context with
      | some i => i ++ paramName.drop context.length
      | none => relativeTo paramName n (parentParam context)

def relName (paramName : CString) : CString :=
  relativeTo methods paramName paramName.length (parentParam paramName)

def relParamName (paramName : CString) : Except StoreError CString :=
  if paramName.length = 0 then .error .assertionError else .ok (relName methods paramName)

/-- Sequences from `context` up to the join context, with what is left of the context. -/
def contextPathFrom : Nat → CString → List CString × CString
  | 0, context => ([], context)
  | n + 1, context =>
    if joinContext.length < context.length then
      let path := contextPathFrom n (parentParam context)
      if (methods.getSequenceIterator context).isSome then (context :: path.1, path.2) else path
    else ([], context)

/--
Return list of sequences, which should be iterated for accept given parameter as single-valued,
from the most inner to the most outer.
-/
def getContextPath (elemRef : ElemRef) : Except StoreError (List CString) :=
  let context := elemRef.getBaseContext
  if context.length = 0 then .ok []
  else
    let path := contextPathFrom methods joinContext context.length context
    if path.2 ≠ joinContext then
      .error (.wrongReference ("It is incompatible with base template's join context '".toList ++
        joinContext ++ ".".toList))
    else .ok path.1

def hexDigits (b : UInt8) : CString := [Nat.digitChar (b.toNat / 16), Nat.digitChar (b.toNat % 16)]

def escapeChar (c : Char) : CString :=
  if c = '\\' then ['\\', '\\']
  else if c = quote then ['\\', quote]
  else if c = '\t' then ['\\', 't']
  else if c = '\n' then ['\\', 'n']
  else if c = '\r' then ['\\', 'r']
  else if ' ' ≤ c ∧ c ≤ '~' then [c]
  else (String.utf8EncodeChar c).flatMap fun b => '\\' :: 'x' :: hexDigits b

def stringEscape (s : CString) : CString := s.flatMap escapeChar

/-- Emit simple reference to template or parameter. -/
def emitRefSimple (elemRef : ElemRef) (out : Output) : Except StoreError Output :=
  match elemRef with
  | .templateRef template _ _ =>
    .ok (out.emitBlock ("include ".toList ++ [quote] ++ template.templateName ++ [quote]))
  | .paramRef paramName _ _ => do
      let name ← relParamName methods paramName
      return out.emitVariable name

/-- The loops that begin for the contexts from the `n`-th one on, with `total` of them. -/
def emitLoops (joinStr : CString) (total : Nat) : Nat → List CString → Output →
    Except StoreError Output
  | _, [], out => .ok out
  | n, context :: contexts, out => do
      let out :=
        if total ≠ 1 ∧ joinStr ≠ [] ∧ n ≠ total - 1 then
          out.emitBlock ("set loop".toList ++ (toString n).toList ++ " = loop".toList)
        else out
      let i := (methods.getSequenceIterator context).getD "None".toList
      let relContext ← relParamName methods context
      emitLoops joinStr total (n + 1) contexts
        (out.emitBlock ("for ".toList ++ i ++ " in ".toList ++ relContext))

/-- The condition "not first iteration" for the given number of loops. -/
def notFirst (total : Nat) : CString :=
  if total ≠ 1 then
    "not (".toList ++ ((List.range (total - 1)).flatMap fun m =>
      "loop".toList ++ (toString m).toList ++ ".first and".toList) ++ "loop.first)".toList
  else "not loop.first".toList

def emitJoinGeneric (elemRef : ElemRef) (outerContexts : List CString) (joinStr : Option CString)
    (out : Output) : Except StoreError Output := do
  let total := outerContexts.length
  match joinStr with
  | none => .error .typeError
  | some joinStr =>
    let out ← emitLoops methods joinStr total 0 outerContexts.reverse out
    let out :=
      if joinStr ≠ [] then
        ((out.emitBlock ("if ".toList ++ notFirst total)).emitText joinStr).emitBlock
          "endif".toList
      else out
    let out ← emitRefSimple methods elemRef out
    return outerContexts.foldl (fun out _ => out.emitBlock "endfor".toList) out

def emitParameterJoined (paramName : CString) (joinStr : Option CString) (out : Output) :
    Except StoreError Output := do
  let rel ← relParamName methods paramName
  match joinStr with
  | none => .error .attributeError
  | some joinStr =>
    return out.emitVariable
      (rel ++ " | join(d=\"".toList ++ stringEscape joinStr ++ "\")".toList)

/-- Emit join statement as join filtering on attributes; the string is not escaped here. -/
def emitParameterJoinedAttr (paramName : CString) (joinStr : Option CString) (context : CString)
    (out : Output) : Except StoreError Output := do
  let relContext ← relParamName methods context
  let attr := paramName.drop (context.length + 1)
  match joinStr with
  | none => .error .attributeError
  | some joinStr =>
    return out.emitVariable
      (relContext ++ " | join(d=\"".toList ++ joinStr ++ "\", attribute=\"".toList ++ attr ++
        "\")".toList)

def emitRef (elemRef : ElemRef) (isJoin : Bool) (joinStr : Option CString) (out : Output) :
    Except StoreError Output := do
  let outerContexts ← if isJoin then getContextPath methods joinContext elemRef else .ok []
  match elemRef, outerContexts with
  | _, [] => emitRefSimple methods elemRef out
  | .paramRef paramName _ _, [context] =>
    if context = paramName then emitParameterJoined methods paramName joinStr out
    else emitParameterJoinedAttr methods paramName joinStr context out
  | _, _ => emitJoinGeneric methods elemRef outerContexts joinStr out

/-- Return string representation of 'if' condition for jinja2 template. -/
def getConditionStr (elemRef : ElemRef) (isConcat : Bool) : Except StoreError CString :=
  match elemRef with
  | .templateRef _ _ _ => .error .attributeError
  | .paramRef paramName _ _ => do
      let contexts ← if isConcat then getContextPath methods joinContext elemRef else .ok []
      let contexts := if contexts.head? = some paramName then contexts.tail else contexts
      match contexts with
      | [] => relParamName methods paramName
      | [sequence] =>
        let relSequence ← relParamName methods sequence
        if sequence = paramName then return relSequence
        else
          return relSequence ++ " | join(attribute=".toList ++ [quote] ++
            paramName.drop (sequence.length + 1) ++ [quote] ++ ")".toList
      | _ => return "STAB: concat(".toList ++ paramName ++ ")".toList

mutual

def emitElem : ASTElem → Output → Except StoreError Output
  | .text _ _ text, out => .ok (out.emitText text)
  | .ref elemRef isJoin joinStr, out => emitRef methods joinContext elemRef isJoin joinStr out
  | .ifEndif elemRef isConcat ifSequence, out => do
      let conditionContent ← getConditionStr methods joinContext elemRef isConcat
      let out ← emitSequence ifSequence (out.emitBlock (['i', 'f', ' '] ++ conditionContent))
      return out.emitBlock ['e', 'n', 'd', 'i', 'f']
  | .ifElse elemRef isConcat ifSequence elseSequence, out => do
      let conditionContent ← getConditionStr methods joinContext elemRef isConcat
      let out ← emitSequence ifSequence (out.emitBlock (['i', 'f', ' '] ++ conditionContent))
      let out ← emitSequence elseSequence (out.emitBlock ['e', 'l', 's', 'e'])
      return out.emitBlock ['e', 'n', 'd', 'i', 'f']

def emitSequence : List ASTElem → Output → Except StoreError Output
  | [], out => .ok out
  | elem :: elems, out => do
      let out ← emitElem elem out
      emitSequence elems out

end

def store (sequence : List ASTElem) : Except StoreError CString := do
  let out ← emitSequence methods joinContext sequence ⟨[], false, false⟩
  return if out.lastNewLine then out.contents ++ ['\n'] else out.contents

end TemplateConverter
end KedrAux
