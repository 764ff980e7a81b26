import KedrAux.MistEngine.Template
import Mathlib.Data.List.DropRight

/-!
# The parser of templates

The second stage of `mist_template_from_string`: the tokens are made into a template.  The
functions share the index of the next token.  They stop in front of "else" and "endif", and they
have assertions about what the others leave.

Allocations succeed.  Failed assertions and accesses out of range are errors of the model.
-/

namespace KedrAux
namespace MistEngine

/-- The placeholders of the first list, and then those of the second one. -/
def Placeholders.append : Placeholders → Placeholders → Placeholders
  | .nil, ph => ph
  | .plain name rest, ph => .plain name (rest.append ph)
  | .join name sep rest, ph => .join name sep (rest.append ph)
  | .cond name isConcat thenSch thenPh elseSch elsePh rest, ph =>
    .cond name isConcat thenSch thenPh elseSch elsePh (rest.append ph)

namespace Parser

def wspace : Str := [32, 9, 10, 13]

def isSpace (c : UInt8) : Bool :=
  wspace.contains c

def stringTrim (s : Str) : Str :=
  (s.dropWhile isSpace).rdropWhile isSpace

/-- The characters that are allowed in names: a space, "-", ".", "_", digits and letters. -/
def chAllowed (c : UInt8) : Bool :=
  c == 32 || c == 45 || c == 46 || (48 ≤ c && c ≤ 57) || (65 ≤ c && c ≤ 90) || c == 95 ||
    (97 ≤ c && c ≤ 122)

def nameIsBad (name : Str) : Bool :=
  match name with
  | [] => true
  | c :: _ => c == 46 || c == 32 || name.any fun c => c ≤ 31 || 127 ≤ c || !chAllowed c

/-- The sequences "\\", "\t", "\n" and "\r" are replaced; a backslash before anything else stays. -/
def stringUnescape : Str → Str
  | [] => []
  | [c] => [c]
  | c :: c' :: s =>
    if c == 92 then
      if c' == 92 then 92 :: stringUnescape s
      else if c' == 116 then 9 :: stringUnescape s
      else if c' == 110 then 10 :: stringUnescape s
      else if c' == 114 then 13 :: stringUnescape s
      else 92 :: stringUnescape (c' :: s)
    else c :: stringUnescape (c' :: s)

def joinName : Str := [106, 111, 105, 110]

/-- The separator in the text behind a colon. -/
def readJoin (text : Str) : Option Str :=
  let directive := stringTrim text
  if joinName.isPrefixOf directive then
    let args := stringTrim (directive.drop joinName.length)
    if args.head? = some 40 ∧ args.getLast? = some 41 then
      some (stringUnescape (args.dropLast.drop 1))
    else none
  else none

/-- The name in a placeholder, and the separator when there is a join-directive. -/
def readPlaceholder (text : Str) : Option (Str × Option Str) :=
  let expr := stringTrim text
  match expr.dropWhile fun c => c != 58 with
  | [] => if nameIsBad expr then none else some (expr, none)
  | _ :: after =>
    let name := stringTrim (expr.takeWhile fun c => c != 58)
    match readJoin after with
    | none => none
    | some sep => if nameIsBad name then none else some (name, some sep)

def concatName : Str := [99, 111, 110, 99, 97, 116]

/-- The name in a conditional expression without spaces at its ends, and whether it is a
concat-expression. -/
def readCondExpr (text : Str) : Str × Bool :=
  if text.getLast? ≠ some 41 ∨ text.length < concatName.length + 3 ∨
      concatName.isPrefixOf text = false then (text, false)
  else
    match (text.dropLast.drop concatName.length).dropWhile isSpace with
    | [] => (text, false)
    | c :: rest =>
      if c ≠ 40 then (text, false)
      else
        match rest.dropWhile isSpace with
        | [] => (text, false)
        | c :: rest => ((c :: rest).rdropWhile isSpace, true)

inductive TokenType where
  | mttSch
  | mttPh
  | mttIf
  | mttElse
  | mttEndif
deriving DecidableEq

structure Token where
  type : TokenType
  text : Str
  line : Nat
deriving DecidableEq

structure ErrorDescr where
  format : String
  arg : Option Str
  line : Nat
deriving DecidableEq

def errInvalidPHName : String := "invalid placeholder: \"%s\" (line %u of the template)"

def errIfWithoutEndif : String :=
  "found \"if\" without matching \"endif\" (line %u of the template)"

def errElseWithoutEndif : String :=
  "found \"else\" without matching \"endif\" (line %u of the template)"

def errElseWithoutIf : String :=
  "found \"else\" without matching \"if\" (line %u of the template)"

def errEndifWithoutIf : String :=
  "found \"endif\" without matching \"if\" (line %u of the template)"

/-- Errors of the source have the index at which parsing stopped. -/
inductive ParseStop where
  | syntaxError (descr : ErrorDescr) (istart : Nat)
  | badName (istart : Nat)
  | assertion
  | outOfRange
  | outOfFuel
deriving DecidableEq

def assert (p : Prop) [Decidable p] : Except ParseStop Unit :=
  ErrorCodes.assertOr .assertion p

variable (tokens : List Token)

def element (istart : Nat) : Except ParseStop Token :=
  match tokens[istart]? with
  | some t => .ok t
  | none => .error .outOfRange

def matchStringChunk (istart : Nat) : Except ParseStop (Str × Nat) := do
  assert (1 ≤ tokens.length)
  assert (istart < tokens.length)
  let t ← element tokens istart
  assert (t.type = .mttSch)
  return (t.text, istart + 1)

def parseCondExpr (text : Str) : Except ParseStop (Str × Bool) := do
  assert (text ≠ [])
  assert (text.head?.any isSpace = false)
  assert (text.getLast?.any isSpace = false)
  return readCondExpr text

/-- The name and the kind of a conditional placeholder. -/
def matchIf (istart : Nat) : Except ParseStop ((Str × Bool) × Nat) := do
  assert (1 ≤ tokens.length)
  assert (istart < tokens.length)
  let t ← element tokens istart
  assert (t.type = .mttIf)
  let (name, isConcat) ← parseCondExpr t.text
  if nameIsBad name then
    .error (.syntaxError ⟨errInvalidPHName, some name, t.line⟩ (istart + 1))
  else
    return ((name, isConcat), istart + 1)

def matchKeyword (type : TokenType) (istart : Nat) : Except ParseStop Nat := do
  assert (1 ≤ tokens.length)
  assert (istart < tokens.length)
  let t ← element tokens istart
  assert (t.type = type)
  return istart + 1

def matchElse : Nat → Except ParseStop Nat :=
  matchKeyword tokens .mttElse

def matchEndif : Nat → Except ParseStop Nat :=
  matchKeyword tokens .mttEndif

/-- A placeholder is given as the list with only this placeholder. -/
def placeholderCreate (name : Str) (sep : Option Str) : Except ParseStop Placeholders := do
  assert (nameIsBad name = false)
  match sep with
  | none => return .plain name .nil
  | some sep => return .join name sep .nil

def parsePlaceholder (istart : Nat) : Except ParseStop (Placeholders × Nat) := do
  assert (1 ≤ tokens.length)
  assert (istart < tokens.length)
  let t ← element tokens istart
  assert (t.type = .mttPh)
  match readPlaceholder t.text with
  | none => .error (.badName (istart + 1))
  | some (name, sep) => return (← placeholderCreate name sep, istart + 1)

def nameThen : Str := [116, 104, 101, 110, 95, 98, 114, 97, 110, 99, 104]

def nameElse : Str := [101, 108, 115, 101, 95, 98, 114, 97, 110, 99, 104]

/-- The part of `mist_parse_conditional` behind "then": the "else"-branch, and the index and the
token that follow. -/
def parseElse (parseTemplate : Str → Nat → Except ParseStop (Template × Nat)) (istart : Nat)
    (t : Token) : Except ParseStop (Template × Nat × Token) := do
  if t.type = .mttElse then
    let istart ← matchElse tokens istart
    assert (istart < tokens.length)
    let (mt, istart) ← parseTemplate nameElse istart
    if tokens.length ≤ istart then
      .error (.syntaxError ⟨errElseWithoutEndif, none, t.line⟩ istart)
    else
      return (mt, istart, ← element tokens istart)
  else
    -- as if the branch was present but empty
    return (⟨[[]], .nil⟩, istart, t)

def parseConditional (parseTemplate : Str → Nat → Except ParseStop (Template × Nat))
    (istart : Nat) : Except ParseStop (Placeholders × Nat) := do
  assert (1 ≤ tokens.length)
  assert (istart < tokens.length)
  let tIf ← element tokens istart
  let ((name, isConcat), istart) ← matchIf tokens istart
  assert (istart < tokens.length)
  let (tplThen, istart) ← parseTemplate nameThen istart
  if tokens.length ≤ istart then
    .error (.syntaxError ⟨errIfWithoutEndif, none, tIf.line⟩ istart)
  else
    let t ← element tokens istart
    let (tplElse, istart, t) ← parseElse tokens parseTemplate istart t
    if t.type = .mttEndif then
      let istart ← matchEndif tokens istart
      return (.cond name isConcat tplThen.sch tplThen.ph tplElse.sch tplElse.ph .nil, istart)
    else
      assert (t.type = .mttElse)
      .error (.syntaxError ⟨errIfWithoutEndif, none, tIf.line⟩ istart)

/-- There is no placeholder in front of "else" and "endif". -/
def parsePhExpression (parseTemplate : Str → Nat → Except ParseStop (Template × Nat))
    (istart : Nat) : Except ParseStop (Option Placeholders × Nat) := do
  assert (1 ≤ tokens.length)
  assert (istart < tokens.length)
  let t ← element tokens istart
  match t.type with
  | .mttIf =>
    let (ph, istart) ← parseConditional tokens parseTemplate istart
    return (some ph, istart)
  | .mttPh =>
    match parsePlaceholder tokens istart with
    | .error (.badName istart) =>
      .error (.syntaxError ⟨errInvalidPHName, some t.text, t.line⟩ istart)
    | .error e => .error e
    | .ok (ph, istart) => return (some ph, istart)
  | _ =>
    assert (t.type = .mttElse ∨ t.type = .mttEndif)
    return (none, istart)

def templateLoop (parsePh : Nat → Except ParseStop (Option Placeholders × Nat)) :
    (fuel : Nat) → Template → Nat → Except ParseStop (Template × Nat)
  | 0, _, _ => .error .outOfFuel
  | fuel + 1, mt, istart =>
    if istart < tokens.length then do
      let (ph, istart) ← parsePh istart
      assert (istart < tokens.length)
      let t ← element tokens istart
      if t.type = .mttElse ∨ t.type = .mttEndif then
        assert (ph = none)
        return (mt, istart)
      else
        match ph with
        | none => .error .assertion
        | some ph =>
          let (sch, istart) ← matchStringChunk tokens istart
          templateLoop parsePh fuel ⟨mt.sch ++ [sch], mt.ph.append ph⟩ istart
    else .ok (mt, istart)

/-- `mist_parse_template`; the fuel bounds the depth of the recursion. -/
def parseTemplate : (fuel : Nat) → Str → Nat → Except ParseStop (Template × Nat)
  | 0, _, _ => .error .outOfFuel
  | fuel + 1, name, istart => do
      assert (1 ≤ tokens.length)
      assert (istart < tokens.length)
      assert (nameIsBad name = false)
      let (sch, istart) ← matchStringChunk tokens istart
      templateLoop tokens (parsePhExpression tokens (parseTemplate fuel)) tokens.length
        ⟨[sch], .nil⟩ istart

/-- The second stage of `mist_template_from_string`. -/
def templateFromTokens (name : Str) : Except ParseStop Template := do
  assert (1 ≤ tokens.length)
  match parseTemplate tokens tokens.length name 0 with
  | .error (.syntaxError descr istart) =>
    assert (istart ≤ tokens.length)
    .error (.syntaxError descr istart)
  | .error e => .error e
  | .ok (mt, istart) =>
    assert (istart ≤ tokens.length)
    if istart < tokens.length then
      let t ← element tokens istart
      assert (t.type = .mttElse ∨ t.type = .mttEndif)
      .error (.syntaxError
        ⟨if t.type = .mttElse then errElseWithoutIf else errEndifWithoutIf, none, t.line⟩ istart)
    else
      return mt

end Parser
end MistEngine
end KedrAux
