import KedrAux.TemplateConverter.Store

/-!
# The part of jinja2 that converted templates use

Blocks are `<$ $>`, variables `{{ }}` and comments `<# #>`; the newline right after a block and one
newline at the end of the file are removed.  Only conditions on names, names and string constants
are read here, all other templates are left open.
-/

namespace KedrAux
namespace TemplateConverter

/-- Whitespace inside blocks and variables. -/
def isSpace (c : Char) : Bool := c = ' ' || c = '\t' || c = '\n'

/-- Other separators of lines than the newline; jinja2 turns them into newlines. -/
def isOtherLineEnd (c : Char) : Bool :=
  c = '\r' || c = '\x0b' || c = '\x0c' || c = '\x1c' || c = '\x1d' || c = '\x1e' ||
    c = '\u0085' || c = '\u2028' || c = '\u2029'

def startsIdentifier : CString → Bool
  | [] => false
  | c :: _ => c.isAlpha || c = '_'

/-- What is no variable at the beginning of an expression: the operator `not`, constants and the
template itself. -/
def reservedNames : List CString :=
  [['n', 'o', 't'], ['t', 'r', 'u', 'e'], ['f', 'a', 'l', 's', 'e'], ['n', 'o', 'n', 'e'],
    ['T', 'r', 'u', 'e'], ['F', 'a', 'l', 's', 'e'], ['N', 'o', 'n', 'e'], ['s', 'e', 'l', 'f']]

/-- Identifiers with points between them. -/
def isVariableName (name : CString) : Bool :=
  name.all isName && (name.splitOn '.').all startsIdentifier &&
    !(reservedNames.contains (name.takeWhile (· ≠ '.')))

inductive Expr where
  | name (name : CString)
  | literal (s : CString)
deriving DecidableEq

/-- What a template is made of: characters of data, variables and blocks. -/
inductive Item where
  | char (c : Char)
  | output (e : Expr)
  | ifBegin (name : CString)
  | elseMark
  | endifMark
deriving DecidableEq

/-- The name of a variable at the beginning, with what follows it. -/
def readName (s : CString) : Option (CString × CString) :=
  let name := s.takeWhile isName
  if isVariableName name then some (name, s.dropWhile isName) else none

/-- Constants without backslashes. -/
def readLiteral (s : CString) : Option (CString × CString) :=
  let literal := s.takeWhile (· ≠ quote)
  if '\\' ∈ literal then none
  else
    match s.dropWhile (· ≠ quote) with
    | [] => none
    | _ :: s => some (literal, s)

def readExpr : CString → Option (Expr × CString)
  | [] => none
  | c :: s =>
    if c = quote then (readLiteral s).map fun r => (.literal r.1, r.2)
    else (readName (c :: s)).map fun r => (.name r.1, r.2)

/-- The rest of a variable after its opening braces. -/
def readVariable (s : CString) : Option (Item × CString) := do
  let r ← readExpr (s.dropWhile isSpace)
  match r.2.dropWhile isSpace with
  | '}' :: '}' :: s => some (.output r.1, s)
  | _ => none

def readStatement (s : CString) : Option (Item × CString) :=
  let rest := s.dropWhile isName
  let word := s.takeWhile isName
  if word = ['i', 'f'] then
    if rest.head?.any isSpace then
      (readName (rest.dropWhile isSpace)).map fun r => (.ifBegin r.1, r.2)
    else none
  else if word = ['e', 'l', 's', 'e'] then some (.elseMark, rest)
  else if word = ['e', 'n', 'd', 'i', 'f'] then some (.endifMark, rest)
  else none

/-- The rest of a block after its opening sign. -/
def readBlock (s : CString) : Option (Item × CString) := do
  let r ← readStatement (s.dropWhile isSpace)
  match r.2.dropWhile isSpace with
  | '$' :: '>' :: s => some (r.1, s)
  | _ => none

/-- The first newline after a block is removed. -/
def trimNewline : CString → CString
  | '\n' :: s => s
  | s => s

/-- Items of a template that is not longer than the first argument. -/
def lexFrom : Nat → CString → Option (List Item)
  | _, [] => some []
  | 0, _ :: _ => none
  | n + 1, '<' :: '$' :: s => do
      let r ← readBlock s
      let items ← lexFrom n (trimNewline r.2)
      return r.1 :: items
  | n + 1, '{' :: '{' :: s => do
      let r ← readVariable s
      let items ← lexFrom n r.2
      return r.1 :: items
  | _ + 1, '<' :: '#' :: _ => none
  | n + 1, c :: s => do
      let items ← lexFrom n s
      return .char c :: items

inductive Node where
  | char (c : Char)
  | output (e : Expr)
  | cond (name : CString) (ifNodes elseNodes : List Node)

/-- Nodes up to `else`, `endif` or the end, with the items that are left. -/
def parseNodes : Nat → List Item → Option (List Node × List Item)
  | 0, _ => none
  | _ + 1, [] => some ([], [])
  | n + 1, .char c :: items => do
      let r ← parseNodes n items
      return (.char c :: r.1, r.2)
  | n + 1, .output e :: items => do
      let r ← parseNodes n items
      return (.output e :: r.1, r.2)
  | n + 1, .ifBegin name :: items => do
      let r ← parseNodes n items
      match r.2 with
      | .endifMark :: items => do
          let q ← parseNodes n items
          return (.cond name r.1 [] :: q.1, q.2)
      | .elseMark :: items => do
          let p ← parseNodes n items
          match p.2 with
          | .endifMark :: items => do
              let q ← parseNodes n items
              return (.cond name r.1 p.1 :: q.1, q.2)
          | _ => none
      | _ => none
  | _ + 1, items => some ([], items)

def dropLastNewline (source : CString) : CString :=
  if source.getLast? = some '\n' then source.dropLast else source

/-- The nodes of a template, when it belongs to the part that is described here. -/
def readTemplate (source : CString) : Option (List Node) :=
  if source.any isOtherLineEnd then none
  else do
    let items ← lexFrom source.length (dropLastNewline source)
    let r ← parseNodes (items.length + 1) items
    if r.2 = [] then return r.1 else none

/-- Value of a variable: its text, and whether it counts as true. -/
structure Value where
  text : CString
  holds : Bool

def Expr.text (values : CString → Value) : Expr → CString
  | .name x => (values x).text
  | .literal s => s

mutual

def renderNode (values : CString → Value) : Node → CString
  | .char c => [c]
  | .output e => e.text values
  | .cond name ifNodes elseNodes =>
    if (values name).holds then renderNodes values ifNodes else renderNodes values elseNodes

def renderNodes (values : CString → Value) : List Node → CString
  | [] => []
  | node :: nodes => renderNode values node ++ renderNodes values nodes

end

/-- A function for rendering that follows the documentation on the templates described here. -/
def Documented (render : (CString → Value) → CString → Option CString) : Prop :=
  ∀ values source nodes, readTemplate source = some nodes →
    render values source = some (renderNodes values nodes)

def renderDescribed (values : CString → Value) (source : CString) : Option CString :=
  (readTemplate source).map (renderNodes values)

theorem renderDescribed_documented : Documented renderDescribed := by
  intro values source nodes h
  rw [renderDescribed, h]
  rfl

end TemplateConverter
end KedrAux
