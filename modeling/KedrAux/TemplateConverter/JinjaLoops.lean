import KedrAux.TemplateConverter.Jinja

/-!
# Loops and joins of jinja2

Loops over lists, the condition that an iteration is not the first one, inclusions and the filter
`join`.  Blocks and variables are read word by word; what is not used for joins is left open.
-/

namespace KedrAux
namespace TemplateConverter
namespace Loops

/-- Data of a template: texts, sequences, and objects with named members. -/
inductive Data where
  | text (s : CString)
  | list (elems : List Data)
  | object (members : List (CString × Data))

/-- Variables; the last one that was bound to a name is found first. -/
abbrev Env := List (CString × Data)

namespace Data

def member (name : CString) : Data → Option Data
  | object members => members.lookup name
  | _ => none

def elements : Data → Option (List Data)
  | list elems => some elems
  | _ => none

def printed : Data → Option CString
  | text s => some s
  | _ => none

end Data

/-- Attributes that dictionaries have themselves; they hide members of the same names. -/
def dictAttributes : List CString :=
  ["clear".toList, "copy".toList, "fromkeys".toList, "get".toList, "has_key".toList,
    "items".toList, "iteritems".toList, "iterkeys".toList, "itervalues".toList, "keys".toList,
    "pop".toList, "popitem".toList, "setdefault".toList, "update".toList, "values".toList,
    "viewitems".toList, "viewkeys".toList, "viewvalues".toList]

def isHidden (name : CString) : Bool :=
  dictAttributes.contains name || ['_', '_'].isPrefixOf name

def field (object : Data) (name : CString) : Option Data :=
  if isHidden name then none else object.member name

/-- The variable of jinja2 that describes the loop around it. -/
def loopName : CString := ['l', 'o', 'o', 'p']

/-- The value of names with points between them. -/
def evalPath (env : Env) : List CString → Option Data
  | [] => none
  | name :: names =>
    if name = loopName then none else (env.lookup name).bind fun d => names.foldlM field d

def isWord (c : Char) : Bool := isName c && c ≠ '.'

def doubleQuote : Char := '\x22'

inductive Lexeme where
  | name (s : CString)
  | constant (s : CString)
  | operator (c : Char)
deriving DecidableEq

def simpleEscape (c : Char) : Option Char :=
  [('\\', '\\'), (quote, quote), (doubleQuote, doubleQuote), ('a', '\x07'), ('b', '\x08'),
    ('f', '\x0c'), ('n', '\n'), ('r', '\r'), ('t', '\t'), ('v', '\x0b')].lookup c

def longEscapes : List Char :=
  ['x', 'u', 'U', 'N', '\n', '0', '1', '2', '3', '4', '5', '6', '7']

def hexValue (c : Char) : Option Nat :=
  if '0' ≤ c ∧ c ≤ '9' then some (c.toNat - 48)
  else if 'a' ≤ c ∧ c ≤ 'f' then some (c.toNat - 87)
  else if 'A' ≤ c ∧ c ≤ 'F' then some (c.toNat - 55)
  else none

/--
The text of a constant after its opening sign, with what follows it.  A backslash that begins no
escape stands for itself; of the other long escapes only `\xHH` is read.
-/
def readConstant (delimiter : Char) : CString → Option (CString × CString)
  | [] => none
  | c :: s =>
    if c = delimiter then some ([], s)
    else if c = '\\' then
      match s with
      | [] => none
      | d :: s =>
        match simpleEscape d with
        | some e => (readConstant delimiter s).map fun r => (e :: r.1, r.2)
        | none =>
          if d = 'x' then
            match s with
            | high :: low :: s => do
                let code ← (hexValue high).bind fun h => (hexValue low).map (16 * h + ·)
                (readConstant delimiter s).map fun r => (Char.ofNat code :: r.1, r.2)
            | _ => none
          else if longEscapes.contains d then none
          else (readConstant delimiter s).map fun r => ('\\' :: d :: r.1, r.2)
    else (readConstant delimiter s).map fun r => (c :: r.1, r.2)

def operators : List Char := ['.', '|', '(', ')', ',', '=']

def readLexeme : CString → Option (Lexeme × CString)
  | [] => none
  | c :: s =>
    if isWord c then
      if startsIdentifier (c :: s) then
        some (.name ((c :: s).takeWhile isWord), (c :: s).dropWhile isWord)
      else none
    else if c = quote ∨ c = doubleQuote then
      (readConstant c s).map fun r => (.constant r.1, r.2)
    else if operators.contains c then some (.operator c, s)
    else none

/-- The lexemes up to the closing sign, with what follows it. -/
def readLexemes (closing : CString) : Nat → CString → Option (List Lexeme × CString)
  | 0, _ => none
  | n + 1, s =>
    if closing.isPrefixOf s then some ([], s.drop closing.length)
    else if s.head?.any isSpace then readLexemes closing n s.tail
    else do
      let l ← readLexeme s
      let r ← readLexemes closing n l.2
      return (l.1 :: r.1, r.2)

inductive Expr where
  | path (names : List CString)
  | constant (s : CString)
  | join (names : List CString) (d : CString) (attr : Option CString)
deriving DecidableEq

inductive Item where
  | char (c : Char)
  | output (e : Expr)
  | forBegin (target : CString) (names : List CString)
  | endforMark
  | ifNotFirst
  | endifMark
  | inclusion (name : CString)
  | setMark
deriving DecidableEq

/-- Why a template is not read: it is not described here, or it is wrong. -/
inductive Unread where
  | leftOpen
  | syntaxError
deriving DecidableEq

def readFields : List Lexeme → List CString × List Lexeme
  | .operator c :: .name x :: ls =>
    if c = '.' then (x :: (readFields ls).1, (readFields ls).2) else ([], .operator c :: .name x :: ls)
  | ls => ([], ls)

def readPath : List Lexeme → Option (List CString × List Lexeme)
  | .name x :: ls =>
    if reservedNames.contains x then none
    else some (x :: (readFields ls).1, (readFields ls).2)
  | _ => none

/-- The filter that is applied to the variable, if there is one. -/
def readFilter (names : List CString) : List Lexeme → Option Expr
  | [] => some (.path names)
  | [.operator '|', .name filter, .operator '(', .name d, .operator '=', .constant sep,
      .operator ')'] =>
      if filter = "join".toList ∧ d = ['d'] then some (.join names sep none) else none
  | [.operator '|', .name filter, .operator '(', .name d, .operator '=', .constant sep,
      .operator ',', .name a, .operator '=', .constant attr, .operator ')'] =>
      if filter = "join".toList ∧ d = ['d'] ∧ a = "attribute".toList ∧
          (attr.splitOn '.').all startsIdentifier then
        some (.join names sep (some attr))
      else none
  | _ => none

def readExpr : List Lexeme → Option Expr
  | [.constant s] => some (.constant s)
  | ls => (readPath ls).bind fun r => readFilter r.1 r.2

/-- The rest of a variable after its opening braces. -/
def readVariable (s : CString) : Except Unread (Item × CString) :=
  match readLexemes ['}', '}'] (s.length + 1) s with
  | none => .error .leftOpen
  | some r =>
    match readExpr r.1 with
    | none => .error .leftOpen
    | some e => .ok (.output e, r.2)

/-- Names that may follow an operand. -/
def operatorNames : List CString :=
  ["and".toList, "or".toList, "not".toList, "in".toList, "is".toList, "if".toList, "else".toList]

def isNotFirst (ls : List Lexeme) : Bool :=
  ls = [.name "not".toList, .name loopName, .operator '.', .name "first".toList]

/-- A condition.  Two names of variables without an operator between them are an error. -/
def readCondition : List Lexeme → Except Unread Item
  | .name word :: .operator c :: ls =>
    if word = "not".toList ∧ c = '(' then
      match readPath ls with
      | some (_, .name next :: _) =>
        if operatorNames.contains next then .error .leftOpen else .error .syntaxError
      | _ => .error .leftOpen
    else .error .leftOpen
  | ls => if isNotFirst ls then .ok .ifNotFirst else .error .leftOpen

/-- Names that may be assigned. -/
def isTarget (name : CString) : Bool := !reservedNames.contains name && name ≠ loopName

/-- The beginning of a loop.  The word `in` ends the target, even if nothing stands before it, and
the word `recursive` ends the list. -/
def readFor : List Lexeme → Except Unread Item
  | .name target :: .name word :: ls =>
    if target = "in".toList ∨
        word = "in".toList ∧ ls.head? = some (.name "recursive".toList) then
      .error .syntaxError
    else
      match readPath ls with
      | some (names, []) =>
        if word = "in".toList ∧ isTarget target then .ok (.forBegin target names)
        else .error .leftOpen
      | _ => .error .leftOpen
  | _ => .error .leftOpen

def readSet : List Lexeme → Except Unread Item
  | .name target :: .operator c :: ls =>
    match readPath ls with
    | some (_, []) => if c = '=' ∧ isTarget target then .ok .setMark else .error .leftOpen
    | _ => .error .leftOpen
  | _ => .error .leftOpen

def readInclude : List Lexeme → Except Unread Item
  | [.constant name] => .ok (.inclusion name)
  | _ => .error .leftOpen

def readMark (mark : Item) : List Lexeme → Except Unread Item
  | [] => .ok mark
  | _ => .error .leftOpen

def readStatement : List Lexeme → Except Unread Item
  | .name word :: ls =>
    if word = "for".toList then readFor ls
    else if word = "endfor".toList then readMark .endforMark ls
    else if word = "if".toList then readCondition ls
    else if word = "endif".toList then readMark .endifMark ls
    else if word = "include".toList then readInclude ls
    else if word = "set".toList then readSet ls
    else .error .leftOpen
  | _ => .error .leftOpen

/-- The rest of a block after its opening sign. -/
def readBlock (s : CString) : Except Unread (Item × CString) :=
  match readLexemes ['$', '>'] (s.length + 1) s with
  | none => .error .leftOpen
  | some r => (readStatement r.1).map fun item => (item, r.2)

/-- Items of a template that is not longer than the first argument, up to the first error. -/
def lexFrom : Nat → CString → Except Unread (List Item)
  | _, [] => .ok []
  | 0, _ :: _ => .error .leftOpen
  | n + 1, '<' :: '$' :: s => do
      let r ← readBlock s
      let items ← lexFrom n (trimNewline r.2)
      return r.1 :: items
  | n + 1, '{' :: '{' :: s => do
      let r ← readVariable s
      let items ← lexFrom n r.2
      return r.1 :: items
  | _ + 1, '<' :: '#' :: _ => .error .leftOpen
  | n + 1, c :: s => do
      let items ← lexFrom n s
      return .char c :: items

inductive Node where
  | char (c : Char)
  | output (e : Expr)
  | loop (target : CString) (names : List CString) (body : List Node)
  | notFirst (body : List Node)
  | inclusion (name : CString)

/-- Nodes up to the end of a block or of the items, with the items that are left. -/
def parseNodes : Nat → List Item → Option (List Node × List Item)
  | 0, _ => none
  | _ + 1, [] => some ([], [])
  | n + 1, .char c :: items => do
      let r ← parseNodes n items
      return (.char c :: r.1, r.2)
  | n + 1, .output e :: items => do
      let r ← parseNodes n items
      return (.output e :: r.1, r.2)
  | n + 1, .inclusion name :: items => do
      let r ← parseNodes n items
      return (.inclusion name :: r.1, r.2)
  | n + 1, .forBegin target names :: items => do
      let r ← parseNodes n items
      match r.2 with
      | .endforMark :: items => do
          let q ← parseNodes n items
          return (.loop target names r.1 :: q.1, q.2)
      | _ => none
  | n + 1, .ifNotFirst :: items => do
      let r ← parseNodes n items
      match r.2 with
      | .endifMark :: items => do
          let q ← parseNodes n items
          return (.notFirst r.1 :: q.1, q.2)
      | _ => none
  | _ + 1, items => some ([], items)

def readTemplate (source : CString) : Except Unread (List Node) := do
  let items ← lexFrom source.length (dropLastNewline source)
  if source.any isOtherLineEnd then .error .leftOpen
  else
    match parseNodes (items.length + 1) items with
    | some (nodes, []) => .ok nodes
    | _ => .error .leftOpen

def attributeFields : Option CString → List CString
  | none => []
  | some attr => attr.splitOn '.'

def Expr.text (env : Env) : Expr → Option CString
  | path names => (evalPath env names).bind Data.printed
  | constant s => some s
  | join names d attr => do
      let elems ← (evalPath env names).bind Data.elements
      let texts ← elems.mapM fun e => ((attributeFields attr).foldlM field e).bind Data.printed
      return d.intercalate texts

/-- One element after another; the first iteration is marked. -/
def renderEach (body : Bool → Data → Option CString) : Bool → List Data → Option CString
  | _, [] => some []
  | first, e :: elems => do
      let text ← body first e
      let texts ← renderEach body false elems
      return text ++ texts

variable (includes : CString → Env → CString)

mutual

/-- The text of a node; `first` belongs to the loop around it. -/
def renderNode (env : Env) (first : Option Bool) : Node → Option CString
  | .char c => some [c]
  | .output e => e.text env
  | .loop target names body => do
      let elems ← (evalPath env names).bind Data.elements
      renderEach (fun first e => renderNodes ((target, e) :: env) (some first) body) true elems
  | .notFirst body =>
    first.bind fun isFirst => if isFirst then some [] else renderNodes env first body
  | .inclusion name => some (includes name env)

def renderNodes (env : Env) (first : Option Bool) : List Node → Option CString
  | [] => some []
  | node :: nodes => do
      let text ← renderNode env first node
      let texts ← renderNodes env first nodes
      return text ++ texts

end

/-- A function for rendering that follows the documentation on the templates described here. -/
structure Documented (render : (CString → Env → CString) → Env → CString → Option CString) :
    Prop where
  rendered : ∀ includes env source nodes text,
    readTemplate source = .ok nodes → renderNodes includes env none nodes = some text →
      render includes env source = some text
  rejected : ∀ includes env source,
    readTemplate source = .error .syntaxError → render includes env source = none

def renderDescribed (env : Env) (source : CString) : Option CString :=
  match readTemplate source with
  | .ok nodes => renderNodes includes env none nodes
  | .error _ => none

theorem renderDescribed_documented : Documented renderDescribed where
  rendered includes env source nodes text hread hrender := by
    rw [renderDescribed, hread]
    exact hrender
  rejected includes env source hread := by
    rw [renderDescribed, hread]

end Loops
end TemplateConverter
end KedrAux
