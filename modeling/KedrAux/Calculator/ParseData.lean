import Mathlib.Tactic

/-!
# The expression parser of the calculator

The parser of `calculator.c`.  A string is a list of bytes that ends with a null character;
a pointer into it is what is left of this list, and nothing can be read behind the end.

The integers of the calculator are a parameter.  Every `kmalloc` may fail; memory that is
freed on errors is left out.
-/

namespace KedrAux
namespace Calculator

abbrev Byte := UInt8

/-- What must not happen in the parser. -/
inductive Fault where
  /-- A failed `BUG_ON`. -/
  | bug
  /-- A character behind the null character is read. -/
  | overrun
  /-- The parser does not come to an end. -/
  | endless
deriving DecidableEq

/-- `isspace` of the kernel; it is for ISO 8859-1. -/
def isspace (c : Byte) : Bool :=
  (9 ≤ c && c ≤ 13) || c == 32 || c == 160

def isdigit (c : Byte) : Bool :=
  48 ≤ c && c ≤ 57

def isupper (c : Byte) : Bool :=
  (65 ≤ c && c ≤ 90) || (192 ≤ c && c ≤ 222 && c != 215)

def islower (c : Byte) : Bool :=
  (97 ≤ c && c ≤ 122) || (223 ≤ c && c != 247)

def isalpha (c : Byte) : Bool :=
  isupper c || islower c

def isalnum (c : Byte) : Bool :=
  isalpha c || isdigit c

def isxdigit (c : Byte) : Bool :=
  isdigit c || (65 ≤ c && c ≤ 70) || (97 ≤ c && c ≤ 102)

def byte (c : Char) : Byte :=
  c.toNat.toUInt8

inductive UnaryType where
  | unaryPlus
  | unaryMinus
  | binaryNot
  | logicalNot
deriving DecidableEq

inductive BinaryType where
  | multiply
  | divide
  | rest
  | plus
  | minus
  | leftShift
  | rightShift
  | less
  | greater
  | lessEqual
  | greaterEqual
  | equal
  | inequal
  | binaryAnd
  | binaryXor
  | binaryOr
  | logicalAnd
  | logicalOr
deriving DecidableEq

inductive Essence (V : Type) where
  | value (value : V)
  | var (index : Nat)
  | weakVar (index : Nat)
  | unary (type : UnaryType) (op : Essence V)
  | binary (type : BinaryType) (op1 op2 : Essence V)
  | cond (op1 op2 op3 : Essence V)
deriving DecidableEq

-- The numbers of `enum priorities`.
def priorityMin : Nat := 0
def priorityCondRight : Nat := 1
def priorityCondLeft : Nat := 2

def BinaryType.priorityLeft : BinaryType → Nat
  | .logicalOr => 3
  | .logicalAnd => 5
  | .binaryOr => 7
  | .binaryXor => 9
  | .binaryAnd => 11
  | .equal | .inequal => 13
  | .less | .greater | .lessEqual | .greaterEqual => 15
  | .leftShift | .rightShift => 17
  | .plus | .minus => 19
  | .multiply | .divide | .rest => 21

def BinaryType.priorityRight : BinaryType → Nat
  | .logicalOr => 4
  | .logicalAnd => 6
  | .binaryOr => 8
  | .binaryXor => 10
  | .binaryAnd => 12
  | .equal | .inequal => 14
  | .less | .greater | .lessEqual | .greaterEqual => 16
  | .leftShift | .rightShift => 18
  | .plus | .minus => 20
  | .multiply | .divide | .rest => 22

def UnaryType.priority : UnaryType → Nat
  | .unaryPlus | .unaryMinus => 23
  | .logicalNot | .binaryNot => 24

/-- `enum token_type`, with the value or the index of a token. -/
inductive Token (V : Type) where
  | error
  | start
  | eof
  | value (value : V)
  | constant (value : V)
  | var (index : Nat)
  | weakVar (index : Nat)
  | openParenthesis
  | closeParenthesis
  | logicalNot
  | binaryNot
  | operation (type : BinaryType)
  | condFirst
  | condSecond
deriving DecidableEq

/-- The names that are known to the parser, and the values of the constants. -/
structure Names (V : Type) where
  constVec : List (List (List Byte × V))
  varNames : List (List Byte)
  weakVars : List (List Byte)

variable {V : Type}

/-- `parse_data_search_const`; the name and the names in the list have no null characters. -/
def Names.searchConst (names : Names V) (name : List Byte) : Option V :=
  (names.constVec.flatten.find? fun constDef => constDef.1 == name).map Prod.snd

def Names.searchVariable (names : Names V) (name : List Byte) : Option Nat :=
  names.varNames.findIdx? fun varName => varName == name

def Names.searchWeakVariable (names : Names V) (name : List Byte) : Option Nat :=
  names.weakVars.findIdx? fun varName => varName == name

def Names.token (names : Names V) (name : List Byte) : Token V :=
  match names.searchConst name with
  | some value => .constant value
  | none =>
    match names.searchVariable name with
    | some index => .var index
    | none =>
      match names.searchWeakVariable name with
      | some index => .weakVar index
      | none => .error

def readChar : List Byte → Except Fault Byte
  | [] => .error .overrun
  | c :: _ => .ok c

/-- The characters of a class at a pointer, and what is after them. -/
def scanWhile (p : Byte → Bool) : List Byte → Except Fault (List Byte × List Byte)
  | [] => .error .overrun
  | c :: cs =>
    if p c then do
      let (scanned, rest) ← scanWhile p cs
      return (c :: scanned, rest)
    else .ok ([], c :: cs)

section Numbers

variable [Semiring V]

/-- The value of the digits at a pointer, and the pointer after them; `none` is an error. -/
def parseNumber (isDigit : Byte → Bool) (digitToValue : Byte → Nat) (base : V)
    (number : List Byte) : Except Fault (Option (V × List Byte)) := do
  let c ← readChar number
  if !isDigit c then return none
  else
    let (digits, numberEnd) ← scanWhile isDigit number.tail
    return some (digits.foldl (fun value d => value * base + (digitToValue d : V))
      (digitToValue c : V), numberEnd)

def parseNumber10 (number : List Byte) : Except Fault (Option (V × List Byte)) :=
  parseNumber isdigit (fun digit => digit.toNat - 48) 10 number

def hdigitToValue (digit : Byte) : Nat :=
  if isdigit digit then digit.toNat - 48
  else digit.toNat - (if islower digit then 97 else 65) + 10

def parseNumber16 (number : List Byte) : Except Fault (Option (V × List Byte)) :=
  parseNumber isxdigit hdigitToValue 16 number

/-- `RESOLVE_TOKEN2`; the pointer is after the first character. -/
def resolveToken2 (rest : List Byte) (symbol : Char) (type0 type1 : Token V) :
    Except Fault (Token V × List Byte) := do
  let c ← readChar rest
  return if c == byte symbol then (type1, rest.tail) else (type0, rest)

def resolveToken3 (rest : List Byte) (symbolA symbolB : Char) (type0 type1A type1B : Token V) :
    Except Fault (Token V × List Byte) := do
  let c ← readChar rest
  return if c == byte symbolA then (type1A, rest.tail)
    else if c == byte symbolB then (type1B, rest.tail)
    else (type0, rest)

/-- The token that starts with a special symbol, if it is one symbol long. -/
def oneSymbolToken (c : Byte) : Option (Token V) :=
  if c == byte '(' then some .openParenthesis
  else if c == byte ')' then some .closeParenthesis
  else if c == byte '~' then some .binaryNot
  else if c == byte '*' then some (.operation .multiply)
  else if c == byte '/' then some (.operation .divide)
  else if c == byte '%' then some (.operation .rest)
  else if c == byte '+' then some (.operation .plus)
  else if c == byte '-' then some (.operation .minus)
  else if c == byte '^' then some (.operation .binaryXor)
  else if c == byte '?' then some .condFirst
  else if c == byte ':' then some .condSecond
  else if c == byte '=' then some (.operation .equal)
  else none

def symbolToken (expr : List Byte) (ch : Byte) : Except Fault (Token V × List Byte) :=
  if ch == 0 then .ok (.eof, expr)
  else
    match oneSymbolToken ch with
    | some token => .ok (token, expr.tail)
    | none =>
      if ch == byte '!' then resolveToken2 expr.tail '=' .logicalNot (.operation .inequal)
      else if ch == byte '|' then
        resolveToken2 expr.tail '|' (.operation .binaryOr) (.operation .logicalOr)
      else if ch == byte '&' then
        resolveToken2 expr.tail '&' (.operation .binaryAnd) (.operation .logicalAnd)
      else if ch == byte '>' then
        resolveToken3 expr.tail '>' '=' (.operation .greater) (.operation .rightShift)
          (.operation .greaterEqual)
      else if ch == byte '<' then
        resolveToken3 expr.tail '<' '=' (.operation .less) (.operation .leftShift)
          (.operation .lessEqual)
      else .ok (.error, expr)

/-- The token for a number that was read, or for an error. -/
def valueToken (expr : List Byte) : Option (V × List Byte) → Token V × List Byte
  | none => (.error, expr)
  | some (value, numberEnd) => (.value value, numberEnd)

def numberToken (expr : List Byte) (ch : Byte) : Except Fault (Token V × List Byte) := do
  if ch == byte '0' then
    let c ← readChar expr.tail
    if c == byte 'x' || c == byte 'X' then
      return valueToken expr (← parseNumber16 expr.tail.tail)
    else return valueToken expr (← parseNumber10 expr)
  else return valueToken expr (← parseNumber10 expr)

def nextToken (names : Names V) (expr : List Byte) : Except Fault (Token V × List Byte) := do
  let (_, expr) ← scanWhile isspace expr
  let ch ← readChar expr
  if isalpha ch || ch == byte '_' then
    let (rest, nameEnd) ← scanWhile (fun c => isalnum c || c == byte '_') expr.tail
    return (names.token (ch :: rest), nameEnd)
  else if isdigit ch then numberToken expr ch
  else symbolToken expr ch

end Numbers

/-- `struct parse_data`; the number of calls of `kmalloc` is counted in addition. -/
structure ParseData (V : Type) where
  expr : List Byte
  currentToken : Token V
  kmallocs : Nat

section Parse

variable [Semiring V] (names : Names V) (alloc : Nat → Bool)

def parseDataNextToken (data : ParseData V) : Except Fault (ParseData V) :=
  match data.currentToken with
  | .error => .error .bug
  | .eof => .error .bug
  | _ => do
      let (token, expr) ← nextToken names data.expr
      return { data with expr := expr, currentToken := token }

/-- `calc_essence_alloc`, with the essence to be filled. -/
def createEssence (data : ParseData V) (essence : Essence V) : Option (Essence V) × ParseData V :=
  (if alloc data.kmallocs then some essence else none, { data with kmallocs := data.kmallocs + 1 })

/-- A leaf is created, and the next token is read if there is one. -/
def parseLeaf (data : ParseData V) (essence : Essence V) :
    Except Fault (Option (Essence V) × ParseData V) := do
  match createEssence alloc data essence with
  | (none, data) => return (none, data)
  | (some result, data) => return (some result, ← parseDataNextToken names data)

/-- `UNARY_OP` after its operand is parsed. -/
def unaryOp (type : UnaryType) :
    Option (Essence V) × ParseData V → Option (Essence V) × ParseData V
  | (none, data) => (none, data)
  | (some op, data) => createEssence alloc data (.unary type op)

def closeParenthesis :
    Option (Essence V) × ParseData V → Except Fault (Option (Essence V) × ParseData V)
  | (none, data) => .ok (none, data)
  | (some result, data) =>
    match data.currentToken with
    | .closeParenthesis => do return (some result, ← parseDataNextToken names data)
    | _ => .ok (none, data)

mutual

/-- `parse_data_parse`; `none` is `NULL`. -/
def parseDataParse : Nat → ParseData V → Nat → Except Fault (Option (Essence V) × ParseData V)
  | 0, _, _ => .error .endless
  | fuel + 1, data, priority => do
      let data ← parseDataNextToken names data
      match ← parseOperand fuel data with
      | (none, data) => return (none, data)
      | (some result, data) => parseOperations fuel data priority result

def parseOperand : Nat → ParseData V → Except Fault (Option (Essence V) × ParseData V)
  | 0, _ => .error .endless
  | fuel + 1, data =>
    match data.currentToken with
    | .value value => parseLeaf names alloc data (.value value)
    | .constant value => parseLeaf names alloc data (.value value)
    | .var index => parseLeaf names alloc data (.var index)
    | .weakVar index => parseLeaf names alloc data (.weakVar index)
    | .openParenthesis => do
        closeParenthesis names (← parseDataParse fuel data priorityMin)
    -- unary operations without left operand
    | .operation .minus => do
        return unaryOp alloc .unaryMinus (← parseDataParse fuel data UnaryType.unaryMinus.priority)
    | .operation .plus => do
        return unaryOp alloc .unaryPlus (← parseDataParse fuel data UnaryType.unaryPlus.priority)
    | .logicalNot => do
        return unaryOp alloc .logicalNot (← parseDataParse fuel data UnaryType.logicalNot.priority)
    | .binaryNot => do
        return unaryOp alloc .binaryNot (← parseDataParse fuel data UnaryType.binaryNot.priority)
    | _ => .ok (none, data)

def parseOperations : Nat → ParseData V → Nat → Essence V →
    Except Fault (Option (Essence V) × ParseData V)
  | 0, _, _, _ => .error .endless
  | fuel + 1, data, priority, result =>
    match data.currentToken with
    | .error => .ok (none, data)
    -- delimiters
    | .eof => .ok (some result, data)
    | .closeParenthesis => .ok (some result, data)
    | .condSecond => .ok (some result, data)
    -- operations with two operands
    | .operation type =>
      if priority > type.priorityLeft then .ok (some result, data)
      else do
        match ← parseDataParse fuel data type.priorityRight with
        | (none, data) => return (none, data)
        | (some op2, data) =>
          match createEssence alloc data (.binary type result op2) with
          | (none, data) => return (none, data)
          | (some result, data) => parseOperations fuel data priority result
    | .condFirst =>
      if priority > priorityCondLeft then .ok (some result, data)
      else do
        match ← parseDataParse fuel data priorityMin with
        | (none, data) => return (none, data)
        | (some op2, data) =>
          -- a token other than ':' is only reported
          match ← parseDataParse fuel data priorityCondRight with
          | (none, data) => return (none, data)
          | (some op3, data) =>
            match createEssence alloc data (.cond result op2 op3) with
            | (none, data) => return (none, data)
            | (some result, data) => parseOperations fuel data priority result
    | _ => .ok (none, data)

end

/-- A string in memory, without its null character. -/
abbrev CString := { s : List Byte // 0 ∉ s }

def CString.chars (s : CString) : List Byte :=
  s.val ++ [0]

/-- `kedr_calc_parse`: the top essence, or `none` for `NULL`. -/
def kedrCalcParse (s : CString) : Except Fault (Option (Essence V)) :=
  if !alloc 0 then .ok none
  else do
    let (topEssence, data) ←
      parseDataParse names alloc (2 * s.chars.length) ⟨s.chars, .start, 1⟩ priorityMin
    match topEssence, data.currentToken with
    | some topEssence, .eof => return some topEssence
    | _, _ => return none

end Parse

end Calculator
end KedrAux
