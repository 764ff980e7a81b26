import Mathlib.Data.List.Basic

/-!
# Attributes of converted data files

A data file is a sequence of parameters with dotted names; they are printed as nested attributes.
An attribute is processed up to the first token that does not belong to it; that token is handed
back to the scanner.
-/

namespace KedrAux
namespace DataConverter

abbrev CString := List Char

inductive Token where
  | empty
  | comment (comment : CString)
  | group
  /-- The name is the one after the mapping of names. -/
  | param (paramName paramValue : CString)
deriving DecidableEq

/-- Definition of the conversion, without the mapping of names. -/
structure Definitions where
  groupParam : Option CString
  sequences : List CString
  groupParam_ne_nil : ∀ group ∈ groupParam, group ≠ []
  sequences_ne_nil : [] ∉ sequences

inductive ParseError where
  /-- Data-file uses [group] section, but [group_param] section in conversion definitions file is
  missed(or empty). -/
  | noGroupParam
  /-- Parameter has both simple and complex values. This is incorrect. -/
  | simpleAndComplex (fullName : CString)
  /-- Once entered, group section should not be exited -/
  | groupExited
  /-- New group sequence element is started only by [group] line -/
  | elementWithoutGroup
  /-- Another attribute is defined between several attribute definitions.
  Cannot convert given data-file. -/
  | anotherBetween (attributeName : CString)
deriving DecidableEq

inductive Failure where
  | parse (e : ParseError)
  | assertionError
  | typeError
  | attributeError
  /-- The bound of the model is reached. -/
  | endless
deriving DecidableEq

/-- What is written to the output; indentations are numbers of spaces. -/
inductive Output where
  /-- A newline for an empty line. -/
  | emptyLine
  /-- `#`, the comment and a newline. -/
  | comment (comment : CString)
  /-- The name of the group, a colon and a newline. -/
  | groupName (name : CString)
  /-- The name of an attribute and a colon, after the indentation; for an element of a sequence the
  last two spaces are `- `. -/
  | attributeName (elem : Bool) (indent : Nat) (name : CString)
  /-- The newline after the name of an attribute (for the group there has been one already). -/
  | lineEnd
  /-- The value after the name of its attribute, by `print_attribute_value`. -/
  | value (value : CString) (indent : Nat)
  /-- The value as an element of a sequence. -/
  | elemValue (elemIndent : Nat) (value : CString) (indent : Nat)
deriving DecidableEq

structure DataScanner where
  /-- What the rest of the file consists of. -/
  lines : List Token
  lastToken : Option Token
  tokenConsumed : Bool
deriving DecidableEq

structure Conversion where
  scanner : DataScanner
  output : List Output
deriving DecidableEq

abbrev ConvertM := StateT Conversion (Except Failure)

def DataScanner.init (tokens : List Token) : DataScanner := ⟨tokens, none, true⟩

section Scanner

variable (defs : Definitions)

def doGetToken : ConvertM (Option Token) := do
  let s ← get
  match s.scanner.lines with
  | [] => return none
  | token :: lines =>
    if token = .group ∧ defs.groupParam = none then throw (.parse .noGroupParam)
    else
      set { s with scanner := { s.scanner with lines } }
      return some token

def getToken : ConvertM (Option Token) := do
  let s ← get
  if s.scanner.tokenConsumed then
    let token ← doGetToken defs
    let s ← get
    set { s with scanner := { s.scanner with lastToken := token } }
    return token
  else
    set { s with scanner := { s.scanner with tokenConsumed := true } }
    return s.scanner.lastToken

/-- Undo the last `getToken`. -/
def ungetToken : ConvertM Unit := do
  let s ← get
  if s.scanner.tokenConsumed then
    set { s with scanner := { s.scanner with tokenConsumed := false } }
  else throw .assertionError

def write (output : Output) : ConvertM Unit := do
  let s ← get
  set { s with output := s.output ++ [output] }

end Scanner

/-- The local variables of `process_attribute`; the attribute without a name is the document. -/
structure Attribute where
  name : Option CString
  fullName : CString
  subPrefix : CString
  isGroup : Bool
  isSequence : Bool
  indent : Nat

section Attributes

variable (defs : Definitions)

def attributeOf (name : Option CString) (parentPrefix : CString) (indent : Nat) : Attribute :=
  let fullName := match name with
    | none => []
    | some name => parentPrefix ++ name
  let subPrefix := match name with
    | none => []
    | some name => parentPrefix ++ name ++ ['.']
  let isGroup : Bool := defs.groupParam = some fullName
  ⟨name, fullName, subPrefix, isGroup, isGroup || fullName ∈ defs.sequences, indent⟩

/-- The set of attributes before the name is added to it. -/
def checkAttribute (attr : Attribute) (attributes : List CString) (attributeName : CString) :
    ConvertM (List CString) :=
  if attributeName ∈ attributes then
    if attr.isGroup then throw (.parse .elementWithoutGroup)
    else if attr.isSequence then return []
    else throw (.parse (.anotherBetween attributeName))
  else return attributes

/-- The loop over the tokens; `attributes` is the set of attributes that were found. -/
def processTokens (process : Option CString → CString → Nat → ConvertM Unit) (attr : Attribute) :
    (fuel : Nat) → (attributes : List CString) → ConvertM Unit
  | 0, _ => throw .endless
  | fuel + 1, attributes => do
      match ← getToken defs with
      | none => return ()
      | some .empty =>
        write .emptyLine
        processTokens process attr fuel attributes
      | some (.comment comment) =>
        write (.comment comment)
        processTokens process attr fuel attributes
      | some .group =>
        if attr.name = none then
          -- start group attribute
          match defs.groupParam with
          | none => throw .typeError
          | some groupParam =>
            write (.groupName groupParam)
            process (some groupParam) attr.subPrefix 4
            processTokens process attr fuel attributes
        else if attr.isGroup then processTokens process attr fuel []
        else ungetToken
      | some (.param paramName paramValue) =>
        if paramName = attr.fullName then
          if !attr.isSequence then throw (.parse (.simpleAndComplex attr.fullName))
          else
            write (.elemValue attr.indent paramValue (attr.indent + 4))
            processTokens process attr fuel attributes
        else if !attr.subPrefix.isPrefixOf paramName then
          -- parameter for another section
          if attr.isGroup then throw (.parse .groupExited)
          else ungetToken
        else
          let attributeName := (paramName.drop attr.subPrefix.length).takeWhile (· ≠ '.')
          if attributeName = [] then throw .attributeError
          else
            let attributes ← checkAttribute attr attributes attributeName
            write (.attributeName (attr.isSequence && attributes.isEmpty) attr.indent attributeName)
            ungetToken
            process (some attributeName) attr.subPrefix (attr.indent + 4)
            processTokens process attr fuel (attributeName :: attributes)

/-- The fast path is for an attribute which has only one string value. -/
def processAttribute :
    (fuel : Nat) → (name : Option CString) → (parentPrefix : CString) → (indent : Nat) → ConvertM Unit
  | 0, _, _, _ => throw .endless
  | fuel + 1, name, parentPrefix, indent => do
      let attr := attributeOf defs name parentPrefix indent
      if name = none then processTokens defs (processAttribute fuel) attr fuel []
      else if attr.isSequence then
        write .lineEnd
        processTokens defs (processAttribute fuel) attr fuel []
      else
        match ← getToken defs with
        | some (.param paramName paramValue) =>
          if paramName = attr.fullName then write (.value paramValue (indent + 4))
          else
            ungetToken
            write .lineEnd
            processTokens defs (processAttribute fuel) attr fuel []
        | _ =>
          ungetToken
          write .lineEnd
          processTokens defs (processAttribute fuel) attr fuel []

def convert (fuel : Nat) (tokens : List Token) : Except Failure (List Output) := do
  let r ← (processAttribute defs fuel none [] 0).run ⟨.init tokens, []⟩
  return r.2.output

end Attributes

end DataConverter
end KedrAux
