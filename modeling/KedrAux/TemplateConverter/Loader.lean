import KedrAux.TemplateConverter.Scanner

/-!
# Loader of kedr_gen templates

The tokens of a template are loaded into a tree.  The recursive loader stops at the directives
`else` and `endif` and gives them back to its caller.
-/

namespace KedrAux
namespace TemplateConverter

structure Template where
  templateName : CString
  baseContext : CString
deriving DecidableEq

/-- Reference to a parameter or to a template. -/
inductive ElemRef where
  | paramRef (paramName : CString) (position : Position) (value : CString)
  | templateRef (template : Template) (position : Position) (value : CString)
deriving DecidableEq

def ElemRef.position : ElemRef → Position
  | paramRef _ position _ => position
  | templateRef _ position _ => position

def ElemRef.value : ElemRef → CString
  | paramRef _ _ value => value
  | templateRef _ _ value => value

/-- Return base context for template and parameter name for parameter. -/
def ElemRef.getBaseContext : ElemRef → CString
  | paramRef paramName _ _ => paramName
  | templateRef template _ _ => template.baseContext

/-- Element of the tree.  The sequence of `else` may be absent. -/
inductive ASTElem where
  | text (position : Position) (value text : CString)
  | ref (elemRef : ElemRef) (isJoin : Bool) (joinStr : Option CString)
  | ifEndif (elemRef : ElemRef) (isConcat : Bool) (ifSequence : List ASTElem)
  | ifElse (elemRef : ElemRef) (isConcat : Bool) (ifSequence elseSequence : List ASTElem)

def parentParam (paramName : CString) : CString :=
  ((paramName.reverse.dropWhile (· ≠ '.')).drop 1).reverse

/-- Check whether paramName is (indirect) subparameter of parent. -/
def isSubparam (paramName parent : CString) : Bool :=
  if parent = [] then true else (parent ++ ['.']).isPrefixOf paramName

/-- The methods that are given by the kind of the template; `getTemplate` may end the program. -/
structure Methods where
  getTemplate : CString → Option (Option Template)
  mapParam : CString → CString
  getSequenceIterator : CString → Option CString

structure Contexts where
  joinContext : CString
  baseContext : CString
deriving DecidableEq

variable (methods : Methods)

/-- The most inner sequence that contains the parameter; `n` is at least the length of its name. -/
def sequenceContext : Nat → CString → CString
  | 0, context => context
  | n + 1, context =>
    if context = [] then context
    else if (methods.getSequenceIterator context).isSome then context
    else sequenceContext n (parentParam context)

def wrongReferenceMessage (contexts : Contexts) (context : CString) : CString :=
  if !isSubparam context contexts.joinContext then
    "It is incompatible with base template's join context '".toList ++ contexts.joinContext ++
      ".".toList
  else if isSubparam contexts.baseContext context then
    "It requires additional adjustment of template's base context '".toList ++
      contexts.baseContext ++ "', which already differs from join '".toList ++
      contexts.joinContext ++ "'.".toList
  else if isSubparam context contexts.baseContext then
    "It requires context, differed from template's join one '".toList ++ contexts.joinContext ++
      "', but some other reference in the template require stronger template's base context '".toList
      ++ contexts.baseContext ++ "'.".toList
  else
    "It is incompatible with base template's context '".toList ++ contexts.baseContext ++
      "'.".toList

/-- Adjust base context for accept given parameter as single-valued. -/
def adjustBaseContext (contexts : Contexts) (elemRef : ElemRef) : Except LoadError Contexts :=
  let context :=
    sequenceContext methods elemRef.getBaseContext.length elemRef.getBaseContext
  if context = [] ∨ context = contexts.baseContext then .ok contexts
  else if contexts.baseContext = contexts.joinContext ∧ isSubparam context contexts.baseContext then
    .ok { contexts with baseContext := context }
  else if contexts.baseContext ≠ contexts.joinContext ∧ context = contexts.joinContext then
    .ok contexts
  else .error (.wrongReference (wrongReferenceMessage contexts context))

/-- The scanner with its last token, which may be given back. -/
structure Loader where
  scanner : Scanner
  currentToken : Option Token
  isTokenConsumed : Bool
deriving DecidableEq

def Loader.getToken (loader : Loader) : Except LoadError (Option Token × Loader) :=
  if !loader.isTokenConsumed then .ok (loader.currentToken, { loader with isTokenConsumed := true })
  else do
    let (token, scanner) ← loader.scanner.token
    return (token, { loader with scanner, currentToken := token })

def Loader.ungetToken (loader : Loader) : Except LoadError Loader :=
  if loader.isTokenConsumed then .ok { loader with isTokenConsumed := false }
  else .error .assertionError

def Loader.parseError {α : Type} (loader : Loader) (message : String) : Except LoadError α :=
  .error (.parseError loader.currentToken message.toList)

/-- Convert the string of `join` into text it represents. -/
def joinStrToText : CString → CString
  | '\\' :: 'n' :: s => '\n' :: joinStrToText s
  | '\\' :: 't' :: s => '\t' :: joinStrToText s
  | '\\' :: '\\' :: s => '\\' :: joinStrToText s
  | c :: s => c :: joinStrToText s
  | [] => []

def getElemRef (refName : CString) (position : Position) (value : CString) :
    Except LoadError ElemRef :=
  match methods.getTemplate refName with
  | none => .error .noTemplate
  | some (some template) => .ok (.templateRef template position value)
  | some none => .ok (.paramRef (methods.mapParam refName) position value)

/-- References without `join` and `concat` are single-valued. -/
def adjustUnless (isJoin : Bool) (contexts : Contexts) (elemRef : ElemRef) :
    Except LoadError Contexts :=
  if isJoin then .ok contexts else adjustBaseContext methods contexts elemRef

/-- Condition of `if`, and whether it is a concatenation. -/
def loadCondition (contexts : Contexts) (token : Token) :
    Except LoadError (ElemRef × Bool × Contexts) := do
  let isConcat := (token.group .concat).isSome
  let refName := (if isConcat then token.group .nameIfC else token.group .nameIf).getD []
  let elemRef ← getElemRef methods refName token.position token.value
  let contexts ← adjustUnless methods isConcat contexts elemRef
  return (elemRef, isConcat, contexts)

def loadRef (contexts : Contexts) (token : Token) : Except LoadError (ASTElem × Contexts) := do
  let refName := (token.group .nameRef).getD []
  let isJoin := (token.group .join).isSome
  let joinStr :=
    if isJoin then some (((token.group .joinStr).map joinStrToText).getD []) else none
  let elemRef ← getElemRef methods refName token.position token.value
  let contexts ← adjustUnless methods isJoin contexts elemRef
  return (.ref elemRef isJoin joinStr, contexts)

def tokenName (token : Option Token) : Except LoadError Sentence :=
  match token with
  | none => .error .attributeError
  | some token => .ok token.name

def loadEndif (loader : Loader) : Except LoadError Loader := do
  let (token, loader) ← loader.getToken
  let name ← tokenName token
  if name ≠ .endifSentence then loader.parseError "Expected <$endif$>" else return loader

/-- Sequences of an `if` with the given condition; `loadSequence` is the loader of sequences. -/
def loadIf
    (loadSequence : Contexts → Loader → Except LoadError (List ASTElem × Contexts × Loader))
    (elemRef : ElemRef) (isConcat : Bool) (contexts : Contexts) (loader : Loader) :
    Except LoadError (ASTElem × Contexts × Loader) := do
  let (ifSequence, contexts, loader) ← loadSequence contexts loader
  let (token, loader) ← loader.getToken
  let name ← tokenName token
  if name = .elseSentence then
    let (elseSequence, contexts, loader) ← loadSequence contexts loader
    let loader ← loadEndif loader
    return (.ifElse elemRef isConcat ifSequence elseSequence, contexts, loader)
  else
    let loader ← loader.ungetToken
    let loader ← loadEndif loader
    return (.ifEndif elemRef isConcat ifSequence, contexts, loader)

/-- The loop over the tokens, with the number of its rounds as a bound. -/
def loadSequence : Nat → Contexts → Loader → Except LoadError (List ASTElem × Contexts × Loader)
  | 0, _, _ => .error .outOfFuel
  | n + 1, contexts, loader => do
      let (token, loader) ← loader.getToken
      match token with
      | none => return ([], contexts, loader)
      | some token =>
        match token.name with
        | .textSentence =>
          let (elems, contexts, loader) ← loadSequence n contexts loader
          return (.text token.position token.value token.value :: elems, contexts, loader)
        | .ifSentence =>
          let (elemRef, isConcat, contexts) ← loadCondition methods contexts token
          let (elem, contexts, loader) ←
            loadIf (loadSequence n) elemRef isConcat contexts loader
          let (elems, contexts, loader) ← loadSequence n contexts loader
          return (elem :: elems, contexts, loader)
        | .elseSentence =>
          let loader ← loader.ungetToken
          return ([], contexts, loader)
        | .endifSentence =>
          let loader ← loader.ungetToken
          return ([], contexts, loader)
        | .refSentence =>
          let (elem, contexts) ← loadRef methods contexts token
          let (elems, contexts, loader) ← loadSequence n contexts loader
          return (elem :: elems, contexts, loader)

def Loader.ofFile (filename text : CString) : Loader :=
  ⟨⟨text, ⟨filename, 1, 0⟩⟩, none, true⟩

/-- Load template into the tree. -/
def load (filename text joinContext : CString) : Except LoadError (List ASTElem) := do
  let (elems, _, _) ← loadSequence methods (text.length + 1) ⟨joinContext, joinContext⟩
    (Loader.ofFile filename text)
  return elems

end TemplateConverter
end KedrAux
