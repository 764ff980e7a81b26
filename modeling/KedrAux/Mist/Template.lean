import KedrAux.Lib.Yields
import KedrAux.Mist.BuiltBlocks

/-!
# Templates and the building of groups

Templates and the construction of the block for a main template
(`mist_template.hh`, `mist_template.cpp`).  The builder keeps stacks of `with` and
`join` bases, and two kinds of caches for the blocks of templates: a global one, and
one for each `with` context.

The cache of parameter references is left out: the block of a reference depends on its
name only.  The order in which the three blocks of an `if` are made is not specified
in the source; it is a parameter here.  The recursion through references has a limit,
see `buildTemplateOrParamRef`.
-/

namespace KedrAux
namespace Mist

/-- `Mist::Template::Impl` and its subclasses. -/
inductive Template where
  | empty
  | sequence (subtemplates : List Template)
  | text (text : Str)
  | ref (name : MistTemplateName)
  | ifTemplate (conditionTemplate positiveTemplate elseTemplate : Template)
  /-- `MistTemplateJoin`, or `MistTemplateRJoin` if it is reversed. -/
  | join (reversed : Bool) (templateInternal : Template) (textBetween : Str)
  | withContext (context : MistTemplateName) (templateInternal : Template)
  /-- `MistTemplateIndex0` or `MistTemplateIndex1`, by the number of the first iteration. -/
  | index (first : Nat) (templateInternal : Template)
  | indent (templateInternal : Template) (indent : Str)

theorem Template.ind {P : Template → Prop} (empty : P .empty)
    (sequence : ∀ ts, (∀ t ∈ ts, P t) → P (.sequence ts))
    (text : ∀ s, P (.text s))
    (ref : ∀ name, P (.ref name))
    (ifTemplate : ∀ c p e, P c → P p → P e → P (.ifTemplate c p e))
    (join : ∀ reversed t textBetween, P t → P (.join reversed t textBetween))
    (withContext : ∀ context t, P t → P (.withContext context t))
    (index : ∀ first t, P t → P (.index first t))
    (indent : ∀ t s, P t → P (.indent t s)) :
    ∀ t, P t :=
  @Template.rec P (fun ts => ∀ t ∈ ts, P t)
    empty (fun ts ih => sequence ts ih) text ref
    (fun c p e hc hp he => ifTemplate c p e hc hp he)
    (fun reversed t textBetween ih => join reversed t textBetween ih)
    (fun context t ih => withContext context t ih)
    (fun first t ih => index first t ih)
    (fun t s ih => indent t s ih)
    (fun t ht => by cases ht)
    (fun t ts ht hts t' ht' => by
      rcases List.mem_cons.mp ht' with rfl | ht'
      · exact ht
      · exact hts t' ht')

abbrev TemplateCollection := List (Str × Template)

def TemplateCollection.findTemplate (collection : TemplateCollection) (name : Str) :
    Option Template :=
  collection.lookup name

/-- `NamedBlockCached`; the template of a name is looked up in the collection. -/
structure NamedBlockCached where
  refGlobal : Option MistTemplateGroupBlock
  contexts : MistParamNameAbs → Option MistTemplateGroupBlock
  inProgress : Bool

structure TemplateContextInfo where
  useContext : Bool
  contextIndex : Nat
deriving DecidableEq

abbrev NamedCache := Str → NamedBlockCached

def NamedCache.empty : NamedCache :=
  fun _ => ⟨none, fun _ => none, false⟩

/-- `Template::Impl::Context`; the tops of the stacks come first. -/
structure BuildContext where
  namedCache : NamedCache
  baseParamStack : List MistParamNameAbs
  joinBaseStack : List MistParamNameAbs
  templateStack : List TemplateContextInfo

inductive BuildError where
  /-- "Circular templates dependency detected!" -/
  | circular
  /-- "Main template is absent" -/
  | absent
  /-- A failed assertion, or an access to an empty stack. -/
  | assertion
  /-- The limit of the recursion is reached. -/
  | limit
deriving DecidableEq

abbrev BuildM := StateT BuildContext (Except BuildError)

def back {α : Type} : List α → BuildM α
  | [] => throw .assertion
  | top :: _ => return top

/-- `baseParamName`, which marks the template if it uses the context from outside. -/
def baseParamName : BuildM MistParamNameAbs := do
  let context ← get
  match context.templateStack with
  | [] => throw .assertion
  | info :: infos =>
    let useContext := info.useContext || info.contextIndex == context.baseParamStack.length
    set { context with templateStack := { info with useContext := useContext } :: infos }
    back context.baseParamStack

def buildParameterRef (name : MistTemplateName) : BuildM MistTemplateGroupBlock :=
  if !name.isRelative then return .paramRef name.components
  else do
    let base ← baseParamName
    return .paramRef (base ++ name.components)

def pushBaseParam (paramName : MistTemplateName) : BuildM PUnit := do
  let name ←
    if !paramName.isRelative then pure paramName.components
    else do
      let base ← baseParamName
      pure (base ++ paramName.components)
  modify fun context => { context with baseParamStack := name :: context.baseParamStack }

def popBaseParam : BuildM PUnit :=
  modify fun context => { context with baseParamStack := context.baseParamStack.tail }

def beginJoinScope : BuildM PUnit := do
  let base ← baseParamName
  modify fun context => { context with joinBaseStack := base :: context.joinBaseStack }

def endJoinScope : BuildM PUnit :=
  modify fun context => { context with joinBaseStack := context.joinBaseStack.tail }

def joinUses : MistParamNameAbs → MistParamMask → Bool
  | [], mask => mask != .nil
  | component :: joinParamName, mask =>
    match mask.find component with
    | none => false
    | some submask => joinUses joinParamName submask

def joinDepth (joinBaseStack : List MistParamNameAbs) (mask : MistParamMask) (depthUpper : Nat) :
    Nat :=
  (joinBaseStack.take depthUpper).findIdx fun joinParamName => joinUses joinParamName mask

def iterationDepth (mask : MistParamMask) (depthUpper : Nat) : BuildM Nat := do
  let context ← get
  if depthUpper < context.joinBaseStack.length then
    return joinDepth context.joinBaseStack mask depthUpper
  else throw .assertion

def iterationDepthMax : BuildM Nat := do
  let context ← get
  return context.joinBaseStack.length - 1

/-- The block for a sequence, which is made only for two or more subtemplates. -/
def sequenceGroup : List MistTemplateGroupBlock → MistTemplateGroupBlock
  | [] => .empty
  | [block] => block
  | blocks => .sequence blocks

def indentGroup (block : MistTemplateGroupBlock) (indent : Str) : MistTemplateGroupBlock :=
  if !indent.isEmpty then .indent block indent else block

/-- The name of the template, if it is a reference by an absolute name of one component. -/
def MistTemplateName.single? (name : MistTemplateName) : Option Str :=
  match name.isRelative, name.components with
  | false, [component] => some component
  | _, _ => none

section CreateGroup

variable (order : EvalOrder) (buildTemplateOrParamRef : Str → BuildM MistTemplateGroupBlock)

mutual

def createGroup : Template → BuildM MistTemplateGroupBlock
  | .empty => return .empty
  | .sequence subtemplates => do
      let blocks ← createGroups subtemplates
      return sequenceGroup blocks
  | .text s => return .text s
  | .ref name =>
    match name.single? with
    | some component => buildTemplateOrParamRef component
    | none => buildParameterRef name
  | .ifTemplate conditionTemplate positiveTemplate elseTemplate => do
      let (conditionBlock, ifBlock, elseBlock) ← order.run (createGroup conditionTemplate)
        (createGroup positiveTemplate) (createGroup elseTemplate)
      return .ifGroup conditionBlock ifBlock elseBlock
  | .join reversed templateInternal textBetween => do
      beginJoinScope
      let blockInternal ← createGroup templateInternal
      endJoinScope
      let base ← baseParamName
      match MistTemplateGroupBlock.newJoin reversed blockInternal base textBetween with
      | some block => return block
      | none => throw .assertion
  | .withContext context templateInternal => do
      pushBaseParam context
      let block ← createGroup templateInternal
      popBaseParam
      return block
  | .index first templateInternal => do
      let depthUpper ← iterationDepthMax
      let blockTmp ← createGroup templateInternal
      let depth ← iterationDepth blockTmp.getParamMask depthUpper
      return .index first depth
  | .indent templateInternal tab => do
      let block ← createGroup templateInternal
      return indentGroup block tab

def createGroups : List Template → BuildM (List MistTemplateGroupBlock)
  | [] => return []
  | subtemplate :: subtemplates => do
      let block ← createGroup subtemplate
      let blocks ← createGroups subtemplates
      return block :: blocks

end

end CreateGroup

def modifyCache (name : Str) (f : NamedBlockCached → NamedBlockCached) : BuildM PUnit :=
  modify fun context =>
    { context with
      namedCache := Function.update context.namedCache name (f (context.namedCache name)) }

/-- The block is cached; the place depends on the flag of the template. -/
def cacheBlock (useContext : Bool) (base : MistParamNameAbs) (block : MistTemplateGroupBlock)
    (cache : NamedBlockCached) : NamedBlockCached :=
  if useContext then
    { cache with
      contexts := Function.update cache.contexts base (some ((cache.contexts base).getD block)) }
  else { cache with refGlobal := some block }

/--
`buildTemplateOrParamRef`.  The first argument limits the nesting of references; any
number above that of the templates in the collection is enough.
-/
def buildTemplateOrParamRef (collection : TemplateCollection) (order : EvalOrder) :
    Nat → Str → BuildM MistTemplateGroupBlock
  | 0, _ => throw .limit
  | limit + 1, name => do
      let context ← get
      let cache := context.namedCache name
      match cache.refGlobal, collection.findTemplate name with
      | some block, _ => return block
      | none, none => do
          -- Name refers to the parameter.
          let block := MistTemplateGroupBlock.paramRef [name]
          modifyCache name fun cache => { cache with refGlobal := some block }
          return block
      | none, some t => do
          let base ← back context.baseParamStack
          match cache.contexts base, cache.inProgress with
          | some block, _ => return block
          | none, true => throw .circular
          | none, false => do
              set { context with
                templateStack := ⟨false, context.baseParamStack.length⟩ :: context.templateStack }
              modifyCache name fun cache => { cache with inProgress := true }
              let block ← createGroup order (buildTemplateOrParamRef collection order limit) t
              let context ← get
              let info ← back context.templateStack
              let base ← back context.baseParamStack
              modifyCache name (cacheBlock info.useContext base block)
              modifyCache name fun cache => { cache with inProgress := false }
              modify fun context => { context with templateStack := context.templateStack.tail }
              return block

def build (collection : TemplateCollection) (order : EvalOrder) (limit : Nat)
    (mainTemplate : Str) : BuildM MistTemplateGroupBlock := do
  -- Default 'with' scope is a root parameter; there is a virtual root join context.
  modify fun context =>
    { context with
      baseParamStack := [] :: context.baseParamStack
      joinBaseStack := [] :: context.joinBaseStack }
  let block ← buildTemplateOrParamRef collection order limit mainTemplate
  modify fun context =>
    { context with
      baseParamStack := context.baseParamStack.tail
      joinBaseStack := context.joinBaseStack.tail }
  let context ← get
  if context.baseParamStack.isEmpty && context.joinBaseStack.isEmpty then return block
  else throw .assertion

/-- The constructor of `TemplateGroup`: the block, and the context when it is made. -/
def buildGroup (collection : TemplateCollection) (order : EvalOrder) (limit : Nat)
    (mainTemplate : Str) : Except BuildError (MistTemplateGroupBlock × BuildContext) :=
  match collection.findTemplate mainTemplate with
  | none => .error .absent
  | some _ => (build collection order limit mainTemplate).run ⟨.empty, [], [], []⟩

end Mist
end KedrAux
