import KedrAux.Mist.ParamSetSlice

/-!
# Template groups

Blocks of a template group and their evaluation (`mist_template_group.cpp`).  A
context of evaluation is a stack of join contexts; every join works with a slice of
its own, which is copied from the enclosing one.

A block writes to a stream only, so its evaluation gives a text.  A failed assertion
gives `none`, as does a loop that would not end within the number of sets of the
slice.

The evaluation is compared with a meaning of blocks in terms of the values that are
chosen for names.
-/

namespace KedrAux
namespace Mist

inductive MistTemplateGroupBlock where
  | empty
  | sequence (subtemplates : List MistTemplateGroupBlock)
  | text (text : Str)
  | paramRef (name : MistParamNameAbs)
  | ifGroup (conditionBlock ifBlock elseBlock : MistTemplateGroupBlock)
  /-- `MistJoinGroup`, or `MistRJoinGroup` if it is reversed. -/
  | join (reversed : Bool) (block : MistTemplateGroupBlock) (context : MistParamNameAbs)
      (textBetween : Str) (mask submask : MistParamMask)
  /-- `MistIndexGroup0` or `MistIndexGroup1`, by the number of the first iteration. -/
  | index (first : Nat) (depth : Nat)
  | indent (block : MistTemplateGroupBlock) (indent : Str)

theorem MistTemplateGroupBlock.ind {P : MistTemplateGroupBlock → Prop} (empty : P .empty)
    (sequence : ∀ bs, (∀ b ∈ bs, P b) → P (.sequence bs))
    (text : ∀ s, P (.text s))
    (paramRef : ∀ name, P (.paramRef name))
    (ifGroup : ∀ c t e, P c → P t → P e → P (.ifGroup c t e))
    (join : ∀ reversed b context textBetween mask submask, P b →
      P (.join reversed b context textBetween mask submask))
    (index : ∀ first depth, P (.index first depth))
    (indent : ∀ b s, P b → P (.indent b s)) :
    ∀ b, P b :=
  @MistTemplateGroupBlock.rec P (fun bs => ∀ b ∈ bs, P b)
    empty (fun bs ih => sequence bs ih) text paramRef
    (fun c t e hc ht he => ifGroup c t e hc ht he)
    (fun reversed b context textBetween mask submask ih =>
      join reversed b context textBetween mask submask ih)
    index (fun b s ih => indent b s ih)
    (fun b hb => by cases hb)
    (fun b bs hb hbs b' hb' => by
      rcases List.mem_cons.mp hb' with rfl | hb'
      · exact hb
      · exact hbs b' hb')

structure JoinContext where
  /-- Full parameters slice. -/
  slice : ParamSetSlice
  /-- Base for joining. -/
  paramName : MistParamNameAbs
  /-- Index of current iteration (from 0). -/
  index : Nat

namespace JoinContext

def first (paramSet : ParamSet) (maskAll : MistParamMask) : JoinContext :=
  ⟨ParamSetSlice.new paramSet maskAll, [], 0⟩

def new (prev : JoinContext) (paramName : MistParamNameAbs) (submask : MistParamMask) :
    Option JoinContext :=
  (prev.slice.modify paramName fun sub => sub.resetMask submask).map fun slice =>
    ⟨slice, paramName, 0⟩

def advance (context : JoinContext) : Option (JoinContext × Bool) := do
  let sub ← context.slice.getSubslice context.paramName
  if sub.isSetLast then return (context, false)
  let slice ← context.slice.modify context.paramName ParamSetSlice.nextSet
  return ({ context with slice := slice, index := context.index + 1 }, true)

end JoinContext

/-- `MistTemplateGroupBlock::Context`: the stack of join contexts, the last one first. -/
abbrev GroupContext := List JoinContext

namespace GroupContext

def beginJoinScope (context : GroupContext) (paramName : MistParamNameAbs)
    (submask : MistParamMask) : Option GroupContext := do
  let back ← context.head?
  return (← back.new paramName submask) :: context

/-- `endJoinScope`: the first slice is never popped. -/
def endJoinScope : GroupContext → Option GroupContext
  | _ :: back :: context => some (back :: context)
  | _ => none

def advanceScope : GroupContext → Option (GroupContext × Bool)
  | [] => none
  | back :: context => back.advance.map fun r => (r.1 :: context, r.2)

def iterationIndex (context : GroupContext) (depth : Nat) : Option Nat :=
  (context[depth]?).map JoinContext.index

/-- The number of the sets that the current scope goes through, for the given mask. -/
def scopeSets (context : GroupContext) (submask : MistParamMask) : Option Nat := do
  let back ← context.head?
  let sub ← back.slice.getSubslice back.paramName
  return setCount submask sub.value

end GroupContext

/-- The loops of `MistJoinGroup::evaluate` and `MistRJoinGroup::evaluate`. -/
def joinPieces (evaluate : GroupContext → Option (Str × GroupContext)) :
    Nat → GroupContext → Option (List Str × GroupContext)
  | 0, _ => none
  | n + 1, context => do
      let (piece, context) ← evaluate context
      let (context, advanced) ← context.advanceScope
      if advanced then
        let (pieces, context) ← joinPieces evaluate n context
        return (piece :: pieces, context)
      else return ([piece], context)

def joinText (reversed : Bool) (textBetween : Str) (pieces : List Str) : Str :=
  textBetween.intercalate (if reversed then pieces.reverse else pieces)

/-- The second loop of `MistJoinGroup::isEmpty`. -/
def joinEmpty (isEmpty : GroupContext → Option (Bool × GroupContext)) :
    Nat → GroupContext → Option (Bool × GroupContext)
  | 0, _ => none
  | n + 1, context => do
      let (blockEmpty, context) ← isEmpty context
      if blockEmpty then
        let (context, advanced) ← context.advanceScope
        if advanced then joinEmpty isEmpty n context else return (true, context)
      else return (false, context)

/-- What `IndentedStream` writes for a text: the indent comes after every new line too. -/
def indentText (indent : Str) (text : Str) : Str :=
  indent ++ text.flatMap fun c => if c = '\n' then c :: indent else [c]

namespace MistTemplateGroupBlock

mutual

def isEmpty : MistTemplateGroupBlock → GroupContext → Option (Bool × GroupContext)
  | .empty, groupContext => some (true, groupContext)
  | .sequence subtemplates, groupContext => isEmptyAll subtemplates groupContext
  | .text s, groupContext => some (s.isEmpty, groupContext)
  | .paramRef name, groupContext => do
      let back ← groupContext.head?
      let paramSlice ← back.slice.getSubslice name
      return (paramSlice.getValue.isEmpty, groupContext)
  | .ifGroup conditionBlock ifBlock elseBlock, groupContext => do
      let (conditionEmpty, groupContext) ← isEmpty conditionBlock groupContext
      if !conditionEmpty then isEmpty ifBlock groupContext else isEmpty elseBlock groupContext
  | .join _ block context textBetween _ submask, groupContext => do
      let groupContext ← groupContext.beginJoinScope context submask
      let sets ← groupContext.scopeSets submask
      let (blockEmpty, groupContext) ← isEmpty block groupContext
      let (result, groupContext) ←
        if !blockEmpty then some (false, groupContext)
        else do
          let (groupContext, advanced) ← groupContext.advanceScope
          if !advanced then some (true, groupContext)
          else if !textBetween.isEmpty then some (false, groupContext)
          else joinEmpty (isEmpty block) sets groupContext
      return (result, ← groupContext.endJoinScope)
  | .index _ _, groupContext => some (false, groupContext)
  | .indent block tab, groupContext =>
    if !tab.isEmpty then isEmpty block groupContext else some (false, groupContext)

def isEmptyAll : List MistTemplateGroupBlock → GroupContext → Option (Bool × GroupContext)
  | [], groupContext => some (true, groupContext)
  | subtemplate :: subtemplates, groupContext => do
      let (subEmpty, groupContext) ← isEmpty subtemplate groupContext
      if !subEmpty then return (false, groupContext) else isEmptyAll subtemplates groupContext

end

mutual

def evaluate : MistTemplateGroupBlock → GroupContext → Option (Str × GroupContext)
  | .empty, groupContext => some ([], groupContext)
  | .sequence subtemplates, groupContext => evaluateAll subtemplates groupContext
  | .text s, groupContext => some (s, groupContext)
  | .paramRef name, groupContext => do
      let back ← groupContext.head?
      let paramSlice ← back.slice.getSubslice name
      return (paramSlice.getValue, groupContext)
  | .ifGroup conditionBlock ifBlock elseBlock, groupContext => do
      let (conditionEmpty, groupContext) ← conditionBlock.isEmpty groupContext
      if !conditionEmpty then evaluate ifBlock groupContext else evaluate elseBlock groupContext
  | .join reversed block context textBetween _ submask, groupContext => do
      let groupContext ← groupContext.beginJoinScope context submask
      let sets ← groupContext.scopeSets submask
      let (pieces, groupContext) ← joinPieces (evaluate block) sets groupContext
      return (joinText reversed textBetween pieces, ← groupContext.endJoinScope)
  | .index first depth, groupContext => do
      let index ← groupContext.iterationIndex depth
      return (Nat.toDigits 10 (index + first), groupContext)
  | .indent block tab, groupContext => do
      let (s, groupContext) ← evaluate block groupContext
      return (indentText tab s, groupContext)

def evaluateAll : List MistTemplateGroupBlock → GroupContext → Option (Str × GroupContext)
  | [], groupContext => some ([], groupContext)
  | subtemplate :: subtemplates, groupContext => do
      let (s, groupContext) ← evaluate subtemplate groupContext
      let (rest, groupContext) ← evaluateAll subtemplates groupContext
      return (s ++ rest, groupContext)

end

mutual

def getParamMask : MistTemplateGroupBlock → MistParamMask
  | .empty => .nil
  | .sequence subtemplates => appendParamMasks .nil subtemplates
  | .text _ => .nil
  | .paramRef name => .ofName name
  | .ifGroup conditionBlock ifBlock elseBlock =>
    (conditionBlock.getParamMask.append ifBlock.getParamMask).append elseBlock.getParamMask
  | .join _ _ _ _ mask _ => mask
  | .index _ _ => .nil
  | .indent block _ => block.getParamMask

def appendParamMasks : MistParamMask → List MistTemplateGroupBlock → MistParamMask
  | mask, [] => mask
  | mask, subtemplate :: subtemplates =>
    appendParamMasks (mask.append subtemplate.getParamMask) subtemplates

end

/-- The constructor of `MistJoinGroup`, which splits the mask at the base. -/
def newJoin (reversed : Bool) (block : MistTemplateGroupBlock) (context : MistParamNameAbs)
    (textBetween : Str) : Option MistTemplateGroupBlock := do
  let maskAll := (MistParamMask.ofName context).append block.getParamMask
  let submask ← maskAll.getSubmask context
  let mask ← maskAll.cut context
  return .join reversed block context textBetween mask submask

/-- The results of `TemplateGroup::instantiate`; a failed assertion is none of them. -/
inductive Outcome where
  | text (text : Str)
  /-- "Main template is multivalued". -/
  | multivalued
deriving DecidableEq

/-- `TemplateGroup::instantiate`, with the check in the destructor of the context. -/
def instantiate (block : MistTemplateGroupBlock) (paramSet : ParamSet) : Option Outcome :=
  let back := JoinContext.first paramSet block.getParamMask
  if !back.slice.isSetLast then some .multivalued
  else do
    let (s, groupContext) ← block.evaluate [back]
    if groupContext.length = 1 then return .text s else none

/-- Whether all elements of a list pass a test, which stops at the first one that does not. -/
def allM {α : Type*} (f : α → Option Bool) : List α → Option Bool
  | [] => some true
  | a :: as => (f a).bind fun r => if r then allM f as else some false

def joinSets (submask : MistParamMask) (base : Scope) : List (Choice × Nat) :=
  (enum submask base.value).zipIdx

mutual

/-- Emptiness of a block in terms of the chosen values and the numbers of iterations. -/
def emptiness : MistTemplateGroupBlock → Scope → List Nat → Option Bool
  | .empty, _, _ => some true
  | .sequence subtemplates, scope, indices => emptinessAll subtemplates scope indices
  | .text s, _, _ => some s.isEmpty
  | .paramRef name, scope, _ => (scope.lookup name).map fun sub => sub.value.getValue.isEmpty
  | .ifGroup conditionBlock ifBlock elseBlock, scope, indices =>
    (emptiness conditionBlock scope indices).bind fun conditionEmpty =>
      if !conditionEmpty then emptiness ifBlock scope indices
      else emptiness elseBlock scope indices
  | .join _ block context textBetween _ submask, scope, indices =>
    (scope.lookup context).bind fun base =>
      match joinSets submask base with
      | [] => none
      | set :: sets =>
        ((scope.set context set.1).bind fun scope =>
          emptiness block scope (set.2 :: indices)).bind fun blockEmpty =>
            if !blockEmpty then some false
            else if sets.isEmpty then some true
            else if !textBetween.isEmpty then some false
            else allM (fun set => (scope.set context set.1).bind fun scope =>
              emptiness block scope (set.2 :: indices)) sets
  | .index _ _, _, _ => some false
  | .indent block tab, scope, indices =>
    if !tab.isEmpty then emptiness block scope indices else some false

def emptinessAll : List MistTemplateGroupBlock → Scope → List Nat → Option Bool
  | [], _, _ => some true
  | subtemplate :: subtemplates, scope, indices =>
    (emptiness subtemplate scope indices).bind fun subEmpty =>
      if !subEmpty then some false else emptinessAll subtemplates scope indices

end

mutual

/-- The text of a block in terms of the chosen values and the numbers of iterations. -/
def meaning : MistTemplateGroupBlock → Scope → List Nat → Option Str
  | .empty, _, _ => some []
  | .sequence subtemplates, scope, indices => meaningAll subtemplates scope indices
  | .text s, _, _ => some s
  | .paramRef name, scope, _ => (scope.lookup name).map fun sub => sub.value.getValue
  | .ifGroup conditionBlock ifBlock elseBlock, scope, indices =>
    (emptiness conditionBlock scope indices).bind fun conditionEmpty =>
      if !conditionEmpty then meaning ifBlock scope indices else meaning elseBlock scope indices
  | .join reversed block context textBetween _ submask, scope, indices =>
    (scope.lookup context).bind fun base =>
      ((joinSets submask base).mapM fun set => (scope.set context set.1).bind fun scope =>
        meaning block scope (set.2 :: indices)).map (joinText reversed textBetween)
  | .index first depth, _, indices =>
    (indices[depth]?).map fun index => Nat.toDigits 10 (index + first)
  | .indent block tab, scope, indices => (meaning block scope indices).map (indentText tab)

def meaningAll : List MistTemplateGroupBlock → Scope → List Nat → Option Str
  | [], _, _ => some []
  | subtemplate :: subtemplates, scope, indices =>
    (meaning subtemplate scope indices).bind fun s =>
      (meaningAll subtemplates scope indices).map fun rest => s ++ rest

end

end MistTemplateGroupBlock

def JoinContext.scope (context : JoinContext) : Scope :=
  context.slice.scope

/-- The context of the iteration `k` of a join that was started from `back`. -/
structure JoinAt (back : JoinContext) (context : MistParamNameAbs) (submask : MistParamMask)
    (k : Nat) (c : JoinContext) : Prop where
  slice : back.slice.modify context (fun sub => ParamSetSlice.nextSet^[k] (sub.resetMask submask)) =
    some c.slice
  paramName : c.paramName = context
  index : c.index = k

variable {back : JoinContext} {context : MistParamNameAbs} {submask : MistParamMask} {base : Scope}

section Iterations

variable {c : JoinContext} {k : Nat}

theorem JoinContext.exists_base (hbase : back.scope.lookup context = some base) :
    ∃ sub, back.slice.getSubslice context = some sub ∧ sub.value = base.value := by
  rw [JoinContext.scope, ParamSetSlice.lookup_scope, Option.map_eq_some_iff] at hbase
  obtain ⟨sub, hsub, rfl⟩ := hbase
  exact ⟨sub, hsub, rfl⟩

theorem iterate_resetMask_at (sub : ParamSetSlice) (submask : MistParamMask) (k : Nat) :
    (ParamSetSlice.nextSet^[k] (sub.resetMask submask)).At submask k ∧
      (ParamSetSlice.nextSet^[k] (sub.resetMask submask)).value = sub.value := by
  have hat := (ParamSetSlice.new_at sub.value submask).nextSet_iterate k
  rw [Nat.zero_add] at hat
  exact ⟨hat, ParamSetSlice.nextSet_iterate_value _ k⟩

theorem JoinAt.exists_subslice
    (h : JoinAt back context submask k c) (hbase : back.scope.lookup context = some base) :
    ∃ s, c.slice.getSubslice c.paramName = some s ∧ s.At submask k ∧ s.value = base.value := by
  obtain ⟨sub, hsub, hvalue⟩ := JoinContext.exists_base hbase
  obtain ⟨slice', hmodify, hget⟩ := ParamSetSlice.getSubslice_modify
    (f := fun sub => ParamSetSlice.nextSet^[k] (sub.resetMask submask)) hsub
  rw [h.slice] at hmodify
  cases hmodify
  obtain ⟨hat, hval⟩ := iterate_resetMask_at sub submask k
  exact ⟨_, by rw [h.paramName]; exact hget, hat, hval.trans hvalue⟩

theorem JoinAt.scope_eq
    (h : JoinAt back context submask k c) (hbase : back.scope.lookup context = some base)
    (hk : k < (enum submask base.value).length) :
    back.scope.set context (enum submask base.value)[k] = some c.scope := by
  obtain ⟨sub, hsub, hvalue⟩ := JoinContext.exists_base hbase
  have hscope := ParamSetSlice.modify_scope back.slice context
    (f := fun sub => ParamSetSlice.nextSet^[k] (sub.resetMask submask))
    (Lockstep.clamp (enum submask sub.value) k) (fun sub' hsub' => by
      rw [hsub] at hsub'
      cases hsub'
      obtain ⟨hat, hval⟩ := iterate_resetMask_at sub submask k
      rw [ParamSetSlice.scope, hat.subslices.choice_eq, hval])
  rw [h.slice, hvalue, Lockstep.clamp_of_lt hk] at hscope
  exact hscope.symm

theorem JoinContext.new_eq_none (hbase : back.scope.lookup context = none) :
    back.new context submask = none := by
  rw [JoinContext.scope, ParamSetSlice.lookup_scope, Option.map_eq_none_iff] at hbase
  rw [JoinContext.new, ParamSetSlice.modify_eq_none hbase]
  rfl

/-- A new join context stands at the first slice. -/
theorem JoinContext.new_spec
    (submask : MistParamMask) (hbase : back.scope.lookup context = some base) :
    ∃ c, back.new context submask = some c ∧ JoinAt back context submask 0 c := by
  obtain ⟨sub, hsub, -⟩ := JoinContext.exists_base hbase
  obtain ⟨slice', hmodify, -⟩ := ParamSetSlice.getSubslice_modify
    (f := fun sub => sub.resetMask submask) hsub
  exact ⟨⟨slice', context, 0⟩, by rw [JoinContext.new, hmodify]; rfl, ⟨hmodify, rfl, rfl⟩⟩

theorem JoinAt.advance_last
    (h : JoinAt back context submask k c) (hbase : back.scope.lookup context = some base)
    (hk : k + 1 = (enum submask base.value).length) :
    c.advance = some (c, false) := by
  obtain ⟨s, hget, hat, hvalue⟩ := h.exists_subslice hbase
  have hlast : s.isSetLast = true := by
    rw [hat.isSetLast_iff, hvalue]
    omega
  simp [JoinContext.advance, hget, hlast]

theorem JoinAt.advance_next
    (h : JoinAt back context submask k c) (hbase : back.scope.lookup context = some base)
    (hk : k + 1 < (enum submask base.value).length) :
    ∃ c', c.advance = some (c', true) ∧ JoinAt back context submask (k + 1) c' := by
  obtain ⟨s, hget, hat, hvalue⟩ := h.exists_subslice hbase
  have hlast : s.isSetLast = false := by
    rw [Bool.eq_false_iff, Ne, hat.isSetLast_iff, hvalue]
    omega
  obtain ⟨slice', hmodify, -⟩ := ParamSetSlice.getSubslice_modify (f := ParamSetSlice.nextSet) hget
  refine ⟨{ c with slice := slice', index := c.index + 1 }, ?_, ?_, h.paramName, ?_⟩
  · simp [JoinContext.advance, hget, hlast, hmodify]
  · have hstep := ParamSetSlice.modify_modify context
      (fun sub => ParamSetSlice.nextSet^[k] (sub.resetMask submask)) ParamSetSlice.nextSet back.slice
    rw [h.slice, Option.bind_some, ← h.paramName, hmodify] at hstep
    rw [← h.paramName, hstep]
    congr 1
    funext sub
    exact Function.iterate_succ_apply' _ _ _
  · rw [h.index]

theorem JoinAt.scopeSets_eq
    (h : JoinAt back context submask k c) (hbase : back.scope.lookup context = some base)
    (ctx : GroupContext) :
    GroupContext.scopeSets (c :: ctx) submask = some (enum submask base.value).length := by
  obtain ⟨s, hget, -, hvalue⟩ := h.exists_subslice hbase
  simp [GroupContext.scopeSets, hget, setCount_eq, hvalue]

theorem joinSets_drop (hk : k < (enum submask base.value).length) :
    (MistTemplateGroupBlock.joinSets submask base).drop k =
      ((enum submask base.value)[k], k) ::
        (MistTemplateGroupBlock.joinSets submask base).drop (k + 1) := by
  have hlt : k < (MistTemplateGroupBlock.joinSets submask base).length := by
    simpa [MistTemplateGroupBlock.joinSets] using hk
  rw [List.drop_eq_getElem_cons hlt]
  simp [MistTemplateGroupBlock.joinSets]

end Iterations

section Loops

variable {ctx : GroupContext}

theorem joinPieces_eq
    {evaluate : GroupContext → Option (Str × GroupContext)} (f : Scope → Nat → Option Str)
    (hbase : back.scope.lookup context = some base)
    (heval : ∀ k c, JoinAt back context submask k c →
      evaluate (c :: ctx) = (f c.scope c.index).map fun s => (s, c :: ctx)) :
    ∀ (n k : Nat) (c : JoinContext), JoinAt back context submask k c →
      k < (enum submask base.value).length → (enum submask base.value).length ≤ k + n →
      ∃ c', joinPieces evaluate n (c :: ctx) =
        (((MistTemplateGroupBlock.joinSets submask base).drop k).mapM fun set =>
          (back.scope.set context set.1).bind fun scope => f scope set.2).map
            fun pieces => (pieces, c' :: ctx)
  | 0, k, c, _, hk, hn => by omega
  | n + 1, k, c, h, hk, hn => by
      have hscope := h.scope_eq hbase hk
      rw [joinSets_drop hk, List.mapM_cons, hscope, joinPieces]
      simp only [Option.bind_eq_bind, Option.bind_some, heval k c h, h.index, Option.pure_def]
      by_cases hlast : k + 1 = (enum submask base.value).length
      · refine ⟨c, ?_⟩
        have hdrop : (MistTemplateGroupBlock.joinSets submask base).drop (k + 1) = [] := by
          rw [List.drop_eq_nil_iff]
          simp [MistTemplateGroupBlock.joinSets, hlast]
        rw [hdrop]
        cases f c.scope k with
        | none => rfl
        | some s => simp [GroupContext.advanceScope, h.advance_last hbase hlast]
      · obtain ⟨c1, hadvance, h1⟩ := h.advance_next hbase (by omega)
        obtain ⟨c', hrest⟩ := joinPieces_eq f hbase heval n (k + 1) c1 h1 (by omega) (by omega)
        refine ⟨c', ?_⟩
        cases f c.scope k with
        | none => rfl
        | some s =>
          simp only [Option.map_some, Option.bind_some, GroupContext.advanceScope, hadvance,
            if_true, hrest]
          cases List.mapM (fun set : Choice × Nat => (back.scope.set context set.1).bind
            fun scope => f scope set.2)
              ((MistTemplateGroupBlock.joinSets submask base).drop (k + 1)) <;> rfl

theorem joinEmpty_eq
    {isEmpty : GroupContext → Option (Bool × GroupContext)} (f : Scope → Nat → Option Bool)
    (hbase : back.scope.lookup context = some base)
    (heval : ∀ k c, JoinAt back context submask k c →
      isEmpty (c :: ctx) = (f c.scope c.index).map fun r => (r, c :: ctx)) :
    ∀ (n k : Nat) (c : JoinContext), JoinAt back context submask k c →
      k < (enum submask base.value).length → (enum submask base.value).length ≤ k + n →
      ∃ c', joinEmpty isEmpty n (c :: ctx) =
        (MistTemplateGroupBlock.allM (fun set =>
          (back.scope.set context set.1).bind fun scope => f scope set.2)
            ((MistTemplateGroupBlock.joinSets submask base).drop k)).map fun r => (r, c' :: ctx)
  | 0, k, c, _, hk, hn => by omega
  | n + 1, k, c, h, hk, hn => by
      have hscope := h.scope_eq hbase hk
      rw [joinSets_drop hk, MistTemplateGroupBlock.allM, hscope, joinEmpty]
      simp only [Option.bind_eq_bind, Option.bind_some, heval k c h, h.index, Option.pure_def]
      cases f c.scope k with
      | none => exact ⟨c, rfl⟩
      | some r =>
        cases r with
        | false => exact ⟨c, rfl⟩
        | true =>
          by_cases hlast : k + 1 = (enum submask base.value).length
          · refine ⟨c, ?_⟩
            have hdrop : (MistTemplateGroupBlock.joinSets submask base).drop (k + 1) = [] := by
              rw [List.drop_eq_nil_iff]
              simp [MistTemplateGroupBlock.joinSets, hlast]
            rw [hdrop]
            simp [GroupContext.advanceScope, h.advance_last hbase hlast,
              MistTemplateGroupBlock.allM]
          · obtain ⟨c1, hadvance, h1⟩ := h.advance_next hbase (by omega)
            obtain ⟨c', hrest⟩ := joinEmpty_eq f hbase heval n (k + 1) c1 h1 (by omega) (by omega)
            refine ⟨c', ?_⟩
            simp only [Option.map_some, Option.bind_some, GroupContext.advanceScope, hadvance,
              if_true, hrest]

end Loops

/-- The numbers of the current iterations. -/
def GroupContext.indices (context : GroupContext) : List Nat :=
  context.map JoinContext.index

namespace MistTemplateGroupBlock

theorem isEmpty_join_eq {b : MistTemplateGroupBlock}
    (ih : ∀ back ctx, b.isEmpty (back :: ctx) =
      (b.emptiness back.scope (GroupContext.indices (back :: ctx))).map fun r => (r, back :: ctx))
    (reversed : Bool) (context : MistParamNameAbs) (textBetween : Str)
    (mask submask : MistParamMask) (back : JoinContext) (ctx : GroupContext) :
    (join reversed b context textBetween mask submask).isEmpty (back :: ctx) =
      ((join reversed b context textBetween mask submask).emptiness back.scope
        (GroupContext.indices (back :: ctx))).map fun r => (r, back :: ctx) := by
  rw [isEmpty, emptiness]
  cases hbase : back.scope.lookup context with
  | none => simp [GroupContext.beginJoinScope, JoinContext.new_eq_none hbase]
  | some base =>
    obtain ⟨c, hnew, h⟩ := JoinContext.new_spec submask hbase
    have hpos := enum_length_pos submask base.value
    have hsets := joinSets_drop hpos
    rw [List.drop_zero] at hsets
    generalize hrest : (joinSets submask base).drop (0 + 1) = rest at hsets
    simp only [GroupContext.beginJoinScope, List.head?_cons, Option.bind_eq_bind,
      Option.bind_some, hnew, Option.pure_def, h.scopeSets_eq hbase, ih, hsets,
      h.scope_eq hbase hpos]
    have hindices : GroupContext.indices (c :: back :: ctx) =
        0 :: GroupContext.indices (back :: ctx) := by
      simp [GroupContext.indices, h.index]
    rw [hindices]
    cases b.emptiness c.scope (0 :: GroupContext.indices (back :: ctx)) with
    | none => rfl
    | some r =>
      cases r with
      | false => rfl
      | true =>
        by_cases hlast : 0 + 1 = (enum submask base.value).length
        · have hnil : rest = [] := by
            rw [← hrest, List.drop_eq_nil_iff]
            simp [joinSets, ← hlast]
          simp [GroupContext.advanceScope, h.advance_last hbase hlast, hnil,
            GroupContext.endJoinScope]
        · obtain ⟨c1, hadvance, h1⟩ := h.advance_next hbase (by omega)
          have hne : rest.isEmpty = false := by
            rw [← hrest, joinSets_drop (by omega)]
            rfl
          obtain ⟨c', hloop⟩ := joinEmpty_eq
            (fun scope k => b.emptiness scope (k :: GroupContext.indices (back :: ctx))) hbase
            (fun k c' h' => ih c' (back :: ctx)) (enum submask base.value).length (0 + 1) c1
            h1 (by omega) (by omega)
          simp only [Option.map_some, Option.bind_some, Bool.not_true, Bool.false_eq_true,
            if_false, GroupContext.advanceScope, hadvance, hne]
          split_ifs
          · rfl
          · rw [hloop, hrest]
            cases allM _ rest <;> rfl

theorem isEmpty_eq (block : MistTemplateGroupBlock) (back : JoinContext) (ctx : GroupContext) :
    block.isEmpty (back :: ctx) =
      (block.emptiness back.scope (GroupContext.indices (back :: ctx))).map
        fun r => (r, back :: ctx) := by
  induction block using MistTemplateGroupBlock.ind generalizing back ctx with
  | empty => rfl
  | sequence bs ih =>
    rw [isEmpty, emptiness]
    induction bs with
    | nil => rfl
    | cons b bs ihbs =>
      rw [isEmptyAll, emptinessAll, ih b List.mem_cons_self]
      cases b.emptiness back.scope (GroupContext.indices (back :: ctx)) with
      | none => rfl
      | some r =>
        cases r with
        | false => rfl
        | true => exact ihbs fun b' hb' => ih b' (List.mem_cons_of_mem _ hb')
  | text s => rfl
  | paramRef name =>
    rw [isEmpty, emptiness, JoinContext.scope, ParamSetSlice.lookup_scope]
    cases hget : back.slice.getSubslice name with
    | none => simp [hget]
    | some sub =>
      simp only [List.head?_cons, Option.bind_eq_bind, Option.bind_some, hget]
      rfl
  | ifGroup c t e ihc iht ihe =>
    rw [isEmpty, emptiness, ihc]
    cases c.emptiness back.scope (GroupContext.indices (back :: ctx)) with
    | none => rfl
    | some r =>
      cases r with
      | false => exact iht back ctx
      | true => exact ihe back ctx
  | join reversed b context textBetween mask submask ih =>
    exact isEmpty_join_eq ih reversed context textBetween mask submask back ctx
  | index first depth => rfl
  | indent b tab ih =>
    rw [isEmpty, emptiness]
    split_ifs
    · exact ih back ctx
    · rfl

theorem evaluate_eq (block : MistTemplateGroupBlock) (back : JoinContext) (ctx : GroupContext) :
    block.evaluate (back :: ctx) =
      (block.meaning back.scope (GroupContext.indices (back :: ctx))).map
        fun s => (s, back :: ctx) := by
  induction block using MistTemplateGroupBlock.ind generalizing back ctx with
  | empty => rfl
  | sequence bs ih =>
    rw [evaluate, meaning]
    induction bs with
    | nil => rfl
    | cons b bs ihbs =>
      rw [evaluateAll, meaningAll, ih b List.mem_cons_self]
      cases b.meaning back.scope (GroupContext.indices (back :: ctx)) with
      | none => rfl
      | some s =>
        have hrest := ihbs fun b' hb' => ih b' (List.mem_cons_of_mem _ hb')
        simp only [Option.map_some, Option.bind_eq_bind, Option.bind_some, hrest]
        cases meaningAll bs back.scope (GroupContext.indices (back :: ctx)) <;> rfl
  | text s => rfl
  | paramRef name =>
    rw [evaluate, meaning, JoinContext.scope, ParamSetSlice.lookup_scope]
    cases hget : back.slice.getSubslice name with
    | none => simp [hget]
    | some sub =>
      simp only [List.head?_cons, Option.bind_eq_bind, Option.bind_some, hget]
      rfl
  | ifGroup c t e ihc iht ihe =>
    rw [evaluate, meaning, isEmpty_eq]
    cases c.emptiness back.scope (GroupContext.indices (back :: ctx)) with
    | none => rfl
    | some r =>
      cases r with
      | false => exact iht back ctx
      | true => exact ihe back ctx
  | join reversed b context textBetween mask submask ih =>
    rw [evaluate, meaning]
    cases hbase : back.scope.lookup context with
    | none => simp [GroupContext.beginJoinScope, JoinContext.new_eq_none hbase]
    | some base =>
      obtain ⟨c, hnew, h⟩ := JoinContext.new_spec submask hbase
      obtain ⟨c', hloop⟩ := joinPieces_eq
        (fun scope k => b.meaning scope (k :: GroupContext.indices (back :: ctx))) hbase
        (fun k c' h' => ih c' (back :: ctx)) (enum submask base.value).length 0 c h
        (enum_length_pos _ _) (by omega)
      rw [List.drop_zero] at hloop
      simp only [GroupContext.beginJoinScope, List.head?_cons, Option.bind_eq_bind,
        Option.bind_some, hnew, Option.pure_def, h.scopeSets_eq hbase, hloop]
      cases List.mapM (fun set : Choice × Nat => (back.scope.set context set.1).bind
        fun scope => b.meaning scope (set.2 :: GroupContext.indices (back :: ctx)))
          (joinSets submask base) <;> rfl
  | index first depth =>
    rw [evaluate, meaning, GroupContext.iterationIndex, GroupContext.indices, List.getElem?_map]
    cases (back :: ctx)[depth]? <;> rfl
  | indent b tab ih =>
    rw [evaluate, meaning, ih]
    cases b.meaning back.scope (GroupContext.indices (back :: ctx)) <;> rfl

end MistTemplateGroupBlock

end Mist
end KedrAux
