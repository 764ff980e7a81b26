import KedrAux.Mist.Template

/-!
# The builder without its stacks

The stacks of bases are pushed and popped in pairs, so the block of a template is
made with the innermost bases as arguments; the flag of a template is set exactly if
the template itself refers to the context from outside.  Only the cache of named blocks
is passed from one step to the next one.
-/

namespace KedrAux
namespace Mist

/-- The absolute name; a relative one is taken from the base. -/
def MistTemplateName.resolve (name : MistTemplateName) (base : MistParamNameAbs) :
    MistParamNameAbs :=
  if !name.isRelative then name.components else base ++ name.components

namespace Template

mutual

/-- The template itself refers to the `with` context in which it is built. -/
def usesContext : Template → Bool
  | .empty => false
  | .sequence subtemplates => usesContextAny subtemplates
  | .text _ => false
  | .ref name => name.isRelative
  | .ifTemplate conditionTemplate positiveTemplate elseTemplate =>
    conditionTemplate.usesContext || positiveTemplate.usesContext || elseTemplate.usesContext
  | .join _ _ _ => true
  | .withContext context _ => context.isRelative
  | .index _ templateInternal => templateInternal.usesContext
  | .indent templateInternal _ => templateInternal.usesContext

def usesContextAny : List Template → Bool
  | [] => false
  | subtemplate :: subtemplates => subtemplate.usesContext || usesContextAny subtemplates

end

end Template

abbrev CacheM := StateT NamedCache (Except BuildError)

section BlockOf

variable (order : EvalOrder)
variable (ref : Str → MistParamNameAbs → List MistParamNameAbs → CacheM MistTemplateGroupBlock)

mutual

/-- The block of a template; the bases of the joins around it are given as well. -/
def blockOf : Template → MistParamNameAbs → List MistParamNameAbs → CacheM MistTemplateGroupBlock
  | .empty, _, _ => return .empty
  | .sequence subtemplates, base, joins => do
      let blocks ← blocksOf subtemplates base joins
      return sequenceGroup blocks
  | .text s, _, _ => return .text s
  | .ref name, base, joins =>
    match name.single? with
    | some component => ref component base joins
    | none => return .paramRef (name.resolve base)
  | .ifTemplate conditionTemplate positiveTemplate elseTemplate, base, joins => do
      let (conditionBlock, ifBlock, elseBlock) ← order.run (blockOf conditionTemplate base joins)
        (blockOf positiveTemplate base joins) (blockOf elseTemplate base joins)
      return .ifGroup conditionBlock ifBlock elseBlock
  | .join reversed templateInternal textBetween, base, joins => do
      let blockInternal ← blockOf templateInternal base (base :: joins)
      match MistTemplateGroupBlock.newJoin reversed blockInternal base textBetween with
      | some block => return block
      | none => throw .assertion
  | .withContext context templateInternal, base, joins =>
    blockOf templateInternal (context.resolve base) joins
  | .index first templateInternal, base, joins => do
      let blockTmp ← blockOf templateInternal base joins
      if joins.length - 1 < joins.length then
        return .index first (joinDepth joins blockTmp.getParamMask (joins.length - 1))
      else throw .assertion
  | .indent templateInternal tab, base, joins => do
      let block ← blockOf templateInternal base joins
      return indentGroup block tab

def blocksOf : List Template → MistParamNameAbs → List MistParamNameAbs →
    CacheM (List MistTemplateGroupBlock)
  | [], _, _ => return []
  | subtemplate :: subtemplates, base, joins => do
      let block ← blockOf subtemplate base joins
      let blocks ← blocksOf subtemplates base joins
      return block :: blocks

end

end BlockOf

/-- The result of a step on the cache in a context with the given stacks. -/
def withStacks {α : Type} (bases joins : List MistParamNameAbs) (infos : List TemplateContextInfo)
    (r : Except BuildError (α × NamedCache)) : Except BuildError (α × BuildContext) :=
  r.map fun r => (r.1, ⟨r.2, bases, joins, infos⟩)

/-- The flag of the template, if it is used in a context with as many bases. -/
def TemplateContextInfo.mark (info : TemplateContextInfo) (size : Nat) (uses : Bool) :
    TemplateContextInfo :=
  { info with useContext := info.useContext || (info.contextIndex == size && uses) }

@[simp] theorem TemplateContextInfo.mark_false (info : TemplateContextInfo) (size : Nat) :
    info.mark size false = info := by
  simp [mark]

@[simp] theorem TemplateContextInfo.mark_mark (info : TemplateContextInfo) (size : Nat)
    (uses uses' : Bool) :
    (info.mark size uses).mark size uses' = info.mark size (uses || uses') := by
  simp [mark, Bool.or_assoc, Bool.and_or_distrib_left]

/-- The context from outside is not visible in a context that the template sets itself. -/
theorem TemplateContextInfo.mark_of_lt
    {info : TemplateContextInfo} {size : Nat} (h : info.contextIndex < size) (uses : Bool) :
    info.mark size uses = info := by
  have hne : (info.contextIndex == size) = false := beq_false_of_ne h.ne
  simp [mark, hne]

section Balanced

variable {α β : Type} {cache : NamedCache} {base : MistParamNameAbs} {s s' : BuildContext}
variable {bases joins bases' joins' : List MistParamNameAbs} {info : TemplateContextInfo}
variable {infos infos' : List TemplateContextInfo}

variable {σ : Type} {m : BuildM α} {f : α → BuildM β} {m' : CacheM α} {f' : α → CacheM β}

@[simp] theorem run_get_bind (f : σ → StateT σ (Except BuildError) β) (s : σ) :
    (get >>= f).run s = (f s).run s :=
  rfl

@[simp] theorem run_set_bind (f : PUnit → StateT σ (Except BuildError) β) (s s' : σ) :
    (set s' >>= f).run s = (f ⟨⟩).run s' :=
  rfl

theorem run_bind_ok {a : α} (h : m.run s = .ok (a, s')) : (m >>= f).run s = (f a).run s' := by
  rw [StateT.run_bind, h]
  rfl

theorem run_bind_withStacks (hm : m.run s = withStacks bases joins infos (m'.run cache))
    (hf : ∀ a cache', (f a).run ⟨cache', bases, joins, infos⟩ =
      withStacks bases' joins' infos' ((f' a).run cache')) :
    (m >>= f).run s = withStacks bases' joins' infos' ((m' >>= f').run cache) := by
  rw [StateT.run_bind, StateT.run_bind, hm]
  cases m'.run cache with
  | error e => rfl
  | ok r => exact hf r.1 r.2

theorem baseParamName_run :
    baseParamName.run ⟨cache, base :: bases, joins, info :: infos⟩ =
      .ok (base, ⟨cache, base :: bases, joins, info.mark (bases.length + 1) true :: infos⟩) := by
  simp [baseParamName, back, TemplateContextInfo.mark]
  rfl

theorem pushBaseParam_run (context : MistTemplateName) :
    (pushBaseParam context).run ⟨cache, base :: bases, joins, info :: infos⟩ =
      .ok (⟨⟩, ⟨cache, context.resolve base :: base :: bases, joins,
        info.mark (bases.length + 1) context.isRelative :: infos⟩) := by
  rw [pushBaseParam]
  cases hrel : context.isRelative with
  | false =>
    simp [MistTemplateName.resolve, hrel]
    rfl
  | true =>
    simp only [Bool.not_true, Bool.false_eq_true, if_false]
    rw [run_bind_ok baseParamName_run]
    simp [MistTemplateName.resolve, hrel]
    rfl

/-- A step that changes the flag only in the stacks. -/
def Marks (bases joins : List MistParamNameAbs) (infos : List TemplateContextInfo)
    (m : BuildM α) (m' : CacheM α) (uses : Bool) : Prop :=
  ∀ cache (info : TemplateContextInfo), info.contextIndex ≤ bases.length →
    m.run ⟨cache, bases, joins, info :: infos⟩ =
      withStacks bases joins (info.mark bases.length uses :: infos) (m'.run cache)

variable {uses uses' : Bool}

theorem Marks.bind (hm : Marks bases joins infos m m' uses)
    (hf : ∀ a, Marks bases joins infos (f a) (f' a) uses') :
    Marks bases joins infos (m >>= f) (m' >>= f') (uses || uses') := by
  intro cache info hindex
  refine run_bind_withStacks (hm cache info hindex) fun a cache' => ?_
  rw [← TemplateContextInfo.mark_mark]
  exact hf a cache' (info.mark bases.length uses) hindex

theorem Marks.pure (a : α) : Marks bases joins infos (Pure.pure a) (Pure.pure a) false := by
  intro cache info _
  rw [TemplateContextInfo.mark_false]
  rfl

theorem Marks.congr (hm : Marks bases joins infos m m' uses) (h : uses = uses') :
    Marks bases joins infos m m' uses' :=
  h ▸ hm

theorem Marks.order
    {γ : Type} (order : EvalOrder) {a : BuildM α} {b : BuildM β} {c : BuildM γ} {a' : CacheM α}
    {b' : CacheM β} {c' : CacheM γ} {usesA usesB usesC : Bool}
    (ha : Marks bases joins infos a a' usesA) (hb : Marks bases joins infos b b' usesB)
    (hc : Marks bases joins infos c c' usesC) :
    Marks bases joins infos (order.run a b c) (order.run a' b' c') (usesA || usesB || usesC) := by
  cases order with
  | abc =>
    refine (ha.bind fun x => hb.bind fun y => hc.bind fun z => .pure (x, y, z)).congr ?_
    simp [Bool.or_assoc]
  | acb =>
    refine (ha.bind fun x => hc.bind fun z => hb.bind fun y => .pure (x, y, z)).congr ?_
    cases usesA <;> cases usesB <;> cases usesC <;> rfl
  | bac =>
    refine (hb.bind fun y => ha.bind fun x => hc.bind fun z => .pure (x, y, z)).congr ?_
    cases usesA <;> cases usesB <;> cases usesC <;> rfl
  | bca =>
    refine (hb.bind fun y => hc.bind fun z => ha.bind fun x => .pure (x, y, z)).congr ?_
    cases usesA <;> cases usesB <;> cases usesC <;> rfl
  | cab =>
    refine (hc.bind fun z => ha.bind fun x => hb.bind fun y => .pure (x, y, z)).congr ?_
    cases usesA <;> cases usesB <;> cases usesC <;> rfl
  | cba =>
    refine (hc.bind fun z => hb.bind fun y => ha.bind fun x => .pure (x, y, z)).congr ?_
    cases usesA <;> cases usesB <;> cases usesC <;> rfl

theorem MistTemplateName.single?_eq_some
    {name : MistTemplateName} {component : Str} (h : name.single? = some component) :
    name.isRelative = false ∧ name.components = [component] := by
  unfold MistTemplateName.single? at h
  split at h
  · cases h
    exact ⟨‹_›, ‹_›⟩
  · cases h

theorem buildParameterRef_marks (name : MistTemplateName) :
    Marks (base :: bases) joins infos (buildParameterRef name)
      (Pure.pure (.paramRef (name.resolve base))) name.isRelative := by
  intro cache info _
  simp only [buildParameterRef]
  cases hrel : name.isRelative with
  | false =>
    rw [TemplateContextInfo.mark_false]
    simp [MistTemplateName.resolve, hrel]
    rfl
  | true =>
    simp only [Bool.not_true, Bool.false_eq_true, if_false]
    rw [run_bind_ok baseParamName_run]
    simp [MistTemplateName.resolve, hrel]
    rfl

/-- The scope of a join asks for the base, so the flag is set whatever is inside. -/
theorem Marks.joinScope {f : α → MistParamNameAbs → BuildM β}
    (hm : Marks (base :: bases) (base :: joins) infos m m' uses)
    (hf : ∀ a, Marks (base :: bases) joins infos (f a base) (f' a) false) :
    Marks (base :: bases) joins infos
      (do beginJoinScope
          let a ← m
          endJoinScope
          let base ← baseParamName
          f a base)
      (m' >>= f') true := by
  intro cache info hindex
  have hbegin : beginJoinScope.run ⟨cache, base :: bases, joins, info :: infos⟩ =
      .ok (⟨⟩, ⟨cache, base :: bases, base :: joins,
        info.mark (base :: bases).length true :: infos⟩) := by
    rw [beginJoinScope, run_bind_ok baseParamName_run]
    rfl
  rw [run_bind_ok hbegin]
  refine run_bind_withStacks (hm cache (info.mark (base :: bases).length true) hindex)
    fun a cache' => ?_
  have hend : endJoinScope.run ⟨cache', base :: bases, base :: joins,
      (info.mark (base :: bases).length true).mark (base :: bases).length uses :: infos⟩ =
      .ok (⟨⟩, ⟨cache', base :: bases, joins,
        info.mark (base :: bases).length true :: infos⟩) := by
    rw [TemplateContextInfo.mark_mark, Bool.true_or]
    rfl
  have hrun := hf a cache' (info.mark (base :: bases).length true) hindex
  rw [TemplateContextInfo.mark_false] at hrun
  rw [run_bind_ok hend, run_bind_ok baseParamName_run, List.length_cons,
    TemplateContextInfo.mark_mark, Bool.true_or]
  exact hrun

theorem Marks.withContext (context : MistTemplateName)
    (hm : Marks (context.resolve base :: base :: bases) joins infos m m' uses) :
    Marks (base :: bases) joins infos
      (do pushBaseParam context
          let a ← m
          popBaseParam
          return a)
      m' context.isRelative := by
  intro cache info hindex
  rw [run_bind_ok (pushBaseParam_run context)]
  have hrun := hm cache (info.mark (base :: bases).length context.isRelative)
    (Nat.le_succ_of_le hindex)
  have hlt : (info.mark (base :: bases).length context.isRelative).contextIndex <
      (context.resolve base :: base :: bases).length := Nat.lt_succ_of_le hindex
  rw [TemplateContextInfo.mark_of_lt hlt] at hrun
  rw [← bind_pure m']
  exact run_bind_withStacks hrun fun a cache' => rfl

theorem createGroup_marks (order : EvalOrder) {ref : Str → BuildM MistTemplateGroupBlock}
    {ref' : Str → MistParamNameAbs → List MistParamNameAbs → CacheM MistTemplateGroupBlock}
    (href : ∀ name cache base bases joins infos,
      (ref name).run ⟨cache, base :: bases, joins, infos⟩ =
        withStacks (base :: bases) joins infos ((ref' name base joins).run cache))
    (t : Template) (base : MistParamNameAbs) (bases joins : List MistParamNameAbs)
    (infos : List TemplateContextInfo) :
    Marks (base :: bases) joins infos (createGroup order ref t) (blockOf order ref' t base joins)
      t.usesContext := by
  induction t using Template.ind generalizing base bases joins infos with
  | empty =>
    rw [createGroup, blockOf, Template.usesContext]
    exact .pure _
  | sequence ts ih =>
    rw [createGroup, blockOf, Template.usesContext]
    suffices hall : Marks (base :: bases) joins infos (createGroups order ref ts)
        (blocksOf order ref' ts base joins) (Template.usesContextAny ts) by
      exact (hall.bind fun blocks => .pure _).congr (Bool.or_false _)
    induction ts with
    | nil =>
      rw [createGroups, blocksOf, Template.usesContextAny]
      exact .pure _
    | cons t ts ihts =>
      rw [createGroups, blocksOf, Template.usesContextAny]
      have hrest := ihts fun t' ht' => ih t' (List.mem_cons_of_mem _ ht')
      refine (ih t List.mem_cons_self base bases joins infos).bind fun block => ?_
      exact (hrest.bind fun blocks => .pure _).congr (Bool.or_false _)
  | text s =>
    rw [createGroup, blockOf, Template.usesContext]
    exact .pure _
  | ref name =>
    rw [createGroup, blockOf, Template.usesContext]
    cases hsingle : name.single? with
    | some component =>
      rw [(MistTemplateName.single?_eq_some hsingle).1]
      intro cache info _
      rw [TemplateContextInfo.mark_false]
      exact href component cache base bases joins (info :: infos)
    | none => exact buildParameterRef_marks name
  | ifTemplate c p e ihc ihp ihe =>
    rw [createGroup, blockOf, Template.usesContext]
    refine (Marks.bind (Marks.order order (ihc base bases joins infos) (ihp base bases joins infos)
      (ihe base bases joins infos)) fun blocks => .pure _).congr (Bool.or_false _)
  | join reversed t textBetween ih =>
    rw [createGroup, blockOf, Template.usesContext]
    refine (ih base bases (base :: joins) infos).joinScope fun block => ?_
    cases MistTemplateGroupBlock.newJoin reversed block base textBetween with
    | some block' => exact .pure block'
    | none => exact fun cache info _ => rfl
  | withContext context t ih =>
    rw [createGroup, blockOf, Template.usesContext]
    exact (ih (context.resolve base) (base :: bases) joins infos).withContext context
  | index first t ih =>
    rw [createGroup, blockOf, Template.usesContext]
    intro cache info hindex
    have hmax : iterationDepthMax.run ⟨cache, base :: bases, joins, info :: infos⟩ =
        .ok (joins.length - 1, ⟨cache, base :: bases, joins, info :: infos⟩) := rfl
    rw [run_bind_ok hmax]
    refine run_bind_withStacks (ih base bases joins infos cache info hindex) fun block cache' => ?_
    by_cases hlt : joins.length - 1 < joins.length
    · simp [iterationDepth, hlt]
      rfl
    · simp [iterationDepth, hlt]
      rfl
  | indent t s ih =>
    rw [createGroup, blockOf, Template.usesContext]
    exact ((ih base bases joins infos).bind fun block => .pure _).congr (Bool.or_false _)

end Balanced

def NamedCache.set (cache : NamedCache) (name : Str) (entry : NamedBlockCached) : NamedCache :=
  Function.update cache name entry

def NamedCache.storeParam (cache : NamedCache) (name : Str) : NamedCache :=
  cache.set name { cache name with refGlobal := some (.paramRef [name]) }

/-- The template is being built, or not any more. -/
def NamedCache.setProgress (cache : NamedCache) (name : Str) (inProgress : Bool) : NamedCache :=
  cache.set name { cache name with inProgress := inProgress }

def NamedCache.store (cache : NamedCache) (name : Str) (useContext : Bool)
    (base : MistParamNameAbs) (block : MistTemplateGroupBlock) : NamedCache :=
  cache.set name (cacheBlock useContext base block (cache name))

/-- `buildTemplateOrParamRef` with the bases as arguments. -/
def namedBlock (collection : TemplateCollection) (order : EvalOrder) :
    Nat → Str → MistParamNameAbs → List MistParamNameAbs → CacheM MistTemplateGroupBlock
  | 0, _, _, _ => throw .limit
  | limit + 1, name, base, joins => do
      let cache ← get
      match (cache name).refGlobal, collection.findTemplate name with
      | some block, _ => return block
      | none, none => do
          set (cache.storeParam name)
          return .paramRef [name]
      | none, some t =>
        match (cache name).contexts base, (cache name).inProgress with
        | some block, _ => return block
        | none, true => throw .circular
        | none, false => do
            set (cache.setProgress name true)
            let block ← blockOf order (namedBlock collection order limit) t base joins
            let cache ← get
            set ((cache.store name t.usesContext base block).setProgress name false)
            return block

theorem buildTemplateOrParamRef_run
    (collection : TemplateCollection) (order : EvalOrder) (limit : Nat) (name : Str)
    (cache : NamedCache) (base : MistParamNameAbs) (bases joins : List MistParamNameAbs)
    (infos : List TemplateContextInfo) :
    (buildTemplateOrParamRef collection order limit name).run
        ⟨cache, base :: bases, joins, infos⟩ =
      withStacks (base :: bases) joins infos
        ((namedBlock collection order limit name base joins).run cache) := by
  induction limit generalizing name cache base bases joins infos with
  | zero => rfl
  | succ limit ih =>
    rw [buildTemplateOrParamRef, namedBlock]
    rw [run_get_bind, run_get_bind]
    simp only
    cases hglobal : (cache name).refGlobal with
    | some block => rfl
    | none =>
      cases hfind : collection.findTemplate name with
      | none => rfl
      | some t =>
        simp only [back, pure_bind]
        cases hcontext : (cache name).contexts base with
        | some block =>  rfl
        | none =>
          cases hprogress : (cache name).inProgress with
          | true => rfl
          | false =>
            simp only
            rw [run_set_bind, run_set_bind]
            have hprogress' : (modifyCache name fun cache =>
                  { cache with inProgress := true }).run
                ⟨cache, base :: bases, joins,
                  ⟨false, (base :: bases).length⟩ :: infos⟩ =
                .ok (⟨⟩, ⟨cache.setProgress name true, base :: bases, joins,
                  ⟨false, (base :: bases).length⟩ :: infos⟩) := rfl
            rw [run_bind_ok hprogress']
            have hgroup := createGroup_marks order ih t base bases joins infos
              (cache.setProgress name true) ⟨false, (base :: bases).length⟩ le_rfl
            have hflag : TemplateContextInfo.mark ⟨false, (base :: bases).length⟩
                (base :: bases).length t.usesContext =
                ⟨t.usesContext, (base :: bases).length⟩ := by
              simp [TemplateContextInfo.mark]
            rw [hflag] at hgroup
            exact run_bind_withStacks hgroup fun block cache' => rfl

theorem buildGroup_eq
    (collection : TemplateCollection) (order : EvalOrder) (limit : Nat) (mainTemplate : Str) :
    buildGroup collection order limit mainTemplate =
      match collection.findTemplate mainTemplate with
      | none => .error .absent
      | some _ => withStacks [] [] []
          ((namedBlock collection order limit mainTemplate [] [[]]).run .empty) := by
  rw [buildGroup]
  cases collection.findTemplate mainTemplate with
  | none => rfl
  | some t =>
    have hrun := buildTemplateOrParamRef_run collection order limit mainTemplate .empty [] [] [[]] []
    have hstart : (modify fun context : BuildContext =>
          { context with
            baseParamStack := [] :: context.baseParamStack
            joinBaseStack := [] :: context.joinBaseStack } : BuildM PUnit).run
        ⟨.empty, [], [], []⟩ = .ok (⟨⟩, ⟨.empty, [[]], [[]], []⟩) := rfl
    simp only [build]
    rw [run_bind_ok hstart,
      ← bind_pure (namedBlock collection order limit mainTemplate [] [[]])]
    exact run_bind_withStacks hrun fun block cache' => rfl

end Mist
end KedrAux
