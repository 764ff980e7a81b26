import KedrAux.MistEngine.Values

/-!
# Evaluation with a table of results

An abstract evaluation of a group.  It keeps a table with the values of the templates that were
evaluated, and nothing else: a template that is being evaluated has no values yet, and the
results and the branches of conditional placeholders are plain results of functions.

The table only grows: each template gets its values once.
-/

namespace KedrAux
namespace MistEngine

open ErrorCodes

/-- The values of the templates that were evaluated, or whose evaluation has begun. -/
structure Memo where
  vals : Str → Option (List Str)
  log : List Str

def Memo.set (m : Memo) (name : Str) (vals : List Str) : Memo :=
  { m with vals := Function.update m.vals name (some vals) }

theorem memo_set_same (m : Memo) (name : Str) (vals : List Str) :
    (m.set name vals).vals name = some vals :=
  Function.update_self ..

variable {name : Str}

theorem memo_set_other (m : Memo) {name' : Str} (vals : List Str) (h : name' ≠ name) :
    (m.set name vals).vals name' = m.vals name' :=
  Function.update_of_ne h ..

def Memo.get (m : Memo) (name : Str) : List Str :=
  (m.vals name).getD []

/-- The values of an attribute; there is one empty value when none was added. -/
def attributeValues (alloc : Allocation) (params : Str → List Str) (name : Str) :
    Except Stop (List Str) :=
  if (params name).length = 0 then do
    allocate alloc (named name) 2
    return [[]]
  else .ok (params name)

/-- The values of a template with string chunks. -/
def memoTemplate (alloc : Allocation) (a : Address) (sch : List Str)
    (columns : Memo → Except Stop (List Column × Memo)) (m : Memo) :
    Except Stop (List Str × Memo) := do
  let (cs, m) ← columns m
  allocate alloc a (2 + 2 * numValues cs)
  return (templateValues sch cs, m)

/-- The values of the branches that were evaluated in a conditional placeholder. -/
structure Branches where
  thenVals : Option (List Str)
  elseVals : Option (List Str)

/-- A branch is evaluated for the first condition that selects it. -/
def memoBranch (evaluateThen evaluateElse : Memo → Except Stop (List Str × Memo)) (b : Branches)
    (m : Memo) (c : Str) : Except Stop (Branches × Memo) :=
  if c.length ≠ 0 then
    if b.thenVals.isSome then .ok (b, m)
    else do
      let (vals, m) ← evaluateThen m
      return ({ b with thenVals := some vals }, m)
  else
    if b.elseVals.isSome then .ok (b, m)
    else do
      let (vals, m) ← evaluateElse m
      return ({ b with elseVals := some vals }, m)

def memoBranches (evaluateThen evaluateElse : Memo → Except Stop (List Str × Memo)) :
    List Str → Branches → Memo → Except Stop (Branches × Memo)
  | [], b, m => .ok (b, m)
  | c :: conds, b, m => do
      let (b, m) ← memoBranch evaluateThen evaluateElse b m c
      memoBranches evaluateThen evaluateElse conds b m

/-- The values of a conditional placeholder whose condition has the values `conds`. -/
def memoConditional (alloc : Allocation) (conds : List Str) (isConcat : Bool) (result : Address)
    (evaluateThen evaluateElse : Memo → Except Stop (List Str × Memo)) (m : Memo) :
    Except Stop (List Str × Memo) := do
  assert (1 ≤ conds.length)
  if isConcat then
    let (vals, m) ← (if conds.any fun c => c.length ≠ 0 then evaluateThen else evaluateElse) m
    allocate alloc result (2 * vals.length)
    return (vals, m)
  else
    let (b, m) ← memoBranches evaluateThen evaluateElse conds ⟨none, none⟩ m
    let thenVals := b.thenVals.getD []
    let elseVals := b.elseVals.getD []
    allocate alloc result (2 * numSelected thenVals elseVals conds)
    return (selectedValues thenVals elseVals conds, m)

def memoPlaceholders (alloc : Allocation) (call : Str → Memo → Except Stop Memo) :
    (a : Address) → (i : Nat) → Placeholders → Memo → Except Stop (List Column × Memo)
  | _, _, .nil, m => .ok ([], m)
  | a, i, .plain name rest, m => do
      let m ← call name m
      let (cs, m') ← memoPlaceholders alloc call a (i + 1) rest m
      return (⟨none, m.get name⟩ :: cs, m')
  | a, i, .join name sep rest, m => do
      let m ← call name m
      let (cs, m') ← memoPlaceholders alloc call a (i + 1) rest m
      return (⟨some sep, m.get name⟩ :: cs, m')
  | a, i, .cond name isConcat thenSch thenPh elseSch elsePh rest, m => do
      let m ← call name m
      let (vals, m) ← memoConditional alloc (m.get name) isConcat (a.child i .result)
        (memoTemplate alloc (a.child i .thenBranch) thenSch
          (memoPlaceholders alloc call (a.child i .thenBranch) 0 thenPh))
        (memoTemplate alloc (a.child i .elseBranch) elseSch
          (memoPlaceholders alloc call (a.child i .elseBranch) 0 elsePh)) m
      let (cs, m') ← memoPlaceholders alloc call a (i + 1) rest m
      return (⟨none, vals⟩ :: cs, m')

/-- The beginning of the evaluation of a template with string chunks. -/
def Memo.enter (m : Memo) (name : Str) : Memo :=
  { m with log := m.log ++ [name] }.set name []

/-- The evaluation of a template of the group, where the evaluation of its placeholders is a
parameter. -/
def memoEvaluate (group : Group) (alloc : Allocation) (params : Str → List Str) (name : Str)
    (columns : Memo → Except Stop (List Column × Memo)) (m : Memo) : Except Stop Memo :=
  if (m.vals name).isSome then .ok m
  else if (group.template name).sch.length = 0 then do
    let vals ← attributeValues alloc params name
    return { m with log := m.log ++ [name] }.set name vals
  else do
    let (vals, m) ← memoTemplate alloc (named name) (group.template name).sch columns
      (m.enter name)
    return m.set name vals

def memoNamed (group : Group) (alloc : Allocation) (params : Str → List Str) :
    (fuel : Nat) → Str → Memo → Except Stop Memo
  | 0, name => memoEvaluate group alloc params name fun _ => .error .outOfFuel
  | fuel + 1, name => memoEvaluate group alloc params name
      (memoPlaceholders alloc (memoNamed group alloc params fuel) (named name) 0
        (group.template name).ph)

def Memo.empty : Memo where
  vals := fun _ => none
  log := []

/-- The values of the main template in the abstract evaluation, with the log. -/
def memoGroup (group : Group) (alloc : Allocation) (params : Str → List Str) :
    Except Stop Memo :=
  memoNamed group alloc params group.templates.length group.main .empty

variable {Good : Str → List Str → Prop} {alloc : Allocation} {m m' m'' : Memo}

/-- Values are only added to the table, each name at most once, and the new values have the given
property. -/
structure Grows (Good : Str → List Str → Prop) (m m' : Memo) : Prop where
  vals : ∀ name v, m.vals name = some v → m'.vals name = some v
  good : ∀ name v, m.vals name = none → m'.vals name = some v → Good name v
  log : ∃ new, m'.log = m.log ++ new ∧ new.Nodup ∧
    ∀ name ∈ new, m.vals name = none ∧ (m'.vals name).isSome = true

theorem Grows.refl (m : Memo) : Grows Good m m where
  vals := fun _ _ h => h
  good := by
    intro name v hnone hsome
    rw [hnone] at hsome
    cases hsome
  log := ⟨[], (List.append_nil _).symm, List.nodup_nil, fun _ h => (by cases h)⟩

theorem Grows.isSome (h : Grows Good m m') (hname : (m.vals name).isSome = true) :
    (m'.vals name).isSome = true := by
  obtain ⟨v, hv⟩ := Option.isSome_iff_exists.mp hname
  rw [h.vals name v hv]
  rfl

theorem Grows.eq_none (h : Grows Good m m') (hname : m'.vals name = none) : m.vals name = none := by
  cases hv : m.vals name with
  | none => rfl
  | some v =>
    rw [h.vals name v hv] at hname
    cases hname

theorem Grows.trans (h : Grows Good m m') (h' : Grows Good m' m'') : Grows Good m m'' where
  vals := fun name v hv => h'.vals name v (h.vals name v hv)
  good := by
    intro name v hnone hsome
    cases hv : m'.vals name with
    | none => exact h'.good name v hv hsome
    | some v' =>
      have heq := h'.vals name v' hv
      rw [hsome, Option.some.injEq] at heq
      exact heq ▸ h.good name v' hnone hv
  log := by
    obtain ⟨new, hlog, hnodup, hnew⟩ := h.log
    obtain ⟨new', hlog', hnodup', hnew'⟩ := h'.log
    refine ⟨new ++ new', ?_, ?_, fun name hname => ?_⟩
    · rw [hlog', hlog, List.append_assoc]
    · refine List.nodup_append.mpr ⟨hnodup, hnodup', fun name hname name' hname' heq => ?_⟩
      have hsome := (hnew name hname).2
      rw [heq, (hnew' name' hname').1] at hsome
      cases hsome
    · rcases List.mem_append.mp hname with hname | hname
      · exact ⟨(hnew name hname).1, h'.isSome (hnew name hname).2⟩
      · exact ⟨h.eq_none (hnew' name hname).1, (hnew' name hname).2⟩

theorem Grows.set {vals : List Str} (hname : m.vals name = none) (h : Grows Good (m.enter name) m')
    (hgood : Good name vals) :
    Grows Good m (m'.set name vals) where
  vals := by
    intro name' v hv
    have hne : name' ≠ name := by
      rintro rfl
      rw [hname] at hv
      cases hv
    rw [memo_set_other _ _ hne]
    exact h.vals name' v ((memo_set_other _ _ hne).trans hv)
  good := by
    intro name' v hnone hsome
    by_cases hne : name' = name
    · rw [hne, memo_set_same, Option.some.injEq] at hsome
      exact hne ▸ hsome ▸ hgood
    · rw [memo_set_other _ _ hne] at hsome
      exact h.good name' v ((memo_set_other _ _ hne).trans hnone) hsome
  log := by
    obtain ⟨new, hlog, hnodup, hnew⟩ := h.log
    have hnot : ∀ name' ∈ new, name' ≠ name := by
      rintro name' hname' rfl
      have hnone := (hnew name' hname').1
      rw [Memo.enter, memo_set_same] at hnone
      cases hnone
    refine ⟨name :: new, ?_, ?_, fun name' hname' => ?_⟩
    · rw [Memo.set, hlog, Memo.enter, Memo.set, List.append_assoc]
      rfl
    · exact List.nodup_cons.mpr ⟨fun hmem => hnot name hmem rfl, hnodup⟩
    · rcases List.mem_cons.mp hname' with rfl | hname'
      · rw [memo_set_same]
        exact ⟨hname, rfl⟩
      · have hne := hnot name' hname'
        have hboth := hnew name' hname'
        rw [Memo.enter, memo_set_other _ _ hne] at hboth
        rw [memo_set_other _ _ hne]
        exact hboth

/-- Calls only add values to the table, and the template of a call is then in it. -/
def CallGrows (Good : Str → List Str → Prop) (call : Str → Memo → Except Stop Memo) : Prop :=
  ∀ name m m', call name m = .ok m' → Grows Good m m' ∧ (m'.vals name).isSome = true

/-- A part of an evaluation only adds values to the table. -/
def PartGrows {α : Type} (Good : Str → List Str → Prop)
    (part : Memo → Except Stop (α × Memo)) : Prop :=
  ∀ m r m', part m = .ok (r, m') → Grows Good m m'

theorem memoTemplate_grows
    {a : Address} {sch : List Str} {columns : Memo → Except Stop (List Column × Memo)}
    (h : PartGrows Good columns) :
    PartGrows Good (memoTemplate alloc a sch columns) := by
  intro m r m' hok
  obtain ⟨⟨cs, m1⟩, hcolumns, hok⟩ := bind_eq_ok hok
  obtain ⟨-, -, hok⟩ := bind_eq_ok hok
  cases hok
  exact h m _ _ hcolumns

section Conditional

variable {evaluateThen evaluateElse : Memo → Except Stop (List Str × Memo)}
  (hthen : PartGrows Good evaluateThen) (helse : PartGrows Good evaluateElse)

include hthen helse

variable {b b' : Branches} {conds : List Str}

theorem memoBranch_grows {c : Str}
    (hok : memoBranch evaluateThen evaluateElse b m c = .ok (b', m')) :
    Grows Good m m' := by
  rw [memoBranch] at hok
  split_ifs at hok
  · cases hok
    exact .refl m
  · obtain ⟨⟨vals, m1⟩, hthen1, hok⟩ := bind_eq_ok hok
    cases hok
    exact hthen m _ _ hthen1
  · cases hok
    exact .refl m
  · obtain ⟨⟨vals, m1⟩, helse1, hok⟩ := bind_eq_ok hok
    cases hok
    exact helse m _ _ helse1

theorem memoBranches_grows (hok : memoBranches evaluateThen evaluateElse conds b m = .ok (b', m')) :
    Grows Good m m' := by
  induction conds generalizing b m with
  | nil =>
    cases hok
    exact .refl _
  | cons c conds ih =>
    obtain ⟨⟨b1, m1⟩, hbranch, hok⟩ := bind_eq_ok hok
    exact (memoBranch_grows hthen helse hbranch).trans (ih hok)

theorem memoConditional_grows {isConcat : Bool} {result : Address} :
    PartGrows Good (memoConditional alloc conds isConcat result evaluateThen evaluateElse) := by
  intro m r m' hok
  obtain ⟨-, -, hok⟩ := bind_eq_ok hok
  cases isConcat with
  | true =>
    obtain ⟨⟨vals, m1⟩, hbranch, hok⟩ := bind_eq_ok hok
    obtain ⟨-, -, hok⟩ := bind_eq_ok hok
    cases hok
    split_ifs at hbranch
    · exact hthen m _ _ hbranch
    · exact helse m _ _ hbranch
  | false =>
    obtain ⟨⟨b, m1⟩, hbranches, hok⟩ := bind_eq_ok hok
    obtain ⟨-, -, hok⟩ := bind_eq_ok hok
    cases hok
    exact memoBranches_grows hthen helse hbranches

end Conditional

theorem memoPlaceholders_grows
    {call : Str → Memo → Except Stop Memo} (hcall : CallGrows Good call) (ph : Placeholders)
    (a : Address) (i : Nat) :
    PartGrows Good (memoPlaceholders alloc call a i ph) := by
  induction ph generalizing a i with
  | nil =>
    intro m cs m' hok
    cases hok
    exact .refl m
  | plain name rest ih
  | join name sep rest ih =>
    intro m cs m' hok
    obtain ⟨m1, hname, hok⟩ := bind_eq_ok hok
    obtain ⟨⟨cs1, m2⟩, hrest, hok⟩ := bind_eq_ok hok
    cases hok
    exact (hcall name m m1 hname).1.trans (ih a (i + 1) m1 cs1 _ hrest)
  | cond name isConcat thenSch thenPh elseSch elsePh rest ihThen ihElse ih =>
    intro m cs m' hok
    obtain ⟨m1, hname, hok⟩ := bind_eq_ok hok
    obtain ⟨⟨vals, m2⟩, hconditional, hok⟩ := bind_eq_ok hok
    obtain ⟨⟨cs1, m3⟩, hrest, hok⟩ := bind_eq_ok hok
    cases hok
    have hconditional := memoConditional_grows
      (memoTemplate_grows (ihThen (a.child i .thenBranch) 0))
      (memoTemplate_grows (ihElse (a.child i .elseBranch) 0)) m1 vals m2 hconditional
    exact ((hcall name m m1 hname).1.trans hconditional).trans (ih a (i + 1) m2 cs1 _ hrest)

/-- What the values of a template must have: it holds for attributes, and for templates whose
columns were evaluated. -/
structure GoodValues (group : Group) (alloc : Allocation) (params : Str → List Str)
    (Good : Str → List Str → Prop) : Prop where
  forAttribute : ∀ name vals, (group.template name).sch.length = 0 →
    attributeValues alloc params name = .ok vals → Good name vals
  forTemplate : ∀ name cs, (group.template name).sch.length ≠ 0 →
    Good name (templateValues (group.template name).sch cs)

variable {group : Group} {params : Str → List Str}

theorem memoEvaluate_grows (hgood : GoodValues group alloc params Good)
    {columns : Memo → Except Stop (List Column × Memo)} (hcolumns : PartGrows Good columns)
    (hok : memoEvaluate group alloc params name columns m = .ok m') :
    Grows Good m m' ∧ (m'.vals name).isSome = true := by
  rw [memoEvaluate] at hok
  split_ifs at hok with hname hsch
  · cases hok
    exact ⟨.refl m, hname⟩
  · have hname := Option.not_isSome_iff_eq_none.mp hname
    obtain ⟨vals, hattribute, hok⟩ := bind_eq_ok hok
    cases hok
    refine ⟨?_, by rw [memo_set_same]; rfl⟩
    have hset := Grows.set hname (.refl (m.enter name)) (hgood.forAttribute name vals hsch hattribute)
    rwa [Memo.enter, Memo.set, Memo.set, Function.update_idem] at hset
  · have hname := Option.not_isSome_iff_eq_none.mp hname
    obtain ⟨⟨vals, m1⟩, htemplate, hok⟩ := bind_eq_ok hok
    cases hok
    refine ⟨?_, by rw [memo_set_same]; rfl⟩
    have hgrows := memoTemplate_grows hcolumns _ _ _ htemplate
    obtain ⟨⟨cs, m2⟩, -, htemplate⟩ := bind_eq_ok htemplate
    obtain ⟨-, -, htemplate⟩ := bind_eq_ok htemplate
    cases htemplate
    exact hgrows.set hname (hgood.forTemplate name cs hsch)

theorem memoNamed_grows (hgood : GoodValues group alloc params Good) (fuel : Nat) :
    CallGrows Good (memoNamed group alloc params fuel) := by
  induction fuel with
  | zero => exact fun name m m' hok => memoEvaluate_grows hgood (fun _ _ _ h => (by cases h)) hok
  | succ fuel ih =>
    exact fun name m m' hok => memoEvaluate_grows hgood (memoPlaceholders_grows ih _ _ _) hok

/-- The number of templates whose evaluation has not begun. -/
def Memo.remaining (group : Group) (m : Memo) : Nat :=
  group.templates.countP fun p => (m.vals p.1).isNone

theorem remaining_le_length (group : Group) (m : Memo) :
    m.remaining group ≤ group.templates.length :=
  List.countP_le_length

theorem Grows.remaining_le (h : Grows Good m m') (group : Group) :
    m'.remaining group ≤ m.remaining group := by
  refine List.countP_mono_left fun p _ hp => ?_
  rw [h.eq_none (Option.isNone_iff_eq_none.mp hp)]
  rfl

theorem Group.mem_of_length_ne (h : (group.template name).sch.length ≠ 0) :
    ∃ p ∈ group.templates, p.1 = name := by
  cases hlookup : group.templates.lookup name with
  | none =>
    rw [Group.template, hlookup] at h
    exact absurd rfl h
  | some t =>
    obtain ⟨before, after, htemplates, -⟩ := List.lookup_eq_some_iff.mp hlookup
    exact ⟨(name, t), htemplates ▸ List.mem_append_right _ List.mem_cons_self, rfl⟩

theorem remaining_enter_lt (hsch : (group.template name).sch.length ≠ 0)
    (hname : m.vals name = none) :
    (m.enter name).remaining group < m.remaining group := by
  obtain ⟨p, hp, rfl⟩ := Group.mem_of_length_ne hsch
  have hgrows : ∀ q : Str × Template, ((m.enter p.1).vals q.1).isNone = true →
      (m.vals q.1).isNone = true := by
    intro q hq
    by_cases hne : q.1 = p.1
    · rw [hne, hname]
      rfl
    · rwa [Memo.enter, memo_set_other _ _ hne] at hq
  obtain ⟨before, after, htemplates⟩ := List.append_of_mem hp
  have hbefore := List.countP_mono_left (l := before) fun q _ => hgrows q
  have hafter := List.countP_mono_left (l := after) fun q _ => hgrows q
  have hsame : ((m.enter p.1).vals p.1).isNone = false := by
    rw [Memo.enter, memo_set_same]
    rfl
  have hnone : (m.vals p.1).isNone = true := by
    rw [hname]
    rfl
  rw [Memo.remaining, Memo.remaining, htemplates]
  simp only [List.countP_append, List.countP_cons, hsame, hnone] at hbefore hafter ⊢
  simp only [Bool.false_eq_true, if_false, if_true]
  omega

end MistEngine
end KedrAux
