import KedrAux.MistEngine.Refinement

/-!
# Groups with recursion

Templates may refer to themselves.  A template that is met again during its own evaluation has no
values yet, and the places that copy or join values cope with that.  Conditional placeholders do
not: they expect at least one value of the condition.

The evaluation is followed here from placeholder to placeholder, with the stack of templates that
are being evaluated.  An assertion fails exactly when it comes to a conditional placeholder whose
condition is in the stack.
-/

namespace KedrAux
namespace MistEngine

open ErrorCodes

def Placeholders.first : Placeholders → Option Str
  | .nil => none
  | .plain name _ => some name
  | .join name _ _ => some name
  | .cond name _ _ _ _ _ _ => some name

def branchPart (c : Bool) : Part :=
  if c then .thenBranch else .elseBranch

/-- Calls for the placeholders of the first template in the stack. -/
def callFrom (group : Group) (alloc : Allocation) (params : Str → List Str) (stack : List Str) :
    Str → Memo → Except Stop Memo :=
  memoNamed group alloc params (group.templates.length - stack.length)

/-- The evaluation of a branch of a conditional placeholder. -/
def memoPart (group : Group) (alloc : Allocation) (params : Str → List Str) (stack : List Str)
    (a : Address) (sch : List Str) (ph : Placeholders) : Memo → Except Stop (List Str × Memo) :=
  memoTemplate alloc a sch (memoPlaceholders alloc (callFrom group alloc params stack) a 0 ph)

/-- The evaluation of the main template comes to the placeholders `ph`, which are those from the
number `i` on in the template at `a`.  The templates in `stack` are being evaluated. -/
inductive Comes (group : Group) (alloc : Allocation) (params : Str → List Str) :
    (stack : List Str) → (a : Address) → (i : Nat) → (ph : Placeholders) → (m : Memo) → Prop where
  | main
      (hsch : (group.template group.main).sch.length ≠ 0) :
      Comes group alloc params [group.main] (named group.main) 0 (group.template group.main).ph
        (Memo.empty.enter group.main)
  /-- The first placeholder refers to a template whose evaluation has not begun. -/
  | enter {stack a i ph m name}
      (h : Comes group alloc params stack a i ph m)
      (hfirst : ph.first = some name)
      (hname : m.vals name = none)
      (hsch : (group.template name).sch.length ≠ 0) :
      Comes group alloc params (name :: stack) (named name) 0 (group.template name).ph
        (m.enter name)
  | plain {stack a i name rest m m'}
      (h : Comes group alloc params stack a i (.plain name rest) m)
      (hcall : callFrom group alloc params stack name m = .ok m') :
      Comes group alloc params stack a (i + 1) rest m'
  | join {stack a i name sep rest m m'}
      (h : Comes group alloc params stack a i (.join name sep rest) m)
      (hcall : callFrom group alloc params stack name m = .ok m') :
      Comes group alloc params stack a (i + 1) rest m'
  /-- The branch that is selected in a concat-expression. -/
  | concat {stack a i name thenSch thenPh elseSch elsePh rest m m' c}
      (h : Comes group alloc params stack a i (.cond name true thenSch thenPh elseSch elsePh rest) m)
      (hcall : callFrom group alloc params stack name m = .ok m')
      (hconds : m'.get name ≠ [])
      (hc : c = (m'.get name).any fun c => c.length ≠ 0) :
      Comes group alloc params stack (a.child i (branchPart c)) 0 (if c then thenPh else elsePh) m'
  /-- A branch that is selected by a condition and by none of the conditions before it. -/
  | branch {stack a i name thenSch thenPh elseSch elsePh rest m m' m'' before cond after b c}
      (h : Comes group alloc params stack a i (.cond name false thenSch thenPh elseSch elsePh rest) m)
      (hcall : callFrom group alloc params stack name m = .ok m')
      (hconds : m'.get name = before ++ cond :: after)
      (hbefore : memoBranches
        (memoPart group alloc params stack (a.child i .thenBranch) thenSch thenPh)
        (memoPart group alloc params stack (a.child i .elseBranch) elseSch elsePh)
        before ⟨none, none⟩ m' = .ok (b, m''))
      (hc : c = decide (cond.length ≠ 0))
      (hb : (if c then b.thenVals else b.elseVals) = none) :
      Comes group alloc params stack (a.child i (branchPart c)) 0 (if c then thenPh else elsePh) m''
  | cond {stack a i name isConcat thenSch thenPh elseSch elsePh rest m m' m'' vals}
      (h : Comes group alloc params stack a i
        (.cond name isConcat thenSch thenPh elseSch elsePh rest) m)
      (hcall : callFrom group alloc params stack name m = .ok m')
      (hconditional : memoConditional alloc (m'.get name) isConcat (a.child i .result)
        (memoPart group alloc params stack (a.child i .thenBranch) thenSch thenPh)
        (memoPart group alloc params stack (a.child i .elseBranch) elseSch elsePh) m' =
          .ok (vals, m'')) :
      Comes group alloc params stack a (i + 1) rest m''

/-- The evaluation never comes to a conditional placeholder whose condition is being evaluated. -/
def ConditionsKnown (group : Group) (alloc : Allocation) (params : Str → List Str) : Prop :=
  ∀ {stack a i name isConcat thenSch thenPh elseSch elsePh rest m},
    Comes group alloc params stack a i (.cond name isConcat thenSch thenPh elseSch elsePh rest) m →
      name ∉ stack

variable {group : Group} {alloc : Allocation} {params : Str → List Str} {stack : List Str}
  {a : Address} {i : Nat} {ph : Placeholders} {m m' : Memo}

abbrev NonEmpty (_ : Str) (vals : List Str) : Prop :=
  vals ≠ []

theorem goodValues_nonEmpty (group : Group) (alloc : Allocation) (params : Str → List Str) :
    GoodValues group alloc params NonEmpty := by
  refine ⟨fun name vals _ hvals => ?_, fun name cs _ => templateValues_ne_nil _ cs⟩
  rw [attributeValues] at hvals
  split_ifs at hvals with hlength
  · obtain ⟨-, -, hvals⟩ := bind_eq_ok hvals
    cases hvals
    exact List.cons_ne_nil _ _
  · cases hvals
    exact fun hnil => hlength (congrArg List.length hnil)

theorem callFrom_grows : CallGrows NonEmpty (callFrom group alloc params stack) :=
  memoNamed_grows (goodValues_nonEmpty group alloc params) _

theorem memoPart_grows {sch : List Str} :
    PartGrows NonEmpty (memoPart group alloc params stack a sch ph) :=
  memoTemplate_grows (memoPlaceholders_grows callFrom_grows ph a 0)

/-- The templates in the stack are those without values, and each template was begun once. -/
structure StackTable (group : Group) (stack : List Str) (m : Memo) : Prop where
  begun : ∀ name ∈ stack, m.vals name = some []
  done : ∀ name vals, m.vals name = some vals → name ∉ stack → vals ≠ []
  depth : m.remaining group + stack.length ≤ group.templates.length
  log : m.log.Nodup ∧ ∀ name ∈ m.log, (m.vals name).isSome = true

theorem StackTable.mono (h : StackTable group stack m) (hgrows : Grows NonEmpty m m') :
    StackTable group stack m' where
  begun := fun name hname => hgrows.vals name [] (h.begun name hname)
  done := by
    intro name vals hvals hname
    cases hold : m.vals name with
    | none => exact hgrows.good name vals hold hvals
    | some old =>
      have hkept := hgrows.vals name old hold
      rw [hvals, Option.some.injEq] at hkept
      exact hkept ▸ h.done name old hold hname
  depth := (Nat.add_le_add_right (hgrows.remaining_le group) _).trans h.depth
  log := by
    obtain ⟨new, hlog, hnodup, hnew⟩ := hgrows.log
    rw [hlog]
    refine ⟨List.nodup_append.mpr ⟨h.log.1, hnodup, fun name hname name' hname' heq => ?_⟩,
      fun name hname => ?_⟩
    · have hsome := h.log.2 name hname
      rw [heq, (hnew name' hname').1] at hsome
      cases hsome
    · rcases List.mem_append.mp hname with hname | hname
      · exact hgrows.isSome (h.log.2 name hname)
      · exact (hnew name hname).2

variable {name : Str} {e : Stop} {isConcat : Bool}

theorem StackTable.enter (h : StackTable group stack m) (hname : m.vals name = none)
    (hsch : (group.template name).sch.length ≠ 0) :
    StackTable group (name :: stack) (m.enter name) := by
  have hother : ∀ name', name' ≠ name → (m.enter name).vals name' = m.vals name' :=
    fun name' hne => memo_set_other _ _ hne
  have hsame : (m.enter name).vals name = some [] := memo_set_same _ _ _
  refine ⟨fun name' hname' => ?_, fun name' vals hvals hnot => ?_, ?_, ?_, fun name' hname' => ?_⟩
  · by_cases hne : name' = name
    · rw [hne, hsame]
    · rw [hother name' hne]
      exact h.begun name' ((List.mem_cons.mp hname').resolve_left hne)
  · rw [hother name' fun heq => hnot (heq ▸ List.mem_cons_self)] at hvals
    exact h.done name' vals hvals fun hmem => hnot (List.mem_cons_of_mem _ hmem)
  · have hlt := remaining_enter_lt hsch hname
    have hdepth := h.depth
    rw [List.length_cons]
    omega
  · refine List.nodup_append.mpr ⟨h.log.1, List.nodup_singleton name, fun name' hname' _ hmem heq => ?_⟩
    have hsome := h.log.2 name' hname'
    rw [heq, List.mem_singleton.mp hmem, hname] at hsome
    cases hsome
  · by_cases hne : name' = name
    · rw [hne, hsame]
      rfl
    · rw [hother name' hne]
      refine h.log.2 name' ((List.mem_append.mp hname').resolve_right fun hmem => ?_)
      exact hne (List.mem_singleton.mp hmem)

theorem stackTable_empty (group : Group) : StackTable group [] .empty where
  begun := fun _ h => (by cases h)
  done := fun _ _ h => (by cases h)
  depth := remaining_le_length group _
  log := ⟨List.nodup_nil, fun _ h => (by cases h)⟩

theorem Comes.table (h : Comes group alloc params stack a i ph m) : StackTable group stack m := by
  induction h with
  | main hsch => exact (stackTable_empty group).enter rfl hsch
  | enter _ _ hname hsch ih => exact ih.enter hname hsch
  | plain _ hcall ih
  | join _ hcall ih
  | concat _ hcall _ _ ih => exact ih.mono (callFrom_grows _ _ _ hcall).1
  | branch _ hcall _ hbefore _ _ ih =>
    exact (ih.mono (callFrom_grows _ _ _ hcall).1).mono
      (memoBranches_grows memoPart_grows memoPart_grows hbefore)
  | cond _ hcall hconditional ih =>
    exact (ih.mono (callFrom_grows _ _ _ hcall).1).mono
      (memoConditional_grows memoPart_grows memoPart_grows _ _ _ hconditional)

theorem memoPlaceholders_of_first {call : Str → Memo → Except Stop Memo}
    (hfirst : ph.first = some name) (he : call name m = .error e) (a : Address) (i : Nat) :
    memoPlaceholders alloc call a i ph m = .error e := by
  cases ph with
  | nil => cases hfirst
  | plain name' rest
  | join name' sep rest
  | cond name' isConcat thenSch thenPh elseSch elsePh rest =>
    cases hfirst
    rw [memoPlaceholders, he]
    rfl

/-- A call for a template whose evaluation has not begun, which has string chunks. -/
theorem memoNamed_of_enter (hname : m.vals name = none)
    (hsch : (group.template name).sch.length ≠ 0) (fuel : Nat) :
    memoNamed group alloc params (fuel + 1) name m = (do
      let (vals, m) ← memoTemplate alloc (named name) (group.template name).sch
        (memoPlaceholders alloc (memoNamed group alloc params fuel) (named name) 0
          (group.template name).ph) (m.enter name)
      return m.set name vals) := by
  rw [memoNamed, memoEvaluate, hname, if_neg (by simp), if_neg hsch]

theorem StackTable.callFrom_of_enter (h : StackTable group stack m) (hname : m.vals name = none)
    (hsch : (group.template name).sch.length ≠ 0) :
    callFrom group alloc params stack name m = (do
      let (vals, m) ← memoTemplate alloc (named name) (group.template name).sch
        (memoPlaceholders alloc (callFrom group alloc params (name :: stack)) (named name) 0
          (group.template name).ph) (m.enter name)
      return m.set name vals) := by
  have hdepth := h.depth
  have hlt := remaining_enter_lt hsch hname
  have hfuel : group.templates.length - stack.length =
      group.templates.length - (name :: stack).length + 1 := by
    rw [List.length_cons]
    omega
  rw [callFrom, hfuel]
  exact memoNamed_of_enter hname hsch _

theorem memoGroup_of_enter (hsch : (group.template group.main).sch.length ≠ 0) :
    memoGroup group alloc params = (do
      let (vals, m) ← memoTemplate alloc (named group.main) (group.template group.main).sch
        (memoPlaceholders alloc (callFrom group alloc params [group.main]) (named group.main) 0
          (group.template group.main).ph) (Memo.empty.enter group.main)
      return m.set group.main vals) :=
  (stackTable_empty group).callFrom_of_enter rfl hsch

theorem memoTemplate_error (alloc : Allocation) {columns : Memo → Except Stop (List Column × Memo)}
    (he : columns m = .error e) (a : Address) (sch : List Str) :
    memoTemplate alloc a sch columns m = .error e := by
  rw [memoTemplate, he]
  rfl

variable {evaluateThen evaluateElse : Memo → Except Stop (List Str × Memo)}

section Branches

variable {b : Branches}

theorem memoBranch_error {cond : Str}
    (hb : (if decide (cond.length ≠ 0) then b.thenVals else b.elseVals) = none)
    (he : (if decide (cond.length ≠ 0) then evaluateThen else evaluateElse) m = .error e) :
    memoBranch evaluateThen evaluateElse b m cond = .error e := by
  rw [memoBranch]
  simp only [decide_eq_true_eq] at hb he
  split_ifs at hb he ⊢ with hc hsome hsome
  · rw [hb] at hsome
    cases hsome
  · rw [he]
    rfl
  · rw [hb] at hsome
    cases hsome
  · rw [he]
    rfl

theorem memoBranches_append {before : List Str} {b' : Branches}
    (h : memoBranches evaluateThen evaluateElse before b m = .ok (b', m')) (after : List Str) :
    memoBranches evaluateThen evaluateElse (before ++ after) b m =
      memoBranches evaluateThen evaluateElse after b' m' := by
  induction before generalizing b m with
  | nil =>
    cases h
    rfl
  | cons c before ih =>
    obtain ⟨⟨b1, m1⟩, hbranch, h⟩ := bind_eq_ok h
    rw [List.cons_append, memoBranches, hbranch]
    exact ih h

end Branches

theorem memoPart_branch
    (group : Group) (alloc : Allocation) (params : Str → List Str) (stack : List Str) (a : Address)
    (i : Nat) (thenSch : List Str) (thenPh : Placeholders) (elseSch : List Str)
    (elsePh : Placeholders) (c : Bool) :
    (if c then memoPart group alloc params stack (a.child i .thenBranch) thenSch thenPh
      else memoPart group alloc params stack (a.child i .elseBranch) elseSch elsePh) =
    memoPart group alloc params stack (a.child i (branchPart c)) (if c then thenSch else elseSch)
      (if c then thenPh else elsePh) := by
  cases c with
  | true => rfl
  | false => rfl

variable {thenSch elseSch : List Str} {thenPh elsePh rest : Placeholders}

theorem memoPlaceholders_cond_eq (hcall : callFrom group alloc params stack name m = .ok m') :
    memoPlaceholders alloc (callFrom group alloc params stack) a i
        (.cond name isConcat thenSch thenPh elseSch elsePh rest) m = (do
      let (vals, m) ← memoConditional alloc (m'.get name) isConcat (a.child i .result)
        (memoPart group alloc params stack (a.child i .thenBranch) thenSch thenPh)
        (memoPart group alloc params stack (a.child i .elseBranch) elseSch elsePh) m'
      let (cs, m') ← memoPlaceholders alloc (callFrom group alloc params stack) a (i + 1) rest m
      return (⟨none, vals⟩ :: cs, m')) := by
  rw [memoPlaceholders, hcall, ok_bind]
  rfl

/-- An error in the placeholders that the evaluation comes to is the result of the evaluation. -/
theorem Comes.error (h : Comes group alloc params stack a i ph m)
    (he : memoPlaceholders alloc (callFrom group alloc params stack) a i ph m = .error e) :
    memoGroup group alloc params = .error e := by
  induction h with
  | main hsch => rw [memoGroup_of_enter hsch, memoTemplate_error alloc he, error_bind]
  | @enter stack a i ph m name h hfirst hname hsch ih =>
    refine ih (memoPlaceholders_of_first hfirst ?_ a i)
    rw [h.table.callFrom_of_enter hname hsch, memoTemplate_error alloc he, error_bind]
  | plain h hcall ih
  | join h hcall ih =>
    apply ih
    rw [memoPlaceholders, hcall, ok_bind, he]
    rfl
  | @concat stack a i name thenSch thenPh elseSch elsePh rest m m' c h hcall hconds hc ih =>
    apply ih
    have hlength : 1 ≤ (m'.get name).length := List.length_pos_of_ne_nil hconds
    have hbranch := memoTemplate_error alloc he (a.child i (branchPart c))
      (if c then thenSch else elseSch)
    rw [memoPlaceholders_cond_eq hcall, memoConditional, assert_true hlength, ok_bind, if_pos rfl,
      ← hc, memoPart_branch, memoPart, hbranch]
    rfl
  | @branch stack a i name thenSch thenPh elseSch elsePh rest m m' m'' before cond after b c h hcall
      hconds hbefore hc hb ih =>
      apply ih
      have hlength : 1 ≤ (m'.get name).length := by
        rw [hconds, List.length_append, List.length_cons]
        omega
      have hbranch := memoTemplate_error alloc he (a.child i (branchPart c))
        (if c then thenSch else elseSch)
      subst hc
      have hcond := memoBranch_error hb ((congrFun (memoPart_branch ..) m'').trans hbranch)
      rw [memoPlaceholders_cond_eq hcall, memoConditional, assert_true hlength, ok_bind,
        if_neg Bool.false_ne_true, hconds, memoBranches_append hbefore, memoBranches, hcond]
      rfl
  | cond h hcall hconditional ih =>
    apply ih
    rw [memoPlaceholders_cond_eq hcall, hconditional, ok_bind]
    simp only [he]
    rfl

theorem Comes.assertion
    (h : Comes group alloc params stack a i (.cond name isConcat thenSch thenPh elseSch elsePh rest) m)
    (hname : name ∈ stack) :
    memoGroup group alloc params = .error .assertion := by
  have hvals := h.table.begun name hname
  have hcall : callFrom group alloc params stack name m = .ok m := by
    rw [callFrom]
    cases group.templates.length - stack.length with
    | zero
    | succ fuel => rw [memoNamed, memoEvaluate, hvals]; rfl
  apply h.error
  rw [memoPlaceholders_cond_eq hcall, memoConditional, Memo.get, hvals]
  rfl

/-- The only error is that there is no memory. -/
def Completes {α : Type} (x : Except Stop α) : Prop :=
  ∀ e, x = .error e → e = .outOfMemory

theorem Completes.ok {α : Type} (r : α) : Completes (Except.ok r : Except Stop α) :=
  fun _ h => (by cases h)

theorem Completes.bind {α β : Type} {x : Except Stop α} {f : α → Except Stop β} (hx : Completes x)
    (hf : ∀ r, x = .ok r → Completes (f r)) :
    Completes (x >>= f) := by
  cases x with
  | ok r => exact hf r rfl
  | error e =>
    intro e' h
    cases h
    exact hx e rfl

theorem completes_allocate (alloc : Allocation) (a : Address) (n : Nat) :
    Completes (allocate alloc a n) := by
  intro e h
  rw [allocate] at h
  split_ifs at h
  cases h
  rfl

theorem completes_memoTemplate
    {columns : Memo → Except Stop (List Column × Memo)} (h : Completes (columns m)) (a : Address)
    (sch : List Str) :
    Completes (memoTemplate alloc a sch columns m) :=
  h.bind fun _ _ => (completes_allocate alloc _ _).bind fun _ _ => .ok _

theorem completes_attributeValues (alloc : Allocation) (params : Str → List Str) (name : Str) :
    Completes (attributeValues alloc params name) := by
  rw [attributeValues]
  split_ifs
  · exact (completes_allocate alloc _ _).bind fun _ _ => .ok _
  · exact .ok _

theorem StackTable.completes_callFrom (h : StackTable group stack m) (name : Str)
    (henter : m.vals name = none → (group.template name).sch.length ≠ 0 →
      Completes (memoPlaceholders alloc (callFrom group alloc params (name :: stack)) (named name) 0
        (group.template name).ph (m.enter name))) :
    Completes (callFrom group alloc params stack name m) := by
  cases hname : m.vals name with
  | some vals =>
    rw [callFrom]
    cases group.templates.length - stack.length with
    | zero
    | succ fuel => rw [memoNamed, memoEvaluate, hname]; exact .ok _
  | none =>
    by_cases hsch : (group.template name).sch.length = 0
    · have hattribute := completes_attributeValues alloc params name
      rw [callFrom]
      cases group.templates.length - stack.length with
      | zero
      | succ fuel =>
        rw [memoNamed, memoEvaluate, hname, if_neg (by simp), if_pos hsch]
        exact hattribute.bind fun _ _ => .ok _
    · rw [h.callFrom_of_enter hname hsch]
      exact (completes_memoTemplate (henter hname hsch) _ _).bind fun _ _ => .ok _

section Branches

/-- Conditions are taken one after another; `before` are those that were taken. -/
theorem completes_memoBranches {m0 : Memo} {conds : List Str}
    (h : ∀ before cond after b m, conds = before ++ cond :: after →
      memoBranches evaluateThen evaluateElse before ⟨none, none⟩ m0 = .ok (b, m) →
      (if decide (cond.length ≠ 0) then b.thenVals else b.elseVals) = none →
      Completes ((if decide (cond.length ≠ 0) then evaluateThen else evaluateElse) m)) :
    ∀ (left before : List Str) (b : Branches) (m : Memo), conds = before ++ left →
      memoBranches evaluateThen evaluateElse before ⟨none, none⟩ m0 = .ok (b, m) →
      Completes (memoBranches evaluateThen evaluateElse left b m) := by
  intro left
  induction left with
  | nil => exact fun _ _ _ _ _ => .ok _
  | cons cond left ih =>
    intro before b m hconds hbefore
    have hbranch : Completes (memoBranch evaluateThen evaluateElse b m cond) := by
      have hcond := h before cond left b m hconds hbefore
      rw [memoBranch]
      simp only [decide_eq_true_eq] at hcond
      split_ifs at hcond ⊢ with hc hsome hsome
      · exact .ok _
      · exact (hcond (Option.not_isSome_iff_eq_none.mp hsome)).bind fun _ _ => .ok _
      · exact .ok _
      · exact (hcond (Option.not_isSome_iff_eq_none.mp hsome)).bind fun _ _ => .ok _
    refine hbranch.bind fun r hr => ih (before ++ [cond]) r.1 r.2 ?_ ?_
    · rw [List.append_assoc]
      exact hconds
    · rw [memoBranches_append hbefore, memoBranches, hr]
      rfl

end Branches

theorem completes_memoConditional {conds : List Str} (hconds : conds ≠ []) {result : Address}
    {evaluateThen evaluateElse : Memo → Except Stop (List Str × Memo)} (hconcat : isConcat = true →
      Completes ((if conds.any fun c => c.length ≠ 0 then evaluateThen else evaluateElse) m))
    (hbranches : isConcat = false → ∀ before cond after b m', conds = before ++ cond :: after →
      memoBranches evaluateThen evaluateElse before ⟨none, none⟩ m = .ok (b, m') →
      (if decide (cond.length ≠ 0) then b.thenVals else b.elseVals) = none →
      Completes ((if decide (cond.length ≠ 0) then evaluateThen else evaluateElse) m')) :
    Completes (memoConditional alloc conds isConcat result evaluateThen evaluateElse m) := by
  rw [memoConditional, assert_true (show 1 ≤ _ from List.length_pos_of_ne_nil hconds), ok_bind]
  cases isConcat with
  | true =>
    exact (hconcat rfl).bind fun _ _ => (completes_allocate alloc _ _).bind fun _ _ => .ok _
  | false =>
    refine (completes_memoBranches (hbranches rfl) conds [] ⟨none, none⟩ m rfl rfl).bind fun _ _ => ?_
    exact (completes_allocate alloc _ _).bind fun _ _ => .ok _

/-- The evaluation of placeholders ends, if the evaluation of what they refer to does. -/
theorem completes_memoPlaceholders (hknown : ConditionsKnown group alloc params)
    (hcall : ∀ {a i ph m name}, Comes group alloc params stack a i ph m → ph.first = some name →
      Completes (callFrom group alloc params stack name m))
    (h : Comes group alloc params stack a i ph m) :
    Completes (memoPlaceholders alloc (callFrom group alloc params stack) a i ph m) := by
  induction ph generalizing a i m with
  | nil => exact .ok _
  | plain name rest ih =>
    exact (hcall h rfl).bind fun m' hm' => (ih (h.plain hm')).bind fun _ _ => .ok _
  | join name sep rest ih =>
    exact (hcall h rfl).bind fun m' hm' => (ih (h.join hm')).bind fun _ _ => .ok _
  | cond name isConcat thenSch thenPh elseSch elsePh rest ihThen ihElse ih =>
    have hpart : ∀ {c : Bool} {a' m'}, Comes group alloc params stack a' 0
      (if c then thenPh else elsePh) m' →
        Completes (memoPart group alloc params stack a' (if c then thenSch else elseSch)
          (if c then thenPh else elsePh) m') := by
      intro c a' m' hcomes
      refine completes_memoTemplate ?_ _ _
      cases c with
      | true => exact ihThen hcomes
      | false => exact ihElse hcomes
    refine (hcall h rfl).bind fun m' hm' => ?_
    obtain ⟨hgrows, hsome⟩ := callFrom_grows _ _ _ hm'
    obtain ⟨vals, hvals⟩ := Option.isSome_iff_exists.mp hsome
    have hconds : m'.get name ≠ [] := by
      rw [Memo.get, hvals]
      exact (h.table.mono hgrows).done name vals hvals (hknown h)
    refine (completes_memoConditional hconds ?_ ?_).bind fun r hr =>
      (ih (h.cond hm' hr)).bind fun _ _ => .ok _
    · rintro rfl
      exact memoPart_branch .. ▸ hpart (h.concat hm' hconds rfl)
    · rintro rfl before cond after b m'' hbefore hok hb
      exact memoPart_branch .. ▸ hpart (h.branch hm' hbefore hok rfl hb)

/-- The evaluation completes from each place that it comes to.  The stack cannot have more
templates than the group. -/
theorem Comes.completes (hknown : ConditionsKnown group alloc params) (k : Nat)
    (hk : group.templates.length ≤ stack.length + k)
    (h : Comes group alloc params stack a i ph m) :
    Completes (memoPlaceholders alloc (callFrom group alloc params stack) a i ph m) := by
  induction k generalizing stack a i ph m with
  | zero =>
    refine completes_memoPlaceholders hknown (fun {a i ph m name} h hfirst => ?_) h
    refine h.table.completes_callFrom name fun hname hsch => ?_
    have hdepth := h.table.depth
    have hlt := remaining_enter_lt hsch hname
    omega
  | succ k ihk =>
    refine completes_memoPlaceholders hknown (fun {a i ph m name} h hfirst => ?_) h
    refine h.table.completes_callFrom name fun hname hsch => ?_
    refine ihk ?_ (h.enter hfirst hname hsch)
    rw [List.length_cons]
    omega

theorem completes_memoGroup (hknown : ConditionsKnown group alloc params) :
    Completes (memoGroup group alloc params) := by
  refine (stackTable_empty group).completes_callFrom group.main fun _ hsch => ?_
  exact Comes.completes hknown group.templates.length (Nat.le_add_left _ _) (.main hsch)

/-- No assertion fails and no access is out of range, and each template of the group is evaluated at
most once: when the evaluation returns, and at each place that it comes to. -/
def Harmless (group : Group) (alloc : Allocation) (s : State) : Prop :=
  Completes (tgEvaluate group alloc s) ∧
    (∀ s' vals, tgEvaluate group alloc s = .ok (s', vals) → s'.log.Nodup) ∧
    ∀ {stack a i ph m}, Comes group alloc s.attributes stack a i ph m → m.log.Nodup

theorem tgEvaluate_log_nodup
    {s s' : State} {vals : List Str} (h : tgEvaluate group alloc s = .ok (s', vals)) :
    s'.log.Nodup := by
  have hagree := tgEvaluate_agree group alloc s
  rw [h] at hagree
  generalize hm : memoGroup group alloc s.attributes = r at hagree
  cases hagree with
  | @ok _ m hrefines =>
    have hgrows := (memoNamed_grows (goodValues_nonEmpty group alloc s.attributes) _ _ _ _ hm).1
    rw [hrefines.2.1]
    exact ((stackTable_empty group).mono hgrows).log.1

/-- Recursion does no harm if and only if no condition is met during its own evaluation. -/
theorem harmless_iff (group : Group) (alloc : Allocation) (s : State) :
    Harmless group alloc s ↔ ConditionsKnown group alloc s.attributes := by
  have hagree := tgEvaluate_agree group alloc s
  constructor
  · intro h stack a i name isConcat thenSch thenPh elseSch elsePh rest m hcomes hname
    rw [hcomes.assertion hname] at hagree
    have heq := h.1 _ hagree.error_right
    cases heq
  · intro hknown
    refine ⟨fun e he => ?_, fun s' vals hok => tgEvaluate_log_nodup hok,
      fun hcomes => hcomes.table.log.1⟩
    rw [he] at hagree
    generalize hr : memoGroup group alloc s.attributes = r at hagree
    cases hagree with
    | error => exact completes_memoGroup hknown e hr

/-- The template "m" is "<$if m$>x<$endif$>". -/
def selfGroup : Group where
  templates := [([109], ⟨[[], []], .cond [109] false [[120]] .nil [[]] .nil .nil⟩)]
  main := [109]
  wellFormed := by
    intro p hp
    rw [List.eq_of_mem_singleton hp]
    exact ⟨rfl, ⟨rfl, trivial⟩, ⟨rfl, trivial⟩, trivial⟩

/-- The condition refers to the template itself, and the assertion about its values fails. -/
theorem not_harmless_selfGroup :
    tgEvaluate selfGroup (fun _ _ => true) .create = .error .assertion ∧
      ¬ Harmless selfGroup (fun _ _ => true) .create := by
  have hassertion : tgEvaluate selfGroup (fun _ _ => true) .create = .error .assertion := rfl
  refine ⟨hassertion, fun h => ?_⟩
  have heq := h.1 _ hassertion
  cases heq

end MistEngine
end KedrAux
