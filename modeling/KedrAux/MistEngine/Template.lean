import KedrAux.Lib.ErrorCodes
import Mathlib.Tactic

/-!
# Templates of the MiST engine

The templates of `mist_base.c` and their evaluation.  A group holds templates with names; a
conditional placeholder has three more templates of its own: for its result and for its two
branches.  The string chunks and the placeholders of a template do not change; its values and
its flag do, and they are kept in a state.

Failed assertions and accesses out of range are errors of the model.
-/

namespace KedrAux
namespace MistEngine

open ErrorCodes

abbrev Str := List UInt8

/-- The placeholders of a template in their order.  The branches of a conditional placeholder are
given by their string chunks and placeholders. -/
inductive Placeholders where
  | nil
  | plain (name : Str) (rest : Placeholders)
  | join (name sep : Str) (rest : Placeholders)
  | cond (name : Str) (isConcat : Bool) (thenSch : List Str) (thenPh : Placeholders)
      (elseSch : List Str) (elsePh : Placeholders) (rest : Placeholders)
deriving DecidableEq

def Placeholders.length : Placeholders → Nat
  | .nil => 0
  | .plain _ rest => rest.length + 1
  | .join _ _ rest => rest.length + 1
  | .cond _ _ _ _ _ _ rest => rest.length + 1

/-- A template without string chunks is an attribute. -/
structure Template where
  sch : List Str
  ph : Placeholders
deriving DecidableEq

/-- Each branch has one more string chunk than placeholders. -/
def Placeholders.WellFormed : Placeholders → Prop
  | .nil => True
  | .plain _ rest => rest.WellFormed
  | .join _ _ rest => rest.WellFormed
  | .cond _ _ thenSch thenPh elseSch elsePh rest =>
    (thenSch.length = thenPh.length + 1 ∧ thenPh.WellFormed) ∧
      (elseSch.length = elsePh.length + 1 ∧ elsePh.WellFormed) ∧ rest.WellFormed

def Template.WellFormed (t : Template) : Prop :=
  t.sch.length = t.ph.length + 1 ∧ t.ph.WellFormed

/-- The templates that a group is created from; those for attributes are not listed. -/
structure Group where
  templates : List (Str × Template)
  main : Str
  wellFormed : ∀ p ∈ templates, p.2.WellFormed

/-- The template with the given name.  A name that is not found is an attribute. -/
def Group.template (group : Group) (name : Str) : Template :=
  (group.templates.lookup name).getD ⟨[], .nil⟩

/-- The names that placeholders refer to, also in branches. -/
def Placeholders.names : Placeholders → List Str
  | .nil => []
  | .plain name rest => name :: rest.names
  | .join name _ rest => name :: rest.names
  | .cond name _ _ thenPh _ elsePh rest =>
    name :: (thenPh.names ++ (elsePh.names ++ rest.names))

/-- Whether there is a template or an attribute with the given name. -/
def Group.has (group : Group) (name : Str) : Bool :=
  group.templates.any fun p => p.1 == name || p.2.ph.names.contains name

/-- The templates that belong to a conditional placeholder. -/
inductive Part where
  | result
  | thenBranch
  | elseBranch
deriving DecidableEq

/-- Where a template is: a template of the group, or one of the parts of the placeholder with the
given number, in such a template or in a branch. -/
structure Address where
  root : Str
  path : List (Nat × Part)
deriving DecidableEq

def Address.child (a : Address) (i : Nat) (part : Part) : Address :=
  ⟨a.root, (i, part) :: a.path⟩

def named (name : Str) : Address :=
  ⟨name, []⟩

/-- The data of a template that change. -/
structure Values where
  vals : List Str
  isEvaluated : Bool

/-- The log is not a part of the program: it has the templates of the group that were evaluated. -/
structure State where
  tpl : Address → Values
  log : List Str

inductive Stop where
  | outOfMemory
  /-- A failed assertion. -/
  | assertion
  /-- An access to an array or to a buffer behind its end. -/
  | outOfRange
  /-- The recursion is too deep for the model. -/
  | outOfFuel
deriving DecidableEq

def assert (p : Prop) [Decidable p] : Except Stop Unit :=
  assertOr .assertion p

/-- Whether an allocation succeeds, for each template and each allocation in its evaluation. -/
abbrev Allocation := Address → Nat → Bool

def allocate (alloc : Allocation) (a : Address) (n : Nat) : Except Stop Unit :=
  if (List.range n).all (alloc a) then .ok () else .error .outOfMemory

def State.set (s : State) (a : Address) (v : Values) : State :=
  { s with tpl := Function.update s.tpl a v }

def templateClearValues (s : State) (a : Address) : State :=
  s.set a ⟨[], false⟩

def templateAddValue (s : State) (a : Address) (val : Str) : State :=
  s.set a ⟨(s.tpl a).vals ++ [val], (s.tpl a).isEvaluated⟩

def State.setEvaluated (s : State) (a : Address) : State :=
  s.set a ⟨(s.tpl a).vals, true⟩

/-- A placeholder as the construction of values sees it: its separator, when it is a join, and the
template with its values. -/
structure Cell where
  sep : Option Str
  tpl : Address

def Placeholders.cells (a : Address) : Nat → Placeholders → List Cell
  | _, .nil => []
  | i, .plain name rest => ⟨none, named name⟩ :: rest.cells a (i + 1)
  | i, .join name sep rest => ⟨some sep, named name⟩ :: rest.cells a (i + 1)
  | i, .cond _ _ _ _ _ _ rest => ⟨none, a.child i .result⟩ :: rest.cells a (i + 1)

def stringTotalLength (strings : List Str) : Nat :=
  (strings.map List.length).sum

def placeholderMaxLength (s : State) (ph : Cell) : Except Stop Nat := do
  assert ((s.tpl ph.tpl).isEvaluated = true)
  let vals := (s.tpl ph.tpl).vals
  if vals.length = 0 then return 0
  match ph.sep with
  | some sep => return stringTotalLength vals + (vals.length - 1) * sep.length
  | none => return vals.foldl (fun len val => if len < val.length then val.length else len) 0

def templateMaxLength (s : State) (sch : List Str) (phs : List Cell) : Except Stop Nat :=
  phs.foldlM (fun len ph => do return len + (← placeholderMaxLength s ph)) (stringTotalLength sch)

def templateNumValues (s : State) (phs : List Cell) : Nat :=
  phs.foldl (fun num ph =>
    if ph.sep = none then
      let nvals := (s.tpl ph.tpl).vals.length
      if num < nvals then nvals else num
    else num) 1

/-- `strncpy` to the end of what is written in a buffer of the given size.  Nothing is done for an
empty string. -/
def appendString (size : Nat) (buf str : Str) : Except Stop Str :=
  if str.length = 0 then .ok buf
  else if buf.length + str.length ≤ size then .ok (buf ++ str)
  else .error .outOfRange

def copyString (size : Nat) (pos : List Str) (str : Str) : Except Stop (List Str) :=
  pos.mapM fun buf => appendString size buf str

/-- The values are appended one after another, with the separator between them. -/
def placeholderJoinValues (size : Nat) (vals : List Str) (sep buf : Str) : Except Stop Str :=
  match vals with
  | [] => .ok buf
  | val :: vals => do
      let buf ← appendString size buf val
      vals.foldlM (fun buf val => do
        let buf ← appendString size buf sep
        appendString size buf val) buf

/-- Each value goes to its buffer, and the last one also goes to the remaining buffers. -/
def copyEach (size : Nat) : List Str → List Str → Str → Except Stop (List Str)
  | [], _, _ => .ok []
  | buf :: pos, val :: vals, _ => do
      let buf ← appendString size buf val
      return buf :: (← copyEach size pos vals val)
  | buf :: pos, [], last => do
      let buf ← appendString size buf last
      return buf :: (← copyEach size pos [] last)

def copyPlaceholderValues (s : State) (size : Nat) (pos : List Str) (ph : Cell) :
    Except Stop (List Str) :=
  let vals := (s.tpl ph.tpl).vals
  if vals.length = 0 then .ok pos
  else match ph.sep with
  | some sep =>
    match pos with
    | [] => .error .outOfRange
    | buf :: pos => do
        let buf' ← placeholderJoinValues size vals sep buf
        -- the other strings are copied from the first one
        let pos ← copyString size pos (buf'.drop buf.length)
        return buf' :: pos
  | none => do
      assert (vals.length ≤ pos.length)
      copyEach size pos vals []

/-- The second pass: the values of a template, in buffers of `maxLen + 1` bytes. -/
def constructValues (s : State) (maxLen nvals : Nat) (sch : List Str) (phs : List Cell) :
    Except Stop (List Str) :=
  match sch with
  | [] => .error .outOfRange
  | sch0 :: sch => do
      let pos ← copyString (maxLen + 1) (List.replicate nvals []) sch0
      let pos ← (phs.zip sch).foldlM (fun pos p => do
        let pos ← copyPlaceholderValues s (maxLen + 1) pos p.1
        copyString (maxLen + 1) pos p.2) pos
      -- terminating zeros
      pos.mapM fun buf => if buf.length + 1 ≤ maxLen + 1 then .ok buf else .error .outOfRange

/-- `mist_template_evaluate`, where the evaluation of the placeholders is a parameter. -/
def templateEvaluate (alloc : Allocation) (a : Address) (t : Template)
    (evaluatePlaceholders : State → Except Stop State) (s : State) : Except Stop State :=
  if (s.tpl a).isEvaluated then .ok s
  else do
    let s := if a.path = [] then { s with log := s.log ++ [a.root] } else s
    if t.sch.length = 0 then
      assert (t.ph.length = 0)
      if (s.tpl a).vals.length = 0 then
        allocate alloc a 2
        return (templateAddValue s a []).setEvaluated a
      else return s.setEvaluated a
    else
      assert (t.sch.length = t.ph.length + 1)
      let s ← evaluatePlaceholders ((templateClearValues s a).setEvaluated a)
      let phs := t.ph.cells a 0
      let nvals := templateNumValues s phs
      let maxLen ← templateMaxLength s t.sch phs
      assert (nvals ≠ 0)
      allocate alloc a (2 + 2 * nvals)
      let vals ← constructValues s maxLen nvals t.sch phs
      return s.set a ⟨vals, (s.tpl a).isEvaluated⟩

/-- The second pass over a conditional placeholder: `left` values are to be determined, from the
value `i` on; `c` is the current condition, and `conds` are the next ones. -/
def selectValues (thenBranch elseBranch : Values) :
    (left i : Nat) → (c : Str) → (conds : List Str) → Except Stop (List Str)
  | 0, _, _, _ => .ok []
  | left + 1, i, c, conds => do
      let branch := if c.length ≠ 0 then thenBranch else elseBranch
      assert (branch.isEvaluated = true)
      let nvals := branch.vals.length
      assert (1 ≤ nvals)
      let elem := if i < nvals then i else nvals - 1
      match branch.vals[elem]? with
      | none => .error .outOfRange
      | some val =>
        match conds with
        | [] => return val :: (← selectValues thenBranch elseBranch left (i + 1) c [])
        | c' :: conds =>
          return val :: (← selectValues thenBranch elseBranch left (i + 1) c' conds)

/-- The evaluation of a conditional placeholder after its condition was evaluated.  The condition
is not evaluated again, so its values stay as they are. -/
def evaluateBranches (alloc : Allocation) (conds : List Str) (isConcat : Bool)
    (result thenBranch elseBranch : Address)
    (evaluateThen evaluateElse : State → Except Stop State) (s : State) : Except Stop State := do
  assert (1 ≤ conds.length)
  if isConcat then
    let cexpr := conds.any fun c => c.length ≠ 0
    let s ← (if cexpr then evaluateThen else evaluateElse) s
    let vals := (s.tpl (if cexpr then thenBranch else elseBranch)).vals
    assert (1 ≤ vals.length)
    allocate alloc result (2 * vals.length)
    return s.set result ⟨(s.tpl result).vals ++ vals, true⟩
  else
    let (s, ntotal) ← conds.foldlM (fun (s, ntotal) c => do
      let s ← (if c.length ≠ 0 then evaluateThen else evaluateElse) s
      let nvals := (s.tpl (if c.length ≠ 0 then thenBranch else elseBranch)).vals.length
      return (s, if nvals > ntotal then nvals else ntotal)) (s, conds.length)
    assert (1 ≤ ntotal)
    match conds with
    | [] => .error .outOfRange
    | c :: conds =>
      let vals ← selectValues (s.tpl thenBranch) (s.tpl elseBranch) ntotal 0 c conds
      allocate alloc result (2 * ntotal)
      return s.set result ⟨(s.tpl result).vals ++ vals, true⟩

/-- `mist_placeholder_evaluate` for each placeholder from the number `i` on, in the template at the
given address; `call` evaluates a template of the group. -/
def evaluatePlaceholders (alloc : Allocation) (call : Str → State → Except Stop State) :
    (a : Address) → (i : Nat) → Placeholders → State → Except Stop State
  | _, _, .nil, s => .ok s
  | a, i, .plain name rest, s => do
      let s ← call name s
      evaluatePlaceholders alloc call a (i + 1) rest s
  | a, i, .join name _ rest, s => do
      let s ← call name s
      evaluatePlaceholders alloc call a (i + 1) rest s
  | a, i, .cond name isConcat thenSch thenPh elseSch elsePh rest, s => do
      let result := a.child i .result
      let thenBranch := a.child i .thenBranch
      let elseBranch := a.child i .elseBranch
      let s := templateClearValues s result
      let s := templateClearValues s thenBranch
      let s := templateClearValues s elseBranch
      let s ← call name s
      let s ← evaluateBranches alloc (s.tpl (named name)).vals isConcat result thenBranch elseBranch
        (templateEvaluate alloc thenBranch ⟨thenSch, thenPh⟩
          (evaluatePlaceholders alloc call thenBranch 0 thenPh))
        (templateEvaluate alloc elseBranch ⟨elseSch, elsePh⟩
          (evaluatePlaceholders alloc call elseBranch 0 elsePh)) s
      evaluatePlaceholders alloc call a (i + 1) rest s

/-- `mist_template_evaluate` for a template of the group; the fuel bounds the depth of the
recursion. -/
def evaluateNamed (group : Group) (alloc : Allocation) :
    (fuel : Nat) → Str → State → Except Stop State
  | 0, name => templateEvaluate alloc (named name) (group.template name)
      fun _ => .error .outOfFuel
  | fuel + 1, name => templateEvaluate alloc (named name) (group.template name)
      (evaluatePlaceholders alloc (evaluateNamed group alloc fuel) (named name) 0
        (group.template name).ph)

def State.create : State where
  tpl := fun _ => ⟨[], false⟩
  log := []

/-- Nothing is done for a name that is not known in the group. -/
def tgAddValue (group : Group) (s : State) (name val : Str) : State :=
  if group.has name then templateAddValue s (named name) val else s

/-- The flags of the templates of the group are cleared, but not those of branches. -/
def State.resetFlags (s : State) : State where
  tpl := fun a => if a.path = [] then ⟨(s.tpl a).vals, false⟩ else s.tpl a
  log := []

/-- Evaluates the main template; the result is its list of values. -/
def tgEvaluate (group : Group) (alloc : Allocation) (s : State) :
    Except Stop (State × List Str) := do
  let s ← evaluateNamed group alloc group.templates.length group.main s.resetFlags
  return (s, (s.tpl (named group.main)).vals)

/-- The values of the templates of the group are cleared, but not those of branches. -/
def tgClearValues (s : State) : State :=
  { s with tpl := fun a => if a.path = [] then ⟨[], false⟩ else s.tpl a }

end MistEngine
end KedrAux
