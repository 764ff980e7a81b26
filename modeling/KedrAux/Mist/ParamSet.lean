import Mathlib.Tactic

/-!
# Parameter sets and masks

Parameter sets, names and parameter masks of the template engine `mist2`
(`mist_param_set.cpp`, `mist_template_name.hh`).

A map from names to vectors is a list with an entry for every name; the order of
its entries is not observable.  Masks are shared and copied on write in the source;
here they are values.  A failed assertion gives `none`.
-/

namespace KedrAux
namespace Mist

abbrev Str := List Char

abbrev MistParamNameAbs := List Str

structure MistTemplateName where
  components : List Str
  isRelative : Bool
deriving DecidableEq

/--
`ParamSet`: a value, and subsets by name.  The vector of subsets with a name is not
empty, it has a first element and further ones.
-/
inductive ParamSet where
  | mk (value : Str) (subsets : List (Str × ParamSet × List ParamSet))

namespace ParamSet

/-- `emptySet`: shared set for absent values. -/
def emptySet : ParamSet :=
  mk [] []

instance : Inhabited ParamSet :=
  ⟨emptySet⟩

def getValue : ParamSet → Str
  | mk value _ => value

def subsets : ParamSet → List (Str × ParamSet × List ParamSet)
  | mk _ subsets => subsets

def findSubsets (paramSet : ParamSet) (name : Str) : Option (ParamSet × List ParamSet) :=
  paramSet.subsets.lookup name

/-- `getSubsets`: an absent name has a single empty value. -/
def getSubsets (paramSet : ParamSet) (name : Str) : List ParamSet :=
  match paramSet.findSubsets name with
  | some (first, rest) => first :: rest
  | none => [emptySet]

/-- The vector for the name gets an element, or it is inserted with this one. -/
def pushSubset (name : Str) (subset : ParamSet) :
    List (Str × ParamSet × List ParamSet) → List (Str × ParamSet × List ParamSet)
  | [] => [(name, subset, [])]
  | (n, first, rest) :: subsets =>
    if n = name then (n, first, rest ++ [subset]) :: subsets
    else (n, first, rest) :: pushSubset name subset subsets

/-- `addSubset`: add a subset with the name, which has an empty value. -/
def addSubset (paramSet : ParamSet) (name : Str) : ParamSet :=
  mk paramSet.getValue (pushSubset name emptySet paramSet.subsets)

@[simp] theorem getSubsets_ne_nil (paramSet : ParamSet) (name : Str) : paramSet.getSubsets name ≠ [] := by
  unfold getSubsets
  split <;> simp

theorem getSubsets_length_pos (paramSet : ParamSet) (name : Str) :
    0 < (paramSet.getSubsets name).length :=
  List.length_pos_iff.mpr (paramSet.getSubsets_ne_nil name)

end ParamSet

/-- `MistParamMask`: the vector of the pairs of a name and its submask. -/
inductive MistParamMask where
  | nil
  | cons (name : Str) (submask : MistParamMask) (submasks : MistParamMask)
deriving DecidableEq

namespace MistParamMask

def ofName : MistParamNameAbs → MistParamMask
  | [] => nil
  | component :: name => cons component (ofName name) nil

/-- The submask of a child: the first one with the name. -/
def find (subname : Str) : MistParamMask → Option MistParamMask
  | nil => none
  | cons name submask submasks => if name = subname then some submask else find subname submasks

def getSubmask (mask : MistParamMask) : MistParamNameAbs → Option MistParamMask
  | [] => some mask
  | subname :: name => (mask.find subname).bind fun submask => submask.getSubmask name

/-- The child with the name is replaced; the mask has to contain it. -/
def modifyChild (subname : Str) (f : MistParamMask → Option MistParamMask) :
    MistParamMask → Option MistParamMask
  | nil => none
  | cons name submask submasks =>
    if name = subname then (f submask).map fun submask => cons name submask submasks
    else (modifyChild subname f submasks).map fun submasks => cons name submask submasks

/-- `cut`: delete the subtree of the parameter, but not the parameter itself. -/
def cut : MistParamNameAbs → MistParamMask → Option MistParamMask
  | [], _ => some nil
  | subname :: name, mask => mask.modifyChild subname (cut name)

/-- The child with the name is changed; it is added at the end if there is none. -/
def adjoin (subname : Str) (f : Option MistParamMask → MistParamMask) :
    MistParamMask → MistParamMask
  | nil => cons subname (f none) nil
  | cons name submask submasks =>
    if name = subname then cons name (f (some submask)) submasks
    else cons name submask (adjoin subname f submasks)

def append : MistParamMask → MistParamMask → MistParamMask
  | mask, nil => mask
  | mask, cons name submask submasks =>
    append (mask.adjoin name fun sub => sub.elim submask fun sub => append sub submask) submasks

def Has (mask : MistParamMask) (name : MistParamNameAbs) : Prop :=
  (mask.getSubmask name).isSome

@[simp] theorem has_nil (mask : MistParamMask) : mask.Has [] :=
  rfl

variable {mask : MistParamMask} {subname : Str} {name : MistParamNameAbs}

theorem has_cons :
    mask.Has (subname :: name) ↔ ∃ sub, mask.find subname = some sub ∧ sub.Has name := by
  unfold Has
  cases h : mask.find subname <;> simp [getSubmask, h]

theorem getSubmask_append (mask : MistParamMask) :
    ∀ name name' : MistParamNameAbs,
      mask.getSubmask (name ++ name') = (mask.getSubmask name).bind fun sub => sub.getSubmask name'
  | [], _ => rfl
  | subname :: name, name' => by
      rw [List.cons_append, getSubmask, getSubmask, Option.bind_assoc]
      congr 1
      funext sub
      exact getSubmask_append sub name name'

theorem has_ofName (name : MistParamNameAbs) : (ofName name).Has name := by
  induction name with
  | nil => exact has_nil _
  | cons component name ih =>
    refine has_cons.mpr ⟨ofName name, ?_, ih⟩
    simp [ofName, find]

theorem find_adjoin (subname : Str) (f : Option MistParamMask → MistParamMask)
    (mask : MistParamMask) (name : Str) :
    (mask.adjoin subname f).find name =
      if name = subname then some (f (mask.find subname)) else mask.find name := by
  induction mask with
  | nil =>
    by_cases h : name = subname
    · simp [adjoin, find, h]
    · simp [adjoin, find, h, Ne.symm h]
  | cons n sub rest _ ih =>
    by_cases hn : n = subname
    · subst hn
      by_cases h : name = n
      · simp [adjoin, find, h]
      · simp [adjoin, find, h, Ne.symm h]
    · simp only [adjoin, hn, if_false, find, ih]
      by_cases h : name = subname
      · subst h
        simp [hn]
      · simp [h]

theorem has_adjoin_of_has {f : Option MistParamMask → MistParamMask}
    (hf : ∀ sub name', sub.Has name' → (f (some sub)).Has name') (h : mask.Has name) :
    (mask.adjoin subname f).Has name := by
  cases name with
  | nil => exact has_nil _
  | cons component name =>
    obtain ⟨sub, hfind, hhas⟩ := has_cons.mp h
    rw [has_cons, find_adjoin]
    split_ifs with heq
    · subst heq
      exact ⟨_, rfl, by rw [hfind]; exact hf sub name hhas⟩
    · exact ⟨sub, hfind, hhas⟩

theorem has_append_left {mask' : MistParamMask} (h : mask.Has name) :
    (mask.append mask').Has name := by
  induction mask' generalizing mask name with
  | nil => exact h
  | cons n sub rest ihsub ihrest =>
    rw [append]
    exact ihrest (has_adjoin_of_has (fun _ _ hsub => ihsub hsub) h)

theorem has_append_right {mask' : MistParamMask} (h : mask'.Has name) :
    (mask.append mask').Has name := by
  induction mask' generalizing mask name with
  | nil =>
    cases name with
    | nil => exact has_nil _
    | cons component name =>
      obtain ⟨sub, hfind, -⟩ := has_cons.mp h
      cases hfind
  | cons n sub rest ihsub ihrest =>
    rw [append]
    cases name with
    | nil => exact has_nil _
    | cons component name =>
      obtain ⟨sub', hfind, hhas⟩ := has_cons.mp h
      rw [find] at hfind
      split_ifs at hfind with heq
      · -- the name is in the child that was adjoined
        cases hfind
        apply has_append_left
        rw [has_cons, find_adjoin, if_pos heq.symm]
        refine ⟨_, rfl, ?_⟩
        cases mask.find n with
        | none => exact hhas
        | some old => exact ihsub hhas
      · exact ihrest (has_cons.mpr ⟨sub', hfind, hhas⟩)

theorem find_modifyChild {f : MistParamMask → Option MistParamMask} {sub sub' : MistParamMask}
    (hfind : mask.find subname = some sub) (hf : f sub = some sub') :
    ∃ mask', mask.modifyChild subname f = some mask' ∧
      ∀ name, mask'.find name = if name = subname then some sub' else mask.find name := by
  induction mask with
  | nil => cases hfind
  | cons n s rest _ ih =>
    rw [find] at hfind
    split_ifs at hfind with hn
    · subst hn
      cases hfind
      refine ⟨cons n sub' rest, by simp [modifyChild, hf], fun name => ?_⟩
      by_cases h : name = n
      · simp [find, h]
      · simp [find, h, Ne.symm h]
    · obtain ⟨mask', hrun, hmask'⟩ := ih hfind
      refine ⟨cons n s mask', by simp [modifyChild, hn, hrun], fun name => ?_⟩
      rw [find, hmask', find]
      by_cases h : name = subname
      · subst h
        simp [hn]
      · simp [h]

/-- What is cut is only below the name. -/
theorem cut_spec (h : mask.Has name) :
    ∃ mask', cut name mask = some mask' ∧ mask'.Has name ∧
      ∀ name', mask.Has name' → name.isPrefixOf name' = true ∨ mask'.Has name' := by
  induction name generalizing mask with
  | nil => exact ⟨nil, rfl, has_nil _, fun name' _ => Or.inl rfl⟩
  | cons component name ih =>
    obtain ⟨sub, hfind, hsub⟩ := has_cons.mp h
    obtain ⟨sub', hcut, hhas, hrest⟩ := ih hsub
    obtain ⟨mask', hrun, hmask'⟩ := find_modifyChild (f := cut name) hfind hcut
    refine ⟨mask', hrun, ?_, ?_⟩
    · exact has_cons.mpr ⟨sub', by rw [hmask', if_pos rfl], hhas⟩
    · intro name' hname'
      cases name' with
      | nil => exact Or.inr (has_nil _)
      | cons component' name' =>
        obtain ⟨s, hs, hname'⟩ := has_cons.mp hname'
        by_cases heq : component' = component
        · subst heq
          rw [hfind] at hs
          cases hs
          rcases hrest name' hname' with hbelow | hkept
          · left
            simpa using hbelow
          · exact Or.inr (has_cons.mpr ⟨sub', by rw [hmask', if_pos rfl], hkept⟩)
        · exact Or.inr (has_cons.mpr ⟨s, by rw [hmask', if_neg heq, hs], hname'⟩)

end MistParamMask

end Mist
end KedrAux
