import KedrAux.Lib.Lockstep
import KedrAux.Mist.ParamSet

/-!
# Slices of a parameter set

`ParamSetSlice` (`mist_param_set_slice.hh`, `mist_param_set.cpp`): a parameter set in
which each parameter has only one value.  A slice can be moved to the next set of
values; a flag in every node of the slice tells whether its set is the last one.

The sets of values that a slice goes through are described by `enum`.  A slice holds
a position in this list: its flags, indices and values belong to one element of it.
-/

namespace KedrAux
namespace Mist

/--
The vector of `ParamSetSlice::Subslice`: a name, the values for it, the index of the
current one, and the slice for this value (its value, its subslices and its flag).
-/
inductive Subslices where
  | nil
  | cons (name : Str) (values : List ParamSet) (index : Nat)
      (value : ParamSet) (subslices : Subslices) (isSetLastFlag : Bool) (rest : Subslices)

structure ParamSetSlice where
  value : ParamSet
  subslices : Subslices
  isSetLastFlag : Bool

/-- `updateSetLast`, for a subslice with the given fields. -/
def updateSetLast (isSetLastFlag : Bool) (index : Nat) (values : List ParamSet)
    (subFlag : Bool) : Bool :=
  isSetLastFlag && (index + 1 == values.length) && subFlag

namespace Subslices

/-- `setMask` of a slice without subslices. -/
def setMask : MistParamMask → ParamSet → Bool → Subslices × Bool
  | .nil, _, flag => (nil, flag)
  | .cons name submask submasks, value, flag =>
    let values := value.getSubsets name
    let first := values.getD 0 default
    let sub := setMask submask first true
    let rest := setMask submasks value (updateSetLast flag 0 values sub.2)
    (cons name values 0 first sub.1 sub.2 rest.1, rest.2)

/-- `reset`: take the first values of the given parameter set. -/
def reset : Subslices → ParamSet → Bool → Subslices × Bool
  | nil, _, flag => (nil, flag)
  | cons name _ _ _ subslices _ rest, value, flag =>
    let values := value.getSubsets name
    let first := values.getD 0 default
    let sub := reset subslices first true
    let rest := reset rest value (updateSetLast flag 0 values sub.2)
    (cons name values 0 first sub.1 sub.2 rest.1, rest.2)

def nextSet : Subslices → Bool → Subslices × Bool
  | nil, flag => (nil, flag)
  | cons name values index value subslices isSetLastFlag rest, flag =>
    if isSetLastFlag then
      if index + 1 < values.length then
        -- The subslice is not last in the array.
        let next := values.getD (index + 1) default
        let sub := reset subslices next true
        let rest := nextSet rest (updateSetLast flag (index + 1) values sub.2)
        (cons name values (index + 1) next sub.1 sub.2 rest.1, rest.2)
      else
        let rest := nextSet rest flag
        (cons name values index value subslices isSetLastFlag rest.1, rest.2)
    else
      let sub := nextSet subslices true
      let rest := nextSet rest (updateSetLast flag index values sub.2)
      (cons name values index value sub.1 sub.2 rest.1, rest.2)

def find (name : Str) : Subslices → Option ParamSetSlice
  | nil => none
  | cons subname _ _ value subslices isSetLastFlag rest =>
    if subname = name then some ⟨value, subslices, isSetLastFlag⟩ else find name rest

def modify (name : Str) (f : ParamSetSlice → Option ParamSetSlice) :
    Subslices → Option Subslices
  | nil => none
  | cons subname values index value subslices isSetLastFlag rest =>
    if subname = name then
      (f ⟨value, subslices, isSetLastFlag⟩).map fun slice =>
        cons subname values index slice.value slice.subslices slice.isSetLastFlag rest
    else (modify name f rest).map fun rest =>
      cons subname values index value subslices isSetLastFlag rest

end Subslices

namespace ParamSetSlice

def new (paramSet : ParamSet) (mask : MistParamMask) : ParamSetSlice :=
  ⟨paramSet, (Subslices.setMask mask paramSet true).1, (Subslices.setMask mask paramSet true).2⟩

def resetMask (slice : ParamSetSlice) (mask : MistParamMask) : ParamSetSlice :=
  new slice.value mask

def reset (slice : ParamSetSlice) (value : ParamSet) : ParamSetSlice :=
  ⟨value, (slice.subslices.reset value true).1, (slice.subslices.reset value true).2⟩

def nextSet (slice : ParamSetSlice) : ParamSetSlice :=
  ⟨slice.value, (slice.subslices.nextSet true).1, (slice.subslices.nextSet true).2⟩

def isSetLast (slice : ParamSetSlice) : Bool :=
  slice.isSetLastFlag

def getValue (slice : ParamSetSlice) : Str :=
  slice.value.getValue

def getSubslice (slice : ParamSetSlice) : MistParamNameAbs → Option ParamSetSlice
  | [] => some slice
  | subname :: name => (slice.subslices.find subname).bind fun sub => sub.getSubslice name

/-- A write to the result of `getSubslice`. -/
def modify : MistParamNameAbs → (ParamSetSlice → ParamSetSlice) → ParamSetSlice →
    Option ParamSetSlice
  | [], f, slice => some (f slice)
  | subname :: name, f, slice =>
    (slice.subslices.modify subname (modify name f)).map fun subslices =>
      { slice with subslices := subslices }

end ParamSetSlice

/-- The values that a slice has for the names of its mask. -/
inductive Choice where
  | nil
  | cons (name : Str) (value : ParamSet) (choice : Choice) (rest : Choice)
deriving Inhabited

def Subslices.choice : Subslices → Choice
  | nil => .nil
  | cons name _ _ value subslices _ rest => .cons name value subslices.choice rest.choice

/--
The sets of values for a mask, in the order in which a slice goes through them.  The
values for a child of the mask are listed with the sets for its own submask; the
children are read in lockstep.
-/
def enum : MistParamMask → ParamSet → List Choice
  | .nil, _ => [.nil]
  | .cons name submask submasks, v =>
    Lockstep.zip (fun c e => .cons name c.1 c.2 e)
      ((v.getSubsets name).flatMap fun u => (enum submask u).map fun e => (u, e))
      (enum submasks v)

def enumValue (submask : MistParamMask) (u : ParamSet) : List (ParamSet × Choice) :=
  (enum submask u).map fun e => (u, e)

def enumChild (name : Str) (submask : MistParamMask) (v : ParamSet) : List (ParamSet × Choice) :=
  (v.getSubsets name).flatMap (enumValue submask)

theorem enum_cons (name : Str) (submask submasks : MistParamMask) (v : ParamSet) :
    enum (.cons name submask submasks) v =
      Lockstep.zip (fun c e => .cons name c.1 c.2 e) (enumChild name submask v) (enum submasks v) :=
  rfl

section Enum

variable (mask : MistParamMask) (v : ParamSet)

@[simp] theorem length_enumValue : (enumValue mask v).length = (enum mask v).length := by
  rw [enumValue, List.length_map]

@[simp] theorem enum_ne_nil : enum mask v ≠ [] := by
  induction mask generalizing v with
  | nil => simp [enum]
  | cons name submask submasks ihsub ihrest =>
    rw [enum_cons]
    apply Lockstep.zip_ne_nil
    intro hnil
    obtain ⟨u, hu⟩ := List.exists_mem_of_ne_nil _ (v.getSubsets_ne_nil name)
    have hpart := List.flatMap_eq_nil_iff.mp hnil u hu
    exact ihsub u (List.map_eq_nil_iff.mp hpart)

@[simp] theorem enumValue_ne_nil : enumValue mask v ≠ [] := by
  intro h
  exact enum_ne_nil mask v (List.map_eq_nil_iff.mp h)

@[simp] theorem enumChild_ne_nil (name : Str) : enumChild name mask v ≠ [] := by
  intro h
  obtain ⟨u, hu⟩ := List.exists_mem_of_ne_nil _ (v.getSubsets_ne_nil name)
  exact enumValue_ne_nil mask u (List.flatMap_eq_nil_iff.mp h u hu)

theorem enum_length_pos : 0 < (enum mask v).length :=
  List.length_pos_iff.mpr (enum_ne_nil mask v)

end Enum

def Subslices.allLast : Subslices → Bool
  | nil => true
  | cons _ values index _ _ isSetLastFlag rest =>
    (index + 1 == values.length) && isSetLastFlag && rest.allLast

/--
The subslices are at the position `k` of the list of sets for the mask and the value.
A child is at the set `j` of its value `index`; its position does not exceed the last
one.
-/
inductive Subslices.At : MistParamMask → ParamSet → Nat → Subslices → Prop
  | nil (v : ParamSet) (k : Nat) : At .nil v k .nil
  | cons {name : Str} {submask submasks : MistParamMask} {v : ParamSet} {k : Nat}
      {index j : Nat} {value : ParamSet} {sub rest : Subslices} {flag : Bool}
      (hindex : index < (v.getSubsets name).length)
      (hvalue : value = (v.getSubsets name)[index])
      (hsub : At submask value j sub)
      (hj : j < (enum submask value).length)
      (hflag : flag = decide (j + 1 = (enum submask value).length))
      (hpos : Lockstep.offset (enumValue submask) (v.getSubsets name) index + j =
        min k ((enumChild name submask v).length - 1))
      (hrest : At submasks v k rest) :
      At (.cons name submask submasks) v k
        (.cons name (v.getSubsets name) index value sub flag rest)

namespace Subslices

variable {mask : MistParamMask} {v : ParamSet} {k : Nat} {subs : Subslices}

theorem At.choice_eq (h : At mask v k subs) : subs.choice = Lockstep.clamp (enum mask v) k := by
  induction h with
  | nil v k => simp [Subslices.choice, enum, Lockstep.clamp]
  | @cons name submask submasks v k index j value sub rest flag hindex hvalue hsub hj hflag hpos
      hrest ihsub ihrest =>
      subst hvalue
      rw [enum_cons, Lockstep.clamp_zip _ (enumChild_ne_nil submask v name) (enum_ne_nil submasks v)]
      have hchild : Lockstep.clamp (enumChild name submask v) k =
          ((v.getSubsets name)[index], Lockstep.clamp (enum submask (v.getSubsets name)[index]) j) := by
        apply Lockstep.clamp_eq_of_getElem?
        rw [← hpos, enumChild, Lockstep.getElem?_flatMap_offset _ hindex (by simpa using hj),
          enumValue, List.getElem?_map, List.getElem?_eq_getElem hj, Lockstep.clamp_of_lt hj]
        rfl
      rw [hchild, Subslices.choice, ihsub, ihrest]

theorem At.allLast_iff (h : At mask v k subs) :
    subs.allLast = true ↔ (enum mask v).length ≤ k + 1 := by
  induction h with
  | nil v k => simp [allLast, enum]
  | @cons name submask submasks v k index j value sub rest flag hindex hvalue hsub hj hflag hpos
      hrest ihsub ihrest =>
      subst hvalue
      have hlast := Lockstep.offset_add_eq_last_iff (enumValue submask) hindex
        (fun u _ => enumValue_ne_nil submask u) (by simpa using hj)
      have hposc : 0 < (enumChild name submask v).length :=
        List.length_pos_iff.mpr (enumChild_ne_nil submask v name)
      change _ = (enumChild name submask v).length - 1 ↔ _ at hlast
      rw [length_enumValue] at hlast
      rw [enum_cons, Lockstep.length_zip, allLast, Bool.and_eq_true, Bool.and_eq_true, ihrest, hflag,
        beq_iff_eq, decide_eq_true_eq, ← hlast, hpos]
      omega

theorem At.allLast_eq (h : At mask v k subs) (hk : k < (enum mask v).length) :
    subs.allLast = decide (k + 1 = (enum mask v).length) := by
  rw [Bool.eq_iff_iff, h.allLast_iff, decide_eq_true_eq]
  omega

theorem updateSetLast_and (flag : Bool) (index : Nat) (values : List ParamSet)
    (subFlag rest : Bool) :
    (updateSetLast flag index values subFlag && rest) =
      (flag && ((index + 1 == values.length) && subFlag && rest)) := by
  simp only [updateSetLast, Bool.and_assoc]

theorem At.first
    {name : Str} {submask submasks : MistParamMask} {sub rest : Subslices} {flag : Bool}
    (hsub : At submask ((v.getSubsets name).getD 0 default) 0 sub) (hflag : flag = sub.allLast)
    (hrest : At submasks v 0 rest) :
    At (.cons name submask submasks) v 0
      (.cons name (v.getSubsets name) 0 ((v.getSubsets name).getD 0 default) sub flag rest) := by
  have hpos := v.getSubsets_length_pos name
  rw [List.getD_eq_getElem _ _ hpos] at hsub ⊢
  refine At.cons hpos rfl hsub (enum_length_pos _ _) ?_ ?_ hrest
  · rw [hflag, hsub.allLast_eq (enum_length_pos _ _)]
  · rw [Lockstep.offset_zero, Nat.zero_min]

theorem setMask_at (mask : MistParamMask) (v : ParamSet) (flag : Bool) :
    At mask v 0 (setMask mask v flag).1 ∧
      (setMask mask v flag).2 = (flag && (setMask mask v flag).1.allLast) := by
  induction mask generalizing v flag with
  | nil => exact ⟨At.nil v 0, by simp [setMask, allLast]⟩
  | cons name submask submasks ihsub ihrest =>
    simp only [setMask]
    obtain ⟨hsub, hsubFlag⟩ := ihsub ((v.getSubsets name).getD 0 default) true
    obtain ⟨hrest, hrestFlag⟩ := ihrest v (updateSetLast flag 0 (v.getSubsets name)
      (setMask submask ((v.getSubsets name).getD 0 default) true).2)
    rw [Bool.true_and] at hsubFlag
    refine ⟨At.first hsub hsubFlag hrest, ?_⟩
    rw [hrestFlag, updateSetLast_and, allLast]

theorem At.reset {u : ParamSet} (h : At mask u k subs) (v : ParamSet) (flag : Bool) :
    At mask v 0 (subs.reset v flag).1 ∧
      (subs.reset v flag).2 = (flag && (subs.reset v flag).1.allLast) := by
  induction h generalizing v flag with
  | nil u k => exact ⟨At.nil v 0, by simp [Subslices.reset, allLast]⟩
  | @cons name submask submasks u k index j value sub rest flag' hindex hvalue hsub hj hflag hpos
      hrest ihsub ihrest =>
      simp only [Subslices.reset]
      obtain ⟨hsub', hsubFlag⟩ := ihsub ((v.getSubsets name).getD 0 default) true
      obtain ⟨hrest', hrestFlag⟩ := ihrest v (updateSetLast flag 0 (v.getSubsets name)
        (sub.reset ((v.getSubsets name).getD 0 default) true).2)
      rw [Bool.true_and] at hsubFlag
      refine ⟨At.first hsub' hsubFlag hrest', ?_⟩
      rw [hrestFlag, updateSetLast_and, allLast]

theorem At.nextSet (h : At mask v k subs) (flag : Bool) :
    At mask v (k + 1) (subs.nextSet flag).1 ∧
      (subs.nextSet flag).2 = (flag && (subs.nextSet flag).1.allLast) := by
  induction h generalizing flag with
  | nil v k => exact ⟨At.nil v (k + 1), by simp [Subslices.nextSet, allLast]⟩
  | @cons name submask submasks v k index j value sub rest flag' hindex hvalue hsub hj hflag hpos
      hrest ihsub ihrest =>
      have hlast := Lockstep.offset_add_eq_last_iff (enumValue submask) hindex
        (fun u _ => enumValue_ne_nil submask u) (by rw [← hvalue]; simpa using hj)
      change _ = (enumChild name submask v).length - 1 ↔ _ at hlast
      rw [length_enumValue, ← hvalue] at hlast
      simp only [Subslices.nextSet]
      split_ifs with hset hnext
      · -- the first set of the next value
        rw [hflag, decide_eq_true_eq] at hset
        have hnotLast := mt hlast.mp (fun hl => absurd hl.1 hnext.ne)
        obtain ⟨hsub', hsubFlag⟩ := hsub.reset ((v.getSubsets name).getD (index + 1) default) true
        obtain ⟨hrest', hrestFlag⟩ := ihrest (updateSetLast flag (index + 1) (v.getSubsets name)
          (sub.reset ((v.getSubsets name).getD (index + 1) default) true).2)
        rw [Bool.true_and] at hsubFlag
        refine ⟨?_, ?_⟩
        · rw [List.getD_eq_getElem _ _ hnext] at hsub' hsubFlag hrest' ⊢
          refine At.cons hnext rfl hsub' (enum_length_pos _ _) ?_ ?_ hrest'
          · rw [hsubFlag, hsub'.allLast_eq (enum_length_pos _ _)]
          · rw [Lockstep.offset_succ _ hindex, length_enumValue, ← hvalue]
            omega
        · rw [hrestFlag, updateSetLast_and, allLast]
      · -- nothing to do
        have hset' := hset
        rw [hflag, decide_eq_true_eq] at hset
        have hend : index + 1 = (v.getSubsets name).length := by omega
        have hlast' := hlast.mpr ⟨hend, hset⟩
        obtain ⟨hrest', hrestFlag⟩ := ihrest flag
        refine ⟨At.cons hindex hvalue hsub hj hflag (by omega) hrest', ?_⟩
        rw [hrestFlag, allLast, hset', hend, beq_self_eq_true, Bool.true_and, Bool.true_and]
      · -- the next set of the same value
        rw [hflag, decide_eq_true_eq] at hset
        have hnotLast := mt hlast.mp (fun hl => hset hl.2)
        obtain ⟨hsub', hsubFlag⟩ := ihsub true
        obtain ⟨hrest', hrestFlag⟩ :=
          ihrest (updateSetLast flag index (v.getSubsets name) (sub.nextSet true).2)
        rw [Bool.true_and] at hsubFlag
        have hj' : j + 1 < (enum submask value).length := by omega
        refine ⟨At.cons hindex hvalue hsub' hj' ?_ (by omega) hrest', ?_⟩
        · rw [hsubFlag, hsub'.allLast_eq hj']
        · rw [hrestFlag, updateSetLast_and, allLast]

end Subslices

/-- The slice is at the position `k` of the sets for the mask and its value. -/
structure ParamSetSlice.At (mask : MistParamMask) (k : Nat) (slice : ParamSetSlice) : Prop where
  subslices : slice.subslices.At mask slice.value k
  flag : slice.isSetLastFlag = slice.subslices.allLast

namespace ParamSetSlice

variable {mask : MistParamMask} {k : Nat} {slice : ParamSetSlice}

theorem new_at (paramSet : ParamSet) (mask : MistParamMask) : (new paramSet mask).At mask 0 := by
  obtain ⟨hat, hflag⟩ := Subslices.setMask_at mask paramSet true
  exact ⟨hat, by rw [new, hflag, Bool.true_and]⟩

theorem At.reset (h : slice.At mask k) (value : ParamSet) : (slice.reset value).At mask 0 := by
  obtain ⟨hat, hflag⟩ := h.subslices.reset value true
  exact ⟨hat, by rw [ParamSetSlice.reset, hflag, Bool.true_and]⟩

theorem At.nextSet (h : slice.At mask k) : slice.nextSet.At mask (k + 1) := by
  obtain ⟨hat, hflag⟩ := h.subslices.nextSet true
  exact ⟨hat, by rw [ParamSetSlice.nextSet, hflag, Bool.true_and]⟩

theorem At.nextSet_iterate (h : slice.At mask k) (n : Nat) :
    (ParamSetSlice.nextSet^[n] slice).At mask (k + n) := by
  induction n with
  | zero => exact h
  | succ n ih =>
    rw [Function.iterate_succ_apply']
    exact ih.nextSet

theorem nextSet_iterate_value (slice : ParamSetSlice) (n : Nat) :
    (ParamSetSlice.nextSet^[n] slice).value = slice.value := by
  induction n with
  | zero => rfl
  | succ n ih =>
    rw [Function.iterate_succ_apply']
    exact ih

theorem At.isSetLast_iff (h : slice.At mask k) :
    slice.isSetLast = true ↔ (enum mask slice.value).length ≤ k + 1 := by
  rw [isSetLast, h.flag, h.subslices.allLast_iff]

end ParamSetSlice

/-- A value together with the values that are chosen below it. -/
structure Scope where
  value : ParamSet
  choice : Choice

def ParamSetSlice.scope (slice : ParamSetSlice) : Scope :=
  ⟨slice.value, slice.subslices.choice⟩

def Choice.find (name : Str) : Choice → Option Scope
  | nil => none
  | cons subname value choice rest => if subname = name then some ⟨value, choice⟩ else find name rest

def Choice.modify (name : Str) (f : Scope → Option Scope) : Choice → Option Choice
  | nil => none
  | cons subname value choice rest =>
    if subname = name then
      (f ⟨value, choice⟩).map fun scope => cons subname scope.value scope.choice rest
    else (modify name f rest).map fun rest => cons subname value choice rest

/-- The value for a name with several components. -/
def Scope.lookup (scope : Scope) : MistParamNameAbs → Option Scope
  | [] => some scope
  | subname :: name => (scope.choice.find subname).bind fun sub => sub.lookup name

def Scope.set : MistParamNameAbs → Choice → Scope → Option Scope
  | [], choice, scope => some { scope with choice := choice }
  | subname :: name, choice, scope =>
    (scope.choice.modify subname (set name choice)).map fun choice => { scope with choice := choice }

theorem Subslices.find_scope (name : Str) (subs : Subslices) :
    (subs.find name).map ParamSetSlice.scope = subs.choice.find name := by
  induction subs with
  | nil => rfl
  | cons subname values index value subslices flag rest _ ih =>
    simp only [Subslices.find, Subslices.choice, Choice.find]
    split_ifs
    · rfl
    · exact ih

theorem ParamSetSlice.lookup_scope (slice : ParamSetSlice) (name : MistParamNameAbs) :
    slice.scope.lookup name = (slice.getSubslice name).map ParamSetSlice.scope := by
  induction name generalizing slice with
  | nil => rfl
  | cons subname name ih =>
    rw [Scope.lookup, getSubslice]
    change (slice.subslices.choice.find subname).bind _ = _
    rw [← Subslices.find_scope]
    cases slice.subslices.find subname with
    | none => rfl
    | some sub => exact ih sub

variable {name : Str} {f : ParamSetSlice → Option ParamSetSlice}

theorem Subslices.modify_scope {g : Scope → Option Scope} (subs : Subslices)
    (h : ∀ sub, subs.find name = some sub → (f sub).map ParamSetSlice.scope = g sub.scope) :
    (subs.modify name f).map Subslices.choice = subs.choice.modify name g := by
  induction subs with
  | nil => rfl
  | cons subname values index value subslices flag rest _ ih =>
    simp only [Subslices.find] at h
    simp only [Subslices.modify, Subslices.choice, Choice.modify]
    split_ifs at h ⊢ with hname
    · have hsub := h ⟨value, subslices, flag⟩ rfl
      change _ = g ⟨value, subslices.choice⟩ at hsub
      rw [← hsub]
      cases f ⟨value, subslices, flag⟩ <;> rfl
    · rw [← ih h]
      cases rest.modify name f <;> rfl

theorem ParamSetSlice.modify_scope
    {f : ParamSetSlice → ParamSetSlice} (slice : ParamSetSlice) (name : MistParamNameAbs)
    (choice : Choice)
    (h : ∀ sub, slice.getSubslice name = some sub → (f sub).scope = ⟨sub.value, choice⟩) :
    (slice.modify name f).map ParamSetSlice.scope = slice.scope.set name choice := by
  induction name generalizing slice with
  | nil => exact congrArg some (h slice rfl)
  | cons subname name ih =>
    have hmodify := Subslices.modify_scope slice.subslices (g := Scope.set name choice)
      (f := modify name f) (fun sub hsub => ih sub fun sub' hsub' => h sub' (by
        rw [getSubslice, hsub]
        exact hsub'))
    rw [modify, Scope.set]
    change _ = (slice.subslices.choice.modify subname _).map _
    rw [← hmodify]
    cases slice.subslices.modify subname (modify name f) <;> rfl

theorem Subslices.find_modify {sub sub' : ParamSetSlice} {subs : Subslices}
    (hfind : subs.find name = some sub) (hf : f sub = some sub') :
    ∃ subs', subs.modify name f = some subs' ∧ subs'.find name = some sub' := by
  induction subs with
  | nil => cases hfind
  | cons subname values index value subslices flag rest _ ih =>
    simp only [Subslices.find] at hfind
    split_ifs at hfind with hname
    · cases hfind
      exact ⟨_, by simp [Subslices.modify, hname, hf]; rfl, by simp [Subslices.find]⟩
    · obtain ⟨rest', hrun, hrest'⟩ := ih hfind
      exact ⟨_, by simp [Subslices.modify, hname, hrun]; rfl,
        by simpa [Subslices.find, hname] using hrest'⟩

theorem ParamSetSlice.getSubslice_modify
    {f : ParamSetSlice → ParamSetSlice} {slice sub : ParamSetSlice} {name : MistParamNameAbs}
    (h : slice.getSubslice name = some sub) :
    ∃ slice', slice.modify name f = some slice' ∧ slice'.getSubslice name = some (f sub) := by
  induction name generalizing slice with
  | nil =>
    cases h
    exact ⟨_, rfl, rfl⟩
  | cons subname name ih =>
    rw [getSubslice] at h
    obtain ⟨child, hchild, hsub⟩ := Option.bind_eq_some_iff.mp h
    obtain ⟨child', hrun, hchild'⟩ := ih hsub
    obtain ⟨subs', hmodify, hfind⟩ := Subslices.find_modify (f := modify name f) hchild hrun
    refine ⟨{ slice with subslices := subs' }, by rw [modify, hmodify]; rfl, ?_⟩
    rw [getSubslice, hfind]
    exact hchild'

theorem Subslices.modify_eq_none {subs : Subslices}
    (h : ∀ sub, subs.find name = some sub → f sub = none) :
    subs.modify name f = none := by
  induction subs with
  | nil => rfl
  | cons subname values index value subslices flag rest _ ih =>
    simp only [Subslices.find] at h
    simp only [Subslices.modify]
    split_ifs at h ⊢ with hname
    · rw [h _ rfl]
      rfl
    · rw [ih h]
      rfl

theorem ParamSetSlice.modify_eq_none
    {f : ParamSetSlice → ParamSetSlice} {slice : ParamSetSlice} {name : MistParamNameAbs}
    (h : slice.getSubslice name = none) :
    slice.modify name f = none := by
  induction name generalizing slice with
  | nil => cases h
  | cons subname name ih =>
    rw [getSubslice] at h
    have hnone : slice.subslices.modify subname (modify name f) = none :=
      Subslices.modify_eq_none fun sub hsub => ih (by rw [hsub] at h; exact h)
    rw [modify, hnone]
    rfl

theorem Subslices.modify_modify
    (name : Str) (f g : ParamSetSlice → Option ParamSetSlice) (subs : Subslices) :
    (subs.modify name f).bind (modify name g) = subs.modify name fun sub => (f sub).bind g := by
  induction subs with
  | nil => rfl
  | cons subname values index value subslices flag rest _ ih =>
    simp only [Subslices.modify]
    split_ifs with hname
    · cases f ⟨value, subslices, flag⟩ with
      | none => rfl
      | some sub => simp [Subslices.modify, hname]
    · rw [← ih]
      cases rest.modify name f with
      | none => rfl
      | some rest' => simp [Subslices.modify, hname]

theorem ParamSetSlice.modify_modify
    (name : MistParamNameAbs) (f g : ParamSetSlice → ParamSetSlice) (slice : ParamSetSlice) :
    (slice.modify name f).bind (modify name g) = slice.modify name (g ∘ f) := by
  induction name generalizing slice with
  | nil => rfl
  | cons subname name ih =>
    have hmodify := Subslices.modify_modify subname (modify name f) (modify name g)
      slice.subslices
    have hfun : (fun sub => (modify name f sub).bind (modify name g)) = modify name (g ∘ f) :=
      funext ih
    rw [hfun] at hmodify
    simp only [modify]
    rw [← hmodify]
    cases slice.subslices.modify subname (modify name f) <;> rfl

def setCount : MistParamMask → ParamSet → Nat
  | .nil, _ => 1
  | .cons name submask submasks, v =>
    max ((v.getSubsets name).map (setCount submask)).sum (setCount submasks v)

theorem setCount_eq (mask : MistParamMask) (v : ParamSet) :
    setCount mask v = (enum mask v).length := by
  induction mask generalizing v with
  | nil => rfl
  | cons name submask submasks ihsub ihrest =>
    rw [setCount, enum_cons, Lockstep.length_zip, ihrest, enumChild, List.length_flatMap]
    congr 3
    funext u
    rw [ihsub, length_enumValue]

end Mist
end KedrAux
