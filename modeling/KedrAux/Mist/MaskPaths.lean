import KedrAux.Mist.MaskHandles

/-!
# Paths of masks

The paths of a mask are the names along the chains of submasks.  The stack of a modifier is
such a chain.  When every implementation on it has one reference, no other mask and no other
path leads to them: what the modifier changes belongs to its own mask alone.
-/

namespace KedrAux
namespace Mist

variable {p q r : Addr} {name : MistParamNameAbs}

namespace MaskStore

def child (store : MaskStore) (p : Addr) (name : Str) : Option Addr :=
  (store.submasksAt p).bind fun submasks =>
    (submasks.find? fun entry => entry.1 = name).map Prod.snd

def descend (store : MaskStore) : Addr → MistParamNameAbs → Option Addr
  | p, [] => some p
  | p, subname :: name => (store.child p subname).bind fun q => descend store q name

def Has (store : MaskStore) (p : Addr) (name : MistParamNameAbs) : Prop :=
  (store.descend p name).isSome

section Descend

variable {store store' : MaskStore} {subname : Str}
variable {submasks : List (Str × Addr)}

@[simp] theorem has_nil (store : MaskStore) (p : Addr) : store.Has p [] :=
  rfl

theorem has_cons :
    store.Has p (subname :: name) ↔ ∃ q, store.child p subname = some q ∧ store.Has q name := by
  unfold Has
  rw [descend, Option.isSome_bind, Option.any_eq_true]

theorem exists_of_child (h : store.child p subname = some q) :
    ∃ submasks, store.submasksAt p = some submasks ∧ (subname, q) ∈ submasks := by
  obtain ⟨submasks, hsubmasks, hfind⟩ := Option.bind_eq_some_iff.mp h
  obtain ⟨entry, hentry, rfl⟩ := Option.map_eq_some_iff.mp hfind
  have hname : entry.1 = subname := by simpa using List.find?_some hentry
  refine ⟨submasks, hsubmasks, ?_⟩
  rw [← hname]
  exact List.mem_of_find?_eq_some hentry

theorem find?_of_mem (hnodup : (submasks.map Prod.fst).Nodup) (hmem : (subname, q) ∈ submasks) :
    (submasks.find? fun entry => entry.1 = subname) = some (subname, q) := by
  induction submasks with
  | nil => exact absurd hmem List.not_mem_nil
  | cons entry submasks ih =>
    rw [List.map_cons, List.nodup_cons] at hnodup
    rcases List.mem_cons.mp hmem with rfl | hmem
    · rw [List.find?_cons_of_pos (by simp)]
    · have hne : entry.1 ≠ subname := by
        rintro rfl
        have hfst : (entry.1, q).1 ∈ submasks.map Prod.fst := List.mem_map_of_mem hmem
        exact hnodup.1 hfst
      rw [List.find?_cons_of_neg (by simpa using hne)]
      exact ih hnodup.2 hmem

theorem child_of_mem (hsubmasks : store.submasksAt p = some submasks)
    (hnodup : (submasks.map Prod.fst).Nodup) (hmem : (subname, q) ∈ submasks) :
    store.child p subname = some q := by
  rw [child, hsubmasks, Option.bind_some, find?_of_mem hnodup hmem, Option.map_some]

theorem child_eq_none
    (hsubmasks : store.submasksAt p = some submasks) (h : subname ∉ submasks.map Prod.fst) :
    store.child p subname = none := by
  rw [child, hsubmasks, Option.bind_some, Option.map_eq_none_iff, List.find?_eq_none]
  intro entry hentry hname
  rw [decide_eq_true_eq] at hname
  exact h (hname ▸ List.mem_map_of_mem (f := Prod.fst) hentry)

@[simp] theorem descend_append (name name' : MistParamNameAbs) :
    store.descend p (name ++ name') = (store.descend p name).bind fun q =>
      store.descend q name' := by
  induction name generalizing p with
  | nil => rfl
  | cons subname name ih =>
    rw [List.cons_append, descend, descend, Option.bind_assoc]
    congr 1
    funext q
    exact ih

theorem has_append_cons {name' : MistParamNameAbs} (h : store.descend p name = some q) :
    store.Has p (name ++ subname :: name') ↔
      ∃ z, store.child q subname = some z ∧ store.Has z name' := by
  rw [Has, descend_append, h, Option.bind_some]
  exact has_cons

theorem descend_snoc (name : MistParamNameAbs) (subname : Str) :
    store.descend p (name ++ [subname]) = (store.descend p name).bind fun q =>
      store.child q subname := by
  rw [descend_append]
  congr 1
  funext q
  rw [descend]
  cases store.child q subname <;> rfl

theorem descend_congr_on
    (h : ∀ name1 subname name2 y, name = name1 ++ subname :: name2 →
      store.descend p name1 = some y → store'.submasksAt y = store.submasksAt y) :
    store'.descend p name = store.descend p name := by
  induction name generalizing p with
  | nil => rfl
  | cons subname name ih =>
    have hchild : store'.child p subname = store.child p subname := by
      rw [child, h [] subname name p rfl rfl, child]
    rw [descend, hchild, descend]
    cases hq : store.child p subname with
    | none => rfl
    | some q =>
      rw [Option.bind_some, Option.bind_some]
      apply ih
      intro name1 subname' name2 y hname hy
      refine h (subname :: name1) subname' name2 y ?_ ?_
      · rw [hname, List.cons_append]
      · rw [descend, hq, Option.bind_some, hy]

theorem descend_congr
    (h : ∀ name y, store.descend p name = some y → store'.submasksAt y = store.submasksAt y)
    (name : MistParamNameAbs) :
    store'.descend p name = store.descend p name :=
  descend_congr_on fun name1 _ _ y _ hy => h name1 y hy

theorem has_iff_of_related (R : Addr → Addr → Prop)
    (h : ∀ p p', R p p' → ∀ subname,
      (store.child p subname = none ∧ store'.child p' subname = none) ∨
        ∃ q q', store.child p subname = some q ∧ store'.child p' subname = some q' ∧ R q q')
    {p p' : Addr} (hp : R p p') (name : MistParamNameAbs) :
    store'.Has p' name ↔ store.Has p name := by
  induction name generalizing p p' with
  | nil => exact ⟨fun _ => has_nil store p, fun _ => has_nil store' p'⟩
  | cons subname name ih =>
    rw [has_cons, has_cons]
    rcases h p p' hp subname with ⟨hnone, hnone'⟩ | ⟨q, q', hq, hq', hR⟩
    · rw [hnone, hnone']
      simp
    · rw [hq, hq']
      simp [ih hR]

end Descend

end MaskStore

namespace Masks

open MaskStore (refsAt submasksAt child descend Has)

/-- `locs ++ [loc]` is a stack for the variable `a`, with the indices and names of the
submasks; the implementations of the masks below the top satisfy `ok`. -/
inductive Stack (ms : Masks) (ok : Addr → Prop) (a : Nat) :
    (indicies : List Nat) → (name : MistParamNameAbs) → (locs : List MaskLocation) →
      (loc : MaskLocation) → Prop
  | var : Stack ms ok a [] [] [] (.var a)
  | slot {indicies : List Nat} {name : MistParamNameAbs} {locs : List MaskLocation}
      {loc : MaskLocation} {x : Addr} {submasks : List (Str × Addr)} {index : Nat}
      {subname : Str} {q : Addr} :
      Stack ms ok a indicies name locs loc → loc.impl ms = some x → ok x →
      submasksAt ms.store x = some submasks → submasks[index]? = some (subname, q) →
      Stack ms ok a (indicies ++ [index]) (name ++ [subname]) (locs ++ [loc]) (.slot x index)

def Unshared (ms : Masks) (x : Addr) : Prop :=
  refsAt ms.store x = 1

variable {ms ms' : Masks} {a v : Nat} {indicies : List Nat} {locs : List MaskLocation}
variable {loc : MaskLocation} {x : Addr}

section Stacks

variable {ok ok' : Addr → Prop}
variable {pending : List Addr}

theorem impl_var_eq_some : (MaskLocation.var v).impl ms = some p ↔ ms.vars[v]? = some (some p) := by
  rw [MaskLocation.impl, Option.join_eq_some_iff]

theorem impl_slot_eq_some {index : Nat} :
    (MaskLocation.slot x index).impl ms = some q ↔
      ∃ submasks subname, submasksAt ms.store x = some submasks ∧
        submasks[index]? = some (subname, q) := by
  rw [MaskLocation.impl, Option.bind_eq_some_iff]
  constructor
  · rintro ⟨impl, hget, hentry⟩
    obtain ⟨entry, hindex, rfl⟩ := Option.map_eq_some_iff.mp hentry
    exact ⟨impl.submasks, entry.1, MaskStore.submasksAt_of_get? hget, hindex⟩
  · rintro ⟨submasks, subname, hget, hentry⟩
    obtain ⟨refs, hget⟩ := MaskStore.exists_of_submasksAt hget
    exact ⟨_, hget, by rw [hentry, Option.map_some]⟩

theorem handles_pos_of_impl (h : loc.impl ms = some p) : 0 < ms.handles p := by
  cases loc with
  | var v => exact handles_pos_of_var (impl_var_eq_some.mp h)
  | slot x index =>
    obtain ⟨submasks, subname, hget, hentry⟩ := impl_slot_eq_some.mp h
    exact handles_pos_of_child hget (List.mem_of_getElem? hentry)

theorem Counted.exists_of_impl (h : Counted ms pending) (hloc : loc.impl ms = some p) :
    ∃ impl, ms.store.get? p = some impl := by
  obtain ⟨impl, hget, -⟩ := h.exists_of_pos (Nat.add_pos_left (handles_pos_of_impl hloc) _)
  exact ⟨impl, hget⟩

theorem Stack.root (h : Stack ms ok a indicies name locs loc) (hloc : loc.impl ms = some x) :
    ∃ p, ms.vars[a]? = some (some p) := by
  induction h generalizing x with
  | var => exact ⟨x, impl_var_eq_some.mp hloc⟩
  | slot _ hinner _ _ _ ih => exact ih hinner

theorem Stack.descend (hcounted : Counted ms pending) (h : Stack ms ok a indicies name locs loc)
    (hloc : loc.impl ms = some x) (hroot : ms.vars[a]? = some (some p)) :
    MaskStore.descend ms.store p name = some x := by
  induction h generalizing x with
  | var =>
    rw [impl_var_eq_some, hroot] at hloc
    cases hloc
    rfl
  | @slot indicies name locs loc y submasks index subname q _ hinner _ hget hentry ih =>
    obtain ⟨submasks', subname', hget', hentry'⟩ := impl_slot_eq_some.mp hloc
    rw [hget] at hget'
    cases hget'
    rw [hentry] at hentry'
    cases hentry'
    rw [MaskStore.descend_snoc, ih hinner, Option.bind_some]
    exact MaskStore.child_of_mem hget (hcounted.names_nodup _ _ hget)
      (List.mem_of_getElem? hentry)

theorem Stack.transport (h : Stack ms ok a indicies name locs loc)
    (himpl : ∀ (indicies : List Nat) (name : MistParamNameAbs) (locs : List MaskLocation)
      (loc : MaskLocation) (x : Addr), Stack ms ok a indicies name locs loc →
      loc.impl ms = some x → ok x → loc.impl ms' = some x ∧ ok' x)
    (hentry : ∀ x submasks (index : Nat) (entry : Str × Addr), ok x →
      submasksAt ms.store x = some submasks → submasks[index]? = some entry →
      ∃ submasks' q', submasksAt ms'.store x = some submasks' ∧
        submasks'[index]? = some (entry.1, q')) :
    Stack ms' ok' a indicies name locs loc := by
  induction h with
  | var => exact .var
  | slot hstack hinner hok hget hindex ih =>
    obtain ⟨himpl', hok'⟩ := himpl _ _ _ _ _ hstack hinner hok
    obtain ⟨submasks', q', hget', hindex'⟩ := hentry _ _ _ _ hok hget hindex
    exact .slot ih himpl' hok' hget' hindex'

theorem Stack.holder
    {y : Addr} {index : Nat} (h : Stack ms ok a indicies name locs (.slot y index)) :
    ∃ indicies' name' locs' loc' subname, Stack ms ok a indicies' name' locs' loc' ∧
      loc'.impl ms = some y ∧ ok y ∧ name = name' ++ [subname] := by
  cases h with
  | slot hstack hinner hok _ _ => exact ⟨_, _, _, _, _, hstack, hinner, hok, rfl⟩

theorem Stack.eq_of_var (h : Stack ms ok a indicies name locs (.var v)) : v = a := by
  cases h
  rfl

/-- The rest of a stack, from an implementation on. -/
inductive Below (store : MaskStore) :
    Addr → (indicies : List Nat) → (name : MistParamNameAbs) → (locs : List MaskLocation) → Prop
  | nil (p : Addr) : Below store p [] [] []
  | cons {p q : Addr} {submasks : List (Str × Addr)} {index : Nat} {subname : Str}
      {indicies : List Nat} {name : MistParamNameAbs} {locs : List MaskLocation} :
      submasksAt store p = some submasks → submasks[index]? = some (subname, q) →
      Below store q indicies name locs →
      Below store p (index :: indicies) (subname :: name) (.slot p index :: locs)

theorem Stack.fromBottom (h : Stack ms ok a indicies name locs loc) (hloc : loc.impl ms = some x)
    {indicies' : List Nat} {name' : MistParamNameAbs} {locs' : List MaskLocation}
    (hbelow : Below ms.store x indicies' name' locs') :
    ∃ p stack, ms.vars[a]? = some (some p) ∧
      Below ms.store p (indicies ++ indicies') (name ++ name') stack ∧
      locs ++ loc :: locs' = .var a :: stack := by
  induction h generalizing x indicies' name' locs' with
  | var => exact ⟨x, locs', impl_var_eq_some.mp hloc, hbelow, rfl⟩
  | @slot indicies name locs loc y submasks index subname q _ hinner _ hget hentry ih =>
    obtain ⟨submasks', subname', hget', hentry'⟩ := impl_slot_eq_some.mp hloc
    rw [hget] at hget'
    cases hget'
    rw [hentry] at hentry'
    cases hentry'
    obtain ⟨p, stack, hroot, hstack, hlocs⟩ := ih hinner (.cons hget hentry hbelow)
    refine ⟨p, stack, hroot, ?_, ?_⟩
    · rw [List.append_assoc, List.append_assoc, List.singleton_append, List.singleton_append]
      exact hstack
    · rw [List.append_assoc, List.singleton_append]
      exact hlocs

theorem Below.transport {store store' : MaskStore} {p : Addr} (h : Below store p indicies name locs)
    (hnodup : ∀ p submasks, submasksAt store p = some submasks → (submasks.map Prod.fst).Nodup)
    (hsame : ∀ name y, MaskStore.descend store p name = some y →
      submasksAt store' y = submasksAt store y) :
    Below store' p indicies name locs := by
  induction h with
  | nil p => exact .nil p
  | @cons p q submasks index subname indicies name locs hget hentry _ ih =>
    refine .cons ((hsame [] p rfl).trans hget) hentry (ih ?_)
    intro name' y hy
    refine hsame (subname :: name') y ?_
    rw [MaskStore.descend, MaskStore.child_of_mem hget (hnodup p submasks hget)
      (List.mem_of_getElem? hentry), Option.bind_some, hy]

end Stacks

section Unique

variable {name' : MistParamNameAbs}
variable {y : Addr}

theorem eq_of_count_le_one {α : Type} [BEq α] [LawfulBEq α] {l : List α} {b : α} {i j : Nat}
    (h : l.count b ≤ 1) (hi : l[i]? = some b) (hj : l[j]? = some b) :
    i = j := by
  induction l generalizing i j with
  | nil => cases hi
  | cons c l ih =>
    rw [List.count_cons] at h
    cases i with
    | zero =>
      cases j with
      | zero => rfl
      | succ j =>
        rw [List.getElem?_cons_succ] at hj
        rw [List.getElem?_cons_zero, Option.some.injEq] at hi
        have hpos := List.count_pos_iff.mpr (List.mem_of_getElem? hj)
        rw [hi, beq_self_eq_true, if_pos rfl] at h
        omega
    | succ i =>
      rw [List.getElem?_cons_succ] at hi
      cases j with
      | zero =>
        rw [List.getElem?_cons_zero, Option.some.injEq] at hj
        have hpos := List.count_pos_iff.mpr (List.mem_of_getElem? hi)
        rw [hj, beq_self_eq_true, if_pos rfl] at h
        omega
      | succ j =>
        rw [List.getElem?_cons_succ] at hj
        rw [ih (by omega) hi hj]

theorem handles_pos_of_descend
    (hv : ms.vars[v]? = some (some r)) (hr : MaskStore.descend ms.store r name = some x) :
    0 < ms.handles x := by
  rcases List.eq_nil_or_concat name with rfl | ⟨name, subname, rfl⟩
  · cases hr
    exact handles_pos_of_var hv
  · rw [List.concat_eq_append, MaskStore.descend_snoc] at hr
    obtain ⟨y, -, hchild⟩ := Option.bind_eq_some_iff.mp hr
    obtain ⟨submasks, hget, hmem⟩ := MaskStore.exists_of_child hchild
    exact handles_pos_of_child hget hmem

theorem Counted.loc_unique {loc' : MaskLocation} (h : Counted ms []) (hx : Unshared ms x)
    (hloc : loc.impl ms = some x) (hloc' : loc'.impl ms = some x) :
    loc' = loc := by
  have hone : ms.handles x = 1 := by
    have hrefs := h.refs_eq x
    rw [List.count_nil, Nat.add_zero] at hrefs
    exact hrefs.symm.trans hx
  unfold handles at hone
  have hvar : ∀ v, (MaskLocation.var v).impl ms = some x → 0 < ms.vars.count (some x) :=
    fun v hv => List.count_pos_iff.mpr (List.mem_of_getElem? (impl_var_eq_some.mp hv))
  have hslot : ∀ y index, (MaskLocation.slot y index).impl ms = some x →
      ∃ impl, ms.store.get? y = some impl ∧ impl.children[index]? = some x := by
    intro y index hy
    obtain ⟨submasks, subname, hget, hentry⟩ := impl_slot_eq_some.mp hy
    obtain ⟨refs, hget⟩ := MaskStore.exists_of_submasksAt hget
    exact ⟨_, hget, by rw [MaskImpl.children, List.getElem?_map, hentry, Option.map_some]⟩
  have hincoming : ∀ y index, (MaskLocation.slot y index).impl ms = some x →
      0 < ms.store.incoming MaskImpl.children x := by
    intro y index hy
    obtain ⟨impl, hget, hchild⟩ := hslot y index hy
    exact ObjectHeap.incoming_pos _ hget (List.mem_of_getElem? hchild)
  cases loc with
  | var v =>
    have hpos := hvar v hloc
    have hle : ms.vars.count (some x) ≤ 1 := by omega
    cases loc' with
    | var v' =>
      rw [eq_of_count_le_one hle (impl_var_eq_some.mp hloc) (impl_var_eq_some.mp hloc')]
    | slot y' index' =>
      have hpos' := hincoming y' index' hloc'
      omega
  | slot y index =>
    have hpos := hincoming y index hloc
    cases loc' with
    | var v' =>
      have hpos' := hvar v' hloc'
      omega
    | slot y' index' =>
      obtain ⟨impl, hget, hchild⟩ := hslot y index hloc
      obtain ⟨impl', hget', hchild'⟩ := hslot y' index' hloc'
      have hone' : ms.store.incoming MaskImpl.children x = 1 := by omega
      obtain rfl := ObjectHeap.eq_of_incoming_eq_one _ hone' hget
        (List.mem_of_getElem? hchild) hget' (List.mem_of_getElem? hchild')
      rw [hget] at hget'
      cases hget'
      have hcount := ObjectHeap.count_le_incoming MaskImpl.children hget x
      rw [eq_of_count_le_one (by omega) hchild hchild']

theorem Stack.unique (hcounted : Counted ms []) (h : Stack ms ms.Unshared a indicies name locs loc)
    (hloc : loc.impl ms = some x) (hx : ms.Unshared x)
    (hv : ms.vars[v]? = some (some r)) (hr : MaskStore.descend ms.store r name' = some x) :
    v = a ∧ name' = name := by
  -- the last mask on the way to `x` is the top of the stack
  have hlast : ∀ {loc : MaskLocation} {x : Addr}, loc.impl ms = some x → ms.Unshared x →
      ∀ {name' : MistParamNameAbs},
      MaskStore.descend ms.store r name' = some x → (name' = [] ∧ loc = .var v) ∨
      ∃ name1 subname y index submasks, name' = name1 ++ [subname] ∧ loc = .slot y index ∧
        MaskStore.descend ms.store r name1 = some y ∧ submasksAt ms.store y = some submasks ∧
        submasks[index]? = some (subname, x) := by
    intro loc x hloc hx name' hr
    rcases List.eq_nil_or_concat name' with rfl | ⟨name1, subname, rfl⟩
    · left
      cases hr
      exact ⟨rfl, (hcounted.loc_unique hx hloc (impl_var_eq_some.mpr hv)).symm⟩
    · right
      rw [List.concat_eq_append, MaskStore.descend_snoc] at hr
      obtain ⟨y, hy, hchild⟩ := Option.bind_eq_some_iff.mp hr
      obtain ⟨submasks, hget, hmem⟩ := MaskStore.exists_of_child hchild
      obtain ⟨index, hindex⟩ := List.mem_iff_getElem?.mp hmem
      refine ⟨name1, subname, y, index, submasks, List.concat_eq_append, ?_, hy, hget, hindex⟩
      exact (hcounted.loc_unique hx hloc
        (impl_slot_eq_some.mpr ⟨submasks, subname, hget, hindex⟩)).symm
  induction h generalizing x name' with
  | var =>
    rcases hlast hloc hx hr with ⟨hnil, hvar⟩ | ⟨_, _, _, _, _, _, hslot, -⟩
    · cases hvar
      exact ⟨rfl, hnil⟩
    · cases hslot
  | @slot indicies name locs loc y submasks index subname q _ hinner hok hget hentry ih =>
    rcases hlast hloc hx hr with
      ⟨-, hvar⟩ | ⟨name1, subname', y', index', submasks', rfl, hslot, hy, hget', hentry'⟩
    · cases hvar
    · cases hslot
      rw [hget] at hget'
      cases hget'
      rw [hentry] at hentry'
      cases hentry'
      obtain ⟨hva, hname⟩ := ih hinner hok hy
      exact ⟨hva, by rw [hname]⟩

end Unique

/-- The variables but `a`, and the vectors that they lead to, are as before. -/
structure SameFor (a : Nat) (ms ms' : Masks) : Prop where
  vars_eq : ∀ v, v ≠ a → ms'.vars[v]? = ms.vars[v]?
  submasksAt_eq : ∀ v r name y, v ≠ a → ms.vars[v]? = some (some r) →
    MaskStore.descend ms.store r name = some y →
    submasksAt ms'.store y = submasksAt ms.store y

section SameFor

variable {ms'' : Masks}

theorem SameFor.refl (a : Nat) (ms : Masks) : SameFor a ms ms :=
  ⟨fun _ _ => rfl, fun _ _ _ _ _ _ _ => rfl⟩

theorem SameFor.descend_eq (h : SameFor a ms ms') (hv : v ≠ a) (hr : ms.vars[v]? = some (some r))
    (name : MistParamNameAbs) :
    MaskStore.descend ms'.store r name = MaskStore.descend ms.store r name :=
  MaskStore.descend_congr (fun name y hy => h.submasksAt_eq v r name y hv hr hy) name

theorem SameFor.has_iff {q : Addr} {name : MistParamNameAbs} (h : SameFor a ms ms') (hv : v ≠ a)
    (hr : ms.vars[v]? = some (some r)) (hq : MaskStore.descend ms.store r name = some q)
    (rest : MistParamNameAbs) :
    MaskStore.Has ms'.store q rest ↔ MaskStore.Has ms.store q rest := by
  have hrest := h.descend_eq hv hr (name ++ rest)
  rw [MaskStore.descend_append, (h.descend_eq hv hr name).trans hq, MaskStore.descend_append, hq,
    Option.bind_some, Option.bind_some] at hrest
  rw [MaskStore.Has, hrest, MaskStore.Has]

theorem SameFor.trans (h : SameFor a ms ms') (h' : SameFor a ms' ms'') : SameFor a ms ms'' := by
  refine ⟨fun v hv => (h'.vars_eq v hv).trans (h.vars_eq v hv), ?_⟩
  intro v r name y hv hr hy
  have hr' := (h.vars_eq v hv).trans hr
  have hy' := (h.descend_eq hv hr name).trans hy
  rw [h'.submasksAt_eq v r name y hv hr' hy', h.submasksAt_eq v r name y hv hr hy]

end SameFor

end Masks

end Mist
end KedrAux
