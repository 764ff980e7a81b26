import KedrAux.Lib.KeyedOverride
import KedrAux.Lib.While
import KedrAux.MistEngine.Template

/-!
# String maps

`smap_update` of `smap.c`.  A string map is an array of pointers to pairs; while two maps are
merged, the pointers of pairs that are owned by another array or freed are `NULL`.

Allocations succeed.  `qsort` is a parameter.  Reading a `NULL` pointer or a freed pair is an
error of the model, and so is freeing a pair again.
-/

namespace KedrAux
namespace MistEngine

open KeyedOverride (atKey Overrides)

abbrev PairPtr := Nat

structure TStringPair where
  key : Str
  val : Str

structure CStringMap where
  container : List PairPtr
  sorted : Bool

inductive UpdateFault where
  | null
  | outOfRange
  | freed
  | endless
deriving DecidableEq

/-- The difference of the first characters that differ; the end of a string comes first. -/
def strcmp : Str → Str → Int
  | [], [] => 0
  | [], _ :: _ => -1
  | _ :: _, [] => 1
  | a :: s, b :: t => if a = b then strcmp s t else (a.toNat : Int) - b.toNat

section Update

variable (memory : PairPtr → TStringPair)

/-- `string_pair_compare`; the pointers to the keys of different pairs are different. -/
def stringPairCompare (lhs rhs : PairPtr) : Int :=
  if lhs = rhs then 0 else strcmp (memory lhs).key (memory rhs).key

/-- An array of pointers with the index of the next one. -/
structure Cursor where
  array : List (Option PairPtr)
  index : Nat

def Cursor.more (c : Cursor) : Bool :=
  c.index < c.array.length

def Cursor.element (c : Cursor) : Except UpdateFault PairPtr :=
  match c.array[c.index]? with
  | none => .error .outOfRange
  | some none => .error .null
  | some (some sp) => .ok sp

/-- The pointer is set to `NULL`, and the index is incremented. -/
def Cursor.next (c : Cursor) : Cursor :=
  ⟨c.array.set c.index none, c.index + 1⟩

/-- `c_old` with `i`, `c_upd` with `k`, `ga_res`, and the pairs that have been freed. -/
structure UpdateState where
  old : Cursor
  upd : Cursor
  res : List PairPtr
  freed : List PairPtr

/-- `string_pair_compare`, for pairs that must not be freed. -/
def UpdateState.compare (s : UpdateState) (lhs rhs : PairPtr) : Except UpdateFault Int :=
  if lhs ∈ s.freed ∨ rhs ∈ s.freed then .error .freed
  else .ok (stringPairCompare memory lhs rhs)

/-- `i < old_size && string_pair_compare(&c_old[i], &c_upd[k]) < 0` -/
def UpdateState.oldBefore (s : UpdateState) : Except UpdateFault Bool := do
  if s.old.more then
    return (← s.compare memory (← s.old.element) (← s.upd.element)) < 0
  else return false

/-- `i < old_size && string_pair_compare(&c_old[i], &c_upd[k]) == 0` -/
def UpdateState.oldEqual (s : UpdateState) : Except UpdateFault Bool := do
  if s.old.more then
    return (← s.compare memory (← s.old.element) (← s.upd.element)) = 0
  else return false

/-- `k < upd_size && string_pair_compare(&c_upd[k], &sp) == 0` -/
def UpdateState.updEqual (sp : PairPtr) (s : UpdateState) : Except UpdateFault Bool := do
  if s.upd.more then
    return (← s.compare memory (← s.upd.element) sp) = 0
  else return false

/-- `grar_add_element(&ga_res, c_old[i])`, and the pointer in `c_old` is set to `NULL`. -/
def UpdateState.moveOld (s : UpdateState) : Except UpdateFault UpdateState := do
  let sp ← s.old.element
  return { s with res := s.res ++ [sp], old := s.old.next }

def UpdateState.moveUpd (s : UpdateState) : Except UpdateFault UpdateState := do
  let sp ← s.upd.element
  return { s with res := s.res ++ [sp], upd := s.upd.next }

/-- `string_pair_dtor(c_old[i], NULL)` -/
def UpdateState.destroyOld (s : UpdateState) : Except UpdateFault UpdateState := do
  let sp ← s.old.element
  if sp ∈ s.freed then .error .freed
  else return { s with freed := s.freed ++ [sp], old := s.old.next }

/-- A loop over `c_old`; it checks its condition at most once more than there are elements. -/
def UpdateState.loopOld (cond : UpdateState → Except UpdateFault Bool)
    (body : UpdateState → Except UpdateFault UpdateState) (s : UpdateState) :
    Except UpdateFault UpdateState :=
  While.run .endless cond body (s.old.array.length + 1) s

def UpdateState.loopUpd (cond : UpdateState → Except UpdateFault Bool)
    (body : UpdateState → Except UpdateFault UpdateState) (s : UpdateState) :
    Except UpdateFault UpdateState :=
  While.run .endless cond body (s.upd.array.length + 1) s

/-- The end of a round: the elements that are left when the other array is processed. -/
def UpdateState.moveRest (s : UpdateState) : Except UpdateFault UpdateState :=
  if s.upd.index = s.upd.array.length then
    s.loopOld (fun s => .ok s.old.more) UpdateState.moveOld
  else if s.old.index = s.old.array.length then
    s.loopUpd (fun s => .ok s.upd.more) UpdateState.moveUpd
  else .ok s

/-- A round of the loop over `upd`. -/
def UpdateState.round (s : UpdateState) : Except UpdateFault UpdateState := do
  let s ← s.loopOld (UpdateState.oldBefore memory) UpdateState.moveOld
  let s ← s.loopOld (UpdateState.oldEqual memory) UpdateState.destroyOld
  let sp ← s.upd.element
  let s ← s.loopUpd (UpdateState.updEqual memory sp) UpdateState.moveUpd
  s.moveRest

/-- `smap` and `upd` after the update, and the pairs that it freed. -/
structure UpdateResult where
  smap : CStringMap
  upd : CStringMap
  freed : List PairPtr

variable (grarSort : List PairPtr → List PairPtr)

def CStringMap.sortedContainer (map : CStringMap) : List PairPtr :=
  if map.sorted = false then grarSort map.container else map.container

def smapUpdate (smap upd : CStringMap) : Except UpdateFault UpdateResult := do
  let gaOld := smap.sortedContainer grarSort
  let gaUpd := upd.sortedContainer grarSort
  if gaUpd.length = 0 then return ⟨⟨gaOld, true⟩, ⟨gaUpd, true⟩, []⟩
  else if gaOld.length = 0 then return ⟨⟨gaUpd, true⟩, ⟨gaOld, true⟩, []⟩
  else
    let s ← UpdateState.loopUpd (fun s => .ok s.upd.more) (UpdateState.round memory)
      ⟨⟨gaOld.map some, 0⟩, ⟨gaUpd.map some, 0⟩, [], []⟩
    return ⟨⟨s.res, true⟩, ⟨[], true⟩, s.freed⟩

end Update

section Spec

variable (memory : PairPtr → TStringPair)

def SortedByKey (array : List PairPtr) : Prop :=
  array.Pairwise fun a b => strcmp (memory a).key (memory b).key ≤ 0

def keyOf (sp : PairPtr) : Str :=
  (memory sp).key

/-- `grar_sort` sorts by key and keeps the order of equal keys. -/
structure SortsStably (grarSort : List PairPtr → List PairPtr) : Prop where
  sorted : ∀ array, SortedByKey memory (grarSort array)
  stable : ∀ array key, atKey (keyOf memory) key (grarSort array) = atKey (keyOf memory) key array

structure TwoMaps where
  smap : CStringMap
  upd : CStringMap
  smap_sorted : smap.sorted = true → SortedByKey memory smap.container
  upd_sorted : upd.sorted = true → SortedByKey memory upd.container
  owned_once : (smap.container ++ upd.container).Nodup

structure Updated (maps : TwoMaps memory) (result : UpdateResult) : Prop where
  upd_empty : result.upd.container = []
  smap_sorted : SortedByKey memory result.smap.container
  /-- The pairs of `upd`, in their order. -/
  updated : ∀ key ∈ maps.upd.container.map (keyOf memory),
    atKey (keyOf memory) key result.smap.container =
      atKey (keyOf memory) key maps.upd.container
  /-- The pairs of `smap` with other keys, in their order. -/
  unchanged : ∀ key, key ∉ maps.upd.container.map (keyOf memory) →
    atKey (keyOf memory) key result.smap.container =
      atKey (keyOf memory) key maps.smap.container
  freed_once : result.freed.Nodup
  /-- The pairs that are replaced. -/
  freed_iff : ∀ sp, sp ∈ result.freed ↔
    sp ∈ maps.smap.container ∧ keyOf memory sp ∈ maps.upd.container.map (keyOf memory)
  /-- Each pair is owned by `smap`, or it is freed. -/
  owned_once : (result.smap.container ++ result.freed).Nodup

end Spec

def keyRank (key : Str) : List Nat :=
  key.map UInt8.toNat

theorem strcmp_lt_zero_iff (s t : Str) : strcmp s t < 0 ↔ keyRank s < keyRank t := by
  induction s generalizing t with
  | nil =>
    cases t with
    | nil => simp [strcmp, keyRank]
    | cons b t => simp [strcmp, keyRank]
  | cons a s ih =>
    cases t with
    | nil => simp [strcmp, keyRank]
    | cons b t =>
      rw [strcmp, keyRank, keyRank, List.map_cons, List.map_cons, List.cons_lt_cons_iff]
      by_cases h : a = b
      · rw [if_pos h, ih, h]
        simp [keyRank]
      · have hne : a.toNat ≠ b.toNat := fun heq => h (UInt8.toNat_inj.mp heq)
        rw [if_neg h]
        simp only [hne, false_and, or_false]
        omega

theorem strcmp_eq_zero_iff (s t : Str) : strcmp s t = 0 ↔ s = t := by
  induction s generalizing t with
  | nil => cases t <;> simp [strcmp]
  | cons a s ih =>
    cases t with
    | nil => simp [strcmp]
    | cons b t =>
      rw [strcmp]
      by_cases h : a = b
      · rw [if_pos h, ih, h]
        simp
      · have hne : a.toNat ≠ b.toNat := fun heq => h (UInt8.toNat_inj.mp heq)
        rw [if_neg h]
        simp only [List.cons.injEq, h, false_and, iff_false]
        omega

theorem keyRank_injective : Function.Injective keyRank :=
  List.map_injective_iff.mpr fun _ _ => UInt8.toNat_inj.mp

theorem strcmp_le_zero_iff (s t : Str) : strcmp s t ≤ 0 ↔ keyRank s ≤ keyRank t := by
  rw [le_iff_lt_or_eq, le_iff_lt_or_eq, strcmp_lt_zero_iff, strcmp_eq_zero_iff,
    keyRank_injective.eq_iff]

section Proofs

variable {memory : PairPtr → TStringPair}

variable (memory) in
def rankOf (sp : PairPtr) : List Nat :=
  keyRank (keyOf memory sp)

variable {a b u : PairPtr} {xs ys : List PairPtr}

theorem rankOf_eq_iff : rankOf memory a = rankOf memory b ↔ keyOf memory a = keyOf memory b :=
  keyRank_injective.eq_iff

theorem sortedByKey_iff {array : List PairPtr} :
    SortedByKey memory array ↔ array.Pairwise fun a b => rankOf memory a ≤ rankOf memory b := by
  simp only [SortedByKey, strcmp_le_zero_iff]
  rfl

theorem stringPairCompare_lt_zero_iff :
    stringPairCompare memory a b < 0 ↔ rankOf memory a < rankOf memory b := by
  rw [stringPairCompare]
  by_cases h : a = b
  · rw [if_pos h, h]
    simp
  · rw [if_neg h, strcmp_lt_zero_iff]
    rfl

theorem stringPairCompare_eq_zero_iff :
    stringPairCompare memory a b = 0 ↔ rankOf memory a = rankOf memory b := by
  rw [stringPairCompare]
  by_cases h : a = b
  · rw [if_pos h, h]
    simp
  · rw [if_neg h, strcmp_eq_zero_iff, rankOf_eq_iff]
    rfl

/-- The pointers that are left; those before are `NULL`. -/
def Cursor.Holds (c : Cursor) (rest : List PairPtr) : Prop :=
  c.array = List.replicate c.index none ++ rest.map some

variable {c : Cursor} {a : PairPtr} {rest : List PairPtr}

theorem Cursor.holds_start (array : List PairPtr) : Cursor.Holds ⟨array.map some, 0⟩ array :=
  rfl

theorem Cursor.Holds.length (h : c.Holds rest) : c.array.length = c.index + rest.length := by
  rw [h, List.length_append, List.length_replicate, List.length_map]

theorem Cursor.Holds.more_eq (h : c.Holds rest) : c.more = !rest.isEmpty := by
  have hlength := h.length
  cases rest with
  | nil => simp [Cursor.more, hlength]
  | cons a rest => simp [Cursor.more, hlength]

theorem Cursor.Holds.element_eq (h : c.Holds (a :: rest)) : c.element = .ok a := by
  have hget : c.array[c.index]? = some (some a) := by
    rw [h, List.getElem?_append_right (by simp)]
    simp
  rw [Cursor.element, hget]

theorem Cursor.Holds.next (h : c.Holds (a :: rest)) : c.next.Holds rest := by
  rw [Cursor.Holds, Cursor.next, h, List.set_append_right _ _ (by simp)]
  simp [List.replicate_succ']

theorem Cursor.Holds.index_eq_iff (h : c.Holds rest) : c.index = c.array.length ↔ rest = [] := by
  rw [h.length, ← List.length_eq_zero_iff]
  omega

variable {s : UpdateState} {b : PairPtr} {olds upds : List PairPtr}

theorem compare_eq (ha : a ∉ s.freed) (hb : b ∉ s.freed) :
    s.compare memory a b = .ok (stringPairCompare memory a b) := by
  rw [UpdateState.compare, if_neg (by simp [ha, hb])]

theorem oldBefore_nil (h : s.old.Holds []) : s.oldBefore memory = .ok false := by
  rw [UpdateState.oldBefore, h.more_eq]
  rfl

theorem oldEqual_nil (h : s.old.Holds []) : s.oldEqual memory = .ok false := by
  rw [UpdateState.oldEqual, h.more_eq]
  rfl

theorem updEqual_nil (h : s.upd.Holds []) : s.updEqual memory b = .ok false := by
  rw [UpdateState.updEqual, h.more_eq]
  rfl

theorem oldBefore_cons (hold : s.old.Holds (a :: olds)) (hupd : s.upd.Holds (b :: upds))
    (ha : a ∉ s.freed) (hb : b ∉ s.freed) :
    s.oldBefore memory = .ok (decide (rankOf memory a < rankOf memory b)) := by
  rw [UpdateState.oldBefore, hold.more_eq, hold.element_eq, hupd.element_eq]
  simp only [List.isEmpty_cons, Bool.not_false, if_true, bind, Except.bind,
    compare_eq ha hb, stringPairCompare_lt_zero_iff]
  rfl

theorem oldEqual_cons (hold : s.old.Holds (a :: olds)) (hupd : s.upd.Holds (b :: upds))
    (ha : a ∉ s.freed) (hb : b ∉ s.freed) :
    s.oldEqual memory = .ok (decide (rankOf memory a = rankOf memory b)) := by
  rw [UpdateState.oldEqual, hold.more_eq, hold.element_eq, hupd.element_eq]
  simp only [List.isEmpty_cons, Bool.not_false, if_true, bind, Except.bind,
    compare_eq ha hb, stringPairCompare_eq_zero_iff]
  rfl

theorem updEqual_cons (hupd : s.upd.Holds (a :: upds)) (ha : a ∉ s.freed) (hb : b ∉ s.freed) :
    s.updEqual memory b = .ok (decide (rankOf memory a = rankOf memory b)) := by
  rw [UpdateState.updEqual, hupd.more_eq, hupd.element_eq]
  simp only [List.isEmpty_cons, Bool.not_false, if_true, bind, Except.bind,
    compare_eq ha hb, stringPairCompare_eq_zero_iff]
  rfl

/-- A loop that takes the pointers `xs` from a cursor and puts them behind the pointers `out`. -/
theorem run_cursor {rest : List PairPtr} (cond : UpdateState → Except UpdateFault Bool)
    (body : UpdateState → Except UpdateFault UpdateState) (cur : UpdateState → Cursor)
    (out : UpdateState → List PairPtr) (Kept : UpdateState → Prop)
    (hs : (cur s).Holds (xs ++ rest)) (hkept : Kept s)
    (hround : ∀ done x ys t, xs = done ++ x :: ys → out t = out s ++ done →
      (cur t).Holds (x :: (ys ++ rest)) → Kept t → cond t = .ok true ∧
        ∃ t', body t = .ok t' ∧ out t' = out t ++ [x] ∧ cur t' = (cur t).next ∧ Kept t')
    (hend : ∀ t, out t = out s ++ xs → (cur t).Holds rest → Kept t → cond t = .ok false) :
    ∃ t, While.run .endless cond body ((cur s).array.length + 1) s = .ok t ∧ (cur t).Holds rest ∧
      out t = out s ++ xs ∧ Kept t := by
  let inv (zs : List PairPtr) (t : UpdateState) : Prop :=
    (∃ done, xs = done ++ zs ∧ out t = out s ++ done) ∧ (cur t).Holds (zs ++ rest) ∧ Kept t
  have hstep : ∀ x zs t, inv (x :: zs) t →
      cond t = .ok true ∧ ∃ t', body t = .ok t' ∧ inv zs t' := by
    rintro x zs t ⟨⟨done, hdone, hout⟩, hcur, ht⟩
    obtain ⟨hcond, t', hbody, hout', hcur', ht'⟩ := hround done x zs t hdone hout hcur ht
    refine ⟨hcond, t', hbody, ⟨done ++ [x], by simp [hdone], ?_⟩, ?_, ht'⟩
    · rw [hout', hout, List.append_assoc]
    · rw [hcur']
      exact hcur.next
  have hfuel : xs.length < (cur s).array.length + 1 := by
    rw [hs.length, List.length_append]
    omega
  have hlast : ∀ t, inv [] t → out t = out s ++ xs ∧ (cur t).Holds rest ∧ Kept t := by
    rintro t ⟨⟨done, hdone, hout⟩, hcur, ht⟩
    rw [List.append_nil] at hdone
    exact ⟨hdone ▸ hout, hcur, ht⟩
  obtain ⟨t, hrun, ht⟩ := While.run_list .endless cond body inv hstep
    (fun t ht => hend t (hlast t ht).1 (hlast t ht).2.1 (hlast t ht).2.2) xs s
    ⟨⟨[], rfl, (List.append_nil _).symm⟩, hs, hkept⟩ _ hfuel
  obtain ⟨hout, hcur, hkept⟩ := hlast t ht
  exact ⟨t, hrun, hcur, hout, hkept⟩

theorem loopOld_move (cond : UpdateState → Except UpdateFault Bool) (olds : List PairPtr)
    (hs : s.old.Holds (xs ++ olds))
    (hcond : ∀ x ys t, x ∈ xs → t.old.Holds (x :: ys) → t.upd = s.upd →
      t.freed = s.freed → cond t = .ok true)
    (hend : ∀ t, t.old.Holds olds → t.upd = s.upd → t.freed = s.freed →
      cond t = .ok false) :
    ∃ t, s.loopOld cond UpdateState.moveOld = .ok t ∧ t.old.Holds olds ∧ t.upd = s.upd ∧
      t.res = s.res ++ xs ∧ t.freed = s.freed := by
  obtain ⟨t, hrun, hold, hres, hupd, hfreed⟩ := run_cursor cond UpdateState.moveOld UpdateState.old
    UpdateState.res (fun t => t.upd = s.upd ∧ t.freed = s.freed) hs ⟨rfl, rfl⟩
    (fun moved x ys t hxs _ hold hkept =>
      ⟨hcond x _ t (by simp [hxs]) hold hkept.1 hkept.2,
        { t with res := t.res ++ [x], old := t.old.next },
        by rw [UpdateState.moveOld, hold.element_eq]; rfl, rfl, rfl, hkept⟩)
    fun t _ hold hkept => hend t hold hkept.1 hkept.2
  exact ⟨t, hrun, hold, hupd, hres, hfreed⟩

theorem loopUpd_move (cond : UpdateState → Except UpdateFault Bool) (upds : List PairPtr)
    (hs : s.upd.Holds (xs ++ upds))
    (hcond : ∀ x ys t, x ∈ xs → t.upd.Holds (x :: ys) → t.old = s.old →
      t.freed = s.freed → cond t = .ok true)
    (hend : ∀ t, t.upd.Holds upds → t.old = s.old → t.freed = s.freed →
      cond t = .ok false) :
    ∃ t, s.loopUpd cond UpdateState.moveUpd = .ok t ∧ t.upd.Holds upds ∧ t.old = s.old ∧
      t.res = s.res ++ xs ∧ t.freed = s.freed := by
  obtain ⟨t, hrun, hupd, hres, hold, hfreed⟩ := run_cursor cond UpdateState.moveUpd UpdateState.upd
    UpdateState.res (fun t => t.old = s.old ∧ t.freed = s.freed) hs ⟨rfl, rfl⟩
    (fun moved x ys t hxs _ hupd hkept =>
      ⟨hcond x _ t (by simp [hxs]) hupd hkept.1 hkept.2,
        { t with res := t.res ++ [x], upd := t.upd.next },
        by rw [UpdateState.moveUpd, hupd.element_eq]; rfl, rfl, rfl, hkept⟩)
    fun t _ hupd hkept => hend t hupd hkept.1 hkept.2
  exact ⟨t, hrun, hupd, hold, hres, hfreed⟩

theorem loopOld_destroy {cond : UpdateState → Except UpdateFault Bool}
    (hs : s.old.Holds (xs ++ olds)) (hnodup : (s.freed ++ xs).Nodup)
    (hcond : ∀ x ys t, x ∈ xs → x ∉ t.freed → t.old.Holds (x :: ys) → t.upd = s.upd →
      t.freed ⊆ s.freed ++ xs → cond t = .ok true)
    (hend : ∀ t, t.old.Holds olds → t.upd = s.upd → t.freed = s.freed ++ xs →
      cond t = .ok false) :
    ∃ t, s.loopOld cond UpdateState.destroyOld = .ok t ∧ t.old.Holds olds ∧ t.upd = s.upd ∧
      t.res = s.res ∧ t.freed = s.freed ++ xs := by
  obtain ⟨t, hrun, hold, hfreed, hupd, hres⟩ := run_cursor cond UpdateState.destroyOld UpdateState.old
    UpdateState.freed (fun t => t.upd = s.upd ∧ t.res = s.res) hs ⟨rfl, rfl⟩
    (fun gone x ys t hxs hfreed hold hkept => by
      have hx : x ∉ t.freed := by
        rw [hxs, ← List.append_assoc, ← hfreed] at hnodup
        exact fun hmem => List.disjoint_of_nodup_append hnodup hmem List.mem_cons_self
      have hsub : t.freed ⊆ s.freed ++ xs := by
        rw [hfreed, hxs, ← List.append_assoc]
        exact List.subset_append_left _ _
      refine ⟨hcond x _ t (by simp [hxs]) hx hold hkept.1 hsub,
        { t with freed := t.freed ++ [x], old := t.old.next }, ?_, rfl, rfl, hkept⟩
      rw [UpdateState.destroyOld, hold.element_eq]
      exact if_neg hx)
    fun t hfreed hold hkept => hend t hold hkept.1 hfreed
  exact ⟨t, hrun, hold, hupd, hres, hfreed⟩

theorem pairwise_append_of_lt (hxs : xs.Pairwise fun a b => rankOf memory a ≤ rankOf memory b)
    (hys : ys.Pairwise fun a b => rankOf memory a ≤ rankOf memory b)
    (hlt : ∀ a ∈ xs, ∀ b ∈ ys, rankOf memory a < rankOf memory b) :
    (xs ++ ys).Pairwise fun a b => rankOf memory a ≤ rankOf memory b :=
  List.pairwise_append.mpr ⟨hxs, hys, fun a ha b hb => (hlt a ha b hb).le⟩

variable (memory) in
/-- The pairs `oldDone` and `updDone` have been merged into `ga_res`; `olds` and `upds` are
left, and their keys are greater. -/
structure Merged (s : UpdateState) (oldDone olds updDone upds : List PairPtr) : Prop where
  old_holds : s.old.Holds olds
  upd_holds : s.upd.Holds upds
  overrides : Overrides (keyOf memory) oldDone updDone s.res s.freed
  res_sorted : s.res.Pairwise fun a b => rankOf memory a ≤ rankOf memory b
  separated : ∀ a ∈ oldDone ++ updDone, ∀ b ∈ olds ++ upds,
    rankOf memory a < rankOf memory b

variable {oldDone updDone : List PairPtr}

theorem keyOf_ne_of_rank_lt (h : rankOf memory a < rankOf memory b) :
    keyOf memory a ≠ keyOf memory b :=
  fun heq => h.ne (rankOf_eq_iff.mpr heq)

theorem Merged.advance {res freed : List PairPtr}
    (h : Merged memory s oldDone (xs ++ olds) updDone (ys ++ upds))
    (hover : Overrides (keyOf memory) xs ys res freed)
    (hsorted : res.Pairwise fun a b => rankOf memory a ≤ rankOf memory b)
    (hsep : ∀ a ∈ xs ++ ys, ∀ b ∈ olds ++ upds, rankOf memory a < rankOf memory b)
    {t : UpdateState} (hold : t.old.Holds olds) (hupd : t.upd.Holds upds)
    (hres : t.res = s.res ++ res) (hfreed : t.freed = s.freed ++ freed) :
    Merged memory t (oldDone ++ xs) olds (updDone ++ ys) upds := by
  have hnext : ∀ a ∈ oldDone ++ updDone, ∀ b ∈ xs ++ ys,
      rankOf memory a < rankOf memory b := by
    intro a ha b hb
    refine h.separated a ha b ?_
    rcases List.mem_append.mp hb with hb | hb <;> simp [hb]
  refine ⟨hold, hupd, ?_, ?_, ?_⟩
  · rw [hres, hfreed]
    exact h.overrides.append hover fun a ha b hb => keyOf_ne_of_rank_lt (hnext a ha b hb)
  · rw [hres]
    exact pairwise_append_of_lt h.res_sorted hsorted fun a ha b hb =>
      hnext a (h.overrides.mem_res ha) b (hover.mem_res hb)
  · intro a ha b hb
    have hrest : b ∈ xs ++ olds ++ (ys ++ upds) := by
      rcases List.mem_append.mp hb with hb | hb <;> simp [hb]
    have hcases : a ∈ oldDone ++ updDone ∨ a ∈ xs ++ ys := by
      simp only [List.mem_append] at ha ⊢
      tauto
    rcases hcases with ha | ha
    · exact h.separated a ha b hrest
    · exact hsep a ha b hb

theorem exists_split_upd
    (hsorted : (u :: upds).Pairwise fun a b => rankOf memory a ≤ rankOf memory b) :
    ∃ same more, u :: upds = same ++ more ∧ u ∈ same ∧
      (∀ a ∈ same, rankOf memory a = rankOf memory u) ∧
      ∀ a ∈ more, rankOf memory u < rankOf memory a := by
  obtain ⟨less, same, more, hsplit, hless, hsame, hmore⟩ :=
    KeyedOverride.exists_split hsorted (rankOf memory u)
  have hnil : less = [] := by
    cases less with
    | nil => rfl
    | cons a less =>
      obtain ⟨rfl, -⟩ := List.cons.inj hsplit
      exact absurd (hless u List.mem_cons_self) (lt_irrefl _)
  subst hnil
  refine ⟨same, more, hsplit, ?_, hsame, hmore⟩
  have hu : u ∈ same ++ more := by
    rw [← List.nil_append (same ++ more), ← hsplit]
    exact List.mem_cons_self
  rcases List.mem_append.mp hu with hu | hu
  · exact hu
  · exact absurd (hmore u hu) (lt_irrefl _)

theorem Merged.not_freed (h : Merged memory s oldDone olds updDone upds)
    (hnodup : (oldDone ++ olds ++ upds).Nodup) (ha : a ∈ olds ++ upds) :
    a ∉ s.freed := by
  intro hfreed
  have hdone := (h.overrides.mem_freed.mp hfreed).1
  rw [List.append_assoc] at hnodup
  exact List.disjoint_of_nodup_append hnodup hdone ha

theorem loopOld_oldBefore {less rest : List PairPtr} (hold : s.old.Holds (less ++ rest))
    (hupd : s.upd.Holds (u :: upds)) (hless : ∀ a ∈ less, rankOf memory a < rankOf memory u)
    (hrest : ∀ a ∈ rest, rankOf memory u ≤ rankOf memory a)
    (hfresh : ∀ a ∈ less ++ rest, a ∉ s.freed) (hu : u ∉ s.freed) :
    ∃ t, s.loopOld (UpdateState.oldBefore memory) UpdateState.moveOld = .ok t ∧
      t.old.Holds rest ∧ t.upd = s.upd ∧ t.res = s.res ++ less ∧ t.freed = s.freed := by
  refine loopOld_move _ _ hold ?_ ?_
  · intro x zs t hx hxs htupd htfreed
    rw [← htupd] at hupd
    rw [← htfreed] at hfresh hu
    rw [oldBefore_cons hxs hupd (hfresh x (by simp [hx])) hu, decide_eq_true (hless x hx)]
  · intro t htold htupd htfreed
    rw [← htupd] at hupd
    rw [← htfreed] at hfresh hu
    cases rest with
    | nil => exact oldBefore_nil htold
    | cons a rest =>
      rw [oldBefore_cons htold hupd (hfresh a (by simp)) hu,
        decide_eq_false (not_lt.mpr (hrest a List.mem_cons_self))]

theorem loopOld_oldEqual {same more : List PairPtr} (hold : s.old.Holds (same ++ more))
    (hupd : s.upd.Holds (u :: upds)) (hsame : ∀ a ∈ same, rankOf memory a = rankOf memory u)
    (hmore : ∀ a ∈ more, rankOf memory u < rankOf memory a) (hnodup : (s.freed ++ same).Nodup)
    (hfresh : ∀ a ∈ more, a ∉ s.freed ++ same) (hu : u ∉ s.freed ++ same) :
    ∃ t, s.loopOld (UpdateState.oldEqual memory) UpdateState.destroyOld = .ok t ∧
      t.old.Holds more ∧ t.upd = s.upd ∧ t.res = s.res ∧ t.freed = s.freed ++ same := by
  refine loopOld_destroy hold hnodup ?_ ?_
  · intro x zs t hx hxfresh hxs htupd htfreed
    rw [← htupd] at hupd
    rw [oldEqual_cons hxs hupd hxfresh fun hmem => hu (htfreed hmem),
      decide_eq_true (hsame x hx)]
  · intro t htold htupd htfreed
    rw [← htupd] at hupd
    rw [← htfreed] at hfresh hu
    cases more with
    | nil => exact oldEqual_nil htold
    | cons a more =>
      rw [oldEqual_cons htold hupd (hfresh a List.mem_cons_self) hu,
        decide_eq_false (hmore a List.mem_cons_self).ne']

theorem loopUpd_updEqual {more : List PairPtr} (hupd : s.upd.Holds (ys ++ more))
    (hys : ∀ a ∈ ys, rankOf memory a = rankOf memory u)
    (hmore : ∀ a ∈ more, rankOf memory u < rankOf memory a)
    (hfresh : ∀ a ∈ ys ++ more, a ∉ s.freed) (hu : u ∉ s.freed) :
    ∃ t, s.loopUpd (UpdateState.updEqual memory u) UpdateState.moveUpd = .ok t ∧
      t.upd.Holds more ∧ t.old = s.old ∧ t.res = s.res ++ ys ∧ t.freed = s.freed := by
  refine loopUpd_move _ _ hupd ?_ ?_
  · intro x zs t hx hxs htold htfreed
    rw [← htfreed] at hfresh hu
    rw [updEqual_cons hxs (hfresh x (by simp [hx])) hu, decide_eq_true (hys x hx)]
  · intro t htupd htold htfreed
    rw [← htfreed] at hfresh hu
    cases more with
    | nil => exact updEqual_nil htupd
    | cons a more =>
      rw [updEqual_cons htupd (hfresh a (by simp)) hu,
        decide_eq_false (hmore a List.mem_cons_self).ne']

theorem round_eq_moveRest (h : Merged memory s oldDone olds updDone (u :: upds))
    (hold : olds.Pairwise fun a b => rankOf memory a ≤ rankOf memory b)
    (hupd : (u :: upds).Pairwise fun a b => rankOf memory a ≤ rankOf memory b)
    (hnodup : (oldDone ++ olds ++ (u :: upds)).Nodup) :
    ∃ t xs olds' ys upds', s.round memory = t.moveRest ∧ olds = xs ++ olds' ∧
      u :: upds = ys ++ upds' ∧ ys ≠ [] ∧
      Merged memory t (oldDone ++ xs) olds' (updDone ++ ys) upds' := by
  obtain ⟨less, same, more, rfl, hless, hsame, hmore⟩ :=
    KeyedOverride.exists_split hold (rankOf memory u)
  obtain ⟨ys, upds', hsplit, hu, hys, hupds'⟩ := exists_split_upd hupd
  have hfresh : ∀ a, a ∈ less ++ (same ++ more) ++ (u :: upds) → a ∉ s.freed :=
    fun a => h.not_freed hnodup
  have hdisjoint : ∀ a, a ∈ u :: upds → a ∉ less ++ (same ++ more) := by
    intro a ha hmem
    rw [List.append_assoc] at hnodup
    exact List.disjoint_of_nodup_append hnodup.of_append_right hmem ha
  have hnodup' : (less ++ (same ++ more)).Nodup := by
    exact (hnodup.of_append_left).of_append_right
  -- the elements before the key are moved, those with the key are destroyed
  obtain ⟨s1, hrun1, hold1, hupd1, hres1, hfreed1⟩ := loopOld_oldBefore h.old_holds h.upd_holds
    hless (by
      intro a ha
      rcases List.mem_append.mp ha with ha | ha
      · exact (hsame a ha).ge
      · exact (hmore a ha).le)
    (fun a ha => hfresh a (List.mem_append_left _ ha)) (hfresh u (by simp))
  have hfreed : (s1.freed ++ same).Nodup := by
    rw [hfreed1, h.overrides.freed_eq, List.nodup_append]
    refine ⟨(hnodup.of_append_left.of_append_left).filter _,
      hnodup'.of_append_right.of_append_left, fun a ha b hb hab => ?_⟩
    refine hfresh b (by simp [hb]) ?_
    rw [h.overrides.freed_eq, ← hab]
    exact ha
  have hmorefresh : ∀ a ∈ more, a ∉ s1.freed ++ same := by
    intro a ha hmem
    rcases List.mem_append.mp hmem with hmem | hmem
    · exact hfresh a (by simp [ha]) (hfreed1 ▸ hmem)
    · exact List.disjoint_of_nodup_append hnodup'.of_append_right hmem ha
  have hupdfresh : ∀ a, a ∈ u :: upds → a ∉ s1.freed ++ same := by
    intro a ha hmem
    rcases List.mem_append.mp hmem with hmem | hmem
    · exact hfresh a (List.mem_append_right _ ha) (hfreed1 ▸ hmem)
    · exact hdisjoint a ha (by simp [hmem])
  have hupds1 : s1.upd.Holds (u :: upds) := hupd1 ▸ h.upd_holds
  obtain ⟨s2, hrun2, hold2, hupd2, hres2, hfreed2⟩ := loopOld_oldEqual hold1 hupds1 hsame hmore
    hfreed hmorefresh (hupdfresh u List.mem_cons_self)
  -- the elements of `upd` with the key are moved
  have hupds2 : s2.upd.Holds (u :: upds) := hupd2 ▸ hupds1
  obtain ⟨s3, hrun3, hupd3, hold3, hres3, hfreed3⟩ := loopUpd_updEqual (u := u)
    (hsplit ▸ hupds2) hys hupds' (fun a ha => hfreed2 ▸ hupdfresh a (hsplit ▸ ha))
    (hfreed2 ▸ hupdfresh u List.mem_cons_self)
  have hround : s.round memory = s3.moveRest := by
    rw [UpdateState.round]
    simp only [hrun1, hrun2, hupds2.element_eq, hrun3, bind, Except.bind]
  have hsep : ∀ a ∈ less ++ same ++ ys, ∀ b ∈ more ++ upds',
      rankOf memory a < rankOf memory b := by
    intro a ha b hb
    have hle : rankOf memory a ≤ rankOf memory u := by
      simp only [List.mem_append] at ha
      rcases ha with (ha | ha) | ha
      · exact (hless a ha).le
      · exact (hsame a ha).le
      · exact (hys a ha).le
    have hlt : rankOf memory u < rankOf memory b :=
      (List.mem_append.mp hb).elim (hmore b) (hupds' b)
    exact hle.trans_lt hlt
  have hover : Overrides (keyOf memory) (less ++ same) ([] ++ ys) (less ++ ys) ([] ++ same) := by
    refine (KeyedOverride.overrides_old less).append (KeyedOverride.overrides_same ?_) ?_
    · intro a ha
      exact List.mem_map.mpr ⟨u, hu, rankOf_eq_iff.mp (hsame a ha).symm⟩
    · intro a ha b hb
      rw [List.append_nil] at ha
      refine keyOf_ne_of_rank_lt ((hless a ha).trans_eq ?_)
      exact ((List.mem_append.mp hb).elim (hsame b) (hys b)).symm
  have hsorted : (less ++ ys).Pairwise fun a b => rankOf memory a ≤ rankOf memory b := by
    refine pairwise_append_of_lt (List.pairwise_append.mp hold).1
      (List.pairwise_append.mp (hsplit ▸ hupd)).1 fun a ha b hb => ?_
    exact (hless a ha).trans_eq (hys b hb).symm
  refine ⟨s3, less ++ same, more, ys, upds', hround, by simp, hsplit, ?_, ?_⟩
  · exact List.ne_nil_of_mem hu
  · rw [hsplit, ← List.append_assoc] at h
    refine h.advance hover hsorted hsep (hold3 ▸ hold2) hupd3 ?_ ?_
    · rw [hres3, hres2, hres1, List.append_assoc]
    · rw [hfreed3, hfreed2, hfreed1, List.nil_append]

theorem moveRest_merged (h : Merged memory s oldDone olds updDone upds)
    (hold : olds.Pairwise fun a b => rankOf memory a ≤ rankOf memory b)
    (hupd : upds.Pairwise fun a b => rankOf memory a ≤ rankOf memory b) :
    ∃ t xs olds' ys upds', s.moveRest = .ok t ∧ olds = xs ++ olds' ∧ upds = ys ++ upds' ∧
      (upds' = [] → olds' = []) ∧
      Merged memory t (oldDone ++ xs) olds' (updDone ++ ys) upds' := by
  rw [UpdateState.moveRest]
  by_cases hnoupd : upds = []
  · subst hnoupd
    rw [if_pos (h.upd_holds.index_eq_iff.mpr rfl)]
    obtain ⟨t, hrun, htold, htupd, hres, hfreed⟩ := loopOld_move
      (fun s => .ok s.old.more) [] ((List.append_nil olds).symm ▸ h.old_holds)
      (fun x ys t _ ht _ _ => by rw [ht.more_eq]; rfl)
      (fun t ht _ _ => by rw [ht.more_eq]; rfl)
    refine ⟨t, olds, [], [], [], hrun, (List.append_nil olds).symm, rfl, fun _ => rfl, ?_⟩
    rw [← List.append_nil olds] at h
    exact h.advance (KeyedOverride.overrides_old olds) hold (by simp) htold
      (htupd ▸ h.upd_holds) hres (by rw [hfreed, List.append_nil])
  · rw [if_neg (mt h.upd_holds.index_eq_iff.mp hnoupd)]
    by_cases hnoold : olds = []
    · subst hnoold
      rw [if_pos (h.old_holds.index_eq_iff.mpr rfl)]
      obtain ⟨t, hrun, htupd, htold, hres, hfreed⟩ := loopUpd_move
        (fun s => .ok s.upd.more) [] ((List.append_nil upds).symm ▸ h.upd_holds)
        (fun x ys t _ ht _ _ => by rw [ht.more_eq]; rfl)
        (fun t ht _ _ => by rw [ht.more_eq]; rfl)
      refine ⟨t, [], [], upds, [], hrun, rfl, (List.append_nil upds).symm, fun _ => rfl, ?_⟩
      rw [← List.append_nil upds] at h
      exact h.advance (KeyedOverride.overrides_upd upds) hupd (by simp) (htold ▸ h.old_holds)
        htupd hres (by rw [hfreed, List.append_nil])
    · rw [if_neg (mt h.old_holds.index_eq_iff.mp hnoold)]
      refine ⟨s, [], olds, [], upds, rfl, rfl, rfl, fun heq => absurd heq hnoupd, ?_⟩
      rw [List.append_nil, List.append_nil]
      exact h

variable {olds0 upds0 : List PairPtr}

theorem merge_overrides (hold : olds0.Pairwise fun a b => rankOf memory a ≤ rankOf memory b)
    (hupd : upds0.Pairwise fun a b => rankOf memory a ≤ rankOf memory b)
    (hnodup : (olds0 ++ upds0).Nodup) (hne : upds0 ≠ []) :
    ∃ t, UpdateState.loopUpd (fun s => .ok s.upd.more) (UpdateState.round memory)
        ⟨⟨olds0.map some, 0⟩, ⟨upds0.map some, 0⟩, [], []⟩ = .ok t ∧
      Overrides (keyOf memory) olds0 upds0 t.res t.freed ∧
      t.res.Pairwise fun a b => rankOf memory a ≤ rankOf memory b := by
  let inv (t : UpdateState) : Prop := ∃ oldDone olds updDone upds,
    olds0 = oldDone ++ olds ∧ upds0 = updDone ++ upds ∧ (upds = [] → olds = []) ∧
      Merged memory t oldDone olds updDone upds
  have hround : ∀ t, inv t → (Except.ok t.upd.more : Except UpdateFault Bool) = .ok false ∨
      (Except.ok t.upd.more : Except UpdateFault Bool) = .ok true ∧
        ∃ t', t.round memory = .ok t' ∧ inv t' ∧
          t'.upd.array.length - t'.upd.index < t.upd.array.length - t.upd.index := by
    rintro t ⟨oldDone, olds, updDone, upds, rfl, rfl, -, h⟩
    cases upds with
    | nil =>
      left
      rw [h.upd_holds.more_eq]
      rfl
    | cons u upds =>
      right
      have hold' := (List.pairwise_append.mp hold).2.1
      have hupd' := (List.pairwise_append.mp hupd).2.1
      have hnodup' : (oldDone ++ olds ++ (u :: upds)).Nodup :=
        hnodup.sublist (List.Sublist.append_left (List.sublist_append_right _ _) _)
      obtain ⟨t1, xs, olds', ys, upds', heq, rfl, hsplit, hys, h1⟩ :=
        round_eq_moveRest h hold' hupd' hnodup'
      rw [hsplit] at hupd'
      obtain ⟨t2, xs', olds'', ys', upds'', hrest, rfl, rfl, hend, h2⟩ := moveRest_merged h1
        (List.pairwise_append.mp hold').2.1 (List.pairwise_append.mp hupd').2.1
      refine ⟨by rw [h.upd_holds.more_eq]; rfl, t2, heq.trans hrest, ?_, ?_⟩
      · exact ⟨_, olds'', _, upds'', by simp, by rw [hsplit]; simp, hend, h2⟩
      · have hlength := congrArg List.length hsplit
        have hpos := List.length_pos_iff.mpr hys
        rw [h.upd_holds.length, h2.upd_holds.length, hlength, List.length_append,
          List.length_append]
        omega
  have hstart : inv ⟨⟨olds0.map some, 0⟩, ⟨upds0.map some, 0⟩, [], []⟩ :=
    ⟨[], olds0, [], upds0, rfl, rfl, fun h => absurd h hne, Cursor.holds_start _,
      Cursor.holds_start _, KeyedOverride.overrides_old [], List.Pairwise.nil, by simp⟩
  have hfuel : (upds0.map some).length - 0 < (upds0.map some).length + 1 := by omega
  obtain ⟨t, hrun, ⟨oldDone, olds, updDone, upds, holds, hupds, hend, h⟩, hcond⟩ :=
    While.run_measure .endless (fun s : UpdateState => .ok s.upd.more) (UpdateState.round memory)
      inv (fun t => t.upd.array.length - t.upd.index) hround _ _ hstart hfuel
  have hnil : upds = [] := by
    rw [h.upd_holds.more_eq] at hcond
    cases upds with
    | nil => rfl
    | cons u upds => cases hcond
  rw [hend hnil, List.append_nil] at holds
  rw [hnil, List.append_nil] at hupds
  rw [holds, hupds]
  exact ⟨t, holds ▸ hupds ▸ hrun, h.overrides, h.res_sorted⟩

variable {grarSort : List PairPtr → List PairPtr}

section

variable (hsort : SortsStably memory grarSort)
include hsort

theorem sortedContainer_sorted {map : CStringMap}
    (hmap : map.sorted = true → SortedByKey memory map.container) :
    SortedByKey memory (map.sortedContainer grarSort) := by
  rw [CStringMap.sortedContainer]
  cases hsorted : map.sorted with
  | false => exact hsort.sorted map.container
  | true => exact hmap hsorted

theorem atKey_sortedContainer (map : CStringMap) (key : Str) :
    atKey (keyOf memory) key (map.sortedContainer grarSort) =
      atKey (keyOf memory) key map.container := by
  rw [CStringMap.sortedContainer]
  split_ifs
  · exact hsort.stable map.container key
  · rfl

theorem sortedContainer_perm (map : CStringMap) :
    (map.sortedContainer grarSort).Perm map.container := by
  refine List.perm_iff_count.mpr fun sp => ?_
  rw [← KeyedOverride.count_atKey (keyOf memory), atKey_sortedContainer hsort,
    KeyedOverride.count_atKey]

theorem updated_of_overrides {maps : TwoMaps memory}
    {result : UpdateResult} (hempty : result.upd.container = [])
    (hsorted : SortedByKey memory result.smap.container)
    (hover : Overrides (keyOf memory) (maps.smap.sortedContainer grarSort)
      (maps.upd.sortedContainer grarSort) result.smap.container result.freed) :
    Updated memory maps result := by
  have holdperm := sortedContainer_perm hsort maps.smap
  have hupdperm := sortedContainer_perm hsort maps.upd
  have hkeys (key : Str) : key ∈ (maps.upd.sortedContainer grarSort).map (keyOf memory) ↔
      key ∈ maps.upd.container.map (keyOf memory) :=
    (hupdperm.map (keyOf memory)).mem_iff
  have hnodup : (maps.smap.sortedContainer grarSort ++
      maps.upd.sortedContainer grarSort).Nodup :=
    (holdperm.append hupdperm).nodup_iff.mpr maps.owned_once
  have hfreed : result.freed.Nodup := by
    rw [hover.freed_eq]
    exact hnodup.of_append_left.filter _
  refine ⟨hempty, hsorted, fun key hkey => ?_, fun key hkey => ?_, hfreed, fun sp => ?_, ?_⟩
  · rw [hover.values, if_pos ((hkeys key).mpr hkey), atKey_sortedContainer hsort]
  · rw [hover.values, if_neg (mt (hkeys key).mp hkey), atKey_sortedContainer hsort]
  · rw [hover.mem_freed, hkeys, holdperm.mem_iff]
  · have hres : result.smap.container.Nodup := by
      refine List.nodup_iff_count_le_one.mpr fun sp => ?_
      rw [hover.count_res]
      split_ifs
      · exact List.nodup_iff_count_le_one.mp hnodup.of_append_right sp
      · exact List.nodup_iff_count_le_one.mp hnodup.of_append_left sp
    refine List.nodup_append.mpr ⟨hres, hfreed, fun a ha b hb hab => ?_⟩
    obtain ⟨hbold, hbkey⟩ := hover.mem_freed.mp hb
    -- a pair in `smap` with a key of `upd` comes from `upd`
    have hcount := hover.count_res a
    rw [hab, if_pos hbkey] at hcount
    have haupd : b ∈ maps.upd.sortedContainer grarSort := by
      rw [← List.count_pos_iff, ← hcount, List.count_pos_iff, ← hab]
      exact ha
    exact List.disjoint_of_nodup_append hnodup hbold haupd

end

/-- An update succeeds, and it leaves what it should. -/
theorem smapUpdate_updated (hsort : SortsStably memory grarSort) (maps : TwoMaps memory) :
    ∃ result, smapUpdate memory grarSort maps.smap maps.upd = .ok result ∧
      Updated memory maps result := by
  have hold := sortedContainer_sorted hsort maps.smap_sorted
  have hupd := sortedContainer_sorted hsort maps.upd_sorted
  have hnodup : (maps.smap.sortedContainer grarSort ++
      maps.upd.sortedContainer grarSort).Nodup :=
    ((sortedContainer_perm hsort maps.smap).append (sortedContainer_perm hsort maps.upd)).nodup_iff.mpr
      maps.owned_once
  rw [smapUpdate]
  by_cases hnoupd : (maps.upd.sortedContainer grarSort).length = 0
  · rw [if_pos hnoupd]
    have hnil := List.eq_nil_of_length_eq_zero hnoupd
    refine ⟨_, rfl, updated_of_overrides hsort hnil hold ?_⟩
    rw [hnil]
    exact KeyedOverride.overrides_old _
  · rw [if_neg hnoupd]
    by_cases hnoold : (maps.smap.sortedContainer grarSort).length = 0
    · rw [if_pos hnoold]
      have hnil := List.eq_nil_of_length_eq_zero hnoold
      refine ⟨_, rfl, updated_of_overrides hsort hnil hupd ?_⟩
      rw [hnil]
      exact KeyedOverride.overrides_upd _
    · rw [if_neg hnoold]
      obtain ⟨t, hrun, hover, hsorted⟩ := merge_overrides (sortedByKey_iff.mp hold)
        (sortedByKey_iff.mp hupd) hnodup (mt List.length_eq_zero_iff.mpr hnoupd)
      rw [hrun]
      exact ⟨_, rfl, updated_of_overrides hsort rfl (sortedByKey_iff.mpr hsorted) hover⟩

variable (memory) in
theorem sortsStably_mergeSort :
    SortsStably memory fun array =>
      array.mergeSort fun a b => strcmp (memory a).key (memory b).key ≤ 0 := by
  have htrans : ∀ a b c, decide (strcmp (memory a).key (memory b).key ≤ 0) = true →
      decide (strcmp (memory b).key (memory c).key ≤ 0) = true →
        decide (strcmp (memory a).key (memory c).key ≤ 0) = true := by
    intro a b c
    simp only [decide_eq_true_iff, strcmp_le_zero_iff]
    exact le_trans
  have htotal : ∀ a b, (decide (strcmp (memory a).key (memory b).key ≤ 0) ||
      decide (strcmp (memory b).key (memory a).key ≤ 0)) = true := by
    intro a b
    simp only [Bool.or_eq_true, decide_eq_true_iff, strcmp_le_zero_iff]
    exact le_total _ _
  refine ⟨fun array => ?_, fun array key => ?_⟩
  · have hsorted := List.pairwise_mergeSort htrans htotal array
    simp only [decide_eq_true_iff] at hsorted
    exact hsorted
  · refine KeyedOverride.atKey_eq_of_sublist (List.mergeSort_perm array _) (fun a b hkey => ?_)
      (fun zs hzs hsub => List.sublist_mergeSort htrans htotal hzs hsub) key
    rw [decide_eq_true_iff, strcmp_le_zero_iff]
    exact le_of_eq (congrArg keyRank hkey)

end Proofs

/-- Two maps; the keys of the pairs 2 and 3 are equal. -/
def twoMaps : TwoMaps fun sp => ⟨[UInt8.ofNat (sp / 2)], []⟩ where
  smap := ⟨[2, 4], false⟩
  upd := ⟨[3], true⟩
  smap_sorted := by simp
  upd_sorted := by simp [SortedByKey]
  owned_once := by decide

/-- A key of both maps gets the new pair. -/
theorem smapUpdate_updated_twoMaps :
    ∃ result, smapUpdate (fun sp => ⟨[UInt8.ofNat (sp / 2)], []⟩)
        (fun array => array.mergeSort fun a b =>
          strcmp [UInt8.ofNat (a / 2)] [UInt8.ofNat (b / 2)] ≤ 0)
        twoMaps.smap twoMaps.upd = .ok result ∧
      Updated _ twoMaps result :=
  smapUpdate_updated (sortsStably_mergeSort fun sp => ⟨[UInt8.ofNat (sp / 2)], []⟩) twoMaps

end MistEngine
end KedrAux
