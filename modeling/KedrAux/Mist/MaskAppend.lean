import KedrAux.Mist.MaskUpdates

/-!
# The traversal in `append`

The loop of `append` goes through the tree of the other mask with a stack of iterators, and
with the stack of the modifier through its own one.  From a range of iterators the loop
comes to the end of this range with the same stacks below; the paths of the elements have
been added then.  The induction is on the length of the paths and on the elements that are
left.
-/

namespace KedrAux
namespace Mist
namespace Masks

open MaskStore (submasksAt child descend Has)

variable {ms : Masks} {ok : Addr → Prop} {a pos : Nat} {indicies : List Nat}
variable {name : MistParamNameAbs} {locs : List MaskLocation} {loc : MaskLocation} {x q node : Addr}
variable {submasks : List (Str × Addr)} {subname : Str}

section Rounds

variable {ms' : Masks}
variable {index : Nat} {iters : List MaskRange} {range parent : MaskRange}

theorem findSubmask_eq_some (h : findSubmask submasks subname = some index) :
    ∃ q, submasks[index]? = some (subname, q) := by
  obtain ⟨hlt, hname, -⟩ := List.findIdx?_eq_some_iff_getElem.mp h
  have hentry := List.getElem?_eq_getElem hlt
  refine ⟨submasks[index].2, ?_⟩
  rw [hentry, ← of_decide_eq_true hname]

theorem findSubmask_eq_none (h : findSubmask submasks subname = none) :
    subname ∉ submasks.map Prod.fst := by
  rintro hmem
  obtain ⟨entry, hentry, rfl⟩ := List.mem_map.mp hmem
  have hne := List.findIdx?_eq_none_iff.mp h entry hentry
  simp at hne

theorem findSubmask_of_getElem?
    (hnodup : (submasks.map Prod.fst).Nodup) (h : submasks[index]? = some (subname, q)) :
    findSubmask submasks subname = some index := by
  obtain ⟨hlt, hentry⟩ := List.getElem?_eq_some_iff.mp h
  rw [findSubmask, List.findIdx?_eq_some_iff_getElem]
  refine ⟨hlt, by simp [hentry], ?_⟩
  intro j hj
  rw [decide_eq_true_eq]
  intro hname
  have hcount := List.nodup_iff_count_le_one.mp hnodup subname
  have hj' : (submasks.map Prod.fst)[j]? = some subname := by
    rw [List.getElem?_map, List.getElem?_eq_getElem (by omega), Option.map_some, hname]
  have hindex : (submasks.map Prod.fst)[index]? = some subname := by
    rw [List.getElem?_map, h, Option.map_some]
  exact hj.ne (eq_of_count_le_one hcount hj' hindex)

theorem appendRound_parent (hend : range.pos = range.fin) :
    appendRound ⟨ms, ⟨locs ++ [loc], indicies ++ [index]⟩, iters ++ [parent] ++ [range]⟩ =
      some (.next ⟨ms, ⟨locs, indicies⟩, iters ++ [parent.next]⟩) := by
  rw [appendRound, List.getLast?_concat, Option.bind_some, if_pos hend, List.dropLast_concat]
  dsimp only
  rw [List.getLast?_concat, List.dropLast_concat, Modifier.moveParent, List.dropLast_concat,
    List.dropLast_concat]

theorem appendRound_done {modifier : Modifier} (hend : range.pos = range.fin) :
    appendRound ⟨ms, modifier, [range]⟩ = some (.done ⟨ms, modifier, []⟩) := by
  rw [appendRound, List.getLast?_singleton, Option.bind_some, if_pos hend]
  rfl

theorem entry_eq_some
    (hnode : submasksAt ms.store node = some submasks) (hentry : submasks[pos]? = some (subname, q)) :
    MaskRange.entry ms.store ⟨node, pos, submasks.length⟩ = some (subname, q) := by
  obtain ⟨refs, hget⟩ := MaskStore.exists_of_submasksAt hnode
  rw [MaskRange.entry, hget, Option.bind_some, if_pos rfl, hentry]

theorem submasks_of_impl
    (hloc : loc.impl ms = some x) (hx : submasksAt ms.store x = some submasks) :
    loc.submasks ms = some submasks := by
  rw [MaskLocation.submasks, hloc, Option.bind_some]
  exact hx

theorem moveChild_eq_some (hloc : loc.impl ms = some x) (hx : submasksAt ms.store x = some submasks)
    (hindex : index < submasks.length) :
    Modifier.moveChild ms ⟨locs ++ [loc], indicies⟩ index =
      some ⟨locs ++ [loc] ++ [.slot x index], indicies ++ [index]⟩ := by
  obtain ⟨refs, hget⟩ := MaskStore.exists_of_submasksAt hx
  rw [Modifier.moveChild, Modifier.current, List.getLast?_concat, Option.bind_some, hloc,
    Option.bind_some, hget, Option.bind_some, if_pos hindex.ne]

theorem appendRound_child
    (hpos : pos < submasks.length) (hnode : submasksAt ms.store node = some submasks)
    (hentry : submasks[pos]? = some (subname, q)) (hloc : loc.impl ms = some x)
    {submasksx submasksq : List (Str × Addr)} (hx : submasksAt ms.store x = some submasksx)
    (hfind : findSubmask submasksx subname = some index)
    (hq : submasksAt ms.store q = some submasksq) :
    appendRound ⟨ms, ⟨locs ++ [loc], indicies⟩, iters ++ [⟨node, pos, submasks.length⟩]⟩ =
      some (.next ⟨ms, ⟨locs ++ [loc] ++ [.slot x index], indicies ++ [index]⟩,
        iters ++ [⟨node, pos, submasks.length⟩] ++ [⟨q, 0, submasksq.length⟩]⟩) := by
  obtain ⟨z, hz⟩ := findSubmask_eq_some hfind
  obtain ⟨refs, hgetq⟩ := MaskStore.exists_of_submasksAt hq
  have hmove : Modifier.moveChild ms ⟨locs ++ [loc], indicies⟩ index =
      some ⟨locs ++ [loc] ++ [.slot x index], indicies ++ [index]⟩ :=
    moveChild_eq_some hloc hx (List.getElem?_eq_some_iff.mp hz).1
  rw [appendRound, List.getLast?_concat, Option.bind_some, if_neg hpos.ne,
    entry_eq_some hnode hentry, Option.bind_some, Modifier.current, List.getLast?_concat,
    Option.bind_some, submasks_of_impl hloc hx, Option.bind_some]
  dsimp only
  rw [hfind]
  dsimp only
  rw [MaskRange.ofImpl, hgetq, Option.map_some, Option.bind_some, hmove, Option.map_some]

theorem appendRound_add {modifier : Modifier}
    (hpos : pos < submasks.length) (hnode : submasksAt ms.store node = some submasks)
    (hentry : submasks[pos]? = some (subname, q)) (hloc : loc.impl ms = some x)
    {submasksx : List (Str × Addr)} (hx : submasksAt ms.store x = some submasksx)
    (hfind : findSubmask submasksx subname = none)
    (hadd : Modifier.addSubmask ms ⟨locs ++ [loc], indicies⟩ subname (.slot node pos) =
      some (ms', modifier)) :
    appendRound ⟨ms, ⟨locs ++ [loc], indicies⟩, iters ++ [⟨node, pos, submasks.length⟩]⟩ =
      some (.next ⟨ms', modifier, iters ++ [⟨node, pos + 1, submasks.length⟩]⟩) := by
  rw [appendRound, List.getLast?_concat, Option.bind_some, if_neg hpos.ne,
    entry_eq_some hnode hentry, Option.bind_some, Modifier.current, List.getLast?_concat,
    Option.bind_some, submasks_of_impl hloc hx, Option.bind_some]
  dsimp only
  rw [hfind]
  dsimp only
  rw [hadd, Option.map_some, List.dropLast_concat]
  rfl

theorem Stack.withoutTop (h : Stack ms ok a (indicies ++ [index]) (name ++ [subname]) locs loc) :
    ∃ locs' loc' x, locs = locs' ++ [loc'] ∧ Stack ms ok a indicies name locs' loc' ∧
      loc'.impl ms = some x := by
  generalize hindicies : indicies ++ [index] = indicies1 at h
  generalize hname : name ++ [subname] = name1 at h
  cases h with
  | var => exact absurd hindicies (by simp)
  | slot hstack hinner _ _ _ =>
    obtain ⟨rfl, -⟩ := List.append_inj' hindicies rfl
    obtain ⟨rfl, -⟩ := List.append_inj' hname rfl
    exact ⟨_, _, _, rfl, hstack, hinner⟩

theorem Counted.lt_of_child
    {height : Nat} (hcounted : Counted ms []) (hget : submasksAt ms.store q = some submasks)
    (hbound : ∀ name, Has ms.store q name → name.length < height) :
    ∀ subname z rest, (subname, z) ∈ submasks → Has ms.store z rest →
      rest.length < height - 1 := by
  intro subname z rest hmem hhas
  have hnodup := hcounted.names_nodup q _ hget
  have hlonger := hbound (subname :: rest)
    (MaskStore.has_cons.mpr ⟨z, MaskStore.child_of_mem hget hnodup hmem, hhas⟩)
  rw [List.length_cons] at hlonger
  omega

end Rounds

variable {name' : MistParamNameAbs}

section Adds

variable {store : MaskStore}

/-- The paths through the elements of a vector that is put behind a path. -/
def Adds (store : MaskStore) (submasks : List (Str × Addr)) (name name' : MistParamNameAbs) :
    Prop :=
  ∃ subname q rest, (subname, q) ∈ submasks ∧ name' = name ++ subname :: rest ∧ Has store q rest

theorem not_adds_nil : ¬ Adds store [] name name' := by
  rintro ⟨subname, q, rest, hmem, -⟩
  exact absurd hmem List.not_mem_nil

theorem adds_cons :
    Adds store ((subname, q) :: submasks) name name' ↔
      (∃ rest, name' = name ++ subname :: rest ∧ Has store q rest) ∨
        Adds store submasks name name' := by
  constructor
  · rintro ⟨subname', q', rest, hmem, hname, hhas⟩
    rcases List.mem_cons.mp hmem with heq | hmem
    · cases heq
      exact Or.inl ⟨rest, hname, hhas⟩
    · exact Or.inr ⟨subname', q', rest, hmem, hname, hhas⟩
  · rintro (⟨rest, hname, hhas⟩ | ⟨subname', q', rest, hmem, hname, hhas⟩)
    · exact ⟨subname, q, rest, List.mem_cons_self, hname, hhas⟩
    · exact ⟨subname', q', rest, List.mem_cons_of_mem _ hmem, hname, hhas⟩

theorem has_iff_adds
    (hget : submasksAt store q = some submasks) (hnodup : (submasks.map Prod.fst).Nodup) :
    Has store q name ↔ name = [] ∨ Adds store submasks [] name := by
  cases name with
  | nil => exact ⟨fun _ => Or.inl rfl, fun _ => MaskStore.has_nil store q⟩
  | cons subname rest =>
    rw [MaskStore.has_cons]
    constructor
    · rintro ⟨z, hchild, hhas⟩
      obtain ⟨submasks', hget', hmem⟩ := MaskStore.exists_of_child hchild
      rw [hget, Option.some.injEq] at hget'
      exact Or.inr ⟨subname, z, rest, hget' ▸ hmem, rfl, hhas⟩
    · rintro (hnil | ⟨subname', z, rest', hmem, hname, hhas⟩)
      · cases hnil
      · cases hname
        exact ⟨z, MaskStore.child_of_mem hget hnodup hmem, hhas⟩

theorem exists_rest_iff
    (hget : submasksAt store q = some submasks) (hnodup : (submasks.map Prod.fst).Nodup) :
    (∃ rest, name' = name ++ subname :: rest ∧ Has store q rest) ↔
      name' = name ++ [subname] ∨ Adds store submasks (name ++ [subname]) name' := by
  constructor
  · rintro ⟨rest, rfl, hhas⟩
    rcases (has_iff_adds hget hnodup).mp hhas with rfl | ⟨subname', z, rest', hmem, rfl, hz⟩
    · exact Or.inl rfl
    · refine Or.inr ⟨subname', z, rest', hmem, ?_, hz⟩
      rw [List.append_assoc, List.singleton_append, List.nil_append]
  · rintro (rfl | ⟨subname', z, rest, hmem, rfl, hhas⟩)
    · exact ⟨[], rfl, MaskStore.has_nil store q⟩
    · refine ⟨subname' :: rest, ?_, ?_⟩
      · rw [List.append_assoc, List.singleton_append]
      · exact (has_iff_adds hget hnodup).mpr (Or.inr ⟨subname', z, rest, hmem, rfl, hhas⟩)

end Adds

variable {b height : Nat} {p : Addr}

section Traversal

variable {ms0 : Masks} {r : Addr}

/-- From every position in a vector that is reached from `r` and has paths of less than
`height` names, the loop comes to its end with the same stacks; it adds the rest of the
vector behind the path of the modifier. -/
def RangeAppended (ms0 : Masks) (a : Nat) (r : Addr) (height : Nat) : Prop :=
  ∀ (ms : Masks) (maskStack : List MaskLocation) (indicies : List Nat)
    (name : MistParamNameAbs) (p : Addr) (bname : MistParamNameAbs) (node : Addr)
    (submasks : List (Str × Addr)) (iters : List MaskRange) (pos : Nat),
    pos ≤ submasks.length → Modified ms0 ms a indicies name maskStack →
    ms.vars[a]? = some (some p) → descend ms0.store r bname = some node →
    submasksAt ms0.store node = some submasks →
    (∀ subname q rest, (subname, q) ∈ submasks → Has ms0.store q rest → rest.length < height) →
    ∃ ms' maskStack',
      Loop.Leads appendRound
        ⟨ms, ⟨maskStack, indicies⟩, iters ++ [⟨node, pos, submasks.length⟩]⟩
        ⟨ms', ⟨maskStack', indicies⟩, iters ++ [⟨node, submasks.length, submasks.length⟩]⟩ ∧
      Modified ms0 ms' a indicies name maskStack' ∧
      ∃ p', ms'.vars[a]? = some (some p') ∧ ∀ name', Has ms'.store p' name' ↔
        Has ms.store p name' ∨ Adds ms0.store (submasks.drop pos) name name'

/-- The loop goes past one element of the vector and adds it behind the path of the
modifier. -/
def EntryAppended (ms0 ms : Masks) (a : Nat) (indicies : List Nat) (name : MistParamNameAbs)
    (maskStack : List MaskLocation) (p : Addr) (iters : List MaskRange) (range : MaskRange)
    (subname : Str) (q : Addr) : Prop :=
  ∃ ms' maskStack',
    Loop.Leads appendRound ⟨ms, ⟨maskStack, indicies⟩, iters ++ [range]⟩
      ⟨ms', ⟨maskStack', indicies⟩, iters ++ [range.next]⟩ ∧
    Modified ms0 ms' a indicies name maskStack' ∧
    ∃ p', ms'.vars[a]? = some (some p') ∧ ∀ name', Has ms'.store p' name' ↔
      Has ms.store p name' ∨ ∃ rest, name' = name ++ subname :: rest ∧ Has ms0.store q rest

section Entry

variable {bname : MistParamNameAbs}
variable {submasksx : List (Str × Addr)}
variable (hcounted0 : Counted ms0 []) (hba : b ≠ a) (hb : ms0.vars[b]? = some (some r))
variable (iters : List MaskRange) (hentry : submasks[pos]? = some (subname, q))
variable (hcounted : Counted ms []) (hothers : SameFor a ms0 ms)
variable (hstack : Stack ms (fun _ => True) a indicies name locs loc)
variable (hloc : loc.impl ms = some x) (hroot : ms.vars[a]? = some (some p))
variable (hnode : descend ms0.store r bname = some node)
variable (hget : submasksAt ms0.store node = some submasks)

include hcounted0 hba hb hentry hcounted hothers hstack hloc hroot hnode hget

/-- One element of the vector, with a name that the mask of the modifier does not have. -/
theorem entry_added
    (hx : submasksAt ms.store x = some submasksx) (hfind : findSubmask submasksx subname = none) :
    EntryAppended ms0 ms a indicies name (locs ++ [loc]) p iters ⟨node, pos, submasks.length⟩
      subname q := by
  have hpos := (List.getElem?_eq_some_iff.mp hentry).1
  have hmem := List.mem_of_getElem? hentry
  -- the other mask is as in the beginning
  have hb' := (hothers.vars_eq b hba).trans hb
  have hnode' := (hothers.descend_eq hba hb bname).trans hnode
  have hget' := (hothers.submasksAt_eq b r bname node hba hb hnode).trans hget
  have hchild := MaskStore.child_of_mem hget (hcounted0.names_nodup node _ hget) hmem
  have hchild' := MaskStore.child_of_mem hget' (hcounted.names_nodup node _ hget') hmem
  have hq : descend ms0.store r (bname ++ [subname]) = some q := by
    rw [MaskStore.descend_snoc, hnode, Option.bind_some, hchild]
  have hnew := MaskStore.child_eq_none hx (findSubmask_eq_none hfind)
  have hsub : (MaskLocation.slot node pos).impl ms = some q :=
    impl_slot_eq_some.mpr ⟨submasks, subname, hget', hentry⟩
  obtain ⟨ms', maskStack', hadd, hmodified', p', hroot', hhas'⟩ :=
    addSubmask_spec hcounted hstack hloc hroot hnew hba hb' hnode' hsub hchild'
  refine ⟨ms', maskStack', ?_, ⟨hmodified'.counted, hothers.trans hmodified'.others,
    hmodified'.top⟩, p', hroot', ?_⟩
  · exact Loop.leads_of_next (appendRound_add hpos hget' hentry hloc hx hfind hadd)
  · intro name'
    have hpaths : ∀ rest, Has ms.store q rest ↔ Has ms0.store q rest :=
      hothers.has_iff hba hb hq
    rw [hhas' name']
    simp only [hpaths]

/-- One element of the vector, with a name that the mask of the modifier has, too: the
elements below it are added to the ones with the same name. -/
theorem entry_merged (hdeep : ∀ lower, lower < height → RangeAppended ms0 a r lower)
    (hbound : ∀ rest, Has ms0.store q rest → rest.length < height)
    (hx : submasksAt ms.store x = some submasksx) {index : Nat}
    (hfind : findSubmask submasksx subname = some index) :
    EntryAppended ms0 ms a indicies name (locs ++ [loc]) p iters ⟨node, pos, submasks.length⟩
      subname q := by
  have hpos := (List.getElem?_eq_some_iff.mp hentry).1
  have hget' := (hothers.submasksAt_eq b r bname node hba hb hnode).trans hget
  have hchild := MaskStore.child_of_mem hget (hcounted0.names_nodup node _ hget)
    (List.mem_of_getElem? hentry)
  have hq : descend ms0.store r (bname ++ [subname]) = some q := by
    rw [MaskStore.descend_snoc, hnode, Option.bind_some, hchild]
  obtain ⟨implq, hgetq, -⟩ := hcounted0.exists_of_pos
    (Nat.add_pos_left (handles_pos_of_descend hb hq) _)
  have hsubmasksq := MaskStore.submasksAt_of_get? hgetq
  have hsubmasksq' := (hothers.submasksAt_eq b r _ q hba hb hq).trans hsubmasksq
  obtain ⟨z, hz⟩ := findSubmask_eq_some hfind
  -- down to the children
  have hdown : appendRound ⟨ms, ⟨locs ++ [loc], indicies⟩,
      iters ++ [⟨node, pos, submasks.length⟩]⟩ =
      some (.next ⟨ms, ⟨locs ++ [loc] ++ [.slot x index], indicies ++ [index]⟩,
        iters ++ [⟨node, pos, submasks.length⟩] ++ [⟨q, 0, implq.submasks.length⟩]⟩) :=
    appendRound_child hpos hget' hentry hloc hx hfind hsubmasksq'
  have hmodified1 : Modified ms0 ms a (indicies ++ [index]) (name ++ [subname])
      (locs ++ [loc] ++ [.slot x index]) :=
    ⟨hcounted, hothers, locs ++ [loc], .slot x index, z, .slot hstack hloc trivial hx hz,
      impl_slot_eq_some.mpr ⟨submasksx, subname, hx, hz⟩, rfl⟩
  have hheight := hbound [] (MaskStore.has_nil _ q)
  obtain ⟨ms2, maskStack2, hleads, hmodified2, p2, hroot2, hhas2⟩ :=
    hdeep (height - 1) (by rw [List.length_nil] at hheight; omega) ms _ _ _ p
      (bname ++ [subname]) q implq.submasks (iters ++ [⟨node, pos, submasks.length⟩]) 0
      (Nat.zero_le _) hmodified1 hroot hq hsubmasksq (hcounted0.lt_of_child hsubmasksq hbound)
  -- and back
  obtain ⟨hcounted2, hothers2, locs2, loc2, x2, hstack2, hloc2, rfl⟩ := hmodified2
  obtain ⟨locs3, loc3, x3, rfl, hstack3, hloc3⟩ := hstack2.withoutTop
  refine ⟨ms2, locs3 ++ [loc3], ?_, ⟨hcounted2, hothers2, locs3, loc3, x3, hstack3, hloc3, rfl⟩,
    p2, hroot2, ?_⟩
  · refine (Loop.leads_of_next hdown).trans (hleads.trans ?_)
    exact Loop.leads_of_next (appendRound_parent rfl)
  · intro name'
    rw [hhas2 name', List.drop_zero,
      exists_rest_iff hsubmasksq (hcounted0.names_nodup q _ hsubmasksq)]
    -- the name itself is there already
    have hold : name' = name ++ [subname] → Has ms.store p name' := by
      rintro rfl
      rw [Has, MaskStore.descend_snoc, hstack.descend hcounted hloc hroot, Option.bind_some,
        MaskStore.child_of_mem hx (hcounted.names_nodup x _ hx) (List.mem_of_getElem? hz)]
      rfl
    tauto

end Entry

theorem entry_appended
    (hcounted0 : Counted ms0 []) (hba : b ≠ a) (hb : ms0.vars[b]? = some (some r))
    {height : Nat} (hdeep : ∀ lower, lower < height → RangeAppended ms0 a r lower)
    {maskStack : List MaskLocation} {indicies : List Nat} {name bname : MistParamNameAbs}
    {p q : Addr} (iters : List MaskRange) {pos : Nat} {subname : Str}
    (hentry : submasks[pos]? = some (subname, q))
    (hmodified : Modified ms0 ms a indicies name maskStack)
    (hroot : ms.vars[a]? = some (some p)) (hnode : descend ms0.store r bname = some node)
    (hget : submasksAt ms0.store node = some submasks)
    (hbound : ∀ subname q rest, (subname, q) ∈ submasks → Has ms0.store q rest →
      rest.length < height) :
    EntryAppended ms0 ms a indicies name maskStack p iters ⟨node, pos, submasks.length⟩
      subname q := by
  obtain ⟨hcounted, hothers, locs, loc, x, hstack, hloc, rfl⟩ := hmodified
  have hmem := List.mem_of_getElem? hentry
  obtain ⟨implx, hgetx⟩ := hcounted.exists_of_impl hloc
  have hx := MaskStore.submasksAt_of_get? hgetx
  cases hfind : findSubmask implx.submasks subname with
  | none =>
    exact entry_added hcounted0 hba hb iters hentry hcounted hothers hstack hloc hroot hnode
      hget hx hfind
  | some index =>
    exact entry_merged hcounted0 hba hb iters hentry hcounted hothers hstack hloc hroot hnode
      hget hdeep (fun rest => hbound subname q rest hmem) hx hfind

/-- **The loop of `append`** for a vector of another mask. -/
theorem rangeAppended (hcounted0 : Counted ms0 []) (hba : b ≠ a) (hb : ms0.vars[b]? = some (some r))
    (height : Nat) :
    RangeAppended ms0 a r height := by
  induction height using Nat.strong_induction_on with
  | _ height ihheight =>
    intro ms maskStack indicies name p bname node submasks iters pos hle
    obtain ⟨left, hleft⟩ := Nat.exists_eq_add_of_le hle
    induction left generalizing ms maskStack p pos with
    | zero =>
      intro hmodified hroot hnode hget hbound
      obtain rfl : pos = submasks.length := by omega
      refine ⟨ms, maskStack, Loop.Leads.refl _ _, hmodified, p, hroot, ?_⟩
      intro name'
      rw [List.drop_length]
      exact (or_iff_left not_adds_nil).symm
    | succ left ihleft =>
      intro hmodified hroot hnode hget hbound
      have hlt : pos < submasks.length := by omega
      have hentry := List.getElem?_eq_getElem hlt
      obtain ⟨ms1, maskStack1, hleads1, hmodified1, p1, hroot1, hhas1⟩ :=
        entry_appended hcounted0 hba hb ihheight iters hentry hmodified hroot hnode
          hget hbound
      obtain ⟨ms2, maskStack2, hleads2, hmodified2, p2, hroot2, hhas2⟩ :=
        ihleft ms1 maskStack1 p1 (pos + 1) hlt (by omega) hmodified1 hroot1 hnode hget hbound
      refine ⟨ms2, maskStack2, hleads1.trans hleads2, hmodified2, p2, hroot2, ?_⟩
      intro name'
      rw [hhas2 name', hhas1 name', List.drop_eq_getElem_cons hlt, adds_cons, or_assoc]
      exact Iff.rfl

end Traversal

section SelfAppend

/-- When the modifier is where the iterators are, every name is found: nothing changes. -/
theorem selfRange (hcounted : Counted ms []) (height : Nat) :
    ∀ (locs : List MaskLocation) (loc : MaskLocation) (indicies : List Nat) (x : Addr)
      (submasks : List (Str × Addr)) (iters : List MaskRange) (pos : Nat),
      pos ≤ submasks.length → loc.impl ms = some x → submasksAt ms.store x = some submasks →
      (∀ subname q rest, (subname, q) ∈ submasks → Has ms.store q rest → rest.length < height) →
      Loop.Leads appendRound
        ⟨ms, ⟨locs ++ [loc], indicies⟩, iters ++ [⟨x, pos, submasks.length⟩]⟩
        ⟨ms, ⟨locs ++ [loc], indicies⟩, iters ++ [⟨x, submasks.length, submasks.length⟩]⟩ := by
  induction height using Nat.strong_induction_on with
  | _ height ihheight =>
    intro locs loc indicies x submasks iters pos hle hloc hx hbound
    obtain ⟨left, hleft⟩ := Nat.exists_eq_add_of_le hle
    induction left generalizing pos with
    | zero =>
      obtain rfl : pos = submasks.length := by omega
      exact Loop.Leads.refl _ _
    | succ left ihleft =>
      have hlt : pos < submasks.length := by omega
      obtain ⟨⟨subname, q⟩, hentry⟩ : ∃ entry, submasks[pos]? = some entry :=
        ⟨_, List.getElem?_eq_getElem hlt⟩
      have hmem := List.mem_of_getElem? hentry
      have hnodup := hcounted.names_nodup x _ hx
      obtain ⟨implq, hgetq, -⟩ := hcounted.exists_of_pos
        (Nat.add_pos_left (handles_pos_of_child hx hmem) _)
      have hq := MaskStore.submasksAt_of_get? hgetq
      have hheight := hbound subname q [] hmem (MaskStore.has_nil _ q)
      have hdown : appendRound ⟨ms, ⟨locs ++ [loc], indicies⟩,
          iters ++ [⟨x, pos, submasks.length⟩]⟩ =
          some (.next ⟨ms, ⟨locs ++ [loc] ++ [.slot x pos], indicies ++ [pos]⟩,
            iters ++ [⟨x, pos, submasks.length⟩] ++ [⟨q, 0, implq.submasks.length⟩]⟩) :=
        appendRound_child hlt hx hentry hloc hx (findSubmask_of_getElem? hnodup hentry) hq
      have hbelow := ihheight (height - 1) (by rw [List.length_nil] at hheight; omega)
        (locs ++ [loc]) (.slot x pos) (indicies ++ [pos]) q implq.submasks
        (iters ++ [⟨x, pos, submasks.length⟩]) 0 (Nat.zero_le _)
        (impl_slot_eq_some.mpr ⟨submasks, subname, hx, hentry⟩) hq
        (hcounted.lt_of_child hq fun rest => hbound subname q rest hmem)
      have hparent : Loop.Leads appendRound
          ⟨ms, ⟨locs ++ [loc] ++ [.slot x pos], indicies ++ [pos]⟩,
            iters ++ [⟨x, pos, submasks.length⟩] ++
              [⟨q, implq.submasks.length, implq.submasks.length⟩]⟩
          ⟨ms, ⟨locs ++ [loc], indicies⟩, iters ++ [⟨x, pos + 1, submasks.length⟩]⟩ :=
        Loop.leads_of_next (appendRound_parent rfl)
      exact (Loop.leads_of_next hdown).trans
        (hbelow.trans (hparent.trans (ihleft (pos + 1) hlt (by omega))))

end SelfAppend

section Results

theorem appendRun_of_leads
    {ms' : Masks} {submasks : List (Str × Addr)} (hb : ms.vars[b]? = some (some q))
    (hget : submasksAt ms.store q = some submasks)
    (hleads : Loop.Leads appendRound ⟨ms, Modifier.ofVar a, [⟨q, 0, submasks.length⟩]⟩
      ⟨ms', Modifier.ofVar a, [⟨q, submasks.length, submasks.length⟩]⟩) :
    ∃ limit0, ∀ limit, limit0 ≤ limit →
      appendRun limit ms a b = some ⟨ms', Modifier.ofVar a, []⟩ := by
  obtain ⟨limit0, hrun⟩ := hleads.run_eq_some (appendRound_done rfl)
  refine ⟨limit0, ?_⟩
  intro limit hlimit
  obtain ⟨refs, hgetq⟩ := MaskStore.exists_of_submasksAt hget
  rw [appendRun, impl_var_eq_some.mpr hb, Option.bind_some, MaskRange.ofImpl, hgetq,
    Option.map_some, Option.bind_some]
  exact hrun limit hlimit

/-- **`append`.**  The loop ends with balanced stacks.  The paths of the appended mask are
added to `a`, and nothing else changes. -/
theorem appendRun_spec (hcounted : Counted ms []) (ha : ms.vars[a]? = some (some p))
    (hb : ms.vars[b]? = some (some q)) (hbound : ∀ name, Has ms.store q name → name.length < height) :
    ∃ ms', (∃ limit0, ∀ limit, limit0 ≤ limit →
        appendRun limit ms a b = some ⟨ms', Modifier.ofVar a, []⟩) ∧
      Counted ms' [] ∧ SameFor a ms ms' ∧
      ∃ p', ms'.vars[a]? = some (some p') ∧ ∀ name, Has ms'.store p' name ↔
        Has ms.store p name ∨ Has ms.store q name := by
  obtain ⟨implq, hgetq, -⟩ := hcounted.exists_of_pos (Nat.add_pos_left (handles_pos_of_var hb) _)
  have hget := MaskStore.submasksAt_of_get? hgetq
  have hnodup := hcounted.names_nodup q _ hget
  have hbelow := hcounted.lt_of_child hget hbound
  by_cases hba : b = a
  · -- the mask is appended to itself
    subst hba
    rw [ha, Option.some.injEq, Option.some.injEq] at hb
    subst hb
    have hleads := selfRange hcounted (height - 1) [] (.var b) [] p implq.submasks [] 0 (Nat.zero_le _)
      (impl_var_eq_some.mpr ha) hget hbelow
    exact ⟨ms, appendRun_of_leads ha hget hleads, hcounted, SameFor.refl b ms, p, ha,
      fun name => (or_self_iff).symm⟩
  · have hmodified : Modified ms ms a [] [] [.var a] :=
      ⟨hcounted, SameFor.refl a ms, [], .var a, p, .var, impl_var_eq_some.mpr ha, rfl⟩
    obtain ⟨ms', maskStack, hleads, ⟨hcounted', hothers, locs, loc, x, hstack, -, rfl⟩, p', hroot,
        hhas⟩ :=
      rangeAppended hcounted hba hb (height - 1) ms [.var a] [] [] p [] q implq.submasks [] 0
        (Nat.zero_le _) hmodified ha rfl hget hbelow
    have htop : locs ++ [loc] = [.var a] := by
      generalize hindicies : ([] : List Nat) = indicies at hstack
      generalize ([] : MistParamNameAbs) = name at hstack
      cases hstack with
      | var => rfl
      | slot _ _ _ _ _ => exact absurd hindicies (by simp)
    rw [htop] at hleads
    refine ⟨ms', appendRun_of_leads hb hget hleads, hcounted', hothers, p', hroot, ?_⟩
    intro name
    rw [hhas name, List.drop_zero, has_iff_adds hget hnodup]
    have hnil : name = [] → Has ms.store p name := by
      rintro rfl
      exact MaskStore.has_nil _ p
    tauto

/-- The modifier is moved along a path that the mask contains. -/
theorem moveTo_spec (hcounted : Counted ms []) (hstack : Stack ms ok a indicies name locs loc)
    (hok : ∀ x, ok x) (hloc : loc.impl ms = some x) (hhas : Has ms.store x name') :
    ∃ indicies' locs' loc' x',
      Modifier.moveTo ms ⟨locs ++ [loc], indicies⟩ name' = some ⟨locs' ++ [loc'], indicies'⟩ ∧
      Stack ms ok a indicies' (name ++ name') locs' loc' ∧ loc'.impl ms = some x' := by
  induction name' generalizing indicies name locs loc x with
  | nil => exact ⟨indicies, locs, loc, x, rfl, by rw [List.append_nil]; exact hstack, hloc⟩
  | cons subname name' ih =>
    obtain ⟨q, hchild, hhas⟩ := MaskStore.has_cons.mp hhas
    obtain ⟨submasks, hx, hmem⟩ := MaskStore.exists_of_child hchild
    have hnodup := hcounted.names_nodup x _ hx
    obtain ⟨index, hentry⟩ := List.mem_iff_getElem?.mp hmem
    have hfind := findSubmask_of_getElem? hnodup hentry
    obtain ⟨indicies', locs', loc', x', hmove, hstack', hloc'⟩ :=
      ih (.slot hstack hloc (hok x) hx hentry)
        (impl_slot_eq_some.mpr ⟨submasks, subname, hx, hentry⟩) hhas
    refine ⟨indicies', locs', loc', x', ?_, ?_, hloc'⟩
    · rw [Modifier.moveTo, Modifier.current, List.getLast?_concat, Option.bind_some,
        submasks_of_impl hloc hx, Option.bind_some, hfind, Option.bind_some,
        moveChild_eq_some hloc hx (List.getElem?_eq_some_iff.mp hentry).1, Option.bind_some,
        hmove]
    · rw [List.append_assoc, List.singleton_append] at hstack'
      exact hstack'

/-- **`cut`.**  The paths strictly below the parameter are removed, and nothing else
changes. -/
theorem cut_spec
    (hcounted : Counted ms []) (ha : ms.vars[a]? = some (some p)) (hhas : Has ms.store p name) :
    ∃ ms', ms.cut a name = some ms' ∧ Counted ms' [] ∧ SameFor a ms ms' ∧
      ∃ p', ms'.vars[a]? = some (some p') ∧ ∀ name', Has ms'.store p' name' ↔
        Has ms.store p name' ∧ ¬ ∃ subname rest, name' = name ++ subname :: rest := by
  obtain ⟨indicies, locs, loc, x, hmove, hstack, hloc⟩ :=
    moveTo_spec hcounted (.var : Stack ms (fun _ => True) a [] [] [] (.var a))
      (fun _ => trivial) (impl_var_eq_some.mpr ha) hhas
  obtain ⟨ms', modifier, hremove, hcounted', hothers, hpaths⟩ :=
    removeSubmasks_spec hcounted hstack hloc ha
  refine ⟨ms', ?_, hcounted', hothers, hpaths⟩
  have hmove' : (Modifier.ofVar a).moveTo ms name = some ⟨locs ++ [loc], indicies⟩ := hmove
  rw [cut, hmove', Option.bind_some, hremove, Option.map_some]

end Results

end Masks
end Mist
end KedrAux
