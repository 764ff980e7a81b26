import KedrAux.Replacer.RegisteredPayloads

/-!
# Blocking of payloads

When the first target is loaded, every payload whose module can be held becomes used.  When
the last one is unloaded, the same payloads are released.  So the invariant of the lists
holds between any calls, and no `BUG_ON` fails.
-/

namespace KedrAux
namespace Replacer

variable {n : Nat}

namespace Registry

def setUsed (isUsed : Bool) (l : List Pointer) (elems : Pointer → Option (OperationPayloadList n))
    (a : Pointer) : Option (OperationPayloadList n) :=
  if a ∈ l then (elems a).map fun elem => { elem with isUsed := isUsed } else elems a

/-- References to modules, with one more for each element of a list. -/
def countModules (s : Registry n) (l : List Pointer) (references : Pointer → Nat) (m : Pointer) :
    Nat :=
  if m ≠ 0 then references m + l.countP (s.belongs m) else references m

/-- The module of the payload can be held. -/
def fixable (s : Registry n) (gets : Pointer → Bool) (a : Pointer) : Bool :=
  (s.elems a).any fun elem => elem.m == 0 || gets a

variable {s s' : Registry n} {isUsed : Bool} {l : List Pointer}

section Loops

variable {a : Pointer} {elem : OperationPayloadList n}

theorem setUsed_update (ha : s.elems a = some elem) (hl : a ∉ l) :
    setUsed isUsed l (Function.update s.elems a (some { elem with isUsed := isUsed })) =
      setUsed isUsed (a :: l) s.elems := by
  funext b
  by_cases heq : b = a
  · subst heq
    simp [setUsed, hl, ha]
  · simp [setUsed, heq]

theorem belongs_of_setUsed (helems : s'.elems = setUsed isUsed l s.elems) (m b : Pointer) :
    s'.belongs m b = s.belongs m b := by
  rw [belongs, belongs, helems, setUsed]
  split_ifs with hb
  · cases s.elems b <;> rfl
  · rfl

theorem masks_of_setUsed (helems : s'.elems = setUsed isUsed l s.elems) (op : Fin n) (b : Pointer) :
    s'.masks op b = s.masks op b := by
  rw [masks, masks, helems, setUsed]
  split_ifs with hb
  · cases s.elems b <;> rfl
  · rfl

theorem update_eq_setUsed (ha : s.elems a = some elem) :
    Function.update s.elems a (some { elem with isUsed := isUsed }) =
      setUsed isUsed [a] s.elems := by
  rw [← setUsed_update ha List.not_mem_nil]
  funext b
  simp [setUsed]

theorem countModules_cons (ha : s.elems a = some elem)
    (hbelongs : ∀ m b, s'.belongs m b = s.belongs m b) (l : List Pointer)
    (references : Pointer → Nat) :
    s'.countModules l (if elem.m ≠ 0 then
        Function.update references elem.m (references elem.m + 1) else references) =
      s.countModules (a :: l) references := by
  funext m
  have hfun : s'.belongs m = s.belongs m := funext (hbelongs m)
  rw [countModules, countModules, hfun]
  split_ifs with hm hm'
  · by_cases heq : m = elem.m
    · subst heq
      rw [Function.update_self, List.countP_cons_of_pos (by simp [belongs_eq ha])]
      omega
    · rw [Function.update_of_ne heq,
        List.countP_cons_of_neg (by simp [belongs_eq ha, Ne.symm heq])]
  · have hne : elem.m ≠ m := fun heq => hm' (heq ▸ hm)
    rw [List.countP_cons_of_neg (by simp [belongs_eq ha, hne])]
  · have hne : m ≠ elem.m := by
      rintro rfl
      exact hm ‹_›
    rw [Function.update_of_ne hne]
  · rfl

theorem fixPayloads_eq (gets : Pointer → Bool) (hnodup : l.Nodup)
    (hl : ∀ a ∈ l, ∃ elem, s.elems a = some elem ∧ elem.isUsed = false) (used : List Pointer) :
    fixPayloads gets l used s = some (used ++ l.filter (s.fixable gets),
      { s with
        elems := setUsed true (l.filter (s.fixable gets)) s.elems
        taken := s.countModules (l.filter (s.fixable gets)) s.taken }) := by
  induction l generalizing s used with
  | nil =>
    have helems : setUsed true [] s.elems = s.elems := by
      funext b
      simp [setUsed]
    have htaken : s.countModules [] s.taken = s.taken := by
      funext m
      simp [countModules]
    rw [fixPayloads, List.filter_nil, helems, htaken, List.append_nil]
  | cons a l ih =>
    rw [List.nodup_cons] at hnodup
    obtain ⟨elem, ha, hunused⟩ := hl a List.mem_cons_self
    rw [fixPayloads, fixPayload, ha]
    simp only [hunused, Option.bind_eq_bind, Option.bind_some, Bool.false_eq_true, if_false]
    by_cases hbusy : elem.m ≠ 0 ∧ gets a = false
    · have hfixable : s.fixable gets a = false := by
        simp [fixable, ha, hbusy.1, hbusy.2]
      rw [if_pos hbusy, List.filter_cons_of_neg (by simp [hfixable])]
      simp only [pure, Option.bind_some]
      rw [if_pos (by decide), ih hnodup.2 fun b hb => hl b (List.mem_cons_of_mem _ hb)]
    · have hfixable : s.fixable gets a = true := by
        have hor : elem.m = 0 ∨ gets a = true := by
          by_contra hnot
          rw [not_or, Bool.not_eq_true] at hnot
          exact hbusy hnot
        simpa [fixable, ha] using hor
      rw [if_neg hbusy, List.filter_cons_of_pos hfixable]
      simp only [pure, Option.bind_some]
      rw [if_neg (by decide), ih hnodup.2]
      · -- the element is the first of those that are marked
        have hmem : a ∉ l.filter (s.fixable gets) :=
          fun hmem => hnodup.1 (List.mem_of_mem_filter hmem)
        have hfixable' : ∀ b ∈ l,
            fixable { s with
              elems := Function.update s.elems a (some { elem with isUsed := true })
              taken := if elem.m ≠ 0 then
                Function.update s.taken elem.m (s.taken elem.m + 1) else s.taken } gets b =
              s.fixable gets b := by
          intro b hb
          have hne : b ≠ a := fun heq => hnodup.1 (heq ▸ hb)
          simp only [fixable, Function.update_of_ne hne]
        rw [List.filter_congr hfixable', setUsed_update ha hmem,
          countModules_cons ha fun m b => belongs_of_setUsed (update_eq_setUsed ha) m b]
        simp
      · intro b hb
        have hne : b ≠ a := fun heq => hnodup.1 (heq ▸ hb)
        simp only [Function.update_of_ne hne]
        exact hl b (List.mem_cons_of_mem _ hb)

theorem releasePayloads_eq (hnodup : l.Nodup)
    (hl : ∀ a ∈ l, ∃ elem, s.elems a = some elem ∧ elem.isUsed = true) :
    l.foldlM releasePayload s = some { s with
      elems := setUsed false l s.elems
      put := s.countModules l s.put } := by
  induction l generalizing s with
  | nil =>
    have helems : setUsed false [] s.elems = s.elems := by
      funext b
      simp [setUsed]
    have hput : s.countModules [] s.put = s.put := by
      funext m
      simp [countModules]
    rw [helems, hput]
    rfl
  | cons a l ih =>
    rw [List.nodup_cons] at hnodup
    obtain ⟨elem, ha, hused⟩ := hl a List.mem_cons_self
    rw [List.foldlM_cons, releasePayload, ha]
    simp only [hused, Option.bind_eq_bind, Option.bind_some, Bool.not_true, Bool.false_eq_true,
      if_false, pure]
    rw [ih hnodup.2]
    · rw [setUsed_update ha hnodup.1,
        countModules_cons ha fun m b => belongs_of_setUsed (update_eq_setUsed ha) m b]
    · intro b hb
      have hne : b ≠ a := fun heq => hnodup.1 (heq ▸ hb)
      simp only [Function.update_of_ne hne]
      exact hl b (List.mem_cons_of_mem _ hb)

end Loops

section Marks

variable {blocked : Bool}

theorem isSome_of_setUsed (helems : s'.elems = setUsed isUsed l s.elems) (b : Pointer) :
    (s'.elems b).isSome = (s.elems b).isSome := by
  rw [helems, setUsed]
  split_ifs with hb
  · exact Option.isSome_map
  · rfl

/-- The lists are the same, and elements of them are marked. -/
structure SameLists (s s' : Registry n) : Prop where
  payloads : s'.payloads = s.payloads
  payloadsSpecial : s'.payloadsSpecial = s.payloadsSpecial
  totalMask : s'.totalMask = s.totalMask

theorem SameLists.registered (hsame : SameLists s s') : s'.registered = s.registered := by
  rw [Registry.registered, Registry.registered, hsame.payloads, hsame.payloadsSpecial]

theorem Consistent.totalMask_of_setUsed (h : s.Consistent blocked) (hsame : SameLists s s')
    (helems : s'.elems = setUsed isUsed l s.elems) (op : Fin n) :
    s'.totalMask op ≠ 0 ↔ ∃ a ∈ s'.payloads, s'.masks op a = true := by
  rw [hsame.totalMask, hsame.payloads, h.totalMask]
  simp only [masks_of_setUsed helems]

theorem Consistent.disjoint_of_setUsed (h : s.Consistent blocked) (hsame : SameLists s s')
    (helems : s'.elems = setUsed isUsed l s.elems) :
    s'.payloads.Pairwise fun a b => ∀ op, s'.masks op a = false ∨ s'.masks op b = false := by
  simp only [masks_of_setUsed helems, hsame.payloads]
  exact h.disjoint

theorem Consistent.of_blocked (h : s.Consistent false) (hsame : SameLists s s')
    (hsub : s'.payloadsUsed.Sublist s.payloads)
    (hsubSpecial : s'.payloadsSpecialUsed.Sublist s.payloadsSpecial)
    (helems : s'.elems = setUsed true s'.used s.elems)
    (htaken : s'.taken = s.countModules s'.used s.taken) (hput : s'.put = s.put) :
    s'.Consistent true := by
  refine ⟨?_, ?_, h.totalMask_of_setUsed hsame helems, h.disjoint_of_setUsed hsame helems,
    ?_, ?_, ?_, ?_⟩
  · rw [hsame.registered]
    exact h.nodup
  · intro a
    rw [isSome_of_setUsed helems, hsame.registered]
    exact h.elems_isSome a
  · intro a elem' helem'
    rw [helems, setUsed] at helem'
    split_ifs at helem' with ha
    · obtain ⟨elem, -, rfl⟩ := Option.map_eq_some_iff.mp helem'
      exact ⟨fun _ => ⟨rfl, ha⟩, fun _ => rfl⟩
    · have hunused : ¬ elem'.isUsed = true := fun hused =>
        absurd ((h.isUsed a elem' helem').mp hused).1 (by decide)
      exact ⟨fun hused => absurd hused hunused, fun hmem => absurd hmem.2 ha⟩
  · exact fun _ => hsame.payloads ▸ hsub
  · exact fun _ => hsame.payloadsSpecial ▸ hsubSpecial
  · intro m hm
    have hfun : s'.belongs m = s.belongs m := funext (belongs_of_setUsed helems m)
    rw [htaken, hput, countModules, if_pos hm, hfun, h.references m hm]
    simp

theorem Consistent.of_released (h : s.Consistent true) (hsame : SameLists s s')
    (helems : s'.elems = setUsed false s.used s.elems)
    (htaken : s'.taken = s.taken) (hput : s'.put = s.countModules s.used s.put) :
    s'.Consistent false := by
  refine ⟨?_, ?_, h.totalMask_of_setUsed hsame helems, h.disjoint_of_setUsed hsame helems,
    ?_, ?_, ?_, ?_⟩
  · rw [hsame.registered]
    exact h.nodup
  · intro a
    rw [isSome_of_setUsed helems, hsame.registered]
    exact h.elems_isSome a
  · intro a elem' helem'
    have hunused : elem'.isUsed = false := by
      rw [helems, setUsed] at helem'
      split_ifs at helem' with ha
      · obtain ⟨elem, -, rfl⟩ := Option.map_eq_some_iff.mp helem'
        rfl
      · exact Bool.eq_false_iff.mpr fun hused => ha ((h.isUsed a elem' helem').mp hused).2
    simp [hunused]
  · intro hfalse
    cases hfalse
  · intro hfalse
    cases hfalse
  · intro m hm
    rw [htaken, hput, countModules, if_pos hm, h.references m hm]
    simp

theorem Consistent.with_uses (h : s.Consistent blocked) (nUses : Int) (insideCallback : Bool)
    (data : Option (OperationReplacerData n)) (dataMap : DataMap (OperationData n)) :
    Consistent blocked { s with
      nUses := nUses
      insideCallback := insideCallback
      data := data
      dataMap := dataMap } :=
  ⟨h.nodup, h.elems_isSome, h.totalMask, h.disjoint, h.isUsed, h.sublist, h.sublistSpecial,
    h.references⟩

theorem setUsed_setUsed (l l' : List Pointer) :
    setUsed isUsed l' (setUsed isUsed l s.elems) = setUsed isUsed (l ++ l') s.elems := by
  funext b
  by_cases hb : b ∈ l
  · by_cases hb' : b ∈ l'
    · simp [setUsed, hb, hb', Function.comp_def]
    · simp [setUsed, hb, hb']
  · simp [setUsed, hb]

theorem countModules_countModules
    (hbelongs : ∀ m b, s'.belongs m b = s.belongs m b) (l l' : List Pointer)
    (references : Pointer → Nat) :
    s'.countModules l' (s.countModules l references) = s.countModules (l ++ l') references := by
  funext m
  have hfun : s'.belongs m = s.belongs m := funext (hbelongs m)
  rw [countModules, countModules, countModules, hfun]
  split_ifs with hm
  · rw [List.countP_append, Nat.add_assoc]
  · rfl

end Marks

section Targets

theorem mapM_eq_filterMap
    {α β : Type} {f : α → Option β} {l : List α} (h : ∀ a ∈ l, (f a).isSome = true) :
    l.mapM f = some (l.filterMap f) := by
  induction l with
  | nil => rfl
  | cons a l ih =>
    obtain ⟨b, hb⟩ := Option.isSome_iff_exists.mp (h a List.mem_cons_self)
    rw [List.mapM_cons, ih fun c hc => h c (List.mem_cons_of_mem _ hc), hb,
      List.filterMap_cons_some hb]
    rfl

theorem exists_dataCreate (h : s.Consistent true) (alloc : Bool) :
    ∃ replacer, (do operationReplacerDataCreate (← s.replacer) alloc) = some replacer := by
  have hsome : ∀ a ∈ s.used,
      ((s.elems a).map OperationPayloadList.payload).isSome = true := by
    intro a ha
    rw [Option.isSome_map]
    exact (h.elems_isSome a).mpr (h.mem_registered_of_mem_used ha)
  have hdisjoint : DisjointMasks (s.payloadsUsed.filterMap fun a =>
      (s.elems a).map OperationPayloadList.payload) := by
    rw [DisjointMasks, List.pairwise_filterMap]
    refine (h.disjoint.sublist (h.sublist rfl)).imp fun {a b} hab p hp q hq op => ?_
    obtain ⟨elem, helem, rfl⟩ := Option.map_eq_some_iff.mp hp
    obtain ⟨elem', helem', rfl⟩ := Option.map_eq_some_iff.mp hq
    have hor := hab op
    rw [masks_eq helem, masks_eq helem'] at hor
    simpa [Ops.masks] using hor
  rw [replacer, mapM_eq_filterMap fun a ha => hsome a (List.mem_append_left _ ha),
    mapM_eq_filterMap fun a ha => hsome a (List.mem_append_right _ ha)]
  simp only [Option.bind_eq_bind, Option.bind_some, pure]
  cases alloc with
  | false => exact ⟨_, rfl⟩
  | true =>
    obtain ⟨data, hcreate, -⟩ := @operationReplacerDataCreate_spec n
      ⟨s.nUses.toNat, s.type, _, s.payloadsSpecialUsed.filterMap _, s.data, s.dataMap⟩ hdisjoint
    exact ⟨_, hcreate⟩

/-- Blocking leaves a consistent registry, whether it succeeds or not. -/
theorem block_spec (h : s.Consistent false) (gets : Pointer → Bool) (alloc : Bool) :
    ∃ s', s.block gets alloc = some s' ∧ s'.Consistent true ∧ s'.nUses = s.nUses ∧
      s'.insideCallback = s.insideCallback := by
  have hnodup := List.nodup_append.mp h.nodup
  have hfree : ∀ a ∈ s.registered, ∃ elem, s.elems a = some elem ∧ elem.isUsed = false := by
    intro a ha
    obtain ⟨elem, helem⟩ := Option.isSome_iff_exists.mp ((h.elems_isSome a).mpr ha)
    refine ⟨elem, helem, Bool.eq_false_iff.mpr fun hused => ?_⟩
    exact absurd ((h.isUsed a elem helem).mp hused).1 (by decide)
  rw [block, fixPayloads_eq gets hnodup.1 fun a ha => hfree a (List.mem_append_left _ ha)]
  simp only [Option.bind_eq_bind, Option.bind_some, List.nil_append]
  rw [fixPayloads_eq gets hnodup.2.1]
  · simp only [Option.bind_some, List.nil_append, pure]
    obtain ⟨A, hA, hsub⟩ : ∃ A, s.payloads.filter (s.fixable gets) = A ∧ A.Sublist s.payloads :=
      ⟨_, rfl, List.filter_sublist⟩
    rw [hA]
    -- the modules are still the same when the special payloads are blocked
    obtain ⟨s1, hs1⟩ : ∃ s1, ({ s with
        elems := setUsed true A s.elems
        payloadsUsed := A
        taken := s.countModules A s.taken } : Registry n) = s1 := ⟨_, rfl⟩
    obtain ⟨B, hB, hsubSpecial⟩ : ∃ B, s.payloadsSpecial.filter (s1.fixable gets) = B ∧
        B.Sublist s.payloadsSpecial := ⟨_, rfl, List.filter_sublist⟩
    have hbelongs : ∀ m b, s1.belongs m b = s.belongs m b := by
      intro m b
      rw [← hs1]
      exact belongs_of_setUsed rfl m b
    obtain ⟨s2, hs2⟩ : ∃ s2, ({ s with
        elems := setUsed true (A ++ B) s.elems
        payloadsUsed := A
        payloadsSpecialUsed := B
        taken := s.countModules (A ++ B) s.taken } : Registry n) = s2 := ⟨_, rfl⟩
    have h2 : s2.Consistent true := by
      subst hs2
      exact h.of_blocked ⟨rfl, rfl, rfl⟩ hsub hsubSpecial rfl rfl rfl
    obtain ⟨replacer, hcreate⟩ := exists_dataCreate h2 alloc
    refine ⟨{ s2 with data := replacer.data }, ?_, ?_, ?_, ?_⟩
    · rw [hs1, hB, setUsed_setUsed, countModules_countModules hbelongs, hs2]
      rw [Option.bind_eq_bind] at hcreate
      rw [← Option.bind_assoc, hcreate, Option.bind_some, ← hs2]
    · exact h2.with_uses _ _ _ _
    · rw [← hs2]
    · rw [← hs2]
  · intro a ha
    have hne : a ∉ s.payloads.filter (s.fixable gets) :=
      fun hmem => hnodup.2.2 a (List.mem_of_mem_filter hmem) a ha rfl
    simp only [setUsed, if_neg hne]
    exact hfree a (List.mem_append_right _ ha)

theorem unblock_spec (h : s.Consistent true) :
    ∃ s', s.unblock = some s' ∧ s'.Consistent false ∧ s'.nUses = s.nUses ∧
      s'.insideCallback = s.insideCallback := by
  have hnodup : s.used.Nodup := h.nodup.sublist ((h.sublist rfl).append (h.sublistSpecial rfl))
  have hused : ∀ a ∈ s.used, ∃ elem, s.elems a = some elem ∧ elem.isUsed = true := by
    intro a ha
    obtain ⟨elem, helem⟩ := Option.isSome_iff_exists.mp
      ((h.elems_isSome a).mpr (h.mem_registered_of_mem_used ha))
    exact ⟨elem, helem, (h.isUsed a elem helem).mpr ⟨rfl, ha⟩⟩
  have hfirst := releasePayloads_eq (List.nodup_append.mp hnodup).1
    fun a ha => hused a (List.mem_append_left _ ha)
  have hrelease := releasePayloads_eq hnodup hused
  rw [used, List.foldlM_append, hfirst, Option.bind_eq_bind, Option.bind_some] at hrelease
  have h' : Consistent false ({ s with
      elems := setUsed false s.used s.elems
      put := s.countModules s.used s.put } : Registry n) :=
    h.of_released ⟨rfl, rfl, rfl⟩ rfl rfl rfl
  refine ⟨_, ?_, h', rfl, rfl⟩
  rw [unblock, hfirst, Option.bind_eq_bind, Option.bind_some]
  exact hrelease

/-- What holds between calls. -/
structure Invariant (s : Registry n) : Prop where
  consistent : s.Consistent (decide (0 < s.nUses))
  insideCallback : s.insideCallback = false

theorem Keeps.invariant {result : Option (Registry n)} (hinvariant : Invariant s)
    (hkeeps : Keeps (decide (0 < s.nUses)) s result) :
    ∃ s', result = some s' ∧ Invariant s' := by
  obtain ⟨s', hresult, h', hsame⟩ := hkeeps
  exact ⟨s', hresult, hsame.nUses ▸ h', hsame.insideCallback.trans hinvariant.insideCallback⟩

theorem exists_load
    (h : s.Consistent false) (hinside : s.insideCallback = true) (gets : Pointer → Bool)
    (alloc : Bool) (callback : Pointer → List (Call n)) :
    ∃ s', (do
        let s ← block s gets alloc
        let s ← s.payloadsUsed.foldlM
          (fun s a => (s.elems a).bind fun _ => execAll (callback a) s) s
        let s ← s.payloadsSpecialUsed.foldlM
          (fun s a => (s.elems a).bind fun _ => execAll (callback a) s) s
        return { s with insideCallback := false }) = some s' ∧
      s'.Consistent true ∧ s'.nUses = s.nUses ∧ s'.insideCallback = false := by
  obtain ⟨s1, hblock, h1, huses1, hinside1⟩ := block_spec h gets alloc
  obtain ⟨s2, hfold2, h2, hsame2⟩ := keeps_callbacks h1 (hinside1.trans hinside) callback
    fun a ha => List.mem_append_left s1.payloadsSpecialUsed ha
  obtain ⟨s3, hfold3, h3, hsame3⟩ := keeps_callbacks h2
    (hsame2.insideCallback.trans (hinside1.trans hinside)) callback
    fun a ha => List.mem_append_right s2.payloadsUsed ha
  refine ⟨{ s3 with insideCallback := false }, ?_, ?_, ?_, rfl⟩
  · rw [hblock, Option.bind_eq_bind, Option.bind_some, hfold2, Option.bind_some, hfold3]
    rfl
  · exact h3.with_uses _ _ _ _
  · exact hsame3.nUses.trans (hsame2.nUses.trans huses1)

theorem exists_unload (h : s.Consistent true) (hinside : s.insideCallback = true)
    (callback : Pointer → List (Call n)) :
    ∃ s', (do
        let s ← s.payloadsUsed.reverse.foldlM
          (fun s a => (s.elems a).bind fun _ => execAll (callback a) s) s
        let s ← s.payloadsSpecialUsed.reverse.foldlM
          (fun s a => (s.elems a).bind fun _ => execAll (callback a) s) s
        let s ← s.unblock
        return { s with insideCallback := false }) = some s' ∧
      s'.Consistent false ∧ s'.nUses = s.nUses ∧ s'.insideCallback = false := by
  obtain ⟨s1, hfold1, h1, hsame1⟩ := keeps_callbacks h hinside callback
    fun a ha => List.mem_append_left s.payloadsSpecialUsed (List.mem_reverse.mp ha)
  obtain ⟨s2, hfold2, h2, hsame2⟩ := keeps_callbacks h1 (hsame1.insideCallback.trans hinside)
    callback fun a ha => List.mem_append_right s1.payloadsUsed (List.mem_reverse.mp ha)
  obtain ⟨s3, hunblock, h3, huses3, -⟩ := unblock_spec h2
  refine ⟨{ s3 with insideCallback := false }, ?_, ?_, ?_, rfl⟩
  · rw [hfold1, Option.bind_eq_bind, Option.bind_some, hfold2, Option.bind_some, hunblock]
    rfl
  · exact h3.with_uses _ _ _ _
  · exact huses3.trans (hsame2.nUses.trans hsame1.nUses)

/-- Every call keeps the invariant. -/
theorem exec_invariant (h : Invariant s) (call : Call n) :
    ∃ s', s.exec call = some s' ∧ Invariant s' := by
  have hinside : ¬ s.insideCallback = true := by simp [h.insideCallback]
  cases call with
  | register payload m lock alloc =>
    rw [exec]
    exact (keeps_register h.consistent payload m lock alloc).invariant h
  | unregister payload lock =>
    rw [exec]
    exact (keeps_unregister h.consistent payload lock).invariant h
  | registerSpecial payload m lock alloc =>
    rw [exec]
    exact (keeps_registerSpecial h.consistent payload m lock alloc).invariant h
  | unregisterSpecial payload lock =>
    rw [exec]
    exact (keeps_unregisterSpecial h.consistent payload lock).invariant h
  | load gets alloc callback =>
    rw [exec, if_neg hinside]
    by_cases hfirst : s.nUses + 1 ≠ 1
    · rw [if_pos hfirst]
      have hblocked : decide (0 < s.nUses) = decide (0 < s.nUses + 1) := by
        rw [decide_eq_decide]
        omega
      have hc := h.consistent
      rw [hblocked] at hc
      exact ⟨_, rfl, hc.with_uses _ _ _ _, h.insideCallback⟩
    · rw [if_neg hfirst]
      have hzero : s.nUses = 0 := by omega
      have hc := h.consistent
      rw [hzero] at hc
      obtain ⟨s', hload, h', huses, hinside'⟩ := @exists_load n
        { s with nUses := s.nUses + 1, insideCallback := true }
        (hc.with_uses _ _ _ _) rfl gets alloc callback
      refine ⟨s', hload, ?_, hinside'⟩
      rw [huses, hzero]
      exact h'
  | unload callback =>
    rw [exec, if_neg hinside]
    by_cases hlast : s.nUses - 1 ≠ 0
    · rw [if_pos hlast]
      have hblocked : decide (0 < s.nUses) = decide (0 < s.nUses - 1) := by
        rw [decide_eq_decide]
        omega
      have hc := h.consistent
      rw [hblocked] at hc
      exact ⟨_, rfl, hc.with_uses _ _ _ _, h.insideCallback⟩
    · rw [if_neg hlast]
      have hone : s.nUses = 1 := by omega
      have hc := h.consistent
      rw [hone] at hc
      obtain ⟨s', hunload, h', huses, hinside'⟩ := @exists_unload n
        { s with
          nUses := s.nUses - 1
          insideCallback := true
          dataMap := s.dataMap.deleteAll }
        (hc.with_uses _ _ _ _) rfl callback
      refine ⟨s', hunload, ?_, hinside'⟩
      rw [huses, hone]
      exact h'

theorem Reachable.invariant (h : Reachable s) : Invariant s := by
  induction h with
  | create type dataMap payloadsUsed payloadsSpecialUsed =>
    refine ⟨⟨List.nodup_nil, ?_, ?_, List.Pairwise.nil, ?_, ?_, ?_, ?_⟩, rfl⟩
    · simp [Registry.create, registered]
    · simp [Registry.create]
    · simp [Registry.create]
    · simp [Registry.create]
    · simp [Registry.create]
    · simp [Registry.create]
  | call call _ hexec ih =>
    obtain ⟨s', hexec', h'⟩ := exec_invariant ih call
    rw [hexec] at hexec'
    cases hexec'
    exact h'

/--
The lists, the total mask, the marks and the references agree between calls, and every call
succeeds without a failed `BUG_ON`.  The lists of used payloads are not cleared when the last
target is unloaded, so they tell something only while a target is loaded.
-/
theorem registration_invariant
    (h : Reachable s) :
    (∀ op, s.totalMask op ≠ 0 ↔ s.payloads.countP (s.masks op) = 1) ∧
      (∀ a, a ∈ s.payloads ∨ a ∈ s.payloadsSpecial → ∃ elem, s.elems a = some elem ∧
        (elem.isUsed = true ↔
          0 < s.nUses ∧ (a ∈ s.payloadsUsed ∨ a ∈ s.payloadsSpecialUsed))) ∧
      (0 < s.nUses → (∀ a ∈ s.payloadsUsed, a ∈ s.payloads) ∧
        ∀ a ∈ s.payloadsSpecialUsed, a ∈ s.payloadsSpecial) ∧
      (∀ call, (s.exec call).isSome = true) ∧
      (s.nUses = 0 → ∀ m, m ≠ 0 → s.taken m = s.put m) := by
  have hinvariant := h.invariant
  have hc := hinvariant.consistent
  refine ⟨fun op => ?_, fun a ha => ?_, fun huses => ?_, fun call => ?_, fun huses m hm => ?_⟩
  · rw [hc.totalMask, countP_eq_one_iff (hc.disjoint.imp fun hab => hab op)]
  · obtain ⟨elem, helem⟩ := Option.isSome_iff_exists.mp
      ((hc.elems_isSome a).mpr (List.mem_append.mpr ha))
    refine ⟨elem, helem, ?_⟩
    rw [hc.isUsed a elem helem, decide_eq_true_iff, used, List.mem_append]
  · have hblocked : decide (0 < s.nUses) = true := decide_eq_true huses
    exact ⟨fun a ha => (hc.sublist hblocked).subset ha,
      fun a ha => (hc.sublistSpecial hblocked).subset ha⟩
  · obtain ⟨s', hexec, -⟩ := exec_invariant hinvariant call
    rw [hexec, Option.isSome_some]
  · have hreferences := hc.references m hm
    rw [huses] at hreferences
    simpa using hreferences

end Targets

/-- A replacer with one special payload, that is registered at the address 8. -/
def oneSpecialPayload (isUsed : Bool) (nUses : Int) (payloadsSpecialUsed : List Pointer) : Registry 1 :=
  { create .atPlace ⟨0, fun _ => []⟩ [] payloadsSpecialUsed with
    elems := Function.update (fun _ => none) 8 (some ⟨⟨1, fun _ => 2, fun _ => 1⟩, 4, isUsed⟩)
    payloadsSpecial := [8]
    nUses := nUses
    taken := fun m => if m = 4 ∧ payloadsSpecialUsed = [8] then 1 else 0
    put := fun m => if m = 4 ∧ payloadsSpecialUsed = [8] ∧ nUses = 0 then 1 else 0 }

theorem reachable_oneSpecialPayload : Reachable (oneSpecialPayload false 0 []) := by
  refine .call (.registerSpecial ⟨1, fun _ => 2, fun _ => 1⟩ 4 true (some 8))
    (.create .atPlace ⟨0, fun _ => []⟩ [] []) ?_
  rw [exec]
  simp [operationPayloadRegisterSpecial, create, kmalloc, oneSpecialPayload, Option.filter_some]

theorem reachable_oneSpecialPayload_loaded : Reachable (oneSpecialPayload true 1 [8]) := by
  refine .call (.load (fun _ => true) false fun _ => []) reachable_oneSpecialPayload ?_
  rw [exec]
  simp [oneSpecialPayload, create, block, fixPayloads, fixPayload, replacer,
    operationReplacerDataCreate,
    execAll, Function.update_eq_iff]

theorem reachable_oneSpecialPayload_unloaded : Reachable (oneSpecialPayload false 0 [8]) := by
  refine .call (.unload fun _ => []) reachable_oneSpecialPayload_loaded ?_
  rw [exec]
  simp [oneSpecialPayload, create, unblock, releasePayload, execAll, DataMap.deleteAll,
    Function.update_eq_iff]

/-- The payload is used while the target is loaded. -/
theorem registration_invariant_loaded :
    Reachable (oneSpecialPayload true 1 [8]) ∧ ∀ a ∈ [8],
    a ∈ (oneSpecialPayload true 1 [8]).payloadsSpecial :=
  ⟨reachable_oneSpecialPayload_loaded,
    ((registration_invariant reachable_oneSpecialPayload_loaded).2.2.1 (by decide)).2⟩

/-- A payload is unregistered after it was used: it is still in the list of used payloads. -/
theorem unregistered_payload_in_used_list :
    ∃ s : Registry 1, Reachable s ∧ s.nUses = 0 ∧ ∃ a ∈ s.payloadsSpecialUsed,
      a ∉ s.payloads ∧ a ∉ s.payloadsSpecial := by
  refine ⟨{ create .atPlace ⟨0, fun _ => []⟩ [] [8] with
      taken := fun m => if m = 4 then 1 else 0
      put := fun m => if m = 4 then 1 else 0 },
    .call (.unregisterSpecial 1 true) reachable_oneSpecialPayload_unloaded ?_, rfl, 8, by decide,
    by decide,
    by decide⟩
  rw [exec]
  simp [oneSpecialPayload, create, operationPayloadUnregisterSpecial, findPayload]

end Registry

end Replacer
end KedrAux
