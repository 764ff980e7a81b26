import KedrAux.Replacer.Registration
import KedrAux.Replacer.ReplacementChain

/-!
# What is known about registered payloads

An invariant of the lists of payloads: it says which operations are masked, which payloads
are marked as used, and how many references to modules are held.  It has a parameter for
whether the payloads are blocked.  Payloads are blocked while a target is loaded; they stay
so for the callbacks that are called when the last target is unloaded.
-/

namespace KedrAux
namespace Replacer

variable {n : Nat}

namespace Registry

/-- The payload of an element masks the operation. -/
def masks (s : Registry n) (op : Fin n) (a : Pointer) : Bool :=
  (s.elems a).any fun elem => elem.payload.mask.masks op

def belongs (s : Registry n) (m a : Pointer) : Bool :=
  (s.elems a).any fun elem => elem.m == m

def registered (s : Registry n) : List Pointer :=
  s.payloads ++ s.payloadsSpecial

def used (s : Registry n) : List Pointer :=
  s.payloadsUsed ++ s.payloadsSpecialUsed

/-- What holds between calls and in callbacks, when the payloads are blocked or not. -/
structure Consistent (blocked : Bool) (s : Registry n) : Prop where
  nodup : s.registered.Nodup
  elems_isSome : ∀ a, (s.elems a).isSome ↔ a ∈ s.registered
  totalMask : ∀ op, s.totalMask op ≠ 0 ↔ ∃ a ∈ s.payloads, s.masks op a = true
  disjoint : s.payloads.Pairwise fun a b => ∀ op, s.masks op a = false ∨ s.masks op b = false
  isUsed : ∀ a elem, s.elems a = some elem →
    (elem.isUsed = true ↔ blocked = true ∧ a ∈ s.used)
  sublist : blocked = true → s.payloadsUsed.Sublist s.payloads
  sublistSpecial : blocked = true → s.payloadsSpecialUsed.Sublist s.payloadsSpecial
  references : ∀ m, m ≠ 0 →
    s.taken m = s.put m + if blocked = true then s.used.countP (s.belongs m) else 0

variable {s : Registry n} {a : Pointer}

variable {elem : OperationPayloadList n} {mask : Ops n} {blocked : Bool} {s' : Registry n}

theorem masks_eq (h : s.elems a = some elem) (op : Fin n) :
    s.masks op a = elem.payload.mask.masks op := by
  rw [masks, h, Option.any_some]

theorem belongs_eq (h : s.elems a = some elem) (m : Pointer) : s.belongs m a = (elem.m == m) := by
  rw [belongs, h, Option.any_some]

theorem isFree_iff : s.isFree mask = true ↔ ∀ op, mask op ≠ 0 → s.totalMask op = 0 := by
  have hfold : ∀ ops : List (Fin n),
      (ops.foldlM (fun _ op => if s.totalMask op ≠ 0 then none else some ()) ()).isSome = true ↔
        ∀ op ∈ ops, s.totalMask op = 0 := by
    intro ops
    induction ops with
    | nil => simp
    | cons op ops ih =>
      rw [List.foldlM_cons, Option.bind_eq_bind]
      by_cases hop : s.totalMask op = 0
      · rw [if_neg (not_not.mpr hop), Option.bind_some, ih]
        simp [hop]
      · rw [if_pos hop]
        simp [hop]
  rw [isFree, forEachOperationInMask_eq, hfold]
  simp only [mem_filter_masks]

theorem clearMask_eq {total : Ops n} (h : ∀ op, mask op ≠ 0 → total op ≠ 0) :
    forEachOperationInMask mask
        (fun total op => if total op = 0 then none else some (Function.update total op 0)) total =
      some fun op => if mask op ≠ 0 then 0 else total op := by
  have hfold : ∀ (ops : List (Fin n)) (total : Ops n), ops.Nodup →
      (∀ op ∈ ops, total op ≠ 0) →
      ops.foldlM (fun total op => if total op = 0 then none else some (Function.update total op 0))
        total = some fun op => if op ∈ ops then 0 else total op := by
    intro ops
    induction ops with
    | nil => simp
    | cons op ops ih =>
      intro total hnodup hne
      rw [List.nodup_cons] at hnodup
      rw [List.foldlM_cons, if_neg (hne op List.mem_cons_self), Option.bind_eq_bind,
        Option.bind_some, ih _ hnodup.2]
      · rw [ite_mem_update ops op (fun _ => 0) total]
      · intro op' hop'
        have hop : op' ≠ op := fun heq => hnodup.1 (heq ▸ hop')
        rw [Function.update_of_ne hop]
        exact hne op' (List.mem_cons_of_mem _ hop')
  rw [forEachOperationInMask_eq, hfold _ _ ((List.nodup_finRange n).filter _)]
  · simp only [mem_filter_masks]
  · intro op hop
    exact h op (mem_filter_masks.mp hop)

theorem countP_eq_one_iff {α : Type} {p : α → Bool} {l : List α}
    (h : l.Pairwise fun a b => p a = false ∨ p b = false) :
    l.countP p = 1 ↔ ∃ a ∈ l, p a = true := by
  induction l with
  | nil => simp
  | cons a l ih =>
    rw [List.pairwise_cons] at h
    cases hp : p a with
    | false =>
      rw [List.countP_cons_of_neg (by simp [hp]), ih h.2]
      simp [hp]
    | true =>
      have hzero : l.countP p = 0 := by
        rw [List.countP_eq_zero]
        intro b hb
        rcases h.1 b hb with hfalse | hfalse
        · rw [hp] at hfalse
          cases hfalse
        · simp [hfalse]
      rw [List.countP_cons_of_pos hp, hzero]
      exact ⟨fun _ => ⟨a, List.mem_cons_self, hp⟩, fun _ => rfl⟩

theorem kmalloc_eq_some {alloc : Option Pointer} (h : s.kmalloc alloc = some a) :
    s.elems a = none := by
  rw [kmalloc, Option.filter_eq_some_iff] at h
  simpa using h.2

theorem Consistent.not_mem_of_elems (h : s.Consistent blocked) (ha : s.elems a = none) :
    a ∉ s.registered := by
  intro hmem
  have hsome := (h.elems_isSome a).mpr hmem
  rw [ha] at hsome
  cases hsome

theorem Consistent.mem_registered_of_mem_used (h : s.Consistent true) (ha : a ∈ s.used) :
    a ∈ s.registered := by
  rcases List.mem_append.mp ha with ha | ha
  · exact List.mem_append_left _ ((h.sublist rfl).subset ha)
  · exact List.mem_append_right _ ((h.sublistSpecial rfl).subset ha)

theorem Consistent.not_mem_used (h : s.Consistent true)
    (ha : ∀ elem, s.elems a = some elem → elem.isUsed = false) :
    a ∉ s.used := by
  intro hmem
  obtain ⟨elem, helem⟩ := Option.isSome_iff_exists.mp
    ((h.elems_isSome a).mpr (h.mem_registered_of_mem_used hmem))
  have hused := (h.isUsed a elem helem).mpr ⟨rfl, hmem⟩
  rw [ha elem helem] at hused
  cases hused

theorem Consistent.masks_eq_false {b : Pointer} {op : Fin n} (h : s.Consistent blocked)
    (ha : a ∈ s.payloads) (hb : b ∈ s.payloads) (hne : a ≠ b) (hop : s.masks op a = true) :
    s.masks op b = false := by
  have hsymm : Std.Symm fun a b => ∀ op, s.masks op a = false ∨ s.masks op b = false :=
    ⟨fun _ _ hab op => (hab op).symm⟩
  have hdisjoint := h.disjoint.forall ha hb hne op
  rw [hop] at hdisjoint
  simpa using hdisjoint

/-- The use of the payloads is the same; they may be registered and unregistered. -/
structure SameUse (s s' : Registry n) : Prop where
  payloadsUsed : s'.payloadsUsed = s.payloadsUsed
  payloadsSpecialUsed : s'.payloadsSpecialUsed = s.payloadsSpecialUsed
  taken : s'.taken = s.taken
  put : s'.put = s.put
  nUses : s'.nUses = s.nUses
  insideCallback : s'.insideCallback = s.insideCallback

theorem SameUse.refl (s : Registry n) : SameUse s s :=
  ⟨rfl, rfl, rfl, rfl, rfl, rfl⟩

theorem SameUse.trans {s'' : Registry n} (h : SameUse s s') (h' : SameUse s' s'') : SameUse s s'' :=
  ⟨h'.payloadsUsed.trans h.payloadsUsed, h'.payloadsSpecialUsed.trans h.payloadsSpecialUsed,
    h'.taken.trans h.taken, h'.put.trans h.put, h'.nUses.trans h.nUses,
    h'.insideCallback.trans h.insideCallback⟩

theorem SameUse.used (h : SameUse s s') : s'.used = s.used := by
  rw [Registry.used, Registry.used, h.payloadsUsed, h.payloadsSpecialUsed]

section Update

variable {x : Option (OperationPayloadList n)}

theorem masks_of_ne
    (helems : s'.elems = Function.update s.elems a x) {b : Pointer} (hne : b ≠ a) (op : Fin n) :
    s'.masks op b = s.masks op b := by
  rw [masks, masks, helems, Function.update_of_ne hne]

theorem Consistent.references_update (h : s.Consistent blocked) (hsame : SameUse s s')
    (helems : s'.elems = Function.update s.elems a x)
    (hunused : blocked = true → a ∉ s.used) (m : Pointer) (hm : m ≠ 0) :
    s'.taken m = s'.put m + if blocked = true then s'.used.countP (s'.belongs m) else 0 := by
  have hcount : blocked = true →
      s.used.countP (s'.belongs m) = s.used.countP (s.belongs m) := by
    intro hblocked
    apply List.countP_congr
    intro b hb
    have hne : b ≠ a := fun heq => hunused hblocked (heq ▸ hb)
    rw [belongs, belongs, helems, Function.update_of_ne hne]
  rw [hsame.taken, hsame.put, hsame.used, h.references m hm]
  split_ifs with hblocked
  · rw [hcount hblocked]
  · rfl

theorem pairwise_masks
    (helems : s'.elems = Function.update s.elems a x) {l : List Pointer} (ha : a ∉ l)
    (h : l.Pairwise fun b c => ∀ op, s.masks op b = false ∨ s.masks op c = false) :
    l.Pairwise fun b c => ∀ op, s'.masks op b = false ∨ s'.masks op c = false := by
  refine h.imp_of_mem fun hb hc hdisjoint op => ?_
  rw [masks_of_ne helems fun heq => ha (heq ▸ hb), masks_of_ne helems fun heq => ha (heq ▸ hc)]
  exact hdisjoint op

/-- A new element comes first in its list. -/
theorem Consistent.add {payload : OperationPayload n} {m : Pointer} (h : s.Consistent blocked)
    (hsame : SameUse s s') (ha : s.elems a = none)
    (helems : s'.elems = Function.update s.elems a (some ⟨payload, m, false⟩))
    (hlists : (s'.payloads = s.payloads ∧ s'.payloadsSpecial = a :: s.payloadsSpecial ∧
        s'.totalMask = s.totalMask) ∨
      (s'.payloads = a :: s.payloads ∧ s'.payloadsSpecial = s.payloadsSpecial ∧
        (∀ op, payload.mask op ≠ 0 → s.totalMask op = 0) ∧
        ∀ op, s'.totalMask op =
          if payload.mask op ≠ 0 then payload.mask op else s.totalMask op)) :
    s'.Consistent blocked := by
  have hnew := h.not_mem_of_elems ha
  have hnew' : a ∉ s.payloads := fun hmem => hnew (List.mem_append_left _ hmem)
  have hunused : blocked = true → a ∉ s.used := by
    rintro rfl
    exact h.not_mem_used fun elem helem => by simp [ha] at helem
  have hmask : ∀ op, s'.masks op a = payload.mask.masks op := by
    intro op
    exact masks_eq (by rw [helems, Function.update_self]) op
  have hperm : s'.registered.Perm (a :: s.registered) := by
    rcases hlists with ⟨hp, hs, -⟩ | ⟨hp, hs, -⟩
    · rw [registered, registered, hp, hs]
      exact List.perm_middle
    · rw [registered, registered, hp, hs, List.cons_append]
  constructor
  · exact hperm.nodup_iff.mpr (List.nodup_cons.mpr ⟨hnew, h.nodup⟩)
  · intro b
    rw [hperm.mem_iff, List.mem_cons, ← h.elems_isSome b, helems]
    by_cases heq : b = a
    · simp [heq]
    · simp [heq]
  · intro op
    rcases hlists with ⟨hp, -, ht⟩ | ⟨hp, -, hfree, ht⟩
    · rw [hp, ht, h.totalMask]
      refine exists_congr fun b => and_congr_right fun hb => ?_
      rw [masks_of_ne helems fun heq => hnew' (heq ▸ hb)]
    · rw [hp, ht]
      by_cases hop : payload.mask op = 0
      · rw [if_neg (not_not.mpr hop), h.totalMask]
        have hfalse : s'.masks op a = false := by simp [hmask, Ops.masks, hop]
        constructor
        · rintro ⟨b, hb, hb'⟩
          refine ⟨b, List.mem_cons_of_mem _ hb, ?_⟩
          rwa [masks_of_ne helems fun heq => hnew' (heq ▸ hb)]
        · rintro ⟨b, hb, hb'⟩
          rcases List.mem_cons.mp hb with rfl | hb
          · rw [hfalse] at hb'
            cases hb'
          · exact ⟨b, hb, by rwa [masks_of_ne helems fun heq => hnew' (heq ▸ hb)] at hb'⟩
      · rw [if_pos hop]
        exact ⟨fun _ => ⟨a, List.mem_cons_self, by simp [hmask, Ops.masks, hop]⟩, fun _ => hop⟩
  · have hold := pairwise_masks helems hnew' h.disjoint
    rcases hlists with ⟨hp, -, -⟩ | ⟨hp, -, hfree, -⟩
    · rw [hp]
      exact hold
    · rw [hp]
      refine List.pairwise_cons.mpr ⟨fun b hb op => ?_, hold⟩
      rw [hmask, masks_of_ne helems fun heq => hnew' (heq ▸ hb)]
      by_cases hop : payload.mask op = 0
      · exact Or.inl (by simp [Ops.masks, hop])
      · refine Or.inr (Bool.eq_false_iff.mpr fun hb' => ?_)
        exact (h.totalMask op).mpr ⟨b, hb, hb'⟩ (hfree op hop)
  · intro b elem helem
    rw [helems] at helem
    rw [hsame.used]
    by_cases heq : b = a
    · subst heq
      rw [Function.update_self] at helem
      cases helem
      constructor
      · intro hfalse
        cases hfalse
      · rintro ⟨hblocked, hmem⟩
        exact absurd hmem (hunused hblocked)
    · rw [Function.update_of_ne heq] at helem
      exact h.isUsed b elem helem
  · intro hblocked
    rw [hsame.payloadsUsed]
    rcases hlists with ⟨hp, -, -⟩ | ⟨hp, -, -⟩
    · exact hp ▸ h.sublist hblocked
    · exact hp ▸ (h.sublist hblocked).cons a
  · intro hblocked
    rw [hsame.payloadsSpecialUsed]
    rcases hlists with ⟨-, hs, -⟩ | ⟨-, hs, -⟩
    · exact hs ▸ (h.sublistSpecial hblocked).cons a
    · exact hs ▸ h.sublistSpecial hblocked
  · exact fun m' hm' => h.references_update hsame helems hunused m' hm'

/-- An element that is not used is taken out of its list. -/
theorem Consistent.remove {elem : OperationPayloadList n} (h : s.Consistent blocked)
    (hsame : SameUse s s') (ha : s.elems a = some elem) (hfree : elem.isUsed = false)
    (helems : s'.elems = Function.update s.elems a none)
    (hlists : (a ∈ s.payloadsSpecial ∧ s'.payloads = s.payloads ∧
        s'.payloadsSpecial = s.payloadsSpecial.erase a ∧ s'.totalMask = s.totalMask) ∨
      (a ∈ s.payloads ∧ s'.payloads = s.payloads.erase a ∧
        s'.payloadsSpecial = s.payloadsSpecial ∧
        ∀ op, s'.totalMask op = if elem.payload.mask op ≠ 0 then 0 else s.totalMask op)) :
    s'.Consistent blocked := by
  have hnodup := List.nodup_append.mp h.nodup
  have hunused : blocked = true → a ∉ s.used := by
    rintro rfl
    refine h.not_mem_used fun elem' helem' => ?_
    rw [ha] at helem'
    cases helem'
    exact hfree
  have hregistered : s'.registered = s.registered.erase a := by
    rcases hlists with ⟨hmem, hp, hs, -⟩ | ⟨hmem, hp, hs, -⟩
    · have hnot : a ∉ s.payloads := fun hmem' => hnodup.2.2 a hmem' a hmem rfl
      rw [registered, registered, hp, hs, List.erase_append_right _ hnot]
    · rw [registered, registered, hp, hs, List.erase_append_left _ hmem]
  have hnot : a ∉ s'.payloads := by
    rcases hlists with ⟨hmem, hp, -⟩ | ⟨-, hp, -⟩
    · exact hp ▸ fun hmem' => hnodup.2.2 a hmem' a hmem rfl
    · exact hp ▸ hnodup.1.not_mem_erase
  have hsub : s'.payloads.Sublist s.payloads := by
    rcases hlists with ⟨-, hp, -⟩ | ⟨-, hp, -⟩
    · rw [hp]
    · exact hp ▸ List.erase_sublist
  constructor
  · rw [hregistered]
    exact h.nodup.erase a
  · intro b
    rw [hregistered, h.nodup.mem_erase_iff, ← h.elems_isSome b, helems]
    by_cases heq : b = a
    · simp [heq]
    · simp [heq]
  · intro op
    rcases hlists with ⟨hmem, hp, -, ht⟩ | ⟨hmem, hp, -, ht⟩
    · rw [hp, ht, h.totalMask]
      refine exists_congr fun b => and_congr_right fun hb => ?_
      rw [masks_of_ne helems fun heq => hnot (hp ▸ heq ▸ hb)]
    · have hmask := masks_eq ha op
      rw [ht]
      by_cases hop : elem.payload.mask op = 0
      · rw [if_neg (not_not.mpr hop), h.totalMask]
        constructor
        · rintro ⟨b, hb, hb'⟩
          have hne : b ≠ a := by
            rintro rfl
            rw [hmask, Ops.masks, hop] at hb'
            cases hb'
          refine ⟨b, hp ▸ (List.mem_erase_of_ne hne).mpr hb, ?_⟩
          rwa [masks_of_ne helems hne]
        · rintro ⟨b, hb, hb'⟩
          rw [masks_of_ne helems fun heq => hnot (heq ▸ hb)] at hb'
          exact ⟨b, hsub.subset hb, hb'⟩
      · -- only the removed payload masks the operation
        rw [if_pos hop]
        refine ⟨fun hne => absurd rfl hne, ?_⟩
        rintro ⟨b, hb, hb'⟩
        have hne : b ≠ a := fun heq => hnot (heq ▸ hb)
        rw [masks_of_ne helems hne] at hb'
        have hfalse := h.masks_eq_false (hsub.subset hb) hmem hne hb'
        rw [hmask] at hfalse
        simp [Ops.masks, hop] at hfalse
  · exact pairwise_masks helems hnot (h.disjoint.sublist hsub)
  · intro b elem' helem'
    rw [helems] at helem'
    rw [hsame.used]
    by_cases heq : b = a
    · subst heq
      rw [Function.update_self] at helem'
      cases helem'
    · rw [Function.update_of_ne heq] at helem'
      exact h.isUsed b elem' helem'
  · rintro rfl
    have hnot' : a ∉ s.payloadsUsed := fun hmem => hunused rfl (List.mem_append_left _ hmem)
    rw [hsame.payloadsUsed, ← List.erase_of_not_mem hnot']
    rcases hlists with ⟨hmem, hp, -⟩ | ⟨-, hp, -⟩
    · rw [hp, List.erase_of_not_mem hnot']
      exact h.sublist rfl
    · exact hp ▸ (h.sublist rfl).erase a
  · rintro rfl
    have hnot' : a ∉ s.payloadsSpecialUsed :=
      fun hmem => hunused rfl (List.mem_append_right _ hmem)
    rw [hsame.payloadsSpecialUsed, ← List.erase_of_not_mem hnot']
    rcases hlists with ⟨-, -, hs, -⟩ | ⟨-, -, hs, -⟩
    · exact hs ▸ (h.sublistSpecial rfl).erase a
    · rw [hs, List.erase_of_not_mem hnot']
      exact h.sublistSpecial rfl
  · exact fun m hm => h.references_update hsame helems hunused m hm

end Update

theorem findPayload_spec (payload : Pointer) {l : List Pointer}
    (hl : ∀ a ∈ l, (s.elems a).isSome = true) :
    s.findPayload payload l = some none ∨
      ∃ a elem, s.findPayload payload l = some (some (a, elem)) ∧ a ∈ l ∧
        s.elems a = some elem := by
  induction l with
  | nil => exact Or.inl rfl
  | cons a l ih =>
    obtain ⟨elem, helem⟩ := Option.isSome_iff_exists.mp (hl a List.mem_cons_self)
    rw [findPayload, helem, Option.bind_eq_bind, Option.bind_some]
    split_ifs with hptr
    · exact Or.inr ⟨a, elem, rfl, List.mem_cons_self, helem⟩
    · rcases ih fun b hb => hl b (List.mem_cons_of_mem _ hb) with hnone | ⟨b, elem', hb, hmem, he⟩
      · exact Or.inl hnone
      · exact Or.inr ⟨b, elem', hb, List.mem_cons_of_mem _ hmem, he⟩

section Calls

/-- A call that keeps the payloads in use. -/
def Keeps (blocked : Bool) (s : Registry n) (result : Option (Registry n)) : Prop :=
  ∃ s', result = some s' ∧ s'.Consistent blocked ∧ SameUse s s'

section

variable (h : s.Consistent blocked)
include h

theorem Keeps.same : Keeps blocked s (some s) :=
  ⟨s, rfl, h, .refl s⟩

theorem keeps_register (payload : OperationPayload n) (m : Pointer) (lock : Bool)
    (alloc : Option Pointer) :
    Keeps blocked s ((s.operationPayloadRegister payload m lock alloc).map Prod.snd) := by
  unfold operationPayloadRegister
  split_ifs with huses hlock hfree
  · exact .same h
  · exact .same h
  · exact .same h
  · cases halloc : s.kmalloc alloc with
    | none => exact .same h
    | some a =>
      have htotal := replaceOps_eq payload.mask payload.mask s.totalMask
      rw [replaceOps] at htotal
      have hfree' : ∀ op, payload.mask op ≠ 0 → s.totalMask op = 0 :=
        isFree_iff.mp (by simpa using hfree)
      simp only [htotal, Option.bind_eq_bind, Option.bind_some]
      exact ⟨_, rfl, h.add ⟨rfl, rfl, rfl, rfl, rfl, rfl⟩ (kmalloc_eq_some halloc) rfl
        (Or.inr ⟨rfl, rfl, hfree', fun op => rfl⟩), ⟨rfl, rfl, rfl, rfl, rfl, rfl⟩⟩

theorem keeps_registerSpecial (payload : OperationPayload n) (m : Pointer) (lock : Bool)
    (alloc : Option Pointer) :
    Keeps blocked s ((s.operationPayloadRegisterSpecial payload m lock alloc).map Prod.snd) := by
  unfold operationPayloadRegisterSpecial
  split_ifs with huses hlock
  · exact .same h
  · exact .same h
  · cases halloc : s.kmalloc alloc with
    | none => exact .same h
    | some a =>
      exact ⟨_, rfl, h.add ⟨rfl, rfl, rfl, rfl, rfl, rfl⟩ (kmalloc_eq_some halloc) rfl
        (Or.inl ⟨rfl, rfl, rfl⟩), ⟨rfl, rfl, rfl, rfl, rfl, rfl⟩⟩

theorem keeps_unregister (payload : Pointer) (lock : Bool) :
    Keeps blocked s ((s.operationPayloadUnregister payload lock).map Prod.snd) := by
  have hl : ∀ a ∈ s.payloads, (s.elems a).isSome = true :=
    fun a ha => (h.elems_isSome a).mpr (List.mem_append_left _ ha)
  unfold operationPayloadUnregister
  split_ifs with hlock
  · exact .same h
  · rcases findPayload_spec payload hl with hnone | ⟨a, elem, hfind, hmem, helem⟩
    · rw [hnone]
      exact .same h
    · simp only [hfind, Option.bind_eq_bind, Option.bind_some]
      split_ifs with hused
      · exact .same h
      · have hmasked : ∀ op, elem.payload.mask op ≠ 0 → s.totalMask op ≠ 0 := fun op hop =>
          (h.totalMask op).mpr ⟨a, hmem, by simp [masks_eq helem, Ops.masks, hop]⟩
        rw [clearMask_eq hmasked]
        exact ⟨_, rfl, h.remove ⟨rfl, rfl, rfl, rfl, rfl, rfl⟩ helem (by simpa using hused) rfl
          (Or.inr ⟨hmem, rfl, rfl, fun op => rfl⟩), ⟨rfl, rfl, rfl, rfl, rfl, rfl⟩⟩

theorem keeps_unregisterSpecial (payload : Pointer) (lock : Bool) :
    Keeps blocked s ((s.operationPayloadUnregisterSpecial payload lock).map Prod.snd) := by
  have hl : ∀ a ∈ s.payloadsSpecial, (s.elems a).isSome = true :=
    fun a ha => (h.elems_isSome a).mpr (List.mem_append_right _ ha)
  unfold operationPayloadUnregisterSpecial
  split_ifs with hlock
  · exact .same h
  · rcases findPayload_spec payload hl with hnone | ⟨a, elem, hfind, hmem, helem⟩
    · rw [hnone]
      exact .same h
    · simp only [hfind, Option.bind_eq_bind, Option.bind_some]
      split_ifs with hused
      · exact .same h
      · exact ⟨_, rfl, h.remove ⟨rfl, rfl, rfl, rfl, rfl, rfl⟩ helem (by simpa using hused) rfl
          (Or.inl ⟨hmem, rfl, rfl, rfl⟩), ⟨rfl, rfl, rfl, rfl, rfl, rfl⟩⟩

/-- No call from inside of a callback changes what is used. -/
theorem keeps_exec (hinside : s.insideCallback = true) (call : Call n) :
    Keeps blocked s (s.exec call) := by
  cases call with
  | register payload m lock alloc =>
    rw [exec]
    exact keeps_register h payload m lock alloc
  | unregister payload lock =>
    rw [exec]
    exact keeps_unregister h payload lock
  | registerSpecial payload m lock alloc =>
    rw [exec]
    exact keeps_registerSpecial h payload m lock alloc
  | unregisterSpecial payload lock =>
    rw [exec]
    exact keeps_unregisterSpecial h payload lock
  | load gets alloc callback
  | unload callback =>
    rw [exec, if_pos hinside]
    exact .same h

theorem keeps_execAll (hinside : s.insideCallback = true) (calls : List (Call n)) :
    Keeps blocked s (s.execAll calls) := by
  induction calls generalizing s with
  | nil =>
    rw [execAll]
    exact .same h
  | cons call calls ih =>
    obtain ⟨s1, hexec, h1, hsame1⟩ := keeps_exec h hinside call
    obtain ⟨s2, hexecAll, h2, hsame2⟩ := ih h1 (hsame1.insideCallback.trans hinside)
    refine ⟨s2, ?_, h2, hsame1.trans hsame2⟩
    rw [execAll, hexec, Option.bind_some, hexecAll]

end

theorem keeps_callbacks (h : s.Consistent true) (hinside : s.insideCallback = true)
    (callback : Pointer → List (Call n)) {l : List Pointer} (hl : ∀ a ∈ l, a ∈ s.used) :
    Keeps true s
      (l.foldlM (fun s a => (s.elems a).bind fun _ => execAll (callback a) s) s) := by
  induction l generalizing s with
  | nil => exact .same h
  | cons a l ih =>
    obtain ⟨elem, helem⟩ := Option.isSome_iff_exists.mp
      ((h.elems_isSome a).mpr (h.mem_registered_of_mem_used (hl a List.mem_cons_self)))
    obtain ⟨s1, hexec, h1, hsame1⟩ := keeps_execAll h hinside (callback a)
    obtain ⟨s2, hfold, h2, hsame2⟩ := ih h1 (hsame1.insideCallback.trans hinside) fun b hb => by
      rw [hsame1.used]
      exact hl b (List.mem_cons_of_mem _ hb)
    refine ⟨s2, ?_, h2, hsame1.trans hsame2⟩
    rw [List.foldlM_cons, helem, Option.bind_eq_bind, Option.bind_some, hexec, Option.bind_some,
      hfold]

end Calls

end Registry

end Replacer
end KedrAux
