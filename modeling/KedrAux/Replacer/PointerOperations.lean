import KedrAux.Replacer.AtPlaceOperations

/-!
# Operations behind pointers that are replaced

What each access gives for objects that have a pointer to their operations.  The tables of
the replacer are different for different objects, and they are not used outside; each one
is made from the structure that is kept as original.
-/

namespace KedrAux
namespace Replacer

open ErrorCodes

variable {n : Nat}

namespace Objects

variable {hashPtr : Pointer → Nat → Nat} {outside : Set Pointer} {data : OperationReplacerData n}
variable {s s' : Objects n}

section ReplacePointer

structure TableOf (outside : Set Pointer) (data : OperationReplacerData n) (mem : Memory n)
    (opsOrig own : Pointer) : Prop where
  not_mem : own ∉ outside
  masked : ∀ op, data.opsMaskTotal op ≠ 0 → mem.ops own op = data.opsReplTotal op
  replaced : opsOrig ∈ outside → mem.ops own = data.replaced (mem.ops opsOrig)

/-- What the replacer has for an object, or the pointer to operations itself. -/
structure PointerInvariant (hashPtr : Pointer → Nat → Nat) (outside : Set Pointer)
    (data : OperationReplacerData n) (s : Objects n) (key : Pointer) : Prop where
  table : ∀ d, s.replacer.dataMap.get hashPtr key = some d → ∃ opsOrig own,
    d = .replacePointer opsOrig own ∧ TableOf outside data s.mem opsOrig own ∧
      (s.mem.opsPointer key ≠ own → s.mem.opsPointer key ∈ outside)
  last_of_none : s.replacer.dataMap.get hashPtr key = none → ∀ op v, s.last key op = some v →
    s.mem.opsPointer key ∈ outside ∧ s.mem.ops (s.mem.opsPointer key) op = v
  last : ∀ opsOrig own, s.replacer.dataMap.get hashPtr key = some (.replacePointer opsOrig own) →
    ∀ op v, s.last key op = some v → ∃ ops ∈ outside, s.mem.ops ops op = v ∧
      ((s.mem.opsPointer key = own ∧ opsOrig = ops) ∨
        (s.mem.opsPointer key ≠ own ∧ s.mem.opsPointer key = ops))

/-- The invariant of all objects; no two of them have the same table. -/
structure ReplacePointer (hashPtr : Pointer → Nat → Nat) (outside : Set Pointer)
    (data : OperationReplacerData n) (s : Objects n) : Prop where
  loaded : s.Loaded data .replacePointer
  object : ∀ key, s.PointerInvariant hashPtr outside data key
  injective : ∀ key key' opsOrig opsOrig' own,
    s.replacer.dataMap.get hashPtr key = some (.replacePointer opsOrig own) →
    s.replacer.dataMap.get hashPtr key' = some (.replacePointer opsOrig' own) → key = key'

variable {key opsOrig own : Pointer}

/-- A step that does not concern the object keeps what is known about it. -/
theorem PointerInvariant.frame (h : s.PointerInvariant hashPtr outside data key)
    (hget : s'.replacer.dataMap.get hashPtr key = s.replacer.dataMap.get hashPtr key)
    (hpointer : s'.mem.opsPointer key = s.mem.opsPointer key) (hlast : s'.last key = s.last key)
    (hops : ∀ ops ∈ outside, s'.mem.ops ops = s.mem.ops ops)
    (hown : ∀ opsOrig own, s.replacer.dataMap.get hashPtr key = some (.replacePointer opsOrig own) →
      s'.mem.ops own = s.mem.ops own) :
    s'.PointerInvariant hashPtr outside data key := by
  constructor
  · intro d hd
    rw [hget] at hd
    obtain ⟨opsOrig, own, rfl, htable, houtside⟩ := h.table d hd
    refine ⟨opsOrig, own, rfl, ⟨htable.not_mem, ?_, ?_⟩, ?_⟩
    · rw [hown opsOrig own hd]
      exact htable.masked
    · intro hmem
      rw [hown opsOrig own hd, hops opsOrig hmem]
      exact htable.replaced hmem
    · rw [hpointer]
      exact houtside
  · intro hnone op v hv
    rw [hget] at hnone
    rw [hlast] at hv
    obtain ⟨hmem, hop⟩ := h.last_of_none hnone op v hv
    rw [hpointer, hops _ hmem]
    exact ⟨hmem, hop⟩
  · intro opsOrig own hd op v hv
    rw [hget] at hd
    rw [hlast] at hv
    obtain ⟨ops, hmem, hop, hcases⟩ := h.last opsOrig own hd op v hv
    rw [hpointer]
    exact ⟨ops, hmem, (congrFun (hops ops hmem) op).trans hop, hcases⟩

theorem ReplacePointer.of_key (h : s.ReplacePointer hashPtr outside data) (key : Pointer)
    (hloaded : s'.Loaded data .replacePointer)
    (hget : ∀ key', key' ≠ key →
      s'.replacer.dataMap.get hashPtr key' = s.replacer.dataMap.get hashPtr key')
    (hpointer : ∀ key', key' ≠ key → s'.mem.opsPointer key' = s.mem.opsPointer key')
    (hlast : ∀ key', key' ≠ key → s'.last key' = s.last key')
    (hops : ∀ ops ∈ outside, s'.mem.ops ops = s.mem.ops ops)
    (hown : ∀ key', key' ≠ key → ∀ opsOrig own,
      s.replacer.dataMap.get hashPtr key' = some (.replacePointer opsOrig own) →
      s'.mem.ops own = s.mem.ops own)
    (hkey : s'.PointerInvariant hashPtr outside data key)
    (hnew : ∀ opsOrig own, s'.replacer.dataMap.get hashPtr key = some (.replacePointer opsOrig own) →
      ∀ key', key' ≠ key → ∀ opsOrig',
        s.replacer.dataMap.get hashPtr key' ≠ some (.replacePointer opsOrig' own)) :
    s'.ReplacePointer hashPtr outside data := by
  refine ⟨hloaded, fun key' => ?_, fun k k' opsOrig opsOrig' own hk hk' => ?_⟩
  · by_cases heq : key' = key
    · exact heq ▸ hkey
    · exact (h.object key').frame (hget key' heq) (hpointer key' heq) (hlast key' heq) hops
        (hown key' heq)
  · by_cases heq : k = key
    · subst heq
      by_contra hne
      rw [hget k' (Ne.symm hne)] at hk'
      exact hnew opsOrig own hk k' (Ne.symm hne) opsOrig' hk'
    · rw [hget k heq] at hk
      by_cases heq' : k' = key
      · subst heq'
        exact absurd hk (hnew opsOrig' own hk' k heq opsOrig)
      · rw [hget k' heq'] at hk'
        exact h.injective k k' opsOrig opsOrig' own hk hk'

theorem PointerInvariant.of_replaced
    (hget : s'.replacer.dataMap.get hashPtr key = some (.replacePointer opsOrig own))
    (hpointer : s'.mem.opsPointer key = own) (htable : TableOf outside data s'.mem opsOrig own)
    (hlast : ∀ op v, s'.last key op = some v → opsOrig ∈ outside ∧ s'.mem.ops opsOrig op = v) :
    s'.PointerInvariant hashPtr outside data key := by
  constructor
  · intro d hd
    rw [hget] at hd
    cases hd
    exact ⟨opsOrig, own, rfl, htable, fun hne => absurd hpointer hne⟩
  · intro hnone
    rw [hget] at hnone
    cases hnone
  · intro opsOrig' own' hd op v hv
    rw [hget] at hd
    cases hd
    exact ⟨opsOrig, (hlast op v hv).1, (hlast op v hv).2, Or.inl ⟨hpointer, rfl⟩⟩

theorem PointerInvariant.of_none (hget : s'.replacer.dataMap.get hashPtr key = none)
    (hlast : ∀ op v, s'.last key op = some v →
      s'.mem.opsPointer key ∈ outside ∧ s'.mem.ops (s'.mem.opsPointer key) op = v) :
    s'.PointerInvariant hashPtr outside data key := by
  constructor
  · intro d hd
    rw [hget] at hd
    cases hd
  · exact fun _ => hlast
  · intro opsOrig own hd
    rw [hget] at hd
    cases hd

theorem ReplacePointer.replaces (hloaded : s'.Loaded data .replacePointer)
    (htype : s.replacer.type = .replacePointer)
    (hget : s'.replacer.dataMap.get hashPtr key = some (.replacePointer opsOrig own))
    (hpointer : s'.mem.opsPointer key = own)
    (hmasked : ∀ op, data.opsMaskTotal op ≠ 0 → s'.mem.ops own op = data.opsReplTotal op)
    (hunmasked : ∀ op, data.opsMaskTotal op = 0 →
      s'.mem.ops own op = s.mem.ops (s.mem.opsPointer key) op)
    (hlast : ∀ op v, s.last key op = some v → s'.mem.ops opsOrig op = v) :
    Replaces hashPtr data s s' key := by
  constructor
  · intro op
    rw [OperationReplacer.operationOf, OperationReplacer.operationOf, hloaded.type, htype]
    simp only [hpointer]
    split_ifs with hmask
    · exact hmasked op hmask
    · exact hunmasked op (not_not.mp hmask)
  · intro op hmask v hv
    rw [← hlast op v hv]
    simp [operationGetOrig, hloaded.nUses, hloaded.data, hmask, hget]

/-- A failed replacement changes the table that was allocated for it only. -/
theorem operationReplace_replacePointer_cases
    (h : s.Loaded data .replacePointer) (alloc : Option Pointer) (allocElem : Bool)
    (key : Pointer) :
    (∃ result, result ≠ 0 ∧ ∃ ops : Pointer → Ops n,
      operationReplace hashPtr s.replacer s.mem alloc allocElem key =
        some (result, s.replacer, { s.mem with ops := ops }) ∧
      ∀ a, alloc ≠ some a → ops a = s.mem.ops a) ∨
    (s.replacer.dataMap.get hashPtr key = none ∧ ∃ own, alloc = some own ∧
      ∃ dataMap : DataMap (OperationData n),
        operationReplace hashPtr s.replacer s.mem alloc allocElem key =
          some (0, { s.replacer with dataMap := dataMap },
            ⟨Function.update s.mem.ops own (data.replaced (s.mem.ops (s.mem.opsPointer key))),
              Function.update s.mem.opsPointer key own⟩) ∧
        dataMap.DistinctKeys ∧
        ∀ key', dataMap.get hashPtr key' =
          if key' = key then some (.replacePointer (s.mem.opsPointer key) own)
          else s.replacer.dataMap.get hashPtr key') := by
  cases alloc with
  | none =>
    have hne : -ENOMEM ≠ 0 := by decide
    exact Or.inl ⟨-ENOMEM, hne, s.mem.ops, by simp [operationReplace, h.nUses, h.data],
      fun _ _ => rfl⟩
  | some own =>
    rcases @DataMap.add_cases _ hashPtr s.replacer.dataMap allocElem key
      (.replacePointer (s.mem.opsPointer key) own) with ⟨hadd, -⟩ | ⟨hadd, hnone, hget⟩
    · refine Or.inl ⟨_, hadd, Function.update s.mem.ops own
        (data.replaced (s.mem.ops (s.mem.opsPointer key))), ?_, fun a ha => ?_⟩
      · simp [operationReplace, h.nUses, h.data, h.type, operationReplaceReplacePointer_eq, hadd,
          operationRestoreData]
      · have hne : a ≠ own := fun heq => ha (heq ▸ rfl)
        exact Function.update_of_ne hne _ _
    · refine Or.inr ⟨hnone, own, rfl, _, ?_, h.distinct.add allocElem key _, hget⟩
      simp [operationReplace, h.nUses, h.data, h.type, operationReplaceReplacePointer_eq, hadd]

section

variable (h : s.ReplacePointer hashPtr outside data)
include h

theorem ReplacePointer.replace (key : Pointer) {alloc : Option Pointer}
    (halloc : ∀ own, alloc = some own → s.Fresh hashPtr outside own) (allocElem : Bool) :
    ∃ result s', s.exec hashPtr (.replace key alloc allocElem) = some (result, s') ∧
      s'.ReplacePointer hashPtr outside data ∧ ((result ≠ 0 ∧ Unchanged alloc s s') ∨
        (result = 0 ∧ s.replacer.dataMap.get hashPtr key = none ∧
          Replaces hashPtr data s s' key)) := by
  rcases @operationReplace_replacePointer_cases n hashPtr data s h.loaded alloc allocElem key with
    ⟨result, hne, ops, hreplace, hops⟩ | ⟨hnone, own, rfl, dataMap, hreplace, hdistinct, hget⟩
  · have houtside : ∀ a ∈ outside, ops a = s.mem.ops a :=
      fun a ha => hops a fun heq => (halloc a heq).1 ha
    have hexec : s.exec hashPtr (.replace key alloc allocElem) = some (result,
        s.changed s.replacer.dataMap { s.mem with ops := ops }) := by
      simp [exec, hreplace, changed]
    refine ⟨result, _, hexec, ⟨h.loaded.changed h.loaded.distinct _, fun key' => ?_, h.injective⟩,
      Or.inl ⟨hne, rfl, rfl, ?_⟩⟩
    · exact (h.object key').frame rfl rfl rfl houtside fun opsOrig own hown =>
        hops own fun heq => (halloc own heq).2 key' opsOrig hown
    · rintro a (htype | ha)
      · rw [h.loaded.type] at htype
        cases htype
      · exact hops a ha
  · obtain ⟨hout, hown⟩ := halloc own rfl
    have hlast := (h.object key).last_of_none hnone
    have hget' := hget key
    rw [if_pos rfl] at hget'
    have houtside : ∀ a ∈ outside, Function.update s.mem.ops own
        (data.replaced (s.mem.ops (s.mem.opsPointer key))) a = s.mem.ops a := by
      intro a ha
      have hne : a ≠ own := fun heq => hout (heq ▸ ha)
      exact Function.update_of_ne hne _ _
    have hexec : s.exec hashPtr (.replace key (some own) allocElem) = some (0, s.changed dataMap
        ⟨Function.update s.mem.ops own (data.replaced (s.mem.ops (s.mem.opsPointer key))),
          Function.update s.mem.opsPointer key own⟩) := by
      simp [exec, hreplace, changed]
    have hloaded := h.loaded.changed hdistinct
    refine ⟨0, _, hexec, ?_, Or.inr ⟨rfl, hnone, ?_⟩⟩
    · refine h.of_key key (hloaded _) (fun key' hne => (hget key').trans (if_neg hne))
        (fun key' hne => Function.update_of_ne hne _ _) (fun _ _ => rfl) houtside ?_ ?_ ?_
      · intro key' hne opsOrig own' hown'
        have hne' : own' ≠ own := fun heq => hown key' opsOrig (heq ▸ hown')
        exact Function.update_of_ne hne' _ _
      · refine .of_replaced hget' (Function.update_self _ _ _) ⟨hout, ?_, ?_⟩ ?_
        · intro op hmask
          simp [changed, OperationReplacerData.replaced, hmask]
        · intro hmem
          simp only [changed, houtside _ hmem, Function.update_self]
        · intro op v hv
          obtain ⟨hmem, hop⟩ := hlast op v hv
          exact ⟨hmem, (congrFun (houtside _ hmem) op).trans hop⟩
      · intro opsOrig own' hd key' hne opsOrig' hd'
        cases hget'.symm.trans hd
        exact hown key' opsOrig' hd'
    · refine ReplacePointer.replaces (hloaded _) h.loaded.type hget' (Function.update_self _ _ _)
        (fun op hmask => ?_) (fun op hmask => ?_) fun op v hv => ?_
      · simp [changed, OperationReplacerData.replaced, hmask]
      · simp [changed, OperationReplacerData.replaced, hmask]
      · obtain ⟨hmem, hop⟩ := hlast op v hv
        exact (congrFun (houtside _ hmem) op).trans hop

/--
The data for an object is updated.  The table is used again, when the object has it, or has
the pointer that it is made for; else it is made for the pointer that the object has.
-/
theorem ReplacePointer.updateData
    (hget : s.replacer.dataMap.get hashPtr key = some (.replacePointer opsOrig own)) :
    ∃ opsOrig' mem, operationReplacementUpdateData s.mem (.replacePointer opsOrig own) key
          data.opsReplTotal data.opsMaskTotal = some (.replacePointer opsOrig' own, mem) ∧
      (∀ a, a ≠ own → mem.ops a = s.mem.ops a) ∧
      mem.opsPointer = Function.update s.mem.opsPointer key own ∧
      TableOf outside data mem opsOrig' own ∧
      (∀ op, data.opsMaskTotal op = 0 → mem.ops own op = s.mem.ops (s.mem.opsPointer key) op) ∧
      ∀ op v, s.last key op = some v → opsOrig' ∈ outside ∧ mem.ops opsOrig' op = v := by
  have hobject := h.object key
  obtain ⟨opsOrig', own', heq, htable, houtside⟩ := hobject.table _ hget
  cases heq
  by_cases hown : s.mem.opsPointer key = own
  · refine ⟨opsOrig, s.mem, ?_, fun _ _ => rfl, ?_, htable, fun op _ => by rw [hown], ?_⟩
    · rw [operationReplacementUpdateData, if_pos hown]
    · rw [← hown, Function.update_eq_self]
    · intro op v hv
      obtain ⟨ops, hmem, hop, ⟨-, rfl⟩ | ⟨hne, -⟩⟩ := hobject.last opsOrig own hget op v hv
      · exact ⟨hmem, hop⟩
      · exact absurd hown hne
  · have hmem := houtside hown
    have hlast : ∀ op v, s.last key op = some v → s.mem.ops (s.mem.opsPointer key) op = v := by
      intro op v hv
      obtain ⟨ops, -, hop, ⟨heq, -⟩ | ⟨-, rfl⟩⟩ := hobject.last opsOrig own hget op v hv
      · exact absurd heq hown
      · exact hop
    by_cases horig : s.mem.opsPointer key = opsOrig
    · rw [horig] at hmem hlast ⊢
      refine ⟨opsOrig, { s.mem with opsPointer := Function.update s.mem.opsPointer key own }, ?_,
        fun _ _ => rfl, rfl, ⟨htable.not_mem, htable.masked, htable.replaced⟩, ?_,
        fun op v hv => ⟨hmem, hlast op v hv⟩⟩
      · rw [operationReplacementUpdateData, if_neg hown, if_pos horig]
      · intro op hmask
        simp [htable.replaced hmem, OperationReplacerData.replaced, hmask]
    · have hne : s.mem.opsPointer key ≠ own := hown
      refine ⟨s.mem.opsPointer key,
        ⟨Function.update s.mem.ops own (data.replaced (s.mem.ops (s.mem.opsPointer key))),
          Function.update s.mem.opsPointer key own⟩, ?_, fun a ha => Function.update_of_ne ha _ _,
        rfl, ⟨htable.not_mem, ?_, ?_⟩, ?_, fun op v hv => ⟨hmem, ?_⟩⟩
      · rw [operationReplacementUpdateData, if_neg hown, if_neg horig,
          operationReplaceReplacePointer_eq]
      · intro op hmask
        simp [OperationReplacerData.replaced, hmask]
      · intro _
        simp only [Function.update_self, Function.update_of_ne hne]
      · intro op hmask
        simp [OperationReplacerData.replaced, hmask]
      · simp only [Function.update_of_ne hne]
        exact hlast op v hv

theorem ReplacePointer.update (key : Pointer) {alloc : Option Pointer}
    (halloc : ∀ own, alloc = some own → s.Fresh hashPtr outside own) (allocElem : Bool) :
    ∃ result s', s.exec hashPtr (.update key alloc allocElem) = some (result, s') ∧
      s'.ReplacePointer hashPtr outside data ∧ (result = 0 → Replaces hashPtr data s s' key) := by
  cases hget : s.replacer.dataMap.get hashPtr key with
  | none =>
    obtain ⟨result, s', hreplace, hinv, hcases⟩ := h.replace key halloc allocElem
    refine ⟨result, s', (h.loaded.exec_update_of_none hget alloc allocElem).trans hreplace, hinv,
      fun hzero => ?_⟩
    exact hcases.elim (fun hfail => absurd hzero hfail.1) fun hok => hok.2.2
  | some d =>
    obtain ⟨opsOrig, own, rfl, htable, -⟩ := (h.object key).table d hget
    obtain ⟨opsOrig', mem, hupdate, hops, hpointer, htable', hunmasked, hlast⟩ :=
      h.updateData hget
    have hget' := DataMap.get_setData hget (.replacePointer opsOrig' own)
    have hkey := hget' key
    rw [if_pos rfl] at hkey
    have hloaded := h.loaded.changed (@DataMap.DistinctKeys.setData _ hashPtr _ h.loaded.distinct
      key (.replacePointer opsOrig' own)) mem
    have hpointer' : mem.opsPointer key = own := by rw [hpointer, Function.update_self]
    refine ⟨0, _, h.loaded.exec_update hget hupdate alloc allocElem, ?_, fun _ => ?_⟩
    · refine h.of_key key hloaded (fun key' hne => (hget' key').trans (if_neg hne)) ?_
        (fun _ _ => rfl) ?_ ?_ (.of_replaced hkey hpointer' htable' hlast) ?_
      · intro key' hne
        simp only [changed, hpointer, Function.update_of_ne hne]
      · exact fun a ha => hops a fun heq => htable.not_mem (heq ▸ ha)
      · intro key' hne orig own' hd'
        refine hops own' fun heq => hne ?_
        exact h.injective key' key orig opsOrig own (heq ▸ hd') hget
      · intro orig own' hd key' hne orig' hd'
        cases hkey.symm.trans hd
        exact hne (h.injective key' key _ _ own hd' hget)
    · exact ReplacePointer.replaces hloaded h.loaded.type hkey hpointer' htable'.masked hunmasked
        fun op v hv => (hlast op v hv).2

theorem ReplacePointer.restore (key : Pointer) :
    ∃ result s', s.exec hashPtr (.restore key) = some (result, s') ∧
      s'.ReplacePointer hashPtr outside data ∧
      (s.replacer.dataMap.get hashPtr key ≠ none → result = 0 ∧ Restores hashPtr s s' key) := by
  cases hget : s.replacer.dataMap.get hashPtr key with
  | none => exact ⟨1, s, h.loaded.exec_restore_of_none hget, h, fun hne => absurd rfl hne⟩
  | some d =>
    obtain ⟨opsOrig, own, rfl, htable, -⟩ := (h.object key).table d hget
    have hlast := (h.object key).last opsOrig own hget
    have hdelete := @DataMap.get_delete _ hashPtr _ h.loaded.distinct key
    have hkey := (hdelete key).trans (if_pos rfl)
    have hother := fun key' hne => (hdelete key').trans (if_neg hne)
    obtain ⟨pointer, hrestore, hpointer, hlast'⟩ : ∃ pointer : Pointer → Pointer,
        operationRestoreData s.mem (.replacePointer opsOrig own) key data.opsReplTotal
          data.opsMaskTotal = some { s.mem with opsPointer := pointer } ∧
        (∀ key', key' ≠ key → pointer key' = s.mem.opsPointer key') ∧
        ∀ op v, s.last key op = some v →
          pointer key ∈ outside ∧ s.mem.ops (pointer key) op = v := by
      by_cases hown : s.mem.opsPointer key = own
      · refine ⟨Function.update s.mem.opsPointer key opsOrig, ?_,
          fun key' hne => Function.update_of_ne hne _ _, fun op v hv => ?_⟩
        · rw [operationRestoreData, if_pos hown]
        · rw [Function.update_self]
          obtain ⟨ops, hmem, hop, ⟨-, rfl⟩ | ⟨hne, -⟩⟩ := hlast op v hv
          · exact ⟨hmem, hop⟩
          · exact absurd hown hne
      · refine ⟨s.mem.opsPointer, ?_, fun _ _ => rfl, fun op v hv => ?_⟩
        · rw [operationRestoreData, if_neg hown]
        · obtain ⟨ops, hmem, hop, ⟨heq, -⟩ | ⟨-, rfl⟩⟩ := hlast op v hv
          · exact absurd heq hown
          · exact ⟨hmem, hop⟩
    refine ⟨0, _, h.loaded.exec_restore hget hrestore, ?_, fun _ => ⟨rfl, hkey, hother, ?_⟩⟩
    · refine h.of_key key (h.loaded.changed (h.loaded.distinct.delete key) _) hother hpointer
        (fun _ _ => rfl) (fun _ _ => rfl) (fun _ _ _ _ _ => rfl) (.of_none hkey hlast') ?_
      intro opsOrig' own' hd
      cases hkey.symm.trans hd
    · intro op v hv
      simp only [OperationReplacer.operationOf, changed, h.loaded.type]
      exact (hlast' op v hv).2

theorem ReplacePointer.clean (key : Pointer) :
    ∃ result s', s.exec hashPtr (.clean key) = some (result, s') ∧
      s'.ReplacePointer hashPtr outside data := by
  cases hget : s.replacer.dataMap.get hashPtr key with
  | none => exact ⟨1, s, h.loaded.exec_clean_of_none hget, h⟩
  | some d =>
    obtain ⟨opsOrig, own, rfl, htable, -⟩ := (h.object key).table d hget
    have hdelete := @DataMap.get_delete _ hashPtr _ h.loaded.distinct key
    have hkey := (hdelete key).trans (if_pos rfl)
    refine ⟨0, _, h.loaded.exec_clean hget, ?_⟩
    refine h.of_key key ⟨h.loaded.nUses, h.loaded.data, h.loaded.type,
      h.loaded.distinct.delete key⟩ (fun key' hne => (hdelete key').trans (if_neg hne))
      (fun _ _ => rfl) (fun key' hne => Function.update_of_ne hne _ _) (fun _ _ => rfl)
      (fun _ _ _ _ _ => rfl) (.of_none hkey ?_) ?_
    · intro op v hv
      simp only [cleaned, Function.update_self] at hv
      split_ifs at hv with hreplaced
      have hne : s.mem.opsPointer key ≠ own := by
        rintro heq
        exact hreplaced (by simp [isReplaced, hget, heq])
      obtain ⟨ops, hmem, hop, ⟨heq, -⟩ | ⟨-, rfl⟩⟩ :=
        (h.object key).last opsOrig own hget op v hv
      · exact absurd heq hne
      · exact ⟨hmem, hop⟩
    · intro opsOrig' own' hd
      cases hkey.symm.trans hd

theorem ReplacePointer.writePointer (key : Pointer) {ops : Pointer}
    (hops : ops ∈ outside) :
    ReplacePointer hashPtr outside data { s with
      mem := { s.mem with opsPointer := Function.update s.mem.opsPointer key ops }
      last := Function.update s.last key fun op => some (s.mem.ops ops op) } := by
  refine h.of_key key ⟨h.loaded.nUses, h.loaded.data, h.loaded.type, h.loaded.distinct⟩
    (fun _ _ => rfl) (fun key' hne => Function.update_of_ne hne _ _)
    (fun key' hne => Function.update_of_ne hne _ _) (fun _ _ => rfl) (fun _ _ _ _ _ => rfl)
    ⟨fun d hd => ?_, fun hnone op v hv => ?_, fun opsOrig own hd op v hv => ?_⟩ ?_
  · obtain ⟨opsOrig, own, rfl, htable, -⟩ := (h.object key).table d hd
    refine ⟨opsOrig, own, rfl, ⟨htable.not_mem, htable.masked, htable.replaced⟩, fun _ => ?_⟩
    simpa using hops
  · simp only [Function.update_self] at hv ⊢
    exact ⟨hops, Option.some.inj hv⟩
  · obtain ⟨opsOrig', own', heq, htable, -⟩ := (h.object key).table _ hd
    cases heq
    simp only [Function.update_self] at hv ⊢
    exact ⟨ops, hops, Option.some.inj hv,
      Or.inr ⟨fun heq => htable.not_mem (heq ▸ hops), rfl⟩⟩
  · intro opsOrig own hd key' hne opsOrig' hd'
    exact hne (h.injective key' key _ _ own hd' hd)

end

end ReplacePointer

end Objects

end Replacer
end KedrAux
