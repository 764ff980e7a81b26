import KedrAux.Replacer.ReplacedObjects

/-!
# Operations that are replaced at place

What each access gives for objects that have their operations in place.  The operations
that are not replacements were set from outside; for the others, the replacer keeps what was
set from outside.  A step changes what is known about one object only.
-/

namespace KedrAux
namespace Replacer

open ErrorCodes

variable {n : Nat}

def OperationReplacerData.replaced (data : OperationReplacerData n) (ops : Ops n) : Ops n :=
  fun op => if data.opsMaskTotal op ≠ 0 then data.opsReplTotal op else ops op

/-- The operations that are not replacements, with those of a table for the others. -/
def OperationReplacerData.restored (data : OperationReplacerData n) (opsOrig ops : Ops n) : Ops n :=
  fun op => if data.opsMaskTotal op ≠ 0 ∧ ops op = data.opsReplTotal op then opsOrig op else ops op

theorem OperationReplacerData.restored_replaced (data : OperationReplacerData n) (ops : Ops n) :
    data.restored ops (data.replaced ops) = ops := by
  funext op
  by_cases hmask : data.opsMaskTotal op = 0
  · simp [restored, replaced, hmask]
  · simp [restored, replaced, hmask]

section Data

variable (mem : Memory n) (key : Pointer) (data : OperationReplacerData n)

theorem operationReplaceReplacePointer_eq (own : Pointer) :
    operationReplaceReplacePointer mem own key data.opsReplTotal data.opsMaskTotal =
      some (.replacePointer (mem.opsPointer key) own,
        ⟨Function.update mem.ops own (data.replaced (mem.ops (mem.opsPointer key))),
          Function.update mem.opsPointer key own⟩) := by
  rw [operationReplaceReplacePointer, replaceOps_eq]
  rfl

theorem operationReplaceAtPlace_eq :
    operationReplaceAtPlace mem key data.opsReplTotal data.opsMaskTotal =
      some (.atPlace key (mem.ops key),
        { mem with ops := Function.update mem.ops key (data.replaced (mem.ops key)) }) := by
  rw [operationReplaceAtPlace, replaceOps_eq]
  rfl

theorem foldlM_restore
    (repl opsOrig : Ops n) {ops : List (Fin n)} (hnodup : ops.Nodup) (current : Ops n) :
    ops.foldlM (fun current op =>
        if current op ≠ repl op then some current
        else some (Function.update current op (opsOrig op))) current =
      some fun op => if op ∈ ops ∧ current op = repl op then opsOrig op else current op := by
  induction ops generalizing current with
  | nil => simp
  | cons op ops ih =>
    rw [List.nodup_cons] at hnodup
    rw [List.foldlM_cons]
    by_cases hrepl : current op = repl op
    · rw [if_neg (not_not.mpr hrepl), Option.bind_eq_bind, Option.bind_some, ih hnodup.2]
      congr 1
      funext op'
      by_cases heq : op' = op
      · subst heq
        simp [hnodup.1, hrepl]
      · simp [heq]
    · rw [if_pos hrepl, Option.bind_eq_bind, Option.bind_some, ih hnodup.2]
      congr 1
      funext op'
      by_cases heq : op' = op
      · subst heq
        simp [hrepl]
      · simp [heq]

theorem operationRestoreData_atPlace_eq (opsOrig : Ops n) :
    operationRestoreData mem (.atPlace key opsOrig) key data.opsReplTotal data.opsMaskTotal =
      some { mem with
        ops := Function.update mem.ops key (data.restored opsOrig (mem.ops key)) } := by
  rw [operationRestoreData, forEachOperationInMask_eq,
    foldlM_restore _ _ ((List.nodup_finRange n).filter _), Option.map_some]
  simp only [mem_filter_masks]
  rfl

end Data

namespace Objects

variable {hashPtr : Pointer → Nat → Nat} {outside : Set Pointer} {data : OperationReplacerData n}
variable {s s' : Objects n}

structure Loaded (data : OperationReplacerData n) (type : OperationReplacerType) (s : Objects n) :
    Prop where
  nUses : s.replacer.nUses ≠ 0
  data : s.replacer.data = some data
  type : s.replacer.type = type
  distinct : s.replacer.dataMap.DistinctKeys

/-- A failed replacement: only the table that was allocated for it is changed. -/
structure Unchanged (alloc : Option Pointer) (s s' : Objects n) : Prop where
  replacer : s'.replacer = s.replacer
  opsPointer : s'.mem.opsPointer = s.mem.opsPointer
  ops : ∀ a, s.replacer.type = .atPlace ∨ alloc ≠ some a → s'.mem.ops a = s.mem.ops a

structure Replaces (hashPtr : Pointer → Nat → Nat) (data : OperationReplacerData n)
    (s s' : Objects n) (key : Pointer) : Prop where
  operationOf : ∀ op, s'.replacer.operationOf s'.mem key op =
    if data.opsMaskTotal op ≠ 0 then data.opsReplTotal op else s.replacer.operationOf s.mem key op
  getOrig : ∀ op, data.opsMaskTotal op ≠ 0 → ∀ v, s.last key op = some v →
    operationGetOrig hashPtr s'.replacer s'.mem op key = some v

structure Restores (hashPtr : Pointer → Nat → Nat) (s s' : Objects n) (key : Pointer) : Prop where
  get : s'.replacer.dataMap.get hashPtr key = none
  get_of_ne : ∀ key', key' ≠ key →
    s'.replacer.dataMap.get hashPtr key' = s.replacer.dataMap.get hashPtr key'
  operationOf : ∀ op v, s.last key op = some v → s'.replacer.operationOf s'.mem key op = v

/-- What the accesses give, when an invariant is to be kept. -/
structure Accesses (hashPtr : Pointer → Nat → Nat) (outside : Set Pointer)
    (data : OperationReplacerData n) (Inv : Objects n → Prop) (s : Objects n) : Prop where
  replace : ∀ key alloc allocElem,
    s.Allowed hashPtr outside data (.replace key alloc allocElem) → ∃ result s',
      s.exec hashPtr (.replace key alloc allocElem) = some (result, s') ∧ Inv s' ∧
      ((result ≠ 0 ∧ Unchanged alloc s s') ∨
        (result = 0 ∧ s.replacer.dataMap.get hashPtr key = none ∧ Replaces hashPtr data s s' key))
  update : ∀ key alloc allocElem,
    s.Allowed hashPtr outside data (.update key alloc allocElem) → ∃ result s',
      s.exec hashPtr (.update key alloc allocElem) = some (result, s') ∧ Inv s' ∧
      (result = 0 → Replaces hashPtr data s s' key)
  restore : ∀ key, ∃ result s', s.exec hashPtr (.restore key) = some (result, s') ∧ Inv s' ∧
    (s.replacer.dataMap.get hashPtr key ≠ none → result = 0 ∧ Restores hashPtr s s' key)
  clean : ∀ key, ∃ result s', s.exec hashPtr (.clean key) = some (result, s') ∧ Inv s'
  write : ∀ access, s.Allowed hashPtr outside data access →
    (∃ key ops, access = .writePointer key ops) ∨ (∃ key op f, access = .writeOp key op f) →
    ∃ result s', s.exec hashPtr access = some (result, s') ∧ Inv s'

section Calls

variable {type : OperationReplacerType} {key : Pointer} {d : OperationData n}

def changed (s : Objects n) (dataMap : DataMap (OperationData n)) (mem : Memory n) : Objects n :=
  { s with replacer := { s.replacer with dataMap := dataMap }, mem := mem }

def cleaned (hashPtr : Pointer → Nat → Nat) (s : Objects n) (key : Pointer) : Objects n :=
  { s.changed (s.replacer.dataMap.delete hashPtr key).2 s.mem with
    last := Function.update s.last key fun op =>
      if s.isReplaced hashPtr key op then none else s.last key op }

theorem Loaded.changed
    (h : s.Loaded data type) {dataMap : DataMap (OperationData n)} (hdistinct : dataMap.DistinctKeys)
    (mem : Memory n) : (s.changed dataMap mem).Loaded data type :=
  ⟨h.nUses, h.data, h.type, hdistinct⟩

theorem Loaded.exec_update_of_none
    (h : s.Loaded data type) (hget : s.replacer.dataMap.get hashPtr key = none)
    (alloc : Option Pointer) (allocElem : Bool) :
    s.exec hashPtr (.update key alloc allocElem) =
      s.exec hashPtr (.replace key alloc allocElem) := by
  simp only [exec, operationReplacementUpdate, if_neg h.nUses, h.data, hget]

variable {mem : Memory n}

section

variable (h : s.Loaded data type)
include h

theorem Loaded.exec_update
    (hget : s.replacer.dataMap.get hashPtr key = some d) {d' : OperationData n}
    (hupdate : operationReplacementUpdateData s.mem d key data.opsReplTotal data.opsMaskTotal =
      some (d', mem)) (alloc : Option Pointer) (allocElem : Bool) :
    s.exec hashPtr (.update key alloc allocElem) =
      some (0, s.changed (s.replacer.dataMap.setData hashPtr key d') mem) := by
  simp [exec, operationReplacementUpdate, h.nUses, h.data, hget, hupdate, Objects.changed]

theorem Loaded.exec_restore_of_none (hget : s.replacer.dataMap.get hashPtr key = none) :
    s.exec hashPtr (.restore key) = some (1, s) := by
  simp [exec, operationRestore, h.nUses, h.data, hget]

theorem Loaded.exec_restore
    (hget : s.replacer.dataMap.get hashPtr key = some d)
    (hrestore : operationRestoreData s.mem d key data.opsReplTotal data.opsMaskTotal = some mem) :
    s.exec hashPtr (.restore key) =
      some (0, s.changed (s.replacer.dataMap.delete hashPtr key).2 mem) := by
  simp [exec, operationRestore, h.nUses, h.data, hget, hrestore, Objects.changed]

theorem Loaded.exec_clean_of_none (hget : s.replacer.dataMap.get hashPtr key = none) :
    s.exec hashPtr (.clean key) = some (1, s) := by
  have hreplaced : ∀ op, s.isReplaced hashPtr key op = false := by
    intro op
    rw [isReplaced, hget]
  simp [exec, operationReplacementClean, h.nUses, h.data, hget, hreplaced]

theorem Loaded.exec_clean (hget : s.replacer.dataMap.get hashPtr key = some d) :
    s.exec hashPtr (.clean key) = some (0, s.cleaned hashPtr key) := by
  simp [exec, operationReplacementClean, h.nUses, h.data, hget, cleaned, Objects.changed]

end

theorem Accesses.mono {Inv Inv' : Objects n → Prop} (h : Accesses hashPtr outside data Inv s)
    (himp : ∀ {s'}, Inv s' → Inv' s') : Accesses hashPtr outside data Inv' s := by
  refine ⟨fun key alloc allocElem hallowed => ?_, fun key alloc allocElem hallowed => ?_,
    fun key => ?_, fun key => ?_, fun access hallowed hwrite => ?_⟩
  · obtain ⟨result, s', hexec, hinv, hcases⟩ := h.replace key alloc allocElem hallowed
    exact ⟨result, s', hexec, himp hinv, hcases⟩
  · obtain ⟨result, s', hexec, hinv, hreplaces⟩ := h.update key alloc allocElem hallowed
    exact ⟨result, s', hexec, himp hinv, hreplaces⟩
  · obtain ⟨result, s', hexec, hinv, hrestores⟩ := h.restore key
    exact ⟨result, s', hexec, himp hinv, hrestores⟩
  · obtain ⟨result, s', hexec, hinv⟩ := h.clean key
    exact ⟨result, s', hexec, himp hinv⟩
  · obtain ⟨result, s', hexec, hinv⟩ := h.write access hallowed hwrite
    exact ⟨result, s', hexec, himp hinv⟩

end Calls

section AtPlace

/-- What the replacer has for an operation of an object, or the operation itself. -/
structure PlaceInvariant (hashPtr : Pointer → Nat → Nat) (data : OperationReplacerData n)
    (s : Objects n) (key : Pointer) : Prop where
  atPlace : ∀ d, s.replacer.dataMap.get hashPtr key = some d → ∃ opsOrig, d = .atPlace key opsOrig
  last_of_none : s.replacer.dataMap.get hashPtr key = none →
    ∀ op v, s.last key op = some v → s.mem.ops key op = v
  last : ∀ opsOrig, s.replacer.dataMap.get hashPtr key = some (.atPlace key opsOrig) →
    ∀ op v, s.last key op = some v → data.restored opsOrig (s.mem.ops key) op = v

variable {key : Pointer}

theorem PlaceInvariant.frame (h : s.PlaceInvariant hashPtr data key)
    (hget : s'.replacer.dataMap.get hashPtr key = s.replacer.dataMap.get hashPtr key)
    (hops : s'.mem.ops key = s.mem.ops key) (hlast : s'.last key = s.last key) :
    s'.PlaceInvariant hashPtr data key := by
  constructor
  · rw [hget]
    exact h.atPlace
  · rw [hget, hops, hlast]
    exact h.last_of_none
  · rw [hget, hops, hlast]
    exact h.last

theorem PlaceInvariant.of_replaced {ops : Ops n}
    (hget : s'.replacer.dataMap.get hashPtr key = some (.atPlace key ops))
    (hops : s'.mem.ops key = data.replaced ops)
    (hlast : ∀ op v, s'.last key op = some v → ops op = v) :
    s'.PlaceInvariant hashPtr data key := by
  constructor
  · intro d hd
    rw [hget] at hd
    cases hd
    exact ⟨ops, rfl⟩
  · intro hnone
    rw [hget] at hnone
    cases hnone
  · intro opsOrig hd op v hv
    rw [hget] at hd
    cases hd
    rw [hops, data.restored_replaced]
    exact hlast op v hv

theorem PlaceInvariant.of_none (hget : s'.replacer.dataMap.get hashPtr key = none)
    (hlast : ∀ op v, s'.last key op = some v → s'.mem.ops key op = v) :
    s'.PlaceInvariant hashPtr data key := by
  constructor
  · intro d hd
    rw [hget] at hd
    cases hd
  · exact fun _ => hlast
  · intro opsOrig hd
    rw [hget] at hd
    cases hd

/-- A failed replacement changes nothing. -/
theorem operationReplace_atPlace_cases
    (h : s.Loaded data .atPlace) (alloc : Option Pointer) (allocElem : Bool) (key : Pointer) :
    (∃ result, result ≠ 0 ∧ operationReplace hashPtr s.replacer s.mem alloc allocElem key =
      some (result, s.replacer, s.mem)) ∨
    (s.replacer.dataMap.get hashPtr key = none ∧
      ∃ dataMap : DataMap (OperationData n),
        operationReplace hashPtr s.replacer s.mem alloc allocElem key =
          some (0, { s.replacer with dataMap := dataMap },
            { s.mem with ops := Function.update s.mem.ops key (data.replaced (s.mem.ops key)) }) ∧
        dataMap.DistinctKeys ∧
        ∀ key', dataMap.get hashPtr key' = if key' = key then some (.atPlace key (s.mem.ops key))
          else s.replacer.dataMap.get hashPtr key') := by
  cases alloc with
  | none =>
    have hne : -ENOMEM ≠ 0 := by decide
    exact Or.inl ⟨-ENOMEM, hne, by simp [operationReplace, h.nUses, h.data]⟩
  | some own =>
    rcases @DataMap.add_cases _ hashPtr s.replacer.dataMap allocElem key
      (.atPlace key (s.mem.ops key)) with ⟨hadd, -⟩ | ⟨hadd, hnone, hget⟩
    · -- the operations are set again as they were before
      refine Or.inl ⟨_, hadd, ?_⟩
      simp [operationReplace, h.nUses, h.data, h.type, operationReplaceAtPlace_eq, hadd,
        operationRestoreData_atPlace_eq, data.restored_replaced]
    · refine Or.inr ⟨hnone, _, ?_, h.distinct.add allocElem key _, hget⟩
      simp [operationReplace, h.nUses, h.data, h.type, operationReplaceAtPlace_eq, hadd]

structure AtPlace (hashPtr : Pointer → Nat → Nat) (data : OperationReplacerData n)
    (s : Objects n) : Prop where
  loaded : s.Loaded data .atPlace
  object : ∀ key, s.PlaceInvariant hashPtr data key

theorem AtPlace.of_key
    (h : s.AtPlace hashPtr data) (key : Pointer) (hloaded : s'.Loaded data .atPlace)
    (hget : ∀ key', key' ≠ key →
      s'.replacer.dataMap.get hashPtr key' = s.replacer.dataMap.get hashPtr key')
    (hops : ∀ key', key' ≠ key → s'.mem.ops key' = s.mem.ops key')
    (hlast : ∀ key', key' ≠ key → s'.last key' = s.last key')
    (hkey : s'.PlaceInvariant hashPtr data key) :
    s'.AtPlace hashPtr data := by
  refine ⟨hloaded, fun key' => ?_⟩
  by_cases heq : key' = key
  · exact heq ▸ hkey
  · exact (h.object key').frame (hget key' heq) (hops key' heq) (hlast key' heq)

theorem AtPlace.replaces (hloaded : s'.Loaded data .atPlace) {ops : Ops n}
    (htype : s.replacer.type = .atPlace)
    (hget : s'.replacer.dataMap.get hashPtr key = some (.atPlace key ops))
    (hops : s'.mem.ops key = data.replaced ops)
    (hlast : ∀ op v, s.last key op = some v → ops op = v)
    (hunmasked : ∀ op, data.opsMaskTotal op = 0 → ops op = s.mem.ops key op) :
    Replaces hashPtr data s s' key := by
  constructor
  · intro op
    rw [OperationReplacer.operationOf, OperationReplacer.operationOf, hloaded.type, htype]
    simp only [hops, OperationReplacerData.replaced]
    split_ifs with hmask
    · rfl
    · exact hunmasked op (not_not.mp hmask)
  · intro op hmask v hv
    rw [← hlast op v hv]
    simp [operationGetOrig, hloaded.nUses, hloaded.data, hmask, hget]

section

variable (h : s.AtPlace hashPtr data)
include h

theorem AtPlace.replace (key : Pointer) (alloc : Option Pointer) (allocElem : Bool) :
    ∃ result s', s.exec hashPtr (.replace key alloc allocElem) = some (result, s') ∧
      s'.AtPlace hashPtr data ∧ ((result ≠ 0 ∧ Unchanged alloc s s') ∨
        (result = 0 ∧ s.replacer.dataMap.get hashPtr key = none ∧
          Replaces hashPtr data s s' key)) := by
  rcases @operationReplace_atPlace_cases n hashPtr data s h.loaded alloc allocElem key with
    ⟨result, hne, hreplace⟩ | ⟨hnone, dataMap, hreplace, hdistinct, hget⟩
  · refine ⟨result, s, ?_, h, Or.inl ⟨hne, rfl, rfl, fun _ _ => rfl⟩⟩
    simp [exec, hreplace]
  · have hlast := (h.object key).last_of_none hnone
    have hget' := hget key
    rw [if_pos rfl] at hget'
    have hexec : s.exec hashPtr (.replace key alloc allocElem) = some (0, s.changed dataMap
        { s.mem with ops := Function.update s.mem.ops key (data.replaced (s.mem.ops key)) }) := by
      simp [exec, hreplace, changed]
    refine ⟨0, _, hexec, ?_, Or.inr ⟨rfl, hnone, ?_⟩⟩
    · refine h.of_key key (h.loaded.changed hdistinct _)
        (fun key' hne => (hget key').trans (if_neg hne))
        (fun key' hne => Function.update_of_ne hne _ _) (fun _ _ => rfl) ?_
      exact .of_replaced hget' (Function.update_self _ _ _) hlast
    · exact AtPlace.replaces (h.loaded.changed hdistinct _) h.loaded.type hget'
        (Function.update_self _ _ _) hlast fun _ _ => rfl

theorem AtPlace.update (key : Pointer) (alloc : Option Pointer) (allocElem : Bool) :
    ∃ result s', s.exec hashPtr (.update key alloc allocElem) = some (result, s') ∧
      s'.AtPlace hashPtr data ∧ (result = 0 → Replaces hashPtr data s s' key) := by
  cases hget : s.replacer.dataMap.get hashPtr key with
  | none =>
    obtain ⟨result, s', hreplace, hinv, hcases⟩ := h.replace key alloc allocElem
    refine ⟨result, s', (h.loaded.exec_update_of_none hget alloc allocElem).trans hreplace, hinv,
      fun hzero => ?_⟩
    exact hcases.elim (fun hfail => absurd hzero hfail.1) fun hok => hok.2.2
  | some d =>
    obtain ⟨opsOrig, rfl⟩ := (h.object key).atPlace d hget
    -- the operations after they are restored are kept as original
    obtain ⟨ops, hops⟩ : ∃ ops, data.restored opsOrig (s.mem.ops key) = ops := ⟨_, rfl⟩
    have hlast := (h.object key).last opsOrig hget
    rw [hops] at hlast
    have hget' := DataMap.get_setData hget (.atPlace key ops)
    have hkey := hget' key
    rw [if_pos rfl] at hkey
    have hupdate : operationReplacementUpdateData s.mem (.atPlace key opsOrig) key
        data.opsReplTotal data.opsMaskTotal = some (.atPlace key ops,
          { s.mem with ops := Function.update s.mem.ops key (data.replaced ops) }) := by
      simp only [operationReplacementUpdateData, operationRestoreData_atPlace_eq,
        Option.bind_eq_bind, Option.bind_some, operationReplaceAtPlace_eq, Function.update_self,
        hops, Function.update_idem]
    have hloaded := h.loaded.changed (@DataMap.DistinctKeys.setData _ hashPtr _ h.loaded.distinct key
      (.atPlace key ops))
    refine ⟨0, _, h.loaded.exec_update hget hupdate alloc allocElem, ?_, fun _ => ?_⟩
    · refine h.of_key key (hloaded _) (fun key' hne => (hget' key').trans (if_neg hne))
        (fun key' hne => Function.update_of_ne hne _ _) (fun _ _ => rfl) ?_
      exact .of_replaced hkey (Function.update_self _ _ _) hlast
    · refine AtPlace.replaces (hloaded _) h.loaded.type hkey (Function.update_self _ _ _) hlast
        fun op hmask => ?_
      rw [← hops, OperationReplacerData.restored, if_neg fun hand => hand.1 hmask]

theorem AtPlace.restore (key : Pointer) :
    ∃ result s', s.exec hashPtr (.restore key) = some (result, s') ∧ s'.AtPlace hashPtr data ∧
      (s.replacer.dataMap.get hashPtr key ≠ none → result = 0 ∧ Restores hashPtr s s' key) := by
  cases hget : s.replacer.dataMap.get hashPtr key with
  | none => exact ⟨1, s, h.loaded.exec_restore_of_none hget, h, fun hne => absurd rfl hne⟩
  | some d =>
    obtain ⟨opsOrig, rfl⟩ := (h.object key).atPlace d hget
    have hlast := (h.object key).last opsOrig hget
    have hdelete := @DataMap.get_delete _ hashPtr _ h.loaded.distinct key
    have hkey := (hdelete key).trans (if_pos rfl)
    have hother := fun key' hne => (hdelete key').trans (if_neg hne)
    refine ⟨0, _, h.loaded.exec_restore hget (operationRestoreData_atPlace_eq _ _ _ _), ?_,
      fun _ => ⟨rfl, hkey, hother, ?_⟩⟩
    · refine h.of_key key (h.loaded.changed (h.loaded.distinct.delete key) _) hother
        (fun key' hne => Function.update_of_ne hne _ _) (fun _ _ => rfl) (.of_none hkey ?_)
      intro op v hv
      rw [← hlast op v hv]
      simp [Objects.changed]
    · intro op v hv
      rw [← hlast op v hv]
      simp [OperationReplacer.operationOf, Objects.changed, h.loaded.type]

theorem AtPlace.clean (key : Pointer) :
    ∃ result s', s.exec hashPtr (.clean key) = some (result, s') ∧ s'.AtPlace hashPtr data := by
  cases hget : s.replacer.dataMap.get hashPtr key with
  | none => exact ⟨1, s, h.loaded.exec_clean_of_none hget, h⟩
  | some d =>
    obtain ⟨opsOrig, rfl⟩ := (h.object key).atPlace d hget
    have hlast := (h.object key).last opsOrig hget
    have hdelete := @DataMap.get_delete _ hashPtr _ h.loaded.distinct key
    have hkey := (hdelete key).trans (if_pos rfl)
    refine ⟨0, _, h.loaded.exec_clean hget, ?_⟩
    refine h.of_key key ⟨h.loaded.nUses, h.loaded.data, h.loaded.type,
      h.loaded.distinct.delete key⟩ (fun key' hne => (hdelete key').trans (if_neg hne))
      (fun _ _ => rfl) (fun key' hne => Function.update_of_ne hne _ _) (.of_none hkey ?_)
    intro op v hv
    simp only [cleaned, Function.update_self] at hv
    split_ifs at hv with hreplaced
    -- the operation is not a replacement, so it was set from outside
    rw [← hlast op v hv, OperationReplacerData.restored, if_neg]
    · rfl
    rintro ⟨hmask, hrepl⟩
    exact hreplaced (by simp [isReplaced, hget, h.loaded.data, Ops.masks, hmask, hrepl])

theorem AtPlace.writeOp (key : Pointer) (op : Fin n) (f : Pointer)
    (hf : data.opsMaskTotal op ≠ 0 → f ≠ data.opsReplTotal op) :
    AtPlace hashPtr data { s with
      mem := { s.mem with
        ops := Function.update s.mem.ops key (Function.update (s.mem.ops key) op f) }
      last := Function.update s.last key (Function.update (s.last key) op (some f)) } := by
  refine h.of_key key ⟨h.loaded.nUses, h.loaded.data, h.loaded.type, h.loaded.distinct⟩
    (fun _ _ => rfl) (fun key' hne => Function.update_of_ne hne _ _)
    (fun key' hne => Function.update_of_ne hne _ _) ⟨(h.object key).atPlace, ?_, ?_⟩
  · intro hnone op' v hv
    simp only [Function.update_self] at hv ⊢
    by_cases heq : op' = op
    · subst heq
      rw [Function.update_self] at hv ⊢
      exact Option.some.inj hv
    · rw [Function.update_of_ne heq] at hv ⊢
      exact (h.object key).last_of_none hnone op' v hv
  · intro opsOrig hget op' v hv
    simp only [Function.update_self] at hv ⊢
    rw [OperationReplacerData.restored]
    by_cases heq : op' = op
    · subst heq
      rw [Function.update_self] at hv ⊢
      rw [if_neg fun hand => hf hand.1 hand.2]
      exact Option.some.inj hv
    · rw [Function.update_of_ne heq] at hv ⊢
      exact (h.object key).last opsOrig hget op' v hv

end

end AtPlace

end Objects

end Replacer
end KedrAux
