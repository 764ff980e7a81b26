import KedrAux.Replacer.ReplacementChain

/-!
# Replacement of the operations of objects

The functions of the operation replacer that are called for objects while a target is
loaded (`operation_replacer.c`), and runs of them in which the operations of the objects are
also set from outside.  With the objects, a run keeps the operations that were last set from
outside.
-/

namespace KedrAux
namespace Replacer

open ErrorCodes

variable {n : Nat}

section Functions

variable (hashPtr : Pointer → Nat → Nat)

def operationReplacementUpdateData (mem : Memory n) (data : OperationData n) (key : Pointer)
    (repl mask : Ops n) : Option (OperationData n × Memory n) :=
  match data with
  | .replacePointer opsOrig ops =>
    -- Operations are up-to-date
    if mem.opsPointer key = ops then some (data, mem)
    -- Someone set operations to those that was before our replacement.
    else if mem.opsPointer key = opsOrig then
      some (data, { mem with opsPointer := Function.update mem.opsPointer key ops })
    else operationReplaceReplacePointer mem ops key repl mask
  | .atPlace _ _ => do
      let mem ← operationRestoreData mem data key repl mask
      operationReplaceAtPlace mem key repl mask

def operationRestore (replacer : OperationReplacer n) (mem : Memory n) (key : Pointer) :
    Option (Int × OperationReplacer n × Memory n) :=
  if replacer.nUses = 0 then none
  else
    match replacer.data with
    | none => some (0, replacer, mem)
    | some replacerData =>
      match replacer.dataMap.get hashPtr key with
      | none => some (1, replacer, mem)
      | some data => do
          let mem ← operationRestoreData mem data key replacerData.opsReplTotal
            replacerData.opsMaskTotal
          return (0, { replacer with dataMap := (replacer.dataMap.delete hashPtr key).2 }, mem)

def operationReplacementClean (replacer : OperationReplacer n) (key : Pointer) :
    Option (Int × OperationReplacer n) :=
  if replacer.nUses = 0 then none
  else
    match replacer.data with
    | none => some (0, replacer)
    | some _ =>
      match replacer.dataMap.get hashPtr key with
      | none => some (1, replacer)
      | some _ =>
        -- without restoring the operations
        some (0, { replacer with dataMap := (replacer.dataMap.delete hashPtr key).2 })

def operationReplacementUpdate (replacer : OperationReplacer n) (mem : Memory n)
    (alloc : Option Pointer) (allocElem : Bool) (key : Pointer) :
    Option (Int × OperationReplacer n × Memory n) :=
  if replacer.nUses = 0 then none
  else
    match replacer.data with
    | none => some (-ENOMEM, replacer, mem)
    | some replacerData =>
      match replacer.dataMap.get hashPtr key with
      | none => operationReplace hashPtr replacer mem alloc allocElem key
      | some data => do
          let (data, mem) ← operationReplacementUpdateData mem data key
            replacerData.opsReplTotal replacerData.opsMaskTotal
          return (0,
            { replacer with dataMap := replacer.dataMap.setData hashPtr key data }, mem)

end Functions

/-- Objects with their replacer, and the operations that are known to be set from outside. -/
structure Objects (n : Nat) where
  replacer : OperationReplacer n
  mem : Memory n
  last : Pointer → Fin n → Option Pointer

/-- Calls of the replacer for an object, and writes to an object from outside. -/
inductive Access (n : Nat) where
  | replace (key : Pointer) (alloc : Option Pointer) (allocElem : Bool)
  | update (key : Pointer) (alloc : Option Pointer) (allocElem : Bool)
  | restore (key : Pointer)
  | clean (key : Pointer)
  | writePointer (key ops : Pointer)
  | writeOp (key : Pointer) (op : Fin n) (f : Pointer)

namespace Objects

variable (hashPtr : Pointer → Nat → Nat)

def isReplaced (s : Objects n) (key : Pointer) (op : Fin n) : Bool :=
  match s.replacer.dataMap.get hashPtr key with
  | none => false
  | some (.replacePointer _ ops) => s.mem.opsPointer key = ops
  | some (.atPlace ops _) =>
    s.replacer.data.any fun data =>
      data.opsMaskTotal.masks op && s.mem.ops ops op == data.opsReplTotal op

/--
The result and the objects after an access.  When the data for an object is cleaned, the
operations that were set by the replacer are left in it: nothing is known to be set from
outside.
-/
def exec (s : Objects n) : Access n → Option (Int × Objects n)
  | .replace key alloc allocElem => do
      let (result, replacer, mem) ←
        operationReplace hashPtr s.replacer s.mem alloc allocElem key
      return (result, { s with replacer := replacer, mem := mem })
  | .update key alloc allocElem => do
      let (result, replacer, mem) ←
        operationReplacementUpdate hashPtr s.replacer s.mem alloc allocElem key
      return (result, { s with replacer := replacer, mem := mem })
  | .restore key => do
      let (result, replacer, mem) ← operationRestore hashPtr s.replacer s.mem key
      return (result, { s with replacer := replacer, mem := mem })
  | .clean key => do
      let (result, replacer) ← operationReplacementClean hashPtr s.replacer key
      return (result, { s with
        replacer := replacer
        last := Function.update s.last key fun op =>
          if s.isReplaced hashPtr key op then none else s.last key op })
  | .writePointer key ops =>
    some (0, { s with
      mem := { s.mem with opsPointer := Function.update s.mem.opsPointer key ops }
      last := Function.update s.last key fun op => some (s.mem.ops ops op) })
  | .writeOp key op f =>
    some (0, { s with
      mem := { s.mem with
        ops := Function.update s.mem.ops key (Function.update (s.mem.ops key) op f) }
      last := Function.update s.last key (Function.update (s.last key) op (some f)) })

variable (outside : Set Pointer) (data : OperationReplacerData n)

/-- `kmalloc` returns no address that is used outside, or for the table of an object. -/
def Fresh (s : Objects n) (own : Pointer) : Prop :=
  own ∉ outside ∧
    ∀ key opsOrig, s.replacer.dataMap.get hashPtr key ≠ some (.replacePointer opsOrig own)

/--
Pointers to operations are set from outside to structures outside, and operations in place
are not set to their replacements.
-/
def Allowed (s : Objects n) : Access n → Prop
  | .replace _ alloc _ => s.replacer.type = .replacePointer →
      ∀ own, alloc = some own → s.Fresh hashPtr outside own
  | .update _ alloc _ => s.replacer.type = .replacePointer →
      ∀ own, alloc = some own → s.Fresh hashPtr outside own
  | .restore _ => True
  | .clean _ => True
  | .writePointer _ ops => s.replacer.type = .replacePointer ∧ ops ∈ outside
  | .writeOp _ op f =>
    s.replacer.type = .atPlace ∧ (data.opsMaskTotal op ≠ 0 → f ≠ data.opsReplTotal op)

/-- Objects before any replacement: their operations are those set from outside. -/
structure Initial (s : Objects n) : Prop where
  nUses : s.replacer.nUses ≠ 0
  data : s.replacer.data = some data
  dataMap : ∀ i, s.replacer.dataMap.hashTable i = []
  last : ∀ key op, s.last key op = some (s.replacer.operationOf s.mem key op)
  outside : s.replacer.type = .replacePointer → ∀ key, s.mem.opsPointer key ∈ outside

inductive Reachable : Objects n → Prop
  | initial {s : Objects n} (h : s.Initial outside data) : Reachable s
  | access {s s' : Objects n} {result : Int} (h : Reachable s) (access : Access n)
      (hallowed : s.Allowed hashPtr outside data access)
      (hexec : s.exec hashPtr access = some (result, s')) : Reachable s'

end Objects

end Replacer
end KedrAux
