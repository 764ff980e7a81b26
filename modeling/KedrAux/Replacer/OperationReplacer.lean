import KedrAux.Lib.SortedScan
import KedrAux.Replacer.DataMap

/-!
# The operation replacer

Replacement of the operations of objects (`operation_replacer.c`).  When a target is
loaded, the masks and the replacements of the used payloads are merged: first those of
the standard payloads, then, layer by layer, those of the special ones.  A layer keeps the
state before its own payload is merged, so that the payload can find the operation it
replaces.

An operations structure is a table of `n` pointers; operations are given by their number
in it.  The two types of replacers differ in where an object has its operations: behind a
pointer, or in place.
-/

namespace KedrAux
namespace Replacer

open ErrorCodes

variable {n : Nat}

/-- An operations structure, a mask or a table of replacements. -/
abbrev Ops (n : Nat) := Fin n → Pointer

/-- `struct operation_payload`; the fields for modules and callbacks are left out. -/
structure OperationPayload (n : Nat) where
  ptr : Pointer
  repl : Ops n
  mask : Ops n
deriving DecidableEq

def Ops.masks (mask : Ops n) (op : Fin n) : Bool :=
  mask op != 0

def firstOperationInMask (mask : Ops n) : Option (Fin n) :=
  SortedScan.first (List.finRange n) mask.masks

/-- `FOR_EACH_OPERATION_IN_MASK`; the body fails with a failed `BUG_ON`. -/
def forEachOperationInMask {S : Type} (mask : Ops n) (body : S → Fin n → Option S) (s : S) :
    Option S :=
  SortedScan.loop (List.finRange n) mask.masks body n (firstOperationInMask mask) s

structure OperationReplacerDataLayer (n : Nat) where
  payload : OperationPayload n
  opsMaskPrev : Ops n
  opsReplPrev : Ops n

/-- `struct operation_replacer_data`; the number of layers is the length of the list. -/
structure OperationReplacerData (n : Nat) where
  opsReplTotal : Ops n
  opsMaskTotal : Ops n
  layers : List (OperationReplacerDataLayer n)

/-- Tables that contain `NULL` only. -/
def OperationReplacerData.empty : OperationReplacerData n :=
  ⟨fun _ => 0, fun _ => 0, []⟩

def OperationReplacerData.setOp (payload : OperationPayload n) (data : OperationReplacerData n)
    (op : Fin n) : OperationReplacerData n :=
  { data with
    opsMaskTotal := Function.update data.opsMaskTotal op (payload.mask op)
    opsReplTotal := Function.update data.opsReplTotal op (payload.repl op) }

def addStandard (data : OperationReplacerData n) (payload : OperationPayload n) :
    Option (OperationReplacerData n) :=
  forEachOperationInMask payload.mask (fun data op =>
    -- Masks interception shouldn't occur.
    if data.opsMaskTotal op ≠ 0 then none else some (data.setOp payload op)) data

def addSpecial (data : OperationReplacerData n) (payload : OperationPayload n) :
    Option (OperationReplacerData n) :=
  let layer := ⟨payload, data.opsMaskTotal, data.opsReplTotal⟩
  forEachOperationInMask payload.mask (fun data op => some (data.setOp payload op))
    { data with layers := data.layers ++ [layer] }

inductive OperationReplacerType where
  | replacePointer
  | atPlace
deriving DecidableEq

/-- The data for one object, for each type of replacer. -/
inductive OperationData (n : Nat) where
  /-- `struct operation_data_replace_pointer`; `ops` is the address of its own table. -/
  | replacePointer (opsOrig : Pointer) (ops : Pointer)
  /-- `struct operation_data_at_place`. -/
  | atPlace (ops : Pointer) (opsOrig : Ops n)

/-- The part of `struct operation_replacer` that is used while a target is loaded. -/
structure OperationReplacer (n : Nat) where
  nUses : Nat
  type : OperationReplacerType
  payloadsUsed : List (OperationPayload n)
  payloadsSpecialUsed : List (OperationPayload n)
  data : Option (OperationReplacerData n)
  dataMap : DataMap (OperationData n)

/-- `operation_replacer_data_create`; `none` is a failed `BUG_ON`. -/
def operationReplacerDataCreate (replacer : OperationReplacer n) (alloc : Bool) :
    Option (OperationReplacer n) :=
  if !alloc then some { replacer with data := none }
  else do
    let data ← replacer.payloadsUsed.foldlM addStandard .empty
    let data ← replacer.payloadsSpecialUsed.foldlM addSpecial data
    return { replacer with data := some data }

/-- Operations structures at addresses, and the pointers to them in objects. -/
structure Memory (n : Nat) where
  ops : Pointer → Ops n
  opsPointer : Pointer → Pointer

/-- The operations with replacements, as both types of replacers make them. -/
def replaceOps (repl mask : Ops n) (ops : Ops n) : Option (Ops n) :=
  forEachOperationInMask mask (fun ops op => some (Function.update ops op (repl op))) ops

/-- `operation_replace_replace_pointer`; `own` is the address of the table in the data. -/
def operationReplaceReplacePointer (mem : Memory n) (own key : Pointer) (repl mask : Ops n) :
    Option (OperationData n × Memory n) := do
  let opsOrig := mem.opsPointer key
  let ops ← replaceOps repl mask (mem.ops opsOrig)
  return (.replacePointer opsOrig own,
    ⟨Function.update mem.ops own ops, Function.update mem.opsPointer key own⟩)

def operationReplaceAtPlace (mem : Memory n) (key : Pointer) (repl mask : Ops n) :
    Option (OperationData n × Memory n) := do
  let ops ← replaceOps repl mask (mem.ops key)
  return (.atPlace key (mem.ops key), { mem with ops := Function.update mem.ops key ops })

def operationRestoreData (mem : Memory n) (data : OperationData n) (key : Pointer)
    (repl mask : Ops n) : Option (Memory n) :=
  match data with
  | .replacePointer opsOrig ops =>
    if mem.opsPointer key = ops then
      some { mem with opsPointer := Function.update mem.opsPointer key opsOrig }
    else some mem
  | .atPlace ops opsOrig =>
    (forEachOperationInMask mask (fun current op =>
      if current op ≠ repl op then some current
      else some (Function.update current op (opsOrig op))) (mem.ops ops)).map fun current =>
        { mem with ops := Function.update mem.ops ops current }

section Objects

variable (hashPtr : Pointer → Nat → Nat)

/--
`operation_replace`: the result, the replacer and the memory, or `none` for a failed
`BUG_ON`.  The allocations are the address of the data and whether there is an element for
the map.
-/
def operationReplace (replacer : OperationReplacer n) (mem : Memory n) (alloc : Option Pointer)
    (allocElem : Bool) (key : Pointer) : Option (Int × OperationReplacer n × Memory n) :=
  if replacer.nUses = 0 then none
  else
    match replacer.data, alloc with
    | none, _ => some (-ENOMEM, replacer, mem)
    | some _, none => some (-ENOMEM, replacer, mem)
    | some replacerData, some own => do
        let repl := replacerData.opsReplTotal
        let mask := replacerData.opsMaskTotal
        let (data, mem) ←
          match replacer.type with
          | .replacePointer => operationReplaceReplacePointer mem own key repl mask
          | .atPlace => operationReplaceAtPlace mem key repl mask
        let (result, dataMap) := replacer.dataMap.add hashPtr allocElem key data
        if result ≠ 0 then
          let mem ← operationRestoreData mem data key repl mask
          return (result, replacer, mem)
        else return (0, { replacer with dataMap := dataMap }, mem)

def operationGetOrig (replacer : OperationReplacer n) (mem : Memory n) (op : Fin n)
    (key : Pointer) : Option Pointer :=
  if replacer.nUses = 0 then none
  else do
    let replacerData ← replacer.data
    if replacerData.opsMaskTotal op = 0 then none
    else
      match ← replacer.dataMap.get hashPtr key with
      | .replacePointer opsOrig _ => return mem.ops opsOrig op
      | .atPlace _ opsOrig => return opsOrig op

def operationGetOrigSpecial (replacer : OperationReplacer n) (mem : Memory n) (op : Fin n)
    (key : Pointer) (payload : OperationPayload n) : Option Pointer :=
  if replacer.nUses = 0 then none
  else do
    let replacerData ← replacer.data
    if payload.mask op = 0 then none
    else
      let layer ← replacerData.layers.find? fun layer => layer.payload = payload
      if layer.opsMaskPrev op ≠ 0 then return layer.opsReplPrev op
      else operationGetOrig hashPtr replacer mem op key

def OperationReplacer.operationOf (replacer : OperationReplacer n) (mem : Memory n)
    (key : Pointer) (op : Fin n) : Pointer :=
  match replacer.type with
  | .replacePointer => mem.ops (mem.opsPointer key) op
  | .atPlace => mem.ops key op

end Objects

end Replacer
end KedrAux
