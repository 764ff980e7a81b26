import KedrAux.Replacer.OperationReplacer

/-!
# Registration of payloads

The lists of payloads of an operation replacer (`operation_replacer.c`).  Payloads are
registered and unregistered while no target is loaded.  When a target is loaded, the
payloads are blocked: their modules are held, and they are put into the lists of used
payloads.  Elements of the lists are allocated; lists hold their addresses, and an access
to an element that was freed fails, as a failed `BUG_ON` does.

The callbacks of payloads may call any function of the replacer again.
-/

namespace KedrAux
namespace Replacer

open ErrorCodes

variable {n : Nat}

/-- `struct operation_payload_list`; `m` is the module of the payload. -/
structure OperationPayloadList (n : Nat) where
  payload : OperationPayload n
  m : Pointer
  isUsed : Bool

/--
`struct operation_replacer` with the elements of its lists.  The numbers of references
taken to each module and given back are counted in addition.
-/
structure Registry (n : Nat) where
  elems : Pointer → Option (OperationPayloadList n)
  payloads : List Pointer
  payloadsSpecial : List Pointer
  totalMask : Ops n
  nUses : Int
  insideCallback : Bool
  type : OperationReplacerType
  payloadsUsed : List Pointer
  payloadsSpecialUsed : List Pointer
  data : Option (OperationReplacerData n)
  dataMap : DataMap (OperationData n)
  taken : Pointer → Nat
  put : Pointer → Nat

namespace Registry

/-- `operation_replacer_create_common`; the lists of used payloads are not initialized. -/
def create (type : OperationReplacerType) (dataMap : DataMap (OperationData n))
    (payloadsUsed payloadsSpecialUsed : List Pointer) : Registry n where
  elems _ := none
  payloads := []
  payloadsSpecial := []
  totalMask _ := 0
  nUses := 0
  insideCallback := false
  type := type
  payloadsUsed := payloadsUsed
  payloadsSpecialUsed := payloadsSpecialUsed
  data := none
  dataMap := dataMap
  taken _ := 0
  put _ := 0

/-- `kmalloc` for an element: it returns no address that is in use. -/
def kmalloc (s : Registry n) (alloc : Option Pointer) : Option Pointer :=
  alloc.filter fun a => (s.elems a).isNone

/-- The search of a payload in a list; reading a freed element fails. -/
def findPayload (s : Registry n) (payload : Pointer) :
    List Pointer → Option (Option (Pointer × OperationPayloadList n))
  | [] => some none
  | a :: list => do
      let elem ← s.elems a
      if elem.payload.ptr = payload then some (some (a, elem)) else s.findPayload payload list

/-- The check of `operation_payload_register` that no operation is replaced twice. -/
def isFree (s : Registry n) (mask : Ops n) : Bool :=
  (forEachOperationInMask mask
    (fun _ op => if s.totalMask op ≠ 0 then none else some ()) ()).isSome

/-- `operation_payload_register`; `lock` is whether the mutex was taken. -/
def operationPayloadRegister (s : Registry n) (payload : OperationPayload n) (m : Pointer)
    (lock : Bool) (alloc : Option Pointer) : Option (Int × Registry n) :=
  if s.nUses ≠ 0 then some (-EBUSY, s)
  else if !lock then some (-EINTR, s)
  else if !s.isFree payload.mask then some (-EINVAL, s)
  else
    match s.kmalloc alloc with
    | none => some (-ENOMEM, s)
    | some a => do
        let totalMask ← forEachOperationInMask payload.mask
          (fun mask op => some (Function.update mask op (payload.mask op))) s.totalMask
        return (0, { s with
          elems := Function.update s.elems a (some ⟨payload, m, false⟩)
          payloads := a :: s.payloads
          totalMask := totalMask })

def operationPayloadUnregister (s : Registry n) (payload : Pointer) (lock : Bool) :
    Option (Int × Registry n) :=
  if !lock then some (-EINTR, s)
  else do
    match ← s.findPayload payload s.payloads with
    | none => return (-EINVAL, s)
    | some (a, elem) =>
      if elem.isUsed then return (-EBUSY, s)
      else
        let totalMask ← forEachOperationInMask elem.payload.mask
          (fun mask op => if mask op = 0 then none else some (Function.update mask op 0))
          s.totalMask
        return (0, { s with
          elems := Function.update s.elems a none
          payloads := s.payloads.erase a
          totalMask := totalMask })

def operationPayloadRegisterSpecial (s : Registry n) (payload : OperationPayload n) (m : Pointer)
    (lock : Bool) (alloc : Option Pointer) : Option (Int × Registry n) :=
  if s.nUses ≠ 0 then some (-EBUSY, s)
  else if !lock then some (-EINTR, s)
  else
    match s.kmalloc alloc with
    | none => some (-ENOMEM, s)
    | some a =>
      some (0, { s with
        elems := Function.update s.elems a (some ⟨payload, m, false⟩)
        payloadsSpecial := a :: s.payloadsSpecial })

def operationPayloadUnregisterSpecial (s : Registry n) (payload : Pointer) (lock : Bool) :
    Option (Int × Registry n) :=
  if !lock then some (-EINTR, s)
  else do
    match ← s.findPayload payload s.payloadsSpecial with
    | none => return (-EINVAL, s)
    | some (a, elem) =>
      if elem.isUsed then return (-EBUSY, s)
      else
        return (0, { s with
          elems := Function.update s.elems a none
          payloadsSpecial := s.payloadsSpecial.erase a })

/-- `fix_payload`; `get` is the result of `try_module_get`. -/
def fixPayload (s : Registry n) (get : Bool) (a : Pointer) : Option (Int × Registry n) := do
  let elem ← s.elems a
  if elem.isUsed then none
  else if elem.m ≠ 0 ∧ get = false then return (-EBUSY, s)
  else
    return (0, { s with
      elems := Function.update s.elems a (some { elem with isUsed := true })
      taken := if elem.m ≠ 0 then Function.update s.taken elem.m (s.taken elem.m + 1)
        else s.taken })

def releasePayload (s : Registry n) (a : Pointer) : Option (Registry n) := do
  let elem ← s.elems a
  if !elem.isUsed then none
  else
    return { s with
      elems := Function.update s.elems a (some { elem with isUsed := false })
      put := if elem.m ≠ 0 then Function.update s.put elem.m (s.put elem.m + 1) else s.put }

/-- The loop that blocks the payloads of a list: the used ones are returned. -/
def fixPayloads (gets : Pointer → Bool) :
    List Pointer → List Pointer → Registry n → Option (List Pointer × Registry n)
  | [], used, s => some (used, s)
  | a :: list, used, s => do
      let (result, s) ← s.fixPayload (gets a) a
      if result ≠ 0 then fixPayloads gets list used s
      else fixPayloads gets list (used ++ [a]) s

/-- The replacer with the payloads of its used lists. -/
def replacer (s : Registry n) : Option (OperationReplacer n) := do
  let payloadsUsed ← s.payloadsUsed.mapM fun a => (s.elems a).map OperationPayloadList.payload
  let payloadsSpecialUsed ←
    s.payloadsSpecialUsed.mapM fun a => (s.elems a).map OperationPayloadList.payload
  return ⟨s.nUses.toNat, s.type, payloadsUsed, payloadsSpecialUsed, s.data, s.dataMap⟩

/-- The first two iterations of `operation_target_load_callback`. -/
def block (s : Registry n) (gets : Pointer → Bool) (alloc : Bool) : Option (Registry n) := do
  let (payloadsUsed, s) ← fixPayloads gets s.payloads [] s
  let (payloadsSpecialUsed, s) ← fixPayloads gets s.payloadsSpecial []
    { s with payloadsUsed := payloadsUsed }
  let s := { s with payloadsSpecialUsed := payloadsSpecialUsed }
  let replacer ← operationReplacerDataCreate (← s.replacer) alloc
  return { s with data := replacer.data }

/-- The last iteration of `operation_target_unload_callback`; the cache is freed before. -/
def unblock (s : Registry n) : Option (Registry n) := do
  let s ← s.payloadsUsed.foldlM releasePayload s
  s.payloadsSpecialUsed.foldlM releasePayload s

end Registry

/--
The calls of the functions of a replacer.  The results of `try_module_get` and what the
callbacks of the payloads call are given for the elements of the lists.
-/
inductive Call (n : Nat) where
  | register (payload : OperationPayload n) (m : Pointer) (lock : Bool) (alloc : Option Pointer)
  | unregister (payload : Pointer) (lock : Bool)
  | registerSpecial (payload : OperationPayload n) (m : Pointer) (lock : Bool)
      (alloc : Option Pointer)
  | unregisterSpecial (payload : Pointer) (lock : Bool)
  | load (gets : Pointer → Bool) (alloc : Bool) (callback : Pointer → List (Call n))
  | unload (callback : Pointer → List (Call n))

namespace Registry

mutual

/-- The state after a call; `none` is a failed `BUG_ON`. -/
def exec : Call n → Registry n → Option (Registry n)
  | .register payload m lock alloc, s =>
    (s.operationPayloadRegister payload m lock alloc).map Prod.snd
  | .unregister payload lock, s => (s.operationPayloadUnregister payload lock).map Prod.snd
  | .registerSpecial payload m lock alloc, s =>
    (s.operationPayloadRegisterSpecial payload m lock alloc).map Prod.snd
  | .unregisterSpecial payload lock, s =>
    (s.operationPayloadUnregisterSpecial payload lock).map Prod.snd
  | .load gets alloc callback, s =>
    -- `operation_target_load_callback`
    if s.insideCallback then some s
    else if s.nUses + 1 ≠ 1 then some { s with nUses := s.nUses + 1 }
    else do
      let s ← block { s with nUses := s.nUses + 1, insideCallback := true } gets alloc
      let s ← s.payloadsUsed.foldlM (fun s a => (s.elems a).bind fun _ => execAll (callback a) s) s
      let s ← s.payloadsSpecialUsed.foldlM
        (fun s a => (s.elems a).bind fun _ => execAll (callback a) s) s
      return { s with insideCallback := false }
  | .unload callback, s =>
    -- `operation_target_unload_callback`
    if s.insideCallback then some s
    else if s.nUses - 1 ≠ 0 then some { s with nUses := s.nUses - 1 }
    else do
      let s := { s with nUses := s.nUses - 1, insideCallback := true, dataMap := s.dataMap.deleteAll }
      let s ← s.payloadsUsed.reverse.foldlM
        (fun s a => (s.elems a).bind fun _ => execAll (callback a) s) s
      let s ← s.payloadsSpecialUsed.reverse.foldlM
        (fun s a => (s.elems a).bind fun _ => execAll (callback a) s) s
      let s ← s.unblock
      return { s with insideCallback := false }

def execAll : List (Call n) → Registry n → Option (Registry n)
  | [], s => some s
  | call :: calls, s => (exec call s).bind fun s => execAll calls s

end

/-- The states between calls. -/
inductive Reachable : Registry n → Prop
  | create (type : OperationReplacerType) (dataMap : DataMap (OperationData n))
      (payloadsUsed payloadsSpecialUsed : List Pointer) :
      Reachable (create type dataMap payloadsUsed payloadsSpecialUsed)
  | call {s s' : Registry n} (call : Call n) (h : Reachable s) (hexec : s.exec call = some s') :
      Reachable s'

end Registry

end Replacer
end KedrAux
