import KedrAux.Lib.GuardedRuns
import KedrAux.Lib.KeyedList
import KedrAux.SyscallConnector.Messages

/-!
# Callbacks for messages

Callbacks are registered for a type of interactions and for an interaction, that is a type and a
process.  Both lists have nodes of their own type; the search for an interaction goes through the
list of the types and reads its nodes as if they were of the other type.
-/

namespace KedrAux
namespace SyscallConnector

open KeyedList GuardedRuns

inductive Arch where
  | x86_32
  | x86_64
deriving DecidableEq

structure ScInteraction where
  pid : BitVec 32
  inType : BitVec (8 * 4)
deriving DecidableEq

structure Handler where
  cb : Nat
  data : Nat
deriving DecidableEq

/-- The padding behind the type (in 64 bits) and the word behind the structure have the value that
the memory had when it was allocated. -/
structure TypeCallbackInfo where
  inType : BitVec (8 * 4)
  padding : BitVec 32
  cb : Nat
  data : Nat
  behind : Nat
deriving DecidableEq

structure CallbackInfo where
  interaction : ScInteraction
  cb : Nat
  data : Nat
deriving DecidableEq

/-- The node of the one list as a node of the other type. -/
def TypeCallbackInfo.asCallbackInfo (arch : Arch) (cbi : TypeCallbackInfo) : CallbackInfo :=
  match arch with
  | .x86_64 => ⟨⟨cbi.inType, cbi.padding⟩, cbi.cb, cbi.data⟩
  | .x86_32 => ⟨⟨cbi.inType, BitVec.ofNat 32 cbi.cb⟩, cbi.data, cbi.behind⟩

structure Connector where
  typeCallbacks : List TypeCallbackInfo
  callbacks : List CallbackInfo
deriving DecidableEq

structure Call where
  handler : Handler
  interaction : ScInteraction
  payload : List UInt8
deriving DecidableEq

/-- Calls of the functions and messages. The last two arguments of the registration for a type are
the contents of the new memory, where they are not overwritten. -/
inductive Event where
  | registerCallbackForType (inType : BitVec (8 * 4)) (handler : Handler) (padding : BitVec 32)
      (behind : Nat)
  | unregisterCallbackForType (inType : BitVec (8 * 4))
  | registerCallback (interaction : ScInteraction) (handler : Handler)
  | unregisterCallback (interaction : ScInteraction)
  | nlDataReady (pid : BitVec 32) (buffer : List UInt8)
deriving DecidableEq

inductive Output where
  | result (n : Int)
  | calls (calls : List Call)
deriving DecidableEq

section Functions

variable (arch : Arch) (host : ByteOrder.Host) (w : Nat)

def typeCallbackLookup (c : Connector) (inType : BitVec (8 * 4)) : Option TypeCallbackInfo :=
  lookup (fun cbi => cbi.inType) inType c.typeCallbacks

/-- The search goes through `type_callbacks`; the result is the node, which is of the other type. -/
def callbackLookup (c : Connector) (interaction : ScInteraction) : Option TypeCallbackInfo :=
  lookup (fun cbi => (cbi.asCallbackInfo arch).interaction) interaction c.typeCallbacks

def scRegisterCallbackForType (inType : BitVec (8 * 4)) (handler : Handler) (padding : BitVec 32)
    (behind : Nat) (c : Connector) : Connector × Int :=
  if (typeCallbackLookup c inType).isSome then (c, 1)
  else
    ({ c with typeCallbacks := c.typeCallbacks ++
        [⟨inType, padding, handler.cb, handler.data, behind⟩] }, 0)

def scUnregisterCallbackForType (inType : BitVec (8 * 4)) (c : Connector) : Connector × Int :=
  if (typeCallbackLookup c inType).isSome then
    ({ c with typeCallbacks := remove (fun cbi => cbi.inType) inType c.typeCallbacks }, 0)
  else (c, 1)

def scRegisterCallback (interaction : ScInteraction) (handler : Handler) (c : Connector) :
    Connector × Int :=
  if (callbackLookup arch c interaction).isSome then (c, 1)
  else
    ({ c with callbacks := c.callbacks ++ [⟨interaction, handler.cb, handler.data⟩] }, 0)

/-- The node that was found is deleted from the list that it is in. -/
def scUnregisterCallback (interaction : ScInteraction) (c : Connector) : Connector × Int :=
  if (callbackLookup arch c interaction).isSome then
    ({ c with typeCallbacks :=
        remove (fun cbi => (cbi.asCallbackInfo arch).interaction) interaction c.typeCallbacks }, 0)
  else (c, 1)

/-- The message in the buffer, if its format is correct. -/
def received (buffer : List UInt8) : Option (ScMsg w) :=
  match scMsgGet host w buffer buffer.length with
  | .ok msg => msg
  | .error _ => none

/-- A message is passed to the callback for its interaction or else to the one for its type. -/
def nlDataReady (pid : BitVec 32) (buffer : List UInt8) (c : Connector) : List Call :=
  match received host w buffer with
  | none => []
  | some msg =>
    let interaction : ScInteraction := ⟨pid, msg.inType⟩
    match callbackLookup arch c interaction with
    | some cbi =>
      let cbi := cbi.asCallbackInfo arch
      [⟨⟨cbi.cb, cbi.data⟩, interaction, msg.payload⟩]
    | none =>
      match typeCallbackLookup c msg.inType with
      | some cbi => [⟨⟨cbi.cb, cbi.data⟩, interaction, msg.payload⟩]
      | none => []

def Connector.step (c : Connector) (e : Event) : Connector × Output :=
  match e with
  | .registerCallbackForType inType handler padding behind =>
    let r := scRegisterCallbackForType inType handler padding behind c
    (r.1, .result r.2)
  | .unregisterCallbackForType inType =>
    let r := scUnregisterCallbackForType inType c
    (r.1, .result r.2)
  | .registerCallback interaction handler =>
    let r := scRegisterCallback arch interaction handler c
    (r.1, .result r.2)
  | .unregisterCallback interaction =>
    let r := scUnregisterCallback arch interaction c
    (r.1, .result r.2)
  | .nlDataReady pid buffer => (c, .calls (nlDataReady arch host w pid buffer c))

def Connector.empty : Connector := ⟨[], []⟩

/-- Handlers that are registered for types and for interactions. -/
structure Registry where
  types : BitVec (8 * 4) → Option Handler
  pairs : ScInteraction → Option Handler

def Registry.empty : Registry := ⟨fun _ => none, fun _ => none⟩

/-- A registration succeeds if there is none, an unregistration if there is one. -/
def Registry.step (reg : Registry) (e : Event) : Registry × Output :=
  match e with
  | .registerCallbackForType inType handler _ _ =>
    if (reg.types inType).isSome then (reg, .result 1)
    else ({ reg with types := Function.update reg.types inType (some handler) }, .result 0)
  | .unregisterCallbackForType inType =>
    if (reg.types inType).isSome then
      ({ reg with types := Function.update reg.types inType none }, .result 0)
    else (reg, .result 1)
  | .registerCallback interaction handler =>
    if (reg.pairs interaction).isSome then (reg, .result 1)
    else ({ reg with pairs := Function.update reg.pairs interaction (some handler) }, .result 0)
  | .unregisterCallback interaction =>
    if (reg.pairs interaction).isSome then
      ({ reg with pairs := Function.update reg.pairs interaction none }, .result 0)
    else (reg, .result 1)
  | .nlDataReady pid buffer =>
    match received host w buffer with
    | none => (reg, .calls [])
    | some msg =>
      let handler := (reg.pairs ⟨pid, msg.inType⟩).or (reg.types msg.inType)
      (reg, .calls (handler.toList.map fun h => ⟨h, ⟨pid, msg.inType⟩, msg.payload⟩))

structure Represents (c : Connector) (reg : Registry) : Prop where
  nodup : (c.typeCallbacks.map fun cbi => cbi.inType).Nodup
  types : ∀ inType, reg.types inType =
    (typeCallbackLookup c inType).map fun cbi => ⟨cbi.cb, cbi.data⟩
  pairs : ∀ interaction, reg.pairs interaction =
    (lookup (fun cbi => cbi.interaction) interaction c.callbacks).map fun cbi => ⟨cbi.cb, cbi.data⟩

def Event.interaction (e : Event) : Option ScInteraction :=
  match e with
  | .registerCallbackForType _ _ _ _ | .unregisterCallbackForType _ => none
  | .registerCallback interaction _ | .unregisterCallback interaction => some interaction
  | .nlDataReady pid buffer => (received host w buffer).map fun msg => ⟨pid, msg.inType⟩

/-- There is no callback for the interaction of the event, and no node for a type that is taken for
one. -/
def Unconfused (c : Connector) (e : Event) : Prop :=
  ∀ interaction, e.interaction host w = some interaction →
    (∀ cbi ∈ c.callbacks, cbi.interaction ≠ interaction) ∧
      ∀ cbi ∈ c.typeCallbacks, (cbi.asCallbackInfo arch).interaction ≠ interaction

end Functions

section Steps

variable {arch : Arch} {host : ByteOrder.Host} {w : Nat} {c : Connector} {reg : Registry}

theorem empty_represents : Represents Connector.empty Registry.empty :=
  ⟨List.nodup_nil, fun _ => rfl, fun _ => rfl⟩

theorem Represents.types_isSome (h : Represents c reg) (inType : BitVec (8 * 4)) :
    (reg.types inType).isSome = (typeCallbackLookup c inType).isSome := by
  rw [h.types, Option.isSome_map]

variable {interaction : ScInteraction}

section

variable (h : Represents c reg)
include h

theorem Represents.pairs_eq_none
    (hc : ∀ cbi ∈ c.callbacks, cbi.interaction ≠ interaction) :
    reg.pairs interaction = none := by
  rw [h.pairs, lookup_eq_none_iff.mpr hc]
  rfl

theorem registerCallbackForType_step (inType : BitVec (8 * 4))
    (handler : Handler) (padding : BitVec 32) (behind : Nat) :
    Represents (c.step arch host w (.registerCallbackForType inType handler padding behind)).1
        (reg.step host w (.registerCallbackForType inType handler padding behind)).1 ∧
      (c.step arch host w (.registerCallbackForType inType handler padding behind)).2 =
        (reg.step host w (.registerCallbackForType inType handler padding behind)).2 := by
  rw [Connector.step, Registry.step, scRegisterCallbackForType, h.types_isSome]
  by_cases hsome : (typeCallbackLookup c inType).isSome = true
  · simp only [if_pos hsome]
    exact ⟨h, trivial⟩
  · have hnone : typeCallbackLookup c inType = none := by simpa using hsome
    simp only [if_neg hsome]
    refine ⟨⟨?_, ?_, h.pairs⟩, trivial⟩
    · exact nodup_append h.nodup hnone
    · intro inType'
      dsimp only
      by_cases heq : inType' = inType
      · have hkey : lookup (fun cbi : TypeCallbackInfo => cbi.inType) inType c.typeCallbacks = none :=
          hnone
        rw [heq, Function.update_self, typeCallbackLookup, lookup_append_of_eq ?_ hkey]
        · rfl
        · rfl
      · rw [Function.update_of_ne heq, typeCallbackLookup,
          lookup_append_of_ne fun hkey => heq hkey.symm]
        exact h.types inType'

theorem unregisterCallbackForType_step (inType : BitVec (8 * 4)) :
    Represents (c.step arch host w (.unregisterCallbackForType inType)).1
        (reg.step host w (.unregisterCallbackForType inType)).1 ∧
      (c.step arch host w (.unregisterCallbackForType inType)).2 =
        (reg.step host w (.unregisterCallbackForType inType)).2 := by
  rw [Connector.step, Registry.step, scUnregisterCallbackForType, h.types_isSome]
  by_cases hsome : (typeCallbackLookup c inType).isSome = true
  · simp only [if_pos hsome]
    refine ⟨⟨nodup_remove h.nodup, ?_, h.pairs⟩, trivial⟩
    intro inType'
    dsimp only
    by_cases heq : inType' = inType
    · rw [heq, Function.update_self, typeCallbackLookup, lookup_remove_self h.nodup]
      rfl
    · rw [Function.update_of_ne heq, typeCallbackLookup, lookup_remove_of_ne heq]
      exact h.types inType'
  · simp only [if_neg hsome]
    exact ⟨h, trivial⟩

/-- The first registration for a pair is the step of the registry. -/
theorem registerCallback_step
    (hcallbacks : ∀ cbi ∈ c.callbacks, cbi.interaction ≠ interaction)
    (hlookup : callbackLookup arch c interaction = none) (handler : Handler) :
    Represents (c.step arch host w (.registerCallback interaction handler)).1
        (reg.step host w (.registerCallback interaction handler)).1 ∧
      (c.step arch host w (.registerCallback interaction handler)).2 =
        (reg.step host w (.registerCallback interaction handler)).2 := by
  rw [Connector.step, Registry.step, scRegisterCallback, hlookup, h.pairs_eq_none hcallbacks]
  simp only [Option.isSome_none, Bool.false_eq_true, if_false]
  refine ⟨⟨h.nodup, h.types, ?_⟩, trivial⟩
  intro interaction'
  dsimp only
  by_cases heq : interaction' = interaction
  · have hkey : lookup (fun cbi : CallbackInfo => cbi.interaction) interaction c.callbacks = none :=
      lookup_eq_none_iff.mpr hcallbacks
    rw [heq, Function.update_self, lookup_append_of_eq ?_ hkey]
    · rfl
    · rfl
  · rw [Function.update_of_ne heq, lookup_append_of_ne fun hkey => heq hkey.symm]
    exact h.pairs interaction'

theorem unregisterCallback_step
    (hcallbacks : ∀ cbi ∈ c.callbacks, cbi.interaction ≠ interaction)
    (hlookup : callbackLookup arch c interaction = none) :
    Represents (c.step arch host w (.unregisterCallback interaction)).1
        (reg.step host w (.unregisterCallback interaction)).1 ∧
      (c.step arch host w (.unregisterCallback interaction)).2 =
        (reg.step host w (.unregisterCallback interaction)).2 := by
  rw [Connector.step, Registry.step, scUnregisterCallback, hlookup, h.pairs_eq_none hcallbacks]
  exact ⟨h, rfl⟩

/-- A message is handled as in the registry, if its pair has no callback. -/
theorem nlDataReady_step (pid : BitVec 32) (buffer : List UInt8)
    (hlookup : ∀ msg, received host w buffer = some msg →
      reg.pairs ⟨pid, msg.inType⟩ = none ∧ callbackLookup arch c ⟨pid, msg.inType⟩ = none) :
    Represents (c.step arch host w (.nlDataReady pid buffer)).1
        (reg.step host w (.nlDataReady pid buffer)).1 ∧
      (c.step arch host w (.nlDataReady pid buffer)).2 =
        (reg.step host w (.nlDataReady pid buffer)).2 := by
  rw [Connector.step, Registry.step, nlDataReady]
  cases hmsg : received host w buffer with
  | none => exact ⟨h, rfl⟩
  | some msg =>
    obtain ⟨hpairs, hnone⟩ := hlookup msg hmsg
    simp only [hpairs, hnone, Option.none_or, h.types]
    refine ⟨h, ?_⟩
    cases typeCallbackLookup c msg.inType <;> rfl

end

theorem step_represents (c : Connector) (reg : Registry) (e : Event) (h : Represents c reg)
    (hguard : Unconfused arch host w c e) :
    Represents (c.step arch host w e).1 (reg.step host w e).1 ∧
      (c.step arch host w e).2 = (reg.step host w e).2 := by
  have hlookup : ∀ interaction, e.interaction host w = some interaction →
      (∀ cbi ∈ c.callbacks, cbi.interaction ≠ interaction) ∧
        callbackLookup arch c interaction = none := fun interaction hinteraction =>
    ⟨(hguard interaction hinteraction).1,
      lookup_eq_none_iff.mpr (hguard interaction hinteraction).2⟩
  cases e with
  | registerCallbackForType inType handler padding behind =>
    exact registerCallbackForType_step h inType handler padding behind
  | unregisterCallbackForType inType => exact unregisterCallbackForType_step h inType
  | registerCallback interaction handler =>
    obtain ⟨hcallbacks, hnone⟩ := hlookup interaction rfl
    exact registerCallback_step h hcallbacks hnone handler
  | unregisterCallback interaction =>
    obtain ⟨hcallbacks, hnone⟩ := hlookup interaction rfl
    exact unregisterCallback_step h hcallbacks hnone
  | nlDataReady pid buffer =>
    refine nlDataReady_step h pid buffer fun msg hmsg => ?_
    obtain ⟨hcallbacks, hnone⟩ := hlookup ⟨pid, msg.inType⟩ (by
      rw [Event.interaction, hmsg]
      rfl)
    exact ⟨h.pairs_eq_none hcallbacks, hnone⟩

end Steps

/-- In a run without confusion every call returns what it should, and every message is passed to the
right callback. -/
theorem run_represents (arch : Arch) (host : ByteOrder.Host) (w : Nat) {events : List Event}
    (h : Always (Connector.step arch host w) (Unconfused arch host w) Connector.empty events) :
    Represents (run (Connector.step arch host w) Connector.empty events).1
        (run (Registry.step host w) Registry.empty events).1 ∧
      (run (Connector.step arch host w) Connector.empty events).2 =
        (run (Registry.step host w) Registry.empty events).2 :=
  run_related step_represents empty_represents h

def sampleMessage : List UInt8 := [2, 0, 0, 0, 1, 0, 0, 0, 9]

/-- The handler is registered for the type of the message. -/
def sampleEvents : List Event :=
  [.registerCallbackForType 2 ⟨100, 1⟩ 0 0, .nlDataReady 7 sampleMessage]

theorem sampleEvents_unconfused :
    Always (Connector.step .x86_32 .little 4) (Unconfused .x86_32 .little 4) Connector.empty
      sampleEvents := by
  refine ⟨fun interaction h => (Option.some_ne_none interaction h.symm).elim, ?_, trivial⟩
  intro interaction h
  have hinteraction : (Event.nlDataReady 7 sampleMessage).interaction .little 4 = some ⟨7, 2⟩ := by
    decide +kernel
  rw [hinteraction] at h
  obtain rfl := Option.some_inj.mp h
  decide +kernel

/-- The message is passed to the handler for its type. -/
theorem run_represents_sample :
    Represents (run (Connector.step .x86_32 .little 4) Connector.empty sampleEvents).1
        (run (Registry.step .little 4) Registry.empty sampleEvents).1 ∧
      (run (Connector.step .x86_32 .little 4) Connector.empty sampleEvents).2 =
        (run (Registry.step .little 4) Registry.empty sampleEvents).2 :=
  run_represents .x86_32 .little 4 sampleEvents_unconfused

/-- A callback that is registered for the interaction is not found: the message is passed to none,
and the unregistration fails. -/
theorem run_misses_callback :
    ¬ ∀ (arch : Arch) (host : ByteOrder.Host) (w : Nat) (events : List Event),
      (run (Connector.step arch host w) Connector.empty events).2 =
        (run (Registry.step host w) Registry.empty events).2 := by
  intro h
  have hrun := h .x86_32 .little 4
    [.registerCallback ⟨7, 2⟩ ⟨200, 1⟩, .nlDataReady 7 sampleMessage, .unregisterCallback ⟨7, 2⟩]
  exact absurd hrun (by decide +kernel)

end SyscallConnector
end KedrAux
