import KedrAux.Lib.ErrorCodes
import Mathlib.Tactic

/-!
# Payloads and target sessions

The base keeps a list of payload modules, and holds references to them while a target
module is loaded (`base.c`).  The controller tells it when the target comes and goes
(`controller.c`, from `on_module_load` to `detector_notifier_call`).

All locks are obtained, the controller is registered and notifications are handled.
Whether an allocation or `try_module_get` succeeds is part of the input.  What the
functions do to other modules is recorded: references, and calls of the callbacks of
payloads.  The instrumentation of the target itself is left out here, as is the flag for
the initialization of the target.
-/

namespace KedrAux
namespace Kedr

open ErrorCodes

/-- `struct kedr_repl_table`: original functions and replacements. -/
abbrev FuncTable := List (Nat × Nat)

/-- `struct kedr_payload`; callbacks are represented by whether they are there. -/
structure Payload (M : Type) where
  ptr : Nat
  mod : M
  replTable : FuncTable
  targetLoadCallback : Bool
  targetUnloadCallback : Bool
deriving DecidableEq

inductive Effect (M : Type) where
  /-- `try_module_get` with its result. -/
  | get (mod : M) (success : Bool)
  /-- `module_put`. -/
  | put (mod : M)
  | loadCallback (payload : Payload M)
  | unloadCallback (payload : Payload M)
deriving DecidableEq

/-- The global data of the base and of the controller. -/
structure KedrState (M : Type) where
  payloadModules : List (Payload M)
  denyPayloadRegister : Bool
  combinedReplTable : FuncTable
  targetModule : Option M
  replTable : FuncTable

def KedrState.init {M : Type} : KedrState M :=
  ⟨[], false, [], none, []⟩

/-- What can fail when the target is loaded; every payload is asked at most once. -/
structure LoadOutcome (M : Type) where
  /-- `kzalloc` for the two parts of the table. -/
  origAddrs : Bool
  replAddrs : Bool
  /-- `try_module_get` for the payloads and the controller. -/
  payload : Payload M → Bool
  controller : Bool

section Functions

variable {M : Type} [DecidableEq M]

def createReplTable (outcome : LoadOutcome M) (payloadModules : List (Payload M)) :
    Int × FuncTable :=
  if !outcome.origAddrs || !outcome.replAddrs then (-ENOMEM, [])
  else (0, payloadModules.flatMap fun payload => payload.replTable)

def kedrPayloadRegister (s : KedrState M) (payload : Payload M) (alloc : Bool) :
    Int × KedrState M :=
  if s.denyPayloadRegister then (-EBUSY, s)
  else if payload ∈ s.payloadModules then (-EINVAL, s)
  else if !alloc then (-ENOMEM, s)
  else (0, { s with payloadModules := s.payloadModules ++ [payload] })

def kedrPayloadUnregister (s : KedrState M) (payload : Payload M) : KedrState M :=
  { s with payloadModules := s.payloadModules.erase payload }

/-- A payload is held, and notified about the target. -/
def loadPayload (payload : Payload M) : List (Effect M) :=
  .get payload.mod true ::
    if payload.targetLoadCallback then [.loadCallback payload] else []

/-- The loop of `kedr_impl_on_target_load`, which ends when a payload cannot be held. -/
def loadPayloads (outcome : LoadOutcome M) : List (Payload M) → Int × List (Effect M)
  | [] => (0, [])
  | payload :: payloads =>
    if outcome.payload payload then
      let (result, effects) := loadPayloads outcome payloads
      (result, loadPayload payload ++ effects)
    else (-EFAULT, [.get payload.mod false])

/-- `kedr_impl_on_target_load`; `controllerMod` is the module of the current controller. -/
def kedrImplOnTargetLoad (controllerMod : M) (outcome : LoadOutcome M) (s : KedrState M) :
    Int × KedrState M × List (Effect M) :=
  let s := { s with denyPayloadRegister := true }
  let (result, table) := createReplTable outcome s.payloadModules
  let s := { s with combinedReplTable := table }
  if result ≠ 0 then (result, s, [])
  else
    let (result, effects) := loadPayloads outcome s.payloadModules
    if result ≠ 0 then (result, s, effects)
    else
      -- a failure for the controller is only reported in a message
      (0, { s with replTable := s.combinedReplTable },
        effects ++ [.get controllerMod outcome.controller])

/-- A payload is notified about the target, and released. -/
def unloadPayload (payload : Payload M) : List (Effect M) :=
  (if payload.targetUnloadCallback then [.unloadCallback payload] else []) ++ [.put payload.mod]

def kedrImplOnTargetUnload (controllerMod : M) (s : KedrState M) :
    KedrState M × List (Effect M) :=
  ({ s with denyPayloadRegister := false },
    s.payloadModules.flatMap unloadPayload ++ [.put controllerMod])

def onModuleLoad (controllerMod : M) (outcome : LoadOutcome M) (s : KedrState M) :
    KedrState M × List (Effect M) :=
  (kedrImplOnTargetLoad controllerMod outcome s).2

def onModuleUnload (controllerMod : M) (s : KedrState M) : KedrState M × List (Effect M) :=
  kedrImplOnTargetUnload controllerMod { s with replTable := [] }

/-- `detector_notifier_call` for `MODULE_STATE_COMING`; `none` is a failed `BUG_ON`. -/
def moduleComing (filterModule : M → Bool) (controllerMod : M) (outcome : LoadOutcome M)
    (mod : M) (s : KedrState M) : Option (KedrState M × List (Effect M)) :=
  if !filterModule mod then some (s, [])
  else if s.targetModule.isSome then none
  else some (onModuleLoad controllerMod outcome { s with targetModule := some mod })

/-- `detector_notifier_call` for `MODULE_STATE_GOING`. -/
def moduleGoing (controllerMod : M) (mod : M) (s : KedrState M) :
    KedrState M × List (Effect M) :=
  if s.targetModule ≠ some mod then (s, [])
  else
    let (s, effects) := onModuleUnload controllerMod s
    ({ s with targetModule := none }, effects)

end Functions

section Loading

variable {M : Type}

theorem onModuleLoad_state (controllerMod : M) (outcome : LoadOutcome M) (s : KedrState M) :
    (onModuleLoad controllerMod outcome s).1.payloadModules = s.payloadModules ∧
      (onModuleLoad controllerMod outcome s).1.targetModule = s.targetModule ∧
      (onModuleLoad controllerMod outcome s).1.denyPayloadRegister = true := by
  rw [onModuleLoad, kedrImplOnTargetLoad]
  simp only
  split_ifs <;> exact ⟨rfl, rfl, rfl⟩

theorem loadPayloads_of_succeeds {payloads : List (Payload M)} {outcome : LoadOutcome M}
    (h : ∀ payload ∈ payloads, outcome.payload payload = true) :
    loadPayloads outcome payloads = (0, payloads.flatMap loadPayload) := by
  induction payloads with
  | nil => rfl
  | cons payload payloads ih =>
    rw [loadPayloads, if_pos (h payload List.mem_cons_self),
      ih fun p hp => h p (List.mem_cons_of_mem _ hp)]
    rfl

end Loading

inductive Event (M : Type) where
  | register (payload : Payload M) (alloc : Bool)
  | unregister (payload : Payload M)
  | coming (mod : M) (outcome : LoadOutcome M)
  | going (mod : M)

/--
The state of the program with the modules that are loaded and the effects in each target
session, the last session first.  A session lasts from the notification that the target
comes to the one that it goes.
-/
structure World (M : Type) where
  state : KedrState M
  loaded : List M
  sessions : List (List (Effect M))

/-- The effects in the order in which they happen. -/
def World.effects {M : Type} (world : World M) : List (Effect M) :=
  world.sessions.reverse.flatten

def appendSession {M : Type} (effects : List (Effect M)) :
    List (List (Effect M)) → List (List (Effect M))
  | [] => [effects]
  | session :: sessions => (session ++ effects) :: sessions

section Runs

variable {M : Type} [DecidableEq M]

def gets (mod : M) (effects : List (Effect M)) : Nat :=
  effects.count (.get mod true)

def puts (mod : M) (effects : List (Effect M)) : Nat :=
  effects.count (.put mod)

variable (filterModule : M → Bool) (controllerMod : M)

def World.step (world : World M) : Event M → Option (World M)
  | .register payload alloc =>
    some { world with state := (kedrPayloadRegister world.state payload alloc).2 }
  | .unregister payload => some { world with state := kedrPayloadUnregister world.state payload }
  | .coming mod outcome => do
      let (state, effects) ← moduleComing filterModule controllerMod outcome mod world.state
      return {
        state := state
        loaded := mod :: world.loaded
        sessions := if filterModule mod then effects :: world.sessions else world.sessions }
  | .going mod =>
    let (state, effects) := moduleGoing controllerMod mod world.state
    some {
      state := state
      loaded := world.loaded.erase mod
      sessions :=
        if world.state.targetModule = some mod then appendSession effects world.sessions
        else world.sessions }

/--
What the kernel guarantees: a payload unregisters only while there is no reference to its
module, a module comes once before it goes, and no two modules of one name are loaded.
-/
def World.Allowed (world : World M) : Event M → Prop
  | .register _ _ => True
  | .unregister payload => gets payload.mod world.effects = puts payload.mod world.effects
  | .coming mod _ => mod ∉ world.loaded ∧
      (filterModule mod = true → ∀ mod' ∈ world.loaded, filterModule mod' = false)
  | .going mod => mod ∈ world.loaded

/-- Nothing fails when the target comes. -/
def World.Succeeds (world : World M) : Event M → Prop
  | .coming mod outcome => filterModule mod = true →
      outcome.origAddrs = true ∧ outcome.replAddrs = true ∧ outcome.controller = true ∧
        ∀ payload ∈ world.state.payloadModules, outcome.payload payload = true
  | _ => True

/-- The worlds after runs in which all events satisfy a condition. -/
inductive Reachable (C : World M → Event M → Prop) : World M → Prop
  | init : Reachable C ⟨.init, [], []⟩
  | step {world world' : World M} {event : Event M} (h : Reachable C world)
      (hallowed : world.Allowed filterModule event) (hC : C world event)
      (hstep : world.step filterModule controllerMod event = some world') : Reachable C world'

end Runs

inductive Callback where
  | load
  | unload
deriving DecidableEq

def callbacks {M : Type} [DecidableEq M] (payload : Payload M) (effects : List (Effect M)) :
    List Callback :=
  effects.filterMap fun
    | .loadCallback p => if p = payload then some .load else none
    | .unloadCallback p => if p = payload then some .unload else none
    | _ => none

/-- The two kinds alternate, and `load` comes first. -/
def Alternate : List Callback → Prop
  | [] => True
  | [.load] => True
  | .load :: .unload :: rest => Alternate rest
  | _ => False

section Discipline

variable {M : Type} [DecidableEq M]

/-- A reference is only given back after it was obtained in the same session. -/
def PutsMatched (session : List (Effect M)) : Prop :=
  ∀ before mod after, session = before ++ .put mod :: after → puts mod before < gets mod before

/--
The discipline of references and sessions.  The callbacks are considered for payloads
that have both of them.
-/
structure Disciplined (filterModule : M → Bool) (world : World M) : Prop where
  puts_matched : ∀ session ∈ world.sessions, PutsMatched session
  none_left : (∀ mod ∈ world.loaded, filterModule mod = false) →
    ∀ mod, gets mod world.effects = puts mod world.effects
  alternate : ∀ payload : Payload M, payload.targetLoadCallback = true →
    payload.targetUnloadCallback = true → Alternate (callbacks payload world.effects)
  busy_iff : ∀ payload alloc, (kedrPayloadRegister world.state payload alloc).1 = -EBUSY ↔
    ∃ mod ∈ world.loaded, filterModule mod = true

def loadEffects (controllerMod : M) (payloads : List (Payload M)) : List (Effect M) :=
  payloads.flatMap loadPayload ++ [.get controllerMod true]

def unloadEffects (controllerMod : M) (payloads : List (Payload M)) : List (Effect M) :=
  payloads.flatMap unloadPayload ++ [.put controllerMod]

/-- The number of references to a module while the payloads are held. -/
def held (controllerMod : M) (payloads : List (Payload M)) (mod : M) : Nat :=
  (payloads.map Payload.mod ++ [controllerMod]).count mod

variable {controllerMod : M} {payloads : List (Payload M)} {mod : M}

@[simp] theorem gets_append (effects effects' : List (Effect M)) :
    gets mod (effects ++ effects') = gets mod effects + gets mod effects' :=
  List.count_append

@[simp] theorem puts_append (effects effects' : List (Effect M)) :
    puts mod (effects ++ effects') = puts mod effects + puts mod effects' :=
  List.count_append

theorem gets_loadPayload (payload : Payload M) :
    gets mod (loadPayload payload) = [payload.mod].count mod := by
  rw [gets, loadPayload]
  split_ifs <;> simp [List.count_cons]

theorem gets_loadEffects :
    gets mod (loadEffects controllerMod payloads) = held controllerMod payloads mod := by
  rw [loadEffects, held]
  induction payloads with
  | nil => simp [gets, List.count_cons]
  | cons payload payloads ih =>
    rw [List.flatMap_cons, List.append_assoc, gets_append, ih, gets_loadPayload, List.map_cons,
      List.cons_append]
    exact List.count_append.symm

theorem puts_loadEffects : puts mod (loadEffects controllerMod payloads) = 0 := by
  rw [puts, List.count_eq_zero, loadEffects]
  intro h
  simp only [List.mem_append, List.mem_flatMap, loadPayload, List.mem_cons] at h
  rcases h with ⟨payload, -, h | h⟩ | h | h
  · cases h
  · split_ifs at h <;> simp at h
  · cases h
  · cases h

theorem puts_unloadPayload (payload : Payload M) :
    puts mod (unloadPayload payload) = [payload.mod].count mod := by
  rw [puts, unloadPayload]
  split_ifs <;> simp [List.count_cons]

theorem puts_unloadEffects :
    puts mod (unloadEffects controllerMod payloads) = held controllerMod payloads mod := by
  rw [unloadEffects, held]
  induction payloads with
  | nil => simp [puts, List.count_cons]
  | cons payload payloads ih =>
    rw [List.flatMap_cons, List.append_assoc, puts_append, ih, puts_unloadPayload, List.map_cons,
      List.cons_append]
    exact List.count_append.symm

theorem gets_unloadEffects : gets mod (unloadEffects controllerMod payloads) = 0 := by
  rw [gets, List.count_eq_zero, unloadEffects]
  intro h
  simp only [List.mem_append, List.mem_flatMap, unloadPayload, List.mem_cons] at h
  rcases h with ⟨payload, -, h | h | h⟩ | h | h
  · split_ifs at h <;> simp at h
  · cases h
  · cases h
  · cases h
  · cases h

theorem held_pos (controllerMod : M) {payload : Payload M} (h : payload ∈ payloads) :
    0 < held controllerMod payloads payload.mod :=
  List.count_pos_iff.mpr (List.mem_append_left _ (List.mem_map_of_mem h))

/-- References are only given back in the second part, and no more than in the first one. -/
theorem putsMatched_append
    {effects effects' : List (Effect M)} (hfirst : ∀ mod, puts mod effects = 0)
    (hsecond : ∀ mod, puts mod effects' ≤ gets mod effects) :
    PutsMatched (effects ++ effects') := by
  intro before mod after heq
  rcases List.append_eq_append_iff.mp heq with ⟨middle, hbefore, hafter⟩ | ⟨middle, hbefore, hafter⟩
  · have hle := hsecond mod
    rw [hafter, puts_append, puts, puts, List.count_cons_self] at hle
    rw [hbefore, puts_append, gets_append, hfirst, puts]
    omega
  · -- the first part has no such effects
    have hzero := hfirst mod
    cases middle with
    | nil =>
      have hle := hsecond mod
      rw [List.nil_append] at hafter
      rw [← hafter, puts, List.count_cons_self] at hle
      rw [List.append_nil] at hbefore
      rw [← hbefore, hzero]
      omega
    | cons effect middle =>
      rw [List.cons_append, List.cons_eq_cons] at hafter
      rw [hbefore, ← hafter.1, puts, List.count_append, List.count_cons_self] at hzero
      omega

def CompleteSession (controllerMod : M) (session : List (Effect M)) : Prop :=
  ∃ payloads : List (Payload M), payloads.Nodup ∧
    session = loadEffects controllerMod payloads ++ unloadEffects controllerMod payloads

namespace CompleteSession

variable {session : List (Effect M)}

theorem putsMatched (h : CompleteSession controllerMod session) : PutsMatched session := by
  obtain ⟨payloads, -, rfl⟩ := h
  refine putsMatched_append (fun _ => puts_loadEffects) fun mod => ?_
  rw [puts_unloadEffects, gets_loadEffects]

theorem gets_eq (h : CompleteSession controllerMod session) (mod : M) :
    gets mod session = puts mod session := by
  obtain ⟨payloads, -, rfl⟩ := h
  rw [gets_append, puts_append, gets_loadEffects, gets_unloadEffects, puts_loadEffects,
    puts_unloadEffects, Nat.add_comm]

end CompleteSession

variable {payload : Payload M}

@[simp] theorem callbacks_append (effects effects' : List (Effect M)) :
    callbacks payload (effects ++ effects') =
      callbacks payload effects ++ callbacks payload effects' :=
  List.filterMap_append

/-- A loop that calls a callback of each payload, and each payload is there once. -/
theorem callbacks_flatMap
    {effectsOf : Payload M → List (Effect M)} (callback : Callback) (hnodup : payloads.Nodup)
    (hself : callbacks payload (effectsOf payload) = [callback])
    (hother : ∀ p, p ≠ payload → callbacks payload (effectsOf p) = []) :
    callbacks payload (payloads.flatMap effectsOf) =
      if payload ∈ payloads then [callback] else [] := by
  induction payloads with
  | nil => rfl
  | cons p payloads ih =>
    rw [List.nodup_cons] at hnodup
    rw [List.flatMap_cons, callbacks_append, ih hnodup.2]
    by_cases heq : p = payload
    · subst heq
      rw [hself, if_neg hnodup.1, if_pos List.mem_cons_self]
      rfl
    · rw [hother p heq, List.nil_append]
      simp [Ne.symm heq]

theorem callbacks_loadEffects
    (hnodup : payloads.Nodup) (hload : payload.targetLoadCallback = true) :
    callbacks payload (loadEffects controllerMod payloads) =
      if payload ∈ payloads then [.load] else [] := by
  rw [loadEffects, callbacks_append]
  rw [callbacks_flatMap .load hnodup (by simp [loadPayload, callbacks, hload])]
  · exact List.append_nil _
  · intro p hp
    rw [loadPayload]
    split_ifs <;> simp [callbacks, hp]

theorem callbacks_unloadEffects
    (hnodup : payloads.Nodup) (hunload : payload.targetUnloadCallback = true) :
    callbacks payload (unloadEffects controllerMod payloads) =
      if payload ∈ payloads then [.unload] else [] := by
  rw [unloadEffects, callbacks_append]
  rw [callbacks_flatMap .unload hnodup (by simp [unloadPayload, callbacks, hunload])]
  · exact List.append_nil _
  · intro p hp
    rw [unloadPayload]
    split_ifs <;> simp [callbacks, hp]

theorem alternate_append {sessions : List (List (Effect M))} {rest : List Callback}
    (h : ∀ session ∈ sessions, CompleteSession controllerMod session)
    (hload : payload.targetLoadCallback = true) (hunload : payload.targetUnloadCallback = true)
    (hrest : Alternate rest) :
    Alternate (callbacks payload sessions.flatten ++ rest) := by
  induction sessions with
  | nil => exact hrest
  | cons session sessions ih =>
    have ih := ih fun session' hsession' => h session' (List.mem_cons_of_mem _ hsession')
    obtain ⟨payloads, hnodup, rfl⟩ := h session List.mem_cons_self
    rw [List.flatten_cons, callbacks_append, callbacks_append, callbacks_loadEffects hnodup hload,
      callbacks_unloadEffects hnodup hunload]
    split_ifs
    · exact ih
    · exact ih

variable {filterModule : M → Bool}

/-- What holds in every run, whatever fails. -/
structure Consistent (filterModule : M → Bool) (world : World M) : Prop where
  payloads_nodup : world.state.payloadModules.Nodup
  loaded_nodup : world.loaded.Nodup
  deny_eq : world.state.denyPayloadRegister = world.state.targetModule.isSome
  target_iff : ∀ mod, world.state.targetModule = some mod ↔
    mod ∈ world.loaded ∧ filterModule mod = true

theorem kedrPayloadRegister_state (s : KedrState M) (payload : Payload M) (alloc : Bool) :
    (kedrPayloadRegister s payload alloc).2 = s ∨
      (s.denyPayloadRegister = false ∧ payload ∉ s.payloadModules ∧
        (kedrPayloadRegister s payload alloc).2 =
          { s with payloadModules := s.payloadModules ++ [payload] }) := by
  rw [kedrPayloadRegister]
  split_ifs with hdeny hmem halloc
  · exact Or.inl rfl
  · exact Or.inl rfl
  · exact Or.inl rfl
  · exact Or.inr ⟨by simpa using hdeny, hmem, rfl⟩

omit [DecidableEq M] in
theorem onModuleLoad_effects
    {outcome : LoadOutcome M} {s : KedrState M} (horig : outcome.origAddrs = true)
    (hrepl : outcome.replAddrs = true) (hcontroller : outcome.controller = true)
    (h : ∀ payload ∈ s.payloadModules, outcome.payload payload = true) :
    (onModuleLoad controllerMod outcome s).2 = loadEffects controllerMod s.payloadModules := by
  rw [onModuleLoad, kedrImplOnTargetLoad]
  simp [createReplTable, horig, hrepl, loadPayloads_of_succeeds h, hcontroller, loadEffects]

/-- The kinds of events that are allowed, with their results. -/
inductive World.Moves (filterModule : M → Bool) (controllerMod : M) (world : World M) :
    Event M → World M → Prop
  | register (payload : Payload M) (alloc : Bool) :
      Moves filterModule controllerMod world (.register payload alloc)
        { world with state := (kedrPayloadRegister world.state payload alloc).2 }
  | unregister {payload : Payload M}
      (hrefs : gets payload.mod world.effects = puts payload.mod world.effects) :
      Moves filterModule controllerMod world (.unregister payload)
        { world with state := kedrPayloadUnregister world.state payload }
  | otherComing {mod : M} (outcome : LoadOutcome M) (hnew : mod ∉ world.loaded)
      (hfilter : filterModule mod = false) :
      Moves filterModule controllerMod world (.coming mod outcome)
        { world with loaded := mod :: world.loaded }
  | targetComing {mod : M} (outcome : LoadOutcome M) (hnew : mod ∉ world.loaded)
      (hfilter : filterModule mod = true) (htarget : world.state.targetModule = none) :
      Moves filterModule controllerMod world (.coming mod outcome)
        ⟨(onModuleLoad controllerMod outcome { world.state with targetModule := some mod }).1,
          mod :: world.loaded,
          (onModuleLoad controllerMod outcome { world.state with targetModule := some mod }).2 ::
            world.sessions⟩
  | otherGoing {mod : M} (hloaded : mod ∈ world.loaded)
      (htarget : world.state.targetModule ≠ some mod) :
      Moves filterModule controllerMod world (.going mod)
        { world with loaded := world.loaded.erase mod }
  | targetGoing {mod : M} (htarget : world.state.targetModule = some mod) :
      Moves filterModule controllerMod world (.going mod)
        ⟨{ world.state with denyPayloadRegister := false, replTable := [], targetModule := none },
          world.loaded.erase mod,
          appendSession (unloadEffects controllerMod world.state.payloadModules) world.sessions⟩

variable {world : World M} {event : Event M} {past : List (List (Effect M))}

theorem World.step_moves (hconsistent : Consistent filterModule world)
    (hallowed : world.Allowed filterModule event) :
    ∃ world', world.step filterModule controllerMod event = some world' ∧
      world.Moves filterModule controllerMod event world' := by
  cases event with
  | register payload alloc => exact ⟨_, rfl, .register payload alloc⟩
  | unregister payload => exact ⟨_, rfl, .unregister hallowed⟩
  | coming mod outcome =>
    obtain ⟨hnew, hunique⟩ := hallowed
    cases hfilter : filterModule mod with
    | false =>
      refine ⟨_, ?_, .otherComing outcome hnew hfilter⟩
      simp [World.step, moduleComing, hfilter]
    | true =>
      -- a second target would have the same name
      have htarget : world.state.targetModule = none := by
        cases htarget : world.state.targetModule with
        | none => rfl
        | some mod' =>
          obtain ⟨hloaded, hfilter'⟩ := (hconsistent.target_iff mod').mp htarget
          rw [hunique hfilter mod' hloaded] at hfilter'
          cases hfilter'
      refine ⟨_, ?_, .targetComing outcome hnew hfilter htarget⟩
      simp [World.step, moduleComing, hfilter, htarget]
  | going mod =>
    by_cases htarget : world.state.targetModule = some mod
    · refine ⟨_, ?_, .targetGoing htarget⟩
      simp [World.step, moduleGoing, htarget, onModuleUnload, kedrImplOnTargetUnload,
        unloadEffects]
    · refine ⟨_, ?_, .otherGoing hallowed htarget⟩
      simp [World.step, moduleGoing, htarget]

omit [DecidableEq M] in
theorem Consistent.init : Consistent filterModule ⟨.init, [], []⟩ where
  payloads_nodup := List.nodup_nil
  loaded_nodup := List.nodup_nil
  deny_eq := rfl
  target_iff mod := ⟨fun h => (by cases h), fun h => (by cases h.1)⟩

theorem Consistent.moves {world' : World M} (h : Consistent filterModule world)
    (hmoves : world.Moves filterModule controllerMod event world') :
    Consistent filterModule world' := by
  cases hmoves with
  | register payload alloc =>
    rcases kedrPayloadRegister_state world.state payload alloc with heq | ⟨-, hmem, heq⟩
    · rw [heq]
      exact h
    · rw [heq]
      refine ⟨?_, h.loaded_nodup, h.deny_eq, h.target_iff⟩
      exact List.nodup_append'.mpr ⟨h.payloads_nodup, List.nodup_singleton _, by simpa using hmem⟩
  | @unregister payload _ =>
    exact ⟨h.payloads_nodup.erase payload, h.loaded_nodup, h.deny_eq, h.target_iff⟩
  | otherComing outcome hnew hfilter =>
    refine ⟨h.payloads_nodup, List.nodup_cons.mpr ⟨hnew, h.loaded_nodup⟩, h.deny_eq,
      fun mod' => ?_⟩
    rw [h.target_iff, List.mem_cons]
    refine and_congr_left fun hfilter' => ?_
    rw [or_iff_right]
    rintro rfl
    rw [hfilter] at hfilter'
    cases hfilter'
  | @targetComing mod outcome hnew hfilter htarget =>
    obtain ⟨hpayloads, htarget', hdeny⟩ := onModuleLoad_state controllerMod outcome
      { world.state with targetModule := some mod }
    refine ⟨by rw [hpayloads]; exact h.payloads_nodup,
      List.nodup_cons.mpr ⟨hnew, h.loaded_nodup⟩, by rw [hdeny, htarget']; rfl, fun mod' => ?_⟩
    rw [htarget', List.mem_cons]
    constructor
    · intro heq
      cases heq
      exact ⟨Or.inl rfl, hfilter⟩
    · rintro ⟨rfl | hloaded, hfilter'⟩
      · rfl
      · have hsome := (h.target_iff mod').mpr ⟨hloaded, hfilter'⟩
        rw [htarget] at hsome
        cases hsome
  | @otherGoing mod hloaded htarget =>
    refine ⟨h.payloads_nodup, h.loaded_nodup.erase mod, h.deny_eq, fun mod' => ?_⟩
    rw [h.target_iff, h.loaded_nodup.mem_erase_iff]
    constructor
    · rintro ⟨hloaded', hfilter⟩
      refine ⟨⟨?_, hloaded'⟩, hfilter⟩
      rintro rfl
      exact htarget ((h.target_iff mod').mpr ⟨hloaded', hfilter⟩)
    · rintro ⟨⟨-, hloaded'⟩, hfilter⟩
      exact ⟨hloaded', hfilter⟩
  | @targetGoing mod htarget =>
    refine ⟨h.payloads_nodup, h.loaded_nodup.erase mod, rfl, fun mod' => ?_⟩
    rw [h.loaded_nodup.mem_erase_iff]
    constructor
    · intro heq
      cases heq
    · rintro ⟨⟨hne, hloaded⟩, hfilter⟩
      have hsome := (h.target_iff mod').mpr ⟨hloaded, hfilter⟩
      rw [htarget] at hsome
      cases hsome
      exact absurd rfl hne

/-- All sessions are complete; in the current one, everything that is needed is held. -/
def AllHeld (controllerMod : M) (world : World M) : Prop :=
  ∃ past, (∀ session ∈ past, CompleteSession controllerMod session) ∧
    world.sessions = match world.state.targetModule with
      | none => past
      | some _ => loadEffects controllerMod world.state.payloadModules :: past

theorem gets_past (h : ∀ session ∈ past, CompleteSession controllerMod session)
    (mod : M) :
    gets mod past.reverse.flatten = puts mod past.reverse.flatten := by
  induction past with
  | nil => rfl
  | cons session past ih =>
    have ih := ih fun session' hsession' => h session' (List.mem_cons_of_mem _ hsession')
    rw [List.reverse_cons, List.flatten_append, List.flatten_singleton, gets_append, puts_append,
      ih, (h session List.mem_cons_self).gets_eq]

theorem gets_ne_puts (hpast : ∀ session ∈ past, CompleteSession controllerMod session)
    (hsessions : world.sessions = loadEffects controllerMod payloads :: past)
    (hmem : payload ∈ payloads) :
    gets payload.mod world.effects ≠ puts payload.mod world.effects := by
  have hpos := held_pos controllerMod hmem
  rw [World.effects, hsessions, List.reverse_cons, List.flatten_append, List.flatten_singleton,
    gets_append, puts_append, gets_past hpast, gets_loadEffects, puts_loadEffects]
  omega

/-- Each kind of event keeps the sessions complete, if nothing fails when the target comes. -/
theorem AllHeld.moves {world' : World M} (h : AllHeld controllerMod world)
    (hconsistent : Consistent filterModule world) (hsucceeds : world.Succeeds filterModule event)
    (hmoves : world.Moves filterModule controllerMod event world') :
    AllHeld controllerMod world' := by
  obtain ⟨past, hpast, hsessions⟩ := h
  cases hmoves with
  | register payload alloc =>
    refine ⟨past, hpast, ?_⟩
    rcases kedrPayloadRegister_state world.state payload alloc with heq | ⟨hdeny, -, heq⟩
    · rw [heq]
      exact hsessions
    · rw [hconsistent.deny_eq, Option.isSome_eq_false_iff, Option.isNone_iff_eq_none] at hdeny
      rw [heq]
      simp only [hdeny] at hsessions ⊢
      exact hsessions
  | @unregister payload hrefs =>
    refine ⟨past, hpast, ?_⟩
    rw [kedrPayloadUnregister]
    cases htarget : world.state.targetModule with
    | none =>
      rw [htarget] at hsessions
      exact hsessions
    | some mod =>
      rw [htarget] at hsessions
      have hmem : payload ∉ world.state.payloadModules := fun hmem =>
        gets_ne_puts hpast hsessions hmem hrefs
      rw [List.erase_of_not_mem hmem]
      exact hsessions
  | otherComing outcome hnew hfilter => exact ⟨past, hpast, hsessions⟩
  | @targetComing mod outcome hnew hfilter htarget =>
    obtain ⟨horig, hrepl, hcontroller, hpayloads⟩ := hsucceeds hfilter
    obtain ⟨hpayloads', htarget', -⟩ := onModuleLoad_state controllerMod outcome
      { world.state with targetModule := some mod }
    refine ⟨past, hpast, ?_⟩
    simp only [htarget] at hsessions
    simp only [htarget', hpayloads', hsessions]
    exact List.cons_eq_cons.mpr ⟨onModuleLoad_effects horig hrepl hcontroller hpayloads, rfl⟩
  | otherGoing hloaded htarget => exact ⟨past, hpast, hsessions⟩
  | @targetGoing mod htarget =>
    simp only [htarget] at hsessions
    refine ⟨(loadEffects controllerMod world.state.payloadModules ++
      unloadEffects controllerMod world.state.payloadModules) :: past, ?_, ?_⟩
    · intro session hsession
      rcases List.mem_cons.mp hsession with rfl | hsession
      · exact ⟨_, hconsistent.payloads_nodup, rfl⟩
      · exact hpast session hsession
    · rw [hsessions]
      rfl

theorem Consistent.busy_iff (h : Consistent filterModule world) (payload : Payload M)
    (alloc : Bool) :
    (kedrPayloadRegister world.state payload alloc).1 = -EBUSY ↔
      ∃ mod ∈ world.loaded, filterModule mod = true := by
  have hdeny : (kedrPayloadRegister world.state payload alloc).1 = -EBUSY ↔
      world.state.denyPayloadRegister = true := by
    rw [kedrPayloadRegister]
    split_ifs with hdeny
    · exact iff_of_true rfl hdeny
    · exact iff_of_false (by decide : -EINVAL ≠ -EBUSY) hdeny
    · exact iff_of_false (by decide : -ENOMEM ≠ -EBUSY) hdeny
    · exact iff_of_false (by decide : (0 : Int) ≠ -EBUSY) hdeny
  rw [hdeny, h.deny_eq, Option.isSome_iff_exists]
  exact exists_congr h.target_iff

theorem AllHeld.disciplined (h : AllHeld controllerMod world)
    (hconsistent : Consistent filterModule world) :
    Disciplined filterModule world := by
  obtain ⟨past, hpast, hsessions⟩ := h
  cases htarget : world.state.targetModule with
  | none =>
    simp only [htarget] at hsessions
    refine ⟨fun session hsession => ?_, fun _ mod => ?_, fun payload hload hunload => ?_,
      hconsistent.busy_iff⟩
    · rw [hsessions] at hsession
      exact (hpast session hsession).putsMatched
    · rw [World.effects, hsessions]
      exact gets_past hpast mod
    · rw [World.effects, hsessions, ← List.append_nil (callbacks payload _)]
      exact alternate_append (fun session hsession => hpast session (List.mem_reverse.mp hsession))
        hload hunload trivial
  | some target =>
    simp only [htarget] at hsessions
    refine ⟨fun session hsession => ?_, fun hloaded mod => ?_, fun payload hload hunload => ?_,
      hconsistent.busy_iff⟩
    · rw [hsessions] at hsession
      rcases List.mem_cons.mp hsession with rfl | hsession
      · rw [← List.append_nil (loadEffects _ _)]
        exact putsMatched_append (fun _ => puts_loadEffects) fun _ => Nat.zero_le _
      · exact (hpast session hsession).putsMatched
    · -- the target is one of the modules that are loaded
      obtain ⟨htarget, hfilter⟩ := (hconsistent.target_iff target).mp htarget
      rw [hloaded target htarget] at hfilter
      cases hfilter
    · rw [World.effects, hsessions, List.reverse_cons, List.flatten_append,
        List.flatten_singleton, callbacks_append,
        callbacks_loadEffects hconsistent.payloads_nodup hload]
      refine alternate_append
        (fun session hsession => hpast session (List.mem_reverse.mp hsession)) hload hunload ?_
      split_ifs <;> trivial

/--
The discipline holds in every run in which no allocation and no `try_module_get` fails
when the target comes.
-/
theorem disciplined_of_reachable
    (filterModule : M → Bool) (controllerMod : M) (world : World M)
    (h : Reachable filterModule controllerMod (World.Succeeds filterModule) world) :
    Disciplined filterModule world := by
  have hinv : Consistent filterModule world ∧ AllHeld controllerMod world := by
    induction h with
    | init => exact ⟨.init, [], by simp, rfl⟩
    | @step world world' event _ hallowed hsucceeds hstep ih =>
      obtain ⟨hconsistent, hheld⟩ := ih
      obtain ⟨world'', hstep', hmoves⟩ := World.step_moves hconsistent hallowed
      rw [hstep] at hstep'
      cases hstep'
      exact ⟨hconsistent.moves hmoves, hheld.moves hconsistent hsucceeds hmoves⟩
  exact hinv.2.disciplined hinv.1

end Discipline

def onePayload : Payload Nat :=
  ⟨0, 1, [], true, true⟩

/-- The target is the module 2, and the controller is in the module 0. -/
def isTarget (mod : Nat) : Bool :=
  mod == 2

def registered : World Nat :=
  ⟨⟨[onePayload], false, [], none, []⟩, [], []⟩

theorem reachable_registered
    {C : World Nat → Event Nat → Prop} (hC : C ⟨.init, [], []⟩ (.register onePayload true)) :
    Reachable isTarget 0 C registered :=
  .step .init (show World.Allowed isTarget _ (.register onePayload true) from trivial) hC rfl

def payloadFails : LoadOutcome Nat :=
  ⟨true, true, fun _ => false, true⟩

/-- `try_module_get` fails for the payload, and its callback is not called. -/
theorem not_disciplined_of_payloadFails :
    ∃ world, Reachable isTarget 0 (fun _ _ => True) world ∧ ¬ Disciplined isTarget world := by
  have hregistered := reachable_registered (C := fun _ _ => True) trivial
  have hcoming : Reachable isTarget 0 (fun _ _ => True)
      ⟨⟨[onePayload], true, [], some 2, []⟩, [2], [[.get 1 false]]⟩ :=
    .step hregistered (show World.Allowed isTarget _ (.coming 2 payloadFails) from
      ⟨List.not_mem_nil, fun _ _ h => by cases h⟩) trivial rfl
  have hgoing : Reachable isTarget 0 (fun _ _ => True)
      ⟨⟨[onePayload], false, [], none, []⟩, [],
        [[.get 1 false, .unloadCallback onePayload, .put 1, .put 0]]⟩ :=
    .step hcoming (show World.Allowed isTarget _ (.going 2) from List.mem_cons_self) trivial rfl
  refine ⟨_, hgoing, fun h => ?_⟩
  -- the module of the payload is released, but was never held
  have hmatched := h.puts_matched _ List.mem_cons_self [.get 1 false, .unloadCallback onePayload] 1
    [.put 0] rfl
  revert hmatched
  decide

def allSucceed : LoadOutcome Nat :=
  ⟨true, true, fun _ => true, true⟩

/-- A session in which all calls succeed. -/
theorem disciplined_of_reachable_allSucceed :
    Disciplined isTarget (⟨⟨[onePayload], true, [], some 2, []⟩, [2],
      [[.get 1 true, .loadCallback onePayload, .get 0 true]]⟩ : World Nat) := by
  apply disciplined_of_reachable isTarget 0
  refine .step (reachable_registered trivial) (show World.Allowed isTarget _
    (.coming 2 allSucceed) from ⟨List.not_mem_nil, fun _ _ h => by cases h⟩) ?_ rfl
  exact fun _ => ⟨rfl, rfl, rfl, fun _ _ => rfl⟩

end Kedr
end KedrAux
