import KedrAux.Kedr.PayloadSessions

/-!
# Initialization of the standalone controller

The controller loads the base and the payloads by itself (`controller.c`, from
`controller_cleanup_module` to `controller_init_module`).  When a step of its initialization
fails, the steps before are to be undone.

The steps that can fail take their outcomes from outside; so does `mutex_lock_interruptible`
for `base_mutex` when something is unregistered.  The calls of the functions of payloads are
recorded.
-/

namespace KedrAux
namespace Kedr

open ErrorCodes

structure LoadedPayload (M : Type) where
  /-- The result of its function in `payloads_init`. -/
  result : Int
  /-- What this function does to the data of the base. -/
  init : KedrState M → KedrState M
  /-- What its function in `payloads_exit` does to the data of the base. -/
  exit : KedrState M → KedrState M

/-- A call of a function in `payloads_init`, with its result, or in `payloads_exit`. -/
inductive PayloadCall where
  | init (i : Nat) (result : Int)
  | exit (i : Nat)
deriving DecidableEq

/-- The global data, the mutexes that are held, and what is registered. -/
structure ControllerState (M : Type) where
  base : KedrState M
  /-- Whether `current_controller` is the controller; otherwise it is `NULL`. -/
  currentController : Bool
  /-- Whether `detector_nb` is registered. -/
  notifier : Bool
  handleModuleNotifications : Bool
  moduleMutex : Bool
  controllerMutex : Bool
  calls : List PayloadCall

def ControllerState.init {M : Type} : ControllerState M :=
  ⟨.init, false, false, false, false, false, []⟩

/-- The outcomes of the steps; for a mutex it is whether it is locked. -/
structure InitOutcome (M : Type) where
  baseInitModule : Int
  payloads : List (LoadedPayload M)
  /-- `base_mutex` in `kedr_impl_controller_register`. -/
  controllerRegister : Bool
  moduleMutex : Bool
  registerModuleNotifier : Int
  /-- Whether `find_module` finds the target. -/
  findModule : Bool
  controllerMutex : Bool
  /-- `base_mutex` when the controller unregisters itself. -/
  controllerUnregister : Bool
  /-- `base_mutex` when `base_cleanup_module` unregisters payloads and the controller. -/
  payloadCleanup : Payload M → Bool
  controllerCleanup : Bool

section Functions

variable {M : Type} [DecidableEq M] (outcome : InitOutcome M)

def kedrImplControllerRegister (s : ControllerState M) : Int × ControllerState M :=
  if !outcome.controllerRegister then (-EINTR, s)
  else if s.currentController then (-EINVAL, s)
  else (0, { s with currentController := true })

/-- `kedr_impl_controller_unregister`; `controller` is whether its argument is the controller
and not `NULL`. -/
def kedrImplControllerUnregister (locked controller : Bool) (s : ControllerState M) :
    ControllerState M :=
  if !locked then s
  else if s.currentController && controller then { s with currentController := false }
  else s

/-- The loop of `base_cleanup_module` over the payloads that are still registered. -/
def cleanupPayloads : List (Payload M) → KedrState M → KedrState M
  | [], s => s
  | payload :: payloads, s =>
    cleanupPayloads payloads
      (if outcome.payloadCleanup payload then kedrPayloadUnregister s payload else s)

def baseCleanupModule (s : ControllerState M) : ControllerState M :=
  let s := { s with base := cleanupPayloads outcome s.base.payloadModules s.base }
  let s := kedrImplControllerUnregister outcome.controllerCleanup s.currentController s
  { s with base := { s.base with combinedReplTable := [] } }

def baseInitModule (s : ControllerState M) : Int × ControllerState M :=
  (outcome.baseInitModule, { s with base := { s.base with payloadModules := [] } })

def baseExitModule (s : ControllerState M) : ControllerState M :=
  baseCleanupModule outcome s

def payloadInit (payload : LoadedPayload M) (i : Nat) (s : ControllerState M) :
    Int × ControllerState M :=
  (payload.result,
    { s with base := payload.init s.base, calls := s.calls ++ [.init i payload.result] })

def payloadExit (i : Nat) (s : ControllerState M) : ControllerState M :=
  { s with
    base := (outcome.payloads[i]?).elim s.base fun payload => payload.exit s.base
    calls := s.calls ++ [.exit i] }

/-- `for(;i>=0; i--) payloads_exit[i]();` -/
def exitDown : Nat → ControllerState M → ControllerState M
  | 0, s => payloadExit outcome 0 s
  | i + 1, s => exitDown i (payloadExit outcome (i + 1) s)

/-- The loop over `payloads_init` from the number `i` on, and what follows when a payload
fails. -/
def initPayloads : List (LoadedPayload M) → Nat → ControllerState M → Int × ControllerState M
  | [], _, s => (0, s)
  | payload :: payloads, i, s =>
    let (result, s) := payloadInit payload i s
    if result ≠ 0 then (result, baseExitModule outcome (exitDown outcome i s))
    else initPayloads payloads (i + 1) s

def exitPayloads (s : ControllerState M) : ControllerState M :=
  (List.range outcome.payloads.length).foldl (fun s i => payloadExit outcome i s) s

def controllerCleanupModule (s : ControllerState M) : ControllerState M :=
  let s := { s with notifier := false }
  let s := kedrImplControllerUnregister outcome.controllerUnregister true s
  baseExitModule outcome (exitPayloads outcome s)

/-- The part of `controller_init_module` where `module_mutex` is held. -/
def initUnderModuleMutex (s : ControllerState M) : Int × ControllerState M :=
  if outcome.registerModuleNotifier < 0 then
    (outcome.registerModuleNotifier, controllerCleanupModule outcome { s with moduleMutex := false })
  else
    let s := { s with notifier := true }
    if outcome.findModule then
      (-EEXIST, controllerCleanupModule outcome { s with moduleMutex := false })
    else if !outcome.controllerMutex then
      -- `goto fail`, not `goto unlock_and_fail`
      (-EINTR, controllerCleanupModule outcome s)
    else
      let s := { s with controllerMutex := true }
      let s := { s with handleModuleNotifications := true }
      let s := { s with controllerMutex := false }
      (0, { s with moduleMutex := false })

/-- The part of `controller_init_module` after the payloads. -/
def initController (s : ControllerState M) : Int × ControllerState M :=
  let (result, s) := kedrImplControllerRegister outcome s
  if result < 0 then (result, controllerCleanupModule outcome s)
  else if !outcome.moduleMutex then (-EINTR, controllerCleanupModule outcome s)
  else initUnderModuleMutex outcome { s with moduleMutex := true }

def controllerInitModule (s : ControllerState M) : Int × ControllerState M :=
  let (result, s) := baseInitModule outcome s
  if result ≠ 0 then (result, s)
  else
    let (result, s) := initPayloads outcome outcome.payloads 0 s
    if result ≠ 0 then (result, s)
    else initController outcome s

end Functions

structure ControllerState.Undone {M : Type} (s : ControllerState M) : Prop where
  /-- The payloads that were initialized, and no others, were asked once to exit. -/
  exits_eq : ∀ i, s.calls.count (.exit i) = if .init i 0 ∈ s.calls then 1 else 0
  notifier_eq : s.notifier = false
  currentController_eq : s.currentController = false
  moduleMutex_eq : s.moduleMutex = false
  controllerMutex_eq : s.controllerMutex = false

def FailureUndone {M : Type} [DecidableEq M] (outcome : InitOutcome M) : Prop :=
  (controllerInitModule outcome .init).1 ≠ 0 → (controllerInitModule outcome .init).2.Undone

def InitOutcome.ReachesControllerMutex {M : Type} (outcome : InitOutcome M) : Prop :=
  outcome.controllerRegister ∧ outcome.moduleMutex ∧ 0 ≤ outcome.registerModuleNotifier ∧
    outcome.findModule = false

/-- The conditions for a failure that is undone: the base fails, or no payload fails,
`controller_mutex` is locked if the controller comes to it, and one of the two attempts to
unregister the controller gets `base_mutex` if both are made. -/
def InitOutcome.Undoes {M : Type} (outcome : InitOutcome M) : Prop :=
  outcome.baseInitModule ≠ 0 ∨
    (∀ payload ∈ outcome.payloads, payload.result = 0) ∧
      (outcome.ReachesControllerMutex → outcome.controllerMutex) ∧
      (outcome.controllerRegister → ¬ outcome.ReachesControllerMutex →
        outcome.controllerUnregister ∨ outcome.controllerCleanup)

section Steps

variable {M : Type} (outcome : InitOutcome M)

theorem exitDown_calls (i : Nat) (s : ControllerState M) :
    ∃ calls, (exitDown outcome i s).calls = s.calls ++ .exit i :: calls ∧
      ∀ call ∈ calls, ∃ j, call = .exit j := by
  induction i generalizing s with
  | zero => exact ⟨[], rfl, by simp⟩
  | succ i ih =>
    obtain ⟨calls, hcalls, hexits⟩ := ih (payloadExit outcome (i + 1) s)
    refine ⟨.exit i :: calls, ?_, ?_⟩
    · rw [exitDown, hcalls, payloadExit]
      simp
    · intro call hcall
      rcases List.mem_cons.mp hcall with rfl | hcall
      · exact ⟨i, rfl⟩
      · exact hexits call hcall

theorem exitPayloads_eq (s : ControllerState M) :
    ∃ base, exitPayloads outcome s =
      { s with
        base := base
        calls := s.calls ++ (List.range outcome.payloads.length).map .exit } := by
  rw [exitPayloads]
  generalize List.range outcome.payloads.length = indices
  induction indices generalizing s with
  | nil => exact ⟨s.base, by simp⟩
  | cons i indices ih =>
    obtain ⟨base, hrest⟩ := ih (payloadExit outcome i s)
    refine ⟨base, ?_⟩
    rw [List.foldl_cons, hrest]
    simp [payloadExit]

variable [DecidableEq M]

theorem baseExitModule_eq (s : ControllerState M) :
    ∃ base, baseExitModule outcome s =
      { s with
        base := base
        currentController := s.currentController && !outcome.controllerCleanup } := by
  refine ⟨{ cleanupPayloads outcome s.base.payloadModules s.base with
    combinedReplTable := [] }, ?_⟩
  rw [baseExitModule, baseCleanupModule, kedrImplControllerUnregister]
  cases outcome.controllerCleanup <;> cases hcontroller : s.currentController <;>
    simp

variable {payloads : List (LoadedPayload M)} {s : ControllerState M}

theorem initPayloads_of_succeeds (h : ∀ payload ∈ payloads, payload.result = 0) (i : Nat)
    (s : ControllerState M) :
    ∃ base, initPayloads outcome payloads i s =
      (0, { s with
        base := base
        calls := s.calls ++ (List.range' i payloads.length).map fun j => .init j 0 }) := by
  induction payloads generalizing i s with
  | nil => exact ⟨s.base, by simp [initPayloads]⟩
  | cons payload payloads ih =>
    have hresult := h payload List.mem_cons_self
    obtain ⟨base, hrest⟩ := ih (fun p hp => h p (List.mem_cons_of_mem _ hp)) (i + 1)
      (payloadInit payload i s).2
    refine ⟨base, ?_⟩
    rw [initPayloads]
    simp only [payloadInit, hresult, ne_eq, not_true_eq_false, if_false] at hrest ⊢
    rw [hrest]
    simp [List.range'_succ]

theorem initPayloads_of_fails (h : ∃ payload ∈ payloads, payload.result ≠ 0) {i : Nat}
    (hcalls : ∀ j result, .init j result ∈ s.calls → j < i) :
    (initPayloads outcome payloads i s).1 ≠ 0 ∧
      ∃ k, .exit k ∈ (initPayloads outcome payloads i s).2.calls ∧
        .init k 0 ∉ (initPayloads outcome payloads i s).2.calls := by
  induction payloads generalizing i s with
  | nil => simp at h
  | cons payload payloads ih =>
    rw [initPayloads]
    by_cases hresult : payload.result = 0
    · simp only [payloadInit, hresult, ne_eq, not_true_eq_false, if_false]
      refine ih ?_ ?_
      · obtain ⟨p, hp, hfails⟩ := h
        rcases List.mem_cons.mp hp with rfl | hp
        · exact absurd hresult hfails
        · exact ⟨p, hp, hfails⟩
      · intro j result hcall
        rcases List.mem_append.mp hcall with hcall | hcall
        · exact (hcalls j result hcall).trans (Nat.lt_succ_self i)
        · simp only [List.mem_singleton, PayloadCall.init.injEq] at hcall
          omega
    · simp only [payloadInit, ne_eq, hresult, not_false_eq_true, if_true]
      obtain ⟨base, hexit⟩ := baseExitModule_eq outcome
        (exitDown outcome i { s with
          base := payload.init s.base, calls := s.calls ++ [.init i payload.result] })
      obtain ⟨calls, hdown, hexits⟩ := exitDown_calls outcome i { s with
        base := payload.init s.base, calls := s.calls ++ [.init i payload.result] }
      refine ⟨trivial, i, ?_, ?_⟩
      · rw [hexit]
        simp [hdown]
      · rw [hexit]
        simp only [hdown, List.mem_append, List.mem_cons, List.not_mem_nil, or_false,
          PayloadCall.init.injEq, reduceCtorEq, false_or, not_or]
        refine ⟨⟨?_, fun heq => hresult heq.2.symm⟩, ?_⟩
        · intro hcall
          exact absurd (hcalls i 0 hcall) (lt_irrefl i)
        · intro hcall
          obtain ⟨j, hj⟩ := hexits _ hcall
          cases hj

/-- What `controller_cleanup_module` does not undo: the mutexes stay as they are, and the
controller stays registered when `base_mutex` is locked for neither attempt. -/
theorem controllerCleanupModule_eq (s : ControllerState M) :
    ∃ base, controllerCleanupModule outcome s =
      { s with
        base := base
        notifier := false
        currentController := s.currentController &&
          !(outcome.controllerUnregister || outcome.controllerCleanup)
        calls := s.calls ++ (List.range outcome.payloads.length).map .exit } := by
  rw [controllerCleanupModule]
  obtain ⟨base, hexits⟩ := exitPayloads_eq outcome
    (kedrImplControllerUnregister outcome.controllerUnregister true { s with notifier := false })
  obtain ⟨base', hbase⟩ := baseExitModule_eq outcome (exitPayloads outcome
    (kedrImplControllerUnregister outcome.controllerUnregister true { s with notifier := false }))
  refine ⟨base', ?_⟩
  rw [hbase, hexits, kedrImplControllerUnregister]
  cases outcome.controllerUnregister <;> cases hcontroller : s.currentController <;>
    simp

theorem count_exit_of_balanced {calls : List PayloadCall} {n : Nat}
    (hcalls : calls =
      (List.range n).map (fun j => .init j 0) ++ (List.range n).map .exit) (i : Nat) :
    calls.count (.exit i) = if .init i 0 ∈ calls then 1 else 0 := by
  have hinits : ((List.range n).map fun j => PayloadCall.init j 0).count (.exit i) = 0 := by
    rw [List.count_eq_zero]
    simp
  have hexits : ((List.range n).map PayloadCall.exit).count (.exit i) =
      (List.range n).count i :=
    List.count_map_of_injective _ _ (fun _ _ heq => PayloadCall.exit.inj heq) i
  have hmem : PayloadCall.init i 0 ∈ calls ↔ i ∈ List.range n := by
    simp [hcalls]
  simp only [hmem]
  rw [hcalls, List.count_append, hinits, hexits, Nat.zero_add, List.nodup_range.count]

/-- What `controller_cleanup_module` undoes when all payloads have been initialized. -/
theorem controllerCleanupModule_undone_iff
    (hcalls : s.calls = (List.range outcome.payloads.length).map fun j => .init j 0) :
    (controllerCleanupModule outcome s).Undone ↔
      (s.currentController → outcome.controllerUnregister ∨ outcome.controllerCleanup) ∧
        s.moduleMutex = false ∧ s.controllerMutex = false := by
  obtain ⟨base, hclean⟩ := controllerCleanupModule_eq outcome s
  have hbalanced : s.calls ++ (List.range outcome.payloads.length).map .exit =
      (List.range outcome.payloads.length).map (fun j => .init j 0) ++
        (List.range outcome.payloads.length).map .exit := by
    rw [hcalls]
  have hleft : (s.currentController &&
      !(outcome.controllerUnregister || outcome.controllerCleanup)) = false ↔
      (s.currentController → outcome.controllerUnregister ∨ outcome.controllerCleanup) := by
    cases s.currentController <;> cases outcome.controllerUnregister <;> simp
  rw [hclean]
  constructor
  · intro h
    exact ⟨hleft.mp h.currentController_eq, h.moduleMutex_eq, h.controllerMutex_eq⟩
  · rintro ⟨hunregister, hmodule, hmutex⟩
    exact ⟨count_exit_of_balanced hbalanced, rfl, hleft.mpr hunregister, hmodule, hmutex⟩

def ControllerState.withPayloads (base : KedrState M) : ControllerState M :=
  { (ControllerState.init : ControllerState M) with
    base := base
    calls := (List.range outcome.payloads.length).map fun j => .init j 0 }

/-- When a failed initialization of the controller leaves nothing behind. -/
theorem initController_undone_iff (base : KedrState M) :
    ((initController outcome (.withPayloads outcome base)).1 ≠ 0 →
        (initController outcome (.withPayloads outcome base)).2.Undone) ↔
      (outcome.ReachesControllerMutex → outcome.controllerMutex) ∧
        (outcome.controllerRegister → ¬ outcome.ReachesControllerMutex →
          outcome.controllerUnregister ∨ outcome.controllerCleanup) := by
  have hundone (current notifier handle module mutex : Bool) :=
    controllerCleanupModule_undone_iff outcome
      (s := ⟨base, current, notifier, handle, module, mutex, _⟩) rfl
  cases hregister : outcome.controllerRegister with
  | false =>
    simp [initController, kedrImplControllerRegister, ControllerState.withPayloads,
      ControllerState.init, InitOutcome.ReachesControllerMutex, hregister, EINTR, hundone]
  | true =>
    have hinit : initController outcome (.withPayloads outcome base) =
        if !outcome.moduleMutex then
          (-EINTR, controllerCleanupModule outcome
            { ControllerState.withPayloads outcome base with currentController := true })
        else initUnderModuleMutex outcome
          { ControllerState.withPayloads outcome base with
            currentController := true, moduleMutex := true } := by
      simp [initController, kedrImplControllerRegister, ControllerState.withPayloads,
        ControllerState.init, hregister]
    rw [hinit]
    simp only [ControllerState.withPayloads, ControllerState.init]
    cases hlock : outcome.moduleMutex with
    | false => simp [InitOutcome.ReachesControllerMutex, hlock, EINTR, hundone]
    | true =>
      by_cases hnotifier : outcome.registerModuleNotifier < 0
      · simp [initUnderModuleMutex, InitOutcome.ReachesControllerMutex, hnotifier,
          hnotifier.ne, hundone]
      · cases hfind : outcome.findModule with
        | true =>
          simp [initUnderModuleMutex, InitOutcome.ReachesControllerMutex, hnotifier, hfind,
            EEXIST, hundone]
        | false =>
          have hreaches : outcome.ReachesControllerMutex :=
            ⟨hregister, hlock, not_lt.mp hnotifier, hfind⟩
          cases hmutex : outcome.controllerMutex with
          | false =>
            -- `module_mutex` stays locked
            simp [initUnderModuleMutex, hreaches, hnotifier, hfind, hmutex, EINTR,
              hundone]
          | true => simp [initUnderModuleMutex, hreaches, hnotifier, hfind, hmutex]

theorem controllerInitModule_of_base_fails (h : outcome.baseInitModule ≠ 0)
    (s : ControllerState M) :
    ∃ base, controllerInitModule outcome s = (outcome.baseInitModule, { s with base := base }) :=
  ⟨{ s.base with payloadModules := [] }, by simp [controllerInitModule, baseInitModule, h]⟩

theorem controllerInitModule_of_payload_fails (hbase : outcome.baseInitModule = 0)
    (h : ∃ payload ∈ outcome.payloads, payload.result ≠ 0) :
    (controllerInitModule outcome .init).1 ≠ 0 ∧
      ∃ k, .exit k ∈ (controllerInitModule outcome .init).2.calls ∧
        .init k 0 ∉ (controllerInitModule outcome .init).2.calls := by
  have hfails := initPayloads_of_fails outcome h
    (i := 0) (s := (baseInitModule outcome .init).2) (by simp [baseInitModule, ControllerState.init])
  rw [controllerInitModule]
  simp only [baseInitModule, hbase, ne_eq, not_true_eq_false, if_false] at hfails ⊢
  rw [if_pos hfails.1]
  exact hfails

theorem controllerInitModule_of_payloads_succeed (hbase : outcome.baseInitModule = 0)
    (h : ∀ payload ∈ outcome.payloads, payload.result = 0) :
    ∃ base, controllerInitModule outcome .init =
      initController outcome (.withPayloads outcome base) := by
  obtain ⟨base, hinit⟩ := initPayloads_of_succeeds outcome h 0 (baseInitModule outcome .init).2
  refine ⟨base, ?_⟩
  rw [controllerInitModule]
  simp only [baseInitModule, hbase, ne_eq, not_true_eq_false, if_false] at hinit ⊢
  simp only [hinit, not_true_eq_false, if_false]
  simp only [ControllerState.withPayloads, ControllerState.init, List.nil_append,
    List.range_eq_range']

/-- A failed initialization is undone under these conditions, and only under them. -/
theorem failureUndone_iff : FailureUndone outcome ↔ outcome.Undoes := by
  rw [FailureUndone, InitOutcome.Undoes]
  by_cases hbase : outcome.baseInitModule = 0
  · by_cases hpayloads : ∀ payload ∈ outcome.payloads, payload.result = 0
    · obtain ⟨base, hinit⟩ := controllerInitModule_of_payloads_succeed outcome hbase hpayloads
      rw [hinit, initController_undone_iff]
      exact ⟨fun h => .inr ⟨hpayloads, h⟩, fun h => (h.resolve_left (absurd hbase)).2⟩
    · have hfails : ∃ payload ∈ outcome.payloads, payload.result ≠ 0 := by
        simpa using hpayloads
      obtain ⟨hresult, k, hexit, hinit⟩ :=
        controllerInitModule_of_payload_fails outcome hbase hfails
      constructor
      · intro hundone
        -- the payload that failed has been asked to exit
        have hcount := (hundone hresult).exits_eq k
        rw [if_neg hinit, List.count_eq_zero] at hcount
        exact absurd hexit hcount
      · intro h
        exact absurd (h.resolve_left (absurd hbase)).1 hpayloads
  · obtain ⟨base, hinit⟩ := controllerInitModule_of_base_fails outcome hbase .init
    rw [hinit]
    refine ⟨fun _ => .inl hbase, fun _ _ => ⟨?_, rfl, rfl, rfl, rfl⟩⟩
    simp [ControllerState.init]

/-- A payload fails, and its function in `payloads_exit` is called. -/
theorem failureUndone_false :
    ¬ FailureUndone (M := Unit)
      { baseInitModule := 0
        payloads := [⟨-1, id, id⟩]
        controllerRegister := true
        moduleMutex := true
        registerModuleNotifier := 0
        findModule := false
        controllerMutex := true
        controllerUnregister := true
        payloadCleanup := fun _ => true
        controllerCleanup := true } := by
  intro h
  have hcount := (h (by decide)).exits_eq 0
  revert hcount
  decide

end Steps

end Kedr
end KedrAux
