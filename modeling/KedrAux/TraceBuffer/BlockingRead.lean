import KedrAux.TraceBuffer.LastMessages

/-!
# Locks and wait queues of a blocking read

`trace_buffer_read_message` by itself.  What its calls return comes from outside: the results
of `trace_buffer_update_internal`, whether a fatal signal is pending, whether
`mutex_lock_killable` succeeds, and whether `table.wait` was taken from the wait queue when
the reader was woken up.

After `schedule()` the mutex may not be locked again.  The function then goes to its end,
where the mutex is unlocked.
-/

namespace KedrAux
namespace Tracing
namespace BlockingRead

open ErrorCodes

/-- What the calls of `trace_buffer_read_message` return, by the number of the call. -/
structure Outcomes where
  updateInternal : Nat → Int
  fatalSignalPending : Nat → Bool
  /-- Whether `mutex_lock_killable` locks the mutex. -/
  mutexLockKillable : Nat → Bool
  /-- Whether the reader was taken from the wait queue in `schedule()`. -/
  woken : Nat → Bool
  /-- The result of `trace_buffer_read_internal`. -/
  readInternal : Int

/-- Places in the code of `trace_buffer_read_message`. -/
inductive ReadPlace where
  /-- At the first `mutex_lock_killable`. -/
  | locking
  /-- At the condition of the outer loop. -/
  | updating
  /-- At the begin of the inner loop. -/
  | waiting
  /-- At `fatal_signal_pending`. -/
  | verifying
  /-- At `schedule()`. -/
  | scheduling
  /-- After the inner loop. -/
  | finishing
  /-- At `trace_buffer_read_internal`. -/
  | reading
  /-- At the label `out`. -/
  | unlocking
  | returned
  /-- A `BUG_ON` failed. -/
  | crashed
deriving DecidableEq

/-- A call that has to be made in the right state. -/
inductive ReadCall where
  | mutexUnlock (held : Bool)
  /-- With the result of the last update. -/
  | readInternal (held : Bool) (updated : Int)
  | addWaitQueue (registered : Bool)
  /-- A `BUG_ON` that fails. -/
  | bug
deriving DecidableEq

structure Reader where
  place : ReadPlace
  result : Int
  /-- Whether `table.q` is not `NULL`. -/
  tableQ : Bool
  /-- Whether `table.wait` is in the wait queue. -/
  registered : Bool
  /-- Whether the reader holds `read_mutex`. -/
  held : Bool
  /-- The result of the last update. -/
  updated : Int
  /-- The number of updates, of checks for signals (and so of waits) and of locks. -/
  updates : Nat
  signals : Nat
  locks : Nat
  calls : List ReadCall

def Reader.init : Reader :=
  ⟨.locking, 0, false, false, false, 0, 0, 0, 0, []⟩

def Reader.mutexLockKillable (outcomes : Outcomes) (s : Reader) : Bool × Reader :=
  (outcomes.mutexLockKillable s.locks,
    { s with
      locks := s.locks + 1
      held := s.held || outcomes.mutexLockKillable s.locks })

def Reader.mutexUnlock (s : Reader) : Reader :=
  { s with held := false, calls := s.calls ++ [.mutexUnlock s.held] }

def Reader.readWaitInit (s : Reader) : Reader :=
  { s with tableQ := false }

def Reader.readWaitFinish (s : Reader) : Reader :=
  if s.tableQ then { s with registered := false, tableQ := false } else s

/-- `read_wait_function`; nothing is returned after a failed `BUG_ON`. -/
def Reader.readWaitFunction (s : Reader) : Option Reader :=
  if s.tableQ then none
  else some
    { s with
      tableQ := true
      registered := true
      calls := s.calls ++ [.addWaitQueue s.registered] }

/-- `trace_buffer_update_internal`, after the call of its `wait_function`. -/
def Reader.updateInternal (outcomes : Outcomes) (s : Reader) : Reader :=
  { s with
    result := outcomes.updateInternal s.updates
    updated := outcomes.updateInternal s.updates
    updates := s.updates + 1 }

def Reader.schedule (outcomes : Outcomes) (s : Reader) : Reader :=
  { s with registered := s.registered && !outcomes.woken (s.signals - 1) }

def afterLoop (result : Int) : ReadPlace :=
  if result ≠ 0 then .unlocking else .reading

/-- The code from one place to the next. -/
def step (outcomes : Outcomes) (shouldWait : Bool) (s : Reader) : Reader :=
  match s.place with
  | .locking =>
    let (locked, s) := s.mutexLockKillable outcomes
    if locked then { s with place := .updating }
    else { s with place := .returned, result := -ERESTARTSYS }
  | .updating =>
    let s := s.updateInternal outcomes
    if s.result = -EAGAIN ∧ shouldWait then { s.readWaitInit with place := .waiting }
    else { s with place := afterLoop s.result }
  | .waiting =>
    match s.readWaitFunction with
    | none => { s with place := .crashed, calls := s.calls ++ [.bug] }
    | some s =>
      let s := s.updateInternal outcomes
      if s.result ≠ -EAGAIN then { s with place := .finishing }
      else { s with place := .verifying }
  | .verifying =>
    let pending := outcomes.fatalSignalPending s.signals
    let s := { s with signals := s.signals + 1 }
    if pending then { s with place := .finishing, result := -ERESTARTSYS }
    else { s.mutexUnlock with place := .scheduling }
  | .scheduling =>
    let (locked, s) := (s.schedule outcomes).mutexLockKillable outcomes
    if !locked then { s with place := .finishing, result := -ERESTARTSYS }
    else { s.readWaitFinish with place := .waiting }
  | .finishing =>
    let s := s.readWaitFinish
    if s.result ≠ -EAGAIN then { s with place := afterLoop s.result }
    else { s with place := .updating }
  | .reading =>
    { s with
      place := .unlocking
      result := outcomes.readInternal
      calls := s.calls ++ [.readInternal s.held s.updated] }
  | .unlocking => { s.mutexUnlock with place := .returned }
  | .returned | .crashed => s

def run (outcomes : Outcomes) (shouldWait : Bool) : Nat → Reader
  | 0 => .init
  | n + 1 => step outcomes shouldWait (run outcomes shouldWait n)

/-- Whether a call is made in the right state. -/
def ReadCall.Allowed : ReadCall → Prop
  | .mutexUnlock held => held = true
  | .readInternal held updated => held = true ∧ updated = 0
  | .addWaitQueue registered => registered = false
  | .bug => False

/-- The discipline of locks and wait queues. -/
structure Disciplined (s : Reader) : Prop where
  calls_allowed : ∀ call ∈ s.calls, call.Allowed
  not_crashed : s.place ≠ .crashed
  /-- On return the mutex is not held, and the reader is in no wait queue. -/
  returned_free : s.place = .returned → s.held = false ∧ s.registered = false

/-- The reader comes to wait for the time `k`, and is not killed until then. -/
structure Outcomes.Waits (outcomes : Outcomes) (shouldWait : Bool) (k : Nat) : Prop where
  shouldWait_eq : shouldWait = true
  locked : ∀ j, j < k → outcomes.mutexLockKillable j = true
  empty : ∀ j, j ≤ k → outcomes.updateInternal j = -EAGAIN
  not_pending : ∀ j, j < k → outcomes.fatalSignalPending j = false

/-- After a `schedule()` the mutex is not locked again. -/
def Outcomes.RelockFails (outcomes : Outcomes) (shouldWait : Bool) : Prop :=
  ∃ k, 1 ≤ k ∧ outcomes.Waits shouldWait k ∧ outcomes.mutexLockKillable k = false

section Runs

variable {outcomes : Outcomes} {shouldWait : Bool}

variable {k j : Nat} {s : Reader}

theorem Outcomes.Waits.succ (h : outcomes.Waits shouldWait k)
    (hlock : outcomes.mutexLockKillable k = true)
    (hempty : outcomes.updateInternal (k + 1) = -EAGAIN)
    (hpending : outcomes.fatalSignalPending k = false) :
    outcomes.Waits shouldWait (k + 1) := by
  refine ⟨h.shouldWait_eq, fun j hj => ?_, fun j hj => ?_, fun j hj => ?_⟩
  · rcases Nat.lt_succ_iff_lt_or_eq.mp hj with hj | rfl
    · exact h.locked j hj
    · exact hlock
  · rcases Nat.le_succ_iff.mp hj with hj | rfl
    · exact h.empty j hj
    · exact hempty
  · rcases Nat.lt_succ_iff_lt_or_eq.mp hj with hj | rfl
    · exact h.not_pending j hj
    · exact hpending

variable (outcomes shouldWait) in
/-- What holds at each place when no lock after a wait fails. -/
def AtPlace (s : Reader) : Prop :=
  match s.place with
  | .locking => s.held = false ∧ s.tableQ = false ∧ s.registered = false ∧
      s.updates = 0 ∧ s.signals = 0 ∧ s.locks = 0
  | .updating => s.held = true ∧ s.tableQ = false ∧ s.registered = false ∧
      s.updates = 0 ∧ s.signals = 0 ∧ s.locks = 1 ∧ outcomes.mutexLockKillable 0 = true
  | .waiting => s.held = true ∧ s.tableQ = false ∧ s.registered = false ∧
      s.updates = s.signals + 1 ∧ s.locks = s.signals + 1 ∧
      outcomes.Waits shouldWait s.signals ∧ outcomes.mutexLockKillable s.signals = true
  | .verifying => s.held = true ∧ s.tableQ = true ∧
      s.updates = s.signals + 2 ∧ s.locks = s.signals + 1 ∧
      outcomes.Waits shouldWait s.signals ∧ outcomes.mutexLockKillable s.signals = true ∧
      outcomes.updateInternal (s.signals + 1) = -EAGAIN
  | .scheduling => s.held = false ∧ s.tableQ = true ∧
      s.updates = s.signals + 1 ∧ s.locks = s.signals ∧ 1 ≤ s.signals ∧
      outcomes.Waits shouldWait s.signals
  | .finishing => s.held = true ∧ s.tableQ = true ∧ s.result ≠ -EAGAIN ∧
      (s.result = 0 → s.updated = 0)
  | .reading => s.held = true ∧ s.registered = false ∧ s.updated = 0
  | .unlocking => s.held = true ∧ s.registered = false
  | .returned => s.held = false ∧ s.registered = false
  | .crashed => False

variable (outcomes shouldWait) in
structure Inv (s : Reader) : Prop where
  calls_allowed : ∀ call ∈ s.calls, call.Allowed
  atPlace : AtPlace outcomes shouldWait s

theorem inv_init : Inv outcomes shouldWait .init :=
  ⟨by simp [Reader.init], ⟨rfl, rfl, rfl, rfl, rfl, rfl⟩⟩

theorem allowed_snoc {calls : List ReadCall} (call : ReadCall)
    (hcalls : ∀ c ∈ calls, c.Allowed) (hcall : call.Allowed) :
    ∀ c ∈ calls ++ [call], c.Allowed := by
  intro c hc
  rcases List.mem_append.mp hc with hc | hc
  · exact hcalls c hc
  · rwa [List.mem_singleton.mp hc]

/-- A step of the reader keeps the invariant, unless locking again fails. -/
theorem inv_step (hrelock : ¬ outcomes.RelockFails shouldWait) (h : Inv outcomes shouldWait s) :
    Inv outcomes shouldWait (step outcomes shouldWait s) := by
  obtain ⟨place, result, tableQ, registered, held, updated, updates, signals, locks, calls⟩ := s
  obtain ⟨hcalls, hplace⟩ := h
  dsimp only [AtPlace] at hcalls hplace
  cases place with
  | locking =>
    obtain ⟨rfl, rfl, rfl, rfl, rfl, rfl⟩ := hplace
    cases hlock : outcomes.mutexLockKillable 0 with
    | false =>
      simp only [step, Reader.mutexLockKillable, hlock]
      exact ⟨hcalls, rfl, rfl⟩
    | true =>
      simp only [step, Reader.mutexLockKillable, hlock]
      exact ⟨hcalls, rfl, rfl, rfl, rfl, rfl, rfl, hlock⟩
  | updating =>
    obtain ⟨rfl, rfl, rfl, rfl, rfl, rfl, hlock⟩ := hplace
    by_cases hwait : outcomes.updateInternal 0 = -EAGAIN ∧ shouldWait = true
    · obtain ⟨hempty, rfl⟩ := hwait
      simp only [step, Reader.updateInternal, hempty, and_self, if_true, Reader.readWaitInit]
      refine ⟨hcalls, rfl, rfl, rfl, rfl, rfl, ⟨rfl, ?_, ?_, ?_⟩, hlock⟩
      · simp
      · intro j hj
        rw [Nat.le_zero.mp hj]
        exact hempty
      · simp
    · simp only [step, Reader.updateInternal, hwait, if_false, afterLoop]
      by_cases hresult : outcomes.updateInternal 0 = 0
      · simp only [hresult, ne_eq, not_true_eq_false, if_false]
        exact ⟨hcalls, rfl, rfl, rfl⟩
      · simp only [hresult, ne_eq, not_false_eq_true, if_true]
        exact ⟨hcalls, rfl, rfl⟩
  | waiting =>
    obtain ⟨rfl, rfl, rfl, rfl, rfl, hwaits, hlock⟩ := hplace
    have hcalls' := allowed_snoc (.addWaitQueue false) hcalls rfl
    by_cases hresult : outcomes.updateInternal (signals + 1) = -EAGAIN
    · simp only [step, Reader.readWaitFunction, Reader.updateInternal, Bool.false_eq_true,
        if_false, hresult, ne_eq, not_true_eq_false]
      exact ⟨hcalls', rfl, rfl, rfl, rfl, hwaits, hlock, hresult⟩
    · simp only [step, Reader.readWaitFunction, Reader.updateInternal, Bool.false_eq_true,
        if_false, hresult, ne_eq, not_false_eq_true, if_true]
      exact ⟨hcalls', rfl, rfl, hresult, id⟩
  | verifying =>
    obtain ⟨rfl, rfl, rfl, rfl, hwaits, hlock, hempty⟩ := hplace
    cases hpending : outcomes.fatalSignalPending signals with
    | true =>
      have hagain : -ERESTARTSYS ≠ -EAGAIN := by decide
      have hzero : -ERESTARTSYS ≠ 0 := by decide
      simp only [step, hpending, if_true]
      exact ⟨hcalls, rfl, rfl, hagain, fun h => absurd h hzero⟩
    | false =>
      simp only [step, hpending, Bool.false_eq_true, if_false, Reader.mutexUnlock]
      exact ⟨allowed_snoc _ hcalls rfl, rfl, rfl, rfl, rfl, Nat.le_add_left 1 signals,
        hwaits.succ hlock hempty hpending⟩
  | scheduling =>
    obtain ⟨rfl, rfl, rfl, rfl, hsignals, hwaits⟩ := hplace
    have hlock : outcomes.mutexLockKillable locks = true := by
      by_contra hfails
      exact hrelock ⟨locks, hsignals, hwaits, Bool.eq_false_iff.mpr hfails⟩
    simp only [step, Reader.schedule, Reader.mutexLockKillable, hlock, Reader.readWaitFinish,
      Bool.not_true, Bool.false_eq_true, if_false, if_true]
    exact ⟨hcalls, rfl, rfl, rfl, rfl, rfl, hwaits, hlock⟩
  | finishing =>
    obtain ⟨rfl, rfl, hresult, hupdated⟩ := hplace
    simp only [step, Reader.readWaitFinish, if_true, hresult, ne_eq, not_false_eq_true,
      afterLoop]
    by_cases hzero : result = 0
    · simp only [hzero, not_true_eq_false, if_false]
      exact ⟨hcalls, rfl, rfl, hupdated hzero⟩
    · simp only [hzero, not_false_eq_true, if_true]
      exact ⟨hcalls, rfl, rfl⟩
  | reading =>
    obtain ⟨rfl, rfl, rfl⟩ := hplace
    exact ⟨allowed_snoc _ hcalls ⟨rfl, rfl⟩, rfl, rfl⟩
  | unlocking =>
    obtain ⟨rfl, rfl⟩ := hplace
    exact ⟨allowed_snoc _ hcalls rfl, rfl, rfl⟩
  | returned => exact ⟨hcalls, hplace⟩
  | crashed => exact hplace.elim

theorem inv_run (hrelock : ¬ outcomes.RelockFails shouldWait) (n : Nat) :
    Inv outcomes shouldWait (run outcomes shouldWait n) := by
  induction n with
  | zero => exact inv_init
  | succ n ih => exact inv_step hrelock ih

theorem Inv.disciplined (h : Inv outcomes shouldWait s) : Disciplined s := by
  refine ⟨h.calls_allowed, fun hcrashed => ?_, fun hreturned => ?_⟩
  · have hplace := h.atPlace
    rw [AtPlace, hcrashed] at hplace
    exact hplace
  · have hplace := h.atPlace
    rw [AtPlace, hreturned] at hplace
    exact hplace

/-- The reader is about to wait for another time, after `j` times. -/
def WaitsAgain (j : Nat) (s : Reader) : Prop :=
  s.place = .waiting ∧ s.tableQ = false ∧
    s.updates = j + 1 ∧ s.signals = j ∧ s.locks = j + 1

/-- The reader has released the mutex for the time `k`. -/
def Released (k : Nat) (s : Reader) : Prop :=
  s.place = .scheduling ∧ s.held = false ∧ s.tableQ = true ∧
    s.updates = k + 1 ∧ s.signals = k ∧ s.locks = k

theorem WaitsAgain.released (h : WaitsAgain j s)
    (hempty : outcomes.updateInternal (j + 1) = -EAGAIN)
    (hpending : outcomes.fatalSignalPending j = false) :
    Released (j + 1) (step outcomes shouldWait (step outcomes shouldWait s)) := by
  obtain ⟨place, result, tableQ, registered, held, updated, updates, signals, locks, calls⟩ := s
  dsimp only [WaitsAgain] at h
  obtain ⟨rfl, rfl, rfl, rfl, rfl⟩ := h
  simp only [step, Reader.readWaitFunction, Reader.updateInternal, Bool.false_eq_true, if_false,
    hempty, ne_eq, not_true_eq_false, hpending, Reader.mutexUnlock]
  exact ⟨rfl, rfl, rfl, rfl, rfl, rfl⟩

theorem Released.waitsAgain (h : Released k s) (hlock : outcomes.mutexLockKillable k = true) :
    WaitsAgain k (step outcomes shouldWait s) := by
  obtain ⟨place, result, tableQ, registered, held, updated, updates, signals, locks, calls⟩ := s
  dsimp only [Released] at h
  obtain ⟨rfl, rfl, rfl, rfl, rfl, rfl⟩ := h
  simp only [step, Reader.schedule, Reader.mutexLockKillable, hlock, Reader.readWaitFinish,
    Bool.not_true, Bool.false_eq_true, if_false, if_true]
  exact ⟨rfl, rfl, rfl, rfl, rfl⟩

theorem Released.unlocks (h : Released k s) (hlock : outcomes.mutexLockKillable k = false) :
    .mutexUnlock false ∈ (step outcomes shouldWait (step outcomes shouldWait
      (step outcomes shouldWait s))).calls := by
  obtain ⟨place, result, tableQ, registered, held, updated, updates, signals, locks, calls⟩ := s
  dsimp only [Released] at h
  obtain ⟨rfl, rfl, rfl, rfl, rfl, rfl⟩ := h
  have hagain : -ERESTARTSYS ≠ -EAGAIN := by decide
  have hzero : -ERESTARTSYS ≠ 0 := by decide
  simp [step, Reader.schedule, Reader.mutexLockKillable, hlock, Reader.readWaitFinish, hagain,
    afterLoop, hzero, Reader.mutexUnlock]

theorem exists_run_waitsAgain (h : outcomes.Waits shouldWait k) (hj : j < k) :
    ∃ n, WaitsAgain j (run outcomes shouldWait n) := by
  induction j with
  | zero =>
    have hlock := h.locked 0 hj
    have hempty := h.empty 0 (Nat.zero_le k)
    refine ⟨2, ?_⟩
    simp only [run, step, Reader.init, Reader.mutexLockKillable, hlock, if_true,
      Reader.updateInternal, hempty, h.shouldWait_eq, and_self, Reader.readWaitInit]
    exact ⟨rfl, rfl, rfl, rfl, rfl⟩
  | succ j ih =>
    obtain ⟨n, hn⟩ := ih (Nat.lt_of_succ_lt hj)
    have hreleased : Released (j + 1) (run outcomes shouldWait (n + 2)) :=
      hn.released (h.empty (j + 1) hj.le) (h.not_pending j (Nat.lt_of_succ_lt hj))
    exact ⟨n + 3, hreleased.waitsAgain (h.locked (j + 1) hj)⟩

theorem exists_run_unlocks (h : outcomes.RelockFails shouldWait) :
    ∃ n, .mutexUnlock false ∈ (run outcomes shouldWait n).calls := by
  obtain ⟨k, hk, hwaits, hlock⟩ := h
  obtain ⟨j, rfl⟩ := Nat.exists_eq_add_of_le' hk
  obtain ⟨n, hn⟩ := exists_run_waitsAgain hwaits (Nat.lt_succ_self j)
  have hreleased : Released (j + 1) (run outcomes shouldWait (n + 2)) :=
    hn.released (hwaits.empty (j + 1) le_rfl) (hwaits.not_pending j (Nat.lt_succ_self j))
  exact ⟨n + 5, hreleased.unlocks hlock⟩

end Runs

/-- The discipline is kept in all states if and only if no lock after a wait fails. -/
theorem forall_disciplined_iff (outcomes : Outcomes) (shouldWait : Bool) :
    (∀ n, Disciplined (run outcomes shouldWait n)) ↔ ¬ outcomes.RelockFails shouldWait := by
  constructor
  · intro h hrelock
    obtain ⟨n, hn⟩ := exists_run_unlocks hrelock
    exact Bool.false_ne_true ((h n).calls_allowed _ hn)
  · intro hrelock n
    exact (inv_run hrelock n).disciplined

/-- A reader that waits and is then killed at the lock. -/
theorem killed_not_disciplined :
    ¬ ∀ n, Disciplined (run
      { updateInternal := fun _ => -EAGAIN
        fatalSignalPending := fun _ => false
        mutexLockKillable := fun j => decide (j = 0)
        woken := fun _ => false
        readInternal := 0 } true n) := by
  intro h
  have hunlock := (h 7).calls_allowed (.mutexUnlock false) (by decide)
  cases hunlock

end BlockingRead
end Tracing
end KedrAux
