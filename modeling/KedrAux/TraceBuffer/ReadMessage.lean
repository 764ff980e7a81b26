import KedrAux.TraceBuffer.LastMessages

/-!
# Reading of messages

Tasks that read, poll and reset one trace buffer, while messages are written on all CPUs.
A step of a task is a call of the ring buffer, of the mutex or of 'process_data' together
with the code up to the next such call.  The mutex is only a flag, as in the kernel: it is
released by `mutex_unlock`, whoever holds it.

`trace_buffer_read_message` releases the mutex also when a reader is killed while it waits
for the mutex after `schedule()`.  Then the reader does not hold it.
-/

namespace KedrAux
namespace Tracing

open ErrorCodes

/-- The function that called `trace_buffer_update_internal`. -/
inductive Caller where
  | read (shouldWait : Bool)
  /-- The inner loop of `trace_buffer_read_message`. -/
  | wait
  | poll
deriving DecidableEq

inductive Request where
  | read (shouldWait : Bool)
  | poll
  | reset
deriving DecidableEq

inductive Crash where
  /-- BUG_ON in `last_message_set`. -/
  | bugOn
  /-- `list_first_entry` for an empty list. -/
  | emptyList
deriving DecidableEq

/-- Where a task is; `updated` are the CPUs in `subbuffers_updated`, one for each round of the
loop. -/
inductive Place where
  | returned (result : Int)
  | locking (request : Request)
  /-- At the condition of the loop in `trace_buffer_update_internal`. -/
  | updating (caller : Caller) (updated : List Nat)
  /-- After `ring_buffer_time_stamp`. -/
  | stamped (caller : Caller) (updated : List Nat) (oldest cpu ts : Nat)
  /-- At `trace_buffer_read_internal`. -/
  | reading
  /-- At `trace_buffer_clear_internal`. -/
  | clear
  /-- In the loop of this function, with the CPUs that are left. -/
  | clearing (cpus : List Nat)
  | unlocking (result : Int)
  /-- At `mutex_unlock` before `schedule()`. -/
  | suspending
  /-- At `mutex_lock_killable` after `schedule()`. -/
  | sleeping
  | crashed (crash : Crash)
deriving DecidableEq

/-- What a step takes from outside. -/
structure Environment where
  /-- The result of `ring_buffer_time_stamp`. -/
  ts : Nat
  /-- Whether krealloc() succeeds. -/
  allocated : Bool
  /-- Whether 'process_data' consumes the message, and its result. -/
  consume : Bool
  result : Int
  /-- Whether a signal interrupts the locking of the mutex. -/
  interrupted : Bool
  fatalSignalPending : Bool

/-- The end of `trace_buffer_read_message` after the last update. -/
def finishRead (result : Int) : Place :=
  if result ≠ 0 then .unlocking result else .reading

/-- What follows after `trace_buffer_update_internal` returned. -/
def Caller.afterUpdate (fatalSignalPending : Bool) : Caller → Int → Place
  | .read shouldWait, result =>
    if result = -EAGAIN ∧ shouldWait then .updating .wait [] else finishRead result
  | .wait, result =>
    if result ≠ -EAGAIN then finishRead result
    else if fatalSignalPending then .unlocking (-ERESTARTSYS)
    else .suspending
  | .poll, result =>
    .unlocking (if result = 0 then 1 else if result = -EAGAIN then 0 else result)

/-- What follows after the mutex is locked for the first time. -/
def Request.start : Request → Place
  | .read shouldWait => .updating (.read shouldWait) []
  | .poll => .updating .poll []
  | .reset => .clear

/-- What was done since the last reset.  The program does not store it. -/
structure History where
  written : Nat → List Message
  /-- Messages from `ring_buffer_consume`. -/
  taken : List Message
  consumed : List Message
  /-- Messages that were dropped because there was no memory. -/
  lost : List Message

structure State where
  ring : RingBuffer
  buffer : TraceBuffer
  history : History

def State.write (s : State) (cpu : Nat) (event : RingBufferEvent) : State :=
  { s with
    ring := ringBufferWrite s.ring cpu event
    history := { s.history with
      written := Function.update s.history.written cpu
        (s.history.written cpu ++ [event.message cpu]) } }

/-- The rest of a round of the loop in `trace_buffer_update_internal`. -/
def State.update (s : State) (allocated : Bool) (updated : List Nat) (oldest cpu ts : Nat) :
    Except Crash (State × (Option Int × List Nat)) :=
  let (event, ring) := ringBufferConsume s.ring cpu
  match event with
  | none =>
    .ok ({ s with ring := ring, buffer := s.buffer.rearrange oldest ts }, none, cpu :: updated)
  | some event =>
    let buffer := s.buffer.rearrange oldest event.ts
    let history :=
      { s.history with taken := s.history.taken ++ [event.message cpu] }
    match lastMessageSet allocated (buffer.lastMessages oldest) event with
    | none => .error .bugOn
    | some (result, message) =>
      let buffer := buffer.setMessage oldest message
      if result ≠ 0 then
        .ok ({ s with
          ring := ring
          buffer :=
            { buffer with messagesLostInternal := buffer.messagesLostInternal + 1 }
          history := { history with lost := history.lost ++ [event.message cpu] } },
          some (-ENOMEM), cpu :: updated)
      else
        .ok ({ s with
          ring := ring
          buffer := { buffer with nonEmptyBuffers := buffer.nonEmptyBuffers + 1 }
          history := history }, none, cpu :: updated)

/-- `trace_buffer_read_internal`, with its result. -/
def State.read (s : State) (consume : Bool) (result : Int) : Except Crash (State × Int) :=
  match s.buffer.lastMessagesOrdered.head? with
  | none => .error .emptyList
  | some oldest =>
    let message := s.buffer.lastMessages oldest
    if message.isExist then
      if consume then
        let buffer := s.buffer.setMessage oldest (lastMessageClear message)
        .ok ({ s with
          buffer := { buffer with nonEmptyBuffers := buffer.nonEmptyBuffers - 1 }
          history :=
            { s.history with consumed := s.history.consumed ++ [message.toMessage] } }, result)
      else .ok (s, result)
    else .ok (s, -EAGAIN)

def State.run (cpus : PossibleCpus) (s : State) (env : Environment) : Place → State × Place
  | .updating caller updated =>
    match s.buffer.lastMessagesOrdered.head? with
    | none => (s, .crashed .emptyList)
    | some oldest =>
      let message := s.buffer.lastMessages oldest
      if message.isExist then (s, caller.afterUpdate env.fatalSignalPending 0)
      else if message.cpu ∈ updated then
        (s, caller.afterUpdate env.fatalSignalPending (-EAGAIN))
      else
        ({ s with ring := ringBufferTimeStamp s.ring message.cpu env.ts },
          .stamped caller updated oldest message.cpu env.ts)
  | .stamped caller updated oldest cpu ts =>
    match s.update env.allocated updated oldest cpu ts with
    | .error crash => (s, .crashed crash)
    | .ok (s', some result, _) => (s', caller.afterUpdate env.fatalSignalPending result)
    | .ok (s', none, updated') => (s', .updating caller updated')
  | .reading =>
    match s.read env.consume env.result with
    | .error crash => (s, .crashed crash)
    | .ok (s', result) => (s', .unlocking result)
  | .clear =>
    ({ s with
      buffer := { s.buffer with lastMessagesOrdered := [], nonEmptyBuffers := 0 }
      history := ⟨s.history.written, [], [], []⟩ }, .clearing cpus.ids)
  | .clearing (cpu :: rest) =>
    ({ s with
      ring := ringBufferTimeStamp s.ring cpu env.ts
      buffer := s.buffer.clear cpu env.ts }, .clearing rest)
  | .clearing [] =>
    ({ ring := ringBufferReset s.ring
       buffer := { s.buffer with messagesLostInternal := 0 }
       history := { s.history with written := fun _ => [] } }, .unlocking 0)
  | place => (s, place)

structure Config where
  state : State
  /-- Whether `read_mutex` is locked. -/
  locked : Bool
  place : Nat → Place

/-- The buffer was just allocated, and there are no calls. -/
def Config.alloc (cpus : PossibleCpus) (stamps : Nat → Nat) : Config where
  state := ⟨⟨fun _ => [], stamps⟩, traceBufferAlloc cpus stamps, ⟨fun _ => [], [], [], []⟩⟩
  locked := false
  place := fun _ => .returned 0

inductive Action where
  | write (cpu : Nat) (event : RingBufferEvent)
  /-- The oldest event of a CPU is overwritten. -/
  | overrun (cpu : Nat)
  | call (task : Nat) (request : Request)
  | run (task : Nat) (env : Environment)

def Config.goTo (c : Config) (task : Nat) (place : Place) : Config :=
  { c with place := Function.update c.place task place }

def Config.run (cpus : PossibleCpus) (c : Config) (task : Nat) (env : Environment) :
    Option Config :=
  match c.place task with
  | .returned _ => none
  | .crashed _ => none
  | .locking request =>
    if env.interrupted then some (c.goTo task (.returned (-ERESTARTSYS)))
    else if c.locked then none
    else some ({ c with locked := true }.goTo task request.start)
  | .sleeping =>
    if env.interrupted then some (c.goTo task (.unlocking (-ERESTARTSYS)))
    else if c.locked then none
    else some ({ c with locked := true }.goTo task (.updating .wait []))
  | .unlocking result => some ({ c with locked := false }.goTo task (.returned result))
  | .suspending => some ({ c with locked := false }.goTo task .sleeping)
  | place =>
    let (s, place') := c.state.run cpus env place
    some ({ c with state := s }.goTo task place')

/-- There is no step when it is not possible: time stamps of a CPU do not decrease, and a
task makes one call at a time. -/
def Config.step (cpus : PossibleCpus) (c : Config) : Action → Option Config
  | .write cpu event =>
    if c.state.ring.clock cpu ≤ event.ts then
      some { c with state := c.state.write cpu event }
    else none
  | .overrun cpu =>
    some { c with state := { c.state with ring := ringBufferOverrun c.state.ring cpu } }
  | .call task request =>
    match c.place task with
    | .returned _ => some (c.goTo task (.locking request))
    | _ => none
  | .run task env => c.run cpus task env

/-- A reader is killed while it waits for the mutex after `schedule()`. -/
def Config.killed (c : Config) : Action → Bool
  | .run task env => decide (c.place task = .sleeping) && env.interrupted
  | _ => false

/-- Runs from the allocation of the buffer. -/
inductive Reachable (cpus : PossibleCpus) : Config → Prop
  | alloc (stamps : Nat → Nat) : Reachable cpus (.alloc cpus stamps)
  | step {c c' : Config} (a : Action) (h : Reachable cpus c) (hstep : c.step cpus a = some c') :
      Reachable cpus c'

/-- Runs in which no reader is killed while it waits for the mutex after `schedule()`. -/
inductive Undisturbed (cpus : PossibleCpus) : Config → Prop
  | alloc (stamps : Nat → Nat) : Undisturbed cpus (.alloc cpus stamps)
  | step {c c' : Config} (a : Action) (h : Undisturbed cpus c) (hstep : c.step cpus a = some c')
      (hkilled : c.killed a = false) : Undisturbed cpus c'

end Tracing
end KedrAux
