import KedrAux.Lib.ErrorCodes
import KedrAux.Lib.TailInsertion

/-!
# Last messages of the trace buffer

The data of `trace_buffer.c`: the ring buffer of the kernel with a queue of events for each
CPU, the last message that was taken from each of these queues, and the list of these last
messages that is ordered by their time stamps.
-/

namespace KedrAux
namespace Tracing

open ErrorCodes

structure RingBufferEvent where
  ts : Nat
  data : List UInt8
deriving DecidableEq

/-- The events of each CPU in the order in which they were written.  The clock of a CPU is
the least time stamp that its next event may have. -/
structure RingBuffer where
  events : Nat → List RingBufferEvent
  clock : Nat → Nat

def ringBufferWrite (buffer : RingBuffer) (cpu : Nat) (event : RingBufferEvent) : RingBuffer where
  events := Function.update buffer.events cpu (buffer.events cpu ++ [event])
  clock := Function.update buffer.clock cpu event.ts

def ringBufferOverrun (buffer : RingBuffer) (cpu : Nat) : RingBuffer :=
  { buffer with events := Function.update buffer.events cpu (buffer.events cpu).tail }

/-- After `ring_buffer_time_stamp` returned `ts`, events of the CPU are not older. -/
def ringBufferTimeStamp (buffer : RingBuffer) (cpu ts : Nat) : RingBuffer :=
  { buffer with clock := Function.update buffer.clock cpu (max (buffer.clock cpu) ts) }

def ringBufferConsume (buffer : RingBuffer) (cpu : Nat) : Option RingBufferEvent × RingBuffer :=
  ((buffer.events cpu).head?,
    { buffer with events := Function.update buffer.events cpu (buffer.events cpu).tail })

def ringBufferReset (buffer : RingBuffer) : RingBuffer :=
  { buffer with events := fun _ => [] }

theorem write_same (buffer : RingBuffer) (cpu : Nat) (event : RingBufferEvent) :
    (ringBufferWrite buffer cpu event).events cpu = buffer.events cpu ++ [event] ∧
      (ringBufferWrite buffer cpu event).clock cpu = event.ts :=
  ⟨Function.update_self .., Function.update_self ..⟩

variable {cpu cpu' : Nat} {buffer : TraceBuffer} {cpus : List Nat}

theorem write_other (buffer : RingBuffer) (event : RingBufferEvent) (h : cpu' ≠ cpu) :
    (ringBufferWrite buffer cpu event).events cpu' = buffer.events cpu' ∧
      (ringBufferWrite buffer cpu event).clock cpu' = buffer.clock cpu' :=
  ⟨Function.update_of_ne h .., Function.update_of_ne h ..⟩

theorem overrun_same (buffer : RingBuffer) (cpu : Nat) :
    (ringBufferOverrun buffer cpu).events cpu = (buffer.events cpu).tail :=
  Function.update_self ..

theorem overrun_other (buffer : RingBuffer) (h : cpu' ≠ cpu) :
    (ringBufferOverrun buffer cpu).events cpu' = buffer.events cpu' :=
  Function.update_of_ne h ..

theorem timeStamp_same (buffer : RingBuffer) (cpu ts : Nat) :
    (ringBufferTimeStamp buffer cpu ts).clock cpu = max (buffer.clock cpu) ts :=
  Function.update_self ..

theorem timeStamp_other (buffer : RingBuffer) (ts : Nat) (h : cpu' ≠ cpu) :
    (ringBufferTimeStamp buffer cpu ts).clock cpu' = buffer.clock cpu' :=
  Function.update_of_ne h ..

/-- What 'process_data' is called for; `none` is the pointer NULL. -/
structure Message where
  msg : Option (List UInt8)
  size : Nat
  cpu : Nat
  ts : Nat
deriving DecidableEq

def RingBufferEvent.message (cpu : Nat) (event : RingBufferEvent) : Message :=
  ⟨some event.data, event.data.length, cpu, event.ts⟩

structure LastMessage extends Message where
  isExist : Bool
deriving DecidableEq

def lastMessageInit (cpu ts : Nat) : LastMessage where
  cpu := cpu
  ts := ts
  isExist := false
  msg := none
  size := 0

def lastMessageSetTimestamp (message : LastMessage) (ts : Nat) : LastMessage :=
  { message with ts := ts }

/-- Stores an event, with the result of the function; `allocated` is whether krealloc() succeeds.
There is no result when BUG_ON fires. -/
def lastMessageSet (allocated : Bool) (message : LastMessage) (event : RingBufferEvent) :
    Option (Int × LastMessage) :=
  if message.isExist then none
  else if allocated then
    some (0, { message with msg := some event.data, size := event.data.length, isExist := true })
  else some (-ENOMEM, { message with msg := none, size := 0 })

def lastMessageClear (message : LastMessage) : LastMessage :=
  { message with isExist := false }

structure PossibleCpus where
  ids : List Nat
  nodup : ids.Nodup
  ne_nil : ids ≠ []

/-- The list `last_messages_ordered` holds the indices of the last messages. -/
structure TraceBuffer where
  lastMessages : Nat → LastMessage
  lastMessagesOrdered : List Nat
  nonEmptyBuffers : Int
  messagesLostInternal : Nat

/-- The time stamp of the last message with the given index. -/
def TraceBuffer.ts (buffer : TraceBuffer) (cpu : Nat) : Nat :=
  (buffer.lastMessages cpu).ts

def TraceBuffer.setMessage (buffer : TraceBuffer) (cpu : Nat) (message : LastMessage) :
    TraceBuffer :=
  { buffer with lastMessages := Function.update buffer.lastMessages cpu message }

def TraceBuffer.listAdd (buffer : TraceBuffer) (cpu ts : Nat) : TraceBuffer :=
  { buffer with
    lastMessagesOrdered :=
      TailInsertion.insert buffer.ts cpu ts buffer.lastMessagesOrdered }

def TraceBuffer.listDel (buffer : TraceBuffer) (cpu : Nat) : TraceBuffer :=
  { buffer with lastMessagesOrdered := buffer.lastMessagesOrdered.erase cpu }

/-- One round of the loop in `trace_buffer_alloc`. -/
def TraceBuffer.init (buffer : TraceBuffer) (cpu ts : Nat) : TraceBuffer :=
  (buffer.setMessage cpu (lastMessageInit cpu ts)).listAdd cpu ts

/-- The buffer just after its allocation; the time stamps are those that
`ring_buffer_time_stamp` returns for the CPUs. -/
def traceBufferAlloc (cpus : PossibleCpus) (stamps : Nat → Nat) : TraceBuffer :=
  cpus.ids.foldl (fun buffer cpu => buffer.init cpu (stamps cpu))
    ⟨fun _ => lastMessageInit 0 0, [], 0, 0⟩

/-- One round of the loop in `trace_buffer_clear_internal`. -/
def TraceBuffer.clear (buffer : TraceBuffer) (cpu ts : Nat) : TraceBuffer :=
  (buffer.setMessage cpu
    (lastMessageSetTimestamp (lastMessageClear (buffer.lastMessages cpu)) ts)).listAdd cpu ts

/-- A last message gets the time stamp `ts`, and it is moved to its place in the list. -/
def TraceBuffer.rearrange (buffer : TraceBuffer) (cpu ts : Nat) : TraceBuffer :=
  ((buffer.setMessage cpu
    (lastMessageSetTimestamp (buffer.lastMessages cpu) ts)).listDel cpu).listAdd cpu ts

@[simp] theorem setMessage_same (buffer : TraceBuffer) (cpu : Nat) (message : LastMessage) :
    (buffer.setMessage cpu message).lastMessages cpu = message :=
  Function.update_self ..

@[simp] theorem setMessage_other (buffer : TraceBuffer) (message : LastMessage) (h : cpu' ≠ cpu) :
    (buffer.setMessage cpu message).lastMessages cpu' = buffer.lastMessages cpu' :=
  Function.update_of_ne h ..

theorem ts_setMessage_other (buffer : TraceBuffer) (message : LastMessage) (h : cpu' ≠ cpu) :
    (buffer.setMessage cpu message).ts cpu' = buffer.ts cpu' := by
  rw [TraceBuffer.ts, setMessage_other _ _ h, TraceBuffer.ts]

/-- The list holds the last messages of the given CPUs, in the order of their time stamps. -/
structure TraceBuffer.Ordered (buffer : TraceBuffer) (cpus : List Nat) : Prop where
  perm : buffer.lastMessagesOrdered.Perm cpus
  sorted : buffer.lastMessagesOrdered.Pairwise fun cpu cpu' => buffer.ts cpu ≤ buffer.ts cpu'

theorem TraceBuffer.Ordered.listAdd (h : buffer.Ordered cpus) (hcpu : cpu ∉ cpus)
    (message : LastMessage) :
    ((buffer.setMessage cpu message).listAdd cpu message.ts).Ordered (cpu :: cpus) := by
  have hmem : cpu ∉ buffer.lastMessagesOrdered := fun hmem => hcpu (h.perm.mem_iff.mp hmem)
  have hkey : ∀ c ∈ buffer.lastMessagesOrdered,
      (buffer.setMessage cpu message).ts c = buffer.ts c := fun c hc =>
    ts_setMessage_other buffer message fun heq => hmem (heq ▸ hc)
  have hts : (buffer.setMessage cpu message).ts cpu = message.ts := by
    rw [TraceBuffer.ts, setMessage_same]
  have hsorted : buffer.lastMessagesOrdered.Pairwise fun c c' =>
      (buffer.setMessage cpu message).ts c ≤ (buffer.setMessage cpu message).ts c' :=
    h.sorted.imp_of_mem fun hc hc' hle => by rwa [hkey _ hc, hkey _ hc']
  constructor
  · exact (TailInsertion.insert_perm ..).trans (h.perm.cons cpu)
  · have hinsert := TailInsertion.insert_sorted (a := cpu) hsorted fun _ _ => rfl
    rwa [hts] at hinsert

theorem TraceBuffer.Ordered.rearrange (h : buffer.Ordered cpus) (hnodup : cpus.Nodup)
    (hcpu : cpu ∈ cpus) (ts : Nat) :
    (buffer.rearrange cpu ts).Ordered cpus := by
  have hordered : (buffer.listDel cpu).Ordered (cpus.erase cpu) :=
    ⟨h.perm.erase cpu, h.sorted.sublist List.erase_sublist⟩
  have hadd := hordered.listAdd (hnodup.not_mem_erase)
    (lastMessageSetTimestamp (buffer.lastMessages cpu) ts)
  exact ⟨hadd.perm.trans (List.perm_cons_erase hcpu).symm, hadd.sorted⟩

theorem TraceBuffer.Ordered.setMessage (h : buffer.Ordered cpus) {message : LastMessage}
    (hts : message.ts = buffer.ts cpu) :
    (buffer.setMessage cpu message).Ordered cpus := by
  have hkey : ∀ c, (buffer.setMessage cpu message).ts c = buffer.ts c := by
    intro c
    by_cases hc : c = cpu
    · rw [hc, TraceBuffer.ts, setMessage_same, hts]
    · exact ts_setMessage_other buffer message hc
  exact ⟨h.perm, h.sorted.imp fun hle => by rwa [hkey, hkey]⟩

theorem TraceBuffer.Ordered.head_le (h : buffer.Ordered cpus) {oldest : Nat}
    (hhead : buffer.lastMessagesOrdered.head? = some oldest) (hcpu : cpu ∈ cpus) :
    buffer.ts oldest ≤ buffer.ts cpu := by
  obtain ⟨rest, hrest⟩ := List.head?_eq_some_iff.mp hhead
  have hmem := h.perm.mem_iff.mpr hcpu
  have hsorted := h.sorted
  rw [hrest] at hmem hsorted
  rcases List.mem_cons.mp hmem with rfl | hmem
  · exact Nat.le_refl _
  · exact List.rel_of_pairwise_cons hsorted hmem

def held (message : LastMessage) : List Message :=
  if message.isExist then [message.toMessage] else []

def TraceBuffer.heldMessages (buffer : TraceBuffer) (cpus : List Nat) : List Message :=
  cpus.flatMap fun cpu => held (buffer.lastMessages cpu)

theorem length_heldMessages (buffer : TraceBuffer) (cpus : List Nat) :
    (buffer.heldMessages cpus).length = cpus.countP fun cpu => (buffer.lastMessages cpu).isExist := by
  induction cpus with
  | nil => rfl
  | cons cpu cpus ih =>
    rw [TraceBuffer.heldMessages, List.flatMap_cons, List.length_append, List.countP_cons,
      Nat.add_comm]
    congr 1
    rw [held]
    split_ifs <;> rfl

theorem heldMessages_setMessage (buffer : TraceBuffer) (hnodup : cpus.Nodup) (hcpu : cpu ∈ cpus)
    (message : LastMessage) :
    ((buffer.setMessage cpu message).heldMessages cpus).Perm
      (held message ++ buffer.heldMessages (cpus.erase cpu)) := by
  have hperm := (List.perm_cons_erase hcpu).flatMap_right fun c =>
    held ((buffer.setMessage cpu message).lastMessages c)
  rw [List.flatMap_cons, setMessage_same] at hperm
  refine hperm.trans (List.Perm.append_left _ (List.Perm.of_eq ?_))
  refine List.flatMap_congr fun c hc => ?_
  rw [setMessage_other _ _ fun heq => hnodup.not_mem_erase (heq ▸ hc)]

theorem heldMessages_perm (buffer : TraceBuffer) (hnodup : cpus.Nodup) (hcpu : cpu ∈ cpus) :
    (buffer.heldMessages cpus).Perm
      (held (buffer.lastMessages cpu) ++ buffer.heldMessages (cpus.erase cpu)) := by
  have hperm := heldMessages_setMessage buffer hnodup hcpu (buffer.lastMessages cpu)
  rwa [TraceBuffer.setMessage, Function.update_eq_self] at hperm

end Tracing
end KedrAux
