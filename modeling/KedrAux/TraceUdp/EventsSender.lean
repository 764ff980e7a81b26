import Mathlib.Tactic

/-!
# The events sender of the trace server

The server of `trace_via_udp` keeps a queue of trace events and sends them to one client at a
time.  Three parties change its state:

* the callback for received messages (`START` and `STOP` of any client);
* the module itself (new events, and the terminate command);
* `events_sender_work`, which reads and changes the state under a spinlock and then sends
  messages according to its private copy of the state.

An execution of the work is cut wherever another party may come between: after the locked step,
after the removal of an event from the queue, and after each message.  Executions of the work
are serialized, so one place in its code is part of the state of the server.
-/

namespace KedrAux
namespace TraceUdp

/-- Internal representation of the trace event on the server (`struct server_trace_event`). -/
structure ServerTraceEvent where
  content : List (BitVec 8)
  timestamp : BitVec 64
deriving DecidableEq

/-- Address and port of a client, as they are in the received datagram. -/
structure Client where
  addr : BitVec 32
  port : BitVec 16
deriving DecidableEq, Inhabited

/-- `enum events_sender_state_type`. -/
inductive StateType where
  | invalid
  | ready
  | starting
  | send
  | stopping
deriving DecidableEq

/-- State of the sender and the variables that depend on it (`struct events_sender_state`). -/
structure SenderState where
  type : StateType
  isTerminated : Bool
  client : Client
deriving DecidableEq

inductive Mark where
  | traceBegin
  | traceEnd
  | sessionBegin
  | sessionEnd
deriving DecidableEq

inductive Body where
  | packet (event : ServerTraceEvent)
  | mark (mark : Mark)
deriving DecidableEq

/-- A call of `kernel_sendmsg`; `isSent` tells whether it succeeds. -/
structure Message where
  client : Client
  /-- The counter of the sender; a packet carries the 16 bits of `htons`, a mark those of `htonl`. -/
  seq : BitVec 32
  body : Body
  isSent : Bool
deriving DecidableEq

/-- Place of `events_sender_work`, with the copy of the state that the execution has read. -/
inductive Place where
  /-- No execution is in progress. -/
  | idle
  /-- The lock is released, and the second `switch` is to be done. -/
  | switching (state : SenderState)
  /-- An event is taken from the queue, and its packet is to be sent. -/
  | dequeued (state : SenderState) (event : ServerTraceEvent)
  /-- The packet is sent, and `is_first_event` is to be cleared. -/
  | packetSent (state : SenderState)
  /-- The queue was empty after the terminate command, the state is to be changed. -/
  | drained (state : SenderState)
  /-- `SESSION_BEGIN` is sent. -/
  | sessionBegun (state : SenderState)
  /-- `TRACE_END` is sent, and `SESSION_END` is to be sent. -/
  | traceEnded (state : SenderState)
deriving DecidableEq

/--
The sender together with its queue of events.  The program does not keep the last three fields:
they hold the messages, the events that were added and the clients whose `START` was accepted,
in the order of time.
-/
structure Server where
  events : List ServerTraceEvent
  isFirstEvent : Bool
  state : SenderState
  seq : BitVec 32
  place : Place
  messages : List Message
  added : List ServerTraceEvent
  started : List Client
deriving DecidableEq

def eventsSenderInit : Server where
  events := []
  isFirstEvent := true
  state := ⟨.ready, false, default⟩
  seq := 0
  place := .idle
  messages := []
  added := []
  started := []

variable (s : Server)

def serverTraceAddEvent (content : List (BitVec 8)) (timestamp : BitVec 64) : Server :=
  { s with
    events := s.events ++ [⟨content, timestamp⟩]
    added := s.added ++ [⟨content, timestamp⟩] }

def serverTraceDequeEvent : Option (ServerTraceEvent × Server) :=
  match s.events with
  | [] => none
  | event :: events => some (event, { s with events })

def eventsSenderStart (client : Client) : Server :=
  if s.state.isTerminated then s
  else if s.state.type ≠ .ready then s
  else { s with
    state := { s.state with type := .starting, client }
    started := s.started ++ [client] }

def eventsSenderStop : Server :=
  if s.state.isTerminated then s
  else if s.state.type ≠ .send then s
  else { s with state := { s.state with type := .stopping } }

/-- The rest of events is to be sent to the client, and then the end of the trace. -/
def eventsSenderTerminate : Server :=
  if s.state.isTerminated then s
  else { s with state := { s.state with isTerminated := true } }

def portListenerCbData (client : Client) (data : List (BitVec 8)) : Server :=
  match data with
  | [] => s
  | type :: _ =>
    if type = 1 then eventsSenderStart s client
    else if type = 2 then eventsSenderStop s
    else s

/-- Helper for send message; `none` is the `BUG_ON`. -/
def eventsSenderSendMsg
    (state : SenderState) (seq : BitVec 32) (body : Body) (isSent : Bool) : Option Server :=
  if state.type = .ready then none
  else some { s with messages := s.messages ++ [⟨state.client, seq, body, isSent⟩] }

/-- Second part of `events_sender_send_trace_packet`, after the removal of the event. -/
def eventsSenderSendTracePacket
    (state : SenderState) (event : ServerTraceEvent) (isSent : Bool) : Option Server :=
  eventsSenderSendMsg { s with seq := s.seq + 1 } state s.seq (.packet event) isSent

def eventsSenderSendTraceMark (state : SenderState) (mark : Mark) (isSent : Bool) :
    Option Server :=
  eventsSenderSendMsg { s with seq := s.seq + 1 } state s.seq (.mark mark) isSent

/-- Read state and change it at same time, under the lock. -/
def eventsSenderWorkLocked : Server :=
  match s.state.type with
  | .starting => { s with
      state := { s.state with type := .send }
      place := .switching s.state }
  | .stopping => { s with
      state := { s.state with type := .ready }
      place := .switching s.state }
  | .send | .ready | .invalid => { s with place := .switching s.state }

/-- First part of the real work, for the given copy of the state. -/
def eventsSenderWorkSwitch (state : SenderState) (isSent : Bool) : Option Server :=
  match state.type with
  | .send =>
    match serverTraceDequeEvent s with
    | some (event, s) => some { s with place := .dequeued state event }
    | none =>
      if state.isTerminated then some { s with place := .drained state }
      else some { s with place := .idle }
  | .starting => do
      let s ← eventsSenderSendTraceMark s state .sessionBegin isSent
      return { s with place := .sessionBegun state }
  | .stopping =>
    if state.isTerminated then do
      let s ← eventsSenderSendTraceMark s state .traceEnd isSent
      return { s with place := .traceEnded state }
    else do
      let s ← eventsSenderSendTraceMark s state .sessionEnd isSent
      return { s with place := .idle }
  | .ready | .invalid => some { s with place := .idle }

/--
The work up to the next place where another party may come between.  `isSent` is the outcome of
the message that is sent in this part, if any.
-/
def eventsSenderWork (isSent : Bool) : Option Server :=
  match s.place with
  | .idle => some (eventsSenderWorkLocked s)
  | .switching state => eventsSenderWorkSwitch s state isSent
  | .dequeued state event => do
      let s ← eventsSenderSendTracePacket s state event isSent
      -- a lost event does not stop the session
      return { s with place := if isSent then .packetSent state else .idle }
  | .packetSent _ => some { s with isFirstEvent := false, place := .idle }
  | .drained _ => some { s with state := { s.state with type := .stopping }, place := .idle }
  | .sessionBegun state =>
    if s.isFirstEvent then do
      let s ← eventsSenderSendTraceMark s state .traceBegin isSent
      return { s with place := .idle }
    else some { s with place := .idle }
  | .traceEnded state => do
      let s ← eventsSenderSendTraceMark s state .sessionEnd isSent
      return { s with place := .idle }

inductive Action where
  | receive (client : Client) (data : List (BitVec 8))
  | addEvent (content : List (BitVec 8)) (timestamp : BitVec 64)
  | terminate
  | work (isSent : Bool)
deriving DecidableEq

/-- One step of the system; `none` is the `BUG_ON` of `events_sender_send_msg`. -/
def Server.step : Action → Option Server
  | .receive client data => some (portListenerCbData s client data)
  | .addEvent content timestamp => some (serverTraceAddEvent s content timestamp)
  | .terminate => some (eventsSenderTerminate s)
  | .work isSent => eventsSenderWork s isSent

/-- States reached by runs whose steps are all allowed. -/
inductive Reachable (allowed : Server → Action → Prop) : Server → Prop
  | init : Reachable allowed eventsSenderInit
  | step {s s' : Server} {a : Action} :
      Reachable allowed s →
      allowed s a →
      s.step a = some s' →
      Reachable allowed s'

end TraceUdp
end KedrAux
