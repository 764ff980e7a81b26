import KedrAux.TraceUdp.EventsSender

/-!
# Sessions of the trace server

In every run the messages of the server are grouped into sessions, each of them for the client
whose `START` has opened it.  The state under the lock may be ahead of the execution of the work
by one command (a `STOP`) or by one session (a `START` of another client), so the invariant is
given place by place, with the clients whose sessions are not finished.
-/

namespace KedrAux
namespace TraceUdp

variable {s s' : Server} {a : Action}

/-- The server with one message more, and the next place of the work. -/
def Server.sends (s : Server) (client : Client) (body : Body) (isSent : Bool) (place : Place) :
    Server :=
  { s with
    seq := s.seq + 1
    messages := s.messages ++ [⟨client, s.seq, body, isSent⟩]
    place }

/-- Effects of steps, with the conditions under which they occur. -/
inductive Effect (s : Server) : Action → Server → Prop
  | ignored {client : Client} {data : List (BitVec 8)} : Effect s (.receive client data) s
  | start {client : Client} {data : List (BitVec 8)} :
      s.state.isTerminated = false →
      s.state.type = .ready →
      Effect s (.receive client data)
        { s with
          state := ⟨.starting, s.state.isTerminated, client⟩
          started := s.started ++ [client] }
  | stop {client : Client} {data : List (BitVec 8)} :
      s.state.isTerminated = false →
      s.state.type = .send →
      Effect s (.receive client data)
        { s with state := ⟨.stopping, s.state.isTerminated, s.state.client⟩ }
  | addEvent {content : List (BitVec 8)} {timestamp : BitVec 64} :
      Effect s (.addEvent content timestamp) { s with
        events := s.events ++ [⟨content, timestamp⟩]
        added := s.added ++ [⟨content, timestamp⟩] }
  | terminate :
      Effect s .terminate { s with state := ⟨s.state.type, true, s.state.client⟩ }
  | lockStarting {isSent : Bool} :
      s.place = .idle →
      s.state.type = .starting →
      Effect s (.work isSent) { s with
        state := ⟨.send, s.state.isTerminated, s.state.client⟩
        place := .switching s.state }
  | lockStopping {isSent : Bool} :
      s.place = .idle →
      s.state.type = .stopping →
      Effect s (.work isSent) { s with
        state := ⟨.ready, s.state.isTerminated, s.state.client⟩
        place := .switching s.state }
  | lockOther {isSent : Bool} :
      s.place = .idle →
      s.state.type ≠ .starting →
      s.state.type ≠ .stopping →
      Effect s (.work isSent) { s with place := .switching s.state }
  | dequeue {isSent : Bool} {state : SenderState} {event : ServerTraceEvent}
      {events : List ServerTraceEvent} :
      s.place = .switching state →
      state.type = .send →
      s.events = event :: events →
      Effect s (.work isSent) { s with events, place := .dequeued state event }
  | drain {isSent : Bool} {state : SenderState} :
      s.place = .switching state →
      state.type = .send →
      s.events = [] →
      state.isTerminated = true →
      Effect s (.work isSent) { s with place := .drained state }
  | await {isSent : Bool} {state : SenderState} :
      s.place = .switching state →
      state.type = .send →
      s.events = [] →
      Effect s (.work isSent) { s with place := .idle }
  | nothing {isSent : Bool} {state : SenderState} :
      s.place = .switching state →
      state.type = .ready ∨ state.type = .invalid →
      Effect s (.work isSent) { s with place := .idle }
  | sessionBegin {isSent : Bool} {state : SenderState} :
      s.place = .switching state →
      state.type = .starting →
      Effect s (.work isSent)
        (s.sends state.client (.mark .sessionBegin) isSent (.sessionBegun state))
  | traceBegin {isSent : Bool} {state : SenderState} :
      s.place = .sessionBegun state →
      s.isFirstEvent = true →
      Effect s (.work isSent) (s.sends state.client (.mark .traceBegin) isSent .idle)
  | noTraceBegin {isSent : Bool} {state : SenderState} :
      s.place = .sessionBegun state →
      Effect s (.work isSent) { s with place := .idle }
  | packet {isSent : Bool} {state : SenderState} {event : ServerTraceEvent} :
      s.place = .dequeued state event →
      Effect s (.work isSent) (s.sends state.client (.packet event) isSent
        (if isSent then .packetSent state else .idle))
  | firstEvent {isSent : Bool} {state : SenderState} :
      s.place = .packetSent state →
      Effect s (.work isSent) { s with isFirstEvent := false, place := .idle }
  | stopDrained {isSent : Bool} {state : SenderState} :
      s.place = .drained state →
      Effect s (.work isSent) { s with
        state := ⟨.stopping, s.state.isTerminated, s.state.client⟩
        place := .idle }
  | traceEnd {isSent : Bool} {state : SenderState} :
      s.place = .switching state →
      state.type = .stopping →
      state.isTerminated = true →
      Effect s (.work isSent)
        (s.sends state.client (.mark .traceEnd) isSent (.traceEnded state))
  | sessionEnd {isSent : Bool} {state : SenderState} :
      (s.place = .switching state ∧ state.type = .stopping) ∨ s.place = .traceEnded state →
      Effect s (.work isSent) (s.sends state.client (.mark .sessionEnd) isSent .idle)

theorem effect_receive (s : Server) (client : Client) (data : List (BitVec 8)) :
    Effect s (.receive client data) (portListenerCbData s client data) := by
  cases data with
  | nil => exact .ignored
  | cons type data =>
    rw [portListenerCbData]
    split_ifs
    · rw [eventsSenderStart]
      split_ifs with hterminated htype
      · exact .ignored
      · exact .ignored
      · exact .start (Bool.eq_false_iff.mpr hterminated) (not_not.mp htype)
    · rw [eventsSenderStop]
      split_ifs with hterminated htype
      · exact .ignored
      · exact .ignored
      · exact .stop (Bool.eq_false_iff.mpr hterminated) (not_not.mp htype)
    · exact .ignored

theorem effect_terminate (s : Server) : Effect s .terminate (eventsSenderTerminate s) := by
  have heq : eventsSenderTerminate s =
      { s with state := ⟨s.state.type, true, s.state.client⟩ } := by
    rw [eventsSenderTerminate]
    split_ifs with hterminated
    · rw [← hterminated]
    · rfl
  rw [heq]
  exact .terminate

variable {state copy : SenderState} {body : Body} {isSent : Bool} {place : Place}
variable {current : Option Session} {waiting : List Client} {allowed : Server → Action → Prop}
variable {client : Client}

theorem eventsSenderSendMsg_eq_some {seq : BitVec 32}
    (h : eventsSenderSendMsg s state seq body isSent = some s') :
    s' = { s with messages := s.messages ++ [⟨state.client, seq, body, isSent⟩] } := by
  rw [eventsSenderSendMsg] at h
  split_ifs at h
  exact (Option.some.inj h).symm

theorem sends_of_bind
    (h : (eventsSenderSendMsg { s with seq := s.seq + 1 } state s.seq body isSent >>=
      fun r => (pure { r with place } : Option Server)) = some s') :
    s' = s.sends state.client body isSent place := by
  obtain ⟨r, hr, hs'⟩ := Option.bind_eq_some_iff.mp h
  rw [eventsSenderSendMsg_eq_some hr] at hs'
  exact (Option.some.inj hs').symm

theorem effect_work (h : eventsSenderWork s isSent = some s') : Effect s (.work isSent) s' := by
  rw [eventsSenderWork] at h
  cases hplace : s.place with
  | idle =>
    rw [hplace] at h
    obtain rfl := Option.some.inj h
    rw [eventsSenderWorkLocked]
    cases htype : s.state.type with
    | starting => exact .lockStarting hplace htype
    | stopping => exact .lockStopping hplace htype
    | _ => exact .lockOther hplace (by simp [htype]) (by simp [htype])
  | switching state =>
    rw [hplace] at h
    simp only [eventsSenderWorkSwitch] at h
    cases htype : state.type with
    | send =>
      rw [htype] at h
      cases hevents : s.events with
      | nil =>
        have hnone : serverTraceDequeEvent s = none := by
          rw [serverTraceDequeEvent, hevents]
        simp only [hnone] at h
        split_ifs at h with hterminated
        · obtain rfl := Option.some.inj h
          exact .drain hplace htype hevents hterminated
        · obtain rfl := Option.some.inj h
          exact .await hplace htype hevents
      | cons event events =>
        have hsome : serverTraceDequeEvent s = some (event, { s with events }) := by
          rw [serverTraceDequeEvent, hevents]
        simp only [hsome] at h
        obtain rfl := Option.some.inj h
        exact .dequeue hplace htype hevents
    | starting =>
      rw [htype] at h
      rw [sends_of_bind h]
      exact .sessionBegin hplace htype
    | stopping =>
      rw [htype] at h
      simp only at h
      split_ifs at h with hterminated
      · rw [sends_of_bind h]
        exact .traceEnd hplace htype hterminated
      · rw [sends_of_bind h]
        exact .sessionEnd (.inl ⟨hplace, htype⟩)
    | ready =>
      rw [htype] at h
      obtain rfl := Option.some.inj h
      exact .nothing hplace (.inl htype)
    | invalid =>
      rw [htype] at h
      obtain rfl := Option.some.inj h
      exact .nothing hplace (.inr htype)
  | dequeued state event =>
    rw [hplace] at h
    rw [sends_of_bind h]
    exact .packet hplace
  | packetSent state =>
    rw [hplace] at h
    obtain rfl := Option.some.inj h
    exact .firstEvent hplace
  | drained state =>
    rw [hplace] at h
    obtain rfl := Option.some.inj h
    exact .stopDrained hplace
  | sessionBegun state =>
    rw [hplace] at h
    simp only at h
    split_ifs at h with hfirst
    · rw [sends_of_bind h]
      exact .traceBegin hplace hfirst
    · obtain rfl := Option.some.inj h
      exact .noTraceBegin hplace
  | traceEnded state =>
    rw [hplace] at h
    rw [sends_of_bind h]
    exact .sessionEnd (.inr hplace)

theorem Server.step_effect (h : s.step a = some s') : Effect s a s' := by
  cases a with
  | receive client data =>
    obtain rfl := Option.some.inj h
    exact effect_receive s client data
  | addEvent content timestamp =>
    obtain rfl := Option.some.inj h
    exact .addEvent
  | terminate =>
    obtain rfl := Option.some.inj h
    exact effect_terminate s
  | work isSent => exact effect_work h

structure Session where
  client : Client
  traceBegin : Bool
  packets : List ServerTraceEvent
  traceEnd : Bool

/-- The messages of a session before its last one. -/
def Session.opened (x : Session) : List Body :=
  .mark .sessionBegin ::
    ((if x.traceBegin then [.mark .traceBegin] else []) ++ x.packets.map .packet ++
      (if x.traceEnd then [.mark .traceEnd] else []))

def Session.bodies (x : Session) : List Body :=
  x.opened ++ [.mark .sessionEnd]

/-- Messages without their numbers and outcomes, all of them for one client. -/
def addressed (client : Client) (bodies : List Body) : List (Client × Body) :=
  bodies.map fun body => (client, body)

/-- Where the messages go and what they are about. -/
def contents (messages : List Message) : List (Client × Body) :=
  messages.map fun m => (m.client, m.body)

@[simp] theorem contents_sends
    (s : Server) (client : Client) (body : Body) (isSent : Bool) (place : Place) :
    contents (s.sends client body isSent place).messages = contents s.messages ++ [(client, body)] := by
  simp [contents, Server.sends]

/-- The messages are those of the finished sessions and of the current one, if there is one. -/
def Grouped (messages : List Message) (finished : List Session) (current : Option Session) : Prop :=
  contents messages =
    finished.flatMap (fun x => addressed x.client x.bodies) ++
      current.toList.flatMap (fun x => addressed x.client x.opened)

variable {finished : List Session} {x : Session}

section Grouped

theorem Grouped.sessionBegin (h : Grouped s.messages finished none) (client : Client) :
    Grouped (s.sends client (.mark .sessionBegin) isSent place).messages finished
      (some ⟨client, false, [], false⟩) := by
  rw [Grouped, contents_sends, h]
  simp [addressed, Session.opened]

theorem Grouped.traceBegin
    {client : Client} (h : Grouped s.messages finished (some ⟨client, false, [], false⟩)) :
    Grouped (s.sends client (.mark .traceBegin) isSent place).messages finished
      (some ⟨client, true, [], false⟩) := by
  rw [Grouped, contents_sends, h]
  simp [addressed, Session.opened]

theorem Grouped.packet (h : Grouped s.messages finished (some x)) (hend : x.traceEnd = false)
    (event : ServerTraceEvent) :
    Grouped (s.sends x.client (.packet event) isSent place).messages finished
      (some { x with packets := x.packets ++ [event] }) := by
  rw [Grouped, contents_sends, h]
  simp [addressed, Session.opened, hend]

theorem Grouped.traceEnd (h : Grouped s.messages finished (some x)) (hend : x.traceEnd = false) :
    Grouped (s.sends x.client (.mark .traceEnd) isSent place).messages finished
      (some { x with traceEnd := true }) := by
  rw [Grouped, contents_sends, h]
  simp [addressed, Session.opened, hend]

theorem Grouped.sessionEnd (h : Grouped s.messages finished (some x)) :
    Grouped (s.sends x.client (.mark .sessionEnd) isSent place).messages (finished ++ [x]) none := by
  rw [Grouped, contents_sends, h]
  simp [addressed, Session.bodies]

end Grouped

/-- The state under the lock when the session of the work is the current one. -/
def SenderState.IsOpen (state : SenderState) : Prop :=
  state.type = .send ∨ state.type = .stopping

/--
The current session and the clients whose sessions are not finished, as far as the state under
the lock tells about them between two executions of the work.
-/
def Between (state : SenderState) (current : Option Session) (waiting : List Client) : Prop :=
  match state.type with
  | .invalid => False
  | .ready => current = none ∧ waiting = []
  | .starting => current = none ∧ waiting = [state.client]
  | .send | .stopping =>
    ∃ x, current = some x ∧ x.client = state.client ∧ x.traceEnd = false ∧
      waiting = [state.client]

def Sending (copy state : SenderState) (current : Option Session) (waiting : List Client) : Prop :=
  copy.type = .send ∧ copy.client = state.client ∧ state.IsOpen ∧
    (copy.isTerminated = true → state.isTerminated = true ∧ state.type = .send) ∧
    ∃ x, current = some x ∧ x.client = state.client ∧ x.traceEnd = false ∧ waiting = [state.client]

/-- The work ends the current session, and the next client may already wait. -/
def Ending (copy state : SenderState) (current : Option Session) (waiting : List Client)
    (traceEnd : Bool) : Prop :=
  copy.type = .stopping ∧
    ((state.type = .ready ∧ waiting = [copy.client]) ∨
      (state.type = .starting ∧ waiting = [copy.client, state.client])) ∧
    ∃ x, current = some x ∧ x.client = copy.client ∧ x.traceEnd = traceEnd

/-- The current session and the clients whose sessions are not finished, at each place. -/
def Place.Local (state : SenderState) (current : Option Session) (waiting : List Client) :
    Place → Prop
  | .idle => Between state current waiting
  | .switching copy =>
    match copy.type with
    | .invalid => False
    | .ready => (state.type = .ready ∨ state.type = .starting) ∧ Between state current waiting
    | .starting =>
      copy.client = state.client ∧ state.IsOpen ∧ current = none ∧ waiting = [state.client]
    | .send => Sending copy state current waiting
    | .stopping => Ending copy state current waiting false
  | .dequeued copy _ | .packetSent copy => Sending copy state current waiting
  | .drained copy => Sending copy state current waiting ∧ copy.isTerminated = true
  | .sessionBegun copy =>
    copy.type = .starting ∧ copy.client = state.client ∧ state.IsOpen ∧
      current = some ⟨state.client, false, [], false⟩ ∧ waiting = [state.client]
  | .traceEnded copy => Ending copy state current waiting true

/-- The messages and the accepted clients of a state, for given sessions. -/
structure InSessions (s : Server) (finished : List Session) (current : Option Session)
    (waiting : List Client) : Prop where
  grouped : Grouped s.messages finished current
  started : s.started = finished.map Session.client ++ waiting
  place : s.place.Local s.state current waiting

theorem Sending.between (h : Sending copy state current waiting) :
    Between state current waiting := by
  obtain ⟨-, -, hopen, -, hx⟩ := h
  rcases hopen with htype | htype
  · rw [Between, htype]
    exact hx
  · rw [Between, htype]
    exact hx

theorem between_of_isOpen {x : Session} (hopen : state.IsOpen) (hclient : x.client = state.client)
    (hend : x.traceEnd = false) : Between state (some x) [state.client] := by
  rcases hopen with htype | htype
  · rw [Between, htype]
    exact ⟨x, rfl, hclient, hend, rfl⟩
  · rw [Between, htype]
    exact ⟨x, rfl, hclient, hend, rfl⟩

variable {traceEnd : Bool}

section Commands

theorem not_isOpen_of_ready (h : state.type = .ready) : ¬ state.IsOpen := by
  rintro (htype | htype) <;> rw [h] at htype <;> cases htype

theorem Ending.start (hready : state.type = .ready) (h : Ending copy state current waiting traceEnd)
    (client : Client) :
    Ending copy ⟨.starting, state.isTerminated, client⟩ current (waiting ++ [client]) traceEnd := by
  obtain ⟨hcopy, hwaiting, hx⟩ := h
  refine ⟨hcopy, Or.inr ⟨rfl, ?_⟩, hx⟩
  rcases hwaiting with ⟨-, rfl⟩ | ⟨hstarting, -⟩
  · rfl
  · rw [hready] at hstarting
    cases hstarting

/-- A new client is accepted before the work has sent `SESSION_END` to the old one, or between
two sessions. -/
theorem Place.Local.start
    (h : place.Local state current waiting) (hready : state.type = .ready) (client : Client) :
    place.Local ⟨.starting, state.isTerminated, client⟩ current (waiting ++ [client]) := by
  have hbetween : Between state current waiting →
      Between ⟨.starting, state.isTerminated, client⟩ current (waiting ++ [client]) := by
    intro hbetween
    rw [Between, hready] at hbetween
    obtain ⟨rfl, rfl⟩ := hbetween
    exact ⟨rfl, rfl⟩
  have hopen := not_isOpen_of_ready hready
  cases place with
  | idle => exact hbetween h
  | switching copy =>
    rw [Place.Local] at h ⊢
    cases htype : copy.type with
    | invalid =>
      rw [htype] at h
      exact h
    | ready =>
      rw [htype] at h
      exact ⟨Or.inr rfl, hbetween h.2⟩
    | starting =>
      rw [htype] at h
      exact absurd h.2.1 hopen
    | send =>
      rw [htype] at h
      exact absurd h.2.2.1 hopen
    | stopping =>
      rw [htype] at h
      exact Ending.start hready h client
  | dequeued copy event => exact absurd h.2.2.1 hopen
  | packetSent copy => exact absurd h.2.2.1 hopen
  | drained copy => exact absurd h.1.2.2.1 hopen
  | sessionBegun copy => exact absurd h.2.2.1 hopen
  | traceEnded copy => exact Ending.start hready h client

theorem Sending.stop (h : Sending copy state current waiting)
    (hterminated : state.isTerminated = false) :
    Sending copy ⟨.stopping, state.isTerminated, state.client⟩ current waiting := by
  obtain ⟨hcopy, hclient, -, hlater, hx⟩ := h
  refine ⟨hcopy, hclient, Or.inr rfl, fun h => ?_, hx⟩
  rw [hterminated] at hlater
  cases (hlater h).1

theorem Ending.type (h : Ending copy state current waiting traceEnd) :
    state.type = .ready ∨ state.type = .starting := by
  obtain ⟨-, hwaiting, -⟩ := h
  rcases hwaiting with ⟨htype, -⟩ | ⟨htype, -⟩
  · exact Or.inl htype
  · exact Or.inr htype

/-- The client of the current session stops it, also when the work is going on. -/
theorem Place.Local.stop (h : place.Local state current waiting) (hsend : state.type = .send)
    (hterminated : state.isTerminated = false) :
    place.Local ⟨.stopping, state.isTerminated, state.client⟩ current waiting := by
  have hno : ¬ (state.type = .ready ∨ state.type = .starting) := by
    rw [hsend]
    rintro (h | h) <;> cases h
  cases place with
  | idle =>
    rw [Place.Local, Between, hsend] at h
    exact h
  | switching copy =>
    rw [Place.Local] at h ⊢
    cases htype : copy.type with
    | invalid =>
      rw [htype] at h
      exact h
    | ready =>
      rw [htype] at h
      exact absurd h.1 hno
    | starting =>
      rw [htype] at h
      exact ⟨h.1, Or.inr rfl, h.2.2⟩
    | send =>
      rw [htype] at h
      exact Sending.stop h hterminated
    | stopping =>
      rw [htype] at h
      exact absurd h.type hno
  | dequeued copy event => exact Sending.stop h hterminated
  | packetSent copy => exact Sending.stop h hterminated
  | drained copy => exact ⟨Sending.stop h.1 hterminated, h.2⟩
  | sessionBegun copy => exact ⟨h.1, h.2.1, Or.inr rfl, h.2.2.2⟩
  | traceEnded copy => exact absurd h.type hno

theorem Sending.terminate (h : Sending copy state current waiting) :
    Sending copy ⟨state.type, true, state.client⟩ current waiting := by
  obtain ⟨hcopy, hclient, hopen, hlater, hx⟩ := h
  exact ⟨hcopy, hclient, hopen, fun h => ⟨rfl, (hlater h).2⟩, hx⟩

theorem Place.Local.terminate (h : place.Local state current waiting) :
    place.Local ⟨state.type, true, state.client⟩ current waiting := by
  cases place with
  | switching copy =>
    rw [Place.Local] at h ⊢
    cases htype : copy.type with
    | send =>
      rw [htype] at h
      exact Sending.terminate h
    | _ =>
      rw [htype] at h
      exact h
  | dequeued copy event => exact Sending.terminate h
  | packetSent copy => exact Sending.terminate h
  | drained copy => exact ⟨Sending.terminate h.1, h.2⟩
  | _ => exact h

end Commands

/-- The messages are grouped into sessions that fit the state and the place of the work. -/
def Server.HasSessions (s : Server) : Prop :=
  ∃ finished current waiting, InSessions s finished current waiting

theorem hasSessions_init : eventsSenderInit.HasSessions :=
  ⟨[], none, [], rfl, rfl, rfl, rfl⟩

theorem Place.Local.locked (h : Place.idle.Local state current waiting) :
    (state.type = .starting →
      (Place.switching state).Local ⟨.send, state.isTerminated, state.client⟩ current waiting) ∧
    (state.type = .stopping →
      (Place.switching state).Local ⟨.ready, state.isTerminated, state.client⟩ current waiting) ∧
    (state.type ≠ .starting → state.type ≠ .stopping →
      (Place.switching state).Local state current waiting) := by
  rw [Place.Local] at h
  refine ⟨fun htype => ?_, fun htype => ?_, fun hstarting hstopping => ?_⟩
  · rw [Between, htype] at h
    rw [Place.Local, htype]
    exact ⟨rfl, Or.inl rfl, h⟩
  · rw [Between, htype] at h
    obtain ⟨x, hx, hclient, hend, hwaiting⟩ := h
    rw [Place.Local, htype]
    exact ⟨htype, Or.inl ⟨rfl, hwaiting⟩, x, hx, hclient, hend⟩
  · have hbetween := h
    rw [Place.Local]
    rw [Between] at h
    cases htype : state.type with
    | invalid =>
      rw [htype] at h
      exact h
    | ready => exact ⟨Or.inl rfl, hbetween⟩
    | starting => exact absurd htype hstarting
    | send =>
      rw [htype] at h
      exact ⟨htype, rfl, Or.inl htype, fun hterminated => ⟨hterminated, htype⟩, h⟩
    | stopping => exact absurd htype hstopping

theorem Ending.between (h : Ending copy state current waiting traceEnd) :
    ∃ rest, waiting = copy.client :: rest ∧ Between state none rest := by
  obtain ⟨-, hwaiting, -⟩ := h
  rcases hwaiting with ⟨htype, rfl⟩ | ⟨htype, rfl⟩
  · refine ⟨[], rfl, ?_⟩
    rw [Between, htype]
    exact ⟨rfl, rfl⟩
  · refine ⟨[state.client], rfl, ?_⟩
    rw [Between, htype]
    exact ⟨rfl, rfl⟩

theorem InSessions.sessionEnd (h : InSessions s finished current waiting)
    (hending : Ending copy s.state current waiting traceEnd) :
    (s.sends copy.client (.mark .sessionEnd) isSent .idle).HasSessions := by
  obtain ⟨rest, rfl, hbetween⟩ := hending.between
  obtain ⟨-, -, x, rfl, hclient, -⟩ := hending
  refine ⟨finished ++ [x], none, rest, ?_, ?_, hbetween⟩
  · rw [← hclient]
    exact h.grouped.sessionEnd
  · rw [List.map_append, List.append_assoc, List.map_singleton, hclient]
    exact h.started

theorem InSessions.packet {event : ServerTraceEvent} (h : InSessions s finished current waiting)
    (hsending : Sending copy s.state current waiting) :
    (s.sends copy.client (.packet event) isSent
      (if isSent then .packetSent copy else .idle)).HasSessions := by
  obtain ⟨hcopy, hclient, hopen, hlater, x, rfl, hx, hend, rfl⟩ := hsending
  refine ⟨finished, some { x with packets := x.packets ++ [event] }, _, ?_, h.started, ?_⟩
  · rw [hclient, ← hx]
    exact h.grouped.packet hend event
  · cases isSent with
    | true => exact ⟨hcopy, hclient, hopen, hlater, _, rfl, hx, hend, rfl⟩
    | false => exact between_of_isOpen hopen hx hend

/-- The step of the run: every action keeps the sequence of sessions. -/
theorem Server.HasSessions.step (h : s.HasSessions) (hstep : Effect s a s') : s'.HasSessions := by
  obtain ⟨finished, current, waiting, hs⟩ := h
  have hplace := hs.place
  cases hstep with
  | ignored => exact ⟨finished, current, waiting, hs⟩
  | start _ hready =>
    refine ⟨finished, current, waiting ++ [_], hs.grouped, ?_, hplace.start hready _⟩
    rw [← List.append_assoc, ← hs.started]
  | stop hterminated hsend =>
    exact ⟨finished, current, waiting, hs.grouped, hs.started, hplace.stop hsend hterminated⟩
  | addEvent => exact ⟨finished, current, waiting, hs.grouped, hs.started, hplace⟩
  | terminate => exact ⟨finished, current, waiting, hs.grouped, hs.started, hplace.terminate⟩
  | lockStarting hidle htype =>
    rw [hidle] at hplace
    exact ⟨finished, current, waiting, hs.grouped, hs.started, hplace.locked.1 htype⟩
  | lockStopping hidle htype =>
    rw [hidle] at hplace
    exact ⟨finished, current, waiting, hs.grouped, hs.started, hplace.locked.2.1 htype⟩
  | lockOther hidle hstarting hstopping =>
    rw [hidle] at hplace
    exact ⟨finished, current, waiting, hs.grouped, hs.started,
      hplace.locked.2.2 hstarting hstopping⟩
  | dequeue hswitching htype =>
    rw [hswitching, Place.Local, htype] at hplace
    exact ⟨finished, current, waiting, hs.grouped, hs.started, hplace⟩
  | drain hswitching htype _ hterminated =>
    rw [hswitching, Place.Local, htype] at hplace
    exact ⟨finished, current, waiting, hs.grouped, hs.started, hplace, hterminated⟩
  | await hswitching htype =>
    rw [hswitching, Place.Local, htype] at hplace
    exact ⟨finished, current, waiting, hs.grouped, hs.started, Sending.between hplace⟩
  | nothing hswitching htype =>
    rw [hswitching, Place.Local] at hplace
    rcases htype with htype | htype <;> rw [htype] at hplace
    · exact ⟨finished, current, waiting, hs.grouped, hs.started, hplace.2⟩
    · exact hplace.elim
  | sessionBegin hswitching htype =>
    rw [hswitching, Place.Local, htype] at hplace
    obtain ⟨hclient, hopen, rfl, hwaiting⟩ := hplace
    rw [hclient]
    exact ⟨finished, _, waiting, hs.grouped.sessionBegin _, hs.started,
      htype, hclient, hopen, rfl, hwaiting⟩
  | traceBegin hbegun =>
    rw [hbegun] at hplace
    obtain ⟨-, hclient, hopen, rfl, rfl⟩ := hplace
    rw [hclient]
    exact ⟨finished, _, _, hs.grouped.traceBegin, hs.started,
      between_of_isOpen hopen rfl rfl⟩
  | noTraceBegin hbegun =>
    rw [hbegun] at hplace
    obtain ⟨-, -, hopen, rfl, rfl⟩ := hplace
    exact ⟨finished, _, _, hs.grouped, hs.started, between_of_isOpen hopen rfl rfl⟩
  | packet hdequeued =>
    rw [hdequeued] at hplace
    exact hs.packet hplace
  | firstEvent hsent =>
    rw [hsent] at hplace
    exact ⟨finished, current, waiting, hs.grouped, hs.started, Sending.between hplace⟩
  | stopDrained hdrained =>
    rw [hdrained] at hplace
    obtain ⟨⟨-, -, -, -, hx⟩, -⟩ := hplace
    exact ⟨finished, current, waiting, hs.grouped, hs.started, hx⟩
  | traceEnd hswitching htype =>
    rw [hswitching, Place.Local, htype] at hplace
    obtain ⟨-, hwaiting, x, rfl, hclient, hend⟩ := hplace
    refine ⟨finished, some { x with traceEnd := true }, waiting, ?_, hs.started,
      htype, hwaiting, _, rfl, hclient, rfl⟩
    rw [← hclient]
    exact hs.grouped.traceEnd hend
  | sessionEnd hplaces =>
    rcases hplaces with ⟨hswitching, htype⟩ | hended
    · rw [hswitching, Place.Local, htype] at hplace
      exact hs.sessionEnd hplace
    · rw [hended] at hplace
      exact hs.sessionEnd hplace

theorem Reachable.hasSessions (h : Reachable allowed s) : s.HasSessions := by
  induction h with
  | init => exact hasSessions_init
  | step _ _ hstep ih => exact ih.step (Server.step_effect hstep)

def Body.event? : Body → Option ServerTraceEvent
  | .packet event => some event
  | .mark _ => none

def packetEvents (messages : List Message) : List ServerTraceEvent :=
  messages.filterMap fun m => m.body.event?

/-- The event that is neither in the queue nor in a packet. -/
def Place.held : Place → List ServerTraceEvent
  | .dequeued _ event => [event]
  | _ => []

/-- Every event that was added is in a packet, in the hands of the work or in the queue. -/
def Server.EventsInOrder (s : Server) : Prop :=
  s.added = packetEvents s.messages ++ s.place.held ++ s.events

theorem packetEvents_sends
    (s : Server) (client : Client) (body : Body) (isSent : Bool) (place : Place) :
    packetEvents (s.sends client body isSent place).messages =
      packetEvents s.messages ++ body.event?.toList := by
  rw [packetEvents, Server.sends, List.filterMap_append, packetEvents]
  cases body <;> rfl

theorem Server.EventsInOrder.mark {mark : Mark} (h : s.EventsInOrder)
    (hheld : s.place.held = place.held) :
    (s.sends client (.mark mark) isSent place).EventsInOrder := by
  rw [Server.EventsInOrder, packetEvents_sends]
  rw [Server.EventsInOrder, hheld] at h
  simpa [Body.event?, Server.sends] using h

/-- No event gets lost or overtakes another one. -/
theorem Server.EventsInOrder.step (h : s.EventsInOrder) (hstep : Effect s a s') :
    s'.EventsInOrder := by
  have hs := h
  rw [Server.EventsInOrder] at h
  cases hstep with
  | ignored | start | stop | terminate => exact h
  | addEvent =>
    rw [Server.EventsInOrder, h]
    simp only [List.append_assoc]
  | lockStarting hplace | lockStopping hplace | lockOther hplace =>
    rw [hplace] at h
    exact h
  | dequeue hplace _ hevents =>
    rw [hplace, hevents] at h
    rw [Server.EventsInOrder, h]
    simp [Place.held]
  | drain hplace | await hplace | nothing hplace | noTraceBegin hplace | firstEvent hplace
  | stopDrained hplace =>
    rw [hplace] at h
    exact h
  | sessionBegin hplace | traceBegin hplace | traceEnd hplace =>
    exact hs.mark (by rw [hplace]; rfl)
  | @packet isSent state event hplace =>
    rw [hplace] at h
    rw [Server.EventsInOrder, packetEvents_sends]
    cases isSent <;> simpa [Server.sends, Body.event?, Place.held] using h
  | sessionEnd hplaces =>
    rcases hplaces with ⟨hplace, -⟩ | hplace
    · exact hs.mark (by rw [hplace]; rfl)
    · exact hs.mark (by rw [hplace]; rfl)

def Message.IsSentPacket (m : Message) : Prop :=
  m.isSent = true ∧ m.body.event?.isSome = true

/-- `TRACE_BEGIN` is not sent after a packet that was sent successfully. -/
def BeginsOnce (messages : List Message) : Prop :=
  messages.Pairwise fun m m' => m.IsSentPacket → m'.body ≠ .mark .traceBegin

/-- Whether the packet of the current execution is sent and not yet noted. -/
def Place.isPacketSent : Place → Bool
  | .packetSent _ => true
  | _ => false

/-- What `is_first_event` says about the messages. -/
structure Server.BeginKnown (s : Server) : Prop where
  once : BeginsOnce s.messages
  first : s.isFirstEvent = true → s.place.isPacketSent = false →
    ∀ m ∈ s.messages, ¬ m.IsSentPacket

theorem BeginsOnce.concat {messages : List Message} (h : BeginsOnce messages) {m : Message}
    (hm : m.body = .mark .traceBegin → ∀ m' ∈ messages, ¬ m'.IsSentPacket) :
    BeginsOnce (messages ++ [m]) := by
  rw [BeginsOnce, List.pairwise_append]
  refine ⟨h, List.pairwise_singleton _ _, fun m' hm' m'' hm'' hpacket hbegin => ?_⟩
  rw [List.mem_singleton.mp hm''] at hbegin
  exact hm hbegin m' hm' hpacket

theorem Server.BeginKnown.mark {mark : Mark} (h : s.BeginKnown)
    (hplace : s.place.isPacketSent = false) (hfirst : mark = .traceBegin → s.isFirstEvent = true) :
    (s.sends client (.mark mark) isSent place).BeginKnown := by
  constructor
  · refine h.once.concat fun hbody => h.first (hfirst ?_) hplace
    exact Body.mark.inj hbody
  · intro hfirst' _ m hm
    rcases List.mem_append.mp hm with hm | hm
    · exact h.first hfirst' hplace m hm
    · rw [List.mem_singleton.mp hm]
      rintro ⟨-, hevent⟩
      cases hevent

theorem Server.BeginKnown.packet {event : ServerTraceEvent} (h : s.BeginKnown)
    (hplace : s.place.isPacketSent = false) :
    (s.sends client (.packet event) isSent
      (if isSent then .packetSent state else .idle)).BeginKnown := by
  constructor
  · exact h.once.concat fun hbody => (by cases hbody)
  · intro hfirst hnot m hm
    cases isSent with
    | true => cases hnot
    | false =>
      rcases List.mem_append.mp hm with hm | hm
      · exact h.first hfirst hplace m hm
      · rw [List.mem_singleton.mp hm]
        rintro ⟨hsent, -⟩
        cases hsent

/-- TRACE_BEGIN cannot come behind the first packet. -/
theorem Server.BeginKnown.step (h : s.BeginKnown) (hstep : Effect s a s') : s'.BeginKnown := by
  cases hstep with
  | ignored | start | stop | addEvent | terminate => exact ⟨h.once, h.first⟩
  | lockStarting hplace | lockStopping hplace | lockOther hplace | dequeue hplace | drain hplace
  | await hplace | nothing hplace | noTraceBegin hplace | stopDrained hplace =>
    exact ⟨h.once, fun hfirst _ => h.first hfirst (by rw [hplace]; rfl)⟩
  | firstEvent => exact ⟨h.once, fun hfirst => (by cases hfirst)⟩
  | sessionBegin hplace | traceEnd hplace =>
    exact h.mark (by rw [hplace]; rfl) fun hmark => (by cases hmark)
  | traceBegin hplace hfirst => exact h.mark (by rw [hplace]; rfl) fun _ => hfirst
  | packet hplace => exact h.packet (by rw [hplace]; rfl)
  | sessionEnd hplaces =>
    rcases hplaces with ⟨hplace, -⟩ | hplace
    · exact h.mark (by rw [hplace]; rfl) fun hmark => (by cases hmark)
    · exact h.mark (by rw [hplace]; rfl) fun hmark => (by cases hmark)

theorem Reachable.eventsInOrder (h : Reachable allowed s) : s.EventsInOrder := by
  induction h with
  | init => rfl
  | step _ _ hstep ih => exact ih.step (Server.step_effect hstep)

theorem Reachable.beginKnown (h : Reachable allowed s) : s.BeginKnown := by
  induction h with
  | init => exact ⟨List.Pairwise.nil, fun _ _ m hm => (by cases hm)⟩
  | step _ _ hstep ih => exact ih.step (Server.step_effect hstep)

theorem eventsSenderSendMsg_bind_ne_none {seq : BitVec 32} (place : Place)
    (h : state.type ≠ .ready) :
    (eventsSenderSendMsg s state seq body isSent >>=
      fun r => (pure { r with place } : Option Server)) ≠ none := by
  rw [eventsSenderSendMsg, if_neg h]
  intro heq
  cases heq

theorem Server.HasSessions.step_ne_none (h : s.HasSessions) (a : Action) : s.step a ≠ none := by
  cases a with
  | receive client data => exact Option.some_ne_none _
  | addEvent content timestamp => exact Option.some_ne_none _
  | terminate => exact Option.some_ne_none _
  | work isSent =>
    obtain ⟨finished, current, waiting, hs⟩ := h
    have hlocal := hs.place
    rw [Server.step, eventsSenderWork]
    cases hplace : s.place with
    | idle => exact Option.some_ne_none _
    | switching state =>
      simp only [eventsSenderWorkSwitch]
      cases htype : state.type with
      | send =>
        simp only
        split
        · exact Option.some_ne_none _
        · split_ifs <;> exact Option.some_ne_none _
      | starting => exact eventsSenderSendMsg_bind_ne_none _ (by simp [htype])
      | stopping =>
        simp only
        split_ifs
        · exact eventsSenderSendMsg_bind_ne_none _ (by simp [htype])
        · exact eventsSenderSendMsg_bind_ne_none _ (by simp [htype])
      | ready => exact Option.some_ne_none _
      | invalid => exact Option.some_ne_none _
    | dequeued state event =>
      rw [hplace] at hlocal
      exact eventsSenderSendMsg_bind_ne_none _ (by simp [hlocal.1])
    | packetSent state => exact Option.some_ne_none _
    | drained state => exact Option.some_ne_none _
    | sessionBegun state =>
      rw [hplace] at hlocal
      simp only
      split_ifs
      · exact eventsSenderSendMsg_bind_ne_none _ (by simp [hlocal.1])
      · exact Option.some_ne_none _
    | traceEnded state =>
      rw [hplace] at hlocal
      exact eventsSenderSendMsg_bind_ne_none _ (by simp [hlocal.1])

/--
The messages are a sequence of finished sessions and the beginning of one more; the clients of
the sessions are those whose `START` was accepted, in the same order.
-/
def SessionSequence (messages : List Message) (started : List Client) : Prop :=
  ∃ (finished : List Session) (last : List (Client × Body)),
    contents messages = finished.flatMap (fun x => addressed x.client x.bodies) ++ last ∧
    ((last = [] ∧ finished.map Session.client <+: started) ∨
      ∃ x : Session, last <+: addressed x.client x.bodies ∧
        finished.map Session.client ++ [x.client] <+: started)

section Waiting

theorem Between.first_waiting (h : Between state current waiting) (hx : current = some x) :
    ∃ rest, waiting = x.client :: rest := by
  rw [Between] at h
  cases htype : state.type <;> rw [htype] at h
  · exact h.elim
  · rw [h.1] at hx
    cases hx
  · rw [h.1] at hx
    cases hx
  all_goals
    obtain ⟨y, hy, hclient, -, rfl⟩ := h
    rw [hx] at hy
    exact ⟨[], by rw [Option.some.inj hy, hclient]⟩

theorem Ending.first_waiting
    {traceEnd : Bool} (h : Ending copy state current waiting traceEnd) (hx : current = some x) :
    ∃ rest, waiting = x.client :: rest := by
  obtain ⟨rest, hrest, -⟩ := h.between
  obtain ⟨-, -, y, hy, hclient, -⟩ := h
  rw [hx] at hy
  exact ⟨rest, by rw [hrest, Option.some.inj hy, hclient]⟩

/-- The client of the current session is the first one whose session is not finished. -/
theorem Place.Local.first_waiting
    {place : Place} (h : place.Local state current waiting) (hx : current = some x) :
    ∃ rest, waiting = x.client :: rest := by
  cases place with
  | idle => exact Between.first_waiting h hx
  | switching copy =>
    rw [Place.Local] at h
    cases htype : copy.type <;> rw [htype] at h
    · exact h.elim
    · exact Between.first_waiting h.2 hx
    · rw [h.2.2.1] at hx
      cases hx
    · exact (Sending.between h).first_waiting hx
    · exact Ending.first_waiting h hx
  | dequeued copy event
  | packetSent copy => exact (Sending.between h).first_waiting hx
  | drained copy => exact h.1.between.first_waiting hx
  | sessionBegun copy =>
    obtain ⟨-, -, -, hcurrent, rfl⟩ := h
    rw [hx] at hcurrent
    exact ⟨[], by rw [Option.some.inj hcurrent]⟩
  | traceEnded copy => exact Ending.first_waiting h hx

end Waiting

theorem Server.HasSessions.sessionSequence (h : s.HasSessions) :
    SessionSequence s.messages s.started := by
  obtain ⟨finished, current, waiting, hs⟩ := h
  have hgrouped := hs.grouped
  cases current with
  | none =>
    refine ⟨finished, [], ?_, Or.inl ⟨rfl, waiting, hs.started.symm⟩⟩
    rw [hgrouped]
    rfl
  | some x =>
    obtain ⟨rest, rfl⟩ := Place.Local.first_waiting hs.place rfl
    refine ⟨finished, addressed x.client x.opened, ?_, Or.inr ⟨x, ?_, rest, ?_⟩⟩
    · rw [hgrouped]
      simp
    · rw [Session.bodies, addressed, addressed, List.map_append]
      exact List.prefix_append _ _
    · rw [hs.started]
      simp

/--
Every session is well formed, in every run: the messages are a sequence of sessions for the
clients that have opened them, the packets carry the added events in their order and each of them
at most once, `TRACE_BEGIN` does not follow a packet that was sent, and the `BUG_ON` does not fire.
-/
theorem sessions_wellFormed
    (h : Reachable (fun _ _ => True) s) :
    SessionSequence s.messages s.started ∧
      packetEvents s.messages <+: s.added ∧
      BeginsOnce s.messages ∧
      ∀ a, s.step a ≠ none := by
  have hevents := h.eventsInOrder
  rw [Server.EventsInOrder, List.append_assoc] at hevents
  exact ⟨h.hasSessions.sessionSequence, ⟨_, hevents.symm⟩, h.beginKnown.once,
    h.hasSessions.step_ne_none⟩

def firstClient : Client := ⟨1, 4000⟩

def secondClient : Client := ⟨2, 4000⟩

/-- The state after the given steps. -/
def Server.run (s : Server) (actions : List Action) : Option Server :=
  actions.foldlM Server.step s

theorem Reachable.run {actions : List Action} (h : Reachable allowed s)
    (hallowed : ∀ s a, a ∈ actions → allowed s a) (hrun : s.run actions = some s') :
    Reachable allowed s' := by
  induction actions generalizing s with
  | nil => exact (Option.some.inj hrun) ▸ h
  | cons a actions ih =>
    obtain ⟨s1, hs1, hrun⟩ := Option.bind_eq_some_iff.mp hrun
    exact ih (h.step (hallowed s a List.mem_cons_self) hs1)
      (fun s a ha => hallowed s a (List.mem_cons_of_mem _ ha)) hrun

/-- A `START` of the second client comes before `SESSION_END` is sent to the first one. -/
def twoClients : List Action :=
  [.addEvent [7] 5, .receive firstClient [1], .work true, .work true, .work false, .work true,
    .work true, .work true, .work true, .receive secondClient [2], .work true,
    .receive secondClient [1], .work true, .work true, .work true]

/-- Both clients are served, one after the other. -/
theorem sessions_wellFormed_twoClients :
    ∃ s, eventsSenderInit.run twoClients = some s ∧ contents s.messages =
        addressed firstClient (Session.bodies ⟨firstClient, true, [⟨[7], 5⟩], false⟩) ++
          addressed secondClient [.mark .sessionBegin] ∧
      SessionSequence s.messages s.started ∧
      packetEvents s.messages <+: s.added ∧
      BeginsOnce s.messages ∧
      ∀ a, s.step a ≠ none := by
  obtain ⟨s, hs⟩ : ∃ s, eventsSenderInit.run twoClients = some s :=
    Option.isSome_iff_exists.mp rfl
  refine ⟨s, hs, ?_, sessions_wellFormed (Reachable.init.run (fun _ _ _ => trivial) hs)⟩
  have hcontents : (eventsSenderInit.run twoClients).map (fun s => contents s.messages) =
      some (addressed firstClient (Session.bodies ⟨firstClient, true, [⟨[7], 5⟩], false⟩) ++
        addressed secondClient [.mark .sessionBegin]) := by rfl
  rw [hs] at hcontents
  exact Option.some.inj hcontents

end TraceUdp
end KedrAux
