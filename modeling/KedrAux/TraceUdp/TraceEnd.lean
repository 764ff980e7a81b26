import KedrAux.TraceUdp.Sessions

/-!
# The end of the trace

`TRACE_END` is sent by an execution of the work that reads the state `STOPPING` after the terminate
command.  That state is entered when the queue is found empty, but also by a `STOP` that comes
before the terminate command, and then events may be left in the queue.
-/

namespace KedrAux
namespace TraceUdp

variable {s s' : Server} {a : Action}

/-- Nobody generates events after the terminate command. -/
def NoLateEvents (s : Server) : Action → Prop
  | .addEvent _ _ => s.state.isTerminated = false
  | _ => True

/-- The number of events that the current execution of the work still takes from the queue, if it
is ahead of a `STOP`. -/
def Place.pending : Place → Nat
  | .switching copy => if copy.type = .send then 1 else 0
  | _ => 0

/-- When the terminate command comes after a `STOP` that is not yet carried out, the work takes all
events that are left. -/
def StopsDrained (s : Server) : Action → Prop
  | .terminate => s.state.isTerminated = false → s.state.type = .stopping →
      s.events.length ≤ s.place.pending
  | _ => True

def SendsMark (s s' : Server) (mark : Mark) : Prop :=
  ∃ m, s'.messages = s.messages ++ [m] ∧ m.body = .mark mark

/-- No packet is sent after `TRACE_END`. -/
def EndsWithTraceEnd (messages : List Message) : Prop :=
  messages.Pairwise fun m m' => m.body = .mark .traceEnd → m'.body.event? = none

/-- `TRACE_END` really ends the trace: no packet was sent after it so far, and the next step
sends it only when the queue is empty. -/
def TraceEnds (s : Server) : Prop :=
  EndsWithTraceEnd s.messages ∧
    ∀ a s', NoLateEvents s a → s.step a = some s' → SendsMark s s' .traceEnd → s.events = []

/-- A place from which packets may be sent later. -/
def Place.talks : Place → Bool
  | .idle | .traceEnded _ => false
  | .switching copy => decide (copy.type ≠ .ready)
  | _ => true

/-- No packet will be sent any more. -/
def Server.Silent (s : Server) : Prop :=
  s.state.isTerminated = true ∧ s.state.type = .ready ∧ s.place.talks = false

/-- What is known about the queue after the terminate command. -/
structure Server.Draining (s : Server) : Prop where
  stopping : s.state.isTerminated = true → s.state.type = .stopping →
    s.events.length ≤ s.place.pending
  drained : ∀ copy, s.place = .drained copy → s.state.isTerminated = true ∧ s.events = []
  ending : ∀ copy, s.place = .switching copy → copy.isTerminated = true →
    s.state.isTerminated = true ∧ (copy.type = .stopping → s.events = [] ∧ s.state.type = .ready)
  silent : ∀ m ∈ s.messages, m.body = .mark .traceEnd → s.Silent
  last : EndsWithTraceEnd s.messages

theorem EndsWithTraceEnd.concat
    {messages : List Message} (h : EndsWithTraceEnd messages) {m : Message}
    (hm : m.body.event? = none ∨ ∀ m' ∈ messages, m'.body ≠ .mark .traceEnd) :
    EndsWithTraceEnd (messages ++ [m]) := by
  rw [EndsWithTraceEnd, List.pairwise_append]
  refine ⟨h, List.pairwise_singleton _ _, fun m' hm' m'' hm'' hend => ?_⟩
  rw [List.mem_singleton.mp hm'']
  rcases hm with hmark | hno
  · exact hmark
  · exact absurd hend (hno m' hm')

theorem Server.Draining.init : eventsSenderInit.Draining where
  stopping := fun h => (by cases h)
  drained := fun _ h => (by cases h)
  ending := fun _ h => (by cases h)
  silent := fun _ h => (by cases h)
  last := List.Pairwise.nil

theorem Server.Draining.of_not_terminated
    (h : s.Draining) (hterminated : s.state.isTerminated = false)
    (hstate : s'.state.isTerminated = false) (hplace : s'.place = s.place)
    (hmessages : s'.messages = s.messages) : s'.Draining where
  stopping := fun hnot => (by rw [hstate] at hnot; cases hnot)
  drained := fun copy hdrained => by
    have hnot := (h.drained copy (hplace ▸ hdrained)).1
    rw [hterminated] at hnot
    cases hnot
  ending := fun copy hswitching hcopy => by
    have hnot := (h.ending copy (hplace ▸ hswitching) hcopy).1
    rw [hterminated] at hnot
    cases hnot
  silent := fun m hm hend => by
    have hnot := (h.silent m (hmessages ▸ hm) hend).1
    rw [hterminated] at hnot
    cases hnot
  last := hmessages ▸ h.last

theorem Server.Draining.terminate (h : s.Draining) (hstops : StopsDrained s .terminate) :
    Server.Draining { s with state := ⟨s.state.type, true, s.state.client⟩ } where
  stopping := fun _ htype => by
    cases hterminated : s.state.isTerminated with
    | false => exact hstops hterminated htype
    | true => exact h.stopping hterminated htype
  drained := fun copy hplace => ⟨rfl, (h.drained copy hplace).2⟩
  ending := fun copy hplace hcopy => ⟨rfl, (h.ending copy hplace hcopy).2⟩
  silent := fun m hm hend => ⟨rfl, (h.silent m hm hend).2⟩
  last := h.last

theorem Server.Draining.no_traceEnd (h : s.Draining) (hsilent : ¬ s.Silent) :
    ∀ m ∈ s.messages, m.body ≠ .mark .traceEnd :=
  fun m hm hend => hsilent (h.silent m hm hend)

theorem not_silent_of_type (htype : s.state.type ≠ .ready) : ¬ s.Silent :=
  fun h => htype h.2.1

theorem Server.Draining.lockStarting (h : s.Draining) (htype : s.state.type = .starting) :
    Server.Draining { s with
      state := ⟨.send, s.state.isTerminated, s.state.client⟩
      place := .switching s.state } where
  stopping := fun _ hstopping => (by cases hstopping)
  drained := fun _ hplace => (by cases hplace)
  ending := fun copy hplace hcopy => by
    cases hplace
    refine ⟨hcopy, fun hstopping => ?_⟩
    rw [htype] at hstopping
    cases hstopping
  silent := fun m hm hend =>
    absurd hend (h.no_traceEnd (not_silent_of_type (by simp [htype])) m hm)
  last := h.last

theorem Server.Draining.lockStopping
    (h : s.Draining) (hidle : s.place = .idle) (htype : s.state.type = .stopping) :
    Server.Draining { s with
      state := ⟨.ready, s.state.isTerminated, s.state.client⟩
      place := .switching s.state } where
  stopping := fun _ hstopping => (by cases hstopping)
  drained := fun _ hplace => (by cases hplace)
  ending := fun copy hplace hcopy => by
    cases hplace
    have hevents := h.stopping hcopy htype
    rw [hidle] at hevents
    exact ⟨hcopy, fun _ => ⟨List.length_eq_zero_iff.mp (Nat.le_zero.mp hevents), rfl⟩⟩
  silent := fun m hm hend =>
    absurd hend (h.no_traceEnd (not_silent_of_type (by simp [htype])) m hm)
  last := h.last

theorem Server.Draining.lockOther (h : s.Draining) (htype : s.state.type ≠ .stopping) :
    Server.Draining { s with place := .switching s.state } where
  stopping := fun _ hstopping => absurd hstopping htype
  drained := fun _ hplace => (by cases hplace)
  ending := fun copy hplace hcopy => by
    cases hplace
    exact ⟨hcopy, fun hstopping => absurd hstopping htype⟩
  silent := fun m hm hend => by
    have hsilent := h.silent m hm hend
    exact ⟨hsilent.1, hsilent.2.1, by simp [Place.talks, hsilent.2.1]⟩
  last := h.last

/-- A part of the work after which the execution is neither before its second `switch` nor before
the change of the state. -/
theorem Server.Draining.goOn (h : s.Draining) (hstate : s'.state = s.state)
    (hevents : s.events.length ≤ s.place.pending → s'.events = [])
    (hdrained : ∀ copy, s'.place ≠ .drained copy)
    (hswitching : ∀ copy, s'.place ≠ .switching copy)
    (hsilent : ∀ m ∈ s'.messages, m.body = .mark .traceEnd → s'.Silent)
    (hlast : EndsWithTraceEnd s'.messages) : s'.Draining where
  stopping := fun hterminated htype => by
    rw [hstate] at hterminated htype
    rw [hevents (h.stopping hterminated htype)]
    exact Nat.zero_le _
  drained := fun copy hplace => absurd hplace (hdrained copy)
  ending := fun copy hplace => absurd hplace (hswitching copy)
  silent := hsilent
  last := hlast

variable {place : Place} {copy : SenderState} {isSent : Bool}

theorem eq_nil_of_pending (hplace : s.place = place) (hpending : place.pending = 0)
    (h : s.events.length ≤ s.place.pending) : s.events = [] := by
  rw [hplace, hpending] at h
  exact List.length_eq_zero_iff.mp (Nat.le_zero.mp h)

theorem pending_switching (h : copy.type ≠ .send) : (Place.switching copy).pending = 0 :=
  if_neg h

theorem not_silent_of_talks (h : s.place.talks = true) : ¬ s.Silent := by
  rintro ⟨-, -, hplace⟩
  rw [h] at hplace
  cases hplace

theorem Server.Draining.sends {client : Client} {body : Body} (h : s.Draining)
    (hpending : s.place.pending = 0) (htalks : s.place.talks = true)
    (hbody : body ≠ .mark .traceEnd) (hdrained : ∀ copy, place ≠ .drained copy)
    (hswitching : ∀ copy, place ≠ .switching copy) :
    (s.sends client body isSent place).Draining := by
  have hno := h.no_traceEnd (not_silent_of_talks htalks)
  refine h.goOn rfl (eq_nil_of_pending rfl hpending) hdrained hswitching ?_
    (h.last.concat (Or.inr hno))
  intro m hm hend
  rcases List.mem_append.mp hm with hm | hm
  · exact absurd hend (hno m hm)
  · rw [List.mem_singleton.mp hm] at hend
    exact absurd hend hbody

theorem Server.Draining.traceEnd (h : s.Draining) (hplace : s.place = .switching copy)
    (htype : copy.type = .stopping) (hterminated : copy.isTerminated = true) :
    (s.sends copy.client (.mark .traceEnd) isSent (.traceEnded copy)).Draining := by
  obtain ⟨hstate, hending⟩ := h.ending copy hplace hterminated
  have hsilent : (s.sends copy.client (.mark .traceEnd) isSent (.traceEnded copy)).Silent :=
    ⟨hstate, (hending htype).2, rfl⟩
  exact h.goOn rfl (fun _ => (hending htype).1) (fun _ heq => (by cases heq))
    (fun _ heq => (by cases heq)) (fun _ _ _ => hsilent) (h.last.concat (Or.inl rfl))

theorem Server.Draining.sessionEnd (h : s.Draining) (hplace : s.place = .traceEnded copy) :
    (s.sends copy.client (.mark .sessionEnd) isSent .idle).Draining := by
  refine h.goOn rfl (eq_nil_of_pending hplace rfl) (fun _ heq => (by cases heq))
    (fun _ heq => (by cases heq)) ?_ (h.last.concat (Or.inl rfl))
  intro m hm hend
  rcases List.mem_append.mp hm with hm | hm
  · have hsilent := h.silent m hm hend
    exact ⟨hsilent.1, hsilent.2.1, rfl⟩
  · rw [List.mem_singleton.mp hm] at hend
    cases hend

theorem Server.Draining.leave (h : s.Draining)
    (hpending : s.events.length ≤ s.place.pending → s.events = []) (htalks : s.place.talks = true)
    (hdrained : ∀ copy, place ≠ .drained copy) (hswitching : ∀ copy, place ≠ .switching copy)
    (isFirstEvent : Bool) :
    Server.Draining { s with isFirstEvent, place } := by
  have hno := h.no_traceEnd (not_silent_of_talks htalks)
  exact h.goOn rfl hpending hdrained hswitching (fun m hm hend => absurd hend (hno m hm)) h.last

/-- If no event comes late, the queue is empty before TRACE_END. -/
theorem Server.Draining.step (h : s.Draining) (hlate : NoLateEvents s a) (hstops : StopsDrained s a)
    (hstep : Effect s a s') : s'.Draining := by
  cases hstep with
  | ignored => exact h
  | start hterminated _
  | stop hterminated _ => exact h.of_not_terminated hterminated hterminated rfl rfl
  | addEvent => exact h.of_not_terminated hlate hlate rfl rfl
  | terminate => exact h.terminate hstops
  | lockStarting _ htype => exact h.lockStarting htype
  | lockStopping hplace htype => exact h.lockStopping hplace htype
  | lockOther _ _ hstopping => exact h.lockOther hstopping
  | @dequeue _ copy event events hplace htype hevents =>
    have hno := h.no_traceEnd
      (not_silent_of_talks (by rw [hplace, Place.talks, htype]; rfl))
    refine h.goOn rfl (fun hle => ?_) (fun _ heq => (by cases heq)) (fun _ heq => (by cases heq))
      (fun m hm hend => absurd hend (hno m hm)) h.last
    rw [hplace, Place.pending, if_pos htype, hevents, List.length_cons] at hle
    exact List.length_eq_zero_iff.mp (Nat.le_zero.mp (Nat.le_of_succ_le_succ hle))
  | @drain _ copy hplace htype hevents hterminated =>
    have hno := h.no_traceEnd
      (not_silent_of_talks (by rw [hplace, Place.talks, htype]; rfl))
    have hstate := (h.ending copy hplace hterminated).1
    exact ⟨fun _ _ => (by simp [hevents]), fun _ _ => ⟨hstate, hevents⟩,
      fun _ heq => (by cases heq), fun m hm hend => absurd hend (hno m hm), h.last⟩
  | await hplace htype hevents =>
    exact h.leave (fun _ => hevents) (by rw [hplace, Place.talks, htype]; rfl)
      (fun _ heq => (by cases heq)) (fun _ heq => (by cases heq)) _
  | @nothing _ copy hplace htype =>
    have hsend : copy.type ≠ .send := by
      rcases htype with htype | htype <;> simp [htype]
    refine h.goOn rfl (eq_nil_of_pending hplace (pending_switching hsend))
      (fun _ heq => (by cases heq)) (fun _ heq => (by cases heq)) (fun m hm hend => ?_) h.last
    have hsilent := h.silent m hm hend
    exact ⟨hsilent.1, hsilent.2.1, rfl⟩
  | sessionBegin hplace htype =>
    exact h.sends (by rw [hplace, pending_switching (by simp [htype])])
      (by rw [hplace, Place.talks, htype]; rfl) (fun heq => (by cases heq))
      (fun _ heq => (by cases heq)) (fun _ heq => (by cases heq))
  | traceBegin hplace _ =>
    exact h.sends (by rw [hplace]; rfl) (by rw [hplace]; rfl) (fun heq => (by cases heq))
      (fun _ heq => (by cases heq)) (fun _ heq => (by cases heq))
  | noTraceBegin hplace =>
    exact h.leave (eq_nil_of_pending hplace rfl) (by rw [hplace]; rfl)
      (fun _ heq => (by cases heq)) (fun _ heq => (by cases heq)) _
  | @packet isSent copy event hplace =>
    refine h.sends (by rw [hplace]; rfl) (by rw [hplace]; rfl) (fun heq => (by cases heq)) ?_ ?_
    · intro copy' heq
      cases isSent <;> cases heq
    · intro copy' heq
      cases isSent <;> cases heq
  | firstEvent hplace =>
    exact h.leave (eq_nil_of_pending hplace rfl) (by rw [hplace]; rfl)
      (fun _ heq => (by cases heq)) (fun _ heq => (by cases heq)) _
  | @stopDrained _ copy hplace =>
    have hno := h.no_traceEnd (not_silent_of_talks (by rw [hplace]; rfl))
    have hevents := (h.drained copy hplace).2
    exact ⟨fun _ _ => (by simp [hevents]), fun _ heq => (by cases heq),
      fun _ heq => (by cases heq), fun m hm hend => absurd hend (hno m hm), h.last⟩
  | traceEnd hplace htype hterminated => exact h.traceEnd hplace htype hterminated
  | sessionEnd hplaces =>
    rcases hplaces with ⟨hplace, htype⟩ | hplace
    · exact h.sends (by rw [hplace, pending_switching (by simp [htype])])
        (by rw [hplace, Place.talks, htype]; rfl) (fun heq => (by cases heq))
        (fun _ heq => (by cases heq)) (fun _ heq => (by cases heq))
    · exact h.sessionEnd hplace

theorem Reachable.draining
    (h : Reachable (fun s a => NoLateEvents s a ∧ StopsDrained s a) s) : s.Draining := by
  induction h with
  | init => exact Server.Draining.init
  | step _ hallowed hstep ih => exact ih.step hallowed.1 hallowed.2 (Server.step_effect hstep)

theorem ne_of_sendsMark {mark : Mark} (h : SendsMark s s' mark) : s'.messages ≠ s.messages := by
  obtain ⟨m, hm, -⟩ := h
  intro heq
  rw [heq] at hm
  simp at hm

theorem sendsMark_traceEnd (h : SendsMark s s' .traceEnd) (hstep : Effect s a s') :
    ∃ copy, s.place = .switching copy ∧ copy.type = .stopping ∧ copy.isTerminated = true := by
  have hne := ne_of_sendsMark h
  obtain ⟨m, hm, hbody⟩ := h
  have hsent : ∀ {client : Client} {body : Body} {isSent : Bool} {place : Place},
      s' = s.sends client body isSent place → body = .mark .traceEnd := by
    rintro client body isSent place rfl
    have heq := List.append_cancel_left hm
    rw [← List.head_eq_of_cons_eq heq] at hbody
    exact hbody
  cases hstep with
  | traceEnd hplace htype hterminated => exact ⟨_, hplace, htype, hterminated⟩
  | sessionBegin | traceBegin | packet | sessionEnd => cases hsent rfl
  | _ => exact absurd rfl hne

/--
`TRACE_END` really ends the trace in all runs in which the terminate command does not come between
a `STOP` and the execution of the work that carries it out, except when that work leaves no event
in the queue.
-/
theorem traceEnds_of_stopsDrained
    (h : Reachable (fun s a => NoLateEvents s a ∧ StopsDrained s a) s) : TraceEnds s := by
  refine ⟨h.draining.last, fun a s' _ hstep hsends => ?_⟩
  obtain ⟨copy, hplace, htype, hterminated⟩ := sendsMark_traceEnd hsends (Server.step_effect hstep)
  exact ((h.draining.ending copy hplace hterminated).2 htype).1

/-- The event is still in the queue when `TRACE_END` is sent: the terminate command comes after a
`STOP` that the work has not yet carried out. -/
theorem traceEnd_before_event :
    ¬ ∀ s, Reachable NoLateEvents s → TraceEnds s := by
  intro h
  have hsession : Reachable NoLateEvents _ :=
    Reachable.init.step (a := .addEvent [7] 5) rfl rfl
      |>.step (a := .receive firstClient [1]) trivial rfl
      |>.step (a := .work true) trivial rfl
      |>.step (a := .work true) trivial rfl
      |>.step (a := .work true) trivial rfl
  have hreachable : Reachable NoLateEvents _ :=
    hsession.step (a := .receive firstClient [2]) trivial rfl
      |>.step (a := .terminate) trivial rfl
      |>.step (a := .work true) trivial rfl
  have hevents := (h _ hreachable).2 (.work true) _ trivial rfl ⟨_, rfl, rfl⟩
  cases hevents

/-- The event is sent first when the terminate command comes without a `STOP`. -/
theorem traceEnds_of_stopsDrained_terminated :
    ∃ s s', s.step (.work true) = some s' ∧ SendsMark s s' .traceEnd ∧
      packetEvents s.messages = [⟨[7], 5⟩] ∧ TraceEnds s := by
  have hsession : Reachable (fun s a => NoLateEvents s a ∧ StopsDrained s a) _ :=
    Reachable.init.step (a := .addEvent [7] 5) ⟨rfl, trivial⟩ rfl
      |>.step (a := .receive firstClient [1]) ⟨trivial, trivial⟩ rfl
      |>.step (a := .terminate) ⟨trivial, fun _ htype => (by cases htype)⟩ rfl
      |>.step (a := .work true) ⟨trivial, trivial⟩ rfl
      |>.step (a := .work true) ⟨trivial, trivial⟩ rfl
      |>.step (a := .work true) ⟨trivial, trivial⟩ rfl
  have hpacket : Reachable (fun s a => NoLateEvents s a ∧ StopsDrained s a) _ :=
    hsession.step (a := .work true) ⟨trivial, trivial⟩ rfl
      |>.step (a := .work true) ⟨trivial, trivial⟩ rfl
      |>.step (a := .work true) ⟨trivial, trivial⟩ rfl
      |>.step (a := .work true) ⟨trivial, trivial⟩ rfl
  have hdrained : Reachable (fun s a => NoLateEvents s a ∧ StopsDrained s a) _ :=
    hpacket.step (a := .work true) ⟨trivial, trivial⟩ rfl
      |>.step (a := .work true) ⟨trivial, trivial⟩ rfl
      |>.step (a := .work true) ⟨trivial, trivial⟩ rfl
      |>.step (a := .work true) ⟨trivial, trivial⟩ rfl
  exact ⟨_, _, rfl, ⟨_, rfl, rfl⟩, rfl, traceEnds_of_stopsDrained hdrained⟩

end TraceUdp
end KedrAux
