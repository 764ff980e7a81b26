import KedrAux.TraceUdp.Sessions
import KedrAux.TraceUdp.Wire

/-!
# The client of the trace server

`main` of the client (`trace_reader.c`), from the `START` command to its exit.  Datagrams come in
the order in which they were sent, and some of them are lost.  What `sendto` returns comes from
outside.

An event is printed with `%.*s`, that is up to the first null character of its content, and with
the seconds (as an `int`) and microseconds of its time stamp.
-/

namespace KedrAux
namespace TraceUdp

open LittleEndian (Byte)
open ByteOrder

/-- The lines that the client prints, and the commands that it sends. -/
inductive ClientOutput where
  | startSent
  | sessionBegins
  | event (line : List Byte)
  | stopSent
  | traceBegins
  | traceEnds
  | sessionEnds
deriving DecidableEq

inductive ClientEnd where
  /-- In `recv`, when nothing more comes. -/
  | waiting
  | exited (status : Int)
  | assertFailed
  /-- The count of events is not an `int`. -/
  | overflow
deriving DecidableEq

def charBytes (s : String) : List Byte :=
  s.toList.map fun c => BitVec.ofNat 8 c.toNat

def eventLine (timestamp : BitVec 64) (eventContextSize : Nat) (eventContext : List Byte) :
    List Byte :=
  let tsSec := (timestamp / 1000000000).setWidth 32
  let tsMsec := ((timestamp % 1000000000) / 1000).setWidth 32
  charBytes ("(" ++ toString tsSec.toInt ++ "." ++ toString tsMsec.toInt ++ "): size=" ++
      toString eventContextSize ++ ", content=") ++
    ((eventContext.take eventContextSize).takeWhile fun c => c ≠ 0) ++ charBytes "\n"

/-- `events_limit` for the number that is given with `--events-limit`. -/
def eventsLimitOf (value : BitVec 64) : BitVec 32 :=
  if 0 < value.toInt then value.setWidth 32 else 0

section Main

variable (host : Host) (eventsLimit : BitVec 32) (isStopSent : Bool)

/-- The loop of `main`, with `events_count` at its begin. -/
def clientLoop : List (List Byte) → Nat → List ClientOutput × ClientEnd
  | [], _ => ([], .waiting)
  | datagram :: datagrams, eventsCount =>
    match traceClientReceiveMsg datagram with
    | none => ([], .exited (-1))
    | some serverMsg =>
      match isTracePacket host serverMsg with
      | .error _ => ([], .assertFailed)
      | .ok (some packet) =>
        let output := .event
          (eventLine packet.timestamp packet.eventContextSize.toNat packet.eventContext)
        let rest := clientLoop datagrams (eventsCount + 1)
        if 2 ^ 31 ≤ eventsCount + 1 then ([output], .overflow)
        else if eventsLimit ≠ 0 ∧ (eventsCount + 1 : Int) = eventsLimit.toInt then
          if isStopSent then (output :: .stopSent :: rest.1, rest.2)
          else ([output], .exited (-1))
        else (output :: rest.1, rest.2)
      | .ok none =>
        match isMark serverMsg with
        | .error _ => ([], .assertFailed)
        | .ok none => ([], .exited (-1))
        | .ok (some mark) =>
          let rest := clientLoop datagrams eventsCount
          if mark = Mark.traceBegin.value then (.traceBegins :: rest.1, rest.2)
          else if mark = Mark.traceEnd.value then (.traceEnds :: rest.1, rest.2)
          else if mark ≠ Mark.sessionEnd.value then ([], .exited (-1))
          else ([.sessionEnds], .exited 0)

def clientMain (isStartSent : Bool) (datagrams : List (List Byte)) :
    List ClientOutput × ClientEnd :=
  if !isStartSent then ([], .exited (-1))
  else
    match datagrams with
    | [] => ([.startSent], .waiting)
    | datagram :: datagrams =>
      match traceClientReceiveMsg datagram with
      | none => ([.startSent], .exited (-1))
      | some serverMsg =>
        match isMark serverMsg with
        | .error _ => ([.startSent], .assertFailed)
        | .ok none => ([.startSent], .exited (-1))
        | .ok (some mark) =>
          if mark ≠ Mark.sessionBegin.value then ([.startSent], .exited (-1))
          else
            let rest := clientLoop host eventsLimit isStopSent datagrams 0
            (.startSent :: .sessionBegins :: rest.1, rest.2)

end Main

/-- A packet fits into the buffer of the client. -/
def Body.Fits : Body → Prop
  | .packet event => offContext + event.content.length ≤ msgLenMax
  | .mark _ => True

/-- The client with a number for `--events-limit` on the datagrams of messages, given by their
numbers and what they are about; its commands are sent. -/
def clientRun (server client : Host) (stack : Nat → Byte) (limit : BitVec 64)
    (received : List (BitVec 32 × Body)) : List ClientOutput × ClientEnd :=
  clientMain client (eventsLimitOf limit) true true (received.map fun m => m.2.bytes server stack m.1)

section Reading

variable (server client : Host) (stack : Nat → Byte) (seq : BitVec 32)

/-- Every message that fits is read as what was sent, whatever its number is. -/
theorem Body.Fits.received {body : Body} (h : body.Fits) :
    ∃ serverMsg, traceClientReceiveMsg (body.bytes server stack seq) = some serverMsg ∧
      ReadsAs client serverMsg body := by
  cases body with
  | mark mark =>
    obtain ⟨serverMsg, hreceive, hreads, -⟩ :=
      (@decodes_mark_iff server client stack _ mark).mpr seq.isLt
    rw [BitVec.ofNat_toNat, BitVec.setWidth_eq] at hreceive
    exact ⟨serverMsg, hreceive, hreads⟩
  | packet event =>
    obtain ⟨header, -, hreceive, hheader⟩ := received_packet server client stack seq event
    obtain ⟨-, hmark, hpacket⟩ := hheader (event.content.take (msgLenMax - offContext))
    simp only [Body.Fits, offContext, msgLenMax] at h
    have hmod : event.content.length % 65536 = event.content.length := by omega
    have htake : event.content.take (msgLenMax - offContext) = event.content :=
      List.take_of_length_le (by simp only [offContext, msgLenMax]; omega)
    rw [htake, hmod, if_pos (Nat.le_refl _), List.take_length] at hpacket
    rw [htake] at hmark hreceive
    refine ⟨_, hreceive, hmark, _, hpacket, ?_⟩
    rw [BitVec.toNat_setWidth, BitVec.toNat_ofNat]
    omega

end Reading

/-- The messages between the first and the last one of a session. -/
def Body.IsInner : Body → Prop
  | .packet _ | .mark .traceBegin | .mark .traceEnd => True
  | .mark .sessionBegin | .mark .sessionEnd => False

def printed (event : ServerTraceEvent) : ClientOutput :=
  .event (eventLine event.timestamp event.content.length event.content)

def ClientOutput.isEvent : ClientOutput → Bool
  | .event _ => true
  | _ => false

/-- How often the limit is reached by `k` events after `n` ones. -/
def limitReached (eventsLimit : BitVec 32) (n k : Nat) : Nat :=
  if (n : Int) < eventsLimit.toInt ∧ eventsLimit.toInt ≤ n + k then 1 else 0

theorem limitReached_succ (eventsLimit : BitVec 32) (n k : Nat) :
    limitReached eventsLimit n (k + 1) =
      (if eventsLimit ≠ 0 ∧ (n + 1 : Int) = eventsLimit.toInt then 1 else 0) +
        limitReached eventsLimit (n + 1) k := by
  rcases eq_or_ne eventsLimit 0 with rfl | hne
  · have hzero : (0 : BitVec 32).toInt = 0 := rfl
    simp only [limitReached, ne_eq, not_true_eq_false, false_and, if_false, hzero]
    split_ifs <;> omega
  · simp only [limitReached, ne_eq, hne, not_false_eq_true, true_and]
    split_ifs <;> omega

/-- The outputs for the given events after `n` ones. -/
def Reports (eventsLimit : BitVec 32) (n : Nat) (events : List ServerTraceEvent)
    (outputs : List ClientOutput) : Prop :=
  outputs.filter ClientOutput.isEvent = events.map printed ∧
    outputs.count .stopSent = limitReached eventsLimit n events.length

section Runs

variable {server client : Host} {stack : Nat → Byte} {eventsLimit : BitVec 32} {n : Nat}

theorem Reports.packet {events : List ServerTraceEvent} {outputs : List ClientOutput}
    (h : Reports eventsLimit (n + 1) events outputs) (event : ServerTraceEvent) :
    Reports eventsLimit n (event :: events) (printed event ::
      ((if eventsLimit ≠ 0 ∧ (n + 1 : Int) = eventsLimit.toInt then [.stopSent] else []) ++
        outputs)) := by
  constructor
  · rw [List.filter_cons_of_pos rfl, List.filter_append, h.1]
    split_ifs <;> rfl
  · have hcount : (if eventsLimit ≠ 0 ∧ (n + 1 : Int) = eventsLimit.toInt then
        [ClientOutput.stopSent] else []).count .stopSent =
        if eventsLimit ≠ 0 ∧ (n + 1 : Int) = eventsLimit.toInt then 1 else 0 := by
      split_ifs <;> rfl
    rw [List.count_cons_of_ne (by simp [printed]), List.count_append, hcount, h.2]
    exact (limitReached_succ _ _ _).symm

/-- The loop goes on after inner messages, and has reported the events. -/
theorem clientLoop_inner (inner : List (BitVec 32 × Body)) (rest : List (List Byte))
    (hinner : ∀ m ∈ inner, m.2.Fits ∧ m.2.IsInner) (hcount : n + inner.length < 2 ^ 31) :
    ∃ outputs n', Reports eventsLimit n (inner.filterMap fun m => m.2.event?) outputs ∧
      clientLoop client eventsLimit true (inner.map (fun m => m.2.bytes server stack m.1) ++ rest) n =
        (outputs ++ (clientLoop client eventsLimit true rest n').1,
          (clientLoop client eventsLimit true rest n').2) := by
  induction inner generalizing n with
  | nil =>
    refine ⟨[], n, ⟨rfl, ?_⟩, rfl⟩
    rw [List.filterMap_nil, List.length_nil, limitReached, if_neg (by omega), List.count_nil]
  | cons m inner ih =>
    obtain ⟨seq, body⟩ := m
    obtain ⟨hfits, hbody⟩ := hinner _ List.mem_cons_self
    obtain ⟨serverMsg, hreceive, hreads⟩ := hfits.received server client stack seq
    rw [List.map_cons, List.cons_append, clientLoop, hreceive]
    cases body with
    | packet event =>
      obtain ⟨outputs, n', hreports, hloop⟩ :=
        @ih (n + 1) (fun m hm => hinner m (List.mem_cons_of_mem _ hm))
          (by rw [List.length_cons] at hcount; omega)
      obtain ⟨-, size, hpacket, hsize⟩ := hreads
      refine ⟨_, n', hreports.packet event, ?_⟩
      have hint : ¬ 2 ^ 31 ≤ n + 1 := by
        rw [List.length_cons] at hcount
        omega
      simp only [hpacket, hsize, hloop, if_neg hint]
      split_ifs <;> rfl
    | mark mark =>
      obtain ⟨outputs, n', hreports, hloop⟩ :=
        @ih n (fun m hm => hinner m (List.mem_cons_of_mem _ hm))
          (by rw [List.length_cons] at hcount; omega)
      obtain ⟨hmark, hpacket⟩ := hreads
      simp only [hpacket, hmark, hloop]
      cases mark with
      | traceBegin => exact ⟨.traceBegins :: outputs, n', hreports, rfl⟩
      | traceEnd => exact ⟨.traceEnds :: outputs, n', hreports, rfl⟩
      | sessionBegin | sessionEnd => exact hbody.elim

/-- The messages of a session that come, after those that are lost. -/
theorem sublist_bodies {x : Session} {received : List (BitVec 32 × Body)}
    (h : (received.map Prod.snd).Sublist x.bodies) :
    ∃ first inner last, received = first ++ (inner ++ last) ∧
      (first = [] ∨ ∃ seq, first = [(seq, .mark .sessionBegin)]) ∧
      (last = [] ∨ ∃ seq, last = [(seq, .mark .sessionEnd)]) ∧ ∀ m ∈ inner, m.2.IsInner := by
  have hsingle : ∀ {l : List (BitVec 32 × Body)} {body : Body}, (l.map Prod.snd).Sublist [body] →
      l = [] ∨ ∃ seq, l = [(seq, body)] := by
    intro l body hl
    rcases List.sublist_singleton.mp hl with hnil | hcons
    · exact .inl (List.map_eq_nil_iff.mp hnil)
    · obtain ⟨⟨seq, _⟩, rfl, rfl⟩ := List.map_eq_singleton_iff.mp hcons
      exact .inr ⟨seq, rfl⟩
  rw [Session.bodies, Session.opened, ← List.singleton_append, List.append_assoc,
    List.sublist_append_iff] at h
  obtain ⟨_, _, heq, hfirst, hrest⟩ := h
  obtain ⟨first, _, rfl, rfl, rfl⟩ := List.map_eq_append_iff.mp heq
  obtain ⟨_, _, heq, hinner, hlast⟩ := List.sublist_append_iff.mp hrest
  obtain ⟨inner, last, rfl, rfl, rfl⟩ := List.map_eq_append_iff.mp heq
  refine ⟨first, inner, last, rfl, hsingle hfirst, hsingle hlast, fun m hm => ?_⟩
  have hmem := hinner.subset (List.mem_map_of_mem hm)
  obtain ⟨seq, body⟩ := m
  simp only [List.mem_append, List.mem_map] at hmem
  cases x.traceBegin <;> cases x.traceEnd <;>
    rcases hmem with (hmem | ⟨event, -, rfl⟩) | hmem <;> simp_all [Body.IsInner]

/-- Of the messages of the session any ones may be lost, packets fit into the buffer of the
client, and their count is an `int`.  Then the client ends without an error exactly when the first
and the last message come.  In this case it has printed the lines of the events that came, in
their order, and sent `STOP` once if there were as many of them as its limit. -/
def Session.Served (x : Session) : Prop :=
  ∀ (server client : Host) (stack : Nat → Byte) (limit : BitVec 64)
    (received : List (BitVec 32 × Body)), (received.map Prod.snd).Sublist x.bodies →
    (∀ m ∈ received, m.2.Fits) → received.length < 2 ^ 31 →
      ((clientRun server client stack limit received).2 = .exited 0 ↔
        (∃ seq, (seq, .mark .sessionBegin) ∈ received) ∧
          ∃ seq, (seq, .mark .sessionEnd) ∈ received) ∧
      ((clientRun server client stack limit received).2 = .exited 0 →
        Reports (eventsLimitOf limit) 0 (received.filterMap fun m => m.2.event?)
          (clientRun server client stack limit received).1)

variable {limit : BitVec 64}

theorem clientRun_begin (seq : BitVec 32) (received : List (BitVec 32 × Body)) :
    clientRun server client stack limit ((seq, .mark .sessionBegin) :: received) =
      let rest := clientLoop client (eventsLimitOf limit) true
        (received.map fun m => m.2.bytes server stack m.1) 0
      (.startSent :: .sessionBegins :: rest.1, rest.2) := by
  obtain ⟨serverMsg, hreceive, hmark, -⟩ :=
    (show (Body.mark .sessionBegin).Fits from trivial).received server client stack seq
  simp only [clientRun, clientMain, List.map_cons, hreceive, hmark]
  rfl

/-- Without `SESSION_BEGIN` the client does not come to its loop. -/
theorem clientRun_of_not_begin {received : List (BitVec 32 × Body)}
    (hfits : ∀ m ∈ received, m.2.Fits) (h : ∀ m ∈ received, m.2 ≠ .mark .sessionBegin) :
    (clientRun server client stack limit received).2 ≠ .exited 0 := by
  cases received with
  | nil => simp [clientRun, clientMain]
  | cons m received =>
    obtain ⟨seq, body⟩ := m
    have hbody := h _ List.mem_cons_self
    obtain ⟨serverMsg, hreceive, hreads⟩ :=
      (hfits _ List.mem_cons_self).received server client stack seq
    simp only [clientRun, clientMain, List.map_cons, hreceive]
    cases body with
    | packet event => simp [hreads.1]
    | mark mark => cases mark <;> simp_all [hreads.1, Mark.value]

theorem Session.served (x : Session) : x.Served := by
  intro server client stack limit received hsublist hfits hlength
  obtain ⟨first, inner, last, rfl, hfirst, hlast, hinner⟩ := sublist_bodies hsublist
  have hinner' : ∀ seq mark, mark = .sessionBegin ∨ mark = .sessionEnd →
      (seq, .mark mark) ∉ inner := by
    rintro seq _ (rfl | rfl) hmem <;> exact hinner _ hmem
  rcases hfirst with rfl | ⟨seq, rfl⟩
  · have hne : ∀ m ∈ [] ++ (inner ++ last), m.2 ≠ .mark .sessionBegin := by
      rintro ⟨seq, _⟩ hmem rfl
      rw [List.nil_append, List.mem_append] at hmem
      rcases hmem with hmem | hmem
      · exact hinner' seq _ (.inl rfl) hmem
      · rcases hlast with rfl | ⟨seq, rfl⟩ <;> simp at hmem
    have hfailed := @clientRun_of_not_begin server client stack limit _ hfits hne
    exact ⟨iff_of_false hfailed fun ⟨⟨seq, hmem⟩, _⟩ => hne _ hmem rfl, fun h => absurd h hfailed⟩
  · obtain ⟨outputs, n', ⟨hevents, hstops⟩, hloop⟩ :=
      @clientLoop_inner server client stack (eventsLimitOf limit) 0 inner
        (last.map fun m => m.2.bytes server stack m.1)
        (fun m hm => ⟨hfits m (by simp [hm]), hinner m hm⟩)
        (by simp only [List.length_append, List.length_singleton] at hlength; omega)
    rw [List.singleton_append, clientRun_begin, List.map_append, hloop]
    rcases hlast with rfl | ⟨seq', rfl⟩
    · simp [clientLoop, hinner']
    · obtain ⟨serverMsg', hreceive', hmark, hpacket⟩ :=
        (hfits (seq', .mark .sessionEnd) (by simp)).received server client stack seq'
      have hend : clientLoop client (eventsLimitOf limit) true
          [Body.bytes server stack seq' (.mark .sessionEnd)] n' = ([.sessionEnds], .exited 0) := by
        rw [clientLoop, hreceive']
        simp only [hpacket, hmark]
        rfl
      rw [List.map_singleton, hend]
      refine ⟨by simp, fun _ => ⟨?_, ?_⟩⟩
      · simp [ClientOutput.isEvent, Body.event?, hevents]
      · simp [Body.event?, hstops]

end Runs

/-- In every run of the server, the clients of the finished sessions are served. -/
theorem finished_served {s : Server} (h : Reachable (fun _ _ => True) s) :
    ∃ finished current, Grouped s.messages finished current ∧ ∀ x ∈ finished, x.Served := by
  obtain ⟨finished, current, _, hsessions⟩ := h.hasSessions
  exact ⟨finished, current, hsessions.grouped, fun x _ => x.served⟩

/-- The first client is served, while the second one is connected. -/
theorem finished_served_twoClients :
    ∃ s, eventsSenderInit.run twoClients = some s ∧
      ∃ finished current, Grouped s.messages finished current ∧ ∀ x ∈ finished, x.Served := by
  obtain ⟨s, hs⟩ : ∃ s, eventsSenderInit.run twoClients = some s :=
    Option.isSome_iff_exists.mp rfl
  exact ⟨s, hs, finished_served (Reachable.init.run (fun _ _ _ => trivial) hs)⟩

end TraceUdp
end KedrAux
