import KedrAux.TraceBuffer.ReadMessage

/-!
# The order of messages

Between two resets the messages are consumed in the order of their time stamps, and no
message is lost without being counted, in every run in which no reader is killed while it
waits for the mutex after `schedule()`.

The time stamp of a last message is a lower bound for the events of its CPU, also for those
that will be written.  So the first message of the ordered list is the oldest one.
-/

namespace KedrAux
namespace Tracing

open ErrorCodes

/-- The events of a CPU, also those that will be written, are not older than `ts`. -/
structure RingBuffer.NotOlder (ring : RingBuffer) (cpu ts : Nat) : Prop where
  events : ∀ event ∈ ring.events cpu, ts ≤ event.ts
  clock : ts ≤ ring.clock cpu

/-- The events of a CPU are in the order of their time stamps. -/
structure RingBuffer.Sorted (ring : RingBuffer) (cpu : Nat) : Prop where
  events : (ring.events cpu).Pairwise fun event event' => event.ts ≤ event'.ts
  clock : ∀ event ∈ ring.events cpu, event.ts ≤ ring.clock cpu

/-- The order and the bounds are kept. -/
structure RingBuffer.Follows (ring ring' : RingBuffer) : Prop where
  notOlder : ∀ cpu ts, ring.NotOlder cpu ts → ring'.NotOlder cpu ts
  sorted : ∀ cpu, ring.Sorted cpu → ring'.Sorted cpu

variable {cpu c ts : Nat} {rest : List Nat}
variable {event : RingBufferEvent}

theorem follows_write {ring : RingBuffer}
    (h : ring.clock cpu ≤ event.ts) :
    ring.Follows (ringBufferWrite ring cpu event) := by
  obtain ⟨hsameEvents, hsameClock⟩ := write_same ring cpu event
  constructor
  · rintro c ts ⟨hevents, hclock⟩
    by_cases hc : c = cpu
    · subst hc
      refine ⟨fun e he => ?_, hsameClock ▸ hclock.trans h⟩
      rw [hsameEvents, List.mem_append, List.mem_singleton] at he
      rcases he with he | rfl
      · exact hevents e he
      · exact hclock.trans h
    · obtain ⟨hotherEvents, hotherClock⟩ := write_other ring event hc
      exact ⟨hotherEvents ▸ hevents, hotherClock ▸ hclock⟩
  · rintro c ⟨hevents, hclock⟩
    by_cases hc : c = cpu
    · subst hc
      refine ⟨?_, fun e he => ?_⟩
      · rw [hsameEvents, List.pairwise_append]
        refine ⟨hevents, List.pairwise_singleton _ _, fun e he e' he' => ?_⟩
        rw [List.eq_of_mem_singleton he']
        exact (hclock e he).trans h
      · rw [hsameEvents, List.mem_append, List.mem_singleton] at he
        rw [hsameClock]
        rcases he with he | rfl
        · exact (hclock e he).trans h
        · exact Nat.le_refl _
    · obtain ⟨hotherEvents, hotherClock⟩ := write_other ring event hc
      exact ⟨hotherEvents ▸ hevents, hotherEvents ▸ hotherClock ▸ hclock⟩

theorem follows_overrun (ring : RingBuffer) (cpu : Nat) :
    ring.Follows (ringBufferOverrun ring cpu) := by
  have hsub : ∀ c, ((ringBufferOverrun ring cpu).events c).Sublist (ring.events c) := by
    intro c
    by_cases hc : c = cpu
    · rw [hc, overrun_same]
      exact List.tail_sublist _
    · rw [overrun_other ring hc]
  constructor
  · rintro c ts ⟨hevents, hclock⟩
    exact ⟨fun e he => hevents e ((hsub c).subset he), hclock⟩
  · rintro c ⟨hevents, hclock⟩
    exact ⟨hevents.sublist (hsub c), fun e he => hclock e ((hsub c).subset he)⟩

theorem clock_le_timeStamp (ring : RingBuffer) (cpu ts c : Nat) :
    ring.clock c ≤ (ringBufferTimeStamp ring cpu ts).clock c := by
  by_cases hc : c = cpu
  · rw [hc, timeStamp_same]
    exact Nat.le_max_left _ _
  · rw [timeStamp_other ring ts hc]

theorem le_clock_timeStamp (ring : RingBuffer) (cpu ts : Nat) :
    ts ≤ (ringBufferTimeStamp ring cpu ts).clock cpu := by
  rw [timeStamp_same]
  exact Nat.le_max_right _ _

theorem follows_timeStamp (ring : RingBuffer) (cpu ts : Nat) :
    ring.Follows (ringBufferTimeStamp ring cpu ts) := by
  constructor
  · rintro c ts' ⟨hevents, hclock⟩
    exact ⟨hevents, hclock.trans (clock_le_timeStamp ring cpu ts c)⟩
  · rintro c ⟨hevents, hclock⟩
    exact ⟨hevents, fun e he => (hclock e he).trans (clock_le_timeStamp ring cpu ts c)⟩

def ofCpu (cpu : Nat) (messages : List Message) : List Message :=
  messages.filter fun message => message.cpu = cpu

/-- The written messages of a CPU are those that have left the ring buffer, and those that are
still there.  The consumed messages and the held one have left it in this order. -/
def State.InOrder (s : State) (cpu : Nat) : Prop :=
  ∃ gone, s.history.written cpu = gone ++ (s.ring.events cpu).map (RingBufferEvent.message cpu) ∧
    (ofCpu cpu s.history.consumed ++ held (s.buffer.lastMessages cpu)).Sublist gone

/-- What holds outside of `trace_buffer_clear_internal`. -/
structure State.Consistent (s : State) (cpus : PossibleCpus) : Prop where
  ordered : s.buffer.Ordered cpus.ids
  cpu : ∀ c ∈ cpus.ids, (s.buffer.lastMessages c).cpu = c
  nonEmpty : s.buffer.nonEmptyBuffers = (s.buffer.heldMessages cpus.ids).length
  queue : ∀ c ∈ cpus.ids, s.ring.Sorted c
  last : ∀ c ∈ cpus.ids, s.ring.NotOlder c (s.buffer.ts c)
  sorted : s.history.consumed.Pairwise fun m m' => m.ts ≤ m'.ts
  consumed : ∀ m ∈ s.history.consumed, ∀ c ∈ cpus.ids, s.ring.NotOlder c m.ts
  heldLater : ∀ m ∈ s.history.consumed, ∀ c ∈ cpus.ids,
    (s.buffer.lastMessages c).isExist = true → m.ts ≤ s.buffer.ts c
  taken : s.history.taken.Perm
    (s.history.consumed ++ (s.buffer.heldMessages cpus.ids ++ s.history.lost))
  lost : s.history.lost.length = s.buffer.messagesLostInternal
  inOrder : ∀ c ∈ cpus.ids, s.InOrder c

variable {cpus : PossibleCpus} {s : State}

theorem State.Consistent.ring
    (h : s.Consistent cpus) {ring : RingBuffer} (hfollows : s.ring.Follows ring)
    {written : Nat → List Message}
    (hinOrder : ∀ c ∈ cpus.ids,
      State.InOrder ⟨ring, s.buffer, { s.history with written := written }⟩ c) :
    State.Consistent ⟨ring, s.buffer, { s.history with written := written }⟩ cpus where
  ordered := h.ordered
  cpu := h.cpu
  nonEmpty := h.nonEmpty
  queue := fun c hc => hfollows.sorted c (h.queue c hc)
  last := fun c hc => hfollows.notOlder c _ (h.last c hc)
  sorted := h.sorted
  consumed := fun m hm c hc => hfollows.notOlder c _ (h.consumed m hm c hc)
  heldLater := h.heldLater
  taken := h.taken
  lost := h.lost
  inOrder := hinOrder

theorem State.InOrder.overrun (h : s.InOrder c) (cpu : Nat) :
    State.InOrder { s with ring := ringBufferOverrun s.ring cpu } c := by
  obtain ⟨gone, hwritten, hsub⟩ := h
  by_cases hc : c = cpu
  · subst hc
    have hevents := overrun_same s.ring c
    cases hqueue : s.ring.events c with
    | nil =>
      refine ⟨gone, ?_, hsub⟩
      rw [hevents, hwritten, hqueue]
      rfl
    | cons e es =>
      refine ⟨gone ++ [e.message c], ?_, hsub.trans (List.sublist_append_left _ _)⟩
      rw [hevents, hwritten, hqueue, List.append_assoc]
      rfl
  · refine ⟨gone, ?_, hsub⟩
    rw [overrun_other s.ring hc, hwritten]

theorem State.Consistent.overrun (h : s.Consistent cpus) (cpu : Nat) :
    State.Consistent { s with ring := ringBufferOverrun s.ring cpu } cpus :=
  h.ring (follows_overrun s.ring cpu) fun c hc => (h.inOrder c hc).overrun cpu

theorem State.Consistent.timeStamp (h : s.Consistent cpus) (cpu ts : Nat) :
    State.Consistent { s with ring := ringBufferTimeStamp s.ring cpu ts } cpus :=
  h.ring (follows_timeStamp s.ring cpu ts) h.inOrder

theorem State.Consistent.write (h : s.Consistent cpus) {cpu : Nat}
    (hclock : s.ring.clock cpu ≤ event.ts) :
    (s.write cpu event).Consistent cpus := by
  refine h.ring (follows_write hclock) fun c hc => ?_
  obtain ⟨gone, hwritten, hsub⟩ := h.inOrder c hc
  refine ⟨gone, ?_, hsub⟩
  by_cases hcpu : c = cpu
  · subst hcpu
    simp [ringBufferWrite, hwritten]
  · simp [ringBufferWrite, Function.update_of_ne hcpu, hwritten]

theorem perm_balance {taken consumed helds lost new m dropped : List Message}
    (htaken : taken.Perm (consumed ++ (helds ++ lost))) (hnew : new.Perm (m ++ dropped)) :
    (taken ++ new).Perm (consumed ++ ((m ++ helds) ++ (lost ++ dropped))) := by
  refine (htaken.append hnew).trans (List.perm_iff_count.mpr fun message => ?_)
  simp only [List.count_append]
  omega

/-- The queue of a CPU is read, and its last message is replaced.  Of the new messages some are
held, and the others are dropped. -/
theorem State.Consistent.replace (h : s.Consistent cpus) {c : Nat} (hc : c ∈ cpus.ids)
    (hempty : (s.buffer.lastMessages c).isExist = false) {buffer : TraceBuffer}
    (message : LastMessage) (hcpu : message.cpu = c)
    (hmessages : buffer.lastMessages = Function.update s.buffer.lastMessages c message)
    (hordered : buffer.Ordered cpus.ids)
    (hlast : (ringBufferOverrun s.ring c).NotOlder c message.ts)
    (hlater : message.isExist = true → ∀ m ∈ s.history.consumed, m.ts ≤ message.ts)
    {new dropped : List Message} (hbalance : new.Perm (held message ++ dropped))
    (hnew : new = (s.ring.events c).head?.toList.map (RingBufferEvent.message c))
    (hsub : (held message).Sublist new)
    (hnonEmpty : buffer.nonEmptyBuffers = s.buffer.nonEmptyBuffers + (held message).length)
    (hlost : buffer.messagesLostInternal = s.buffer.messagesLostInternal + dropped.length) :
    State.Consistent ⟨ringBufferOverrun s.ring c, buffer,
      { s.history with
        taken := s.history.taken ++ new
        lost := s.history.lost ++ dropped }⟩ cpus := by
  have hfollows := follows_overrun s.ring c
  have hsame : buffer.lastMessages c = message := by rw [hmessages, Function.update_self]
  have hother : ∀ c', c' ≠ c → buffer.lastMessages c' = s.buffer.lastMessages c' := by
    intro c' hne
    rw [hmessages, Function.update_of_ne hne]
  have hheld : (buffer.heldMessages cpus.ids).Perm
      (held message ++ s.buffer.heldMessages cpus.ids) := by
    have hold := heldMessages_perm s.buffer cpus.nodup hc
    rw [held, hempty, if_neg Bool.false_ne_true, List.nil_append] at hold
    have hset := heldMessages_setMessage s.buffer cpus.nodup hc message
    rw [TraceBuffer.setMessage, TraceBuffer.heldMessages] at hset
    rw [TraceBuffer.heldMessages, hmessages]
    exact hset.trans (hold.symm.append_left _)
  constructor
  case ordered => exact hordered
  case cpu =>
    intro c' hc'
    by_cases hne : c' = c
    · rw [hne, hsame, hcpu]
    · rw [hother c' hne, h.cpu c' hc']
  case nonEmpty =>
    rw [hnonEmpty, h.nonEmpty, hheld.length_eq, List.length_append, Nat.cast_add, Int.add_comm]
  case queue => exact fun c' hc' => hfollows.sorted c' (h.queue c' hc')
  case last =>
    intro c' hc'
    by_cases hne : c' = c
    · rw [hne, TraceBuffer.ts, hsame]
      exact hlast
    · rw [TraceBuffer.ts, hother c' hne]
      exact hfollows.notOlder c' _ (h.last c' hc')
  case sorted => exact h.sorted
  case consumed => exact fun m hm c' hc' => hfollows.notOlder c' _ (h.consumed m hm c' hc')
  case heldLater =>
    intro m hm c' hc' hexist
    by_cases hne : c' = c
    · rw [hne, hsame] at hexist
      rw [hne, TraceBuffer.ts, hsame]
      exact hlater hexist m hm
    · rw [hother c' hne] at hexist
      rw [TraceBuffer.ts, hother c' hne]
      exact h.heldLater m hm c' hc' hexist
  case taken =>
    exact (perm_balance h.taken hbalance).trans ((hheld.symm.append_right _).append_left _)
  case lost => rw [List.length_append, h.lost, hlost]
  case inOrder =>
    intro c' hc'
    by_cases hne : c' = c
    · subst hne
      obtain ⟨gone, hwritten, hgone⟩ := h.inOrder c' hc'
      rw [held, hempty, if_neg Bool.false_ne_true, List.append_nil] at hgone
      refine ⟨gone ++ new, ?_, ?_⟩
      · rw [hwritten, overrun_same, hnew, List.append_assoc, ← List.map_append]
        cases s.ring.events c' <;> rfl
      · rw [hsame]
        exact hgone.append hsub
    · obtain ⟨gone, hwritten, hgone⟩ := h.inOrder c' hc'
      refine ⟨gone, ?_, ?_⟩
      · rw [overrun_other s.ring hne, hwritten]
      · rw [hother c' hne]
        exact hgone

@[simp] theorem lastMessages_rearrange (buffer : TraceBuffer) (cpu ts : Nat) :
    (buffer.rearrange cpu ts).lastMessages =
      Function.update buffer.lastMessages cpu
        (lastMessageSetTimestamp (buffer.lastMessages cpu) ts) :=
  rfl

/-- There is no event, and only the time stamp of the last message is changed. -/
theorem State.Consistent.update_nil (h : s.Consistent cpus) (hc : c ∈ cpus.ids)
    (hempty : (s.buffer.lastMessages c).isExist = false) (hqueue : s.ring.events c = [])
    (hts : ts ≤ s.ring.clock c) :
    State.Consistent { s with
      ring := ringBufferOverrun s.ring c
      buffer := s.buffer.rearrange c ts } cpus := by
  have hevents : (ringBufferOverrun s.ring c).events c = [] := by
    rw [overrun_same, hqueue, List.tail_nil]
  have hexist : ¬ (s.buffer.lastMessages c).isExist = true := Bool.eq_false_iff.mp hempty
  have hheld : held (lastMessageSetTimestamp (s.buffer.lastMessages c) ts) = [] := if_neg hexist
  have hconsistent := h.replace hc hempty
    (lastMessageSetTimestamp (s.buffer.lastMessages c) ts) (h.cpu c hc) (lastMessages_rearrange ..)
    (h.ordered.rearrange cpus.nodup hc ts)
    ⟨fun e he => (by rw [hevents] at he; cases he), hts⟩ (fun hnew => absurd hnew hexist)
    (List.Perm.of_eq (show [] = _ ++ [] by rw [hheld, List.nil_append])) (by rw [hqueue]; rfl)
    (hheld ▸ List.Sublist.refl _) (by rw [hheld]; exact (Int.add_zero _).symm) rfl
  simpa only [List.append_nil] using hconsistent

/-- The next message of a CPU is taken from the ring buffer. -/
theorem State.Consistent.update_cons (h : s.Consistent cpus) {c : Nat} (hc : c ∈ cpus.ids)
    (hempty : (s.buffer.lastMessages c).isExist = false)
    {events : List RingBufferEvent} (hqueue : s.ring.events c = event :: events)
    (message : LastMessage) (hcpu : message.cpu = c) (hts : message.ts = event.ts)
    (dropped : List Message) (hbalance : [event.message c] = held message ++ dropped)
    {nonEmptyBuffers : Int}
    (hnonEmpty : nonEmptyBuffers = s.buffer.nonEmptyBuffers + (held message).length)
    {messagesLostInternal : Nat}
    (hlost : messagesLostInternal = s.buffer.messagesLostInternal + dropped.length) :
    State.Consistent ⟨ringBufferOverrun s.ring c,
      { (s.buffer.rearrange c event.ts).setMessage c message with
        nonEmptyBuffers := nonEmptyBuffers
        messagesLostInternal := messagesLostInternal },
      { s.history with
        taken := s.history.taken ++ [event.message c]
        lost := s.history.lost ++ dropped }⟩ cpus := by
  have hsorted := (h.queue c hc).events
  rw [hqueue] at hsorted
  have hmem : event ∈ s.ring.events c := hqueue ▸ List.mem_cons_self
  have hlast : (ringBufferOverrun s.ring c).NotOlder c message.ts := by
    rw [hts]
    refine ⟨fun e he => ?_, (h.queue c hc).clock event hmem⟩
    rw [overrun_same, hqueue, List.tail_cons] at he
    exact List.rel_of_pairwise_cons hsorted he
  have hmoved : (s.buffer.rearrange c event.ts).ts c = event.ts := by
    rw [TraceBuffer.ts, lastMessages_rearrange, Function.update_self]
    rfl
  have hordered := (h.ordered.rearrange cpus.nodup hc event.ts).setMessage (hts.trans hmoved.symm)
  refine @State.Consistent.replace cpus s h c hc hempty
    ⟨_, _, nonEmptyBuffers, messagesLostInternal⟩ message hcpu ?_
    ⟨hordered.perm, hordered.sorted⟩ hlast ?_ _ _ (List.Perm.of_eq hbalance) (by rw [hqueue]; rfl)
    (hbalance ▸ List.sublist_append_left _ _)
    hnonEmpty hlost
  · rw [TraceBuffer.setMessage, lastMessages_rearrange, Function.update_idem]
  · intro _ m hm
    rw [hts]
    exact (h.consumed m hm c hc).events event hmem

/-- A round of the loop, when the last message of the CPU does not exist: BUG_ON does not fire. -/
theorem State.Consistent.update (h : s.Consistent cpus) (hc : c ∈ cpus.ids)
    (hempty : (s.buffer.lastMessages c).isExist = false) (hts : ts ≤ s.ring.clock c)
    (allocated : Bool) (updated : List Nat) :
    ∃ s' result, s.update allocated updated c c ts = .ok (s', result, c :: updated) ∧
      s'.Consistent cpus := by
  have hconsume : ringBufferConsume s.ring c =
      ((s.ring.events c).head?, ringBufferOverrun s.ring c) := rfl
  cases hqueue : s.ring.events c with
  | nil =>
    rw [hqueue, List.head?_nil] at hconsume
    refine ⟨_, none, ?_, h.update_nil hc hempty hqueue hts⟩
    simp only [State.update, hconsume]
  | cons event events =>
    rw [hqueue, List.head?_cons] at hconsume
    have hmoved : (s.buffer.rearrange c event.ts).lastMessages c =
        { s.buffer.lastMessages c with ts := event.ts } := by
      rw [lastMessages_rearrange, Function.update_self]
      rfl
    cases allocated with
    | true =>
      have hconsistent := h.update_cons hc hempty hqueue
        ⟨⟨some event.data, event.data.length, c, event.ts⟩, true⟩ rfl rfl [] rfl rfl rfl
      rw [List.append_nil] at hconsistent
      refine ⟨_, none, ?_, hconsistent⟩
      simp only [State.update, hconsume, lastMessageSet, hmoved, hempty, Bool.false_eq_true,
        if_false, if_true, h.cpu c hc, ne_eq, not_true_eq_false]
      rfl
    | false =>
      have hconsistent := h.update_cons hc hempty hqueue
        ⟨⟨none, 0, c, event.ts⟩, false⟩ rfl rfl [event.message c] rfl (Int.add_zero _).symm rfl
      refine ⟨_, some (-ENOMEM), ?_, hconsistent⟩
      simp only [State.update, hconsume, lastMessageSet, hmoved, hempty, Bool.false_eq_true,
        if_false, h.cpu c hc]
      rw [if_pos (by decide)]
      rfl

theorem RingBuffer.NotOlder.mono {ring : RingBuffer} {ts' : Nat} (h : ring.NotOlder cpu ts)
    (hle : ts' ≤ ts) :
    ring.NotOlder cpu ts' :=
  ⟨fun e he => hle.trans (h.events e he), hle.trans h.clock⟩

theorem State.Consistent.head (h : s.Consistent cpus) :
    ∃ oldest, s.buffer.lastMessagesOrdered.head? = some oldest ∧ oldest ∈ cpus.ids := by
  cases hordered : s.buffer.lastMessagesOrdered with
  | nil =>
    have hnil := h.ordered.perm.length_eq
    rw [hordered] at hnil
    exact absurd (List.length_eq_zero_iff.mp hnil.symm) cpus.ne_nil
  | cons oldest rest =>
    refine ⟨oldest, rfl, h.ordered.perm.mem_iff.mp ?_⟩
    rw [hordered]
    exact List.mem_cons_self

/-- The oldest of the held messages is consumed. -/
theorem State.Consistent.consume (h : s.Consistent cpus) {oldest : Nat}
    (hhead : s.buffer.lastMessagesOrdered.head? = some oldest) (holdest : oldest ∈ cpus.ids)
    (hexist : (s.buffer.lastMessages oldest).isExist = true) :
    State.Consistent { s with
      buffer :=
        { s.buffer.setMessage oldest (lastMessageClear (s.buffer.lastMessages oldest)) with
          nonEmptyBuffers := s.buffer.nonEmptyBuffers - 1 }
      history :=
        { s.history with
          consumed := s.history.consumed ++ [(s.buffer.lastMessages oldest).toMessage] } } cpus := by
  have hold : held (s.buffer.lastMessages oldest) = [(s.buffer.lastMessages oldest).toMessage] :=
    if_pos hexist
  have hclear : held (lastMessageClear (s.buffer.lastMessages oldest)) = [] := rfl
  have hheld := heldMessages_perm s.buffer cpus.nodup holdest
  have hheld' : (s.buffer.heldMessages cpus.ids).Perm
      ((s.buffer.lastMessages oldest).toMessage ::
        (s.buffer.setMessage oldest
          (lastMessageClear (s.buffer.lastMessages oldest))).heldMessages cpus.ids) := by
    rw [hold] at hheld
    have hset := heldMessages_setMessage s.buffer cpus.nodup holdest
      (lastMessageClear (s.buffer.lastMessages oldest))
    rw [hclear, List.nil_append] at hset
    exact hheld.trans (hset.symm.cons _)
  have hts : ∀ c, (s.buffer.setMessage oldest
      (lastMessageClear (s.buffer.lastMessages oldest))).ts c = s.buffer.ts c := by
    intro c
    by_cases hc : c = oldest
    · rw [hc, TraceBuffer.ts, setMessage_same]
      rfl
    · exact ts_setMessage_other _ _ hc
  have hle : ∀ c ∈ cpus.ids, (s.buffer.lastMessages oldest).ts ≤ s.buffer.ts c := fun c hc =>
    h.ordered.head_le hhead hc
  have hordered : (s.buffer.setMessage oldest
      (lastMessageClear (s.buffer.lastMessages oldest))).Ordered cpus.ids :=
    h.ordered.setMessage rfl
  constructor
  case ordered => exact ⟨hordered.perm, hordered.sorted⟩
  case cpu =>
    intro c hc
    change ((s.buffer.setMessage oldest
      (lastMessageClear (s.buffer.lastMessages oldest))).lastMessages c).cpu = c
    by_cases hne : c = oldest
    · rw [hne, setMessage_same]
      exact h.cpu oldest holdest
    · rw [setMessage_other _ _ hne]
      exact h.cpu c hc
  case nonEmpty =>
    have hlength := hheld'.length_eq
    rw [List.length_cons] at hlength
    have hnonEmpty := h.nonEmpty
    change s.buffer.nonEmptyBuffers - 1 = ((s.buffer.setMessage oldest
      (lastMessageClear (s.buffer.lastMessages oldest))).heldMessages cpus.ids).length
    omega
  case queue => exact h.queue
  case last =>
    intro c hc
    exact (hts c).symm ▸ h.last c hc
  case sorted =>
    refine List.pairwise_append.mpr ⟨h.sorted, List.pairwise_singleton _ _, fun m hm m' hm' => ?_⟩
    rw [List.eq_of_mem_singleton hm']
    exact h.heldLater m hm oldest holdest hexist
  case consumed =>
    intro m hm c hc
    rcases List.mem_append.mp hm with hm | hm
    · exact h.consumed m hm c hc
    · rw [List.eq_of_mem_singleton hm]
      exact (h.last c hc).mono (hle c hc)
  case heldLater =>
    intro m hm c hc hnew
    refine le_of_le_of_eq ?_ (hts c).symm
    rcases List.mem_append.mp hm with hm | hm
    · by_cases hne : c = oldest
      · rw [hne]
        exact h.heldLater m hm oldest holdest hexist
      · exact h.heldLater m hm c hc (by rwa [← setMessage_other s.buffer _ hne])
    · rw [List.eq_of_mem_singleton hm]
      exact hle c hc
  case taken =>
    refine h.taken.trans ?_
    rw [List.append_assoc]
    exact (hheld'.append_right _).append_left _
  case lost => exact h.lost
  case inOrder =>
    intro c hc
    obtain ⟨gone, hwritten, hgone⟩ := h.inOrder c hc
    refine ⟨gone, hwritten, ?_⟩
    have hcpu := h.cpu oldest holdest
    by_cases hne : c = oldest
    · subst hne
      rw [hold] at hgone
      simpa [ofCpu, hcpu, hclear] using hgone
    · simpa [ofCpu, hcpu, Ne.symm hne, hne] using hgone

theorem State.Consistent.read (h : s.Consistent cpus) (consume : Bool) (result : Int) :
    ∃ s' result', s.read consume result = .ok (s', result') ∧ s'.Consistent cpus := by
  obtain ⟨oldest, hhead, holdest⟩ := h.head
  cases hexist : (s.buffer.lastMessages oldest).isExist with
  | false =>
    refine ⟨s, -EAGAIN, ?_, h⟩
    simp only [State.read, hhead, hexist, Bool.false_eq_true, if_false]
  | true =>
    cases consume with
    | false =>
      refine ⟨s, result, ?_, h⟩
      simp only [State.read, hhead, hexist, Bool.false_eq_true, if_false, if_true]
    | true =>
      refine ⟨_, result, ?_, h.consume hhead holdest hexist⟩
      simp only [State.read, hhead, hexist, if_true]
      rfl

theorem consistent_of_empty
    (buffer : TraceBuffer) (clock : Nat → Nat) (hordered : buffer.Ordered cpus.ids)
    (hcpu : ∀ c ∈ cpus.ids, (buffer.lastMessages c).cpu = c)
    (hempty : ∀ c ∈ cpus.ids, (buffer.lastMessages c).isExist = false)
    (hclock : ∀ c ∈ cpus.ids, buffer.ts c ≤ clock c) (hnonEmpty : buffer.nonEmptyBuffers = 0)
    (hlost : buffer.messagesLostInternal = 0) :
    State.Consistent ⟨⟨fun _ => [], clock⟩, buffer, ⟨fun _ => [], [], [], []⟩⟩ cpus := by
  have hnone : ∀ c ∈ cpus.ids, held (buffer.lastMessages c) = [] := fun c hc =>
    if_neg (Bool.eq_false_iff.mp (hempty c hc))
  have hheld : buffer.heldMessages cpus.ids = [] := List.flatMap_eq_nil_iff.mpr hnone
  constructor
  case ordered => exact hordered
  case cpu => exact hcpu
  case nonEmpty => rw [hnonEmpty, hheld]; rfl
  case queue => exact fun c _ => ⟨List.Pairwise.nil, fun e he => (by cases he)⟩
  case last => exact fun c hc => ⟨fun e he => (by cases he), hclock c hc⟩
  case sorted => exact List.Pairwise.nil
  case consumed => exact fun m hm => (by cases hm)
  case heldLater => exact fun m hm => (by cases hm)
  case taken => rw [hheld]; exact List.Perm.nil
  case lost => exact hlost.symm
  case inOrder =>
    intro c hc
    refine ⟨[], rfl, ?_⟩
    rw [hnone c hc]
    exact List.Sublist.refl _

/-- Inside of `trace_buffer_clear_internal`, with the CPUs that are left. -/
structure State.Clearing (s : State) (cpus : PossibleCpus) (rest : List Nat) : Prop where
  done : ∃ done, done ++ rest = cpus.ids ∧ s.buffer.Ordered done ∧
    ∀ c ∈ done, (s.buffer.lastMessages c).isExist = false ∧ s.buffer.ts c ≤ s.ring.clock c
  cpu : ∀ c ∈ cpus.ids, (s.buffer.lastMessages c).cpu = c
  nonEmpty : s.buffer.nonEmptyBuffers = 0
  taken : s.history.taken = []
  consumed : s.history.consumed = []
  lost : s.history.lost = []

theorem State.Consistent.clear (h : s.Consistent cpus) :
    State.Clearing { s with
      buffer := { s.buffer with lastMessagesOrdered := [], nonEmptyBuffers := 0 }
      history := ⟨s.history.written, [], [], []⟩ } cpus cpus.ids where
  done := ⟨[], rfl, ⟨List.Perm.nil, List.Pairwise.nil⟩, fun c hc => (by cases hc)⟩
  cpu := h.cpu
  nonEmpty := rfl
  taken := rfl
  consumed := rfl
  lost := rfl

theorem State.Clearing.ring (h : s.Clearing cpus rest) {ring : RingBuffer}
    (hclock : ∀ c, s.ring.clock c ≤ ring.clock c) (written : Nat → List Message) :
    State.Clearing ⟨ring, s.buffer, { s.history with written := written }⟩ cpus rest := by
  obtain ⟨done, hdone, hordered, hmessages⟩ := h.done
  exact ⟨⟨done, hdone, hordered, fun c hc =>
    ⟨(hmessages c hc).1, (hmessages c hc).2.trans (hclock c)⟩⟩, h.cpu, h.nonEmpty, h.taken,
    h.consumed, h.lost⟩

/-- The next CPU is cleared. -/
theorem State.Clearing.step (h : s.Clearing cpus (cpu :: rest)) (ts : Nat) :
    State.Clearing { s with
      ring := ringBufferTimeStamp s.ring cpu ts
      buffer := s.buffer.clear cpu ts } cpus rest := by
  obtain ⟨done, hdone, hordered, hmessages⟩ := h.done
  have hnodup := cpus.nodup
  rw [← hdone, List.nodup_append] at hnodup
  have hcpu : cpu ∉ done := fun hmem => hnodup.2.2 cpu hmem cpu List.mem_cons_self rfl
  have hadd := hordered.listAdd hcpu
    (lastMessageSetTimestamp (lastMessageClear (s.buffer.lastMessages cpu)) ts)
  have hsame : (s.buffer.clear cpu ts).lastMessages cpu =
      lastMessageSetTimestamp (lastMessageClear (s.buffer.lastMessages cpu)) ts :=
    Function.update_self ..
  have hother : ∀ c, c ≠ cpu → (s.buffer.clear cpu ts).lastMessages c = s.buffer.lastMessages c :=
    fun c hc => Function.update_of_ne hc ..
  refine ⟨⟨done ++ [cpu], ?_, ⟨hadd.perm.trans (List.perm_append_singleton cpu done).symm,
    hadd.sorted⟩, ?_⟩, ?_, h.nonEmpty, h.taken, h.consumed, h.lost⟩
  · rw [List.append_assoc]
    exact hdone
  · intro c hc
    rw [TraceBuffer.ts]
    rcases List.mem_append.mp hc with hc | hc
    · rw [hother c fun heq => hcpu (heq ▸ hc)]
      exact ⟨(hmessages c hc).1, (hmessages c hc).2.trans (clock_le_timeStamp ..)⟩
    · rw [List.eq_of_mem_singleton hc, hsame]
      exact ⟨rfl, le_clock_timeStamp ..⟩
  · intro c hc
    by_cases hne : c = cpu
    · rw [hne, hsame]
      exact h.cpu cpu (hne ▸ hc)
    · rw [hother c hne]
      exact h.cpu c hc

theorem State.Clearing.reset (h : s.Clearing cpus []) :
    State.Consistent ⟨ringBufferReset s.ring, { s.buffer with messagesLostInternal := 0 },
      { s.history with written := fun _ => [] }⟩ cpus := by
  obtain ⟨done, hdone, hordered, hmessages⟩ := h.done
  rw [List.append_nil] at hdone
  subst hdone
  have hconsistent := consistent_of_empty { s.buffer with messagesLostInternal := 0 } s.ring.clock
    ⟨hordered.perm, hordered.sorted⟩ h.cpu (fun c hc => (hmessages c hc).1)
    (fun c hc => (hmessages c hc).2) h.nonEmpty rfl
  simp only [h.taken, h.consumed, h.lost]
  exact hconsistent

theorem foldl_init (stamps : Nat → Nat) (rest done : List Nat) (hnodup : (done ++ rest).Nodup)
    (buffer : TraceBuffer) (hordered : buffer.Ordered done)
    (hinit : ∀ c ∈ done, buffer.lastMessages c = lastMessageInit c (stamps c)) :
    let buffer' := rest.foldl (fun buffer cpu => buffer.init cpu (stamps cpu)) buffer
    buffer'.Ordered (done ++ rest) ∧
      (∀ c ∈ done ++ rest, buffer'.lastMessages c = lastMessageInit c (stamps c)) ∧
      buffer'.nonEmptyBuffers = buffer.nonEmptyBuffers ∧
      buffer'.messagesLostInternal = buffer.messagesLostInternal := by
  induction rest generalizing done buffer with
  | nil =>
    rw [List.append_nil]
    exact ⟨hordered, hinit, rfl, rfl⟩
  | cons cpu rest ih =>
    have hcpu : cpu ∉ done := fun hmem =>
      (List.nodup_append.mp hnodup).2.2 cpu hmem cpu List.mem_cons_self rfl
    have hadd := hordered.listAdd hcpu (lastMessageInit cpu (stamps cpu))
    have hassoc : done ++ cpu :: rest = (done ++ [cpu]) ++ rest := by
      rw [List.append_assoc, List.singleton_append]
    rw [hassoc] at hnodup ⊢
    refine ih (done ++ [cpu]) hnodup (buffer.init cpu (stamps cpu))
      ⟨hadd.perm.trans (List.perm_append_singleton cpu done).symm, hadd.sorted⟩ fun c hc => ?_
    rcases List.mem_append.mp hc with hc | hc
    · rw [← hinit c hc]
      have hne : c ≠ cpu := fun heq => hcpu (heq ▸ hc)
      exact Function.update_of_ne hne ..
    · rw [List.eq_of_mem_singleton hc]
      exact Function.update_self ..

theorem consistent_alloc (cpus : PossibleCpus) (stamps : Nat → Nat) :
    (Config.alloc cpus stamps).state.Consistent cpus := by
  obtain ⟨hordered, hinit, hnonEmpty, hlost⟩ := foldl_init stamps cpus.ids []
    cpus.nodup ⟨fun _ => lastMessageInit 0 0, [], 0, 0⟩
    ⟨List.Perm.nil, List.Pairwise.nil⟩ fun c hc => (by cases hc)
  refine consistent_of_empty _ _ hordered (fun c hc => ?_) (fun c hc => ?_) (fun c hc => ?_) hnonEmpty
    hlost
  · rw [traceBufferAlloc, hinit c hc]
    rfl
  · rw [traceBufferAlloc, hinit c hc]
    rfl
  · rw [TraceBuffer.ts, traceBufferAlloc, hinit c hc]
    exact Nat.le_refl _

end Tracing
end KedrAux
