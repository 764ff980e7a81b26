import KedrAux.TraceBuffer.MessageOrder

/-!
# Runs of the trace buffer

The tasks that use one trace buffer exclude each other, in every run in which no reader is
killed while it waits for the mutex after `schedule()`.  So the invariant of the data holds
in all these runs.  A reader that is killed there releases the mutex of another task, and
then the messages of a CPU are taken by two tasks at the same time.
-/

namespace KedrAux
namespace Tracing

variable {cpus : PossibleCpus} {s : State}

/-- Places between the locking of the mutex and its release. -/
def Place.inside : Place → Bool
  | .returned _ | .locking _ | .sleeping => false
  | _ => true

/-- The CPUs whose queues were read in the current call of `trace_buffer_update_internal`, and
the one that is to be read in this round. -/
def Place.updated : Place → List Nat
  | .updating _ updated => updated
  | .stamped _ updated _ cpu _ => cpu :: updated
  | _ => []

/-- Places in the loop of `trace_buffer_clear_internal`. -/
def Place.isClearing : Place → Bool
  | .clearing _ => true
  | _ => false

/-- Each CPU is visited at most once. -/
def Rounds (cpus : PossibleCpus) (updated : List Nat) : Prop :=
  updated.Nodup ∧ ∀ cpu ∈ updated, cpu ∈ cpus.ids

theorem Rounds.length_le {updated : List Nat} (h : Rounds cpus updated) :
    updated.length ≤ cpus.ids.length :=
  (h.1.subperm h.2).length_le

@[simp] theorem rounds_nil : Rounds cpus [] :=
  ⟨List.nodup_nil, fun _ h => (by cases h)⟩

/-- What the task that holds the mutex may rely on. -/
def Place.Local (cpus : PossibleCpus) (s : State) : Place → Prop
  | .updating _ updated => s.Consistent cpus ∧ Rounds cpus updated
  | .stamped _ updated oldest cpu ts => s.Consistent cpus ∧ Rounds cpus (cpu :: updated) ∧
      cpu = oldest ∧ (s.buffer.lastMessages oldest).isExist = false ∧ ts ≤ s.ring.clock oldest
  | .clearing rest => s.Clearing cpus rest
  | .crashed _ => False
  | _ => s.Consistent cpus

variable {p : Place} {task : Nat} {c' : Config}

theorem local_iff_of_not_inside (h : p.inside = false) : p.Local cpus s ↔ s.Consistent cpus := by
  cases p <;> first | exact Iff.rfl | cases h

theorem Place.Local.consistent (h : p.Local cpus s) (hclearing : p.isClearing = false) :
    s.Consistent cpus := by
  cases p with
  | updating => exact h.1
  | stamped => exact h.1
  | clearing => cases hclearing
  | crashed => exact h.elim
  | _ => exact h

theorem Place.Local.rounds (h : p.Local cpus s) : Rounds cpus p.updated := by
  cases p with
  | updating => exact h.2
  | stamped => exact h.2.1
  | _ => exact rounds_nil

theorem Place.Local.ring (h : p.Local cpus s) {ring : RingBuffer} {written : Nat → List Message}
    (hclock : ∀ c, s.ring.clock c ≤ ring.clock c) (hconsistent : s.Consistent cpus →
      State.Consistent ⟨ring, s.buffer, { s.history with written := written }⟩ cpus) :
    p.Local cpus ⟨ring, s.buffer, { s.history with written := written }⟩ := by
  cases p with
  | updating => exact ⟨hconsistent h.1, h.2⟩
  | stamped =>
    obtain ⟨hs, hrounds, hcpu, hempty, hts⟩ := h
    exact ⟨hconsistent hs, hrounds, hcpu, hempty, hts.trans (hclock _)⟩
  | clearing => exact State.Clearing.ring h hclock written
  | crashed => exact h
  | _ => exact hconsistent h

theorem clock_le_write
    {ring : RingBuffer} {cpu : Nat} {event : RingBufferEvent} (h : ring.clock cpu ≤ event.ts)
    (c : Nat) :
    ring.clock c ≤ (ringBufferWrite ring cpu event).clock c := by
  by_cases hc : c = cpu
  · rw [hc, (write_same ring cpu event).2]
    exact h
  · rw [(write_other ring event hc).2]

theorem local_finishRead (h : s.Consistent cpus) (result : Int) :
    (finishRead result).Local cpus s := by
  rw [finishRead]
  split_ifs
  · exact h
  · exact h

theorem local_afterUpdate
    (h : s.Consistent cpus) (caller : Caller) (fatalSignalPending : Bool) (result : Int) :
    (caller.afterUpdate fatalSignalPending result).Local cpus s := by
  cases caller with
  | read shouldWait =>
    rw [Caller.afterUpdate]
    split_ifs
    · exact ⟨h, rounds_nil⟩
    · exact local_finishRead h result
  | wait =>
    rw [Caller.afterUpdate]
    split_ifs
    · exact local_finishRead h result
    · exact h
    · exact h
  | poll => exact h

theorem local_start (h : s.Consistent cpus) (request : Request) : request.start.Local cpus s := by
  cases request with
  | read => exact ⟨h, rounds_nil⟩
  | poll => exact ⟨h, rounds_nil⟩
  | reset => exact h

theorem State.Consistent.run_updating
    (h : s.Consistent cpus) (env : Environment) (caller : Caller) {updated : List Nat}
    (hrounds : Rounds cpus updated) :
    (s.run cpus env (.updating caller updated)).2.Local cpus
      (s.run cpus env (.updating caller updated)).1 := by
  obtain ⟨oldest, hhead, holdest⟩ := h.head
  have hcpu := h.cpu oldest holdest
  simp only [State.run, hhead]
  split_ifs with hexist hupdated
  · exact local_afterUpdate h ..
  · exact local_afterUpdate h ..
  · rw [hcpu] at hupdated ⊢
    refine ⟨h.timeStamp oldest env.ts, ⟨List.nodup_cons.mpr ⟨hupdated, hrounds.1⟩, ?_⟩, rfl,
      by simpa using hexist, le_clock_timeStamp ..⟩
    intro c hc
    rcases List.mem_cons.mp hc with rfl | hc
    · exact holdest
    · exact hrounds.2 c hc

theorem Place.Local.run (h : p.Local cpus s) (env : Environment) :
    (s.run cpus env p).2.Local cpus (s.run cpus env p).1 := by
  cases p with
  | updating caller updated => exact h.1.run_updating env caller h.2
  | stamped caller updated oldest cpu ts =>
    obtain ⟨hs, hrounds, rfl, hempty, hts⟩ := h
    have hmem := hrounds.2 cpu List.mem_cons_self
    obtain ⟨s', result, hupdate, hs'⟩ := hs.update hmem hempty hts env.allocated updated
    simp only [State.run, hupdate]
    cases result with
    | none => exact ⟨hs', hrounds⟩
    | some result => exact local_afterUpdate hs' ..
  | reading =>
    obtain ⟨s', result, hread, hs'⟩ := State.Consistent.read h env.consume env.result
    simp only [State.run, hread]
    exact hs'
  | clear => exact State.Consistent.clear h
  | clearing rest =>
    cases rest with
    | nil => exact State.Clearing.reset h
    | cons cpu rest => exact State.Clearing.step h env.ts
  | _ => exact h

/-- At most one task is between the locking of the mutex and its release. -/
def Config.Guarded (c : Config) (cpus : PossibleCpus) : Prop :=
  ∃ owner, (∀ task, task ≠ owner → (c.place task).inside = false) ∧
    (c.place owner).Local cpus c.state ∧ ((c.place owner).inside = true → c.locked = true)

variable {c : Config}

theorem goTo_same (c : Config) (task : Nat) (p : Place) : (c.goTo task p).place task = p :=
  Function.update_self ..

theorem goTo_other (c : Config) {task' : Nat} (p : Place) (h : task' ≠ task) :
    (c.goTo task p).place task' = c.place task' :=
  Function.update_of_ne h ..

section

variable (h : c.Guarded cpus)
include h

theorem Config.Guarded.unlocked (hlocked : c.locked = false) :
    (∀ task, (c.place task).inside = false) ∧ c.state.Consistent cpus := by
  obtain ⟨owner, hothers, hlocal, hinside⟩ := h
  have howner : (c.place owner).inside = false := by
    rw [Bool.eq_false_iff]
    intro htrue
    rw [hinside htrue] at hlocked
    cases hlocked
  refine ⟨fun task => ?_, (local_iff_of_not_inside howner).mp hlocal⟩
  by_cases htask : task = owner
  · exact htask ▸ howner
  · exact hothers task htask

theorem Config.Guarded.lock (hlocked : c.locked = false) (task : Nat)
    (hp : c.state.Consistent cpus → p.Local cpus c.state) :
    Config.Guarded ({ c with locked := true }.goTo task p) cpus := by
  obtain ⟨hfree, hconsistent⟩ := h.unlocked hlocked
  refine ⟨task, fun task' hne => ?_, ?_, fun _ => rfl⟩
  · rw [goTo_other _ p hne]
    exact hfree task'
  · rw [goTo_same]
    exact hp hconsistent

theorem Config.Guarded.outside (htask : (c.place task).inside = false)
    (hp : p.inside = false) :
    (c.goTo task p).Guarded cpus := by
  obtain ⟨owner, hothers, hlocal, hinside⟩ := h
  refine ⟨owner, fun task' hne => ?_, ?_, fun howner => ?_⟩
  · by_cases heq : task' = task
    · rw [heq, goTo_same]
      exact hp
    · rw [goTo_other _ p heq]
      exact hothers task' hne
  · by_cases heq : owner = task
    · subst heq
      rw [goTo_same]
      exact (local_iff_of_not_inside hp).mpr ((local_iff_of_not_inside htask).mp hlocal)
    · rw [goTo_other _ p heq]
      exact hlocal
  · by_cases heq : owner = task
    · rw [heq, goTo_same, hp] at howner
      cases howner
    · rw [goTo_other _ p heq] at howner
      exact hinside howner

theorem Config.Guarded.local_of_inside (htask : (c.place task).inside = true) :
    (∀ task', task' ≠ task → (c.place task').inside = false) ∧
      (c.place task).Local cpus c.state ∧ c.locked = true := by
  obtain ⟨owner, hothers, hlocal, hinside⟩ := h
  have heq : task = owner := by
    by_contra hne
    rw [hothers task hne] at htask
    cases htask
  subst heq
  exact ⟨hothers, hlocal, hinside htask⟩

theorem Config.Guarded.inside (htask : (c.place task).inside = true)
    {s' : State} (hp : p.Local cpus s') :
    Config.Guarded ({ c with state := s' }.goTo task p) cpus := by
  obtain ⟨hothers, -, hlocked⟩ := h.local_of_inside htask
  refine ⟨task, fun task' hne => ?_, ?_, fun _ => hlocked⟩
  · rw [goTo_other _ p hne]
    exact hothers task' hne
  · rw [goTo_same]
    exact hp

theorem Config.Guarded.unlock (htask : (c.place task).inside = true)
    (hconsistent : c.state.Consistent cpus) (hp : p.inside = false) :
    Config.Guarded ({ c with locked := false }.goTo task p) cpus := by
  obtain ⟨hothers, -, -⟩ := h.local_of_inside htask
  refine ⟨task, fun task' hne => ?_, ?_, ?_⟩
  · rw [goTo_other _ p hne]
    exact hothers task' hne
  · rw [goTo_same]
    exact (local_iff_of_not_inside hp).mpr hconsistent
  · rw [goTo_same, hp]
    exact fun hfalse => (by cases hfalse)

theorem Config.Guarded.run {env : Environment}
    (hrun : c.run cpus task env = some c')
    (hkilled : c.place task = .sleeping → env.interrupted = false) :
    c'.Guarded cpus := by
  have hlocal : (c.place task).inside = true → (c.place task).Local cpus c.state := fun htask =>
    (h.local_of_inside htask).2.1
  cases hplace : c.place task with
  | returned result => simp [Config.run, hplace] at hrun
  | crashed crash => simp [Config.run, hplace] at hrun
  | locking request =>
    simp only [Config.run, hplace] at hrun
    split_ifs at hrun with hinterrupted hlocked
    · cases hrun
      exact h.outside (by rw [hplace]; rfl) rfl
    · cases hrun
      exact h.lock (by simpa using hlocked) task fun hs => local_start hs request
  | sleeping =>
    simp only [Config.run, hplace, hkilled hplace, Bool.false_eq_true, if_false] at hrun
    split_ifs at hrun with hlocked
    cases hrun
    exact h.lock (by simpa using hlocked) task fun hs => ⟨hs, rounds_nil⟩
  | unlocking result
  | suspending =>
    rw [hplace] at hlocal
    simp only [Config.run, hplace, Option.some.injEq] at hrun
    subst hrun
    exact h.unlock (by rw [hplace]; rfl) (hlocal rfl) rfl
  | _ =>
    rw [hplace] at hlocal
    simp only [Config.run, hplace, Option.some.injEq] at hrun
    subst hrun
    exact h.inside (by rw [hplace]; rfl) ((hlocal rfl).run env)

/-- A step leaves one task at most inside, unless it kills a sleeping one. -/
theorem Config.Guarded.step {a : Action} (hstep : c.step cpus a = some c')
    (hkilled : c.killed a = false) :
    c'.Guarded cpus := by
  cases a with
  | write cpu event =>
    obtain ⟨owner, hothers, hlocal, hinside⟩ := h
    simp only [Config.step] at hstep
    split_ifs at hstep with hclock
    cases hstep
    exact ⟨owner, hothers, hlocal.ring (clock_le_write hclock) fun hs => hs.write hclock, hinside⟩
  | overrun cpu =>
    obtain ⟨owner, hothers, hlocal, hinside⟩ := h
    cases hstep
    exact ⟨owner, hothers, hlocal.ring (fun _ => Nat.le_refl _) fun hs => hs.overrun cpu, hinside⟩
  | call task request =>
    simp only [Config.step] at hstep
    split at hstep
    · rename_i result hplace
      cases hstep
      exact h.outside (by rw [hplace]; rfl) rfl
    · cases hstep
  | run task env =>
    refine h.run hstep fun hplace => ?_
    simpa [Config.killed, hplace] using hkilled

end

theorem guarded_alloc (cpus : PossibleCpus) (stamps : Nat → Nat) :
    (Config.alloc cpus stamps).Guarded cpus :=
  ⟨0, fun _ _ => rfl, consistent_alloc cpus stamps, fun h => (by cases h)⟩

theorem Undisturbed.guarded (h : Undisturbed cpus c) : c.Guarded cpus := by
  induction h with
  | alloc stamps => exact guarded_alloc cpus stamps
  | step a _ hstep hkilled ih => exact ih.step hstep hkilled

/-- What holds outside of resets: messages are consumed in the order of their time stamps, those
of a CPU in the order in which they were written, and each message that was taken from the ring
buffer is consumed, or it is held for its CPU, or it is counted as lost. -/
structure State.MessagesInOrder (s : State) (cpus : PossibleCpus) : Prop where
  ordered : s.buffer.Ordered cpus.ids
  nonEmptyBuffers : s.buffer.nonEmptyBuffers =
    cpus.ids.countP fun cpu => (s.buffer.lastMessages cpu).isExist
  sorted : s.history.consumed.Pairwise fun message message' => message.ts ≤ message'.ts
  sublist : ∀ cpu ∈ cpus.ids,
    (ofCpu cpu s.history.consumed).Sublist (s.history.written cpu)
  taken : s.history.taken.Perm
    (s.history.consumed ++ (s.buffer.heldMessages cpus.ids ++ s.history.lost))
  lost : s.history.lost.length = s.buffer.messagesLostInternal

/-- No task has crashed, the loop of an update visits each CPU at most once, and the messages
are in order when there is no reset in progress. -/
structure Config.Correct (c : Config) (cpus : PossibleCpus) : Prop where
  crashed : ∀ task crash, c.place task ≠ .crashed crash
  rounds : ∀ task, (c.place task).updated.Nodup ∧
    (c.place task).updated.length ≤ cpus.ids.length
  inOrder : (∀ task, (c.place task).isClearing = false) → c.state.MessagesInOrder cpus

theorem State.Consistent.messagesInOrder (h : s.Consistent cpus) :
    s.MessagesInOrder cpus where
  ordered := h.ordered
  nonEmptyBuffers := by rw [h.nonEmpty, length_heldMessages]
  sorted := h.sorted
  sublist := by
    intro cpu hcpu
    obtain ⟨gone, hwritten, hsub⟩ := h.inOrder cpu hcpu
    rw [hwritten]
    exact ((List.sublist_append_left _ _).trans hsub).trans (List.sublist_append_left _ _)
  taken := h.taken
  lost := h.lost

theorem updated_of_not_inside (h : p.inside = false) : p.updated = [] := by
  cases p <;> first | rfl | cases h

/-- In every run in which no reader is killed while it waits for the mutex after `schedule()`,
the messages stay in order. -/
theorem Undisturbed.correct (h : Undisturbed cpus c) : c.Correct cpus := by
  obtain ⟨owner, hothers, hlocal, -⟩ := h.guarded
  constructor
  · intro task crash hplace
    by_cases htask : task = owner
    · rw [← htask, hplace] at hlocal
      exact hlocal
    · have hinside := hothers task htask
      rw [hplace] at hinside
      cases hinside
  · intro task
    by_cases htask : task = owner
    · rw [htask]
      exact ⟨hlocal.rounds.1, hlocal.rounds.length_le⟩
    · rw [updated_of_not_inside (hothers task htask)]
      exact ⟨List.nodup_nil, Nat.zero_le _⟩
  · exact fun hclearing => (hlocal.consistent (hclearing owner)).messagesInOrder

def Config.steps (cpus : PossibleCpus) : Config → List Action → Option Config
  | c, [] => some c
  | c, a :: actions => (c.step cpus a).bind fun c' => c'.steps cpus actions

theorem Reachable.steps (h : Reachable cpus c) {actions : List Action}
    (hsteps : c.steps cpus actions = some c') :
    Reachable cpus c' := by
  induction actions generalizing c with
  | nil =>
    cases hsteps
    exact h
  | cons a actions ih =>
    obtain ⟨c1, hstep, hsteps⟩ := Option.bind_eq_some_iff.mp hsteps
    exact ih (h.step a hstep) hsteps

def Action.interrupted : Action → Bool
  | .run _ env => env.interrupted
  | _ => false

theorem Undisturbed.steps (h : Undisturbed cpus c) (actions : List Action)
    (hsteps : c.steps cpus actions = some c')
    (hinterrupted : ∀ a ∈ actions, a.interrupted = false) :
    Undisturbed cpus c' := by
  induction actions generalizing c with
  | nil =>
    cases hsteps
    exact h
  | cons a actions ih =>
    obtain ⟨c1, hstep, hsteps⟩ := Option.bind_eq_some_iff.mp hsteps
    have ha := hinterrupted a List.mem_cons_self
    have hkilled : c.killed a = false := by
      cases a with
      | run task env => rw [Config.killed, show env.interrupted = false from ha, Bool.and_false]
      | _ => rfl
    exact ih (h.step a hstep hkilled) hsteps fun a' ha' =>
      hinterrupted a' (List.mem_cons_of_mem _ ha')

def oneCpu : PossibleCpus := ⟨[0], List.nodup_singleton 0, List.cons_ne_nil _ _⟩

/-- A step that is not interrupted; messages are consumed. -/
def plainRun (task : Nat) : Action := .run task ⟨0, true, true, 0, false, false⟩

/-- A message is written, and then it is consumed by a task. -/
def consumingRun : List Action :=
  [.write 0 ⟨3, [7]⟩, .call 1 (.read false), plainRun 1, plainRun 1, plainRun 1, plainRun 1,
    plainRun 1, plainRun 1]

/-- One message is written and consumed. -/
theorem correct_consumingRun :
    ∃ c, (Config.alloc oneCpu fun _ => 0).steps oneCpu consumingRun = some c ∧
      c.state.history.consumed = [⟨some [7], 1, 0, 3⟩] ∧ c.Correct oneCpu :=
  ⟨_, rfl, rfl, ((Undisturbed.alloc fun _ => 0).steps consumingRun rfl (by decide)).correct⟩

/-- A reader waits for messages.  While another reader holds the mutex, the first one is killed
at the mutex, and it releases the mutex.  So a third reader gets the mutex, and it takes a
message for the same CPU as the second reader. -/
def killedRun : List Action :=
  [.call 1 (.read true), plainRun 1, plainRun 1, plainRun 1, plainRun 1, plainRun 1, plainRun 1,
    plainRun 1, plainRun 1, .write 0 ⟨0, [1]⟩, .write 0 ⟨0, [2]⟩, .call 2 (.read false),
    plainRun 2, plainRun 2, .run 1 ⟨0, true, true, 0, true, true⟩, plainRun 1,
    .call 3 (.read false), plainRun 3, plainRun 3, plainRun 2, plainRun 3]

/-- Then BUG_ON in `last_message_set` fires. -/
theorem bugOn_killedRun :
    ¬ ∀ (cpus : PossibleCpus) (c : Config), Reachable cpus c → c.Correct cpus := by
  intro hall
  have hcrashed : ((Config.alloc oneCpu fun _ => 0).steps oneCpu killedRun).map
      (fun c => c.place 3) = some (.crashed .bugOn) := rfl
  obtain ⟨c, hsteps, hplace⟩ := Option.map_eq_some_iff.mp hcrashed
  exact (hall oneCpu c ((Reachable.alloc fun _ => 0).steps hsteps)).crashed 3 .bugOn hplace

end Tracing
end KedrAux
