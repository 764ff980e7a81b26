import KedrAux.Replacer.DataMapRuns

/-!
# The callback replacer

At most one payload replaces a callback (`callback_replacer.c`); the original callbacks are kept in
a data map.  Calls come one after another, in any order, and locks are left out.
-/

namespace KedrAux
namespace Replacer
namespace Callbacks

open ErrorCodes

/-- `struct callback_payload`.  Of the callbacks for the target it is kept whether they are there. -/
structure CallbackPayload where
  m : Option Nat
  callback : Pointer
  targetLoadCallback : Bool
  targetUnloadCallback : Bool

structure CallbackReplacer where
  callbackMap : DataMap Pointer
  payload : Option Pointer
  used : Int
  payloadUsed : Bool

/-- A call of a function outside of the replacer. -/
inductive Effect where
  | moduleGot (m : Nat)
  | modulePut (m : Nat)
  | targetLoad (payload : Pointer)
  | targetUnload (payload : Pointer)
  | undeletedKey (key : Pointer)
deriving DecidableEq

section Functions

variable (hashPtr : Pointer → Nat → Nat) (payloadAt : Pointer → CallbackPayload)
  (replacer : CallbackReplacer)

def callbackReplacerCreate (callbackMap : DataMap Pointer) : CallbackReplacer :=
  ⟨callbackMap, none, 0, false⟩

/-- `none` is a `BUG_ON` or a `NULL` that is read, here and below. -/
def callbackReplace (alloc : Bool) (callback key : Pointer) :
    Option (Except Int Pointer × CallbackReplacer) :=
  if replacer.used = 0 then none
  else
    let added := replacer.callbackMap.add hashPtr alloc key callback
    if added.1 ≠ 0 then some (.error added.1, { replacer with callbackMap := added.2 })
    else if replacer.payloadUsed then
      replacer.payload.map fun p =>
        (.ok (payloadAt p).callback, { replacer with callbackMap := added.2 })
    else some (.ok callback, { replacer with callbackMap := added.2 })

def callbackReplacementClean (key : Pointer) : Option (Int × CallbackReplacer) :=
  if replacer.used = 0 then none
  else
    let deleted := replacer.callbackMap.delete hashPtr key
    some (if deleted.1.isNone then -EINVAL else 0, { replacer with callbackMap := deleted.2 })

/-- `isGot` is what `try_module_get` returns. -/
def callbackTargetLoadCallback (isGot : Bool) : CallbackReplacer × List Effect :=
  let replacer := { replacer with used := replacer.used + 1 }
  if replacer.used ≠ 1 then (replacer, [])
  else
    match replacer.payload with
    | none => ({ replacer with payloadUsed := false }, [])
    | some p =>
      let calls := if (payloadAt p).targetLoadCallback then [.targetLoad p] else []
      match (payloadAt p).m with
      | none => ({ replacer with payloadUsed := true }, calls)
      | some m =>
        if isGot then ({ replacer with payloadUsed := true }, .moduleGot m :: calls)
        else ({ replacer with payloadUsed := false }, [])

/-- `undeletedKey` tells whether the callback for keys is not `NULL`. -/
def callbackTargetUnloadCallback (undeletedKey : Bool) :
    Option (CallbackReplacer × List Effect) :=
  let replacer := { replacer with used := replacer.used - 1 }
  if replacer.used ≠ 0 then some (replacer, [])
  else
    let deleted := replacer.callbackMap.deleteAllWith (some undeletedKey)
    let keys := ((deleted.2.filter DataMap.FreeCall.userData).map DataMap.FreeCall.key).map
      .undeletedKey
    let replacer := { replacer with callbackMap := deleted.1 }
    if replacer.payloadUsed then
      replacer.payload.map fun p =>
        ({ replacer with payloadUsed := false },
          keys ++ (if (payloadAt p).targetUnloadCallback then [.targetUnload p] else []) ++
            (payloadAt p).m.toList.map .modulePut)
    else some (replacer, keys)

def callbackPayloadRegister (payload : Pointer) : Int × CallbackReplacer :=
  if replacer.used ≠ 0 then (-EBUSY, replacer)
  else if replacer.payload.isSome then (-EBUSY, replacer)
  else (0, { replacer with payload := some payload })

def callbackPayloadUnregister (payload : Pointer) : Int × CallbackReplacer :=
  if replacer.payloadUsed then (-EBUSY, replacer)
  else if replacer.payload ≠ some payload then (-EINVAL, replacer)
  else (0, { replacer with payload := none })

def callbackGetOrig (key : Pointer) : Option Pointer :=
  if replacer.used = 0 then none
  else (replacer.callbackMap.get hashPtr key).filter (· ≠ 0)

end Functions

inductive Call where
  | replace (alloc : Bool) (callback key : Pointer)
  | clean (key : Pointer)
  | load (isGot : Bool)
  | unload (undeletedKey : Bool)
  | register (payload : Pointer)
  | unregister (payload : Pointer)
  | getOrig (key : Pointer)

/-- The replacer, and what the program does not keep: the modules with references that were not
given back, the payload that the target was loaded with, and the callbacks that are replaced. -/
structure System where
  replacer : CallbackReplacer
  held : List Nat
  session : Option Pointer
  originals : Pointer → Option Pointer

/-- The references after a call of another function. -/
def hold (held : List Nat) : Effect → List Nat
  | .moduleGot m => m :: held
  | .modulePut m => held.erase m
  | _ => held

variable (hashPtr : Pointer → Nat → Nat) (payloadAt : Pointer → CallbackPayload) (s : System)

/-- The payload that is fixed when the target is loaded. -/
def System.fixed (isGot : Bool) : Option Pointer :=
  s.replacer.payload.filter fun p => (payloadAt p).m.isNone || isGot

def System.step : Call → Option System
  | .replace alloc callback key =>
    (callbackReplace hashPtr payloadAt s.replacer alloc callback key).map fun result =>
      { s with
        replacer := result.2
        originals :=
          if result.1.toBool then Function.update s.originals key (some callback)
          else s.originals }
  | .clean key =>
    (callbackReplacementClean hashPtr s.replacer key).map fun result =>
      { s with replacer := result.2, originals := Function.update s.originals key none }
  | .load isGot =>
    let result := callbackTargetLoadCallback payloadAt s.replacer isGot
    some { s with
      replacer := result.1
      held := result.2.foldl hold s.held
      session := if s.replacer.used = 0 then s.fixed payloadAt isGot else s.session }
  | .unload undeletedKey =>
    (callbackTargetUnloadCallback payloadAt s.replacer undeletedKey).map fun result =>
      { replacer := result.1
        held := result.2.foldl hold s.held
        session := if s.replacer.used = 1 then none else s.session
        originals := if s.replacer.used = 1 then fun _ => none else s.originals }
  | .register payload => some { s with replacer := (callbackPayloadRegister s.replacer payload).2 }
  | .unregister payload =>
    some { s with replacer := (callbackPayloadUnregister s.replacer payload).2 }
  | .getOrig key => (callbackGetOrig hashPtr s.replacer key).map fun _ => s

/-- What the target promises: it uses the replacer while it is loaded, and it asks for callbacks
that were replaced and are not `NULL`. -/
def System.Allowed : Call → Prop
  | .replace _ _ _ | .clean _ | .unload _ => 0 < s.replacer.used
  | .getOrig key => 0 < s.replacer.used ∧ ∃ callback ≠ 0, s.originals key = some callback
  | .load _ | .register _ | .unregister _ => True

inductive Reachable : System → Prop
  | create (sizeBits : Nat) :
      Reachable ⟨callbackReplacerCreate ⟨sizeBits, fun _ => []⟩, [], none, fun _ => none⟩
  | step {s s' : System} {call : Call} :
      Reachable s →
      s.Allowed call →
      s.step hashPtr payloadAt call = some s' →
      Reachable s'

/-- The replacer has what the history tells. -/
structure System.Consistent : Prop where
  used : 0 ≤ s.replacer.used
  payloadUsed : s.replacer.payloadUsed = s.session.isSome
  payload : ∀ p ∈ s.session, s.replacer.payload = some p
  held : s.held = (s.session.bind fun p => (payloadAt p).m).toList
  idle : s.replacer.used = 0 → s.session = none ∧ s.originals = fun _ => none
  map : s.replacer.callbackMap.Represents hashPtr s.originals

/-- A callback is replaced by that of the payload of the session, in all calls. -/
def System.Replaces (alloc : Bool) (callback key : Pointer) (result : Except Int Pointer) : Prop :=
  (result.toBool = true ↔ alloc = true ∧ s.originals key = none) ∧
    ∀ v, result = .ok v → v = (s.session.map fun p => (payloadAt p).callback).getD callback

/-- All keys that are left are reported, each of them once. -/
def System.Reports (effects : List Effect) : Prop :=
  ∃ (keys : List Pointer) (rest : List Effect), effects = keys.map .undeletedKey ++ rest ∧
    keys.Nodup ∧ ∀ key, (key ∈ keys ↔ s.originals key ≠ none) ∧ .undeletedKey key ∉ rest

section Consistent

variable {hashPtr payloadAt s} {s' : System}

theorem System.Consistent.session_cases (h : s.Consistent hashPtr payloadAt) :
    (s.replacer.payloadUsed = false ∧ s.session = none) ∨
      ∃ p, s.replacer.payloadUsed = true ∧ s.session = some p ∧
        ∀ {α : Type} (f : Pointer → α), s.replacer.payload.map f = some (f p) := by
  have hused := h.payloadUsed
  cases hsession : s.session with
  | none => exact .inl ⟨by rw [hused, hsession]; rfl, rfl⟩
  | some p =>
    exact .inr ⟨p, by rw [hused, hsession]; rfl, rfl, fun f => by rw [h.payload p hsession]; rfl⟩

theorem System.Consistent.replace (h : s.Consistent hashPtr payloadAt)
    (hused : 0 < s.replacer.used) (alloc : Bool) (callback key : Pointer) :
    ∃ result r, callbackReplace hashPtr payloadAt s.replacer alloc callback key = some (result, r) ∧
      s.Replaces payloadAt alloc callback key result ∧
      System.Consistent hashPtr payloadAt { s with
        replacer := r
        originals :=
          if result.toBool then Function.update s.originals key (some callback)
          else s.originals } := by
  obtain ⟨m, hstep, hmap⟩ := h.map.add (U := Unit) alloc key callback
  have hne : s.replacer.used ≠ 0 := by omega
  have hkeep : ∀ (map : DataMap Pointer) (originals : Pointer → Option Pointer),
      map.Represents hashPtr originals → System.Consistent hashPtr payloadAt
        { s with replacer := { s.replacer with callbackMap := map }, originals } :=
    fun map originals hmap => { h with map := hmap, idle := fun hidle => absurd hidle hne }
  rw [callbackReplace, if_neg hne]
  generalize s.replacer.callbackMap.add hashPtr alloc key callback = added at hstep hmap
  obtain ⟨code, map⟩ := added
  cases hstep with
  | noMemory => exact ⟨_, _, rfl, ⟨by simp [Except.toBool], by simp⟩, hkeep _ _ hmap⟩
  | present _ hkey =>
    refine ⟨_, _, rfl, ⟨?_, by simp⟩, hkeep _ _ hmap⟩
    simp [Except.toBool, Option.isSome_iff_ne_none.mp hkey]
  | added _ hkey =>
    have hresult : ∀ v : Pointer, (Except.ok v : Except Int Pointer).toBool = true ↔
        true = true ∧ s.originals key = none := fun v => by simp [Except.toBool, hkey]
    rcases h.session_cases with ⟨hused, hsession⟩ | ⟨p, hused, hsession, hpayload⟩
    · rw [if_neg (by simp), if_neg (by simp [hused])]
      exact ⟨_, _, rfl, ⟨hresult _, by simp [hsession]⟩, hkeep _ _ hmap⟩
    · rw [if_neg (by simp), if_pos hused, hpayload]
      exact ⟨_, _, rfl, ⟨hresult _, by simp [hsession]⟩, hkeep _ _ hmap⟩

theorem System.Consistent.load (h : s.Consistent hashPtr payloadAt) (isGot : Bool) :
    System.Consistent hashPtr payloadAt { s with
      replacer := (callbackTargetLoadCallback payloadAt s.replacer isGot).1
      held := (callbackTargetLoadCallback payloadAt s.replacer isGot).2.foldl hold s.held
      session := if s.replacer.used = 0 then s.fixed payloadAt isGot else s.session } := by
  have hused := h.used
  by_cases hfirst : s.replacer.used = 0
  · obtain ⟨hsession, horiginals⟩ := h.idle hfirst
    have hheld : s.held = [] := by rw [h.held, hsession]; rfl
    simp only [callbackTargetLoadCallback, hfirst, System.fixed, zero_add, ne_eq,
      not_true_eq_false, if_false, if_true, hheld]
    cases hpayload : s.replacer.payload with
    | none => exact ⟨by simp, rfl, by simp, rfl, by simp, h.map⟩
    | some p =>
      cases hm : (payloadAt p).m with
      | none =>
        simp only [Option.filter_some, hm, Option.isNone_none, Bool.true_or, if_true]
        refine ⟨by simp, rfl, by simp, ?_, by simp, h.map⟩
        cases (payloadAt p).targetLoadCallback <;> simp [hm, hold]
      | some m =>
        cases isGot with
        | false =>
          simp only [Option.filter_some, hm]
          exact ⟨by simp, rfl, by simp, rfl, by simp, h.map⟩
        | true =>
          simp only [Option.filter_some, hm, Bool.or_true, if_true]
          refine ⟨by simp, rfl, by simp, ?_, by simp, h.map⟩
          cases (payloadAt p).targetLoadCallback <;> simp [hm, hold]
  · have hmore : s.replacer.used + 1 ≠ 1 := by omega
    simp only [callbackTargetLoadCallback, if_pos hmore, if_neg hfirst]
    exact { h with used := by simp; omega, idle := fun hidle => absurd hidle (by simp; omega) }

theorem foldl_hold_keys (keys : List Pointer) (held : List Nat) :
    (keys.map .undeletedKey).foldl hold held = held := by
  induction keys with
  | nil => rfl
  | cons key keys ih => exact ih

section

variable (h : s.Consistent hashPtr payloadAt)
include h

/-- The last unload gives the module back and reports the keys that are left. -/
theorem System.Consistent.unload
    (hrange : ∀ key bits, hashPtr key bits < 2 ^ bits) (hused : 0 < s.replacer.used)
    (undeletedKey : Bool) :
    ∃ r effects, callbackTargetUnloadCallback payloadAt s.replacer undeletedKey = some (r, effects) ∧
      (s.replacer.used = 1 → undeletedKey = true → s.Reports effects) ∧
      System.Consistent hashPtr payloadAt {
        replacer := r
        held := effects.foldl hold s.held
        session := if s.replacer.used = 1 then none else s.session
        originals := if s.replacer.used = 1 then fun _ => none else s.originals } := by
  by_cases hlast : s.replacer.used = 1
  · obtain ⟨hnodup, hcalls⟩ := h.map.freesAll (fun key => hrange key _) (some undeletedKey)
    have hmap := h.map.deleteAll fun key => hrange key _
    rw [← DataMap.deleteAllWith_fst _ (some undeletedKey)] at hmap
    simp only [callbackTargetUnloadCallback, hlast, sub_self, ne_eq, not_true_eq_false, if_false,
      if_true]
    generalize s.replacer.callbackMap.deleteAllWith (some undeletedKey) = deleted at *
    have hkeys : undeletedKey = true →
        ((deleted.2.filter DataMap.FreeCall.userData).map DataMap.FreeCall.key).Nodup ∧
          ∀ key, key ∈ (deleted.2.filter DataMap.FreeCall.userData).map DataMap.FreeCall.key ↔
            s.originals key ≠ none := by
      rintro rfl
      have hall : deleted.2.filter DataMap.FreeCall.userData = deleted.2 :=
        List.filter_eq_self.mpr fun call hcall => ((hcalls call).mp hcall).2
      rw [hall]
      refine ⟨hnodup.map_on ?_, fun key => ?_⟩
      · rintro ⟨data, key, user⟩ hcall ⟨data', key', user'⟩ hcall' rfl
        obtain ⟨hdata, huser⟩ := (hcalls _).mp hcall
        obtain ⟨hdata', huser'⟩ := (hcalls _).mp hcall'
        simp_all
      · rw [List.mem_map, Option.ne_none_iff_exists']
        constructor
        · rintro ⟨call, hcall, rfl⟩
          exact ⟨_, ((hcalls call).mp hcall).1⟩
        · rintro ⟨data, hdata⟩
          exact ⟨⟨data, key, true⟩, (hcalls _).mpr ⟨hdata, rfl⟩, rfl⟩
    generalize (deleted.2.filter DataMap.FreeCall.userData).map DataMap.FreeCall.key = keys at *
    rcases h.session_cases with ⟨hp, hsession⟩ | ⟨p, hp, hsession, hpayload⟩
    · rw [if_neg (by simp [hp])]
      refine ⟨_, _, rfl, fun _ hkey => ⟨keys, [], by simp, (hkeys hkey).1, by simp [hkeys hkey]⟩, ?_⟩
      have hheld : s.held = [] := by rw [h.held, hsession]; rfl
      exact ⟨by simp, by simp [hp], by simp, by simp [foldl_hold_keys, hheld], by simp, hmap⟩
    · rw [if_pos hp, hpayload]
      refine ⟨_, _, rfl, fun _ hkey => ⟨keys, _, List.append_assoc _ _ _, (hkeys hkey).1, fun key =>
        ⟨(hkeys hkey).2 key, ?_⟩⟩, ⟨by simp, by simp, by simp, ?_, by simp, hmap⟩⟩
      · cases (payloadAt p).targetUnloadCallback <;> simp
      · have hheld : s.held = (payloadAt p).m.toList := by rw [h.held, hsession]; rfl
        rw [List.foldl_append, List.foldl_append, foldl_hold_keys, hheld]
        cases (payloadAt p).targetUnloadCallback <;> cases (payloadAt p).m <;> simp [hold]
  · have hmore : s.replacer.used - 1 ≠ 0 := by omega
    simp only [callbackTargetUnloadCallback, if_pos hmore, if_neg hlast]
    exact ⟨_, _, rfl, fun h => absurd h hlast,
      { h with used := by simp; omega, idle := fun hidle => absurd hidle hmore }⟩

theorem System.Consistent.register (payload : Pointer) :
    System.Consistent hashPtr payloadAt
      { s with replacer := (callbackPayloadRegister s.replacer payload).2 } := by
  rw [callbackPayloadRegister]
  split_ifs with hused hpayload
  · exact h
  · exact h
  · have hidle := h.idle (by simpa using hused)
    exact { h with payload := by simp [hidle.1] }

theorem System.Consistent.unregister (payload : Pointer) :
    System.Consistent hashPtr payloadAt
      { s with replacer := (callbackPayloadUnregister s.replacer payload).2 } := by
  rw [callbackPayloadUnregister]
  split_ifs with hused hpayload
  · exact h
  · exact h
  · rcases h.session_cases with ⟨-, hsession⟩ | ⟨p, hp, -⟩
    · exact { h with payload := by simp [hsession] }
    · exact absurd hp hused

theorem System.Consistent.getOrig (key : Pointer)
    (hallowed : s.Allowed (.getOrig key)) :
    callbackGetOrig hashPtr s.replacer key = s.originals key := by
  obtain ⟨hused, callback, hne, hkey⟩ := hallowed
  rw [callbackGetOrig, if_neg (by omega), h.map.get, hkey]
  simp [hne]

/-- The step lemma: allowed calls come to an end, and keep what the history tells. -/
theorem System.Consistent.step
    (hrange : ∀ key bits, hashPtr key bits < 2 ^ bits) {call : Call} (hallowed : s.Allowed call) :
    ∃ s', s.step hashPtr payloadAt call = some s' ∧ s'.Consistent hashPtr payloadAt := by
  cases call with
  | replace alloc callback key =>
    obtain ⟨result, r, hreplace, -, hs⟩ := h.replace hallowed alloc callback key
    exact ⟨_, by rw [System.step, hreplace]; rfl, hs⟩
  | clean key =>
    have hne : s.replacer.used ≠ 0 := ne_of_gt hallowed
    rw [System.step, callbackReplacementClean, if_neg hne]
    exact ⟨_, rfl, { h with map := (h.map.delete key).2, idle := fun hidle => absurd hidle hne }⟩
  | load isGot => exact ⟨_, rfl, h.load isGot⟩
  | unload undeletedKey =>
    obtain ⟨r, effects, hunload, -, hs⟩ := h.unload hrange hallowed undeletedKey
    exact ⟨_, by rw [System.step, hunload]; rfl, hs⟩
  | register payload => exact ⟨_, rfl, h.register payload⟩
  | unregister payload => exact ⟨_, rfl, h.unregister payload⟩
  | getOrig key =>
    refine ⟨s, ?_, h⟩
    obtain ⟨-, callback, -, hkey⟩ := id hallowed
    rw [System.step, h.getOrig key hallowed, hkey]
    rfl

end

theorem Reachable.consistent (hrange : ∀ key bits, hashPtr key bits < 2 ^ bits)
    (h : Reachable hashPtr payloadAt s) : s.Consistent hashPtr payloadAt := by
  induction h with
  | create sizeBits =>
    exact ⟨le_refl _, rfl, by simp, rfl, fun _ => ⟨rfl, rfl⟩, DataMap.represents_empty sizeBits⟩
  | step _ hallowed hstep ih =>
    obtain ⟨s', hs', hconsistent⟩ := ih.step hrange hallowed
    exact Option.some.inj (hs'.symm.trans hstep) ▸ hconsistent

/--
In every run of calls by the target and by the payloads, no allowed call stops.  The module of the
payload is held exactly in its sessions, callbacks are replaced by those of the payload that the
target was loaded with, the original ones are found until they are cleaned, and at the last unload
the keys that are left are reported.
-/
theorem reachable_correct (hrange : ∀ key bits, hashPtr key bits < 2 ^ bits)
    (h : Reachable hashPtr payloadAt s) :
    s.Consistent hashPtr payloadAt ∧
      (∀ call, s.Allowed call → s.step hashPtr payloadAt call ≠ none) ∧
      (∀ alloc callback key result r,
        callbackReplace hashPtr payloadAt s.replacer alloc callback key = some (result, r) →
          s.Replaces payloadAt alloc callback key result) ∧
      (∀ key, s.Allowed (.getOrig key) →
        callbackGetOrig hashPtr s.replacer key = s.originals key) ∧
      ∀ r effects, s.replacer.used = 1 →
        callbackTargetUnloadCallback payloadAt s.replacer true = some (r, effects) →
          s.Reports effects := by
  have hs := h.consistent hrange
  refine ⟨hs, fun call hallowed => ?_, ?_, hs.getOrig, ?_⟩
  · obtain ⟨s', hs', -⟩ := hs.step hrange hallowed
    simp [hs']
  · intro alloc callback key result r hreplace
    have hused : 0 < s.replacer.used := by
      refine lt_of_le_of_ne hs.used fun hzero => ?_
      simp [callbackReplace, ← hzero] at hreplace
    obtain ⟨_, _, heq, hreplaces, -⟩ := hs.replace hused alloc callback key
    cases heq.symm.trans hreplace
    exact hreplaces
  · intro r effects hlast hunload
    obtain ⟨_, _, heq, hreports, -⟩ := hs.unload hrange (by omega) true
    cases heq.symm.trans hunload
    exact hreports hlast rfl

end Consistent

/-- A payload is registered and the target loaded; a callback is replaced. -/
theorem reachable_correct_session :
    ∃ s, Reachable (fun _ _ => 0) (fun _ => ⟨some 7, 9, true, true⟩) s ∧ s.held = [7] ∧
      callbackGetOrig (fun _ _ => 0) s.replacer 3 = some 5 := by
  have hcreate := @Reachable.create (fun _ _ => 0) (fun _ => ⟨some 7, 9, true, true⟩) 1
  have hregister := hcreate.step (show System.Allowed _ (.register 1) from trivial) rfl
  have hload := hregister.step (show System.Allowed _ (.load true) from trivial) rfl
  have hreplace := hload.step (show System.Allowed _ (.replace true 5 3) from Int.one_pos) rfl
  obtain ⟨hs, -, -, horig, -⟩ := reachable_correct (fun _ _ => by positivity) hreplace
  exact ⟨_, hreplace, hs.held, (horig 3 ⟨Int.one_pos, 5, by decide, rfl⟩).trans rfl⟩

end Callbacks
end Replacer
end KedrAux
