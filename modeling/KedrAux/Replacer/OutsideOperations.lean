import KedrAux.Replacer.PointerOperations

/-!
# Operations that are set from outside

What the replacer keeps as the original operation of an object is the operation that was
last set from outside, in every run, for both types of replacers.
-/

namespace KedrAux
namespace Replacer

variable {n : Nat}

namespace Objects

variable {hashPtr : Pointer → Nat → Nat} {outside : Set Pointer} {data : OperationReplacerData n}
variable {s s' : Objects n}

def Invariant (hashPtr : Pointer → Nat → Nat) (outside : Set Pointer)
    (data : OperationReplacerData n) (s : Objects n) : Prop :=
  s.AtPlace hashPtr data ∨ s.ReplacePointer hashPtr outside data

theorem AtPlace.accesses
    (h : s.AtPlace hashPtr data) : Accesses hashPtr outside data (AtPlace hashPtr data) s := by
  refine ⟨fun key alloc allocElem _ => h.replace key alloc allocElem,
    fun key alloc allocElem _ => h.update key alloc allocElem, h.restore, h.clean, ?_⟩
  rintro access hallowed (⟨key, ops, rfl⟩ | ⟨key, op, f, rfl⟩)
  · have htype := hallowed.1
    rw [h.loaded.type] at htype
    cases htype
  · exact ⟨0, _, rfl, h.writeOp key op f hallowed.2⟩

theorem ReplacePointer.accesses (h : s.ReplacePointer hashPtr outside data) :
    Accesses hashPtr outside data (ReplacePointer hashPtr outside data) s := by
  refine ⟨fun key alloc allocElem hallowed => h.replace key (hallowed h.loaded.type) allocElem,
    fun key alloc allocElem hallowed => h.update key (hallowed h.loaded.type) allocElem, h.restore,
    h.clean, ?_⟩
  rintro access hallowed (⟨key, ops, rfl⟩ | ⟨key, op, f, rfl⟩)
  · exact ⟨0, _, rfl, h.writePointer key hallowed.2⟩
  · have htype := hallowed.1
    rw [h.loaded.type] at htype
    cases htype

theorem Invariant.accesses (h : s.Invariant hashPtr outside data) :
    Accesses hashPtr outside data (Invariant hashPtr outside data) s :=
  h.elim (fun h => h.accesses.mono Or.inl) fun h => h.accesses.mono Or.inr

theorem Initial.invariant (h : s.Initial outside data) : s.Invariant hashPtr outside data := by
  have hget : ∀ key, s.replacer.dataMap.get hashPtr key = none := by
    intro key
    rw [DataMap.get, h.dataMap]
    rfl
  have hdistinct : s.replacer.dataMap.DistinctKeys := by
    intro i
    rw [h.dataMap]
    exact List.nodup_nil
  cases htype : s.replacer.type with
  | atPlace =>
    refine Or.inl ⟨⟨h.nUses, h.data, htype, hdistinct⟩, fun key => .of_none (hget key) ?_⟩
    intro op v hv
    rw [h.last, OperationReplacer.operationOf, htype] at hv
    exact Option.some.inj hv
  | replacePointer =>
    refine Or.inr ⟨⟨h.nUses, h.data, htype, hdistinct⟩, fun key => .of_none (hget key) ?_, ?_⟩
    · intro op v hv
      rw [h.last, OperationReplacer.operationOf, htype] at hv
      exact ⟨h.outside htype key, Option.some.inj hv⟩
    · intro key key' opsOrig opsOrig' own hd
      rw [hget] at hd
      cases hd

theorem Invariant.access {access : Access n} {result : Int} (h : s.Invariant hashPtr outside data)
    (hallowed : s.Allowed hashPtr outside data access)
    (hexec : s.exec hashPtr access = some (result, s')) :
    s'.Invariant hashPtr outside data := by
  have hexists : ∃ result s', s.exec hashPtr access = some (result, s') ∧
      s'.Invariant hashPtr outside data := by
    cases access with
    | replace key alloc allocElem =>
      obtain ⟨result, s', hexec, hinv, -⟩ := h.accesses.replace key alloc allocElem hallowed
      exact ⟨result, s', hexec, hinv⟩
    | update key alloc allocElem =>
      obtain ⟨result, s', hexec, hinv, -⟩ := h.accesses.update key alloc allocElem hallowed
      exact ⟨result, s', hexec, hinv⟩
    | restore key =>
      obtain ⟨result, s', hexec, hinv, -⟩ := h.accesses.restore key
      exact ⟨result, s', hexec, hinv⟩
    | clean key => exact h.accesses.clean key
    | writePointer key ops => exact h.accesses.write _ hallowed (Or.inl ⟨key, ops, rfl⟩)
    | writeOp key op f => exact h.accesses.write _ hallowed (Or.inr ⟨key, op, f, rfl⟩)
  obtain ⟨result', s'', hexec', hinv⟩ := hexists
  rw [hexec] at hexec'
  cases hexec'
  exact hinv

theorem Reachable.invariant (h : Reachable hashPtr outside data s) :
    s.Invariant hashPtr outside data := by
  induction h with
  | initial h => exact h.invariant
  | access _ access hallowed hexec ih => exact ih.access hallowed hexec

/--
In every run, a failed replacement leaves the objects and the map as they are.  After a
replacement or an update, the masked operations of the object are the replacements, the
others are what they were, and the original operations are those last set from outside.
When an object is restored, it gets these operations, and its key is removed.

What is left in an object when its data is cleaned is not set from outside.
-/
theorem outside_operations
    (h : Reachable hashPtr outside data s) :
    (∀ key alloc allocElem result s',
      s.Allowed hashPtr outside data (.replace key alloc allocElem) →
      s.exec hashPtr (.replace key alloc allocElem) = some (result, s') →
      (s.replacer.dataMap.get hashPtr key ≠ none → result ≠ 0) ∧
        (result ≠ 0 → Unchanged alloc s s')) ∧
      (∀ key alloc allocElem s' access,
        access = .replace key alloc allocElem ∨ access = .update key alloc allocElem →
        s.Allowed hashPtr outside data access → s.exec hashPtr access = some (0, s') →
        Replaces hashPtr data s s' key) ∧
      (∀ key, s.replacer.dataMap.get hashPtr key ≠ none →
        ∃ s', s.exec hashPtr (.restore key) = some (0, s') ∧ Restores hashPtr s s' key) := by
  have haccesses := h.invariant.accesses
  refine ⟨?_, ?_, ?_⟩
  · intro key alloc allocElem result s' hallowed hexec
    obtain ⟨result', s'', hexec', -, hcases⟩ := haccesses.replace key alloc allocElem hallowed
    rw [hexec] at hexec'
    cases hexec'
    rcases hcases with ⟨hne, hunchanged⟩ | ⟨hzero, hnone, -⟩
    · exact ⟨fun _ => hne, fun _ => hunchanged⟩
    · exact ⟨fun hget => absurd hnone hget, fun hne => absurd hzero hne⟩
  · rintro key alloc allocElem s' access (rfl | rfl) hallowed hexec
    · obtain ⟨result', s'', hexec', -, hcases⟩ := haccesses.replace key alloc allocElem hallowed
      rw [hexec] at hexec'
      cases hexec'
      exact hcases.elim (fun hfail => absurd rfl hfail.1) fun hok => hok.2.2
    · obtain ⟨result', s'', hexec', -, hreplaces⟩ := haccesses.update key alloc allocElem hallowed
      rw [hexec] at hexec'
      cases hexec'
      exact hreplaces rfl
  · intro key hget
    obtain ⟨result, s', hexec, -, hrestores⟩ := haccesses.restore key
    obtain ⟨hzero, hrestored⟩ := hrestores hget
    exact ⟨s', hzero ▸ hexec, hrestored⟩

def oneOperation : OperationReplacerData 1 :=
  ⟨fun _ => 10, fun _ => 1, []⟩

/-- Objects with the operation 7, in place and behind a pointer to the address 200. -/
def sameObjects (type : OperationReplacerType) : Objects 1 where
  replacer := ⟨1, type, [], [], some oneOperation, ⟨0, fun _ => []⟩⟩
  mem := ⟨fun _ _ => 7, fun _ => 200⟩
  last _ _ := some 7

theorem initial_sameObjects (type : OperationReplacerType) :
    (sameObjects type).Initial {200} oneOperation := by
  refine ⟨Nat.one_ne_zero, rfl, fun _ => rfl, fun key op => ?_, fun _ _ => rfl⟩
  cases type <;> rfl

/-- An object behind a pointer is replaced. -/
theorem outside_operations_sameObjects :
    ∃ s', (sameObjects .replacePointer).exec (fun _ _ => 0) (.replace 100 (some 300) true) =
        some (0, s') ∧
      Replaces (fun _ _ => 0) oneOperation (sameObjects .replacePointer) s' 100 := by
  have hexec : ∃ s', (sameObjects .replacePointer).exec (fun _ _ => 0)
      (.replace 100 (some 300) true) = some (0, s') := ⟨_, rfl⟩
  obtain ⟨s', hexec⟩ := hexec
  refine ⟨s', hexec, (outside_operations (.initial (initial_sameObjects .replacePointer))).2.1 100
    (some 300) true s' _ (Or.inl rfl) ?_ hexec⟩
  intro _ own hown
  cases hown
  exact ⟨by decide, fun key opsOrig hget => by cases hget⟩

/--
An object is replaced, cleaned and replaced again, with no write from outside: the original
operation that is found then is the replacement.
-/
theorem getOrig_after_clean :
    ∃ s1 s2 s3 : Objects 1, (sameObjects .atPlace).Initial {200} oneOperation ∧
      (sameObjects .atPlace).exec (fun _ _ => 0) (.replace 100 (some 300) true) = some (0, s1) ∧
      s1.exec (fun _ _ => 0) (.clean 100) = some (0, s2) ∧
      s2.exec (fun _ _ => 0) (.replace 100 (some 300) true) = some (0, s3) ∧
      operationGetOrig (fun _ _ => 0) s3.replacer s3.mem 0 100 = some 10 ∧
      (sameObjects .atPlace).replacer.operationOf (sameObjects .atPlace).mem 100 0 = 7 :=
  ⟨_, _, _, initial_sameObjects .atPlace, rfl, rfl, rfl, rfl, rfl⟩

end Objects

end Replacer
end KedrAux
