import Mathlib.Tactic

/-!
# Agreement of computations with errors

Two computations agree when they fail with the same error, or when both succeed and their
results are related.
-/

namespace Agreement

universe u

variable {ε : Type u} {α β α' β' : Type}

/-- Both fail with the same error, or both succeed with related results. -/
inductive Agree (R : α → β → Prop) : Except ε α → Except ε β → Prop
  | ok {a : α} {b : β} (h : R a b) : Agree R (.ok a) (.ok b)
  | error (e : ε) : Agree R (.error e) (.error e)

variable {R : α → β → Prop} {R' : α' → β' → Prop}
variable {r : Except ε α}

theorem Agree.mono {S : α → β → Prop} {r' : Except ε β} (h : Agree R r r')
    (himp : ∀ a b, R a b → S a b) :
    Agree S r r' := by
  cases h with
  | ok h => exact .ok (himp _ _ h)
  | error e => exact .error e

theorem Agree.bind {r' : Except ε β} (h : Agree R r r') {f : α → Except ε α'}
    {f' : β → Except ε β'} (hf : ∀ a b, R a b → Agree R' (f a) (f' b)) :
    Agree R' (r >>= f) (r' >>= f') := by
  cases h with
  | ok h => exact hf _ _ h
  | error e => exact .error e

theorem Agree.check (c : Except ε Unit) {f : Unit → Except ε α} {f' : Unit → Except ε β}
    (h : c = .ok () → Agree R (f ()) (f' ())) :
    Agree R (c >>= f) (c >>= f') := by
  cases c with
  | ok u => exact h rfl
  | error e => exact .error e

theorem Agree.ok_right {b : β} (h : Agree R r (.ok b)) :
    ∃ a, r = .ok a ∧ R a b := by
  cases h with
  | ok h => exact ⟨_, rfl, h⟩

theorem Agree.error_right {e : ε} (h : Agree R r (.error e)) : r = .error e := by
  cases h with
  | error e => rfl

end Agreement
