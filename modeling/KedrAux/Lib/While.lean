import Mathlib.Tactic

/-!
# While loops that can fail

A loop is given by its condition and its body; both may fail.  The fuel bounds the number of
rounds.  With an invariant and a measure that every round lowers, the loop comes to its end.
-/

namespace While

universe u

variable {ε : Type u} {S : Type}

/-- At most `fuel` checks of the condition; `endless` is the error when they are used up. -/
def run (endless : ε) (cond : S → Except ε Bool) (body : S → Except ε S) :
    (fuel : Nat) → S → Except ε S
  | 0, _ => .error endless
  | fuel + 1, s => do
      if ← cond s then run endless cond body fuel (← body s)
      else return s

variable {endless : ε} {cond : S → Except ε Bool} {body : S → Except ε S}

theorem run_of_false {s : S} (h : cond s = .ok false) (fuel : Nat) :
    run endless cond body (fuel + 1) s = .ok s := by
  rw [run, h]
  rfl

theorem run_of_true {s s' : S} (hcond : cond s = .ok true) (hbody : body s = .ok s') (fuel : Nat) :
    run endless cond body (fuel + 1) s = run endless cond body fuel s' := by
  rw [run, hcond]
  change (body s >>= fun s' => run endless cond body fuel s') = _
  rw [hbody]
  rfl

variable (endless cond body)

theorem run_list {α : Type*} (inv : List α → S → Prop)
    (hround : ∀ x xs s, inv (x :: xs) s →
      cond s = .ok true ∧ ∃ s', body s = .ok s' ∧ inv xs s')
    (hend : ∀ s, inv [] s → cond s = .ok false) :
    ∀ xs s, inv xs s → ∀ fuel, xs.length < fuel →
      ∃ s', run endless cond body fuel s = .ok s' ∧ inv [] s' := by
  intro xs
  induction xs with
  | nil =>
    intro s hs fuel hfuel
    obtain ⟨fuel, rfl⟩ := Nat.exists_eq_add_of_lt hfuel
    exact ⟨s, run_of_false (hend s hs) _, hs⟩
  | cons x xs ih =>
    intro s hs fuel hfuel
    obtain ⟨fuel, rfl⟩ := Nat.exists_eq_add_of_le' (Nat.one_le_of_lt hfuel)
    obtain ⟨hcond, s', hbody, hs'⟩ := hround x xs s hs
    obtain ⟨s'', hrun, hs''⟩ := ih s' hs' fuel (by simpa using hfuel)
    exact ⟨s'', (run_of_true hcond hbody fuel).trans hrun, hs''⟩

theorem run_measure (inv : S → Prop) (measure : S → Nat)
    (hround : ∀ s, inv s → cond s = .ok false ∨
      cond s = .ok true ∧ ∃ s', body s = .ok s' ∧ inv s' ∧ measure s' < measure s) :
    ∀ fuel s, inv s → measure s < fuel →
      ∃ s', run endless cond body fuel s = .ok s' ∧ inv s' ∧ cond s' = .ok false := by
  intro fuel
  induction fuel with
  | zero => exact fun s _ hfuel => absurd hfuel (Nat.not_lt_zero _)
  | succ fuel ih =>
    intro s hs hfuel
    rcases hround s hs with hcond | ⟨hcond, s', hbody, hs', hlt⟩
    · exact ⟨s, run_of_false hcond fuel, hs, hcond⟩
    · obtain ⟨s'', hrun, hs'', hend⟩ := ih s' hs' (by omega)
      exact ⟨s'', (run_of_true hcond hbody fuel).trans hrun, hs'', hend⟩

end While
