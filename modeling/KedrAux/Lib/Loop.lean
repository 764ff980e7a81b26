import Mathlib.Tactic

/-!
# Loops

A loop is given by its body: a function that either fails, goes on with a new
state or leaves the loop with a result.  `Loop.run` executes at most a given
number of rounds; with an invariant and a measure that every round lowers, the
run reaches its end.
-/

universe u v

inductive Loop.Round (S : Type u) (R : Type v) where
  | next (s : S)
  | done (r : R)

namespace Loop

variable {S : Type u} {R : Type v}

def run (body : S → Option (Round S R)) : (fuel : Nat) → S → Option R
  | 0, _ => none
  | fuel + 1, s =>
    match body s with
    | none => none
    | some (.next s') => run body fuel s'
    | some (.done r) => some r

/--
A body that never fails, keeps `inv` and lowers the measure leads to a result
with `post` within as many rounds as the measure tells.
-/
theorem run_eq_some {body : S → Option (Round S R)}
    (inv : S → Prop) (post : R → Prop) (measure : S → Nat)
    (hround : ∀ s, inv s →
      (∃ s', body s = some (.next s') ∧ inv s' ∧ measure s' < measure s) ∨
        ∃ r, body s = some (.done r) ∧ post r) :
    ∀ {fuel : Nat} {s : S}, inv s → measure s < fuel →
      ∃ r, run body fuel s = some r ∧ post r
  | 0, _, _, hfuel => absurd hfuel (Nat.not_lt_zero _)
  | fuel + 1, s, hs, hfuel => by
      rcases hround s hs with ⟨s', hbody, hs', hlt⟩ | ⟨r, hbody, hpost⟩
      · obtain ⟨r, hr, hpost⟩ := run_eq_some inv post measure hround hs' (by omega : measure s' < fuel)
        exact ⟨r, by rw [run, hbody]; exact hr, hpost⟩
      · exact ⟨r, by rw [run, hbody], hpost⟩

section Leads

variable {body : S → Option (Round S R)} {s s' s'' : S} {r r' : R}

/-- The loop comes from one state to another one. -/
def Leads (body : S → Option (Round S R)) (s s' : S) : Prop :=
  ∃ rounds, ∀ fuel, run body (rounds + fuel) s = run body fuel s'

theorem Leads.refl (body : S → Option (Round S R)) (s : S) : Leads body s s :=
  ⟨0, fun fuel => by rw [Nat.zero_add]⟩

theorem Leads.trans (h : Leads body s s') (h' : Leads body s' s'') : Leads body s s'' := by
  obtain ⟨rounds, hrun⟩ := h
  obtain ⟨rounds', hrun'⟩ := h'
  refine ⟨rounds + rounds', ?_⟩
  intro fuel
  rw [Nat.add_assoc, hrun, hrun']

theorem leads_of_next (h : body s = some (.next s')) : Leads body s s' :=
  ⟨1, fun fuel => by rw [Nat.add_comm, run, h]⟩

theorem Leads.run_eq_some (h : Leads body s s') (hdone : body s' = some (.done r)) :
    ∃ fuel0, ∀ fuel, fuel0 ≤ fuel → run body fuel s = some r := by
  obtain ⟨rounds, hrun⟩ := h
  refine ⟨rounds + 1, ?_⟩
  intro fuel hfuel
  obtain ⟨more, rfl⟩ : ∃ more, fuel = rounds + (more + 1) := ⟨fuel - rounds - 1, by omega⟩
  rw [hrun, run, hdone]

theorem run_mono {fuel fuel' : Nat} (h : run body fuel s = some r) (hle : fuel ≤ fuel') :
    run body fuel' s = some r := by
  induction fuel generalizing s fuel' with
  | zero => cases h
  | succ fuel ih =>
    obtain ⟨fuel', rfl⟩ : ∃ n, fuel' = n + 1 := ⟨fuel' - 1, by omega⟩
    rw [run] at h ⊢
    cases hbody : body s with
    | none =>
      rw [hbody] at h
      cases h
    | some round =>
      rw [hbody] at h
      cases round with
      | next s' => exact ih h (by omega)
      | done r => exact h

theorem run_unique
    {fuel fuel' : Nat} (h : run body fuel s = some r) (h' : run body fuel' s = some r') :
    r' = r := by
  have hmono := run_mono h (Nat.le_max_left fuel fuel')
  have hmono' := run_mono h' (Nat.le_max_right fuel fuel')
  exact Option.some.inj (hmono'.symm.trans hmono)

end Leads

end Loop
