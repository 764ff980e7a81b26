import Mathlib.Data.List.Basic

/-!
# Runs of two systems

Two systems take the same inputs and give outputs.  A relation between their states that is kept by
the steps which meet a condition carries over to the runs all steps of which meet it.
-/

namespace GuardedRuns

variable {σ τ ι ο : Type*}

/-- The state after a run and the outputs of its steps. -/
def run (step : σ → ι → σ × ο) : σ → List ι → σ × List ο
  | s, [] => (s, [])
  | s, i :: is =>
    let next := step s i
    let rest := run step next.1 is
    (rest.1, next.2 :: rest.2)

/-- Every step of the run meets the condition in the state before it. -/
def Always (step : σ → ι → σ × ο) (G : σ → ι → Prop) : σ → List ι → Prop
  | _, [] => True
  | s, i :: is => G s i ∧ Always step G (step s i).1 is

variable {step : σ → ι → σ × ο} {step' : τ → ι → τ × ο} {G : σ → ι → Prop} {R : σ → τ → Prop}

theorem run_related
    (hstep : ∀ s t i, R s t → G s i →
      R (step s i).1 (step' t i).1 ∧ (step s i).2 = (step' t i).2)
    {s : σ} {t : τ} {is : List ι} (h : R s t) (halways : Always step G s is) :
    R (run step s is).1 (run step' t is).1 ∧ (run step s is).2 = (run step' t is).2 := by
  induction is generalizing s t with
  | nil => exact ⟨h, rfl⟩
  | cons i is ih =>
    obtain ⟨hnext, hout⟩ := hstep s t i h halways.1
    obtain ⟨hrun, houts⟩ := ih hnext halways.2
    exact ⟨hrun, List.cons_eq_cons.mpr ⟨hout, houts⟩⟩

end GuardedRuns
