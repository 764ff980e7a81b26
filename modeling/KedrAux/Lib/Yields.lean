import Mathlib.Tactic

/-!
# Computations with a state that may fail

Rules of pre- and postconditions for `StateT` over `Except`.  A postcondition speaks
about the result and the state after it; another one speaks about the error.
-/

universe u v

variable {σ ε α β γ : Type u} {τ : Type v}

/-- The computation ends in a good result or in a permitted error. -/
def Yields (m : StateT σ (Except ε) α) (s : σ) (post : α → σ → Prop) (err : ε → Prop) : Prop :=
  match m.run s with
  | .ok (a, s') => post a s'
  | .error e => err e

/-- The order in which three computations run. -/
inductive EvalOrder where
  | abc
  | acb
  | bac
  | bca
  | cab
  | cba
deriving DecidableEq

/-- Three computations in the given order. -/
def EvalOrder.run (order : EvalOrder) (a : StateT σ (Except ε) α) (b : StateT σ (Except ε) β)
    (c : StateT σ (Except ε) γ) : StateT σ (Except ε) (α × β × γ) :=
  match order with
  | .abc => do
      let x ← a
      let y ← b
      let z ← c
      return (x, y, z)
  | .acb => do
      let x ← a
      let z ← c
      let y ← b
      return (x, y, z)
  | .bac => do
      let y ← b
      let x ← a
      let z ← c
      return (x, y, z)
  | .bca => do
      let y ← b
      let z ← c
      let x ← a
      return (x, y, z)
  | .cab => do
      let z ← c
      let x ← a
      let y ← b
      return (x, y, z)
  | .cba => do
      let z ← c
      let y ← b
      let x ← a
      return (x, y, z)

/-- What is done in three computations that run in the given order. -/
def EvalOrder.arrange (order : EvalOrder) (a b c : List τ) : List τ :=
  match order with
  | .abc => a ++ (b ++ c)
  | .acb => a ++ (c ++ b)
  | .bac => b ++ (a ++ c)
  | .bca => b ++ (c ++ a)
  | .cab => c ++ (a ++ b)
  | .cba => c ++ (b ++ a)

namespace Yields

variable {m : StateT σ (Except ε) α} {f : α → StateT σ (Except ε) β} {s : σ}
variable {P : α → σ → Prop} {Q : β → σ → Prop} {E : ε → Prop}

theorem pure {a : α} (h : P a s) : Yields (Pure.pure a) s P E :=
  h

theorem throw {e : ε} (h : E e) : Yields (MonadExcept.throw e : StateT σ (Except ε) α) s P E :=
  h

theorem bind (hm : Yields m s P E) (hf : ∀ a s', P a s' → Yields (f a) s' Q E) :
    Yields (m >>= f) s Q E := by
  unfold Yields at hm ⊢
  rw [StateT.run_bind]
  cases hrun : m.run s with
  | error e =>
    rw [hrun] at hm
    exact hm
  | ok r =>
    rw [hrun] at hm
    exact hf r.1 r.2 hm

theorem of_ok (h : Yields m s P E) {a : α} {s' : σ} (hrun : m.run s = .ok (a, s')) : P a s' := by
  unfold Yields at h
  rw [hrun] at h
  exact h

theorem of_error (h : Yields m s P E) {e : ε} (hrun : m.run s = .error e) : E e := by
  unfold Yields at h
  rw [hrun] at h
  exact h

theorem get_bind {f : σ → StateT σ (Except ε) β} (h : Yields (f s) s Q E) :
    Yields (MonadState.get >>= f) s Q E :=
  h

theorem set_bind {f : PUnit → StateT σ (Except ε) β} {s' : σ} (h : Yields (f ⟨⟩) s' Q E) :
    Yields (MonadStateOf.set s' >>= f) s Q E :=
  h

theorem mono {P' : α → σ → Prop} {E' : ε → Prop} (hm : Yields m s P E)
    (hP : ∀ a s', P a s' → P' a s') (hE : ∀ e, E e → E' e) :
    Yields m s P' E' := by
  unfold Yields at hm ⊢
  cases hrun : m.run s with
  | error e =>
    rw [hrun] at hm
    exact hE e hm
  | ok r =>
    rw [hrun] at hm
    exact hP r.1 r.2 hm

section Order

variable {a : StateT σ (Except ε) α} {b : StateT σ (Except ε) β} {c : StateT σ (Except ε) γ}
variable {A : α → σ → Prop} {B : β → σ → Prop} {C : γ → σ → Prop}
variable {I : List τ → σ → Prop} {R : σ → σ → Prop} {as bs cs done before : List τ}

theorem after (hR : ∀ s t u, R s t → R t u → R s u)
    (ha : ∀ done s, I done s → Yields a s (fun x s' => I (done ++ as) s' ∧ R s s' ∧ A x s') E)
    {s0 s : σ} (hI : I (before ++ done) s) (h : R s0 s) :
    Yields a s (fun x s' => R s s' ∧ I (before ++ (done ++ as)) s' ∧ R s0 s' ∧ A x s') E := by
  refine (ha (before ++ done) s hI).mono (fun x s' hx => ?_) fun _ he => he
  rw [← List.append_assoc]
  exact ⟨hx.2.1, hx.1, hR _ _ _ h hx.2.1, hx.2.2⟩

/--
Three computations in any order.  Each of them adds to what is done and keeps the
invariant, and the result of each is still good after the others.
-/
theorem order
    (order : EvalOrder) (hR : ∀ s t u, R s t → R t u → R s u)
    (hA : ∀ x s t, A x s → R s t → A x t) (hB : ∀ y s t, B y s → R s t → B y t)
    (hC : ∀ z s t, C z s → R s t → C z t)
    (ha : ∀ done s, I done s → Yields a s (fun x s' => I (done ++ as) s' ∧ R s s' ∧ A x s') E)
    (hb : ∀ done s, I done s → Yields b s (fun y s' => I (done ++ bs) s' ∧ R s s' ∧ B y s') E)
    (hc : ∀ done s, I done s → Yields c s (fun z s' => I (done ++ cs) s' ∧ R s s' ∧ C z s') E)
    (hs : I before s) :
    Yields (order.run a b c) s (fun r s' => I (before ++ order.arrange as bs cs) s' ∧ R s s' ∧
      A r.1 s' ∧ B r.2.1 s' ∧ C r.2.2 s') E := by
  cases order with
  | abc =>
    refine (ha before s hs).bind fun x s1 ⟨hI, h1, hx⟩ => ?_
    refine (after hR hb hI h1).bind fun y s2 ⟨h2, hI, h2', hy⟩ => ?_
    refine (after hR hc hI h2').bind fun z s3 ⟨h3, hI, h3', hz⟩ => ?_
    rw [List.append_assoc] at hI
    exact pure ⟨hI, h3', hA _ _ _ hx (hR _ _ _ h2 h3), hB _ _ _ hy h3, hz⟩
  | acb =>
    refine (ha before s hs).bind fun x s1 ⟨hI, h1, hx⟩ => ?_
    refine (after hR hc hI h1).bind fun z s2 ⟨h2, hI, h2', hz⟩ => ?_
    refine (after hR hb hI h2').bind fun y s3 ⟨h3, hI, h3', hy⟩ => ?_
    rw [List.append_assoc] at hI
    exact pure ⟨hI, h3', hA _ _ _ hx (hR _ _ _ h2 h3), hy, hC _ _ _ hz h3⟩
  | bac =>
    refine (hb before s hs).bind fun y s1 ⟨hI, h1, hy⟩ => ?_
    refine (after hR ha hI h1).bind fun x s2 ⟨h2, hI, h2', hx⟩ => ?_
    refine (after hR hc hI h2').bind fun z s3 ⟨h3, hI, h3', hz⟩ => ?_
    rw [List.append_assoc] at hI
    exact pure ⟨hI, h3', hA _ _ _ hx h3, hB _ _ _ hy (hR _ _ _ h2 h3), hz⟩
  | bca =>
    refine (hb before s hs).bind fun y s1 ⟨hI, h1, hy⟩ => ?_
    refine (after hR hc hI h1).bind fun z s2 ⟨h2, hI, h2', hz⟩ => ?_
    refine (after hR ha hI h2').bind fun x s3 ⟨h3, hI, h3', hx⟩ => ?_
    rw [List.append_assoc] at hI
    exact pure ⟨hI, h3', hx, hB _ _ _ hy (hR _ _ _ h2 h3), hC _ _ _ hz h3⟩
  | cab =>
    refine (hc before s hs).bind fun z s1 ⟨hI, h1, hz⟩ => ?_
    refine (after hR ha hI h1).bind fun x s2 ⟨h2, hI, h2', hx⟩ => ?_
    refine (after hR hb hI h2').bind fun y s3 ⟨h3, hI, h3', hy⟩ => ?_
    rw [List.append_assoc] at hI
    exact pure ⟨hI, h3', hA _ _ _ hx h3, hy, hC _ _ _ hz (hR _ _ _ h2 h3)⟩
  | cba =>
    refine (hc before s hs).bind fun z s1 ⟨hI, h1, hz⟩ => ?_
    refine (after hR hb hI h1).bind fun y s2 ⟨h2, hI, h2', hy⟩ => ?_
    refine (after hR ha hI h2').bind fun x s3 ⟨h3, hI, h3', hx⟩ => ?_
    rw [List.append_assoc] at hI
    exact pure ⟨hI, h3', hx, hB _ _ _ hy h3, hC _ _ _ hz (hR _ _ _ h2 h3)⟩

end Order

end Yields
