import Mathlib.Logic.Basic

/-!
# Errors of C programs

The error codes of Linux, which functions return with a minus sign, assertions, and
computations that stop at an error.
-/

namespace ErrorCodes

def EINTR : Int := 4
def EAGAIN : Int := 11
def ENOMEM : Int := 12
def EFAULT : Int := 14
def EBUSY : Int := 16
def EEXIST : Int := 17
def EINVAL : Int := 22
def ERESTARTSYS : Int := 512

variable {ε : Type} {p : Prop} [Decidable p]

/-- `assert(p)`, with the error of a model for a condition that does not hold. -/
def assertOr (e : ε) (p : Prop) [Decidable p] : Except ε Unit :=
  if p then .ok () else .error e

@[simp] theorem assertOr_of (e : ε) (h : p) : assertOr e p = .ok () :=
  if_pos h

variable {α β : Type} {x : Except ε α} {f : α → Except ε β}

@[simp] theorem ok_bind (a : α) (f : α → Except ε β) : (Except.ok a >>= f) = f a :=
  rfl

@[simp] theorem error_bind (e : ε) (f : α → Except ε β) : (Except.error e >>= f) = .error e :=
  rfl

theorem bind_eq_ok {b : β} (h : (x >>= f) = .ok b) : ∃ a, x = .ok a ∧ f a = .ok b := by
  cases x with
  | ok a => exact ⟨a, rfl, h⟩
  | error e => cases h

theorem bind_eq_error {e : ε} (h : (x >>= f) = .error e) :
    x = .error e ∨ ∃ a, x = .ok a ∧ f a = .error e := by
  cases x with
  | ok a => exact Or.inr ⟨a, rfl, h⟩
  | error e' =>
    cases h
    exact Or.inl rfl

end ErrorCodes
