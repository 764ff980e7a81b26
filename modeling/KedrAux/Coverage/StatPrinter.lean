import KedrAux.Coverage.TraceWriter

/-!
# Percentages of a statistic

`StatPrinter::printPercent` (`program.cpp`).  Computations are in `int` of 32 bits; an overflow and
a failed assertion give `none`.
-/

namespace KedrAux
namespace Coverage

/-- Text written to the stream and the width for the next output. -/
structure OStream where
  text : Str
  width : Nat
deriving DecidableEq, Repr

namespace OStream

/-- `<<`: blanks fill the text up to the width from the left; the width is reset. -/
def put (os : OStream) (text : Str) : OStream :=
  ⟨os.text ++ (List.replicate (os.width - text.length) ' ' ++ text), 0⟩

def setWidth (os : OStream) (width : Nat) : OStream :=
  { os with width := width }

end OStream

def intResult (x : Int) : Option Int :=
  if -2 ^ 31 ≤ x ∧ x < 2 ^ 31 then some x else none

theorem intResult_eq_some {x y : Int} :
    intResult x = some y ↔ (-2 ^ 31 ≤ x ∧ x < 2 ^ 31) ∧ x = y := by
  unfold intResult
  split_ifs with h
  · simp only [Option.some.injEq]
    exact ⟨fun hxy => ⟨h, hxy⟩, And.right⟩
  · constructor
    · nofun
    · rintro ⟨hfits, -⟩
      exact absurd hfits h

theorem intResult_of_fits {x : Int} (hlower : 0 ≤ x) (hupper : x < 2 ^ 31) : intResult x = some x :=
  intResult_eq_some.mpr ⟨⟨by omega, hupper⟩, rfl⟩

namespace StatPrinter

def printPercent (os : OStream) (a A : Int) : Option OStream := do
  guard (a ≤ A)
  if A = 0 then
    return os.put ['*']
  let hundreds ← intResult (a * 100)
  let whole ← intResult (hundreds.tdiv A)
  let parts ← intResult (a * 10000)
  let quotient ← intResult (parts.tdiv A)
  let shift ← intResult (whole * 100)
  let frac ← intResult (quotient - shift)
  -- `0%` only when `a == 0`.
  let frac := if whole = 0 ∧ frac = 0 ∧ a > 0 then 1 else frac
  let os := (os.put (decimal whole)).put ['.']
  let oldWidth := os.width
  return ((os.setWidth 2).put (decimal frac)).setWidth oldWidth

/-- Hundredths of a percent that should be printed. -/
def hundredths (a A : Int) : Int :=
  if 0 < a ∧ 10000 * a / A = 0 then 1 else 10000 * a / A

/-- A decimal numeral with two digits after the point. -/
def IsHundredths (text : Str) (h : Int) : Prop :=
  ∃ w d e : Nat, d < 10 ∧ e < 10 ∧ h = 100 * w + 10 * d + e ∧
    text = Nat.toDigits 10 w ++ ['.', Nat.digitChar d, Nat.digitChar e]

/-- What is expected of the output; the stream has no width set. -/
def PrintsPercent (a A : Int) : Prop :=
  ∀ old : Str, ∃ text : Str,
    printPercent ⟨old, 0⟩ a A = some ⟨old ++ text, 0⟩ ∧
    IsHundredths text (hundredths a A) ∧
    (text = "0.00".toList → a = 0) ∧
    (text = "100.00".toList → a = A)

section

variable {a A : Int}

theorem scaled_quotient (hA : 0 < A) : a * 100 / A = 10000 * a / A / 100 := by
  have hcancel := Int.mul_ediv_mul_of_pos_left (a * 100) A (by omega : (0 : Int) < 100)
  rw [Int.ediv_ediv_of_nonneg hA.le, ← hcancel]
  congr 1
  omega

theorem scaled_quotient_le (haA : a ≤ A) (hA : 0 < A) : 10000 * a / A ≤ 10000 :=
  Int.ediv_le_of_le_mul hA (by omega)

theorem scaled_quotient_nonneg (ha : 0 ≤ a) (hA : 0 < A) : 0 ≤ 10000 * a / A :=
  Int.ediv_nonneg (by omega) hA.le

theorem hundredths_nonneg (ha : 0 ≤ a) (hA : 0 < A) : 0 ≤ hundredths a A := by
  have hq := scaled_quotient_nonneg ha hA
  unfold hundredths
  split_ifs <;> omega

theorem whole_hundredths (a A : Int) : hundredths a A / 100 = 10000 * a / A / 100 := by
  unfold hundredths
  split_ifs with h <;> omega

def padded (frac : Int) : Str :=
  List.replicate (2 - (decimal frac).length) ' ' ++ decimal frac

theorem printPercent_of_fits
    (ha : 0 ≤ a) (haA : a ≤ A) (hA : 0 < A) (hfits : 10000 * a < 2 ^ 31) (old : Str) :
    printPercent ⟨old, 0⟩ a A =
      some ⟨old ++ (decimal (hundredths a A / 100) ++ '.' ::
        padded (hundredths a A % 100)), 0⟩ := by
  have hq := scaled_quotient_nonneg ha hA
  have hq' := scaled_quotient_le haA hA
  have hwhole : (a * 100).tdiv A = 10000 * a / A / 100 := by
    rw [Int.tdiv_eq_ediv_of_nonneg (by omega), scaled_quotient hA]
  have hparts : (a * 10000).tdiv A = 10000 * a / A := by
    rw [Int.tdiv_eq_ediv_of_nonneg (by omega), Int.mul_comm a]
  have hfrac : 10000 * a / A - 10000 * a / A / 100 * 100 = 10000 * a / A % 100 := by
    omega
  have hcase :
      (if 10000 * a / A / 100 = 0 ∧ 10000 * a / A % 100 = 0 ∧ a > 0 then 1
        else 10000 * a / A % 100) = hundredths a A % 100 := by
    unfold hundredths
    split_ifs <;> omega
  unfold printPercent
  rw [intResult_of_fits (by omega) (by omega)]
  simp only [guard, if_pos haA, if_neg hA.ne', Option.bind_eq_bind, Option.bind_some, hwhole,
    Option.pure_def]
  rw [intResult_of_fits (by omega) (by omega), Option.bind_some,
    intResult_of_fits (by omega) (by omega), Option.bind_some, hparts,
    intResult_of_fits (by omega) (by omega), Option.bind_some,
    intResult_of_fits (by omega) (by omega), Option.bind_some, hfrac,
    intResult_of_fits (by omega) (by omega), Option.bind_some, hcase, whole_hundredths]
  simp [OStream.put, OStream.setWidth, padded]

theorem fits_of_printPercent {os os' : OStream} (hA : 0 < A) (h : printPercent os a A = some os') :
    a * 10000 < 2 ^ 31 := by
  unfold printPercent at h
  simp only [if_neg hA.ne', Option.bind_eq_bind, Option.bind_eq_some_iff] at h
  obtain ⟨-, -, hundreds, -, whole, -, parts, hparts, -⟩ := h
  exact (intResult_eq_some.mp hparts).1.2

end

theorem digitChar_injective_of_lt :
    ∀ d < 10, ∀ e < 10, Nat.digitChar d = Nat.digitChar e → d = e := by
  decide

theorem digitChar_ne_blank : ∀ d < 10, Nat.digitChar d ≠ ' ' := by
  decide

theorem padded_of_lt_ten {n : Nat} (hn : n < 10) : padded n = [' ', Nat.digitChar n] := by
  have hdigits : decimal n = [Nat.digitChar n] := by
    change Nat.toDigits 10 n = _
    rw [Nat.toDigits_eq_if (by decide), if_pos hn]
  simp [padded, hdigits]

theorem padded_of_two_digits {n : Nat} (hlower : 10 ≤ n) (hupper : n < 100) :
    padded n = [Nat.digitChar (n / 10), Nat.digitChar (n % 10)] := by
  have hdigits : decimal n = [Nat.digitChar (n / 10), Nat.digitChar (n % 10)] := by
    change Nat.toDigits 10 n = _
    rw [Nat.toDigits_eq_if (by decide), if_neg (by omega), Nat.toDigits_eq_if (by decide),
      if_pos (by omega)]
    rfl
  simp [padded, hdigits]

theorem last_two_of_eq (w w' : Str) {x y x' y' : Char}
    (h : w ++ ['.', x, y] = w' ++ ['.', x', y']) :
    x = x' ∧ y = y' := by
  have htail := (List.append_inj' h rfl).2
  simpa using htail

section

variable {a A : Int}

/-- The percentage is printed as expected exactly when `10000 * a` fits into an `int` and the
fraction needs no padding. -/
theorem printsPercent_iff
    (ha : 0 ≤ a) (haA : a ≤ A) (hA : 0 < A) :
    PrintsPercent a A ↔ 10000 * a < 2 ^ 31 ∧ 10 ≤ 10000 * a / A % 100 := by
  have hh := hundredths_nonneg ha hA
  obtain ⟨whole, hwhole⟩ :=
    Int.eq_ofNat_of_zero_le (Int.ediv_nonneg hh (by decide : (0 : Int) ≤ 100))
  obtain ⟨frac, hfrac⟩ :=
    Int.eq_ofNat_of_zero_le (Int.emod_nonneg (hundredths a A) (by decide : (100 : Int) ≠ 0))
  have hfraclt : frac < 100 := by
    have := Int.emod_lt_of_pos (hundredths a A) (by decide : (0 : Int) < 100)
    omega
  have hprint : 10000 * a < 2 ^ 31 →
      printPercent ⟨[], 0⟩ a A = some ⟨decimal whole ++ '.' :: padded frac, 0⟩ := by
    intro hfits
    rw [printPercent_of_fits ha haA hA hfits, hwhole, hfrac]
    rfl
  constructor
  · intro h
    obtain ⟨text, hrun, ⟨w, d, e, hd, he, -, htext⟩, -⟩ := h []
    have hfits : 10000 * a < 2 ^ 31 := by
      have := fits_of_printPercent hA hrun
      omega
    refine ⟨hfits, ?_⟩
    by_contra hsmall
    -- a fraction below ten is printed with a blank in front of it
    have hlt : frac < 10 := by
      unfold hundredths at hfrac
      split_ifs at hfrac <;> omega
    rw [hprint hfits, padded_of_lt_ten hlt, htext] at hrun
    have hblank := last_two_of_eq _ _ (congrArg OStream.text (Option.some.inj hrun))
    exact digitChar_ne_blank d hd hblank.1.symm
  · rintro ⟨hfits, hten⟩ old
    have hcase : hundredths a A = 10000 * a / A := by
      unfold hundredths
      rw [if_neg (by omega)]
    have htwo : 10 ≤ frac := by
      rw [hcase] at hfrac
      omega
    have hpadded := padded_of_two_digits htwo hfraclt
    have hdigit : Nat.digitChar (frac / 10) ≠ '0' := by
      intro hzero
      have := digitChar_injective_of_lt (frac / 10) (by omega) 0 (by omega) hzero
      omega
    refine ⟨decimal whole ++ ['.', Nat.digitChar (frac / 10), Nat.digitChar (frac % 10)],
      ?_, ?_, ?_, ?_⟩
    · rw [printPercent_of_fits ha haA hA hfits, hwhole, hfrac, hpadded]
    · refine ⟨whole, frac / 10, frac % 10, by omega, by omega, ?_, rfl⟩
      omega
    · intro htext
      exact absurd (last_two_of_eq _ ['0'] htext).1 hdigit
    · intro htext
      exact absurd (last_two_of_eq _ ['1', '0', '0'] htext).1 hdigit

/-- One line of three is printed as 33.33 percent. -/
theorem printsPercent_one_third :
    (0 : Int) ≤ 1 ∧ (1 : Int) ≤ 3 ∧ PrintsPercent 1 3 :=
  ⟨by decide, by decide,
    (printsPercent_iff (by decide) (by decide) (by decide)).mpr (by decide)⟩

/-- A fraction below ten: `1` of `20` is printed as `5. 0`. -/
theorem not_printsPercent_one_twentieth :
    ¬ ∀ a A : Int, 0 ≤ a → a ≤ A → 0 < A → A < 2 ^ 31 → PrintsPercent a A := by
  intro h
  obtain ⟨text, hrun, ⟨w, d, e, hd, he, -, htext⟩, -⟩ :=
    h 1 20 (by decide) (by decide) (by decide) (by decide) []
  have hprint : printPercent ⟨[], 0⟩ 1 20 = some ⟨['5', '.', ' ', '0'], 0⟩ := by
    decide
  rw [hprint, htext] at hrun
  have hblank := last_two_of_eq ['5'] _ (congrArg OStream.text (Option.some.inj hrun))
  exact digitChar_ne_blank d hd hblank.1.symm

end

end StatPrinter
end Coverage
end KedrAux
