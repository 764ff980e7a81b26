import KedrAux.Lib.While
import KedrAux.Replacer.DataMap
import Mathlib.Data.Nat.Size

/-!
# Sizes of new maps

`data_map_create` chooses the number of hash bits for an expected number of elements.  The
computation is unsigned: without elements, the subtraction before the division wraps around.
-/

namespace KedrAux
namespace Replacer
namespace DataMap

variable {w : Nat}

/-- No more than 70% of the table should be used. -/
def hashSize (elemNumber : BitVec w) : BitVec w := (elemNumber * 10 - 1) / 7 + 1

/-- The loop that counts the bits of the decremented size: what is left of it, and `size_bits`. -/
def countBits (fuel : Nat) (hashSize : BitVec w) : Except Unit (BitVec w × Nat) :=
  While.run () (fun s => .ok (s.1 ≠ 0)) (fun s => .ok (s.1 >>> 1, s.2 + 1)) fuel (hashSize - 1, 0)

/--
`data_map_create`, with the results of both allocations; the error is a loop that has not ended.
All chains of the table are empty.
-/
def create {D : Type} (fuel : Nat) (elemNumber : BitVec w) (mapAllocated tableAllocated : Bool) :
    Except Unit (Option (DataMap D)) :=
  if !mapAllocated then .ok none
  else do
    let (_, bits) ← countBits fuel (hashSize elemNumber)
    let sizeBits := if bits ≤ 0 then 1 else bits
    if !tableAllocated then return none
    else return some ⟨sizeBits, fun _ => []⟩

section Bits

theorem size_shiftRight_succ {x : BitVec w} (hx : x ≠ 0) :
    Nat.size (x >>> 1).toNat + 1 = Nat.size x.toNat := by
  have hne : x.toNat ≠ 0 := fun h => hx (BitVec.eq_of_toNat_eq h)
  have hbit : Nat.bit x.toNat.bodd x.toNat.div2 = x.toNat := Nat.bit_bodd_div2 _
  have hsize := Nat.size_bit (b := x.toNat.bodd) (n := x.toNat.div2) (by rwa [hbit])
  rw [hbit, Nat.div2_val] at hsize
  rw [BitVec.toNat_ushiftRight, Nat.shiftRight_one, hsize]

theorem countBits_eq (x : BitVec w) {fuel : Nat} (hfuel : w < fuel) :
    countBits fuel x = .ok (0, Nat.size (x - 1).toNat) := by
  have hsize : Nat.size (x - 1).toNat ≤ w := Nat.size_le.mpr (x - 1).isLt
  obtain ⟨⟨rest, bits⟩, hrun, hbits, hend⟩ := While.run_measure ()
    (fun s : BitVec w × Nat => .ok (s.1 ≠ 0)) (fun s => .ok (s.1 >>> 1, s.2 + 1))
    (fun s => s.2 + Nat.size s.1.toNat = Nat.size (x - 1).toNat) (fun s => Nat.size s.1.toNat)
    (by
      intro s hs
      by_cases hzero : s.1 = 0
      · exact .inl (by simp [hzero])
      · have hshift := size_shiftRight_succ hzero
        refine .inr ⟨by simpa using hzero, _, rfl, ?_, ?_⟩
        · simp only
          omega
        · simp only
          omega)
    fuel (x - 1, 0) (Nat.zero_add _) (by simp only; omega)
  have hrest : rest = 0 := by simpa using hend
  subst hrest
  have hbits : bits = Nat.size (x - 1).toNat := by
    have hzero : Nat.size (0 : BitVec w).toNat = 0 := by simp
    simpa only [hzero, Nat.add_zero] using hbits
  rw [countBits, hrun, hbits]

theorem create_eq {D : Type} (elemNumber : BitVec w) {fuel : Nat} (hfuel : w < fuel) :
    create (D := D) fuel elemNumber true true =
      .ok (some ⟨max 1 (Nat.size ((elemNumber * 10 - 1) / 7).toNat), fun _ => []⟩) := by
  have hsub : hashSize elemNumber - 1 = (elemNumber * 10 - 1) / 7 := by
    rw [hashSize]
    exact BitVec.add_sub_cancel _ _
  have hmax : ∀ bits, (if bits ≤ 0 then 1 else bits) = max 1 bits := by
    intro bits
    split_ifs <;> omega
  rw [create, countBits_eq _ hfuel, hsub, ← hmax]
  rfl

end Bits

/-- The number of bits is the least one that keeps the load at 70%, and fits an `int` shift. -/
structure Sized (elemNumber sizeBits : Nat) : Prop where
  pos : 1 ≤ sizeBits
  le : sizeBits ≤ 30
  load : 10 * elemNumber ≤ 7 * 2 ^ sizeBits
  least : ∀ bits, 1 ≤ bits → 10 * elemNumber ≤ 7 * 2 ^ bits → sizeBits ≤ bits

/-- The loop ends, and maps are created with a proper size. -/
def CreatesSized (elemNumber : BitVec w) : Prop :=
  ∀ (D : Type) (fuel : Nat), w < fuel →
    ∃ map : DataMap D, create fuel elemNumber true true = .ok (some map) ∧
      Sized elemNumber.toNat map.sizeBits

theorem toNat_quotient {elemNumber : BitVec w} (hw : 32 ≤ w) (hle : elemNumber.toNat ≤ 2 ^ 27)
    (hne : elemNumber ≠ 0) :
    ((elemNumber * 10 - 1) / 7).toNat = (10 * elemNumber.toNat - 1) / 7 := by
  have hpow : 2 ^ 32 ≤ 2 ^ w := Nat.pow_le_pow_right (by omega) hw
  have hpos : elemNumber.toNat ≠ 0 := fun h => hne (BitVec.eq_of_toNat_eq h)
  have hten : (10 : BitVec w).toNat = 10 := by
    simpa using Nat.mod_eq_of_lt (show 10 < 2 ^ w by omega)
  have hseven : (7 : BitVec w).toNat = 7 := by
    simpa using Nat.mod_eq_of_lt (show 7 < 2 ^ w by omega)
  have hone : (1 : BitVec w).toNat = 1 := by
    simpa using Nat.mod_eq_of_lt (show 1 < 2 ^ w by omega)
  have hmul : (elemNumber * 10).toNat = 10 * elemNumber.toNat := by
    rw [BitVec.toNat_mul, hten, Nat.mod_eq_of_lt (by omega), Nat.mul_comm]
  rw [BitVec.toNat_udiv, BitVec.toNat_sub_of_le, hmul, hone, hseven]
  rw [BitVec.le_def, hone, hmul]
  omega

theorem size_quotient_zero (hw : 32 ≤ w) : 30 ≤ Nat.size (((0 : BitVec w) * 10 - 1) / 7).toNat := by
  have hpow : 2 ^ 32 ≤ 2 ^ w := Nat.pow_le_pow_right (by omega) hw
  have hseven : (7 : BitVec w).toNat = 7 := by
    simpa using Nat.mod_eq_of_lt (show 7 < 2 ^ w by omega)
  have hone : (1 : BitVec w).toNat = 1 := by
    simpa using Nat.mod_eq_of_lt (show 1 < 2 ^ w by omega)
  have hall : ((0 : BitVec w) * 10 - 1).toNat = 2 ^ w - 1 := by
    have hmul : (0 : BitVec w) * 10 = 0#w := BitVec.zero_mul
    rw [hmul, BitVec.toNat_sub, hone, BitVec.toNat_zero, Nat.add_zero, Nat.mod_eq_of_lt (by omega)]
  rw [BitVec.toNat_udiv, hall, hseven]
  refine Nat.lt_size.mpr ?_
  omega

/-- Exactly the maps for at least one element have a proper size. -/
theorem createsSized_iff (hw : 32 ≤ w) (elemNumber : BitVec w) (hle : elemNumber.toNat ≤ 2 ^ 27) :
    (∀ (D : Type) (fuel : Nat), w < fuel →
      ∃ map : DataMap D, create fuel elemNumber true true = .ok (some map)) ∧
      (CreatesSized elemNumber ↔ elemNumber ≠ 0) := by
  refine ⟨fun D fuel hfuel => ⟨_, create_eq elemNumber hfuel⟩, ?_, ?_⟩
  · rintro hcreates rfl
    obtain ⟨map, hmap, hsized⟩ := hcreates Unit (w + 1) (Nat.lt_succ_self w)
    rw [create_eq 0 (Nat.lt_succ_self w)] at hmap
    cases hmap
    have hleast := hsized.least 1 (Nat.le_refl 1) (by simp)
    have hsize := size_quotient_zero hw
    simp only at hleast
    omega
  · intro hne D fuel hfuel
    refine ⟨_, create_eq elemNumber hfuel, ?_⟩
    rw [toNat_quotient hw hle hne]
    have hpos : elemNumber.toNat ≠ 0 := fun h => hne (BitVec.eq_of_toNat_eq h)
    have hsize : ∀ bits, Nat.size ((10 * elemNumber.toNat - 1) / 7) ≤ bits ↔
        10 * elemNumber.toNat ≤ 7 * 2 ^ bits := by
      intro bits
      rw [Nat.size_le]
      omega
    have hself := (hsize _).mp (Nat.le_refl _)
    have hone : 1 ≤ Nat.size ((10 * elemNumber.toNat - 1) / 7) := Nat.size_pos.mpr (by omega)
    rw [Nat.max_eq_right hone]
    exact ⟨hone, (hsize 30).mpr (by omega), hself, fun bits _ hload => (hsize bits).mpr hload⟩

/-- A map for 1000 elements. -/
theorem createsSized_iff_sample :
    (∀ (D : Type) (fuel : Nat), 64 < fuel →
      ∃ map : DataMap D, create fuel (1000 : BitVec 64) true true = .ok (some map)) ∧
      (CreatesSized (1000 : BitVec 64) ↔ (1000 : BitVec 64) ≠ 0) :=
  createsSized_iff (by decide) 1000 (by decide)

/-- With 64 bits, `1 << size_bits` is no `int` when no elements are expected. -/
theorem not_createsSized_zero : ¬ CreatesSized (0 : BitVec 64) := by
  intro hcreates
  obtain ⟨map, hmap, hsized⟩ := hcreates Unit 65 (by decide)
  have hcreate : create (D := Unit) 65 (0 : BitVec 64) true true = .ok (some ⟨62, fun _ => []⟩) := by
    rw [create_eq _ (by decide)]
    rfl
  rw [hcreate] at hmap
  cases hmap
  exact absurd hsized.le (by decide)

end DataMap
end Replacer
end KedrAux
