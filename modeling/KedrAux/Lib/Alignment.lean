import Mathlib.Tactic

/-!
# Alignment of natural numbers

The greatest multiple that is not above a number, and the distance to the least one that is not
below it.
-/

namespace Alignment

variable {m n q d : Nat}

/-- The greatest multiple of `m` that is not above `n`. -/
def floor (m n : Nat) : Nat := n - n % m

/-- The distance from `n` to the least multiple of `m` that is not below it. -/
def padding (m n : Nat) : Nat := (m - n % m) % m

theorem floor_le (m n : Nat) : floor m n ≤ n := Nat.sub_le n _

theorem floor_add_mod (m n : Nat) : floor m n + n % m = n :=
  Nat.sub_add_cancel (Nat.mod_le n m)

theorem lt_floor_add (hm : 0 < m) (n : Nat) : n < floor m n + m := by
  have := floor_add_mod m n
  have := Nat.mod_lt n hm
  omega

theorem dvd_floor (m n : Nat) : m ∣ floor m n := Nat.dvd_sub_mod n

theorem eq_of_dvd (hq : m ∣ q) (hd : m ∣ d) (hlt : q < d + m) (hlt' : d < q + m) : q = d := by
  obtain ⟨i, rfl⟩ := hq
  obtain ⟨j, rfl⟩ := hd
  have hij : i < j + 1 := Nat.lt_of_mul_lt_mul_left (by rwa [Nat.mul_succ] : m * i < m * (j + 1))
  have hji : j < i + 1 := Nat.lt_of_mul_lt_mul_left (by rwa [Nat.mul_succ] : m * j < m * (i + 1))
  rw [show i = j by omega]

theorem add_le_of_dvd (hq : m ∣ q) (hd : m ∣ d) (hlt : q < d) : q + m ≤ d := by
  by_contra hle
  have := eq_of_dvd hq hd (by omega) (by omega)
  omega

theorem floor_eq_iff (hm : 0 < m) (hq : m ∣ q) : floor m n = q ↔ q ≤ n ∧ n < q + m := by
  constructor
  · rintro rfl
    exact ⟨floor_le m n, lt_floor_add hm n⟩
  · rintro ⟨hle, hlt⟩
    have := floor_le m n
    have := lt_floor_add hm n
    exact eq_of_dvd (dvd_floor m n) hq (by omega) (by omega)

theorem padding_lt (hm : 0 < m) (n : Nat) : padding m n < m := Nat.mod_lt _ hm

theorem dvd_add_padding (hm : 0 < m) (n : Nat) : m ∣ n + padding m n := by
  have hlt := Nat.mod_lt n hm
  have hdiv := Nat.div_add_mod n m
  rw [padding]
  rcases Nat.eq_zero_or_pos (n % m) with hzero | hpos
  · rw [hzero, Nat.sub_zero, Nat.mod_self, Nat.add_zero]
    exact Nat.dvd_of_mod_eq_zero hzero
  · rw [Nat.mod_eq_of_lt (by omega)]
    exact ⟨n / m + 1, by rw [Nat.mul_succ]; omega⟩

theorem sub_mod_eq_padding (hm : 0 < m) (hq : m ∣ q) (hn : n ≤ q) : (q - n) % m = padding m n := by
  have hlt := Nat.mod_lt (q - n) hm
  have hpadding := padding_lt hm n
  have hdiv := floor_add_mod m (q - n)
  have hle : m ∣ n + padding m n := dvd_add_padding hm n
  -- both complete the number to a multiple of the modulus
  have hsum : m ∣ n + (q - n) % m := by
    have hq' : n + (q - n) % m = q - floor m (q - n) := by
      have := floor_le m (q - n)
      omega
    rw [hq']
    exact Nat.dvd_sub hq (dvd_floor m _)
  have := eq_of_dvd hsum hle (by omega) (by omega)
  omega

end Alignment
