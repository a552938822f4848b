import Mathlib.Algebra.Group.Nat.Defs

/-! Binary long division: the highest bits of the dividend first, one bit of the quotient a turn. -/

set_option autoImplicit false

namespace Ysyx.Lib

/-- All but the lowest `s` bits of `n` are divided by `d`. -/
structure PartlyDivided (n d s quotient rest : Nat) : Prop where
  split : n / 2 ^ s = d * quotient + rest
  small : rest < d

namespace PartlyDivided

variable {n d s quotient rest : Nat}

theorem start (short : n / 2 ^ s < d) : PartlyDivided n d s 0 (n / 2 ^ s) :=
  ⟨by rw [Nat.mul_zero, Nat.zero_add], short⟩

/-- The rest with the next bit of the dividend. -/
def grown (n s rest : Nat) : Nat := 2 * rest + n / 2 ^ s % 2

theorem grown_le (divided : PartlyDivided n d (s + 1) quotient rest) :
    n / 2 ^ s = d * (2 * quotient) + grown n s rest := by
  have halves := Nat.div_add_mod (n / 2 ^ s) 2
  rw [Nat.div_div_eq_div_mul, ← Nat.pow_succ, divided.split] at halves
  rw [← halves, grown, Nat.mul_add, Nat.mul_left_comm, Nat.add_assoc]

theorem grown_lt (divided : PartlyDivided n d (s + 1) quotient rest) :
    grown n s rest < 2 * d := by
  have bit := Nat.mod_lt (n / 2 ^ s) (by decide : 0 < 2)
  have small := divided.small
  rw [grown]
  omega

theorem next (divided : PartlyDivided n d (s + 1) quotient rest) :
    PartlyDivided n d s (2 * quotient + if d ≤ grown n s rest then 1 else 0)
      (grown n s rest - if d ≤ grown n s rest then d else 0) := by
  have split := divided.grown_le
  have bound := divided.grown_lt
  by_cases fits : d ≤ grown n s rest
  · rw [if_pos fits, if_pos fits]
    exact ⟨by rw [split, Nat.mul_add, Nat.mul_one, Nat.add_assoc, Nat.add_sub_cancel' fits],
      by omega⟩
  · rw [if_neg fits, if_neg fits]
    exact ⟨split, Nat.lt_of_not_le fits⟩

theorem done (divided : PartlyDivided n d 0 quotient rest) : quotient = n / d ∧ rest = n % d := by
  have split := divided.split
  have positive : 0 < d := Nat.lt_of_le_of_lt (Nat.zero_le rest) divided.small
  rw [Nat.pow_zero, Nat.div_one] at split
  constructor
  · rw [split, Nat.mul_add_div positive, Nat.div_eq_of_lt divided.small, Nat.add_zero]
  · rw [split, Nat.mul_add_mod, Nat.mod_eq_of_lt divided.small]

end PartlyDivided

end Ysyx.Lib
