import Mathlib.Tactic.Ring
import Ysyx.Klib.Int64Zeros
import Ysyx.Lib.LongDivision

/-! `__udivmoddi4` divides: its loop is long division on the words `r:q`, its first words are the
dividend moved up, and the powers of two are shifts and masks. -/

set_option autoImplicit false

namespace Ysyx.Klib.Int64

open Lib (PartlyDivided)

/-!
## One turn
-/

/-- Bits pushed in from below. -/
theorem toNat_push {w k : Nat} (x y : BitVec w) (low : y.toNat < 2 ^ k) (inside : k ≤ w) :
    ((x <<< k) ||| y).toNat = x.toNat % 2 ^ (w - k) * 2 ^ k + y.toNat := by
  have whole : 2 ^ w = 2 ^ (w - k) * 2 ^ k := by
    rw [← Nat.pow_add, Nat.sub_add_cancel inside]
  rw [BitVec.toNat_or, BitVec.toNat_shiftLeft, Nat.shiftLeft_eq, whole, Nat.mul_mod_mul_right,
    ← Nat.shiftLeft_eq, Nat.shiftLeft_add_eq_or_of_lt low]

theorem toNat_high_bit (x : BitVec 32) : (x >>> 31).toNat = x.toNat / 2 ^ 31 := by
  rw [BitVec.toNat_ushiftRight, Nat.shiftRight_eq_div_pow]

/-- The shift of `r:q` by one. -/
theorem turn_words (d : Udwords) (state : Turn) (bit : state.carry.toNat < 2)
    (fits : 2 * state.r.all.toNat + state.q.all.toNat / 2 ^ 63 < 2 ^ 64) :
    ∃ r : BitVec 64,
      r.toNat = 2 * state.r.all.toNat + state.q.all.toNat / 2 ^ 63 ∧
      (turn d state).r.all = r - (d.all &&& (d.all - r - 1#64).sshiftRight 63) ∧
      (turn d state).carry = ((d.all - r - 1#64).sshiftRight 63).setWidth 32 &&& 1#32 ∧
      (turn d state).q.all.toNat =
        (2 * state.q.all.toNat + state.carry.toNat) % 2 ^ 64 := by
  obtain ⟨⟨qLow, qHigh⟩, ⟨rLow, rHigh⟩, carry⟩ := state
  have high (x : BitVec 32) : (x >>> 31).toNat < 2 ^ 1 := by
    rw [toNat_high_bit]
    omega
  refine ⟨Udwords.all ⟨(rLow <<< 1) ||| (qHigh >>> 31), (rHigh <<< 1) ||| (rLow >>> 31)⟩,
    ?_, ?_, rfl, ?_⟩
  · simp only [toNat_all] at fits ⊢
    rw [toNat_push _ _ (high _) (by decide), toNat_push _ _ (high _) (by decide),
      toNat_high_bit, toNat_high_bit]
    omega
  · exact udwords_all _
  · simp only [turn, toNat_all]
    rw [toNat_push _ _ (high _) (by decide), toNat_push _ _ bit (by decide), toNat_high_bit]
    simp only at bit
    omega

theorem sshiftRight_msb (x : BitVec 64) :
    x.sshiftRight 63 = if x.msb then BitVec.allOnes 64 else 0#64 := by
  ext i bound
  rw [BitVec.getElem_sshiftRight]
  by_cases last : i = 0
  · subst last
    rw [dif_pos (by decide)]
    cases sign : x.msb
    all_goals simpa [BitVec.msb_eq_getLsbD_last] using sign
  · rw [dif_neg (by omega)]
    cases x.msb
    · exact (BitVec.getElem_zero bound).symm
    · exact (BitVec.getElem_allOnes i bound).symm

/-- The sign of `d - r - 1` tells whether `d` fits. -/
theorem sshiftRight_sign {d r : BitVec 64} (below : r.toNat < d.toNat + 2 ^ 63)
    (above : d.toNat ≤ r.toNat + 2 ^ 63) :
    (d - r - 1#64).sshiftRight 63 = if d.toNat ≤ r.toNat then BitVec.allOnes 64 else 0#64 := by
  have sign : (d - r - 1#64).msb = decide (d.toNat ≤ r.toNat) := by
    rw [BitVec.msb_eq_decide, decide_eq_decide]
    bv_omega
  rw [sshiftRight_msb, sign]
  by_cases fits : d.toNat ≤ r.toNat
  · rw [if_pos fits, if_pos (decide_eq_true fits)]
  · rw [if_neg fits, if_neg (by rw [decide_eq_false fits]; decide)]

/-- What a turn does when `d` is near enough to the moved rest for the sign to tell. -/
theorem turn_spec (d : Udwords) (state : Turn) {rest : Nat} (bit : state.carry.toNat < 2)
    (moved : rest = 2 * state.r.all.toNat + state.q.all.toNat / 2 ^ 63) (fits : rest < 2 ^ 64)
    (below : rest < d.all.toNat + 2 ^ 63) (above : d.all.toNat ≤ rest + 2 ^ 63) :
    (turn d state).r.all.toNat = rest - (if d.all.toNat ≤ rest then d.all.toNat else 0) ∧
    (turn d state).carry.toNat = (if d.all.toNat ≤ rest then 1 else 0) ∧
    (turn d state).q.all.toNat = (2 * state.q.all.toNat + state.carry.toNat) % 2 ^ 64 := by
  subst moved
  obtain ⟨r, value, rest, carry, q⟩ := turn_words d state bit fits
  rw [← value] at below above ⊢
  rw [sshiftRight_sign below above] at rest carry
  refine ⟨?_, ?_, q⟩
  · rw [rest]
    split
    · rename_i more
      rw [BitVec.and_allOnes, BitVec.toNat_sub_of_le (BitVec.le_def.mpr more)]
    · rw [BitVec.and_zero, BitVec.sub_zero, Nat.sub_zero]
  · rw [carry]
    split <;> rfl

/-!
## All turns
-/

/-- With `s` bits of `n` to go: they lead `q`, and the quotient so far follows them but for its
last bit, which is in `carry`. A divisor above `2 ^ 63` leaves one turn only, on the whole of
`n`. -/
structure Dividing (n d s quotient : Nat) (state : Turn) : Prop where
  divided : PartlyDivided n d s quotient state.r.all.toNat
  words : state.q.all.toNat = n % 2 ^ s * 2 ^ (64 - s) + quotient / 2
  carry : state.carry.toNat = quotient % 2
  near : d ≤ 2 ^ 63 ∨ s = 0 ∨ s = 1 ∧ 2 ^ 63 ≤ n ∧ quotient = 0

variable {n s quotient : Nat} {d : Udwords} {state : Turn}

theorem quotient_lt (divided : PartlyDivided n d.all.toNat s quotient state.r.all.toNat)
    (bound : n < 2 ^ 64) (inside : s ≤ 64) : quotient < 2 ^ (64 - s) := by
  have positive : 0 < d.all.toNat := Nat.lt_of_le_of_lt (Nat.zero_le _) divided.small
  have least : quotient ≤ d.all.toNat * quotient := Nat.le_mul_of_pos_left quotient positive
  have short : n / 2 ^ s < 2 ^ (64 - s) := by
    rw [Nat.div_lt_iff_lt_mul (Nat.two_pow_pos s), ← Nat.pow_add, Nat.sub_add_cancel inside]
    exact bound
  have split := divided.split
  omega

/-- The bit that leaves `q`, and what is left in it. -/
theorem words_shift {q m e s : Nat} (inside : s < 64) (small : e < 2 ^ (64 - (s + 1)))
    (words : q = m % 2 ^ (s + 1) * 2 ^ (64 - (s + 1)) + e / 2) :
    q / 2 ^ 63 = m / 2 ^ s % 2 ∧
    (2 * q + e % 2) % 2 ^ 64 = m % 2 ^ s * 2 ^ (64 - s) + e := by
  have widths : 64 - s = 64 - (s + 1) + 1 ∧ 63 = 64 - (s + 1) + s ∧ 64 = s + (64 - s) := by omega
  have double : 2 ^ (64 - s) = 2 * 2 ^ (64 - (s + 1)) := by rw [widths.1, Nat.pow_succ']
  constructor
  · have half : e / 2 < 2 ^ (64 - (s + 1)) := Nat.lt_of_le_of_lt (Nat.div_le_self ..) small
    have whole : 2 ^ 63 = 2 ^ (64 - (s + 1)) * 2 ^ s := by rw [← Nat.pow_add, ← widths.2.1]
    rw [words, whole, ← Nat.div_div_eq_div_mul, Nat.mul_comm (m % _),
      Nat.mul_add_div (Nat.two_pow_pos _), Nat.div_eq_of_lt half, Nat.add_zero,
      Nat.pow_succ, Nat.mod_mul_right_div_self]
  · have split : 2 * q + e % 2 =
        m % 2 ^ s * 2 ^ (64 - s) + e + 2 ^ 64 * (m / 2 ^ s % 2) := by
      have whole : 2 ^ 64 = 2 ^ s * (2 * 2 ^ (64 - (s + 1))) := by
        rw [← double, ← Nat.pow_add, ← widths.2.2]
      have spread (x y b p h : Nat) :
          2 * ((x + y * b) * p + h) = x * (2 * p) + y * (2 * p) * b + 2 * h := by ring
      rw [words, Nat.mod_pow_succ, double, whole, spread]
      omega
    rw [split, Nat.add_mul_mod_self_left]
    apply Nat.mod_eq_of_lt
    have below := Nat.mul_le_mul_right (2 ^ (64 - s)) (Nat.mod_lt m (Nat.two_pow_pos s))
    rw [← Nat.pow_add, ← widths.2.2, Nat.succ_mul] at below
    omega

theorem Dividing.turn (dividing : Dividing n d.all.toNat (s + 1) quotient state)
    (bound : n < 2 ^ 64) (inside : s < 64) :
    ∃ quotient, Dividing n d.all.toNat s quotient (turn d state) := by
  obtain ⟨divided, words, carry, near⟩ := dividing
  have few := quotient_lt divided bound inside
  obtain ⟨lead, left⟩ := words_shift inside few words
  have grown := divided.grown_lt
  have least := divided.grown_le
  have below := d.all.isLt
  have next := divided.next
  have moved : PartlyDivided.grown n s state.r.all.toNat =
      2 * state.r.all.toNat + state.q.all.toNat / 2 ^ 63 := by rw [lead, PartlyDivided.grown]
  generalize PartlyDivided.grown n s state.r.all.toNat = rest at *
  have short : n / 2 ^ s ≤ n := Nat.div_le_self ..
  have fits : rest < 2 ^ 64 := by omega
  have far : rest < d.all.toNat + 2 ^ 63 ∧ d.all.toNat ≤ rest + 2 ^ 63 := by
    rcases near with small | none | ⟨one, large, zero⟩
    · omega
    · omega
    · obtain rfl : s = 0 := by omega
      subst zero
      simp only [Nat.pow_zero, Nat.div_one] at least
      omega
  obtain ⟨r, carry', q⟩ := turn_spec d state (by omega) moved fits far.1 far.2
  refine ⟨2 * quotient + if d.all.toNat ≤ rest then 1 else 0, ?_, ?_, ?_, ?_⟩
  · rw [r]
    exact next
  · rw [q, carry, left]
    split <;> omega
  · rw [carry']
    split <;> omega
  · omega

/-- The loop ends with the quotient and the rest. -/
theorem Dividing.loop (dividing : Dividing n d.all.toNat s quotient state) (bound : n < 2 ^ 64)
    (inside : s ≤ 64) : ∃ quotient, Dividing n d.all.toNat 0 quotient (loop d s state) := by
  induction s generalizing quotient state with
  | zero => exact ⟨quotient, dividing⟩
  | succ s turns =>
    obtain ⟨quotient, next⟩ := dividing.turn bound inside
    exact turns next (Nat.le_of_lt inside)

theorem longDivision_spec {sr : BitVec 32} {q r : Udwords} (a : BitVec 64)
    (inside : sr.toNat ≤ 64) (high : r.all.toNat = a.toNat / 2 ^ sr.toNat)
    (low : q.all.toNat = a.toNat % 2 ^ sr.toNat * 2 ^ (64 - sr.toNat))
    (short : a.toNat / 2 ^ sr.toNat < d.all.toNat)
    (near : d.all.toNat ≤ 2 ^ 63 ∨ sr.toNat = 1 ∧ 2 ^ 63 ≤ a.toNat) :
    longDivision d sr q r = (a / d.all, a % d.all) := by
  have start : Dividing a.toNat d.all.toNat sr.toNat 0 ⟨q, r, 0#32⟩ := by
    refine ⟨?_, low, rfl, by omega⟩
    show PartlyDivided _ _ _ _ r.all.toNat
    rw [high]
    exact .start short
  obtain ⟨quotient, divided, words, carry, -⟩ := start.loop a.isLt inside
  obtain ⟨quot, rem⟩ := divided.done
  have few := quotient_lt divided a.isLt (by decide)
  rw [Nat.pow_zero, Nat.mod_one, Nat.zero_mul, Nat.zero_add] at words
  rw [longDivision]
  generalize Int64.loop d sr.toNat ⟨q, r, 0#32⟩ = state at *
  refine Prod.ext (BitVec.eq_of_toNat_eq ?_) (BitVec.eq_of_toNat_eq ?_)
  · show ((state.q.all <<< 1) ||| state.carry.setWidth 64).toNat = (a / d.all).toNat
    have bit : (state.carry.setWidth 64).toNat = quotient % 2 := by
      rw [BitVec.toNat_setWidth, carry]
      omega
    rw [toNat_push _ _ (by omega) (by decide), bit, words, BitVec.toNat_udiv, ← quot]
    omega
  · rw [BitVec.toNat_umod, ← rem]

/-!
## The first words
-/

/-- The low bits of one word above the high bits of the next. -/
theorem toNat_join (x y : BitVec 32) {s : Nat} (inside : s ≤ 32) :
    ((x <<< (32 - s)) ||| (y >>> s)).toNat = x.toNat % 2 ^ s * 2 ^ (32 - s) + y.toNat / 2 ^ s := by
  have down : (y >>> s).toNat = y.toNat / 2 ^ s := by
    rw [BitVec.toNat_ushiftRight, Nat.shiftRight_eq_div_pow]
  have small : (y >>> s).toNat < 2 ^ (32 - s) := by
    rw [down, Nat.div_lt_iff_lt_mul (Nat.two_pow_pos s), ← Nat.pow_add, Nat.sub_add_cancel inside]
    exact y.isLt
  rw [toNat_push x _ small (Nat.sub_le ..), down, Nat.sub_sub_self inside]

theorem toNat_up {w s : Nat} (x : BitVec w) (inside : s ≤ w) :
    (x <<< (w - s)).toNat = x.toNat % 2 ^ s * 2 ^ (w - s) := by
  have pushed := toNat_push x 0#w (Nat.two_pow_pos (w - s)) (Nat.sub_le w s)
  rwa [BitVec.or_zero, BitVec.toNat_zero, Nat.add_zero, Nat.sub_sub_self inside] at pushed

theorem shift_eq (x sr : BitVec 32) {s : Nat} (value : sr.toNat = s) :
    x >>> sr = x >>> s ∧ x <<< sr = x <<< s := by
  subst value
  exact ⟨rfl, rfl⟩

theorem split_mul (x p q : Nat) : x / p * (p * q) + x % p * q = x * q := by
  calc x / p * (p * q) + x % p * q
    _ = (p * (x / p) + x % p) * q := by ring
    _ = x * q := by rw [Nat.div_add_mod]

/-- For `sr` up to 32. -/
theorem low_words (a : BitVec 64) {sr : BitVec 32} (small : sr.toNat ≤ 32) :
    (Udwords.all ⟨((udwords a).high <<< (32#32 - sr)) ||| ((udwords a).low >>> sr),
      (udwords a).high >>> sr⟩).toNat = a.toNat / 2 ^ sr.toNat ∧
    (Udwords.all ⟨0#32, (udwords a).low <<< (32#32 - sr)⟩).toNat =
      a.toNat % 2 ^ sr.toNat * 2 ^ (64 - sr.toNat) := by
  have split := toNat_all (udwords a)
  rw [udwords_all] at split
  have rest : (32#32 - sr).toNat = 32 - sr.toNat := by bv_omega
  simp only [(shift_eq _ (32#32 - sr) rest).2, (shift_eq _ sr rfl).1]
  rw [toNat_all, toNat_all, toNat_join _ _ small, toNat_up _ small,
    BitVec.toNat_ushiftRight, Nat.shiftRight_eq_div_pow]
  generalize sr.toNat = s at *
  have whole : 2 ^ 32 = 2 ^ s * 2 ^ (32 - s) := by rw [← Nat.pow_add]; congr 1; omega
  have widths : 2 ^ (64 - s) = 2 ^ (32 - s) * 2 ^ 32 := by rw [← Nat.pow_add]; congr 1; omega
  have divided := split_mul (udwords a).high.toNat (2 ^ s) (2 ^ (32 - s))
  have apart : a.toNat =
      2 ^ s * ((udwords a).high.toNat * 2 ^ (32 - s)) + (udwords a).low.toNat := by
    rw [split, whole, Nat.mul_left_comm]
  constructor
  · rw [apart, Nat.mul_add_div (Nat.two_pow_pos s), ← divided, whole, Nat.add_assoc]
  · rw [apart, Nat.mul_add_mod, widths, BitVec.toNat_zero, Nat.add_zero, Nat.mul_assoc]

/-- For `sr` above 32. -/
theorem high_words (a : BitVec 64) {sr : BitVec 32} (large : 32 < sr.toNat)
    (inside : sr.toNat < 64) :
    (Udwords.all ⟨(udwords a).high >>> (sr - 32#32), 0#32⟩).toNat = a.toNat / 2 ^ sr.toNat ∧
    (Udwords.all ⟨(udwords a).low <<< (64#32 - sr),
      ((udwords a).high <<< (64#32 - sr)) ||| ((udwords a).low >>> (sr - 32#32))⟩).toNat =
      a.toNat % 2 ^ sr.toNat * 2 ^ (64 - sr.toNat) := by
  have split := toNat_all (udwords a)
  rw [udwords_all] at split
  obtain ⟨s, sum⟩ : ∃ s, sr.toNat = 32 + s := ⟨sr.toNat - 32, by omega⟩
  have small : s ≤ 32 := by omega
  have rest : (64#32 - sr).toNat = 32 - s := by bv_omega
  have extra : (sr - 32#32).toNat = s := by bv_omega
  simp only [(shift_eq _ (64#32 - sr) rest).2, (shift_eq _ (sr - 32#32) extra).1]
  rw [toNat_all, toNat_all, toNat_join _ _ small, toNat_up _ small, sum,
    BitVec.toNat_ushiftRight, Nat.shiftRight_eq_div_pow]
  have low := (udwords a).low.isLt
  have halves : a.toNat % 2 ^ 32 = (udwords a).low.toNat ∧
      a.toNat / 2 ^ 32 = (udwords a).high.toNat := by omega
  constructor
  · rw [Nat.pow_add, ← Nat.div_div_eq_div_mul, halves.2, BitVec.toNat_zero, Nat.zero_mul,
      Nat.zero_add]
  · have whole : 2 ^ 32 = 2 ^ s * 2 ^ (32 - s) := by rw [← Nat.pow_add, Nat.add_sub_cancel' small]
    have divided := split_mul (udwords a).low.toNat (2 ^ s) (2 ^ (32 - s))
    have width : 64 - (32 + s) = 32 - s := by omega
    rw [← whole] at divided
    rw [width, Nat.pow_add, Nat.mod_mul, halves.1, halves.2, Nat.add_mul _ _ (2 ^ (32 - s)),
      ← divided]
    ring

/-!
## The cases
-/

theorem divided_eq {a b q r : BitVec 64} (quot : q.toNat = a.toNat / b.toNat)
    (rem : r.toNat = a.toNat % b.toNat) : (q, r) = (a / b, a % b) :=
  Prod.ext (BitVec.eq_of_toNat_eq (by rw [BitVec.toNat_udiv]; exact quot))
    (BitVec.eq_of_toNat_eq (by rw [BitVec.toNat_umod]; exact rem))

theorem divided_of_lt {a b : BitVec 64} (less : a.toNat < b.toNat) :
    (0#64, a) = (a / b, a % b) :=
  divided_eq (Nat.div_eq_of_lt less).symm (Nat.mod_eq_of_lt less).symm

theorem short_of {n d e sr : Nat} (above : n < 2 ^ (e + sr)) (least : 2 ^ e ≤ d) :
    n / 2 ^ sr < d := by
  have under : n / 2 ^ sr < 2 ^ e := by
    rw [Nat.div_lt_iff_lt_mul (Nat.two_pow_pos sr), ← Nat.pow_add]
    exact above
  exact Nat.lt_of_lt_of_le under least

theorem power_of_two {d : BitVec 32} (some : d ≠ 0#32) (power : d &&& (d - 1#32) = 0#32) :
    d.toNat = 2 ^ (ctzsi2 d).toNat := by
  obtain ⟨m, odd⟩ := ctz_split some
  rw [ctzsi2_eq some]
  have positive : d.toNat ≠ 0 := fun none => some (BitVec.eq_of_toNat_eq none)
  have minus : (d - 1#32).toNat = d.toNat - 1 := by bv_omega
  have bits := congrArg BitVec.toNat power
  rw [BitVec.toNat_and, minus, BitVec.toNat_zero] at bits
  obtain ⟨k, whole⟩ := (Nat.and_sub_one_eq_zero_iff_isPowerOfTwo positive).mp bits
  have value : d.toNat = (2 * 0 + 1) * 2 ^ k := by rw [whole]; omega
  rw [ctz_unique some value, whole]

theorem toNat_and_minus {d : BitVec 32} (x : BitVec 32) {c : Nat} (power : d.toNat = 2 ^ c) :
    (x &&& (d - 1#32)).toNat = x.toNat % 2 ^ c := by
  have positive := Nat.two_pow_pos c
  have minus : (d - 1#32).toNat = 2 ^ c - 1 := by bv_omega
  rw [BitVec.toNat_and, minus, Nat.and_two_pow_sub_one_eq_mod]

section Cases

variable {a b : BitVec 64}

/-- Both operands fill the high word: the distance of their highest bits is the number of turns. -/
theorem wide_turns {sr : BitVec 32} (high : (udwords a).high ≠ 0#32)
    (wide : (udwords b).high ≠ 0#32)
    (distance : sr = clzsi2 (udwords b).high - clzsi2 (udwords a).high) :
    (31#32 < sr → a.toNat < b.toNat) ∧
    (¬31#32 < sr → (sr + 1#32).toNat = sr.toNat + 1 ∧ sr.toNat < 32 ∧
      a.toNat / 2 ^ (sr + 1#32).toNat < b.toNat ∧
      (b.toNat ≤ 2 ^ 63 ∨ (sr + 1#32).toNat = 1 ∧ 2 ^ 63 ≤ a.toNat)) := by
  rw [clzsi2_eq high, clzsi2_eq wide] at distance
  obtain ⟨insideA, belowA, aboveA⟩ := wide_bounds high
  obtain ⟨insideB, belowB, aboveB⟩ := wide_bounds wide
  subst distance
  generalize (udwords a).high.clz = ca at *
  generalize (udwords b).high.clz = cb at *
  constructor
  · intro far
    have order : cb.toNat < ca.toNat := by bv_omega
    have powers : 2 ^ (64 - ca.toNat) ≤ 2 ^ (63 - cb.toNat) :=
      Nat.pow_le_pow_right (by decide) (by omega)
    omega
  · intro near
    have order : ca.toNat ≤ cb.toNat := by bv_omega
    have sub : (cb - ca).toNat = cb.toNat - ca.toNat := BitVec.toNat_sub_of_le order
    have next : (cb - ca + 1#32).toNat = (cb - ca).toNat + 1 := by bv_omega
    refine ⟨next, by omega, short_of (e := 63 - cb.toNat) ?_ belowB, ?_⟩
    · have exponent : 63 - cb.toNat + (cb - ca + 1#32).toNat = 64 - ca.toNat := by omega
      rw [exponent]
      exact aboveA
    · rcases Nat.eq_zero_or_pos cb.toNat with top | lower
      · have first : ca.toNat = 0 := by omega
        rw [first] at belowA
        exact .inr ⟨by omega, belowA⟩
      · have powers : 2 ^ (64 - cb.toNat) ≤ 2 ^ 63 := Nat.pow_le_pow_right (by decide) (by omega)
        exact .inl (by omega)

/-- The divisor fills the low word only and is not a power of two. -/
theorem narrow_turns {sr : BitVec 32} (high : (udwords a).high ≠ 0#32)
    (narrow : (udwords b).high = 0#32) (some : (udwords b).low ≠ 0#32)
    (other : ¬(udwords b).low &&& ((udwords b).low - 1#32) = 0#32)
    (distance : sr = 33#32 + clzsi2 (udwords b).low - clzsi2 (udwords a).high) :
    0 < sr.toNat ∧ sr.toNat < 64 ∧ a.toNat / 2 ^ sr.toNat < b.toNat ∧ b.toNat ≤ 2 ^ 63 := by
  have split := toNat_all (udwords b)
  rw [udwords_all, narrow, BitVec.toNat_zero, Nat.zero_mul, Nat.zero_add] at split
  rw [clzsi2_eq high, clzsi2_eq some] at distance
  obtain ⟨insideA, belowA, aboveA⟩ := wide_bounds high
  obtain ⟨insideB, belowB, aboveB⟩ := clz_bounds (by decide) some
  have small := (udwords b).low.isLt
  have early : (udwords b).low.clz.toNat < 31 := by
    refine Nat.lt_of_le_of_ne (by omega) fun last => other ?_
    rw [last] at aboveB
    have one : (udwords b).low = 1#32 := by
      apply BitVec.eq_of_toNat_eq
      have positive : (udwords b).low.toNat ≠ 0 := fun none => some (BitVec.eq_of_toNat_eq none)
      show _ = 1
      omega
    rw [one]
    rfl
  rw [← split] at belowB small
  subst distance
  generalize (udwords a).high.clz = ca at *
  generalize (udwords b).low.clz = cb at *
  have sub : (33#32 + cb - ca).toNat = 33 + cb.toNat - ca.toNat := by bv_omega
  refine ⟨by omega, by omega, short_of (e := 31 - cb.toNat) ?_ belowB, by omega⟩
  have exponent : 31 - cb.toNat + (33#32 + cb - ca).toNat = 64 - ca.toNat := by omega
  rw [exponent]
  exact aboveA

theorem value_low (noHigh : (udwords a).high = 0#32) : a.toNat = (udwords a).low.toNat := by
  have split := toNat_all (udwords a)
  rwa [udwords_all, noHigh, BitVec.toNat_zero, Nat.zero_mul, Nat.zero_add] at split

theorem value_high (noLow : (udwords a).low = 0#32) :
    a.toNat = (udwords a).high.toNat * 2 ^ 32 := by
  have split := toNat_all (udwords a)
  rwa [udwords_all, noLow, BitVec.toNat_zero, Nat.add_zero] at split

theorem toNat_widen (x : BitVec 32) : (x.setWidth 64).toNat = x.toNat := by
  rw [BitVec.toNat_setWidth]
  omega

/-- A divisor `2 ^ (32 + c)`. -/
theorem high_power {c : Nat} {e : BitVec 32} (power : (udwords b).high.toNat = 2 ^ c)
    (noLow : (udwords b).low = 0#32) (shift : e.toNat = c) :
    (((udwords a).high >>> e).setWidth 64,
      Udwords.all ⟨(udwords a).low, (udwords a).high &&& ((udwords b).high - 1#32)⟩) =
    (a / b, a % b) := by
  have split := toNat_udwords a
  have value : b.toNat = 2 ^ 32 * 2 ^ c := by rw [value_high noLow, power, Nat.mul_comm]
  apply divided_eq
  · rw [toNat_widen, (shift_eq _ e shift).1, BitVec.toNat_ushiftRight, Nat.shiftRight_eq_div_pow,
      value, ← Nat.div_div_eq_div_mul, split.2]
  · rw [toNat_all, toNat_and_minus _ power, value, Nat.mod_mul, split.1, split.2]
    omega

/-- A divisor `2 ^ c` in the low word. -/
theorem low_power {c : Nat} {e : BitVec 32} (power : (udwords b).low.toNat = 2 ^ c)
    (noHigh : (udwords b).high = 0#32) (shift : e.toNat = c) :
    (if (udwords b).low = 1#32 then
        ((udwords a).all, ((udwords a).low &&& ((udwords b).low - 1#32)).setWidth 64)
      else
        (Udwords.all ⟨((udwords a).high <<< (32#32 - e)) ||| ((udwords a).low >>> e),
          (udwords a).high >>> e⟩,
          ((udwords a).low &&& ((udwords b).low - 1#32)).setWidth 64)) =
    (a / b, a % b) := by
  have split := toNat_udwords a
  have value : b.toNat = 2 ^ c := by rw [value_low noHigh, power]
  have inside : c < 32 := by
    apply (Nat.pow_lt_pow_iff_right (by decide : 1 < 2)).mp
    rw [← power]
    exact (udwords b).low.isLt
  have rem : (((udwords a).low &&& ((udwords b).low - 1#32)).setWidth 64).toNat =
      a.toNat % b.toNat := by
    have whole : 2 ^ 32 = 2 ^ c * 2 ^ (32 - c) := by
      rw [← Nat.pow_add, Nat.add_sub_cancel' (Nat.le_of_lt inside)]
    rw [toNat_widen, toNat_and_minus _ power, split.1, value, whole, Nat.mod_mul_right_mod]
  split
  · rename_i one
    refine divided_eq ?_ rem
    rw [udwords_all, value_low noHigh, one]
    exact (Nat.div_one _).symm
  · refine divided_eq ?_ rem
    rw [(low_words a (by omega)).1, shift, value]

/-- The loop from the words of a shift by less than 32. -/
theorem longDivision_low {sr : BitVec 32} (small : sr.toNat < 32)
    (short : a.toNat / 2 ^ sr.toNat < b.toNat)
    (near : b.toNat ≤ 2 ^ 63 ∨ sr.toNat = 1 ∧ 2 ^ 63 ≤ a.toNat) :
    longDivision (udwords b) sr ⟨0#32, (udwords a).low <<< (32#32 - sr)⟩
      ⟨((udwords a).high <<< (32#32 - sr)) ||| ((udwords a).low >>> sr),
        (udwords a).high >>> sr⟩ = (a / b, a % b) := by
  obtain ⟨high, low⟩ := low_words a (Nat.le_of_lt small)
  rw [← udwords_all b] at short near
  rw [longDivision_spec a (by omega) high low short near, udwords_all]

/-- The loop from the words themselves. -/
theorem longDivision_word {sr : BitVec 32} (word : sr = 32#32)
    (short : a.toNat / 2 ^ sr.toNat < b.toNat) (near : b.toNat ≤ 2 ^ 63) :
    longDivision (udwords b) sr ⟨0#32, (udwords a).low⟩ ⟨(udwords a).high, 0#32⟩ =
      (a / b, a % b) := by
  have split := toNat_udwords a
  have width : sr.toNat = 32 := by rw [word]; rfl
  have high : (Udwords.all ⟨(udwords a).high, 0#32⟩).toNat = a.toNat / 2 ^ sr.toNat := by
    rw [toNat_all, split.2, BitVec.toNat_zero, Nat.zero_mul, Nat.zero_add, width]
  have low : (Udwords.all ⟨0#32, (udwords a).low⟩).toNat =
      a.toNat % 2 ^ sr.toNat * 2 ^ (64 - sr.toNat) := by
    rw [toNat_all, split.1, BitVec.toNat_zero, Nat.add_zero, width]
  rw [← udwords_all b] at short near
  rw [longDivision_spec a (by omega) high low short (.inl near), udwords_all]

/-- A dividend in the low word. -/
theorem udivmoddi4_of_low (noHigh : (udwords a).high = 0#32) :
    udivmoddi4 a b = (a / b, a % b) := by
  have lowA := (udwords a).low.isLt
  simp only [udivmoddi4]
  rw [if_pos noHigh]
  split
  · rename_i narrow
    apply divided_eq
    all_goals rw [toNat_widen, value_low noHigh, value_low narrow]
    · exact BitVec.toNat_udiv
    · exact BitVec.toNat_umod
  · rename_i wide
    obtain ⟨inside, below, -⟩ := wide_bounds wide
    have small : (udwords a).low.setWidth 64 = a :=
      BitVec.eq_of_toNat_eq (by rw [toNat_widen, value_low noHigh])
    have least : 2 ^ 32 ≤ 2 ^ (63 - (udwords b).high.clz.toNat) :=
      Nat.pow_le_pow_right (by decide) (by omega)
    rw [small]
    exact divided_of_lt (by rw [value_low noHigh]; omega)

/-- A divisor that is not a power of two lies less than 31 bits below the dividend. -/
theorem distance_ne_last (high : (udwords a).high ≠ 0#32) (wide : (udwords b).high ≠ 0#32)
    (other : ¬(udwords b).high &&& ((udwords b).high - 1#32) = 0#32) :
    clzsi2 (udwords b).high - clzsi2 (udwords a).high ≠ 31#32 := by
  intro distance
  obtain ⟨insideA, -⟩ := wide_bounds high
  obtain ⟨insideB, belowB, aboveB⟩ := clz_bounds (by decide) wide
  rw [clzsi2_eq high, clzsi2_eq wide] at distance
  have top : (udwords b).high.clz.toNat = 31 := by bv_omega
  rw [top] at aboveB belowB
  have one : (udwords b).high = 1#32 :=
    BitVec.eq_of_toNat_eq (Nat.le_antisymm (Nat.le_of_lt_succ aboveB) belowB)
  rw [one] at other
  exact other rfl

/-- A divisor in the high word. -/
theorem udivmoddi4_of_high_divisor (high : (udwords a).high ≠ 0#32)
    (noLow : (udwords b).low = 0#32) (wide : (udwords b).high ≠ 0#32) :
    udivmoddi4 a b = (a / b, a % b) := by
  simp only [udivmoddi4]
  rw [if_neg high, if_pos noLow, if_neg wide]
  split
  · rename_i even
    apply divided_eq
    · rw [toNat_widen, value_high even, value_high noLow, BitVec.toNat_udiv,
        Nat.mul_div_mul_right _ _ (by decide)]
    · rw [toNat_all, value_high even, value_high noLow, BitVec.toNat_umod,
        Nat.mul_mod_mul_right, BitVec.toNat_zero, Nat.add_zero]
  split
  · rename_i power
    exact high_power (power_of_two wide power) noLow rfl
  rename_i other
  obtain ⟨far, near⟩ := wide_turns high wide rfl
  have last := distance_ne_last high wide other
  generalize clzsi2 (udwords b).high - clzsi2 (udwords a).high = sr at *
  split
  · rename_i beyond
    rw [udwords_all]
    exact divided_of_lt (far (by bv_omega))
  · rename_i inside
    obtain ⟨next, -, short, near⟩ := near (by bv_omega)
    exact longDivision_low (by bv_omega) short near

/-- A divisor in the low word. -/
theorem udivmoddi4_of_low_divisor (high : (udwords a).high ≠ 0#32)
    (low : (udwords b).low ≠ 0#32) (noHigh : (udwords b).high = 0#32) :
    udivmoddi4 a b = (a / b, a % b) := by
  simp only [udivmoddi4]
  rw [if_neg high, if_neg low, if_pos noHigh]
  split
  · rename_i power
    exact low_power (power_of_two low power) noHigh rfl
  rename_i other
  obtain ⟨positive, inside, short, small⟩ := narrow_turns high noHigh low other rfl
  generalize 33#32 + clzsi2 (udwords b).low - clzsi2 (udwords a).high = sr at *
  split
  · rename_i word
    exact longDivision_word word short small
  split
  · rename_i less
    exact longDivision_low less short (.inl small)
  · rename_i word less
    have large : 32 < sr.toNat := by bv_omega
    have joined := udwords_all b
    obtain ⟨highWords, lowWords⟩ := high_words a large inside
    rw [← joined] at short small
    rw [longDivision_spec a (Nat.le_of_lt inside) highWords lowWords short (.inl small), joined]

/-- A divisor in both words. -/
theorem udivmoddi4_of_wide (high : (udwords a).high ≠ 0#32) (low : (udwords b).low ≠ 0#32)
    (wide : (udwords b).high ≠ 0#32) : udivmoddi4 a b = (a / b, a % b) := by
  simp only [udivmoddi4]
  rw [if_neg high, if_neg low, if_neg wide]
  obtain ⟨far, near⟩ := wide_turns high wide rfl
  generalize clzsi2 (udwords b).high - clzsi2 (udwords a).high = sr at *
  split
  · rename_i beyond
    rw [udwords_all]
    exact divided_of_lt (far beyond)
  rename_i inside
  obtain ⟨next, bound, short, near⟩ := near inside
  split
  · rename_i word
    refine longDivision_word word short (near.resolve_right fun last => ?_)
    rw [word] at last
    exact absurd last.1 (by decide)
  · rename_i other
    exact longDivision_low (by bv_omega) short near

theorem udivmoddi4_eq (some : b ≠ 0#64) : udivmoddi4 a b = (a / b, a % b) := by
  by_cases noHigh : (udwords a).high = 0#32
  · exact udivmoddi4_of_low noHigh
  by_cases noLow : (udwords b).low = 0#32
  · refine udivmoddi4_of_high_divisor noHigh noLow fun none => some ?_
    apply BitVec.eq_of_toNat_eq
    rw [value_high noLow, none]
    rfl
  by_cases narrow : (udwords b).high = 0#32
  · exact udivmoddi4_of_low_divisor noHigh noLow narrow
  · exact udivmoddi4_of_wide noHigh noLow narrow

end Cases

end Ysyx.Klib.Int64
