import Mathlib.Data.BitVec
import Ysyx.Klib.Int64Division

/-! The routines of the 64-bit runtime compute what their operators mean on every operand. -/

set_option autoImplicit false

namespace Ysyx.Klib.Int64

/-!
## Signed division
-/

theorem negateBy_sign (a : BitVec 64) (sign : Bool) :
    negateBy a (if sign then BitVec.allOnes 64 else 0#64) = if sign then -a else a := by
  cases sign
  · exact (BitVec.sub_zero _).trans BitVec.xor_zero
  · show (a ^^^ BitVec.allOnes 64) - BitVec.allOnes 64 = -a
    rw [BitVec.xor_allOnes, BitVec.neg_eq_not_add, BitVec.sub_eq_add_neg]
    rfl

theorem magnitude_ne_zero {b : BitVec 64} (some : b ≠ 0#64) (sign : Bool) :
    (if sign then -b else b) ≠ 0#64 := by
  cases sign
  · exact some
  · exact fun none => some (BitVec.neg_eq_zero_iff.mp none)

theorem divdi3_eq {a b : BitVec 64} (some : b ≠ 0#64) : divdi3 a b = a.sdiv b := by
  have signs : (if a.msb then BitVec.allOnes 64 else 0#64) ^^^
      (if b.msb then BitVec.allOnes 64 else 0#64) =
      if a.msb ^^ b.msb then BitVec.allOnes 64 else 0#64 := by
    cases a.msb <;> cases b.msb <;> rfl
  simp only [divdi3, sshiftRight_msb, signs, negateBy_sign]
  rw [udivmoddi4_eq (magnitude_ne_zero some b.msb), BitVec.sdiv_eq]
  cases a.msb <;> cases b.msb <;> rfl

theorem moddi3_eq {a b : BitVec 64} (some : b ≠ 0#64) : moddi3 a b = a.srem b := by
  simp only [moddi3, sshiftRight_msb, negateBy_sign]
  rw [udivmoddi4_eq (magnitude_ne_zero some b.msb), BitVec.srem_eq]
  cases a.msb <;> cases b.msb <;> rfl

theorem umod_eq_sub (x y : BitVec 64) : x % y = x - x / y * y := by
  refine eq_sub_of_add_eq (BitVec.eq_of_toNat_eq ?_)
  rw [BitVec.toNat_add, BitVec.toNat_mul, Nat.add_mod_mod, BitVec.toNat_umod, BitVec.toNat_udiv,
    Nat.mod_add_div', Nat.mod_eq_of_lt x.isLt]

theorem srem_eq_sub (a b : BitVec 64) : a.srem b = a - a.sdiv b * b := by
  rw [BitVec.srem_eq, BitVec.sdiv_eq]
  cases a.msb <;> cases b.msb
  all_goals simp only [BitVec.udiv_eq, umod_eq_sub]
  · generalize a / -b = q
    ring
  · generalize -a / b = q
    ring
  · generalize -a / -b = q
    ring

/-- Division on every pair of operands with a divisor: the quotients and the remainders of
unsigned and of signed integers. -/
theorem division_runtime {a b : BitVec 64} (some : b ≠ 0#64) :
    udivdi3 a b = a / b ∧ umoddi3 a b = a % b ∧
    divdi3 a b = a.sdiv b ∧ moddi3 a b = a.srem b ∧ divmoddi4 a b = (a.sdiv b, a.srem b) := by
  refine ⟨congrArg Prod.fst (udivmoddi4_eq some), congrArg Prod.snd (udivmoddi4_eq some),
    divdi3_eq some, moddi3_eq some, ?_⟩
  rw [srem_eq_sub, ← divdi3_eq some]
  rfl

theorem division_runtime_negative :
    (-1000000000000#64) ≠ 0#64 ∧
      divmoddi4 7000000000001#64 (-1000000000000#64) = (-7#64, 1#64) :=
  ⟨by decide, (division_runtime (by decide)).2.2.2.2.trans (by decide)⟩

/-!
## Multiplication
-/

/-- The partial product. -/
def MulTurn.product (state : MulTurn) : BitVec 64 := Udwords.all ⟨state.wLow, state.wHigh⟩

/-- The multiplicand, moved up so far. -/
def MulTurn.multiplicand (state : MulTurn) : BitVec 64 :=
  Udwords.all ⟨state.uLow, state.wHighTmp⟩

/-- What the product will be at the end. -/
def MulTurn.total (state : MulTurn) : BitVec 64 :=
  state.product + state.multiplicand * state.vLow.setWidth 64

theorem carry_of_sum (x y : BitVec 32) :
    (int (x + y < x)).toNat = if x.toNat + y.toNat < 2 ^ 32 then 0 else 1 := by
  have wraps : x + y < x ↔ ¬x.toNat + y.toNat < 2 ^ 32 := by bv_omega
  rw [toNat_int]
  by_cases small : x.toNat + y.toNat < 2 ^ 32
  · rw [if_pos small, decide_eq_false fun less => wraps.mp less small]
    rfl
  · rw [if_neg small, decide_eq_true (wraps.mpr small)]
    rfl

theorem mulTurn_product (state : MulTurn) :
    (mulTurn state).product =
      state.product + if state.vLow &&& 1#32 != 0#32 then state.multiplicand else 0 := by
  obtain ⟨uLow, vLow, wLow, wHigh, wHighTmp⟩ := state
  simp only [MulTurn.product, MulTurn.multiplicand, mulTurn]
  by_cases taken : (vLow &&& 1#32 != 0#32) = true
  · rw [if_pos taken, if_pos taken, if_pos taken]
    apply BitVec.eq_of_toNat_eq
    simp only [toNat_all, BitVec.toNat_add, carry_of_sum]
    split <;> omega
  · rw [if_neg taken, if_neg taken, if_neg taken, add_zero]

theorem mulTurn_multiplicand (state : MulTurn) :
    (mulTurn state).multiplicand = state.multiplicand + state.multiplicand := by
  have top : (state.uLow >>> 31).toNat < 2 ^ 1 := by
    rw [toNat_high_bit]
    omega
  have low := state.uLow.isLt
  apply BitVec.eq_of_toNat_eq
  simp only [MulTurn.multiplicand, mulTurn, BitVec.toNat_add, toNat_all]
  rw [BitVec.or_comm, toNat_push _ _ top (by decide), toNat_high_bit, BitVec.toNat_shiftLeft,
    Nat.shiftLeft_eq]
  omega

/-- The bit that a turn takes off the multiplier. -/
theorem multiplier_split (v : BitVec 32) :
    v.setWidth 64 = (v >>> 1).setWidth 64 + (v >>> 1).setWidth 64 +
      if v &&& 1#32 != 0#32 then 1 else 0 := by
  have bit : (v &&& 1#32).toNat = v.toNat % 2 := by
    rw [BitVec.toNat_and]
    exact Nat.and_one_is_mod v.toNat
  have half : ((v >>> 1).setWidth 64).toNat = v.toNat / 2 := by
    rw [toNat_widen, BitVec.toNat_ushiftRight, Nat.shiftRight_eq_div_pow]
  have low := v.isLt
  apply BitVec.eq_of_toNat_eq
  by_cases odd : v.toNat % 2 = 1
  · have set : (v &&& 1#32 != 0#32) = true := by
      rw [bne_iff_ne]
      intro clear
      rw [clear, odd] at bit
      exact absurd bit (by decide)
    rw [if_pos set, BitVec.toNat_add, BitVec.toNat_add, half, toNat_widen]
    show _ = (_ + 1) % _
    omega
  · have clear : v &&& 1#32 = 0#32 := BitVec.eq_of_toNat_eq (by rw [bit]; show _ = 0; omega)
    rw [clear, if_neg (by decide), add_zero, BitVec.toNat_add, half, toNat_widen]
    omega

theorem mulTurn_total (state : MulTurn) : (mulTurn state).total = state.total := by
  have split := multiplier_split state.vLow
  rw [MulTurn.total, mulTurn_product, mulTurn_multiplicand, MulTurn.total, split]
  show state.product + _ + _ * (state.vLow >>> 1).setWidth 64 = _
  split <;> ring

theorem mulLoop_spec (state : MulTurn) : (mulLoop state).product = state.total := by
  fun_induction mulLoop state with
  | case1 state state' done =>
    have rest : state'.vLow.setWidth 64 = (0 : BitVec 64) := by rw [done]; rfl
    rw [← mulTurn_total, MulTurn.total, rest, mul_zero, add_zero]
  | case2 state state' more turns =>
    rw [turns, mulTurn_total]

theorem toNat_word (x : BitVec 64) : (x * 0x100000000#64).toNat = x.toNat * 2 ^ 32 % 2 ^ 64 := by
  have word : (0x100000000#64).toNat = 2 ^ 32 := by decide
  rw [BitVec.toNat_mul, word]

theorem all_eq (x : Udwords) :
    x.all = x.high.setWidth 64 * 0x100000000#64 + x.low.setWidth 64 := by
  have low := x.low.isLt
  have high := x.high.isLt
  apply BitVec.eq_of_toNat_eq
  rw [toNat_all, BitVec.toNat_add, toNat_word, toNat_widen, toNat_widen]
  omega

/-- A sum in the high word. -/
theorem high_add (x y : BitVec 32) :
    (x + y).setWidth 64 * 0x100000000#64 =
      x.setWidth 64 * 0x100000000#64 + y.setWidth 64 * 0x100000000#64 := by
  apply BitVec.eq_of_toNat_eq
  rw [BitVec.toNat_add, toNat_word, toNat_word, toNat_word, toNat_widen, toNat_widen, toNat_widen,
    BitVec.toNat_add]
  omega

/-- A product in the high word. -/
theorem high_mul (x y : BitVec 32) :
    (x * y).setWidth 64 * 0x100000000#64 = x.setWidth 64 * y.setWidth 64 * 0x100000000#64 := by
  apply BitVec.eq_of_toNat_eq
  rw [toNat_word, toNat_word, toNat_widen, BitVec.toNat_mul, BitVec.toNat_mul, toNat_widen,
    toNat_widen]
  generalize x.toNat * y.toNat = product
  omega

theorem add_product (h x y : BitVec 32) :
    (if y != 0#32 then h + x * y else h) = h + x * y := by
  by_cases zero : y = 0#32
  · rw [zero, if_neg (by decide), BitVec.mul_zero, BitVec.add_zero]
  · rw [if_pos (bne_iff_ne.mpr zero)]

theorem muldi3_eq (u v : BitVec 64) : muldi3 u v = u * v := by
  have low := mulLoop_spec ⟨(udwords u).low, (udwords v).low, 0#32, 0#32, 0#32⟩
  have splitU := all_eq (udwords u)
  have splitV := all_eq (udwords v)
  rw [udwords_all] at splitU splitV
  -- the loop multiplies the low words, and the product of the high words is out of range
  have beyond : 0x100000000#64 * 0x100000000#64 = 0 := by decide
  simp only [muldi3, add_product]
  rw [all_eq, high_add, high_add, high_mul, high_mul]
  simp only [MulTurn.total, MulTurn.product, MulTurn.multiplicand] at low
  rw [all_eq, all_eq ⟨0#32, 0#32⟩, all_eq ⟨_, 0#32⟩] at low
  generalize mulLoop _ = state at *
  simp only [BitVec.setWidth_zero, BitVec.zero_mul, BitVec.zero_add] at low
  generalize (udwords u).low.setWidth 64 = ul at *
  generalize (udwords u).high.setWidth 64 = uh at *
  generalize (udwords v).low.setWidth 64 = vl at *
  generalize (udwords v).high.setWidth 64 = vh at *
  generalize 0x100000000#64 = word at *
  rw [splitU, splitV]
  calc _
    _ = (state.wHigh.setWidth 64 * word + state.wLow.setWidth 64) +
        (vl * uh + ul * vh) * word := by ring
    _ = ul * vl + (vl * uh + ul * vh) * word + uh * vh * (word * word) := by
        rw [low, beyond, mul_zero, add_zero]
    _ = (uh * word + ul) * (vh * word + vl) := by ring

theorem ashldi3_eq (u : BitVec 64) {b : BitVec 32} (inside : b.toNat < 64) :
    ashldi3 u b = u <<< b.toNat := by
  have rest : (64#32 - b).toNat = 64 - b.toNat := by bv_omega
  have up : (u <<< b.toNat).toNat =
      u.toNat % 2 ^ (64#32 - b).toNat * 2 ^ (64 - (64#32 - b).toNat) := by
    have moved := toNat_up u (Nat.sub_le 64 b.toNat)
    have width : 64 - (64#32 - b).toNat = b.toNat := by omega
    rw [Nat.sub_sub_self (Nat.le_of_lt inside), ← rest] at moved
    rw [width]
    exact moved
  have sign : (32#32 - b).sle 0#32 = decide (32 ≤ b.toNat) := by
    rw [BitVec.sle_eq_decide, decide_eq_decide, BitVec.toInt_eq_toNat_cond]
    split
    all_goals
      rename_i half
      simp only [BitVec.toInt_zero]
      bv_omega
  apply BitVec.eq_of_toNat_eq
  rw [up]
  simp only [ashldi3, sign, decide_eq_true_eq]
  split
  · rename_i zero
    subst zero
    rw [← up]
    exact congrArg BitVec.toNat (BitVec.shiftLeft_zero u).symm
  split
  · rename_i large
    have back : -(32#32 - b) = 32#32 - (64#32 - b) := by bv_omega
    rw [back]
    exact (low_words u (by omega)).2
  · rename_i some small
    have positive : b.toNat ≠ 0 := fun none => some (BitVec.eq_of_toNat_eq none)
    have words := (@high_words u (64#32 - b) (by omega) (by omega)).2
    have back : 64#32 - (64#32 - b) = b ∧ 64#32 - b - 32#32 = 32#32 - b := by
      constructor <;> bv_omega
    rwa [back.1, back.2] at words

end Ysyx.Klib.Int64
