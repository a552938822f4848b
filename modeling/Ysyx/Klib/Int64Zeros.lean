import Mathlib.Algebra.Group.Nat.Defs
import Ysyx.Klib.Int64

/-! The halves of a 64-bit word, and the routines that count its zeros. -/

set_option autoImplicit false

namespace Ysyx.Klib.Int64

/-!
## Words and their halves
-/

theorem toNat_all (x : Udwords) : x.all.toNat = x.high.toNat * 2 ^ 32 + x.low.toNat := by
  rw [Udwords.all, BitVec.toNat_append, ← Nat.shiftLeft_add_eq_or_of_lt x.low.isLt,
    Nat.shiftLeft_eq]

theorem toNat_udwords (a : BitVec 64) :
    (udwords a).low.toNat = a.toNat % 2 ^ 32 ∧ (udwords a).high.toNat = a.toNat / 2 ^ 32 := by
  have bound := a.isLt
  simp only [udwords, BitVec.extractLsb'_toNat, Nat.shiftRight_eq_div_pow]
  omega

@[simp] theorem udwords_all (a : BitVec 64) : (udwords a).all = a := by
  obtain ⟨low, high⟩ := toNat_udwords a
  apply BitVec.eq_of_toNat_eq
  rw [toNat_all, low, high]
  omega

theorem toNat_int (b : Bool) : (int b).toNat = b.toNat := by cases b <;> rfl

/-!
## Counting zeros
-/

/-- A mask of `w` bits from bit `s` on finds its field of the word clear. -/
theorem and_field_eq_zero {mask : BitVec 32} {s w : Nat} (inside : s + w ≤ 32)
    (field : mask = ((BitVec.allOnes w).setWidth 32) <<< s) (x : BitVec 32) :
    x &&& mask = 0#32 ↔ x.toNat / 2 ^ s % 2 ^ w = 0 := by
  have value : (x.extractLsb' s w).toNat = x.toNat / 2 ^ s % 2 ^ w := by
    rw [BitVec.extractLsb'_toNat, Nat.shiftRight_eq_div_pow]
  have bit (i : Nat) : (x &&& mask).getLsbD i = (x.getLsbD i && decide (s ≤ i ∧ i < s + w)) := by
    rw [BitVec.getLsbD_and, field]
    simp only [BitVec.getLsbD_shiftLeft, BitVec.getLsbD_setWidth, BitVec.getLsbD_allOnes]
    rcases Nat.lt_or_ge i 32 with low | high
    · congr 1
      simp only [decide_eq_true low, Bool.true_and, ← Bool.decide_and, ← decide_not,
        decide_eq_decide]
      omega
    · rw [BitVec.getLsbD_of_ge x i high, Bool.false_and, Bool.false_and]
  have zero : (x.extractLsb' s w).toNat = 0 ↔ x.extractLsb' s w = 0#w := by
    rw [← BitVec.toNat_inj, BitVec.toNat_zero]
  rw [← value, zero]
  constructor
  · intro clear
    ext i bound
    have unset := congrArg (·.getLsbD (s + i)) clear
    simp only [bit, BitVec.getLsbD_zero, Nat.le_add_right, true_and] at unset
    simpa [bound] using unset
  · intro clear
    ext i bound
    rw [BitVec.getElem_zero, ← BitVec.getLsbD_eq_getElem, bit]
    rw [Bool.and_eq_false_iff, decide_eq_false_iff_not]
    by_cases here : s ≤ i ∧ i < s + w
    · have unset := congrArg (·.getLsbD (i - s)) clear
      have back : s + (i - s) = i := by omega
      simp only [BitVec.getLsbD_extractLsb', BitVec.getLsbD_zero, back] at unset
      have small : i - s < w := by omega
      simpa [small] using Or.inl unset
    · exact .inr here

/-- After `r` leading zeros, the `w` bits that are left in `x` have the highest one of `a`. -/
structure Leads (a x r : BitVec 32) (w : Nat) : Prop where
  inside : r.toNat + w ≤ 32
  value : x.toNat = a.toNat / 2 ^ (32 - r.toNat - w)
  small : x.toNat < 2 ^ w
  some : x.toNat ≠ 0

theorem Leads.halve {a x r : BitVec 32} {w k : Nat} (leads : Leads a x r (2 * w))
    (mask : BitVec 32) (field : mask = ((BitVec.allOnes w).setWidth 32) <<< w) (power : w = 2 ^ k) :
    Leads a (x >>> (BitVec.ofNat 32 w - int (x &&& mask == 0#32) <<< k))
      (r + int (x &&& mask == 0#32) <<< k) w := by
  have inside := leads.inside
  have small : 2 ^ w * 2 ^ w = 2 ^ (2 * w) := by rw [← Nat.pow_add, Nat.two_mul]
  have high : x.toNat / 2 ^ w < 2 ^ w := by
    rw [Nat.div_lt_iff_lt_mul (Nat.two_pow_pos w), small]
    exact leads.small
  have clear : x &&& mask = 0#32 ↔ x.toNat < 2 ^ w := by
    rw [and_field_eq_zero (by omega) field, Nat.mod_eq_of_lt high, Nat.div_eq_zero_iff_lt
      (Nat.two_pow_pos w)]
  have half : (BitVec.ofNat 32 w).toNat = w := by
    rw [BitVec.toNat_ofNat, Nat.mod_eq_of_lt (by omega)]
  have counted : (int (x &&& mask == 0#32) <<< k).toNat = if x.toNat < 2 ^ w then w else 0 := by
    rw [BitVec.toNat_shiftLeft, toNat_int, Nat.shiftLeft_eq, ← power]
    split
    · rename_i short
      rw [clear.mpr short, beq_self_eq_true, Bool.toNat_true, Nat.one_mul,
        Nat.mod_eq_of_lt (by omega)]
    · rename_i long
      rw [beq_eq_false_iff_ne.mpr (mt clear.mp long), Bool.toNat_false, Nat.zero_mul]
  generalize int (x &&& mask == 0#32) <<< k = t at counted ⊢
  have part : a.toNat / 2 ^ (32 - r.toNat - w) = x.toNat / 2 ^ w := by
    rw [leads.value, Nat.div_div_eq_div_mul, ← Nat.pow_add]
    congr 2
    omega
  have shifted : (x >>> (BitVec.ofNat 32 w - t)).toNat =
      x.toNat / 2 ^ (BitVec.ofNat 32 w - t).toNat := by
    rw [BitVec.ushiftRight_eq', BitVec.toNat_ushiftRight, Nat.shiftRight_eq_div_pow]
  by_cases short : x.toNat < 2 ^ w
  · rw [if_pos short] at counted
    have none : (BitVec.ofNat 32 w - t).toNat = 0 := by bv_omega
    have sum : (r + t).toNat = r.toNat + w := by bv_omega
    rw [none, Nat.pow_zero, Nat.div_one] at shifted
    refine ⟨by omega, ?_, by rwa [shifted], by rw [shifted]; exact leads.some⟩
    rw [shifted, leads.value, sum]
    congr 2
    omega
  · rw [if_neg short] at counted
    have all : (BitVec.ofNat 32 w - t).toNat = w := by bv_omega
    have sum : (r + t).toNat = r.toNat := by bv_omega
    rw [all] at shifted
    refine ⟨by omega, by rw [shifted, sum, part], by rwa [shifted], ?_⟩
    rw [shifted]
    exact Nat.ne_of_gt (Nat.div_pos (Nat.le_of_not_lt short) (Nat.two_pow_pos w))

theorem clz_unique {w c : Nat} {a : BitVec w} (positive : 0 < w) (some : a ≠ 0#w) (inside : c < w)
    (low : 2 ^ (w - 1 - c) ≤ a.toNat) (high : a.toNat < 2 ^ (w - c)) : a.clz.toNat = c := by
  have low' := BitVec.two_pow_sub_clz_le_toNat_of_ne_zero positive some
  have high' := BitVec.toNat_lt_two_pow_sub_clz (x := a)
  have below := (Nat.pow_lt_pow_iff_right (by decide)).mp (Nat.lt_of_le_of_lt low high')
  have above := (Nat.pow_lt_pow_iff_right (by decide)).mp (Nat.lt_of_le_of_lt low' high)
  omega

theorem clz_bounds {w : Nat} {a : BitVec w} (positive : 0 < w) (some : a ≠ 0#w) :
    a.clz.toNat < w ∧ 2 ^ (w - 1 - a.clz.toNat) ≤ a.toNat ∧ a.toNat < 2 ^ (w - a.clz.toNat) := by
  have above := BitVec.toNat_lt_two_pow_sub_clz (x := a)
  refine ⟨Nat.lt_of_not_le fun none => ?_,
    BitVec.two_pow_sub_clz_le_toNat_of_ne_zero positive some, above⟩
  rw [Nat.sub_eq_zero_of_le none, Nat.pow_zero, Nat.lt_one_iff] at above
  exact some (BitVec.eq_of_toNat_eq above)

theorem Leads.clz {a x r : BitVec 32} (leads : Leads a x r 2) :
    r + ((2#32 - x) &&& -int (x &&& 2#32 == 0#32)) = a.clz := by
  have inside := leads.inside
  have value := leads.value
  have small := leads.small
  have nonzero := leads.some
  have some : a ≠ 0#32 := by
    rintro rfl
    simp at value
    exact nonzero value
  have few : x = 1#32 ∨ x = 2#32 ∨ x = 3#32 := by
    simp only [← BitVec.toNat_inj, BitVec.toNat_ofNat]
    omega
  have split := Nat.div_add_mod a.toNat (2 ^ (32 - r.toNat - 2))
  have below := Nat.mod_lt a.toNat (Nat.two_pow_pos (32 - r.toNat - 2))
  have double : 2 ^ (31 - r.toNat) = 2 ^ (32 - r.toNat - 2) * 2 := by
    rw [← Nat.pow_succ]
    congr 1
    omega
  have quadruple : 2 ^ (32 - r.toNat) = 2 ^ (31 - r.toNat) * 2 := by
    rw [← Nat.pow_succ]
    congr 1
    omega
  rw [← value] at split
  apply BitVec.eq_of_toNat_eq
  symm
  rcases few with rfl | rfl | rfl
  all_goals simp only [BitVec.reduceToNat] at split
  · have sum : (r + 1#32).toNat = r.toNat + 1 := by bv_omega
    have low : 31 - (r.toNat + 1) = 32 - r.toNat - 2 := by omega
    have high : 32 - (r.toNat + 1) = 31 - r.toNat := by omega
    refine clz_unique (by decide) some (sum ▸ by omega) ?_ ?_
    · show 2 ^ (31 - (r + 1#32).toNat) ≤ a.toNat
      rw [sum, low]
      omega
    · show a.toNat < 2 ^ (32 - (r + 1#32).toNat)
      rw [sum, high]
      omega
  all_goals
    have sum : (r + 0#32).toNat = r.toNat := by rw [BitVec.add_zero]
    refine clz_unique (by decide) some (sum ▸ by omega) ?_ ?_
    · show 2 ^ (31 - (r + 0#32).toNat) ≤ a.toNat
      rw [sum]
      omega
    · show a.toNat < 2 ^ (32 - (r + 0#32).toNat)
      rw [sum]
      omega

theorem clzsi2_eq {a : BitVec 32} (some : a ≠ 0#32) : clzsi2 a = a.clz := by
  have start : Leads a a 0#32 (2 * 16) :=
    ⟨by decide, (Nat.div_one _).symm, a.isLt, fun none => some (BitVec.eq_of_toNat_eq none)⟩
  have half : Leads a _ _ (2 * 8) := start.halve (k := 4) 0xFFFF0000#32 rfl rfl
  have quarter : Leads a _ _ (2 * 4) := half.halve (k := 3) 0xFF00#32 rfl rfl
  have eighth : Leads a _ _ (2 * 2) := quarter.halve (k := 2) 0xF0#32 rfl rfl
  have last : Leads a _ _ 2 := eighth.halve (k := 1) 0xC#32 rfl rfl
  rw [← last.clz, clzsi2, BitVec.zero_add]

/-- `r` zeros are dropped from the low end, and the low `w` bits of what is left are not clear. -/
structure Trails (a x r : BitVec 32) (w : Nat) : Prop where
  inside : r.toNat + w ≤ 32
  value : a.toNat = x.toNat * 2 ^ r.toNat
  some : x.toNat % 2 ^ w ≠ 0

theorem Trails.halve {a x r : BitVec 32} {w k : Nat} (trails : Trails a x r (2 * w))
    (mask : BitVec 32) (field : mask = ((BitVec.allOnes w).setWidth 32) <<< 0)
    (power : w = 2 ^ k) :
    Trails a (x >>> (int (x &&& mask == 0#32) <<< k)) (r + int (x &&& mask == 0#32) <<< k) w := by
  have inside := trails.inside
  have clear : x &&& mask = 0#32 ↔ x.toNat % 2 ^ w = 0 := by
    rw [and_field_eq_zero (by omega) field, Nat.pow_zero, Nat.div_one]
  have counted : (int (x &&& mask == 0#32) <<< k).toNat = if x.toNat % 2 ^ w = 0 then w else 0 := by
    rw [BitVec.toNat_shiftLeft, toNat_int, Nat.shiftLeft_eq, ← power]
    split
    · rename_i low
      rw [clear.mpr low, beq_self_eq_true, Bool.toNat_true, Nat.one_mul,
        Nat.mod_eq_of_lt (by omega)]
    · rename_i low
      rw [beq_eq_false_iff_ne.mpr (mt clear.mp low), Bool.toNat_false, Nat.zero_mul]
  generalize int (x &&& mask == 0#32) <<< k = t at counted ⊢
  have shifted : (x >>> t).toNat = x.toNat / 2 ^ t.toNat := by
    rw [BitVec.ushiftRight_eq', BitVec.toNat_ushiftRight, Nat.shiftRight_eq_div_pow]
  by_cases low : x.toNat % 2 ^ w = 0
  · rw [if_pos low] at counted
    have sum : (r + t).toNat = r.toNat + w := by bv_omega
    have whole : x.toNat = x.toNat / 2 ^ w * 2 ^ w :=
      (Nat.div_mul_cancel (Nat.dvd_of_mod_eq_zero low)).symm
    rw [counted] at shifted
    refine ⟨by omega, ?_, ?_⟩
    · rw [trails.value, shifted, sum, Nat.add_comm, Nat.pow_add, ← Nat.mul_assoc, ← whole]
    · intro clear
      refine trails.some ?_
      rw [shifted] at clear
      rw [Nat.two_mul, Nat.pow_add, Nat.mod_mul, low, clear, Nat.mul_zero]
  · rw [if_neg low] at counted
    have sum : (r + t).toNat = r.toNat := by bv_omega
    rw [counted, Nat.pow_zero, Nat.div_one] at shifted
    exact ⟨by omega, by rw [trails.value, shifted, sum], by rwa [shifted]⟩

theorem ctz_unique {w c m : Nat} {a : BitVec w} (some : a ≠ 0#w)
    (value : a.toNat = (2 * m + 1) * 2 ^ c) : a.ctz.toNat = c := by
  have bit (i : Nat) : a.getLsbD i = ((2 * m + 1) <<< c).testBit i := by
    rw [← BitVec.testBit_toNat, value, ← Nat.shiftLeft_eq]
  have set := BitVec.getLsbD_true_ctz_of_ne_zero some
  rw [bit, Nat.testBit_shiftLeft, Bool.and_eq_true, decide_eq_true_iff] at set
  rcases Nat.eq_or_lt_of_le set.1 with same | later
  · exact same.symm
  · have clear := BitVec.getLsbD_false_of_lt_ctz later
    rw [bit, Nat.testBit_shiftLeft, Nat.sub_self] at clear
    simp at clear

theorem Trails.ctz {a x r : BitVec 32} (trails : Trails a x r 2) :
    r + ((2#32 - (x &&& 3#32) >>> 1) &&& -int ((x &&& 3#32) &&& 1#32 == 0#32)) = a.ctz := by
  have inside := trails.inside
  have value := trails.value
  have nonzero := trails.some
  have some : a ≠ 0#32 := by
    rintro rfl
    rcases Nat.mul_eq_zero.mp value.symm with none | none
    · rw [none] at nonzero
      exact nonzero rfl
    · exact Nat.ne_of_gt (Nat.two_pow_pos _) none
  have low : (x &&& 3#32).toNat = x.toNat % 4 := by
    rw [BitVec.toNat_and]
    exact Nat.and_two_pow_sub_one_eq_mod x.toNat 2
  have few : x &&& 3#32 = 1#32 ∨ x &&& 3#32 = 2#32 ∨ x &&& 3#32 = 3#32 := by
    simp only [← BitVec.toNat_inj, low, BitVec.toNat_ofNat]
    omega
  have odd (sum : x.toNat % 4 = 1 ∨ x.toNat % 4 = 3) : r = a.ctz := by
    refine BitVec.eq_of_toNat_eq (ctz_unique (m := x.toNat / 2) some ?_).symm
    rw [value]
    congr 1
    omega
  rcases few with one | two | three
  · rw [one]
    exact (BitVec.add_zero r).trans (odd (.inl (by rw [← low, one]; rfl)))
  · have rest : x.toNat % 4 = 2 := by rw [← low, two]; rfl
    have sum : (r + 1#32).toNat = r.toNat + 1 := by bv_omega
    rw [two]
    refine BitVec.eq_of_toNat_eq (ctz_unique (m := x.toNat / 4) some ?_).symm
    show a.toNat = _ * 2 ^ (r + 1#32).toNat
    rw [value, sum, Nat.pow_succ, Nat.mul_comm (2 ^ r.toNat), ← Nat.mul_assoc]
    congr 1
    omega
  · rw [three]
    exact (BitVec.add_zero r).trans (odd (.inr (by rw [← low, three]; rfl)))

theorem ctzsi2_eq {a : BitVec 32} (some : a ≠ 0#32) : ctzsi2 a = a.ctz := by
  have start : Trails a a 0#32 (2 * 16) :=
    ⟨by decide, (Nat.mul_one _).symm, by
      rw [Nat.mod_eq_of_lt a.isLt]
      exact fun none => some (BitVec.eq_of_toNat_eq none)⟩
  have half : Trails a _ _ (2 * 8) := start.halve (k := 4) 0x0000FFFF#32 rfl rfl
  have quarter : Trails a _ _ (2 * 4) := half.halve (k := 3) 0x00FF#32 rfl rfl
  have eighth : Trails a _ _ (2 * 2) := quarter.halve (k := 2) 0x0F#32 rfl rfl
  have last : Trails a _ _ 2 := eighth.halve (k := 1) 0x3#32 rfl rfl
  rw [← last.ctz, ctzsi2, BitVec.zero_add]

/-- `a` is an odd number of times `2 ^ ctz`. -/
theorem ctz_split {w : Nat} {a : BitVec w} (some : a ≠ 0#w) :
    ∃ m, a.toNat = (2 * m + 1) * 2 ^ a.ctz.toNat := by
  generalize count : a.ctz.toNat = c
  have low : a.toNat % 2 ^ c = 0 := by
    apply Nat.eq_of_testBit_eq
    intro i
    rw [Nat.testBit_mod_two_pow, Nat.zero_testBit, Bool.and_eq_false_iff]
    rcases Nat.lt_or_ge i c with below | above
    · exact .inr (BitVec.getLsbD_false_of_lt_ctz (by omega))
    · exact .inl (decide_eq_false (Nat.not_lt_of_le above))
  have set : a.toNat.testBit c = true := by
    rw [BitVec.testBit_toNat, ← count]
    exact BitVec.getLsbD_true_ctz_of_ne_zero some
  rw [Nat.testBit_eq_decide_div_mod_eq, decide_eq_true_iff] at set
  refine ⟨a.toNat / 2 ^ c / 2, ?_⟩
  have odd : 2 * (a.toNat / 2 ^ c / 2) + 1 = a.toNat / 2 ^ c := by omega
  rw [odd, Nat.div_mul_cancel (Nat.dvd_of_mod_eq_zero low)]

theorem ctz_lt {w : Nat} {a : BitVec w} (some : a ≠ 0#w) : a.ctz.toNat < w :=
  (Nat.pow_lt_pow_iff_right (by decide)).mp
    (Nat.lt_of_le_of_lt (BitVec.two_pow_ctz_le_toNat_of_ne_zero some) a.isLt)

/-- The mask `-int b` chooses one of the halves. -/
theorem select (x y : BitVec 32) (b : Bool) :
    ((x &&& -int b) ||| (y &&& ~~~(-int b))) = (if b then x else y) ∧
    -int b &&& 32#32 = if b then 32#32 else 0#32 := by
  have ones : -int true = BitVec.allOnes 32 := rfl
  have zeros : -int false = 0#32 := rfl
  cases b
  · rw [zeros, BitVec.and_zero, BitVec.not_zero, BitVec.and_allOnes, BitVec.zero_or]
    exact ⟨rfl, rfl⟩
  · rw [ones, BitVec.and_allOnes, BitVec.not_allOnes, BitVec.and_zero, BitVec.or_zero]
    exact ⟨rfl, rfl⟩

/-- The bits of the high half place the whole word. -/
theorem wide_bounds {a : BitVec 64} (some : (udwords a).high ≠ 0#32) :
    (udwords a).high.clz.toNat < 32 ∧ 2 ^ (63 - (udwords a).high.clz.toNat) ≤ a.toNat ∧
      a.toNat < 2 ^ (64 - (udwords a).high.clz.toNat) := by
  have split := toNat_all (udwords a)
  rw [udwords_all] at split
  have low := (udwords a).low.isLt
  obtain ⟨inside, below, above⟩ := clz_bounds (by decide) some
  generalize (udwords a).high.clz.toNat = c at *
  have exponents : 63 - c = 32 - 1 - c + 32 ∧ 64 - c = 32 - c + 32 := by omega
  rw [exponents.1, exponents.2, Nat.pow_add, Nat.pow_add 2 (32 - c)]
  omega

theorem clzdi2_eq {a : BitVec 64} (some : a ≠ 0#64) : (clzdi2 a).toNat = a.clz.toNat := by
  have split := toNat_all (udwords a)
  rw [udwords_all] at split
  simp only [clzdi2]
  rw [BitVec.or_comm, (select _ _ _).1, (select 0#32 0#32 _).2]
  by_cases empty : (udwords a).high = 0#32
  · rw [if_pos (beq_iff_eq.mpr empty), if_pos (beq_iff_eq.mpr empty)]
    rw [empty, BitVec.toNat_zero, Nat.zero_mul, Nat.zero_add] at split
    have rest : (udwords a).low ≠ 0#32 := by
      intro none
      rw [none] at split
      exact some (BitVec.eq_of_toNat_eq split)
    obtain ⟨inside, below, above⟩ := clz_bounds (by decide) rest
    rw [clzsi2_eq rest]
    have sum : ((udwords a).low.clz + 32#32).toNat = (udwords a).low.clz.toNat + 32 := by
      bv_omega
    rw [sum]
    generalize (udwords a).low.clz.toNat = c at *
    have exponents : 64 - 1 - (c + 32) = 32 - 1 - c ∧ 64 - (c + 32) = 32 - c := by omega
    exact (clz_unique (by decide) some (by omega) (by rw [exponents.1, split]; exact below)
      (by rw [exponents.2, split]; exact above)).symm
  · rw [if_neg (mt beq_iff_eq.mp empty), if_neg (mt beq_iff_eq.mp empty), BitVec.add_zero,
      clzsi2_eq empty]
    obtain ⟨inside, below, above⟩ := wide_bounds empty
    exact (clz_unique (by decide) some (by omega) below above).symm

theorem ctzdi2_eq {a : BitVec 64} (some : a ≠ 0#64) : (ctzdi2 a).toNat = a.ctz.toNat := by
  have split := toNat_all (udwords a)
  rw [udwords_all] at split
  simp only [ctzdi2]
  rw [(select _ _ _).1, (select 0#32 0#32 _).2]
  by_cases empty : (udwords a).low = 0#32
  · rw [if_pos (beq_iff_eq.mpr empty), if_pos (beq_iff_eq.mpr empty)]
    rw [empty, BitVec.toNat_zero, Nat.add_zero] at split
    have rest : (udwords a).high ≠ 0#32 := by
      intro none
      rw [none] at split
      exact some (BitVec.eq_of_toNat_eq split)
    obtain ⟨m, odd⟩ := ctz_split rest
    have inside := ctz_lt rest
    rw [ctzsi2_eq rest]
    have sum : ((udwords a).high.ctz + 32#32).toNat = (udwords a).high.ctz.toNat + 32 := by
      bv_omega
    rw [sum]
    refine (ctz_unique (m := m) some ?_).symm
    rw [split, odd, Nat.pow_add, Nat.mul_assoc]
  · rw [if_neg (mt beq_iff_eq.mp empty), if_neg (mt beq_iff_eq.mp empty), BitVec.add_zero,
      ctzsi2_eq empty]
    obtain ⟨m, odd⟩ := ctz_split empty
    have inside := ctz_lt empty
    generalize (udwords a).low.ctz.toNat = c at odd inside ⊢
    have whole : 2 ^ 32 = 2 * 2 ^ (31 - c) * 2 ^ c := by
      rw [← Nat.pow_succ', ← Nat.pow_add]
      congr 1
      omega
    refine (ctz_unique (m := (udwords a).high.toNat * 2 ^ (31 - c) + m) some ?_).symm
    rw [split, odd, whole, ← Nat.mul_assoc, ← Nat.add_mul]
    congr 1
    rw [Nat.mul_add, Nat.mul_left_comm, Nat.add_assoc]

end Ysyx.Klib.Int64
