import Ysyx.Am.Libgcc
import Mathlib.Data.BitVec
import Mathlib.Tactic.Ring
import Mathlib.Tactic.Linarith

/-! The routines of libgcc return what the instructions of the M extension are defined to write,
for every pair of operands. -/

set_option autoImplicit false

namespace Ysyx.Am.Libgcc

open Rv32 (Word RegId BranchOp MulOp writeGpr)
open Lib (ByteMem)

variable (base : Word) (mem : ByteMem 32) {gpr gpr' : Regs}

/-!
## Registers
-/

/-- Nothing but the registers of the routines has changed. -/
def Kept (gpr gpr' : Regs) : Prop := ∀ r, r ∉ clobbered → gpr' r = gpr r

theorem Kept.refl (gpr : Regs) : Kept gpr gpr := fun _ _ => rfl

theorem Kept.trans {gpr'' : Regs} (first : Kept gpr gpr') (second : Kept gpr' gpr'') :
    Kept gpr gpr'' := fun r free => (second r free).trans (first r free)

theorem Kept.zero (kept : Kept gpr gpr') (x0 : gpr 0#5 = 0#32) : gpr' 0#5 = 0#32 :=
  (kept 0#5 (by decide)).trans x0

theorem Kept.write (kept : Kept gpr gpr') {rd : RegId} (used : rd ∈ clobbered) (value : Word) :
    Kept gpr (writeGpr gpr' rd value) := by
  intro r free
  have apart : r ≠ rd := fun same => free (same ▸ used)
  exact (writeGpr_of_ne _ _ apart).trans (kept r free)

/-!
## Multiplication
-/

theorem toNat_low_bit (b : Word) : (b &&& 1#32).toNat = b.toNat % 2 := by
  rw [BitVec.toNat_and]
  exact Nat.and_one_is_mod _

/-- One bit of the multiplier. -/
theorem mul_bit (a b : Word) :
    a * b = (if b &&& 1#32 = 0#32 then 0#32 else a) + (a <<< 1) * (b >>> 1) := by
  have halves : b = (b >>> 1) * 2#32 + (b &&& 1#32) := by
    apply BitVec.eq_of_toNat_eq
    rw [BitVec.toNat_add, toNat_low_bit, BitVec.toNat_mul, BitVec.toNat_ushiftRight,
      BitVec.toNat_ofNat, Nat.shiftRight_eq_div_pow]
    have := b.isLt
    omega
  have double : a <<< 1 = a * 2#32 := by
    rw [BitVec.shiftLeft_eq_mul_twoPow]
    rfl
  have bit : a * (b &&& 1#32) = if b &&& 1#32 = 0#32 then 0#32 else a := by
    split
    · rename_i even
      rw [even, BitVec.mul_zero]
    · rename_i odd
      have one : b &&& 1#32 = 1#32 := by
        apply BitVec.eq_of_toNat_eq
        have nonzero : (b &&& 1#32).toNat ≠ 0 := fun none => odd (BitVec.eq_of_toNat_eq none)
        rw [toNat_low_bit] at nonzero ⊢
        change b.toNat % 2 = 1
        omega
      rw [one, BitVec.mul_one]
  calc a * b = a * ((b >>> 1) * 2#32 + (b &&& 1#32)) := by rw [← halves]
    _ = a * (b &&& 1#32) + (a * 2#32) * (b >>> 1) := by ring
    _ = _ := by rw [bit, double]

/-- The body of the loop, up to its test. -/
theorem mulsi3_turn (x0 : gpr 0#5 = 0#32) :
    ∃ gpr', Goes muldi3Text.ops base mem (Listing.index .l2 muldi3Text + 2) gpr'
        (Listing.index .l1 muldi3Text) gpr ∧
      gpr' a0 = gpr a0 + (if gpr a1 &&& 1#32 = 0#32 then 0#32 else gpr a2) ∧
      gpr' a1 = gpr a1 >>> 1 ∧ gpr' a2 = gpr a2 <<< 1 ∧ Kept gpr gpr' := by
  by_cases even : gpr a1 &&& 1#32 = 0#32
  · refine ⟨_, .plain rfl rfl (.taken rfl ?_ (.plain rfl rfl (.plain rfl rfl .refl))), ?_⟩
    · simp [Op.effect, writeGpr, a1, a3, zero, Rv32.AluOp.eval, BranchOp.taken, x0] at even ⊢
      exact even
    · rw [if_pos even]
      refine ⟨?_, ?_, ?_, ?_⟩
      · simp [Op.effect, writeGpr, a0, a1, a2, a3]
      · simp [Op.effect, writeGpr, a1, a2, a3, Rv32.AluOp.eval]
      · simp [Op.effect, writeGpr, a1, a2, a3, Rv32.AluOp.eval]
      · exact (((Kept.refl gpr).write (by decide) _).write (by decide) _).write (by decide) _
  · refine ⟨_, .plain rfl rfl (.skip rfl ?_ (.plain rfl rfl (.plain rfl rfl (.plain rfl rfl
      .refl)))), ?_⟩
    · simp [Op.effect, writeGpr, a1, a3, zero, Rv32.AluOp.eval, BranchOp.taken, x0] at even ⊢
      exact even
    · rw [if_neg even]
      refine ⟨?_, ?_, ?_, ?_⟩
      · simp [Op.effect, writeGpr, a0, a1, a2, a3, Rv32.AluOp.eval]
      · simp [Op.effect, writeGpr, a0, a1, a2, a3, Rv32.AluOp.eval]
      · simp [Op.effect, writeGpr, a0, a1, a2, a3, Rv32.AluOp.eval]
      · exact ((((Kept.refl gpr).write (by decide) _).write (by decide) _).write (by decide)
          _).write (by decide) _

theorem mulsi3_loop (x0 : gpr 0#5 = 0#32) :
    ∃ gpr', Goes muldi3Text.ops base mem (Listing.index .l2 muldi3Text + 3) gpr'
        (Listing.index .l1 muldi3Text) gpr ∧
      gpr' a0 = gpr a0 + gpr a2 * gpr a1 ∧ Kept gpr gpr' := by
  obtain ⟨b, same⟩ : ∃ b, (gpr a1).toNat = b := ⟨_, rfl⟩
  induction b using Nat.strong_induction_on generalizing gpr with
  | _ b smaller =>
      obtain ⟨turned, turn, acc, rest, addend, kept⟩ := mulsi3_turn base mem x0
      have zero' := kept.zero x0
      have product : turned a0 + turned a2 * turned a1 = gpr a0 + gpr a2 * gpr a1 := by
        rw [acc, rest, addend, mul_bit (gpr a2), BitVec.add_assoc]
      by_cases done : turned a1 = 0#32
      · refine ⟨turned, turn.trans (.skip rfl ?_ .refl), ?_, kept⟩
        · rw [BranchOp.taken, done, zero, zero']
          rfl
        · rw [← product, done, BitVec.mul_zero, BitVec.add_zero]
      · have less : (turned a1).toNat < b := by
          have some : (turned a1).toNat ≠ 0 := fun none => done (BitVec.eq_of_toNat_eq none)
          rw [rest, BitVec.toNat_ushiftRight, Nat.shiftRight_eq_div_pow, same] at some ⊢
          omega
        obtain ⟨gpr', goes, result, kept'⟩ := smaller _ less zero' rfl
        refine ⟨gpr', turn.trans (.taken rfl ?_ goes), result.trans product, kept.trans kept'⟩
        rw [BranchOp.taken, zero, zero']
        exact bne_iff_ne.mpr done

theorem mulsi3_goes (x0 : gpr 0#5 = 0#32) :
    ∃ gpr', Goes muldi3Text.ops base mem (Listing.index .l2 muldi3Text + 3) gpr'
        (Listing.index .mulsi3 muldi3Text) gpr ∧
      gpr' a0 = gpr a0 * gpr a1 ∧ Kept gpr gpr' := by
  obtain ⟨ready, setup, clear, rest, addend, kept⟩ :
      ∃ ready, Goes muldi3Text.ops base mem (Listing.index .l1 muldi3Text) ready
          (Listing.index .mulsi3 muldi3Text) gpr ∧
        ready a0 = 0#32 ∧ ready a1 = gpr a1 ∧ ready a2 = gpr a0 ∧ Kept gpr ready := by
    refine ⟨_, .plain rfl rfl (.plain rfl rfl .refl), ?_, ?_, ?_, ?_⟩
    · simp [Op.effect, addi, writeGpr, a0, a2, zero, x0, Rv32.AluOp.eval]
    · simp [Op.effect, addi, writeGpr, a0, a1, a2]
    · simp [Op.effect, addi, writeGpr, a0, a2, Rv32.AluOp.eval]
    · exact ((Kept.refl gpr).write (by decide) _).write (by decide) _
  obtain ⟨gpr', goes, result, kept'⟩ := mulsi3_loop base mem (kept.zero x0)
  refine ⟨gpr', setup.trans goes, ?_, kept.trans kept'⟩
  rw [result, clear, rest, addend, BitVec.zero_add]

/-!
## Division
-/

/-- The divisor `d`, shifted by `k`, and the bit of the quotient it stands for. -/
structure Scaled (d k : Nat) (gpr : Regs) : Prop where
  divisor : (gpr a2).toNat = d * 2 ^ k
  bit : (gpr a3).toNat = 2 ^ k

theorem bge_zero_taken {a : Word} (positive : 0 < a.toNat) :
    BranchOp.bge.taken 0#32 a = decide (2 ^ 31 ≤ a.toNat) := by
  have := a.isLt
  rw [BranchOp.taken, BitVec.slt_eq_decide, BitVec.toInt_zero, BitVec.toInt_eq_toNat_cond,
    ← decide_not]
  congr 1
  apply propext
  split <;> omega

theorem toNat_double {a : Word} (fits : 2 * a.toNat < 2 ^ 32) : (a <<< 1).toNat = 2 * a.toNat := by
  rw [BitVec.toNat_shiftLeft, Nat.shiftLeft_eq, Nat.mod_eq_of_lt (by omega)]
  omega

theorem toNat_half (a : Word) : (a >>> 1).toNat = a.toNat / 2 := by
  rw [BitVec.toNat_ushiftRight, Nat.shiftRight_eq_div_pow, Nat.pow_one]

/-- The first loop shifts the divisor up until twice it is more than the dividend. -/
theorem scale {d k : Nat} (positive : 0 < d) (scaled : Scaled d k gpr) (x0 : gpr 0#5 = 0#32) :
    ∃ k' gpr', Goes divText.ops base mem (Listing.index .l2 divText) gpr'
        (Listing.index .l1 divText) gpr ∧
      Scaled d k' gpr' ∧ (gpr a1).toNat < 2 * (d * 2 ^ k') ∧ gpr' a1 = gpr a1 ∧
      Kept gpr gpr' := by
  obtain ⟨room, same⟩ : ∃ room, 2 ^ 32 - (gpr a2).toNat = room := ⟨_, rfl⟩
  induction room using Nat.strong_induction_on generalizing k gpr with
  | _ room smaller =>
      have bound := (gpr a1).isLt
      have nonzero : 0 < (gpr a2).toNat := by
        rw [scaled.divisor]
        exact Nat.mul_pos positive (Nat.two_pow_pos k)
      by_cases large : 2 ^ 31 ≤ (gpr a2).toNat
      · refine ⟨k, gpr, .taken rfl ?_ .refl, scaled, ?_, rfl, .refl gpr⟩
        · rw [zero, x0, bge_zero_taken nonzero]
          exact decide_eq_true large
        · rw [← scaled.divisor]
          omega
      · obtain ⟨shifted, goes, dividend, divisor, bit, kept⟩ :
            ∃ shifted, Goes divText.ops base mem (Listing.index .l1 divText + 3) shifted
                (Listing.index .l1 divText) gpr ∧
              shifted a1 = gpr a1 ∧ shifted a2 = gpr a2 <<< 1 ∧ shifted a3 = gpr a3 <<< 1 ∧
              Kept gpr shifted := by
          refine ⟨_, .skip rfl ?_ (.plain rfl rfl (.plain rfl rfl .refl)), ?_, ?_, ?_, ?_⟩
          · rw [zero, x0, bge_zero_taken nonzero]
            exact decide_eq_false large
          · simp [Op.effect, writeGpr, a1, a2, a3]
          · simp [Op.effect, writeGpr, a2, a3, Rv32.AluOp.eval]
          · simp [Op.effect, writeGpr, a2, a3, Rv32.AluOp.eval]
          · exact ((Kept.refl gpr).write (by decide) _).write (by decide) _
        have le : (gpr a3).toNat ≤ (gpr a2).toNat := by
          rw [scaled.bit, scaled.divisor]
          exact Nat.le_mul_of_pos_left _ positive
        have scaled' : Scaled d (k + 1) shifted := by
          refine ⟨?_, ?_⟩
          · rw [divisor, toNat_double (by omega), scaled.divisor, Nat.pow_succ]
            ring
          · rw [bit, toNat_double (by omega), scaled.bit, Nat.pow_succ]
            ring
        have grown : (shifted a2).toNat = 2 * (gpr a2).toNat := by
          rw [divisor, toNat_double (by omega)]
        by_cases again : (shifted a2).toNat < (shifted a1).toNat
        · obtain ⟨k', gpr', more, done, stops, kept1, kept'⟩ :=
            smaller _ (by omega) scaled' (kept.zero x0) rfl
          refine ⟨k', gpr', goes.trans (.taken rfl ?_ more), done, dividend ▸ stops,
            kept1.trans dividend, kept.trans kept'⟩
          exact decide_eq_true again
        · refine ⟨k + 1, shifted, goes.trans (.skip rfl ?_ .refl), scaled', ?_, dividend, kept⟩
          · exact decide_eq_false again
          · rw [← scaled'.divisor, ← dividend]
            omega

/-- Before turn `k` of the second loop, counted down: what is left is less than twice the
shifted divisor, and only higher bits of the quotient are set. -/
structure Dividing (n d k : Nat) (gpr : Regs) : Prop extends Scaled d k gpr where
  parts : (gpr a0).toNat * d + (gpr a1).toNat = n
  left : (gpr a1).toNat < 2 * (d * 2 ^ k)
  high : 2 ^ (k + 1) ∣ (gpr a0).toNat

/-- A bit that is not set yet. -/
theorem toNat_or_bit {q bit : Word} {k : Nat} (high : 2 ^ (k + 1) ∣ q.toNat)
    (single : bit.toNat = 2 ^ k) : (q ||| bit).toNat = q.toNat + 2 ^ k := by
  obtain ⟨c, multiple⟩ := high
  have smaller : 2 ^ k < 2 ^ (k + 1) := Nat.pow_lt_pow_right (by decide) (Nat.lt_succ_self k)
  rw [BitVec.toNat_or, single, multiple, Nat.two_pow_add_eq_or_of_lt smaller]

/-- The body of the second loop, up to its test. -/
theorem udivsi3_turn {n d k : Nat} (dividing : Dividing n d k gpr) :
    ∃ turned, Goes divText.ops base mem (Listing.index .l4 divText + 2) turned
        (Listing.index .l3 divText) gpr ∧
      (turned a0).toNat * d + (turned a1).toNat = n ∧ (turned a1).toNat < d * 2 ^ k ∧
      2 ^ k ∣ (turned a0).toNat ∧ (turned a2).toNat = d * 2 ^ k / 2 ∧
      (turned a3).toNat = 2 ^ k / 2 ∧ Kept gpr turned := by
  have parts := dividing.parts
  have left := dividing.left
  have lower : 2 ^ k ∣ (gpr a0).toNat := (Nat.pow_dvd_pow 2 (Nat.le_succ k)).trans dividing.high
  by_cases less : (gpr a1).toNat < (gpr a2).toNat
  · refine ⟨_, .taken rfl (decide_eq_true less) (.plain rfl rfl (.plain rfl rfl .refl)), ?_, ?_,
      ?_, ?_, ?_, ?_⟩
    · simpa [Op.effect, writeGpr, a0, a1, a2, a3] using parts
    · simpa [Op.effect, writeGpr, a1, a2, a3, ← dividing.divisor] using less
    · simpa [Op.effect, writeGpr, a0, a2, a3] using lower
    · rw [← dividing.divisor, ← toNat_half]
      simp [Op.effect, writeGpr, a2, a3, Rv32.AluOp.eval]
    · rw [← dividing.bit, ← toNat_half]
      simp [Op.effect, writeGpr, a2, a3, Rv32.AluOp.eval]
    · exact ((Kept.refl gpr).write (by decide) _).write (by decide) _
  · have rest : (gpr a1 - gpr a2).toNat = (gpr a1).toNat - d * 2 ^ k := by
      rw [BitVec.toNat_sub_of_le (Nat.le_of_not_lt less), dividing.divisor]
    have quotient := toNat_or_bit dividing.high dividing.bit
    have fits : d * 2 ^ k ≤ (gpr a1).toNat := dividing.divisor ▸ Nat.le_of_not_lt less
    refine ⟨_, .skip rfl (decide_eq_false less) (.plain rfl rfl (.plain rfl rfl (.plain rfl rfl
      (.plain rfl rfl .refl)))), ?_, ?_, ?_, ?_, ?_, ?_⟩
    · have regs : ((gpr a0 ||| gpr a3).toNat) * d + (gpr a1 - gpr a2).toNat = n := by
        rw [quotient, rest, Nat.add_mul, Nat.mul_comm (2 ^ k)]
        omega
      simpa [Op.effect, writeGpr, a0, a1, a2, a3, Rv32.AluOp.eval] using regs
    · have regs : (gpr a1 - gpr a2).toNat < d * 2 ^ k := by
        rw [rest]
        omega
      simpa [Op.effect, writeGpr, a0, a1, a2, a3, Rv32.AluOp.eval] using regs
    · have regs : 2 ^ k ∣ (gpr a0 ||| gpr a3).toNat := by
        rw [quotient]
        exact Nat.dvd_add lower (Nat.dvd_refl _)
      simpa [Op.effect, writeGpr, a0, a1, a2, a3, Rv32.AluOp.eval] using regs
    · rw [← dividing.divisor, ← toNat_half]
      simp [Op.effect, writeGpr, a0, a1, a2, a3, Rv32.AluOp.eval]
    · rw [← dividing.bit, ← toNat_half]
      simp [Op.effect, writeGpr, a0, a1, a2, a3, Rv32.AluOp.eval]
    · exact ((((Kept.refl gpr).write (by decide) _).write (by decide) _).write (by decide)
        _).write (by decide) _

/-- The second loop takes one bit of the quotient in each turn. -/
theorem udivsi3_loop {n d k : Nat} (dividing : Dividing n d k gpr) (x0 : gpr 0#5 = 0#32) :
    ∃ gpr', Goes divText.ops base mem (Listing.index .l5 divText) gpr'
        (Listing.index .l3 divText) gpr ∧
      (gpr' a0).toNat * d + (gpr' a1).toNat = n ∧ (gpr' a1).toNat < d ∧ Kept gpr gpr' := by
  induction k generalizing gpr with
  | zero =>
      obtain ⟨turned, turn, parts, left, _, _, bit, kept⟩ :=
        udivsi3_turn base mem dividing
      refine ⟨turned, turn.trans (.skip rfl ?_ .refl), parts, by rwa [Nat.pow_zero,
        Nat.mul_one] at left, kept⟩
      have last : turned a3 = 0#32 := BitVec.eq_of_toNat_eq bit
      rw [BranchOp.taken, last, zero, kept.zero x0]
      rfl
  | succ k ih =>
      obtain ⟨turned, turn, parts, left, high, divisor, bit, kept⟩ :=
        udivsi3_turn base mem dividing
      have halfBit : 2 ^ (k + 1) / 2 = 2 ^ k := by
        rw [Nat.pow_succ, Nat.mul_div_cancel _ (by decide)]
      have halfDivisor : d * 2 ^ (k + 1) / 2 = d * 2 ^ k := by
        rw [Nat.pow_succ, ← Nat.mul_assoc, Nat.mul_div_cancel _ (by decide)]
      have next : Dividing n d k turned :=
        { divisor := divisor.trans halfDivisor
          bit := bit.trans halfBit
          parts := parts
          left := by
            rw [Nat.pow_succ] at left
            linarith
          high := high }
      obtain ⟨gpr', goes, parts', left', kept'⟩ := ih next (kept.zero x0)
      refine ⟨gpr', turn.trans (.taken rfl ?_ goes), parts', left', kept.trans kept'⟩
      have more : turned a3 ≠ 0#32 := by
        intro none
        have positive := Nat.two_pow_pos k
        rw [none, halfBit] at bit
        exact absurd bit.symm (Nat.ne_of_gt positive)
      rw [BranchOp.taken, zero, kept.zero x0]
      exact bne_iff_ne.mpr more

theorem eval_divu_remu {a b q r : Word} (parts : q.toNat * b.toNat + r.toNat = a.toNat)
    (left : r.toNat < b.toNat) : q = MulOp.divu.eval a b ∧ r = MulOp.remu.eval a b := by
  have positive : 0 < b.toNat := by omega
  have nonzero : b ≠ 0#32 := fun none => by simp [none] at positive
  have quotient : a.toNat / b.toNat = q.toNat := by
    rw [← parts, Nat.mul_comm, Nat.mul_add_div positive, Nat.div_eq_of_lt left, Nat.add_zero]
  have rest : a.toNat % b.toNat = r.toNat := by
    rw [← parts, Nat.mul_comm, Nat.mul_add_mod, Nat.mod_eq_of_lt left]
  simp only [MulOp.eval, nonzero, if_false, quotient, rest, BitVec.ofNat_toNat,
    BitVec.setWidth_eq, and_self]

/-- What the unsigned division leaves in the registers. -/
structure Divided (gpr gpr' : Regs) : Prop where
  quotient : gpr' a0 = MulOp.divu.eval (gpr a0) (gpr a1)
  rest : gpr' a1 = MulOp.remu.eval (gpr a0) (gpr a1)
  kept : Kept gpr gpr'

theorem udivsi3_goes (x0 : gpr 0#5 = 0#32) :
    ∃ gpr', Goes divText.ops base mem (Listing.index .l5 divText) gpr'
        (Listing.index .udivsi3 divText) gpr ∧ Divided gpr gpr' := by
  obtain ⟨moved, moves, all, dividend, divisor, kept⟩ :
      ∃ moved, Goes divText.ops base mem (Listing.index .udivsi3 divText + 3) moved
          (Listing.index .udivsi3 divText) gpr ∧
        moved a0 = BitVec.allOnes 32 ∧ moved a1 = gpr a0 ∧ moved a2 = gpr a1 ∧
        Kept gpr moved := by
    refine ⟨_, .plain rfl rfl (.plain rfl rfl (.plain rfl rfl .refl)), ?_, ?_, ?_, ?_⟩
    · simp [Op.effect, addi, writeGpr, a0, a1, a2, zero, x0, Rv32.AluOp.eval]
    · simp [Op.effect, addi, writeGpr, a0, a1, a2, Rv32.AluOp.eval]
    · simp [Op.effect, addi, writeGpr, a0, a1, a2, Rv32.AluOp.eval]
    · exact (((Kept.refl gpr).write (by decide) _).write (by decide) _).write (by decide) _
  have zero' := kept.zero x0
  by_cases none : gpr a1 = 0#32
  · refine ⟨moved, moves.trans (.taken rfl ?_ .refl), ⟨?_, ?_, kept⟩⟩
    · rw [BranchOp.taken, divisor, none, zero, zero']
      rfl
    · rw [all, none]
      rfl
    · rw [dividend, none]
      rfl
  · have positive : 0 < (gpr a1).toNat := by
      have nonzero : (gpr a1).toNat ≠ 0 := fun same => none (BitVec.eq_of_toNat_eq same)
      omega
    obtain ⟨ready, sets, one, same1, same2, kept1⟩ :
        ∃ ready, Goes divText.ops base mem (Listing.index .udivsi3 divText + 5) ready
            (Listing.index .udivsi3 divText + 3) moved ∧
          ready a3 = 1#32 ∧ ready a1 = moved a1 ∧ ready a2 = moved a2 ∧ Kept moved ready := by
      refine ⟨_, .skip rfl ?_ (.plain rfl rfl .refl), ?_, ?_, ?_, ?_⟩
      · rw [BranchOp.taken, divisor, zero, zero']
        exact beq_eq_false_iff_ne.mpr none
      · simp [Op.effect, addi, writeGpr, a3, zero, zero', Rv32.AluOp.eval]
      · simp [Op.effect, addi, writeGpr, a1, a3]
      · simp [Op.effect, addi, writeGpr, a2, a3]
      · exact (Kept.refl moved).write (by decide) _
    have kept2 := kept.trans kept1
    have first : Scaled (gpr a1).toNat 0 ready := by
      refine ⟨?_, ?_⟩
      · rw [same2, divisor, Nat.pow_zero, Nat.mul_one]
      · rw [one]
        rfl
    obtain ⟨k, scaled, scales, up, stops, same, kept3⟩ :
        ∃ k scaled, Goes divText.ops base mem (Listing.index .l2 divText) scaled
            (Listing.index .udivsi3 divText + 5) ready ∧
          Scaled (gpr a1).toNat k scaled ∧ (ready a1).toNat < 2 * ((gpr a1).toNat * 2 ^ k) ∧
          scaled a1 = ready a1 ∧ Kept ready scaled := by
      by_cases small : (ready a2).toNat < (ready a1).toNat
      · obtain ⟨k, scaled, goes, facts⟩ := scale base mem positive first
          (kept2.zero x0)
        refine ⟨k, scaled, .skip rfl ?_ goes, facts⟩
        rw [BranchOp.taken, BitVec.ult, decide_eq_true small]
        rfl
      · refine ⟨0, ready, .taken rfl ?_ .refl, first, ?_, rfl, .refl ready⟩
        · rw [BranchOp.taken, BitVec.ult, decide_eq_false small]
          rfl
        · rw [← first.divisor]
          rw [same2, divisor] at small ⊢
          omega
    have kept4 := kept2.trans kept3
    obtain ⟨begun, begins, clear, same1', same2', same3', kept5⟩ :
        ∃ begun, Goes divText.ops base mem (Listing.index .l3 divText) begun
            (Listing.index .l2 divText) scaled ∧
          begun a0 = 0#32 ∧ begun a1 = scaled a1 ∧ begun a2 = scaled a2 ∧ begun a3 = scaled a3 ∧
          Kept scaled begun := by
      refine ⟨_, .plain rfl rfl .refl, ?_, ?_, ?_, ?_, ?_⟩
      · simp [Op.effect, addi, writeGpr, a0, zero, kept4.zero x0, Rv32.AluOp.eval]
      · simp [Op.effect, addi, writeGpr, a0, a1]
      · simp [Op.effect, addi, writeGpr, a0, a2]
      · simp [Op.effect, addi, writeGpr, a0, a3]
      · exact (Kept.refl scaled).write (by decide) _
    have dividing : Dividing (gpr a0).toNat (gpr a1).toNat k begun :=
      { divisor := by rw [same2', up.divisor]
        bit := by rw [same3', up.bit]
        parts := by
          rw [clear, same1', same, same1, dividend]
          simp
        left := by rw [same1', same]; exact stops
        high := by
          rw [clear]
          exact Nat.dvd_zero _ }
    obtain ⟨gpr', goes, parts, left, kept6⟩ := udivsi3_loop base mem dividing
      ((kept4.trans kept5).zero x0)
    obtain ⟨quotient, rest⟩ := eval_divu_remu parts left
    exact ⟨gpr', moves.trans (sets.trans (scales.trans (begins.trans goes))), quotient, rest,
      (kept4.trans kept5).trans kept6⟩

/-!
## Signs
-/

theorem eval_divu (a b : Word) :
    MulOp.divu.eval a b = if b = 0#32 then BitVec.allOnes 32 else a / b := by
  split
  · rename_i none
    rw [none]
    rfl
  · rename_i some
    exact (Rv32.udiv_eq_eval some).symm

theorem eval_remu (a b : Word) : MulOp.remu.eval a b = a % b := by
  by_cases none : b = 0#32
  · rw [none, BitVec.umod_zero]
    rfl
  · exact (Rv32.umod_eq_eval none).symm

/-- Zero counts as negative, so that the quotient of all ones is not negated. -/
theorem eval_div (a b : Word) :
    MulOp.div.eval a b =
      if a.msb then
        if b.msb ∨ b = 0#32 then MulOp.divu.eval (-a) (-b) else -MulOp.divu.eval (-a) b
      else if b.msb then -MulOp.divu.eval a (-b) else MulOp.divu.eval a b := by
  by_cases none : b = 0#32
  · subst none
    cases a.msb <;> rfl
  · have opposite : -b ≠ 0#32 := fun same => none (BitVec.neg_eq_zero_iff.mp same)
    rw [← Rv32.sdiv_eq_eval none, BitVec.sdiv_eq]
    cases a.msb <;> cases b.msb <;> simp [eval_divu, none, opposite]

theorem eval_rem (a b : Word) :
    MulOp.rem.eval a b =
      if a.msb then -MulOp.remu.eval (-a) (if b.msb then -b else b)
      else MulOp.remu.eval a (if b.msb then -b else b) := by
  simp only [eval_remu]
  by_cases none : b = 0#32
  · subst none
    cases sign : a.msb <;> simp [MulOp.eval]
  · rw [← Rv32.srem_eq_eval none, BitVec.srem_eq]
    cases a.msb <;> cases b.msb <;> rfl

theorem bltz_taken (a : Word) : BranchOp.blt.taken a 0#32 = a.msb := BitVec.slt_zero_eq_msb

theorem bgez_taken (a : Word) : BranchOp.bge.taken a 0#32 = !a.msb :=
  congrArg not BitVec.slt_zero_eq_msb

theorem bgtz_taken (a : Word) :
    BranchOp.blt.taken 0#32 a = !decide (a.msb = true ∨ a = 0#32) := by
  have := a.isLt
  have none : a = 0#32 ↔ a.toNat = 0 := by rw [← BitVec.toNat_inj]; rfl
  rw [BranchOp.taken, BitVec.slt_eq_decide, BitVec.toInt_zero, BitVec.toInt_eq_toNat_cond,
    ← decide_not]
  congr 1
  apply propext
  rw [none, BitVec.msb_eq_decide, decide_eq_true_eq]
  split <;> omega

/-!
## Calls
-/

/-- A call of the unsigned division comes back behind the call. -/
structure Called.Back (gpr gpr' : Regs) : Prop where
  quotient : gpr' a0 = MulOp.divu.eval (gpr a0) (gpr a1)
  rest : gpr' a1 = MulOp.remu.eval (gpr a0) (gpr a1)
  kept : ∀ r, r ∉ clobbered → r ≠ ra → gpr' r = gpr r

theorem call_udivsi3 {k : Nat} (x0 : gpr 0#5 = 0#32)
    (found : divText.ops[k]? = some (.base (.jal ra
      (Listing.distance k (Listing.index .udivsi3 divText))))) :
    ∃ gpr', Goes divText.ops base mem (k + 1) gpr' k gpr ∧ Called.Back gpr gpr' := by
  have x0' : writeGpr gpr ra (place base (k + 1)) 0#5 = 0#32 := Rv32.writeGpr_zero x0 _ _
  obtain ⟨divided, goes, facts⟩ := udivsi3_goes base mem x0'
  have link : divided ra = place base (k + 1) :=
    (facts.kept ra (by decide)).trans (writeGpr_same _ _ (by decide))
  refine ⟨_, .jump found (goes.trans (.back rfl link .refl)), ?_, ?_, fun r free other => ?_⟩
  all_goals rw [Rv32.writeGpr_x0 (facts.kept.zero x0')]
  · exact facts.quotient
  · exact facts.rest
  · exact (facts.kept r free).trans (writeGpr_of_ne _ _ other)

/-- A routine before its last jump, through the register `link`. -/
structure Done (op : MulOp) (link : RegId) (gpr gpr' : Regs) : Prop where
  result : gpr' a0 = op.eval (gpr a0) (gpr a1)
  link : gpr' link = gpr ra
  kept : ∀ r, r ∉ clobbered → r ≠ t0 → r ≠ ra → gpr' r = gpr r

theorem Divided.done (divided : Divided gpr gpr') : Done .divu ra gpr gpr' :=
  ⟨divided.quotient, divided.kept ra (by decide), fun r free _ _ => divided.kept r free⟩

/-- The call, and the instruction behind it that makes the result of quotient and remainder. -/
theorem call_then {k : Nat} {op : Op} (value : Word → Word → Word) (x0 : gpr 0#5 = 0#32)
    (call : divText.ops[k]? = some (.base (.jal ra
      (Listing.distance k (Listing.index .udivsi3 divText)))))
    (found : divText.ops[k + 1]? = some op) (plain : op.plain = true)
    (effect : ∀ gpr : Regs, gpr 0#5 = 0#32 →
      op.effect mem gpr = writeGpr gpr a0 (value (gpr a0) (gpr a1))) :
    ∃ gpr', Goes divText.ops base mem (k + 2) gpr' k gpr ∧
      gpr' a0 = value (MulOp.divu.eval (gpr a0) (gpr a1)) (MulOp.remu.eval (gpr a0) (gpr a1)) ∧
      ∀ r, r ∉ clobbered → r ≠ ra → gpr' r = gpr r := by
  obtain ⟨divided, goes, facts⟩ := call_udivsi3 base mem x0 call
  have zero' : divided 0#5 = 0#32 := (facts.kept 0#5 (by decide) (by decide)).trans x0
  refine ⟨_, goes.trans (.plain found plain .refl), ?_, fun r free other => ?_⟩
  all_goals rw [effect divided zero']
  · rw [writeGpr_same _ _ (by decide), facts.quotient, facts.rest]
  · have apart : r ≠ a0 := fun same => free (same ▸ by decide)
    exact (writeGpr_of_ne _ _ apart).trans (facts.kept r free other)

theorem effect_mv (gpr : Regs) (rd rs : RegId) :
    (addi rd rs 0).effect mem gpr = writeGpr gpr rd (gpr rs) :=
  congrArg (writeGpr gpr rd) (BitVec.add_zero _)

theorem effect_neg (x0 : gpr 0#5 = 0#32) (rd rs : RegId) :
    (Op.base (.opReg .sub rd zero rs)).effect mem gpr = writeGpr gpr rd (-gpr rs) := by
  simp [Op.effect, zero, x0, Rv32.AluOp.eval]

/-- What a routine keeps when it calls another. -/
def Framed (gpr gpr' : Regs) : Prop :=
  ∀ r, r ∉ clobbered → r ≠ t0 → r ≠ ra → gpr' r = gpr r

/-- `move t0, ra`, the call, and the instruction that makes the result. -/
theorem linked_call {k : Nat} {op : Op} (value : Word → Word → Word) (x0 : gpr 0#5 = 0#32)
    (move : divText.ops[k]? = some (addi t0 ra 0))
    (call : divText.ops[k + 1]? = some (.base (.jal ra
      (Listing.distance (k + 1) (Listing.index .udivsi3 divText)))))
    (found : divText.ops[k + 2]? = some op) (plain : op.plain = true)
    (effect : ∀ gpr : Regs, gpr 0#5 = 0#32 →
      op.effect mem gpr = writeGpr gpr a0 (value (gpr a0) (gpr a1))) :
    ∃ gpr', Goes divText.ops base mem (k + 3) gpr' k gpr ∧
      gpr' a0 = value (MulOp.divu.eval (gpr a0) (gpr a1)) (MulOp.remu.eval (gpr a0) (gpr a1)) ∧
      gpr' t0 = gpr ra ∧ Framed gpr gpr' := by
  obtain ⟨gpr', goes, result, kept⟩ := call_then base mem value
    (Rv32.writeGpr_zero x0 t0 (gpr ra)) call found plain effect
  refine ⟨gpr', .plain move rfl (effect_mv mem gpr t0 ra ▸ goes), result, ?_,
    fun r free other other' => ?_⟩
  · exact (kept t0 (by decide) (by decide)).trans (writeGpr_same _ _ (by decide))
  · exact (kept r free other').trans (writeGpr_of_ne _ _ other)

/-- A routine runs to a last jump with its result. -/
def Completes (base : Word) (mem : ByteMem 32) (routine : Routine) (gpr : Regs) : Prop :=
  ∃ k link gpr', routine.text.ops[k]? = some (.base (.jalr 0#5 link 0#32)) ∧
    Goes routine.text.ops base mem k gpr' (Listing.index routine.label routine.text) gpr ∧
    Done routine.op link gpr gpr'

theorem mulsi3_completes (x0 : gpr 0#5 = 0#32) : Completes base mem .mulsi3 gpr := by
  obtain ⟨gpr', goes, product, kept⟩ := mulsi3_goes base mem x0
  refine ⟨_, ra, gpr', rfl, goes, ?_, kept ra (by decide), fun r free _ _ => kept r free⟩
  rw [product, Routine.op, MulOp.eval, BitVec.ofInt_mul, BitVec.ofInt_toInt, BitVec.ofInt_toInt]

theorem udivsi3_completes (x0 : gpr 0#5 = 0#32) : Completes base mem .udivsi3 gpr := by
  obtain ⟨gpr', goes, divided⟩ := udivsi3_goes base mem x0
  exact ⟨_, ra, gpr', rfl, goes, divided.done⟩

theorem umodsi3_completes (x0 : gpr 0#5 = 0#32) : Completes base mem .umodsi3 gpr := by
  obtain ⟨gpr', goes, result, link, framed⟩ := linked_call base mem
    (fun _ rest => rest) (k := Listing.index .umodsi3 divText) x0 rfl rfl rfl rfl
    fun gpr _ => effect_mv mem gpr a0 a1
  exact ⟨_, t0, gpr', rfl, goes, result, link, framed⟩

/-- From `.L12` on: the negated quotient. -/
theorem l12_goes (x0 : gpr 0#5 = 0#32) :
    ∃ gpr', Goes divText.ops base mem (Listing.index .l12 divText + 3) gpr'
        (Listing.index .l12 divText) gpr ∧
      gpr' a0 = -MulOp.divu.eval (gpr a0) (gpr a1) ∧ gpr' t0 = gpr ra ∧ Framed gpr gpr' :=
  linked_call base mem (fun quotient _ => -quotient) x0 rfl rfl rfl rfl fun _ zero' =>
    effect_neg mem zero' a0 a0

section Steps

variable {k n : Nat} (x0 : gpr 0#5 = 0#32)
include x0

theorem goes_neg {rd rs : RegId} (found : divText.ops[k]? = some (.base (.opReg .sub rd zero rs)))
    (next : Goes divText.ops base mem n gpr' (k + 1) (writeGpr gpr rd (-gpr rs))) :
    Goes divText.ops base mem n gpr' k gpr := by
  refine .plain found rfl ?_
  rw [effect_neg mem x0]
  exact next

theorem goes_j {target : Nat}
    (found : divText.ops[k]? = some (.base (.jal zero (Listing.distance k target))))
    (next : Goes divText.ops base mem n gpr' target gpr) :
    Goes divText.ops base mem n gpr' k gpr := by
  refine .jump found ?_
  rw [zero, Rv32.writeGpr_x0 x0]
  exact next

/-- A negative dividend: its absolute value is divided, by minus the divisor unless the divisor
is positive. -/
theorem divsi3_l10 (negative : (gpr a0).msb = true) : Completes base mem .divsi3 gpr := by
  have value := eval_div (gpr a0) (gpr a1)
  rw [if_pos negative] at value
  have entry : BranchOp.blt.taken (gpr a0) (gpr zero) = true := by
    rw [zero, x0, bltz_taken, negative]
  have x0' : writeGpr gpr a0 (-gpr a0) 0#5 = 0#32 := Rv32.writeGpr_zero x0 _ _
  have test := bgtz_taken (gpr a1)
  by_cases positive : (gpr a1).msb = true ∨ gpr a1 = 0#32
  · rw [if_pos positive] at value
    rw [decide_eq_true positive] at test
    have x0'' : writeGpr (writeGpr gpr a0 (-gpr a0)) a1 (-gpr a1) 0#5 = 0#32 :=
      Rv32.writeGpr_zero x0' _ _
    obtain ⟨gpr', goes, divided⟩ := udivsi3_goes base mem x0''
    have path := goes_neg base mem (k := Listing.index .l10 divText) x0 rfl
      (.skip rfl (by rw [zero, x0']; exact test)
        (goes_neg base mem x0' rfl (goes_j base mem x0'' rfl goes)))
    refine ⟨_, ra, gpr', rfl, .taken rfl entry path, ?_, ?_, fun r free _ _ => ?_⟩
    · exact divided.quotient.trans value.symm
    · exact divided.kept ra (by decide)
    · exact (((Kept.refl gpr).write (by decide) _).write (by decide) _).trans divided.kept r free
  · rw [if_neg positive] at value
    rw [decide_eq_false positive] at test
    obtain ⟨gpr', goes, result, link, framed⟩ := l12_goes base mem x0'
    have path := goes_neg base mem (k := Listing.index .l10 divText) x0 rfl
      (.taken rfl (by rw [zero, x0']; exact test) goes)
    refine ⟨_, t0, gpr', rfl, .taken rfl entry path, result.trans value.symm, link,
      fun r free other other' => ?_⟩
    exact (framed r free other other').trans ((Kept.refl gpr).write (by decide) _ r free)

theorem divsi3_completes : Completes base mem .divsi3 gpr := by
  by_cases negative : (gpr a0).msb = true
  · exact divsi3_l10 base mem x0 negative
  · have value := eval_div (gpr a0) (gpr a1)
    rw [if_neg negative] at value
    have entry : BranchOp.blt.taken (gpr a0) (gpr zero) = false := by
      rw [zero, x0, bltz_taken]
      exact eq_false_of_ne_true negative
    have test : BranchOp.blt.taken (gpr a1) (gpr zero) = (gpr a1).msb := by
      rw [zero, x0, bltz_taken]
    by_cases negative' : (gpr a1).msb = true
    · rw [if_pos negative'] at value
      obtain ⟨gpr', goes, result, link, framed⟩ :=
        l12_goes base mem (Rv32.writeGpr_zero x0 a1 (-gpr a1))
      have path := goes_neg base mem (k := Listing.index .l11 divText) x0 rfl goes
      refine ⟨_, t0, gpr', rfl, .skip rfl entry (.taken rfl (test.trans negative') path),
        result.trans value.symm, link, fun r free other other' => ?_⟩
      exact (framed r free other other').trans ((Kept.refl gpr).write (by decide) _ r free)
    · rw [if_neg negative'] at value
      obtain ⟨gpr', goes, divided⟩ := udivsi3_goes base mem x0
      exact ⟨_, ra, gpr', rfl,
        .skip rfl entry (.skip rfl (test.trans (eq_false_of_ne_true negative')) goes),
        divided.quotient.trans value.symm, divided.done.link, divided.done.kept⟩

/-- From `.L30` or `.L32` on, with the absolute value of the divisor in `a1`. -/
theorem modsi3_end (ready : Regs)
    (goes : Goes divText.ops base mem
      (if (gpr a0).msb then Listing.index .l32 divText else Listing.index .l30 divText) ready
      (Listing.index .modsi3 divText) gpr)
    (dividend : ready a0 = gpr a0)
    (divisor : ready a1 = if (gpr a1).msb then -gpr a1 else gpr a1) (link : ready t0 = gpr ra)
    (framed : Framed gpr ready) : Completes base mem .modsi3 gpr := by
  have value := eval_rem (gpr a0) (gpr a1)
  rw [← divisor, ← dividend] at value
  have zero' : ready 0#5 = 0#32 := (framed 0#5 (by decide) (by decide) (by decide)).trans x0
  by_cases negative : (gpr a0).msb = true
  · rw [dividend, if_pos negative, ← dividend] at value
    rw [if_pos negative] at goes
    obtain ⟨gpr', more, result, kept⟩ := call_then base mem (fun _ rest => -rest)
      (k := Listing.index .l32 divText + 1) (Rv32.writeGpr_zero zero' a0 (-ready a0)) rfl rfl rfl
      fun _ zero'' => effect_neg mem zero'' a0 a1
    refine ⟨_, t0, gpr', rfl, goes.trans (goes_neg base mem zero' rfl more), result.trans ?_, ?_,
      fun r free other other' => ?_⟩
    · rw [Routine.op, ← dividend, value]
      rfl
    · exact (kept t0 (by decide) (by decide)).trans link
    · have same : writeGpr ready a0 (-ready a0) r = ready r :=
        (Kept.refl ready).write (by decide) _ r free
      exact ((kept r free other').trans same).trans (framed r free other other')
  · rw [dividend, if_neg negative, ← dividend] at value
    rw [if_neg negative] at goes
    obtain ⟨gpr', more, result, kept⟩ := call_then base mem (fun _ rest => rest)
      (k := Listing.index .l30 divText) zero' rfl rfl rfl
      fun gpr _ => effect_mv mem gpr a0 a1
    refine ⟨_, t0, gpr', rfl, goes.trans more, result.trans ?_, ?_,
      fun r free other other' => (kept r free other').trans (framed r free other other')⟩
    · rw [Routine.op, ← dividend, value]
    · exact (kept t0 (by decide) (by decide)).trans link

theorem modsi3_completes : Completes base mem .modsi3 gpr := by
  have saved : Goes divText.ops base mem (Listing.index .modsi3 divText + 1)
      (writeGpr gpr t0 (gpr ra)) (Listing.index .modsi3 divText) gpr :=
    .plain rfl rfl (effect_mv mem gpr t0 ra ▸ .refl)
  have zero' : writeGpr gpr t0 (gpr ra) 0#5 = 0#32 := Rv32.writeGpr_zero x0 _ _
  have framed : Framed gpr (writeGpr gpr t0 (gpr ra)) :=
    fun r _ other _ => writeGpr_of_ne _ _ other
  have test1 : BranchOp.blt.taken (writeGpr gpr t0 (gpr ra) a1) (writeGpr gpr t0 (gpr ra) zero) =
      (gpr a1).msb := by
    rw [zero, zero', bltz_taken]
    rfl
  have test0 : BranchOp.blt.taken (writeGpr gpr t0 (gpr ra) a0) (writeGpr gpr t0 (gpr ra) zero) =
      (gpr a0).msb := by
    rw [zero, zero', bltz_taken]
    rfl
  by_cases negative : (gpr a1).msb = true
  · have zero'' : writeGpr (writeGpr gpr t0 (gpr ra)) a1 (-gpr a1) 0#5 = 0#32 :=
      Rv32.writeGpr_zero zero' _ _
    have test : BranchOp.bge.taken (writeGpr (writeGpr gpr t0 (gpr ra)) a1 (-gpr a1) a0)
        (writeGpr (writeGpr gpr t0 (gpr ra)) a1 (-gpr a1) zero) = !(gpr a0).msb := by
      rw [zero, zero'', bgez_taken]
      rfl
    refine modsi3_end base mem x0 (writeGpr (writeGpr gpr t0 (gpr ra)) a1 (-gpr a1))
      (saved.trans (.taken rfl (test1.trans negative) (goes_neg base mem zero' rfl ?_))) rfl ?_ rfl
      fun r free other other' => ?_
    · cases sign : (gpr a0).msb with
      | true => exact .skip rfl (test.trans (by rw [sign]; rfl)) .refl
      | false => exact .taken rfl (test.trans (by rw [sign]; rfl)) .refl
    · rw [if_pos negative]
      rfl
    · exact (((Kept.refl _).write (by decide) _) r free).trans (framed r free other other')
  · refine modsi3_end base mem x0 (writeGpr gpr t0 (gpr ra))
      (saved.trans (.skip rfl (test1.trans (eq_false_of_ne_true negative)) ?_)) rfl ?_ rfl framed
    · cases sign : (gpr a0).msb with
      | true => exact .taken rfl (test0.trans sign) .refl
      | false => exact .skip rfl (test0.trans sign) .refl
    · rw [if_neg negative]
      rfl

theorem routine_completes (routine : Routine) : Completes base mem routine gpr := by
  cases routine with
  | mulsi3 => exact mulsi3_completes base mem x0
  | divsi3 => exact divsi3_completes base mem x0
  | udivsi3 => exact udivsi3_completes base mem x0
  | modsi3 => exact modsi3_completes base mem x0
  | umodsi3 => exact umodsi3_completes base mem x0

end Steps

/-- A call of any routine, from any machine, comes back with the value that the instruction of
the M extension is defined to write. It stores nothing. -/
theorem routine_returns {routine : Routine} {base : Word} {machine : Machine}
    (called : Called routine base machine) :
    ∃ after, machine.Runs (fun _ => False) after ∧ Returned routine machine after := by
  obtain ⟨k, link, gpr', jump, goes, done⟩ :=
    routine_completes base machine.mem machine.x0 routine
  obtain ⟨last, reached⟩ := goes.reached called.code called.aligned rfl
    ⟨.refl machine, called.pc, rfl, rfl, rfl⟩
  have jumped := step_jalr last 0#5 link 0#32
  have target : last.gpr link + 0#32 = machine.gpr ra := by
    rw [reached.gpr, done.link, BitVec.add_zero]
  have registers : writeGpr last.gpr 0#5 (last.pc + 4#32) = gpr' := by
    rw [Rv32.writeGpr_x0 last.x0, reached.gpr]
  rw [target] at jumped
  have fetched : last.fetch = some (.base (.jalr 0#5 link 0#32)) := by
    rw [Machine.fetch, reached.pc, reached.mem]
    exact called.code.get jump
  have gpr : (last.step (.base (.jalr 0#5 link 0#32))).gpr = gpr' :=
    (congrArg Machine.gpr jumped :).trans registers
  refine ⟨_, reached.runs.trans (.step fetched (by simp [Machine.writes, Rv32.Instr.access])),
    (congrArg Machine.pc jumped :), ?_, ?_, reached.mem, reached.csr⟩
  · rw [gpr, done.result]
  · rw [gpr]
    exact done.kept

/-- `div.S` as the assembler leaves it. -/
def divWords : List Word :=
  [
    0x06054063, 0x0605c663, 0x00058613, 0x00050593, 0xfff00513, 0x02060c63, 0x00100693,
    0x00b67a63, 0x00c05863, 0x00161613, 0x00169693, 0xfeb66ae3, 0x00000513, 0x00c5e663,
    0x40c585b3, 0x00d56533, 0x0016d693, 0x00165613, 0xfe0696e3, 0x00008067, 0x00008293,
    0xfb5ff0ef, 0x00058513, 0x00028067, 0x40a00533, 0x00b04863, 0x40b005b3, 0xf9dff06f,
    0x40b005b3, 0x00008293, 0xf91ff0ef, 0x40a00533, 0x00028067, 0x00008293, 0x0005ca63,
    0x00054c63, 0xf79ff0ef, 0x00058513, 0x00028067, 0x40b005b3, 0xfe0558e3, 0x40a00533,
    0xf61ff0ef, 0x40b00533, 0x00028067]

def divMem : ByteMem 32 := fun addr =>
  let i := (addr - 0x80000000#32).toNat
  (divWords.getD (i / 4) 0#32).extractLsb' (8 * (i % 4)) 8

/-- Before the division of -7 by 2. -/
def divMachine : Machine where
  gpr := fun r => if r = a0 then 0xfffffff9#32 else if r = a1 then 2#32 else 0#32
  x0 := rfl
  pc := 0x80000000#32
  csr := fun _ => 0#32
  mem := divMem

/-- The quotient is -3. -/
theorem routine_returns_div :
    ∃ after, divMachine.Runs (fun _ => False) after ∧ after.gpr a0 = 0xfffffffd#32 := by
  have called : Called .divsi3 0x80000000#32 divMachine := ⟨by decide, by decide +kernel, rfl⟩
  obtain ⟨after, runs, returned⟩ := routine_returns called
  exact ⟨after, runs, returned.result.trans (by decide)⟩

end Ysyx.Am.Libgcc
