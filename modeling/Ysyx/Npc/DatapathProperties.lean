import Ysyx.Npc.Exu
import Ysyx.Rv32.Semantics

/-! The datapath against the instruction set: immediates, then the decoder
class by class, then the execution unit operation by operation, then the whole.
The arithmetic right shift is the one operation that is not the specification's
on every operand pair, and its exact domain is part of the statement. -/

set_option autoImplicit false

namespace Ysyx.Npc

open Rv32

/-!
## Immediates
-/

theorem getLsbD_replicate_one (sign : BitVec 1) {count i : Nat} (bound : i < count) :
    (sign.replicate count).getLsbD i = sign.getLsbD 0 := by
  simp [bound, Nat.mod_one]

/-- Repeating the sign bit in front of a field that already carries it. -/
theorem replicate_append_eq_signExtend {low : Nat} (sign : BitVec 1) (x : BitVec low)
    (count : Nat) (same : x.msb = sign.getLsbD 0) :
    sign.replicate count ++ x = x.signExtend (1 * count + low) := by
  apply BitVec.eq_of_getLsbD_eq
  intro i bound
  rw [BitVec.getLsbD_append, BitVec.getLsbD_signExtend, same]
  have inWidth : i < count + low := by omega
  by_cases inLow : i < low
  · simp [inLow, inWidth]
  · simp only [inLow, getLsbD_replicate_one sign (show i - low < count by omega)]
    simp [inWidth]

/-- Repeating the sign bit where the last copy stands for the field's own sign. -/
theorem replicate_succ_append_eq_signExtend {low : Nat} (sign : BitVec 1) (x : BitVec low)
    (count : Nat) :
    sign.replicate (count + 1) ++ x = (sign ++ x).signExtend (1 * (count + 1) + low) := by
  have msb : (sign ++ x).msb = sign.getLsbD 0 := by
    rw [BitVec.msb_append]
    simp [BitVec.msb_eq_getLsbD_last]
  apply BitVec.eq_of_getLsbD_eq
  intro i bound
  have inWidth : i < count + 1 + low := by omega
  rw [BitVec.getLsbD_append, BitVec.getLsbD_signExtend, msb, BitVec.getLsbD_append]
  by_cases inLow : i < low
  · simp [inLow, show i < 1 + low by omega, inWidth]
  · simp only [inLow, getLsbD_replicate_one sign (show i - low < count + 1 by omega)]
    by_cases isSign : i < 1 + low
    · simp [isSign, show i - low = 0 by omega, inWidth]
    · simp [isSign, inWidth]

theorem immI_eq (w : Word) : (signFill 20 w ++ w.extractLsb' 20 12 : Word) = immI w :=
  replicate_append_eq_signExtend _ _ 20 (by simp [BitVec.msb_eq_getLsbD_last])

theorem immS_eq (w : Word) :
    (signFill 20 w ++ (w.extractLsb' 25 7 ++ w.extractLsb' 7 5) : Word) = immS w :=
  replicate_append_eq_signExtend _ _ 20 (by
    rw [BitVec.msb_append]
    simp [BitVec.msb_eq_getLsbD_last])

theorem immB_eq (w : Word) :
    (signFill 20 w ++ (w.extractLsb' 7 1 ++ (w.extractLsb' 25 6 ++
      (w.extractLsb' 8 4 ++ 0#1))) : Word) = immB w :=
  replicate_succ_append_eq_signExtend _ _ 19

theorem immJ_eq (w : Word) :
    (signFill 12 w ++ (w.extractLsb' 12 8 ++ (w.extractLsb' 20 1 ++
      (w.extractLsb' 21 10 ++ 0#1))) : Word) = immJ w :=
  replicate_succ_append_eq_signExtend _ _ 11

/-!
## Operation codes
-/

/-- The stage-two operation a specification operation is decoded to. -/
def exuCode : AluOp → BitVec 5
  | .add => exuAdd
  | .sub => exuSub
  | .sll => exuSll
  | .slt => exuSlt
  | .sltu => exuSltu
  | .xor => exuXor
  | .srl => exuSrl
  | .sra => exuSra
  | .or => exuOr
  | .and => exuAnd

def branchCode : BranchOp → BitVec 5
  | .beq => exuBeq
  | .bne => exuBne
  | .blt => exuBlt
  | .bge => exuBge
  | .bltu => exuBltu
  | .bgeu => exuBgeu

def loadCode : LoadOp → BitVec 4
  | .lb => lsuLb
  | .lh => lsuLh
  | .lw => lsuLw
  | .lbu => lsuLbu
  | .lhu => lsuLhu

def storeCode : StoreOp → BitVec 4
  | .sb => lsuSb
  | .sh => lsuSh
  | .sw => lsuSw

theorem aluInfoR_of_aluOp {f3 : BitVec 3} {f7 : BitVec 7} {op : AluOp}
    (found : aluOp? f3 f7 = some op) : aluInfoR f3 f7 = ⟨exuCode op, exuSelReg, 0#3⟩ := by
  obtain ⟨rfl, rfl⟩ := aluOp?_some found
  cases op <;> rfl

theorem aluInfoI_of_aluImmOp {f3 : BitVec 3} {f7 : BitVec 7} {op : AluOp}
    (found : aluImmOp? f3 f7 = some op) : aluInfoI f3 f7 = ⟨exuCode op, exuSelImm, 0#3⟩ := by
  obtain ⟨rfl, notSub, f7⟩ := aluImmOp?_some found
  cases op with
  | sub => exact absurd rfl notSub
  | sll | srl | sra =>
      rw [f7 rfl]
      rfl
  | add | slt | sltu | xor | or | and => rfl

theorem aluInfoB_of_branchOp {f3 : BitVec 3} {op : BranchOp} (found : branchOp? f3 = some op) :
    aluInfoB f3 = ⟨branchCode op, exuSelReg, 0#3⟩ := by
  obtain rfl := branchOp?_some found
  cases op <;> rfl

theorem loadCode_of_loadOp {f3 : BitVec 3} {op : LoadOp} (found : loadOp? f3 = some op) :
    f3 ++ 0#1 = loadCode op := by
  obtain rfl := loadOp?_some found
  cases op <;> rfl

theorem storeCode_of_storeOp {f3 : BitVec 3} {op : StoreOp} (found : storeOp? f3 = some op) :
    f3 ++ 1#1 = storeCode op := by
  obtain rfl := storeOp?_some found
  cases op <;> rfl

/-!
## Decoder
-/

/-- Outside the system opcode the decoder passes `idu_normal` through. -/
theorem idu_of_not_sys {w : Word} (notSys : opcode w ≠ typeSys) :
    idu w =
      { rdid := (iduNormal w).rdid
        rs1id := (iduNormal w).rs1id
        rs2id := (iduNormal w).rs2id
        rdwen := (iduNormal w).rdwen
        imm := (iduNormal w).imm
        exuSrcSel := (iduNormal w).exuSrcSel
        exuOpt := (iduNormal w).exuOpt
        lsuOpt := (iduNormal w).lsuOpt
        brch := (iduNormal w).brch
        jal := (iduNormal w).jal
        jalr := (iduNormal w).jalr
        sysins := false
        csrsid := 0#12
        csrsren := false
        excsropt := csrNop
        excsrsrc := csrSelImm
        csrdid := 0#12
        csrdwen := false
        ecall := false
        mret := false
        fenceI := opcode w == typeFence && funct3 w == 0b001#3 } := by
  have sysins : (w.extractLsb' 0 7 == typeSys) = false := beq_false_of_ne notSys
  simp only [idu, sysins, opcode, funct3, Bool.false_eq_true, ↓reduceIte, Bool.false_and]

theorem iduNormal_lui {w : Word} (op : opcode w = typeULui) :
    iduNormal w = ⟨rd w, 0#5, 0#5, true, immU w, exuSelImm, exuAdd, lsuNop, false, false, false,
      0#3⟩ := by
  unfold opcode at op
  simp [iduNormal, regInfo, aluInfo, lsuOptOf, op, rd, immU]

theorem iduNormal_auipc {w : Word} (op : opcode w = typeUAuipc) :
    iduNormal w = ⟨rd w, 0#5, 0#5, true, immU w, exuSelPci, exuAdd, lsuNop, false, false, false,
      0#3⟩ := by
  unfold opcode at op
  simp [iduNormal, regInfo, aluInfo, lsuOptOf, op, rd, immU]

theorem iduNormal_jal {w : Word} (op : opcode w = typeJ) :
    iduNormal w = ⟨rd w, 0#5, 0#5, true, immJ w, exuSelPc4, exuAdd, lsuNop, false, true, false,
      0#3⟩ := by
  unfold opcode at op
  simp [iduNormal, regInfo, aluInfo, lsuOptOf, op, rd, ← immJ_eq]

theorem iduNormal_jalr {w : Word} (op : opcode w = typeIJalr) :
    iduNormal w = ⟨rd w, rs1 w, 0#5, true, immI w, exuSelPc4, exuAdd, lsuNop, false, false, true,
      0#3⟩ := by
  unfold opcode at op
  simp [iduNormal, regInfo, aluInfo, lsuOptOf, op, rd, rs1, ← immI_eq]

theorem iduNormal_branch {w : Word} {f : BranchOp} (op : opcode w = typeB)
    (found : branchOp? (funct3 w) = some f) :
    iduNormal w = ⟨0#5, rs1 w, rs2 w, false, immB w, exuSelReg, branchCode f, lsuNop, true, false,
      false, 0#3⟩ := by
  have alu := aluInfoB_of_branchOp found
  unfold opcode at op
  unfold funct3 at alu
  simp [iduNormal, regInfo, aluInfo, lsuOptOf, op, alu, rs1, rs2, ← immB_eq]

theorem iduNormal_load {w : Word} {f : LoadOp} (op : opcode w = typeILoad)
    (found : loadOp? (funct3 w) = some f) :
    iduNormal w = ⟨rd w, rs1 w, 0#5, true, immI w, exuSelImm, exuAdd, loadCode f, false, false,
      false, 0#3⟩ := by
  have code := loadCode_of_loadOp found
  unfold opcode at op
  unfold funct3 at code
  simp [iduNormal, regInfo, aluInfo, lsuOptOf, op, ← code, rd, rs1, ← immI_eq]

theorem iduNormal_store {w : Word} {f : StoreOp} (op : opcode w = typeS)
    (found : storeOp? (funct3 w) = some f) :
    iduNormal w = ⟨0#5, rs1 w, rs2 w, false, immS w, exuSelImm, exuAdd, storeCode f, false, false,
      false, 0#3⟩ := by
  have code := storeCode_of_storeOp found
  unfold opcode at op
  unfold funct3 at code
  simp [iduNormal, regInfo, aluInfo, lsuOptOf, op, ← code, rs1, rs2, ← immS_eq]

theorem iduNormal_opImm {w : Word} {f : AluOp} (op : opcode w = typeI)
    (found : aluImmOp? (funct3 w) (funct7 w) = some f) :
    iduNormal w = ⟨rd w, rs1 w, 0#5, true, immI w, exuSelImm, exuCode f, lsuNop, false, false,
      false, 0#3⟩ := by
  have alu := aluInfoI_of_aluImmOp found
  unfold opcode at op
  unfold funct3 funct7 at alu
  simp [iduNormal, regInfo, aluInfo, lsuOptOf, op, alu, rd, rs1, ← immI_eq]

theorem iduNormal_opReg {w : Word} {f : AluOp} (op : opcode w = typeR)
    (found : aluOp? (funct3 w) (funct7 w) = some f) :
    iduNormal w = ⟨rd w, rs1 w, rs2 w, true, 0#32, exuSelReg, exuCode f, lsuNop, false, false,
      false, 0#3⟩ := by
  have alu := aluInfoR_of_aluOp found
  unfold opcode at op
  unfold funct3 funct7 at alu
  simp [iduNormal, regInfo, aluInfo, lsuOptOf, op, alu, rd, rs1, rs2]

/-!
## Comparison and shifts
-/

/-- The hand-made comparison is the signed one on all operand pairs. -/
theorem exuLess_eq_slt (a b : Word) : exuLess a b (a - b) = a.slt b := by
  have ha := a.isLt
  have hb := b.isLt
  rw [BitVec.slt_eq_decide, BitVec.toInt_eq_toNat_cond, BitVec.toInt_eq_toNat_cond]
  simp only [exuLess, intMax, BitVec.msb_eq_decide, BitVec.toNat_sub, BitVec.toNat_eq]
  simp
  grind

/-- The borrow of the 33-bit subtraction is the unsigned comparison. -/
theorem borrow_eq_ult (a b : Word) :
    (a.setWidth 33 - b.setWidth 33).getLsbD 32 = a.ult b := by
  have ha := a.isLt
  have hb := b.isLt
  rw [BitVec.ult_eq_decide, ← BitVec.testBit_toNat, Nat.testBit_eq_decide_div_mod_eq]
  simp only [BitVec.toNat_sub, BitVec.toNat_setWidth]
  congr 1
  apply propext
  omega

/-- Where the six-bit shift amount of `alu` gives the arithmetic shift of the
specification: bit 5 of the amount is clear, or the result is all sign bits. -/
def SraExact (a b : Word) : Prop :=
  b.getLsbD 5 = false ∨ (a.msb = false ∧ a.toNat < 2 ^ (b.toNat % 32)) ∨
    (a = BitVec.allOnes 32 ∧ b.toNat % 32 = 0)

instance (a b : Word) : Decidable (SraExact a b) :=
  inferInstanceAs (Decidable (_ ∨ (_ ∧ _) ∨ (_ ∧ _)))

theorem getLsbD_aluTmpRes (a b : Word) (i : Nat) (bound : i < 32) :
    ((aluTmpRes a b).setWidth 32).getLsbD i =
      (decide (i + b.toNat % 64 < 64) &&
        if i + b.toNat % 64 < 32 then a.getLsbD (i + b.toNat % 64) else a.msb) := by
  have wide : ((a.extractLsb' 31 1).replicate 32 ++ a : BitVec 64) = a.signExtend 64 :=
    replicate_append_eq_signExtend _ _ 32 (by simp [BitVec.msb_eq_getLsbD_last])
  rw [aluTmpRes, wide, BitVec.getLsbD_setWidth, BitVec.getLsbD_ushiftRight,
    BitVec.getLsbD_signExtend]
  simp [bound, Nat.add_comm]

theorem getLsbD_five (b : Word) : b.getLsbD 5 = decide (32 ≤ b.toNat % 64) := by
  rw [← BitVec.testBit_toNat, Nat.testBit_eq_decide_div_mod_eq]
  congr 1
  apply propext
  omega

/-- With a positive source whose value the shift drops, both shifts are zero. -/
private theorem aluTmpRes_eq_zero {a b : Word} (high : 32 ≤ b.toNat % 64) (positive : a.msb = false) :
    (aluTmpRes a b).setWidth 32 = 0#32 := by
  apply BitVec.eq_of_getLsbD_eq
  intro i bound
  have shifted : ¬ i + b.toNat % 64 < 32 := by omega
  rw [getLsbD_aluTmpRes a b i bound]
  simp [shifted, positive]

private theorem sshiftRight_eq_zero_iff {a : Word} {s : Nat} (positive : a.msb = false) :
    a.sshiftRight s = 0#32 ↔ a.toNat < 2 ^ s := by
  rw [BitVec.sshiftRight_eq_of_msb_false positive, ← BitVec.toNat_inj, BitVec.toNat_ushiftRight,
    Nat.shiftRight_eq_div_pow]
  exact Nat.div_eq_zero_iff_lt (Nat.two_pow_pos s)

theorem aluSra_eq_iff (a b : Word) :
    (aluTmpRes a b).setWidth 32 = a.sshiftRight (b.toNat % 32) ↔ SraExact a b := by
  unfold SraExact
  rw [getLsbD_five]
  by_cases high : 32 ≤ b.toNat % 64
  · have split : b.toNat % 64 = b.toNat % 32 + 32 := by omega
    cases sign : a.msb with
    | false =>
        rw [aluTmpRes_eq_zero high sign, eq_comm, sshiftRight_eq_zero_iff sign]
        have notOnes : a ≠ BitVec.allOnes 32 := by
          rintro rfl
          exact absurd sign (by decide)
        simp only [high, decide_true, Bool.true_eq_false, notOnes, true_and, false_and, or_false,
          false_or]
    | true =>
        simp only [high, decide_true, Bool.true_eq_false, false_and, false_or]
        constructor
        · intro same
          have top := congrArg (BitVec.getLsbD · 31) same
          simp only [getLsbD_aluTmpRes a b 31 (by omega), BitVec.getLsbD_sshiftRight, sign] at top
          have amount : b.toNat % 32 = 0 := by
            by_contra positive
            simp [show ¬ 31 + b.toNat % 64 < 64 by omega,
              show ¬ b.toNat % 32 + 31 < 32 by omega] at top
          refine ⟨?_, amount⟩
          apply BitVec.eq_of_getLsbD_eq
          intro i bound
          have bit := congrArg (BitVec.getLsbD · i) same
          simp only [getLsbD_aluTmpRes a b i bound, BitVec.getLsbD_sshiftRight, sign, amount] at bit
          rw [BitVec.getLsbD_allOnes]
          simp only [Nat.zero_add, split, amount, Nat.not_le.mpr bound, bound,
            show i + 32 < 64 by omega, show ¬ i + 32 < 32 by omega, decide_true, decide_false,
            Bool.true_and, ↓reduceIte, Bool.not_false] at bit ⊢
          exact bit.symm
        · rintro ⟨rfl, amount⟩
          apply BitVec.eq_of_getLsbD_eq
          intro i bound
          rw [getLsbD_aluTmpRes _ b i bound, BitVec.getLsbD_sshiftRight, sign, amount, split,
            amount]
          simp only [BitVec.getLsbD_allOnes, Nat.zero_add, Nat.not_le.mpr bound, bound,
            show i + 32 < 64 by omega, show ¬ i + 32 < 32 by omega, decide_true, decide_false,
            Bool.true_and, ↓reduceIte, Bool.not_false]
  · have split : b.toNat % 64 = b.toNat % 32 := by omega
    simp only [high, decide_false, true_or, iff_true]
    apply BitVec.eq_of_getLsbD_eq
    intro i bound
    rw [getLsbD_aluTmpRes a b i bound, BitVec.getLsbD_sshiftRight, split]
    have inWide : i + b.toNat % 32 < 64 := by omega
    simp [bound, inWide, Nat.add_comm]

/-!
## Execution unit
-/

theorem resBit_eq_ite (b : Bool) : resBit b = if b then 1#32 else 0#32 := by
  cases b <;> rfl

/-- Every operation but the arithmetic shift is the specification's on all
operand pairs. -/
theorem intRes_exuCode {op : AluOp} (notSra : op ≠ .sra) (a b : Word) :
    intRes (exuCode op) a b = op.eval a b := by
  cases op with
  | sra => exact absurd rfl notSra
  | slt => simp [intRes, exuCode, aluOptOf, alu, resBit_eq_ite, exuLess_eq_slt, AluOp.eval]
  | sltu =>
      simp only [AluOp.eval, ← borrow_eq_ult]
      simp [intRes, exuCode, aluOptOf, alu, resBit_eq_ite]
  | _ => simp [intRes, exuCode, aluOptOf, alu, AluOp.eval]

theorem intRes_sra (a b : Word) : intRes exuSra a b = (aluTmpRes a b).setWidth 32 := by
  simp [intRes, aluOptOf, alu]

theorem intRes_eq_eval_iff (op : AluOp) (a b : Word) :
    intRes (exuCode op) a b = op.eval a b ↔ (op = .sra → SraExact a b) := by
  by_cases isSra : op = .sra
  · subst isSra
    simp only [exuCode, intRes_sra, AluOp.eval, aluSra_eq_iff, forall_const]
  · simp [intRes_exuCode isSra, isSra]

theorem resBit_beq_zero (b : Bool) : (resBit b == 0#32) = !b := by
  cases b <;> rfl

theorem sub_beq_zero (a b : Word) : (a - b == 0#32) = (a == b) := by
  rw [Bool.eq_iff_iff, beq_iff_eq, beq_iff_eq]
  constructor
  · intro same
    have added := congrArg (· + b) same
    simpa using added
  · rintro rfl
    exact BitVec.sub_self a

/-- `zero` is the negated branch condition. -/
theorem intRes_branchCode (op : BranchOp) (a b : Word) :
    (intRes (branchCode op) a b == 0#32) = !op.taken a b := by
  have equal := sub_beq_zero a b
  cases op with
  | beq => simp [intRes, branchCode, aluOptOf, alu, resBit_beq_zero, BranchOp.taken, equal]
  | bne => simp [intRes, branchCode, aluOptOf, alu, resBit_beq_zero, BranchOp.taken, bne, equal]
  | blt | bge =>
      simp [intRes, branchCode, aluOptOf, alu, resBit_beq_zero, exuLess_eq_slt, BranchOp.taken]
  | bltu | bgeu =>
      simp only [BranchOp.taken, ← borrow_eq_ult]
      simp [intRes, branchCode, aluOptOf, alu, resBit_beq_zero]

/-- The two ALU operands that a selection code stands for. -/
def operands (sel : BitVec 2) (pc rs1 rs2 imm : Word) : Word × Word :=
  if sel = exuSelReg then (rs1, rs2) else
  if sel = exuSelImm then (rs1, imm) else
  if sel = exuSelPc4 then (pc, 4#32) else (pc, imm)

theorem exu_of_not_sys (pc rs1 rs2 imm csrs : Word) (sel : BitVec 2) (opt : BitVec 5)
    (csrOpt : BitVec 2) (csrSrc : BitVec 1) :
    (exu pc rs1 rs2 imm sel opt false csrs csrOpt csrSrc).exuRes =
        intRes opt (operands sel pc rs1 rs2 imm).1 (operands sel pc rs1 rs2 imm).2 ∧
      (exu pc rs1 rs2 imm sel opt false csrs csrOpt csrSrc).zero =
        (intRes opt (operands sel pc rs1 rs2 imm).1 (operands sel pc rs1 rs2 imm).2 == 0#32) := by
  have cases : sel = exuSelReg ∨ sel = exuSelImm ∨ sel = exuSelPc4 ∨ sel = exuSelPci := by
    revert sel
    decide
  rcases cases with rfl | rfl | rfl | rfl <;> simp [exu, operands, muxKeyWithDefault]

/-- The datapath of an instruction outside the system opcode. -/
theorem datapath_of_not_sys {w : Word} (notSys : opcode w ≠ typeSys) (pc : Word) (x : RegId → Word)
    (csrs : Word) :
    let d := iduNormal w
    let src := operands d.exuSrcSel pc (x d.rs1id) (x d.rs2id) d.imm
    datapath w pc x csrs =
      ⟨d.rdwen, d.rdid, intRes d.exuOpt src.1 src.2, d.lsuOpt, x d.rs2id,
        d.brch && !(intRes d.exuOpt src.1 src.2 == 0#32)⟩ := by
  intro d src
  simp only [datapath, idu_of_not_sys notSys]
  rw [(exu_of_not_sys _ _ _ _ _ _ _ _ _).1, (exu_of_not_sys _ _ _ _ _ _ _ _ _).2]

/-!
## The whole datapath
-/

/-- The LSU is given the access of the specification. -/
def AccessGiven (d : Datapath) : Access → Prop
  | .none => d.lsuOpt = lsuNop
  | .load op addr => d.lsuOpt = loadCode op ∧ d.exuRes = addr
  | .store op addr data => d.lsuOpt = storeCode op ∧ d.exuRes = addr ∧ d.regst = data

/-- The datapath hands the later stages what the specification says of `instr`. -/
structure Conforms (d : Datapath) (instr : Instr) (pc : Word) (x : RegId → Word) : Prop where
  wen : d.rdwen = instr.dest.isSome
  dest : ∀ r, instr.dest = some r → d.rdid = r
  value : ∀ v, instr.result pc x = some v → d.exuRes = v
  access : AccessGiven d (instr.access x)
  taken : d.taken = instr.taken x

/-- The register-register SRA reads six bits of its shift amount. -/
def ShiftExact (instr : Instr) (x : RegId → Word) : Prop :=
  match instr with
  | .opReg .sra _ rs1 rs2 => SraExact (x rs1) (x rs2)
  | _ => True

theorem shiftExact_opReg_iff (op : AluOp) (rd rs1 rs2 : RegId) (x : RegId → Word) :
    ShiftExact (.opReg op rd rs1 rs2) x ↔ (op = .sra → SraExact (x rs1) (x rs2)) := by
  cases op <;> simp [ShiftExact]

theorem immI_amount (w : Word) : (immI w).toNat % 32 = (shamt w).toNat % 32 := by
  have low : (immI w).extractLsb' 0 5 = (shamt w).extractLsb' 0 5 := by
    apply BitVec.eq_of_getLsbD_eq
    intro i bound
    simp [immI, shamt, BitVec.getElem_signExtend, bound, show i < 32 by omega,
      show i < 12 by omega]
  have numbers := congrArg BitVec.toNat low
  simpa [BitVec.extractLsb'_toNat] using numbers

theorem immI_getLsbD_five (w : Word) : (immI w).getLsbD 5 = (funct7 w).getLsbD 0 := by
  simp [immI, funct7, BitVec.getElem_signExtend]

/-- The shift amount of a legal shift-immediate word is its five-bit field, so
SRAI is exact although SRA is not. -/
theorem intRes_opImm {w : Word} {op : AluOp}
    (found : aluImmOp? (funct3 w) (funct7 w) = some op) (a : Word) :
    intRes (exuCode op) a (immI w) = op.eval a (if op.isShift then shamt w else immI w) := by
  have exact_ : op = .sra → SraExact a (immI w) := by
    rintro rfl
    left
    rw [immI_getLsbD_five]
    rw [(aluImmOp?_some found).2.2 rfl]
    rfl
  rw [(intRes_eq_eval_iff op a (immI w)).mpr exact_]
  cases op <;> simp [AluOp.eval, AluOp.isShift, immI_amount]

/-- Addresses, links and upper immediates all go through `exuAdd`. -/
theorem intRes_add (a b : Word) : intRes 0x1#5 a b = a + b :=
  intRes_exuCode (show AluOp.add ≠ .sra by decide) a b

/-- Exactly on these operands does the datapath hand over what the
specification says, for every legal word of the base instruction set. -/
theorem datapath_conforms_iff {w : Word} {instr : Instr} (decoded : decode w = some instr)
    (pc : Word) (x : RegId → Word) (zero : x 0#5 = 0#32) (csrs : Word) :
    Conforms (datapath w pc x csrs) instr pc x ↔ ShiftExact instr x := by
  have encodes := decode_encodes decoded
  have notSys : opcode w ≠ typeSys := by
    cases encodes <;> simp_all
  rw [datapath_of_not_sys notSys]
  cases encodes with
  | lui op =>
      rw [iduNormal_lui op]
      refine iff_of_true ?_ trivial
      constructor <;> simp [operands, intRes_add, zero, Instr.dest, Instr.result, Instr.access,
        Instr.taken, AccessGiven]
  | auipc op =>
      rw [iduNormal_auipc op]
      refine iff_of_true ?_ trivial
      constructor <;> simp [operands, intRes_add, Instr.dest, Instr.result, Instr.access,
        Instr.taken, AccessGiven]
  | jal op =>
      rw [iduNormal_jal op]
      refine iff_of_true ?_ trivial
      constructor <;> simp [operands, intRes_add, Instr.dest, Instr.result, Instr.access,
        Instr.taken, AccessGiven]
  | jalr op _ =>
      rw [iduNormal_jalr op]
      refine iff_of_true ?_ trivial
      constructor <;> simp [operands, intRes_add, Instr.dest, Instr.result, Instr.access,
        Instr.taken, AccessGiven]
  | branch op found =>
      rw [iduNormal_branch op found]
      refine iff_of_true ?_ trivial
      constructor <;> simp [operands, intRes_branchCode, Instr.dest, Instr.result, Instr.access,
        Instr.taken, AccessGiven]
  | load op found =>
      rw [iduNormal_load op found]
      refine iff_of_true ?_ trivial
      constructor <;> simp [operands, intRes_add, Instr.dest, Instr.result, Instr.access,
        Instr.taken, AccessGiven]
  | store op found =>
      rw [iduNormal_store op found]
      refine iff_of_true ?_ trivial
      constructor <;> simp [operands, intRes_add, Instr.dest, Instr.result, Instr.access,
        Instr.taken, AccessGiven]
  | opImm op found =>
      rw [iduNormal_opImm op found]
      refine iff_of_true ?_ trivial
      constructor <;> simp [operands, intRes_opImm found, Instr.dest, Instr.result, Instr.access,
        Instr.taken, AccessGiven]
  | @opReg f op found =>
      rw [iduNormal_opReg op found, shiftExact_opReg_iff, ← intRes_eq_eval_iff]
      constructor
      · intro conforms
        simpa [operands, Instr.result] using conforms.value
      · intro same
        constructor <;> simp [operands, same, Instr.dest, Instr.result, Instr.access, Instr.taken,
          AccessGiven]

theorem datapath_conforms_addi :
    Conforms (datapath 0xfff08113#32 0x30000000#32 (fun r => if r = 1#5 then 5#32 else 0#32) 0#32)
      (.opImm .add 2#5 1#5 0xffffffff#32) 0x30000000#32 (fun r => if r = 1#5 then 5#32 else 0#32) :=
  (datapath_conforms_iff (by decide) _ _ (by decide) _).mpr trivial

/-- `sra x3, x1, x2` with x2 = 32: the specification shifts by 0, the ALU by 32. -/
theorem datapath_sra_not_conforms :
    ¬ ∀ (w : Word) (instr : Instr) (pc : Word) (x : RegId → Word) (csrs : Word),
      decode w = some instr → x 0#5 = 0#32 → Conforms (datapath w pc x csrs) instr pc x := by
  intro always
  have conforms := always 0x4020d1b3#32 (.opReg .sra 3#5 1#5 2#5) 0#32
    (fun r => if r = 1#5 then 0x80000000#32 else if r = 2#5 then 32#32 else 0#32) 0#32
    (by decide) (by decide)
  have value := conforms.value 0x80000000#32 (by decide)
  revert value
  decide

end Ysyx.Npc
