import Ysyx.Rv32.Instr

/-! The seven instructions of the M extension that the interpreter has: what the RISC-V
manual says they write, in integers. -/

set_option autoImplicit false

namespace Ysyx.Rv32

inductive MulOp where
  | mul | mulh | mulhu | div | divu | rem | remu
  deriving DecidableEq, Repr

/-- The instruction by `funct3`, under `funct7 = 1`; MULHSU is not among the seven. -/
def mulOp? (funct3 : BitVec 3) : Option MulOp :=
  if funct3 = 0b000#3 then some .mul else
  if funct3 = 0b001#3 then some .mulh else
  if funct3 = 0b011#3 then some .mulhu else
  if funct3 = 0b100#3 then some .div else
  if funct3 = 0b101#3 then some .divu else
  if funct3 = 0b110#3 then some .rem else
  if funct3 = 0b111#3 then some .remu else none

/-- The word is this instruction. -/
def EncodesMul (w : Word) (op : MulOp) : Prop :=
  opcode w = 0b0110011#7 ∧ funct7 w = 0b0000001#7 ∧ mulOp? (funct3 w) = some op

/-- Division by zero gives all ones, its remainder the dividend. The quotient rounds
towards zero and wraps, so that the minimum divided by -1 is the minimum again. -/
def MulOp.eval (op : MulOp) (a b : Word) : Word :=
  match op with
  | .mul => BitVec.ofInt 32 (a.toInt * b.toInt)
  | .mulh => BitVec.ofInt 32 (a.toInt * b.toInt / 2 ^ 32)
  | .mulhu => BitVec.ofNat 32 (a.toNat * b.toNat / 2 ^ 32)
  | .div => if b = 0#32 then BitVec.allOnes 32 else BitVec.ofInt 32 (a.toInt.tdiv b.toInt)
  | .divu => if b = 0#32 then BitVec.allOnes 32 else BitVec.ofNat 32 (a.toNat / b.toNat)
  | .rem => if b = 0#32 then a else BitVec.ofInt 32 (a.toInt.tmod b.toInt)
  | .remu => if b = 0#32 then a else BitVec.ofNat 32 (a.toNat % b.toNat)

/-- Quotient and remainder of the manual make up the dividend, division by zero included. -/
theorem eval_div_rem (a b : Word) :
    MulOp.divu.eval a b * b + MulOp.remu.eval a b = a ∧
      MulOp.div.eval a b * b + MulOp.rem.eval a b = a := by
  by_cases zero : b = 0#32
  · subst zero
    simp [MulOp.eval]
  · simp only [MulOp.eval, zero, if_false]
    constructor
    · have parts : a.toNat / b.toNat * b.toNat + a.toNat % b.toNat = a.toNat :=
        Nat.div_add_mod' a.toNat b.toNat
      apply BitVec.eq_of_toNat_eq
      rw [BitVec.toNat_add, BitVec.toNat_mul, BitVec.toNat_ofNat, BitVec.toNat_ofNat]
      rw [Nat.mod_mul_mod, Nat.add_mod_mod, Nat.mod_add_mod, parts]
      exact Nat.mod_eq_of_lt a.isLt
    · have parts : a.toInt.tdiv b.toInt * b.toInt + a.toInt.tmod b.toInt = a.toInt :=
        Int.tdiv_mul_add_tmod a.toInt b.toInt
      have whole := congrArg (BitVec.ofInt 32) parts
      rwa [BitVec.ofInt_add, BitVec.ofInt_mul, BitVec.ofInt_toInt, BitVec.ofInt_toInt] at whole

/-- The overflowing division: quotient and remainder as the manual's table has them. -/
example :
    MulOp.div.eval 0x80000000#32 0xffffffff#32 = 0x80000000#32 ∧
      MulOp.rem.eval 0x80000000#32 0xffffffff#32 = 0#32 := by
  decide

/-!
## The operations of `BitVec`
-/

theorem sdiv_eq_eval {a b : Word} (nonzero : b ≠ 0#32) : a.sdiv b = MulOp.div.eval a b := by
  apply BitVec.eq_of_toInt_eq
  rw [BitVec.toInt_sdiv, MulOp.eval, if_neg nonzero, BitVec.toInt_ofInt]

theorem srem_eq_eval {a b : Word} (nonzero : b ≠ 0#32) : a.srem b = MulOp.rem.eval a b := by
  rw [MulOp.eval, if_neg nonzero, ← BitVec.toInt_srem, BitVec.ofInt_toInt]

theorem udiv_eq_eval {a b : Word} (nonzero : b ≠ 0#32) : a / b = MulOp.divu.eval a b := by
  rw [MulOp.eval, if_neg nonzero, ← BitVec.toNat_udiv, BitVec.ofNat_toNat, BitVec.setWidth_eq]

theorem umod_eq_eval {a b : Word} (nonzero : b ≠ 0#32) : a % b = MulOp.remu.eval a b := by
  rw [MulOp.eval, if_neg nonzero, ← BitVec.toNat_umod, BitVec.ofNat_toNat, BitVec.setWidth_eq]

end Ysyx.Rv32
