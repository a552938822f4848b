import Ysyx.Nemu.InstProperties
import Ysyx.Rv32.MulDiv

/-! The M extension of the interpreter: C's products are the manual's, and its quotients
wherever C defines them. -/

set_option autoImplicit false

namespace Ysyx.Nemu

open Rv32

/-!
## Selection
-/

def mulName : MulOp → InstName
  | .mul => .mul
  | .mulh => .mulh
  | .mulhu => .mulhu
  | .div => .div
  | .divu => .divu
  | .rem => .rem
  | .remu => .remu

theorem selects_mul {w : Word} {f : MulOp} (encodes : EncodesMul w f) :
    Selects w (mulName f) .R := by
  obtain ⟨op, f7, found⟩ := encodes
  rw [selects_iff op]
  unfold mulOp? at found
  split_ifs at found <;> cases found <;> simp [*, mulName]

/-!
## Products
-/

theorem mul_eq_eval (a b : Word) : a * b = MulOp.mul.eval a b := by
  rw [MulOp.eval, BitVec.ofInt_mul, BitVec.ofInt_toInt, BitVec.ofInt_toInt]

/-- The upper half of a 64-bit pattern is the quotient by `2 ^ 32` of what it stands for. -/
theorem upper_half_ofInt (n : Int) :
    (BitVec.ofInt 64 n >>> 32).setWidth 32 = BitVec.ofInt 32 (n / 2 ^ 32) := by
  apply BitVec.eq_of_toNat_eq
  rw [BitVec.toNat_setWidth, BitVec.toNat_ushiftRight, BitVec.toNat_ofInt, BitVec.toNat_ofInt,
    Nat.shiftRight_eq_div_pow]
  omega

theorem mulh_eq_eval (a b : Word) :
    ((sext (a.setWidth 64) 32 * sext (b.setWidth 64) 32) >>> 32).setWidth 32 =
      MulOp.mulh.eval a b := by
  have wide (x : Word) : sext (x.setWidth 64) 32 = BitVec.ofInt 64 x.toInt := by
    rw [sext_setWidth x (by decide), ← BitVec.toInt_signExtend_of_le (show 32 ≤ 64 by decide),
      BitVec.ofInt_toInt]
  rw [wide, wide, ← BitVec.ofInt_mul, upper_half_ofInt, MulOp.eval]

theorem mulhu_eq_eval (a b : Word) :
    ((a.setWidth 64 * b.setWidth 64) >>> 32).setWidth 32 = MulOp.mulhu.eval a b := by
  have wide (x : Word) : x.setWidth 64 = BitVec.ofInt 64 x.toNat := by
    apply BitVec.eq_of_toNat_eq
    rw [BitVec.toNat_setWidth, BitVec.toNat_ofInt]
    omega
  have product : (a.toNat * b.toNat : Int) / 2 ^ 32 = (a.toNat * b.toNat / 2 ^ 32 : Nat) := by
    push_cast
    rfl
  rw [wide, wide, ← BitVec.ofInt_mul, upper_half_ofInt, MulOp.eval, product]
  exact BitVec.ofInt_natCast 32 _

/-!
## Execution
-/

/-- C defines the expression of the body on these operands. -/
def HostDefined (op : MulOp) (a b : Word) : Prop :=
  match op with
  | .mul | .mulh | .mulhu => True
  | .div | .rem => b ≠ 0#32 ∧ ¬ (a = 0x80000000#32 ∧ b = 0xffffffff#32)
  | .divu | .remu => b ≠ 0#32

theorem signedDivisionDefined_iff (a b : Word) :
    signedDivisionDefined a b = true ↔ b ≠ 0#32 ∧ ¬ (a = 0x80000000#32 ∧ b = 0xffffffff#32) := by
  simp [signedDivisionDefined, imp_iff_not_or]

variable {cfg : Config} {pc snpc : Word} {st : State} {o : Operands} {f : MulOp}

theorem execBody_mul_defined (defined : HostDefined f o.src1 o.src2) :
    execBody cfg pc snpc st o (mulName f) =
      .ok (snpc, st.setGpr o.rd (f.eval o.src1 o.src2)) := by
  cases f with
  | mul => rw [← mul_eq_eval]; rfl
  | mulh => rw [← mulh_eq_eval]; rfl
  | mulhu => rw [← mulhu_eq_eval]; rfl
  | div =>
      rw [← sdiv_eq_eval defined.1]
      exact if_pos ((signedDivisionDefined_iff _ _).mpr defined)
  | rem =>
      rw [← srem_eq_eval defined.1]
      exact if_pos ((signedDivisionDefined_iff _ _).mpr defined)
  | divu =>
      rw [← udiv_eq_eval defined]
      exact if_neg defined
  | remu =>
      rw [← umod_eq_eval defined]
      exact if_neg defined

theorem execBody_mul_undefined (undefined : ¬ HostDefined f o.src1 o.src2) :
    execBody cfg pc snpc st o (mulName f) = .error .division := by
  cases f with
  | mul | mulh | mulhu => exact absurd trivial undefined
  | div | rem => exact if_neg fun defined => undefined ((signedDivisionDefined_iff _ _).mp defined)
  | divu | remu => exact if_pos (not_not.mp undefined)

/-- A word of the M extension writes the manual's value exactly where C defines the
expression of its body; elsewhere the host division traps. -/
theorem muldiv_exact_iff {w : Word} (encodes : EncodesMul w f) :
    (decodeExec cfg w pc (pc + 4#32) st =
        .ok (pc + 4#32,
          (st.setGpr (rd w) (f.eval (st.cpu.gpr (rs1 w)) (st.cpu.gpr (rs2 w)))).setGpr 0#5 0#32) ↔
      HostDefined f (st.cpu.gpr (rs1 w)) (st.cpu.gpr (rs2 w))) ∧
    (decodeExec cfg w pc (pc + 4#32) st = .error .division ↔
      ¬ HostDefined f (st.cpu.gpr (rs1 w)) (st.cpu.gpr (rs2 w))) := by
  have run := decodeExec_of_selects cfg pc st (selects_mul encodes)
  rw [decodeOperand_R] at run
  by_cases defined : HostDefined f (st.cpu.gpr (rs1 w)) (st.cpu.gpr (rs2 w))
  · rw [execBody_mul_defined defined] at run
    rw [run]
    exact ⟨⟨fun _ => defined, fun _ => rfl⟩, ⟨nofun, fun undefined => absurd defined undefined⟩⟩
  · rw [execBody_mul_undefined defined] at run
    rw [run]
    exact ⟨⟨nofun, fun holds => absurd holds defined⟩, ⟨fun _ => defined, fun _ => rfl⟩⟩

/-- `div x5, x6, x7`. -/
def divWord : Word := 0x027342b3#32

def divState (dividend divisor : Word) : State where
  cpu :=
    { gpr := fun r => if r = 6#5 then dividend else if r = 7#5 then divisor else 0#32
      pc := 0x80000000#32
      csr := fun _ => 0#32 }
  mem := fun _ _ => 0#8

theorem encodesMul_divWord : EncodesMul divWord .div := ⟨by decide, by decide, by decide⟩

/-- Seven divided by minus two. -/
theorem muldiv_exact_div :
    decodeExec ⟨.share, true⟩ divWord 0x80000000#32 (0x80000000#32 + 4#32)
        (divState 7#32 0xfffffffe#32) =
      .ok (0x80000004#32,
        ((divState 7#32 0xfffffffe#32).setGpr 5#5 0xfffffffd#32).setGpr 0#5 0#32) := by
  have exact :=
    (@muldiv_exact_iff ⟨.share, true⟩ 0x80000000#32 (divState 7#32 0xfffffffe#32) .div divWord
      encodesMul_divWord).1.mpr ⟨by decide, by decide⟩
  rw [exact]
  rfl

/-- Division by zero traps on the host where the manual gives all ones. -/
theorem muldiv_by_zero_fails :
    ¬ ∀ (cfg : Config) (pc : Word) (st : State) (w : Word) (f : MulOp), EncodesMul w f →
      decodeExec cfg w pc (pc + 4#32) st =
        .ok (pc + 4#32,
          (st.setGpr (rd w) (f.eval (st.cpu.gpr (rs1 w)) (st.cpu.gpr (rs2 w)))).setGpr 0#5 0#32)
    := by
  intro always
  have done := always ⟨.share, true⟩ 0x80000000#32 (divState 7#32 0#32) divWord .div
    encodesMul_divWord
  have run := decodeExec_of_selects ⟨.share, true⟩ 0x80000000#32 (divState 7#32 0#32)
    (selects_mul encodesMul_divWord)
  have traps : execBody ⟨.share, true⟩ 0x80000000#32 (0x80000000#32 + 4#32) (divState 7#32 0#32)
      (decodeOperand divWord (divState 7#32 0#32).cpu.gpr .R) (mulName .div) =
        .error .division := by
    rw [decodeOperand_R]
    exact execBody_mul_undefined (by rintro ⟨nonzero, -⟩; exact nonzero rfl)
  rw [traps] at run
  rw [run] at done
  cases done

end Ysyx.Nemu
