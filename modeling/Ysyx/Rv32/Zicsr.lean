import Ysyx.Rv32.System
import Mathlib.Logic.Function.Basic

/-! The CSR instructions as the RISC-V manual gives them, on the six machine-mode
CSRs of the core: read, then write, set or clear, with a register or an
immediate as the operand. ECALL and MRET are here for what they do to the CSRs. -/

set_option autoImplicit false

namespace Ysyx.Rv32

inductive CsrName where
  | mstatus | mtvec | mepc | mcause | mvendorid | marchid
  deriving DecidableEq, Repr

def csrName? (addr : BitVec 12) : Option CsrName :=
  if addr = 0x300#12 then some .mstatus else
  if addr = 0x305#12 then some .mtvec else
  if addr = 0x341#12 then some .mepc else
  if addr = 0x342#12 then some .mcause else
  if addr = 0xf11#12 then some .mvendorid else
  if addr = 0xf12#12 then some .marchid else none

/-- The two identification registers are read-only. -/
def CsrName.writable : CsrName → Bool
  | .mvendorid | .marchid => false
  | _ => true

inductive CsrOp where
  | rw | rs | rc
  deriving DecidableEq, Repr

inductive CsrSource where
  | reg (rs1 : RegId)
  | imm (uimm : BitVec 5)
  deriving DecidableEq, Repr

inductive CsrInstr where
  | access (op : CsrOp) (rd : RegId) (source : CsrSource) (csr : CsrName)
  | ecall
  | mret
  deriving DecidableEq, Repr

/-!
## Decoding
-/

def csrOp? (f : BitVec 2) : Option CsrOp :=
  if f = 0b01#2 then some .rw else
  if f = 0b10#2 then some .rs else
  if f = 0b11#2 then some .rc else none

/-- Bit 2 of `funct3` selects the immediate. -/
def csrSource (w : Word) : CsrSource :=
  if (funct3 w).getLsbD 2 then .imm (rs1 w) else .reg (rs1 w)

def decodeCsr (w : Word) : Option CsrInstr :=
  if w = ecallWord then some .ecall else
  if w = mretWord then some .mret else
  if opcode w = 0b1110011#7 then do
    let op ← csrOp? ((funct3 w).extractLsb' 0 2)
    let csr ← csrName? (csrField w)
    some (.access op (rd w) (csrSource w) csr)
  else none

inductive EncodesCsr (w : Word) : CsrInstr → Prop where
  | ecall : w = ecallWord → EncodesCsr w .ecall
  | mret : w = mretWord → EncodesCsr w .mret
  | access {op : CsrOp} {csr : CsrName} : opcode w = 0b1110011#7 →
      csrOp? ((funct3 w).extractLsb' 0 2) = some op → csrName? (csrField w) = some csr →
      EncodesCsr w (.access op (rd w) (csrSource w) csr)

theorem decodeCsr_encodes {w : Word} {instr : CsrInstr} (decoded : decodeCsr w = some instr) :
    EncodesCsr w instr := by
  unfold decodeCsr at decoded
  split at decoded
  · cases decoded; exact .ecall ‹_›
  split at decoded
  · cases decoded; exact .mret ‹_›
  split at decoded
  · obtain ⟨op, isOp, rest⟩ := Option.bind_eq_some_iff.mp decoded
    obtain ⟨csr, isCsr, found⟩ := Option.bind_eq_some_iff.mp rest
    cases found
    exact .access ‹_› isOp isCsr
  · cases decoded

theorem EncodesCsr.opcode {w : Word} {instr : CsrInstr} (encodes : EncodesCsr w instr) :
    opcode w = 0b1110011#7 := by
  cases encodes with
  | ecall word => subst word; rfl
  | mret word => subst word; rfl
  | access op _ _ => exact op

/-!
## Meaning
-/

/-- The registers and the CSRs. -/
@[ext]
structure CsrHart where
  gpr : RegId → Word
  csr : CsrName → Word

def CsrOp.eval (op : CsrOp) (old operand : Word) : Word :=
  match op with
  | .rw => operand
  | .rs => old ||| operand
  | .rc => old &&& ~~~operand

/-- A register operand is what the array holds, at x0 too: the manual's, which reads x0 as
zero, where `readGpr gpr = gpr`. -/
def CsrSource.value (gpr : RegId → Word) : CsrSource → Word
  | .reg rs1 => gpr rs1
  | .imm uimm => uimm.setWidth 32

/-- Register 0, or the immediate 0. -/
def CsrSource.isZero : CsrSource → Bool
  | .reg rs1 => rs1 == 0#5
  | .imm uimm => uimm == 0#5

/-- Set and clear without a source do not write. -/
def CsrOp.writes (op : CsrOp) (source : CsrSource) : Bool :=
  match op with
  | .rw => true
  | .rs | .rc => !source.isZero

/-- What one instruction at `pc` does. Everything not written stays. -/
def CsrHart.step (hart : CsrHart) (pc : Word) : CsrInstr → CsrHart
  | .access op rd source csr =>
      { gpr := if rd = 0#5 then hart.gpr else Function.update hart.gpr rd (hart.csr csr)
        csr :=
          if op.writes source && csr.writable then
            Function.update hart.csr csr (op.eval (hart.csr csr) (source.value hart.gpr))
          else hart.csr }
  | .ecall =>
      { hart with
        csr := Function.update (Function.update hart.csr .mepc pc) .mcause 11#32 }
  | .mret => hart

end Ysyx.Rv32
