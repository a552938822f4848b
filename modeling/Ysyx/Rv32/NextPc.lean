import Ysyx.Rv32.Zicsr

/-! The next pc of every instruction of the core, as the RISC-V manual gives it. -/

set_option autoImplicit false

namespace Ysyx.Rv32

/-- An instruction by where it goes: `next` stands for the fences and the CSR
instructions. -/
inductive Flow where
  | base (instr : Instr)
  | next
  | ecall
  | mret
  deriving DecidableEq, Repr

def isFence (w : Word) : Bool :=
  opcode w == 0b0001111#7 && (funct3 w == 0b000#3 || funct3 w == 0b001#3)

def decodeFlow (w : Word) : Option Flow :=
  match decode w, decodeCsr w with
  | some instr, _ => some (.base instr)
  | none, some .ecall => some .ecall
  | none, some .mret => some .mret
  | none, some (.access _ _ _ _) => some .next
  | none, none => if isFence w then some .next else none

/-- The trap vector and the return address lie in words: the manual keeps the mode in the low
two bits of `mtvec` and reads those of `mepc` as zero. -/
def wordPart (a : Word) : Word := a &&& ~~~3#32

/-- `target` says how a trap CSR is read as an address, and `x` how a register is read: the
manual's `x` reads x0 as zero. -/
def Flow.nextPc (target : Word → Word) (pc : Word) (x : RegId → Word) (csr : CsrName → Word) :
    Flow → Word
  | .base instr => instr.nextPc pc x
  | .next => pc + 4#32
  | .ecall => target (csr .mtvec)
  | .mret => target (csr .mepc)

end Ysyx.Rv32
