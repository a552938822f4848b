import Ysyx.Am.Listing
import Ysyx.Rv32.MulDiv

/-! The software multiplication and division that programs are linked with, since the core has no
M extension: `muldi3.S` and `div.S` of libgcc under their names on RV32. -/

set_option autoImplicit false

namespace Ysyx.Am.Libgcc

open Rv32 (Word RegId BranchOp MulOp)
open Lib (ByteMem)

inductive Label where
  | mulsi3 | divsi3 | udivsi3 | umodsi3 | modsi3
  | l1 | l2 | l3 | l4 | l5 | l10 | l11 | l12 | l30 | l31 | l32
  deriving DecidableEq, Repr

abbrev Text := Listing Label

def zero : RegId := 0#5
def a1 : RegId := 11#5
def a2 : RegId := 12#5
def a3 : RegId := 13#5

/-!
## Assembler instructions
-/

abbrev Ins := Item Label

def li (rd : RegId) (imm : Int) : Ins := .op (addi rd zero imm)
def mv (rd rs : RegId) : Ins := .op (addi rd rs 0)
def neg (rd rs : RegId) : Ins := .op (.base (.opReg .sub rd zero rs))
def add (rd rs1 rs2 : RegId) : Ins := .op (.base (.opReg .add rd rs1 rs2))
def sub (rd rs1 rs2 : RegId) : Ins := .op (.base (.opReg .sub rd rs1 rs2))
def or (rd rs1 rs2 : RegId) : Ins := .op (.base (.opReg .or rd rs1 rs2))
def andi (rd rs1 : RegId) (imm : Int) : Ins := .op (.base (.opImm .and rd rs1 (BitVec.ofInt 32 imm)))
def slli (rd rs1 : RegId) (shamt : Nat) : Ins :=
  .op (.base (.opImm .sll rd rs1 (BitVec.ofNat 32 shamt)))
def srli (rd rs1 : RegId) (shamt : Nat) : Ins :=
  .op (.base (.opImm .srl rd rs1 (BitVec.ofNat 32 shamt)))

def beqz (rs : RegId) (target : Label) : Ins := .branch .beq rs zero target
def bnez (rs : RegId) (target : Label) : Ins := .branch .bne rs zero target
def bltz (rs : RegId) (target : Label) : Ins := .branch .blt rs zero target
def bgez (rs : RegId) (target : Label) : Ins := .branch .bge rs zero target
def blez (rs : RegId) (target : Label) : Ins := .branch .bge zero rs target
def bgtz (rs : RegId) (target : Label) : Ins := .branch .blt zero rs target
def bltu (rs rt : RegId) (target : Label) : Ins := .branch .bltu rs rt target
def bgtu (rs rt : RegId) (target : Label) : Ins := .branch .bltu rt rs target
def bgeu (rs rt : RegId) (target : Label) : Ins := .branch .bgeu rs rt target

def j (target : Label) : Ins := .jal zero target
def jal (target : Label) : Ins := .jal ra target
def jr (rs : RegId) : Ins := .op (.base (.jalr zero rs 0#32))
def ret : Ins := jr ra

/-!
## muldi3.S
-/

def muldi3Text : Text :=
  [.label .mulsi3,
    mv a2 a0,
    li a0 0,
    .label .l1,
    andi a3 a1 1,
    beqz a3 .l2,
    add a0 a0 a2,
    .label .l2,
    srli a1 a1 1,
    slli a2 a2 1,
    bnez a1 .l1,
    ret]

/-!
## div.S
-/

def divText : Text :=
  [.label .divsi3,
    bltz a0 .l10,
    bltz a1 .l11,
    .label .udivsi3,
    mv a2 a1,
    mv a1 a0,
    li a0 (-1),
    beqz a2 .l5,
    li a3 1,
    bgeu a2 a1 .l2,
    .label .l1,
    blez a2 .l2,
    slli a2 a2 1,
    slli a3 a3 1,
    bgtu a1 a2 .l1,
    .label .l2,
    li a0 0,
    .label .l3,
    bltu a1 a2 .l4,
    sub a1 a1 a2,
    or a0 a0 a3,
    .label .l4,
    srli a3 a3 1,
    srli a2 a2 1,
    bnez a3 .l3,
    .label .l5,
    ret,
    .label .umodsi3,
    mv t0 ra,
    jal .udivsi3,
    mv a0 a1,
    jr t0,
    .label .l10,
    neg a0 a0,
    bgtz a1 .l12,
    neg a1 a1,
    j .udivsi3,
    .label .l11,
    neg a1 a1,
    .label .l12,
    mv t0 ra,
    jal .udivsi3,
    neg a0 a0,
    jr t0,
    .label .modsi3,
    mv t0 ra,
    bltz a1 .l31,
    bltz a0 .l32,
    .label .l30,
    jal .udivsi3,
    mv a0 a1,
    jr t0,
    .label .l31,
    neg a1 a1,
    bgez a0 .l30,
    .label .l32,
    neg a0 a0,
    jal .udivsi3,
    neg a0 a1,
    jr t0]

/-!
## Calls
-/

/-- The routines, by the instruction they stand for. -/
inductive Routine where
  | mulsi3 | divsi3 | udivsi3 | modsi3 | umodsi3
  deriving DecidableEq, Repr

namespace Routine

def text : Routine → Text
  | .mulsi3 => muldi3Text
  | .divsi3 | .udivsi3 | .modsi3 | .umodsi3 => divText

def label : Routine → Label
  | .mulsi3 => .mulsi3
  | .divsi3 => .divsi3
  | .udivsi3 => .udivsi3
  | .modsi3 => .modsi3
  | .umodsi3 => .umodsi3

def op : Routine → MulOp
  | .mulsi3 => .mul
  | .divsi3 => .div
  | .udivsi3 => .divu
  | .modsi3 => .rem
  | .umodsi3 => .remu

end Routine

/-- The registers the loops work on; a routine that calls another also uses `t0` and `ra`. -/
def clobbered : List RegId := [a0, a1, a2, a3]

/-- The text lies at `base` and the machine is at the first instruction of the routine. -/
structure Called (routine : Routine) (base : Word) (machine : Machine) : Prop where
  aligned : 4 ∣ base.toNat
  code : CodeAt machine.mem base routine.text.ops
  pc : machine.pc = place base (Listing.index routine.label routine.text)

/-- The routine is back at its caller with the result. `jr` clears bit 0 of its target. -/
structure Returned (routine : Routine) (machine after : Machine) : Prop where
  pc : after.pc = machine.gpr ra &&& ~~~1#32
  result : after.gpr a0 = routine.op.eval (machine.gpr a0) (machine.gpr a1)
  kept : ∀ r, r ∉ clobbered → r ≠ t0 → r ≠ ra → after.gpr r = machine.gpr r
  mem : after.mem = machine.mem
  csr : after.csr = machine.csr

end Ysyx.Am.Libgcc
