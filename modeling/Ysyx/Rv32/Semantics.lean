import Ysyx.Rv32.Instr
import Ysyx.Lib.ByteMem

/-! What an RV32I instruction does, as the RISC-V manual defines it: the
register it writes, the value, the memory access, the branch decision and the
next pc, and from these one step of a hart over a byte memory. -/

set_option autoImplicit false

namespace Ysyx.Rv32

open Lib (ByteMem)

inductive Access where
  | none
  | load (op : LoadOp) (addr : Word)
  | store (op : StoreOp) (addr data : Word)
  deriving DecidableEq, Repr

/-- The destination register, for the classes that have one. -/
def Instr.dest : Instr → Option RegId
  | .lui rd _ | .auipc rd _ | .jal rd _ | .jalr rd _ _ | .load _ rd _ _ | .opImm _ rd _ _
  | .opReg _ rd _ _ => some rd
  | .branch _ _ _ _ | .store _ _ _ _ => none

/-- The value written to the destination, unless it comes from memory. -/
def Instr.result (pc : Word) (x : RegId → Word) : Instr → Option Word
  | .lui _ imm => some imm
  | .auipc _ imm => some (pc + imm)
  | .jal _ _ | .jalr _ _ _ => some (pc + 4#32)
  | .opImm op _ rs1 imm => some (op.eval (x rs1) imm)
  | .opReg op _ rs1 rs2 => some (op.eval (x rs1) (x rs2))
  | .branch _ _ _ _ | .load _ _ _ _ | .store _ _ _ _ => none

def Instr.access (x : RegId → Word) : Instr → Access
  | .load op _ rs1 imm => .load op (x rs1 + imm)
  | .store op rs1 rs2 imm => .store op (x rs1 + imm) (x rs2)
  | _ => .none

def Instr.taken (x : RegId → Word) : Instr → Bool
  | .branch op rs1 rs2 _ => op.taken (x rs1) (x rs2)
  | _ => false

/-- JALR clears bit 0 of its target. -/
def Instr.nextPc (pc : Word) (x : RegId → Word) : Instr → Word
  | .jal _ imm => pc + imm
  | .jalr _ rs1 imm => (x rs1 + imm) &&& ~~~1#32
  | .branch op rs1 rs2 imm => if op.taken (x rs1) (x rs2) then pc + imm else pc + 4#32
  | _ => pc + 4#32

/-- Where JALR has nothing to clear. -/
theorem eq_clear_bit_zero_iff (a : Word) : a = a &&& ~~~1#32 ↔ a.getLsbD 0 = false := by
  constructor
  · intro same
    rw [same]
    simp
  · intro even
    apply BitVec.eq_of_getLsbD_eq
    intro i bound
    rw [BitVec.getLsbD_and, BitVec.getLsbD_not, BitVec.getLsbD_one]
    by_cases first : i = 0
    · subst first
      simp only [even, Bool.false_and]
    · simp only [first, bound, decide_true, decide_false, Bool.and_false, Bool.not_false,
        Bool.and_true]

/-!
## Harts
-/

@[ext]
structure Hart where
  gpr : RegId → Word
  pc : Word
  mem : ByteMem 32

/-- Register read: x0 reads as zero whatever the array holds. -/
def readGpr (gpr : RegId → Word) (r : RegId) : Word := if r = 0#5 then 0#32 else gpr r

def Hart.x (hart : Hart) : RegId → Word := readGpr hart.gpr

/-- Register write: a write to x0 leaves zero. -/
def writeGpr (gpr : RegId → Word) (r : RegId) (v : Word) : RegId → Word :=
  fun q => if q = r then (if r = 0#5 then 0#32 else v) else gpr q

def writeBack (gpr : RegId → Word) : Option RegId → Option Word → RegId → Word
  | some rd, some v => writeGpr gpr rd v
  | _, _ => gpr

def loadValue (mem : ByteMem 32) (op : LoadOp) (addr : Word) : Word :=
  op.extend (mem.readLe addr op.size)

def storeValue (mem : ByteMem 32) (op : StoreOp) (addr data : Word) : ByteMem 32 :=
  mem.writeLe addr op.size data

/-- The value that reaches the destination register. -/
def Hart.written (hart : Hart) (instr : Instr) : Option Word :=
  match instr.access hart.x with
  | .load op addr => some (loadValue hart.mem op addr)
  | _ => instr.result hart.pc hart.x

def Hart.step (hart : Hart) (instr : Instr) : Hart where
  gpr := writeBack hart.gpr instr.dest (hart.written instr)
  pc := instr.nextPc hart.pc hart.x
  mem :=
    match instr.access hart.x with
    | .store op addr data => storeValue hart.mem op addr data
    | _ => hart.mem

@[simp] theorem Hart.x_zero (hart : Hart) : hart.x 0#5 = 0#32 := rfl

theorem readGpr_eq {gpr : RegId → Word} (zero : gpr 0#5 = 0#32) : readGpr gpr = gpr := by
  funext r
  by_cases isZero : r = 0#5
  · simp [readGpr, isZero, zero]
  · simp [readGpr, isZero]

theorem Hart.x_eq_gpr {hart : Hart} (zero : hart.gpr 0#5 = 0#32) : hart.x = hart.gpr :=
  readGpr_eq zero

theorem writeGpr_zero {gpr : RegId → Word} (zero : gpr 0#5 = 0#32) (r : RegId) (v : Word) :
    writeGpr gpr r v 0#5 = 0#32 := by
  by_cases isZero : r = 0#5
  · simp [writeGpr, isZero]
  · simp [writeGpr, zero, Ne.symm isZero]

theorem writeGpr_x0 {gpr : RegId → Word} (zero : gpr 0#5 = 0#32) (v : Word) :
    writeGpr gpr 0#5 v = gpr := by
  funext q
  by_cases isZero : q = 0#5 <;> simp [writeGpr, isZero, zero]

/-- Only stores change memory, and they have no destination. -/
theorem Hart.step_mem_of_dest {hart : Hart} {instr : Instr} {rd : RegId}
    (dest : instr.dest = some rd) : (hart.step instr).mem = hart.mem := by
  cases instr with
  | store => cases dest
  | _ => rfl

/-- Stepping keeps x0 at zero in the array itself. -/
theorem Hart.step_gpr_zero {hart : Hart} (zero : hart.gpr 0#5 = 0#32) (instr : Instr) :
    (hart.step instr).gpr 0#5 = 0#32 := by
  simp only [Hart.step]
  cases instr.dest <;> cases hart.written instr
  case some.some rd v => exact writeGpr_zero zero rd v
  all_goals exact zero

end Ysyx.Rv32
