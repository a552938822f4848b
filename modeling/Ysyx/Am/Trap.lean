import Ysyx.Rv32.System
import Ysyx.Lib.Block

/-! The trap path of the AM on RV32I: the instructions of `trap.S`, the functions of `cte.c`,
and the `Context` they share. -/

set_option autoImplicit false

namespace Ysyx.Am

open Rv32 (Word RegId Instr SysInstr CsrSlot Hart SysHart)
open Lib (ByteMem)

/-!
## Harts
-/

/-- A hart with its CSRs and memory; x0 holds zero. -/
@[ext]
structure Machine where
  gpr : RegId → Word
  x0 : gpr 0#5 = 0#32
  pc : Word
  csr : CsrSlot → Word
  mem : ByteMem 32

/-- An instruction of either kind. -/
inductive Op where
  | base (instr : Instr)
  | sys (instr : SysInstr)
  deriving DecidableEq, Repr

def Machine.hart (machine : Machine) : Hart := ⟨machine.gpr, machine.pc, machine.mem⟩

def Machine.sysHart (machine : Machine) : SysHart := ⟨machine.gpr, machine.pc, machine.csr⟩

def Machine.step (machine : Machine) : Op → Machine
  | .base instr =>
      { machine with
        gpr := (machine.hart.step instr).gpr
        x0 := @Hart.step_gpr_zero machine.hart machine.x0 instr
        pc := (machine.hart.step instr).pc
        mem := (machine.hart.step instr).mem }
  | .sys instr =>
      { machine with
        gpr := (machine.sysHart.step instr).gpr
        x0 := @SysHart.step_gpr_zero machine.sysHart machine.x0 instr
        pc := (machine.sysHart.step instr).pc
        csr := (machine.sysHart.step instr).csr }

def Machine.exec (machine : Machine) (ops : List Op) : Machine := ops.foldl Machine.step machine

/-!
## trap.S
-/

def ra : RegId := 1#5
def sp : RegId := 2#5
def t0 : RegId := 5#5
def t1 : RegId := 6#5
def t2 : RegId := 7#5
def a0 : RegId := 10#5

def addi (rd rs1 : RegId) (imm : Int) : Op := .base (.opImm .add rd rs1 (BitVec.ofInt 32 imm))
def mv (rd rs1 : RegId) : Op := addi rd rs1 0
def store (rs2 : RegId) (offset : Nat) (rs1 : RegId) : Op :=
  .base (.store .sw rs1 rs2 (BitVec.ofNat 32 offset))
def load (rd : RegId) (offset : Nat) (rs1 : RegId) : Op :=
  .base (.load .lw rd rs1 (BitVec.ofNat 32 offset))
def csrr (rd : RegId) (slot : CsrSlot) : Op := .sys (.csrrs rd 0#5 slot)
def csrw (slot : CsrSlot) (rs1 : RegId) : Op := .sys (.csrrw 0#5 rs1 slot)

def xlen : Nat := 4
def nrRegs : Nat := 32

def regsLo16 : List Nat := [1, 3, 4, 5, 6, 7, 8, 9, 10, 11, 12, 13, 14, 15]
def regsHi16 : List Nat := [16, 17, 18, 19, 20, 21, 22, 23, 24, 25, 26, 27, 28, 29, 30, 31]
def regs : List Nat := regsLo16 ++ regsHi16

def push (n : Nat) : Op := store (BitVec.ofNat 5 n) (n * xlen) sp
def pop (n : Nat) : Op := load (BitVec.ofNat 5 n) (n * xlen) sp

def contextSize : Nat := (nrRegs + 3 + 1) * xlen
def offsetCause : Nat := (nrRegs + 0) * xlen
def offsetStatus : Nat := (nrRegs + 1) * xlen
def offsetEpc : Nat := (nrRegs + 2) * xlen

/-- From the label to the last instruction before the call. -/
def amAsmTrapSave : List Op :=
  [addi sp sp (-contextSize)] ++ regs.map push ++
    [csrr t0 CsrSlot.mcause, csrr t1 CsrSlot.mstatus, csrr t2 CsrSlot.mepc,
      store t0 offsetCause sp, store t1 offsetStatus sp, store t2 offsetEpc sp, mv a0 sp]

/-- `jal __am_irq_handle`: the offset from the place of the instruction after the label. -/
def callIrqHandle (amAsmTrap amIrqHandle : Word) : Op :=
  .base (.jal ra (amIrqHandle - (amAsmTrap + BitVec.ofNat 32 (4 * amAsmTrapSave.length))))

/-- From the return of the call to the last instruction before `mret`. -/
def amAsmTrapRestore : List Op :=
  [mv sp a0, load t1 offsetStatus sp, load t2 offsetEpc sp, csrw CsrSlot.mstatus t1,
    csrw CsrSlot.mepc t2] ++ regs.map pop ++ [addi sp sp contextSize]

/-- The trap entry up to the first instruction of `__am_irq_handle`. -/
def amAsmTrapEntry (amAsmTrap amIrqHandle : Word) : List Op :=
  amAsmTrapSave ++ [callIrqHandle amAsmTrap amIrqHandle]

def amAsmTrapExit : List Op := amAsmTrapRestore ++ [.sys .mret]

/-!
## cte.c
-/

/-- The members of `struct Context`. -/
inductive Member where
  | gpr (n : Nat)
  | mcause | mstatus | mepc | pdir
  deriving DecidableEq, Repr

def gprNum : Nat := 32

/-- Where the C compiler puts a member, in words. -/
def Member.index : Member → Nat
  | .gpr n => n
  | .mcause => gprNum
  | .mstatus => gprNum + 1
  | .mepc => gprNum + 2
  | .pdir => gprNum + 3

def sizeofContext : Nat := 4 * (gprNum + 4)

def member (mem : ByteMem 32) (c : Word) (field : Member) : Word := mem.readSlot c field.index

def setMember (mem : ByteMem 32) (c : Word) (field : Member) (value : Word) : ByteMem 32 :=
  mem.writeSlot c field.index value

inductive Event where
  | yield | error
  deriving DecidableEq, Repr

/-- A user handler as a function of memory. -/
abbrev UserHandler := Event → Word → ByteMem 32 → Word × ByteMem 32

/-- `__am_irq_handle`; nothing when the assertion on the returned context fails. -/
def amIrqHandle (userHandler : Option UserHandler) (mem : ByteMem 32) (c : Word) :
    Option (Word × ByteMem 32) :=
  match userHandler with
  | none => some (c, mem)
  | some userHandler =>
      let (c, mem) :=
        if member mem c .mcause = 0x0b#32 then
          userHandler .yield c (setMember mem c .mepc (member mem c .mepc + 4#32))
        else userHandler .error c mem
      if c ≠ 0#32 then some (c, mem) else none

/-- `kcontext` on the stack that ends at `kstackEnd`. -/
def kcontext (mem : ByteMem 32) (kstackEnd entry arg : Word) : Word × ByteMem 32 :=
  let c := kstackEnd - BitVec.ofNat 32 sizeofContext
  let mem := setMember mem c .mepc entry
  let mem := setMember mem c .mstatus 0x1800#32
  (c, setMember mem c (.gpr 10) arg)

/-!
## A whole trap
-/

/-- The hart `back` as the call made in `call` may return: to its return address, with the
result in a0 and the memory of the callee. Every other register is free. -/
structure Returns (call : Machine) (result : Word) (mem : ByteMem 32) (back : Machine) : Prop where
  pc : back.pc = call.gpr ra
  a0 : back.gpr a0 = result
  mem : back.mem = mem
  mtvec : back.csr CsrSlot.mtvec = call.csr CsrSlot.mtvec

/-- Where the two functions lie. -/
structure Placement where
  amAsmTrap : Word
  amIrqHandle : Word

/-- The hart at the call of `__am_irq_handle`, from the hart at an `ecall`. -/
def Placement.atCall (place : Placement) (machine : Machine) : Machine :=
  (machine.step (.sys .ecall)).exec (amAsmTrapEntry place.amAsmTrap place.amIrqHandle)

/-- From the hart at an `ecall` to the hart the trap returns to, when traps go to the label. -/
inductive Traps (place : Placement) (userHandler : Option UserHandler) (machine : Machine) :
    Machine → Prop where
  | intro {c : Word} {mem : ByteMem 32} {back : Machine} :
      machine.csr CsrSlot.mtvec = place.amAsmTrap →
      amIrqHandle userHandler (place.atCall machine).mem ((place.atCall machine).gpr a0) =
        some (c, mem) →
      Returns (place.atCall machine) c mem back →
      Traps place userHandler machine (back.exec amAsmTrapExit)

end Ysyx.Am
