import Ysyx.Npc.Exu
import Ysyx.Rv32.Semantics

/-! The clocked units of the core other than the two bus masters: `regfile.v`,
`csrfile.v`, `wbu.v`, `bru.v` and `iru.v`. Each unit is a record of its
registers with a reset value and the value after one clock edge. -/

set_option autoImplicit false

namespace Ysyx.Npc

open Rv32 (Word RegId Byte)

/-!
## Register file
-/

abbrev Regfile := RegId → Word

/-- `regfile`: a write to register 0 stores zero. -/
def Regfile.next (rf : Regfile) (wen : Bool) (waddr : RegId) (wdata : Word) : Regfile :=
  if wen then
    fun r => if r = waddr then (if waddr = 0#5 then 0#32 else wdata) else rf r
  else rf

@[simp] theorem Regfile.next_idle (rf : Regfile) (waddr : RegId) (wdata : Word) :
    rf.next false waddr wdata = rf := rfl

theorem Regfile.next_write (rf : Regfile) (waddr : RegId) (wdata : Word) :
    rf.next true waddr wdata = Rv32.writeGpr rf waddr wdata := rfl

theorem Regfile.next_zero {rf : Regfile} (zero : rf 0#5 = 0#32) (wen : Bool) (waddr : RegId)
    (wdata : Word) : rf.next wen waddr wdata 0#5 = 0#32 := by
  cases wen with
  | false => exact zero
  | true => exact Rv32.writeGpr_zero zero waddr wdata

/-!
## Control and status registers
-/

@[ext]
structure Csrfile where
  mepc : Word
  mtvec : Word
  mcause : Word
  mstatus : Word
  mvendorid : Word
  marchid : Word
  deriving DecidableEq, Repr

def Csrfile.reset : Csrfile where
  mepc := 0#32
  mtvec := 0#32
  mcause := 0#32
  mstatus := 0#32
  mvendorid := 0x79737978#32
  marchid := 0xbc614e#32

def Csrfile.rdata (csrs : Csrfile) (ren : Bool) (raddr : BitVec 12) : Word :=
  if ren && raddr == addrMepc then csrs.mepc else
  if ren && raddr == addrMtvec then csrs.mtvec else
  if ren && raddr == addrMcause then csrs.mcause else
  if ren && raddr == addrMstatus then csrs.mstatus else
  if ren && raddr == addrMvendorid then csrs.mvendorid else
  if ren && raddr == addrMarchid then csrs.marchid else 0#32

/-!
## Interrupt unit
-/

/-- `iru`: the CSR updates of a trap, waiting for the commit. -/
structure Iru where
  mepcWen : Bool
  mepcWdata : Word
  mcauseWen : Bool
  mcauseWdata : Word
  mstatusWen : Bool
  mstatusWdata : Word
  deriving DecidableEq, Repr

def Iru.reset : Iru where
  mepcWen := false
  mepcWdata := 0#32
  mcauseWen := false
  mcauseWdata := 0#32
  mstatusWen := false
  mstatusWdata := 0#32

def Iru.load (pc : Word) (ecall mret : Bool) (mstatus : Word) : Iru where
  mepcWen := ecall
  mepcWdata := pc
  mcauseWen := ecall
  mcauseWdata := if ecall then irqEcall else 0#32
  mstatusWen := ecall || mret
  mstatusWdata := mstatus

def Iru.next (iru : Iru) (iduValid : Bool) (pc : Word) (ecall mret : Bool) (mstatus : Word) : Iru :=
  if iduValid then Iru.load pc ecall mret mstatus else iru

/-!
## Writeback unit
-/

/-- The instruction's writeback signals, as latched from `idu` and `exu`. -/
structure WbuSignals where
  ldEn : Bool
  rdwen : Bool
  rdid : RegId
  csrdwen : Bool
  csrdid : BitVec 12
  exuRes : Word
  csrd : Word
  deriving DecidableEq, Repr

structure Wbu where
  signals : WbuSignals
  ready : Bool
  deriving DecidableEq, Repr

def Wbu.reset : Wbu where
  signals := ⟨false, false, 0#5, false, 0#12, 0#32, 0#32⟩
  ready := true

/-- `top.v` passes `~lsu_opt[0]` as the load enable. -/
def WbuSignals.load (d : Idu) (e : Exu) : WbuSignals where
  ldEn := !d.lsuOpt.getLsbD 0
  rdwen := d.rdwen
  rdid := d.rdid
  csrdwen := d.csrdwen
  csrdid := d.csrdid
  exuRes := e.exuRes
  csrd := e.csrd

/-- `wbu` has two latches, enabled by `i_idu_valid` and `i_exu_valid`. -/
def Wbu.next (wbu : Wbu) (iduValid exuValid lsuValid : Bool) (d : Idu) (e : Exu) : Wbu where
  signals :=
    let loaded := WbuSignals.load d e
    { ldEn := if iduValid then loaded.ldEn else wbu.signals.ldEn
      rdwen := if iduValid then loaded.rdwen else wbu.signals.rdwen
      rdid := if iduValid then loaded.rdid else wbu.signals.rdid
      csrdwen := if iduValid then loaded.csrdwen else wbu.signals.csrdwen
      csrdid := if iduValid then loaded.csrdid else wbu.signals.csrdid
      exuRes := if exuValid then loaded.exuRes else wbu.signals.exuRes
      csrd := if exuValid then loaded.csrd else wbu.signals.csrd }
  ready := lsuValid

def WbuSignals.rd (signals : WbuSignals) (lsuRes : Word) : Word :=
  if signals.ldEn then lsuRes else signals.exuRes

/-- `csrfile` at a clock edge: the trap ports of `iru` win over the CSR port. -/
def Csrfile.next (csrs : Csrfile) (lsuValid : Bool) (signals : WbuSignals) (iru : Iru) :
    Csrfile :=
  let wen := signals.csrdwen && lsuValid
  let mepcWen := iru.mepcWen && lsuValid
  let mcauseWen := iru.mcauseWen && lsuValid
  let mstatusWen := iru.mstatusWen && lsuValid
  { mepc :=
      if (wen && signals.csrdid == addrMepc) || mepcWen then
        if mepcWen then iru.mepcWdata else signals.csrd
      else csrs.mepc
    mtvec := if wen && signals.csrdid == addrMtvec then signals.csrd else csrs.mtvec
    mcause :=
      if (wen && signals.csrdid == addrMcause) || mcauseWen then
        if mcauseWen then iru.mcauseWdata else signals.csrd
      else csrs.mcause
    mstatus :=
      if (wen && signals.csrdid == addrMstatus) || mstatusWen then
        if mstatusWen then iru.mstatusWdata else signals.csrd
      else csrs.mstatus
    mvendorid := csrs.mvendorid
    marchid := csrs.marchid }

@[simp] theorem Csrfile.next_idle (csrs : Csrfile) (signals : WbuSignals) (iru : Iru) :
    csrs.next false signals iru = csrs := by
  simp [Csrfile.next]

/-!
## Branch unit
-/

structure Bru where
  pcReg : Word
  pc : Word
  deriving DecidableEq, Repr

def Bru.reset (build : Build) : Bru where
  pcReg := 0#32
  pc := resetPc build

/-- `pc_next`: traps first, then taken branches and jumps, then `pc + 4`. -/
def bruPcNext (pc : Word) (d : Idu) (zero : Bool) (rs1 : Word) (csrs : Csrfile)
    (ifuAccessFault : Bool) : Word :=
  if ifuAccessFault then 0#32 else
  if d.ecall || d.mret then
    if d.ecall then csrs.mtvec else if d.mret then csrs.mepc else 0#32
  else if d.brch && !zero || d.jal then pc + d.imm
  else if d.jalr then rs1 + d.imm
  else pc + 4#32

def Bru.next (bru : Bru) (iduValid lsuValid lsuAccessFault : Bool) (pcNext : Word) : Bru where
  pcReg := if iduValid then pcNext else bru.pcReg
  pc := if lsuValid then (if lsuAccessFault then 0#32 else bru.pcReg) else bru.pc

end Ysyx.Npc
