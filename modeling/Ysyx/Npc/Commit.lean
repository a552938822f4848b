import Ysyx.Npc.Masters

/-! The architecture the core implements: what one instruction word does to the
program counter, the registers, the CSRs and a device on the bus. Every value
is the one the units of the core compute; only the clock is left out. -/

set_option autoImplicit false

namespace Ysyx.Npc

open Rv32 (Word RegId Byte)

/-- The state that an instruction reads and its commit writes. -/
@[ext]
structure Arch where
  rf : Regfile
  pc : Word
  csrs : Csrfile

/-- A slave as the bus masters see it: what a read returns and what a write does. -/
structure Device (σ : Type) where
  read : σ → AxiAddr → Word × σ
  write : σ → AxiAddr → Word → BitVec 4 → σ

/-- What the units latch of an instruction word when `idu_valid` is high. -/
structure Issue where
  lsuOpt : BitVec 4
  regst : Word
  signals : WbuSignals
  iru : Iru
  pcNext : Word
  deriving DecidableEq, Repr

def Arch.decode (arch : Arch) (instr : Word) : Idu × Exu :=
  let d := idu instr
  let csrs := arch.csrs.rdata d.csrsren d.csrsid
  (d, exu arch.pc (arch.rf d.rs1id) (arch.rf d.rs2id) d.imm d.exuSrcSel d.exuOpt d.sysins csrs
    d.excsropt d.excsrsrc)

def Arch.issue (arch : Arch) (instr : Word) : Issue :=
  let d := (arch.decode instr).1
  let e := (arch.decode instr).2
  { lsuOpt := d.lsuOpt
    regst := arch.rf d.rs2id
    signals := WbuSignals.load d e
    iru := Iru.load arch.pc d.ecall d.mret arch.csrs.mstatus
    pcNext := bruPcNext arch.pc d e.zero (arch.rf d.rs1id) arch.csrs false }

def Issue.addr (issue : Issue) : Word := issue.signals.exuRes

def Issue.isLoad (issue : Issue) : Bool := lsuRen issue.lsuOpt

def Issue.isStore (issue : Issue) : Bool := lsuWen issue.lsuOpt

def Issue.ar (issue : Issue) : AxiAddr := AxiAddr.single issue.addr (arsizeInt issue.lsuOpt)

def Issue.aw (issue : Issue) : AxiAddr := AxiAddr.single issue.addr (awsizeInt issue.lsuOpt)

def Issue.wdata (issue : Issue) : Word := wdataInt issue.addr issue.regst

def Issue.wstrb (issue : Issue) : BitVec 4 := lsuWstrb issue.lsuOpt issue.addr

/-- The commit of an issued instruction, given the word the bus returned. -/
def Arch.retire (arch : Arch) (issue : Issue) (rdata : Word) : Arch where
  rf := arch.rf.next issue.signals.rdwen issue.signals.rdid
    (issue.signals.rd (lsuRegld issue.lsuOpt issue.addr rdata))
  pc := issue.pcNext
  csrs := arch.csrs.next true issue.signals issue.iru

/-- The fetch of the word at the program counter. -/
def Arch.fetch (arch : Arch) : AxiAddr := AxiAddr.single arch.pc 2#3

variable {σ : Type}

/-- One instruction whose word has been fetched. -/
def archExec (dev : Device σ) (arch : Arch) (mem : σ) (instr : Word) : Arch × σ :=
  let issue := arch.issue instr
  if issue.isLoad then
    let (rdata, mem) := dev.read mem issue.ar
    (arch.retire issue rdata, mem)
  else if issue.isStore then
    (arch.retire issue 0#32, dev.write mem issue.aw issue.wdata issue.wstrb)
  else (arch.retire issue 0#32, mem)

/-- One instruction: fetch and execute. -/
def archStep (dev : Device σ) (state : Arch × σ) : Arch × σ :=
  let (instr, mem) := dev.read state.2 state.1.fetch
  archExec dev state.1 mem instr

theorem isStore_false_of_isLoad {issue : Issue} (load : issue.isLoad = true) :
    issue.isStore = false := by
  simp_all [Issue.isLoad, Issue.isStore, lsuRen, lsuWen]

end Ysyx.Npc
