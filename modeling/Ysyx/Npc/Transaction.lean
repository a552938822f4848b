import Ysyx.Npc.Core

/-! The core as a sequence of bus transactions: one phase for each thing it waits
for, and nothing else. The registers of the six units are gone; the architecture
changes at commits only. -/

set_option autoImplicit false

namespace Ysyx.Npc

open Rv32 (Word RegId Byte)
open Lib (Machine)

inductive Phase where
  | start
  | fetchAddr
  | fetchWait (instr : Word)
  | fetchData (instr : Word)
  | fetchTake (instr : Word)
  | nop (instr : Word)
  | loadAddr (instr : Word)
  | loadWait (instr data : Word)
  | loadData (instr data : Word)
  | loadTake (instr data : Word)
  | storeReq (instr : Word) (awDone wDone : Bool)
  | storeWait (instr : Word)
  | storeData (instr : Word)
  | storeTake (instr : Word)
  deriving DecidableEq, Repr

/-- The word being executed, from its issue to its commit. -/
def Phase.issued : Phase → Option Word
  | .start | .fetchAddr | .fetchWait _ | .fetchData _ | .fetchTake _ => none
  | .nop instr | .loadAddr instr | .loadWait instr _ | .loadData instr _ | .loadTake instr _
  | .storeReq instr _ _ | .storeWait instr | .storeData instr | .storeTake instr => some instr

/-- The cycle in which the load-store unit raises `lsu_valid`. -/
def Phase.commits : Phase → Bool
  | .nop _ | .loadTake _ _ | .storeTake _ => true
  | _ => false

structure Tx (σ : Type) where
  arch : Arch
  mem : σ
  phase : Phase

variable {σ : Type}

/-- The first phase after the issue of a word. -/
def Arch.dispatch (arch : Arch) (instr : Word) : Phase :=
  let issue := arch.issue instr
  if issue.isLoad then .loadAddr instr else
  if issue.isStore then .storeReq instr false false else .nop instr

def Tx.step (dev : Device σ) (choice : Choice) (tx : Tx σ) : Tx σ :=
  let arch := tx.arch
  match tx.phase with
  | .start => { tx with phase := .fetchAddr }
  | .fetchAddr =>
      if choice.ifuAr then
        let (instr, mem) := dev.read tx.mem arch.fetch
        { tx with mem := mem, phase := if choice.ifuR then .fetchData instr else .fetchWait instr }
      else tx
  | .fetchWait instr => if choice.ifuR then { tx with phase := .fetchData instr } else tx
  | .fetchData instr => { tx with phase := .fetchTake instr }
  | .fetchTake instr => { tx with phase := arch.dispatch instr }
  | .nop instr => { tx with arch := arch.retire (arch.issue instr) 0#32, phase := .start }
  | .loadAddr instr =>
      if choice.lsuAr then
        let (data, mem) := dev.read tx.mem (arch.issue instr).ar
        { tx with
          mem := mem, phase := if choice.lsuR then .loadData instr data else .loadWait instr data }
      else tx
  | .loadWait instr data => if choice.lsuR then { tx with phase := .loadData instr data } else tx
  | .loadData instr data => { tx with phase := .loadTake instr data }
  | .loadTake instr data =>
      { tx with arch := arch.retire (arch.issue instr) data, phase := .start }
  | .storeReq instr awDone wDone =>
      let issue := arch.issue instr
      let awDone := awDone || choice.lsuAw
      let wDone := wDone || choice.lsuW
      if awDone && wDone then
        { tx with
          mem := dev.write tx.mem issue.aw issue.wdata issue.wstrb
          phase := if choice.lsuB then .storeData instr else .storeWait instr }
      else { tx with phase := .storeReq instr awDone wDone }
  | .storeWait instr => if choice.lsuB then { tx with phase := .storeData instr } else tx
  | .storeData instr => { tx with phase := .storeTake instr }
  | .storeTake instr => { tx with arch := arch.retire (arch.issue instr) 0#32, phase := .start }

def Tx.out (choice : Choice) (tx : Tx σ) : List Event :=
  match tx.phase with
  | .fetchAddr => if choice.ifuAr then [.ifuAr tx.arch.fetch] else []
  | .fetchTake instr => [.ifuR instr]
  | .nop _ => [.commit]
  | .loadAddr instr => if choice.lsuAr then [.lsuAr (tx.arch.issue instr).ar] else []
  | .loadTake _ data => [.lsuR data, .commit]
  | .storeReq instr awDone wDone =>
      let issue := tx.arch.issue instr
      (if !awDone && choice.lsuAw then [.lsuAw issue.aw] else []) ++
        (if !wDone && choice.lsuW then [.lsuW issue.wdata issue.wstrb true] else [])
  | .storeTake _ => [.lsuB, .commit]
  | .start | .fetchWait _ | .fetchData _ | .loadWait _ _ | .loadData _ _ | .storeWait _
  | .storeData _ => []

def txMachine (dev : Device σ) : Machine Choice (Tx σ) Event where
  step := Tx.step dev
  out := Tx.out

def Tx.reset (build : Build) (rf : Regfile) (mem : σ) : Tx σ where
  arch := (Core.reset build rf).arch
  mem := mem
  phase := .start

/-!
## One instruction
-/

/-- What the bus shows of the instruction that starts in `state`: its fetch, the
one access of a load or a store, its commit. A store's address and data are
taken in either order. -/
def instrEvents (dev : Device σ) (state : Arch × σ) (wFirst : Bool) : List Event :=
  let (instr, mem) := dev.read state.2 state.1.fetch
  let issue := state.1.issue instr
  let aw := Event.lsuAw issue.aw
  let w := Event.lsuW issue.wdata issue.wstrb true
  [.ifuAr state.1.fetch, .ifuR instr] ++
    (if Rv32.opcode instr = typeILoad then [.lsuAr issue.ar, .lsuR (dev.read mem issue.ar).1]
      else if Rv32.opcode instr = typeS ∧ Rv32.funct3 instr ≠ 0b111#3 then
        (if wFirst then [w, aw] else [aw, w]) ++ [.lsuB]
      else []) ++
    [.commit]

/-- A cycle of the instruction that started in `arch`, before its commit. -/
def Tx.Inside (arch : Arch) (_ : Choice) (tx : Tx σ) : Prop :=
  tx.arch = arch ∧ tx.phase.commits = false

/-!
## The registers behind a phase
-/

def IfuQuiet (ifu : Ifu) (slave : ReadSlave) : Prop :=
  ifu.rDone = true ∧ ifu.arvalid = false ∧ ifu.rready = false ∧ slave = .idle

def IfuAt (ifu : Ifu) (slave : ReadSlave) (arch : Arch) : Phase → Prop
  | .fetchAddr => ifu.rDone = false ∧ ifu.arvalid = true ∧ ifu.rready = false ∧
      ifu.ar = arch.fetch ∧ slave = .idle
  | .fetchWait instr => ifu.rDone = false ∧ ifu.arvalid = false ∧ ifu.rready = false ∧
      slave = .wait instr
  | .fetchData instr => ifu.rDone = false ∧ ifu.arvalid = false ∧ ifu.rready = false ∧
      slave = .valid instr
  | .fetchTake instr => ifu.rDone = false ∧ ifu.arvalid = false ∧ ifu.rready = true ∧
      ifu.instr = instr ∧ slave = .valid instr
  | _ => IfuQuiet ifu slave

def ReadQuiet (lsu : Lsu) (slave : ReadSlave) : Prop :=
  lsu.rDone = true ∧ lsu.arvalid = false ∧ lsu.rready = false ∧ slave = .idle

def ReadAt (lsu : Lsu) (slave : ReadSlave) (arch : Arch) : Phase → Prop
  | .loadAddr instr => lsu.rDone = false ∧ lsu.arvalid = true ∧ lsu.rready = false ∧
      lsu.ar = (arch.issue instr).ar ∧ slave = .idle
  | .loadWait instr data => lsu.rDone = false ∧ lsu.arvalid = false ∧ lsu.rready = false ∧
      lsu.ar = (arch.issue instr).ar ∧ slave = .wait data
  | .loadData instr data => lsu.rDone = false ∧ lsu.arvalid = false ∧ lsu.rready = false ∧
      lsu.ar = (arch.issue instr).ar ∧ slave = .valid data
  | .loadTake instr data => lsu.rDone = false ∧ lsu.arvalid = false ∧ lsu.rready = true ∧
      lsu.ar = (arch.issue instr).ar ∧ slave = .valid data
  | _ => ReadQuiet lsu slave

def WriteQuiet (lsu : Lsu) (slave : WriteSlave) : Prop :=
  lsu.wDone = true ∧ lsu.awvalid = false ∧ lsu.wvalid = false ∧ lsu.bready = false ∧
    slave = .collect none none

def WriteAt (lsu : Lsu) (slave : WriteSlave) (arch : Arch) : Phase → Prop
  | .storeReq instr awDone wDone =>
      lsu.wDone = false ∧ lsu.awvalid = !awDone ∧ lsu.wvalid = !wDone ∧ lsu.bready = false ∧
        lsu.aw = (arch.issue instr).aw ∧ lsu.wdata = (arch.issue instr).wdata ∧
        (wDone = false → lsu.wlastReg = false) ∧
        slave = .collect (if awDone then some (arch.issue instr).aw else none)
          (if wDone then some ((arch.issue instr).wdata, (arch.issue instr).wstrb) else none)
  | .storeWait _ =>
      lsu.wDone = false ∧ lsu.awvalid = false ∧ lsu.wvalid = false ∧ lsu.bready = false ∧
        slave = .wait
  | .storeData _ =>
      lsu.wDone = false ∧ lsu.awvalid = false ∧ lsu.wvalid = false ∧ lsu.bready = false ∧
        slave = .valid
  | .storeTake _ =>
      lsu.wDone = false ∧ lsu.awvalid = false ∧ lsu.wvalid = false ∧ lsu.bready = true ∧
        slave = .valid
  | _ => WriteQuiet lsu slave

def Phase.isTake : Phase → Bool
  | .fetchTake _ => true
  | _ => false

def Phase.isNop : Phase → Bool
  | .nop _ => true
  | _ => false

def Phase.isLoad : Phase → Bool
  | .loadAddr _ | .loadWait _ _ | .loadData _ _ | .loadTake _ _ => true
  | _ => false

def Phase.isStore : Phase → Bool
  | .storeReq _ _ _ | .storeWait _ | .storeData _ | .storeTake _ => true
  | _ => false

/-- The units hold what was latched at the issue of the word. -/
structure Latched (core : Core) (issue : Issue) : Prop where
  signals : core.wbu.signals = issue.signals
  iru : core.iru = issue.iru
  pcNext : core.bru.pcReg = issue.pcNext
  opt : core.lsu.opt = issue.lsuOpt

/-- The system is in a phase: every handshake flag has the phase's value. -/
structure At (sys : System σ) (tx : Tx σ) : Prop where
  arch : sys.core.arch = tx.arch
  mem : sys.mem = tx.mem
  ready : sys.core.wbu.ready = decide (tx.phase = .start)
  ifu : IfuAt sys.core.ifu sys.ifuSlave tx.arch tx.phase
  read : ReadAt sys.core.lsu sys.lsuRead tx.arch tx.phase
  write : WriteAt sys.core.lsu sys.lsuWrite tx.arch tx.phase
  index : sys.core.lsu.writeIndex = 0#1
  validR : (sys.core.lsu.wDone && sys.core.lsu.rDone && sys.core.lsu.validR) = tx.phase.isNop
  plain : ∀ instr, tx.phase.issued = some instr → tx.phase.isLoad = false →
    (tx.arch.issue instr).signals.ldEn = false
  latched : ∀ instr, tx.phase.issued = some instr → Latched sys.core (tx.arch.issue instr)

end Ysyx.Npc
