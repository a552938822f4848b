import Ysyx.Npc.Commit
import Ysyx.Lib.Machine

/-! The core clock by clock, as `top.v` wires it, between two AXI slaves that
take any number of cycles over each channel. -/

set_option autoImplicit false

namespace Ysyx.Npc

open Rv32 (Word RegId Byte)
open Lib (Machine)

/-!
## The core
-/

structure Core where
  ifu : Ifu
  lsu : Lsu
  wbu : Wbu
  bru : Bru
  iru : Iru
  csrs : Csrfile
  rf : Regfile

/-- After reset; the register file has no reset and holds anything. -/
def Core.reset (build : Build) (rf : Regfile) : Core where
  ifu := Ifu.reset
  lsu := Lsu.reset
  wbu := Wbu.reset
  bru := Bru.reset build
  iru := Iru.reset
  csrs := Csrfile.reset
  rf := rf

/-- The registers, the pc and the CSRs in the core's own registers. -/
def Core.arch (core : Core) : Arch := ⟨core.rf, core.bru.pc, core.csrs⟩

def Core.ifuValid (core : Core) (ifuBus : IfuBus) : Bool := core.ifu.postValid ifuBus

def Core.lsuValid (core : Core) (lsuBus : LsuBus) : Bool := core.lsu.postValid lsuBus

/-- One clock edge. `idu_valid` and `exu_valid` are `ifu_valid`, and `idu_ready`,
`exu_ready` and `lsu_ready` are `wbu_ready`; slaves answer OKAY, so neither
access-fault monitor fires. -/
def Core.next (core : Core) (ifuBus : IfuBus) (lsuBus : LsuBus) : Core :=
  let ifuValid := core.ifuValid ifuBus
  let lsuValid := core.lsuValid lsuBus
  let d := (core.arch.decode core.ifu.instr).1
  let e := (core.arch.decode core.ifu.instr).2
  let signals := core.wbu.signals
  { ifu := core.ifu.next ifuBus core.bru.pc core.wbu.ready
    lsu := core.lsu.next lsuBus d.lsuOpt e.exuRes (core.rf d.rs2id) ifuValid
    wbu := core.wbu.next ifuValid ifuValid lsuValid d e
    bru := core.bru.next ifuValid lsuValid false
      (bruPcNext core.bru.pc d e.zero (core.rf d.rs1id) core.csrs false)
    iru := core.iru.next ifuValid core.bru.pc d.ecall d.mret core.csrs.mstatus
    csrs := core.csrs.next lsuValid signals core.iru
    rf := core.rf.next (signals.rdwen && lsuValid) signals.rdid
      (signals.rd (core.lsu.regld lsuBus)) }

/-!
## Slaves
-/

/-- What the slaves do in a cycle: which channels they accept, which pending
responses they raise, and what idle read-data lines carry. -/
structure Choice where
  ifuAr : Bool
  ifuR : Bool
  lsuAr : Bool
  lsuR : Bool
  lsuAw : Bool
  lsuW : Bool
  lsuB : Bool
  idleData : Word
  idleLast : Bool

/-- Every channel is served again and again: each delay is finite. -/
structure Fair (choices : Nat → Choice) : Prop where
  ifuAr : Machine.Often choices (·.ifuAr = true)
  ifuR : Machine.Often choices (·.ifuR = true)
  lsuAr : Machine.Often choices (·.lsuAr = true)
  lsuR : Machine.Often choices (·.lsuR = true)
  lsuAw : Machine.Often choices (·.lsuAw = true)
  lsuW : Machine.Often choices (·.lsuW = true)
  lsuB : Machine.Often choices (·.lsuB = true)

/-- Slaves that answer at once. -/
def Choice.prompt : Choice := ⟨true, true, true, true, true, true, true, 0#32, false⟩

theorem fair_prompt : Fair fun _ => Choice.prompt := by
  constructor <;> exact fun t => ⟨t, Nat.le_refl t, rfl⟩

/-- A read slave: free, about to answer, or holding its one beat valid. -/
inductive ReadSlave where
  | idle
  | wait (data : Word)
  | valid (data : Word)
  deriving DecidableEq, Repr

@[simp] def ReadSlave.rvalid : ReadSlave → Bool
  | .valid _ => true
  | _ => false

@[simp] def ReadSlave.rdata (choice : Choice) : ReadSlave → Word
  | .valid data => data
  | _ => choice.idleData

@[simp] def ReadSlave.rlast (choice : Choice) : ReadSlave → Bool
  | .valid _ => true
  | _ => choice.idleLast

@[simp] def ReadSlave.isIdle : ReadSlave → Bool
  | .idle => true
  | _ => false

/-- A read slave accepts an address when free and answers with `data`. -/
@[simp] def ReadSlave.next (slave : ReadSlave) (taken : Bool) (data : Word) (raise rready : Bool) :
    ReadSlave :=
  match slave with
  | .idle => if taken then (if raise then .valid data else .wait data) else .idle
  | .wait data => if raise then .valid data else .wait data
  | .valid data => if rready then .idle else .valid data

/-- A write slave: it collects address and data in any order, then answers. -/
inductive WriteSlave where
  | collect (aw : Option AxiAddr) (w : Option (Word × BitVec 4))
  | wait
  | valid
  deriving DecidableEq, Repr

@[simp] def WriteSlave.bvalid : WriteSlave → Bool
  | .valid => true
  | _ => false

@[simp] def WriteSlave.awFree : WriteSlave → Bool
  | .collect none _ => true
  | _ => false

@[simp] def WriteSlave.wFree : WriteSlave → Bool
  | .collect _ none => true
  | _ => false

/-!
## Core and slaves
-/

structure System (σ : Type) where
  core : Core
  ifuSlave : ReadSlave
  lsuRead : ReadSlave
  lsuWrite : WriteSlave
  mem : σ

/-- Handshakes on the two buses, and the commit pulse `lsu_valid`. -/
inductive Event where
  | ifuAr (ar : AxiAddr)
  | ifuR (instr : Word)
  | lsuAr (ar : AxiAddr)
  | lsuR (data : Word)
  | lsuAw (aw : AxiAddr)
  | lsuW (data : Word) (strb : BitVec 4) (last : Bool)
  | lsuB
  | commit
  deriving DecidableEq, Repr

variable {σ : Type}

@[simp] def ifuBusOf (slave : ReadSlave) (choice : Choice) : IfuBus where
  arready := choice.ifuAr && slave.isIdle
  rvalid := slave.rvalid
  rlast := slave.rlast choice
  rdata := slave.rdata choice

@[simp] def lsuBusOf (read : ReadSlave) (write : WriteSlave) (choice : Choice) : LsuBus where
  awready := choice.lsuAw && write.awFree
  wready := choice.lsuW && write.wFree
  bvalid := write.bvalid
  arready := choice.lsuAr && read.isIdle
  rvalid := read.rvalid
  rlast := read.rlast choice
  rdata := read.rdata choice

def System.ifuBus (sys : System σ) (choice : Choice) : IfuBus := ifuBusOf sys.ifuSlave choice

def System.lsuBus (sys : System σ) (choice : Choice) : LsuBus :=
  lsuBusOf sys.lsuRead sys.lsuWrite choice

/-- The address or data a write slave holds at the end of a cycle. -/
def WriteSlave.collected (slave : WriteSlave) (aw : Option AxiAddr) (w : Option (Word × BitVec 4)) :
    Option AxiAddr × Option (Word × BitVec 4) :=
  match slave with
  | .collect aw' w' => (aw'.or aw, w'.or w)
  | _ => (none, none)

/-- The write is done when both halves are there. -/
def WriteSlave.next (dev : Device σ) (mem : σ) (slave : WriteSlave) (aw : Option AxiAddr)
    (w : Option (Word × BitVec 4)) (raise bready : Bool) : WriteSlave × σ :=
  match slave with
  | .collect _ _ =>
      match slave.collected aw w with
      | (some aw, some (data, strb)) =>
          (if raise then .valid else .wait, dev.write mem aw data strb)
      | (aw, w) => (.collect aw w, mem)
  | .wait => (if raise then .valid else .wait, mem)
  | .valid => (if bready then .collect none none else .valid, mem)

/-- A read at the moment its address is accepted. -/
def readIf (dev : Device σ) (mem : σ) (taken : Bool) (ar : AxiAddr) : Word × σ :=
  if taken then dev.read mem ar else (0#32, mem)

/-- The address and the data that the store unit hands over in a cycle. -/
def Lsu.awBeat (lsu : Lsu) (bus : LsuBus) : Option AxiAddr :=
  if lsu.awvalid && bus.awready then some lsu.aw else none

def Lsu.wBeat (lsu : Lsu) (bus : LsuBus) : Option (Word × BitVec 4) :=
  if lsu.wvalid && bus.wready then some (lsu.wdata, lsu.wstrb) else none

def System.step (dev : Device σ) (choice : Choice) (sys : System σ) : System σ :=
  let ifuBus := sys.ifuBus choice
  let lsuBus := sys.lsuBus choice
  let ifu := sys.core.ifu
  let lsu := sys.core.lsu
  let ifuTaken := ifu.arvalid && ifuBus.arready
  let lsuTaken := lsu.arvalid && lsuBus.arready
  let fetched := readIf dev sys.mem ifuTaken ifu.ar
  let loaded := readIf dev fetched.2 lsuTaken lsu.ar
  let written := sys.lsuWrite.next dev loaded.2 (lsu.awBeat lsuBus) (lsu.wBeat lsuBus) choice.lsuB
    lsu.bready
  { core := sys.core.next ifuBus lsuBus
    ifuSlave := sys.ifuSlave.next ifuTaken fetched.1 choice.ifuR ifu.rready
    lsuRead := sys.lsuRead.next lsuTaken loaded.1 choice.lsuR lsu.rready
    lsuWrite := written.1
    mem := written.2 }

def System.out (choice : Choice) (sys : System σ) : List Event :=
  let ifuBus := sys.ifuBus choice
  let lsuBus := sys.lsuBus choice
  let ifu := sys.core.ifu
  let lsu := sys.core.lsu
  (if ifu.arvalid && ifuBus.arready then [.ifuAr ifu.ar] else []) ++
  (if ifuBus.rvalid && ifu.rready then [.ifuR ifuBus.rdata] else []) ++
  (if lsu.arvalid && lsuBus.arready then [.lsuAr lsu.ar] else []) ++
  (if lsuBus.rvalid && lsu.rready then [.lsuR lsuBus.rdata] else []) ++
  (if lsu.awvalid && lsuBus.awready then [.lsuAw lsu.aw] else []) ++
  (if lsu.wvalid && lsuBus.wready then [.lsuW lsu.wdata lsu.wstrb (lsu.wlast lsuBus)] else []) ++
  (if lsuBus.bvalid && lsu.bready then [.lsuB] else []) ++
  (if sys.core.lsuValid lsuBus then [.commit] else [])

def machine (dev : Device σ) : Machine Choice (System σ) Event where
  step := System.step dev
  out := System.out

def System.reset (build : Build) (rf : Regfile) (mem : σ) : System σ where
  core := Core.reset build rf
  ifuSlave := .idle
  lsuRead := .idle
  lsuWrite := .collect none none
  mem := mem

end Ysyx.Npc
