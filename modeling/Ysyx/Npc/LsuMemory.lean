import Ysyx.Npc.CoreProperties
import Ysyx.Npc.CommitProperties

/-! The load-store unit `lsu.v` between a core that drives its ports and the
slaves of a 32-bit memory, clock by clock. -/

set_option autoImplicit false

namespace Ysyx.Npc

open Rv32 (Word RegId Access LoadOp StoreOp)
open Lib (ByteMem Machine)

/-- One cycle seen from outside the unit: the access requested through `i_pre_valid`, what
the ports carry where no access fixes them, and what the slaves do. -/
structure LsuDrive where
  request : Option Access
  opt : BitVec 4
  addr : Word
  regst : Word
  ar : Bool
  r : Bool
  aw : Bool
  w : Bool
  b : Bool
  idleData : Word
  idleLast : Bool

def LsuDrive.choice (drive : LsuDrive) : Choice where
  ifuAr := true
  ifuR := true
  lsuAr := drive.ar
  lsuR := drive.r
  lsuAw := drive.aw
  lsuW := drive.w
  lsuB := drive.b
  idleData := drive.idleData
  idleLast := drive.idleLast

/-- The ports `i_opt`, `i_addr` and `i_regst` of `lsu`. -/
structure LsuLines where
  opt : BitVec 4
  addr : Word
  regst : Word
  deriving DecidableEq, Repr

def LsuDrive.lines (drive : LsuDrive) : LsuLines :=
  match drive.request with
  | none => ⟨drive.opt, drive.addr, drive.regst⟩
  | some .none => ⟨lsuNop, drive.addr, drive.regst⟩
  | some (.load op addr) => ⟨loadCode op, addr, drive.regst⟩
  | some (.store op addr data) => ⟨storeCode op, addr, data⟩

/-- Every channel of the unit is served again and again. -/
structure LsuFair (drives : Nat → LsuDrive) : Prop where
  ar : Machine.Often drives (·.ar = true)
  r : Machine.Often drives (·.r = true)
  aw : Machine.Often drives (·.aw = true)
  w : Machine.Often drives (·.w = true)
  b : Machine.Often drives (·.b = true)

structure LsuSystem where
  lsu : Lsu
  read : ReadSlave
  write : WriteSlave
  mem : ByteMem 32

def LsuSystem.reset (mem : ByteMem 32) : LsuSystem where
  lsu := Lsu.reset
  read := .idle
  write := .collect none none
  mem := mem

def LsuSystem.bus (sys : LsuSystem) (choice : Choice) : LsuBus :=
  lsuBusOf sys.read sys.write choice

/-- No access is outstanding. -/
def LsuSystem.free (sys : LsuSystem) : Bool :=
  sys.lsu.wDone && sys.lsu.rDone && !sys.lsu.validR

/-- `o_post_valid` and `o_regld`. -/
def LsuSystem.postValid (sys : LsuSystem) (drive : LsuDrive) : Bool :=
  sys.lsu.postValid (sys.bus drive.choice)

def LsuSystem.regld (sys : LsuSystem) (drive : LsuDrive) : Word :=
  sys.lsu.regld (sys.bus drive.choice)

/-- A clock edge of the unit and its slaves, for any values of the ports. -/
def LsuSystem.clock (sys : LsuSystem) (choice : Choice) (lines : LsuLines) (preValid : Bool) :
    LsuSystem :=
  let bus := sys.bus choice
  let lsu := sys.lsu
  let taken := lsu.arvalid && bus.arready
  let loaded := readIf memoryDevice sys.mem taken lsu.ar
  let written := sys.write.next memoryDevice loaded.2 (lsu.awBeat bus) (lsu.wBeat bus)
    choice.lsuB lsu.bready
  { lsu := lsu.next bus lines.opt lines.addr lines.regst preValid
    read := sys.read.next taken loaded.1 choice.lsuR lsu.rready
    write := written.1
    mem := written.2 }

def LsuSystem.step (drive : LsuDrive) (sys : LsuSystem) : LsuSystem :=
  sys.clock drive.choice drive.lines drive.request.isSome

/-- Its events are the values of `o_regld` as accesses complete. -/
def lsuMachine : Machine LsuDrive LsuSystem Word where
  step := LsuSystem.step
  out drive sys := if sys.postValid drive then [sys.regld drive] else []

/-- The core's side of the contract: one access at a time, naturally aligned. -/
structure LsuUse (drives : Nat → LsuDrive) (sys : Nat → LsuSystem) : Prop where
  free : ∀ n, (drives n).request.isSome = true → (sys n).free = true
  aligned : ∀ n access, (drives n).request = some access → AccessAligned access

/-- The unit, its slaves and its memory inside a core. -/
def System.lsuPart (sys : System (ByteMem 32)) : LsuSystem :=
  ⟨sys.core.lsu, sys.lsuRead, sys.lsuWrite, sys.mem⟩

end Ysyx.Npc
