import Ysyx.Npc.Stages

/-! The two bus masters of the core, `ifu.v` and `lsu.v`: their registers, their
outputs and the values after one clock edge. -/

set_option autoImplicit false

namespace Ysyx.Npc

open Rv32 (Word RegId Byte)

/-- The payload of an AXI address channel. -/
structure AxiAddr where
  addr : Word
  id : BitVec 4
  len : BitVec 8
  size : BitVec 3
  burst : BitVec 2
  deriving DecidableEq, Inhabited, Repr

def AxiAddr.reset : AxiAddr := ⟨0#32, 0#4, 0#8, 0#3, 0#2⟩

@[simp] def burstLen : BitVec 8 := 1#8
@[simp] def burstType : BitVec 2 := 0b01#2

def AxiAddr.single (addr : Word) (size : BitVec 3) : AxiAddr where
  addr := addr
  id := 0#4
  len := burstLen - 1#8
  size := size
  burst := burstType

/-!
## Fetch unit
-/

structure Ifu where
  rDone : Bool
  arvalid : Bool
  rready : Bool
  ar : AxiAddr
  instr : Word
  deriving DecidableEq, Repr

def Ifu.reset : Ifu where
  rDone := true
  arvalid := false
  rready := false
  ar := AxiAddr.reset
  instr := 0#32

/-- What `ifu` reads of its bus. -/
structure IfuBus where
  arready : Bool
  rvalid : Bool
  rlast : Bool
  rdata : Word
  deriving DecidableEq, Repr

def Ifu.postValid (ifu : Ifu) (bus : IfuBus) : Bool := bus.rvalid && ifu.rready && bus.rlast

def Ifu.next (ifu : Ifu) (bus : IfuBus) (pc : Word) (postReady : Bool) : Ifu where
  rDone :=
    if bus.rvalid && ifu.rready && bus.rlast then true else
    if postReady then false else ifu.rDone
  arvalid := if ifu.rDone && postReady then true else ifu.arvalid && !bus.arready
  rready :=
    if bus.rvalid && !ifu.rready then true else ifu.rready && !(bus.rvalid && bus.rlast)
  ar := if postReady then AxiAddr.single pc 2#3 else ifu.ar
  instr := if bus.rvalid then bus.rdata else ifu.instr

/-!
## Load-store unit
-/

def lsuRen (opt : BitVec 4) : Bool := !opt.getLsbD 0 && opt != lsuNop
def lsuWen (opt : BitVec 4) : Bool := opt.getLsbD 0 && opt != lsuNop

def awsizeInt (opt : BitVec 4) : BitVec 3 :=
  muxKeyWithDefault opt 0#3 [(lsuSb, 0b00#3), (lsuSh, 0b01#3), (lsuSw, 0b10#3)]

def arsizeInt (opt : BitVec 4) : BitVec 3 :=
  muxKeyWithDefault opt 0#3
    [(lsuLb, 0b00#3), (lsuLh, 0b01#3), (lsuLw, 0b10#3), (lsuLbu, 0b00#3), (lsuLhu, 0b01#3)]

/-- `(addr & 2'b11) << 3`: the bit offset of the addressed byte lane. -/
def laneShift (addr : Word) : Nat := ((addr &&& 0b11#32) <<< 3).toNat

def wdataInt (addr regst : Word) : Word := regst <<< laneShift addr

def lsuWstrb (opt : BitVec 4) (addr : Word) : BitVec 4 :=
  let lane := (addr.extractLsb' 0 2).toNat
  muxKeyWithDefault opt 0#4
    [(lsuSb, 0b0001#4 <<< lane), (lsuSh, 0b0011#4 <<< lane), (lsuSw, 0b1111#4 <<< lane)]

def lsuRegld (opt : BitVec 4) (addr rdata : Word) : Word :=
  let rdataInt := rdata >>> laneShift addr
  muxKeyWithDefault opt 0#32
    [(lsuLb, (rdataInt.extractLsb' 7 1).replicate 24 ++ rdataInt.extractLsb' 0 8),
     (lsuLh, (rdataInt.extractLsb' 15 1).replicate 16 ++ rdataInt.extractLsb' 0 16),
     (lsuLw, rdataInt),
     (lsuLbu, 0#24 ++ rdataInt.extractLsb' 0 8),
     (lsuLhu, 0#16 ++ rdataInt.extractLsb' 0 16)]

structure Lsu where
  opt : BitVec 4
  aw : AxiAddr
  wdata : Word
  wDone : Bool
  awvalid : Bool
  wvalid : Bool
  writeIndex : BitVec 1
  wlastReg : Bool
  bready : Bool
  ar : AxiAddr
  rDone : Bool
  arvalid : Bool
  rready : Bool
  validR : Bool
  deriving DecidableEq, Repr

def Lsu.reset : Lsu where
  opt := 0#4
  aw := AxiAddr.reset
  wdata := 0#32
  wDone := true
  awvalid := false
  wvalid := false
  writeIndex := 0#1
  wlastReg := false
  bready := false
  ar := AxiAddr.reset
  rDone := true
  arvalid := false
  rready := false
  validR := false

/-- What `lsu` reads of its bus. -/
structure LsuBus where
  awready : Bool
  wready : Bool
  bvalid : Bool
  arready : Bool
  rvalid : Bool
  rlast : Bool
  rdata : Word
  deriving DecidableEq, Repr

def Lsu.wlastNext (lsu : Lsu) (bus : LsuBus) : Bool :=
  lsu.writeIndex.setWidth 8 == burstLen - 1#8 && lsu.wvalid && bus.wready

def Lsu.wlast (lsu : Lsu) (bus : LsuBus) : Bool := !lsu.wlastReg && lsu.wlastNext bus

def Lsu.wstrb (lsu : Lsu) : BitVec 4 := lsuWstrb lsu.opt lsu.aw.addr

def Lsu.regld (lsu : Lsu) (bus : LsuBus) : Word := lsuRegld lsu.opt lsu.ar.addr bus.rdata

def Lsu.postValid (lsu : Lsu) (bus : LsuBus) : Bool :=
  (!lsu.wDone && bus.bvalid && lsu.bready) || (!lsu.rDone && bus.rvalid && lsu.rready) ||
    (lsu.wDone && lsu.rDone && lsu.validR)

def Lsu.next (lsu : Lsu) (bus : LsuBus) (opt : BitVec 4) (addr regst : Word) (preValid : Bool) :
    Lsu :=
  let ren := lsuRen opt && preValid
  let wen := lsuWen opt && preValid
  let writeIndex := if lsu.wDone && wen then 0#1 else lsu.writeIndex
  { opt := if preValid then opt else lsu.opt
    aw := if wen then AxiAddr.single addr (awsizeInt opt) else lsu.aw
    wdata := if wen then wdataInt addr regst else lsu.wdata
    wDone :=
      if bus.bvalid && lsu.bready then true else if wen then false else lsu.wDone
    awvalid := if lsu.wDone && wen then true else lsu.awvalid && !bus.awready
    wvalid :=
      if lsu.wDone && wen then true else lsu.wvalid && !(bus.wready && lsu.wlast bus)
    writeIndex :=
      if lsu.wvalid && bus.wready && lsu.writeIndex.setWidth 8 != burstLen - 1#8 then
        writeIndex + 1#1
      else writeIndex
    wlastReg := lsu.wlastNext bus
    bready := bus.bvalid && !lsu.bready
    ar := if ren then AxiAddr.single addr (arsizeInt opt) else lsu.ar
    rDone :=
      if bus.rvalid && lsu.rready && bus.rlast then true else if ren then false else lsu.rDone
    arvalid := if lsu.rDone && ren then true else lsu.arvalid && !bus.arready
    rready :=
      if bus.rvalid && !lsu.rready then true else lsu.rready && !(bus.rvalid && bus.rlast)
    validR := preValid }

end Ysyx.Npc
