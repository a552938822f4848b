import Ysyx.Soc.Apb
import Ysyx.Lib.Machine

/-! `vga_top_apb`: the write port on the APB, the frame buffer, and the scan that waits
for `sync_reg`. -/

set_option autoImplicit false

namespace Ysyx.Soc

open Lib (Machine)

@[simp] def hFrontporch : BitVec 10 := 96#10
@[simp] def hActive : BitVec 10 := 144#10
@[simp] def hBackporch : BitVec 10 := 784#10
@[simp] def hTotal : BitVec 10 := 800#10
@[simp] def vFrontporch : BitVec 10 := 2#10
@[simp] def vActive : BitVec 10 := 35#10
@[simp] def vBackporch : BitVec 10 := 515#10
@[simp] def vTotal : BitVec 10 := 525#10

@[simp] def syncAddr : BitVec 32 := 0x211FFFF4#32

inductive VgaApbState where
  | idle | write
  deriving DecidableEq, Repr

structure Vga where
  data : BitVec 21 → BitVec 32
  syncReg : Bool
  apbState : VgaApbState
  xCnt : BitVec 10
  yCnt : BitVec 10
  counter : BitVec 21

def Vga.reset : Vga where
  data := fun _ => 0#32
  syncReg := false
  apbState := .idle
  xCnt := 0#10
  yCnt := 1#10
  counter := 0#21

/-- The pins towards the screen. -/
structure Pixel where
  r : BitVec 8
  g : BitVec 8
  b : BitVec 8
  hsync : Bool
  vsync : Bool
  valid : Bool
  deriving DecidableEq, Repr

def Vga.valid (vga : Vga) : Bool :=
  (decide (hActive < vga.xCnt) && decide (vga.xCnt ≤ hBackporch)) &&
    (decide (vActive < vga.yCnt) && decide (vga.yCnt ≤ vBackporch))

def Vga.pixel (vga : Vga) : Pixel :=
  let word := vga.data vga.counter
  { r := if vga.valid then word.extractLsb' 16 8 else 0#8
    g := if vga.valid then word.extractLsb' 8 8 else 0#8
    b := if vga.valid then word.extractLsb' 0 8 else 0#8
    hsync := decide (hFrontporch < vga.xCnt)
    vsync := decide (vFrontporch < vga.yCnt)
    valid := vga.valid }

def Vga.pready (vga : Vga) : Bool := vga.apbState == .write

/-- `in_paddr[22:2]`: the frame-buffer word a request addresses. -/
def ApbReq.dataIndex (req : ApbReq) : BitVec 21 := req.paddr.extractLsb' 2 21

def Vga.next (req : ApbReq) (vga : Vga) : Vga where
  data :=
    if req.penable && req.paddr != syncAddr then
      fun index => if index = req.dataIndex then req.pwdata else vga.data index
    else vga.data
  syncReg :=
    if req.penable then
      if req.paddr = syncAddr then req.pwdata.getLsbD 0 else false
    else vga.syncReg
  apbState :=
    match vga.apbState with
    | .idle => if req.psel && req.pwrite then .write else .idle
    | .write => .idle
  xCnt :=
    if vga.xCnt = hTotal then (if vga.yCnt = vTotal then 0#10 else 1#10) else
    if 0#10 < vga.xCnt then vga.xCnt + 1#10 else
    if vga.syncReg then 1#10 else vga.xCnt
  yCnt :=
    if vga.xCnt = hTotal then (if vga.yCnt = vTotal then 1#10 else vga.yCnt + 1#10)
    else vga.yCnt
  counter :=
    if vga.yCnt = vTotal then 0#21 else
    if vga.valid then vga.counter + 1#21 else vga.counter

def vgaMachine : Machine ApbReq Vga Pixel where
  step := Vga.next
  out := fun _ vga => [vga.pixel]

end Ysyx.Soc
