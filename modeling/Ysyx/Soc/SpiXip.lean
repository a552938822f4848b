import Ysyx.Soc.Apb
import Ysyx.Lib.Machine

/-! `spi_top_apb`: the registers of the SPI master, reached by software over APB and by the
state machine that reads the flash in place. The shift engine of `spi_top` is reduced to the
start of a transfer and its last clock edge. -/

set_option autoImplicit false

namespace Ysyx.Soc

open Lib (Machine)

/-!
## spi_top
-/

/-- What a transfer uses: the values at `GO`. Word `i` of `data` is `TX_i` and `RX_i`. -/
structure Transfer where
  ss : BitVec 8
  ctrl : BitVec 14
  data : BitVec 2 → BitVec 32

/-- The shift register after a transfer, from what it was before: the devices on the pins. -/
abbrev Pins := Transfer → BitVec 2 → BitVec 32

/-- The word as a Wishbone master writes or reads it. -/
structure WbReq where
  adr : BitVec 5
  dat : BitVec 32
  sel : BitVec 4
  we : Bool
  stb : Bool
  cyc : Bool

/-- The registers that software can write. -/
structure SpiRegs where
  divider : BitVec 16
  ctrl : BitVec 14
  ss : BitVec 8
  data : BitVec 2 → BitVec 32

namespace SpiRegs

variable (regs : SpiRegs)

@[simp] def spiCtrl : BitVec 3 := 4#3
@[simp] def spiDevide : BitVec 3 := 5#3
@[simp] def spiSs : BitVec 3 := 6#3

def go : Bool := regs.ctrl.getLsbD 8
def ie : Bool := regs.ctrl.getLsbD 12

def transfer : Transfer := ⟨regs.ss, regs.ctrl, regs.data⟩

/-- The low byte of CTRL never loses its bit 0. -/
def writeCtrl (ctrl : BitVec 14) (sel : BitVec 4) (dat : BitVec 32) : BitVec 14 :=
  (if sel.getLsbD 1 then dat.extractLsb' 8 6 else ctrl.extractLsb' 8 6) ++
    (if sel.getLsbD 0 then dat.extractLsb' 0 8 ||| (ctrl.extractLsb' 0 1).setWidth 8
      else ctrl.extractLsb' 0 8)

/-- A register write while no transfer is in progress. -/
def write (wb : WbReq) : SpiRegs :=
  let reg := wb.adr.extractLsb' 2 3
  if reg = spiCtrl then { regs with ctrl := writeCtrl regs.ctrl wb.sel wb.dat }
  else if reg = spiDevide then
    { regs with divider := (strobe wb.sel (regs.divider.setWidth 32) wb.dat).setWidth 16 }
  else if reg = spiSs then
    { regs with ss := if wb.sel.getLsbD 0 then wb.dat.setWidth 8 else regs.ss }
  else if reg = 7#3 then regs
  else
    let i := wb.adr.extractLsb' 2 2
    { regs with data := fun j => if j = i then strobe wb.sel (regs.data i) wb.dat else regs.data j }

/-- The register a read finds; address 7 has none. -/
def read (adr : BitVec 5) : BitVec 32 :=
  let reg := adr.extractLsb' 2 3
  if reg = spiCtrl then regs.ctrl.setWidth 32
  else if reg = spiDevide then regs.divider.setWidth 32
  else if reg = spiSs then regs.ss.setWidth 32
  else if reg = 7#3 then 0#32
  else regs.data (adr.extractLsb' 2 2)

/-- The end of a transfer. -/
def finish (pins : Pins) : SpiRegs :=
  { regs with ctrl := regs.ctrl &&& ~~~0x100#14, data := pins regs.transfer }

end SpiRegs

structure SpiTop where
  regs : SpiRegs
  tip : Bool
  ack : Bool
  int : Bool
  dat : BitVec 32

namespace SpiTop

def reset : SpiTop := ⟨⟨0#16, 0#14, 0#8, fun _ => 0#32⟩, false, false, false, 0#32⟩

/-- A cycle; `lastEdge` is `last_bit && pos_edge` of the shift engine. -/
def step (spi : SpiTop) (pins : Pins) (lastEdge : Bool) (wb : WbReq) : SpiTop where
  regs :=
    if wb.cyc && wb.stb && wb.we && !spi.tip then spi.regs.write wb
    else if spi.tip && lastEdge then spi.regs.finish pins
    else spi.regs
  tip :=
    if spi.regs.go && !spi.tip then true else if spi.tip && lastEdge then false else spi.tip
  ack := wb.cyc && wb.stb && !spi.ack
  int :=
    if spi.regs.ie && spi.tip && lastEdge then true else if spi.ack then false else spi.int
  dat := spi.regs.read wb.adr

end SpiTop

/-!
## The XIP state machine
-/

inductive XipState where
  | idle_t | init_div_t | init_ss_t | init_ctrl_t | write_cmd_t | start_trans_t | wait_trans_t
  | read_data_t
  deriving DecidableEq, Repr

structure Xip where
  state : XipState
  psel : Bool
  penable : Bool
  pwrite : Bool
  pwdata : BitVec 32
  paddr : BitVec 32
  pready : Bool
  prdata : BitVec 32

namespace Xip

/-- Reset leaves `flash_xip_penable` as it is. -/
def reset (penable : Bool) : Xip := ⟨.init_div_t, false, penable, false, 0#32, 0#32, false, 0#32⟩

/-- `spi_ctrl_data`: ASS, IE, TX on the falling edge, 64 bits, and GO when asked for. -/
def ctrlData (goBusy : Bool) : BitVec 32 := if goBusy then 0x3540#32 else 0x3440#32

def next (xip : Xip) (flashXipSel inPenable : Bool) (inPaddr : BitVec 32) (apbPready irq : Bool)
    (apbPrdata : BitVec 32) : Xip :=
  let acked := xip.penable && apbPready
  match xip.state with
  | .init_div_t =>
      if acked then
        { xip with
          psel := true
          penable := false
          pwrite := true
          pwdata := 9#32
          paddr := 0x14#32
          state := .init_ss_t }
      else { xip with psel := true, penable := true, pwrite := true }
  | .init_ss_t =>
      if acked then
        { xip with penable := false, pwdata := 1#32, paddr := 0x18#32, state := .init_ctrl_t }
      else { xip with penable := true }
  | .init_ctrl_t =>
      if acked then
        { xip with
          psel := false
          penable := false
          pwrite := false
          pwdata := ctrlData false
          paddr := 0x10#32
          state := .idle_t }
      else { xip with penable := true }
  | .idle_t =>
      if inPenable && xip.pready then { xip with pready := false, prdata := 0#32 }
      else if flashXipSel && inPenable then
        { xip with
          psel := true
          pwrite := true
          pwdata := 0x03#8 ++ inPaddr.extractLsb' 0 24
          paddr := 4#32
          state := .write_cmd_t }
      else xip
  | .write_cmd_t =>
      if acked then
        { xip with
          penable := false, pwdata := ctrlData true, paddr := 0x10#32, state := .start_trans_t }
      else { xip with penable := true }
  | .start_trans_t =>
      if acked then { xip with penable := false, pwrite := false, state := .wait_trans_t }
      else { xip with penable := true }
  | .wait_trans_t =>
      if irq then { xip with paddr := 0#32, state := .read_data_t } else xip
  | .read_data_t =>
      if acked then
        { xip with
          psel := false, penable := true, pready := true, prdata := apbPrdata, state := .idle_t }
      else { xip with penable := true }

end Xip

/-!
## spi_top_apb
-/

structure SpiTopApb where
  spi : SpiTop
  xip : Xip

namespace SpiTopApb

def spiMasterPsel (req : ApbReq) : Bool := (req.paddr.extractLsb' 12 20 == 0x10001#20) && req.psel
def flashXipSel (req : ApbReq) : Bool := (req.paddr.extractLsb' 28 4 == 3#4) && req.psel

variable (dev : SpiTopApb)

/-- What `spi_top` sees: the software request, or that of the state machine. -/
def wb (req : ApbReq) : WbReq :=
  if spiMasterPsel req then
    { adr := req.paddr.extractLsb' 0 5
      dat := req.pwdata
      sel := req.pstrb
      we := req.pwrite
      stb := true
      cyc := req.penable }
  else if flashXipSel req then
    { adr := dev.xip.paddr.extractLsb' 0 5
      dat := dev.xip.pwdata
      sel := if dev.xip.psel && dev.xip.pwrite then 0xF#4 else 0#4
      we := dev.xip.pwrite
      stb := dev.xip.psel
      cyc := dev.xip.penable }
  else { adr := 0#5, dat := 0#32, sel := 0#4, we := false, stb := dev.xip.psel, cyc := false }

def pready (req : ApbReq) : Bool :=
  if spiMasterPsel req then dev.spi.ack
  else if flashXipSel req then dev.xip.pready else false

def prdata (req : ApbReq) : BitVec 32 :=
  if spiMasterPsel req then dev.spi.dat
  else if flashXipSel req then dev.xip.prdata else 0#32

def step (pins : Pins) (lastEdge : Bool) (req : ApbReq) : SpiTopApb where
  spi := dev.spi.step pins lastEdge (dev.wb req)
  xip := dev.xip.next (flashXipSel req) req.penable req.paddr dev.spi.ack dev.spi.int dev.spi.dat

end SpiTopApb

/-!
## The device on its bus
-/

structure XipSystem where
  phase : ApbPhase
  dev : SpiTopApb

/-- What a cycle brings: the request the master would like to make, and the engine's edge. -/
structure XipInput where
  want : ApbReq
  lastEdge : Bool

inductive XipEvent where
  | start (transfer : Transfer)
  | done (prdata : BitVec 32)

/-- A transfer starts at `GO`; an APB transfer is done when the device is ready. -/
def xipMachine (pins : Pins) : Machine XipInput XipSystem XipEvent where
  step input sys :=
    let req := sys.phase.drive input.want
    { phase := sys.phase.next input.want (sys.dev.pready req)
      dev := sys.dev.step pins input.lastEdge req }
  out input sys :=
    let req := sys.phase.drive input.want
    let started :=
      if sys.dev.spi.regs.go && !sys.dev.spi.tip then
        [.start (sys.dev.step pins input.lastEdge req).spi.regs.transfer] else []
    let done :=
      if req.psel && req.penable && sys.dev.pready req then [.done (sys.dev.prdata req)] else []
    started ++ done

/-- After reset; `flash_xip_penable` is whatever it was. -/
def XipSystem.reset (penable : Bool) : XipSystem := ⟨.idle, ⟨.reset, .reset penable⟩⟩

/-- The addresses that `APBFanout` decodes to the device. -/
def ApbReq.ToSpi (req : ApbReq) : Prop :=
  req.psel = true →
    req.paddr.extractLsb' 12 20 = 0x10001#20 ∨ req.paddr.extractLsb' 28 4 = 3#4

/-!
## What a read is for
-/

/-- 64 bits, highest first, to slave 0 alone: the read command and the low 24 address bits. -/
structure Transfer.FlashRead (transfer : Transfer) (addr : BitVec 32) : Prop where
  slave : transfer.ss = 1#8
  autoSelect : transfer.ctrl.getLsbD 13 = true
  highFirst : transfer.ctrl.getLsbD 11 = false
  charLen : transfer.ctrl.extractLsb' 0 7 = 64#7
  command : transfer.data 1#2 = 0x03#8 ++ addr.extractLsb' 0 24

/-- The read makes one transfer, a flash read of its address, and is done with the word the
transfer has brought; the engine comes to the end of what it starts. -/
def XipSystem.ReadsFlash (pins : Pins) (sys : XipSystem) (req : ApbReq) : Prop :=
  ∀ input : Nat → XipInput, (input 0).want = req → Machine.Often input (·.lastEdge = true) →
    ∃ n transfer,
      (xipMachine pins).events input 0 sys n = [.start transfer, .done (pins transfer 0#2)] ∧
      transfer.FlashRead req.paddr

/-- A read of the flash window. -/
structure ApbReq.FlashWindow (req : ApbReq) : Prop where
  psel : req.psel = true
  read : req.pwrite = false
  window : req.paddr.extractLsb' 28 4 = 3#4

/-- Between bus transfers, with no SPI transfer asked for or in progress. -/
structure XipSystem.Quiet (sys : XipSystem) : Prop where
  phase : sys.phase = .idle
  tip : sys.dev.spi.tip = false
  go : sys.dev.spi.regs.go = false

end Ysyx.Soc
