import Ysyx.Lib.LaneMemory
import Ysyx.Soc.ApbDelayer
import Ysyx.Soc.Psram

/-! The PSRAM controller `psram_top_apb` between the APB and the four data pins of the chip, and
the bus that the two stand on: the delayer, the fan-out and a master. -/

set_option autoImplicit false

namespace Ysyx.Soc

open Lib (Access Machine)

/-!
## Serial clocks
-/

/-- The registers that `PSRAM_READER` and `PSRAM_WRITER` have in common. -/
structure PsramShifter where
  busy : Bool
  counter : BitVec 8
  saddr : BitVec 24
  sck : Bool
  ceN : Bool
  deriving DecidableEq, Repr

namespace PsramShifter

def reset : PsramShifter := ⟨false, 0#8, 0#24, false, true⟩

variable (shifter : PsramShifter) (final : BitVec 8)

def done : Bool := shifter.counter == final + 1#8

def next (start : Bool) (addr : BitVec 24) : PsramShifter where
  busy := if shifter.busy then !shifter.done final else start
  counter :=
    if shifter.sck && !shifter.done final then shifter.counter + 1#8
    else if shifter.busy then shifter.counter
    else 0#8
  saddr := if !shifter.busy && start then addr else shifter.saddr
  sck := if !shifter.ceN then !shifter.sck else shifter.busy && shifter.sck
  ceN := !shifter.busy

/-- Command and address, one nibble for each value of the counter, and what follows them. -/
def dout (cmd : Byte) (rest : List Nibble) (last : Nibble) : Nibble :=
  (nibbles cmd ++ addrNibbles shifter.saddr ++ rest).getD shifter.counter.toNat last

end PsramShifter

structure PsramReader where
  shifter : PsramShifter
  data : BitVec 2 → Byte

namespace PsramReader

variable (reader : PsramReader)

/-- `FINAL_COUNT` of a word. -/
def final : BitVec 8 := 13#8 + 4#8 * 2#8

def byteIndex : BitVec 2 := (reader.shifter.counter >>> 1 - 3#8).extractLsb' 0 2

def line : BitVec 32 := reader.data 3#2 ++ reader.data 2#2 ++ reader.data 1#2 ++ reader.data 0#2

def next (rd : Bool) (addr : BitVec 24) (din : Nibble) : PsramReader where
  shifter := reader.shifter.next final rd addr
  data :=
    if 14#8 ≤ reader.shifter.counter ∧ reader.shifter.counter ≤ final ∧ reader.shifter.sck then
      Function.update reader.data reader.byteIndex
        ((reader.data reader.byteIndex).extractLsb' 0 4 ++ din)
    else reader.data

def dout : Nibble := reader.shifter.dout rcmd [] 0#4

def doutEn : Bool := reader.shifter.counter < 8#8

end PsramReader

/-- `FINAL_COUNT` of `PSRAM_WRITER`. -/
def writerFinal (size : BitVec 3) : BitVec 8 := 7#8 + size.setWidth 8 * 2#8

def writerDout (shifter : PsramShifter) (line : BitVec 32) : Nibble :=
  shifter.dout wcmd ((List.range 4).flatMap fun i => nibbles (lane line i)) (line.extractLsb' 24 4)

structure PsramInit where
  counter : BitVec 8
  sck : Bool
  ceN : Bool
  deriving DecidableEq, Repr

namespace PsramInit

def reset : PsramInit := ⟨0#8, false, true⟩

variable (init : PsramInit)

def done : Bool := init.counter == 8#8

def next (start : Bool) : PsramInit where
  counter :=
    if init.sck && !init.done then init.counter + 1#8
    else if init.ceN then 0#8
    else init.counter
  sck := !init.ceN && !init.sck
  ceN := !start

def dout : Nibble :=
  if init.counter < 8#8 then 0#3 ++ qpicmd.extractLsb' (7 - init.counter.toNat) 1 else 0#4

end PsramInit

/-!
## The controller
-/

inductive PsramCtrlState where
  | init | idle | wait
  deriving DecidableEq, Repr

structure PsramCtrl where
  state : PsramCtrlState
  reader : PsramReader
  writer : PsramShifter
  init : PsramInit

/-- What the controller drives; its four enables are one. -/
structure PsramPins where
  sck : Bool
  ceN : Bool
  dout : Nibble
  doutEn : Bool
  deriving DecidableEq, Repr

/-- The number of bytes a strobe stands for. -/
def selSize (sel : BitVec 4) : BitVec 3 :=
  if sel = 0b0001#4 ∨ sel = 0b0010#4 ∨ sel = 0b0100#4 ∨ sel = 0b1000#4 then 1#3
  else if sel = 0b0011#4 ∨ sel = 0b1100#4 then 2#3
  else 4#3

/-- The selected lanes in the low bytes. -/
def selData (sel : BitVec 4) (dat : BitVec 32) : BitVec 32 :=
  let size := selSize sel
  let byte0 :=
    if sel.getLsbD 0 then lane dat 0
    else if sel.getLsbD 1 && size == 1#3 then lane dat 1
    else if sel.getLsbD 2 && size == 1#3 then lane dat 2
    else if sel.getLsbD 3 && size == 1#3 then lane dat 3
    else if sel.getLsbD 2 && size == 2#3 then lane dat 2
    else lane dat 0
  let byte1 := if sel.getLsbD 1 then lane dat 1 else lane dat 3
  lane dat 3 ++ lane dat 2 ++ byte1 ++ byte0

namespace PsramCtrl

/-- The reader has no reset for its data. -/
def reset (data : BitVec 2 → Byte) : PsramCtrl :=
  ⟨.init, ⟨.reset, data⟩, .reset, .reset⟩

variable (ctrl : PsramCtrl) (req : ApbReq)

/-- `wb_we` and `wb_re`. -/
def we : Bool := req.pwrite && req.psel
def re : Bool := !req.pwrite && req.psel

def writeFinal : BitVec 8 := writerFinal (selSize req.pstrb)

def writeDone : Bool := ctrl.writer.done (writeFinal req)
def readDone : Bool := ctrl.reader.shifter.done PsramReader.final

def resp : ApbResp where
  pready := (if we req then ctrl.writeDone req else ctrl.readDone) && req.psel
  prdata := ctrl.reader.line
  pslverr := false

def pins : PsramPins :=
  match ctrl.state with
  | .init => ⟨ctrl.init.sck, ctrl.init.ceN, ctrl.init.dout, true⟩
  | _ =>
      if we req then
        ⟨ctrl.writer.sck, ctrl.writer.ceN,
          writerDout ctrl.writer (selData req.pstrb req.pwdata), !ctrl.writer.ceN⟩
      else
        ⟨ctrl.reader.shifter.sck, ctrl.reader.shifter.ceN, ctrl.reader.dout, ctrl.reader.doutEn⟩

def next (din : Nibble) : PsramCtrl where
  state :=
    match ctrl.state with
    | .init => if ctrl.init.done then .idle else .init
    | .idle => if req.psel then .wait else .idle
    | .wait =>
        if (ctrl.writeDone req && we req) || (ctrl.readDone && re req) then .idle else .wait
  reader := ctrl.reader.next (ctrl.state == .idle && re req)
    (req.paddr.extractLsb' 2 22 ++ 0#2) din
  writer := ctrl.writer.next (writeFinal req) (ctrl.state == .idle && we req)
    (req.paddr.extractLsb' 0 24)
  init := ctrl.init.next (ctrl.state == .init)

end PsramCtrl

/-!
## The pins
-/

namespace Psram

/-- The word that a rising edge of `sck` reads from the host. -/
def fetch (psram : Psram) : Option (BitVec 32) :=
  if psram.state = .delay_t ∧ psram.counter = 0#8 ∧ psram.cmd = rcmd then
    psramRead psram.host (psram.addr.setWidth 32) psram.rdata
  else some psram.rdata

/-- What a change of the clock and of the select, each from its old to its new value, does to
the chip. -/
def edges (psram : Psram) (sck sck' ceN ceN' : Bool) (din : Nibble) : Option Psram :=
  if !ceN && ceN' then
    if !sck && sck' then do
      let rdata ← psram.fetch
      let next ← psram.posedgeCeN
      some { next with rdata := rdata }
    else psram.posedgeCeN
  else if !sck && sck' then
    if ceN' then do
      let rdata ← psram.fetch
      some { psram with
        cmd := 0#8, addr := 0#24, data := 0#32, rdata := rdata, counter := 0#8, state := .cmd_t }
    else psram.posedgeSck din
  else some psram

end Psram

/-- The data pins. Where both sides drive them, or none, they may carry anything. -/
def qspiDio (pins : PsramPins) (chip : Psram) (float : Nibble) : Nibble :=
  if pins.doutEn && !chip.doutEn then pins.dout
  else if !pins.doutEn && chip.doutEn then chip.dout
  else float

/-- Controller and chip, and the clock and the select as the chip saw them last. A simulation
that has ended with an error has no chip. -/
structure PsramSystem where
  ctrl : PsramCtrl
  sck : Bool
  ceN : Bool
  chip : Option Psram

namespace PsramSystem

def reset (data : BitVec 2 → Byte) (chip : Psram) : PsramSystem :=
  ⟨.reset data, false, true, some chip⟩

variable (sys : PsramSystem) (req : ApbReq) (float : Nibble)

/-- The chip after the pins have changed. -/
def chipNext : Option Psram := do
  let chip ← sys.chip
  let pins := sys.ctrl.pins req
  chip.edges sys.sck pins.sck sys.ceN pins.ceN (qspiDio pins chip float)

/-- What the controller samples at the end of the cycle. -/
def din : Nibble :=
  match sys.chipNext req float with
  | some chip => qspiDio (sys.ctrl.pins req) chip float
  | none => float

def step : PsramSystem where
  ctrl := sys.ctrl.next req (sys.din req float)
  sck := (sys.ctrl.pins req).sck
  ceN := (sys.ctrl.pins req).ceN
  chip := sys.chipNext req float

end PsramSystem

/-!
## The bus
-/

/-- One cycle: what the master would like to drive, what the other devices answer, and what is
on undriven data pins. -/
structure PsramInput where
  want : ApbReq
  other : ApbResp
  float : Nibble

structure PsramBus where
  master : ApbPhase
  delayer : Delayer
  psram : PsramSystem

namespace PsramBus

def reset (data : BitVec 2 → Byte) (chip : Psram) : PsramBus :=
  ⟨.idle, .reset, .reset data chip⟩

variable (sel : BitVec 32 → Bool) (input : PsramInput) (bus : PsramBus)

/-- The request upstream of the delayer. -/
def upstream : ApbReq := bus.master.drive input.want

/-- `APBFanout` for the PSRAM. -/
def request : ApbReq :=
  let req := bus.delayer.request (bus.upstream input)
  { req with psel := sel req.paddr && req.psel, penable := sel req.paddr && req.penable }

/-- The answer that `APBFanout` hands to the delayer. -/
def answer : ApbResp :=
  if sel (bus.upstream input).paddr then bus.psram.ctrl.resp (bus.request sel input)
  else input.other

def step : PsramBus where
  master := bus.master.next input.want bus.delayer.resp.pready
  delayer := bus.delayer.next (bus.upstream input) (bus.answer sel input)
  psram := bus.psram.step (bus.request sel input) input.float

end PsramBus

/-- The word of the chip that an address selects. -/
def psramWord (addr : BitVec 32) : BitVec 22 := addr.extractLsb' 2 22

/-- A transfer as an access to words of four bytes. -/
def ApbReq.access (req : ApbReq) (prdata : BitVec 32) : Access (BitVec 22) (Fin 4) Byte :=
  if req.pwrite then
    .write (psramWord req.paddr) (fun i => lane req.pwdata i) fun i => req.pstrb.getLsbD i
  else .read (psramWord req.paddr) fun i => lane prdata i

/-- A transfer to the PSRAM is done in the cycle that sees `pready` in its access phase. -/
def PsramBus.out (sel : BitVec 32 → Bool) (bus : PsramBus) :
    List (Access (BitVec 22) (Fin 4) Byte) :=
  match bus.master with
  | .idle => []
  | .access req =>
      if bus.delayer.resp.pready && sel req.paddr then [req.access bus.delayer.resp.prdata] else []

def psramMachine (sel : BitVec 32 → Bool) :
    Machine PsramInput PsramBus (Access (BitVec 22) (Fin 4) Byte) where
  step := PsramBus.step sel
  out := fun _ => PsramBus.out sel

end Ysyx.Soc
