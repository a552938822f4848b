import Ysyx.Soc.Apb
import Ysyx.Lib.Machine
import Mathlib.Logic.Function.Basic

/-! The SDRAM path over APB: `sdram_top_apb`, the controller `sdram_axi_core` with the
parameters it has there, and the four chips of `sdram`. A cycle runs from one rising edge of
the clock to the next; the chips are clocked by its inverse, in the middle of a cycle. -/

set_option autoImplicit false

namespace Ysyx.Soc

open Lib (Machine)

/-!
## The chip `sdram_32mx16`
-/

/-- The commands `{ras, cas, we}`. -/
inductive SdramCmd where
  | nop | active | read | write | terminate | precharge | refresh | loadMode
  deriving DecidableEq, Repr

/-- The pins of a chip; `din` is what `dq` carries at the edge. -/
structure SdramChipPins where
  cke : Bool
  cs : Bool
  command : SdramCmd
  a : BitVec 13
  ba : BitVec 2
  dqm : BitVec 2
  din : BitVec 16

/-- The registers of a chip and its four banks of 8192 rows of 512 half words. -/
structure Sdram32mx16 where
  bank : BitVec 2 → BitVec 22 → BitVec 16
  lineAddress : BitVec 2 → BitVec 13
  dout : BitVec 16
  casLatency : BitVec 3
  brustLength : BitVec 3
  lBank : BitVec 2
  dqmBuf1 : BitVec 2
  rCounter : BitVec 4
  wCounter : BitVec 4
  readFlag : Bool
  rAddress : BitVec 9
  wAddress : BitVec 9
  wData : BitVec 16

namespace Sdram32mx16

variable (chip : Sdram32mx16) (pins : SdramChipPins)

def rSdramAddress : BitVec 22 := chip.lineAddress chip.lBank ++ chip.rAddress
def wSdramAddress : BitVec 22 := chip.lineAddress chip.lBank ++ chip.wAddress

def length : BitVec 4 :=
  if chip.brustLength = 3#3 then 8#4
  else if chip.brustLength = 2#3 then 4#4
  else if chip.brustLength = 1#3 then 2#4
  else 1#4

/-- `{1'b0, CAS_Latency} - 1`, in the 32 bits of the comparisons. -/
def latencyEnd : BitVec 32 := chip.casLatency.setWidth 32 - 1#32

/-- The half word with the bytes that `dqm` does not mask. -/
def masked (dqm : BitVec 2) (old new : BitVec 16) : BitVec 16 :=
  (if dqm.getLsbD 1 then old.extractLsb' 8 8 else new.extractLsb' 8 8) ++
    (if dqm.getLsbD 0 then old.extractLsb' 0 8 else new.extractLsb' 0 8)

/-- The array with the word that waits to be written. -/
def settled : BitVec 2 → BitVec 22 → BitVec 16 :=
  if 0#4 < chip.wCounter then
    Function.update chip.bank chip.lBank
      (Function.update (chip.bank chip.lBank) chip.wSdramAddress
        (masked chip.dqmBuf1 (chip.bank chip.lBank chip.wSdramAddress) chip.wData))
  else chip.bank

/-- An edge with `cke` low. -/
def disabled : Sdram32mx16 :=
  { bank := chip.bank
    lineAddress := fun _ => 0#13
    dout := 0#16
    casLatency := 0#3
    brustLength := 0#3
    lBank := 0#2
    dqmBuf1 := 0#2
    rCounter := 0#4
    wCounter := 0#4
    readFlag := false
    rAddress := 0#9
    wAddress := 0#9
    wData := 0#16 }

/-- An edge with `cs` high. -/
def deselected : Sdram32mx16 :=
  { chip with dout := 0#16, rCounter := 0#4, rAddress := 0#9, readFlag := false }

/-- An edge with `cs` low. `Line_Address` is assigned at once in the source, so an `ACTIVE`
in the cycle of an access to its bank would race with it; the controller leaves time between
the two. -/
def selected : Sdram32mx16 where
  bank := chip.settled
  lineAddress :=
    if pins.command = .active then Function.update chip.lineAddress pins.ba pins.a
    else chip.lineAddress
  dout :=
    if chip.latencyEnd ≤ chip.rCounter.setWidth 32 then chip.bank chip.lBank chip.rSdramAddress
    else 0#16
  casLatency := if pins.command = .loadMode then pins.a.extractLsb' 4 3 else chip.casLatency
  brustLength := if pins.command = .loadMode then pins.a.extractLsb' 0 3 else chip.brustLength
  lBank :=
    if pins.command = .active ∨ pins.command = .read ∨ pins.command = .write then pins.ba
    else chip.lBank
  dqmBuf1 := pins.dqm
  rCounter :=
    if pins.command = .read then chip.rCounter + 1#4
    else if 0#4 < chip.rCounter ∧ chip.rCounter.setWidth 32 < chip.latencyEnd then
      chip.rCounter + 1#4
    else if chip.latencyEnd ≤ chip.rCounter.setWidth 32 then
      if chip.rCounter.setWidth 32 <
          chip.length.setWidth 32 + chip.casLatency.setWidth 32 - 1#32 then chip.rCounter + 1#4
      else 0#4
    else 0#4
  readFlag :=
    pins.command = .read ∨ (0#4 < chip.rCounter ∧ chip.rCounter.setWidth 32 < chip.latencyEnd) ∨
      chip.latencyEnd ≤ chip.rCounter.setWidth 32
  rAddress :=
    if pins.command = .read then pins.a.extractLsb' 0 9
    else if 0#4 < chip.rCounter ∧ chip.rCounter.setWidth 32 < chip.latencyEnd then chip.rAddress
    else if chip.latencyEnd ≤ chip.rCounter.setWidth 32 then chip.rAddress + 1#9
    else 0#9
  wCounter :=
    if pins.command = .write then chip.wCounter + 1#4
    else if 0#4 < chip.wCounter then
      if chip.wCounter < chip.length then chip.wCounter + 1#4 else 0#4
    else 0#4
  wAddress :=
    if pins.command = .write then pins.a.extractLsb' 0 9
    else if 0#4 < chip.wCounter then chip.wAddress + 1#9
    else 0#9
  wData :=
    if pins.command = .write then pins.din
    else if 0#4 < chip.wCounter then pins.din
    else 0#16

def posedge : Sdram32mx16 :=
  if !pins.cke then chip.disabled else if pins.cs then chip.deselected else chip.selected pins

end Sdram32mx16

/-!
## The chips `sdram`
-/

/-- The pins of the controller; `a[13]` selects the rank. -/
structure SdramPins where
  cke : Bool
  cs : Bool
  command : SdramCmd
  a : BitVec 14
  ba : BitVec 2
  dqm : BitVec 4
  dq : BitVec 32
  dqEn : Bool

/-- The chips by rank and by half of the word, the upper half being `true`. -/
abbrev Sdram := Bool → Bool → Sdram32mx16

/-- The bits of one half of the word. -/
def halfOf {n : Nat} (word : BitVec (2 * n)) (half : Bool) : BitVec n :=
  if half then word.extractLsb' n n else word.extractLsb' 0 n

/-- The command a rank sees; `LOAD_MODE` and `NOP` go to both. -/
def SdramPins.commandOf (pins : SdramPins) (rank : Bool) : SdramCmd :=
  match pins.command with
  | .loadMode => .loadMode
  | .nop => .nop
  | command => if pins.a.getLsbD 13 = rank then command else .nop

/-- A half of the data bus: its one driver, or the value it has without one or with several. -/
def Sdram.dq (chips : Sdram) (pins : SdramPins) (float : BitVec 32) (half : Bool) : BitVec 16 :=
  match pins.dqEn, (chips false half).readFlag, (chips true half).readFlag with
  | true, false, false => halfOf pins.dq half
  | false, true, false => (chips false half).dout
  | false, false, true => (chips true half).dout
  | _, _, _ => halfOf float half

def Sdram.posedge (chips : Sdram) (pins : SdramPins) (float : BitVec 32) : Sdram :=
  fun rank half => (chips rank half).posedge
    { cke := pins.cke
      cs := pins.cs
      command := pins.commandOf rank
      a := pins.a.extractLsb' 0 13
      ba := pins.ba
      dqm := halfOf pins.dqm half
      din := chips.dq pins float half }

/-!
## The controller `sdram_axi_core`
-/

inductive SdramState where
  | init | delay | idle | activate | read | readWait | write0 | write1 | precharge | refresh
  deriving DecidableEq, Repr

structure SdramAxiCore where
  state : SdramState
  target : SdramState
  delayState : SdramState
  delay : BitVec 4
  refreshTimer : Nat
  refresh : Bool
  sampleData0 : BitVec 32
  sampleData : BitVec 32
  command : SdramCmd
  addr : BitVec 13
  data : BitVec 32
  dataRdEn : Bool
  dqm : BitVec 4
  cke : Bool
  bank : BitVec 2
  rowOpen : BitVec 3 → Bool
  activeRow : BitVec 3 → BitVec 13
  rd : BitVec 4
  ack : Bool

/-- The request at the core's port. -/
structure RamReq where
  wr : BitVec 4
  rd : Bool
  addr : BitVec 32
  data : BitVec 32

namespace RamReq

variable (ram : RamReq)

def req : Bool := ram.wr != 0#4 || ram.rd
def col : BitVec 13 := 0#4 ++ (ram.addr.extractLsb' 2 8 ++ 0#1)
def row : BitVec 13 := ram.addr.extractLsb' 12 13
def bank : BitVec 2 := ram.addr.extractLsb' 10 2
def rank : Bool := ram.addr.getLsbD 26

/-- The bank with the rank before it. -/
def bankDouble : BitVec 3 := ram.addr.extractLsb' 26 1 ++ ram.bank

/-- The state that serves the request. -/
def access : SdramState := if ram.rd then .read else .write0

end RamReq

namespace SdramAxiCore

/-- `SDRAM_START_DELAY`, `SDRAM_REFRESH_CYCLES` and the timing at 100 MHz, 13 row bits and a
read latency of 2. -/
def startDelay : Nat := 10000
def refreshCycles : Nat := 780
def trcdCycles : BitVec 4 := 2#4
def trpCycles : BitVec 4 := 2#4
def trfcCycles : BitVec 4 := 6#4
def readLatency : BitVec 4 := 2#4

/-- `MODE_REG`: burst length 1, CAS latency 2. -/
def modeReg : BitVec 13 := 0x20#13

/-- `addr_q[AUTO_PRECHARGE]` and `addr_q[ALL_BANKS]`. -/
def setBit10 (addr : BitVec 13) (bit : Bool) : BitVec 13 :=
  if bit then addr ||| 0x400#13 else addr &&& 0x1bff#13

def reset : SdramAxiCore where
  state := .init
  target := .idle
  delayState := .idle
  delay := 0#4
  refreshTimer := startDelay + 100
  refresh := false
  sampleData0 := 0#32
  sampleData := 0#32
  command := .nop
  addr := 0#13
  data := 0#32
  dataRdEn := true
  dqm := 0#4
  cke := false
  bank := 0#2
  rowOpen := fun _ => false
  activeRow := fun _ => 0#13
  rd := 0#4
  ack := false

variable (core : SdramAxiCore) (ram : RamReq)

def hit : Bool := core.rowOpen ram.bankDouble && ram.row == core.activeRow ram.bankDouble

def anyOpen : Bool := decide (∃ i, core.rowOpen i = true)

/-- `target_state_r`. -/
def targetNext : SdramState :=
  match core.state with
  | .idle =>
      if core.refresh then .refresh
      else if ram.req && !core.hit ram then ram.access
      else core.target
  | _ => core.target

/-- `next_state_r`. -/
def stateNext : SdramState :=
  match core.state with
  | .init => if core.refresh then .idle else .init
  | .idle =>
      if core.refresh then if core.anyOpen then .precharge else .refresh
      else if ram.req then
        if core.hit ram then ram.access
        else if core.rowOpen ram.bankDouble then .precharge
        else .activate
      else .idle
  | .activate => core.target
  | .read => .readWait
  | .readWait => if !core.refresh && ram.req && ram.rd && core.hit ram then .read else .idle
  | .write0 => .idle
  | .write1 =>
      if !core.refresh && ram.req && ram.wr != 0#4 && core.hit ram then .write0 else .idle
  | .precharge => if core.target = .refresh then .refresh else .activate
  | .refresh => .idle
  | .delay => core.delayState

/-- `delay_r`. -/
def delayNext : BitVec 4 :=
  match core.state with
  | .activate => trcdCycles
  | .readWait =>
      if !core.refresh && ram.req && ram.rd && core.hit ram then 0#4 else readLatency
  | .precharge => trpCycles
  | .refresh => trfcCycles
  | .delay => core.delay - 1#4
  | _ => 0#4

/-- The registers of the command output. -/
def outputs : SdramAxiCore :=
  match core.state with
  | .init =>
      if core.refreshTimer = 50 then { core with cke := true }
      else if core.refreshTimer = 40 then
        { core with command := .precharge, addr := setBit10 core.addr true }
      else if core.refreshTimer = 20 ∨ core.refreshTimer = 30 then { core with command := .refresh }
      else if core.refreshTimer = 10 then { core with command := .loadMode, addr := modeReg }
      else { core with command := .nop, addr := 0#13, bank := 0#2 }
  | .activate =>
      { core with
        command := .active
        addr := ram.row
        bank := ram.bank
        activeRow := Function.update core.activeRow ram.bankDouble ram.row
        rowOpen := Function.update core.rowOpen ram.bankDouble true }
  | .precharge =>
      if core.target = .refresh then
        { core with
          command := .precharge
          addr := setBit10 core.addr true
          rowOpen := fun _ => false }
      else
        { core with
          command := .precharge
          addr := setBit10 core.addr false
          bank := ram.bank
          rowOpen := Function.update core.rowOpen ram.bankDouble false }
  | .refresh => { core with command := .refresh, addr := 0#13, bank := 0#2 }
  | .read =>
      { core with
        command := .read
        addr := setBit10 ram.col false
        bank := ram.bank
        dqm := 0#4 }
  | .write0 =>
      { core with
        command := .write
        addr := setBit10 ram.col false
        bank := ram.bank
        data := ram.data
        dqm := ~~~ram.wr
        dataRdEn := false }
  | .write1 => { core with command := .nop, addr := setBit10 core.addr false }
  | .idle | .delay | .readWait =>
      { core with command := .nop, addr := 0#13, bank := 0#2, dataRdEn := true }

/-- A rising edge, with the data bus before it. -/
def posedge (dataIn : BitVec 32) : SdramAxiCore :=
  { core.outputs ram with
    state := if core.delayNext ram ≠ 0#4 then .delay else core.stateNext ram
    target := core.targetNext ram
    delayState :=
      if core.state ≠ .delay ∧ core.delayNext ram ≠ 0#4 then core.stateNext ram
      else core.delayState
    delay := core.delayNext ram
    refreshTimer := if core.refreshTimer = 0 then refreshCycles else core.refreshTimer - 1
    refresh :=
      if core.refreshTimer = 0 then true
      else if core.state = .refresh then false
      else core.refresh
    sampleData0 := dataIn
    sampleData := core.sampleData0
    rd := core.rd.extractLsb' 0 3 ++ BitVec.ofBool (core.state == .read)
    ack := core.state == .write0 || core.rd.getLsbD 2 }

/-- `inport_accept_o`. -/
def accept : Bool := core.state == .read || core.state == .write0

def pins : SdramPins where
  cke := core.cke
  cs := false
  command := core.command
  a := BitVec.ofBool ram.rank ++ core.addr
  ba := core.bank
  dqm := core.dqm
  dq := core.data
  dqEn := !core.dataRdEn

end SdramAxiCore

/-!
## `sdram_top_apb`
-/

inductive SdramTopState where
  | idle | waitAccept | waitAck
  deriving DecidableEq, Repr

structure SdramTop where
  state : SdramTopState
  core : SdramAxiCore

namespace SdramTop

variable (top : SdramTop) (req : ApbReq)

def active : Bool := req.psel && !req.penable || top.state == .waitAccept

def ram : RamReq where
  wr := if top.active req && req.pwrite then req.pstrb else 0#4
  rd := top.active req && !req.pwrite
  addr := req.paddr
  data := req.pwdata

def stateNext : SdramTopState :=
  match top.state with
  | .idle => if top.active req then if top.core.accept then .waitAck else .waitAccept else .idle
  | .waitAccept => if top.core.accept then .waitAck else .waitAccept
  | .waitAck => if top.core.ack then .idle else .waitAck

end SdramTop

/-- What the environment decides in a cycle: what the master would like to drive, and the
undriven data bus before and after the chips' edge. -/
structure SdramInput where
  want : ApbReq
  before : BitVec 32
  after : BitVec 32

structure SdramSystem where
  master : ApbPhase
  top : SdramTop
  chips : Sdram

inductive SdramTransfer where
  | read (addr data : BitVec 32)
  | write (addr data : BitVec 32) (strb : BitVec 4)
  deriving DecidableEq, Repr

namespace SdramSystem

variable (input : SdramInput) (sys : SdramSystem)

def request : ApbReq := sys.master.drive input.want

def pins : SdramPins := sys.top.core.pins (sys.top.ram (sys.request input))

/-- The chips after their edge in the middle of the cycle. -/
def edge : Sdram := sys.chips.posedge (sys.pins input) input.before

/-- `sdram_dq` at the end of the cycle. -/
def dataIn : BitVec 32 :=
  (sys.edge input).dq (sys.pins input) input.after true ++
    (sys.edge input).dq (sys.pins input) input.after false

def step : SdramSystem where
  master := sys.master.next input.want sys.top.core.ack
  top := ⟨sys.top.stateNext (sys.request input),
    sys.top.core.posedge (sys.top.ram (sys.request input)) (sys.dataIn input)⟩
  chips := sys.edge input

/-- After reset; the chips have no reset and hold anything. -/
def reset (chips : Sdram) : SdramSystem where
  master := .idle
  top := ⟨.idle, SdramAxiCore.reset⟩
  chips := chips

/-- A transfer is done in the cycle that sees `pready` in its access phase. -/
def out (sys : SdramSystem) : List SdramTransfer :=
  match sys.master with
  | .idle => []
  | .access req =>
      if sys.top.core.ack then
        if req.pwrite then [.write req.paddr req.pwdata req.pstrb]
        else [.read req.paddr sys.top.core.sampleData]
      else []

end SdramSystem

def sdramMachine : Machine SdramInput SdramSystem SdramTransfer where
  step := SdramSystem.step
  out := fun _ => SdramSystem.out

end Ysyx.Soc
