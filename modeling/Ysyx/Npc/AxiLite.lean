import Ysyx.Soc.Apb
import Ysyx.Lib.Port

/-! The AXI4-Lite slaves `axi_lite_clint` and `axi_lite_uart`, each with a master that holds
what it drives until it is accepted. The write channels of the CLINT are never ready. -/

set_option autoImplicit false

namespace Ysyx.Npc

open Lib (Machine Signals)
open Soc (strobe)

/-- `addr[11:2]`: the register of a 4 KiB region. -/
def regIndex (addr : BitVec 32) : BitVec 10 := addr.extractLsb' 2 10

/-!
## The CLINT
-/

structure Clint where
  arready : Bool
  rvalid : Bool
  rdata : BitVec 32
  mtime : BitVec 64
  deriving DecidableEq, Repr

namespace Clint

def reset : Clint := ⟨false, false, 0#32, 0#64⟩

variable (clint : Clint) (arvalid : Bool) (araddr : BitVec 32) (rready : Bool)

/-- `reg_ren`. -/
def regRen : Bool := arvalid && !clint.arready && (!clint.rvalid || rready)

def rdataNext : BitVec 32 :=
  if regIndex araddr = 0#10 then clint.mtime.extractLsb' 0 32
  else if regIndex araddr = 1#10 then clint.mtime.extractLsb' 32 32
  else 0#32

def next : Clint where
  arready := clint.regRen arvalid rready
  rvalid := clint.regRen arvalid rready || (clint.rvalid && !rready)
  rdata := if clint.regRen arvalid rready then clint.rdataNext araddr else clint.rdata
  mtime := clint.mtime + 1#64

end Clint

/-- What the master decides in a cycle: the read it would like to make, and `rready`. -/
structure ReadInput where
  want : Option (BitVec 32)
  rready : Bool

structure ClintSystem where
  clint : Clint
  /-- The address the master holds on its AR channel. -/
  ar : Option (BitVec 32)

namespace ClintSystem

def reset : ClintSystem := ⟨Clint.reset, none⟩

variable (input : ReadInput) (sys : ClintSystem)

/-- The address on the AR channel, while `arvalid` is high. -/
def driven : Option (BitVec 32) := sys.ar.or input.want

def next : ClintSystem where
  clint :=
    sys.clint.next (sys.driven input).isSome ((sys.driven input).getD 0#32) input.rready
  ar := if sys.clint.arready then none else sys.driven input

/-- The AR and R channels. -/
def read : Signals (BitVec 32) (BitVec 32) where
  asked := sys.driven input
  ready := sys.clint.arready
  valid := sys.clint.rvalid
  data := sys.clint.rdata
  taken := input.rready
  value := sys.clint.rdataNext

end ClintSystem

def clintMachine : Machine ReadInput ClintSystem Unit where
  step := ClintSystem.next
  out := fun _ _ => []

/-- The system `n` cycles after it was in a state. -/
def clintAt (start : ClintSystem) (inputs : Nat → ReadInput) (n : Nat) : ClintSystem :=
  clintMachine.run inputs 0 start n

/-- The read channels in the cycles of a run from reset. -/
def clintRead (inputs : Nat → ReadInput) (n : Nat) : Signals (BitVec 32) (BitVec 32) :=
  (clintAt ClintSystem.reset inputs n).read (inputs n)

/-!
## The UART
-/

structure Uart where
  awready : Bool
  wready : Bool
  bvalid : Bool
  arready : Bool
  rvalid : Bool
  rdata : BitVec 32
  uartData : BitVec 32
  /-- `sim_disp_en`: the cycle in which the simulation prints the low byte. -/
  simDispEn : Bool
  deriving DecidableEq, Repr

/-- What the slave reads of its bus. -/
structure UartBus where
  awvalid : Bool
  awaddr : BitVec 32
  wvalid : Bool
  wdata : BitVec 32
  wstrb : BitVec 4
  bready : Bool
  arvalid : Bool
  araddr : BitVec 32
  rready : Bool

namespace Uart

def reset : Uart := ⟨false, false, false, false, false, 0#32, 0#32, false⟩

variable (uart : Uart) (bus : UartBus)

/-- `reg_wen`. -/
def regWen : Bool :=
  bus.awvalid && bus.wvalid && (!uart.awready && !uart.wready) && (!uart.bvalid || bus.bready)

/-- `reg_ren`. -/
def regRen : Bool := bus.arvalid && !uart.arready && (!uart.rvalid || bus.rready)

def rdataNext (araddr : BitVec 32) : BitVec 32 :=
  if regIndex araddr = 0#10 then uart.uartData else 0#32

/-- The data register after a write with these strobes. -/
def written (data awaddr wdata : BitVec 32) (wstrb : BitVec 4) : BitVec 32 :=
  if regIndex awaddr = 0#10 then strobe wstrb data wdata else data

def next : Uart where
  awready := uart.regWen bus
  wready := uart.regWen bus
  bvalid := uart.regWen bus || (uart.bvalid && !bus.bready)
  arready := uart.regRen bus
  rvalid := uart.regRen bus || (uart.rvalid && !bus.rready)
  rdata := if uart.regRen bus then uart.rdataNext bus.araddr else uart.rdata
  uartData :=
    if uart.regWen bus then written uart.uartData bus.awaddr bus.wdata bus.wstrb
    else uart.uartData
  simDispEn := uart.regWen bus

end Uart

/-- What the master decides in a cycle: the address, the data and the read it would like to
put on the channels, each on its own, and its ready signals. -/
structure UartInput where
  wantAw : Option (BitVec 32)
  wantW : Option (BitVec 32 × BitVec 4)
  bready : Bool
  wantAr : Option (BitVec 32)
  rready : Bool

structure UartSystem where
  uart : Uart
  aw : Option (BitVec 32)
  w : Option (BitVec 32 × BitVec 4)
  ar : Option (BitVec 32)

namespace UartSystem

def reset : UartSystem := ⟨Uart.reset, none, none, none⟩

variable (input : UartInput) (sys : UartSystem)

def awDriven : Option (BitVec 32) := sys.aw.or input.wantAw
def wDriven : Option (BitVec 32 × BitVec 4) := sys.w.or input.wantW
def arDriven : Option (BitVec 32) := sys.ar.or input.wantAr

def bus : UartBus where
  awvalid := (sys.awDriven input).isSome
  awaddr := (sys.awDriven input).getD 0#32
  wvalid := (sys.wDriven input).isSome
  wdata := ((sys.wDriven input).getD (0#32, 0#4)).1
  wstrb := ((sys.wDriven input).getD (0#32, 0#4)).2
  bready := input.bready
  arvalid := (sys.arDriven input).isSome
  araddr := (sys.arDriven input).getD 0#32
  rready := input.rready

def next : UartSystem where
  uart := sys.uart.next (sys.bus input)
  aw := if sys.uart.awready then none else sys.awDriven input
  w := if sys.uart.wready then none else sys.wDriven input
  ar := if sys.uart.arready then none else sys.arDriven input

/-- A write that is on both channels. -/
def write : Option (BitVec 32 × BitVec 32 × BitVec 4) :=
  match sys.awDriven input, sys.wDriven input with
  | some addr, some (data, strb) => some (addr, data, strb)
  | _, _ => none

/-- The AR and R channels. -/
def read : Signals (BitVec 32) (BitVec 32) where
  asked := sys.arDriven input
  ready := sys.uart.arready
  valid := sys.uart.rvalid
  data := sys.uart.rdata
  taken := input.rready
  value := sys.uart.rdataNext

/-- The AW, W and B channels, `awready` standing for both ready signals; the response is
always OKAY. -/
def writes : Signals (BitVec 32 × BitVec 32 × BitVec 4) Unit where
  asked := sys.write input
  ready := sys.uart.awready
  valid := sys.uart.bvalid
  data := ()
  taken := input.bready
  value := fun _ => ()

end UartSystem

def uartMachine : Machine UartInput UartSystem Unit where
  step := UartSystem.next
  out := fun _ _ => []

def uartAt (inputs : Nat → UartInput) (n : Nat) : UartSystem :=
  uartMachine.run inputs 0 UartSystem.reset n

/-- The channels in the cycles of a run from reset. -/
def uartRead (inputs : Nat → UartInput) (n : Nat) : Signals (BitVec 32) (BitVec 32) :=
  (uartAt inputs n).read (inputs n)

def uartWrite (inputs : Nat → UartInput) (n : Nat) :
    Signals (BitVec 32 × BitVec 32 × BitVec 4) Unit :=
  (uartAt inputs n).writes (inputs n)

/-- The handshakes on the AW channel before cycle `n`. -/
def awHandshakes (inputs : Nat → UartInput) : Nat → Nat
  | 0 => 0
  | n + 1 =>
      let sys := uartAt inputs n
      awHandshakes inputs n +
        ((sys.awDriven (inputs n)).isSome && sys.uart.awready).toNat

/-- The handshakes on the W channel before cycle `n`. -/
def wHandshakes (inputs : Nat → UartInput) : Nat → Nat
  | 0 => 0
  | n + 1 =>
      let sys := uartAt inputs n
      wHandshakes inputs n +
        ((sys.wDriven (inputs n)).isSome && sys.uart.wready).toNat

end Ysyx.Npc
