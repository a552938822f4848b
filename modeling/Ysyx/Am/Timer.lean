import Mathlib.Algebra.Group.Nat.Defs
import Ysyx.Npc.AxiLite

/-! The timer of the abstract machine: `riscv/ysyxsoc/timer.c` and `riscv/npc/timer.c`, which
differ in the address of the CLINT only. -/

set_option autoImplicit false

namespace Ysyx.Am

open Npc (Clint ClintSystem ReadInput clintAt)

inductive TimerBuild where
  | ysyxsoc | npc
  deriving DecidableEq, Repr

/-- `CLINT` of the SoC and `RTC_ADDR` of the NPC. -/
def TimerBuild.clint : TimerBuild → BitVec 32
  | .ysyxsoc => 0x02000000#32
  | .npc => 0xa0002000#32

/-- `get_time`, the CLINT being in these states when the two loads are accepted. -/
def getTime (build : TimerBuild) (first second : Clint) : BitVec 64 :=
  let lo := first.rdataNext build.clint
  let hi := second.rdataNext (build.clint + 4#32)
  hi.setWidth 64 <<< 32 + lo.setWidth 64

/-- The cycles in which the two loads of a call are accepted. -/
structure TimerCall where
  first : Nat
  second : Nat
  deriving DecidableEq, Repr

section Runs

variable (build : TimerBuild) (start : ClintSystem) (inputs : Nat → ReadInput)

/-- `mtime` in a cycle of the run. -/
def mtimeAt (n : Nat) : BitVec 64 := (clintAt start inputs n).clint.mtime

def TimerCall.time (call : TimerCall) : BitVec 64 :=
  getTime build (clintAt start inputs call.first).clint (clintAt start inputs call.second).clint

/-- The results of `__am_timer_uptime` after `__am_timer_init` has set `boot_time`. -/
def uptimes (init : TimerCall) (calls : List TimerCall) : List (BitVec 64) :=
  let bootTime := init.time build start inputs
  calls.map fun call => call.time build start inputs - bootTime

end Runs

end Ysyx.Am
