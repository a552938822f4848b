import Mathlib.Algebra.Group.Nat.Defs
import Ysyx.Soc.Apb
import Ysyx.Lib.Machine

/-! `apb_delayer`: it holds back the answer of a peripheral for as long as the faster core
would have waited. -/

set_option autoImplicit false

namespace Ysyx.Soc

open Lib (Machine)

inductive DelayerState where
  | idle_t | wait_perip_t | delay_t
  deriving DecidableEq, Repr

structure Delayer where
  state : DelayerState
  counter : BitVec 32
  prdata_r : BitVec 32
  pslverr_r : Bool
  deriving DecidableEq, Repr

def Delayer.reset : Delayer := ⟨.idle_t, 0#32, 0#32, false⟩

/-- What the peripheral answers in a cycle. -/
structure ApbResp where
  pready : Bool
  prdata : BitVec 32
  pslverr : Bool
  deriving DecidableEq, Repr

/-- The downstream request: `psel` is withdrawn while the answer is held back. -/
def Delayer.request (delayer : Delayer) (req : ApbReq) : ApbReq :=
  { req with psel := req.psel && delayer.state != .delay_t }

/-- The upstream answer. -/
def Delayer.resp (delayer : Delayer) : ApbResp where
  pready := delayer.state == .delay_t && delayer.counter == 1#32
  prdata := delayer.prdata_r
  pslverr := delayer.pslverr_r

def Delayer.next (delayer : Delayer) (req : ApbReq) (resp : ApbResp) : Delayer :=
  let counter := delayer.counter
  { state :=
      match delayer.state with
      | .idle_t => if req.psel then .wait_perip_t else .idle_t
      | .wait_perip_t => if resp.pready then .delay_t else .wait_perip_t
      | .delay_t => if counter = 1#32 then .idle_t else .delay_t
    counter :=
      match delayer.state with
      | .idle_t => if req.psel then counter + 85#32 else counter
      | .wait_perip_t =>
          if resp.pready then (counter + 85#32) >>> 5 else counter + 85#32
      | .delay_t => if counter = 1#32 then 0#32 else counter - 1#32
    prdata_r := if resp.pready then resp.prdata else delayer.prdata_r
    pslverr_r := if resp.pready then resp.pslverr else delayer.pslverr_r }

/-!
## Master, delayer and peripheral
-/

/-- One cycle: what the master would like to drive, and the peripheral's lines. -/
structure DelayInput where
  want : ApbReq
  resp : ApbResp
  deriving DecidableEq, Repr

/-- `accesses` counts the access cycles the peripheral has seen of the transfer it is in. -/
structure DelaySystem where
  master : ApbPhase
  delayer : Delayer
  accesses : Nat
  deriving DecidableEq, Repr

def DelaySystem.reset : DelaySystem := ⟨.idle, Delayer.reset, 0⟩

/-- The request upstream of the delayer. -/
def DelaySystem.upstream (sys : DelaySystem) (input : DelayInput) : ApbReq :=
  sys.master.drive input.want

/-- The request the peripheral sees. -/
def DelaySystem.downstream (sys : DelaySystem) (input : DelayInput) : ApbReq :=
  sys.delayer.request (sys.upstream input)

def DelaySystem.step (input : DelayInput) (sys : DelaySystem) : DelaySystem where
  master := sys.master.next input.want sys.delayer.resp.pready
  delayer := sys.delayer.next (sys.upstream input) input.resp
  accesses :=
    if (sys.downstream input).psel && (sys.downstream input).penable then sys.accesses + 1 else 0

def delayMachine : Machine DelayInput DelaySystem ApbResp where
  step := DelaySystem.step
  out := fun _ sys => [sys.delayer.resp]

/-- The bus from reset on. -/
def delayAt (inputs : Nat → DelayInput) (n : Nat) : DelaySystem :=
  delayMachine.run inputs 0 DelaySystem.reset n

/-- A peripheral that answers only in an access cycle in which it is selected, and soon
enough for the 32-bit counter. -/
structure Answers (inputs : Nat → DelayInput) : Prop where
  selected : ∀ n, (inputs n).resp.pready = true →
    ((delayAt inputs n).downstream (inputs n)).psel = true ∧
      ((delayAt inputs n).downstream (inputs n)).penable = true
  bounded : ∀ n, ((delayAt inputs n).downstream (inputs n)).psel = true →
    ((delayAt inputs n).downstream (inputs n)).penable = true →
      85 * ((delayAt inputs n).accesses + 1 + 1) < 2 ^ 32

/-!
## What the delayer is for
-/

/-- The cycles the answer is late when the peripheral took `k` access cycles. -/
def calibrated (k : Nat) : Nat := 85 * (k + 1) / 32

/-- The transfer `req` that starts in cycle `t`, is answered in its `k`-th access cycle and
handed on `calibrated k` cycles later. -/
structure Delayed (inputs : Nat → DelayInput) (t k : Nat) (req : ApbReq) : Prop where
  positive : 1 ≤ k
  setup : (delayAt inputs t).downstream (inputs t) = { req with psel := true, penable := false }
  access : ∀ j, 1 ≤ j → j ≤ k → (delayAt inputs (t + j)).downstream (inputs (t + j)) =
    { req with psel := true, penable := true }
  answered : ∀ j ≤ k, (inputs (t + j)).resp.pready = decide (j = k)
  withdrawn : ∀ j, k < j → j ≤ k + calibrated k →
    ((delayAt inputs (t + j)).downstream (inputs (t + j))).psel = false
  held : ∀ j ≤ k + calibrated k,
    (delayAt inputs (t + j)).delayer.resp.pready = decide (j = k + calibrated k)
  prdata : (delayAt inputs (t + (k + calibrated k))).delayer.resp.prdata =
    (inputs (t + k)).resp.prdata
  pslverr : (delayAt inputs (t + (k + calibrated k))).delayer.resp.pslverr =
    (inputs (t + k)).resp.pslverr
  done : (delayAt inputs (t + (k + calibrated k) + 1)).master = .idle

end Ysyx.Soc
