import Ysyx.Soc.Apb
import Ysyx.Lib.Machine
import Ysyx.Lib.Ring

/-! `ps2_top_apb`: the frame receiver, the queue of codes and the APB read port, with the
bus master and the keyboard's two lines as its environment. -/

set_option autoImplicit false

namespace Ysyx.Soc

open Lib (Machine store)

/-!
## The device
-/

inductive Ps2ApbState where
  | idle | read
  deriving DecidableEq, Repr

structure Ps2 where
  clkSync : BitVec 3
  buffer : BitVec 10
  counter : BitVec 4
  fifo : BitVec 4 → BitVec 8
  wPtr : BitVec 4
  rPtr : BitVec 4
  /-- The source's name; the bit is set while the queue holds a code. -/
  empty : Bool
  apbState : Ps2ApbState

/-- After reset. The synchroniser and `buffer` have no reset, `fifo` a partial one. -/
def Ps2.reset (clkSync : BitVec 3) (buffer : BitVec 10) (fifo : BitVec 4 → BitVec 8) : Ps2 where
  clkSync := clkSync
  buffer := buffer
  counter := 0#4
  fifo := fun i => if i < 8#4 then 0#8 else fifo i
  wPtr := 0#4
  rPtr := 0#4
  empty := false
  apbState := .idle

/-- A falling edge of `ps2_clk`, two clocks ago. -/
def Ps2.sampling (ps2 : Ps2) : Bool := ps2.clkSync.getLsbD 2 && !ps2.clkSync.getLsbD 1

def Ps2.pready (ps2 : Ps2) : Bool := ps2.apbState == .read

def Ps2.prdata (ps2 : Ps2) : BitVec 32 :=
  if ps2.apbState = .read then
    if ps2.empty then 0#24 ++ ps2.fifo ps2.rPtr else 0#32
  else 0#32

/-- `^buffer[9:1]` -/
def Ps2.parity (ps2 : Ps2) : Bool :=
  ps2.buffer.getLsbD 1 ^^ ps2.buffer.getLsbD 2 ^^ ps2.buffer.getLsbD 3 ^^ ps2.buffer.getLsbD 4 ^^
    ps2.buffer.getLsbD 5 ^^ ps2.buffer.getLsbD 6 ^^ ps2.buffer.getLsbD 7 ^^
    ps2.buffer.getLsbD 8 ^^ ps2.buffer.getLsbD 9

/-- A good frame ends in this cycle. -/
def Ps2.pushes (ps2 : Ps2) (data : Bool) : Bool :=
  ps2.sampling && ps2.counter == 10#4 && (!ps2.buffer.getLsbD 0 && data && ps2.parity)

def Ps2.pops (ps2 : Ps2) (penable : Bool) : Bool := penable && ps2.pready && ps2.empty

/-- The vector with bit `i` written. -/
def setBit {w : Nat} (x : BitVec w) (i : Nat) (b : Bool) : BitVec w :=
  if b then x ||| BitVec.twoPow w i else x &&& ~~~BitVec.twoPow w i

/-- One clock edge. In the source the pop stands after the push and wins on `empty`. -/
def Ps2.next (req : ApbReq) (clk data : Bool) (ps2 : Ps2) : Ps2 where
  clkSync := ps2.clkSync.extractLsb' 0 2 ++ BitVec.ofBool clk
  buffer :=
    if ps2.sampling && ps2.counter != 10#4 then setBit ps2.buffer ps2.counter.toNat data
    else ps2.buffer
  counter :=
    if ps2.sampling then (if ps2.counter = 10#4 then 0#4 else ps2.counter + 1#4) else ps2.counter
  fifo := if ps2.pushes data then store ps2.fifo ps2.wPtr (ps2.buffer.extractLsb' 1 8) else ps2.fifo
  wPtr := if ps2.pushes data then ps2.wPtr + 1#4 else ps2.wPtr
  rPtr := if ps2.pops req.penable then ps2.rPtr + 1#4 else ps2.rPtr
  empty :=
    if ps2.pops req.penable && ps2.wPtr == ps2.rPtr + 1#4 then false else
    if ps2.pushes data then true else ps2.empty
  apbState :=
    match ps2.apbState with
    | .idle => if req.psel && !req.pwrite then .read else .idle
    | .read => .idle

/-!
## The device on its bus
-/

structure Ps2Input where
  want : ApbReq
  clk : Bool
  data : Bool
  deriving DecidableEq, Repr

structure Ps2System where
  ps2 : Ps2
  bus : ApbPhase

def Ps2System.reset (clkSync : BitVec 3) (buffer : BitVec 10) (fifo : BitVec 4 → BitVec 8) :
    Ps2System where
  ps2 := Ps2.reset clkSync buffer fifo
  bus := .idle

def Ps2System.req (sys : Ps2System) (input : Ps2Input) : ApbReq := sys.bus.drive input.want

/-- An APB read is done in this cycle. -/
def Ps2System.readDone (sys : Ps2System) (input : Ps2Input) : Bool :=
  let req := sys.req input
  req.psel && req.penable && !req.pwrite && sys.ps2.pready

def Ps2System.next (input : Ps2Input) (sys : Ps2System) : Ps2System where
  ps2 := sys.ps2.next (sys.req input) input.clk input.data
  bus := sys.bus.next input.want sys.ps2.pready

/-- A code enters the queue; a read returns a word. -/
inductive Ps2Event where
  | stored (code : BitVec 8)
  | returned (word : BitVec 32)
  deriving DecidableEq, Repr

def Ps2System.out (input : Ps2Input) (sys : Ps2System) : List Ps2Event :=
  (if sys.ps2.pushes input.data then [.stored (sys.ps2.buffer.extractLsb' 1 8)] else []) ++
    (if sys.readDone input then [.returned sys.ps2.prdata] else [])

/-!
## What a keyboard queue is
-/

/-- The code of a frame of eleven bits: start bit 0, eight data bits from the lowest on,
odd parity over data and parity bit, stop bit 1. -/
def frameCode : List Bool → Option (BitVec 8)
  | [start, d0, d1, d2, d3, d4, d5, d6, d7, parity, stop] =>
      if !start && stop && (d0 ^^ d1 ^^ d2 ^^ d3 ^^ d4 ^^ d5 ^^ d6 ^^ d7 ^^ parity) then
        some (BitVec.ofBoolListLE [d0, d1, d2, d3, d4, d5, d6, d7])
      else none
  | _ => none

/-- The bits of the line so far in frames of eleven, and how many codes reads returned. -/
structure Ps2Log where
  frames : List (List Bool)
  part : List Bool
  returned : Nat
  deriving DecidableEq, Repr

def Ps2Log.reset : Ps2Log := ⟨[], [], 0⟩

/-- The codes stored so far, in order. -/
def Ps2Log.codes (log : Ps2Log) : List (BitVec 8) := log.frames.filterMap frameCode

/-- The stored codes that no read has returned yet, oldest first. -/
def Ps2Log.pending (log : Ps2Log) : List (BitVec 8) := log.codes.drop log.returned

/-- The code whose frame this bit completes. -/
def Ps2Log.completes (log : Ps2Log) (bit : Option Bool) : Option (BitVec 8) :=
  match bit with
  | some b => if log.part.length = 10 then frameCode (log.part ++ [b]) else none
  | none => none

def Ps2Log.next (bit : Option Bool) (readDone : Bool) (log : Ps2Log) : Ps2Log where
  frames :=
    match bit with
    | some b => if log.part.length = 10 then log.frames ++ [log.part ++ [b]] else log.frames
    | none => log.frames
  part :=
    match bit with
    | some b => if log.part.length = 10 then [] else log.part ++ [b]
    | none => log.part
  returned := if readDone && !log.pending.isEmpty then log.returned + 1 else log.returned

/-- The line `ps2_clk` from three clocks before the first cycle on; what the synchroniser holds
at first stands for the clocks before reset. -/
def ps2Clk (clkSync : BitVec 3) (clk : Nat → Bool) : Nat → Bool
  | 0 => clkSync.getLsbD 2
  | 1 => clkSync.getLsbD 1
  | 2 => clkSync.getLsbD 0
  | n + 3 => clk n

/-- The bits of the first `n` cycles: the data line two clocks after each falling edge. -/
def ps2Bits (clkSync : BitVec 3) (clk data : Nat → Bool) (n : Nat) : List Bool :=
  (List.range n).filterMap fun k =>
    if ps2Clk clkSync clk k && !ps2Clk clkSync clk (k + 1) then some (data k) else none

/-- The word a read returns: the oldest pending code, or 0 if there is none. -/
def codeWord : List (BitVec 8) → BitVec 32
  | code :: _ => 0#24 ++ code
  | [] => 0#32

/-- What the queue shows: a completed frame's code, and the word of a read. -/
def Ps2Log.out (bit : Option Bool) (readDone : Bool) (log : Ps2Log) : List Ps2Event :=
  (match log.completes bit with
    | some code => [.stored code]
    | none => []) ++
    (if readDone then [.returned (codeWord log.pending)] else [])

/-!
## Both together
-/

structure Ps2Run where
  sys : Ps2System
  log : Ps2Log

def Ps2Run.bit (run : Ps2Run) (input : Ps2Input) : Option Bool :=
  if run.sys.ps2.sampling then some input.data else none

def ps2Machine : Machine Ps2Input Ps2Run Ps2Event where
  step := fun input run =>
    ⟨run.sys.next input, run.log.next (run.bit input) (run.sys.readDone input)⟩
  out := fun input run => run.sys.out input

/-- The device shows what a keyboard queue shows, and `empty` tells whether it holds a code. -/
structure Ps2Run.Correct (run : Ps2Run) (input : Ps2Input) : Prop where
  shows : run.sys.out input = run.log.out (run.bit input) (run.sys.readDone input)
  holds : run.sys.ps2.empty = !run.log.pending.isEmpty

/-- A good frame ends in the cycle in which a read takes the only code. -/
def Ps2Run.Collides (run : Ps2Run) (input : Ps2Input) : Prop :=
  (run.log.completes (run.bit input)).isSome = true ∧ run.sys.readDone input = true ∧
    run.log.pending.length = 1

end Ysyx.Soc
