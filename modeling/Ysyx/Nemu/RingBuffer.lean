import Ysyx.Lib.Slice

/-! `iringbuf.c`: a byte queue behind two free-running 32-bit counters, and the trace of
instruction words that `exec_once` keeps in one. -/

set_option autoImplicit false

namespace Ysyx.Nemu

open Lib (slice blit)

/-- `alloc` is the number of bytes allocated for `buffer`. -/
structure RingBuffer where
  buffer : Nat → BitVec 8
  alloc : Nat
  size : BitVec 32
  in_ : BitVec 32
  out : BitVec 32

/-- The macro `min` of `iringbuf.c`. -/
def uintMin (a b : BitVec 32) : BitVec 32 := if a < b then a else b

def isPowerOf2 (x : BitVec 32) : Bool := x != 0#32 && (x &&& (x - 1#32)) == 0#32

/-- The loop of `roundup_pow_of_two` with `left` turns to go. -/
def roundupLoop (x : BitVec 32) : (left i : Nat) → (b : BitVec 32) → BitVec 32
  | 0, _, b => b
  | left + 1, i, _ =>
      let b := 1#32 <<< i
      if x ≤ b then b else roundupLoop x left (i + 1) b

def roundupPowOfTwo (x : BitVec 32) : BitVec 32 := roundupLoop x 32 0 0#32

/-- The allocations succeed; `fresh` is what the new buffer holds. -/
def ringBufferMalloc (fresh : Nat → BitVec 8) (size : BitVec 32) : Option RingBuffer :=
  if isPowerOf2 size then some ⟨fresh, size.toNat, size, 0#32, 0#32⟩ else
  if 0x80000000#32 < size then none else
    let size := roundupPowOfTwo size
    some ⟨fresh, size.toNat, size, 0#32, 0#32⟩

def ringBufferReset (fifo : RingBuffer) : RingBuffer := { fifo with in_ := 0#32, out := 0#32 }

def ringBufferLen (fifo : RingBuffer) : BitVec 32 := fifo.in_ - fifo.out

def ringBufferAvail (fifo : RingBuffer) : BitVec 32 := fifo.size - ringBufferLen fifo

def ringBufferIsFull (fifo : RingBuffer) : Bool := ringBufferAvail fifo == 0#32

/-- A counter as an index of the buffer. -/
def RingBuffer.mask (fifo : RingBuffer) (counter : BitVec 32) : BitVec 32 :=
  counter &&& (fifo.size - 1#32)

/-- `memcpy` into the buffer; nothing when it would leave the allocation. -/
def RingBuffer.put (fifo : RingBuffer) (index : BitVec 32) (data : List (BitVec 8)) :
    Option RingBuffer :=
  if index.toNat + data.length ≤ fifo.alloc then
    some { fifo with buffer := blit fifo.buffer index.toNat data }
  else none

/-- `memcpy` out of the buffer. -/
def RingBuffer.get (fifo : RingBuffer) (index len : BitVec 32) : Option (List (BitVec 8)) :=
  if index.toNat + len.toNat ≤ fifo.alloc then some (slice fifo.buffer index.toNat len.toNat)
  else none

/-- The number of bytes copied from `src` on. -/
def ringBufferIn (fifo : RingBuffer) (src : Nat → BitVec 8) (len : BitVec 32) :
    Option (BitVec 32 × RingBuffer) := do
  let len := uintMin len (ringBufferAvail fifo)
  let l := uintMin len (fifo.size - fifo.mask fifo.in_)
  let first ← fifo.put (fifo.mask fifo.in_) (slice src 0 l.toNat)
  let both ← first.put 0#32 (slice src l.toNat (len - l).toNat)
  pure (len, { both with in_ := both.in_ + len })

/-- The number of bytes copied, and the bytes. -/
def ringBufferOut (fifo : RingBuffer) (len : BitVec 32) :
    Option (BitVec 32 × List (BitVec 8) × RingBuffer) := do
  let len := uintMin len (ringBufferLen fifo)
  let l := uintMin len (fifo.size - fifo.mask fifo.out)
  let first ← fifo.get (fifo.mask fifo.out) l
  let rest ← fifo.get 0#32 (len - l)
  pure (len, first ++ rest, { fifo with out := fifo.out + len })

/-!
## Calls and their results
-/

inductive RingOp where
  | push (src : Nat → BitVec 8) (len : BitVec 32)
  | pop (len : BitVec 32)
  | reset

/-- What a call returns, and what a `RingBuffer_Out` copies out. -/
structure RingResult where
  count : BitVec 32
  bytes : List (BitVec 8)
  deriving DecidableEq, Repr

def RingBuffer.call (op : RingOp) (fifo : RingBuffer) : Option (RingResult × RingBuffer) :=
  match op with
  | .push src len => (ringBufferIn fifo src len).map fun (count, fifo) => (⟨count, []⟩, fifo)
  | .pop len => (ringBufferOut fifo len).map fun (count, bytes, fifo) => (⟨count, bytes⟩, fifo)
  | .reset => some (⟨0#32, []⟩, ringBufferReset fifo)

def RingBuffer.calls : List RingOp → RingBuffer → Option (List RingResult × RingBuffer)
  | [], fifo => some ([], fifo)
  | op :: ops, fifo => do
      let (result, fifo) ← fifo.call op
      let (results, fifo) ← calls ops fifo
      pure (result :: results, fifo)

/-!
## The queue it is for
-/

/-- A byte queue of at most `cap` bytes: a call takes or gives as many as it can. -/
def queueCall (cap : Nat) (op : RingOp) (queue : List (BitVec 8)) :
    RingResult × List (BitVec 8) :=
  match op with
  | .push src len =>
      let n := min len.toNat (cap - queue.length)
      (⟨BitVec.ofNat 32 n, []⟩, queue ++ slice src 0 n)
  | .pop len =>
      let n := min len.toNat queue.length
      (⟨BitVec.ofNat 32 n, queue.take n⟩, queue.drop n)
  | .reset => (⟨0#32, []⟩, [])

def queueCalls (cap : Nat) : List RingOp → List (BitVec 8) → List RingResult × List (BitVec 8)
  | [], queue => ([], queue)
  | op :: ops, queue =>
      let (result, queue) := queueCall cap op queue
      let (results, queue) := queueCalls cap ops queue
      (result :: results, queue)

/-!
## The instruction trace
-/

def iringbufSize : BitVec 32 := 32#32

/-- The bytes of `&s->isa.inst.val` on a little-endian host. -/
def instBytes (inst : BitVec 32) (i : Nat) : BitVec 8 := inst.extractLsb' (8 * i) 8

/-- The part of `exec_once` that records the instruction word. -/
def execOnceTrace (rb : RingBuffer) (inst : BitVec 32) : Option RingBuffer :=
  (if ringBufferIsFull rb then (ringBufferOut rb 4#32).map (·.2.2) else some rb).bind fun rb =>
    (ringBufferIn rb (instBytes inst) 4#32).map (·.2)

/-- One `exec_once` for each word. -/
def executeTrace : List (BitVec 32) → RingBuffer → Option RingBuffer
  | [], rb => some rb
  | inst :: insts, rb => (execOnceTrace rb inst).bind (executeTrace insts)

end Ysyx.Nemu
