import Ysyx.Klib.String

/-! `atoi` and the allocator of klib's `stdlib.c` on the ysyxsoc platform, and sequences of the
allocator's calls with the blocks that have been returned and not freed. -/

set_option autoImplicit false

namespace Ysyx.Klib

/-- The result of an operation on `int`; nothing when it overflows. -/
def intResult (value : Int) : Option Int :=
  if -2 ^ 31 ≤ value ∧ value < 2 ^ 31 then some value else none

/-- The loop of `atoi` over the digits; at the end of the string `*nptr` is the terminator. -/
def atoiLoop (charSigned : Bool) (x : Int) : List (BitVec 8) → Option Int
  | [] => some x
  | b :: nptr =>
      let c := charValue charSigned b
      if c ≥ 48 ∧ c ≤ 57 then do
        -- `x * 10 + *nptr - '0'` from left to right
        let tens ← intResult (x * 10)
        let sum ← intResult (tens + c)
        let x ← intResult (sum - 48)
        atoiLoop charSigned x nptr
      else some x

/-- `atoi` on the characters of a string; nothing when an operation overflows. -/
def atoi (charSigned : Bool) (nptr : List (BitVec 8)) : Option Int :=
  atoiLoop charSigned 0 (nptr.dropWhile fun b => charValue charSigned b = 32)

/-!
## Allocation
-/

/-- `Area`; `end_` is the first address behind it. -/
structure Area where
  start : BitVec 32
  end_ : BitVec 32
  deriving DecidableEq, Repr

/-- `heap`, from `_psram_start` to `_psram_end` of the linker script. -/
def heap : Area := ⟨0x80000000#32, 0x80400000#32⟩

/-- The block, and the next value of the static variable `addr`. -/
def malloc (addr size : BitVec 32) : BitVec 32 × BitVec 32 :=
  let addr := if addr = 0#32 then heap.start else addr
  let ret := addr
  (ret, addr + size)

def free (addr _ptr : BitVec 32) : BitVec 32 := addr

inductive Call where
  | malloc (size : BitVec 32)
  | free (ptr : BitVec 32)
  deriving DecidableEq, Repr

structure Block where
  ptr : BitVec 32
  size : BitVec 32
  deriving DecidableEq, Repr

/-- The static variable, and the blocks in use. -/
structure AllocState where
  addr : BitVec 32
  live : List Block

namespace AllocState

def init : AllocState := ⟨0#32, []⟩

def step (s : AllocState) : Call → AllocState
  | .malloc size =>
      let (ret, addr) := malloc s.addr size
      ⟨addr, if ret = 0#32 then s.live else s.live ++ [⟨ret, size⟩]⟩
  | .free ptr => ⟨free s.addr ptr, s.live.eraseP (·.ptr = ptr)⟩

def run (calls : List Call) : AllocState := calls.foldl step init

end AllocState

/-- The sizes asked for. -/
def sizes (calls : List Call) : List Nat :=
  calls.filterMap fun
    | .malloc size => some size.toNat
    | .free _ => none

end Ysyx.Klib
