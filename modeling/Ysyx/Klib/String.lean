import Ysyx.Lib.ByteMem
import Mathlib.Logic.Function.Basic

/-! The string functions of klib on a 32-bit target: `memmove`, `strncpy`, and the comparisons
`strncmp` and `memcmp`, whose loops are one. -/

set_option autoImplicit false

namespace Ysyx.Klib

open Lib (ByteMem)

/-- The byte `i` places behind a pointer. -/
def byteAt (mem : ByteMem 32) (ptr : BitVec 32) (i : Nat) : BitVec 8 :=
  mem (ptr + BitVec.ofNat 32 i)

/-- The `n` bytes from a pointer on are an object: the pointer is not null and they do not
wrap around. -/
def Valid (ptr : BitVec 32) (n : Nat) : Prop := ptr ≠ 0#32 ∧ ptr.toNat + n ≤ 2 ^ 32

/-!
## Copies
-/

/-- The turns of the loop of `memmove` from index `i - 1` down to 0. -/
def memmoveLoop (dst src : BitVec 32) : Nat → ByteMem 32 → ByteMem 32
  | 0, mem => mem
  | i + 1, mem =>
      memmoveLoop dst src i
        (Function.update mem (dst + BitVec.ofNat 32 i) (mem (src + BitVec.ofNat 32 i)))

/-- The memory and the result; `none` is a failed assertion. The index is an `int`. -/
def memmove (mem : ByteMem 32) (dst src n : BitVec 32) : Option (ByteMem 32 × BitVec 32) :=
  if dst = 0#32 then none
  else some (memmoveLoop dst src ((n - 1#32).toInt + 1).toNat mem, dst)

/-- The loop of `strncpy` and the terminator, with the count `n` of the condition. -/
def strncpyLoop (mem : ByteMem 32) (dst src : BitVec 32) : Nat → ByteMem 32
  | 0 => Function.update mem dst 0#8
  | n + 1 =>
      if mem src = 0#8 then Function.update mem dst 0#8
      else strncpyLoop (Function.update mem dst (mem src)) (dst + 1#32) (src + 1#32) n

def strncpy (mem : ByteMem 32) (dst src n : BitVec 32) : Option (ByteMem 32 × BitVec 32) :=
  if dst = 0#32 then none
  else some (strncpyLoop mem dst src n.toNat, dst)

/-!
## Comparisons
-/

/-- Where the loop `while (*s1 && --n)` leaves the pointers, and the addresses it has read;
`--n` is not zero `left` more times. -/
def compareLoop (mem : ByteMem 32) (s1 s2 : BitVec 32) :
    Nat → List (BitVec 32) × BitVec 32 × BitVec 32
  | 0 => ([s1], s1, s2)
  | left + 1 =>
      if mem s1 = 0#8 then ([s1], s1, s2)
      else if mem s1 ≠ mem s2 then ([s1, s1, s2], s1, s2)
      else
        let rest := compareLoop mem (s1 + 1#32) (s2 + 1#32) left
        ([s1, s1, s2] ++ rest.1, rest.2)

/-- A result and the addresses that were read for it. -/
structure Compared where
  value : Int
  reads : List (BitVec 32)
  deriving DecidableEq, Repr

/-- The loop and `return *s1 - *s2`, the bytes converted to `int` by `convert`. -/
def compareBytes (convert : BitVec 8 → Int) (mem : ByteMem 32) (s1 s2 n : BitVec 32) : Compared :=
  let (reads, end1, end2) := compareLoop mem s1 s2 (n - 1#32).toNat
  ⟨convert (mem end1) - convert (mem end2), reads ++ [end1, end2]⟩

/-- The value of an `unsigned char`. -/
def ucharValue (b : BitVec 8) : Int := b.toNat

/-- The value of a plain `char`, which is signed on some targets. -/
def charValue (charSigned : Bool) (b : BitVec 8) : Int :=
  if charSigned then b.toInt else b.toNat

def strncmp (mem : ByteMem 32) (s1 s2 n : BitVec 32) : Compared :=
  compareBytes ucharValue mem s1 s2 n

def memcmp (charSigned : Bool) (mem : ByteMem 32) (s1 s2 n : BitVec 32) : Compared :=
  compareBytes (charValue charSigned) mem s1 s2 n

end Ysyx.Klib
