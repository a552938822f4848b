import Mathlib.Data.Nat.Notation

/-! The integer runtime that a 32-bit target without multiplication and division calls for 64-bit
operands: klib's `int64.c`, and `multi3.c` and `ashldi3.c` of the platform's libgcc. -/

set_option autoImplicit false

namespace Ysyx.Klib.Int64

/-- The unions `dwords`, `udwords` and `DWunion`. -/
structure Udwords where
  low : BitVec 32
  high : BitVec 32
  deriving DecidableEq, Repr

def Udwords.all (x : Udwords) : BitVec 64 := x.high ++ x.low

def udwords (all : BitVec 64) : Udwords := ⟨all.extractLsb' 0 32, all.extractLsb' 32 32⟩

/-- A comparison as an `int`. -/
def int (b : Bool) : BitVec 32 := if b then 1#32 else 0#32

/-!
## Counting zeros
-/

def clzsi2 (a : BitVec 32) : BitVec 32 :=
  let t := int (a &&& 0xFFFF0000#32 == 0#32) <<< 4
  let x := a >>> (16#32 - t)
  let r := t
  let t := int (x &&& 0xFF00#32 == 0#32) <<< 3
  let x := x >>> (8#32 - t)
  let r := r + t
  let t := int (x &&& 0xF0#32 == 0#32) <<< 2
  let x := x >>> (4#32 - t)
  let r := r + t
  let t := int (x &&& 0xC#32 == 0#32) <<< 1
  let x := x >>> (2#32 - t)
  let r := r + t
  r + ((2#32 - x) &&& -int (x &&& 2#32 == 0#32))

def ctzsi2 (a : BitVec 32) : BitVec 32 :=
  let t := int (a &&& 0x0000FFFF#32 == 0#32) <<< 4
  let x := a >>> t
  let r := t
  let t := int (x &&& 0x00FF#32 == 0#32) <<< 3
  let x := x >>> t
  let r := r + t
  let t := int (x &&& 0x0F#32 == 0#32) <<< 2
  let x := x >>> t
  let r := r + t
  let t := int (x &&& 0x3#32 == 0#32) <<< 1
  let x := x >>> t
  let x := x &&& 3#32
  let r := r + t
  r + ((2#32 - x >>> 1) &&& -int (x &&& 1#32 == 0#32))

def ctzdi2 (a : BitVec 64) : BitVec 32 :=
  let x := udwords a
  let f := -int (x.low == 0#32)
  ctzsi2 ((x.high &&& f) ||| (x.low &&& ~~~f)) + (f &&& 32#32)

def clzdi2 (a : BitVec 64) : BitVec 32 :=
  let x := udwords a
  let f := -int (x.high == 0#32)
  clzsi2 ((x.high &&& ~~~f) ||| (x.low &&& f)) + (f &&& 32#32)

/-!
## Division
-/

/-- `q`, `r` and `carry` of the loop. -/
structure Turn where
  q : Udwords
  r : Udwords
  carry : BitVec 32

/-- `r:q` moves up by one, and `d` is subtracted when it fits. -/
def turn (d : Udwords) (state : Turn) : Turn :=
  let q := state.q
  let r := state.r
  let r := { r with high := (r.high <<< 1) ||| (r.low >>> 31) }
  let r := { r with low := (r.low <<< 1) ||| (q.high >>> 31) }
  let q := { q with high := (q.high <<< 1) ||| (q.low >>> 31) }
  let q := { q with low := (q.low <<< 1) ||| state.carry }
  let s := (d.all - r.all - 1#64).sshiftRight 63
  { q := q, r := udwords (r.all - (d.all &&& s)), carry := s.setWidth 32 &&& 1#32 }

def loop (d : Udwords) : Nat → Turn → Turn
  | 0, state => state
  | sr + 1, state => loop d sr (turn d state)

/-- The quotient and what is stored in `*rem`. -/
def longDivision (d : Udwords) (sr : BitVec 32) (q r : Udwords) : BitVec 64 × BitVec 64 :=
  let state := loop d sr.toNat ⟨q, r, 0#32⟩
  ((state.q.all <<< 1) ||| state.carry.setWidth 64, state.r.all)

/-- The target has no instruction to count zeros: `__builtin_clz` is `__clzsi2`, `__builtin_ctz`
is `__ctzsi2`. -/
def udivmoddi4 (a b : BitVec 64) : BitVec 64 × BitVec 64 :=
  let n := udwords a
  let d := udwords b
  if n.high = 0#32 then
    if d.high = 0#32 then ((n.low / d.low).setWidth 64, (n.low % d.low).setWidth 64)
    else (0#64, n.low.setWidth 64)
  else if d.low = 0#32 then
    if d.high = 0#32 then ((n.high / d.low).setWidth 64, (n.high % d.low).setWidth 64)
    else if n.low = 0#32 then
      ((n.high / d.high).setWidth 64, Udwords.all ⟨0#32, n.high % d.high⟩)
    else if d.high &&& (d.high - 1#32) = 0#32 then
      ((n.high >>> ctzsi2 d.high).setWidth 64,
        Udwords.all ⟨n.low, n.high &&& (d.high - 1#32)⟩)
    else
      let sr := clzsi2 d.high - clzsi2 n.high
      if sr > 30#32 then (0#64, n.all)
      else
        let sr := sr + 1#32
        longDivision d sr ⟨0#32, n.low <<< (32#32 - sr)⟩
          ⟨(n.high <<< (32#32 - sr)) ||| (n.low >>> sr), n.high >>> sr⟩
  else if d.high = 0#32 then
    if d.low &&& (d.low - 1#32) = 0#32 then
      let rem := (n.low &&& (d.low - 1#32)).setWidth 64
      if d.low = 1#32 then (n.all, rem)
      else
        let sr := ctzsi2 d.low
        (Udwords.all ⟨(n.high <<< (32#32 - sr)) ||| (n.low >>> sr), n.high >>> sr⟩, rem)
    else
      let sr := 33#32 + clzsi2 d.low - clzsi2 n.high
      if sr = 32#32 then longDivision d sr ⟨0#32, n.low⟩ ⟨n.high, 0#32⟩
      else if sr < 32#32 then
        longDivision d sr ⟨0#32, n.low <<< (32#32 - sr)⟩
          ⟨(n.high <<< (32#32 - sr)) ||| (n.low >>> sr), n.high >>> sr⟩
      else
        longDivision d sr
          ⟨n.low <<< (64#32 - sr), (n.high <<< (64#32 - sr)) ||| (n.low >>> (sr - 32#32))⟩
          ⟨n.high >>> (sr - 32#32), 0#32⟩
  else
    let sr := clzsi2 d.high - clzsi2 n.high
    if sr > 31#32 then (0#64, n.all)
    else
      let sr := sr + 1#32
      if sr = 32#32 then longDivision d sr ⟨0#32, n.low⟩ ⟨n.high, 0#32⟩
      else
        longDivision d sr ⟨0#32, n.low <<< (32#32 - sr)⟩
          ⟨(n.high <<< (32#32 - sr)) ||| (n.low >>> sr), n.high >>> sr⟩

def udivdi3 (a b : BitVec 64) : BitVec 64 := (udivmoddi4 a b).1
def umoddi3 (a b : BitVec 64) : BitVec 64 := (udivmoddi4 a b).2

/-- `(a ^ s) - s`: negated when `s` is -1. -/
def negateBy (a s : BitVec 64) : BitVec 64 := (a ^^^ s) - s

def divdi3 (a b : BitVec 64) : BitVec 64 :=
  let s_a := a.sshiftRight 63
  let s_b := b.sshiftRight 63
  let a := negateBy a s_a
  let b := negateBy b s_b
  let s_a := s_a ^^^ s_b
  negateBy (udivmoddi4 a b).1 s_a

def moddi3 (a b : BitVec 64) : BitVec 64 :=
  let s := b.sshiftRight 63
  let b := negateBy b s
  let s := a.sshiftRight 63
  let a := negateBy a s
  negateBy (udivmoddi4 a b).2 s

/-- The quotient and `*rem`. -/
def divmoddi4 (a b : BitVec 64) : BitVec 64 × BitVec 64 :=
  let d := divdi3 a b
  (d, a - d * b)

/-!
## Multiplication and shift
-/

structure MulTurn where
  uLow : BitVec 32
  vLow : BitVec 32
  wLow : BitVec 32
  wHigh : BitVec 32
  wHighTmp : BitVec 32

def mulTurn (state : MulTurn) : MulTurn :=
  let newWLow := state.wLow + state.uLow
  let wHighTmp2x := state.wHighTmp <<< 1
  let wHighTmp := state.wHighTmp + state.wHigh
  let taken := state.vLow &&& 1#32 != 0#32
  { uLow := state.uLow <<< 1
    vLow := state.vLow >>> 1
    wLow := if taken then newWLow else state.wLow
    wHigh := if taken then int (newWLow < state.wLow) + wHighTmp else state.wHigh
    wHighTmp := (state.uLow >>> 31) ||| wHighTmp2x }

/-- `do … while (v_low)`. -/
def mulLoop (state : MulTurn) : MulTurn :=
  let state' := mulTurn state
  if state'.vLow = 0#32 then state' else mulLoop state'
termination_by state.vLow.toNat
decreasing_by
  rename_i more
  have positive : (mulTurn state).vLow.toNat ≠ 0 := fun none => more (BitVec.eq_of_toNat_eq none)
  simp only [mulTurn, BitVec.toNat_ushiftRight, Nat.shiftRight_eq_div_pow] at positive ⊢
  omega

/-- `__muldi3` is `__multi3` of the 32-bit target; `__muluw3` calls `__mulsi3`. -/
def muldi3 (u v : BitVec 64) : BitVec 64 :=
  let uu := udwords u
  let vv := udwords v
  let state := mulLoop ⟨uu.low, vv.low, 0#32, 0#32, 0#32⟩
  let high := state.wHigh
  let high := if uu.high != 0#32 then high + vv.low * uu.high else high
  let high := if vv.high != 0#32 then high + uu.low * vv.high else high
  Udwords.all ⟨state.wLow, high⟩

/-- `b` is an `int`. -/
def ashldi3 (u : BitVec 64) (b : BitVec 32) : BitVec 64 :=
  if b = 0#32 then u
  else
    let uu := udwords u
    let bm := 32#32 - b
    if bm.sle 0#32 then Udwords.all ⟨0#32, uu.low <<< (-bm)⟩
    else
      let carries := uu.low >>> bm
      Udwords.all ⟨uu.low <<< b, (uu.high <<< b) ||| carries⟩

end Ysyx.Klib.Int64
