import Ysyx.Npc.Idu

/-! The execution unit `exu.v` and its `alu.v`. -/

set_option autoImplicit false

namespace Ysyx.Npc

open Rv32 (Word RegId Byte)

/-- `{{32{i_src1[31]}}, i_src1} >> i_src2[5:0]`: six bits of shift amount. -/
def aluTmpRes (src1 src2 : Word) : BitVec 64 :=
  ((src1.extractLsb' 31 1).replicate 32 ++ src1 : BitVec 64) >>> (src2.extractLsb' 0 6).toNat

/-- `alu`: the result and the borrow bit of the 33-bit subtraction. -/
def alu (src1 src2 : Word) (opt : BitVec 5) : Word × Bool :=
  if opt = aluAdd then (src1 + src2, false) else
  if opt = aluSub then (src1 - src2, false) else
  if opt = aluAnd then (src1 &&& src2, false) else
  if opt = aluOr then (src1 ||| src2, false) else
  if opt = aluXor then (src1 ^^^ src2, false) else
  if opt = aluSll then (src1 <<< (src2.extractLsb' 0 5).toNat, false) else
  if opt = aluSrl then (src1 >>> (src2.extractLsb' 0 5).toNat, false) else
  if opt = aluSra then ((aluTmpRes src1 src2).setWidth 32, false) else
  if opt = aluSubu then
    let wide : BitVec 33 := src1.setWidth 33 - src2.setWidth 33
    (wide.setWidth 32, wide.getLsbD 32)
  else (0#32, false)

/-- The constant `INT_MAX` of the source is the minimum integer `1 << 31`. -/
def intMax : Word := 1#32 <<< 31

def exuLess (src1 src2 aluRes : Word) : Bool :=
  if src2 = intMax then false else
  if src1 = intMax then true else
  if src1.msb ^^ src2.msb then src1.msb else aluRes.msb

def resBit (b : Bool) : Word := (BitVec.ofBool b).setWidth 32

structure Exu where
  exuRes : Word
  zero : Bool
  csrd : Word
  deriving DecidableEq, Repr

/-- The ALU operation a stage-two operation is mapped to. -/
def aluOptOf (opt : BitVec 5) : BitVec 5 :=
  if opt = exuSlt then aluSub else
  if opt = exuSltu then aluSubu else
  if opt = exuBeq then aluSub else
  if opt = exuBne then aluSub else
  if opt = exuBlt then aluSub else
  if opt = exuBge then aluSub else
  if opt = exuBltu then aluSubu else
  if opt = exuBgeu then aluSubu else opt

def intRes (opt : BitVec 5) (src1 src2 : Word) : Word :=
  let (aluRes, sububit) := alu src1 src2 (aluOptOf opt)
  let less := exuLess src1 src2 aluRes
  if opt = exuSlt then resBit less else
  if opt = exuSltu then resBit sububit else
  if opt = exuBeq then resBit (aluRes == 0#32) else
  if opt = exuBne then resBit (aluRes != 0#32) else
  if opt = exuBlt then resBit less else
  if opt = exuBge then resBit !less else
  if opt = exuBltu then resBit sububit else
  if opt = exuBgeu then resBit !sububit else aluRes

def exu (pc rs1 rs2 imm : Word) (srcSel : BitVec 2) (opt : BitVec 5) (sysins : Bool) (csrs : Word)
    (csrOpt : BitVec 2) (csrSrc : BitVec 1) : Exu :=
  let sysRs1 := if csrSrc = csrSelImm then imm else rs1
  let sysRdres := muxKeyWithDefault csrOpt 0#32
    [(csrNop, 0#32), (csrRw, csrs), (csrRs, csrs), (csrRc, csrs)]
  let sysCsrres := muxKeyWithDefault csrOpt 0#32
    [(csrNop, 0#32), (csrRw, sysRs1), (csrRs, csrs ||| sysRs1), (csrRc, csrs &&& ~~~sysRs1)]
  let src1 := muxKeyWithDefault srcSel 0#32
    [(exuSelReg, rs1), (exuSelImm, rs1), (exuSelPc4, pc), (exuSelPci, pc)]
  let src2 := muxKeyWithDefault srcSel 0#32
    [(exuSelReg, rs2), (exuSelImm, imm), (exuSelPc4, 4#32), (exuSelPci, imm)]
  let res := intRes opt src1 src2
  { exuRes := if sysins then sysRdres else res
    zero := res == 0#32
    csrd := sysCsrres }

/-- What the stages after the register read see of an instruction: the write
port, the memory request and the branch decision. -/
structure Datapath where
  rdwen : Bool
  rdid : RegId
  exuRes : Word
  lsuOpt : BitVec 4
  regst : Word
  taken : Bool
  deriving DecidableEq, Repr

/-- `idu`, the two register read ports and `exu` as wired in `top.v`. -/
def datapath (instr pc : Word) (x : RegId → Word) (csrs : Word) : Datapath :=
  let d := idu instr
  let e := exu pc (x d.rs1id) (x d.rs2id) d.imm d.exuSrcSel d.exuOpt d.sysins csrs d.excsropt
    d.excsrsrc
  { rdwen := d.rdwen
    rdid := d.rdid
    exuRes := e.exuRes
    lsuOpt := d.lsuOpt
    regst := x d.rs2id
    taken := d.brch && !e.zero }

end Ysyx.Npc
