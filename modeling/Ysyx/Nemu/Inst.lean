import Ysyx.Nemu.Memory

/-! The interpreter of NEMU: the pattern mechanism of `cpu/decode.h` and the
`INSTPAT` table with its bodies in `isa/riscv32/inst.c`. -/

set_option autoImplicit false

namespace Ysyx.Nemu

open Rv32 (Word RegId Byte)

/-!
## Pattern strings
-/

structure Pattern where
  key : BitVec 64
  mask : BitVec 64
  shift : BitVec 64
  deriving DecidableEq, Repr

/-- One `macro(i)` of `pattern_decode`; `none` is the failing `Assert`. -/
def patternStep (st : Pattern) (c : Char) : Option Pattern :=
  if c = ' ' then some st else
  if c = '0' ∨ c = '1' ∨ c = '?' then
    some
      { key := st.key <<< 1 ||| (if c = '1' then 1#64 else 0#64)
        mask := st.mask <<< 1 ||| (if c = '?' then 0#64 else 1#64)
        shift := if c = '?' then st.shift + 1#64 else 0#64 }
  else none

/-- `pattern_decode`; a string of 64 characters or more is "pattern too long". -/
def patternDecode (chars : List Char) : Option Pattern :=
  if chars.length < 64 then
    (chars.foldlM patternStep ⟨0#64, 0#64, 0#64⟩).map fun st =>
      { key := st.key >>> st.shift, mask := st.mask >>> st.shift, shift := st.shift }
  else none

/-- `((uint64_t)INSTPAT_INST(s) >> shift) & mask == key`. -/
def Pattern.matches (pattern : Pattern) (inst : Word) : Bool :=
  ((inst.setWidth 64 >>> pattern.shift) &&& pattern.mask) == pattern.key

/-!
## Operands
-/

inductive OperandType where
  | I | U | S | J | R | B | N
  deriving DecidableEq, Repr

/-- `BITS(x, hi, lo)` of a 32-bit value: a 64-bit result. -/
def bits (x : Word) (hi lo : Nat) : BitVec 64 :=
  (x >>> lo).setWidth 64 &&& (1#64 <<< (hi - lo + 1) - 1#64)

/-- `SEXT(x, len)`: a signed bit field of `len` bits widened to 64. -/
def sext (x : BitVec 64) (len : Nat) : BitVec 64 := (x.setWidth len).signExtend 64

def immOperand (i : Word) : OperandType → Word
  | .I => (sext (bits i 31 20) 12).setWidth 32
  | .U => (sext (bits i 31 12) 20 <<< 12).setWidth 32
  | .S => (sext (bits i 31 25) 7 <<< 5 ||| bits i 11 7).setWidth 32
  | .J =>
      (sext (bits i 31 31) 1 <<< 20 ||| bits i 19 12 <<< 12 ||| bits i 20 20 <<< 11 |||
        bits i 30 21 <<< 1 ||| 0#64).setWidth 32
  | .B =>
      (sext (bits i 31 31) 1 <<< 12 ||| bits i 7 7 <<< 11 ||| bits i 30 25 <<< 5 |||
        bits i 11 8 <<< 1 ||| 0#64).setWidth 32
  | .R | .N => 0#32

structure Cpu where
  gpr : RegId → Word
  pc : Word
  csr : Fin 4 → Word

structure State where
  cpu : Cpu
  mem : HostMem

def State.setGpr (st : State) (r : RegId) (v : Word) : State :=
  { st with cpu := { st.cpu with gpr := fun q => if q = r then v else st.cpu.gpr q } }

structure Operands where
  rd : RegId
  src1 : Word
  src2 : Word
  imm : Word

/-- `decode_operand`; operands the type does not read keep their initial zero. -/
def decodeOperand (i : Word) (gpr : RegId → Word) (type : OperandType) : Operands where
  rd := (bits i 11 7).setWidth 5
  src1 :=
    match type with
    | .I | .S | .R | .B => gpr ((bits i 19 15).setWidth 5)
    | .U | .J | .N => 0#32
  src2 :=
    match type with
    | .S | .R | .B => gpr ((bits i 24 20).setWidth 5)
    | .I | .U | .J | .N => 0#32
  imm := immOperand i type

/-!
## Control and status registers
-/

def mstatus : Nat := 0x300
def mtvec : Nat := 0x305
def mepc : Nat := 0x341
def mcause : Nat := 0x342

/-- `check_csr_idx`: an `int` in, an `int` out; unknown numbers pass through
unless run-time checks are compiled in. -/
def checkCsrIdx (rtCheck : Bool) (idx : Int) : Except Fault Int :=
  if idx = mstatus then .ok 0 else
  if idx = mtvec then .ok 1 else
  if idx = mepc then .ok 2 else
  if idx = mcause then .ok 3 else
  if rtCheck then .error .assertFail else .ok idx

/-- `cpu.csr[idx]` is inside the array. -/
def csrSlot (idx : Int) : Except Fault (Fin 4) :=
  if h : 0 ≤ idx ∧ idx < 4 then .ok ⟨idx.toNat, by omega⟩ else .error .csrArray

def csrIndex (cfg : Config) (idx : Int) : Except Fault (Fin 4) :=
  (checkCsrIdx cfg.rtCheck idx).bind csrSlot

def State.csr (st : State) (slot : Fin 4) : Word := st.cpu.csr slot

def State.setCsr (st : State) (slot : Fin 4) (v : Word) : State :=
  { st with cpu := { st.cpu with csr := fun q => if q = slot then v else st.cpu.csr q } }

/-- `isa_raise_intr`: the handler's address and the state with MCAUSE, MEPC set. -/
def isaRaiseIntr (cfg : Config) (st : State) (no epc : Word) : Except Fault (Word × State) := do
  let cause ← csrIndex cfg mcause
  let st := st.setCsr cause no
  let slot ← csrIndex cfg mepc
  let st := st.setCsr slot epc
  let vec ← csrIndex cfg mtvec
  return (st.csr vec, st)

/-!
## Instruction table
-/

inductive InstName where
  | lui | auipc | lw | addi | jalr | sltiu | andi | srai | slli | lbu | srli | xori | lh | lhu
  | slti | lb | ori | csrrw | csrrs | ecall | sw | sb | sh | jal | beq | bne | bge | bgeu | bltu
  | blt | add | sub | rem | div | mul | or | sltu | xor | sll | mulh | remu | divu | and | slt
  | sra | srl | mulhu | mret | ebreak | inv
  deriving DecidableEq, Repr

structure InstPat where
  pattern : String
  name : InstName
  type : OperandType
  deriving DecidableEq, Repr

/-- The `INSTPAT` lines in source order. -/
def instPats : List InstPat := [
  ⟨"??????? ????? ????? ??? ????? 01101 11", .lui, .U⟩,
  ⟨"??????? ????? ????? ??? ????? 00101 11", .auipc, .U⟩,
  ⟨"??????? ????? ????? 010 ????? 00000 11", .lw, .I⟩,
  ⟨"??????? ????? ????? 000 ????? 00100 11", .addi, .I⟩,
  ⟨"??????? ????? ????? 000 ????? 11001 11", .jalr, .I⟩,
  ⟨"??????? ????? ????? 011 ????? 00100 11", .sltiu, .I⟩,
  ⟨"??????? ????? ????? 111 ????? 00100 11", .andi, .I⟩,
  ⟨"010000? ????? ????? 101 ????? 00100 11", .srai, .I⟩,
  ⟨"000000? ????? ????? 001 ????? 00100 11", .slli, .I⟩,
  ⟨"??????? ????? ????? 100 ????? 00000 11", .lbu, .I⟩,
  ⟨"000000? ????? ????? 101 ????? 00100 11", .srli, .I⟩,
  ⟨"??????? ????? ????? 100 ????? 00100 11", .xori, .I⟩,
  ⟨"??????? ????? ????? 001 ????? 00000 11", .lh, .I⟩,
  ⟨"??????? ????? ????? 101 ????? 00000 11", .lhu, .I⟩,
  ⟨"??????? ????? ????? 010 ????? 00100 11", .slti, .I⟩,
  ⟨"??????? ????? ????? 000 ????? 00000 11", .lb, .I⟩,
  ⟨"??????? ????? ????? 110 ????? 00100 11", .ori, .I⟩,
  ⟨"??????? ????? ????? 001 ????? 11100 11", .csrrw, .I⟩,
  ⟨"??????? ????? ????? 010 ????? 11100 11", .csrrs, .I⟩,
  ⟨"0000000 00000 00000 000 00000 11100 11", .ecall, .I⟩,
  ⟨"??????? ????? ????? 010 ????? 01000 11", .sw, .S⟩,
  ⟨"??????? ????? ????? 000 ????? 01000 11", .sb, .S⟩,
  ⟨"??????? ????? ????? 001 ????? 01000 11", .sh, .S⟩,
  ⟨"??????? ????? ????? ??? ????? 11011 11", .jal, .J⟩,
  ⟨"??????? ????? ????? 000 ????? 11000 11", .beq, .B⟩,
  ⟨"??????? ????? ????? 001 ????? 11000 11", .bne, .B⟩,
  ⟨"??????? ????? ????? 101 ????? 11000 11", .bge, .B⟩,
  ⟨"??????? ????? ????? 111 ????? 11000 11", .bgeu, .B⟩,
  ⟨"??????? ????? ????? 110 ????? 11000 11", .bltu, .B⟩,
  ⟨"??????? ????? ????? 100 ????? 11000 11", .blt, .B⟩,
  ⟨"0000000 ????? ????? 000 ????? 01100 11", .add, .R⟩,
  ⟨"0100000 ????? ????? 000 ????? 01100 11", .sub, .R⟩,
  ⟨"0000001 ????? ????? 110 ????? 01100 11", .rem, .R⟩,
  ⟨"0000001 ????? ????? 100 ????? 01100 11", .div, .R⟩,
  ⟨"0000001 ????? ????? 000 ????? 01100 11", .mul, .R⟩,
  ⟨"0000000 ????? ????? 110 ????? 01100 11", .or, .R⟩,
  ⟨"0000000 ????? ????? 011 ????? 01100 11", .sltu, .R⟩,
  ⟨"0000000 ????? ????? 100 ????? 01100 11", .xor, .R⟩,
  ⟨"0000000 ????? ????? 001 ????? 01100 11", .sll, .R⟩,
  ⟨"0000001 ????? ????? 001 ????? 01100 11", .mulh, .R⟩,
  ⟨"0000001 ????? ????? 111 ????? 01100 11", .remu, .R⟩,
  ⟨"0000001 ????? ????? 101 ????? 01100 11", .divu, .R⟩,
  ⟨"0000000 ????? ????? 111 ????? 01100 11", .and, .R⟩,
  ⟨"0000000 ????? ????? 010 ????? 01100 11", .slt, .R⟩,
  ⟨"0100000 ????? ????? 101 ????? 01100 11", .sra, .R⟩,
  ⟨"0000000 ????? ????? 101 ????? 01100 11", .srl, .R⟩,
  ⟨"0000001 ????? ????? 011 ????? 01100 11", .mulhu, .R⟩,
  ⟨"0011000 00010 00000 000 00000 11100 11", .mret, .R⟩,
  ⟨"0000000 00001 00000 000 00000 11100 11", .ebreak, .N⟩,
  ⟨"??????? ????? ????? ??? ????? ????? ??", .inv, .N⟩ ]

/-- The line whose pattern is the first to match; the lines before it fell
through. `none` would be a failed assertion in `pattern_decode`. -/
def selectPat (inst : Word) : List InstPat → Option InstPat
  | [] => none
  | line :: rest =>
      match patternDecode line.pattern.toList with
      | none => none
      | some pattern => if pattern.matches inst then some line else selectPat inst rest

/-!
## Instruction bodies
-/

/-- Result of a body: the dynamic next pc and the state. -/
abbrev Exec := Except Fault (Word × State)

/-- Host integer division faults on zero and on the overflowing quotient. -/
def signedDivisionDefined (a b : Word) : Bool :=
  b != 0#32 && !(a == 0x80000000#32 && b == 0xffffffff#32)

/-- `INSTPAT_MATCH`: the body of a line, given its operands. `Mr` and `Mw` are
`vaddr_read` and `vaddr_write`; C truncates to `word_t` on assignment. -/
def execBody (cfg : Config) (pc snpc : Word) (st : State) (o : Operands) : InstName → Exec
  | .lui => .ok (snpc, st.setGpr o.rd o.imm)
  | .auipc => .ok (snpc, st.setGpr o.rd (pc + o.imm))
  | .lw => do
      let v ← vaddrRead cfg st.mem (o.src1 + o.imm) 4
      return (snpc, st.setGpr o.rd v)
  | .addi => .ok (snpc, st.setGpr o.rd (o.src1 + o.imm))
  | .jalr => .ok ((o.src1 + o.imm) &&& ~~~1#32, st.setGpr o.rd (pc + 4#32))
  | .sltiu => .ok (snpc, st.setGpr o.rd (if o.src1.ult o.imm then 1#32 else 0#32))
  | .andi => .ok (snpc, st.setGpr o.rd (o.src1 &&& o.imm))
  | .srai => .ok (snpc, st.setGpr o.rd (o.src1.sshiftRight (bits o.imm 5 0).toNat))
  | .slli => .ok (snpc, st.setGpr o.rd (o.src1 <<< (bits o.imm 5 0).toNat))
  | .lbu => do
      let v ← vaddrRead cfg st.mem (o.src1 + o.imm) 1
      return (snpc, st.setGpr o.rd v)
  | .srli => .ok (snpc, st.setGpr o.rd (o.src1 >>> (bits o.imm 5 0).toNat))
  | .xori => .ok (snpc, st.setGpr o.rd (o.src1 ^^^ o.imm))
  | .lh => do
      let v ← vaddrRead cfg st.mem (o.src1 + o.imm) 2
      return (snpc, st.setGpr o.rd ((sext (v.setWidth 64) 16).setWidth 32))
  | .lhu => do
      let v ← vaddrRead cfg st.mem (o.src1 + o.imm) 2
      return (snpc, st.setGpr o.rd v)
  | .slti => .ok (snpc, st.setGpr o.rd (if o.src1.slt o.imm then 1#32 else 0#32))
  | .lb => do
      let v ← vaddrRead cfg st.mem (o.src1 + o.imm) 1
      return (snpc, st.setGpr o.rd ((sext (v.setWidth 64) 8).setWidth 32))
  | .ori => .ok (snpc, st.setGpr o.rd (o.src1 ||| o.imm))
  | .csrrw => do
      let slot ← csrIndex cfg o.imm.toInt
      let t := st.csr slot
      return (snpc, (st.setCsr slot o.src1).setGpr o.rd t)
  | .csrrs => do
      let slot ← csrIndex cfg o.imm.toInt
      let t := st.csr slot
      return (snpc, (st.setCsr slot (t ||| o.src1)).setGpr o.rd t)
  | .ecall => isaRaiseIntr cfg st 0x0b#32 pc
  | .sw => do
      let mem ← vaddrWrite cfg st.mem (o.src1 + o.imm) 4 o.src2
      return (snpc, { st with mem := mem })
  | .sb => do
      let mem ← vaddrWrite cfg st.mem (o.src1 + o.imm) 1 ((bits o.src2 7 0).setWidth 32)
      return (snpc, { st with mem := mem })
  | .sh => do
      let mem ← vaddrWrite cfg st.mem (o.src1 + o.imm) 2 ((bits o.src2 15 0).setWidth 32)
      return (snpc, { st with mem := mem })
  | .jal => .ok (pc + o.imm, st.setGpr o.rd (pc + 4#32))
  | .beq => .ok (if o.src1 = o.src2 then pc + o.imm else snpc, st)
  | .bne => .ok (if o.src1 ≠ o.src2 then pc + o.imm else snpc, st)
  | .bge => .ok (if o.src2.sle o.src1 then pc + o.imm else snpc, st)
  | .bgeu => .ok (if o.src2.ule o.src1 then pc + o.imm else snpc, st)
  | .bltu => .ok (if o.src1.ult o.src2 then pc + o.imm else snpc, st)
  | .blt => .ok (if o.src1.slt o.src2 then pc + o.imm else snpc, st)
  | .add => .ok (snpc, st.setGpr o.rd (o.src1 + o.src2))
  | .sub => .ok (snpc, st.setGpr o.rd (o.src1 - o.src2))
  | .rem =>
      if signedDivisionDefined o.src1 o.src2 then
        .ok (snpc, st.setGpr o.rd (o.src1.srem o.src2))
      else .error .division
  | .div =>
      if signedDivisionDefined o.src1 o.src2 then
        .ok (snpc, st.setGpr o.rd (o.src1.sdiv o.src2))
      else .error .division
  | .mul => .ok (snpc, st.setGpr o.rd (o.src1 * o.src2))
  | .or => .ok (snpc, st.setGpr o.rd (o.src1 ||| o.src2))
  | .sltu => .ok (snpc, st.setGpr o.rd (if o.src1.ult o.src2 then 1#32 else 0#32))
  | .xor => .ok (snpc, st.setGpr o.rd (o.src1 ^^^ o.src2))
  | .sll => .ok (snpc, st.setGpr o.rd (o.src1 <<< (bits o.src2 4 0).toNat))
  | .mulh =>
      let wide := sext (o.src1.setWidth 64) 32 * sext (o.src2.setWidth 64) 32
      .ok (snpc, st.setGpr o.rd ((wide >>> 32).setWidth 32))
  | .remu =>
      if o.src2 = 0#32 then .error .division
      else .ok (snpc, st.setGpr o.rd (o.src1 % o.src2))
  | .divu =>
      if o.src2 = 0#32 then .error .division
      else .ok (snpc, st.setGpr o.rd (o.src1 / o.src2))
  | .and => .ok (snpc, st.setGpr o.rd (o.src1 &&& o.src2))
  | .slt => .ok (snpc, st.setGpr o.rd (if o.src1.slt o.src2 then 1#32 else 0#32))
  | .sra => .ok (snpc, st.setGpr o.rd (o.src1.sshiftRight (bits o.src2 4 0).toNat))
  | .srl => .ok (snpc, st.setGpr o.rd (o.src1 >>> (bits o.src2 4 0).toNat))
  | .mulhu =>
      let wide := o.src1.setWidth 64 * o.src2.setWidth 64
      .ok (snpc, st.setGpr o.rd ((wide >>> 32).setWidth 32))
  | .mret => do
      let slot ← csrIndex cfg mepc
      return (st.csr slot, st)
  | .ebreak => .error .nemuTrap
  | .inv => .error .invalidInst

/-- `decode_exec`: select, decode the operands, run the body, reset `$zero`. -/
def decodeExec (cfg : Config) (inst pc snpc : Word) (st : State) : Exec := do
  match selectPat inst instPats with
  | none => .error .assertFail
  | some line =>
      let (dnpc, st) ← execBody cfg pc snpc st (decodeOperand inst st.cpu.gpr line.type) line.name
      return (dnpc, st.setGpr 0#5 0#32)

/-- `isa_exec_once` after the fetch, and the pc update of `exec_once`. -/
def execWord (cfg : Config) (inst : Word) (st : State) : Except Fault State := do
  let (dnpc, next) ← decodeExec cfg inst st.cpu.pc (st.cpu.pc + 4#32) st
  return { next with cpu := { next.cpu with pc := dnpc } }

def execOnce (cfg : Config) (st : State) : Except Fault State := do
  let inst ← vaddrIfetch cfg st.mem st.cpu.pc 4
  execWord cfg inst st

end Ysyx.Nemu
