import Ysyx.Npc.Defines

/-! The decoder `idu/idu.v` with its two halves `idu_normal` and `idu_system`,
field for field. Simulation-only `$display` calls have no counterpart. -/

set_option autoImplicit false

namespace Ysyx.Npc

open Rv32 (Word RegId Byte)

/-- Outputs of `idu_normal`, `idErr` included (bit 0 opcode, bit 1 `funct3`,
bit 2 `funct7`). -/
structure IduNormal where
  rdid : RegId
  rs1id : RegId
  rs2id : RegId
  rdwen : Bool
  imm : Word
  exuSrcSel : BitVec 2
  exuOpt : BitVec 5
  lsuOpt : BitVec 4
  brch : Bool
  jal : Bool
  jalr : Bool
  idErr : BitVec 3
  deriving DecidableEq, Repr

/-- Register indices, write enable and immediate. -/
structure RegInfo where
  rdid : RegId
  rs1id : RegId
  rs2id : RegId
  rdwen : Bool
  imm : Word

/-- `{count{i_instr[31]}}`. -/
def signFill (count : Nat) (w : Word) : BitVec (1 * count) :=
  (w.extractLsb' 31 1).replicate count

def regInfo (instr : Word) : RegInfo :=
  let rs2id := instr.extractLsb' 20 5
  let rs1id := instr.extractLsb' 15 5
  let rdid := instr.extractLsb' 7 5
  let opcode := instr.extractLsb' 0 7
  let immI : Word := signFill 20 instr ++ instr.extractLsb' 20 12
  if opcode = typeR then ⟨rdid, rs1id, rs2id, true, 0#32⟩ else
  if opcode = typeS then
    ⟨0#5, rs1id, rs2id, false,
      signFill 20 instr ++ (instr.extractLsb' 25 7 ++ instr.extractLsb' 7 5)⟩ else
  if opcode = typeB then
    ⟨0#5, rs1id, rs2id, false,
      signFill 20 instr ++ (instr.extractLsb' 7 1 ++ (instr.extractLsb' 25 6 ++
        (instr.extractLsb' 8 4 ++ 0#1)))⟩ else
  if opcode = typeI then ⟨rdid, rs1id, 0#5, true, immI⟩ else
  if opcode = typeILoad then ⟨rdid, rs1id, 0#5, true, immI⟩ else
  if opcode = typeIJalr then ⟨rdid, rs1id, 0#5, true, immI⟩ else
  if opcode = typeIEbrk then ⟨rdid, rs1id, 0#5, false, immI⟩ else
  if opcode = typeULui then ⟨rdid, 0#5, 0#5, true, instr.extractLsb' 12 20 ++ 0#12⟩ else
  if opcode = typeUAuipc then ⟨rdid, 0#5, 0#5, true, instr.extractLsb' 12 20 ++ 0#12⟩ else
  if opcode = typeJ then
    ⟨rdid, 0#5, 0#5, true,
      signFill 12 instr ++ (instr.extractLsb' 12 8 ++ (instr.extractLsb' 20 1 ++
        (instr.extractLsb' 21 10 ++ 0#1)))⟩
  else ⟨0#5, 0#5, 0#5, false, 0#32⟩

/-- ALU operation, operand selection and decode error. -/
structure AluInfo where
  exuOpt : BitVec 5
  exuSrcSel : BitVec 2
  idErr : BitVec 3

def func3Err : BitVec 3 := 0b010#3
def func7Err : BitVec 3 := 0b100#3

/-- The `case (func3)` of register-immediate instructions. SLLI does not look
at `func7`; SRLI and SRAI look at its upper six bits. -/
def aluInfoI (func3 : BitVec 3) (func7 : BitVec 7) : AluInfo :=
  if func3 = func3AddSub then ⟨exuAdd, exuSelImm, 0#3⟩ else
  if func3 = func3Sll then ⟨exuSll, exuSelImm, 0#3⟩ else
  if func3 = func3SrlSra then
    if func7.extractLsb' 1 6 = 0b000000#6 then ⟨exuSrl, exuSelImm, 0#3⟩ else
    if func7.extractLsb' 1 6 = 0b010000#6 then ⟨exuSra, exuSelImm, 0#3⟩
    else ⟨exuAdd, exuSelImm, func7Err⟩
  else
  if func3 = func3Xor then ⟨exuXor, exuSelImm, 0#3⟩ else
  if func3 = func3Or then ⟨exuOr, exuSelImm, 0#3⟩ else
  if func3 = func3And then ⟨exuAnd, exuSelImm, 0#3⟩ else
  if func3 = func3Slt then ⟨exuSlt, exuSelImm, 0#3⟩ else
  if func3 = func3Sltu then ⟨exuSltu, exuSelImm, 0#3⟩
  else ⟨exuAdd, exuSelImm, func3Err⟩

/-- The nested `case (func3)`, `case (func7)` of register-register instructions. -/
def aluInfoR (func3 : BitVec 3) (func7 : BitVec 7) : AluInfo :=
  let base (opt : BitVec 5) : AluInfo :=
    if func7 = 0b0000000#7 then ⟨opt, exuSelReg, 0#3⟩ else ⟨exuAdd, exuSelReg, func7Err⟩
  let baseOr (opt alt : BitVec 5) : AluInfo :=
    if func7 = 0b0000000#7 then ⟨opt, exuSelReg, 0#3⟩ else
    if func7 = 0b0100000#7 then ⟨alt, exuSelReg, 0#3⟩ else ⟨exuAdd, exuSelReg, func7Err⟩
  if func3 = func3AddSub then baseOr exuAdd exuSub else
  if func3 = func3SrlSra then baseOr exuSrl exuSra else
  if func3 = func3Sll then base exuSll else
  if func3 = func3Xor then base exuXor else
  if func3 = func3Or then base exuOr else
  if func3 = func3And then base exuAnd else
  if func3 = func3Slt then base exuSlt else
  if func3 = func3Sltu then base exuSltu
  else ⟨exuAdd, exuSelReg, func3Err⟩

def aluInfoB (func3 : BitVec 3) : AluInfo :=
  if func3 = func3Beq then ⟨exuBeq, exuSelReg, 0#3⟩ else
  if func3 = func3Bne then ⟨exuBne, exuSelReg, 0#3⟩ else
  if func3 = func3Blt then ⟨exuBlt, exuSelReg, 0#3⟩ else
  if func3 = func3Bge then ⟨exuBge, exuSelReg, 0#3⟩ else
  if func3 = func3Bltu then ⟨exuBltu, exuSelReg, 0#3⟩ else
  if func3 = func3Bgeu then ⟨exuBgeu, exuSelReg, 0#3⟩
  else ⟨exuAdd, exuSelReg, func3Err⟩

def aluInfo (instr : Word) : AluInfo :=
  let func7 := instr.extractLsb' 25 7
  let func3 := instr.extractLsb' 12 3
  let opcode := instr.extractLsb' 0 7
  if opcode = typeS then ⟨exuAdd, exuSelImm, 0#3⟩ else
  if opcode = typeIEbrk then ⟨exuAdd, exuSelImm, 0#3⟩ else
  if opcode = typeILoad then ⟨exuAdd, exuSelImm, 0#3⟩ else
  if opcode = typeIJalr then ⟨exuAdd, exuSelPc4, 0#3⟩ else
  if opcode = typeJ then ⟨exuAdd, exuSelPc4, 0#3⟩ else
  if opcode = typeULui then ⟨exuAdd, exuSelImm, 0#3⟩ else
  if opcode = typeUAuipc then ⟨exuAdd, exuSelPci, 0#3⟩ else
  if opcode = typeB then aluInfoB func3 else
  if opcode = typeI then aluInfoI func3 func7 else
  if opcode = typeR then aluInfoR func3 func7 else
  if opcode = typeFence then ⟨exuAdd, exuSelImm, 0#3⟩
  else ⟨exuAdd, exuSelImm, 0b001#3⟩

def lsuOptOf (instr : Word) : BitVec 4 :=
  let func3 := instr.extractLsb' 12 3
  let opcode := instr.extractLsb' 0 7
  if opcode = typeILoad then func3 ++ 0#1 else
  if opcode = typeS then func3 ++ 1#1
  else lsuNop

def iduNormal (instr : Word) : IduNormal :=
  let opcode := instr.extractLsb' 0 7
  let reg := regInfo instr
  let alu := aluInfo instr
  { rdid := reg.rdid
    rs1id := reg.rs1id
    rs2id := reg.rs2id
    rdwen := reg.rdwen
    imm := reg.imm
    exuSrcSel := alu.exuSrcSel
    exuOpt := alu.exuOpt
    lsuOpt := lsuOptOf instr
    brch := opcode == typeB
    jal := opcode == typeJ
    jalr := opcode == typeIJalr
    idErr := alu.idErr }

/-!
## System instructions
-/

structure IduSystem where
  csrsid : BitVec 12
  csrsren : Bool
  rs1id : RegId
  imm : Word
  excsropt : BitVec 2
  excsrsrc : BitVec 1
  rdid : RegId
  rdwen : Bool
  csrdid : BitVec 12
  csrdwen : Bool
  deriving DecidableEq, Repr

def iduSystem (instr : Word) : IduSystem :=
  let func3 := instr.extractLsb' 12 3
  let rs1id := instr.extractLsb' 15 5
  let uimm := instr.extractLsb' 15 5
  let rdid := instr.extractLsb' 7 5
  let csrrw := func3 == func3Csrrw
  let csrrs := func3 == func3Csrrs
  let csrrc := func3 == func3Csrrc
  let csrrwi := func3 == func3Csrrwi
  let csrrsi := func3 == func3Csrrsi
  let csrrci := func3 == func3Csrrci
  let rdneq0 := rdid != 0#5
  let rsneq0 := rs1id != 0#5
  let csrsren := ((csrrw || csrrwi) && rdneq0) || (csrrs || csrrsi || csrrc || csrrci)
  let excsrsrc := if csrrwi || csrrsi || csrrci then csrSelImm else csrSelReg
  { csrsid := instr.extractLsb' 20 12
    csrsren := csrsren
    rs1id := rs1id
    imm := if excsrsrc = csrSelImm then uimm.setWidth 32 else 0#32
    excsropt := func3.extractLsb' 0 2
    excsrsrc := excsrsrc
    rdid := rdid
    rdwen := csrsren && rdid != 0#5
    csrdid := instr.extractLsb' 20 12
    csrdwen := (csrrw || csrrwi) || (rsneq0 && (csrrs || csrrsi || csrrc || csrrci)) }

/-!
## Top of the decoder
-/

structure Idu where
  rdid : RegId
  rs1id : RegId
  rs2id : RegId
  rdwen : Bool
  imm : Word
  exuSrcSel : BitVec 2
  exuOpt : BitVec 5
  lsuOpt : BitVec 4
  brch : Bool
  jal : Bool
  jalr : Bool
  sysins : Bool
  csrsid : BitVec 12
  csrsren : Bool
  excsropt : BitVec 2
  excsrsrc : BitVec 1
  csrdid : BitVec 12
  csrdwen : Bool
  ecall : Bool
  mret : Bool
  fenceI : Bool
  deriving DecidableEq, Repr

def idu (instr : Word) : Idu :=
  let func3 := instr.extractLsb' 12 3
  let opcode := instr.extractLsb' 0 7
  let sysins := opcode == typeSys
  let nom := iduNormal instr
  let sys := iduSystem instr
  { rs1id := if sysins then sys.rs1id else nom.rs1id
    rs2id := if sysins then 0#5 else nom.rs2id
    csrsid := if sysins then sys.csrsid else 0#12
    csrsren := if sysins then sys.csrsren else false
    imm := if sysins then sys.imm else nom.imm
    exuSrcSel := if sysins then exuSelImm else nom.exuSrcSel
    exuOpt := if sysins then exuNop else nom.exuOpt
    excsropt := if sysins then sys.excsropt else csrNop
    excsrsrc := if sysins then sys.excsrsrc else csrSelImm
    lsuOpt := if sysins then lsuNop else nom.lsuOpt
    rdid := if sysins then sys.rdid else nom.rdid
    rdwen := if sysins then sys.rdwen else nom.rdwen
    csrdid := if sysins then sys.csrdid else 0#12
    csrdwen := if sysins then sys.csrdwen else false
    jal := if sysins then false else nom.jal
    jalr := if sysins then false else nom.jalr
    brch := if sysins then false else nom.brch
    sysins := sysins
    ecall := sysins && instr.extractLsb' 7 25 == 0#25
    mret := sysins && instr.extractLsb' 30 2 == 0b00#2 && instr.extractLsb' 28 2 == 0b11#2 &&
      instr.extractLsb' 22 6 == 0#6 && instr.getLsbD 21 && instr.extractLsb' 7 14 == 0#14
    fenceI := opcode == typeFence && func3 == 0b001#3 }

end Ysyx.Npc
