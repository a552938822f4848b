import Mathlib.Data.BitVec

/-! The RV32I base instruction set as the RISC-V manual gives it: fields,
immediates and the legal encodings of the computational, control-flow and
memory instructions. Nothing here depends on either implementation. -/

set_option autoImplicit false

namespace Ysyx.Rv32

abbrev Word := BitVec 32
abbrev RegId := BitVec 5
abbrev Byte := BitVec 8

/-!
## Fields and immediates
-/

def opcode (w : Word) : BitVec 7 := w.extractLsb' 0 7
def rd (w : Word) : RegId := w.extractLsb' 7 5
def funct3 (w : Word) : BitVec 3 := w.extractLsb' 12 3
def rs1 (w : Word) : RegId := w.extractLsb' 15 5
def rs2 (w : Word) : RegId := w.extractLsb' 20 5
def funct7 (w : Word) : BitVec 7 := w.extractLsb' 25 7
def csrField (w : Word) : BitVec 12 := w.extractLsb' 20 12

def immI (w : Word) : Word := (w.extractLsb' 20 12).signExtend 32
def immS (w : Word) : Word := (w.extractLsb' 25 7 ++ w.extractLsb' 7 5).signExtend 32
def immB (w : Word) : Word :=
  (w.extractLsb' 31 1 ++
    (w.extractLsb' 7 1 ++ (w.extractLsb' 25 6 ++ (w.extractLsb' 8 4 ++ 0#1)))).signExtend 32
def immU (w : Word) : Word := w.extractLsb' 12 20 ++ 0#12
def immJ (w : Word) : Word :=
  (w.extractLsb' 31 1 ++
    (w.extractLsb' 12 8 ++ (w.extractLsb' 20 1 ++ (w.extractLsb' 21 10 ++ 0#1)))).signExtend 32

/-- The five-bit shift amount of SLLI, SRLI and SRAI. -/
def shamt (w : Word) : Word := (w.extractLsb' 20 5).setWidth 32

/-!
## Instructions
-/

inductive AluOp where
  | add | sub | sll | slt | sltu | xor | srl | sra | or | and
  deriving DecidableEq, Repr

inductive BranchOp where
  | beq | bne | blt | bge | bltu | bgeu
  deriving DecidableEq, Repr

inductive LoadOp where
  | lb | lh | lw | lbu | lhu
  deriving DecidableEq, Repr

inductive StoreOp where
  | sb | sh | sw
  deriving DecidableEq, Repr

/-- The register, immediate, load, store, branch, LUI, AUIPC, JAL and JALR
instructions. `opImm` never carries `sub`; its shifts carry the shift amount. -/
inductive Instr where
  | lui (rd : RegId) (imm : Word)
  | auipc (rd : RegId) (imm : Word)
  | jal (rd : RegId) (imm : Word)
  | jalr (rd rs1 : RegId) (imm : Word)
  | branch (op : BranchOp) (rs1 rs2 : RegId) (imm : Word)
  | load (op : LoadOp) (rd rs1 : RegId) (imm : Word)
  | store (op : StoreOp) (rs1 rs2 : RegId) (imm : Word)
  | opImm (op : AluOp) (rd rs1 : RegId) (imm : Word)
  | opReg (op : AluOp) (rd rs1 rs2 : RegId)
  deriving DecidableEq, Repr

/-!
## Decoding
-/

def branchOp? (f3 : BitVec 3) : Option BranchOp :=
  if f3 = 0b000#3 then some .beq else
  if f3 = 0b001#3 then some .bne else
  if f3 = 0b100#3 then some .blt else
  if f3 = 0b101#3 then some .bge else
  if f3 = 0b110#3 then some .bltu else
  if f3 = 0b111#3 then some .bgeu else none

def loadOp? (f3 : BitVec 3) : Option LoadOp :=
  if f3 = 0b000#3 then some .lb else
  if f3 = 0b001#3 then some .lh else
  if f3 = 0b010#3 then some .lw else
  if f3 = 0b100#3 then some .lbu else
  if f3 = 0b101#3 then some .lhu else none

def storeOp? (f3 : BitVec 3) : Option StoreOp :=
  if f3 = 0b000#3 then some .sb else
  if f3 = 0b001#3 then some .sh else
  if f3 = 0b010#3 then some .sw else none

/-- Register-register operations: `funct7` is zero except for SUB and SRA. -/
def aluOp? (f3 : BitVec 3) (f7 : BitVec 7) : Option AluOp :=
  if f7 = 0b0000000#7 then
    if f3 = 0b000#3 then some .add else
    if f3 = 0b001#3 then some .sll else
    if f3 = 0b010#3 then some .slt else
    if f3 = 0b011#3 then some .sltu else
    if f3 = 0b100#3 then some .xor else
    if f3 = 0b101#3 then some .srl else
    if f3 = 0b110#3 then some .or else
    if f3 = 0b111#3 then some .and else none
  else if f7 = 0b0100000#7 then
    if f3 = 0b000#3 then some .sub else
    if f3 = 0b101#3 then some .sra else none
  else none

/-- Register-immediate operations: only the shifts constrain `funct7`. -/
def aluImmOp? (f3 : BitVec 3) (f7 : BitVec 7) : Option AluOp :=
  if f3 = 0b000#3 then some .add else
  if f3 = 0b010#3 then some .slt else
  if f3 = 0b011#3 then some .sltu else
  if f3 = 0b100#3 then some .xor else
  if f3 = 0b110#3 then some .or else
  if f3 = 0b111#3 then some .and else
  if f3 = 0b001#3 then (if f7 = 0b0000000#7 then some .sll else none) else
  if f3 = 0b101#3 then
    if f7 = 0b0000000#7 then some .srl else
    if f7 = 0b0100000#7 then some .sra else none
  else none

def AluOp.isShift : AluOp → Bool
  | .sll | .srl | .sra => true
  | _ => false

/-!
## The fields an operation is encoded by
-/

def BranchOp.funct3 : BranchOp → BitVec 3
  | .beq => 0b000#3
  | .bne => 0b001#3
  | .blt => 0b100#3
  | .bge => 0b101#3
  | .bltu => 0b110#3
  | .bgeu => 0b111#3

def LoadOp.funct3 : LoadOp → BitVec 3
  | .lb => 0b000#3
  | .lh => 0b001#3
  | .lw => 0b010#3
  | .lbu => 0b100#3
  | .lhu => 0b101#3

def StoreOp.funct3 : StoreOp → BitVec 3
  | .sb => 0b000#3
  | .sh => 0b001#3
  | .sw => 0b010#3

def AluOp.funct3 : AluOp → BitVec 3
  | .add | .sub => 0b000#3
  | .sll => 0b001#3
  | .slt => 0b010#3
  | .sltu => 0b011#3
  | .xor => 0b100#3
  | .srl | .sra => 0b101#3
  | .or => 0b110#3
  | .and => 0b111#3

def AluOp.funct7 : AluOp → BitVec 7
  | .sub | .sra => 0b0100000#7
  | _ => 0b0000000#7

/-! An implementation's decoder is compared with the operation, not with the
chain of tests that found it. -/

theorem branchOp?_some {f3 : BitVec 3} {op : BranchOp} (found : branchOp? f3 = some op) :
    f3 = op.funct3 := by
  unfold branchOp? at found
  grind [BranchOp.funct3]

theorem loadOp?_some {f3 : BitVec 3} {op : LoadOp} (found : loadOp? f3 = some op) :
    f3 = op.funct3 := by
  unfold loadOp? at found
  grind [LoadOp.funct3]

theorem storeOp?_some {f3 : BitVec 3} {op : StoreOp} (found : storeOp? f3 = some op) :
    f3 = op.funct3 := by
  unfold storeOp? at found
  grind [StoreOp.funct3]

theorem aluOp?_some {f3 : BitVec 3} {f7 : BitVec 7} {op : AluOp}
    (found : aluOp? f3 f7 = some op) : f3 = op.funct3 ∧ f7 = op.funct7 := by
  unfold aluOp? at found
  grind [AluOp.funct3, AluOp.funct7]

theorem aluImmOp?_some {f3 : BitVec 3} {f7 : BitVec 7} {op : AluOp}
    (found : aluImmOp? f3 f7 = some op) :
    f3 = op.funct3 ∧ op ≠ .sub ∧ (op.isShift = true → f7 = op.funct7) := by
  unfold aluImmOp? at found
  cases op <;> grind [AluOp.funct3, AluOp.funct7, AluOp.isShift]

/-- The legal RV32I words of the classes above; every other word is `none`. -/
def decode (w : Word) : Option Instr :=
  if opcode w = 0b0110111#7 then some (.lui (rd w) (immU w)) else
  if opcode w = 0b0010111#7 then some (.auipc (rd w) (immU w)) else
  if opcode w = 0b1101111#7 then some (.jal (rd w) (immJ w)) else
  if opcode w = 0b1100111#7 then
    if funct3 w = 0b000#3 then some (.jalr (rd w) (rs1 w) (immI w)) else none
  else
  if opcode w = 0b1100011#7 then
    (branchOp? (funct3 w)).map (.branch · (rs1 w) (rs2 w) (immB w))
  else
  if opcode w = 0b0000011#7 then
    (loadOp? (funct3 w)).map (.load · (rd w) (rs1 w) (immI w))
  else
  if opcode w = 0b0100011#7 then
    (storeOp? (funct3 w)).map (.store · (rs1 w) (rs2 w) (immS w))
  else
  if opcode w = 0b0010011#7 then
    (aluImmOp? (funct3 w) (funct7 w)).map fun op =>
      .opImm op (rd w) (rs1 w) (if op.isShift then shamt w else immI w)
  else
  if opcode w = 0b0110011#7 then
    (aluOp? (funct3 w) (funct7 w)).map (.opReg · (rd w) (rs1 w) (rs2 w))
  else none

/-- One constructor per instruction class: the fields a legal word must have.
Proofs about an implementation's decoder split on this and never on `decode`. -/
inductive Encodes (w : Word) : Instr → Prop where
  | lui : opcode w = 0b0110111#7 → Encodes w (.lui (rd w) (immU w))
  | auipc : opcode w = 0b0010111#7 → Encodes w (.auipc (rd w) (immU w))
  | jal : opcode w = 0b1101111#7 → Encodes w (.jal (rd w) (immJ w))
  | jalr : opcode w = 0b1100111#7 → funct3 w = 0b000#3 →
      Encodes w (.jalr (rd w) (rs1 w) (immI w))
  | branch {op : BranchOp} : opcode w = 0b1100011#7 → branchOp? (funct3 w) = some op →
      Encodes w (.branch op (rs1 w) (rs2 w) (immB w))
  | load {op : LoadOp} : opcode w = 0b0000011#7 → loadOp? (funct3 w) = some op →
      Encodes w (.load op (rd w) (rs1 w) (immI w))
  | store {op : StoreOp} : opcode w = 0b0100011#7 → storeOp? (funct3 w) = some op →
      Encodes w (.store op (rs1 w) (rs2 w) (immS w))
  | opImm {op : AluOp} : opcode w = 0b0010011#7 →
      aluImmOp? (funct3 w) (funct7 w) = some op →
      Encodes w (.opImm op (rd w) (rs1 w) (if op.isShift then shamt w else immI w))
  | opReg {op : AluOp} : opcode w = 0b0110011#7 → aluOp? (funct3 w) (funct7 w) = some op →
      Encodes w (.opReg op (rd w) (rs1 w) (rs2 w))

theorem Encodes.decode {w : Word} {instr : Instr} (encodes : Encodes w instr) :
    decode w = some instr := by
  cases encodes <;> simp_all [Rv32.decode]

theorem decode_encodes {w : Word} {instr : Instr} (decoded : decode w = some instr) :
    Encodes w instr := by
  unfold decode at decoded
  split at decoded
  · cases decoded; exact .lui ‹_›
  split at decoded
  · cases decoded; exact .auipc ‹_›
  split at decoded
  · cases decoded; exact .jal ‹_›
  split at decoded
  · split at decoded
    · cases decoded; exact .jalr ‹_› ‹_›
    · cases decoded
  split at decoded
  · obtain ⟨op, found, rfl⟩ := Option.map_eq_some_iff.mp decoded
    exact .branch ‹_› found
  split at decoded
  · obtain ⟨op, found, rfl⟩ := Option.map_eq_some_iff.mp decoded
    exact .load ‹_› found
  split at decoded
  · obtain ⟨op, found, rfl⟩ := Option.map_eq_some_iff.mp decoded
    exact .store ‹_› found
  split at decoded
  · obtain ⟨op, found, rfl⟩ := Option.map_eq_some_iff.mp decoded
    exact .opImm ‹_› found
  split at decoded
  · obtain ⟨op, found, rfl⟩ := Option.map_eq_some_iff.mp decoded
    exact .opReg ‹_› found
  · cases decoded

theorem decode_eq_some_iff {w : Word} {instr : Instr} :
    decode w = some instr ↔ Encodes w instr :=
  ⟨decode_encodes, Encodes.decode⟩

/-!
## Operand-level meaning
-/

/-- Shifts use the low five bits of the second operand. -/
def AluOp.eval (op : AluOp) (a b : Word) : Word :=
  match op with
  | .add => a + b
  | .sub => a - b
  | .sll => a <<< (b.toNat % 32)
  | .slt => if a.slt b then 1#32 else 0#32
  | .sltu => if a.ult b then 1#32 else 0#32
  | .xor => a ^^^ b
  | .srl => a >>> (b.toNat % 32)
  | .sra => a.sshiftRight (b.toNat % 32)
  | .or => a ||| b
  | .and => a &&& b

def BranchOp.taken (op : BranchOp) (a b : Word) : Bool :=
  match op with
  | .beq => a == b
  | .bne => a != b
  | .blt => a.slt b
  | .bge => !a.slt b
  | .bltu => a.ult b
  | .bgeu => !a.ult b

/-- Number of bytes a load reads. -/
def LoadOp.size : LoadOp → Nat
  | .lb | .lbu => 1
  | .lh | .lhu => 2
  | .lw => 4

def StoreOp.size : StoreOp → Nat
  | .sb => 1
  | .sh => 2
  | .sw => 4

theorem LoadOp.size_cases (op : LoadOp) : op.size = 1 ∨ op.size = 2 ∨ op.size = 4 := by
  cases op <;> simp [LoadOp.size]

theorem StoreOp.size_cases (op : StoreOp) : op.size = 1 ∨ op.size = 2 ∨ op.size = 4 := by
  cases op <;> simp [StoreOp.size]

/-- Sign or zero extension of the bytes read, given in the low bits of `v`. -/
def LoadOp.extend (op : LoadOp) (v : Word) : Word :=
  match op with
  | .lb => (v.setWidth 8).signExtend 32
  | .lh => (v.setWidth 16).signExtend 32
  | .lw => v
  | .lbu => (v.setWidth 8).setWidth 32
  | .lhu => (v.setWidth 16).setWidth 32

end Ysyx.Rv32
