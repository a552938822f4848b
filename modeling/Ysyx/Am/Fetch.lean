import Ysyx.Am.Trap

/-! Machine code in the memory of a hart, and runs of the hart from it; assembly lines with the
symbols of a linker. -/

set_option autoImplicit false

namespace Ysyx.Am

open Rv32 (Word RegId Instr SysInstr decode decodeSys writeGpr loadValue)
open Lib (ByteMem)

/-!
## Runs
-/

def decodeOp (w : Word) : Option Op :=
  (decode w).map .base <|> (decodeSys w).map .sys

/-- The instruction at the pc. -/
def Machine.fetch (machine : Machine) : Option Op := decodeOp (machine.mem.readLe machine.pc 4)

/-- The addresses an instruction writes. -/
def Machine.writes (machine : Machine) : Op → List Word
  | .base instr =>
      match instr.access machine.gpr with
      | .store op addr _ => (List.range op.size).map fun i => addr + BitVec.ofNat 32 i
      | _ => []
  | .sys _ => []

/-- The machine `n` instructions later and the addresses written on the way; nothing when a
fetched word is no instruction. -/
def Machine.run (machine : Machine) : Nat → Option (Machine × List Word)
  | 0 => some (machine, [])
  | n + 1 =>
      machine.fetch.bind fun op =>
        ((machine.step op).run n).map fun (after, written) =>
          (after, machine.writes op ++ written)

/-- A run that writes only where it may. -/
def Machine.Runs (writable : Word → Prop) (machine after : Machine) : Prop :=
  ∃ n written, machine.run n = some (after, written) ∧ ∀ addr ∈ written, writable addr

/-- The instructions lie in memory from `addr` on. -/
def CodeAt (mem : ByteMem 32) : Word → List Op → Prop
  | _, [] => True
  | addr, op :: code => decodeOp (mem.readLe addr 4) = some op ∧ CodeAt mem (addr + 4#32) code

/-!
## Assembly lines
-/

/-- A line of assembly: an instruction, or one that the linker completes with a symbol. -/
inductive Line (Symbol : Type) where
  | instr (op : Op)
  | la (rd : RegId) (symbol : Symbol)
  | jal (rd : RegId) (symbol : Symbol)

variable {Symbol : Type}

/-- The upper part of a pc-relative offset, rounded so that the rest is a signed immediate. -/
def pcrelHi (offset : Word) : Word := (offset + 0x800#32) &&& 0xfffff000#32

/-- `la` is `auipc` and `addi`. -/
def Line.ops (symbols : Symbol → Word) (pc : Word) : Line Symbol → List Op
  | .instr op => [op]
  | .la rd symbol =>
      let offset := symbols symbol - pc
      [.base (.auipc rd (pcrelHi offset)), .base (.opImm .add rd rd (offset - pcrelHi offset))]
  | .jal rd symbol => [.base (.jal rd (symbols symbol - pc))]

/-- In instructions. -/
def Line.size : Line Symbol → Nat
  | .instr _ | .jal _ _ => 1
  | .la _ _ => 2

def textSize (lines : List (Line Symbol)) : Nat := (lines.map Line.size).sum

def assemble (symbols : Symbol → Word) : Word → List (Line Symbol) → List Op
  | _, [] => []
  | pc, line :: lines =>
      line.ops symbols pc ++ assemble symbols (pc + BitVec.ofNat 32 (4 * line.size)) lines

/-- The lines, assembled for `addr`, lie there in memory. -/
def TextAt (symbols : Symbol → Word) (mem : ByteMem 32) (addr : Word)
    (lines : List (Line Symbol)) : Prop :=
  CodeAt mem addr (assemble symbols addr lines)

/-!
## Lines that only compute
-/

def Op.plain : Op → Bool
  | .base (.opImm _ _ _ _) | .base (.opReg _ _ _ _) | .base (.load _ _ _ _) => true
  | _ => false

/-- The registers after a plain instruction. -/
def Op.effect (mem : ByteMem 32) (gpr : RegId → Word) : Op → RegId → Word
  | .base (.opImm op rd rs1 imm) => writeGpr gpr rd (op.eval (gpr rs1) imm)
  | .base (.opReg op rd rs1 rs2) => writeGpr gpr rd (op.eval (gpr rs1) (gpr rs2))
  | .base (.load op rd rs1 imm) => writeGpr gpr rd (loadValue mem op (gpr rs1 + imm))
  | _ => gpr

def Line.plain : Line Symbol → Bool
  | .instr op => op.plain
  | .la _ _ => true
  | .jal _ _ => false

def Line.effect (symbols : Symbol → Word) (mem : ByteMem 32) (gpr : RegId → Word) :
    Line Symbol → RegId → Word
  | .instr op => op.effect mem gpr
  | .la rd symbol => writeGpr gpr rd (symbols symbol)
  | .jal _ _ => gpr

end Ysyx.Am
