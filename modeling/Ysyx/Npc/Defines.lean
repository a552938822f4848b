import Ysyx.Rv32.Instr

/-! Constants of `npc/vsrc/include/defines.vh` and the lookup-table multiplexer
`MuxKeyWithDefault` that the datapath modules share. -/

set_option autoImplicit false

namespace Ysyx.Npc

open Rv32 (Word RegId Byte)

/-!
## Opcodes and function fields
-/

@[simp] def typeR : BitVec 7 := 0b0110011#7
@[simp] def typeS : BitVec 7 := 0b0100011#7
@[simp] def typeB : BitVec 7 := 0b1100011#7
@[simp] def typeI : BitVec 7 := 0b0010011#7
@[simp] def typeILoad : BitVec 7 := 0b0000011#7
@[simp] def typeIJalr : BitVec 7 := 0b1100111#7
@[simp] def typeIEbrk : BitVec 7 := 0b1110011#7
@[simp] def typeULui : BitVec 7 := 0b0110111#7
@[simp] def typeUAuipc : BitVec 7 := 0b0010111#7
@[simp] def typeJ : BitVec 7 := 0b1101111#7
@[simp] def typeSys : BitVec 7 := 0b1110011#7
@[simp] def typeFence : BitVec 7 := 0b0001111#7

@[simp] def func3AddSub : BitVec 3 := 0b000#3
@[simp] def func3Sll : BitVec 3 := 0b001#3
@[simp] def func3Slt : BitVec 3 := 0b010#3
@[simp] def func3Sltu : BitVec 3 := 0b011#3
@[simp] def func3Xor : BitVec 3 := 0b100#3
@[simp] def func3SrlSra : BitVec 3 := 0b101#3
@[simp] def func3Or : BitVec 3 := 0b110#3
@[simp] def func3And : BitVec 3 := 0b111#3

@[simp] def func3Beq : BitVec 3 := 0b000#3
@[simp] def func3Bne : BitVec 3 := 0b001#3
@[simp] def func3Blt : BitVec 3 := 0b100#3
@[simp] def func3Bge : BitVec 3 := 0b101#3
@[simp] def func3Bltu : BitVec 3 := 0b110#3
@[simp] def func3Bgeu : BitVec 3 := 0b111#3

@[simp] def func3Csrrw : BitVec 3 := 0b001#3
@[simp] def func3Csrrs : BitVec 3 := 0b010#3
@[simp] def func3Csrrc : BitVec 3 := 0b011#3
@[simp] def func3Csrrwi : BitVec 3 := 0b101#3
@[simp] def func3Csrrsi : BitVec 3 := 0b110#3
@[simp] def func3Csrrci : BitVec 3 := 0b111#3

/-!
## Operation codes between the stages
-/

@[simp] def exuSelReg : BitVec 2 := 0b00#2
@[simp] def exuSelImm : BitVec 2 := 0b01#2
@[simp] def exuSelPc4 : BitVec 2 := 0b10#2
@[simp] def exuSelPci : BitVec 2 := 0b11#2

@[simp] def exuNop : BitVec 5 := 0x0#5
@[simp] def exuAdd : BitVec 5 := 0x1#5
@[simp] def exuSub : BitVec 5 := 0x2#5
@[simp] def exuAnd : BitVec 5 := 0x3#5
@[simp] def exuOr : BitVec 5 := 0x4#5
@[simp] def exuXor : BitVec 5 := 0x5#5
@[simp] def exuSll : BitVec 5 := 0x6#5
@[simp] def exuSrl : BitVec 5 := 0x7#5
@[simp] def exuSra : BitVec 5 := 0x8#5
@[simp] def exuSlt : BitVec 5 := 0x9#5
@[simp] def exuSltu : BitVec 5 := 0x10#5
@[simp] def exuBeq : BitVec 5 := 0x11#5
@[simp] def exuBne : BitVec 5 := 0x12#5
@[simp] def exuBlt : BitVec 5 := 0x13#5
@[simp] def exuBge : BitVec 5 := 0x14#5
@[simp] def exuBltu : BitVec 5 := 0x15#5
@[simp] def exuBgeu : BitVec 5 := 0x16#5

@[simp] def aluAdd : BitVec 5 := exuAdd
@[simp] def aluSub : BitVec 5 := exuSub
@[simp] def aluAnd : BitVec 5 := exuAnd
@[simp] def aluOr : BitVec 5 := exuOr
@[simp] def aluXor : BitVec 5 := exuXor
@[simp] def aluSll : BitVec 5 := exuSll
@[simp] def aluSrl : BitVec 5 := exuSrl
@[simp] def aluSra : BitVec 5 := exuSra
@[simp] def aluSubu : BitVec 5 := 0x17#5

/-- Bit 0 of an LSU operation is 0 for a load and 1 for a store. -/
@[simp] def lsuLb : BitVec 4 := 0b0000#4
@[simp] def lsuLh : BitVec 4 := 0b0010#4
@[simp] def lsuLw : BitVec 4 := 0b0100#4
@[simp] def lsuLbu : BitVec 4 := 0b1000#4
@[simp] def lsuLhu : BitVec 4 := 0b1010#4
@[simp] def lsuSb : BitVec 4 := 0b0001#4
@[simp] def lsuSh : BitVec 4 := 0b0011#4
@[simp] def lsuSw : BitVec 4 := 0b0101#4
@[simp] def lsuNop : BitVec 4 := 0b1111#4

@[simp] def csrNop : BitVec 2 := 0b00#2
@[simp] def csrRw : BitVec 2 := 0b01#2
@[simp] def csrRs : BitVec 2 := 0b10#2
@[simp] def csrRc : BitVec 2 := 0b11#2

@[simp] def csrSelReg : BitVec 1 := 0b0#1
@[simp] def csrSelImm : BitVec 1 := 0b1#1

@[simp] def addrMstatus : BitVec 12 := 0x300#12
@[simp] def addrMtvec : BitVec 12 := 0x305#12
@[simp] def addrMepc : BitVec 12 := 0x341#12
@[simp] def addrMcause : BitVec 12 := 0x342#12
@[simp] def addrMvendorid : BitVec 12 := 0xf11#12
@[simp] def addrMarchid : BitVec 12 := 0xf12#12

@[simp] def irqEcall : Word := 11#32

/-- The reset vector; the two builds of the source differ in it only. -/
inductive Build where
  | ysyxsoc | npc
  deriving DecidableEq, Repr

def resetPc : Build → Word
  | .ysyxsoc => 0x30000000#32
  | .npc => 0x80000000#32

/-!
## Lookup tables
-/

/-- `MuxKeyWithDefault`: the OR of the data of every entry whose key matches,
or the default when none does. -/
def muxKeyWithDefault {n m : Nat} (key : BitVec n) (default : BitVec m)
    (lut : List (BitVec n × BitVec m)) : BitVec m :=
  if lut.any (fun pair => key == pair.1) then
    lut.foldr (fun pair out => (if key = pair.1 then pair.2 else 0#m) ||| out) 0#m
  else default

theorem muxKeyWithDefault_miss {n m : Nat} {key : BitVec n}
    {default : BitVec m} {lut : List (BitVec n × BitVec m)}
    (missing : key ∉ lut.map Prod.fst) : muxKeyWithDefault key default lut = default := by
  have noHit : lut.any (fun pair => key == pair.1) = false := by
    simp only [List.any_eq_false, beq_iff_eq]
    intro pair member same
    exact missing (same ▸ List.mem_map_of_mem member)
  simp [muxKeyWithDefault, noHit]

private theorem foldr_miss {n m : Nat} {key : BitVec n}
    {lut : List (BitVec n × BitVec m)} (missing : key ∉ lut.map Prod.fst) :
    lut.foldr (fun pair out => (if key = pair.1 then pair.2 else 0#m) ||| out)
      0#m = 0#m := by
  induction lut with
  | nil => rfl
  | cons pair rest ih =>
      simp only [List.map_cons, List.mem_cons, not_or] at missing
      simp [ih missing.2, missing.1]

/-- With distinct keys the OR tree selects the one matching entry. -/
theorem muxKeyWithDefault_hit {n m : Nat} {key : BitVec n}
    {default data : BitVec m} {lut : List (BitVec n × BitVec m)}
    (distinct : (lut.map Prod.fst).Nodup) (member : (key, data) ∈ lut) :
    muxKeyWithDefault key default lut = data := by
  have hit : lut.any (fun pair => key == pair.1) = true :=
    List.any_eq_true.mpr ⟨_, member, by simp⟩
  rw [muxKeyWithDefault, if_pos hit]
  clear hit
  induction lut with
  | nil => simp at member
  | cons pair rest ih =>
      simp only [List.map_cons, List.nodup_cons] at distinct
      rcases List.mem_cons.mp member with rfl | later
      · simp [foldr_miss distinct.1]
      · have other : key ≠ pair.1 := by
          intro same
          exact distinct.1 (same ▸ List.mem_map_of_mem later)
        simp [other, ih distinct.2 later]

end Ysyx.Npc
