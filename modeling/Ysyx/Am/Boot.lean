import Ysyx.Am.Fetch

/-! The two-stage boot loader of the ysyxsoc platform: the text of `start.S`, what the linker
script promises about its sections, and the flash image they are loaded from. -/

set_option autoImplicit false

namespace Ysyx.Am.Boot

open Rv32 (Word RegId)
open Lib (ByteMem)

/-!
## start.S
-/

/-- The symbols of `start.S`, its own labels among them. -/
inductive Symbol where
  | start | doBlSs | blSsLoadAlign4 | stackPointer | trmInit
  | blS | blSLoad | eblS
  | text | textLoad | etext
  | data | dataLoad | edata
  | dataExtra | dataExtraLoad | edataExtra
  | bssStart | ebss
  deriving DecidableEq, Repr

def zero : RegId := 0#5
def s0 : RegId := 8#5
def a1 : RegId := 11#5
def a2 : RegId := 12#5

def add (rd rs1 rs2 : RegId) : Op := .base (.opReg .add rd rs1 rs2)
def sub (rd rs1 rs2 : RegId) : Op := .base (.opReg .sub rd rs1 rs2)
def bgeu (rs1 rs2 : RegId) (offset : Int) : Op :=
  .base (.branch .bgeu rs1 rs2 (BitVec.ofInt 32 offset))
def beqz (rs1 : RegId) (offset : Int) : Op :=
  .base (.branch .beq rs1 zero (BitVec.ofInt 32 offset))
def j (offset : Int) : Op := .base (.jal zero (BitVec.ofInt 32 offset))
def jalr (rs1 : RegId) : Op := .base (.jalr ra rs1 0#32)
def ret : Op := .base (.jalr zero ra 0#32)

abbrev Text := List (Line Symbol)

/-- `0: bgeu t0, a2, 1f`, the body, `addi t0, t0, 4`, `j 0b` and the label `1`. -/
def wordLoop (body : Text) : Text :=
  [.instr (bgeu t0 a2 (4 * (textSize body + 3)))] ++ body ++
    [.instr (addi t0 t0 4), .instr (j (-(4 * (textSize body + 2))))]

/-- The same for the block from `a0` to `a2`, with a test for an empty one. -/
def sizedLoop (body : Text) : Text :=
  [.instr (sub a2 a2 a0), .instr (beqz a2 (4 * (textSize (wordLoop body) + 2))),
      .instr (mv t0 zero)] ++
    wordLoop body

def copyWord : Text :=
  [.instr (add t1 a1 t0), .instr (load t2 0 t1), .instr (add t1 a0 t0), .instr (store t2 0 t1)]

def clearWord : Text := [.instr (add t1 a0 t0), .instr (store zero 0 t1)]

/-- The six moves before a stage is left. -/
def clearRegs : Text :=
  [.instr (mv a0 zero), .instr (mv a1 zero), .instr (mv a2 zero), .instr (mv t0 zero),
    .instr (mv t1 zero), .instr (mv t2 zero)]

/-- `_start` up to its loop. -/
def startSetup : Text :=
  [.instr (mv s0 zero), .la a0 .blS, .la a1 .blSLoad, .la a2 .eblS, .instr (sub a2 a2 a0),
    .instr (mv t0 zero)]

/-- `_start`, in flash. -/
def startText : Text :=
  startSetup ++ wordLoop copyWord ++ clearRegs ++ [.la ra .doBlSs, .instr (jalr ra)]

/-- The call of `_bl_ss_load_align4` for one section. -/
def loadSection (first image last : Symbol) : Text :=
  [.la a0 first, .la a1 image, .la a2 last, .jal ra .blSsLoadAlign4]

def clearBss : Text := [.la a0 .bssStart, .la a2 .ebss] ++ sizedLoop clearWord

/-- `_do_bl_ss`, in SRAM. -/
def doBlSsText : Text :=
  loadSection .text .textLoad .etext ++ loadSection .data .dataLoad .edata ++
    loadSection .dataExtra .dataExtraLoad .edataExtra ++ clearBss ++ clearRegs ++
    [.la sp .stackPointer, .la ra .trmInit, .instr (jalr ra)]

def blSsLoadAlign4Text : Text := sizedLoop copyWord ++ [.instr ret]

/-- What `start.S` puts into `.bl.s`. -/
def loaderText : Text := doBlSsText ++ blSsLoadAlign4Text

/-!
## linker_ysyxsoc.ld
-/

structure MemoryRegion where
  origin : Nat
  length : Nat

def sram : MemoryRegion := ⟨0x0f000000, 8 * 1024⟩
def flash : MemoryRegion := ⟨0x30000000, 16 * 1024 * 1024⟩
def sdram : MemoryRegion := ⟨0xa0000000, 64 * 1024 * 1024⟩

/-- The bytes from `first` up to `last`, if any, are in the region. -/
def MemoryRegion.Contains (region : MemoryRegion) (first last : Nat) : Prop :=
  first < last → region.origin ≤ first ∧ last ≤ region.origin + region.length

instance (region : MemoryRegion) (first last : Nat) : Decidable (region.Contains first last) :=
  inferInstanceAs (Decidable (_ → _))

/-- The output sections that are loaded or cleared. -/
inductive OutputSection where
  | blS | text | data | dataExtra | bss
  deriving DecidableEq, Repr

namespace OutputSection

def start : OutputSection → Symbol
  | .blS => .blS
  | .text => .text
  | .data => .data
  | .dataExtra => .dataExtra
  | .bss => .bssStart

def end_ : OutputSection → Symbol
  | .blS => .eblS
  | .text => .etext
  | .data => .edata
  | .dataExtra => .edataExtra
  | .bss => .ebss

/-- `LOADADDR`; `.bss` is `NOLOAD`. -/
def load : OutputSection → Option Symbol
  | .blS => some .blSLoad
  | .text => some .textLoad
  | .data => some .dataLoad
  | .dataExtra => some .dataExtraLoad
  | .bss => none

def region : OutputSection → MemoryRegion
  | .blS => sram
  | .text | .data | .dataExtra | .bss => sdram

end OutputSection

variable (symbols : Symbol → Word)

def startOf (s : OutputSection) : Nat := (symbols s.start).toNat

def endOf (s : OutputSection) : Nat := (symbols s.end_).toNat

/-- The address belongs to the section at run time. -/
def InSection (s : OutputSection) (addr : Word) : Prop :=
  startOf symbols s ≤ addr.toNat ∧ addr.toNat < endOf symbols s

/-- A section where the script puts it; an empty one may be anywhere, as `.data.extra` is when no
script defines its symbols. -/
structure Placed (s : OutputSection) : Prop where
  aligned : 4 ∣ startOf symbols s ∧ 4 ∣ endOf symbols s
  ordered : startOf symbols s ≤ endOf symbols s
  inside : s.region.Contains (startOf symbols s) (endOf symbols s)
  image : ∀ load, s.load = some load →
    flash.Contains (symbols load).toNat
      ((symbols load).toNat + (endOf symbols s - startOf symbols s))

/-- The sections, and the places of the code of `start.S` in `.bl.f` and `.bl.s`. -/
structure Linked : Prop where
  placed : ∀ s, Placed symbols s
  apart : ∀ s s', s ≠ s' → ∀ addr, InSection symbols s addr → ¬ InSection symbols s' addr
  start : flash.Contains (symbols .start).toNat
    ((symbols .start).toNat + 4 * textSize startText)
  loader : startOf symbols .blS ≤ (symbols .doBlSs).toNat ∧
    (symbols .doBlSs).toNat + 4 * textSize loaderText ≤ endOf symbols .blS
  routine : symbols .blSsLoadAlign4 =
    symbols .doBlSs + BitVec.ofNat 32 (4 * textSize doBlSsText)
  targets : 4 ∣ (symbols .doBlSs).toNat ∧ 4 ∣ (symbols .trmInit).toNat

/-- The code in flash, the one of `.bl.s` within its image. -/
structure Flashed (mem : ByteMem 32) : Prop where
  start : TextAt symbols mem (symbols .start) startText
  loader : CodeAt mem (symbols .blSLoad + (symbols .doBlSs - symbols .blS))
    (assemble symbols (symbols .doBlSs) loaderText)

/-- Byte `i` of a section as it should be at run time. -/
def contents (mem : ByteMem 32) (s : OutputSection) (i : Nat) : BitVec 8 :=
  match s.load with
  | some load => mem (symbols load + BitVec.ofNat 32 i)
  | none => 0#8

/-- `_trm_init` is entered with the stack pointer set, every section in place and the rest of
the memory as it was. -/
structure EntersTrm (machine after : Machine) : Prop where
  pc : after.pc = symbols .trmInit
  sp : after.gpr sp = symbols .stackPointer
  sections : ∀ s addr, InSection symbols s addr →
    after.mem addr = contents symbols machine.mem s (addr.toNat - startOf symbols s)
  rest : ∀ addr, (∀ s, ¬ InSection symbols s addr) → after.mem addr = machine.mem addr

end Ysyx.Am.Boot
