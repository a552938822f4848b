import Ysyx.Rv32.Semantics

/-! The system instructions that both implementations have: CSRRW and CSRRS on
four machine-mode registers, ECALL and MRET. Traps are taken in machine mode
only, so the trap entry leaves the status register alone. -/

set_option autoImplicit false

namespace Ysyx.Rv32

/-- The four CSRs that differential testing compares, in its order. -/
abbrev CsrSlot := Fin 4

abbrev CsrSlot.mstatus : CsrSlot := 0
abbrev CsrSlot.mtvec : CsrSlot := 1
abbrev CsrSlot.mepc : CsrSlot := 2
abbrev CsrSlot.mcause : CsrSlot := 3

def csrSlot? (addr : BitVec 12) : Option CsrSlot :=
  if addr = 0x300#12 then some CsrSlot.mstatus else
  if addr = 0x305#12 then some CsrSlot.mtvec else
  if addr = 0x341#12 then some CsrSlot.mepc else
  if addr = 0x342#12 then some CsrSlot.mcause else none

inductive SysInstr where
  | csrrw (rd rs1 : RegId) (slot : CsrSlot)
  | csrrs (rd rs1 : RegId) (slot : CsrSlot)
  | ecall
  | mret
  deriving DecidableEq, Repr

@[simp] def ecallWord : Word := 0x00000073#32
@[simp] def mretWord : Word := 0x30200073#32

def decodeSys (w : Word) : Option SysInstr :=
  if w = ecallWord then some .ecall else
  if w = mretWord then some .mret else
  if opcode w = 0b1110011#7 then
    if funct3 w = 0b001#3 then (csrSlot? (csrField w)).map (.csrrw (rd w) (rs1 w)) else
    if funct3 w = 0b010#3 then (csrSlot? (csrField w)).map (.csrrs (rd w) (rs1 w)) else none
  else none

inductive EncodesSys (w : Word) : SysInstr → Prop where
  | ecall : w = ecallWord → EncodesSys w .ecall
  | mret : w = mretWord → EncodesSys w .mret
  | csrrw {slot : CsrSlot} : opcode w = 0b1110011#7 → funct3 w = 0b001#3 →
      csrSlot? (csrField w) = some slot → EncodesSys w (.csrrw (rd w) (rs1 w) slot)
  | csrrs {slot : CsrSlot} : opcode w = 0b1110011#7 → funct3 w = 0b010#3 →
      csrSlot? (csrField w) = some slot → EncodesSys w (.csrrs (rd w) (rs1 w) slot)

theorem decodeSys_encodes {w : Word} {sys : SysInstr} (decoded : decodeSys w = some sys) :
    EncodesSys w sys := by
  unfold decodeSys at decoded
  split at decoded
  · cases decoded; exact .ecall ‹_›
  split at decoded
  · cases decoded; exact .mret ‹_›
  split at decoded
  · split at decoded
    · obtain ⟨slot, found, rfl⟩ := Option.map_eq_some_iff.mp decoded
      exact .csrrw ‹_› ‹_› found
    split at decoded
    · obtain ⟨slot, found, rfl⟩ := Option.map_eq_some_iff.mp decoded
      exact .csrrs ‹_› ‹_› found
    · cases decoded
  · cases decoded

theorem EncodesSys.opcode {w : Word} {sys : SysInstr} (encodes : EncodesSys w sys) :
    opcode w = 0b1110011#7 := by
  cases encodes with
  | ecall word => subst word; rfl
  | mret word => subst word; rfl
  | csrrw op _ _ => exact op
  | csrrs op _ _ => exact op

/-- The four addresses are the only ones with a slot. -/
theorem csrSlot?_cases {addr : BitVec 12} {slot : CsrSlot} (found : csrSlot? addr = some slot) :
    (addr = 0x300#12 ∧ slot = CsrSlot.mstatus) ∨ (addr = 0x305#12 ∧ slot = CsrSlot.mtvec) ∨
      (addr = 0x341#12 ∧ slot = CsrSlot.mepc) ∨ (addr = 0x342#12 ∧ slot = CsrSlot.mcause) := by
  unfold csrSlot? at found
  split at found
  · cases found; exact .inl ⟨‹_›, rfl⟩
  split at found
  · cases found; exact .inr (.inl ⟨‹_›, rfl⟩)
  split at found
  · cases found; exact .inr (.inr (.inl ⟨‹_›, rfl⟩))
  split at found
  · cases found; exact .inr (.inr (.inr ⟨‹_›, rfl⟩))
  · cases found

/-!
## Meaning
-/

/-- What the system instructions read and write; memory is not among it. -/
@[ext]
structure SysHart where
  gpr : RegId → Word
  pc : Word
  csr : CsrSlot → Word

def setCsr (csr : CsrSlot → Word) (slot : CsrSlot) (v : Word) : CsrSlot → Word :=
  fun q => if q = slot then v else csr q

def SysHart.step (hart : SysHart) : SysInstr → SysHart
  | .csrrw rd rs1 slot =>
      ⟨writeGpr hart.gpr rd (hart.csr slot), hart.pc + 4#32,
        Rv32.setCsr hart.csr slot (hart.gpr rs1)⟩
  | .csrrs rd rs1 slot =>
      ⟨writeGpr hart.gpr rd (hart.csr slot), hart.pc + 4#32,
        Rv32.setCsr hart.csr slot (hart.csr slot ||| hart.gpr rs1)⟩
  | .ecall =>
      ⟨hart.gpr, hart.csr CsrSlot.mtvec,
        Rv32.setCsr (Rv32.setCsr hart.csr CsrSlot.mcause 11#32) CsrSlot.mepc hart.pc⟩
  | .mret => ⟨hart.gpr, hart.csr CsrSlot.mepc, hart.csr⟩

theorem setCsr_self (csr : CsrSlot → Word) (slot : CsrSlot) : setCsr csr slot (csr slot) = csr := by
  funext q
  by_cases same : q = slot <;> simp [setCsr, same]

theorem SysHart.step_gpr_zero {hart : SysHart} (zero : hart.gpr 0#5 = 0#32) (sys : SysInstr) :
    (hart.step sys).gpr 0#5 = 0#32 := by
  cases sys with
  | csrrw rd rs1 slot => exact writeGpr_zero zero rd _
  | csrrs rd rs1 slot => exact writeGpr_zero zero rd _
  | ecall => exact zero
  | mret => exact zero

end Ysyx.Rv32
