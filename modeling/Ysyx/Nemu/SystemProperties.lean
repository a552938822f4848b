import Ysyx.Nemu.InstProperties
import Ysyx.Rv32.System

/-! The interpreter on the system instructions. -/

set_option autoImplicit false

namespace Ysyx.Nemu

open Rv32

/-!
## Selection
-/

def sysName : SysInstr → InstName
  | .csrrw _ _ _ => .csrrw
  | .csrrs _ _ _ => .csrrs
  | .ecall => .ecall
  | .mret => .mret

def sysFormat : SysInstr → OperandType
  | .csrrw _ _ _ | .csrrs _ _ _ | .ecall => .I
  | .mret => .R

theorem selects_of_encodesSys {w : Word} {sys : SysInstr} (encodes : EncodesSys w sys) :
    Selects w (sysName sys) (sysFormat sys) := by
  rw [selects_iff encodes.opcode]
  cases encodes with
  | ecall word =>
      subst word
      decide +kernel
  | mret word =>
      subst word
      decide +kernel
  | csrrw op f3 _ => simp [f3, op, sysName, sysFormat]
  | csrrs op f3 _ => simp [f3, op, sysName, sysFormat]

/-!
## Execution
-/

theorem csrIndex_of_slot {cfg : Config} {w : Word} {slot : CsrSlot}
    (found : csrSlot? (csrField w) = some slot) : csrIndex cfg (immI w).toInt = .ok slot := by
  have immediate : immI w = (csrField w).signExtend 32 := rfl
  rcases csrSlot?_cases found with ⟨addr, rfl⟩ | ⟨addr, rfl⟩ | ⟨addr, rfl⟩ | ⟨addr, rfl⟩
  all_goals
    rw [immediate, addr]
    rfl

def State.sysHart (st : State) (pc : Word) : SysHart := ⟨st.cpu.gpr, pc, st.cpu.csr⟩

theorem decodeExec_system {cfg : Config} {w pc : Word} {st : State} {sys : SysInstr}
    (zero : st.cpu.gpr 0#5 = 0#32) (encodes : EncodesSys w sys) :
    ∃ next st', decodeExec cfg w pc (pc + 4#32) st = .ok (next, st') ∧
      st'.sysHart next = (st.sysHart pc).step sys ∧ st'.mem = st.mem := by
  have run := decodeExec_of_selects cfg pc st (selects_of_encodesSys encodes)
  cases encodes with
  | ecall word =>
      refine ⟨_, _, run, ?_, rfl⟩
      apply SysHart.ext
      · exact reset_gpr zero
      · rfl
      · rfl
  | mret word =>
      refine ⟨_, _, run, ?_, rfl⟩
      apply SysHart.ext
      · exact reset_gpr zero
      · rfl
      · rfl
  | csrrw op f3 found =>
      rw [sysFormat, decodeOperand_I, sysName, execBody, csrIndex_of_slot found] at run
      refine ⟨_, _, run, ?_, rfl⟩
      apply SysHart.ext
      · exact setGpr_reset zero _ _
      · rfl
      · rfl
  | csrrs op f3 found =>
      rw [sysFormat, decodeOperand_I, sysName, execBody, csrIndex_of_slot found] at run
      refine ⟨_, _, run, ?_, rfl⟩
      apply SysHart.ext
      · exact setGpr_reset zero _ _
      · rfl
      · rfl

end Ysyx.Nemu
