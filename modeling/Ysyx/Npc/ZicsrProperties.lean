import Ysyx.Npc.CoreProperties
import Ysyx.Npc.CommitProperties
import Ysyx.Rv32.Zicsr

/-! The CSR instructions and the traps of the core against the manual, first for
one commit, then for every cycle of every run. -/

set_option autoImplicit false

namespace Ysyx.Npc

open Rv32
open Lib (Machine)

/-!
## The CSR file by name
-/

def Csrfile.named (csrs : Csrfile) : CsrName → Word
  | .mstatus => csrs.mstatus
  | .mtvec => csrs.mtvec
  | .mepc => csrs.mepc
  | .mcause => csrs.mcause
  | .mvendorid => csrs.mvendorid
  | .marchid => csrs.marchid

def Arch.csrHart (arch : Arch) : CsrHart := ⟨arch.rf, arch.csrs.named⟩

/-- The six addresses are the only ones with a name. -/
theorem csrName?_cases {addr : BitVec 12} {csr : CsrName} (found : csrName? addr = some csr) :
    (addr = 0x300#12 ∧ csr = .mstatus) ∨ (addr = 0x305#12 ∧ csr = .mtvec) ∨
      (addr = 0x341#12 ∧ csr = .mepc) ∨ (addr = 0x342#12 ∧ csr = .mcause) ∨
      (addr = 0xf11#12 ∧ csr = .mvendorid) ∨ (addr = 0xf12#12 ∧ csr = .marchid) := by
  unfold csrName? at found
  split_ifs at found <;> cases found <;> simp_all

theorem rdata_of_name {csrs : Csrfile} {addr : BitVec 12} {csr : CsrName}
    (found : csrName? addr = some csr) : csrs.rdata true addr = csrs.named csr := by
  rcases csrName?_cases found with ⟨rfl, rfl⟩ | ⟨rfl, rfl⟩ | ⟨rfl, rfl⟩ | ⟨rfl, rfl⟩ | ⟨rfl, rfl⟩ |
    ⟨rfl, rfl⟩ <;> rfl

/-- The CSR port writes the named CSR, unless it is read-only. -/
theorem next_named {csrs : Csrfile} {signals : WbuSignals} {iru : Iru} {csr : CsrName}
    (found : csrName? signals.csrdid = some csr) (mepc : iru.mepcWen = false)
    (mcause : iru.mcauseWen = false) (mstatus : iru.mstatusWen = false) :
    (csrs.next true signals iru).named =
      if signals.csrdwen && csr.writable then Function.update csrs.named csr signals.csrd
      else csrs.named := by
  funext q
  rcases csrName?_cases found with ⟨addr, rfl⟩ | ⟨addr, rfl⟩ | ⟨addr, rfl⟩ | ⟨addr, rfl⟩ |
    ⟨addr, rfl⟩ | ⟨addr, rfl⟩ <;>
    cases wen : signals.csrdwen <;> cases q <;>
    simp [Csrfile.next, Csrfile.named, CsrName.writable, addr, wen, mepc, mcause, mstatus]

/-!
## Decoder
-/

def csrCode : CsrOp → BitVec 2
  | .rw => csrRw
  | .rs => csrRs
  | .rc => csrRc

/-- CSRRW and CSRRWI read the CSR only when they have a destination. -/
def csrReads (op : CsrOp) (rd : RegId) : Bool :=
  match op with
  | .rw => rd != 0#5
  | .rs | .rc => true

theorem funct3_of_csrOp {f3 : BitVec 3} {op : CsrOp}
    (found : csrOp? (f3.extractLsb' 0 2) = some op) :
    (f3 = 0b001#3 ∧ op = .rw) ∨ (f3 = 0b010#3 ∧ op = .rs) ∨ (f3 = 0b011#3 ∧ op = .rc) ∨
      (f3 = 0b101#3 ∧ op = .rw) ∨ (f3 = 0b110#3 ∧ op = .rs) ∨ (f3 = 0b111#3 ∧ op = .rc) := by
  revert f3
  cases op <;> decide

theorem funct3_ne_zero_of_csrOp {w : Word} {op : CsrOp}
    (found : csrOp? ((funct3 w).extractLsb' 0 2) = some op) : funct3 w ≠ 0b000#3 := by
  rcases funct3_of_csrOp found with ⟨f3, _⟩ | ⟨f3, _⟩ | ⟨f3, _⟩ | ⟨f3, _⟩ | ⟨f3, _⟩ | ⟨f3, _⟩ <;>
    rw [f3] <;> decide

section Commit

variable {w : Word} {arch : Arch}

theorem iduSystem_of_csrOp {op : CsrOp}
    (found : csrOp? ((funct3 w).extractLsb' 0 2) = some op) :
    iduSystem w =
      { csrsid := csrField w
        csrsren := csrReads op (rd w)
        rs1id := rs1 w
        imm := if (funct3 w).getLsbD 2 then (rs1 w).setWidth 32 else 0#32
        excsropt := csrCode op
        excsrsrc := if (funct3 w).getLsbD 2 then csrSelImm else csrSelReg
        rdid := rd w
        rdwen := csrReads op (rd w) && rd w != 0#5
        csrdid := csrField w
        csrdwen := op.writes (csrSource w) } := by
  rcases funct3_of_csrOp found with ⟨f3, rfl⟩ | ⟨f3, rfl⟩ | ⟨f3, rfl⟩ | ⟨f3, rfl⟩ | ⟨f3, rfl⟩ |
    ⟨f3, rfl⟩ <;>
    simp only [csrSource, f3] <;> unfold funct3 at f3 <;>
    simp [iduSystem, f3, csrField, rs1, rd, csrReads, csrCode, CsrOp.writes, CsrSource.isZero,
      bne]

/-- The operand of the execution unit is the one the instruction names. -/
theorem operand_eq (w : Word) (arch : Arch) :
    (if (if (funct3 w).getLsbD 2 then csrSelImm else csrSelReg) = csrSelImm then
        (if (funct3 w).getLsbD 2 then (rs1 w).setWidth 32 else 0#32)
      else arch.rf (rs1 w)) = (csrSource w).value arch.rf := by
  rw [csrSource]
  cases (funct3 w).getLsbD 2 with
  | false => rfl
  | true => rfl

/-- The execution unit's CSR result, with the read that the decoder asks for. -/
theorem csrResult_eq {csrs : Csrfile} {addr : BitVec 12} {csr : CsrName}
    (found : csrName? addr = some csr) (op : CsrOp) (rd : RegId) (operand : Word) :
    muxKeyWithDefault (csrCode op) 0#32
        [(csrNop, 0#32), (csrRw, operand),
         (csrRs, csrs.rdata (csrReads op rd) addr ||| operand),
         (csrRc, csrs.rdata (csrReads op rd) addr &&& ~~~operand)] =
      op.eval (csrs.named csr) operand := by
  cases op <;>
    simp [csrCode, csrReads, muxKeyWithDefault, CsrOp.eval, rdata_of_name found]

theorem csrRead_eq (csrs : Csrfile) {addr : BitVec 12} {csr : CsrName}
    (found : csrName? addr = some csr) (op : CsrOp) {rd : RegId} (dest : rd ≠ 0#5) :
    csrReads op rd = true ∧
      muxKeyWithDefault (csrCode op) 0#32
          [(csrNop, 0#32), (csrRw, csrs.rdata true addr), (csrRs, csrs.rdata true addr),
           (csrRc, csrs.rdata true addr)] = csrs.named csr := by
  cases op <;> simp [csrCode, csrReads, muxKeyWithDefault, rdata_of_name found, dest]

/-- The commit of a CSR instruction or a trap is the manual's step. -/
theorem retire_csr {instr : CsrInstr} (decoded : decodeCsr w = some instr) (rdata : Word) :
    (arch.retire (arch.issue w) rdata).csrHart = arch.csrHart.step arch.pc instr := by
  cases decodeCsr_encodes decoded with
  | ecall word =>
      subst word
      apply CsrHart.ext
      · simp only [Arch.csrHart, Arch.retire, Arch.issue, Arch.decode, idu_ecall,
          WbuSignals.load]
        rfl
      · simp only [Arch.csrHart, Arch.retire, Arch.issue, Arch.decode, idu_ecall]
        funext q
        cases q <;> rfl
  | mret word =>
      subst word
      apply CsrHart.ext
      · simp only [Arch.csrHart, Arch.retire, Arch.issue, Arch.decode, idu_mret,
          WbuSignals.load]
        rfl
      · simp only [Arch.csrHart, Arch.retire, Arch.issue, Arch.decode, idu_mret]
        funext q
        cases q <;> rfl
  | @access op csr sys isOp isCsr =>
      rw [issue_csr_operand sys (funct3_ne_zero_of_csrOp isOp) (iduSystem_of_csrOp isOp)]
      apply CsrHart.ext
      · simp only [Arch.csrHart, Arch.retire, CsrHart.step, WbuSignals.rd, Bool.false_eq_true,
          if_false]
        by_cases isZero : rd w = 0#5
        · simp [isZero]
        · obtain ⟨reads, value⟩ := csrRead_eq arch.csrs isCsr op isZero
          have dest : (rd w != 0#5) = true := bne_iff_ne.mpr isZero
          rw [reads, value, dest, if_neg isZero]
          funext q
          by_cases same : q = rd w <;> simp [Regfile.next, Function.update, same, isZero]
      · change (Csrfile.next _ true _ _).named = _
        rw [next_named isCsr rfl rfl rfl]
        simp only [operand_eq, csrResult_eq isCsr]
        rfl

end Commit

/-!
## Runs
-/

section Run

variable {σ : Type}

theorem run_ids (dev : Device σ) (choices : Nat → Choice) (build : Build) (rf : Regfile) (mem : σ)
    (n : Nat) :
    let csrs := ((machine dev).run choices 0 (System.reset build rf mem) n).core.csrs
    csrs.mvendorid = 0x79737978#32 ∧ csrs.marchid = 0xbc614e#32 := by
  induction n with
  | zero => exact ⟨rfl, rfl⟩
  | succ n ih =>
      obtain ⟨stays, retires⟩ := run_commit dev choices build rf mem n
      cases valid : Core.lsuValid _ _ with
      | false =>
          have same := congrArg Arch.csrs (stays valid)
          simp only [Core.arch] at same
          rw [same]
          exact ih
      | true =>
          obtain ⟨rdata, step⟩ := retires valid
          have vendor := congrArg (fun arch => arch.csrs.mvendorid) step
          have archid := congrArg (fun arch => arch.csrs.marchid) step
          exact ⟨vendor.trans ih.1, archid.trans ih.2⟩

theorem run_arch_of_idle (dev : Device σ) (choices : Nat → Choice) (build : Build) (rf : Regfile)
    (mem : σ) {n m : Nat} (later : n ≤ m) :
    let sys := (machine dev).run choices 0 (System.reset build rf mem)
    (∀ k, n ≤ k → k < m → (sys k).core.lsuValid ((sys k).lsuBus (choices k)) = false) →
      (sys m).core.arch = (sys n).core.arch := by
  intro sys idle
  induction m, later using Nat.le_induction with
  | base => rfl
  | succ m later ih =>
      have step := (run_commit dev choices build rf mem m).1 (idle m later (Nat.lt_succ_self m))
      exact step.trans (ih fun k after before => idle k after (by omega))

/-- Every commit of a CSR instruction or a trap is the manual's step on the register file, the
identification registers never change, and the next instruction reads what this one wrote. The
step takes its operand from the register file, x0 included: from a register file that is
released with zero there, this is the manual's read in every cycle. -/
theorem csr_law (dev : Device σ) (choices : Nat → Choice) (build : Build) (rf : Regfile) (mem : σ)
    (n : Nat) :
    let sys := (machine dev).run choices 0 (System.reset build rf mem)
    let arch := fun n => (sys n).core.arch
    let commits := fun n => (sys n).core.lsuValid ((sys n).lsuBus (choices n))
    let instr := fun n => decodeCsr (sys n).core.ifu.instr
    (arch n).csrs.mvendorid = 0x79737978#32 ∧ (arch n).csrs.marchid = 0xbc614e#32 ∧
      (rf 0#5 = 0#32 → readGpr (arch n).rf = (arch n).rf) ∧
      (commits n = false → arch (n + 1) = arch n) ∧
      ∀ i, commits n = true → instr n = some i →
        (arch (n + 1)).csrHart = (arch n).csrHart.step (arch n).pc i ∧
          ∀ m op rd source csr, n < m → (∀ k, n < k → k < m → commits k = false) →
            commits m = true → instr m = some (.access op rd source csr) → rd ≠ 0#5 →
            (arch (m + 1)).rf rd = (arch (n + 1)).csrs.named csr := by
  intro sys arch commits instr
  obtain ⟨vendor, archid⟩ := run_ids dev choices build rf mem n
  have law : ∀ n i, commits n = true → instr n = some i →
      (arch (n + 1)).csrHart = (arch n).csrHart.step (arch n).pc i := by
    intro n i valid decoded
    obtain ⟨rdata, step⟩ := (run_commit dev choices build rf mem n).2 valid
    have after : arch (n + 1) = (arch n).retire ((arch n).issue (sys n).core.ifu.instr) rdata :=
      step
    rw [after]
    exact retire_csr decoded rdata
  refine ⟨vendor, archid, fun zero => readGpr_eq (run_x0 dev choices build mem zero n), ?_, ?_⟩
  · intro idle
    exact run_arch_of_idle dev choices build rf mem (Nat.le_succ n) fun k after before => by
      obtain rfl : k = n := by omega
      exact idle
  · intro i valid decoded
    refine ⟨law n i valid decoded, ?_⟩
    intro m op rd source csr later idle validM decodedM dest
    have same : arch m = arch (n + 1) :=
      run_arch_of_idle dev choices build rf mem later fun k after before => idle k after before
    have read := congrFun (congrArg CsrHart.gpr (law m _ validM decodedM)) rd
    simp only [CsrHart.step, if_neg dest, Function.update_self] at read
    rw [← same]
    exact read

/-- A memory of `csrrwi x1, mtvec, 5`: the first commit is in cycle 4. -/
theorem csr_law_csrrwi :
    let dev : Device Unit := ⟨fun mem _ => (0x3052d0f3#32, mem), fun mem _ _ _ => mem⟩
    let sys := (machine dev).run (fun _ => .prompt) 0 (System.reset .ysyxsoc (fun _ => 0#32) ())
    (sys 5).core.arch.csrHart.csr .mtvec = 5#32 := by
  intro dev sys
  have step := ((csr_law dev (fun _ => .prompt) .ysyxsoc (fun _ => 0#32) () 4).2.2.2.2
    (.access .rw 1#5 (.imm 5#5) .mtvec) (by decide +kernel) (by decide +kernel)).1
  exact congrFun (congrArg CsrHart.csr step) .mtvec

end Run

end Ysyx.Npc
