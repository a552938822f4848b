import Ysyx.Npc.Commit
import Ysyx.Npc.DatapathProperties
import Ysyx.Rv32.System
import Mathlib.Tactic.IntervalCases
import Mathlib.Tactic.FinCases

/-! One committed instruction against the instruction set: the load and store
lanes on a 32-bit bus, then the commit of each class, then the operands on which
the core takes the manual's step. -/

set_option autoImplicit false

namespace Ysyx.Npc

open Rv32
open Lib (ByteMem)

/-!
## Memory on a 32-bit bus
-/

/-- Ordinary memory: reads return the aligned word, writes obey the strobes. -/
def memoryDevice : Device (ByteMem 32) where
  read mem ar := (mem.readLe (ByteMem.wordBase ar.addr) 4, mem)
  write mem aw wdata wstrb := mem.writeLanes aw.addr wstrb wdata

/-- An access of `size` bytes lies in one aligned word. -/
def Aligned (addr : Word) (size : Nat) : Prop := addr.toNat % size = 0

def AccessAligned : Access → Prop
  | .none => True
  | .load op addr => Aligned addr op.size
  | .store op addr _ => Aligned addr op.size

theorem within_of_aligned {addr : Word} {size : Nat} (aligned : Aligned addr size)
    (divides : size = 1 ∨ size = 2 ∨ size = 4) : addr.toNat % 4 + size ≤ 4 := by
  unfold Aligned at aligned
  rcases divides with rfl | rfl | rfl <;> omega

theorem laneShift_eq (addr : Word) : laneShift addr = 8 * (addr.toNat % 4) := by
  have lane : (addr &&& 3#32).toNat = addr.toNat % 4 := by
    rw [BitVec.toNat_and]
    exact Nat.and_two_pow_sub_one_eq_mod addr.toNat 2
  rw [laneShift, BitVec.toNat_shiftLeft, lane, Nat.shiftLeft_eq]
  omega

theorem lane_eq (addr : Word) : (addr.extractLsb' 0 2).toNat = addr.toNat % 4 := by
  simp [BitVec.extractLsb'_toNat]

/-- A load looks only at the bytes it is of. -/
theorem extend_congr {op : LoadOp} {v v' : Word}
    (same : v.setWidth (8 * op.size) = v'.setWidth (8 * op.size)) : op.extend v = op.extend v' := by
  cases op with
  | lw => simpa [LoadOp.size, LoadOp.extend] using same
  | _ =>
      simp only [LoadOp.size, Nat.reduceMul] at same
      simp only [LoadOp.extend, same]

private theorem zero_append_eq_setWidth (m : Nat) {n : Nat} (x : BitVec n) :
    0#m ++ x = x.setWidth (m + n) := by
  apply BitVec.eq_of_getLsbD_eq
  intro i bound
  rw [BitVec.getLsbD_append, BitVec.getLsbD_setWidth]
  by_cases low : i < n
  · simp [low, bound]
  · simp [low, BitVec.getLsbD_of_ge x i (by omega)]

theorem lsuRegld_loadCode (op : LoadOp) (addr rdata : Word) :
    lsuRegld (loadCode op) addr rdata = op.extend (rdata >>> laneShift addr) := by
  generalize lane : rdata >>> laneShift addr = v
  cases op with
  | lb =>
      have sign : ((v.extractLsb' 7 1).replicate 24 ++ v.extractLsb' 0 8 : Word) =
          (v.setWidth 8).signExtend 32 := by
        rw [BitVec.setWidth_eq_extractLsb' (by decide)]
        exact replicate_append_eq_signExtend _ _ 24 (by simp [BitVec.msb_eq_getLsbD_last])
      simp [lsuRegld, lane, loadCode, muxKeyWithDefault, LoadOp.extend, ← sign]
  | lh =>
      have sign : ((v.extractLsb' 15 1).replicate 16 ++ v.extractLsb' 0 16 : Word) =
          (v.setWidth 16).signExtend 32 := by
        rw [BitVec.setWidth_eq_extractLsb' (by decide)]
        exact replicate_append_eq_signExtend _ _ 16 (by simp [BitVec.msb_eq_getLsbD_last])
      simp [lsuRegld, lane, loadCode, muxKeyWithDefault, LoadOp.extend, ← sign]
  | lw => simp [lsuRegld, lane, loadCode, muxKeyWithDefault, LoadOp.extend]
  | lbu =>
      have zero : (0#24 ++ v.extractLsb' 0 8 : Word) = (v.setWidth 8).setWidth 32 := by
        rw [← BitVec.setWidth_eq_extractLsb' (by decide)]
        exact zero_append_eq_setWidth 24 _
      simp [lsuRegld, lane, loadCode, muxKeyWithDefault, LoadOp.extend, ← zero]
  | lhu =>
      have zero : (0#16 ++ v.extractLsb' 0 16 : Word) = (v.setWidth 16).setWidth 32 := by
        rw [← BitVec.setWidth_eq_extractLsb' (by decide)]
        exact zero_append_eq_setWidth 16 _
      simp [lsuRegld, lane, loadCode, muxKeyWithDefault, LoadOp.extend, ← zero]

/-- An aligned load of the aligned bus word is the load of the manual. -/
theorem lsuRegld_readLe {op : LoadOp} {addr : Word} (mem : ByteMem 32)
    (aligned : Aligned addr op.size) :
    lsuRegld (loadCode op) addr (mem.readLe (ByteMem.wordBase addr) 4) = loadValue mem op addr := by
  rw [lsuRegld_loadCode, laneShift_eq, loadValue]
  exact extend_congr
    (ByteMem.setWidth_readLe_wordBase (within_of_aligned aligned op.size_cases))

theorem getLsbD_lsuWstrb {op : StoreOp} {addr : Word} (aligned : Aligned addr op.size) (i : Nat) :
    (lsuWstrb (storeCode op) addr).getLsbD i =
      decide (addr.toNat % 4 ≤ i ∧ i < addr.toNat % 4 + op.size) := by
  have within := within_of_aligned aligned op.size_cases
  have lane := lane_eq addr
  have bound : addr.toNat % 4 < 4 := Nat.mod_lt _ (by decide)
  generalize addr.toNat % 4 = r at within lane bound
  by_cases inLanes : i < 4
  · cases op <;> simp only [StoreOp.size] at within <;>
      simp [lsuWstrb, lane, storeCode, muxKeyWithDefault, StoreOp.size] <;>
      interval_cases r <;> interval_cases i <;> rfl
  · rw [BitVec.getLsbD_of_ge _ i (by omega)]
    simp
    omega

/-- An aligned store through the byte lanes is the store of the manual. -/
theorem writeLanes_storeValue {op : StoreOp} {addr data : Word} (mem : ByteMem 32)
    (aligned : Aligned addr op.size) :
    mem.writeLanes addr (lsuWstrb (storeCode op) addr) (wdataInt addr data) =
      storeValue mem op addr data := by
  rw [wdataInt, laneShift_eq, storeValue]
  exact ByteMem.writeLanes_eq_writeLe (within_of_aligned aligned op.size_cases) (by decide)
    (getLsbD_lsuWstrb aligned)

/-!
## Commit of one word
-/

/-- The value the core writes: the manual's, but for the shift amount of SRA. -/
def coreWritten (hart : Hart) : Instr → Option Word
  | .opReg .sra _ rs1 rs2 => some (intRes exuSra (hart.x rs1) (hart.x rs2))
  | instr => hart.written instr

/-- The core's next pc: the manual's, but for bit 0 of a JALR target. -/
def coreNextPc (hart : Hart) : Instr → Word
  | .jalr _ rs1 imm => hart.x rs1 + imm
  | instr => instr.nextPc hart.pc hart.x

def coreStep (hart : Hart) (instr : Instr) : Hart where
  gpr := writeBack hart.gpr instr.dest (coreWritten hart instr)
  pc := coreNextPc hart instr
  mem := (hart.step instr).mem

def Arch.hart (arch : Arch) (mem : ByteMem 32) : Hart := ⟨arch.rf, arch.pc, mem⟩

/-- The architectural state and memory a hart stands for, with these CSRs. -/
def ofHart (hart : Hart) (csrs : Csrfile) : Arch × ByteMem 32 :=
  (⟨hart.gpr, hart.pc, csrs⟩, hart.mem)

theorem Csrfile.next_of_no_write {csrs : Csrfile} {signals : WbuSignals} {iru : Iru}
    (csr : signals.csrdwen = false) (mepc : iru.mepcWen = false) (mcause : iru.mcauseWen = false)
    (mstatus : iru.mstatusWen = false) : csrs.next true signals iru = csrs := by
  simp [Csrfile.next, csr, mepc, mcause, mstatus]

section Issue

variable {w : Word} {arch : Arch}

/-- What the core latches of a word outside the system opcode. -/
def normalIssue (arch : Arch) (d : IduNormal) : Issue :=
  let src := operands d.exuSrcSel arch.pc (arch.rf d.rs1id) (arch.rf d.rs2id) d.imm
  let res := intRes d.exuOpt src.1 src.2
  { lsuOpt := d.lsuOpt
    regst := arch.rf d.rs2id
    signals := ⟨!d.lsuOpt.getLsbD 0, d.rdwen, d.rdid, false, 0#12, res, 0#32⟩
    iru := Iru.load arch.pc false false arch.csrs.mstatus
    pcNext :=
      if d.brch && !(res == 0#32) || d.jal then arch.pc + d.imm
      else if d.jalr then arch.rf d.rs1id + d.imm
      else arch.pc + 4#32 }

theorem issue_of_not_sys (notSys : opcode w ≠ typeSys) :
    arch.issue w = normalIssue arch (iduNormal w) := by
  simp only [Arch.issue, Arch.decode, idu_of_not_sys notSys, WbuSignals.load, bruPcNext,
    (exu_of_not_sys _ _ _ _ _ _ _ _ _).1, (exu_of_not_sys _ _ _ _ _ _ _ _ _).2, normalIssue]
  simp [exu, muxKeyWithDefault]

theorem retire_normalIssue (d : IduNormal) (rdata : Word) :
    arch.retire (normalIssue arch d) rdata =
      { rf := arch.rf.next d.rdwen d.rdid
          ((normalIssue arch d).signals.rd
            (lsuRegld d.lsuOpt (normalIssue arch d).addr rdata))
        pc := (normalIssue arch d).pcNext
        csrs := arch.csrs } := by
  rw [Arch.retire, Csrfile.next_of_no_write rfl rfl rfl rfl]
  rfl

/-- A word that is neither a load nor a store. -/
theorem archExec_of_nop {mem : ByteMem 32} (notSys : opcode w ≠ typeSys)
    (nop : (iduNormal w).lsuOpt = lsuNop) :
    archExec memoryDevice arch mem w =
      (⟨arch.rf.next (iduNormal w).rdwen (iduNormal w).rdid
          (normalIssue arch (iduNormal w)).signals.exuRes,
        (normalIssue arch (iduNormal w)).pcNext, arch.csrs⟩, mem) := by
  have noLoad : (normalIssue arch (iduNormal w)).isLoad = false := by
    simp [Issue.isLoad, normalIssue, nop, lsuRen]
  have noStore : (normalIssue arch (iduNormal w)).isStore = false := by
    simp [Issue.isStore, normalIssue, nop, lsuWen]
  have value : (normalIssue arch (iduNormal w)).signals.ldEn = false := by
    simp [normalIssue, nop]
  simp only [archExec, issue_of_not_sys notSys, noLoad, noStore, retire_normalIssue,
    WbuSignals.rd, value, Bool.false_eq_true, ↓reduceIte]

theorem archExec_of_load {mem : ByteMem 32} {op : LoadOp} {issue : Issue}
    (issued : issue = normalIssue arch (iduNormal w)) (notSys : opcode w ≠ typeSys)
    (load : (iduNormal w).lsuOpt = loadCode op) :
    archExec memoryDevice arch mem w =
      (⟨arch.rf.next (iduNormal w).rdwen (iduNormal w).rdid
          (lsuRegld (loadCode op) issue.addr (mem.readLe (ByteMem.wordBase issue.addr) 4)),
        issue.pcNext, arch.csrs⟩, mem) := by
  subst issued
  have isLoad : (normalIssue arch (iduNormal w)).isLoad = true := by
    cases op <;> simp [Issue.isLoad, normalIssue, load, lsuRen, loadCode]
  have value : (normalIssue arch (iduNormal w)).signals.ldEn = true := by
    cases op <;> simp [normalIssue, load, loadCode]
  simp only [archExec, issue_of_not_sys notSys, isLoad, memoryDevice, retire_normalIssue,
    WbuSignals.rd, value, ↓reduceIte, load, Issue.ar, AxiAddr.single]

theorem archExec_of_store {mem : ByteMem 32} {op : StoreOp} {issue : Issue}
    (issued : issue = normalIssue arch (iduNormal w)) (notSys : opcode w ≠ typeSys)
    (store : (iduNormal w).lsuOpt = storeCode op) (noWrite : (iduNormal w).rdwen = false) :
    archExec memoryDevice arch mem w =
      (⟨arch.rf, issue.pcNext, arch.csrs⟩,
        mem.writeLanes issue.addr (lsuWstrb (storeCode op) issue.addr)
          (wdataInt issue.addr issue.regst)) := by
  subst issued
  have isLoad : (normalIssue arch (iduNormal w)).isLoad = false := by
    cases op <;> simp [Issue.isLoad, normalIssue, store, lsuRen, storeCode]
  have isStore : (normalIssue arch (iduNormal w)).isStore = true := by
    cases op <;> simp [Issue.isStore, normalIssue, store, lsuWen, storeCode]
  have opt : (normalIssue arch (iduNormal w)).lsuOpt = storeCode op := store
  simp only [archExec, issue_of_not_sys notSys, isLoad, isStore, memoryDevice, retire_normalIssue,
    noWrite, Regfile.next_idle, Bool.false_eq_true, ↓reduceIte, Issue.aw, Issue.wdata,
    Issue.wstrb, AxiAddr.single, opt]

attribute [local simp] normalIssue operands intRes_add ofHart coreStep coreWritten coreNextPc
  Hart.written Instr.access Instr.result Instr.dest Instr.nextPc writeBack Regfile.next_write
  Arch.hart Hart.step

theorem archExec_lui {mem : ByteMem 32} (zero : arch.rf 0#5 = 0#32) (op : opcode w = typeULui) :
    archExec memoryDevice arch mem w =
      ofHart (coreStep (arch.hart mem) (.lui (rd w) (immU w))) arch.csrs := by
  rw [archExec_of_nop (by simp [op]) (by rw [iduNormal_lui op]), iduNormal_lui op]
  simp [zero]

theorem archExec_auipc {mem : ByteMem 32} (op : opcode w = typeUAuipc) :
    archExec memoryDevice arch mem w =
      ofHart (coreStep (arch.hart mem) (.auipc (rd w) (immU w))) arch.csrs := by
  rw [archExec_of_nop (by simp [op]) (by rw [iduNormal_auipc op]), iduNormal_auipc op]
  simp

theorem archExec_jal {mem : ByteMem 32} (op : opcode w = typeJ) :
    archExec memoryDevice arch mem w =
      ofHart (coreStep (arch.hart mem) (.jal (rd w) (immJ w))) arch.csrs := by
  rw [archExec_of_nop (by simp [op]) (by rw [iduNormal_jal op]), iduNormal_jal op]
  simp

theorem archExec_jalr {mem : ByteMem 32} (zero : arch.rf 0#5 = 0#32) (op : opcode w = typeIJalr) :
    archExec memoryDevice arch mem w =
      ofHart (coreStep (arch.hart mem) (.jalr (rd w) (rs1 w) (immI w))) arch.csrs := by
  have reads : (arch.hart mem).x = arch.rf := Hart.x_eq_gpr zero
  rw [archExec_of_nop (by simp [op]) (by rw [iduNormal_jalr op]), iduNormal_jalr op]
  simp only [Arch.hart] at reads
  simp [reads]

theorem archExec_branch {mem : ByteMem 32} {f : BranchOp} (zero : arch.rf 0#5 = 0#32)
    (op : opcode w = typeB) (found : branchOp? (funct3 w) = some f) :
    archExec memoryDevice arch mem w =
      ofHart (coreStep (arch.hart mem) (.branch f (rs1 w) (rs2 w) (immB w))) arch.csrs := by
  have reads : (arch.hart mem).x = arch.rf := Hart.x_eq_gpr zero
  rw [archExec_of_nop (by simp [op]) (by rw [iduNormal_branch op found]),
    iduNormal_branch op found]
  simp only [Arch.hart] at reads
  simp [reads, intRes_branchCode]

theorem archExec_opImm {mem : ByteMem 32} {f : AluOp} (zero : arch.rf 0#5 = 0#32)
    (op : opcode w = typeI) (found : aluImmOp? (funct3 w) (funct7 w) = some f) :
    archExec memoryDevice arch mem w =
      ofHart (coreStep (arch.hart mem)
        (.opImm f (rd w) (rs1 w) (if f.isShift then shamt w else immI w))) arch.csrs := by
  have reads : (arch.hart mem).x = arch.rf := Hart.x_eq_gpr zero
  rw [archExec_of_nop (by simp [op]) (by rw [iduNormal_opImm op found]), iduNormal_opImm op found]
  simp only [Arch.hart] at reads
  simp [reads, intRes_opImm found]

theorem archExec_opReg {mem : ByteMem 32} {f : AluOp} (zero : arch.rf 0#5 = 0#32)
    (op : opcode w = typeR) (found : aluOp? (funct3 w) (funct7 w) = some f) :
    archExec memoryDevice arch mem w =
      ofHart (coreStep (arch.hart mem) (.opReg f (rd w) (rs1 w) (rs2 w))) arch.csrs := by
  have reads : (arch.hart mem).x = arch.rf := Hart.x_eq_gpr zero
  rw [archExec_of_nop (by simp [op]) (by rw [iduNormal_opReg op found]), iduNormal_opReg op found]
  simp only [Arch.hart] at reads
  cases f with
  | sra => simp [reads, exuCode]
  | _ => simp [reads, intRes_exuCode]

theorem archExec_load {mem : ByteMem 32} {f : LoadOp} (zero : arch.rf 0#5 = 0#32)
    (op : opcode w = typeILoad) (found : loadOp? (funct3 w) = some f)
    (aligned : Aligned (arch.rf (rs1 w) + immI w) f.size) :
    archExec memoryDevice arch mem w =
      ofHart (coreStep (arch.hart mem) (.load f (rd w) (rs1 w) (immI w))) arch.csrs := by
  have reads : (arch.hart mem).x = arch.rf := Hart.x_eq_gpr zero
  rw [archExec_of_load rfl (by simp [op]) (by rw [iduNormal_load op found]),
    iduNormal_load op found]
  simp only [Arch.hart] at reads
  simp [reads, Issue.addr, lsuRegld_readLe mem aligned]

theorem archExec_store {mem : ByteMem 32} {f : StoreOp} (zero : arch.rf 0#5 = 0#32)
    (op : opcode w = typeS) (found : storeOp? (funct3 w) = some f)
    (aligned : Aligned (arch.rf (rs1 w) + immS w) f.size) :
    archExec memoryDevice arch mem w =
      ofHart (coreStep (arch.hart mem) (.store f (rs1 w) (rs2 w) (immS w))) arch.csrs := by
  have reads : (arch.hart mem).x = arch.rf := Hart.x_eq_gpr zero
  rw [archExec_of_store rfl (by simp [op]) (by rw [iduNormal_store op found])
    (by rw [iduNormal_store op found]), iduNormal_store op found]
  simp only [Arch.hart] at reads
  simp [reads, Issue.addr, writeLanes_storeValue mem aligned]

/-- The commit of a legal word is the core's step: the manual's but for SRA and JALR. -/
theorem archExec_eq_coreStep {mem : ByteMem 32} {instr : Instr} (zero : arch.rf 0#5 = 0#32)
    (decoded : decode w = some instr) (aligned : AccessAligned (instr.access arch.rf)) :
    archExec memoryDevice arch mem w = ofHart (coreStep (arch.hart mem) instr) arch.csrs := by
  cases decode_encodes decoded with
  | lui op => exact archExec_lui zero op
  | auipc op => exact archExec_auipc op
  | jal op => exact archExec_jal op
  | jalr op _ => exact archExec_jalr zero op
  | branch op found => exact archExec_branch zero op found
  | load op found => exact archExec_load zero op found aligned
  | store op found => exact archExec_store zero op found aligned
  | opImm op found => exact archExec_opImm zero op found
  | opReg op found => exact archExec_opReg zero op found

end Issue

/-!
## Where the core takes the manual's step
-/

/-- The operands on which the core's step is the manual's. -/
def CoreExact (hart : Hart) : Instr → Prop
  | .opReg .sra rd rs1 rs2 => rd = 0#5 ∨ SraExact (hart.x rs1) (hart.x rs2)
  | .jalr _ rs1 imm => (hart.x rs1 + imm).getLsbD 0 = false
  | _ => True

theorem writeGpr_eq_iff (gpr : RegId → Word) (r : RegId) (v v' : Word) :
    writeGpr gpr r v = writeGpr gpr r v' ↔ r = 0#5 ∨ v = v' := by
  constructor
  · intro same
    have here := congrFun same r
    by_cases isZero : r = 0#5
    · exact .inl isZero
    · exact .inr (by simpa [writeGpr, isZero] using here)
  · rintro (rfl | rfl)
    · funext q
      simp [writeGpr]
    · rfl

theorem coreStep_eq_iff (hart : Hart) (instr : Instr) :
    coreStep hart instr = hart.step instr ↔ CoreExact hart instr := by
  have fields : coreStep hart instr = hart.step instr ↔
      writeBack hart.gpr instr.dest (coreWritten hart instr) =
          writeBack hart.gpr instr.dest (hart.written instr) ∧
        coreNextPc hart instr = instr.nextPc hart.pc hart.x := by
    simp [coreStep, Hart.step]
  rw [fields]
  cases instr with
  | opReg op rd rs1 rs2 =>
      cases op with
      | sra =>
          have value := intRes_eq_eval_iff .sra (hart.x rs1) (hart.x rs2)
          simp only [exuCode, forall_const] at value
          simp only [Instr.dest, coreWritten, writeBack, Hart.written, Instr.access, Instr.result,
            writeGpr_eq_iff, value, coreNextPc, CoreExact, and_true]
      | _ => simp [coreWritten, coreNextPc, CoreExact]
  | jalr rd rs1 imm =>
      simp only [coreWritten, coreNextPc, Instr.nextPc, true_and, CoreExact]
      exact eq_clear_bit_zero_iff _
  | _ => simp [coreWritten, coreNextPc, CoreExact]

/-!
## System instructions
-/

/-- The CSRs as differential testing reads them. -/
def Csrfile.view (csrs : Csrfile) : CsrSlot → Word
  | 0 => csrs.mstatus
  | 1 => csrs.mtvec
  | 2 => csrs.mepc
  | 3 => csrs.mcause

def Arch.sysHart (arch : Arch) : SysHart := ⟨arch.rf, arch.pc, arch.csrs.view⟩

section System

variable {w : Word} {arch : Arch}

theorem idu_of_sys (op : opcode w = typeSys) :
    idu w =
      { rdid := rd w
        rs1id := rs1 w
        rs2id := 0#5
        rdwen := (iduSystem w).rdwen
        imm := (iduSystem w).imm
        exuSrcSel := exuSelImm
        exuOpt := exuNop
        lsuOpt := lsuNop
        brch := false
        jal := false
        jalr := false
        sysins := true
        csrsid := csrField w
        csrsren := (iduSystem w).csrsren
        excsropt := (iduSystem w).excsropt
        excsrsrc := (iduSystem w).excsrsrc
        csrdid := csrField w
        csrdwen := (iduSystem w).csrdwen
        ecall := (idu w).ecall
        mret := (idu w).mret
        fenceI := false } := by
  unfold opcode at op
  simp [idu, op, iduSystem, rd, rs1, csrField]

/-- The CSR read of a system instruction, through the CSR numbers with a slot. -/
theorem rdata_of_slot {csrs : Csrfile} {addr : BitVec 12} {slot : CsrSlot}
    (found : csrSlot? addr = some slot) : csrs.rdata true addr = csrs.view slot := by
  rcases csrSlot?_cases found with ⟨rfl, rfl⟩ | ⟨rfl, rfl⟩ | ⟨rfl, rfl⟩ | ⟨rfl, rfl⟩ <;> rfl

theorem next_of_csr_write {csrs : Csrfile} {signals : WbuSignals} {iru : Iru} {slot : CsrSlot}
    (found : csrSlot? signals.csrdid = some slot) (wen : signals.csrdwen = true)
    (mepc : iru.mepcWen = false) (mcause : iru.mcauseWen = false) (mstatus : iru.mstatusWen = false) :
    (csrs.next true signals iru).view = setCsr csrs.view slot signals.csrd := by
  funext q
  rcases csrSlot?_cases found with ⟨addr, rfl⟩ | ⟨addr, rfl⟩ | ⟨addr, rfl⟩ | ⟨addr, rfl⟩ <;>
    fin_cases q <;>
    simp [Csrfile.next, Csrfile.view, setCsr, addr, wen, mepc, mcause, mstatus, CsrSlot.mstatus,
      CsrSlot.mtvec, CsrSlot.mepc, CsrSlot.mcause]

theorem archExec_of_sys {mem : ByteMem 32} (op : opcode w = typeSys) :
    archExec memoryDevice arch mem w = (arch.retire (arch.issue w) 0#32, mem) := by
  have opt : (arch.issue w).lsuOpt = lsuNop := by
    simp only [Arch.issue, Arch.decode]
    rw [idu_of_sys op]
  simp only [archExec, Issue.isLoad, Issue.isStore, lsuRen, lsuWen, opt]
  rfl

theorem idu_ecall :
    idu ecallWord =
      ⟨0#5, 0#5, 0#5, false, 0#32, exuSelImm, exuNop, lsuNop, false, false, false, true, 0#12,
        false, csrNop, csrSelReg, 0#12, false, true, false, false⟩ := by
  decide

theorem idu_mret :
    idu mretWord =
      ⟨0#5, 0#5, 0#5, false, 0#32, exuSelImm, exuNop, lsuNop, false, false, false, true, 0x302#12,
        false, csrNop, csrSelReg, 0x302#12, false, false, true, false⟩ := by
  decide

theorem sysHart_ecall : (arch.retire (arch.issue ecallWord) 0#32).sysHart =
    arch.sysHart.step .ecall := by
  apply SysHart.ext
  · simp only [Arch.sysHart, Arch.retire, Arch.issue, Arch.decode, idu_ecall, WbuSignals.load]
    rfl
  · simp only [Arch.sysHart, Arch.retire, Arch.issue, Arch.decode, idu_ecall]
    rfl
  · funext q
    simp only [Arch.sysHart, Arch.retire, Arch.issue, Arch.decode, idu_ecall]
    fin_cases q <;> rfl

theorem sysHart_mret : (arch.retire (arch.issue mretWord) 0#32).sysHart =
    arch.sysHart.step .mret := by
  apply SysHart.ext
  · simp only [Arch.sysHart, Arch.retire, Arch.issue, Arch.decode, idu_mret, WbuSignals.load]
    rfl
  · simp only [Arch.sysHart, Arch.retire, Arch.issue, Arch.decode, idu_mret]
    rfl
  · funext q
    simp only [Arch.sysHart, Arch.retire, Arch.issue, Arch.decode, idu_mret]
    fin_cases q <;> rfl

/-- CSRRW reads the CSR only when it has a destination, and always writes it. -/
theorem iduSystem_csrrw (f3 : funct3 w = 0b001#3) :
    iduSystem w =
      ⟨csrField w, rd w != 0#5, rs1 w, 0#32, csrRw, csrSelReg, rd w, rd w != 0#5, csrField w,
        true⟩ := by
  unfold funct3 at f3
  simp [iduSystem, f3, csrField, rs1, rd]

/-- CSRRS always reads the CSR, and writes it only when it has a source. -/
theorem iduSystem_csrrs (f3 : funct3 w = 0b010#3) :
    iduSystem w =
      ⟨csrField w, true, rs1 w, 0#32, csrRs, csrSelReg, rd w, rd w != 0#5, csrField w,
        rs1 w != 0#5⟩ := by
  unfold funct3 at f3
  simp [iduSystem, f3, csrField, rs1, rd]

theorem not_trap_of_funct3 (f3 : funct3 w ≠ 0b000#3) :
    (idu w).ecall = false ∧ (idu w).mret = false := by
  have low : funct3 w = (w.extractLsb' 7 25).extractLsb' 5 3 := by
    apply BitVec.eq_of_getLsbD_eq
    intro i bound
    simp [funct3, bound, show 5 + i < 25 by omega, ← Nat.add_assoc]
  have mid : funct3 w = (w.extractLsb' 7 14).extractLsb' 5 3 := by
    apply BitVec.eq_of_getLsbD_eq
    intro i bound
    simp [funct3, bound, show 5 + i < 14 by omega, ← Nat.add_assoc]
  constructor
  · simp only [idu, Bool.and_eq_false_imp, beq_eq_false_iff_ne]
    intro _ zero
    exact f3 (by rw [low, zero]; rfl)
  · simp only [idu, Bool.and_eq_false_imp, beq_eq_false_iff_ne]
    intro _ zero
    exact f3 (by rw [mid, zero]; rfl)

/-- The CSR instructions leave one issue: they differ in the CSR ports of the decoder. -/
theorem issue_csr_operand {s : IduSystem} (op : opcode w = typeSys) (f3 : funct3 w ≠ 0b000#3)
    (dec : iduSystem w = s) :
    arch.issue w =
      { lsuOpt := lsuNop
        regst := arch.rf 0#5
        signals :=
          let operand := if s.excsrsrc = csrSelImm then s.imm else arch.rf (rs1 w)
          ⟨false, s.rdwen, rd w, s.csrdwen, csrField w,
            muxKeyWithDefault s.excsropt 0#32
              [(csrNop, 0#32), (csrRw, arch.csrs.rdata s.csrsren (csrField w)),
               (csrRs, arch.csrs.rdata s.csrsren (csrField w)),
               (csrRc, arch.csrs.rdata s.csrsren (csrField w))],
            muxKeyWithDefault s.excsropt 0#32
              [(csrNop, 0#32), (csrRw, operand),
               (csrRs, arch.csrs.rdata s.csrsren (csrField w) ||| operand),
               (csrRc, arch.csrs.rdata s.csrsren (csrField w) &&& ~~~operand)]⟩
        iru := Iru.load arch.pc false false arch.csrs.mstatus
        pcNext := arch.pc + 4#32 } := by
  obtain ⟨ecall, mret⟩ := not_trap_of_funct3 f3
  simp only [Arch.issue, Arch.decode]
  rw [idu_of_sys op, dec, ecall, mret]
  simp [WbuSignals.load, exu, bruPcNext]

theorem issue_csr {s : IduSystem} (op : opcode w = typeSys) (f3 : funct3 w ≠ 0b000#3)
    (dec : iduSystem w = s) (src : s.excsrsrc = csrSelReg) :
    arch.issue w =
      { lsuOpt := lsuNop
        regst := arch.rf 0#5
        signals :=
          ⟨false, s.rdwen, rd w, s.csrdwen, csrField w,
            muxKeyWithDefault s.excsropt 0#32
              [(csrNop, 0#32), (csrRw, arch.csrs.rdata s.csrsren (csrField w)),
               (csrRs, arch.csrs.rdata s.csrsren (csrField w)),
               (csrRc, arch.csrs.rdata s.csrsren (csrField w))],
            muxKeyWithDefault s.excsropt 0#32
              [(csrNop, 0#32), (csrRw, arch.rf (rs1 w)),
               (csrRs, arch.csrs.rdata s.csrsren (csrField w) ||| arch.rf (rs1 w)),
               (csrRc, arch.csrs.rdata s.csrsren (csrField w) &&& ~~~arch.rf (rs1 w))]⟩
        iru := Iru.load arch.pc false false arch.csrs.mstatus
        pcNext := arch.pc + 4#32 } := by
  have reg : ¬ s.excsrsrc = csrSelImm := by
    rw [src]
    decide
  rw [issue_csr_operand op f3 dec]
  simp only [reg, if_false]

theorem sysHart_csrrw {slot : CsrSlot} (zero : arch.rf 0#5 = 0#32) (op : opcode w = typeSys)
    (f3 : funct3 w = 0b001#3) (found : csrSlot? (csrField w) = some slot) :
    (arch.retire (arch.issue w) 0#32).sysHart =
      arch.sysHart.step (.csrrw (rd w) (rs1 w) slot) := by
  rw [issue_csr op (by simp [f3]) (iduSystem_csrrw f3) rfl]
  apply SysHart.ext
  · by_cases isZero : rd w = 0#5
    · simp [Arch.sysHart, Arch.retire, SysHart.step, isZero, writeGpr_x0 zero]
    · have dest : (rd w != 0#5) = true := bne_iff_ne.mpr isZero
      simp [Arch.sysHart, Arch.retire, SysHart.step, dest, WbuSignals.rd, muxKeyWithDefault,
        Regfile.next_write, rdata_of_slot found]
  · rfl
  · change (Csrfile.next _ true _ _).view = setCsr _ _ _
    rw [next_of_csr_write found rfl rfl rfl rfl]
    simp [muxKeyWithDefault, Arch.sysHart]

theorem sysHart_csrrs {slot : CsrSlot} (zero : arch.rf 0#5 = 0#32) (op : opcode w = typeSys)
    (f3 : funct3 w = 0b010#3) (found : csrSlot? (csrField w) = some slot) :
    (arch.retire (arch.issue w) 0#32).sysHart =
      arch.sysHart.step (.csrrs (rd w) (rs1 w) slot) := by
  rw [issue_csr op (by simp [f3]) (iduSystem_csrrs f3) rfl]
  apply SysHart.ext
  · by_cases isZero : rd w = 0#5
    · simp [Arch.sysHart, Arch.retire, SysHart.step, isZero, writeGpr_x0 zero]
    · have dest : (rd w != 0#5) = true := bne_iff_ne.mpr isZero
      simp [Arch.sysHart, Arch.retire, SysHart.step, dest, WbuSignals.rd, muxKeyWithDefault,
        Regfile.next_write, rdata_of_slot found]
  · rfl
  · by_cases noSource : rs1 w = 0#5
    · simp only [Arch.sysHart, Arch.retire, SysHart.step, noSource, zero, BitVec.or_zero,
        setCsr_self]
      rw [Csrfile.next_of_no_write rfl rfl rfl rfl]
    · have source : (rs1 w != 0#5) = true := bne_iff_ne.mpr noSource
      change (Csrfile.next _ true _ _).view = setCsr _ _ _
      rw [source, next_of_csr_write found rfl rfl rfl rfl]
      simp [muxKeyWithDefault, Arch.sysHart, rdata_of_slot found]

theorem archExec_system {mem : ByteMem 32} {sys : SysInstr} (zero : arch.rf 0#5 = 0#32)
    (encodes : EncodesSys w sys) :
    (archExec memoryDevice arch mem w).1.sysHart = arch.sysHart.step sys ∧
      (archExec memoryDevice arch mem w).2 = mem := by
  rw [archExec_of_sys encodes.opcode]
  refine ⟨?_, rfl⟩
  cases encodes with
  | ecall word =>
      subst word
      exact sysHart_ecall
  | mret word =>
      subst word
      exact sysHart_mret
  | csrrw op f3 found => exact sysHart_csrrw zero op f3 found
  | csrrs op f3 found => exact sysHart_csrrs zero op f3 found

end System
end Ysyx.Npc
