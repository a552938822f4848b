import Ysyx.Npc.ZicsrProperties
import Ysyx.Rv32.NextPc

/-! The next pc of the core: where it is the manual's, and that it stays even as
long as no JALR and no CSR write brings in an odd value. -/

set_option autoImplicit false

namespace Ysyx.Npc

open Rv32
open Lib (Machine)

/-!
## One commit
-/

/-- The next pc the core computes: it leaves bit 0 of a JALR target and takes the
trap CSRs as they are. -/
def coreFlowPc (arch : Arch) : Flow → Word
  | .base (.jalr _ rs1 imm) => arch.rf rs1 + imm
  | flow => flow.nextPc id arch.pc arch.rf arch.csrs.named

section Commit

variable {w : Word} {arch : Arch}

theorem pcNext_base {instr : Instr} (decoded : decode w = some instr) :
    (arch.issue w).pcNext = coreFlowPc arch (.base instr) := by
  cases decode_encodes decoded with
  | lui op | auipc op | jal op | jalr op _ | load op _ | store op _ | opImm op _ | opReg op _ =>
      rw [issue_of_not_sys (by simp [op])]
      unfold opcode at op
      simp [normalIssue, iduNormal, regInfo, op, coreFlowPc, Flow.nextPc, Instr.nextPc, rs1,
        ← immI_eq, ← immJ_eq]
  | branch op found =>
      rw [issue_of_not_sys (by simp [op]), iduNormal_branch op found]
      simp [normalIssue, operands, intRes_branchCode, coreFlowPc, Flow.nextPc, Instr.nextPc]

theorem pcNext_csr {instr : CsrInstr} (decoded : decodeCsr w = some instr) :
    (arch.issue w).pcNext =
      match instr with
      | .access _ _ _ _ => arch.pc + 4#32
      | .ecall => arch.csrs.mtvec
      | .mret => arch.csrs.mepc := by
  cases decodeCsr_encodes decoded with
  | ecall word =>
      subst word
      simp only [Arch.issue, Arch.decode, idu_ecall]
      rfl
  | mret word =>
      subst word
      simp only [Arch.issue, Arch.decode, idu_mret]
      rfl
  | access sys isOp _ =>
      rw [issue_csr_operand sys (funct3_ne_zero_of_csrOp isOp) (iduSystem_of_csrOp isOp)]

theorem pcNext_fence (fence : isFence w = true) : (arch.issue w).pcNext = arch.pc + 4#32 := by
  have op : opcode w = typeFence := by
    simp only [isFence, Bool.and_eq_true, beq_iff_eq] at fence
    exact fence.1
  rw [issue_of_not_sys (by simp [op])]
  unfold opcode at op
  simp [normalIssue, iduNormal, op]

theorem pcNext_flow {flow : Flow} (decoded : decodeFlow w = some flow) :
    (arch.issue w).pcNext = coreFlowPc arch flow := by
  unfold decodeFlow at decoded
  split at decoded
  · cases decoded
    exact pcNext_base ‹_›
  · cases decoded
    exact pcNext_csr ‹_›
  · cases decoded
    exact pcNext_csr ‹_›
  · cases decoded
    exact pcNext_csr ‹_›
  · split_ifs at decoded with fence
    cases decoded
    exact pcNext_fence fence

/-- A JALR has an even target. -/
def JalrEven (arch : Arch) : Flow → Prop
  | .base (.jalr _ rs1 imm) => (arch.rf rs1 + imm).getLsbD 0 = false
  | _ => True

/-- ECALL and MRET find a word address in their CSR. -/
def TrapAligned (arch : Arch) : Flow → Prop
  | .ecall => arch.csrs.mtvec.getLsbD 0 = false ∧ arch.csrs.mtvec.getLsbD 1 = false
  | .mret => arch.csrs.mepc.getLsbD 0 = false ∧ arch.csrs.mepc.getLsbD 1 = false
  | _ => True

theorem eq_wordPart_iff (a : Word) :
    a = wordPart a ↔ a.getLsbD 0 = false ∧ a.getLsbD 1 = false := by
  have three : ∀ i : Nat, i < 32 → (3#32).getLsbD i = decide (i < 2) := by decide
  constructor
  · intro same
    rw [same, wordPart]
    simp
  · rintro ⟨zeroth, first⟩
    apply BitVec.eq_of_getLsbD_eq
    intro i bound
    rw [wordPart, BitVec.getLsbD_and, BitVec.getLsbD_not, three i bound]
    rcases Nat.lt_or_ge i 2 with low | high
    · obtain rfl | rfl : i = 0 ∨ i = 1 := by omega
      · rw [zeroth, Bool.false_and]
      · rw [first, Bool.false_and]
    · simp [bound, Nat.not_lt.mpr high]

/-- The core's next pc is the manual's exactly when JALR needs no masking, and ECALL and MRET
need none either if the manual masks their CSR. -/
theorem coreFlowPc_iff (arch : Arch) (flow : Flow) :
    (coreFlowPc arch flow = flow.nextPc id arch.pc arch.rf arch.csrs.named ↔
        JalrEven arch flow) ∧
      (coreFlowPc arch flow = flow.nextPc wordPart arch.pc arch.rf arch.csrs.named ↔
        JalrEven arch flow ∧ TrapAligned arch flow) := by
  cases flow with
  | base instr =>
      cases instr with
      | jalr rd rs1 imm =>
          have masked := eq_clear_bit_zero_iff (arch.rf rs1 + imm)
          exact ⟨masked, fun same => ⟨masked.mp same, trivial⟩, fun even => masked.mpr even.1⟩
      | _ => simp [coreFlowPc, Flow.nextPc, Instr.nextPc, JalrEven, TrapAligned]
  | next => simp [coreFlowPc, Flow.nextPc, JalrEven, TrapAligned]
  | ecall =>
      have vector := eq_wordPart_iff arch.csrs.mtvec
      simpa [coreFlowPc, Flow.nextPc, JalrEven, TrapAligned, Csrfile.named] using vector
  | mret =>
      have back := eq_wordPart_iff arch.csrs.mepc
      simpa [coreFlowPc, Flow.nextPc, JalrEven, TrapAligned, Csrfile.named] using back

/-!
## Even addresses
-/

theorem even_add {a b : Word} (left : a.getLsbD 0 = false) (right : b.getLsbD 0 = false) :
    (a + b).getLsbD 0 = false := by
  rw [BitVec.getLsbD_add (by decide), left, right]
  simp

/-- The offsets of branches and jumps are even by their encoding. -/
theorem imm_even {w : Word} (op : opcode w = typeB ∨ opcode w = typeJ) :
    (iduNormal w).imm.getLsbD 0 = false := by
  unfold opcode at op
  rcases op with op | op
  · have imm : (iduNormal w).imm = immB w := by
      simp [iduNormal, regInfo, op, ← immB_eq]
    rw [imm, immB, BitVec.getLsbD_signExtend]
    simp only [BitVec.getLsbD_append]
    rfl
  · have imm : (iduNormal w).imm = immJ w := by
      simp [iduNormal, regInfo, op, ← immJ_eq]
    rw [imm, immJ, BitVec.getLsbD_signExtend]
    simp only [BitVec.getLsbD_append]
    rfl

/-- Where the next pc of any word comes from. -/
theorem pcNext_cases (w : Word) (arch : Arch) :
    (arch.issue w).pcNext = arch.csrs.mtvec ∨ (arch.issue w).pcNext = arch.csrs.mepc ∨
      (∃ offset : Word, offset.getLsbD 0 = false ∧ (arch.issue w).pcNext = arch.pc + offset) ∨
      (opcode w = typeIJalr ∧ (arch.issue w).pcNext = arch.rf (rs1 w) + immI w) := by
  by_cases sys : opcode w = typeSys
  · simp only [Arch.issue, Arch.decode]
    rw [idu_of_sys sys]
    simp only [bruPcNext, Bool.false_eq_true, if_false, Bool.false_and, Bool.or_false]
    split_ifs with trap ecall mret
    · exact .inl rfl
    · exact .inr (.inl rfl)
    · simp_all
    · exact .inr (.inr (.inl ⟨4#32, by decide, rfl⟩))
  · rw [issue_of_not_sys sys]
    simp only [normalIssue]
    split_ifs with jump jalr
    · have op : opcode w = typeB ∨ opcode w = typeJ := by
        simp only [iduNormal, Bool.or_eq_true, Bool.and_eq_true, beq_iff_eq] at jump
        exact jump.imp_left And.left
      exact .inr (.inr (.inl ⟨_, imm_even op, rfl⟩))
    · have op : opcode w = typeIJalr := by
        simp only [iduNormal, beq_iff_eq] at jalr
        exact jalr
      rw [iduNormal_jalr op]
      exact .inr (.inr (.inr ⟨op, rfl⟩))
    · exact .inr (.inr (.inl ⟨4#32, by decide, rfl⟩))

theorem eq_ecallWord_of_ecall (ecall : (idu w).ecall = true) : w = ecallWord := by
  simp only [idu, Bool.and_eq_true, beq_iff_eq] at ecall
  obtain ⟨op, high⟩ := ecall
  have opNat := congrArg BitVec.toNat op
  have highNat := congrArg BitVec.toNat high
  have bound := w.isLt
  simp only [BitVec.extractLsb'_toNat, Nat.shiftRight_eq_div_pow] at opNat highNat
  apply BitVec.eq_of_toNat_eq
  simp at opNat highNat ⊢
  omega

theorem eq_mretWord_of_mret (mret : (idu w).mret = true) : w = mretWord := by
  simp only [idu, Bool.and_eq_true, beq_iff_eq] at mret
  obtain ⟨⟨⟨⟨⟨op, f1⟩, f2⟩, f3⟩, f4⟩, f5⟩ := mret
  have opNat := congrArg BitVec.toNat op
  have n1 := congrArg BitVec.toNat f1
  have n2 := congrArg BitVec.toNat f2
  have n3 := congrArg BitVec.toNat f3
  have n5 := congrArg BitVec.toNat f5
  have n4 : w.toNat / 2 ^ 21 % 2 = 1 := by
    simpa [BitVec.getLsbD, Nat.testBit_eq_decide_div_mod_eq] using f4
  have bound := w.isLt
  simp only [BitVec.extractLsb'_toNat, Nat.shiftRight_eq_div_pow] at opNat n1 n2 n3 n5
  apply BitVec.eq_of_toNat_eq
  simp at opNat n1 n2 n3 n4 n5 ⊢
  omega

theorem csrdwen_of_no_csrOp (noOp : csrOp? ((funct3 w).extractLsb' 0 2) = none) :
    (iduSystem w).csrdwen = false := by
  have f3 : ∀ f : BitVec 3, csrOp? (f.extractLsb' 0 2) = none → f = 0b000#3 ∨ f = 0b100#3 := by
    decide
  rcases f3 _ noOp with f3 | f3 <;> unfold funct3 at f3 <;> simp [iduSystem, f3]

/-- A write to no CSR of the core changes none. -/
theorem next_of_no_name {csrs : Csrfile} {signals : WbuSignals} {iru : Iru}
    (other : csrName? signals.csrdid = none) (mepc : iru.mepcWen = false)
    (mcause : iru.mcauseWen = false) (mstatus : iru.mstatusWen = false) :
    csrs.next true signals iru = csrs := by
  unfold csrName? at other
  split_ifs at other
  simp_all [Csrfile.next]

/-- A word that is neither a CSR instruction nor a trap leaves the CSRs. -/
theorem retire_csrs_of_none (decoded : decodeCsr w = none) (rdata : Word) :
    (arch.retire (arch.issue w) rdata).csrs = arch.csrs := by
  by_cases sys : opcode w = typeSys
  · have notEcall : w ≠ ecallWord := by
      rintro rfl
      simp [decodeCsr] at decoded
    have notMret : w ≠ mretWord := by
      rintro rfl
      simp [decodeCsr] at decoded
    have op : opcode w = 0b1110011#7 := sys
    rw [decodeCsr, if_neg notEcall, if_neg notMret, if_pos op] at decoded
    cases isOp : csrOp? ((funct3 w).extractLsb' 0 2) with
    | none =>
        have ecall : (idu w).ecall = false :=
          Bool.eq_false_iff.mpr fun is => notEcall (eq_ecallWord_of_ecall is)
        have mret : (idu w).mret = false :=
          Bool.eq_false_iff.mpr fun is => notMret (eq_mretWord_of_mret is)
        simp only [Arch.retire, Arch.issue, Arch.decode]
        rw [idu_of_sys sys, ecall, mret, csrdwen_of_no_csrOp isOp]
        exact Csrfile.next_of_no_write rfl rfl rfl rfl
    | some f =>
        rw [isOp] at decoded
        have other : csrName? (csrField w) = none := by
          cases name : csrName? (csrField w) with
          | none => rfl
          | some csr => simp [name] at decoded
        rw [issue_csr_operand sys (funct3_ne_zero_of_csrOp isOp) (iduSystem_of_csrOp isOp)]
        exact next_of_no_name other rfl rfl rfl
  · rw [issue_of_not_sys sys, retire_normalIssue]

/-- What is even in every state of the runs below. -/
structure EvenPc (arch : Arch) : Prop where
  pc : arch.pc.getLsbD 0 = false
  mtvec : arch.csrs.mtvec.getLsbD 0 = false
  mepc : arch.csrs.mepc.getLsbD 0 = false

/-- The word does not bring an odd value into the pc, `mtvec` or `mepc`. -/
structure BringsEven (arch : Arch) (w : Word) : Prop where
  jalr : opcode w = typeIJalr → (arch.rf (rs1 w) + immI w).getLsbD 0 = false
  csr : ∀ op rd source csr, decodeCsr w = some (.access op rd source csr) →
    csr = .mtvec ∨ csr = .mepc → op.writes source = true →
    (op.eval (arch.csrs.named csr) (source.value arch.rf)).getLsbD 0 = false

theorem EvenPc.retire (even : EvenPc arch) (brings : BringsEven arch w) (rdata : Word) :
    EvenPc (arch.retire (arch.issue w) rdata) := by
  have trap : ∀ csr, csr = .mtvec ∨ csr = .mepc →
      ((arch.retire (arch.issue w) rdata).csrs.named csr).getLsbD 0 = false := by
    have before : ∀ csr, csr = CsrName.mtvec ∨ csr = .mepc →
        (arch.csrs.named csr).getLsbD 0 = false := by
      rintro csr (rfl | rfl)
      · exact even.mtvec
      · exact even.mepc
    intro csr kind
    cases decoded : decodeCsr w with
    | none =>
        rw [retire_csrs_of_none decoded]
        exact before csr kind
    | some instr =>
        have step := congrFun (congrArg CsrHart.csr (@retire_csr w arch instr decoded rdata)) csr
        simp only [Arch.csrHart] at step
        rw [step]
        cases instr with
        | mret => exact before csr kind
        | ecall =>
            rcases kind with rfl | rfl
            · exact even.mtvec
            · exact even.pc
        | access op rd source written =>
            simp only [CsrHart.step]
            split_ifs with writes
            · by_cases same : csr = written
              · subst same
                rw [Function.update_self]
                exact brings.csr op rd source csr decoded kind (Bool.and_eq_true_iff.mp writes).1
              · rw [Function.update_of_ne same]
                exact before csr kind
            · exact before csr kind
  refine ⟨?_, trap .mtvec (.inl rfl), trap .mepc (.inr rfl)⟩
  change (arch.issue w).pcNext.getLsbD 0 = false
  rcases pcNext_cases w arch with same | same | ⟨offset, low, same⟩ | ⟨op, same⟩ <;> rw [same]
  · exact even.mtvec
  · exact even.mepc
  · exact even_add even.pc low
  · exact brings.jalr op

end Commit

/-!
## Every commit, and every run
-/

/-- When `pc` is what the manual says of `flow`: first with the trap CSRs taken as they are,
then with the low two bits masked. -/
def NextPcLaw (arch : Arch) (flow : Flow) (pc : Word) : Prop :=
  (pc = flow.nextPc id arch.pc arch.rf arch.csrs.named ↔ JalrEven arch flow) ∧
    (pc = flow.nextPc wordPart arch.pc arch.rf arch.csrs.named ↔
      JalrEven arch flow ∧ TrapAligned arch flow)

theorem nextPcLaw_retire {w : Word} {flow : Flow} (decoded : decodeFlow w = some flow)
    (arch : Arch) (rdata : Word) :
    NextPcLaw arch flow (arch.retire (arch.issue w) rdata).pc := by
  change NextPcLaw arch flow (arch.issue w).pcNext
  rw [pcNext_flow decoded]
  exact coreFlowPc_iff arch flow

theorem evenPc_reset (build : Build) (rf : Regfile) : EvenPc (Core.reset build rf).arch := by
  have zero : (0#32).getLsbD 0 = false := by decide
  have pc : ∀ build, (resetPc build).getLsbD 0 = false := by
    rintro (_ | _) <;> decide
  exact ⟨pc build, zero, zero⟩

section Run

variable {σ : Type}

theorem run_evenPc (dev : Device σ) (choices : Nat → Choice) (build : Build) (rf : Regfile)
    (mem : σ) (n : Nat) :
    let sys := (machine dev).run choices 0 (System.reset build rf mem)
    (∀ k, k < n → (sys k).core.lsuValid ((sys k).lsuBus (choices k)) = true →
      BringsEven (sys k).core.arch (sys k).core.ifu.instr) →
    EvenPc (sys n).core.arch := by
  intro sys brings
  induction n with
  | zero => exact evenPc_reset build rf
  | succ n ih =>
      have before := ih fun k early => brings k (by omega)
      obtain ⟨stays, retires⟩ := run_commit dev choices build rf mem n
      cases valid : (sys n).core.lsuValid ((sys n).lsuBus (choices n)) with
      | false =>
          have same : (sys (n + 1)).core.arch = (sys n).core.arch := stays valid
          rwa [same]
      | true =>
          obtain ⟨rdata, step⟩ := retires valid
          have after : (sys (n + 1)).core.arch = (sys n).core.arch.retire
              ((sys n).core.arch.issue (sys n).core.ifu.instr) rdata := step
          rw [after]
          exact before.retire (brings n (Nat.lt_succ_self n) valid) rdata

/-- A fetch asks for the word at the pc. -/
theorem fetch_address (dev : Device σ) (choices : Nat → Choice) (build : Build) (rf : Regfile)
    (mem : σ) (n : Nat) {ar : AxiAddr} :
    let sys := (machine dev).run choices 0 (System.reset build rf mem) n
    Event.ifuAr ar ∈ sys.out (choices n) → ar.addr = sys.core.bru.pc := by
  intro sys shown
  obtain ⟨tx, at_, _⟩ := run_at dev choices build rf mem n
  have pc : sys.core.bru.pc = tx.arch.pc := congrArg Arch.pc at_.arch
  have out : sys.out (choices n) = tx.out (choices n) := at_.out
  rw [out] at shown
  rw [pc]
  obtain ⟨arch, now, phase⟩ := tx
  cases phase with
  | fetchAddr =>
      simp only [Tx.out] at shown
      split_ifs at shown with accept
      · obtain rfl := Event.ifuAr.inj (List.mem_singleton.mp shown)
        rfl
      · cases shown
  | storeReq _ _ _ =>
      simp only [Tx.out] at shown
      split_ifs at shown <;> simp at shown
  | loadAddr _ =>
      simp only [Tx.out] at shown
      split_ifs at shown <;> simp at shown
  | _ => simp [Tx.out] at shown

end Run

/-- The next pc is the manual's exactly when a JALR target is even (and, for a manual that
masks them, `mtvec` and `mepc` are word addresses); and as long as no JALR target and no
value written to `mtvec` or `mepc` is odd, every fetch address is even. The operands come from
the register file, x0 included: from one released with zero there, they are the manual's. -/
theorem next_pc_iff {w : Word} {flow : Flow} (decoded : decodeFlow w = some flow)
    (arch : Arch) (rdata : Word) :
    NextPcLaw arch flow (arch.retire (arch.issue w) rdata).pc ∧
    ∀ (σ : Type) (dev : Device σ) (choices : Nat → Choice) (build : Build) (rf : Regfile)
      (mem : σ) (n : Nat),
      let sys := (machine dev).run choices 0 (System.reset build rf mem)
      let commits := fun k => (sys k).core.lsuValid ((sys k).lsuBus (choices k)) = true
      (∀ taken, commits n → decodeFlow (sys n).core.ifu.instr = some taken →
        NextPcLaw (sys n).core.arch taken (sys (n + 1)).core.bru.pc) ∧
      (rf 0#5 = 0#32 → readGpr (sys n).core.rf = (sys n).core.rf) ∧
      ((∀ k, k < n → commits k →
          BringsEven (sys k).core.arch (sys k).core.ifu.instr) →
        (sys n).core.bru.pc.getLsbD 0 = false ∧
          ∀ ar, Event.ifuAr ar ∈ (sys n).out (choices n) → ar.addr.getLsbD 0 = false) := by
  refine ⟨nextPcLaw_retire decoded arch rdata, ?_⟩
  intro σ dev choices build rf mem n sys commits
  refine ⟨?_, fun zero => readGpr_eq (run_x0 dev choices build mem zero n), ?_⟩
  · intro taken valid fetched
    obtain ⟨read, step⟩ := (run_commit dev choices build rf mem n).2 valid
    have after : (sys (n + 1)).core.bru.pc = ((sys n).core.arch.retire
        ((sys n).core.arch.issue (sys n).core.ifu.instr) read).pc := congrArg Arch.pc step
    rw [after]
    exact nextPcLaw_retire fetched _ read
  · intro brings
    have even : (sys n).core.bru.pc.getLsbD 0 = false :=
      (run_evenPc dev choices build rf mem n brings).pc
    refine ⟨even, fun ar shown => ?_⟩
    rw [fetch_address dev choices build rf mem n shown]
    exact even

/-- `jalr x0, 0(x1)` with an even and with an odd register. -/
theorem next_pc_jalr_even :
    let arch : Arch := ⟨fun _ => 0x30000010#32, 0x30000000#32, Csrfile.reset⟩
    (arch.retire (arch.issue 0x00008067#32) 0#32).pc = 0x30000010#32 :=
  ((@next_pc_iff 0x00008067#32 (.base (.jalr 0#5 1#5 0#32)) (by decide)
    ⟨fun _ => 0x30000010#32, 0x30000000#32, Csrfile.reset⟩ 0#32).1.1.mpr rfl).trans (by decide)

theorem next_pc_jalr_odd_fails :
    ¬ ∀ (arch : Arch) (w rdata : Word) (flow : Flow), decodeFlow w = some flow →
      (arch.retire (arch.issue w) rdata).pc =
        flow.nextPc id arch.pc arch.rf arch.csrs.named := by
  intro always
  have wrong := always ⟨fun _ => 0x30000011#32, 0x30000000#32, Csrfile.reset⟩ 0x00008067#32 0#32
    (.base (.jalr 0#5 1#5 0#32)) (by decide)
  revert wrong
  decide

end Ysyx.Npc
