import Ysyx.Npc.CommitProperties
import Ysyx.Nemu.SystemProperties

/-! Differential testing: the core and its reference execute the same program,
one commit against one `exec_once`, and are compared after each. -/

set_option autoImplicit false

namespace Ysyx.Difftest

open Rv32
open Lib (ByteMem)
open Npc (Arch archExec archStep memoryDevice CoreExact AccessAligned Aligned)
open Nemu (guestView Backed AccessBacked execWord execOnce vaddrIfetch)

/-- The device under test: the architectural state at a commit and its memory. -/
abbrev Dut := Arch × ByteMem 32

/-- What the comparison looks at: registers, pc, CSRs, and the guest's memory. -/
structure Agrees (cfg : Nemu.Config) (dut : Dut) (ref : Nemu.State) : Prop where
  gpr : dut.1.rf = ref.cpu.gpr
  pc : dut.1.pc = ref.cpu.pc
  csr : dut.1.csrs.view = ref.cpu.csr
  mem : dut.2 = guestView cfg.build ref.mem

/-- The words both sides are meant to execute, in a state where they may be. -/
inductive Legal (cfg : Nemu.Config) (ref : Nemu.State) (w : Word) : Prop where
  | base {instr : Instr} (decoded : decode w = some instr)
      (aligned : AccessAligned (instr.access ref.cpu.gpr))
      (backed : AccessBacked cfg.build (instr.access ref.cpu.gpr))
  | system {sys : SysInstr} (decoded : decodeSys w = some sys)

/-- One commit and one `decode_exec` of the same word end in agreement. -/
def StepAgrees (cfg : Nemu.Config) (dut : Dut) (ref : Nemu.State) (w : Word) : Prop :=
  ∃ next, execWord cfg w ref = .ok next ∧ Agrees cfg (archExec memoryDevice dut.1 dut.2 w) next

/-- The word is not one on whose operands the core leaves the manual. -/
def Exact (cfg : Nemu.Config) (ref : Nemu.State) (w : Word) : Prop :=
  ∀ instr, decode w = some instr → CoreExact (ref.hart cfg.build ref.cpu.pc) instr

section Step

variable {cfg : Nemu.Config} {dut : Dut} {ref : Nemu.State} {w : Word}

theorem Agrees.hart (agrees : Agrees cfg dut ref) :
    dut.1.hart dut.2 = ref.hart cfg.build ref.cpu.pc := by
  apply Hart.ext
  · exact agrees.gpr
  · exact agrees.pc
  · exact agrees.mem

theorem Agrees.sysHart (agrees : Agrees cfg dut ref) :
    dut.1.sysHart = ref.sysHart ref.cpu.pc := by
  apply SysHart.ext
  · exact agrees.gpr
  · exact agrees.pc
  · exact agrees.csr

theorem decode_of_sys {sys : SysInstr} (decoded : decodeSys w = some sys) : decode w = none := by
  have op := (decodeSys_encodes decoded).opcode
  simp [decode, op]

/-- NEMU takes the manual's step, so agreement is the core taking it. -/
theorem stepAgrees_base_iff {instr : Instr} (agrees : Agrees cfg dut ref)
    (zero : ref.cpu.gpr 0#5 = 0#32) (decoded : decode w = some instr)
    (aligned : AccessAligned (instr.access ref.cpu.gpr))
    (backed : AccessBacked cfg.build (instr.access ref.cpu.gpr)) :
    StepAgrees cfg dut ref w ↔ CoreExact (ref.hart cfg.build ref.cpu.pc) instr := by
  obtain ⟨next, done, run, implements⟩ : Nemu.Executes cfg w ref.cpu.pc ref instr :=
    Nemu.executes_of_encodes zero (decode_encodes decoded) backed
  have executed : execWord cfg w ref = .ok { done with cpu := { done.cpu with pc := next } } := by
    simp only [execWord, run]
    rfl
  have dutZero : dut.1.rf 0#5 = 0#32 := by rw [agrees.gpr, zero]
  have committed : archExec memoryDevice dut.1 dut.2 w =
      Npc.ofHart (Npc.coreStep (ref.hart cfg.build ref.cpu.pc) instr) dut.1.csrs := by
    rw [Npc.archExec_eq_coreStep dutZero decoded (by rw [agrees.gpr]; exact aligned), agrees.hart]
  rw [← Npc.coreStep_eq_iff, ← implements.hart, StepAgrees, executed, committed]
  constructor
  · rintro ⟨_, same, after⟩
    obtain rfl := Except.ok.inj same
    exact Hart.ext after.gpr after.pc after.mem
  · intro same
    refine ⟨_, rfl, ?_⟩
    rw [same]
    exact ⟨rfl, rfl, agrees.csr.trans implements.csr.symm, rfl⟩

theorem stepAgrees_system {sys : SysInstr} (agrees : Agrees cfg dut ref)
    (zero : ref.cpu.gpr 0#5 = 0#32) (decoded : decodeSys w = some sys) :
    StepAgrees cfg dut ref w := by
  have encodes := decodeSys_encodes decoded
  have dutZero : dut.1.rf 0#5 = 0#32 := by rw [agrees.gpr, zero]
  obtain ⟨next, done, run, sysHart, mem⟩ :
      ∃ next done, Nemu.decodeExec cfg w ref.cpu.pc (ref.cpu.pc + 4#32) ref = .ok (next, done) ∧
        done.sysHart next = (ref.sysHart ref.cpu.pc).step sys ∧ done.mem = ref.mem :=
    Nemu.decodeExec_system zero encodes
  obtain ⟨dutHart, dutMem⟩ :
      (archExec memoryDevice dut.1 dut.2 w).1.sysHart = dut.1.sysHart.step sys ∧
        (archExec memoryDevice dut.1 dut.2 w).2 = dut.2 := Npc.archExec_system dutZero encodes
  rw [agrees.sysHart, ← sysHart] at dutHart
  refine ⟨{ done with cpu := { done.cpu with pc := next } }, ?_, ?_⟩
  · simp only [execWord, run]
    rfl
  · exact ⟨congrArg SysHart.gpr dutHart, congrArg SysHart.pc dutHart, congrArg SysHart.csr dutHart,
      by rw [dutMem, agrees.mem, mem]⟩

theorem stepAgrees_iff (agrees : Agrees cfg dut ref) (zero : ref.cpu.gpr 0#5 = 0#32)
    (legal : Legal cfg ref w) : StepAgrees cfg dut ref w ↔ Exact cfg ref w := by
  cases legal with
  | @base instr decoded aligned backed =>
      rw [stepAgrees_base_iff agrees zero decoded aligned backed]
      constructor
      · intro exact_ other same
        obtain rfl := Option.some.inj (decoded.symm.trans same)
        exact exact_
      · intro exact_
        exact exact_ instr decoded
  | system decoded =>
      refine iff_of_true (stepAgrees_system agrees zero decoded) ?_
      intro instr base
      rw [decode_of_sys decoded] at base
      cases base

/-- `$zero` is zero after every word the reference executes. -/
theorem execWord_zero {next : Nemu.State} (executed : execWord cfg w ref = .ok next) :
    next.cpu.gpr 0#5 = 0#32 := by
  simp only [execWord] at executed
  cases run : Nemu.decodeExec cfg w ref.cpu.pc (ref.cpu.pc + 4#32) ref with
  | error fault =>
      rw [run] at executed
      cases executed
  | ok done =>
      rw [run] at executed
      obtain rfl := Except.ok.inj executed
      exact Nemu.decodeExec_zero run

end Step

/-!
## Runs
-/

def dutRun : Nat → Dut → Dut
  | 0, dut => dut
  | n + 1, dut => dutRun n (archStep memoryDevice dut)

def refRun (cfg : Nemu.Config) : Nat → Nemu.State → Except Nemu.Fault Nemu.State
  | 0, ref => .ok ref
  | n + 1, ref => (execOnce cfg ref).bind (refRun cfg n)

/-- The word that the reference fetches next. -/
def fetched (cfg : Nemu.Config) (ref : Nemu.State) : Word :=
  (guestView cfg.build ref.mem).readLe ref.cpu.pc 4

/-- The reference is at an aligned address in its memory, at a legal word on whose operands the
core follows the manual. -/
structure Meets (cfg : Nemu.Config) (ref : Nemu.State) : Prop where
  pcAligned : Aligned ref.cpu.pc 4
  pcBacked : Backed cfg.build ref.cpu.pc 4
  legal : Legal cfg ref (fetched cfg ref)
  exact_ : Exact cfg ref (fetched cfg ref)

section Run

variable {cfg : Nemu.Config}

theorem wordBase_of_aligned {addr : Word} (aligned : Aligned addr 4) :
    ByteMem.wordBase addr = addr := by
  apply BitVec.eq_of_toNat_eq
  unfold Aligned at aligned
  rw [ByteMem.toNat_wordBase, aligned, Nat.sub_zero]

/-- Both sides fetch the same word, and then agree after it. -/
theorem step_agrees {dut : Dut} {ref : Nemu.State} (agrees : Agrees cfg dut ref)
    (zero : ref.cpu.gpr 0#5 = 0#32) (meets : Meets cfg ref) :
    ∃ next, execOnce cfg ref = .ok next ∧ Agrees cfg (archStep memoryDevice dut) next ∧
      next.cpu.gpr 0#5 = 0#32 := by
  obtain ⟨next, executed, after⟩ := (stepAgrees_iff agrees zero meets.legal).mpr meets.exact_
  have fetch : vaddrIfetch cfg ref.mem ref.cpu.pc 4 = .ok (fetched cfg ref) :=
    Nemu.paddrRead_of_backed rfl meets.pcBacked
  have committed : archStep memoryDevice dut =
      archExec memoryDevice dut.1 dut.2 (fetched cfg ref) := by
    simp only [archStep, memoryDevice, Arch.fetch, Npc.AxiAddr.single, agrees.pc,
      wordBase_of_aligned meets.pcAligned, agrees.mem, fetched]
  refine ⟨next, ?_, by rw [committed]; exact after, execWord_zero executed⟩
  rw [execOnce, fetch]
  exact executed

theorem run_agrees {n : Nat} {dut : Dut} {ref : Nemu.State} (agrees : Agrees cfg dut ref)
    (zero : ref.cpu.gpr 0#5 = 0#32)
    (meets : ∀ k < n, ∀ refk, refRun cfg k ref = .ok refk → Meets cfg refk) :
    ∃ refn, refRun cfg n ref = .ok refn ∧ Agrees cfg (dutRun n dut) refn := by
  induction n generalizing dut ref with
  | zero => exact ⟨ref, rfl, agrees⟩
  | succ n ih =>
      obtain ⟨next, executed, after, nextZero⟩ :=
        step_agrees agrees zero (meets 0 (Nat.succ_pos n) ref rfl)
      have later : ∀ k < n, ∀ refk, refRun cfg k next = .ok refk → Meets cfg refk := by
        intro k bound refk reached
        apply meets (k + 1) (Nat.succ_lt_succ bound) refk
        rw [refRun, executed]
        exact reached
      obtain ⟨refn, reached, agreed⟩ := ih after nextZero later
      refine ⟨refn, ?_, agreed⟩
      rw [refRun, executed]
      exact reached

end Run

/-- Lock step: on a legal word the two sides agree exactly on the operands where
the core takes the manual's step, and a run of such steps never differs. -/
theorem lockstep (cfg : Nemu.Config) (dut : Dut) (ref : Nemu.State) (agrees : Agrees cfg dut ref)
    (zero : ref.cpu.gpr 0#5 = 0#32) :
    (∀ w, Legal cfg ref w → (StepAgrees cfg dut ref w ↔ Exact cfg ref w)) ∧
      ∀ n, (∀ k < n, ∀ refk, refRun cfg k ref = .ok refk → Meets cfg refk) →
        ∃ refn, refRun cfg n ref = .ok refn ∧ Agrees cfg (dutRun n dut) refn :=
  ⟨fun _ legal => stepAgrees_iff agrees zero legal, fun _ meets => run_agrees agrees zero meets⟩

/-- A reference at the reset vector with `ra` odd, and a device under test in its state. -/
def oddRef : Nemu.State where
  cpu :=
    { gpr := fun r => if r = 1#5 then 0x80000001#32 else 0#32
      pc := 0x80000000#32
      csr := fun _ => 0#32 }
  mem := fun _ _ => 0#8

def oddDut : Dut :=
  ({ rf := oddRef.cpu.gpr, pc := oddRef.cpu.pc, csrs := Npc.Csrfile.reset },
    guestView .share oddRef.mem)

theorem agrees_odd : Agrees ⟨.share, true⟩ oddDut oddRef where
  gpr := rfl
  pc := rfl
  csr := by
    funext slot
    fin_cases slot <;> rfl
  mem := rfl

theorem lockstep_odd :
    (∀ w, Legal ⟨.share, true⟩ oddRef w →
        (StepAgrees ⟨.share, true⟩ oddDut oddRef w ↔ Exact ⟨.share, true⟩ oddRef w)) ∧
      ∀ n, (∀ k < n, ∀ refk, refRun ⟨.share, true⟩ k oddRef = .ok refk →
          Meets ⟨.share, true⟩ refk) →
        ∃ refn, refRun ⟨.share, true⟩ n oddRef = .ok refn ∧
          Agrees ⟨.share, true⟩ (dutRun n oddDut) refn :=
  lockstep _ _ _ agrees_odd rfl

/-- `ret` with an odd `ra`: NEMU clears bit 0 of the target, `bru.v` does not. -/
theorem lockstep_jalr_differs :
    ¬ ∀ (cfg : Nemu.Config) (dut : Dut) (ref : Nemu.State) (w : Word), Agrees cfg dut ref →
      ref.cpu.gpr 0#5 = 0#32 → Legal cfg ref w → StepAgrees cfg dut ref w := by
  intro always
  have decoded : decode 0x00008067#32 = some (.jalr 0#5 1#5 0#32) := by decide
  have agreed := always _ _ _ _ agrees_odd rfl (.base decoded trivial trivial)
  have even : (0x80000001#32 + 0#32).getLsbD 0 = false :=
    (stepAgrees_base_iff agrees_odd rfl decoded trivial trivial).mp agreed
  exact absurd even (by decide)

end Ysyx.Difftest
