import Ysyx.Difftest.Lockstep
import Ysyx.Difftest.SkipProperties
import Ysyx.Npc.CoreProperties

/-! The simulator as a whole: the core clock by clock, its bus with a memory and peripherals,
and `difftest.cpp` with NEMU as its reference, which skips what the peripherals take part in. -/

set_option autoImplicit false

namespace Ysyx.Difftest

open Rv32 (Word)
open Lib (ByteMem Machine)
open Npc (Arch AxiAddr Device System Core Choice Fair Tx Event archStep archExec memoryDevice)
open Nemu (execOnce)

/-!
## The two sides
-/

/-- `difftest_exec(1)` and the two directions of `difftest_regcpy` in NEMU's `ref.c`. A fault
stops NEMU where it is. -/
def nemuReference (cfg : Nemu.Config) : Reference Nemu.State where
  exec ref :=
    match execOnce cfg ref with
    | .ok next => next
    | .error _ => ref
  toDut ref := ⟨fun i => ref.cpu.gpr (.ofFin i), ref.cpu.pc, ref.cpu.csr⟩
  toRef regs ref := { ref with cpu := ⟨fun r => regs.x r.toFin, regs.pc, regs.csr⟩ }
  toDut_toRef _ _ := rfl

/-- `pack_dut_regfile`. -/
def packDutRegfile (arch : Arch) : Regfile :=
  ⟨fun i => arch.rf (.ofFin i), arch.pc, arch.csrs.view⟩

variable {π : Type}

/-- A bus with a memory, and with peripherals at the addresses of `io`. -/
def busDevice (io : Word → Bool) (peripherals : Device π) : Device (ByteMem 32 × π) where
  read state ar :=
    if io ar.addr then
      let (data, next) := peripherals.read state.2 ar
      (data, state.1, next)
    else
      let (data, mem) := memoryDevice.read state.1 ar
      (data, mem, state.2)
  write state aw wdata wstrb :=
    if io aw.addr then (state.1, peripherals.write state.2 aw wdata wstrb)
    else (memoryDevice.write state.1 aw wdata wstrb, state.2)

/-- The registers and the memory, without the peripherals. -/
def dutOf (state : Arch × ByteMem 32 × π) : Dut := (state.1, state.2.1)

/-- The instruction that the state executes next. -/
def dutInstr (dut : Dut) : Word := (memoryDevice.read dut.2 dut.1.fetch).1

/-- The instruction goes to a peripheral, which then calls `difftest_skip`. -/
def accessesIo (io : Word → Bool) (dut : Dut) : Bool :=
  let issue := dut.1.issue (dutInstr dut)
  (issue.isLoad || issue.isStore) && io issue.addr

section Step

variable {io : Word → Bool} {peripherals : Device π} {state : Arch × ByteMem 32 × π}

theorem busDevice_fetch (memory : io state.1.pc = false) :
    (busDevice io peripherals).read state.2 state.1.fetch =
      (dutInstr (dutOf state), state.2.1, state.2.2) := by
  rw [busDevice]
  simp only [Arch.fetch, AxiAddr.single, memory]
  rfl

/-- Without a peripheral the bus is the memory. -/
theorem dutOf_archStep (memory : io state.1.pc = false)
    (plain : accessesIo io (dutOf state) = false) :
    dutOf (archStep (busDevice io peripherals) state) = archStep memoryDevice (dutOf state) := by
  have fetched : memoryDevice.read (dutOf state).2 (dutOf state).1.fetch =
      (dutInstr (dutOf state), state.2.1) := rfl
  rw [archStep, busDevice_fetch memory, archStep, fetched]
  simp only [archExec]
  simp only [accessesIo] at plain
  generalize issued : (dutOf state).1.issue (dutInstr (dutOf state)) = issue at plain ⊢
  have same : state.1.issue (dutInstr (dutOf state)) = issue := issued
  rw [same]
  cases load : issue.isLoad with
  | true =>
      have notIo : io issue.addr = false := by simpa [load] using plain
      simp [busDevice, Npc.Issue.ar, AxiAddr.single, notIo, dutOf]
  | false =>
      cases store : issue.isStore with
      | true =>
          have notIo : io issue.addr = false := by simpa [store] using plain
          simp [busDevice, Npc.Issue.aw, AxiAddr.single, notIo, dutOf]
      | false => simp [dutOf]

/-- A peripheral leaves the memory alone. -/
theorem archStep_io_mem (memory : io state.1.pc = false)
    (goes : accessesIo io (dutOf state) = true) :
    (archStep (busDevice io peripherals) state).2.1 = state.2.1 := by
  rw [archStep, busDevice_fetch memory]
  simp only [archExec]
  simp only [accessesIo] at goes
  generalize issued : (dutOf state).1.issue (dutInstr (dutOf state)) = issue at goes ⊢
  have same : state.1.issue (dutInstr (dutOf state)) = issue := issued
  rw [same]
  cases load : issue.isLoad with
  | true =>
      have isIo : io issue.addr = true := by simpa [load] using goes
      simp [busDevice, Npc.Issue.ar, AxiAddr.single, isIo]
  | false =>
      cases store : issue.isStore with
      | true =>
          have isIo : io issue.addr = true := by simpa [load, store] using goes
          simp [busDevice, Npc.Issue.aw, AxiAddr.single, isIo]
      | false => simp [load, store] at goes

/-- `$zero` stays zero in the core. -/
theorem archStep_zero {σ : Type} (dev : Device σ) {state : Arch × σ}
    (zero : state.1.rf 0#5 = 0#32) : (archStep dev state).1.rf 0#5 = 0#32 := by
  have kept (issue : Npc.Issue) (rdata : Word) : (state.1.retire issue rdata).rf 0#5 = 0#32 := by
    simp only [Arch.retire, Npc.Regfile.next]
    split
    · exact Rv32.writeGpr_zero zero _ _
    · exact zero
  simp only [archStep, archExec]
  split_ifs <;> exact kept _ _

end Step

/-!
## The harness
-/

section Harness

variable {cfg : Nemu.Config} {io : Word → Bool} {peripherals : Device π}
  {state : Arch × ByteMem 32 × π} {harness : Harness Nemu.State}

/-- A program that the comparison is about: it fetches from memory, and what does not go to a
peripheral is a step that the reference takes like the core. -/
structure Conforms (cfg : Nemu.Config) (io : Word → Bool) (dut : Dut) : Prop where
  fetches : io dut.1.pc = false
  meets : accessesIo io dut = false → ∀ ref, Agrees cfg dut ref → Meets cfg ref

/-- The harness when the core commits the instruction of `dut`. -/
structure Follows (cfg : Nemu.Config) (dut : Dut) (harness : Harness Nemu.State) : Prop where
  clear : harness.is_skip_ref = false
  mem : dut.2 = Nemu.guestView cfg.build harness.ref.mem
  regs : harness.is_skip_ref_r = false → Agrees cfg dut harness.ref

theorem Agrees.packed {dut : Dut} {ref : Nemu.State} (agrees : Agrees cfg dut ref) :
    (nemuReference cfg).toDut ref = packDutRegfile dut.1 := by
  rw [nemuReference, packDutRegfile, agrees.gpr, agrees.pc, agrees.csr]

/-- The check passes, and then the reference is in the state of the core. -/
theorem Follows.check {dut : Dut} (follows : Follows cfg dut harness) (skips : Nat) :
    ∃ checked,
      difftestCheck (nemuReference cfg) (packDutRegfile dut.1) (difftestSkip^[skips] harness) =
        (true, checked) ∧
      checked.is_skip_ref = decide (0 < skips) ∧ checked.is_skip_ref_r = false ∧
      Agrees cfg dut checked.ref := by
  rw [difftestSkip_iterate, follows.clear, Bool.false_or, difftestCheck]
  dsimp only
  cases skipped : harness.is_skip_ref_r with
  | true => exact ⟨_, rfl, rfl, rfl, ⟨rfl, rfl, rfl, follows.mem⟩⟩
  | false =>
      have agrees := follows.regs skipped
      refine ⟨_, Prod.ext ?_ rfl, rfl, rfl, agrees⟩
      exact (checkregs_eq_true_iff _ _).mpr agrees.packed

/-- One commit: the check passes, and the harness follows to the next instruction. -/
theorem Follows.commit (follows : Follows cfg (dutOf state) harness)
    (zero : state.1.rf 0#5 = 0#32) (conforms : Conforms cfg io (dutOf state)) {skips : Nat}
    (marks : 0 < skips ↔ accessesIo io (dutOf state) = true) (n : Nat) :
    ∃ next, mainCommit (nemuReference cfg) n ⟨skips, packDutRegfile state.1⟩ harness =
        some next ∧
      Follows cfg (dutOf (archStep (busDevice io peripherals) state)) next := by
  obtain ⟨checked, passes, flag, flagR, agrees⟩ := follows.check skips
  refine ⟨difftestStep (nemuReference cfg) n checked, ?_, ?_⟩
  · have passes' : difftestCheck (nemuReference cfg) (packDutRegfile state.1)
        (difftestSkip^[skips] harness) = (true, checked) := passes
    rw [mainCommit, passes']
    rfl
  · cases goes : accessesIo io (dutOf state) with
    | true =>
        rw [decide_eq_true (marks.mpr goes)] at flag
        rw [difftestStep, if_pos flag]
        refine ⟨rfl, ?_, fun not_ => by cases not_⟩
        rw [dutOf, archStep_io_mem conforms.fetches goes]
        exact agrees.mem
    | false =>
        have unmarked : ¬ 0 < skips := fun positive => by
          rw [marks.mp positive] at goes
          cases goes
        rw [decide_eq_false unmarked] at flag
        rw [difftestStep, if_neg (by simp [flag])]
        have refZero : checked.ref.cpu.gpr 0#5 = 0#32 := by
          rw [← agrees.gpr]
          exact zero
        obtain ⟨next, executed, after, _⟩ :=
          step_agrees agrees refZero (conforms.meets goes checked.ref agrees)
        rw [dutOf_archStep conforms.fetches goes]
        have stepped : (nemuReference cfg).exec checked.ref = next := by
          simp only [nemuReference, executed]
        rw [stepped]
        exact ⟨flag, after.mem, fun _ => after⟩

end Harness

/-!
## The core under any bus
-/

section Core

variable {choices : Nat → Choice}

/-- The cycles at which the instructions of the core start: its state is the architecture's
from one to the next, and the commit pulse is in the last cycle before the next. -/
theorem exists_starts {σ : Type} (fair : Fair choices) (dev : Device σ) (build : Npc.Build)
    (rf : Npc.Regfile) (mem : σ) :
    let sys := (Npc.machine dev).run choices 0 (System.reset build rf mem)
    ∃ start : Nat → Nat, start 0 = 0 ∧ StrictMono start ∧
      ∀ n t, start n ≤ t → t < start (n + 1) →
        (sys t).core.arch = ((archStep dev)^[n] ((Core.reset build rf).arch, mem)).1 ∧
          (Event.commit ∈ (sys t).out (choices t) ↔ t + 1 = start (n + 1)) := by
  intro sys
  have related : ∀ t, Npc.At (sys t)
      ((Npc.txMachine dev).run choices 0 (Tx.reset build rf mem) t) :=
    (Npc.simulates dev).run (Npc.at_reset build rf mem) choices 0
  obtain ⟨start, zero, mono, windows⟩ := @Machine.exists_marks
    (fun n t => (Npc.txMachine dev).run choices 0 (Tx.reset build rf mem) t =
      ⟨((archStep dev)^[n] ((Core.reset build rf).arch, mem)).1,
        ((archStep dev)^[n] ((Core.reset build rf).arch, mem)).2, .start⟩)
    (fun n t u => Npc.Window dev choices ((archStep dev)^[n] ((Core.reset build rf).arch, mem)) t u)
    rfl (by
      intro n t mark
      obtain ⟨u, window⟩ := Npc.exists_window dev fair
        ((archStep dev)^[n] ((Core.reset build rf).arch, mem)) t
      have split : u = t + (u - t) := by have := window.later; omega
      refine ⟨u, window.later, ?_, window⟩
      rw [split, Machine.run_add, Nat.zero_add, mark, window.next]
      simp only [Function.iterate_succ_apply'])
  refine ⟨start, zero, mono, fun n t after before => ?_⟩
  obtain ⟨mark, window⟩ := windows n
  obtain ⟨k, rfl⟩ := Nat.exists_eq_add_of_le after
  obtain ⟨same, pulse⟩ := window.during k before
  rw [(related _).arch, (related _).out, Machine.run_add, mark, Nat.zero_add]
  exact ⟨same, pulse⟩

/-- However the bus delays its answers: when the program conforms for its first `n`
instructions, and `difftest_skip` is called for those that go to a peripheral and for no
others, the comparison at each of their commits and at the one after them passes. -/
theorem difftest_passes (fair : Fair choices) {build : Npc.Build} {rf : Npc.Regfile}
    (zero : rf 0#5 = 0#32) (io : Word → Bool) (peripherals : Device π) {mem : ByteMem 32} (p : π)
    {cfg : Nemu.Config} {ref : Nemu.State}
    (agrees : Agrees cfg ((Core.reset build rf).arch, mem) ref) (skips : Nat → Nat) (n : Nat)
    (conforms : ∀ k < n, Conforms cfg io (dutOf ((archStep (busDevice io peripherals))^[k]
      ((Core.reset build rf).arch, mem, p))))
    (marks : ∀ k < n, 0 < skips k ↔ accessesIo io (dutOf ((archStep (busDevice io peripherals))^[k]
      ((Core.reset build rf).arch, mem, p))) = true) :
    let sys := (Npc.machine (busDevice io peripherals)).run choices 0
      (System.reset build rf (mem, p))
    ∃ start : Nat → Nat, start 0 = 0 ∧ StrictMono start ∧
      (∀ k t, start k ≤ t → t < start (k + 1) →
        (Event.commit ∈ (sys t).out (choices t) ↔ t + 1 = start (k + 1))) ∧
      (mainRun (nemuReference cfg)
        (fun k => ⟨skips k, packDutRegfile (sys (start (k + 1) - 1)).core.arch⟩) ref
        (n + 1)).isSome = true := by
  intro sys
  obtain ⟨start, first, mono, windows⟩ :=
    exists_starts fair (busDevice io peripherals) build rf (mem, p)
  refine ⟨start, first, mono, fun k t after before => (windows k t after before).2, ?_⟩
  generalize stateEq : (fun k => (archStep (busDevice io peripherals))^[k]
    ((Core.reset build rf).arch, mem, p)) = state
  have step (k : Nat) : state (k + 1) = archStep (busDevice io peripherals) (state k) := by
    rw [← stateEq]
    exact Function.iterate_succ_apply' _ _ _
  have conforms' (k : Nat) (bound : k < n) : Conforms cfg io (dutOf (state k)) :=
    stateEq ▸ conforms k bound
  have marks' (k : Nat) (bound : k < n) :
      0 < skips k ↔ accessesIo io (dutOf (state k)) = true := stateEq ▸ marks k bound
  have zeros (k : Nat) : (state k).1.rf 0#5 = 0#32 := by
    induction k with
    | zero =>
        rw [← stateEq]
        exact zero
    | succ k ih =>
        rw [step]
        exact archStep_zero _ ih
  have committed (k : Nat) : (sys (start (k + 1) - 1)).core.arch = (state k).1 := by
    have later : start k < start (k + 1) := mono (Nat.lt_succ_self k)
    rw [← stateEq]
    exact (windows k (start (k + 1) - 1) (by omega) (by omega)).1
  have follows (k : Nat) (bound : k ≤ n) : ∃ harness,
      mainRun (nemuReference cfg)
        (fun k => ⟨skips k, packDutRegfile (sys (start (k + 1) - 1)).core.arch⟩) ref k =
        some harness ∧ Follows cfg (dutOf (state k)) harness := by
    induction k with
    | zero =>
        refine ⟨_, rfl, rfl, ?_, fun _ => ?_⟩
        · rw [← stateEq]
          exact agrees.mem
        · rw [← stateEq]
          exact agrees
    | succ k ih =>
        obtain ⟨harness, reached, follows⟩ := ih (Nat.le_of_succ_le bound)
        obtain ⟨next, passed, follows'⟩ :=
          follows.commit (zeros k) (conforms' k bound) (marks' k bound) k
        refine ⟨next, ?_, step k ▸ follows'⟩
        rw [mainRun, reached, Option.bind_some, committed k]
        exact passed
  obtain ⟨harness, reached, follows⟩ := follows n (Nat.le_refl n)
  obtain ⟨checked, passes, _⟩ := follows.check (skips n)
  rw [mainRun, reached, Option.bind_some, committed n, mainCommit]
  have passes' : difftestCheck (nemuReference cfg) (packDutRegfile (state n).1)
      (difftestSkip^[skips n] harness) = (true, checked) := passes
  rw [passes']
  rfl

/-- `lui x1, 0x10000` and `lbu x2, 0(x1)`: a load from a peripheral. -/
def uartRef : Nemu.State where
  cpu := { gpr := fun _ => 0#32, pc := 0x80000000#32, csr := fun _ => 0#32 }
  mem := fun _ j => [0xb7#8, 0x00#8, 0x00#8, 0x10#8, 0x03#8, 0xc1#8, 0x00#8, 0x00#8].getD j 0#8

def uartIo (addr : Word) : Bool := addr.toNat / 0x1000 == 0x10000

def uartDevice : Device Unit := ⟨fun p _ => (0x61#32, p), fun p _ _ _ => p⟩

def uartDut (k : Nat) : Dut :=
  dutOf ((archStep (busDevice uartIo uartDevice))^[k]
    ((Core.reset .npc fun _ => 0#32).arch, Nemu.guestView .share uartRef.mem, ()))

theorem agrees_uart : Agrees ⟨.share, true⟩ (uartDut 0) uartRef where
  gpr := rfl
  pc := rfl
  csr := by
    funext slot
    fin_cases slot <;> rfl
  mem := rfl

theorem conforms_uart : ∀ k < 2, Conforms ⟨.share, true⟩ uartIo (uartDut k)
  | 0, _ => by
      refine ⟨by decide +kernel, fun _ ref agrees => ?_⟩
      have pc : ref.cpu.pc = 0x80000000#32 := agrees.pc.symm
      have word : fetched ⟨.share, true⟩ ref = 0x100000b7#32 := by
        rw [fetched, ← agrees.mem, pc]
        decide +kernel
      have decoded : Rv32.decode 0x100000b7#32 = some (.lui 1#5 0x10000000#32) := by decide
      refine ⟨by rw [pc]; rfl, ⟨.pmem, 0, by rw [pc]; rfl, by decide⟩, ?_, ?_⟩
      · rw [word]
        exact .base decoded trivial trivial
      · intro instr is
        rw [word, decoded] at is
        obtain rfl := Option.some.inj is
        exact trivial
  | 1, _ => ⟨by decide +kernel, fun plain => absurd plain (by decide +kernel)⟩

theorem difftest_passes_uart : ∃ start : Nat → Nat, StrictMono start ∧
    (mainRun (nemuReference ⟨.share, true⟩)
      (fun k => ⟨if k = 1 then 1 else 0, packDutRegfile
        ((Npc.machine (busDevice uartIo uartDevice)).run (fun _ => .prompt) 0
          (System.reset .npc (fun _ => 0#32) (Nemu.guestView .share uartRef.mem, ()))
          (start (k + 1) - 1)).core.arch⟩) uartRef 3).isSome = true := by
  have marks : ∀ k < 2, 0 < (if k = 1 then 1 else 0) ↔ accessesIo uartIo (uartDut k) = true
    | 0, _ => by decide +kernel
    | 1, _ => by decide +kernel
  obtain ⟨start, _, mono, _, passes⟩ :=
    difftest_passes Npc.fair_prompt rfl uartIo uartDevice () agrees_uart
      (fun k => if k = 1 then 1 else 0) 2 conforms_uart marks
  exact ⟨start, mono, passes⟩

end Core

end Ysyx.Difftest
