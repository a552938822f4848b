import Ysyx.Difftest.Skip
import Mathlib.Tactic.SplitIfs

/-! The two skip flags delay a mark by one commit: the reference runs exactly the unmarked
instructions, from the DUT's registers, and each of them is compared at the next commit. -/

set_option autoImplicit false

namespace Ysyx.Difftest

variable {σ : Type} {library : Reference σ} {commits : Nat → Commit} {ref : σ} {n : Nat}
  {harness : Harness σ}

theorem checkregs_eq_true_iff (ref dut : Regfile) : checkregs ref dut = true ↔ ref = dut := by
  obtain ⟨x, pc, csr⟩ := ref
  obtain ⟨x', pc', csr'⟩ := dut
  simp only [checkregs, Regfile.mk.injEq]
  constructor
  · intro passed
    split_ifs at passed with diffPc diffX diffCsr
    refine ⟨funext fun i => ?_, not_not.mp diffPc, funext fun i => ?_⟩
    · simp only [List.any_eq_true, not_exists, not_and] at diffX
      simpa using diffX i (List.mem_finRange i)
    · simp only [List.any_eq_true, not_exists, not_and] at diffCsr
      simpa using diffCsr i (List.mem_finRange i)
  · rintro ⟨rfl, rfl, rfl⟩
    simp

/-- The instructions among the first `n` that the reference has to run, each with the
registers it starts from. -/
def unmarked (commits : Nat → Commit) (n : Nat) : List (Nat × Regfile) :=
  ((List.range n).filter fun k => !(commits k).marked).map fun k => (k, (commits k).dut)

/-- The harness before commit `n`. -/
structure InStep (library : Reference σ) (commits : Nat → Commit) (n : Nat)
    (harness : Harness σ) : Prop where
  clear : harness.is_skip_ref = false
  skipped : ∀ k, n = k + 1 → harness.is_skip_ref_r = (commits k).marked
  fresh : n = 0 → harness.is_skip_ref_r = false
  executed : harness.executed = unmarked commits n
  stepped : ∀ k, n = k + 1 → (commits k).marked = false →
    ∃ before, library.toDut before = (commits k).dut ∧ harness.ref = library.exec before

theorem difftestSkip_iterate (harness : Harness σ) (skips : Nat) :
    difftestSkip^[skips] harness =
      { harness with is_skip_ref := harness.is_skip_ref || decide (0 < skips) } := by
  induction skips with
  | zero => simp
  | succ skips ih =>
      rw [Function.iterate_succ_apply', ih]
      simp [difftestSkip]

theorem inStep_init (library : Reference σ) (commits : Nat → Commit) (ref : σ) :
    InStep library commits 0 (Harness.init ref) where
  clear := rfl
  skipped := fun _ later => absurd later (Nat.succ_ne_zero _).symm
  fresh := fun _ => rfl
  executed := rfl
  stepped := fun _ later => absurd later (Nat.succ_ne_zero _).symm

/-- The check passes exactly when the last instruction was marked or the registers agree, and
then the reference has the DUT's registers. -/
theorem difftestCheck_spec (library : Reference σ) (harness : Harness σ) (dut : Regfile) :
    ((difftestCheck library dut harness).1 = true ↔
        harness.is_skip_ref_r = true ∨ library.toDut harness.ref = dut) ∧
      ((difftestCheck library dut harness).1 = true →
        library.toDut (difftestCheck library dut harness).2.ref = dut) ∧
      (difftestCheck library dut harness).2.is_skip_ref = harness.is_skip_ref ∧
      (difftestCheck library dut harness).2.is_skip_ref_r = false ∧
      (difftestCheck library dut harness).2.executed = harness.executed := by
  simp only [difftestCheck]
  split_ifs with skip
  · simp [skip, library.toDut_toRef]
  · simp [skip, checkregs_eq_true_iff]

theorem unmarked_succ (commits : Nat → Commit) (n : Nat) :
    unmarked commits (n + 1) =
      unmarked commits n ++ if (commits n).marked then [] else [(n, (commits n).dut)] := by
  cases marked : (commits n).marked <;> simp [unmarked, List.range_succ, marked]

/-- One turn of the loop. -/
theorem InStep.commit (inStep : InStep library commits n harness) {next : Harness σ}
    (passed : mainCommit library n (commits n) harness = some next) :
    InStep library commits (n + 1) next := by
  obtain ⟨clear, _, _, executed, _⟩ := inStep
  simp only [mainCommit] at passed
  obtain ⟨_, same, flag, flagR, log⟩ := difftestCheck_spec library
    (difftestSkip^[(commits n).skips] harness) (commits n).dut
  split_ifs at passed with ok
  obtain rfl := Option.some.inj passed
  have copied := same ok
  have mark : (difftestCheck library (commits n).dut
      (difftestSkip^[(commits n).skips] harness)).2.is_skip_ref = (commits n).marked := by
    rw [flag, difftestSkip_iterate, clear]
    rfl
  have before : (difftestCheck library (commits n).dut
      (difftestSkip^[(commits n).skips] harness)).2.executed = unmarked commits n := by
    rw [log, difftestSkip_iterate, executed]
  generalize (difftestCheck library (commits n).dut
    (difftestSkip^[(commits n).skips] harness)).2 = checked at *
  cases marked : (commits n).marked with
  | true =>
      rw [marked] at mark
      refine ⟨?_, ?_, ?_, ?_, ?_⟩
      · simp [difftestStep, mark]
      · rintro k later
        obtain rfl := Nat.succ.inj later
        simp [difftestStep, mark, marked]
      · intro zero
        exact absurd zero (Nat.succ_ne_zero n)
      · simp [difftestStep, mark, before, unmarked_succ, marked]
      · rintro k later unmarked
        obtain rfl := Nat.succ.inj later
        exact absurd (marked.symm.trans unmarked) (by decide)
  | false =>
      rw [marked] at mark
      refine ⟨?_, ?_, ?_, ?_, ?_⟩
      · simp [difftestStep, mark]
      · rintro k later
        obtain rfl := Nat.succ.inj later
        simp [difftestStep, mark, marked, flagR]
      · intro zero
        exact absurd zero (Nat.succ_ne_zero n)
      · simp [difftestStep, mark, before, unmarked_succ, marked, copied]
      · rintro k later _
        obtain rfl := Nat.succ.inj later
        exact ⟨checked.ref, copied, by simp [difftestStep, mark]⟩

theorem inStep_run (reached : mainRun library commits ref n = some harness) :
    InStep library commits n harness := by
  induction n generalizing harness with
  | zero =>
      obtain rfl := Option.some.inj reached
      exact inStep_init library commits ref
  | succ n ih =>
      obtain ⟨before, earlier, passed⟩ := Option.bind_eq_some_iff.mp reached
      exact (ih earlier).commit passed

theorem mainCommit_eq_none_iff (commit : Commit) :
    mainCommit library n commit harness = none ↔
      harness.is_skip_ref_r = false ∧ library.toDut harness.ref ≠ commit.dut := by
  obtain ⟨passes, _⟩ := difftestCheck_spec library
    (difftestSkip^[commit.skips] harness) commit.dut
  rw [difftestSkip_iterate] at passes
  simp only [mainCommit]
  rw [difftestSkip_iterate]
  split_ifs with ok
  · have cause := passes.mp ok
    simp only [false_iff, not_and, not_not]
    intro flagR
    exact cause.resolve_left (by simp [flagR])
  · simp only [true_iff]
    rw [passes] at ok
    simpa using ok

/-- When all checks before commit `n` have passed, the reference has run exactly the unmarked
instructions, each from the DUT's registers. If instruction `n` is unmarked the next check
compares the two states after it, and reports any difference whatever mark comes next; if it is
marked the next check puts the DUT's registers into the reference. -/
theorem difftest_in_step (library : Reference σ) (commits : Nat → Commit) (ref : σ) (n : Nat)
    (harness : Harness σ) (reached : mainRun library commits ref n = some harness) :
    harness.executed = unmarked commits n ∧
    ∀ k, n = k + 1 →
      ((commits k).marked = false →
        (∃ before, library.toDut before = (commits k).dut ∧ harness.ref = library.exec before) ∧
        (mainRun library commits ref (n + 1) = none ↔
          library.toDut harness.ref ≠ (commits n).dut)) ∧
      ((commits k).marked = true →
        difftestCheck library (commits n).dut harness =
            (true, { harness with
              ref := library.toRef (commits n).dut harness.ref, is_skip_ref_r := false }) ∧
        mainRun library commits ref (n + 1) ≠ none) := by
  have inStep := inStep_run reached
  have next : mainRun library commits ref (n + 1) = mainCommit library n (commits n) harness := by
    rw [mainRun, reached]
    rfl
  refine ⟨inStep.executed, fun k later => ⟨fun unmarked => ?_, fun marked => ?_⟩⟩
  · have flagR := (inStep.skipped k later).trans unmarked
    refine ⟨inStep.stepped k later unmarked, ?_⟩
    rw [next, mainCommit_eq_none_iff]
    simp [flagR]
  · have flagR := (inStep.skipped k later).trans marked
    refine ⟨by simp [difftestCheck, flagR], ?_⟩
    rw [next, Ne, mainCommit_eq_none_iff]
    simp [flagR]

/-- A reference whose every instruction is a `nop`, and the DUT running `nop`s, the second of
them marked twice. -/
def nopReference : Reference (Regfile × Nat) where
  exec := fun s => ({ s.1 with pc := s.1.pc + 4#32 }, s.2 + 1)
  toDut := (·.1)
  toRef := fun regs s => (regs, s.2)
  toDut_toRef := fun _ _ => rfl

def nops (n : Nat) : Commit where
  skips := if n = 1 then 2 else 0
  dut := ⟨fun _ => 0#32, 0x30000000#32 + 4#32 * BitVec.ofNat 32 n, fun _ => 0#32⟩

theorem difftest_in_step_nops :
    ∃ harness, mainRun nopReference nops ((nops 0).dut, 0) 3 = some harness ∧
      harness.executed = [(0, (nops 0).dut), (2, (nops 2).dut)] :=
  ⟨_, rfl, (difftest_in_step nopReference nops ((nops 0).dut, 0) 3 _ rfl).1⟩

end Ysyx.Difftest
