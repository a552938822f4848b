import Mathlib.Logic.Function.Iterate
import Mathlib.Data.List.FinRange

/-! The simulator's side of difftest: at every commit of the DUT the state after the
instruction before is checked, and the reference takes its step, unless the instruction
was marked to be skipped. -/

set_option autoImplicit false

namespace Ysyx.Difftest

structure Regfile where
  x : Fin 32 → BitVec 32
  pc : BitVec 32
  csr : Fin 4 → BitVec 32

/-- `true` when the loops over the registers and the CSRs find no difference. -/
def checkregs (ref dut : Regfile) : Bool :=
  if ref.pc ≠ dut.pc then false else
  if (List.finRange 32).any fun i => ref.x i != dut.x i then false else
  if (List.finRange 4).any fun i => ref.csr i != dut.csr i then false else true

/-- The functions of the reference's library that the harness calls: one step, and the two
directions of `difftest_regcpy`. What is copied in can be copied out. -/
structure Reference (σ : Type) where
  exec : σ → σ
  toDut : σ → Regfile
  toRef : Regfile → σ → σ
  toDut_toRef : ∀ regs s, toDut (toRef regs s) = regs

/-- The globals of `difftest.cpp`; `executed` records each step of the reference: at which
commit and from which registers. -/
structure Harness (σ : Type) where
  is_skip_ref : Bool
  is_skip_ref_r : Bool
  ref : σ
  executed : List (Nat × Regfile)

variable {σ : Type}

/-- `difftest_init` has copied the program and the registers into the reference. -/
def Harness.init (ref : σ) : Harness σ := ⟨false, false, ref, []⟩

/-- Called by the peripherals through the DPI. -/
def difftestSkip (harness : Harness σ) : Harness σ := { harness with is_skip_ref := true }

def difftestCheck (library : Reference σ) (dut : Regfile) (harness : Harness σ) :
    Bool × Harness σ :=
  if harness.is_skip_ref_r then
    (true, { harness with ref := library.toRef dut harness.ref, is_skip_ref_r := false })
  else (checkregs (library.toDut harness.ref) dut, harness)

def difftestStep (library : Reference σ) (n : Nat) (harness : Harness σ) : Harness σ :=
  if harness.is_skip_ref then { harness with is_skip_ref_r := true, is_skip_ref := false }
  else
    { harness with
      ref := library.exec harness.ref
      executed := harness.executed ++ [(n, library.toDut harness.ref)] }

/-- What leads to one commit: the calls of `difftest_skip` since the last one, and the
registers of the DUT, which the committing instruction has not changed yet. -/
structure Commit where
  skips : Nat
  dut : Regfile

def Commit.marked (commit : Commit) : Bool := 0 < commit.skips

/-- The body of the loop of `main` at commit `n`; it leaves the loop when the check fails. -/
def mainCommit (library : Reference σ) (n : Nat) (commit : Commit) (harness : Harness σ) :
    Option (Harness σ) :=
  let (same, checked) := difftestCheck library commit.dut (difftestSkip^[commit.skips] harness)
  if same then some (difftestStep library n checked) else none

/-- The first `n` commits, as long as every check passes. -/
def mainRun (library : Reference σ) (commits : Nat → Commit) (ref : σ) : Nat → Option (Harness σ)
  | 0 => some (Harness.init ref)
  | n + 1 => (mainRun library commits ref n).bind (mainCommit library n (commits n))

end Ysyx.Difftest
