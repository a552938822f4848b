import Mathlib.Logic.Function.Basic
import Mathlib.Logic.Relation
import Ysyx.Am.Trap

/-! Any number of contexts that yield to each other on one hart: what each of them does between
two traps, what the user handler does, and what a context has to find when it resumes. -/

set_option autoImplicit false

namespace Ysyx.Am

open Rv32 (Word RegId CsrSlot)
open Lib (ByteMem)
open Lib.ByteMem (InBlock)

/-- The stack pointer of the interrupted code minus the size of the context. -/
def Machine.context (machine : Machine) : Word :=
  machine.gpr sp - BitVec.ofNat 32 sizeofContext

/-- What a context that does not run was doing: at an `ecall`, or not started yet. -/
inductive Parked where
  | yielded (gpr : RegId → Word) (pc mstatus : Word)
  | fresh (entry arg kstackEnd : Word)

/-- The hart on which the context goes on. -/
def Parked.Resumed : Parked → Machine → Prop
  | .yielded gpr pc mstatus, machine =>
      machine.gpr = gpr ∧ machine.pc = pc + 4#32 ∧ machine.csr CsrSlot.mstatus = mstatus
  | .fresh entry arg kstackEnd, machine =>
      machine.pc = entry ∧ machine.gpr a0 = arg ∧ machine.gpr sp = kstackEnd ∧
        machine.csr CsrSlot.mstatus = 0x1800#32

/-- The contexts of `ι`: one runs, others are parked behind a pointer to their `Context`. -/
structure System (ι : Type) where
  machine : Machine
  current : ι
  parked : ι → Option (Word × Parked)

variable {ι : Type} [DecidableEq ι]

namespace System

/-- The address belongs to the saved `Context` of a parked context. -/
def Occupied (system : System ι) (addr : Word) : Prop :=
  ∃ j c parked, system.parked j = some (c, parked) ∧ InBlock c sizeofContext addr

/-- The contexts that the handler may return when the running one yields; it is one of them. -/
def waiting (system : System ι) : ι → Option (Word × Parked) :=
  Function.update system.parked system.current
    (some (system.machine.context,
      .yielded system.machine.gpr system.machine.pc (system.machine.csr CsrSlot.mstatus)))

/-- After `cte_init`, with nothing parked. -/
def Booted (place : Placement) (system : System ι) : Prop :=
  system.machine.csr CsrSlot.mtvec = place.amAsmTrap ∧ ∀ j, system.parked j = none

/-- At a yield the handler returns the context at `c` and keeps its hands off every saved
`Context`, the new one included. -/
structure Switches (system : System ι) (userHandler : UserHandler) (c : Word) : Prop where
  result : ∀ mem, (userHandler .yield system.machine.context mem).1 = c
  keeps : ∀ mem addr, system.Occupied addr ∨ InBlock system.machine.context sizeofContext addr →
    (userHandler .yield system.machine.context mem).2 addr = mem addr

/-- The `ecall` of the running context, up to the `mret` to the context that runs next. -/
inductive Yields (place : Placement) (system : System ι) : System ι → Prop where
  | intro {userHandler : UserHandler} {next : ι} {c : Word} {parked : Parked} {resumed : Machine} :
      (∀ addr, InBlock system.machine.context sizeofContext addr → ¬ system.Occupied addr) →
      system.waiting next = some (c, parked) →
      system.Switches userHandler c →
      Traps place (some userHandler) system.machine resumed →
      Yields place system ⟨resumed, next, Function.update system.waiting next none⟩

/-- A step: the running context runs on, creates a context on a stack of its own, or yields. -/
inductive Step (place : Placement) (system : System ι) : System ι → Prop where
  | run {machine : Machine} :
      machine.csr CsrSlot.mtvec = system.machine.csr CsrSlot.mtvec →
      (∀ addr, system.Occupied addr → machine.mem addr = system.machine.mem addr) →
      Step place system { system with machine := machine }
  | kcontext {j : ι} {kstackEnd entry arg c : Word} {mem : ByteMem 32} :
      system.parked j = none → j ≠ system.current →
      Am.kcontext system.machine.mem kstackEnd entry arg = (c, mem) →
      (∀ addr, InBlock c sizeofContext addr → ¬ system.Occupied addr) →
      Step place system
        { system with
          machine := { system.machine with mem := mem }
          parked := Function.update system.parked j (some (c, .fresh entry arg kstackEnd)) }
  | yield {after : System ι} : system.Yields place after → Step place system after

/-- Any number of steps. -/
abbrev Reaches (place : Placement) : System ι → System ι → Prop :=
  Relation.ReflTransGen (Step place)

end System

end Ysyx.Am
