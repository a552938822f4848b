import Ysyx.Am.Contexts

/-! What the trap entry saves, what its exit restores, and that the two and the C side agree on
the places of the members. -/

set_option autoImplicit false

namespace Ysyx.Am

open Rv32 (Word RegId Instr SysInstr CsrSlot Hart SysHart writeGpr setCsr)
open Lib (ByteMem)
open Lib.ByteMem (InBlock)

/-!
## Single instructions
-/

theorem exec_append (machine : Machine) (ops ops' : List Op) :
    machine.exec (ops ++ ops') = (machine.exec ops).exec ops' := List.foldl_append

theorem exec_cons (machine : Machine) (op : Op) (ops : List Op) :
    machine.exec (op :: ops) = (machine.step op).exec ops := rfl

theorem exec_nil (machine : Machine) : machine.exec [] = machine := rfl

theorem hart_x (machine : Machine) : machine.hart.x = machine.gpr := Hart.x_eq_gpr machine.x0

theorem writeGpr_of_ne (gpr : RegId → Word) {r q : RegId} (value : Word) (apart : q ≠ r) :
    writeGpr gpr r value q = gpr q := if_neg apart

theorem writeGpr_same (gpr : RegId → Word) {r : RegId} (value : Word) (written : r ≠ 0#5) :
    writeGpr gpr r value r = value := by
  rw [writeGpr, if_pos rfl, if_neg written]

/-- A register write and the next instruction. -/
def Machine.write (machine : Machine) (rd : RegId) (value : Word) : Machine :=
  { machine with
    gpr := writeGpr machine.gpr rd value
    x0 := Rv32.writeGpr_zero machine.x0 rd value
    pc := machine.pc + 4#32 }

section Steps

variable (machine : Machine)

theorem step_store (rs2 rs1 : RegId) (offset : Nat) :
    machine.step (store rs2 offset rs1) =
      { machine with
        pc := machine.pc + 4#32
        mem := machine.mem.writeLe (machine.gpr rs1 + BitVec.ofNat 32 offset) 4
          (machine.gpr rs2) } := by
  have read := hart_x machine
  cases machine
  simp only [Machine.step, store, Hart.step, Instr.access, Instr.dest, Instr.nextPc, read]
  rfl

theorem step_load (rd rs1 : RegId) (offset : Nat) :
    machine.step (load rd offset rs1) =
      machine.write rd (machine.mem.readLe (machine.gpr rs1 + BitVec.ofNat 32 offset) 4) := by
  have read := hart_x machine
  simp only [Machine.step, load, Hart.step, Hart.written, Instr.access, Instr.dest,
    Instr.nextPc, read]
  rfl

theorem step_addi (rd rs1 : RegId) (imm : Int) :
    machine.step (addi rd rs1 imm) =
      machine.write rd (machine.gpr rs1 + BitVec.ofInt 32 imm) := by
  have read := hart_x machine
  simp only [Machine.step, addi, Hart.step, Hart.written, Instr.access, Instr.dest, Instr.result,
    Instr.nextPc, read]
  rfl

theorem step_csrr (rd : RegId) (slot : CsrSlot) :
    machine.step (csrr rd slot) = machine.write rd (machine.csr slot) := by
  have same : setCsr machine.csr slot (machine.csr slot ||| machine.gpr 0#5) = machine.csr := by
    rw [machine.x0, BitVec.or_zero, Rv32.setCsr_self]
  ext
  case csr => exact congrFun same _ ▸ rfl
  all_goals rfl

theorem step_csrw (slot : CsrSlot) (rs1 : RegId) :
    machine.step (csrw slot rs1) =
      { machine with
        pc := machine.pc + 4#32
        csr := setCsr machine.csr slot (machine.gpr rs1) } := by
  ext
  case gpr => exact congrFun (Rv32.writeGpr_x0 machine.x0 _) _ ▸ rfl
  all_goals rfl

end Steps

/-!
## Members
-/

section Members

variable (mem : ByteMem 32) (c value : Word) {field other : Member}

theorem context_fits : 4 * 36 ≤ 2 ^ 32 := by decide

theorem member_setMember_same (place : field.index < 36) :
    member (setMember mem c field value) c field = value :=
  ByteMem.readSlot_writeSlot_same _ _ _ place context_fits

theorem member_setMember_ne (place : field.index < 36) (place' : other.index < 36)
    (apart : field.index ≠ other.index) :
    member (setMember mem c other value) c field = member mem c field :=
  ByteMem.readSlot_writeSlot_ne _ _ _ place place' context_fits apart

variable {mem c} in
theorem setMember_outside {addr : Word} (place : field.index < 36)
    (outside : ¬ InBlock c sizeofContext addr) : setMember mem c field value addr = mem addr :=
  ByteMem.writeSlot_outside place context_fits outside

variable {mem c} in
theorem member_congr {mem' : ByteMem 32} (place : field.index < 36)
    (same : ∀ addr, InBlock c sizeofContext addr → mem addr = mem' addr) :
    member mem c field = member mem' c field :=
  ByteMem.readSlot_congr place context_fits same

end Members

/-!
## Saving
-/

theorem exec_pushes (slots : List Nat) (machine : Machine) :
    machine.exec (slots.map push) =
      { machine with
        pc := machine.pc + BitVec.ofNat 32 (4 * slots.length)
        mem := machine.mem.writeSlots (machine.gpr sp) (fun n => machine.gpr (BitVec.ofNat 5 n))
          slots } := by
  induction slots generalizing machine with
  | nil => simp [exec_nil, ByteMem.writeSlots]
  | cons n slots ih =>
      have count : machine.pc + 4#32 + BitVec.ofNat 32 (4 * slots.length) =
          machine.pc + BitVec.ofNat 32 (4 * (n :: slots).length) := by
        rw [List.length_cons, Nat.mul_add, BitVec.add_assoc, BitVec.add_comm 4#32, BitVec.ofNat_add]
      rw [List.map_cons, exec_cons, push, step_store, ih, count]
      simp only [ByteMem.writeSlots, List.foldl_cons, ByteMem.writeSlot, xlen, Nat.mul_comm 4 n]

/-- The macro list has every register but x0 and the stack pointer. -/
theorem mem_regs : ∀ n < 32, n ≠ 0 → n ≠ 2 → n ∈ regs := by decide

theorem regs_place {n : Nat} (saved : n ∈ regs) : n < 36 ∧ BitVec.ofNat 5 n ≠ sp := by
  revert n
  decide

theorem sub_contextSize (machine : Machine) :
    machine.gpr sp + BitVec.ofInt 32 (-contextSize) = machine.context := by
  have negated : BitVec.ofInt 32 (-contextSize) = -BitVec.ofNat 32 sizeofContext := by decide
  rw [negated, ← BitVec.sub_eq_add_neg]
  rfl

theorem exec_save_fields (machine : Machine) :
    (machine.exec amAsmTrapSave).gpr a0 = machine.context ∧
      (machine.exec amAsmTrapSave).pc =
        machine.pc + BitVec.ofNat 32 (4 * amAsmTrapSave.length) ∧
      (machine.exec amAsmTrapSave).csr = machine.csr ∧
      (machine.exec amAsmTrapSave).mem =
        setMember
          (setMember
            (setMember
              (machine.mem.writeSlots machine.context (fun n => machine.gpr (BitVec.ofNat 5 n)) regs)
              machine.context .mcause (machine.csr CsrSlot.mcause))
            machine.context .mstatus (machine.csr CsrSlot.mstatus))
          machine.context .mepc (machine.csr CsrSlot.mepc) := by
  have moved : writeGpr machine.gpr sp machine.context sp = machine.context :=
    writeGpr_same _ _ (by decide)
  have pushed :
      machine.mem.writeSlots machine.context
          (fun n => writeGpr machine.gpr sp machine.context (BitVec.ofNat 5 n)) regs =
        machine.mem.writeSlots machine.context (fun n => machine.gpr (BitVec.ofNat 5 n)) regs :=
    ByteMem.writeSlots_congr fun n saved => writeGpr_of_ne _ _ (regs_place saved).2
  simp only [amAsmTrapSave, exec_append, exec_cons, exec_nil, step_addi, mv, step_csrr, step_store,
    exec_pushes, Machine.write, sub_contextSize, moved, pushed, BitVec.add_assoc]
  refine ⟨?_, rfl, trivial, ?_⟩
  · simp [writeGpr, sp, t0, t1, t2, a0]
  · simp [writeGpr, sp, t0, t1, t2, setMember, Member.index, gprNum, ByteMem.writeSlot,
      offsetCause, offsetStatus, offsetEpc, nrRegs, xlen]

theorem step_callIrqHandle {machine : Machine} {amAsmTrap amIrqHandle : Word}
    (here : machine.pc = amAsmTrap + BitVec.ofNat 32 (4 * amAsmTrapSave.length)) :
    machine.step (callIrqHandle amAsmTrap amIrqHandle) =
      { machine.write ra (machine.pc + 4#32) with pc := amIrqHandle } := by
  have target : machine.pc + (amIrqHandle -
      (amAsmTrap + BitVec.ofNat 32 (4 * amAsmTrapSave.length))) = amIrqHandle := by
    rw [here, BitVec.add_comm, BitVec.sub_add_cancel]
  ext
  case pc => exact congrArg (fun pc : Word => pc.getLsbD _) target
  all_goals rfl

/-- The registers and memory at the call, from those at the label. -/
structure Saved (place : Placement) (before after : Machine) : Prop where
  pc : after.pc = place.amIrqHandle
  ra : after.gpr ra = place.amAsmTrap + BitVec.ofNat 32 (4 * amAsmTrapSave.length) + 4#32
  a0 : after.gpr a0 = before.context
  csr : after.csr = before.csr
  gpr : ∀ n < 32, n ≠ 0 → n ≠ 2 →
    member after.mem before.context (.gpr n) = before.gpr (BitVec.ofNat 5 n)
  mcause : member after.mem before.context .mcause = before.csr CsrSlot.mcause
  mstatus : member after.mem before.context .mstatus = before.csr CsrSlot.mstatus
  mepc : member after.mem before.context .mepc = before.csr CsrSlot.mepc
  outside : ∀ addr, ¬ InBlock before.context sizeofContext addr → after.mem addr = before.mem addr

theorem exec_entry {place : Placement} {machine : Machine} (here : machine.pc = place.amAsmTrap) :
    Saved place machine (machine.exec (amAsmTrapEntry place.amAsmTrap place.amIrqHandle)) := by
  obtain ⟨result, pc, csr, mem⟩ := exec_save_fields machine
  have inside : ∀ n ∈ regs, n < 36 := fun n saved => (regs_place saved).1
  have notRa : a0 ≠ ra := by decide
  have notZero : ra ≠ 0#5 := by decide
  rw [here] at pc
  rw [amAsmTrapEntry, exec_append, exec_cons, exec_nil, step_callIrqHandle pc]
  generalize machine.exec amAsmTrapSave = saved at result pc csr mem ⊢
  have return_ : (saved.write ra (saved.pc + 4#32)).gpr ra = saved.pc + 4#32 :=
    writeGpr_same saved.gpr (saved.pc + 4#32) notZero
  have argument : (saved.write ra (saved.pc + 4#32)).gpr a0 = saved.gpr a0 :=
    writeGpr_of_ne saved.gpr (saved.pc + 4#32) notRa
  refine ⟨rfl, return_.trans (congrArg (· + 4#32) pc), argument.trans result, csr, ?_, ?_, ?_, ?_,
    ?_⟩
  · intro n bound zero stack
    have saved := mem_regs n bound zero stack
    have below : (Member.gpr n).index < 36 := inside n saved
    have registers : (Member.gpr n).index ≠ Member.mcause.index ∧
        (Member.gpr n).index ≠ Member.mstatus.index ∧ (Member.gpr n).index ≠ Member.mepc.index := by
      clear below saved
      revert n
      decide
    obtain ⟨notCause, notStatus, notEpc⟩ := registers
    simp only [Machine.write]
    rw [mem, member_setMember_ne _ _ _ below (by decide) notEpc,
      member_setMember_ne _ _ _ below (by decide) notStatus,
      member_setMember_ne _ _ _ below (by decide) notCause]
    exact (ByteMem.readSlot_writeSlots inside below context_fits).trans (if_pos saved)
  · simp only [Machine.write]
    rw [mem, member_setMember_ne _ _ _ (by decide) (by decide) (by decide),
      member_setMember_ne _ _ _ (by decide) (by decide) (by decide),
      member_setMember_same _ _ _ (by decide)]
  · simp only [Machine.write]
    rw [mem, member_setMember_ne _ _ _ (by decide) (by decide) (by decide),
      member_setMember_same _ _ _ (by decide)]
  · simp only [Machine.write]
    rw [mem, member_setMember_same _ _ _ (by decide)]
  · intro addr out
    simp only [Machine.write]
    rw [mem, setMember_outside _ (by decide) out, setMember_outside _ (by decide) out,
      setMember_outside _ (by decide) out]
    exact ByteMem.writeSlots_outside inside context_fits out

/-!
## Restoring
-/

theorem exec_pops {slots : List Nat} (distinct : (slots.map (BitVec.ofNat 5)).Nodup)
    (apart : ∀ n ∈ slots, BitVec.ofNat 5 n ≠ sp ∧ BitVec.ofNat 5 n ≠ 0#5) (machine : Machine) :
    (machine.exec (slots.map pop)).mem = machine.mem ∧
      (machine.exec (slots.map pop)).csr = machine.csr ∧
      (∀ n ∈ slots, (machine.exec (slots.map pop)).gpr (BitVec.ofNat 5 n) =
        machine.mem.readSlot (machine.gpr sp) n) ∧
      ∀ r, r ∉ slots.map (BitVec.ofNat 5) →
        (machine.exec (slots.map pop)).gpr r = machine.gpr r := by
  induction slots generalizing machine with
  | nil => exact ⟨rfl, rfl, fun n member => absurd member List.not_mem_nil, fun r _ => rfl⟩
  | cons n slots ih =>
      rw [List.map_cons, List.nodup_cons] at distinct
      obtain ⟨notStack, notZero⟩ := apart n List.mem_cons_self
      have loaded : machine.step (pop n) =
          machine.write (BitVec.ofNat 5 n) (machine.mem.readSlot (machine.gpr sp) n) := by
        rw [pop, step_load, ByteMem.readSlot, xlen, Nat.mul_comm]
      have stack : (machine.step (pop n)).gpr sp = machine.gpr sp := by
        rw [loaded]
        exact writeGpr_of_ne _ _ (Ne.symm notStack)
      obtain ⟨mem, csr, popped, kept⟩ := ih distinct.2
        (fun k member => apart k (List.mem_cons_of_mem _ member)) (machine.step (pop n))
      rw [List.map_cons, exec_cons]
      refine ⟨mem.trans (by rw [loaded]; rfl), csr.trans (by rw [loaded]; rfl), ?_, ?_⟩
      · intro k place
        rcases List.mem_cons.mp place with rfl | later
        · rw [kept _ distinct.1, loaded]
          exact writeGpr_same _ _ notZero
        · rw [popped k later, stack, loaded]
          rfl
      · intro r other
        rw [List.map_cons, List.mem_cons, not_or] at other
        rw [kept r other.2, loaded]
        exact writeGpr_of_ne _ _ other.1

/-- The hart after `mret`, from the one the call returns to with the context `c`. -/
structure Restored (c : Word) (before after : Machine) : Prop where
  pc : after.pc = member before.mem c .mepc
  gpr : ∀ n < 32, n ≠ 0 → n ≠ 2 → after.gpr (BitVec.ofNat 5 n) = member before.mem c (.gpr n)
  sp : after.gpr sp = c + BitVec.ofNat 32 sizeofContext
  mstatus : after.csr CsrSlot.mstatus = member before.mem c .mstatus
  mtvec : after.csr CsrSlot.mtvec = before.csr CsrSlot.mtvec
  mem : after.mem = before.mem

theorem exec_exit {machine : Machine} {c : Word} (returned : machine.gpr a0 = c) :
    Restored c machine (machine.exec amAsmTrapExit) := by
  obtain ⟨loaded, entered⟩ : ∃ loaded, loaded = machine.exec [mv sp a0, load t1 offsetStatus sp,
    load t2 offsetEpc sp, csrw CsrSlot.mstatus t1, csrw CsrSlot.mepc t2] := ⟨_, rfl⟩
  have fields : loaded.gpr sp = c ∧ loaded.mem = machine.mem ∧
      loaded.csr = setCsr (setCsr machine.csr CsrSlot.mstatus (member machine.mem c .mstatus))
        CsrSlot.mepc (member machine.mem c .mepc) := by
    rw [entered, ← returned]
    simp only [exec_cons, exec_nil, mv, step_addi, step_load, step_csrw, Machine.write]
    simp [writeGpr, sp, a0, t1, t2, member, Member.index, gprNum, ByteMem.readSlot, offsetStatus,
      offsetEpc, nrRegs, xlen]
  obtain ⟨stack, mem, csr⟩ := fields
  have exit : machine.exec amAsmTrapExit =
      ((loaded.exec (regs.map pop)).step (addi sp sp contextSize)).step (.sys .mret) := by
    rw [entered]
    simp only [amAsmTrapExit, amAsmTrapRestore, exec_append, exec_cons, exec_nil]
  have apart : ∀ n ∈ regs, BitVec.ofNat 5 n ≠ sp ∧ BitVec.ofNat 5 n ≠ 0#5 := by decide
  obtain ⟨popsMem, popsCsr, popped, kept⟩ := exec_pops (by decide) apart loaded
  have stackKept := kept sp (by decide)
  rw [stack] at popped stackKept
  have size : BitVec.ofInt 32 contextSize = BitVec.ofNat 32 sizeofContext := by decide
  have notZero : sp ≠ 0#5 := by decide
  rw [exit, step_addi, stackKept, size]
  refine ⟨?_, ?_, ?_, ?_, ?_, ?_⟩
  · exact (congrFun popsCsr _).trans (by rw [csr]; rfl)
  · intro n bound zero stack'
    have saved := mem_regs n bound zero stack'
    exact (writeGpr_of_ne _ _ (apart n saved).1).trans ((popped n saved).trans (by rw [mem]; rfl))
  · exact writeGpr_same (loaded.exec (regs.map pop)).gpr _ notZero
  · exact (congrFun popsCsr _).trans (by rw [csr]; rfl)
  · exact (congrFun popsCsr _).trans (by rw [csr]; rfl)
  · exact popsMem.trans mem

end Ysyx.Am
