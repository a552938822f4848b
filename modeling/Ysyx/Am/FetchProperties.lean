import Ysyx.Am.Fetch
import Ysyx.Am.TrapProperties

/-! Rules for code in memory: runs compose and repeat, code stays where nothing is written, and
a stretch of plain lines runs to its end. -/

set_option autoImplicit false

namespace Ysyx.Am

open Rv32 (Word RegId Instr SysInstr Hart BranchOp writeGpr loadValue)
open Lib (ByteMem)
open Lib.ByteMem (InBlock)

/-!
## Runs
-/

theorem run_add (machine : Machine) (m n : Nat) :
    machine.run (m + n) =
      (machine.run m).bind fun (middle, before) =>
        (middle.run n).map fun (after, written) => (after, before ++ written) := by
  induction m generalizing machine with
  | zero => simp [Machine.run]
  | succ m ih =>
      rw [Nat.add_right_comm, Machine.run, Machine.run]
      cases machine.fetch with
      | none => rfl
      | some op =>
          simp only [Option.bind_some, ih]
          cases (machine.step op).run m with
          | none => rfl
          | some middle =>
              simp only [Option.bind_some, Option.map_some, Option.map_map, List.append_assoc]
              rfl

namespace Machine.Runs

variable {writable : Word → Prop} {machine middle after : Machine}

theorem refl (machine : Machine) : Runs writable machine machine := ⟨0, [], rfl, by simp⟩

theorem trans (first : Runs writable machine middle) (second : Runs writable middle after) :
    Runs writable machine after := by
  obtain ⟨m, before, reached, within⟩ := first
  obtain ⟨n, written, reached', within'⟩ := second
  refine ⟨m + n, before ++ written, ?_, fun addr found => ?_⟩
  · rw [run_add, reached, Option.bind_some]
    dsimp only
    rw [reached']
    rfl
  · rcases List.mem_append.mp found with early | late
    · exact within addr early
    · exact within' addr late

theorem step {op : Op} (fetched : machine.fetch = some op)
    (within : ∀ addr ∈ machine.writes op, writable addr) :
    Runs writable machine (machine.step op) := by
  refine ⟨1, machine.writes op, ?_, within⟩
  rw [run, fetched]
  exact congrArg (fun written => some (machine.step op, written)) (List.append_nil _)

theorem mono {wider : Word → Prop} (runs : Runs writable machine after)
    (wide : ∀ addr, writable addr → wider addr) : Runs wider machine after := by
  obtain ⟨n, written, reached, within⟩ := runs
  exact ⟨n, written, reached, fun addr found => wide addr (within addr found)⟩

/-- A loop that counts its turns. -/
theorem count (holds : Nat → Machine → Prop) {n : Nat}
    (turn : ∀ k < n, ∀ machine, holds k machine →
      ∃ after, Runs writable machine after ∧ holds (k + 1) after)
    (initial : holds 0 machine) : ∃ after, Runs writable machine after ∧ holds n after := by
  induction n with
  | zero => exact ⟨machine, refl machine, initial⟩
  | succ n ih =>
      obtain ⟨middle, before, reached⟩ := ih fun k bound => turn k (Nat.lt_succ_of_lt bound)
      obtain ⟨after, last, next⟩ := turn n (Nat.lt_succ_self n) middle reached
      exact ⟨after, before.trans last, next⟩

end Machine.Runs

/-!
## Code in memory
-/

instance CodeAt.decidable (mem : ByteMem 32) : (addr : Word) → (code : List Op) →
    Decidable (CodeAt mem addr code)
  | _, [] => isTrue trivial
  | addr, op :: code =>
      have := CodeAt.decidable mem (addr + 4#32) code
      inferInstanceAs (Decidable (decodeOp (mem.readLe addr 4) = some op ∧ _))

theorem CodeAt.append {mem : ByteMem 32} {addr : Word} {first second : List Op}
    (code : CodeAt mem addr (first ++ second)) :
    CodeAt mem addr first ∧ CodeAt mem (addr + BitVec.ofNat 32 (4 * first.length)) second := by
  induction first generalizing addr with
  | nil => exact ⟨trivial, by simpa using code⟩
  | cons op first ih =>
      obtain ⟨before, after⟩ := ih code.2
      refine ⟨⟨code.1, before⟩, ?_⟩
      rw [List.length_cons, Nat.mul_add, Nat.add_comm (4 * _), BitVec.ofNat_add, ← BitVec.add_assoc]
      exact after

/-- Code is where its bytes are. -/
theorem CodeAt.move {mem mem' : ByteMem 32} {addr addr' : Word} {code : List Op}
    (here : CodeAt mem addr code)
    (same : ∀ i < 4 * code.length,
      mem' (addr' + BitVec.ofNat 32 i) = mem (addr + BitVec.ofNat 32 i)) :
    CodeAt mem' addr' code := by
  induction code generalizing addr addr' with
  | nil => trivial
  | cons op code ih =>
      rw [List.length_cons] at same
      obtain ⟨decoded, rest⟩ := here
      refine ⟨?_, ih rest fun i bound => ?_⟩
      · have word : mem'.readLe addr' 4 = mem.readLe addr 4 := by
          rw [ByteMem.readLe_eq_leWord (fun i bound => same i (by omega))]
          exact (ByteMem.readLe_eq_leWord fun _ _ => rfl).symm
        rw [word, decoded]
      · have next := same (4 + i) (by omega)
        rwa [BitVec.ofNat_add, ← BitVec.add_assoc, ← BitVec.add_assoc] at next

theorem CodeAt.congr {mem mem' : ByteMem 32} {addr : Word} {code : List Op}
    (here : CodeAt mem addr code) (fits : 4 * code.length ≤ 2 ^ 32)
    (same : ∀ at_, InBlock addr (4 * code.length) at_ → mem' at_ = mem at_) :
    CodeAt mem' addr code := by
  refine here.move fun i bound => same _ ?_
  rw [InBlock, BitVec.add_comm, BitVec.add_sub_cancel, BitVec.toNat_ofNat,
    Nat.mod_eq_of_lt (by omega)]
  exact bound

section Text

variable {Symbol : Type} {symbols : Symbol → Word}

theorem length_ops (symbols : Symbol → Word) (pc : Word) (line : Line Symbol) :
    (line.ops symbols pc).length = line.size := by
  cases line <;> rfl

theorem textSize_append (first second : List (Line Symbol)) :
    textSize (first ++ second) = textSize first + textSize second := by
  rw [textSize, List.map_append, List.sum_append]
  rfl

theorem length_assemble (symbols : Symbol → Word) (pc : Word) (lines : List (Line Symbol)) :
    (assemble symbols pc lines).length = textSize lines := by
  induction lines generalizing pc with
  | nil => rfl
  | cons line lines ih =>
      rw [assemble, List.length_append, length_ops, ih, textSize, textSize, List.map_cons,
        List.sum_cons]

theorem assemble_append (symbols : Symbol → Word) (pc : Word) (first second : List (Line Symbol)) :
    assemble symbols pc (first ++ second) =
      assemble symbols pc first ++
        assemble symbols (pc + BitVec.ofNat 32 (4 * textSize first)) second := by
  induction first generalizing pc with
  | nil => simp [assemble, textSize]
  | cons line first ih =>
      rw [List.cons_append, assemble, assemble, ih, List.append_assoc, BitVec.add_assoc,
        ← BitVec.ofNat_add, ← Nat.mul_add]
      rfl

theorem TextAt.append {mem : ByteMem 32} {addr : Word} {first second : List (Line Symbol)}
    (text : TextAt symbols mem addr (first ++ second)) :
    TextAt symbols mem addr first ∧
      TextAt symbols mem (addr + BitVec.ofNat 32 (4 * textSize first)) second := by
  rw [TextAt, assemble_append] at text
  have parts := text.append
  rwa [length_assemble] at parts

/-- A part of a longer text. -/
theorem TextAt.part {mem : ByteMem 32} {addr : Word} {front part back : List (Line Symbol)}
    (text : TextAt symbols mem addr (front ++ part ++ back)) :
    TextAt symbols mem (addr + BitVec.ofNat 32 (4 * textSize front)) part :=
  text.append.1.append.2

theorem TextAt.congr {mem mem' : ByteMem 32} {addr : Word} {lines : List (Line Symbol)}
    (text : TextAt symbols mem addr lines) (fits : 4 * textSize lines ≤ 2 ^ 32)
    (same : ∀ at_, InBlock addr (4 * textSize lines) at_ → mem' at_ = mem at_) :
    TextAt symbols mem' addr lines := by
  rw [← length_assemble symbols addr] at fits same
  exact CodeAt.congr text fits same

/-!
## Plain lines
-/

variable (machine : Machine)

/-- A plain instruction changes registers only. -/
theorem step_plain {op : Op} (plain : op.plain = true) :
    (machine.step op).gpr = op.effect machine.mem machine.gpr ∧
      (machine.step op).pc = machine.pc + 4#32 ∧ (machine.step op).mem = machine.mem ∧
      machine.writes op = [] := by
  have read := hart_x machine
  cases op with
  | sys => cases plain
  | base instr =>
      cases instr with
      | opImm | opReg | load =>
          simp only [Machine.step, Hart.step, Hart.written, Instr.access, Instr.dest, Instr.result,
            Instr.nextPc, read]
          exact ⟨rfl, rfl, rfl, rfl⟩
      | _ => cases plain

theorem step_branch (op : BranchOp) (rs1 rs2 : RegId) (imm : Word) :
    machine.step (.base (.branch op rs1 rs2 imm)) =
      { machine with
        pc :=
          if op.taken (machine.gpr rs1) (machine.gpr rs2) then machine.pc + imm
          else machine.pc + 4#32 } := by
  have read := hart_x machine
  cases machine
  simp only [Machine.step, Hart.step, Instr.access, Instr.dest, Instr.nextPc, read]
  rfl

theorem step_jal (rd : RegId) (imm : Word) :
    machine.step (.base (.jal rd imm)) =
      { machine.write rd (machine.pc + 4#32) with pc := machine.pc + imm } := rfl

theorem step_jalr (rd rs1 : RegId) (imm : Word) :
    machine.step (.base (.jalr rd rs1 imm)) =
      { machine.write rd (machine.pc + 4#32) with
        pc := (machine.gpr rs1 + imm) &&& ~~~1#32 } := by
  have read := hart_x machine
  simp only [Machine.step, Hart.step, Hart.written, Instr.access, Instr.dest, Instr.result,
    Instr.nextPc, read]
  rfl

/-- The two instructions of `la` put the symbol into the register. -/
theorem write_la (gpr : RegId → Word) (rd : RegId) (pc hi symbol : Word) :
    writeGpr (writeGpr gpr rd (pc + hi)) rd
        (writeGpr gpr rd (pc + hi) rd + (symbol - pc - hi)) = writeGpr gpr rd symbol := by
  funext r
  by_cases same : r = rd
  · by_cases zero : rd = 0#5
    · simp [writeGpr, same, zero]
    · have value : pc + hi + (symbol - pc - hi) = symbol := by
        rw [BitVec.sub_sub, BitVec.add_comm, BitVec.sub_add_cancel]
      rw [same, writeGpr_same _ _ zero, writeGpr_same _ _ zero, writeGpr_same _ _ zero, value]
  · rw [writeGpr_of_ne _ _ same, writeGpr_of_ne _ _ same, writeGpr_of_ne _ _ same]

variable {machine} (writable : Word → Prop)

theorem runs_plain_op {op : Op} (fetched : machine.fetch = some op) (plain : op.plain = true) :
    ∃ after, machine.Runs writable after ∧ after.pc = machine.pc + 4#32 ∧
      after.mem = machine.mem ∧ after.gpr = op.effect machine.mem machine.gpr := by
  obtain ⟨gpr, pc, mem, writes⟩ := step_plain machine plain
  refine ⟨machine.step op, .step fetched ?_, pc, mem, gpr⟩
  rw [writes]
  simp

theorem runs_branch {op : BranchOp} {rs1 rs2 : RegId} {imm : Word}
    (fetched : machine.fetch = some (.base (.branch op rs1 rs2 imm))) :
    machine.Runs writable
      { machine with
        pc :=
          if op.taken (machine.gpr rs1) (machine.gpr rs2) then machine.pc + imm
          else machine.pc + 4#32 } := by
  rw [← step_branch]
  exact .step fetched (by simp [Machine.writes, Instr.access])

/-- A jump that keeps no link. -/
theorem runs_j {imm : Word} (fetched : machine.fetch = some (.base (.jal 0#5 imm))) :
    machine.Runs writable { machine with pc := machine.pc + imm } := by
  have runs : machine.Runs writable (machine.step (.base (.jal 0#5 imm))) :=
    .step fetched (by simp [Machine.writes, Instr.access])
  have same : machine.step (.base (.jal 0#5 imm)) = { machine with pc := machine.pc + imm } := by
    rw [step_jal]
    ext
    case gpr => exact congrFun (Rv32.writeGpr_x0 machine.x0 _) _ ▸ rfl
    all_goals rfl
  rwa [same] at runs

/-- A call of a symbol. -/
theorem runs_jal_line {rd : RegId} {symbol : Symbol}
    (text : TextAt symbols machine.mem machine.pc [.jal rd symbol]) :
    machine.Runs writable
      { machine.write rd (machine.pc + 4#32) with pc := symbols symbol } := by
  have runs : machine.Runs writable
      (machine.step (.base (.jal rd (symbols symbol - machine.pc)))) :=
    .step text.1 (by simp [Machine.writes, Instr.access])
  have target : machine.pc + (symbols symbol - machine.pc) = symbols symbol := by
    rw [BitVec.add_comm, BitVec.sub_add_cancel]
  rwa [step_jal, target] at runs

/-- A jump through a register that holds an instruction address. -/
theorem runs_jalr {rd rs1 : RegId} (aligned : 4 ∣ (machine.gpr rs1).toNat)
    (fetched : machine.fetch = some (.base (.jalr rd rs1 0#32))) :
    machine.Runs writable
      { machine.write rd (machine.pc + 4#32) with pc := machine.gpr rs1 } := by
  have runs : machine.Runs writable (machine.step (.base (.jalr rd rs1 0#32))) :=
    .step fetched (by simp [Machine.writes, Instr.access])
  have even : (machine.gpr rs1).getLsbD 0 = false := by
    rw [BitVec.getLsbD, Nat.testBit_zero, decide_eq_false_iff_not]
    omega
  have target : (machine.gpr rs1 + 0#32) &&& ~~~1#32 = machine.gpr rs1 := by
    rw [BitVec.add_zero, ← (Rv32.eq_clear_bit_zero_iff _).mpr even]
  rwa [step_jalr, target] at runs

/-- A store to word `k` of a block. -/
theorem runs_store_slot {base : Word} {k n : Nat} {rs1 rs2 : RegId} (slot : k < n)
    (fits : 4 * n ≤ 2 ^ 32) (place : machine.gpr rs1 = base + BitVec.ofNat 32 (4 * k))
    (fetched : machine.fetch = some (store rs2 0 rs1)) :
    machine.Runs (InBlock base (4 * n))
      { machine with
        pc := machine.pc + 4#32
        mem := machine.mem.writeSlot base k (machine.gpr rs2) } := by
  have addr_eq : machine.gpr rs1 + BitVec.ofNat 32 0 = base + BitVec.ofNat 32 (4 * k) := by
    rw [place]
    exact BitVec.add_zero _
  have runs : machine.Runs (InBlock base (4 * n)) (machine.step (store rs2 0 rs1)) := by
    refine .step fetched fun addr written => ?_
    obtain ⟨i, bound, rfl⟩ := List.mem_map.mp written
    rw [addr_eq, InBlock, ByteMem.toNat_slot_sub base slot fits (List.mem_range.mp bound)]
    have byte := List.mem_range.mp bound
    change i < 4 at byte
    omega
  rw [step_store, addr_eq] at runs
  exact runs

theorem runs_plain_line {line : Line Symbol}
    (text : CodeAt machine.mem machine.pc (line.ops symbols machine.pc))
    (plain : line.plain = true) :
    ∃ after, machine.Runs writable after ∧
      after.pc = machine.pc + BitVec.ofNat 32 (4 * line.size) ∧ after.mem = machine.mem ∧
      after.gpr = line.effect symbols machine.mem machine.gpr := by
  cases line with
  | instr op => exact runs_plain_op writable text.1 plain
  | jal => cases plain
  | la rd symbol =>
      obtain ⟨upper, lower, _⟩ := text
      have first : machine.Runs writable (machine.write rd _) :=
        .step upper (by simp [Machine.writes, Instr.access])
      have fetched :
          (machine.write rd (machine.pc + pcrelHi (symbols symbol - machine.pc))).fetch = some _ :=
        lower
      obtain ⟨after, second, pc, mem, gpr⟩ := runs_plain_op writable fetched rfl
      refine ⟨after, first.trans second, ?_, mem, ?_⟩
      · rw [pc]
        exact BitVec.add_assoc _ _ _
      · rw [gpr]
        exact write_la machine.gpr rd machine.pc _ (symbols symbol)

/-- A stretch of plain lines is run to its end. -/
theorem runs_plain {lines : List (Line Symbol)} (text : TextAt symbols machine.mem machine.pc lines)
    (plain : lines.all Line.plain = true) :
    ∃ after, machine.Runs writable after ∧
      after.pc = machine.pc + BitVec.ofNat 32 (4 * textSize lines) ∧ after.mem = machine.mem ∧
      after.gpr = lines.foldl (Line.effect symbols machine.mem) machine.gpr := by
  induction lines generalizing machine with
  | nil => exact ⟨machine, .refl machine, by simp [textSize], rfl, rfl⟩
  | cons line lines ih =>
      rw [List.all_cons, Bool.and_eq_true] at plain
      obtain ⟨here, rest⟩ := CodeAt.append text
      rw [length_ops] at rest
      obtain ⟨middle, first, pc, mem, gpr⟩ := runs_plain_line writable here plain.1
      rw [← pc, ← mem] at rest
      obtain ⟨after, second, pc', mem', gpr'⟩ := ih rest plain.2
      refine ⟨after, first.trans second, ?_, mem'.trans mem, ?_⟩
      · rw [pc', pc, BitVec.add_assoc, ← BitVec.ofNat_add, ← Nat.mul_add]
        rfl
      · rw [gpr', mem, gpr]
        rfl

end Text

end Ysyx.Am
