import Ysyx.Npc.LsuMemory

/-! The load-store unit is a byte memory: from an idle unit each access follows the phases
of a core that executes it, stores replace exactly the bytes they are of, and loads read them
back. -/

set_option autoImplicit false

namespace Ysyx.Npc

open Rv32 (Word RegId Access LoadOp StoreOp opcode funct3 loadValue storeValue)
open Lib (ByteMem Machine)

/-!
## An instruction for each access
-/

/-- A word with register 1 as its base and no offset. -/
def lineWord (opt : BitVec 4) : Word :=
  0#7 ++ (0#5 ++ (1#5 ++ (opt.extractLsb' 1 3 ++ (0#5 ++
    (if opt.getLsbD 0 then typeS else typeILoad)))))

def lineArch (lines : LsuLines) : Arch where
  rf r := if r = 1#5 then lines.addr else lines.regst
  pc := 0#32
  csrs := Csrfile.reset

theorem issue_line (lines : LsuLines) :
    let issue := (lineArch lines).issue (lineWord lines.opt)
    issue.lsuOpt = lines.opt ∧ issue.addr = lines.addr ∧ issue.regst = lines.regst := by
  have decoded : ∀ opt : BitVec 4, (idu (lineWord opt)).lsuOpt = opt ∧
      (idu (lineWord opt)).rs1id = 1#5 ∧ (idu (lineWord opt)).rs2id = 0#5 ∧
      (idu (lineWord opt)).imm = 0#32 ∧ (idu (lineWord opt)).exuSrcSel = exuSelImm ∧
      (idu (lineWord opt)).exuOpt = exuAdd ∧ (idu (lineWord opt)).sysins = false := by
    decide
  obtain ⟨lsuOpt, rs1, rs2, imm, sel, add, notSys⟩ := decoded lines.opt
  refine ⟨lsuOpt, ?_, ?_⟩
  · simp only [Issue.addr, Arch.issue, Arch.decode, WbuSignals.load, rs1, imm, sel, add, notSys]
    rw [(exu_of_not_sys _ _ _ _ _ _ _ _ _).1]
    simp [operands, lineArch, intRes_add]
  · simp only [Arch.issue, Arch.decode, rs2]
    rfl

/-!
## The unit in a phase
-/

/-- The unit and its slaves in a phase: the part of `At` that is about them. -/
structure LsuAt (sys : LsuSystem) (tx : Tx (ByteMem 32)) : Prop where
  mem : sys.mem = tx.mem
  read : ReadAt sys.lsu sys.read tx.arch tx.phase
  write : WriteAt sys.lsu sys.write tx.arch tx.phase
  index : sys.lsu.writeIndex = 0#1
  validR : (sys.lsu.wDone && sys.lsu.rDone && sys.lsu.validR) = tx.phase.isNop
  opt : ∀ instr, tx.phase.issued = some instr → sys.lsu.opt = (tx.arch.issue instr).lsuOpt

/-- Waiting for the next access. -/
structure LsuIdle (sys : LsuSystem) : Prop where
  read : ReadQuiet sys.lsu sys.read
  write : WriteQuiet sys.lsu sys.write
  index : sys.lsu.writeIndex = 0#1
  validR : sys.lsu.validR = false

section Step

variable {sys : LsuSystem} {tx : Tx (ByteMem 32)} {choice : Choice} {lines : LsuLines}

/-- Memory does not change by being read. -/
theorem readIf_memoryDevice_snd (mem : ByteMem 32) (taken : Bool) (ar : AxiAddr) :
    (readIf memoryDevice mem taken ar).2 = mem := by
  cases taken <;> rfl

theorem LsuIdle.free (idle : LsuIdle sys) : sys.free = true := by
  simp [LsuSystem.free, idle.read.1, idle.write.1, idle.validR]

theorem LsuIdle.postValid (idle : LsuIdle sys) (drive : LsuDrive) :
    sys.postValid drive = false := by
  simp [LsuSystem.postValid, Lsu.postValid, idle.read.1, idle.write.1, idle.validR]

/-- An idle unit is in every phase in which a core does not use it. -/
theorem LsuIdle.at_take (idle : LsuIdle sys) (arch : Arch) (instr : Word) :
    LsuAt sys ⟨arch, sys.mem, .fetchTake instr⟩ where
  mem := rfl
  read := idle.read
  write := idle.write
  index := idle.index
  validR := by rw [idle.validR, Bool.and_false]; rfl
  opt := fun _ issued => by cases issued

/-- What the write slave makes of a cycle. -/
def LsuSystem.written (sys : LsuSystem) (choice : Choice) : WriteSlave × ByteMem 32 :=
  sys.write.next memoryDevice sys.mem (sys.lsu.awBeat (sys.bus choice))
    (sys.lsu.wBeat (sys.bus choice)) choice.lsuB sys.lsu.bready

/-- A clock edge, with the reads of memory out of the way. -/
theorem LsuSystem.clock_eq (sys : LsuSystem) (choice : Choice) (lines : LsuLines)
    (preValid : Bool) :
    sys.clock choice lines preValid =
      { lsu := sys.lsu.next (sys.bus choice) lines.opt lines.addr lines.regst preValid
        read := sys.read.next (sys.lsu.arvalid && (sys.bus choice).arready)
          (readIf memoryDevice sys.mem (sys.lsu.arvalid && (sys.bus choice).arready)
            sys.lsu.ar).1 choice.lsuR sys.lsu.rready
        write := (sys.written choice).1
        mem := (sys.written choice).2 } := by
  simp only [LsuSystem.clock, LsuSystem.written, readIf_memoryDevice_snd]

theorem LsuIdle.wait (idle : LsuIdle sys) (choice : Choice) (lines : LsuLines) :
    LsuIdle (sys.clock choice lines false) ∧ (sys.clock choice lines false).mem = sys.mem := by
  have write : WriteQuiet (sys.lsu.next (sys.bus choice) lines.opt lines.addr lines.regst false)
      (sys.written choice).1 ∧ (sys.written choice).2 = sys.mem :=
    WriteQuiet.next idle.write sys.mem (Bool.and_false _)
  rw [LsuSystem.clock_eq]
  refine ⟨⟨?_, write.1, ?_, rfl⟩, write.2⟩
  · exact ReadQuiet.next idle.read _ (Bool.and_false _)
  · simp [Lsu.next, idle.index]

theorem Tx.step_mem_memory (tx : Tx (ByteMem 32)) (choice : Choice) :
    (tx.step memoryDevice choice).mem = tx.phase.stored memoryDevice choice tx.arch tx.mem := by
  obtain ⟨arch, mem, phase⟩ := tx
  cases phase with
  | fetchAddr | loadAddr _ | fetchWait _ | loadWait _ _ | storeWait _ =>
      simp only [Tx.step, Phase.stored]
      split_ifs <;> rfl
  | storeReq instr awDone wDone =>
      simp only [Tx.step, Phase.stored]
      split_ifs <;> rfl
  | _ => rfl

theorem LsuAt.step (at_ : LsuAt sys tx) (choice : Choice) (lines : LsuLines)
    (issued : ∀ instr, tx.phase = .fetchTake instr → lines.opt = (tx.arch.issue instr).lsuOpt ∧
      lines.addr = (tx.arch.issue instr).addr ∧ lines.regst = (tx.arch.issue instr).regst) :
    LsuAt (sys.clock choice lines tx.phase.isTake) (tx.step memoryDevice choice) := by
  have loaded : ∀ instr, tx.phase = .loadAddr instr → choice.lsuAr = true →
      (readIf memoryDevice sys.mem (sys.lsu.arvalid && (sys.bus choice).arready)
        sys.lsu.ar).1 = (memoryDevice.read tx.mem (tx.arch.issue instr).ar).1 := by
    intro instr loading accept
    have read := at_.read
    rw [loading] at read
    obtain ⟨_, arvalid, _, ar, slave⟩ := read
    simp [LsuSystem.bus, arvalid, slave, accept, readIf, ar, at_.mem]
  have read : ReadAt (sys.clock choice lines tx.phase.isTake).lsu
      (sys.clock choice lines tx.phase.isTake).read (tx.step memoryDevice choice).arch
      (tx.step memoryDevice choice).phase := by
    rw [LsuSystem.clock_eq]
    exact readAt_step sys.write lines.regst _ at_.read loaded
      (fun instr take => ⟨(issued instr take).1, (issued instr take).2.1⟩)
  have write : WriteAt (sys.clock choice lines tx.phase.isTake).lsu
      (sys.clock choice lines tx.phase.isTake).write (tx.step memoryDevice choice).arch
      (tx.step memoryDevice choice).phase := by
    rw [LsuSystem.clock_eq]
    exact (writeAt_step sys.mem tx.mem at_.write at_.index at_.opt issued).1
  constructor
  case mem =>
    rw [Tx.step_mem_memory, ← at_.mem, LsuSystem.clock_eq]
    exact (writeAt_step sys.mem tx.mem at_.write at_.index at_.opt issued).2
  case read => exact read
  case write => exact write
  case index => simp [LsuSystem.clock_eq, Lsu.next, at_.index]
  case validR =>
    rw [Tx.step_isNop, read.rDone, write.wDone]
    rfl
  case opt =>
    intro instr after
    obtain ⟨same, ⟨before, _, noTake⟩ | ⟨take, _⟩⟩ := Tx.step_issued after
    · rw [same]
      simp [LsuSystem.clock_eq, Lsu.next, noTake, at_.opt instr before]
    · rw [same]
      simp [LsuSystem.clock_eq, Lsu.next, take, Phase.isTake, (issued instr take).1]

theorem LsuAt.postValid (at_ : LsuAt sys tx) (drive : LsuDrive) :
    sys.postValid drive = tx.phase.commits :=
  postValid_eq at_.validR at_.read at_.write drive.choice

theorem LsuAt.not_free (at_ : LsuAt sys tx) {instr : Word} (issued : tx.phase.issued = some instr) :
    sys.free = false := by
  have nop := at_.validR
  have read := at_.read.rDone
  have write := at_.write.wDone
  rw [LsuSystem.free]
  rw [read, write] at nop ⊢
  generalize tx.phase = phase at issued nop
  cases phase with
  | nop _ => simpa [Phase.isLoad, Phase.isStore, Phase.isNop] using nop
  | start | fetchAddr | fetchWait _ | fetchData _ | fetchTake _ => cases issued
  | _ => simp [Phase.isLoad, Phase.isStore]

/-- A busy unit goes on to the next phase, whatever its ports carry. -/
theorem LsuAt.busy_step (at_ : LsuAt sys tx) {instr : Word} (issued : tx.phase.issued = some instr)
    (choice : Choice) (lines : LsuLines) :
    LsuAt (sys.clock choice lines false) (tx.step memoryDevice choice) := by
  have noTake : tx.phase.isTake = false := by
    generalize tx.phase = phase at issued
    cases phase with
    | fetchTake _ => cases issued
    | _ => rfl
  have next := at_.step choice lines
    (fun word take => absurd issued (by rw [take]; exact Option.some_ne_none _ |>.symm))
  rwa [noTake] at next

theorem LsuAt.idle_next (at_ : LsuAt sys tx) (commits : tx.phase.commits = true)
    {instr : Word} (issued : tx.phase.issued = some instr) (choice : Choice) (lines : LsuLines) :
    LsuIdle (sys.clock choice lines false) := by
  have next := at_.busy_step issued choice lines
  have start : (tx.step memoryDevice choice).phase = .start := (Tx.step_start_iff tx).mpr commits
  have read := next.read
  have write := next.write
  rw [start] at read write
  exact ⟨read, write, next.index, by simp [LsuSystem.clock_eq, Lsu.next]⟩

theorem Tx.issued_step {instr : Word} (issued : tx.phase.issued = some instr)
    (inside : tx.phase.commits = false) :
    (tx.step memoryDevice choice).phase.issued = some instr := by
  obtain ⟨arch, mem, phase⟩ := tx
  cases phase with
  | start | fetchAddr | fetchWait _ | fetchData _ | fetchTake _ => cases issued
  | nop _ | loadTake _ _ | storeTake _ => cases inside
  | loadData _ _ | storeData _ => exact issued
  | loadAddr _ | loadWait _ _ | storeReq _ _ _ | storeWait _ =>
      simp only [Tx.step]
      split_ifs <;> exact issued

end Step

/-!
## Memory under the unit
-/

/-- An access at once. -/
def storedBy (mem : ByteMem 32) : Access → ByteMem 32
  | .store op addr data => storeValue mem op addr data
  | _ => mem

/-- What memory will be when the access in execution is over. -/
def Tx.settled (tx : Tx (ByteMem 32)) : ByteMem 32 :=
  match tx.phase with
  | .storeReq instr _ _ =>
      memoryDevice.write tx.mem (tx.arch.issue instr).aw (tx.arch.issue instr).wdata
        (tx.arch.issue instr).wstrb
  | _ => tx.mem

theorem Tx.settled_step {tx : Tx (ByteMem 32)} {instr : Word} (choice : Choice)
    (issued : tx.phase.issued = some instr) :
    (tx.step memoryDevice choice).settled = tx.settled := by
  obtain ⟨arch, mem, phase⟩ := tx
  cases phase with
  | start | fetchAddr | fetchWait _ | fetchData _ | fetchTake _ => cases issued
  | nop _ | loadData _ _ | loadTake _ _ | storeData _ | storeTake _ => rfl
  | loadAddr _ | loadWait _ _ | storeWait _ =>
      simp only [Tx.step]
      split_ifs <;> rfl
  | storeReq _ _ _ =>
      simp only [Tx.step]
      split_ifs <;> rfl

theorem settled_dispatch_of_not_store {arch : Arch} {instr : Word} (mem : ByteMem 32)
    (noStore : (arch.issue instr).isStore = false) :
    Tx.settled ⟨arch, mem, arch.dispatch instr⟩ = mem := by
  simp only [Arch.dispatch, noStore, Bool.false_eq_true, if_false]
  split_ifs <;> rfl

theorem settled_dispatch_of_store {arch : Arch} {instr : Word} (mem : ByteMem 32)
    (store : (arch.issue instr).isStore = true) :
    Tx.settled ⟨arch, mem, arch.dispatch instr⟩ =
      mem.writeLanes (arch.issue instr).addr (arch.issue instr).wstrb
        (arch.issue instr).wdata := by
  have noLoad : (arch.issue instr).isLoad = false := by
    by_contra load
    have other := isStore_false_of_isLoad (Bool.eq_true_of_not_eq_false load)
    rw [other] at store
    cases store
  simp only [Arch.dispatch, noLoad, store]
  rfl

/-- The access of a request, as the phase after its issue has it. -/
theorem settled_request {drive : LsuDrive} {access : Access} (mem : ByteMem 32)
    (request : drive.request = some access) (aligned : AccessAligned access) :
    Tx.settled ⟨lineArch drive.lines, mem,
      (lineArch drive.lines).dispatch (lineWord drive.lines.opt)⟩ = storedBy mem access := by
  obtain ⟨opt, addr, regst⟩ := issue_line drive.lines
  cases access with
  | none =>
      apply settled_dispatch_of_not_store
      rw [Issue.isStore, opt, LsuDrive.lines, request]
      simp [lsuWen]
  | load op at_ =>
      apply settled_dispatch_of_not_store
      rw [Issue.isStore, opt, LsuDrive.lines, request]
      cases op <;> simp [lsuWen, loadCode]
  | store op at_ data =>
      have lines : drive.lines = ⟨storeCode op, at_, data⟩ := by rw [LsuDrive.lines, request]
      rw [settled_dispatch_of_store, Issue.wstrb, Issue.wdata, opt, addr, regst, lines]
      · exact writeLanes_storeValue mem aligned
      · rw [Issue.isStore, opt, lines]
        cases op <;> simp [lsuWen, storeCode]

/-- The unit is idle over this memory, or busy with an access that will leave it. -/
def LsuHolds (model : ByteMem 32) (sys : LsuSystem) : Prop :=
  (LsuIdle sys ∧ sys.mem = model) ∨
    ∃ tx instr, LsuAt sys tx ∧ tx.phase.issued = some instr ∧ tx.settled = model

theorem LsuHolds.idle_of_free {model : ByteMem 32} {sys : LsuSystem} (holds : LsuHolds model sys)
    (free : sys.free = true) : LsuIdle sys ∧ sys.mem = model := by
  rcases holds with idle | ⟨tx, instr, at_, issued, _⟩
  · exact idle
  · rw [at_.not_free issued] at free
    cases free

/-- The request of an idle unit starts the phases of its access. -/
theorem LsuIdle.request {sys : LsuSystem} {drive : LsuDrive} {access : Access}
    (idle : LsuIdle sys) (request : drive.request = some access) :
    LsuAt (sys.step drive) ⟨lineArch drive.lines, sys.mem,
      (lineArch drive.lines).dispatch (lineWord drive.lines.opt)⟩ := by
  have next := (idle.at_take (lineArch drive.lines) (lineWord drive.lines.opt)).step
    drive.choice drive.lines (by
      intro instr take
      obtain rfl := Phase.fetchTake.inj take
      obtain ⟨opt, addr, regst⟩ := issue_line drive.lines
      exact ⟨opt.symm, addr.symm, regst.symm⟩)
  rw [LsuSystem.step, request]
  exact next

theorem issued_dispatch (arch : Arch) (instr : Word) :
    (arch.dispatch instr).issued = some instr := by
  simp only [Arch.dispatch]
  split_ifs <;> rfl

theorem LsuHolds.step {model : ByteMem 32} {sys : LsuSystem} {drive : LsuDrive}
    (holds : LsuHolds model sys) (free : drive.request.isSome = true → sys.free = true)
    (aligned : ∀ access, drive.request = some access → AccessAligned access) :
    LsuHolds (storedBy model (drive.request.getD .none)) (sys.step drive) := by
  cases request : drive.request with
  | some access =>
      obtain ⟨idle, rfl⟩ := holds.idle_of_free (free (by rw [request]; rfl))
      exact .inr ⟨_, _, idle.request request, issued_dispatch _ _,
        settled_request sys.mem request (aligned access request)⟩
  | none =>
      simp only [LsuSystem.step, request, Option.isSome_none, Option.getD_none, storedBy]
      rcases holds with ⟨idle, rfl⟩ | ⟨tx, instr, at_, issued, rfl⟩
      · exact .inl (idle.wait _ _)
      · have next := at_.busy_step issued drive.choice drive.lines
        have settled := Tx.settled_step drive.choice issued
        cases commits : tx.phase.commits with
        | false => exact .inr ⟨_, instr, next, Tx.issued_step issued commits, settled⟩
        | true =>
            have start : (tx.step memoryDevice drive.choice).phase = .start :=
              (Tx.step_start_iff tx).mpr commits
            refine .inl ⟨at_.idle_next commits issued _ _, ?_⟩
            rw [next.mem, ← settled, Tx.settled, start]

/-!
## Runs
-/

theorem lsuIdle_reset (mem : ByteMem 32) : LsuIdle (LsuSystem.reset mem) :=
  ⟨⟨rfl, rfl, rfl, rfl⟩, ⟨rfl, rfl, rfl, rfl, rfl⟩, rfl, rfl⟩

theorem lsuMachine_run_succ (drives : Nat → LsuDrive) (sys : LsuSystem) (n : Nat) :
    lsuMachine.run drives 0 sys (n + 1) = (lsuMachine.run drives 0 sys n).step (drives n) := by
  rw [Machine.run_succ, Nat.zero_add]
  rfl

theorem LsuFair.choices {drives : Nat → LsuDrive} (fair : LsuFair drives) :
    Fair (fun n => (drives n).choice) where
  ifuAr t := ⟨t, Nat.le_refl t, rfl⟩
  ifuR t := ⟨t, Nat.le_refl t, rfl⟩
  lsuAr := fair.ar
  lsuR := fair.r
  lsuAw := fair.aw
  lsuW := fair.w
  lsuB := fair.b

section Run

variable {mem : ByteMem 32} {drives : Nat → LsuDrive}

theorem exists_lsuHolds (use : LsuUse drives (lsuMachine.run drives 0 (LsuSystem.reset mem)))
    (n : Nat) : ∃ model, LsuHolds model (lsuMachine.run drives 0 (LsuSystem.reset mem) n) := by
  induction n with
  | zero => exact ⟨mem, .inl ⟨lsuIdle_reset mem, rfl⟩⟩
  | succ n ih =>
      obtain ⟨model, holds⟩ := ih
      rw [lsuMachine_run_succ]
      exact ⟨_, holds.step (use.free n) (use.aligned n)⟩

/-- Memory keeps what the last store left, up to the next one. -/
theorem LsuHolds.run (use : LsuUse drives (lsuMachine.run drives 0 (LsuSystem.reset mem)))
    {model : ByteMem 32} {m n : Nat} (after : m ≤ n)
    (holds : LsuHolds model (lsuMachine.run drives 0 (LsuSystem.reset mem) m))
    (only : ∀ k, m ≤ k → k < n → ∀ op addr data,
      (drives k).request ≠ some (.store op addr data)) :
    LsuHolds model (lsuMachine.run drives 0 (LsuSystem.reset mem) n) := by
  induction n, after using Nat.le_induction with
  | base => exact holds
  | succ n after ih =>
      have next := (ih fun k late early => only k late (by omega)).step (use.free n)
        (use.aligned n)
      have same : storedBy model ((drives n).request.getD .none) = model := by
        have noStore := only n after (Nat.lt_succ_self n)
        cases request : (drives n).request with
        | none => rfl
        | some access =>
            cases access with
            | none => rfl
            | load op addr => rfl
            | store op addr data => exact absurd request (noStore op addr data)
      rwa [same, ← lsuMachine_run_succ] at next

/-- The phases of an access go by in the unit as they do in the core. -/
theorem LsuAt.advances (use : LsuUse drives (lsuMachine.run drives 0 (LsuSystem.reset mem)))
    {t u : Nat} {tx tx' : Tx (ByteMem 32)} {instr : Word} {shown : List Event}
    (at_ : LsuAt (lsuMachine.run drives 0 (LsuSystem.reset mem) t) tx)
    (issued : tx.phase.issued = some instr)
    (advances : Advances memoryDevice (fun n => (drives n).choice) t tx shown u tx') :
    t ≤ u ∧ LsuAt (lsuMachine.run drives 0 (LsuSystem.reset mem) u) tx' ∧
      ∀ n, t ≤ n → n < u →
        (lsuMachine.run drives 0 (LsuSystem.reset mem) n).postValid (drives n) = false := by
  obtain ⟨steps, rfl, rfl, _, inside⟩ := advances
  have phases : ∀ k, k ≤ steps →
      LsuAt (lsuMachine.run drives 0 (LsuSystem.reset mem) (t + k))
          ((txMachine memoryDevice).run (fun n => (drives n).choice) t tx k) ∧
        ((txMachine memoryDevice).run (fun n => (drives n).choice) t tx k).phase.issued =
          some instr := by
    intro k bound
    induction k with
    | zero => exact ⟨at_, issued⟩
    | succ k ih =>
        obtain ⟨here, busy⟩ := ih (by omega)
        have silent : (drives (t + k)).request = none := by
          by_contra asked
          have free := use.free (t + k) (Option.isSome_iff_ne_none.mpr asked)
          rw [here.not_free busy] at free
          cases free
        have next := here.busy_step busy (drives (t + k)).choice (drives (t + k)).lines
        rw [← Nat.add_assoc, lsuMachine_run_succ, Machine.run_succ, LsuSystem.step, silent]
        exact ⟨next, Tx.issued_step busy (inside k (by omega)).2⟩
  refine ⟨Nat.le_add_right t steps, (phases steps (Nat.le_refl steps)).1, ?_⟩
  intro n late early
  obtain ⟨k, rfl⟩ := Nat.exists_eq_add_of_le late
  rw [(phases k (by omega)).1.postValid]
  exact (inside k (by omega)).2

end Run

/-- Every aligned load returns the bytes of the memory in which the last store replaced
exactly its own, whatever the widths, the addresses and the delays. -/
theorem lane_round_trip {mem : ByteMem 32} {drives : Nat → LsuDrive} (fair : LsuFair drives)
    (use : LsuUse drives (lsuMachine.run drives 0 (LsuSystem.reset mem)))
    {s l : Nat} (later : s < l) {op : StoreOp} {addr data : Word} {op' : LoadOp} {addr' : Word}
    (store : (drives s).request = some (.store op addr data))
    (load : (drives l).request = some (.load op' addr'))
    (only : ∀ n, s < n → n < l → ∀ op addr data,
      (drives n).request ≠ some (.store op addr data)) :
    let sys := lsuMachine.run drives 0 (LsuSystem.reset mem)
    let stored : ByteMem 32 := fun at_ =>
      if (at_ - addr).toNat < op.size then data.extractLsb' (8 * (at_ - addr).toNat) 8
      else (sys s).mem at_
    ∃ d, l < d ∧ (∀ n, l < n → n < d → (sys n).postValid (drives n) = false) ∧
      (sys d).postValid (drives d) = true ∧
      (sys d).regld (drives d) = op'.extend (stored.readLe addr' op'.size) ∧
      (sys d).mem = stored := by
  intro sys stored
  obtain ⟨model, before⟩ := exists_lsuHolds use s
  obtain ⟨_, rfl⟩ := before.idle_of_free (use.free s (by rw [store]; rfl))
  have held : LsuHolds stored (sys (s + 1)) := by
    have next := before.step (use.free s) (use.aligned s)
    rw [store, ← lsuMachine_run_succ] at next
    exact next
  obtain ⟨idle, same⟩ := (held.run use later fun n late early => only n late early).idle_of_free
    (use.free l (by rw [load]; rfl))
  have lines : (drives l).lines = ⟨loadCode op', addr', (drives l).regst⟩ := by
    rw [LsuDrive.lines, load]
  obtain ⟨opt, addrOf, _⟩ := issue_line (drives l).lines
  have asked := idle.request load
  have isLoad : ((lineArch (drives l).lines).issue (lineWord (drives l).lines.opt)).isLoad =
      true := by
    rw [Issue.isLoad, opt, lines]
    cases op' <;> simp [lsuRen, loadCode]
  rw [Arch.dispatch, if_pos isLoad, ← lsuMachine_run_succ] at asked
  obtain ⟨d, advances⟩ := load_advances memoryDevice fair.choices (lineArch (drives l).lines)
    (sys l).mem (lineWord (drives l).lines.opt) (l + 1)
  obtain ⟨after, at_, silent⟩ := asked.advances use rfl advances
  refine ⟨d, after, fun n late early => silent n late early, ?_, ?_, ?_⟩
  · rw [at_.postValid]
    rfl
  · obtain ⟨_, _, _, ar, slave⟩ := at_.read
    have code : (sys d).lsu.opt = loadCode op' := by
      rw [at_.opt _ rfl, opt, lines]
    have target : (sys d).lsu.ar.addr = addr' := by
      rw [ar]
      exact addrOf.trans (by rw [lines])
    have word : ((sys d).bus (drives d).choice).rdata =
        stored.readLe (ByteMem.wordBase addr') 4 := by
      rw [LsuSystem.bus, slave, ← same, ← target, ar]
      rfl
    rw [LsuSystem.regld, Lsu.regld, code, target, word]
    exact lsuRegld_readLe stored (use.aligned l _ load)
  · rw [at_.mem]
    exact same

/-- `sh` of 0x8081 and, six cycles after the store began, `lb` of its upper byte. -/
def storeThenLoad (n : Nat) : LsuDrive where
  request := if n = 0 then some (.store .sh 0x80000002#32 0x8081#32) else
    if n = 6 then some (.load .lb 0x80000003#32) else none
  opt := lsuNop
  addr := 0#32
  regst := 0#32
  ar := true
  r := true
  aw := true
  w := true
  b := true
  idleData := 0#32
  idleLast := false

theorem lane_round_trip_lb :
    let sys := lsuMachine.run storeThenLoad 0 (LsuSystem.reset fun _ => 0#8)
    ∃ d, (sys d).postValid (storeThenLoad d) = true ∧
      (sys d).regld (storeThenLoad d) = 0xffffff80#32 := by
  intro sys
  have often : ∀ condition : LsuDrive → Prop, (∀ n, condition (storeThenLoad n)) →
      Machine.Often storeThenLoad condition := fun _ holds t => ⟨t, Nat.le_refl t, holds t⟩
  have fair : LsuFair storeThenLoad :=
    ⟨often _ fun _ => rfl, often _ fun _ => rfl, often _ fun _ => rfl, often _ fun _ => rfl,
      often _ fun _ => rfl⟩
  have requests : ∀ n access, (storeThenLoad n).request = some access →
      (n = 0 ∧ access = .store .sh 0x80000002#32 0x8081#32) ∨
        (n = 6 ∧ access = .load .lb 0x80000003#32) := by
    intro n access asked
    simp only [storeThenLoad] at asked
    split_ifs at asked <;> simp_all
  have use : LsuUse storeThenLoad sys := by
    constructor
    · intro n asked
      obtain ⟨access, request⟩ := Option.isSome_iff_exists.mp asked
      rcases requests n access request with ⟨rfl, -⟩ | ⟨rfl, -⟩
      · decide +kernel
      · decide +kernel
    · intro n access request
      rcases requests n access request with ⟨-, rfl⟩ | ⟨-, rfl⟩
      · rfl
      · rfl
  obtain ⟨d, -, -, valid, value, -⟩ := lane_round_trip fair use (s := 0) (l := 6) (by decide) rfl
    rfl (by
      intro n late early op addr data asked
      rcases requests n _ asked with ⟨rfl, -⟩ | ⟨rfl, -⟩ <;> omega)
  refine ⟨d, valid, value.trans ?_⟩
  decide +kernel

/-!
## The unit in the core
-/

/-- In the core the unit sees the ports of the issued word, and `i_pre_valid` only while no
access is outstanding. -/
theorem lsu_in_core (choices : Nat → Choice) (build : Build) (rf : Regfile) (mem : ByteMem 32)
    (n : Nat) :
    let sys := (machine memoryDevice).run choices 0 (System.reset build rf mem)
    let issue := (sys n).core.arch.issue (sys n).core.ifu.instr
    let preValid := (sys n).core.ifuValid ((sys n).ifuBus (choices n))
    (sys (n + 1)).lsuPart =
        (sys n).lsuPart.clock (choices n) ⟨issue.lsuOpt, issue.addr, issue.regst⟩ preValid ∧
      (preValid = true → (sys n).lsuPart.free = true) := by
  intro sys issue preValid
  have related : At (sys n) ((txMachine memoryDevice).run choices 0 (Tx.reset build rf mem) n) :=
    (simulates memoryDevice).run (at_reset build rf mem) choices 0 n
  have next : sys (n + 1) = (sys n).step memoryDevice (choices n) := by
    simp only [sys]
    rw [Machine.run_succ, Nat.zero_add]
    rfl
  constructor
  · rw [next, LsuSystem.clock_eq]
    simp only [System.lsuPart, System.step, readIf_memoryDevice_snd]
    rfl
  · intro valid
    have take := valid.symm.trans (related.ifuValid (choices n))
    have nop := related.validR
    have read := related.read.rDone
    have write := related.write.wDone
    simp only [LsuSystem.free, System.lsuPart]
    rw [read, write] at nop ⊢
    generalize Tx.phase _ = phase at take nop
    cases phase with
    | fetchTake _ => simpa [Phase.isLoad, Phase.isStore, Phase.isNop] using nop
    | _ => cases take

end Ysyx.Npc
