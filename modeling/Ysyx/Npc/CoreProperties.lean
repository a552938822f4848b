import Ysyx.Npc.Transaction
import Mathlib.Tactic.SplitIfs

/-! The core and its slaves are, cycle for cycle, the transaction machine: the
latched copies and the handshake flags of the six units are determined by the
phase. From this, one fetch and one commit for each instruction, whatever the
delays. -/

set_option autoImplicit false

namespace Ysyx.Npc

open Rv32 (Word RegId Byte opcode funct3)
open Lib (Machine)

variable {σ : Type} {dev : Device σ} {choice : Choice} {arch : Arch} {mem : σ}

/-!
## The fetch unit
-/

section Fetch

variable {ifu : Ifu} {slave : ReadSlave} {phase : Phase}

theorem IfuQuiet.dispatch (quiet : IfuQuiet ifu slave) (instr : Word) :
    IfuAt ifu slave arch (arch.dispatch instr) := by
  simp only [Arch.dispatch]
  split_ifs <;> exact quiet

/-- A quiet fetch unit stays quiet until the writeback unit is ready. -/
theorem IfuQuiet.next (quiet : IfuQuiet ifu slave) (data : Word) :
    IfuQuiet (ifu.next (ifuBusOf slave choice) arch.pc false)
      (slave.next (ifu.arvalid && (ifuBusOf slave choice).arready) data choice.ifuR
        ifu.rready) := by
  obtain ⟨done, arvalid, rready, rfl⟩ := quiet
  simp [IfuQuiet, Ifu.next, done, arvalid, rready]

theorem ifuAt_step (data : Word) (at_ : IfuAt ifu slave arch phase)
    (fetched : phase = .fetchAddr → choice.ifuAr = true →
      data = (dev.read mem arch.fetch).1) :
    IfuAt (ifu.next (ifuBusOf slave choice) arch.pc (decide (phase = .start)))
      (slave.next (ifu.arvalid && (ifuBusOf slave choice).arready) data choice.ifuR ifu.rready)
      (Tx.step dev choice ⟨arch, mem, phase⟩).arch
      (Tx.step dev choice ⟨arch, mem, phase⟩).phase := by
  cases phase with
  | start =>
      obtain ⟨done, arvalid, rready, rfl⟩ := at_
      simp [IfuAt, Ifu.next, Tx.step, done, arvalid, rready, Arch.fetch]
  | fetchAddr =>
      obtain ⟨done, arvalid, rready, ar, rfl⟩ := at_
      cases accept : choice.ifuAr <;> cases raise : choice.ifuR <;>
        simp_all [IfuAt, Ifu.next, Tx.step]
  | fetchWait instr =>
      obtain ⟨done, arvalid, rready, rfl⟩ := at_
      cases raise : choice.ifuR <;>
        simp [IfuAt, Ifu.next, Tx.step, done, arvalid, rready, raise]
  | fetchData instr =>
      obtain ⟨done, arvalid, rready, rfl⟩ := at_
      simp [IfuAt, Ifu.next, Tx.step, done, arvalid, rready]
  | fetchTake instr =>
      obtain ⟨done, arvalid, rready, same, rfl⟩ := at_
      apply IfuQuiet.dispatch
      simp [IfuQuiet, Ifu.next, done, arvalid, rready]
  | nop _ | loadData _ _ | loadTake _ _ | storeData _ | storeTake _ =>
      exact IfuQuiet.next at_ data
  | loadAddr _ | loadWait _ _ | storeReq _ _ _ | storeWait _ =>
      simp only [Tx.step]
      split_ifs <;> exact IfuQuiet.next at_ data

/-- The fetch unit hands over exactly the word it took from the bus. -/
theorem ifuAt_postValid (at_ : IfuAt ifu slave arch phase) :
    ifu.postValid (ifuBusOf slave choice) = phase.isTake := by
  cases phase with
  | fetchAddr =>
      obtain ⟨_, _, rready, _, rfl⟩ := at_
      simp [Ifu.postValid, Phase.isTake]
  | fetchTake instr =>
      obtain ⟨_, _, rready, _, rfl⟩ := at_
      simp [Ifu.postValid, Phase.isTake, rready]
  | fetchWait _ | fetchData _ =>
      obtain ⟨_, _, rready, rfl⟩ := at_
      simp [Ifu.postValid, Phase.isTake, rready]
  | _ =>
      obtain ⟨_, _, rready, rfl⟩ := at_
      simp [Ifu.postValid, Phase.isTake]

end Fetch

/-!
## Loads
-/

section Read

variable {lsu : Lsu} {read : ReadSlave} {write : WriteSlave} {phase : Phase} {opt : BitVec 4}
  {addr regst : Word}

theorem ReadQuiet.next (quiet : ReadQuiet lsu read) (data : Word) {preValid : Bool}
    (noLoad : (lsuRen opt && preValid) = false) :
    ReadQuiet (lsu.next (lsuBusOf read write choice) opt addr regst preValid)
      (read.next (lsu.arvalid && (lsuBusOf read write choice).arready) data choice.lsuR
        lsu.rready) := by
  obtain ⟨done, arvalid, rready, rfl⟩ := quiet
  simp [ReadQuiet, Lsu.next, noLoad, done, arvalid, rready]

theorem readAt_step (write : WriteSlave) (regst data : Word) (at_ : ReadAt lsu read arch phase)
    (loaded : ∀ instr, phase = .loadAddr instr → choice.lsuAr = true →
      data = (dev.read mem (arch.issue instr).ar).1)
    (issued : ∀ instr, phase = .fetchTake instr →
      opt = (arch.issue instr).lsuOpt ∧ addr = (arch.issue instr).addr) :
    ReadAt (lsu.next (lsuBusOf read write choice) opt addr regst phase.isTake)
      (read.next (lsu.arvalid && (lsuBusOf read write choice).arready) data choice.lsuR lsu.rready)
      (Tx.step dev choice ⟨arch, mem, phase⟩).arch
      (Tx.step dev choice ⟨arch, mem, phase⟩).phase := by
  cases phase with
  | fetchTake instr =>
      obtain ⟨rfl, rfl⟩ := issued instr rfl
      obtain ⟨done, arvalid, rready, rfl⟩ := at_
      simp only [Tx.step, Arch.dispatch, Phase.isTake]
      split_ifs with load store
      · have ren : lsuRen (arch.issue instr).lsuOpt = true := load
        simp [ReadAt, Lsu.next, done, arvalid, rready, ren, Issue.ar]
      · exact ReadQuiet.next ⟨done, arvalid, rready, rfl⟩ data (by simpa [Issue.isLoad] using load)
      · exact ReadQuiet.next ⟨done, arvalid, rready, rfl⟩ data (by simpa [Issue.isLoad] using load)
  | loadAddr instr =>
      obtain ⟨done, arvalid, rready, ar, rfl⟩ := at_
      have value := loaded instr rfl
      cases accept : choice.lsuAr <;> cases raise : choice.lsuR <;>
        simp_all [ReadAt, Lsu.next, Tx.step, Phase.isTake]
  | loadWait instr word =>
      obtain ⟨done, arvalid, rready, ar, rfl⟩ := at_
      cases raise : choice.lsuR <;>
        simp [ReadAt, Lsu.next, Tx.step, Phase.isTake, done, arvalid, rready, ar, raise]
  | loadData instr word =>
      obtain ⟨done, arvalid, rready, ar, rfl⟩ := at_
      simp [ReadAt, Lsu.next, Tx.step, Phase.isTake, done, arvalid, rready, ar]
  | loadTake instr word =>
      obtain ⟨done, arvalid, rready, ar, rfl⟩ := at_
      simp [ReadAt, ReadQuiet, Lsu.next, Tx.step, Phase.isTake, done, arvalid, rready]
  | start | fetchData _ | nop _ | storeData _ | storeTake _ =>
      exact ReadQuiet.next at_ data (Bool.and_false _)
  | fetchAddr | fetchWait _ | storeReq _ _ _ | storeWait _ =>
      simp only [Tx.step]
      split_ifs <;> exact ReadQuiet.next at_ data (Bool.and_false _)

end Read

/-!
## Stores
-/

section Write

variable {lsu : Lsu} {read : ReadSlave} {write : WriteSlave} {phase : Phase} {opt : BitVec 4}
  {addr regst : Word}

theorem WriteQuiet.next (quiet : WriteQuiet lsu write) (mem : σ) {preValid : Bool}
    (noStore : (lsuWen opt && preValid) = false) :
    WriteQuiet (lsu.next (lsuBusOf read write choice) opt addr regst preValid)
        (write.next dev mem (lsu.awBeat (lsuBusOf read write choice))
          (lsu.wBeat (lsuBusOf read write choice)) choice.lsuB lsu.bready).1 ∧
      (write.next dev mem (lsu.awBeat (lsuBusOf read write choice))
          (lsu.wBeat (lsuBusOf read write choice)) choice.lsuB lsu.bready).2 = mem := by
  obtain ⟨done, awvalid, wvalid, bready, rfl⟩ := quiet
  simp [WriteQuiet, Lsu.next, WriteSlave.next, WriteSlave.collected, Lsu.awBeat, Lsu.wBeat, noStore,
    done, awvalid, wvalid, bready]

/-- What the write slave does to memory in a phase. -/
def Phase.stored (dev : Device σ) (choice : Choice) (arch : Arch) (mem : σ) : Phase → σ
  | .storeReq instr awDone wDone =>
      let issue := arch.issue instr
      if (awDone || choice.lsuAw) && (wDone || choice.lsuW) then
        dev.write mem issue.aw issue.wdata issue.wstrb
      else mem
  | _ => mem

theorem writeAt_step (mem now : σ) (at_ : WriteAt lsu write arch phase)
    (index : lsu.writeIndex = 0#1)
    (opted : ∀ instr, phase.issued = some instr → lsu.opt = (arch.issue instr).lsuOpt)
    (issued : ∀ instr, phase = .fetchTake instr →
      opt = (arch.issue instr).lsuOpt ∧ addr = (arch.issue instr).addr ∧
        regst = (arch.issue instr).regst) :
    WriteAt (lsu.next (lsuBusOf read write choice) opt addr regst phase.isTake)
        (write.next dev mem (lsu.awBeat (lsuBusOf read write choice))
          (lsu.wBeat (lsuBusOf read write choice)) choice.lsuB lsu.bready).1
        (Tx.step dev choice ⟨arch, now, phase⟩).arch
        (Tx.step dev choice ⟨arch, now, phase⟩).phase ∧
      (write.next dev mem (lsu.awBeat (lsuBusOf read write choice))
          (lsu.wBeat (lsuBusOf read write choice)) choice.lsuB lsu.bready).2 =
        phase.stored dev choice arch mem := by
  cases phase with
  | fetchTake instr =>
      obtain ⟨rfl, rfl, rfl⟩ := issued instr rfl
      obtain ⟨done, awvalid, wvalid, bready, rfl⟩ := at_
      simp only [Tx.step, Arch.dispatch, Phase.isTake]
      split_ifs with load store
      · apply WriteQuiet.next ⟨done, awvalid, wvalid, bready, rfl⟩
        have := isStore_false_of_isLoad load
        simpa [Issue.isStore] using this
      · have wen : lsuWen (arch.issue instr).lsuOpt = true := store
        simp [WriteAt, Lsu.next, done, awvalid, wvalid, bready, wen, Issue.aw, Issue.wdata,
          WriteSlave.next, WriteSlave.collected, Lsu.awBeat, Lsu.wBeat, Lsu.wlastNext, Phase.stored]
      · exact WriteQuiet.next ⟨done, awvalid, wvalid, bready, rfl⟩ mem
          (by simpa [Issue.isStore] using store)
  | storeReq instr awDone wDone =>
      obtain ⟨done, awvalid, wvalid, bready, aw, wdata, last, rfl⟩ := at_
      have strb : lsu.wstrb = (arch.issue instr).wstrb := by
        rw [Lsu.wstrb, opted instr rfl, aw]
        rfl
      cases awDone <;> cases wDone <;> cases acceptAw : choice.lsuAw <;>
        cases acceptW : choice.lsuW <;>
        cases raise : choice.lsuB <;>
        simp_all [WriteAt, Lsu.next, Tx.step, Phase.isTake, WriteSlave.next, WriteSlave.collected,
          Lsu.awBeat, Lsu.wBeat, Lsu.wlastNext, Lsu.wlast, Phase.stored]
  | storeWait instr =>
      obtain ⟨done, awvalid, wvalid, bready, rfl⟩ := at_
      cases raise : choice.lsuB <;>
        simp [WriteAt, Lsu.next, Tx.step, Phase.isTake, WriteSlave.next, Phase.stored, done,
          awvalid, wvalid, bready, raise]
  | storeData instr =>
      obtain ⟨done, awvalid, wvalid, bready, rfl⟩ := at_
      simp [WriteAt, Lsu.next, Tx.step, Phase.isTake, WriteSlave.next, Phase.stored, done, awvalid,
        wvalid, bready]
  | storeTake instr =>
      obtain ⟨done, awvalid, wvalid, bready, rfl⟩ := at_
      simp [WriteAt, WriteQuiet, Lsu.next, Tx.step, Phase.isTake, WriteSlave.next, Phase.stored,
        done, awvalid, wvalid, bready]
  | start | fetchData _ | nop _ | loadData _ _ | loadTake _ _ =>
      exact WriteQuiet.next at_ mem (Bool.and_false _)
  | fetchAddr | fetchWait _ | loadAddr _ | loadWait _ _ =>
      simp only [Tx.step]
      split_ifs <;> exact WriteQuiet.next at_ mem (Bool.and_false _)

end Write

/-!
## The simulation
-/

section Simulation

variable {sys : System σ} {tx : Tx σ}

theorem ReadAt.rDone {lsu : Lsu} {slave : ReadSlave} {phase : Phase}
    (at_ : ReadAt lsu slave arch phase) :
    lsu.rDone = !phase.isLoad := by
  cases phase <;> exact at_.1

theorem WriteAt.wDone {lsu : Lsu} {slave : WriteSlave} {phase : Phase}
    (at_ : WriteAt lsu slave arch phase) :
    lsu.wDone = !phase.isStore := by
  cases phase <;> exact at_.1

theorem At.ifuValid (at_ : At sys tx) (choice : Choice) :
    sys.core.ifuValid (sys.ifuBus choice) = tx.phase.isTake :=
  ifuAt_postValid at_.ifu

/-- `lsu_valid` is up in the cycles in which the phase commits. -/
theorem postValid_eq {lsu : Lsu} {readSlave : ReadSlave} {writeSlave : WriteSlave} {phase : Phase}
    (nop : (lsu.wDone && lsu.rDone && lsu.validR) = phase.isNop)
    (read : ReadAt lsu readSlave arch phase) (write : WriteAt lsu writeSlave arch phase)
    (choice : Choice) :
    lsu.postValid (lsuBusOf readSlave writeSlave choice) = phase.commits := by
  simp only [Lsu.postValid, lsuBusOf, nop]
  cases phase with
  | loadTake instr data =>
      obtain ⟨done, _, rready, _, slave⟩ := read
      simp [Phase.commits, done, rready, slave]
  | storeTake instr =>
      obtain ⟨done, _, _, bready, slave⟩ := write
      simp [Phase.commits, done, bready, slave]
  | loadAddr _ | loadWait _ _ | loadData _ _ =>
      obtain ⟨_, _, rready, _, _⟩ := read
      obtain ⟨done, _⟩ := write
      simp [Phase.commits, Phase.isNop, done, rready]
  | storeReq _ _ _ =>
      obtain ⟨done, _⟩ := read
      obtain ⟨_, _, _, bready, _⟩ := write
      simp [Phase.commits, Phase.isNop, done, bready]
  | storeWait _ | storeData _ =>
      obtain ⟨done, _⟩ := read
      obtain ⟨_, _, _, bready, _⟩ := write
      simp [Phase.commits, Phase.isNop, done, bready]
  | _ =>
      obtain ⟨rDone, _⟩ := read
      obtain ⟨wDone, _⟩ := write
      simp [Phase.commits, Phase.isNop, rDone, wDone]

theorem At.lsuValid (at_ : At sys tx) (choice : Choice) :
    sys.core.lsuValid (sys.lsuBus choice) = tx.phase.commits :=
  postValid_eq at_.validR at_.read at_.write choice

theorem At.ifuTaken (at_ : At sys tx) :
    (sys.core.ifu.arvalid && (sys.ifuBus choice).arready) =
      (decide (tx.phase = .fetchAddr) && choice.ifuAr) := by
  have ifu := at_.ifu
  obtain ⟨arch, mem, phase⟩ := tx
  simp only [System.ifuBus, ifuBusOf]
  cases phase with
  | fetchAddr =>
      obtain ⟨_, arvalid, _, _, slave⟩ := ifu
      simp [arvalid, slave]
  | fetchTake _ =>
      obtain ⟨_, arvalid, _⟩ := ifu
      simp [arvalid]
  | _ =>
      obtain ⟨_, arvalid, _⟩ := ifu
      simp [arvalid]

def Phase.isLoadAddr : Phase → Bool
  | .loadAddr _ => true
  | _ => false

theorem At.lsuTaken (at_ : At sys tx) :
    (sys.core.lsu.arvalid && (sys.lsuBus choice).arready) =
      (tx.phase.isLoadAddr && choice.lsuAr) := by
  have read := at_.read
  obtain ⟨arch, mem, phase⟩ := tx
  simp only [System.lsuBus, lsuBusOf]
  cases phase with
  | loadAddr _ =>
      obtain ⟨_, arvalid, _, _, slave⟩ := read
      simp [Phase.isLoadAddr, arvalid, slave]
  | _ =>
      obtain ⟨_, arvalid, _⟩ := read
      simp [Phase.isLoadAddr, arvalid]

/-- The latches of the units load at the issue and hold after it. -/
theorem Latched.next {core : Core} {issue : Issue} {ifuBus : IfuBus} {lsuBus : LsuBus}
    (latched : Latched core issue) (idle : core.ifuValid ifuBus = false) :
    Latched (core.next ifuBus lsuBus) issue := by
  obtain ⟨signals, iru, pcNext, opt⟩ := latched
  constructor <;> simp [Core.next, idle, Wbu.next, Iru.next, Bru.next, Lsu.next, signals, iru,
    pcNext, opt]

theorem Latched.issue {core : Core} {instr : Word} {ifuBus : IfuBus} {lsuBus : LsuBus}
    (valid : core.ifuValid ifuBus = true) (same : core.ifu.instr = instr) :
    Latched (core.next ifuBus lsuBus) (core.arch.issue instr) := by
  subst same
  constructor <;> simp [Core.next, valid, Wbu.next, Iru.next, Bru.next, Lsu.next, Arch.issue,
    WbuSignals.load, Core.arch]

theorem Core.arch_next_idle {core : Core} {ifuBus : IfuBus} {lsuBus : LsuBus}
    (idle : core.lsuValid lsuBus = false) : (core.next ifuBus lsuBus).arch = core.arch := by
  simp [Core.next, Core.arch, idle, Bru.next]

theorem Core.arch_next_commit {core : Core} {issue : Issue} {rdata : Word} {ifuBus : IfuBus}
    {lsuBus : LsuBus}
    (latched : Latched core issue) (valid : core.lsuValid lsuBus = true)
    (value : issue.signals.ldEn = true → core.lsu.ar = issue.ar ∧ lsuBus.rdata = rdata) :
    (core.next ifuBus lsuBus).arch = core.arch.retire issue rdata := by
  obtain ⟨signals, iru, pcNext, opt⟩ := latched
  have rd : issue.signals.rd (core.lsu.regld lsuBus) =
      issue.signals.rd (lsuRegld issue.lsuOpt issue.addr rdata) := by
    cases load : issue.signals.ldEn with
    | false => simp [WbuSignals.rd, load]
    | true =>
        obtain ⟨ar, data⟩ := value load
        simp only [Lsu.regld, opt, ar, data]
        rfl
  simp [Core.next, Core.arch, Arch.retire, valid, Bru.next, signals, iru, pcNext, rd]

theorem ldEn_of_not_load {instr : Word} (noLoad : (arch.issue instr).isLoad = false) :
    (arch.issue instr).signals.ldEn = false := by
  have low : ∀ opt : BitVec 4, lsuRen opt = false → (!opt.getLsbD 0) = false := by decide
  exact low _ noLoad

theorem At.issued (at_ : At sys tx) {instr : Word} (take : tx.phase = .fetchTake instr) :
    sys.core.arch.issue sys.core.ifu.instr = tx.arch.issue instr := by
  have ifu := at_.ifu
  rw [take] at ifu
  obtain ⟨_, _, _, same, _⟩ := ifu
  rw [at_.arch, same]

/-- The fetch and the load of a cycle, as the phase has them. -/
theorem At.reads (at_ : At sys tx) (dev : Device σ) (choice : Choice) :
    readIf dev sys.mem (sys.core.ifu.arvalid && (sys.ifuBus choice).arready) sys.core.ifu.ar =
        readIf dev tx.mem (decide (tx.phase = .fetchAddr) && choice.ifuAr) tx.arch.fetch ∧
      ∀ mem, readIf dev mem (sys.core.lsu.arvalid && (sys.lsuBus choice).arready) sys.core.lsu.ar =
        match tx.phase with
        | .loadAddr instr => readIf dev mem choice.lsuAr (tx.arch.issue instr).ar
        | _ => (0#32, mem) := by
  have ifu := at_.ifu
  have read := at_.read
  rw [at_.ifuTaken, at_.lsuTaken, at_.mem]
  obtain ⟨arch, mem, phase⟩ := tx
  constructor
  · cases phase with
    | fetchAddr =>
        obtain ⟨_, _, _, ar, _⟩ := ifu
        rw [ar]
    | _ => simp [readIf]
  · intro mem
    cases phase with
    | loadAddr instr =>
        obtain ⟨_, _, _, ar, _⟩ := read
        simp only [Phase.isLoadAddr, Bool.true_and]
        rw [ar]
    | _ => rfl

theorem At.write_step (at_ : At sys tx) (dev : Device σ) (choice : Choice) (mem : σ) :
    WriteAt (sys.step dev choice).core.lsu
        (sys.lsuWrite.next dev mem (sys.core.lsu.awBeat (sys.lsuBus choice))
          (sys.core.lsu.wBeat (sys.lsuBus choice)) choice.lsuB sys.core.lsu.bready).1
        (tx.step dev choice).arch (tx.step dev choice).phase ∧
      (sys.lsuWrite.next dev mem (sys.core.lsu.awBeat (sys.lsuBus choice))
          (sys.core.lsu.wBeat (sys.lsuBus choice)) choice.lsuB sys.core.lsu.bready).2 =
        tx.phase.stored dev choice tx.arch mem := by
  have next : (sys.step dev choice).core.lsu =
      sys.core.lsu.next (sys.lsuBus choice) (sys.core.arch.issue sys.core.ifu.instr).lsuOpt
        (sys.core.arch.issue sys.core.ifu.instr).addr
        (sys.core.arch.issue sys.core.ifu.instr).regst tx.phase.isTake := by
    rw [← at_.ifuValid choice]
    rfl
  have issued : ∀ instr, tx.phase = .fetchTake instr →
      (sys.core.arch.issue sys.core.ifu.instr).lsuOpt = (tx.arch.issue instr).lsuOpt ∧
        (sys.core.arch.issue sys.core.ifu.instr).addr = (tx.arch.issue instr).addr ∧
        (sys.core.arch.issue sys.core.ifu.instr).regst = (tx.arch.issue instr).regst := by
    intro instr take
    rw [at_.issued take]
    exact ⟨rfl, rfl, rfl⟩
  rw [next]
  have opted : ∀ instr, tx.phase.issued = some instr →
      sys.core.lsu.opt = (tx.arch.issue instr).lsuOpt :=
    fun instr known => (at_.latched instr known).opt
  exact writeAt_step mem tx.mem at_.write at_.index opted issued

theorem At.mem_step (at_ : At sys tx) : (sys.step dev choice).mem = (tx.step dev choice).mem := by
  have stored := (at_.write_step dev choice
    (readIf dev (readIf dev sys.mem (sys.core.ifu.arvalid && (sys.ifuBus choice).arready)
      sys.core.ifu.ar).2
      (sys.core.lsu.arvalid && (sys.lsuBus choice).arready) sys.core.lsu.ar).2).2
  obtain ⟨fetch, load⟩ := at_.reads dev choice
  have after : (sys.step dev choice).mem = _ := stored
  rw [after, load, fetch]
  obtain ⟨arch, mem, phase⟩ := tx
  cases phase with
  | fetchAddr => cases accept : choice.ifuAr <;> simp [Phase.stored, readIf, Tx.step, accept]
  | loadAddr instr => cases accept : choice.lsuAr <;> simp [Phase.stored, readIf, Tx.step, accept]
  | storeReq instr awDone wDone =>
      simp only [Phase.stored, readIf, Tx.step]
      split_ifs <;> simp_all
  | fetchWait _ | loadWait _ _ | storeWait _ =>
      simp only [Phase.stored, readIf, Tx.step]
      split_ifs <;> simp_all
  | _ => simp [Phase.stored, readIf, Tx.step]

theorem At.arch_step (at_ : At sys tx) :
    (sys.step dev choice).core.arch = (tx.step dev choice).arch := by
  have valid := at_.lsuValid choice
  have same := at_.arch
  have latched := at_.latched
  have plain := at_.plain
  have read := at_.read
  obtain ⟨arch, mem, phase⟩ := tx
  simp only at same
  subst same
  cases phase with
  | nop instr =>
      exact Core.arch_next_commit (latched instr rfl) valid
        (fun load => absurd load (by simp [plain instr rfl rfl]))
  | loadTake instr data =>
      obtain ⟨_, _, _, ar, slave⟩ := read
      exact Core.arch_next_commit (latched instr rfl) valid
        (fun _ => ⟨ar, by simp [System.lsuBus, slave]⟩)
  | storeTake instr =>
      exact Core.arch_next_commit (latched instr rfl) valid
        (fun load => absurd load (by simp [plain instr rfl rfl]))
  | start | fetchData _ | fetchTake _ | loadData _ _ | storeData _ =>
      exact Core.arch_next_idle valid
  | fetchAddr | fetchWait _ | loadAddr _ | loadWait _ _ | storeReq _ _ _ | storeWait _ =>
      simp only [Tx.step]
      split_ifs <;> exact Core.arch_next_idle valid

theorem Tx.step_start_iff (tx : Tx σ) :
    (tx.step dev choice).phase = .start ↔ tx.phase.commits = true := by
  obtain ⟨arch, mem, phase⟩ := tx
  cases phase with
  | start | fetchData _ | nop _ | loadData _ _ | loadTake _ _ | storeData _ | storeTake _ =>
      simp [Tx.step, Phase.commits]
  | _ =>
      simp only [Tx.step, Arch.dispatch, Phase.commits]
      split_ifs <;> simp

theorem Tx.step_isNop (tx : Tx σ) :
    (tx.step dev choice).phase.isNop =
      (!(tx.step dev choice).phase.isStore && !(tx.step dev choice).phase.isLoad &&
        tx.phase.isTake) := by
  obtain ⟨arch, mem, phase⟩ := tx
  cases phase with
  | start | fetchData _ | nop _ | loadData _ _ | loadTake _ _ | storeData _ | storeTake _ => rfl
  | _ =>
      simp only [Tx.step, Arch.dispatch, Phase.isTake]
      split_ifs <;> rfl

/-- A word in execution was in execution before, or has just been taken. -/
theorem Tx.step_issued {tx : Tx σ} {instr : Word}
    (issued : (tx.step dev choice).phase.issued = some instr) :
    (tx.step dev choice).arch = tx.arch ∧
      ((tx.phase.issued = some instr ∧ (tx.step dev choice).phase.isLoad = tx.phase.isLoad ∧
          tx.phase.isTake = false) ∨
        (tx.phase = .fetchTake instr ∧
          (tx.step dev choice).phase.isLoad = (tx.arch.issue instr).isLoad)) := by
  obtain ⟨arch, mem, phase⟩ := tx
  cases phase with
  | fetchTake word =>
      simp only [Tx.step, Arch.dispatch] at issued ⊢
      split_ifs at issued ⊢ with load store <;> obtain rfl := Option.some.inj issued <;>
        simp [Phase.isLoad, load]
  | start | fetchData _ | nop _ | loadTake _ _ | storeTake _ => cases issued
  | loadData word data | storeData word =>
      obtain rfl := Option.some.inj issued
      exact ⟨rfl, .inl ⟨rfl, rfl, rfl⟩⟩
  | fetchAddr | fetchWait _ =>
      simp only [Tx.step] at issued
      split_ifs at issued <;> cases issued
  | loadAddr word | loadWait word data | storeReq word aw w | storeWait word =>
      simp only [Tx.step] at issued ⊢
      split_ifs at issued ⊢ <;> obtain rfl := Option.some.inj issued <;>
        exact ⟨rfl, .inl ⟨rfl, rfl, rfl⟩⟩

theorem At.latched_step (at_ : At sys tx) {instr : Word}
    (issued : (tx.step dev choice).phase.issued = some instr) :
    Latched (sys.step dev choice).core ((tx.step dev choice).arch.issue instr) := by
  have valid := at_.ifuValid choice
  obtain ⟨same, ⟨before, _, noTake⟩ | ⟨take, _⟩⟩ := Tx.step_issued issued
  · rw [same]
    exact (at_.latched instr before).next (valid.trans noTake)
  · have ifu := at_.ifu
    rw [take] at ifu valid
    rw [same, ← at_.arch]
    exact Latched.issue valid ifu.2.2.2.1

theorem At.plain_step (at_ : At sys tx) {instr : Word}
    (issued : (tx.step dev choice).phase.issued = some instr)
    (noLoad : (tx.step dev choice).phase.isLoad = false) :
    ((tx.step dev choice).arch.issue instr).signals.ldEn = false := by
  obtain ⟨same, ⟨before, load, _⟩ | ⟨take, load⟩⟩ := Tx.step_issued issued
  · rw [same]
    exact at_.plain instr before (load.symm.trans noLoad)
  · rw [same]
    exact ldEn_of_not_load (load.symm.trans noLoad)

theorem At.ifu_step (at_ : At sys tx) :
    IfuAt (sys.step dev choice).core.ifu (sys.step dev choice).ifuSlave (tx.step dev choice).arch
      (tx.step dev choice).phase := by
  have pc : sys.core.bru.pc = tx.arch.pc := congrArg Arch.pc at_.arch
  have fetched : tx.phase = .fetchAddr → choice.ifuAr = true →
      (readIf dev sys.mem (sys.core.ifu.arvalid && (sys.ifuBus choice).arready)
        sys.core.ifu.ar).1 = (dev.read tx.mem tx.arch.fetch).1 := by
    intro fetching accept
    rw [(at_.reads dev choice).1, fetching, accept]
    rfl
  have stepped := ifuAt_step _ at_.ifu fetched
  rw [← at_.ready, ← pc] at stepped
  exact stepped

theorem At.read_step (at_ : At sys tx) :
    ReadAt (sys.step dev choice).core.lsu (sys.step dev choice).lsuRead (tx.step dev choice).arch
      (tx.step dev choice).phase := by
  obtain ⟨fetch, load⟩ := at_.reads dev choice
  have loaded : ∀ instr, tx.phase = .loadAddr instr → choice.lsuAr = true →
      (readIf dev (readIf dev sys.mem (sys.core.ifu.arvalid && (sys.ifuBus choice).arready)
          sys.core.ifu.ar).2 (sys.core.lsu.arvalid && (sys.lsuBus choice).arready)
          sys.core.lsu.ar).1 =
        (dev.read tx.mem (tx.arch.issue instr).ar).1 := by
    intro instr loading accept
    rw [load, fetch, loading, accept]
    rfl
  have issued : ∀ instr, tx.phase = .fetchTake instr →
      (sys.core.arch.issue sys.core.ifu.instr).lsuOpt = (tx.arch.issue instr).lsuOpt ∧
        (sys.core.arch.issue sys.core.ifu.instr).addr = (tx.arch.issue instr).addr := by
    intro instr take
    rw [at_.issued take]
    exact ⟨rfl, rfl⟩
  have stepped := readAt_step sys.lsuWrite (sys.core.arch.issue sys.core.ifu.instr).regst _
    at_.read loaded issued
  rw [← at_.ifuValid choice] at stepped
  exact stepped

theorem At.step (at_ : At sys tx) : At (sys.step dev choice) (tx.step dev choice) where
  arch := at_.arch_step
  mem := at_.mem_step
  ready := by
    have valid := at_.lsuValid choice
    change sys.core.lsuValid (sys.lsuBus choice) = _
    rw [valid, Bool.eq_iff_iff, decide_eq_true_iff, Tx.step_start_iff]
  ifu := at_.ifu_step
  read := at_.read_step
  write := (at_.write_step dev choice _).1
  index := by
    have zero := at_.index
    simp [System.step, Core.next, Lsu.next, zero]
  validR := by
    rw [at_.read_step.rDone, (at_.write_step dev choice tx.mem).1.wDone, Tx.step_isNop,
      ← at_.ifuValid choice]
    rfl
  plain := fun _ issued noLoad => at_.plain_step issued noLoad
  latched := fun _ issued => at_.latched_step issued

theorem At.out (at_ : At sys tx) : sys.out choice = tx.out choice := by
  have valid := at_.lsuValid choice
  have ifu := at_.ifu
  have read := at_.read
  have write := at_.write
  have index := at_.index
  have latched := at_.latched
  obtain ⟨arch, mem, phase⟩ := tx
  simp only [System.out, valid]
  simp only [System.ifuBus, System.lsuBus]
  cases phase with
  | fetchAddr =>
      obtain ⟨_, i2, i3, i4, i5⟩ := ifu
      obtain ⟨_, r2, r3, r4⟩ := read
      obtain ⟨_, w2, w3, w4, w5⟩ := write
      simp [Tx.out, Phase.commits, i2, i3, i4, i5, r2, r3, r4, w2, w3, w4, w5]
  | fetchTake instr =>
      obtain ⟨_, i2, i3, _, i5⟩ := ifu
      obtain ⟨_, r2, r3, r4⟩ := read
      obtain ⟨_, w2, w3, w4, w5⟩ := write
      simp [Tx.out, Phase.commits, i2, i3, i5, r2, r3, r4, w2, w3, w4, w5]
  | start | nop _ | fetchWait _ | fetchData _ =>
      obtain ⟨_, i2, i3, i4⟩ := ifu
      obtain ⟨_, r2, r3, r4⟩ := read
      obtain ⟨_, w2, w3, w4, w5⟩ := write
      simp [Tx.out, Phase.commits, i2, i3, i4, r2, r3, r4, w2, w3, w4, w5]
  | loadAddr _ | loadWait _ _ | loadData _ _ | loadTake _ _ =>
      obtain ⟨_, i2, i3, i4⟩ := ifu
      obtain ⟨_, r2, r3, r4, r5⟩ := read
      obtain ⟨_, w2, w3, w4, w5⟩ := write
      simp [Tx.out, Phase.commits, i2, i3, i4, r2, r3, r4, r5, w2, w3, w4, w5]
  | storeReq instr awDone wDone =>
      obtain ⟨_, i2, i3, i4⟩ := ifu
      obtain ⟨_, r2, r3, r4⟩ := read
      obtain ⟨_, w2, w3, w4, w5, w6, w7, w8⟩ := write
      have strb : sys.core.lsu.wstrb = (arch.issue instr).wstrb := by
        rw [Lsu.wstrb, (latched instr rfl).opt, w5]
        rfl
      cases awDone <;> cases wDone <;>
        simp_all [Tx.out, Phase.commits, Lsu.wlast, Lsu.wlastNext]
  | storeWait _ | storeData _ | storeTake _ =>
      obtain ⟨_, i2, i3, i4⟩ := ifu
      obtain ⟨_, r2, r3, r4⟩ := read
      obtain ⟨_, w2, w3, w4, w5⟩ := write
      simp [Tx.out, Phase.commits, i2, i3, i4, r2, r3, r4, w2, w3, w4, w5]

theorem simulates (dev : Device σ) : Machine.Simulates (machine dev) (txMachine dev) At where
  step := fun _ _ _ at_ => at_.step
  out := fun _ _ _ at_ => at_.out

theorem at_reset (build : Build) (rf : Regfile) (mem : σ) :
    At (System.reset build rf mem) (Tx.reset build rf mem) := by
  constructor
  case arch => rfl
  case mem => rfl
  case ready => rfl
  case ifu => exact ⟨rfl, rfl, rfl, rfl⟩
  case read => exact ⟨rfl, rfl, rfl, rfl⟩
  case write => exact ⟨rfl, rfl, rfl, rfl, rfl⟩
  case index => rfl
  case validR => rfl
  case plain => intro _ issued; cases issued
  case latched => intro _ issued; cases issued

/-- The instruction register keeps the word from its issue to its commit. -/
theorem At.instr_step (at_ : At sys tx)
    (held : ∀ instr, tx.phase.issued = some instr → sys.core.ifu.instr = instr) {instr : Word}
    (issued : (tx.step dev choice).phase.issued = some instr) :
    (sys.step dev choice).core.ifu.instr = instr := by
  have ifu := at_.ifu
  change (sys.core.ifu.next (sys.ifuBus choice) sys.core.bru.pc sys.core.wbu.ready).instr = instr
  simp only [Ifu.next, System.ifuBus, ifuBusOf]
  obtain ⟨_, ⟨before, _, noTake⟩ | ⟨take, _⟩⟩ := Tx.step_issued issued
  · have same := held instr before
    generalize tx.phase = phase at ifu before
    cases phase with
    | start | fetchAddr | fetchWait _ | fetchData _ | fetchTake _ => cases before
    | _ =>
        obtain ⟨_, _, _, slave⟩ := ifu
        simp [slave, same]
  · rw [take] at ifu
    obtain ⟨_, _, _, same, slave⟩ := ifu
    simp [slave]

theorem run_at (dev : Device σ) (choices : Nat → Choice) (build : Build) (rf : Regfile) (mem : σ)
    (n : Nat) :
    let sys := (machine dev).run choices 0 (System.reset build rf mem) n
    ∃ tx, At sys tx ∧ ∀ instr, tx.phase.issued = some instr → sys.core.ifu.instr = instr := by
  refine ⟨(txMachine dev).run choices 0 (Tx.reset build rf mem) n,
    (simulates dev).run (at_reset build rf mem) choices 0 n, ?_⟩
  induction n with
  | zero => intro _ issued; cases issued
  | succ n ih =>
      intro instr issued
      have at_ := (simulates dev).run (at_reset build rf mem) choices 0 n
      rw [Machine.run_succ] at issued ⊢
      exact at_.instr_step ih issued

/-- A register file released with zero at x0 keeps it there. -/
theorem run_x0 (dev : Device σ) (choices : Nat → Choice) (build : Build) {rf : Regfile} (mem : σ)
    (zero : rf 0#5 = 0#32) (n : Nat) :
    ((machine dev).run choices 0 (System.reset build rf mem) n).core.rf 0#5 = 0#32 := by
  have keeps : ∀ choice (sys : System σ), sys.core.rf 0#5 = 0#32 →
      ((machine dev).step choice sys).core.rf 0#5 = 0#32 :=
    fun _ _ zero => Regfile.next_zero zero _ _ _
  exact Machine.invariant _ choices keeps zero 0 n

/-- A cycle without the commit pulse leaves the architecture, and one with it retires the
word in the instruction register. -/
theorem run_commit (dev : Device σ) (choices : Nat → Choice) (build : Build) (rf : Regfile)
    (mem : σ) (n : Nat) :
    let sys := (machine dev).run choices 0 (System.reset build rf mem)
    let arch := (sys n).core.arch
    let valid := (sys n).core.lsuValid ((sys n).lsuBus (choices n))
    (valid = false → (sys (n + 1)).core.arch = arch) ∧
      (valid = true → ∃ rdata, (sys (n + 1)).core.arch =
        arch.retire (arch.issue (sys n).core.ifu.instr) rdata) := by
  intro sys arch valid
  obtain ⟨tx, at_, held⟩ := run_at dev choices build rf mem n
  have next : sys (n + 1) = (sys n).step dev (choices n) := by
    simp only [sys]
    rw [Machine.run_succ, Nat.zero_add]
    rfl
  have same : (sys n).core.arch = tx.arch := at_.arch
  have commits : valid = tx.phase.commits := at_.lsuValid _
  have instr : ∀ word, tx.phase.issued = some word → (sys n).core.ifu.instr = word := held
  have stepped : (sys (n + 1)).core.arch = (tx.step dev (choices n)).arch := by
    rw [next]
    exact At.arch_step at_
  rw [commits, stepped]
  simp only [arch, same]
  clear next commits same stepped at_ held
  obtain ⟨arch, mem, phase⟩ := tx
  cases phase with
  | nop word | loadTake word data | storeTake word =>
      obtain rfl := instr word rfl
      exact ⟨fun idle => (by cases idle), fun _ => ⟨_, rfl⟩⟩
  | start | fetchData _ | fetchTake _ | loadData _ _ | storeData _ =>
      exact ⟨fun _ => rfl, fun commits => by cases commits⟩
  | fetchAddr | fetchWait _ | loadAddr _ | loadWait _ _ | storeReq _ _ _ | storeWait _ =>
      refine ⟨fun _ => ?_, fun commits => by cases commits⟩
      simp only [Tx.step]
      split_ifs <;> rfl

end Simulation

/-!
## Loads and stores among the words
-/

theorem issue_lsuOpt (instr : Word) :
    (arch.issue instr).lsuOpt = if opcode instr = typeSys then lsuNop else
      if opcode instr = typeILoad then funct3 instr ++ 0#1 else
      if opcode instr = typeS then funct3 instr ++ 1#1 else lsuNop := by
  by_cases sys : opcode instr = typeSys
  · have op : instr.extractLsb' 0 7 = typeSys := sys
    simp [Arch.issue, Arch.decode, idu, op, sys]
  · have op : instr.extractLsb' 0 7 ≠ typeSys := sys
    simp only [Arch.issue, Arch.decode, idu, iduNormal, beq_iff_eq, op, sys, if_false]
    rfl

theorem issue_isLoad_iff (instr : Word) :
    (arch.issue instr).isLoad = true ↔ opcode instr = typeILoad := by
  have load : ∀ f : BitVec 3, lsuRen (f ++ 0#1) = true := by decide
  have store : ∀ f : BitVec 3, lsuRen (f ++ 1#1) = false := by decide
  have nop : lsuRen 0b1111#4 = false := rfl
  rw [Issue.isLoad, issue_lsuOpt]
  by_cases sys : opcode instr = typeSys
  · simp [sys, nop]
  · by_cases isLoad : opcode instr = typeILoad
    · simp [isLoad, load]
    · by_cases isStore : opcode instr = typeS <;> simp_all

theorem issue_isStore_iff (instr : Word) :
    (arch.issue instr).isStore = true ↔ opcode instr = typeS ∧ funct3 instr ≠ 0b111#3 := by
  have load : ∀ f : BitVec 3, lsuWen (f ++ 0#1) = false := by decide
  have store : ∀ f : BitVec 3, lsuWen (f ++ 1#1) = decide (f ≠ 0b111#3) := by decide
  have nop : lsuWen 0b1111#4 = false := rfl
  rw [Issue.isStore, issue_lsuOpt]
  by_cases sys : opcode instr = typeSys
  · simp [sys, nop]
  · by_cases isLoad : opcode instr = typeILoad
    · simp [isLoad, load]
    · by_cases isStore : opcode instr = typeS <;> simp_all

/-!
## Progress
-/

section Progress

variable {choices : Nat → Choice}

/-- From cycle `t` to cycle `u` the system shows `shown` and stays inside the
instruction that started in the architecture of `tx`. -/
def Advances (dev : Device σ) (choices : Nat → Choice) (t : Nat) (tx : Tx σ) (shown : List Event)
    (u : Nat) (tx' : Tx σ) : Prop :=
  Machine.Reaches (txMachine dev) choices (Tx.Inside tx.arch) t tx shown u tx'

theorem Advances.trans {t t' t'' : Nat} {tx tx' tx'' : Tx σ} {first second : List Event}
    (before : Advances dev choices t tx first t' tx') (same : tx'.arch = tx.arch)
    (after : Advances dev choices t' tx' second t'' tx'') :
    Advances dev choices t tx (first ++ second) t'' tx'' := by
  unfold Advances at before after ⊢
  rw [same] at after
  exact Machine.Reaches.trans before after

/-- A phase that takes one cycle. -/
theorem Advances.one (dev : Device σ) {t : Nat} (tx : Tx σ) (inside : tx.phase.commits = false) :
    Advances dev choices t tx (tx.out (choices t)) (t + 1) (tx.step dev (choices t)) :=
  Machine.Reaches.single ⟨rfl, inside⟩

/-- A phase that waits for a channel. -/
theorem Advances.served {condition : Choice → Prop} (dev : Device σ)
    (fair : Machine.Often choices condition) (tx : Tx σ) (inside : tx.phase.commits = false)
    (stays : ∀ choice, ¬ condition choice → tx.step dev choice = tx ∧ tx.out choice = [])
    (t : Nat) :
    ∃ u, condition (choices u) ∧
      Advances dev choices t tx (tx.out (choices u)) (u + 1) (tx.step dev (choices u)) :=
  Machine.Reaches.serve fair (fun _ => ⟨rfl, inside⟩) stays t

/-- A slave that waits with its answer, or has just raised it, is heard. -/
theorem Advances.answered {condition : Choice → Prop} (fair : Machine.Often choices condition)
    {arch : Arch} {mem : σ} {waiting raised taking : Phase}
    (waits : ∀ choice, ¬ condition choice →
      Tx.step dev choice ⟨arch, mem, waiting⟩ = ⟨arch, mem, waiting⟩)
    (raises : ∀ choice, condition choice →
      Tx.step dev choice ⟨arch, mem, waiting⟩ = ⟨arch, mem, raised⟩)
    (takes : ∀ choice, Tx.step dev choice ⟨arch, mem, raised⟩ = ⟨arch, mem, taking⟩)
    (silent : ∀ choice, Tx.out choice (⟨arch, mem, waiting⟩ : Tx σ) = [] ∧
      Tx.out choice (⟨arch, mem, raised⟩ : Tx σ) = [])
    (inside : waiting.commits = false ∧ raised.commits = false) {phase : Phase}
    (answering : phase = waiting ∨ phase = raised) (t : Nat) :
    ∃ u, Advances dev choices t ⟨arch, mem, phase⟩ [] u ⟨arch, mem, taking⟩ := by
  have last : ∀ t, Advances dev choices t ⟨arch, mem, raised⟩ [] (t + 1) ⟨arch, mem, taking⟩ := by
    intro t
    have taken : Advances dev choices t ⟨arch, mem, raised⟩ _ (t + 1) _ :=
      Advances.one dev _ inside.2
    rwa [takes, (silent _).2] at taken
  rcases answering with rfl | rfl
  · obtain ⟨u, met, waited⟩ := Advances.served dev fair ⟨arch, mem, phase⟩ inside.1
      (fun choice unmet => ⟨waits choice unmet, (silent choice).1⟩) t
    rw [raises _ met, (silent _).1] at waited
    exact ⟨u + 1 + 1, waited.trans rfl (last (u + 1))⟩
  · exact ⟨t + 1, last t⟩

theorem fetch_answered (dev : Device σ) (fair : Fair choices) (arch : Arch) (mem : σ)
  (instr : Word) {phase : Phase}
    (answering : phase = .fetchWait instr ∨ phase = .fetchData instr) (t : Nat) :
    ∃ u, Advances dev choices t ⟨arch, mem, phase⟩ [] u ⟨arch, mem, .fetchTake instr⟩ :=
  Advances.answered fair.ifuR (fun _ unmet => by simp [Tx.step, unmet])
    (fun _ met => by simp [Tx.step, met]) (fun _ => rfl) (fun _ => ⟨rfl, rfl⟩) ⟨rfl, rfl⟩
    answering t

theorem load_answered (dev : Device σ) (fair : Fair choices) (arch : Arch) (mem : σ)
  (instr data : Word) {phase : Phase}
    (answering : phase = .loadWait instr data ∨ phase = .loadData instr data) (t : Nat) :
    ∃ u, Advances dev choices t ⟨arch, mem, phase⟩ [] u ⟨arch, mem, .loadTake instr data⟩ :=
  Advances.answered fair.lsuR (fun _ unmet => by simp [Tx.step, unmet])
    (fun _ met => by simp [Tx.step, met]) (fun _ => rfl) (fun _ => ⟨rfl, rfl⟩) ⟨rfl, rfl⟩
    answering t

theorem store_answered (dev : Device σ) (fair : Fair choices) (arch : Arch) (mem : σ)
  (instr : Word) {phase : Phase}
    (answering : phase = .storeWait instr ∨ phase = .storeData instr) (t : Nat) :
    ∃ u, Advances dev choices t ⟨arch, mem, phase⟩ [] u ⟨arch, mem, .storeTake instr⟩ :=
  Advances.answered fair.lsuB (fun _ unmet => by simp [Tx.step, unmet])
    (fun _ met => by simp [Tx.step, met]) (fun _ => rfl) (fun _ => ⟨rfl, rfl⟩) ⟨rfl, rfl⟩
    answering t

/-- The fetch: one address, one word. -/
theorem fetch_advances (dev : Device σ) (fair : Fair choices) (arch : Arch) (mem : σ) (t : Nat) :
    let fetched := dev.read mem arch.fetch
    ∃ u, Advances dev choices t ⟨arch, mem, .start⟩ [.ifuAr arch.fetch, .ifuR fetched.1] u
      ⟨arch, fetched.2, arch.dispatch fetched.1⟩ := by
  intro fetched
  have asked : Advances dev choices t ⟨arch, mem, .start⟩ [] (t + 1) ⟨arch, mem, .fetchAddr⟩ :=
    Advances.one dev _ rfl
  obtain ⟨u, met, served⟩ := Advances.served dev fair.ifuAr
    ⟨arch, mem, .fetchAddr⟩ rfl
    (fun _ unmet => by simp [Tx.step, Tx.out, unmet]) (t + 1)
  obtain ⟨phase, answering, step⟩ : ∃ phase : Phase,
      (phase = .fetchWait fetched.1 ∨ phase = .fetchData fetched.1) ∧
        Tx.step dev (choices u) ⟨arch, mem, .fetchAddr⟩ = ⟨arch, fetched.2, phase⟩ := by
    cases raise : (choices u).ifuR with
    | false => exact ⟨_, .inl rfl, by simp [Tx.step, met, raise, fetched]⟩
    | true => exact ⟨_, .inr rfl, by simp [Tx.step, met, raise, fetched]⟩
  have shown : Tx.out (choices u) (⟨arch, mem, .fetchAddr⟩ : Tx σ) = [.ifuAr arch.fetch] := by
    simp [Tx.out, met]
  rw [step, shown] at served
  obtain ⟨v, answered⟩ := fetch_answered dev fair arch fetched.2 fetched.1
    answering (u + 1)
  have taken : Advances dev choices v ⟨arch, fetched.2, .fetchTake fetched.1⟩ [.ifuR fetched.1]
      (v + 1) ⟨arch, fetched.2, arch.dispatch fetched.1⟩ := Advances.one dev _ rfl
  exact ⟨v + 1, (asked.trans rfl served).trans rfl (answered.trans rfl taken)⟩

theorem load_advances (dev : Device σ) (fair : Fair choices) (arch : Arch) (mem : σ) (instr : Word)
  (t : Nat) :
    let issue := arch.issue instr
    let loaded := dev.read mem issue.ar
    ∃ u, Advances dev choices t ⟨arch, mem, .loadAddr instr⟩ [.lsuAr issue.ar] u
      ⟨arch, loaded.2, .loadTake instr loaded.1⟩ := by
  intro issue loaded
  obtain ⟨u, met, served⟩ := Advances.served dev fair.lsuAr
    ⟨arch, mem, .loadAddr instr⟩ rfl
    (fun _ unmet => by simp [Tx.step, Tx.out, unmet]) t
  obtain ⟨phase, answering, step⟩ : ∃ phase : Phase,
      (phase = .loadWait instr loaded.1 ∨ phase = .loadData instr loaded.1) ∧
        Tx.step dev (choices u) ⟨arch, mem, .loadAddr instr⟩ = ⟨arch, loaded.2, phase⟩ := by
    cases raise : (choices u).lsuR with
    | false => exact ⟨_, .inl rfl, by simp [Tx.step, met, raise, loaded, issue]⟩
    | true => exact ⟨_, .inr rfl, by simp [Tx.step, met, raise, loaded, issue]⟩
  have shown : Tx.out (choices u) (⟨arch, mem, .loadAddr instr⟩ : Tx σ) = [.lsuAr issue.ar] := by
    simp [Tx.out, met, issue]
  rw [step, shown] at served
  obtain ⟨v, answered⟩ := load_answered dev fair arch loaded.2 instr loaded.1
    answering (u + 1)
  exact ⟨v, served.trans rfl answered⟩

/-- A write slave that has both halves answers. -/
theorem collected_advances (fair : Fair choices) {arch : Arch} {mem : σ} {instr : Word} {t u : Nat}
    {tx : Tx σ} {shown : List Event}
    (served : Advances dev choices t tx shown (u + 1) ⟨arch, mem,
      if (choices u).lsuB then .storeData instr else .storeWait instr⟩)
    (same : arch = tx.arch) :
    ∃ v, Advances dev choices t tx shown v ⟨arch, mem, .storeTake instr⟩ := by
  have answering : (if (choices u).lsuB then Phase.storeData instr else .storeWait instr) =
      .storeWait instr ∨
      (if (choices u).lsuB then Phase.storeData instr else .storeWait instr) =
        .storeData instr := by
    split_ifs
    · exact .inr rfl
    · exact .inl rfl
  obtain ⟨v, answered⟩ := store_answered dev fair arch mem instr answering (u + 1)
  have all := served.trans same answered
  rw [List.append_nil] at all
  exact ⟨v, all⟩

theorem store_advances (dev : Device σ) (fair : Fair choices) (arch : Arch) (mem : σ)
  (instr : Word) (t : Nat) :
    let issue := arch.issue instr
    let aw := Event.lsuAw issue.aw
    let w := Event.lsuW issue.wdata issue.wstrb true
    ∃ (u : Nat) (wFirst : Bool), Advances dev choices t ⟨arch, mem, .storeReq instr false false⟩
      (if wFirst then [w, aw] else [aw, w]) u
      ⟨arch, dev.write mem issue.aw issue.wdata issue.wstrb, .storeTake instr⟩ := by
  intro issue aw w
  have often : Machine.Often choices (fun choice => choice.lsuAw = true ∨ choice.lsuW = true) := by
    intro t
    obtain ⟨u, later, met⟩ := fair.lsuAw t
    exact ⟨u, later, .inl met⟩
  obtain ⟨u, met, served⟩ := Advances.served dev often
    ⟨arch, mem, .storeReq instr false false⟩ rfl
    (fun _ unmet => by
      obtain ⟨noAw, noW⟩ := not_or.mp unmet
      simp [Tx.step, Tx.out, noAw, noW]) t
  cases acceptAw : (choices u).lsuAw with
  | true =>
      cases acceptW : (choices u).lsuW with
      | true =>
          obtain ⟨v, all⟩ := collected_advances fair
            (by simpa [Tx.step, Tx.out, acceptAw, acceptW] using served) rfl
          exact ⟨v, false, all⟩
      | false =>
          obtain ⟨v, wMet, wServed⟩ := Advances.served dev fair.lsuW
            ⟨arch, mem, .storeReq instr true false⟩ rfl
            (fun _ unmet => by simp [Tx.step, Tx.out, unmet]) (u + 1)
          have awServed : Advances dev choices t ⟨arch, mem, .storeReq instr false false⟩ [aw]
              (u + 1) ⟨arch, mem, .storeReq instr true false⟩ := by
            simpa [Tx.step, Tx.out, acceptAw, acceptW] using served
          obtain ⟨v, all⟩ := collected_advances fair
            (by simpa [Tx.step, Tx.out, wMet] using awServed.trans rfl wServed) rfl
          exact ⟨v, false, all⟩
  | false =>
      have acceptW : (choices u).lsuW = true := by simpa [acceptAw] using met
      obtain ⟨v, awMet, awServed⟩ := Advances.served dev fair.lsuAw
        ⟨arch, mem, .storeReq instr false true⟩ rfl
        (fun _ unmet => by simp [Tx.step, Tx.out, unmet]) (u + 1)
      have wServed : Advances dev choices t ⟨arch, mem, .storeReq instr false false⟩ [w]
          (u + 1) ⟨arch, mem, .storeReq instr false true⟩ := by
        simpa [Tx.step, Tx.out, acceptAw, acceptW] using served
      obtain ⟨v, all⟩ := collected_advances fair
        (by simpa [Tx.step, Tx.out, awMet] using wServed.trans rfl awServed) rfl
      exact ⟨v, true, all⟩

/-- One instruction from its fetch to its commit. -/
theorem instr_advances (dev : Device σ) (fair : Fair choices) (arch : Arch) (mem : σ) (t : Nat) :
    ∃ (u : Nat) (tx : Tx σ) (shown : List Event) (wFirst : Bool),
      Advances dev choices t ⟨arch, mem, .start⟩ shown u tx ∧ tx.arch = arch ∧
      tx.phase.commits = true ∧
      shown ++ tx.out (choices u) = instrEvents dev (arch, mem) wFirst ∧
      tx.step dev (choices u) =
        ⟨(archStep dev (arch, mem)).1, (archStep dev (arch, mem)).2, .start⟩ := by
  obtain ⟨u, fetched⟩ := fetch_advances dev fair arch mem t
  have load := @issue_isLoad_iff arch (dev.read mem arch.fetch).1
  have store := @issue_isStore_iff arch (dev.read mem arch.fetch).1
  cases isLoad : (arch.issue (dev.read mem arch.fetch).1).isLoad with
  | true =>
      simp only [Arch.dispatch, isLoad, if_true] at fetched
      obtain ⟨v, loaded⟩ := load_advances dev fair arch (dev.read mem arch.fetch).2
        (dev.read mem arch.fetch).1 u
      refine ⟨v, _, _, false, fetched.trans rfl loaded, rfl, rfl, ?_, ?_⟩
      · simp [instrEvents, Tx.out, load.mp isLoad]
      · simp [Tx.step, archStep, archExec, isLoad]
  | false =>
      have noLoad : ¬ opcode (dev.read mem arch.fetch).1 = typeILoad := by
        rw [← load, isLoad]
        exact Bool.false_ne_true
      cases isStore : (arch.issue (dev.read mem arch.fetch).1).isStore with
      | true =>
          simp only [Arch.dispatch, isLoad, isStore, if_true, Bool.false_eq_true, if_false]
            at fetched
          obtain ⟨v, wFirst, stored⟩ := store_advances dev fair arch
            (dev.read mem arch.fetch).2 (dev.read mem arch.fetch).1 u
          refine ⟨v, _, _, wFirst, fetched.trans rfl stored, rfl, rfl, ?_, ?_⟩
          · simp [instrEvents, Tx.out, store.mp isStore]
          · simp [Tx.step, archStep, archExec, isLoad, isStore]
      | false =>
          have noStore : ¬ (opcode (dev.read mem arch.fetch).1 = typeS ∧
              funct3 (dev.read mem arch.fetch).1 ≠ 0b111#3) := by
            rw [← store, isStore]
            exact Bool.false_ne_true
          simp only [Arch.dispatch, isLoad, isStore, Bool.false_eq_true, if_false] at fetched
          refine ⟨u, _, _, false, fetched, rfl, rfl, ?_, ?_⟩
          · simp only [instrEvents, Tx.out, if_neg noLoad, if_neg noStore]
            rfl
          · simp [Tx.step, archStep, archExec, isLoad, isStore]

/-!
## Exactly-once execution
-/

theorem commit_mem_out_iff (tx : Tx σ) :
    Event.commit ∈ tx.out choice ↔ tx.phase.commits = true := by
  obtain ⟨arch, mem, phase⟩ := tx
  cases phase with
  | fetchAddr | loadAddr _ =>
      simp only [Tx.out, Phase.commits]
      split_ifs <;> simp
  | storeReq _ awDone wDone =>
      simp only [Tx.out, Phase.commits]
      split_ifs <;> simp
  | _ => simp [Tx.out, Phase.commits]

/-- From cycle `t` to cycle `u` the transaction machine runs the instruction of `state`. -/
structure Window (dev : Device σ) (choices : Nat → Choice) (state : Arch × σ) (t u : Nat) :
    Prop where
  later : t < u
  next : (txMachine dev).run choices t ⟨state.1, state.2, .start⟩ (u - t) =
    ⟨(archStep dev state).1, (archStep dev state).2, .start⟩
  during : ∀ k, t + k < u →
    let tx := (txMachine dev).run choices t ⟨state.1, state.2, .start⟩ k
    tx.arch = state.1 ∧ (Event.commit ∈ tx.out (choices (t + k)) ↔ t + k + 1 = u)
  events : ∃ wFirst, (txMachine dev).events choices t ⟨state.1, state.2, .start⟩ (u - t) =
    instrEvents dev state wFirst

theorem exists_window (dev : Device σ) (fair : Fair choices) (state : Arch × σ) (t : Nat) :
    ∃ u, Window dev choices state t u := by
  obtain ⟨arch, mem⟩ := state
  obtain ⟨u, tx, shown, wFirst, ⟨n, rfl, rfl, rfl, inside⟩, same, commits, complete, stepped⟩ :=
    instr_advances dev fair arch mem t
  have length : t + n + 1 - t = n + 1 := by omega
  refine ⟨t + n + 1, by omega, ?_, ?_, wFirst, ?_⟩
  · rw [length, Machine.run_succ]
    exact stepped
  · intro k bound
    simp only [commit_mem_out_iff]
    rcases Nat.lt_or_ge k n with early | late
    · obtain ⟨sameArch, noCommit⟩ := inside k early
      refine ⟨sameArch, ?_⟩
      rw [noCommit]
      constructor
      · intro absurdity
        cases absurdity
      · omega
    · obtain rfl : k = n := by omega
      exact ⟨same, fun _ => rfl, fun _ => commits⟩
  · rw [length, Machine.events_succ]
    exact complete

/-- Between two commits the core runs one instruction, whatever the slaves do. `archStep` decodes
the word and finds the next pc with the core's own functions; what these come to is said by
`archExec_eq_coreStep`, `coreStep_eq_iff`, `retire_csr` and `pcNext_cases`. -/
theorem exactly_once (fair : Fair choices) (dev : Device σ) (build : Build) (rf : Regfile)
    (mem : σ) :
    let sys := (machine dev).run choices 0 (System.reset build rf mem)
    let state := fun n => (archStep dev)^[n] ((Core.reset build rf).arch, mem)
    ∃ start : Nat → Nat, start 0 = 0 ∧ StrictMono start ∧ ∀ n,
      (sys (start n)).mem = (state n).2 ∧
      (∀ t, start n ≤ t → t < start (n + 1) →
        (sys t).core.arch = (state n).1 ∧
          (Event.commit ∈ (sys t).out (choices t) ↔ t + 1 = start (n + 1))) ∧
      ∃ wFirst, (machine dev).events choices (start n) (sys (start n)) (start (n + 1) - start n) =
        instrEvents dev (state n) wFirst := by
  intro sys state
  have related : ∀ t, At (sys t) ((txMachine dev).run choices 0 (Tx.reset build rf mem) t) :=
    (simulates dev).run (at_reset build rf mem) choices 0
  obtain ⟨start, zero, mono, windows⟩ := @Machine.exists_marks
    (fun n t => (txMachine dev).run choices 0 (Tx.reset build rf mem) t =
      ⟨(state n).1, (state n).2, .start⟩)
    (fun n t u => Window dev choices (state n) t u) rfl (by
      intro n t mark
      obtain ⟨u, window⟩ := exists_window dev fair (state n) t
      have split : u = t + (u - t) := by have := window.later; omega
      refine ⟨u, window.later, ?_, window⟩
      rw [split, Machine.run_add, Nat.zero_add, mark, window.next]
      simp only [state, Function.iterate_succ_apply'])
  refine ⟨start, zero, mono, fun n => ?_⟩
  obtain ⟨mark, window⟩ := windows n
  have inside : ∀ k, (txMachine dev).run choices 0 (Tx.reset build rf mem) (start n + k) =
      (txMachine dev).run choices (start n) ⟨(state n).1, (state n).2, .start⟩ k := by
    intro k
    rw [Machine.run_add, mark, Nat.zero_add]
  refine ⟨?_, ?_, ?_⟩
  · rw [(related (start n)).mem, mark]
  · intro t after before
    obtain ⟨k, rfl⟩ := Nat.exists_eq_add_of_le after
    obtain ⟨sameArch, pulse⟩ := window.during k before
    rw [(related _).arch, (related _).out, inside]
    exact ⟨sameArch, pulse⟩
  · obtain ⟨wFirst, shown⟩ := window.events
    refine ⟨wFirst, ?_⟩
    rw [(simulates dev).events (related (start n)), mark, shown]

/-- A memory of `addi x1, x0, 1`. -/
theorem exactly_once_addi :
    let dev : Device Unit := ⟨fun mem _ => (0x00100093#32, mem), fun mem _ _ _ => mem⟩
    let sys := (machine dev).run (fun _ => .prompt) 0 (System.reset .ysyxsoc (fun _ => 0#32) ())
    ∃ start : Nat → Nat, start 0 = 0 ∧ StrictMono start ∧
      (sys (start 1)).core.rf 1#5 = 1#32 := by
  intro dev sys
  obtain ⟨start, zero, mono, windows⟩ :=
    exactly_once fair_prompt dev .ysyxsoc (fun _ => 0#32) ()
  have one := ((windows 1).2.1 (start 1) (Nat.le_refl _) (mono (by decide))).1
  exact ⟨start, zero, mono, congrArg (fun arch => Arch.rf arch 1#5) one⟩

end Progress

end Ysyx.Npc
