import Ysyx.Npc.CoreProperties

/-! `lsu.v` as an AXI master: what its three request channels show while a slave makes
them wait, and what they read of the slave in the same cycle. -/

set_option autoImplicit false

namespace Ysyx.Npc

open Rv32 (Word)
open Lib (Machine)

/-- One request channel of the unit, with the input that is its `ready`. -/
structure Channel (α : Type) where
  valid : Lsu → Bool
  payload : Lsu → LsuBus → α
  ready : LsuBus → Bool
  setReady : LsuBus → Bool → LsuBus

structure WBeat where
  data : Word
  strb : BitVec 4
  last : Bool
  deriving DecidableEq, Repr

def awChannel : Channel AxiAddr where
  valid := (·.awvalid)
  payload := fun lsu _ => lsu.aw
  ready := (·.awready)
  setReady := fun bus ready => { bus with awready := ready }

def wChannel : Channel WBeat where
  valid := (·.wvalid)
  payload := fun lsu bus => ⟨lsu.wdata, lsu.wstrb, lsu.wlast bus⟩
  ready := (·.wready)
  setReady := fun bus ready => { bus with wready := ready }

/-- The W channel without `wlast`. -/
def wDataChannel : Channel (Word × BitVec 4) :=
  { wChannel with payload := fun lsu _ => (lsu.wdata, lsu.wstrb) }

def arChannel : Channel AxiAddr where
  valid := (·.arvalid)
  payload := fun lsu _ => lsu.ar
  ready := (·.arready)
  setReady := fun bus ready => { bus with arready := ready }

/-- What AXI asks of a master's channel in a cycle, given the next one: a request that waits
stays as it is, and does not look at its `ready`. -/
structure Channel.Meets {α : Type} (channel : Channel α) (lsu : Lsu) (bus : LsuBus) (lsu' : Lsu)
    (bus' : LsuBus) : Prop where
  held : channel.valid lsu = true → channel.ready bus = false →
    channel.valid lsu' = true ∧ channel.payload lsu' bus' = channel.payload lsu bus
  free : channel.valid lsu = true →
    ∀ ready, channel.payload lsu (channel.setReady bus ready) = channel.payload lsu bus

variable {σ : Type}

/-- A channel meets the protocol in cycle `n` of a run. -/
def Channel.MeetsAt {α : Type} (channel : Channel α) (choices : Nat → Choice)
    (sys : Nat → System σ) (n : Nat) : Prop :=
  channel.Meets (sys n).core.lsu ((sys n).lsuBus (choices n)) (sys (n + 1)).core.lsu
    ((sys (n + 1)).lsuBus (choices (n + 1)))

structure WellBehaved (choices : Nat → Choice) (sys : Nat → System σ) (n : Nat) : Prop where
  aw : awChannel.MeetsAt choices sys n
  w : wChannel.MeetsAt choices sys n
  ar : arChannel.MeetsAt choices sys n

section Step

variable {dev : Device σ} {choice : Choice} {sys : System σ} {tx : Tx σ}

/-- No word is issued in a cycle in which a request waits. -/
theorem At.isTake_of_valid (at_ : At sys tx)
    (valid : (sys.core.lsu.awvalid || sys.core.lsu.wvalid || sys.core.lsu.arvalid) = true) :
    tx.phase.isTake = false := by
  have read := at_.read
  have write := at_.write
  obtain ⟨arch, mem, phase⟩ := tx
  cases phase with
  | fetchTake instr =>
      obtain ⟨_, arvalid, _⟩ := read
      obtain ⟨_, awvalid, wvalid, _⟩ := write
      simp [arvalid, awvalid, wvalid] at valid
  | _ => rfl

theorem At.lsu_step (at_ : At sys tx)
    (valid : (sys.core.lsu.awvalid || sys.core.lsu.wvalid || sys.core.lsu.arvalid) = true) :
    (sys.step dev choice).core.lsu =
      sys.core.lsu.next (sys.lsuBus choice) (sys.core.arch.issue sys.core.ifu.instr).lsuOpt
        (sys.core.arch.issue sys.core.ifu.instr).addr
        (sys.core.arch.issue sys.core.ifu.instr).regst false := by
  rw [← at_.isTake_of_valid valid, ← at_.ifuValid choice]
  rfl

theorem At.aw_meets (at_ : At sys tx) (bus' : LsuBus) :
    awChannel.Meets sys.core.lsu (sys.lsuBus choice) (sys.step dev choice).core.lsu bus' := by
  constructor
  · intro valid waits
    have request : sys.core.lsu.awvalid = true := valid
    have stalled : (sys.lsuBus choice).awready = false := waits
    rw [at_.lsu_step (by simp [request])]
    simp [awChannel, Lsu.next, request, stalled]
  · intro _ ready
    rfl

theorem At.ar_meets (at_ : At sys tx) (bus' : LsuBus) :
    arChannel.Meets sys.core.lsu (sys.lsuBus choice) (sys.step dev choice).core.lsu bus' := by
  constructor
  · intro valid waits
    have request : sys.core.lsu.arvalid = true := valid
    have stalled : (sys.lsuBus choice).arready = false := waits
    rw [at_.lsu_step (by simp [request])]
    simp [arChannel, Lsu.next, request, stalled]
  · intro _ ready
    rfl

/-- The strobe is computed from the latched opcode and address, which stay as well. -/
theorem At.wData_meets (at_ : At sys tx) (bus' : LsuBus) :
    wDataChannel.Meets sys.core.lsu (sys.lsuBus choice) (sys.step dev choice).core.lsu bus' := by
  constructor
  · intro valid waits
    have request : sys.core.lsu.wvalid = true := valid
    have stalled : (sys.lsuBus choice).wready = false := waits
    rw [at_.lsu_step (by simp [request])]
    simp [wDataChannel, wChannel, Lsu.next, Lsu.wstrb, request, stalled]
  · intro _ ready
    rfl

/-- `wlast` is the handshake itself: the single beat is marked only while it is accepted. -/
theorem At.wlast (at_ : At sys tx) (valid : sys.core.lsu.wvalid = true) (bus : LsuBus) :
    sys.core.lsu.wlast bus = bus.wready := by
  have index := at_.index
  have write := at_.write
  obtain ⟨arch, mem, phase⟩ := tx
  cases phase with
  | storeReq instr awDone wDone =>
      obtain ⟨_, _, wvalid, _, _, _, first, _⟩ := write
      have last : sys.core.lsu.wlastReg = false := first (by simpa [valid] using wvalid)
      simp [Lsu.wlast, Lsu.wlastNext, last, valid, index]
  | _ =>
      obtain ⟨_, _, wvalid, _⟩ := write
      simp [valid] at wvalid

theorem At.w_not_meets (at_ : At sys tx) (valid : sys.core.lsu.wvalid = true) (lsu' : Lsu)
    (bus' : LsuBus) : ¬ wChannel.Meets sys.core.lsu (sys.lsuBus choice) lsu' bus' := by
  intro meets
  have same := congrArg WBeat.last (meets.free valid (!(sys.lsuBus choice).wready))
  simp only [wChannel, at_.wlast valid] at same
  cases ready : (sys.lsuBus choice).wready <;> simp [ready] at same

end Step

/-- Both address channels, the store data and its strobe meet the protocol in every cycle;
`wlast` does in the cycles in which no data is offered. -/
theorem lsu_wellBehaved_iff (dev : Device σ) (choices : Nat → Choice) (build : Build)
    (rf : Regfile) (mem : σ) :
    let sys := (machine dev).run choices 0 (System.reset build rf mem)
    ∀ n, awChannel.MeetsAt choices sys n ∧ arChannel.MeetsAt choices sys n ∧
      wDataChannel.MeetsAt choices sys n ∧
      (WellBehaved choices sys n ↔ (sys n).core.lsu.wvalid = false) := by
  intro sys n
  have related : At (sys n) ((txMachine dev).run choices 0 (Tx.reset build rf mem) n) :=
    (simulates dev).run (at_reset build rf mem) choices 0 n
  have next : sys (n + 1) = (sys n).step dev (choices n) := by
    simp only [sys]
    rw [Machine.run_succ, Nat.zero_add]
    rfl
  have aw : awChannel.MeetsAt choices sys n := by
    rw [Channel.MeetsAt, next]
    exact related.aw_meets _
  have ar : arChannel.MeetsAt choices sys n := by
    rw [Channel.MeetsAt, next]
    exact related.ar_meets _
  have wData : wDataChannel.MeetsAt choices sys n := by
    rw [Channel.MeetsAt, next]
    exact related.wData_meets _
  refine ⟨aw, ar, wData, ?_, ?_⟩
  · intro meets
    rw [Bool.eq_false_iff]
    intro valid
    exact related.w_not_meets valid _ _ meets.w
  · intro idle
    have silent : ¬ (sys n).core.lsu.wvalid = true := by simp [idle]
    exact ⟨aw, ⟨fun valid => absurd valid silent, fun valid => absurd valid silent⟩, ar⟩

/-- Slaves that answer at once, except that the write data waits for one cycle. -/
def lateData (n : Nat) : Choice := ⟨true, true, true, true, true, n != 4, true, 0#32, false⟩

/-- A memory of `sw x0, 0(x0)`: the store waits with `wlast` low and is accepted with it
high. -/
theorem lsu_wlast_fails :
    ¬ ∀ (dev : Device Unit) (choices : Nat → Choice) (build : Build) (rf : Regfile) (n : Nat),
      WellBehaved choices ((machine dev).run choices 0 (System.reset build rf ())) n := by
  intro always
  have meets := (always ⟨fun mem _ => (0x00002023#32, mem), fun mem _ _ _ => mem⟩ lateData
    .ysyxsoc (fun _ => 0#32) 4).w
  have same := congrArg WBeat.last (meets.held (by decide +kernel) (by decide +kernel)).2
  revert same
  decide +kernel

end Ysyx.Npc
