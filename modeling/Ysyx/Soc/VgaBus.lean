import Ysyx.Lib.Machine
import Ysyx.Soc.ApbDelayer
import Ysyx.Soc.VgaProperties

/-! The bus that `vga_top_apb` stands on: a master, the delayer and the fan-out. While the
delayer holds an answer back it withdraws `psel` alone, so that the device sees its own
transfer again and again, and nothing of the transfers of others. -/

set_option autoImplicit false

namespace Ysyx.Soc

open Lib (Machine)

/-- One cycle: what the master would like to drive, and what the other devices answer. -/
structure VgaInput where
  want : ApbReq
  other : ApbResp

structure VgaBus where
  master : ApbPhase
  delayer : Delayer
  vga : Vga

namespace VgaBus

def reset (vga : Vga) : VgaBus := ⟨.idle, .reset, vga⟩

variable (sel : BitVec 32 → Bool) (input : VgaInput) (bus : VgaBus)

/-- The request upstream of the delayer. `AXI4ToAPB` raises `penable` in access phases only. -/
def upstream : ApbReq := bus.master.drive { input.want with penable := false }

/-- `APBFanout` for the VGA. -/
def request : ApbReq :=
  let req := bus.delayer.request (bus.upstream input)
  { req with psel := sel req.paddr && req.psel, penable := sel req.paddr && req.penable }

/-- The answer that `APBFanout` hands to the delayer. -/
def answer : ApbResp :=
  if sel (bus.upstream input).paddr then ⟨bus.vga.pready, 0#32, false⟩ else input.other

def step : VgaBus where
  master := bus.master.next input.want bus.delayer.resp.pready
  delayer := bus.delayer.next (bus.upstream input) (bus.answer sel input)
  vga := bus.vga.next (bus.request sel input)

/-- The access phases of the transfers to the VGA. -/
def accesses : List ApbReq :=
  let req := bus.request sel input
  if req.psel && req.penable then [req] else []

end VgaBus

def vgaBusMachine (sel : BitVec 32 → Bool) : Machine VgaInput VgaBus ApbReq where
  step := VgaBus.step sel
  out := fun input bus => bus.accesses sel input

/-- The bus from reset on, with any frame buffer and any raster position. -/
def vgaBusAt (sel : BitVec 32 → Bool) (vga : Vga) (inputs : Nat → VgaInput) (n : Nat) : VgaBus :=
  (vgaBusMachine sel).run inputs 0 (.reset vga) n

/-- `lvga` in the address map. -/
def vgaSel (paddr : BitVec 32) : Bool :=
  decide (0x21000000#32 ≤ paddr) && decide (paddr < 0x21200000#32)

/-!
## What an access stores
-/

/-- What the write port changes. -/
structure Frame where
  data : BitVec 21 → BitVec 32
  syncReg : Bool

def Vga.frame (vga : Vga) : Frame := ⟨vga.data, vga.syncReg⟩

def Frame.write (frame : Frame) (req : ApbReq) : Frame where
  data := fun index =>
    if req.paddr ≠ syncAddr ∧ index = req.dataIndex then req.pwdata else frame.data index
  syncReg := decide (req.paddr = syncAddr) && req.pwdata.getLsbD 0

/-- The cycles in which the delayer shows an access again change nothing. -/
theorem Frame.write_write (frame : Frame) (req : ApbReq) :
    (frame.write req).write req = frame.write req := by
  simp only [Frame.write, Frame.mk.injEq, and_true]
  funext index
  split_ifs <;> rfl

variable {sel : BitVec 32 → Bool} {req : ApbReq} {vga : Vga} {bus : VgaBus}

theorem Vga.next_frame (access : req.penable = true) :
    (vga.next req).frame = vga.frame.write req := by
  by_cases sync : req.paddr = syncAddr
  · obtain ⟨data, syncReg⟩ := vga.next_of_sync access sync
    rw [Vga.frame, data, syncReg, Frame.write]
    simp [sync, Vga.frame]
  · have next := fun index => vga.next_of_data access sync index
    rw [Vga.frame, (next 0#21).2, Frame.write, Frame.mk.injEq]
    constructor
    · funext index
      rw [(next index).1]
      simp only [ne_eq, sync, not_false_eq_true, true_and]
      rfl
    · simp only [sync, decide_false, Bool.false_and]

theorem Vga.next_frame_of_no_access (noAccess : req.penable = false) :
    (vga.next req).frame = vga.frame := by
  obtain ⟨data, syncReg⟩ := vga.next_of_no_access noAccess
  rw [Vga.frame, data, syncReg]
  rfl

/-!
## Stages of a transfer
-/

/-- The bus between two clock edges: no transfer, a transfer to another device, a transfer to
the VGA that it has not answered, and one whose answer is held back. -/
inductive VgaStage (sel : BitVec 32 → Bool) : VgaBus → Prop where
  | idle (delayer : Delayer) (vga : Vga) (state : delayer.state = .idle_t)
      (ready : vga.apbState = .idle) : VgaStage sel ⟨.idle, delayer, vga⟩
  | away (req : ApbReq) (delayer : Delayer) (vga : Vga) (elsewhere : sel req.paddr = false)
      (begun : delayer.state ≠ .idle_t) (ready : vga.apbState = .idle) :
      VgaStage sel ⟨.access req, delayer, vga⟩
  | asking (req : ApbReq) (delayer : Delayer) (vga : Vga) (here : sel req.paddr = true)
      (state : delayer.state = .wait_perip_t) : VgaStage sel ⟨.access req, delayer, vga⟩
  | echo (req : ApbReq) (delayer : Delayer) (vga : Vga) (here : sel req.paddr = true)
      (state : delayer.state = .delay_t) (ready : vga.apbState = .idle)
      (stored : vga.frame.write req = vga.frame) : VgaStage sel ⟨.access req, delayer, vga⟩

/-- One cycle leads to a stage again and stores what the device accepts as an access. -/
def VgaStage.Steps (sel : BitVec 32 → Bool) (input : VgaInput) (bus : VgaBus) : Prop :=
  VgaStage sel (bus.step sel input) ∧
    (bus.step sel input).vga.frame = (bus.accesses sel input).foldl Frame.write bus.vga.frame

section Step

variable {delayer : Delayer}

/-- The cycle in which the delayer answers is its last. -/
theorem Delayer.next_of_ready (done : delayer.resp.pready = true) (up : ApbReq) (down : ApbResp) :
    (delayer.next up down).state = .idle_t := by
  simp only [Delayer.resp, Bool.and_eq_true, beq_iff_eq] at done
  simp [Delayer.next, done]

theorem Delayer.next_of_held (state : delayer.state = .delay_t)
    (held : delayer.resp.pready = false) (up : ApbReq) (down : ApbResp) :
    (delayer.next up down).state = .delay_t := by
  simp only [Delayer.resp, state, beq_self_eq_true, Bool.true_and, beq_eq_false_iff_ne] at held
  simp [Delayer.next, state, held]

theorem steps_idle (input : VgaInput) (state : delayer.state = .idle_t)
    (ready : vga.apbState = .idle) : VgaStage.Steps sel input ⟨.idle, delayer, vga⟩ := by
  constructor
  · cases start : input.want.psel with
    | false =>
        rw [VgaBus.step, ApbPhase.next, start]
        apply VgaStage.idle
        · simp [Delayer.next, VgaBus.upstream, ApbPhase.drive, state, start]
        · simp [Vga.next, VgaBus.request, VgaBus.upstream, ApbPhase.drive, Delayer.request, ready,
            start]
    | true =>
        rw [VgaBus.step, ApbPhase.next, start]
        have begun : (delayer.next (VgaBus.upstream input ⟨.idle, delayer, vga⟩)
            (VgaBus.answer sel input ⟨.idle, delayer, vga⟩)).state = .wait_perip_t := by
          simp [Delayer.next, VgaBus.upstream, ApbPhase.drive, state, start]
        cases here : sel input.want.paddr with
        | true => exact .asking _ _ _ here begun
        | false =>
            refine .away _ _ _ here (by simp [begun]) ?_
            simp [Vga.next, VgaBus.request, VgaBus.upstream, ApbPhase.drive, Delayer.request,
              ready, here]
  · have none : (VgaBus.request sel input ⟨.idle, delayer, vga⟩).penable = false := by
      simp [VgaBus.request, VgaBus.upstream, ApbPhase.drive, Delayer.request]
    simp only [VgaBus.step, Vga.next_frame_of_no_access none, VgaBus.accesses, none, Bool.and_false,
      Bool.false_eq_true, if_false, List.foldl_nil]

theorem steps_away (input : VgaInput) (elsewhere : sel req.paddr = false)
    (begun : delayer.state ≠ .idle_t) (ready : vga.apbState = .idle) :
    VgaStage.Steps sel input ⟨.access req, delayer, vga⟩ := by
  have none : (VgaBus.request sel input ⟨.access req, delayer, vga⟩).penable = false ∧
      (VgaBus.request sel input ⟨.access req, delayer, vga⟩).psel = false := by
    simp [VgaBus.request, VgaBus.upstream, ApbPhase.drive, Delayer.request, elsewhere]
  have idle : (vga.next (VgaBus.request sel input ⟨.access req, delayer, vga⟩)).apbState = .idle := by
    simp [Vga.next, ready, none.2]
  constructor
  · rw [VgaBus.step, ApbPhase.next]
    cases done : delayer.resp.pready with
    | true => exact .idle _ _ (Delayer.next_of_ready done _ _) idle
    | false =>
        refine .away _ _ _ elsewhere ?_ idle
        cases state : delayer.state with
        | idle_t => exact absurd state begun
        | wait_perip_t =>
            simp only [Delayer.next, state]
            split_ifs <;> simp
        | delay_t => simp [Delayer.next_of_held state done]
  · simp only [VgaBus.step, Vga.next_frame_of_no_access none.1, VgaBus.accesses, none.1,
      Bool.and_false, Bool.false_eq_true, if_false, List.foldl_nil]

theorem steps_asking (input : VgaInput) (here : sel req.paddr = true)
    (state : delayer.state = .wait_perip_t) :
    VgaStage.Steps sel input ⟨.access req, delayer, vga⟩ := by
  have shown : VgaBus.request sel input ⟨.access req, delayer, vga⟩ =
      { req with psel := true, penable := true } := by
    simp [VgaBus.request, VgaBus.upstream, ApbPhase.drive, Delayer.request, here, state]
  have stored : (vga.next { req with psel := true, penable := true }).frame =
      vga.frame.write req := Vga.next_frame rfl
  have silent : delayer.resp.pready = false := by
    rw [Delayer.resp, state]
    rfl
  constructor
  · rw [VgaBus.step, ApbPhase.next, shown, silent]
    cases answer : vga.apbState with
    | idle =>
        refine .asking _ _ _ here ?_
        simp [Delayer.next, VgaBus.answer, VgaBus.upstream, ApbPhase.drive, state, here, Vga.pready,
          answer]
    | write =>
        refine .echo _ _ _ here ?_ ?_ (by rw [stored, Frame.write_write])
        · simp [Delayer.next, VgaBus.answer, VgaBus.upstream, ApbPhase.drive, state, here,
            Vga.pready, answer]
        · simp [Vga.next, answer]
  · simp only [VgaBus.step, VgaBus.accesses, shown, Bool.and_self, if_true, List.foldl_cons,
      List.foldl_nil, stored]
    rfl

theorem steps_echo (input : VgaInput) (here : sel req.paddr = true)
    (state : delayer.state = .delay_t) (ready : vga.apbState = .idle)
    (stored : vga.frame.write req = vga.frame) :
    VgaStage.Steps sel input ⟨.access req, delayer, vga⟩ := by
  have shown : VgaBus.request sel input ⟨.access req, delayer, vga⟩ =
      { req with psel := false, penable := true } := by
    simp [VgaBus.request, VgaBus.upstream, ApbPhase.drive, Delayer.request, here, state]
  have same : (vga.next { req with psel := false, penable := true }).frame = vga.frame :=
    (Vga.next_frame rfl).trans stored
  have idle : (vga.next { req with psel := false, penable := true }).apbState = .idle := by
    simp [Vga.next, ready]
  constructor
  · rw [VgaBus.step, ApbPhase.next, shown]
    cases done : delayer.resp.pready with
    | true => exact .idle _ _ (Delayer.next_of_ready done _ _) idle
    | false =>
        exact .echo _ _ _ here (Delayer.next_of_held state done _ _) idle (by rw [same, stored])
  · simp only [VgaBus.step, VgaBus.accesses, shown, Bool.false_and, Bool.false_eq_true, if_false,
      List.foldl_nil, same]

end Step

theorem VgaStage.steps (stage : VgaStage sel bus) (input : VgaInput) :
    VgaStage.Steps sel input bus := by
  cases stage with
  | idle _ _ state ready => exact steps_idle input state ready
  | away _ _ _ elsewhere begun ready => exact steps_away input elsewhere begun ready
  | asking _ _ _ here state => exact steps_asking input here state
  | echo _ _ _ here state ready stored => exact steps_echo input here state ready stored

/-!
## Runs
-/

/-- What the accesses of a stretch of a run store is all that changes in it. -/
theorem VgaStage.run (stage : VgaStage sel bus) (inputs : Nat → VgaInput) (t n : Nat) :
    VgaStage sel ((vgaBusMachine sel).run inputs t bus n) ∧
      ((vgaBusMachine sel).run inputs t bus n).vga.frame =
        ((vgaBusMachine sel).events inputs t bus n).foldl Frame.write bus.vga.frame := by
  induction n with
  | zero => exact ⟨stage, rfl⟩
  | succ n ih =>
      obtain ⟨there, frame⟩ := ih
      obtain ⟨next, stored⟩ := there.steps (inputs (t + n))
      rw [Machine.run_succ, Machine.events_succ, List.foldl_append, ← frame]
      exact ⟨next, stored⟩

/-- A run from reset, whatever the master and the other devices do. -/
theorem vgaStage_at (ready : vga.apbState = .idle) (inputs : Nat → VgaInput) (n : Nat) :
    VgaStage sel (vgaBusAt sel vga inputs n) :=
  (VgaStage.run (.idle .reset vga rfl ready) inputs 0 n).1

/-- The state of the bus `n` cycles after cycle `t` of a run. -/
theorem vgaBusAt_add (inputs : Nat → VgaInput) (t n : Nat) :
    vgaBusAt sel vga inputs (t + n) =
      (vgaBusMachine sel).run inputs t (vgaBusAt sel vga inputs t) n := by
  rw [vgaBusAt, Machine.run_add, Nat.zero_add]
  rfl

/-!
## A transfer
-/

/-- No transfer, and nothing left of the last one. -/
structure VgaBus.AtRest (bus : VgaBus) : Prop where
  master : bus.master = .idle
  delayer : bus.delayer.state = .idle_t
  counter : bus.delayer.counter = 0#32
  vga : bus.vga.apbState = .idle

theorem psel_of_delay (input : VgaInput) (state : bus.delayer.state = .delay_t) :
    (bus.request sel input).psel = false := by
  simp [VgaBus.request, Delayer.request, state]

/-- While the delayer counts down the VGA is not selected; then the master has its answer. -/
theorem rest_of_delay (sel : BitVec 32 → Bool) (inputs : Nat → VgaInput) {k : Nat} (t : Nat)
    (master : bus.master = .access req) (state : bus.delayer.state = .delay_t)
    (count : bus.delayer.counter.toNat = k + 1) (ready : bus.vga.apbState = .idle) :
    ((vgaBusMachine sel).run inputs t bus (k + 1)).AtRest ∧
      (vgaBusMachine sel).events inputs t bus (k + 1) = [] := by
  induction k generalizing bus t with
  | zero =>
      have one : bus.delayer.counter = 1#32 := BitVec.eq_of_toNat_eq count
      refine ⟨⟨?_, ?_, ?_, ?_⟩, ?_⟩
      · simp [Machine.run, vgaBusMachine, VgaBus.step, ApbPhase.next, master, Delayer.resp, state,
          one]
      · simp [Machine.run, vgaBusMachine, VgaBus.step, Delayer.next, state, one]
      · simp [Machine.run, vgaBusMachine, VgaBus.step, Delayer.next, state, one]
      · simp [Machine.run, vgaBusMachine, VgaBus.step, Vga.next, ready, psel_of_delay _ state]
      · simp [Machine.events, vgaBusMachine, VgaBus.accesses, psel_of_delay _ state]
  | succ k ih =>
      have more : bus.delayer.counter ≠ 1#32 := by
        intro one
        rw [one] at count
        simp at count
      have counted : (bus.step sel (inputs t)).delayer.counter.toNat = k + 1 := by
        simp only [VgaBus.step, Delayer.next, state, more, if_false]
        have value : (1#32).toNat = 1 := rfl
        have bound := bus.delayer.counter.isLt
        rw [BitVec.toNat_sub]
        omega
      have held : (bus.step sel (inputs t)).master = .access req := by
        simp [VgaBus.step, ApbPhase.next, master, Delayer.resp, state, more]
      have delaying : (bus.step sel (inputs t)).delayer.state = .delay_t := by
        simp [VgaBus.step, Delayer.next, state, more]
      have idle : (bus.step sel (inputs t)).vga.apbState = .idle := by
        simp [VgaBus.step, Vga.next, ready, psel_of_delay _ state]
      obtain ⟨rest, later⟩ := ih (t + 1) held delaying counted idle
      refine ⟨rest, ?_⟩
      rw [Machine.events, show (vgaBusMachine sel).out (inputs t) bus = [] by
        simp [vgaBusMachine, VgaBus.accesses, psel_of_delay _ state], List.nil_append]
      exact later

/-- The first cycle of a write. -/
theorem VgaBus.AtRest.setup (rest : bus.AtRest) {input : VgaInput} (want : input.want = req)
    (start : req.psel = true) (write : req.pwrite = true) (here : sel req.paddr = true) :
    (bus.step sel input).master = .access req ∧
      (bus.step sel input).delayer.state = .wait_perip_t ∧
      (bus.step sel input).delayer.counter = 85#32 ∧
      (bus.step sel input).vga.apbState = .write ∧ bus.accesses sel input = [] := by
  obtain ⟨master, delayer, vga⟩ := bus
  obtain ⟨rfl, idle, zero, ready⟩ := rest
  subst want
  dsimp only at idle zero ready
  have shown : VgaBus.request sel input ⟨.idle, delayer, vga⟩ =
      { input.want with psel := true, penable := false } := by
    simp [VgaBus.request, VgaBus.upstream, ApbPhase.drive, Delayer.request, here, idle, start]
  refine ⟨?_, ?_, ?_, ?_, ?_⟩
  · simp [VgaBus.step, ApbPhase.next, start]
  · simp [VgaBus.step, Delayer.next, VgaBus.upstream, ApbPhase.drive, idle, start]
  · simp [VgaBus.step, Delayer.next, VgaBus.upstream, ApbPhase.drive, idle, start, zero]
  · simp [VgaBus.step, Vga.next, shown, ready, write]
  · simp [VgaBus.accesses, shown]

/-- A write that the master starts on the bus at rest is one access, and seven cycles later the
bus is at rest again. -/
theorem VgaBus.AtRest.transfer (rest : bus.AtRest) {inputs : Nat → VgaInput} {t : Nat}
    (want : (inputs t).want = req) (start : req.psel = true) (write : req.pwrite = true)
    (here : sel req.paddr = true) :
    ((vgaBusMachine sel).run inputs t bus 7).AtRest ∧
      (vgaBusMachine sel).events inputs t bus 7 = [{ req with psel := true, penable := true }] := by
  obtain ⟨master, waiting, counter, answer, silent⟩ := rest.setup want start write here
  generalize first : bus.step sel (inputs t) = bus₁ at master waiting counter answer
  have shown : bus₁.request sel (inputs (t + 1)) = { req with psel := true, penable := true } := by
    simp [VgaBus.request, VgaBus.upstream, ApbPhase.drive, Delayer.request, here, master, waiting]
  have held : (bus₁.step sel (inputs (t + 1))).master = .access req := by
    simp [VgaBus.step, ApbPhase.next, master, Delayer.resp, waiting]
  have delaying : (bus₁.step sel (inputs (t + 1))).delayer.state = .delay_t := by
    simp [VgaBus.step, Delayer.next, VgaBus.answer, VgaBus.upstream, ApbPhase.drive, master,
      waiting, here, Vga.pready, answer]
  have count : (bus₁.step sel (inputs (t + 1))).delayer.counter.toNat = 4 + 1 := by
    simp [VgaBus.step, Delayer.next, VgaBus.answer, VgaBus.upstream, ApbPhase.drive, master,
      waiting, here, Vga.pready, answer, counter]
  have ready : (bus₁.step sel (inputs (t + 1))).vga.apbState = .idle := by
    simp [VgaBus.step, Vga.next, answer]
  obtain ⟨atRest, quiet⟩ := rest_of_delay sel inputs (t + 1 + 1) held delaying count ready
  rw [← first] at atRest quiet shown
  refine ⟨atRest, ?_⟩
  calc (vgaBusMachine sel).events inputs t bus 7
      = bus.accesses sel (inputs t) ++ ((bus.step sel (inputs t)).accesses sel (inputs (t + 1)) ++
          (vgaBusMachine sel).events inputs (t + 1 + 1)
            ((bus.step sel (inputs t)).step sel (inputs (t + 1))) 5) := rfl
    _ = [{ req with psel := true, penable := true }] := by
        rw [silent, quiet, VgaBus.accesses, shown]
        rfl

/-- Writes back to back. -/
theorem VgaBus.AtRest.transfers (rest : bus.AtRest) {inputs : Nat → VgaInput} {t : Nat}
    {reqs : List ApbReq} (want : ∀ k (bound : k < reqs.length), (inputs (t + 7 * k)).want = reqs[k])
    (writes : ∀ req ∈ reqs, req.psel = true ∧ req.pwrite = true ∧ sel req.paddr = true) :
    ((vgaBusMachine sel).run inputs t bus (7 * reqs.length)).AtRest ∧
      (vgaBusMachine sel).events inputs t bus (7 * reqs.length) =
        reqs.map fun req => { req with psel := true, penable := true } := by
  induction reqs generalizing bus t with
  | nil => exact ⟨rest, rfl⟩
  | cons req reqs ih =>
      obtain ⟨⟨start, write, here⟩, later⟩ := List.forall_mem_cons.mp writes
      have now : (inputs t).want = req := want 0 (Nat.succ_pos _)
      have next : ∀ k (bound : k < reqs.length), (inputs (t + 7 + 7 * k)).want = reqs[k] := by
        intro k bound
        have wanted := want (k + 1) (Nat.succ_lt_succ bound)
        rw [Nat.mul_succ, Nat.add_comm (7 * k) 7, ← Nat.add_assoc] at wanted
        exact wanted
      obtain ⟨between, first⟩ := rest.transfer now start write here
      obtain ⟨after, others⟩ := ih between next later
      rw [List.length_cons, Nat.mul_succ, Nat.add_comm, Machine.run_add, Machine.events_add, first,
        others]
      exact ⟨after, rfl⟩

end Ysyx.Soc
