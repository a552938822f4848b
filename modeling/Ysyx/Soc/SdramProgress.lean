import Ysyx.Soc.SdramStages

/-! How long a request waits. What the controller does before it serves the request is counted
off against the refresh timer, so every request is answered. -/

set_option autoImplicit false

namespace Ysyx.Soc

open Lib (Machine)

/-!
## The controller
-/

namespace SdramAxiCore

variable (core : SdramAxiCore)

/-- A bound on the wait for `STATE_IDLE` in `d` cycles, which the timer may run out in. -/
def within (d : Nat) : Nat := (if core.refreshTimer < d then 40 else 10) + d

/-- A bound on the wait with the state entered in `d` cycles. -/
def ahead (d : Nat) : SdramState → Nat
  | .read | .write0 => d
  | .activate => d + 3
  | .precharge => if core.target = .refresh then core.within (d + 10) else d + 6
  | .refresh => core.within (d + 7)
  | .idle =>
      if core.refresh then (if core.refreshTimer < d + 11 then 70 else 40) + d else core.within d
  | .init | .delay | .readWait | .write1 => 0

/-- A bound on the cycles before a pending request is accepted. -/
def patience : Nat :=
  match core.state with
  | .init => if core.refresh then 100 else 200 + core.refreshTimer
  | .delay => core.ahead core.delay.toNat core.delayState
  | state => core.ahead 0 state

variable {core : SdramAxiCore} {ram : RamReq} {dataIn : BitVec 32}

theorem posedge_refreshTimer : (core.posedge ram dataIn).refreshTimer =
    if core.refreshTimer = 0 then 780 else core.refreshTimer - 1 := rfl

theorem posedge_refresh : (core.posedge ram dataIn).refresh =
    if core.refreshTimer = 0 then true
    else if core.state = .refresh then false else core.refresh := rfl

theorem within_next {d : Nat} (short : d ≤ 100) :
    (core.posedge ram dataIn).within d < core.within (d + 1) := by
  rw [within, within, posedge_refreshTimer]
  split_ifs <;> omega

theorem patience_of_ne_delay (notInit : core.state ≠ .init) (notDelay : core.state ≠ .delay) :
    core.patience = core.ahead 0 core.state := by
  rw [patience]
  split
  · exact absurd ‹_› notInit
  · exact absurd ‹_› notDelay
  · rfl

/-- Waiting for a state brings it nearer. -/
theorem ahead_next {pending : Option ApbReq} {state : SdramState} {d : Nat} (short : d ≤ 15)
    (serves : Serves core pending state) (delays : core.state = .delay) :
    (core.posedge ram dataIn).ahead d state < core.ahead (d + 1) state := by
  have target : (core.posedge ram dataIn).target = core.target := by
    simp [posedge, targetNext, delays]
  have notRefresh : core.state ≠ .refresh := by
    rw [delays]
    exact SdramState.noConfusion
  cases state with
  | read | write0 | activate =>
      simp only [ahead]
      omega
  | precharge =>
      simp only [ahead, target]
      split_ifs
      · exact within_next (by omega)
      · omega
  | refresh =>
      simp only [ahead]
      exact within_next (by omega)
  | idle =>
      simp only [ahead, within, posedge_refresh, posedge_refreshTimer, if_neg notRefresh]
      split_ifs <;> omega
  | init | delay | readWait | write1 => exact serves.elim

end SdramAxiCore

section Front

variable {core : SdramAxiCore} {req : ApbReq} {dataIn : BitVec 32}

/-- What `STATE_IDLE` does first for a request. -/
theorem idle_patience (state : core.state = .idle) (asks : req.ram.req = true) :
    (core.posedge req.ram dataIn).patience < core.patience := by
  have next : (core.posedge req.ram dataIn).state = core.stateNext req.ram := by
    simp [SdramAxiCore.posedge, SdramAxiCore.delayNext, state]
  have target : (core.posedge req.ram dataIn).target = core.targetNext req.ram := rfl
  have bound (d : Nat) := @SdramAxiCore.within_next core req.ram dataIn d
  simp only [SdramAxiCore.stateNext, SdramAxiCore.targetNext, state, asks, if_true,
    Bool.true_and] at next target
  have here : core.patience =
      if core.refresh then if core.refreshTimer < 11 then 70 else 40 else 10 := by
    simp [SdramAxiCore.patience, SdramAxiCore.ahead, SdramAxiCore.within, state]
  cases refresh : core.refresh with
  | true =>
      simp only [refresh, if_true] at next target here
      rw [here]
      split_ifs at next with anyOpen
      · rw [SdramAxiCore.patience, next]
        simp only [SdramAxiCore.ahead, target, if_true]
        have nearer := bound 10 (by decide)
        simp only [SdramAxiCore.within] at nearer ⊢
        split_ifs at nearer ⊢ <;> omega
      · rw [SdramAxiCore.patience, next]
        simp only [SdramAxiCore.ahead]
        have nearer := bound 7 (by decide)
        simp only [SdramAxiCore.within] at nearer ⊢
        split_ifs at nearer ⊢ <;> omega
  | false =>
      simp only [refresh, Bool.false_eq_true, if_false] at next target here
      rw [here]
      cases hit : core.hit req.ram with
      | true =>
          simp only [hit, if_true] at next
          rcases access_cases req.ram with access | access <;>
            simp [SdramAxiCore.patience, next, access, SdramAxiCore.ahead]
      | false =>
          simp only [hit, Bool.false_eq_true, if_false, Bool.not_false, if_true] at next target
          split_ifs at next
          · have other : req.ram.access ≠ .refresh := by
              rcases access_cases req.ram with access | access <;>
                rw [access] <;> exact SdramState.noConfusion
            simp [SdramAxiCore.patience, next, SdramAxiCore.ahead, target, other]
          · simp [SdramAxiCore.patience, next, SdramAxiCore.ahead]

theorem Waiting.patience_next (waiting : Waiting core (some req)) (asks : req.ram.req = true)
    (noRead : core.state ≠ .read) (noWrite : core.state ≠ .write0) :
    (core.posedge req.ram dataIn).patience < core.patience := by
  have serves := waiting.serves
  cases state : core.state with
  | idle => exact idle_patience state asks
  | delay =>
      rw [if_pos state] at serves
      obtain ⟨more, after⟩ := serves
      have positive : 0 < core.delay.toNat := by
        rw [Nat.pos_iff_ne_zero]
        intro zero
        exact more (BitVec.eq_of_toNat_eq zero)
      have less : (core.delay - 1#4).toNat = core.delay.toNat - 1 := by
        rw [BitVec.toNat_sub_of_le (by rw [BitVec.le_def]; exact positive)]
        rfl
      have here : core.patience = core.ahead core.delay.toNat core.delayState := by
        rw [SdramAxiCore.patience, state]
      have nearer := @SdramAxiCore.ahead_next core req.ram dataIn (some req) core.delayState
        (core.delay.toNat - 1) (by omega) after state
      rw [Nat.sub_add_cancel positive, ← here] at nearer
      by_cases last : core.delay - 1#4 = 0#4
      · have next : (core.posedge req.ram dataIn).state = core.delayState := by
          simp [SdramAxiCore.posedge, SdramAxiCore.delayNext, SdramAxiCore.stateNext, state, last]
        rw [last] at less
        rw [SdramAxiCore.patience_of_ne_delay, next]
        · rwa [← less] at nearer
        · intro init
          rw [next.symm.trans init] at after
          exact after
        · intro delay
          rw [next.symm.trans delay] at after
          exact after
      · have next : (core.posedge req.ram dataIn).state = .delay ∧
            (core.posedge req.ram dataIn).delay = core.delay - 1#4 ∧
            (core.posedge req.ram dataIn).delayState = core.delayState := by
          simp [SdramAxiCore.posedge, SdramAxiCore.delayNext, state, last]
        rw [SdramAxiCore.patience, next.1, next.2.1, next.2.2, less]
        exact nearer
  | activate =>
      rw [if_neg (by rw [state]; exact SdramState.noConfusion), state] at serves
      obtain ⟨_, ⟨⟩, aims⟩ := serves
      rcases access_cases req.ram with access | access <;>
        simp [SdramAxiCore.patience, SdramAxiCore.ahead, SdramAxiCore.posedge,
          SdramAxiCore.delayNext, SdramAxiCore.stateNext, SdramAxiCore.trcdCycles, state, aims,
          access]
  | precharge =>
      by_cases refresh : core.target = .refresh
      · have nearer := @SdramAxiCore.within_next core req.ram dataIn 9 (by decide)
        simpa [SdramAxiCore.patience, SdramAxiCore.ahead, SdramAxiCore.posedge,
          SdramAxiCore.delayNext, SdramAxiCore.stateNext, SdramAxiCore.trpCycles, state,
          refresh] using nearer
      · simp [SdramAxiCore.patience, SdramAxiCore.ahead, SdramAxiCore.posedge,
          SdramAxiCore.delayNext, SdramAxiCore.stateNext, SdramAxiCore.trpCycles, state, refresh]
  | refresh =>
      have next : (core.posedge req.ram dataIn).patience =
          (core.posedge req.ram dataIn).ahead 6 .idle := by
        simp [SdramAxiCore.patience, SdramAxiCore.posedge, SdramAxiCore.delayNext,
          SdramAxiCore.stateNext, SdramAxiCore.trfcCycles, state]
      have here : core.patience = core.within 7 := by
        simp [SdramAxiCore.patience, SdramAxiCore.ahead, state]
      rw [next, here]
      simp only [SdramAxiCore.ahead, SdramAxiCore.within, SdramAxiCore.posedge_refresh,
        SdramAxiCore.posedge_refreshTimer, if_pos state]
      by_cases zero : core.refreshTimer = 0
      · simp only [zero, if_true]
        split_ifs <;> omega
      · simp only [zero, if_false, Bool.false_eq_true]
        split_ifs <;> omega
  | read => exact absurd state noRead
  | write0 => exact absurd state noWrite
  | init | readWait | write1 =>
      rw [state] at serves
      exact serves.elim

theorem Powering.patience_next {chips : Sdram} {mem : SdramCell → BitVec 32} {ram : RamReq}
    (powering : Powering core chips mem) :
    (core.posedge ram dataIn).patience < core.patience := by
  have state := powering.state
  cases refresh : core.refresh with
  | true =>
      have next : (core.posedge ram dataIn).state = .idle := by
        simp [SdramAxiCore.posedge, SdramAxiCore.delayNext, SdramAxiCore.stateNext, state, refresh]
      simp only [SdramAxiCore.patience, next, state, refresh, if_true, SdramAxiCore.ahead,
        SdramAxiCore.within]
      split_ifs <;> omega
  | false =>
      have next : (core.posedge ram dataIn).state = .init := by
        simp [SdramAxiCore.posedge, SdramAxiCore.delayNext, SdramAxiCore.stateNext, state, refresh]
      simp only [SdramAxiCore.patience, next, state, refresh, SdramAxiCore.posedge_refresh,
        SdramAxiCore.posedge_refreshTimer]
      by_cases zero : core.refreshTimer = 0
      · simp only [zero, if_true, if_false, Bool.false_eq_true]
        omega
      · simp only [zero, if_false, Bool.false_eq_true, ite_self]
        omega

end Front

/-!
## The whole
-/

/-- The transfer is the one that was asked for. -/
def SdramTransfer.Answers (req : ApbReq) : SdramTransfer → Prop
  | .read addr _ => req.pwrite = false ∧ addr = req.paddr
  | .write addr data strb =>
      req.pwrite = true ∧ addr = req.paddr ∧ data = req.pwdata ∧ strb = req.pstrb

theorem SdramTransfer.Answers.write {req : ApbReq} {transfer : SdramTransfer}
    (answers : transfer.Answers req) (write : req.pwrite = true) :
    transfer = .write req.paddr req.pwdata req.pstrb := by
  cases transfer with
  | read addr data =>
      obtain ⟨read, _⟩ := answers
      rw [write] at read
      cases read
  | write addr data strb =>
      obtain ⟨_, rfl, rfl, rfl⟩ := answers
      rfl

theorem SdramTransfer.Answers.read {req : ApbReq} {transfer : SdramTransfer}
    (answers : transfer.Answers req) (read : req.pwrite = false) :
    ∃ data, transfer = .read req.paddr data := by
  cases transfer with
  | read addr data =>
      obtain ⟨_, rfl⟩ := answers
      exact ⟨data, rfl⟩
  | write addr data strb =>
      obtain ⟨write, _⟩ := answers
      rw [read] at write
      cases write

/-- A bound on the cycles before the answer. -/
def SdramSystem.patience (sys : SdramSystem) : Nat :=
  match sys.top.state with
  | .idle | .waitAccept => 4 + sys.top.core.patience
  | .waitAck =>
      match sys.top.core.state with
      | .readWait => 3
      | .delay => sys.top.core.delay.toNat
      | _ => 0

section System

variable {sys : SdramSystem} {mem : SdramCell → BitVec 32} {req : ApbReq}

/-- A request that is not answered in this cycle is nearer to it in the next. -/
theorem Stage.nears (stage : Stage sys mem) (pending : sys.master = .access req)
    (asks : req.ram.req = true) (silent : sys.top.core.ack = false) (input : SdramInput) :
    (sys.step input).master = .access req ∧ (sys.step input).patience < sys.patience := by
  have held : (sys.step input).master = .access req := by
    simp [SdramSystem.step, pending, silent, ApbPhase.next]
  refine ⟨held, ?_⟩
  cases stage with
  | @powering _ _ _ core chips _ front powering =>
      cases front with
      | idle => cases pending
      | pending =>
          cases pending
          have noAccept : core.accept = false := by
            rw [SdramAxiCore.accept, powering.state]
            rfl
          have nearer (ram : RamReq) (dataIn : BitVec 32) :=
            @Powering.patience_next core dataIn chips mem ram powering
          simpa [SdramSystem.patience, SdramSystem.step, SdramTop.stateNext, noAccept] using
            nearer _ _
  | @waiting _ _ _ core chips _ rank front waiting backed calm rows aims =>
      cases front with
      | idle => cases pending
      | pending =>
          cases pending
          have ram : SdramTop.ram ⟨.waitAccept, core⟩ (ApbPhase.drive (.access req) input.want) =
              req.ram := by
            simp [SdramTop.ram, SdramTop.active, ApbPhase.drive, ApbReq.ram]
          by_cases accepted : core.state = .read ∨ core.state = .write0
          · rcases accepted with here | here
            all_goals
              simp only [SdramSystem.patience, SdramSystem.step, SdramTop.stateNext,
                SdramAxiCore.accept, here, SdramAxiCore.posedge, SdramAxiCore.delayNext,
                SdramAxiCore.stateNext, beq_self_eq_true, Bool.or_true, Bool.true_or, if_true,
                ne_eq, not_true_eq_false, if_false]
              omega
          · rw [not_or] at accepted
            have noAccept : core.accept = false := by
              rw [SdramAxiCore.accept, beq_eq_false_iff_ne.mpr accepted.1,
                beq_eq_false_iff_ne.mpr accepted.2]
              rfl
            have nearer (dataIn : BitVec 32) :=
              @Waiting.patience_next core req dataIn waiting asks accepted.1 accepted.2
            simpa [SdramSystem.patience, SdramSystem.step, SdramTop.stateNext, noAccept,
              SdramSystem.request, ram] using nearer _
  | @written _ core chips _ write written =>
      rw [written.ack] at silent
      cases silent
  | @sent req core chips _ read sent =>
      obtain ⟨dataIn, step, _⟩ := @step_service core chips req input
      obtain ⟨state, delay, _⟩ := (@ReadSent.next _ _ _ _ dataIn input.before sent).state
      rw [step, sent.ack]
      simp only [SdramSystem.patience, state, delay, sent.state, Bool.false_eq_true, if_false]
      decide
  | @taken req core chips _ read taken =>
      obtain ⟨dataIn, step, bus⟩ := @step_service core chips req input
      obtain ⟨state, delay, _⟩ :=
        (@ReadTaken.next _ _ _ _ dataIn input.before taken
          (bus.trans (taken.bus input.after))).state
      obtain ⟨before, two, _⟩ := taken.state
      rw [step, taken.ack]
      simp only [SdramSystem.patience, state, delay, before, two, Bool.false_eq_true, if_false]
      decide
  | @sampled req core chips _ read sampled =>
      obtain ⟨dataIn, step, _⟩ := @step_service core chips req input
      have idle := (@ReadSampled.next _ _ _ _ dataIn input.before sampled).state
      obtain ⟨before, one, _⟩ := sampled.state
      rw [step, sampled.ack]
      simp only [SdramSystem.patience, idle, before, one, Bool.false_eq_true, if_false]
      decide
  | @done _ core chips _ read done =>
      rw [done.ack] at silent
      cases silent

theorem out_of_access (pending : sys.master = .access req) :
    if sys.top.core.ack then ∃ transfer : SdramTransfer, transfer.Answers req ∧ sys.out = [transfer]
    else sys.out = [] := by
  obtain ⟨master, top, chips⟩ := sys
  cases pending
  cases ack : top.core.ack with
  | false => simp [SdramSystem.out, ack]
  | true =>
      cases write : req.pwrite with
      | false =>
          refine ⟨.read _ top.core.sampleData, ⟨write, rfl⟩, ?_⟩
          simp [SdramSystem.out, ack, write]
      | true =>
          refine ⟨.write _ _ _, ⟨write, rfl, rfl, rfl⟩, ?_⟩
          simp [SdramSystem.out, ack, write]

/-- A request, but a write of no byte, is answered, and until then nothing is. -/
theorem Stage.exists_answer (stage : Stage sys mem) (pending : sys.master = .access req)
    (asks : req.ram.req = true) (inputs : Nat → SdramInput) (k : Nat) :
    ∃ n transfer, transfer.Answers req ∧ sdramMachine.events inputs k sys n = [] ∧
      sdramMachine.events inputs k sys (n + 1) = [transfer] ∧
      (sdramMachine.run inputs k sys (n + 1)).master = .idle := by
  have nears (input : SdramInput) (sys : SdramSystem)
      (held : sys.master = .access req ∧ ∃ mem, Stage sys mem)
      (unmet : ¬ sys.top.core.ack = true) :
      ((sys.step input).master = .access req ∧ ∃ mem, Stage (sys.step input) mem) ∧
        (sys.step input).patience < sys.patience := by
    obtain ⟨master, mem, stage⟩ := held
    obtain ⟨held', nearer⟩ := stage.nears master asks (Bool.eq_false_iff.mpr unmet) input
    refine ⟨⟨held', ?_⟩, nearer⟩
    rcases stage.next input with ⟨_, after⟩ | ⟨_, _, _, after⟩
    · exact ⟨_, after⟩
    · exact ⟨_, after⟩
  obtain ⟨n, ⟨last, _⟩, acked, before⟩ := @Machine.exists_first _ _ _ sdramMachine inputs _
    (fun sys => sys.top.core.ack = true) SdramSystem.patience nears sys ⟨pending, mem, stage⟩ k
  have quiet : sdramMachine.events inputs k sys n = [] := by
    apply Machine.events_eq_nil
    intro j bound
    obtain ⟨⟨master, _⟩, unmet⟩ := before j bound
    have shown := out_of_access master
    rwa [if_neg unmet] at shown
  have shown := out_of_access last
  rw [if_pos acked] at shown
  obtain ⟨transfer, answers, out⟩ := shown
  refine ⟨n, transfer, answers, quiet, ?_, ?_⟩
  · rw [Machine.events_succ, quiet, List.nil_append]
    exact out
  · rw [Machine.run_succ]
    change (ApbPhase.next _ _ _) = _
    rw [last, acked]
    rfl

end System

end Ysyx.Soc
