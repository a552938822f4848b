import Ysyx.Npc.IcacheInvariant

/-! The cache over whole runs: it shows what a memory would show, and it answers. -/

set_option autoImplicit false

namespace Ysyx.Npc

open Rv32 (Word)
open Lib (Machine)

variable {inputs : Nat → IcacheInput} {n : Nat} {run : IcacheRun}

/-!
## Transparency
-/

theorem IcacheInv.transparent (inv : IcacheInv inputs run) : run.Transparent inputs where
  answer := by
    intro answers
    obtain ⟨held, current, flight, holds, _⟩ := inv.flight
    cases held with
    | none =>
        simp [IcacheSystem.answers, show run.sys.cache.ifuRvalid = false from holds] at answers
    | some fetch =>
        obtain ⟨_, complete, last, id, fresh⟩ := holds
        exact ⟨fetch, current.toList, flight, complete, last, id, fresh, fresh.eq_of_unchanged⟩
  once := inv.counts
  ask := by
    intro ar asks
    have asking : run.sys.cache.memArvalid = true ∧ run.sys.cache.memAr = ar := by
      simp only [IcacheSystem.asks] at asks
      split_ifs at asks with handshake
      exact ⟨(Bool.and_eq_true_iff.mp handshake).1, Option.some.inj asks⟩
    obtain ⟨held, current, flight, _, served⟩ := inv.flight
    cases current with
    | none => exact absurd (asking.1.symm.trans served.2.1) (by decide)
    | some fetch =>
        obtain ⟨_, serving⟩ := served
        cases state : run.sys.cache.state with
        | memAraddr =>
            rw [state] at serving
            obtain ⟨miss, noReads, _, _, line⟩ := serving
            exact ⟨held.toList, fetch, flight, miss, noReads, asking.2.symm.trans (line asking.1)⟩
        | idle =>
            rw [state] at serving
            exact serving.elim
        | memRdata =>
            rw [state] at serving
            exact absurd (asking.1.symm.trans serving.2.2.1) (by decide)
        | checkCache | updateArray | instrFetch =>
            rw [state] at serving
            exact absurd (asking.1.symm.trans serving.1.1) (by decide)
  offset := inv.offset
  lines := fun outside index way valid =>
    (inv.lines index way (fun inside => outside inside.1) valid).2
  unique := by
    intro addr
    have one := inv.oneWay (indexOf addr)
    cases zero : (run.sys.cache.dataValid (indexOf addr)).getLsbD 0 with
    | false =>
        have first : run.sys.cache.holds addr 0#1 = false := by
          rw [Icache.holds, show (0#1).toNat = 0 from rfl, zero]
          rfl
        rw [first]
        rfl
    | true =>
        have second : run.sys.cache.holds addr 1#1 = false := by
          rw [Icache.holds, show (1#1).toNat = 1 from rfl, one zero]
          rfl
        rw [second, Bool.and_false]

/-- The run from reset at the start of a cycle. -/
def icacheAt (any : Icache) (inputs : Nat → IcacheInput) (n : Nat) : IcacheRun :=
  icacheMachine.run inputs 0 ⟨IcacheSystem.reset any, IcacheLog.reset⟩ n

section Runs

variable (any : Icache) (inputs)

theorem icacheAt_succ (n : Nat) :
    icacheAt any inputs (n + 1) = icacheMachine.step (inputs n) (icacheAt any inputs n) := by
  rw [icacheAt, Machine.run_succ, Nat.zero_add]
  rfl

theorem icacheAt_now (n : Nat) : (icacheAt any inputs n).log.now = n := by
  induction n with
  | zero => rfl
  | succ n ih =>
      rw [icacheAt_succ]
      exact congrArg (· + 1) ih

theorem icacheInv_at (n : Nat) : IcacheInv inputs (icacheAt any inputs n) := by
  induction n with
  | zero => exact icacheInv_reset any
  | succ n ih =>
      rw [icacheAt_succ]
      exact ih.step (icacheAt_now inputs any n)

end Runs

/-!
## Progress
-/

/-- The environment serves every channel again and again. -/
structure IcacheFair (inputs : Nat → IcacheInput) : Prop where
  ifuRready : Machine.Often inputs (·.ifuRready = true)
  memArready : Machine.Often inputs (·.memArready = true)
  memRaise : Machine.Often inputs (·.memRaise = true)

/-- How far the refill is: the beats to come, and whether the next one is raised. -/
def BurstSlave.rank : BurstSlave → Nat
  | .idle => 4
  | .valid _ _ left _ => if left = 0#8 then 4 else 6
  | .wait _ _ left => if left = 0#8 then 5 else 7

/-- How far the oldest fetch in flight is from its answer. -/
def IcacheSystem.rank (sys : IcacheSystem) : Nat :=
  if sys.cache.ifuRvalid then 1 else
  match sys.cache.state with
  | .idle => 0
  | .instrFetch => 2
  | .updateArray => 3
  | .memRdata => sys.slave.rank
  | .memAraddr => if sys.cache.memArvalid then 8 else 9
  | .checkCache => 10

/-- What the fetch waits for at a distance. -/
def rankCondition : Nat → IcacheInput → Prop
  | 1 => fun input => input.ifuRready = true
  | 5 => fun input => input.memRaise = true
  | 7 => fun input => input.memRaise = true
  | 8 => fun input => input.memArready = true
  | _ => fun _ => True

theorem rankCondition_often (fair : IcacheFair inputs) (r : Nat) :
    Machine.Often inputs (rankCondition r) := by
  have always : Machine.Often inputs (fun _ => True) := fun t => ⟨t, Nat.le_refl t, trivial⟩
  unfold rankCondition
  split
  · exact fair.ifuRready
  · exact fair.memRaise
  · exact fair.memRaise
  · exact fair.memArready
  · exact always

theorem BurstSlave.rank_pos (slave : BurstSlave) : 3 < slave.rank := by
  cases slave with
  | idle => decide
  | wait _ _ left | valid _ _ left _ =>
      simp only [BurstSlave.rank]
      split_ifs <;> decide

theorem rank_pos (inv : IcacheInv inputs run) (busy : run.log.inFlight ≠ []) :
    0 < run.sys.rank := by
  rw [IcacheSystem.rank]
  cases valid : run.sys.cache.ifuRvalid with
  | true => exact Nat.one_pos
  | false =>
      rw [if_neg Bool.false_ne_true]
      cases state : run.sys.cache.state with
      | idle =>
          obtain ⟨held, current, flight, holds, served⟩ := inv.flight
          cases held with
          | some fetch => exact absurd (holds.1.symm.trans valid) (by decide)
          | none =>
              cases current with
              | none => exact absurd flight busy
              | some fetch => simp [Served, Serving, state] at served
      | memRdata => exact Nat.lt_trans (by decide) run.sys.slave.rank_pos
      | memAraddr => cases asking : run.sys.cache.memArvalid <;> simp
      | checkCache | updateArray | instrFetch => exact Nat.succ_pos _

theorem rank_raise (input : IcacheInput) (ar : AxiAddr) (addr : Word) (left : BitVec 8) :
    (BurstSlave.raise input ar addr left).rank ≤ (if left = 0#8 then 5 else 7) ∧
      (input.memRaise = true →
        (BurstSlave.raise input ar addr left).rank < (if left = 0#8 then 5 else 7)) := by
  rw [BurstSlave.raise]
  split_ifs with raised <;> simp_all [BurstSlave.rank]

/-- A fetch that has no answer yet comes closer to it. -/
theorem rank_goes (inv : IcacheInv inputs run) (waiting : run.sys.cache.ifuRvalid = false)
    (busy : run.sys.cache.state ≠ .idle) (input : IcacheInput) :
    (icacheMachine.step input run).sys.rank ≤ run.sys.rank ∧
      (rankCondition run.sys.rank input →
        (icacheMachine.step input run).sys.rank < run.sys.rank) := by
  obtain ⟨held, fetch, _, holds, latched, serving⟩ := exists_served inv busy
  have next := cache_next run input
  have here : ∀ state, run.sys.cache.state = state → run.sys.rank =
      match state with
      | .idle => 0
      | .instrFetch => 2
      | .updateArray => 3
      | .memRdata => run.sys.slave.rank
      | .memAraddr => if run.sys.cache.memArvalid then 8 else 9
      | .checkCache => 10 := by
    rintro _ rfl
    exact if_neg (by rw [waiting]; exact Bool.false_ne_true)
  rw [Icache.caseStep] at next
  cases state : run.sys.cache.state with
  | idle => exact absurd state busy
  | checkCache =>
      rw [state] at serving next
      have after : (icacheMachine.step input run).sys.rank ≤ 9 := by
        rw [IcacheSystem.rank, next]
        simp only [Icache.checkStep, Icache.defaults, waiting, serving.1.1]
        cases run.sys.cache.checkCache run.sys.cache.cacheTag <;> simp
      have now : run.sys.rank = 10 := here _ state
      rw [now]
      exact ⟨Nat.le_trans after (by decide), fun _ => Nat.lt_of_le_of_lt after (by decide)⟩
  | memAraddr =>
      rw [state] at serving next
      obtain ⟨_, _, _, idle, line⟩ := serving
      cases asking : run.sys.cache.memArvalid with
      | false =>
          have now : run.sys.rank = 9 := (here _ state).trans (by simp [asking])
          have after : (icacheMachine.step input run).sys.rank = 8 := by
            rw [IcacheSystem.rank, next]
            simp [Icache.araddrStep, Icache.defaults, waiting, asking, state]
          rw [now, after]
          exact ⟨by decide, fun _ => by decide⟩
      | true =>
          have now : run.sys.rank = 8 := (here _ state).trans (by simp [asking])
          rw [now]
          cases taken : input.memArready with
          | false =>
              have after : (icacheMachine.step input run).sys.rank = 8 := by
                rw [IcacheSystem.rank, next]
                simp [Icache.araddrStep, Icache.defaults, IcacheSystem.bus, waiting, taken, state]
              rw [after]
              exact ⟨by decide, fun met => absurd (taken.symm.trans met) (by decide)⟩
          | true =>
              have slave : (icacheMachine.step input run).sys.slave =
                  BurstSlave.raise input fetch.req.lineRead fetch.req.lineRead.addr
                    fetch.req.lineRead.len := by
                simp [icacheMachine, IcacheSystem.next, IcacheSystem.asks, BurstSlave.next, idle,
                  asking, taken, BurstSlave.isIdle, line asking]
              have after : (icacheMachine.step input run).sys.rank =
                  (icacheMachine.step input run).sys.slave.rank := by
                rw [IcacheSystem.rank, next]
                simp [Icache.araddrStep, Icache.defaults, IcacheSystem.bus, waiting, asking, taken,
                  idle, BurstSlave.isIdle]
              have bound : (BurstSlave.raise input fetch.req.lineRead fetch.req.lineRead.addr
                  fetch.req.lineRead.len).rank ≤ 7 := (rank_raise input _ _ _).1
              rw [after, slave]
              exact ⟨Nat.le_trans bound (by decide), fun _ => Nat.lt_of_le_of_lt bound (by decide)⟩
  | memRdata =>
      rw [state] at serving next
      obtain ⟨_, _, _, ready, memAr, refill⟩ := serving
      rw [here _ state]
      simp only
      cases slave : run.sys.slave with
      | idle =>
          rcases refill with ⟨_, _, same | ⟨_, same, _⟩⟩ | ⟨_, _, _, _, _, same | ⟨_, same, _⟩⟩ <;>
            rw [slave] at same <;> cases same
      | wait ar addr left =>
          have slave' : (icacheMachine.step input run).sys.slave =
              BurstSlave.raise input ar addr left := by
            simp [icacheMachine, IcacheSystem.next, slave, BurstSlave.next]
          have after : (icacheMachine.step input run).sys.rank =
              (icacheMachine.step input run).sys.slave.rank := by
            rw [IcacheSystem.rank, next]
            simp [Icache.rdataStep, Icache.defaults, IcacheSystem.bus, waiting, slave,
              BurstSlave.rvalid, state]
          have bound := rank_raise input ar addr left
          rw [after, slave']
          simp only [BurstSlave.rank] at bound ⊢
          split_ifs at bound ⊢ <;> exact bound
      | valid ar addr left data =>
          by_cases last : left = 0#8
          · have after : (icacheMachine.step input run).sys.rank = 3 := by
              rw [IcacheSystem.rank, next]
              simp [Icache.rdataStep, Icache.defaults, IcacheSystem.bus, waiting, slave,
                BurstSlave.rvalid, BurstSlave.rlast, ready, last]
            rw [after]
            simp only [BurstSlave.rank, if_pos last]
            exact ⟨by decide, fun _ => by decide⟩
          · obtain rfl : left = 1#8 := by
              rcases refill with ⟨_, _, same | ⟨_, same, _⟩⟩ | ⟨_, _, _, _, _, same | ⟨_, same,
                _⟩⟩ <;>
                rw [slave] at same <;> cases same
              · rfl
              · exact absurd rfl last
            have slave' : (icacheMachine.step input run).sys.slave =
                BurstSlave.raise input ar (addr + (1#32 <<< ar.size.toNat)) (1#8 - 1#8) := by
              simp [icacheMachine, IcacheSystem.next, slave, BurstSlave.next, ready]
            have after : (icacheMachine.step input run).sys.rank =
                (icacheMachine.step input run).sys.slave.rank := by
              rw [IcacheSystem.rank, next]
              simp [Icache.rdataStep, Icache.defaults, IcacheSystem.bus, waiting, slave,
                BurstSlave.rvalid, BurstSlave.rlast, ready]
            have bound : (BurstSlave.raise input ar (addr + (1#32 <<< ar.size.toNat))
                (1#8 - 1#8)).rank ≤ 5 := (rank_raise input _ _ _).1
            have six : (BurstSlave.valid ar addr 1#8 data).rank = 6 := rfl
            rw [after, slave', six]
            exact ⟨Nat.le_trans bound (by decide), fun _ => Nat.lt_of_le_of_lt bound (by decide)⟩
  | updateArray =>
      rw [state] at next
      have after : (icacheMachine.step input run).sys.rank = 2 := by
        rw [IcacheSystem.rank, next]
        simp [Icache.defaults, waiting]
      have now : run.sys.rank = 3 := here _ state
      rw [after, now]
      exact ⟨by decide, fun _ => by decide⟩
  | instrFetch =>
      rw [state] at next
      have after : (icacheMachine.step input run).sys.rank = 1 := by
        rw [IcacheSystem.rank, next]
        simp [Icache.fetchStep, waiting]
      have now : run.sys.rank = 2 := here _ state
      rw [after, now]
      exact ⟨by decide, fun _ => by decide⟩

theorem rvalid_stays (waiting : run.sys.cache.ifuRvalid = true) {input : IcacheInput}
    (unready : input.ifuRready = false) :
    (icacheMachine.step input run).sys.cache.ifuRvalid = true := by
  change (run.sys.cache.caseStep (run.sys.bus input)).ifuRvalid = true
  have bus : (run.sys.bus input).ifuRready = false := unready
  have kept : (run.sys.cache.defaults (run.sys.bus input)).ifuRvalid = true := by
    simp [Icache.defaults, waiting, bus]
  rw [Icache.caseStep]
  cases run.sys.cache.state with
  | idle =>
      simp only [Icache.idleStep]
      split_ifs <;> exact kept
  | checkCache =>
      simp only [Icache.checkStep]
      cases run.sys.cache.checkCache run.sys.cache.cacheTag <;> exact kept
  | memAraddr =>
      simp only [Icache.araddrStep]
      split_ifs <;> exact kept
  | memRdata =>
      simp only [Icache.rdataStep]
      split_ifs <;> exact kept
  | updateArray => exact kept
  | instrFetch =>
      simp only [Icache.fetchStep, waiting, bus]
      exact kept

/-- A fetch without an answer stays in flight. -/
theorem inFlight_stays (inv : IcacheInv inputs run) (busy : run.sys.cache.state ≠ .idle)
  (input : IcacheInput) :
    (icacheMachine.step input run).log.inFlight ≠ [] := by
  obtain ⟨held, fetch, flight, holds, _⟩ := exists_served inv busy
  rw [inFlight_next flight holds input (fun _ => Option.some_ne_none fetch), afterAsk]
  cases run.sys.asks input <;> simp

section Runs

variable (any : Icache)

/-- Every fetch in flight is answered in the end. -/
theorem exists_answer (fair : IcacheFair inputs) (n : Nat)
    (busy : (icacheAt any inputs n).log.inFlight ≠ []) :
    ∃ m, n ≤ m ∧ (icacheAt any inputs m).sys.answers (inputs m) = true := by
  have inv := icacheInv_at inputs any
  have far : ∀ k, 1 < (icacheAt any inputs k).sys.rank →
      (icacheAt any inputs k).sys.cache.ifuRvalid = false ∧
        (icacheAt any inputs k).sys.cache.state ≠ .idle := by
    intro k more
    rw [IcacheSystem.rank] at more
    cases valid : (icacheAt any inputs k).sys.cache.ifuRvalid with
    | true => simp [valid] at more
    | false =>
        refine ⟨rfl, fun idle => ?_⟩
        simp [valid, idle] at more
  have near : ∀ k, (icacheAt any inputs k).sys.rank = 1 →
      (icacheAt any inputs k).sys.cache.ifuRvalid = true := by
    intro k one
    by_contra invalid
    rw [Bool.not_eq_true] at invalid
    rw [IcacheSystem.rank, invalid, if_neg Bool.false_ne_true] at one
    have slave := (icacheAt any inputs k).sys.slave.rank_pos
    cases state : (icacheAt any inputs k).sys.cache.state <;> simp only [state] at one <;>
      first | omega | (split_ifs at one <;> omega)
  obtain ⟨m, later, one, ready⟩ := Machine.exists_served (rankCondition_often fair)
    (fun k more => by
      obtain ⟨waiting, state⟩ := far k more
      have step := rank_goes (inv k) waiting state (inputs k)
      have stays := inFlight_stays (inv k) state (inputs k)
      rw [← icacheAt_succ] at step stays
      exact ⟨rank_pos (inv (k + 1)) stays, step⟩)
    (fun k one unready => by
      have valid := rvalid_stays (near k one) (Bool.not_eq_true _ |>.mp unready)
      rw [← icacheAt_succ] at valid
      exact if_pos valid)
    n (rank_pos (inv n) busy)
  refine ⟨m, later, ?_⟩
  rw [IcacheSystem.answers, near m one, show (inputs m).ifuRready = true from ready]
  rfl

theorem log_monotone (inputs : Nat → IcacheInput) (n m : Nat) (later : n ≤ m) :
    (icacheAt any inputs n).log.accepted ≤ (icacheAt any inputs m).log.accepted ∧
      (icacheAt any inputs n).log.answered ≤ (icacheAt any inputs m).log.answered := by
  induction m, later using Nat.le_induction with
  | base => exact ⟨Nat.le_refl _, Nat.le_refl _⟩
  | succ m _ ih =>
      rw [icacheAt_succ]
      exact ⟨Nat.le_trans ih.1 (Nat.le_add_right _ _), Nat.le_trans ih.2 (Nat.le_add_right _ _)⟩

theorem exists_all_answered (fair : IcacheFair inputs) (n : Nat) :
    ∃ m, n ≤ m ∧ (icacheAt any inputs n).log.accepted ≤ (icacheAt any inputs m).log.answered := by
  suffices reach : ∀ d k target, target ≤ (icacheAt any inputs k).log.accepted →
      target ≤ (icacheAt any inputs k).log.answered + d →
      ∃ m, k ≤ m ∧ target ≤ (icacheAt any inputs m).log.answered by
    exact reach _ n _ (Nat.le_refl _) (Nat.le_add_left _ _)
  intro d
  induction d with
  | zero => exact fun k target _ done => ⟨k, Nat.le_refl k, done⟩
  | succ d ih =>
      intro k target accepted bound
      by_cases done : target ≤ (icacheAt any inputs k).log.answered
      · exact ⟨k, Nat.le_refl k, done⟩
      · have counts := (icacheInv_at inputs any k).counts
        have busy : (icacheAt any inputs k).log.inFlight ≠ [] := by
          intro empty
          rw [empty, List.length_nil] at counts
          omega
        obtain ⟨m, later, answers⟩ := exists_answer any fair k busy
        have one : (icacheAt any inputs (m + 1)).log.answered =
            (icacheAt any inputs m).log.answered + 1 := by
          rw [icacheAt_succ]
          change _ + (if _ then _ else _) = _
          rw [answers, if_pos rfl]
        have before := (log_monotone any inputs k m later).2
        have still := (log_monotone any inputs k (m + 1) (by omega)).1
        obtain ⟨u, after, reached⟩ := ih (m + 1) target (by omega) (by omega)
        exact ⟨u, by omega, reached⟩

/-- The cache is transparent in every cycle of every run, and under a fair environment every
fetch it accepts is answered. -/
theorem icache_transparent (inputs : Nat → IcacheInput) :
    (∀ n, (icacheAt any inputs n).Transparent inputs) ∧
      (IcacheFair inputs → ∀ n, ∃ m, n ≤ m ∧
        (icacheAt any inputs n).log.accepted ≤ (icacheAt any inputs m).log.answered) :=
  ⟨fun n => (icacheInv_at inputs any n).transparent, fun fair n => exists_all_answered any fair n⟩

/-- Everyone is ready in every cycle, and one word is fetched again and again. -/
theorem icache_transparent_prompt :
    let input : IcacheInput :=
      ⟨some ⟨0x0c000000#30, 0#4⟩, true, false, true, true, 0#32, false, fun addr => addr⟩
    ∃ m, 40 ≤ m ∧ 7 ≤ (icacheAt default (fun _ => input) m).log.answered := by
  intro input
  have fair : IcacheFair (fun _ => input) := by
    constructor <;> exact fun t => ⟨t, Nat.le_refl t, rfl⟩
  obtain ⟨m, later, answered⟩ := (icache_transparent default (fun _ => input)).2 fair 40
  have accepted : 7 ≤ (icacheAt default (fun _ => input) 40).log.accepted := by decide +kernel
  exact ⟨m, later, Nat.le_trans accepted answered⟩

end Runs

end Ysyx.Npc
