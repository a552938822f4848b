import Ysyx.Soc.ApbDelayer
import Mathlib.Data.Nat.Find

/-! One upstream transfer is one downstream transfer and a count-down that starts above 0,
so nothing is left in the counter for the next one. -/

set_option autoImplicit false

namespace Ysyx.Soc

open Lib (Machine)

/-- The counter between two transfers, during the accesses and during the delay. -/
inductive DelayInv : DelaySystem → Prop where
  | idle (delayer : Delayer) (accesses : Nat) (state : delayer.state = .idle_t)
      (zero : delayer.counter = 0#32) : DelayInv ⟨.idle, delayer, accesses⟩
  | waiting (req : ApbReq) (delayer : Delayer) (accesses : Nat)
      (state : delayer.state = .wait_perip_t)
      (count : delayer.counter.toNat = 85 * (accesses + 1)) :
      DelayInv ⟨.access req, delayer, accesses⟩
  | delaying (req : ApbReq) (delayer : Delayer) (accesses : Nat)
      (state : delayer.state = .delay_t) (positive : 0 < delayer.counter.toNat) :
      DelayInv ⟨.access req, delayer, accesses⟩

section Step

variable {input : DelayInput} {delayer : Delayer} {accesses : Nat} {req : ApbReq}

theorem step_quiet (input : DelayInput) (accesses : Nat) (state : delayer.state = .idle_t)
    (none : input.want.psel = false) :
    (DelaySystem.step input ⟨.idle, delayer, accesses⟩).master = .idle ∧
      (DelaySystem.step input ⟨.idle, delayer, accesses⟩).delayer.state = .idle_t ∧
      (DelaySystem.step input ⟨.idle, delayer, accesses⟩).delayer.counter = delayer.counter := by
  simp [DelaySystem.step, DelaySystem.upstream, ApbPhase.next, ApbPhase.drive, Delayer.next,
    state, none]

theorem step_setup (input : DelayInput) (accesses : Nat) (state : delayer.state = .idle_t)
    (zero : delayer.counter = 0#32)
    (start : input.want.psel = true) :
    ∃ delayer', DelaySystem.step input ⟨.idle, delayer, accesses⟩ =
        ⟨.access input.want, delayer', 0⟩ ∧
      delayer'.state = .wait_perip_t ∧ delayer'.counter.toNat = 85 := by
  refine ⟨delayer.next (ApbPhase.idle.drive input.want) input.resp, ?_, ?_, ?_⟩
  · simp [DelaySystem.step, DelaySystem.downstream, DelaySystem.upstream, Delayer.request,
      ApbPhase.next, ApbPhase.drive, Delayer.next, state, start]
  · simp [Delayer.next, ApbPhase.drive, state, start]
  · simp [Delayer.next, ApbPhase.drive, state, start, zero]

/-- The counter after one more access cycle does not wrap. -/
theorem toNat_count {counter : BitVec 32} (count : counter.toNat = 85 * (accesses + 1))
    (bound : 85 * (accesses + 1 + 1) < 2 ^ 32) :
    (counter + 85#32).toNat = 85 * (accesses + 1 + 1) := by
  rw [BitVec.toNat_add, count]
  have value : (85#32).toNat = 85 := rfl
  omega

theorem downstream_waiting (state : delayer.state = .wait_perip_t) :
    DelaySystem.downstream ⟨.access req, delayer, accesses⟩ input =
      { req with psel := true, penable := true } := by
  simp [DelaySystem.downstream, DelaySystem.upstream, Delayer.request, ApbPhase.drive, state]

theorem downstream_delaying (state : delayer.state = .delay_t) :
    (DelaySystem.downstream ⟨.access req, delayer, accesses⟩ input).psel = false := by
  simp [DelaySystem.downstream, DelaySystem.upstream, Delayer.request, state]

theorem step_wait (input : DelayInput) (req : ApbReq) (state : delayer.state = .wait_perip_t)
    (count : delayer.counter.toNat = 85 * (accesses + 1))
    (bound : 85 * (accesses + 1 + 1) < 2 ^ 32) (silent : input.resp.pready = false) :
    ∃ delayer', DelaySystem.step input ⟨.access req, delayer, accesses⟩ =
        ⟨.access req, delayer', accesses + 1⟩ ∧
      delayer'.state = .wait_perip_t ∧
      delayer'.counter.toNat = 85 * (accesses + 1 + 1) := by
  refine ⟨delayer.next { req with psel := true, penable := true } input.resp, ?_, ?_, ?_⟩
  · simp [DelaySystem.step, downstream_waiting state, DelaySystem.upstream, ApbPhase.next,
      ApbPhase.drive, Delayer.resp, state]
  · simp [Delayer.next, state, silent]
  · simpa [Delayer.next, state, silent] using toNat_count count bound

theorem step_answer (input : DelayInput) (req : ApbReq) (state : delayer.state = .wait_perip_t)
    (count : delayer.counter.toNat = 85 * (accesses + 1))
    (bound : 85 * (accesses + 1 + 1) < 2 ^ 32) (answer : input.resp.pready = true) :
    ∃ delayer', DelaySystem.step input ⟨.access req, delayer, accesses⟩ =
        ⟨.access req, delayer', accesses + 1⟩ ∧
      delayer'.state = .delay_t ∧ delayer'.counter.toNat = calibrated (accesses + 1) ∧
      delayer'.prdata_r = input.resp.prdata ∧ delayer'.pslverr_r = input.resp.pslverr := by
  refine ⟨delayer.next { req with psel := true, penable := true } input.resp, ?_, ?_, ?_, ?_, ?_⟩
  · simp [DelaySystem.step, downstream_waiting state, DelaySystem.upstream, ApbPhase.next,
      ApbPhase.drive, Delayer.resp, state]
  · simp [Delayer.next, state, answer]
  · simp only [Delayer.next, state, answer, if_true, BitVec.toNat_ushiftRight,
      toNat_count count bound, Nat.shiftRight_eq_div_pow]
    rfl
  · simp [Delayer.next, answer]
  · simp [Delayer.next, answer]

theorem step_count (input : DelayInput) (req : ApbReq) (accesses : Nat) (state : delayer.state = .delay_t)
    (more : 1 < delayer.counter.toNat)
    (silent : input.resp.pready = false) :
    ∃ delayer', DelaySystem.step input ⟨.access req, delayer, accesses⟩ =
        ⟨.access req, delayer', 0⟩ ∧
      delayer'.state = .delay_t ∧ delayer'.counter.toNat + 1 = delayer.counter.toNat ∧
      delayer'.prdata_r = delayer.prdata_r ∧ delayer'.pslverr_r = delayer.pslverr_r := by
  have differs : delayer.counter ≠ 1#32 := by
    intro same
    rw [same] at more
    exact absurd more (by decide)
  refine ⟨delayer.next { req with psel := true, penable := true } input.resp, ?_, ?_, ?_, ?_, ?_⟩
  · simp [DelaySystem.step, downstream_delaying state, DelaySystem.upstream, ApbPhase.next,
      ApbPhase.drive, Delayer.resp, state, differs]
  · simp [Delayer.next, state, differs]
  · simp only [Delayer.next, state, differs, if_false]
    have value : (1#32).toNat = 1 := rfl
    have bound := delayer.counter.isLt
    rw [BitVec.toNat_sub]
    omega
  · simp [Delayer.next, silent]
  · simp [Delayer.next, silent]

theorem step_release (input : DelayInput) (req : ApbReq) (accesses : Nat) (state : delayer.state = .delay_t)
    (last : delayer.counter.toNat = 1) :
    ∃ delayer', DelaySystem.step input ⟨.access req, delayer, accesses⟩ = ⟨.idle, delayer', 0⟩ ∧
      delayer'.state = .idle_t ∧ delayer'.counter = 0#32 := by
  have one : delayer.counter = 1#32 := BitVec.eq_of_toNat_eq last
  refine ⟨delayer.next { req with psel := true, penable := true } input.resp, ?_, ?_, ?_⟩
  · simp [DelaySystem.step, downstream_delaying state, DelaySystem.upstream, ApbPhase.next,
      ApbPhase.drive, Delayer.resp, state, one]
  · simp [Delayer.next, state, one]
  · simp [Delayer.next, state, one]

theorem calibrated_pos {k : Nat} (positive : 1 ≤ k) : 0 < calibrated k := by
  rw [calibrated]
  omega

end Step

section Runs

variable {inputs : Nat → DelayInput}

theorem delayAt_succ (inputs : Nat → DelayInput) (n : Nat) :
    delayAt inputs (n + 1) = (delayAt inputs n).step (inputs n) := by
  rw [delayAt, Machine.run_succ, Nat.zero_add]
  rfl

theorem Answers.silent (answers : Answers inputs) {n : Nat}
    (withdrawn : ((delayAt inputs n).downstream (inputs n)).psel = false) :
    (inputs n).resp.pready = false := by
  rw [Bool.eq_false_iff]
  intro answer
  simpa [withdrawn] using answers.selected n answer

theorem Answers.fits (answers : Answers inputs) {n : Nat} {req : ApbReq} {delayer : Delayer}
    {accesses : Nat} (here : delayAt inputs n = ⟨.access req, delayer, accesses⟩)
    (state : delayer.state = .wait_perip_t) : 85 * (accesses + 1 + 1) < 2 ^ 32 := by
  have fits := answers.bounded n
  rw [here, downstream_waiting state] at fits
  exact fits rfl rfl

theorem delayInv_at (answers : Answers inputs) (n : Nat) : DelayInv (delayAt inputs n) := by
  induction n with
  | zero => exact .idle _ _ rfl rfl
  | succ n ih =>
      rw [delayAt_succ]
      generalize here : delayAt inputs n = sys at ih ⊢
      cases ih with
      | idle delayer accesses state zero =>
          cases start : (inputs n).want.psel with
          | false =>
              obtain ⟨master, state', counter'⟩ := step_quiet (inputs n) accesses state start
              generalize DelaySystem.step (inputs n) ⟨.idle, delayer, accesses⟩ = sys' at *
              obtain ⟨_, delayer', accesses'⟩ := sys'
              obtain rfl := master
              exact .idle _ _ state' (counter'.trans zero)
          | true =>
              obtain ⟨delayer', next, state', count'⟩ :=
                step_setup (inputs n) accesses state zero start
              rw [next]
              exact .waiting _ _ _ state' count'
      | waiting req delayer accesses state count =>
          have bound := answers.fits here state
          cases answer : (inputs n).resp.pready with
          | false =>
              obtain ⟨delayer', next, state', count'⟩ :=
                step_wait (inputs n) req state count bound answer
              rw [next]
              exact .waiting _ _ _ state' count'
          | true =>
              obtain ⟨delayer', next, state', count', _⟩ :=
                step_answer (inputs n) req state count bound answer
              rw [next]
              exact .delaying _ _ _ state' (count' ▸ calibrated_pos (Nat.le_add_left 1 _))
      | delaying req delayer accesses state positive =>
          have unselected : ((delayAt inputs n).downstream (inputs n)).psel = false := by
            rw [here]
            exact downstream_delaying state
          have silent := answers.silent unselected
          rcases Nat.lt_or_eq_of_le (Nat.succ_le_of_lt positive) with more | last
          · obtain ⟨delayer', next, state', count', _⟩ :=
              step_count (inputs n) req accesses state more silent
            rw [next]
            exact .delaying _ _ _ state' (by omega)
          · obtain ⟨delayer', next, state', zero'⟩ :=
              step_release (inputs n) req accesses state last.symm
            rw [next]
            exact .idle _ _ state' zero'

/-- While the peripheral has not answered, the transfer is in its `a + 1`-st access cycle. -/
theorem waiting_at (answers : Answers inputs) {t : Nat}
    (idle : (delayAt inputs t).master = .idle) (start : (inputs t).want.psel = true) (a : Nat)
    (silent : ∀ j, 1 ≤ j → j ≤ a → (inputs (t + j)).resp.pready = false) :
    ∃ delayer, delayAt inputs (t + 1 + a) = ⟨.access (inputs t).want, delayer, a⟩ ∧
      delayer.state = .wait_perip_t ∧ delayer.counter.toNat = 85 * (a + 1) := by
  induction a with
  | zero =>
      have inv := delayInv_at answers t
      rw [Nat.add_zero, delayAt_succ]
      generalize delayAt inputs t = sys at idle inv ⊢
      cases inv with
      | idle delayer accesses state zero => exact step_setup (inputs t) accesses state zero start
      | waiting | delaying => cases idle
  | succ a ih =>
      obtain ⟨delayer, here, state, count⟩ :=
        ih (fun j least most => silent j least (Nat.le_succ_of_le most))
      have now : (inputs (t + 1 + a)).resp.pready = false := by
        rw [Nat.add_assoc, Nat.add_comm 1 a]
        exact silent (a + 1) (Nat.le_add_left 1 a) (Nat.le_refl _)
      rw [← Nat.add_assoc, delayAt_succ, here]
      exact step_wait _ _ state count (answers.fits here state) now

/-- The count-down from `c` keeps the captured answer and takes `c` cycles. -/
theorem delaying_at (answers : Answers inputs) {u c : Nat} {req : ApbReq} {delayer : Delayer}
    {accesses : Nat} (here : delayAt inputs u = ⟨.access req, delayer, accesses⟩)
    (state : delayer.state = .delay_t) (count : delayer.counter.toNat = c) {j : Nat}
    (before : j < c) :
    ∃ delayer' accesses', delayAt inputs (u + j) = ⟨.access req, delayer', accesses'⟩ ∧
      delayer'.state = .delay_t ∧ delayer'.counter.toNat + j = c ∧
      delayer'.prdata_r = delayer.prdata_r ∧ delayer'.pslverr_r = delayer.pslverr_r := by
  induction j with
  | zero => exact ⟨delayer, accesses, here, state, count, rfl, rfl⟩
  | succ j ih =>
      obtain ⟨delayer₁, accesses₁, at₁, state₁, count₁, prdata₁, pslverr₁⟩ := ih (by omega)
      have unselected : ((delayAt inputs (u + j)).downstream (inputs (u + j))).psel = false := by
        rw [at₁]
        exact downstream_delaying state₁
      have silent := answers.silent unselected
      obtain ⟨delayer₂, next, state₂, count₂, prdata₂, pslverr₂⟩ :=
        step_count (inputs (u + j)) req accesses₁ state₁ (by omega) silent
      refine ⟨delayer₂, 0, ?_, state₂, by omega, prdata₂.trans prdata₁, pslverr₂.trans pslverr₁⟩
      rw [← Nat.add_assoc, delayAt_succ, at₁, next]

/-- A peripheral that never answered would wrap the counter. -/
theorem exists_answer (answers : Answers inputs) {t : Nat}
    (idle : (delayAt inputs t).master = .idle) (start : (inputs t).want.psel = true) :
    ∃ k, 1 ≤ k ∧ (inputs (t + k)).resp.pready = true := by
  by_contra never
  obtain ⟨delayer, here, state, _⟩ := waiting_at answers idle start (2 ^ 32) (by
    intro j least _
    rw [Bool.eq_false_iff]
    exact fun answer => never ⟨j, least, answer⟩)
  have fits := answers.fits here state
  omega

theorem exists_delayed (answers : Answers inputs) {t : Nat}
    (idle : (delayAt inputs t).master = .idle) (start : (inputs t).want.psel = true) :
    ∃ k, Delayed inputs t k (inputs t).want := by
  classical
  obtain ⟨k, ⟨positive, answer⟩, least⟩ :
      ∃ k, (1 ≤ k ∧ (inputs (t + k)).resp.pready = true) ∧
        ∀ m < k, ¬ (1 ≤ m ∧ (inputs (t + m)).resp.pready = true) :=
    ⟨Nat.find (exists_answer answers idle start), Nat.find_spec (exists_answer answers idle start),
      fun _ bound => Nat.find_min (exists_answer answers idle start) bound⟩
  have silent : ∀ j, 1 ≤ j → j < k → (inputs (t + j)).resp.pready = false := by
    intro j low high
    rw [Bool.eq_false_iff]
    exact fun now => least j high ⟨low, now⟩
  -- the setup cycle
  have setup : (delayAt inputs t).downstream (inputs t) =
      { (inputs t).want with psel := true, penable := false } ∧
      (delayAt inputs t).delayer.resp.pready = false := by
    have inv := delayInv_at answers t
    generalize delayAt inputs t = sys at idle inv ⊢
    cases inv with
    | idle delayer accesses state zero =>
        simp [DelaySystem.downstream, DelaySystem.upstream, Delayer.request, Delayer.resp,
          ApbPhase.drive, state, start]
    | waiting | delaying => cases idle
  -- the access cycles
  have access : ∀ j, 1 ≤ j → j ≤ k → ∃ delayer,
      delayAt inputs (t + j) = ⟨.access (inputs t).want, delayer, j - 1⟩ ∧
        delayer.state = .wait_perip_t ∧ delayer.counter.toNat = 85 * j := by
    intro j low high
    obtain ⟨a, rfl⟩ := Nat.exists_eq_add_of_le low
    obtain ⟨delayer, here, state, count⟩ := waiting_at answers idle start a
      (fun i least most => silent i least (by omega))
    rw [Nat.add_assoc] at here
    refine ⟨delayer, ?_, state, by omega⟩
    rw [here, Nat.add_sub_cancel_left]
  obtain ⟨waiter, waits, waitState, waitCount⟩ := access k positive (Nat.le_refl k)
  -- the delay
  have pred : k - 1 + 1 = k := by omega
  obtain ⟨first, next, firstState, firstCount, prdata, pslverr⟩ :=
    step_answer (inputs (t + k)) (inputs t).want waitState (pred.symm ▸ waitCount)
      (answers.fits waits waitState) answer
  rw [pred] at next firstCount
  rw [← waits, ← delayAt_succ] at next
  have delay : ∀ i, i < calibrated k → ∃ delayer accesses,
      delayAt inputs (t + k + 1 + i) = ⟨.access (inputs t).want, delayer, accesses⟩ ∧
        delayer.state = .delay_t ∧ delayer.counter.toNat + i = calibrated k ∧
        delayer.prdata_r = first.prdata_r ∧ delayer.pslverr_r = first.pslverr_r :=
    fun i before => delaying_at answers next firstState firstCount before
  have length := calibrated_pos positive
  obtain ⟨last, lastAccesses, lastAt, lastState, lastCount, lastPrdata, lastPslverr⟩ :=
    delay (calibrated k - 1) (by omega)
  have lastCycle : t + k + 1 + (calibrated k - 1) = t + (k + calibrated k) := by omega
  have cycle : ∀ i, t + k + 1 + i = t + (k + i + 1) := by omega
  rw [lastCycle] at lastAt
  refine ⟨k, positive, setup.1, ?_, ?_, ?_, ?_, ?_, ?_, ?_⟩
  · intro j low high
    obtain ⟨delayer, here, state, _⟩ := access j low high
    rw [here, downstream_waiting state]
  · intro j high
    rcases Nat.lt_or_eq_of_le high with earlier | rfl
    · rcases Nat.eq_zero_or_pos j with rfl | low
      · have unselected : ((delayAt inputs t).downstream (inputs t)).penable = false := by
          rw [setup.1]
        have none : (inputs t).resp.pready = false := by
          rw [Bool.eq_false_iff]
          intro now
          simpa [unselected] using answers.selected t now
        simpa [Nat.ne_of_lt earlier] using none
      · simpa [Nat.ne_of_lt earlier] using silent j low earlier
    · simpa using answer
  · intro j later within
    obtain ⟨i, rfl⟩ := Nat.exists_eq_add_of_lt later
    obtain ⟨delayer, accesses, here, state, _⟩ := delay i (by omega)
    rw [cycle] at here
    rw [here]
    exact downstream_delaying state
  · intro j within
    rcases Nat.lt_or_ge k j with later | early
    · obtain ⟨i, rfl⟩ := Nat.exists_eq_add_of_lt later
      obtain ⟨delayer, accesses, here, state, count, _⟩ := delay i (by omega)
      rw [cycle] at here
      rw [here]
      by_cases one : k + i + 1 = k + calibrated k
      · have value : delayer.counter.toNat = 1 := by omega
        have last : delayer.counter = 1#32 := BitVec.eq_of_toNat_eq value
        simp [Delayer.resp, state, last, one]
      · have more : delayer.counter ≠ 1#32 := by
          intro same
          rw [same] at count
          have value : (1#32).toNat = 1 := rfl
          omega
        simp [Delayer.resp, state, more, one]
    · have notDone : j ≠ k + calibrated k := by omega
      rcases Nat.eq_zero_or_pos j with rfl | low
      · simpa [notDone] using setup.2
      · obtain ⟨delayer, here, state, _⟩ := access j low early
        rw [here]
        simp [Delayer.resp, state, notDone]
  · rw [lastAt]
    exact lastPrdata.trans prdata
  · rw [lastAt]
    exact lastPslverr.trans pslverr
  · rw [delayAt_succ, lastAt]
    obtain ⟨delayer', released, _⟩ := step_release (inputs (t + (k + calibrated k)))
      (inputs t).want lastAccesses lastState (by omega)
    rw [released]

/-- Every upstream transfer is one downstream transfer and its calibrated delay; between
transfers the bus is quiet; the counter counts from above 0 and rests at 0. -/
theorem delayer_transparent (answers : Answers inputs) :
    (∀ n,
      ((delayAt inputs n).delayer.state = .delay_t → (delayAt inputs n).delayer.counter ≠ 0#32) ∧
      ((delayAt inputs n).delayer.state = .idle_t → (delayAt inputs n).delayer.counter = 0#32)) ∧
    ∀ t, (delayAt inputs t).master = .idle →
      ((inputs t).want.psel = true → ∃ k, Delayed inputs t k (inputs t).want) ∧
      ((inputs t).want.psel = false →
        ((delayAt inputs t).downstream (inputs t)).psel = false ∧
          (delayAt inputs t).delayer.resp.pready = false ∧
          (delayAt inputs (t + 1)).master = .idle) := by
  refine ⟨fun n => ?_, fun t idle => ⟨exists_delayed answers idle, fun none => ?_⟩⟩
  · have inv := delayInv_at answers n
    generalize delayAt inputs n = sys at inv ⊢
    cases inv with
    | idle delayer accesses state zero => simp [state, zero]
    | waiting req delayer accesses state count => simp [state]
    | delaying req delayer accesses state positive =>
        refine ⟨fun _ zero => ?_, fun other => absurd (state.symm.trans other) (by decide)⟩
        have rest : delayer.counter = 0#32 := zero
        simp [rest] at positive
  · have inv := delayInv_at answers t
    rw [delayAt_succ]
    generalize delayAt inputs t = sys at idle inv ⊢
    cases inv with
    | idle delayer accesses state zero =>
        refine ⟨?_, ?_, (step_quiet (inputs t) accesses state none).1⟩
        · simp [DelaySystem.downstream, DelaySystem.upstream, Delayer.request, ApbPhase.drive, none]
        · simp [Delayer.resp, state]
    | waiting | delaying => cases idle

end Runs

/-- One word is read in cycle 0, and the peripheral takes two access cycles. -/
def oneRead (n : Nat) : DelayInput where
  want := ⟨0x10000000#32, n == 0, false, false, 0#32, 0b1111#4⟩
  resp := ⟨n == 2, 0x12345678#32, false⟩

theorem delayAt_oneRead (n : Nat) :
    delayAt oneRead (10 + n) = ⟨.idle, ⟨.idle_t, 0#32, 0x12345678#32, false⟩, 0⟩ := by
  induction n with
  | zero => decide +kernel
  | succ n ih =>
      rw [← Nat.add_assoc, delayAt_succ, ih]
      simp [oneRead, DelaySystem.step, DelaySystem.downstream, DelaySystem.upstream,
        Delayer.request, ApbPhase.next, ApbPhase.drive, Delayer.next]

theorem answers_oneRead : Answers oneRead := by
  constructor
  · intro n answer
    obtain rfl : n = 2 := by simpa [oneRead] using answer
    decide +kernel
  · intro n selected enabled
    rcases Nat.lt_or_ge n 10 with early | late
    · clear selected enabled
      revert n
      decide +kernel
    · obtain ⟨m, rfl⟩ := Nat.exists_eq_add_of_le late
      rw [delayAt_oneRead] at selected
      simp [oneRead, DelaySystem.downstream, DelaySystem.upstream, Delayer.request,
        ApbPhase.drive] at selected

/-- The answer comes `85 * 3 / 32 = 7` cycles after the peripheral's. -/
theorem delayer_transparent_oneRead :
    ∃ k, Delayed oneRead 0 k ⟨0x10000000#32, true, false, false, 0#32, 0b1111#4⟩ :=
  ((delayer_transparent answers_oneRead).2 0 rfl).1 rfl

end Ysyx.Soc
