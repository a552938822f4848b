import Ysyx.Soc.Ps2
import Mathlib.Tactic.IntervalCases

/-! The receiver and its queue against the log of frames. Push and pop are separate
assignments to one flag, and where both meet on a queue of one code the later one wins. -/

set_option autoImplicit false

namespace Ysyx.Soc

open Lib (Machine Ring store)

theorem getLsbD_setBit {w : Nat} (x : BitVec w) {i : Nat} (b : Bool) (bound : i < w) (j : Nat) :
    (setBit x i b).getLsbD j = if j = i then b else x.getLsbD j := by
  by_cases same : j = i
  · subst same
    cases b <;> simp [setBit, bound]
  · have other : ¬ i = j := fun eq => same eq.symm
    cases b with
    | true => simp [setBit, BitVec.getLsbD_twoPow, other, same]
    | false =>
        simp only [setBit, Bool.false_eq_true, if_false, if_neg same, BitVec.getLsbD_and,
          BitVec.getLsbD_not, BitVec.getLsbD_twoPow]
        cases bit : x.getLsbD j with
        | false => simp
        | true => simp [other, BitVec.lt_of_getLsbD bit]

variable {run : Ps2Run} {input : Ps2Input}

/-!
## The queue as a log
-/

theorem Ps2Log.length_pending (log : Ps2Log) :
    log.pending.length = log.codes.length - log.returned := by
  simp [Ps2Log.pending]

theorem Ps2Log.codes_next (log : Ps2Log) (bit : Option Bool) (readDone : Bool) :
    (log.next bit readDone).codes = log.codes ++ (log.completes bit).toList := by
  cases bit with
  | none => simp [Ps2Log.next, Ps2Log.codes, Ps2Log.completes]
  | some b =>
      simp only [Ps2Log.next, Ps2Log.codes, Ps2Log.completes]
      split_ifs with last
      · rw [List.filterMap_append]
        cases code : frameCode (log.part ++ [b]) <;> simp [code]
      · simp

/-- A read takes the oldest pending code, a completed frame adds the newest. -/
theorem Ps2Log.pending_next {log : Ps2Log} (within : log.returned ≤ log.codes.length)
    (bit : Option Bool) (readDone : Bool) :
    (log.next bit readDone).pending =
        (if readDone then log.pending.tail else log.pending) ++ (log.completes bit).toList ∧
      (log.next bit readDone).returned ≤ (log.next bit readDone).codes.length := by
  have codes := log.codes_next bit readDone
  cases readDone with
  | false =>
      constructor
      · simp only [Ps2Log.pending, codes]
        exact List.drop_append_of_le_length within
      · rw [codes, List.length_append]
        exact Nat.le_trans within (Nat.le_add_right _ _)
  | true =>
      have length := log.length_pending
      cases some : log.pending with
      | nil =>
          have returned : (log.next bit true).returned = log.returned := by
            simp [Ps2Log.next, some]
          have all : log.pending = [] := some
          constructor
          · rw [Ps2Log.pending, returned, codes, List.drop_append_of_le_length within]
            change log.pending ++ _ = _
            rw [all]
            rfl
          · rw [codes, returned, List.length_append]
            exact Nat.le_trans within (Nat.le_add_right _ _)
      | cons code rest =>
          have returned : (log.next bit true).returned = log.returned + 1 := by
            simp [Ps2Log.next, some]
          have inside : log.returned + 1 ≤ log.codes.length := by
            rw [some, List.length_cons] at length
            omega
          constructor
          · rw [Ps2Log.pending, returned, codes, List.drop_append_of_le_length inside,
              ← List.drop_drop, ← Ps2Log.pending, some]
            rfl
          · rw [codes, returned, List.length_append]
            exact Nat.le_trans inside (Nat.le_add_right _ _)

/-- The bits of the line are cut into frames of eleven, none dropped. -/
theorem Ps2Log.flatten_next (log : Ps2Log) (bit : Option Bool) (readDone : Bool) :
    (log.next bit readDone).frames.flatten ++ (log.next bit readDone).part =
      log.frames.flatten ++ log.part ++ bit.toList := by
  cases bit with
  | none => simp [Ps2Log.next]
  | some b =>
      simp only [Ps2Log.next]
      split_ifs with last <;> simp

theorem Ps2Log.part_next_lt {log : Ps2Log} (part : log.part.length < 11) (bit : Option Bool)
    (readDone : Bool) : (log.next bit readDone).part.length < 11 := by
  cases bit with
  | none => exact part
  | some b =>
      simp only [Ps2Log.next]
      split_ifs with last
      · decide
      · rw [List.length_append, List.length_singleton]
        omega

theorem Ps2Log.length_next {log : Ps2Log} (frames : ∀ frame ∈ log.frames, frame.length = 11)
    (bit : Option Bool) (readDone : Bool) :
    ∀ frame ∈ (log.next bit readDone).frames, frame.length = 11 := by
  intro frame found
  cases bit with
  | none => exact frames frame found
  | some b =>
      simp only [Ps2Log.next] at found
      split_ifs at found with last
      · rcases List.mem_append.mp found with old | new
        · exact frames frame old
        · rw [List.mem_singleton.mp new, List.length_append, last]
          rfl
      · exact frames frame found

/-!
## The invariant
-/

/-- The access phase of a read. -/
def ApbPhase.reading : ApbPhase → Bool
  | .access req => !req.pwrite
  | .idle => false

structure Ps2Inv (run : Ps2Run) : Prop where
  bus : run.sys.ps2.pready = run.sys.bus.reading
  part : run.log.part.length ≤ 10
  counter : run.sys.ps2.counter = BitVec.ofNat 4 run.log.part.length
  buffer : ∀ i b, run.log.part[i]? = some b → run.sys.ps2.buffer.getLsbD i = b
  returned : run.log.returned ≤ run.log.codes.length
  ring : Ring run.sys.ps2.fifo run.sys.ps2.rPtr run.sys.ps2.wPtr run.log.pending
  empty : run.sys.ps2.empty = !run.log.pending.isEmpty

theorem ps2Inv_reset (clkSync : BitVec 3) (buffer : BitVec 10) (fifo : BitVec 4 → BitVec 8) :
    Ps2Inv ⟨Ps2System.reset clkSync buffer fifo, Ps2Log.reset⟩ where
  bus := rfl
  part := Nat.zero_le 10
  counter := rfl
  buffer := by intro i b found; cases found
  returned := Nat.le_refl 0
  ring := Ring.empty _ _
  empty := rfl

/-- A read is done exactly when the device is ready in the access phase. -/
theorem Ps2Inv.readDone (inv : Ps2Inv run) (input : Ps2Input) :
    run.sys.readDone input = ((run.sys.req input).penable && run.sys.ps2.pready) := by
  have ready := inv.bus
  obtain ⟨⟨ps2, bus⟩, log⟩ := run
  cases bus with
  | idle => simp_all [Ps2System.readDone, ApbPhase.reading]
  | access req =>
      cases write : req.pwrite <;>
        simp_all [Ps2System.readDone, Ps2System.req, ApbPhase.drive, ApbPhase.reading]

theorem Ps2Inv.bus_next (inv : Ps2Inv run) (input : Ps2Input) :
    (run.sys.next input).ps2.pready = (run.sys.next input).bus.reading := by
  have ready := inv.bus
  obtain ⟨⟨ps2, bus⟩, log⟩ := run
  obtain ⟨want, clk, data⟩ := input
  cases bus with
  | idle =>
      have state : ps2.apbState = .idle := by
        cases state : ps2.apbState with
        | idle => rfl
        | read => simp [Ps2.pready, state, ApbPhase.reading] at ready
      cases sel : want.psel <;> cases write : want.pwrite <;>
        simp [Ps2System.next, Ps2.next, Ps2.pready, Ps2System.req, ApbPhase.next, ApbPhase.drive,
          ApbPhase.reading, state, sel, write]
  | access req =>
      cases write : req.pwrite <;> cases state : ps2.apbState <;>
        simp_all [Ps2System.next, Ps2.next, Ps2.pready, Ps2System.req, ApbPhase.next,
          ApbPhase.drive, ApbPhase.reading]

/-!
## Frames
-/

theorem Ps2Inv.last_iff (inv : Ps2Inv run) :
    run.sys.ps2.counter = 10#4 ↔ run.log.part.length = 10 := by
  have bound := inv.part
  rw [inv.counter, ← BitVec.toNat_inj, BitVec.toNat_ofNat, Nat.mod_eq_of_lt (by omega)]
  rfl

theorem Ps2Inv.part_eq (inv : Ps2Inv run) (full : run.log.part.length = 10) :
    run.log.part = (List.range 10).map run.sys.ps2.buffer.getLsbD := by
  apply List.ext_getElem
  · simp [full]
  · intro i inPart _
    rw [List.getElem_map, List.getElem_range]
    exact (inv.buffer i _ (List.getElem?_eq_getElem inPart)).symm

theorem ofBoolListLE_eq_extractLsb' (buffer : BitVec 10) :
    BitVec.ofBoolListLE [buffer.getLsbD 1, buffer.getLsbD 2, buffer.getLsbD 3, buffer.getLsbD 4,
      buffer.getLsbD 5, buffer.getLsbD 6, buffer.getLsbD 7, buffer.getLsbD 8] =
    buffer.extractLsb' 1 8 := by
  apply BitVec.eq_of_getLsbD_eq
  intro i bound
  change i < 8 at bound
  rw [BitVec.getLsbD_ofBoolListLE]
  refine Eq.trans ?_ (BitVec.getLsbD_extractLsb' 1 8 buffer i).symm
  interval_cases i <;> rfl

/-- The receiver stores exactly the good frames, and of each its eight data bits. -/
theorem Ps2Inv.completes (inv : Ps2Inv run) (input : Ps2Input) :
    run.log.completes (run.bit input) =
      if run.sys.ps2.pushes input.data then some (run.sys.ps2.buffer.extractLsb' 1 8)
      else none := by
  have last := inv.last_iff
  cases sampling : run.sys.ps2.sampling with
  | false => simp [Ps2Run.bit, Ps2.pushes, Ps2Log.completes, sampling]
  | true =>
      by_cases full : run.log.part.length = 10
      · simp only [Ps2Run.bit, Ps2.pushes, Ps2Log.completes, sampling, if_true,
          last.mpr full, beq_self_eq_true, Bool.true_and, inv.part_eq full]
        rw [← ofBoolListLE_eq_extractLsb']
        rfl
      · have notLast : (run.sys.ps2.counter == 10#4) = false := by
          rw [beq_eq_false_iff_ne]
          exact fun eq => full (last.mp eq)
        simp [Ps2Run.bit, Ps2.pushes, Ps2Log.completes, sampling, full, notLast]

theorem Ps2Inv.part_next (inv : Ps2Inv run) (input : Ps2Input) :
    let next := ps2Machine.step input run
    next.log.part.length ≤ 10 ∧ next.sys.ps2.counter = BitVec.ofNat 4 next.log.part.length ∧
      ∀ i b, next.log.part[i]? = some b → next.sys.ps2.buffer.getLsbD i = b := by
  have last := inv.last_iff
  have bound := inv.part
  simp only [ps2Machine, Ps2System.next, Ps2.next, Ps2Log.next, Ps2Run.bit]
  cases sampling : run.sys.ps2.sampling with
  | false => exact ⟨inv.part, inv.counter, inv.buffer⟩
  | true =>
      by_cases full : run.log.part.length = 10
      · simp [full, last.mpr full]
      · have notLast : ¬ run.sys.ps2.counter = 10#4 := fun eq => full (last.mp eq)
        have short : run.log.part.length < 10 := by omega
        have position : run.sys.ps2.counter.toNat = run.log.part.length := by
          rw [inv.counter, BitVec.toNat_ofNat, Nat.mod_eq_of_lt (by omega)]
        simp only [if_true, if_false, if_neg full, Bool.true_and, bne_iff_ne, ne_eq, notLast,
          not_false_eq_true]
        refine ⟨?_, ?_, ?_⟩
        · rw [List.length_append, List.length_singleton]
          exact short
        · rw [inv.counter, List.length_append, List.length_singleton, BitVec.ofNat_add]
        · intro i b found
          rw [getLsbD_setBit _ _ (by omega), position]
          rcases Nat.lt_or_ge i run.log.part.length with old | new
          · rw [List.getElem?_append_left old] at found
            rw [if_neg (Nat.ne_of_lt old)]
            exact inv.buffer i b found
          · rw [List.getElem?_append_right new, List.getElem?_singleton] at found
            split_ifs at found with zero
            obtain rfl : i = run.log.part.length := by omega
            rw [if_pos rfl]
            exact Option.some.inj found

/-!
## One cycle
-/

theorem Ps2Inv.pops (inv : Ps2Inv run) (input : Ps2Input) :
    run.sys.ps2.pops (run.sys.req input).penable =
      (run.sys.readDone input && !run.log.pending.isEmpty) := by
  rw [Ps2.pops, inv.readDone input, inv.empty]

/-- What reads and frames do to the queue, cycle by cycle. -/
theorem Ps2Inv.shows (inv : Ps2Inv run) (input : Ps2Input) :
    run.sys.out input = run.log.out (run.bit input) (run.sys.readDone input) := by
  have ready : run.sys.readDone input = true → run.sys.ps2.apbState = .read := by
    intro done
    rw [inv.readDone input, Bool.and_eq_true] at done
    simpa [Ps2.pready] using done.2
  have word : run.sys.readDone input = true →
      run.sys.ps2.prdata = codeWord run.log.pending := by
    intro done
    have holds := inv.empty
    have ring := inv.ring
    rw [Ps2.prdata, if_pos (ready done), holds]
    cases pending : run.log.pending with
    | nil => rfl
    | cons code rest =>
        rw [pending] at ring
        rw [ring.front]
        rfl
  rw [Ps2System.out, Ps2Log.out, inv.completes input]
  cases pushes : run.sys.ps2.pushes input.data <;> cases done : run.sys.readDone input <;>
    simp_all

theorem Ps2Inv.pending_next (inv : Ps2Inv run) (input : Ps2Input) :
    (ps2Machine.step input run).log.pending =
      (if run.sys.readDone input then run.log.pending.tail else run.log.pending) ++
        (if run.sys.ps2.pushes input.data then [run.sys.ps2.buffer.extractLsb' 1 8] else []) := by
  have pending := (Ps2Log.pending_next inv.returned (run.bit input) (run.sys.readDone input)).1
  rw [inv.completes input] at pending
  refine pending.trans ?_
  cases run.sys.ps2.pushes input.data <;> rfl

/-- The pointers, the cells and `empty` follow the queue, unless the only code leaves as a
new one comes. -/
theorem Ps2Inv.queue_next (inv : Ps2Inv run) (input : Ps2Input) (free : ¬ run.Collides input)
    (space : (ps2Machine.step input run).log.pending.length ≤ 16) :
    let next := ps2Machine.step input run
    Ring next.sys.ps2.fifo next.sys.ps2.rPtr next.sys.ps2.wPtr next.log.pending ∧
      next.sys.ps2.empty = !next.log.pending.isEmpty := by
  have after := inv.pending_next input
  have pops := inv.pops input
  have ring := inv.ring
  have holds := inv.empty
  intro next
  change Ring (if run.sys.ps2.pushes input.data then _ else _)
      (if run.sys.ps2.pops (run.sys.req input).penable then _ else _)
      (if run.sys.ps2.pushes input.data then _ else _) next.log.pending ∧
    (if (run.sys.ps2.pops (run.sys.req input).penable &&
        run.sys.ps2.wPtr == run.sys.ps2.rPtr + 1#4) = true then false
      else if run.sys.ps2.pushes input.data then true else run.sys.ps2.empty) = _
  rw [show next.log.pending = _ from after, pops]
  rw [after] at space
  cases done : run.sys.readDone input with
  | false =>
      cases pushes : run.sys.ps2.pushes input.data with
      | false => simpa [done, pushes] using ⟨ring, holds⟩
      | true =>
          simp only [done, pushes, if_true, Bool.false_eq_true, if_false, List.length_append,
            List.length_singleton] at space
          have pushed := ring.push space (run.sys.ps2.buffer.extractLsb' 1 8)
          simpa using pushed
  | true =>
      cases pending : run.log.pending with
      | nil =>
          cases pushes : run.sys.ps2.pushes input.data with
          | false =>
              rw [pending] at ring holds
              simpa using ⟨ring, holds⟩
          | true =>
              rw [pending] at ring
              have pushed := ring.push (by decide) (run.sys.ps2.buffer.extractLsb' 1 8)
              simpa using pushed
      | cons code rest =>
          rw [pending] at ring holds
          have last := ring.last_iff
          cases pushes : run.sys.ps2.pushes input.data with
          | false =>
              refine ⟨by simpa using ring.pop, ?_⟩
              cases rest with
              | nil => simp [last]
              | cons _ _ => simp [last, holds]
          | true =>
              have more : rest ≠ [] := by
                rintro rfl
                refine free ⟨?_, done, by rw [pending]; rfl⟩
                rw [inv.completes input, pushes]
                rfl
              have fits : rest.length < 2 ^ 4 := ring.fits
              have pushed := ring.pop.push fits (run.sys.ps2.buffer.extractLsb' 1 8)
              refine ⟨by simpa using pushed, ?_⟩
              simp [last, more]

theorem Ps2Inv.next (inv : Ps2Inv run) (input : Ps2Input) (free : ¬ run.Collides input)
    (space : (ps2Machine.step input run).log.pending.length ≤ 16) :
    Ps2Inv (ps2Machine.step input run) where
  bus := inv.bus_next input
  part := (inv.part_next input).1
  counter := (inv.part_next input).2.1
  buffer := (inv.part_next input).2.2
  returned := (Ps2Log.pending_next inv.returned _ _).2
  ring := (inv.queue_next input free space).1
  empty := (inv.queue_next input free space).2

theorem Ps2Inv.correct (inv : Ps2Inv run) (input : Ps2Input) : run.Correct input :=
  ⟨inv.shows input, inv.empty⟩

/-- After a collision `empty` is clear though the new code is pending. -/
theorem Ps2Inv.not_correct_of_collides (inv : Ps2Inv run) {input : Ps2Input}
    (collides : run.Collides input) (later : Ps2Input) :
    ¬ (ps2Machine.step input run).Correct later := by
  obtain ⟨completed, done, single⟩ := collides
  obtain ⟨code, pending⟩ := List.length_eq_one_iff.mp single
  have pushes : run.sys.ps2.pushes input.data = true := by
    rw [inv.completes input] at completed
    cases pushes : run.sys.ps2.pushes input.data <;> simp_all
  have ring := inv.ring
  rw [pending] at ring
  intro correct
  have holds := correct.holds
  rw [inv.pending_next input, done, pushes] at holds
  have cleared : (ps2Machine.step input run).sys.ps2.empty = false := by
    have pops := inv.pops input
    rw [done, pending] at pops
    change (if (run.sys.ps2.pops (run.sys.req input).penable &&
        run.sys.ps2.wPtr == run.sys.ps2.rPtr + 1#4) = true then false else _) = false
    rw [pops, ring.last_iff.mpr rfl]
    simp
  rw [cleared] at holds
  simp at holds

/-!
## Runs
-/

/-- The run from reset at the start of a cycle. -/
def ps2At (clkSync : BitVec 3) (buffer : BitVec 10) (fifo : BitVec 4 → BitVec 8)
    (inputs : Nat → Ps2Input) (n : Nat) : Ps2Run :=
  ps2Machine.run inputs 0 ⟨Ps2System.reset clkSync buffer fifo, Ps2Log.reset⟩ n

section Runs

variable (clkSync : BitVec 3) (buffer : BitVec 10) (fifo : BitVec 4 → BitVec 8)
  (inputs : Nat → Ps2Input)

theorem ps2At_succ (n : Nat) :
    ps2At clkSync buffer fifo inputs (n + 1) =
      ps2Machine.step (inputs n) (ps2At clkSync buffer fifo inputs n) := by
  rw [ps2At, Machine.run_succ, Nat.zero_add]
  rfl

theorem ps2Inv_at {n : Nat}
    (fits : ∀ k ≤ n, (ps2At clkSync buffer fifo inputs k).log.pending.length ≤ 16)
    (free : ∀ k < n, ¬ (ps2At clkSync buffer fifo inputs k).Collides (inputs k)) :
    Ps2Inv (ps2At clkSync buffer fifo inputs n) := by
  induction n with
  | zero => exact ps2Inv_reset clkSync buffer fifo
  | succ n ih =>
      have inv := ih (fun k bound => fits k (Nat.le_succ_of_le bound))
        (fun k bound => free k (Nat.lt_succ_of_lt bound))
      have space := fits (n + 1) (Nat.le_refl _)
      rw [ps2At_succ] at space ⊢
      exact inv.next _ (free n (Nat.lt_succ_self n)) space

/-- The synchroniser holds the line as it was up to three clocks ago. -/
theorem clkSync_at (n : Nat) :
    let line := ps2Clk clkSync fun k => (inputs k).clk
    let sync := (ps2At clkSync buffer fifo inputs n).sys.ps2.clkSync
    sync.getLsbD 2 = line n ∧ sync.getLsbD 1 = line (n + 1) ∧ sync.getLsbD 0 = line (n + 2) := by
  intro line
  have shift : ∀ (x : BitVec 3) (clk : Bool),
      (x.extractLsb' 0 2 ++ BitVec.ofBool clk : BitVec 3).getLsbD 0 = clk ∧
      (x.extractLsb' 0 2 ++ BitVec.ofBool clk : BitVec 3).getLsbD 1 = x.getLsbD 0 ∧
      (x.extractLsb' 0 2 ++ BitVec.ofBool clk : BitVec 3).getLsbD 2 = x.getLsbD 1 := by decide
  induction n with
  | zero => exact ⟨rfl, rfl, rfl⟩
  | succ n ih =>
      have next : (ps2At clkSync buffer fifo inputs (n + 1)).sys.ps2.clkSync =
          (ps2At clkSync buffer fifo inputs n).sys.ps2.clkSync.extractLsb' 0 2 ++
            BitVec.ofBool (inputs n).clk := by
        rw [ps2At_succ]
        rfl
      obtain ⟨newest, middle, oldest⟩ :=
        shift (ps2At clkSync buffer fifo inputs n).sys.ps2.clkSync (inputs n).clk
      dsimp only
      rw [next, newest, middle, oldest]
      exact ⟨ih.2.1, ih.2.2, rfl⟩

/-- A bit is taken two clocks after a falling edge of `ps2_clk`. -/
theorem sampling_eq (n : Nat) :
    (ps2At clkSync buffer fifo inputs n).sys.ps2.sampling =
      (ps2Clk clkSync (fun k => (inputs k).clk) n &&
        !ps2Clk clkSync (fun k => (inputs k).clk) (n + 1)) := by
  obtain ⟨oldest, middle, _⟩ := clkSync_at clkSync buffer fifo inputs n
  rw [Ps2.sampling, oldest, middle]

/-- The log is what the two lines have brought, cut into frames of eleven. -/
theorem log_eq (n : Nat) :
    let log := (ps2At clkSync buffer fifo inputs n).log
    log.frames.flatten ++ log.part =
        ps2Bits clkSync (fun k => (inputs k).clk) (fun k => (inputs k).data) n ∧
      (∀ frame ∈ log.frames, frame.length = 11) ∧ log.part.length < 11 := by
  induction n with
  | zero => exact ⟨rfl, nofun, Nat.zero_lt_succ 10⟩
  | succ n ih =>
      obtain ⟨bits, frames, part⟩ := ih
      have bit : ((ps2At clkSync buffer fifo inputs n).bit (inputs n)).toList =
          [n].filterMap fun k =>
            if ps2Clk clkSync (fun k => (inputs k).clk) k &&
                !ps2Clk clkSync (fun k => (inputs k).clk) (k + 1) then some (inputs k).data
            else none := by
        rw [Ps2Run.bit, sampling_eq]
        simp only [List.filterMap_cons, List.filterMap_nil]
        split <;> rfl
      rw [ps2At_succ]
      refine ⟨?_, Ps2Log.length_next frames _ _, Ps2Log.part_next_lt part _ _⟩
      dsimp only [ps2Machine]
      rw [Ps2Log.flatten_next, bits, bit, ps2Bits, ps2Bits, List.range_succ,
        List.filterMap_append]

/-- With at most sixteen codes pending the device is a keyboard queue up to a cycle exactly
when before it no frame ends in the cycle in which a read takes the only code. The frames are
those that the two lines have brought. -/
theorem ps2_correct_iff (n : Nat)
    (fits : ∀ k ≤ n, (ps2At clkSync buffer fifo inputs k).log.pending.length ≤ 16) :
    ((∀ k ≤ n, (ps2At clkSync buffer fifo inputs k).Correct (inputs k)) ↔
      ∀ k < n, ¬ (ps2At clkSync buffer fifo inputs k).Collides (inputs k)) ∧
    ∀ k, let log := (ps2At clkSync buffer fifo inputs k).log
      log.frames.flatten ++ log.part =
          ps2Bits clkSync (fun k => (inputs k).clk) (fun k => (inputs k).data) k ∧
        (∀ frame ∈ log.frames, frame.length = 11) ∧ log.part.length < 11 := by
  refine ⟨?_, log_eq clkSync buffer fifo inputs⟩
  constructor
  · intro correct
    induction n with
    | zero => intro k bound; cases bound
    | succ n ih =>
        have before := ih (fun k bound => fits k (Nat.le_succ_of_le bound))
          (fun k bound => correct k (Nat.le_succ_of_le bound))
        intro k bound
        rcases Nat.lt_succ_iff_lt_or_eq.mp bound with earlier | rfl
        · exact before k earlier
        · intro collides
          have inv := ps2Inv_at clkSync buffer fifo inputs
            (fun j inside => fits j (Nat.le_succ_of_le inside)) before
          have now := correct (k + 1) (Nat.le_refl _)
          rw [ps2At_succ] at now
          exact inv.not_correct_of_collides collides _ now
  · intro free k bound
    exact (ps2Inv_at clkSync buffer fifo inputs (fun j inside => fits j (Nat.le_trans inside bound))
      (fun j inside => free j (Nat.lt_of_lt_of_le inside bound))).correct _

end Runs

/-- Twice the key of code `1c`, a bit every two clocks, and one read that starts in cycle
`start`. -/
def typing (start n : Nat) : Ps2Input where
  want := ⟨0x10011000#32, n == start, false, false, 0#32, 0b1111#4⟩
  clk := n % 2 == 0
  data :=
    let frame := [false, false, false, true, true, true, false, false, false, false, true]
    (frame ++ frame).getD ((n - 3) / 2) true

instance (run : Ps2Run) (input : Ps2Input) : Decidable (run.Collides input) :=
  inferInstanceAs (Decidable (_ ∧ _ ∧ _))

/-- The read comes between the two frames. -/
theorem ps2_correct_typing :
    (∀ k ≤ 46, (ps2At 0#3 0#10 (fun _ => 0#8) (typing 30) k).log.pending.length ≤ 16) ∧
      ∀ k ≤ 46, (ps2At 0#3 0#10 (fun _ => 0#8) (typing 30) k).Correct (typing 30 k) :=
  ⟨by decide +kernel,
    (ps2_correct_iff _ _ _ _ 46 (by decide +kernel)).1.mpr (by decide +kernel)⟩

/-- The read takes the first code as the second frame ends. -/
theorem ps2_typing_fails :
    ¬ ∀ (clkSync : BitVec 3) (buffer : BitVec 10) (fifo : BitVec 4 → BitVec 8)
      (inputs : Nat → Ps2Input) (n : Nat),
      (∀ k ≤ n, (ps2At clkSync buffer fifo inputs k).log.pending.length ≤ 16) →
        ∀ k ≤ n, (ps2At clkSync buffer fifo inputs k).Correct (inputs k) := by
  intro always
  have correct := always 0#3 0#10 (fun _ => 0#8) (typing 44) 46 (by decide +kernel) 46
    (Nat.le_refl 46)
  have holds := correct.holds
  revert holds
  decide +kernel

end Ysyx.Soc
