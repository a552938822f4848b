import Ysyx.RtThread.SchedulerProperties

/-! Threads of one priority. `rt_schedule` drops the request to yield before it puts the thread
back, so that the thread goes to the front of its list and not to the end: two threads take
turns, and the others of the priority wait. -/

set_option autoImplicit false

namespace Ysyx.RtThread

open Lib

namespace Scheduler

variable {T K : Type} {sched sched' : Scheduler T K}
  {queue : Head K → List T} {a b c : T} {p : Priority} {rest : List T}

/-- `a` runs, `b` is the first ready thread, and both have the priority `p`. -/
structure Turn (sched : Scheduler T K) (queue : Head K → List T) (a b : T) (p : Priority)
    (rest : List T) : Prop where
  valid : sched.Valid queue
  current : sched.currentThread = some a
  running : (sched.thread a).state = threadRunning
  top : Top queue p b rest
  equal : (sched.thread a).currentPriority = p

theorem Turn.other (turn : sched.Turn queue a b p rest) : a ≠ b := by
  rintro rfl
  refine turn.valid.filed.not_mem_of_running turn.running (.ready p) ?_
  exact turn.top.listed ▸ List.mem_cons_self

theorem Top.unique {highest : Priority} {first : T} {rest' : List T}
    (top : Top queue p b rest) (top' : Top queue highest first rest') :
    highest = p ∧ first = b := by
  rcases lt_trichotomy highest p with less | rfl | more
  · have nil := top.above highest less
    rw [top'.listed] at nil
    cases nil
  · exact ⟨rfl, (List.cons.inj (top'.listed.symm.trans top.listed)).1⟩
  · have nil := top'.above p more
    rw [top.listed] at nil
    cases nil

section Steps

variable [DecidableEq T]

/-- The running thread changes, but not in its status. -/
theorem Turn.setTicks (turn : sched.Turn queue a b p rest) (remainingTick : UBase)
    {stat : BitVec 8} (same : stat &&& threadStatMask = (sched.thread a).state) :
    (sched.setThread a
      { sched.thread a with remainingTick := remainingTick, stat := stat }).Turn queue a b p
      rest where
  valid := turn.valid.setTicks a remainingTick same
  current := turn.current
  running := by
    rw [setThread_self]
    exact same.trans turn.running
  top := turn.top
  equal := by
    rw [setThread_self]
    exact turn.equal

variable [DecidableEq K]

/-- The thread that yields goes to the front. -/
theorem Turn.requeued (turn : sched.Turn queue a b p rest) :
    Top (requeued queue a b p true) p a rest where
  listed := by
    rw [Scheduler.requeued, if_pos rfl, Function.update_self, turn.top.listed,
      List.erase_cons_tail (by simpa using turn.other), List.erase_cons_head]
  above q less := by
    rw [Scheduler.requeued, if_pos rfl, Function.update_of_ne (by simpa using less.ne),
      turn.top.above q less, List.erase_nil]

theorem Turn.schedule (turn : sched.Turn queue a b p rest)
    (scheduled : sched.schedule = some sched') :
    ∃ queue', (sched'.Turn queue' a b p rest ∨ sched'.Turn queue' b a p rest) ∧
      ∀ u, u ≠ a → u ≠ b → sched'.thread u = sched.thread u := by
  obtain ⟨_, queue', found, valid', outcome⟩ := turn.valid.schedule turn.current
  obtain rfl := Option.some.inj (found.symm.trans scheduled)
  cases outcome with
  | none _ => exact ⟨_, .inl turn, fun u _ _ => rfl⟩
  | stay _ _ current' running frame =>
      refine ⟨_, .inl ⟨valid', current', running, turn.top, ?_⟩, fun u notA _ => ?_⟩
      · rw [frame.priority, turn.equal]
      · exact frame.other u (mt List.mem_singleton.mp notA)
  | switch _ top _ _ current' running frame =>
      obtain ⟨rfl, rfl⟩ := turn.top.unique top
      have place := ((turn.valid.filed.ready (Option.some_ne_none _) _).mp
        (turn.top.listed ▸ List.mem_cons_self)).2
      refine ⟨_, .inr ⟨valid', current', running, ?_, ?_⟩, fun u notA notB => ?_⟩
      · rw [turn.equal, decide_eq_true turn.running]
        exact turn.requeued
      · rw [frame.priority, place]
      · exact frame.other u (by simp [notA, notB])

/-- What a thread does to give up the processor and to use up its slice. -/
def Act.rounds : Act T K → Prop
  | .yield | .tick | .schedule => True
  | _ => False

theorem Turn.step (turn : sched.Turn queue a b p rest) {act : Act T K} (round : act.rounds)
    (step : sched.step act = some sched') :
    ∃ queue', (sched'.Turn queue' a b p rest ∨ sched'.Turn queue' b a p rest) ∧
      ∀ u, u ≠ a → u ≠ b → sched'.thread u = sched.thread u := by
  cases act <;> first | exact round.elim | skip
  case schedule =>
    obtain ⟨_, _, scheduled⟩ := Option.bind_eq_some_iff.mp step
    exact turn.schedule scheduled
  case yield =>
    obtain ⟨t, current, rfl⟩ := Option.map_eq_some_iff.mp step
    obtain rfl := Option.some.inj (turn.current.symm.trans current)
    exact ⟨queue, .inl (turn.setTicks _ (Thread.stat_yield _)),
      fun u notA _ => setThread_of_ne sched notA _⟩
  case tick =>
    obtain ⟨t, current, ticked⟩ := Option.bind_eq_some_iff.mp step
    obtain rfl := Option.some.inj (turn.current.symm.trans current)
    dsimp only at ticked
    split at ticked
    · have marked := turn.setTicks (sched.thread a).initTick (Thread.stat_yield (sched.thread a))
      obtain ⟨queue', turns, others⟩ := marked.schedule ticked
      refine ⟨queue', turns, fun u notA notB => ?_⟩
      rw [others u notA notB, setThread_of_ne sched notA]
    · obtain rfl := Option.some.inj ticked
      exact ⟨queue, .inl (turn.setTicks _ rfl), fun u notA _ => setThread_of_ne sched notA _⟩

theorem Turn.run (turn : sched.Turn queue a b p rest) {acts : List (Act T K)}
    (rounds : ∀ act ∈ acts, act.rounds) (run : sched.run acts = some sched') :
    ∃ queue', (sched'.Turn queue' a b p rest ∨ sched'.Turn queue' b a p rest) ∧
      ∀ u, u ≠ a → u ≠ b → sched'.thread u = sched.thread u := by
  induction acts generalizing sched queue a b with
  | nil =>
      obtain rfl := Option.some.inj run
      exact ⟨queue, .inl turn, fun u _ _ => rfl⟩
  | cons act acts ih =>
      obtain ⟨sched₁, step, onward⟩ := Option.bind_eq_some_iff.mp run
      obtain ⟨queue₁, turns, same⟩ := turn.step (rounds act List.mem_cons_self) step
      have later : ∀ act ∈ acts, act.rounds := fun act member =>
        rounds act (List.mem_cons_of_mem _ member)
      rcases turns with first | second
      · obtain ⟨queue', turns', same'⟩ := ih first later onward
        refine ⟨queue', turns', fun u notA notB => ?_⟩
        rw [same' u notA notB, same u notA notB]
      · obtain ⟨queue', turns', same'⟩ := ih second later onward
        refine ⟨queue', turns'.symm, fun u notA notB => ?_⟩
        rw [same' u notB notA, same u notA notB]

/-- When the running thread `a` and the first ready thread `b` have one priority, no other
ready thread comes to run however often the threads yield, use up their slices and call
`rt_schedule`, not even one of the same priority. -/
theorem run_rounds_starve {thread : T → Priority × UBase} {acts rounds : List (Act T K)}
    (run : (Scheduler.init thread).run acts = some sched)
    (current : sched.currentThread = some a) (running : (sched.thread a).state = threadRunning)
    (first : sched.getHighestPriorityThread = some ((sched.thread a).currentPriority, b))
    (only : ∀ act ∈ rounds, act.rounds) (onward : sched.run rounds = some sched') {u : T}
    (ready : (sched.thread u).state = threadReady) (other : u ≠ b) :
    (sched'.currentThread = some a ∨ sched'.currentThread = some b) ∧
      (sched'.thread u).state = threadReady := by
  obtain ⟨queue, valid⟩ := run_valid run
  have some_ : sched.readyPriorityGroup ≠ 0#32 := by
    intro zero
    rw [getHighestPriorityThread, zero] at first
    cases first
  obtain ⟨highest, first', rest, found, listed, above⟩ := valid.filed.highest some_
  obtain ⟨rfl, rfl⟩ := Prod.mk.inj (Option.some.inj (found.symm.trans first))
  have turn : sched.Turn queue a first' (sched.thread a).currentPriority rest :=
    ⟨valid, current, running, ⟨listed, above⟩, rfl⟩
  obtain ⟨queue', turns, same⟩ := turn.run only onward
  have notRunning : u ≠ a := by
    rintro rfl
    exact absurd (ready.symm.trans running) (by decide)
  rw [same u notRunning other]
  exact ⟨turns.imp Turn.current Turn.current, ready⟩

/-- Two of three threads take four turns. -/
def fourRounds : List (Act (Fin 3) Unit) :=
  [.yield, .schedule, .yield, .schedule, .yield, .schedule, .yield, .schedule]

theorem run_rounds_starve_three : ∃ sched', threeStarted.bind (run fourRounds) = some sched' ∧
    (sched'.thread 0).state = threadReady := by
  obtain ⟨sched, started, current, _, first, running, ready⟩ := threeStarted_shown
  have goes : (threeStarted.bind (Scheduler.run fourRounds)).isSome = true := by decide +kernel
  obtain ⟨sched', onward⟩ := Option.isSome_iff_exists.mp goes
  rw [started, Option.bind_some] at onward
  refine ⟨sched', by rw [started, Option.bind_some, onward], ?_⟩
  have only : ∀ act ∈ fourRounds, act.rounds := by simp [fourRounds, Act.rounds]
  exact (run_rounds_starve started current running first only onward ready (by decide)).2

end Steps

end Scheduler

end Ysyx.RtThread
