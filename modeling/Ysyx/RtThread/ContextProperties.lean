import Ysyx.RtThread.Context
import Mathlib.Tactic.SplitIfs

/-! The stack pointers are switched correctly, and the `user_data` of a thread that has been
switched to is the address of the other thread's array. -/

set_option autoImplicit false

namespace Ysyx.RtThread

variable {T : Type} {run next : Run T}

/-- A suspended thread never waits to restore its own `user_data`. -/
structure RunInv (run : Run T) : Prop where
  sp : run.kernel.sp = run.switchedOut
  frame : ∀ self frame, run.kernel.frame self = some frame → frame.current ≠ self
  userData : ∀ self, run.kernel.rtCurrentThread = some self →
    run.kernel.userData self = if run.storedSince then run.stored self else run.array

theorem runInv_init (userData sp : T → UBase) (fromTo : UBase → Option (Option T × T)) :
    RunInv (Run.init userData sp fromTo) where
  sp := rfl
  frame := fun _ _ waiting => by cases waiting
  userData := fun _ running => by cases running

variable [DecidableEq T]

/-- The rest of a call touches the `user_data` of another thread only. -/
theorem Kernel.resume_spec (kernel : Kernel T)
    (frames : ∀ self frame, kernel.frame self = some frame → frame.current ≠ self) (self : T) :
    (kernel.resume self).rtCurrentThread = kernel.rtCurrentThread ∧
      (kernel.resume self).sp = kernel.sp ∧
      (kernel.resume self).userData self = kernel.userData self ∧
      ∀ other frame, (kernel.resume self).frame other = some frame → frame.current ≠ other := by
  rw [Kernel.resume]
  cases waiting : kernel.frame self with
  | none => exact ⟨rfl, rfl, rfl, frames⟩
  | some frame =>
      refine ⟨rfl, rfl, Function.update_of_ne (frames self frame waiting).symm _ _, ?_⟩
      intro other frame' found
      by_cases same : other = self
      · subst same
        simp at found
      · simp only [Function.update_of_ne same] at found
        exact frames other frame' found

/-- One switch: the context of the thread that ran is saved, the last one saved of the other is
loaded, and its `user_data` is the array. -/
theorem Kernel.switch_spec {kernel : Kernel T}
    (frames : ∀ self frame, kernel.frame self = some frame → frame.current ≠ self) {to_ : T}
    (other : kernel.rtCurrentThread ≠ some to_) (array c : UBase) :
    ∃ next, kernel.switch to_ array c = some (kernel.sp to_, next) ∧
      next.rtCurrentThread = some to_ ∧
      next.sp = save kernel.sp kernel.rtCurrentThread c ∧
      next.userData to_ = array ∧
      ∀ self frame, next.frame self = some frame → frame.current ≠ self := by
  cases running : kernel.rtCurrentThread with
  | none =>
      have resumed := Kernel.resume_spec { kernel with
        rtCurrentThread := some to_
        fromTo := Function.update kernel.fromTo array (some (none, to_))
        userData := Function.update kernel.userData to_ array } frames to_
      obtain ⟨current, sp, userData, frames'⟩ := resumed
      refine ⟨_, ?_, current, sp, ?_, frames'⟩
      · simp [Kernel.switch, Kernel.contextSwitch, Kernel.evHandler, save, running]
      · rw [userData]
        exact Function.update_self _ _ _
  | some from_ =>
      have apart : to_ ≠ from_ := fun same => other (same ▸ running)
      have waiting : ∀ self frame,
          Function.update kernel.frame from_ (some ⟨to_, kernel.userData to_⟩) self = some frame →
            frame.current ≠ self := by
        intro self frame found
        by_cases same : self = from_
        · subst same
          rw [Function.update_self] at found
          obtain rfl := Option.some.inj found
          exact apart
        · rw [Function.update_of_ne same] at found
          exact frames self frame found
      have resumed := Kernel.resume_spec { kernel with
        rtCurrentThread := some to_
        fromTo := Function.update kernel.fromTo array (some (some from_, to_))
        frame := Function.update kernel.frame from_ (some ⟨to_, kernel.userData to_⟩)
        sp := Function.update kernel.sp from_ c
        userData := Function.update kernel.userData to_ array } waiting to_
      obtain ⟨current, sp, userData, frames'⟩ := resumed
      refine ⟨_, ?_, current, sp, ?_, frames'⟩
      · simp [Kernel.switch, Kernel.contextSwitch, Kernel.evHandler, save, running, apart]
      · rw [userData]
        exact Function.update_self _ _ _

theorem RunInv.step (inv : RunInv run) {act : Act T} (stepped : run.step act = some next) :
    RunInv next := by
  obtain ⟨sp, frame, userData⟩ := inv
  cases act with
  | switch to_ array c =>
      simp only [Run.step] at stepped
      split_ifs at stepped with same
      obtain ⟨kernel, switched, current, sp', userData', frame'⟩ :=
        Kernel.switch_spec frame same array c
      rw [switched] at stepped
      obtain rfl := Option.some.inj stepped
      refine ⟨?_, frame', ?_⟩
      · simp only [sp', sp]
      · intro self running
        rw [current] at running
        obtain rfl := Option.some.inj running
        exact userData'
  | store value =>
      simp only [Run.step] at stepped
      obtain ⟨self, running, rfl⟩ := Option.map_eq_some_iff.mp stepped
      refine ⟨sp, frame, ?_⟩
      intro other running'
      obtain rfl := Option.some.inj (running.symm.trans running')
      simp

theorem RunInv.steps (inv : RunInv run) {acts : List (Act T)} {last : Run T}
    (ran : run.steps acts = some last) : RunInv last := by
  induction acts generalizing run with
  | nil =>
      obtain rfl := Option.some.inj ran
      exact inv
  | cons act acts ih =>
      obtain ⟨next, stepped, rest⟩ := Option.bind_eq_some_iff.mp ran
      exact ih (inv.step stepped) rest

/-- In every run each switch succeeds and loads the context of the thread's own last
switch-out; the `user_data` of a running thread is the value it last stored exactly when it has
stored one since it was switched to, or that value is the address of the array of the switch. -/
theorem context_switch_iff (userData sp : T → UBase) (fromTo : UBase → Option (Option T × T))
    (acts : List (Act T)) (run : Run T)
    (ran : (Run.init userData sp fromTo).steps acts = some run) :
    (∀ to_ array c, run.kernel.rtCurrentThread ≠ some to_ →
      ∃ next, run.step (.switch to_ array c) = some next ∧ next.loaded = run.switchedOut to_) ∧
    ∀ self, run.kernel.rtCurrentThread = some self →
      (run.kernel.userData self = run.stored self ↔
        run.storedSince = true ∨ run.stored self = run.array) := by
  have inv := (runInv_init userData sp fromTo).steps ran
  constructor
  · intro to_ array c other
    obtain ⟨kernel, switched, _⟩ := Kernel.switch_spec inv.frame other array c
    refine ⟨{ run with
      kernel := kernel
      switchedOut := save run.switchedOut run.kernel.rtCurrentThread c
      array := array
      loaded := run.kernel.sp to_
      storedSince := false }, ?_, ?_⟩
    · simp [Run.step, other, switched]
    · rw [← inv.sp]
  · intro self running
    rw [inv.userData self running]
    cases run.storedSince with
    | true => simp
    | false => simp [eq_comm]

/-- The first thread starts with `user_data` 0 and finds the address of the array. -/
theorem context_switch_disturbs :
    ¬ ∀ (userData sp : Unit → UBase) (fromTo : UBase → Option (Option Unit × Unit))
      (acts : List (Act Unit)) (run : Run Unit),
      (Run.init userData sp fromTo).steps acts = some run →
        ∀ self, run.kernel.rtCurrentThread = some self →
          run.kernel.userData self = run.stored self := by
  intro always
  have kept := always (fun _ => 0#32) (fun _ => 0xa0001000#32) (fun _ => none)
    [.switch () 0xa0000ff0#32 0xa0000f00#32] _ rfl () rfl
  revert kept
  decide

/-- One switch, after which the thread has not stored anything. -/
theorem context_switch_iff_start :
    ¬ (0xa0000ff0#32 : UBase) = 0#32 ∧
      ∃ run, (Run.init (fun _ : Unit => 0#32) (fun _ => 0xa0001000#32) fun _ => none).steps
          [.switch () 0xa0000ff0#32 0xa0000f00#32] = some run ∧
        (run.kernel.userData () = run.stored () ↔
          run.storedSince = true ∨ run.stored () = run.array) := by
  refine ⟨by decide, _, rfl, ?_⟩
  exact (context_switch_iff (fun _ : Unit => 0#32) (fun _ => 0xa0001000#32) (fun _ => none)
    [.switch () 0xa0000ff0#32 0xa0000f00#32] _ rfl).2 () rfl

end Ysyx.RtThread
