import Mathlib.Logic.Function.Basic

/-! Context switches of the RT-Thread port: the pair of stack pointers goes to the event
handler through the `user_data` of the thread that is switched to. -/

set_option autoImplicit false

namespace Ysyx.RtThread

/-- `rt_ubase_t`: a word, an address or a context pointer. -/
abbrev UBase := BitVec 32

/-- The locals of a call of `rt_hw_context_switch` that waits in `yield`. -/
structure Frame (T : Type) where
  current : T
  userDataBnk : UBase

/-- The threads as the port sees them; `fromTo` is what lies in memory where a
`rt_hw_context_switch` has its array: `&from->sp`, or 0, and `&to->sp`. -/
structure Kernel (T : Type) where
  rtCurrentThread : Option T
  userData : T → UBase
  sp : T → UBase
  frame : T → Option (Frame T)
  fromTo : UBase → Option (Option T × T)

variable {T : Type} [DecidableEq T]

/-- `if (from != 0) *from = c`. -/
def save (sp : T → UBase) (from_ : Option T) (c : UBase) : T → UBase :=
  match from_ with
  | none => sp
  | some from_ => Function.update sp from_ c

/-- `ev_handler` at an `EVENT_YIELD` with the context `c`; nothing when the current thread or
its `user_data` is not a valid pointer. -/
def Kernel.evHandler (kernel : Kernel T) (c : UBase) : Option (UBase × Kernel T) :=
  kernel.rtCurrentThread.bind fun current =>
    (kernel.fromTo (kernel.userData current)).map fun (from_, to_) =>
      let sp := save kernel.sp from_ c
      (sp to_, { kernel with sp := sp })

/-- `rt_hw_context_switch` up to its `yield`: `rt_thread_self` is the thread switched to, and
the array lies at `array`. The locals are kept for the caller `self`, if it is a thread. -/
def Kernel.contextSwitch (kernel : Kernel T) (self : Option T) (to_ : T) (array : UBase) :
    Option (Kernel T) :=
  kernel.rtCurrentThread.map fun current =>
    { kernel with
      fromTo := Function.update kernel.fromTo array (some (self, to_))
      frame :=
        match self with
        | none => kernel.frame
        | some self =>
            Function.update kernel.frame self (some ⟨current, kernel.userData current⟩)
      userData := Function.update kernel.userData current array }

/-- What the thread that has been switched to does first: the rest of the call it had been
waiting in. A thread that runs for the first time has none. -/
def Kernel.resume (kernel : Kernel T) (self : T) : Kernel T :=
  match kernel.frame self with
  | none => kernel
  | some frame =>
      { kernel with
        userData := Function.update kernel.userData frame.current frame.userDataBnk
        frame := Function.update kernel.frame self none }

/-- A switch as the scheduler makes it: it sets `rt_current_thread` first. The result is the
context pointer that is loaded. -/
def Kernel.switch (kernel : Kernel T) (to_ : T) (array c : UBase) : Option (UBase × Kernel T) := do
  let scheduled := { kernel with rtCurrentThread := some to_ }
  let waiting ← scheduled.contextSwitch kernel.rtCurrentThread to_ array
  let (loaded, switched) ← waiting.evHandler c
  some (loaded, switched.resume to_)

/-!
## Runs
-/

/-- A call of `rt_hw_context_switch_to` or, once a thread runs, `rt_hw_context_switch`, with the
address of its array and of the context the trap saves; or a store of the running thread to its
own `user_data`. A thread that exits makes a switch and is not switched to again. -/
inductive Act (T : Type) where
  | switch (to_ : T) (array c : UBase)
  | store (value : UBase)

/-- The kernel and its history: the value each thread last stored, the context of its last
switch-out, and of the last switch its array, what it loaded and whether the thread has stored
since. -/
structure Run (T : Type) where
  kernel : Kernel T
  stored : T → UBase
  switchedOut : T → UBase
  array : UBase
  loaded : UBase
  storedSince : Bool

/-- Before the scheduler starts, with the threads created. -/
def Run.init (userData sp : T → UBase) (fromTo : UBase → Option (Option T × T)) : Run T where
  kernel := ⟨none, userData, sp, fun _ => none, fromTo⟩
  stored := userData
  switchedOut := sp
  array := 0#32
  loaded := 0#32
  storedSince := false

/-- Nothing when the action does not apply: a switch to the running thread, a store when none
runs. -/
def Run.step (run : Run T) : Act T → Option (Run T)
  | .switch to_ array c =>
      if run.kernel.rtCurrentThread = some to_ then none else
      (run.kernel.switch to_ array c).map fun (loaded, kernel) =>
        { run with
          kernel := kernel
          switchedOut := save run.switchedOut run.kernel.rtCurrentThread c
          array := array
          loaded := loaded
          storedSince := false }
  | .store value =>
      run.kernel.rtCurrentThread.map fun self =>
        { run with
          kernel :=
            { run.kernel with userData := Function.update run.kernel.userData self value }
          stored := Function.update run.stored self value
          storedSince := true }

def Run.steps : List (Act T) → Run T → Option (Run T)
  | [], run => some run
  | act :: acts, run => (run.step act).bind (steps acts)

end Ysyx.RtThread
