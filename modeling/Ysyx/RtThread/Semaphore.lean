import Ysyx.RtThread.Scheduler

/-! Semaphores of `ipc.c` on the scheduler: a value, and a list of the threads that wait. -/

set_option autoImplicit false

namespace Ysyx.RtThread

open Scheduler (IpcFlag)

/-- What a call returns. -/
inductive RtErr where
  | eok | etimeout | efull | error
  deriving DecidableEq, Repr

/-- The scheduler with the values of the semaphores `S`; the threads suspend on these and on the
other objects `K`. -/
structure Semaphores (T S K : Type) where
  sched : Scheduler T (S ⊕ K)
  value : S → BitVec 16

namespace Semaphores

variable {T S K : Type} [DecidableEq T] [DecidableEq S] [DecidableEq K]

/-- `rt_sem_init` of every semaphore. -/
def init (thread : T → Priority × UBase) (value : S → BitVec 16) : Semaphores T S K :=
  ⟨.init thread, value⟩

def setValue (sys : Semaphores T S K) (s : S) (value : BitVec 16) : Semaphores T S K :=
  { sys with value := Function.update sys.value s value }

/-- The `rt_schedule` at the end of a call. -/
def reschedule (sys : Semaphores T S K) : Option (Semaphores T S K) :=
  (sys.sched.step .schedule).map fun sched => { sys with sched := sched }

/-- `_rt_sem_take` by the running thread, up to its switch to another one: what it returns, or
nothing when the thread waits. -/
def semTake (flag : S → IpcFlag) (sys : Semaphores T S K) (s : S) (timeout : BitVec 32)
    (suspendFlag : SuspendFlag) (turns : Nat) : Option (Option RtErr × Semaphores T S K) :=
  if sys.value s > 0#16 then some (some .eok, sys.setValue s (sys.value s - 1#16))
  else if timeout = 0#32 then some (some .etimeout, sys)
  else do
    let thread ← sys.sched.currentThread
    if (sys.sched.thread thread).state = threadRunning then
      let (ok, sched) ←
        sys.sched.ipcListSuspend (.inl s) thread (flag s) suspendFlag turns
      let sys := { sys with sched := sched }
      if ok then
        let sys ← sys.reschedule
        some (none, sys)
      else some (some .error, sys)
    else none

/-- `rt_sem_release`. -/
def semRelease (sys : Semaphores T S K) (s : S) : Option (RtErr × Semaphores T S K) :=
  if sys.sched.links.isEmpty (.inl (.suspend (.inl s))) then
    if sys.value s < 0xffff#16 then some (.eok, sys.setValue s (sys.value s + 1#16))
    else some (.efull, sys)
  else do
    let (_, sched) ← sys.sched.ipcListResume (.inl s)
    let sys ← reschedule { sys with sched := sched }
    some (.eok, sys)

/-- `_ipc_list_resume_all`. Nothing when the turns do not suffice. -/
def ipcListResumeAll (sched : Scheduler T (S ⊕ K)) (s : S) : Nat → Option (Scheduler T (S ⊕ K))
  | 0 => if sched.links.isEmpty (.inl (.suspend (.inl s))) then some sched else none
  | turns + 1 =>
      if sched.links.isEmpty (.inl (.suspend (.inl s))) then some sched
      else do
        let (_, sched) ← sched.ipcListResume (.inl s)
        ipcListResumeAll sched s turns

/-- `rt_sem_control` with `RT_IPC_CMD_RESET`. -/
def semReset (sys : Semaphores T S K) (s : S) (value : BitVec 16) (turns : Nat) :
    Option (Semaphores T S K) := do
  let sched ← ipcListResumeAll sys.sched s turns
  reschedule (setValue { sys with sched := sched } s value)

/-- The calls, and everything else that the threads and the interrupts do. -/
inductive SemAct (T S K : Type) where
  | take (s : S) (timeout : BitVec 32) (suspendFlag : SuspendFlag) (turns : Nat)
  | release (s : S)
  | reset (s : S) (value : BitVec 16) (turns : Nat)
  | other (act : Scheduler.Act T (S ⊕ K))

/-- Only the calls above put threads on the list of a semaphore. -/
def waitsFor : Scheduler.Act T (S ⊕ K) → Option S
  | .wait (.inl s) _ _ _ => some s
  | _ => none

def step (flag : S → IpcFlag) (sys : Semaphores T S K) :
    SemAct T S K → Option (Semaphores T S K)
  | .take s timeout suspendFlag turns =>
      (sys.semTake flag s timeout suspendFlag turns).map Prod.snd
  | .release s => (sys.semRelease s).map Prod.snd
  | .reset s value turns => sys.semReset s value turns
  | .other act =>
      if waitsFor act = none then
        (sys.sched.step act).map fun sched => { sys with sched := sched }
      else none

def run (flag : S → IpcFlag) :
    List (SemAct T S K) → Semaphores T S K → Option (Semaphores T S K)
  | [], sys => some sys
  | act :: acts, sys => (sys.step flag act).bind (run flag acts)

end Semaphores

end Ysyx.RtThread
