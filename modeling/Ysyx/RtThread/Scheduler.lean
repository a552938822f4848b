import Mathlib.Data.Fin.Basic
import Ysyx.Lib.Circular
import Ysyx.RtThread.Context

/-! The scheduler for one processor: a ready list and a bit of the group for each of the 32
priorities. A thread carries one list node, which is on a ready list, on the suspend list of an
object, on the list of the defunct threads, or alone. -/

set_option autoImplicit false

namespace Ysyx.RtThread

open Lib

/-- Below `RT_THREAD_PRIORITY_MAX`; 0 is the highest. -/
abbrev Priority := Fin 32

/-!
## Status of a thread
-/

def threadInit : BitVec 8 := 0x00#8
def threadClose : BitVec 8 := 0x01#8
def threadReady : BitVec 8 := 0x02#8
def threadRunning : BitVec 8 := 0x03#8
def threadSuspendMask : BitVec 8 := 0x04#8
def threadStatMask : BitVec 8 := 0x07#8
def threadStatYield : BitVec 8 := 0x08#8

inductive SuspendFlag where
  | interruptible | killable | uninterruptible
  deriving DecidableEq

def SuspendFlag.stat : SuspendFlag → BitVec 8
  | .interruptible => 0x04#8
  | .killable => 0x06#8
  | .uninterruptible => 0x07#8

structure Thread where
  stat : BitVec 8
  currentPriority : Priority
  numberMask : UBase
  initTick : UBase
  remainingTick : UBase
  deriving DecidableEq

/-- `thread->stat & RT_THREAD_STAT_MASK`. -/
def Thread.state (thread : Thread) : BitVec 8 := thread.stat &&& threadStatMask

def Thread.suspended (thread : Thread) : Prop :=
  thread.stat &&& threadSuspendMask = threadSuspendMask

instance (thread : Thread) : Decidable thread.suspended := inferInstanceAs (Decidable (_ = _))

def Thread.yields (thread : Thread) : Prop := thread.stat &&& threadStatYield ≠ 0#8

instance (thread : Thread) : Decidable thread.yields := inferInstanceAs (Decidable (_ ≠ _))

def Thread.setStat (thread : Thread) (stat : BitVec 8) : Thread := { thread with stat := stat }

/-- `stat | (thread->stat & ~RT_THREAD_STAT_MASK)`. -/
def Thread.setState (thread : Thread) (state : BitVec 8) : Thread :=
  thread.setStat (state ||| (thread.stat &&& ~~~threadStatMask))

/-- The priority with the mask that goes with it. -/
def Thread.setPriority (thread : Thread) (priority : Priority) : Thread :=
  { thread with currentPriority := priority, numberMask := 1#32 <<< priority.val }

/-- `_thread_init`, as far as the scheduler reads it. -/
def threadInitialized (priority : Priority) (tick : UBase) : Thread where
  stat := threadInit
  currentPriority := priority
  numberMask := 0#32
  initTick := tick
  remainingTick := tick

/-!
## First bit set
-/

def lowestBitBitmap : List Nat :=
  [0, 0, 1, 0, 2, 0, 1, 0, 3, 0, 1, 0, 2, 0, 1, 0,
   4, 0, 1, 0, 2, 0, 1, 0, 3, 0, 1, 0, 2, 0, 1, 0,
   5, 0, 1, 0, 2, 0, 1, 0, 3, 0, 1, 0, 2, 0, 1, 0,
   4, 0, 1, 0, 2, 0, 1, 0, 3, 0, 1, 0, 2, 0, 1, 0,
   6, 0, 1, 0, 2, 0, 1, 0, 3, 0, 1, 0, 2, 0, 1, 0,
   4, 0, 1, 0, 2, 0, 1, 0, 3, 0, 1, 0, 2, 0, 1, 0,
   5, 0, 1, 0, 2, 0, 1, 0, 3, 0, 1, 0, 2, 0, 1, 0,
   4, 0, 1, 0, 2, 0, 1, 0, 3, 0, 1, 0, 2, 0, 1, 0,
   7, 0, 1, 0, 2, 0, 1, 0, 3, 0, 1, 0, 2, 0, 1, 0,
   4, 0, 1, 0, 2, 0, 1, 0, 3, 0, 1, 0, 2, 0, 1, 0,
   5, 0, 1, 0, 2, 0, 1, 0, 3, 0, 1, 0, 2, 0, 1, 0,
   4, 0, 1, 0, 2, 0, 1, 0, 3, 0, 1, 0, 2, 0, 1, 0,
   6, 0, 1, 0, 2, 0, 1, 0, 3, 0, 1, 0, 2, 0, 1, 0,
   4, 0, 1, 0, 2, 0, 1, 0, 3, 0, 1, 0, 2, 0, 1, 0,
   5, 0, 1, 0, 2, 0, 1, 0, 3, 0, 1, 0, 2, 0, 1, 0,
   4, 0, 1, 0, 2, 0, 1, 0, 3, 0, 1, 0, 2, 0, 1, 0]

/-- `__rt_ffs`: one more than the place of the first bit set, 0 when there is none. -/
def rtFfs (value : UBase) : Nat :=
  if value = 0#32 then 0
  else if value &&& 0xff#32 ≠ 0#32 then
    lowestBitBitmap.getD (value &&& 0xff#32).toNat 0 + 1
  else if value &&& 0xff00#32 ≠ 0#32 then
    lowestBitBitmap.getD ((value &&& 0xff00#32) >>> 8).toNat 0 + 9
  else if value &&& 0xff0000#32 ≠ 0#32 then
    lowestBitBitmap.getD ((value &&& 0xff0000#32) >>> 16).toNat 0 + 17
  else
    lowestBitBitmap.getD ((value &&& 0xff000000#32) >>> 24).toNat 0 + 25

/-!
## The scheduler
-/

/-- The heads of the lists that thread nodes are put on; `K` are the objects that threads
suspend on. -/
inductive Head (K : Type) where
  | ready (priority : Priority)
  | suspend (object : K)
  | defunct
  deriving DecidableEq

/-- `none` where the code reads through a null pointer, past the table or fails an assertion. -/
structure Scheduler (T K : Type) where
  links : Links (Head K ⊕ T)
  readyPriorityGroup : UBase
  lockNest : BitVec 16
  currentThread : Option T
  thread : T → Thread

namespace Scheduler

variable {T K : Type} [DecidableEq T] [DecidableEq K]

def setThread (sched : Scheduler T K) (t : T) (thread : Thread) : Scheduler T K :=
  { sched with thread := Function.update sched.thread t thread }

/-- `rt_system_scheduler_init`, with the threads initialised. -/
def init (thread : T → Priority × UBase) : Scheduler T K where
  links := .init _
  readyPriorityGroup := 0#32
  lockNest := 0#16
  currentThread := none
  thread t := threadInitialized (thread t).1 (thread t).2

def scheduleInsertThread (sched : Scheduler T K) (t : T) : Scheduler T K :=
  if sched.currentThread = some t then
    sched.setThread t ((sched.thread t).setState threadRunning)
  else
    let thread := (sched.thread t).setState threadReady
    let sched := sched.setThread t thread
    { sched with
      links :=
        if thread.yields then
          sched.links.insertBefore (.inl (.ready thread.currentPriority)) (.inr t)
        else
          sched.links.insertAfter (.inl (.ready thread.currentPriority)) (.inr t)
      readyPriorityGroup := sched.readyPriorityGroup ||| thread.numberMask }

def scheduleRemoveThread (sched : Scheduler T K) (t : T) : Scheduler T K :=
  let thread := sched.thread t
  let links := sched.links.remove (.inr t)
  { sched with
    links := links
    readyPriorityGroup :=
      if links.isEmpty (.inl (.ready thread.currentPriority)) then
        sched.readyPriorityGroup &&& ~~~thread.numberMask
      else sched.readyPriorityGroup }

/-- `_scheduler_get_highest_priority_thread`: `rt_list_entry` of a list head is no thread. -/
def getHighestPriorityThread (sched : Scheduler T K) : Option (Priority × T) :=
  let highest := (BitVec.ofNat 32 (rtFfs sched.readyPriorityGroup) - 1#32).toNat
  if bound : highest < 32 then
    match sched.links.next (.inl (.ready ⟨highest, bound⟩)) with
    | .inr t => some (⟨highest, bound⟩, t)
    | .inl _ => none
  else none

/-- `rt_system_scheduler_start`. -/
def schedulerStart (sched : Scheduler T K) : Option (Scheduler T K) :=
  sched.getHighestPriorityThread.map fun (_, to_) =>
    let sched := { sched with currentThread := some to_ }
    let sched := sched.scheduleRemoveThread to_
    sched.setThread to_ ((sched.thread to_).setStat threadRunning)

/-- What `rt_schedule` switches to, and whether the current thread goes back to its list. -/
def chooseThread (current : T) (thread : Thread) (highest : Priority) (first : T) : T × Bool :=
  if thread.state = threadRunning then
    if thread.currentPriority < highest then (current, false)
    else if thread.currentPriority = highest ∧ ¬ thread.yields then (current, false)
    else (first, true)
  else (first, false)

/-- The rest of `rt_schedule`, from the choice on. -/
def switchTo (sched : Scheduler T K) (current to_ : T) (needInsert : Bool) : Scheduler T K :=
  let sched :=
    if to_ = current then sched
    else
      let sched := { sched with currentThread := some to_ }
      if needInsert then sched.scheduleInsertThread current else sched
  let sched := sched.scheduleRemoveThread to_
  sched.setThread to_ ((sched.thread to_).setState threadRunning)

/-- `rt_schedule`, up to the context switch. -/
def schedule (sched : Scheduler T K) : Option (Scheduler T K) :=
  if sched.lockNest = 0#16 ∧ sched.readyPriorityGroup ≠ 0#32 then do
    let (highest, first) ← sched.getHighestPriorityThread
    let current ← sched.currentThread
    let thread := sched.thread current
    let (to_, needInsert) := chooseThread current thread highest first
    let sched :=
      if thread.state = threadRunning then
        sched.setThread current (thread.setStat (thread.stat &&& ~~~threadStatYield))
      else sched
    some (sched.switchTo current to_ needInsert)
  else some sched

/-!
## Threads
-/

/-- `rt_thread_resume`; a thread that is not suspended is left as it is. -/
def threadResume (sched : Scheduler T K) (t : T) : Scheduler T K :=
  if (sched.thread t).suspended then
    scheduleInsertThread { sched with links := sched.links.remove (.inr t) } t
  else sched

/-- `rt_thread_startup`, up to its `rt_schedule`. -/
def threadStartup (sched : Scheduler T K) (t : T) : Option (Scheduler T K) :=
  let thread := sched.thread t
  if thread.state = threadInit then
    let thread := (thread.setPriority thread.currentPriority).setStat SuspendFlag.interruptible.stat
    some ((sched.setThread t thread).threadResume t)
  else none

/-- `rt_thread_suspend_with_flag`, with whether it returns `RT_EOK`. -/
def threadSuspend (sched : Scheduler T K) (t : T) (flag : SuspendFlag) :
    Option (Bool × Scheduler T K) :=
  let thread := sched.thread t
  if sched.currentThread ≠ some t then none
  else if thread.state ≠ threadReady ∧ thread.state ≠ threadRunning then some (false, sched)
  else
    let sched := sched.scheduleRemoveThread t
    some (true, sched.setThread t ((sched.thread t).setState flag.stat))

/-- The critical section of `rt_thread_yield`. -/
def threadYield (sched : Scheduler T K) : Option (Scheduler T K) :=
  sched.currentThread.map fun t =>
    let thread := sched.thread t
    sched.setThread t
      { thread with
        remainingTick := thread.initTick
        stat := thread.stat ||| threadStatYield }

/-- The critical section of `rt_tick_increase`; it calls `rt_schedule` when the slice is over. -/
def tickIncrease (sched : Scheduler T K) : Option (Scheduler T K) :=
  sched.currentThread.bind fun t =>
    let thread := sched.thread t
    let thread := { thread with remainingTick := thread.remainingTick - 1#32 }
    if thread.remainingTick = 0#32 then
      let thread :=
        { thread with
          remainingTick := thread.initTick
          stat := thread.stat ||| threadStatYield }
      (sched.setThread t thread).schedule
    else some (sched.setThread t thread)

/-- `rt_thread_detach` or `rt_thread_delete`. -/
def threadDetach (sched : Scheduler T K) (t : T) : Scheduler T K :=
  let thread := sched.thread t
  if thread.state = threadClose then sched
  else
    let sched := if thread.state ≠ threadInit then sched.scheduleRemoveThread t else sched
    let sched := sched.setThread t ((sched.thread t).setStat threadClose)
    { sched with links := sched.links.insertAfter (.inl .defunct) (.inr t) }

/-- `_thread_exit`, up to its `rt_schedule`. -/
def threadExit (sched : Scheduler T K) : Option (Scheduler T K) :=
  sched.currentThread.map fun t =>
    let sched := sched.scheduleRemoveThread t
    let sched := sched.setThread t ((sched.thread t).setStat threadClose)
    { sched with links := sched.links.insertAfter (.inl .defunct) (.inr t) }

/-- `rt_thread_defunct_dequeue`. -/
def threadDefunctDequeue (sched : Scheduler T K) : Option T × Scheduler T K :=
  match sched.links.next (.inl .defunct) with
  | .inl _ => (none, sched)
  | .inr t => (some t, { sched with links := sched.links.remove (.inr t) })

/-- `rt_thread_control` with `RT_THREAD_CTRL_CHANGE_PRIORITY`. -/
def threadChangePriority (sched : Scheduler T K) (t : T) (priority : Priority) : Scheduler T K :=
  if (sched.thread t).state = threadReady then
    let sched := sched.scheduleRemoveThread t
    let sched := sched.setThread t ((sched.thread t).setPriority priority)
    sched.scheduleInsertThread t
  else sched.setThread t ((sched.thread t).setPriority priority)

def enterCritical (sched : Scheduler T K) : Scheduler T K :=
  { sched with lockNest := sched.lockNest + 1#16 }

def exitCritical (sched : Scheduler T K) : Option (Scheduler T K) :=
  let lockNest := sched.lockNest - 1#16
  if lockNest.sle 0#16 then
    let sched := { sched with lockNest := 0#16 }
    if sched.currentThread.isSome then sched.schedule else some sched
  else some { sched with lockNest := lockNest }

/-!
## Suspend lists of objects
-/

inductive IpcFlag where
  | fifo | prio
  deriving DecidableEq

/-- The loop of `_ipc_list_suspend` that looks for the first thread of less priority: that
thread's node or the head. Nothing when the turns do not suffice. -/
def findPosition (sched : Scheduler T K) (object : K) (priority : Priority) :
    Nat → Head K ⊕ T → Option (Head K ⊕ T)
  | 0, _ => none
  | _ + 1, .inl h => if h = .suspend object then some (.inl h) else none
  | turns + 1, .inr t =>
      if priority < (sched.thread t).currentPriority then some (.inr t)
      else findPosition sched object priority turns (sched.links.next (.inr t))

/-- `_ipc_list_suspend` for a thread that is not suspended, with whether it returns `RT_EOK`. -/
def ipcListSuspend (sched : Scheduler T K) (object : K) (t : T) (flag : IpcFlag)
    (suspendFlag : SuspendFlag) (turns : Nat) : Option (Bool × Scheduler T K) := do
  let (ok, sched) ← sched.threadSuspend t suspendFlag
  if ok then
    let position ←
      match flag with
      | .fifo => some (.inl (.suspend object))
      | .prio =>
          sched.findPosition object (sched.thread t).currentPriority turns
            (sched.links.next (.inl (.suspend object)))
    some (true, { sched with links := sched.links.insertBefore position (.inr t) })
  else some (false, sched)

/-- `_ipc_list_resume`, with the thread it resumes. -/
def ipcListResume (sched : Scheduler T K) (object : K) : Option (T × Scheduler T K) :=
  match sched.links.next (.inl (.suspend object)) with
  | .inl _ => none
  | .inr t => some (t, sched.threadResume t)

/-- `_thread_timeout`, up to its `rt_schedule`. -/
def threadTimeout (sched : Scheduler T K) (t : T) : Option (Scheduler T K) :=
  if (sched.thread t).suspended then
    some (scheduleInsertThread { sched with links := sched.links.remove (.inr t) } t)
  else none

/-!
## Runs
-/

/-- What the threads and the interrupts do between two calls of `rt_schedule`, and these calls.
`wait` is a call of `_ipc_list_suspend` by the running thread. -/
inductive Act (T K : Type) where
  | startup (t : T)
  | start
  | schedule
  | yield
  | tick
  | suspend (flag : SuspendFlag)
  | wait (object : K) (flag : IpcFlag) (suspendFlag : SuspendFlag) (turns : Nat)
  | wake (object : K)
  | resume (t : T)
  | timeout (t : T)
  | detach (t : T)
  | exit
  | reap
  | changePriority (t : T) (priority : Priority)
  | enterCritical
  | exitCritical

/-- Nothing when the act cannot be: the kernel is not started, or started twice; a thread waits
that does not run; an assertion fails. -/
def step (sched : Scheduler T K) : Act T K → Option (Scheduler T K)
  | .startup t => sched.threadStartup t
  | .start => if sched.currentThread = none then sched.schedulerStart else none
  | .schedule => sched.currentThread.bind fun _ => sched.schedule
  | .yield => sched.threadYield
  | .tick => sched.tickIncrease
  | .suspend flag => sched.currentThread.bind fun t => (sched.threadSuspend t flag).map Prod.snd
  | .wait object flag suspendFlag turns =>
      sched.currentThread.bind fun t =>
        if (sched.thread t).state = threadRunning then
          (sched.ipcListSuspend object t flag suspendFlag turns).map Prod.snd
        else none
  | .wake object => (sched.ipcListResume object).map Prod.snd
  | .resume t => some (sched.threadResume t)
  | .timeout t => sched.threadTimeout t
  | .detach t => some (sched.threadDetach t)
  | .exit => sched.threadExit
  | .reap => some sched.threadDefunctDequeue.2
  | .changePriority t priority => some (sched.threadChangePriority t priority)
  | .enterCritical => some sched.enterCritical
  | .exitCritical => sched.exitCritical

def run : List (Act T K) → Scheduler T K → Option (Scheduler T K)
  | [], sched => some sched
  | act :: acts, sched => (sched.step act).bind (run acts)

end Scheduler

end Ysyx.RtThread
