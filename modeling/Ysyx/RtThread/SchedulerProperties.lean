import Mathlib.Order.Fin.Basic
import Ysyx.RtThread.SchedulerLists

/-! The ready lists, the group and the states of the threads agree in every run, and
`rt_schedule` leaves no ready thread above the running one. -/

set_option autoImplicit false

namespace Ysyx.RtThread

open Lib

namespace Scheduler

variable {T K : Type} {sched : Scheduler T K} {queue : Head K → List T} {t : T} {loose : Option T}

/-!
## The current thread
-/

/-- A scheduler between two calls. -/
structure Valid (sched : Scheduler T K) (queue : Head K → List T) : Prop where
  filed : sched.Filed queue none
  running : ∀ {t}, (sched.thread t).state = threadRunning → sched.currentThread = some t
  current : ∀ {t}, sched.currentThread = some t →
    (sched.thread t).state ≠ threadReady ∧ (sched.thread t).state ≠ threadInit

/-- The thread is on the ready list of its priority, or it is the one that runs. -/
def Runnable (sched : Scheduler T K) (queue : Head K → List T) (t : T) : Prop :=
  (sched.thread t).state = threadReady ∧ t ∈ queue (.ready (sched.thread t).currentPriority) ∨
    (sched.thread t).state = threadRunning ∧ sched.currentThread = some t

theorem Valid.runnable (valid : sched.Valid queue) (awake : (sched.thread t).awake) :
    sched.Runnable queue t :=
  awake.imp
    (fun ready => ⟨ready, (valid.filed.ready (Option.some_ne_none t) _).mpr ⟨ready, rfl⟩⟩)
    fun running => ⟨running, valid.running running⟩

/-!
## `rt_schedule`
-/

/-- The running thread keeps the processor from the ready ones. -/
def Keeps (thread : Thread) (highest : Priority) : Prop :=
  thread.state = threadRunning ∧ (thread.currentPriority < highest ∨
    thread.currentPriority = highest ∧ ¬ thread.yields)

instance (thread : Thread) (highest : Priority) : Decidable (Keeps thread highest) :=
  inferInstanceAs (Decidable (_ ∧ _))

theorem chooseThread_eq (current : T) (thread : Thread) (highest : Priority) (first : T) :
    chooseThread current thread highest first =
      if Keeps thread highest then (current, false)
      else (first, decide (thread.state = threadRunning)) := by
  rw [chooseThread]
  by_cases running : thread.state = threadRunning
  · by_cases above : thread.currentPriority < highest
    · simp [Keeps, running, above]
    · by_cases equal : thread.currentPriority = highest ∧ ¬ thread.yields
      · simp [Keeps, running, equal]
      · simp [Keeps, running, above, equal]
  · simp [Keeps, running]

section Schedule

variable [DecidableEq T] {c first : T} {highest : Priority} {rest : List T}

/-- A running thread without the request to yield. -/
def rested (thread : Thread) : Thread :=
  if thread.state = threadRunning then thread.setStat (thread.stat &&& ~~~threadStatYield)
  else thread

theorem rested_state (thread : Thread) : (rested thread).state = thread.state := by
  rw [rested]
  split
  · ext i bound
    simp only [Thread.state, Thread.setStat, BitVec.getElem_and, BitVec.getElem_not]
    have apart : threadStatYield &&& threadStatMask = 0#8 := rfl
    have here : (threadStatYield &&& threadStatMask)[i] = false := by simp [apart]
    rw [BitVec.getElem_and] at here
    revert here
    cases threadStatYield[i] <;> cases threadStatMask[i] <;> simp
  · rfl

theorem rested_yields {thread : Thread} (running : thread.state = threadRunning) :
    ¬ (rested thread).yields := by
  rw [rested, if_pos running, Thread.yields, not_not]
  ext i bound
  simp only [Thread.setStat, BitVec.getElem_and, BitVec.getElem_not, BitVec.getElem_zero]
  cases threadStatYield[i] <;> simp

@[simp] theorem rested_priority (thread : Thread) :
    (rested thread).currentPriority = thread.currentPriority := by
  rw [rested]
  split <;> rfl

@[simp] theorem rested_mask (thread : Thread) :
    (rested thread).numberMask = thread.numberMask := by
  rw [rested]
  split <;> rfl

theorem setThread_rested (sched : Scheduler T K) (c : T) :
    (if (sched.thread c).state = threadRunning then
      sched.setThread c ((sched.thread c).setStat ((sched.thread c).stat &&& ~~~threadStatYield))
    else sched) = sched.setThread c (rested (sched.thread c)) := by
  rw [rested]
  split
  · rfl
  · rw [setThread, Function.update_eq_self]

theorem Filed.rested (filed : sched.Filed queue none) (c : T) :
    (sched.setThread c (rested (sched.thread c))).Filed queue none := by
  by_cases running : (sched.thread c).state = threadRunning
  · refine ((filed.loosen (filed.not_mem_of_running running)).setThread _).settle ?_ (.inl ?_)
    · rw [setThread_self, rested_state, running]
      decide
    · rw [setThread_self, rested_mask, rested_priority]
      exact filed.mask_of_state running (by decide) (by decide)
  · rwa [Scheduler.rested, if_neg running, Scheduler.setThread, Function.update_eq_self]

variable [DecidableEq K]

/-- The lists after a switch from `c` to `first`. -/
def requeued (queue : Head K → List T) (c first : T) (priority : Priority) (needInsert : Bool) :
    Head K → List T := fun h =>
  (if needInsert then Function.update queue (.ready priority) (c :: queue (.ready priority))
    else queue) h |>.erase first

/-- A thread leaves its list and runs. -/
theorem Filed.take (filed : sched.Filed queue none)
    (mask : (sched.thread t).numberMask = 1#32 <<< (sched.thread t).currentPriority.val) :
    ((sched.scheduleRemoveThread t).setThread t ((sched.thread t).setState threadRunning)).Filed
      (fun h => (queue h).erase t) none := by
  refine ((filed.remove t).setThread _).settle ?_ ?_
  · rw [setThread_self, Thread.setState_state _ _ rfl]
    decide
  · rw [setThread_self]
    exact .inl mask

theorem switchTo_stay (filed : sched.Filed queue none)
    (running : (sched.thread c).state = threadRunning) :
    (sched.switchTo c c false).Filed queue none := by
  have taken := filed.take (filed.mask_of_state running (by decide) (by decide))
  have same : (fun h => (queue h).erase c) = queue :=
    funext fun h => List.erase_of_not_mem (filed.not_mem_of_running running h)
  rw [same] at taken
  rw [switchTo, if_pos rfl]
  exact taken

theorem switchTo_other (needInsert : Bool) (filed : sched.Filed queue none)
    (ready : (sched.thread first).state = threadReady) (other : first ≠ c)
    (running : needInsert = true →
      (sched.thread c).state = threadRunning ∧ ¬ (sched.thread c).yields) :
    (sched.switchTo c first needInsert).Filed
      (requeued queue c first (sched.thread c).currentPriority needInsert) none := by
  have firstMask := filed.mask_of_state ready (by decide) (by decide)
  rw [switchTo, if_neg other]
  cases needInsert with
  | false => exact (filed.setCurrent (some first)).take firstMask
  | true =>
      obtain ⟨runs, rested⟩ := running rfl
      have mask := filed.mask_of_state runs (by decide) (by decide)
      have apart : some first ≠ some c := fun same => other (Option.some.inj same)
      have back := ((filed.setCurrent (some first)).loosen
        (filed.not_mem_of_running runs)).insert apart mask
      have same : (({ sched with currentThread := some first }.scheduleInsertThread c).thread
          first) = sched.thread first := by
        rw [scheduleInsertThread, if_neg apart]
        exact setThread_of_ne sched other _
      rw [← same] at firstMask
      have taken := back.take firstMask
      rw [inserted, if_neg rested] at taken
      exact taken

theorem insertThread_frame (sched : Scheduler T K) {t : T} {touched : List T}
    (member : t ∈ touched) : Frame sched (sched.scheduleInsertThread t) touched := by
  have frame (state : BitVec 8) :=
    setThread_frame sched ((sched.thread t).setState state) rfl member
  rw [scheduleInsertThread]
  split
  · exact frame threadRunning
  · exact ⟨rfl, (frame threadReady).priority, (frame threadReady).other⟩

theorem switchTo_frame (sched : Scheduler T K) (c to_ : T) (needInsert : Bool)
    {touched : List T} (member : to_ ∈ touched) (back : needInsert = true → c ∈ touched) :
    Frame sched (sched.switchTo c to_ needInsert) touched := by
  have last (sched : Scheduler T K) :
      Frame sched ((sched.scheduleRemoveThread to_).setThread to_
        ((sched.thread to_).setState threadRunning)) touched :=
    have frame := setThread_frame (sched.scheduleRemoveThread to_)
      ((sched.thread to_).setState threadRunning) rfl member
    ⟨rfl, frame.priority, frame.other⟩
  rw [switchTo]
  split
  · exact last sched
  · split
    · next inserts =>
        have frame := insertThread_frame { sched with currentThread := some to_ } (back inserts)
        exact Frame.trans ⟨frame.lockNest, frame.priority, frame.other⟩ (last _)
    · have frame := last { sched with currentThread := some to_ }
      exact ⟨frame.lockNest, frame.priority, frame.other⟩

theorem switchTo_state (sched : Scheduler T K) (c to_ : T) (needInsert : Bool) :
    ((sched.switchTo c to_ needInsert).thread to_).state = threadRunning := by
  rw [switchTo, setThread_self, Thread.setState_state _ _ rfl]

theorem switchTo_current (sched : Scheduler T K) {c : T} (to_ : T) (needInsert : Bool)
    (current : sched.currentThread = some c) :
    (sched.switchTo c to_ needInsert).currentThread = some to_ := by
  rw [switchTo, setThread_current, remove_current]
  split
  · next same => rw [same, current]
  · split
    · exact scheduleInsertThread_current _ c
    · rfl

/-- The first ready list that is not empty. -/
structure Top (queue : Head K → List T) (highest : Priority) (first : T) (rest : List T) :
    Prop where
  listed : queue (.ready highest) = first :: rest
  above : ∀ p < highest, queue (.ready p) = []

/-- What a call of `rt_schedule` by the current thread `c` comes to. -/
inductive Scheduled (sched : Scheduler T K) (queue : Head K → List T) (c : T) :
    Scheduler T K → (Head K → List T) → Prop
  | none : (sched.lockNest ≠ 0#16 ∨ ∀ p, queue (.ready p) = []) →
      Scheduled sched queue c sched queue
  | stay {sched' highest first rest} :
      Top queue highest first rest → Keeps (sched.thread c) highest →
      sched'.currentThread = some c → (sched'.thread c).state = threadRunning →
      Frame sched sched' [c] → Scheduled sched queue c sched' queue
  | switch {sched' highest first rest} :
      sched.lockNest = 0#16 → Top queue highest first rest → ¬ Keeps (sched.thread c) highest →
      first ≠ c →
      sched'.currentThread = some first → (sched'.thread first).state = threadRunning →
      Frame sched sched' [c, first] →
      Scheduled sched queue c sched' (requeued queue c first (sched.thread c).currentPriority
        (decide ((sched.thread c).state = threadRunning)))

theorem Valid.schedule (valid : sched.Valid queue) (current : sched.currentThread = some c) :
    ∃ sched' queue', sched.schedule = some sched' ∧ sched'.Valid queue' ∧
      Scheduled sched queue c sched' queue' := by
  rw [Scheduler.schedule]
  by_cases closed : sched.lockNest = 0#16 ∧ sched.readyPriorityGroup ≠ 0#32
  swap
  · refine ⟨sched, queue, if_neg closed, valid, .none ?_⟩
    rcases not_and_or.mp closed with locked | idle
    · exact .inl locked
    · refine .inr fun p => ?_
      have clear := valid.filed.group p
      rw [not_not.mp idle] at clear
      simpa using clear
  obtain ⟨unlocked, some_⟩ := closed
  obtain ⟨highest, first, rest, found, listed, above⟩ := valid.filed.highest some_
  have ready := ((valid.filed.ready (Option.some_ne_none first) highest).mp
    (listed ▸ List.mem_cons_self)).1
  have other : first ≠ c := by
    rintro rfl
    exact (valid.current current).1 ready
  have restedFiled := valid.filed.rested c
  have restedFrame {touched : List T} (member : c ∈ touched) :
      Frame sched (sched.setThread c (rested (sched.thread c))) touched :=
    setThread_frame sched _ (rested_priority _) member
  have elsewhere {t : T} (running : (sched.thread t).state = threadRunning) : t = c :=
    Option.some.inj ((valid.running running).symm.trans current)
  rw [if_pos ⟨unlocked, some_⟩, found, current]
  simp only [Option.bind_eq_bind, Option.bind_some, setThread_rested, chooseThread_eq]
  by_cases keeps : Keeps (sched.thread c) highest
  · rw [if_pos keeps]
    have frame := (restedFrame (List.mem_singleton_self c)).trans
      (switchTo_frame _ c c false (List.mem_singleton_self c) (by simp))
    have state := switchTo_state (sched.setThread c (rested (sched.thread c))) c c false
    have runs := switchTo_current (sched.setThread c (rested (sched.thread c))) c false current
    refine ⟨_, queue, rfl, ⟨?_, ?_, ?_⟩, .stay ⟨listed, above⟩ keeps runs state frame⟩
    · refine switchTo_stay (valid.filed.rested c) ?_
      rw [setThread_self, rested_state, keeps.1]
    · intro t running
      by_cases same : t = c
      · rw [same, runs]
      · rw [frame.other t ((mt List.mem_singleton.mp same))] at running
        exact absurd (elsewhere running) same
    · intro t now
      obtain rfl := Option.some.inj (runs.symm.trans now)
      rw [state]
      decide
  · rw [if_neg keeps]
    dsimp only
    generalize needEq : decide ((sched.thread c).state = threadRunning) = needInsert
    have needs : needInsert = true → (sched.thread c).state = threadRunning := by
      rw [← needEq, decide_eq_true_iff]
      exact id
    have frame : Frame sched _ [c, first] := (restedFrame (by simp)).trans
      (switchTo_frame _ c first needInsert (by simp) (by simp))
    have state := switchTo_state (sched.setThread c (rested (sched.thread c))) c first needInsert
    have runs := switchTo_current (sched.setThread c (rested (sched.thread c))) first needInsert
      current
    have filed := switchTo_other needInsert (valid.filed.rested c)
      (by rwa [setThread_of_ne sched other]) other fun inserts => by
        rw [setThread_self, rested_state]
        exact ⟨needs inserts, rested_yields (needs inserts)⟩
    rw [setThread_self, rested_priority] at filed
    have switched := Scheduled.switch unlocked ⟨listed, above⟩ keeps other runs state frame
    rw [needEq] at switched
    refine ⟨_, _, rfl, ⟨filed, ?_, ?_⟩, switched⟩
    · intro t running
      rcases eq_or_ne t first with rfl | different
      · exact runs
      exfalso
      rcases eq_or_ne t c with rfl | apart
      · cases needInsert with
        | true =>
            have member : t ∈ requeued queue t first (sched.thread t).currentPriority true
                (.ready (sched.thread t).currentPriority) := by
              simp [requeued, List.mem_erase_of_ne different]
            have readied := ((filed.ready (Option.some_ne_none t) _).mp member).1
            exact absurd (running.symm.trans readied) (by decide)
        | false =>
            have kept := (switchTo_frame (sched.setThread t (rested (sched.thread t))) t first
              false (List.mem_singleton_self first) (by simp)).other t
              (mt List.mem_singleton.mp different)
            rw [kept, setThread_self, rested_state] at running
            exact absurd running (of_decide_eq_false needEq)
      · rw [frame.other t (by simp [different, apart])] at running
        exact apart (elsewhere running)
    · intro t now
      obtain rfl := Option.some.inj (runs.symm.trans now)
      rw [state]
      decide

variable {sched' : Scheduler T K} {queue' : Head K → List T}

/-- `rt_schedule` leaves the suspend lists alone. -/
theorem Scheduled.suspended (scheduled : Scheduled sched queue c sched' queue')
    (valid : sched.Valid queue) (k : K) : queue' (.suspend k) = queue (.suspend k) := by
  cases scheduled with
  | none => rfl
  | stay => rfl
  | @switch _ _ first _ _ top =>
      have ready : first ∈ queue (.ready _) := top.1 ▸ List.mem_cons_self
      have away : first ∉ queue (.suspend k) := fun there =>
        nomatch valid.filed.lists.one there ready
      have elsewhere (queue' : List T) (p : Priority) :
          Function.update queue (.ready p) queue' (.suspend k) = queue (.suspend k) := by
        have apart : (.suspend k : Head K) ≠ .ready p := nofun
        exact Function.update_of_ne apart _ _
      simp only [requeued]
      split
      · rw [elsewhere, List.erase_of_not_mem away]
      · exact List.erase_of_not_mem away

/-- Who is displaced is ready. -/
theorem Scheduled.awake (scheduled : Scheduled sched queue c sched' queue')
    (valid : sched.Valid queue) (valid' : sched'.Valid queue')
    (current : sched.currentThread = some c) (awake : (sched.thread t).awake) :
    (sched'.thread t).awake := by
  cases scheduled with
  | none => exact awake
  | stay _ _ _ running frame =>
      rcases eq_or_ne t c with rfl | other
      · exact .inr running
      · rwa [frame.other t (mt List.mem_singleton.mp other)]
  | @switch _ _ first _ _ _ _ _ _ running frame =>
      rcases eq_or_ne t first with rfl | different
      · exact .inr running
      rcases eq_or_ne t c with rfl | apart
      · have runs := awake.resolve_left (valid.current current).1
        refine .inl ((valid'.filed.ready (Option.some_ne_none t)
          (sched.thread t).currentPriority).mp ?_).1
        simp [requeued, List.mem_erase_of_ne different, runs]
      · rwa [frame.other t (by simp [different, apart])]

end Schedule

/-!
## Waiting threads
-/

/-- What becomes of the threads on the suspend lists: each one stays, is awake, or is one that
`ends` and is closed. Only those come that `joins`. -/
structure Accounted (sched' : Scheduler T K) (queue queue' : Head K → List T) (ends : T → Prop)
    (joins : T → K → Prop) : Prop where
  leaves : ∀ k, ∀ t ∈ queue (.suspend k), t ∈ queue' (.suspend k) ∨ (sched'.thread t).awake ∨
    ends t ∧ (sched'.thread t).state = threadClose
  comes : ∀ k, ∀ t ∈ queue' (.suspend k), t ∈ queue (.suspend k) ∨ joins t k

section Waiting

variable {sched' : Scheduler T K} {queue' : Head K → List T} {ends : T → Prop}
  {joins : T → K → Prop}

theorem accounted_of_eq (same : ∀ k, queue' (.suspend k) = queue (.suspend k)) :
    sched'.Accounted queue queue' ends joins where
  leaves k t member := .inl (by rwa [same k])
  comes k t member := .inl (by rwa [same k] at member)

/-- One thread leaves the lists. -/
theorem accounted_of_erase [DecidableEq T]
    (erased : ∀ k, queue' (.suspend k) = (queue (.suspend k)).erase t)
    (fate : ∀ k, t ∈ queue (.suspend k) → (sched'.thread t).awake ∨
      ends t ∧ (sched'.thread t).state = threadClose) :
    sched'.Accounted queue queue' ends joins where
  leaves k u member := by
    rcases eq_or_ne u t with rfl | other
    · exact .inr (fate k member)
    · exact .inl (by rwa [erased, List.mem_erase_of_ne other])
  comes k u member := by
    rw [erased] at member
    exact .inl (List.mem_of_mem_erase member)

/-- A thread that does not wait leaves its list. -/
theorem Filed.accounted_of_erase [DecidableEq T] (filed : sched.Filed queue none)
    (erased : ∀ k, queue' (.suspend k) = (queue (.suspend k)).erase t)
    (awake : ¬ (sched.thread t).suspended) : sched'.Accounted queue queue' ends joins :=
  Scheduler.accounted_of_erase erased fun _ member => absurd (filed.suspended member) awake

/-- One call after another, neither of which ends a thread. -/
theorem Accounted.trans {sched₁ : Scheduler T K} {queue₁ : Head K → List T}
    (first : sched₁.Accounted queue queue₁ (fun _ => False) joins)
    (second : sched'.Accounted queue₁ queue' (fun _ => False) joins)
    (awake : ∀ t, (sched₁.thread t).awake → (sched'.thread t).awake) :
    sched'.Accounted queue queue' ends joins where
  leaves k t member := by
    rcases first.leaves k t member with stays | woken | ⟨not_, _⟩
    · exact (second.leaves k t stays).imp_right fun fate => fate.imp_right fun ended => ended.1.elim
    · exact .inr (.inl (awake t woken))
    · exact not_.elim
  comes k t member := (second.comes k t member).elim (first.comes k t) .inr

end Waiting

/-- The thread that an act closes. -/
def Act.ends (sched : Scheduler T K) : Act T K → T → Prop
  | .detach t, u => u = t
  | .exit, u => sched.currentThread = some u
  | _, _ => False

/-- The thread that an act puts on a suspend list. -/
def Act.joins (sched : Scheduler T K) : Act T K → T → K → Prop
  | .wait object _ _ _, u, k => sched.currentThread = some u ∧ k = object
  | _, _, _ => False

/-!
## The other calls
-/

/-- One thread changes, and where it is on the lists. -/
theorem Valid.change (valid : sched.Valid queue) {sched' : Scheduler T K}
    {queue' : Head K → List T} (t : T) (filed : sched'.Filed queue' none)
    (same : sched'.currentThread = sched.currentThread)
    (other : ∀ u, u ≠ t → sched'.thread u = sched.thread u)
    (current : sched.currentThread = some t →
      (sched'.thread t).state ≠ threadReady ∧ (sched'.thread t).state ≠ threadInit)
    (notCurrent : sched.currentThread ≠ some t → (sched'.thread t).state ≠ threadRunning) :
    sched'.Valid queue' where
  filed := filed
  running {u} running := by
    rw [same]
    by_cases is : u = t
    · subst is
      exact by_contra fun not_ => notCurrent not_ running
    · rw [other u is] at running
      exact valid.running running
  current {u} now := by
    rw [same] at now
    by_cases is : u = t
    · subst is
      exact current now
    · rw [other u is]
      exact valid.current now

theorem Valid.relink (valid : sched.Valid queue) {links : Links (Head K ⊕ T)}
    {queue' : Head K → List T} (filed : { sched with links := links }.Filed queue' none) :
    { sched with links := links }.Valid queue' :=
  ⟨filed, valid.running, valid.current⟩

variable {object : K} {priority : Priority}

/-- The position is in front of the first thread of less priority. -/
theorem Filed.findPosition [DecidableEq K] (filed : sched.Filed queue none) {turns : Nat}
    {before rest : List T}
    {position : Head K ⊕ T} (split : queue (.suspend object) = before ++ rest)
    (found : sched.findPosition object priority turns (Links.Lists.start (.suspend object) rest) =
      some position) :
    ∃ passed after, rest = passed ++ after ∧
      position = Links.Lists.start (.suspend object) after ∧
      (∀ u ∈ passed, (sched.thread u).currentPriority ≤ priority) ∧
      ∀ u ∈ after.head?, priority < (sched.thread u).currentPriority := by
  induction turns generalizing before rest with
  | zero => cases found
  | succ turns ih =>
      cases rest with
      | nil =>
          rw [Links.Lists.start, Scheduler.findPosition, if_pos rfl] at found
          exact ⟨[], [], rfl, (Option.some.inj found).symm, by simp, by simp⟩
      | cons u rest =>
          rw [Links.Lists.start, Scheduler.findPosition] at found
          split at found
          · next less =>
              refine ⟨[], u :: rest, rfl, (Option.some.inj found).symm, by simp, ?_⟩
              intro v first
              obtain rfl := Option.some.inj first
              exact less
          · next more =>
              rw [filed.lists.next_mem split] at found
              obtain ⟨passed, after, joined, place, above, below⟩ :=
                ih (split.trans (List.append_cons before u rest)) found
              refine ⟨u :: passed, after, by rw [joined]; rfl, place, ?_, below⟩
              intro v member
              rcases List.mem_cons.mp member with rfl | later
              · exact Fin.not_lt.mp more
              · exact above v later

/-- One turn for each thread of the list and one for the head suffice. -/
theorem Filed.exists_findPosition [DecidableEq K] (filed : sched.Filed queue none) {turns : Nat}
    {before rest : List T} (split : queue (.suspend object) = before ++ rest)
    (enough : rest.length < turns) (priority : Priority) :
    ∃ position, sched.findPosition object priority turns
      (Links.Lists.start (.suspend object) rest) = some position := by
  induction rest generalizing before turns with
  | nil =>
      obtain ⟨turns, rfl⟩ := Nat.exists_eq_succ_of_ne_zero (Nat.ne_zero_of_lt enough)
      exact ⟨_, if_pos rfl⟩
  | cons u rest ih =>
      obtain ⟨turns, rfl⟩ := Nat.exists_eq_succ_of_ne_zero (Nat.ne_zero_of_lt enough)
      rw [Links.Lists.start, Scheduler.findPosition]
      split
      · exact ⟨_, rfl⟩
      · rw [filed.lists.next_mem split]
        exact ih (split.trans (List.append_cons before u rest)) (Nat.lt_of_succ_lt_succ enough)

theorem Valid.setLockNest (valid : sched.Valid queue) (lockNest : BitVec 16) :
    { sched with lockNest := lockNest }.Valid queue :=
  ⟨valid.filed.setLockNest lockNest, valid.running, valid.current⟩

/-- Before the scheduler starts. -/
theorem valid_init (thread : T → Priority × UBase) :
    (Scheduler.init thread : Scheduler T K).Valid fun _ => [] where
  filed :=
    { lists := Links.Lists.init _ _
      group := fun p => by simp [Scheduler.init]
      ready := fun _ p => by
        refine iff_of_false List.not_mem_nil fun ready => ?_
        exact absurd ready.1 (by decide : threadInit &&& threadStatMask ≠ threadReady)
      suspended := fun member => absurd member List.not_mem_nil
      defunct := fun member => absurd member List.not_mem_nil
      mask := fun _ => .inr ⟨rfl, .inl (by decide : threadInit &&& threadStatMask = threadInit)⟩
      loose := fun same => by cases same }
  running running :=
    absurd running (by decide : threadInit &&& threadStatMask ≠ threadRunning)
  current now := by cases now

section Calls

variable [DecidableEq T] {c : T} {sched' : Scheduler T K} {queue' : Head K → List T}
  {ends : T → Prop} {joins : T → K → Prop}

/-- A thread that keeps its status changes. -/
theorem Valid.update (valid : sched.Valid queue) {thread : Thread}
    (state : thread.state = (sched.thread t).state)
    (priority : (sched.thread t).state = threadReady →
      thread.currentPriority = (sched.thread t).currentPriority) (mask : thread.Masked) :
    (sched.setThread t thread).Valid queue := by
  refine valid.change t (valid.filed.update state priority mask) rfl
    (fun u other => setThread_of_ne sched other thread) ?_ ?_
  · intro now
    rw [setThread_self, state]
    exact valid.current now
  · intro not_ running
    rw [setThread_self, state] at running
    exact not_ (valid.running running)

/-- The running thread asks to yield, or its slice goes on. -/
theorem Valid.setTicks (valid : sched.Valid queue) (t : T) (remainingTick : UBase)
    {stat : BitVec 8} (same : stat &&& threadStatMask = (sched.thread t).state) :
    (sched.setThread t
      { sched.thread t with remainingTick := remainingTick, stat := stat }).Valid queue := by
  refine valid.update same (fun _ => rfl) ?_
  have mask := valid.filed.mask (Option.some_ne_none t)
  rw [Thread.Masked] at mask ⊢
  rwa [Thread.state, same]

theorem Valid.threadYield (valid : sched.Valid queue) {sched' : Scheduler T K}
    (yields : sched.threadYield = some sched') : sched'.Valid queue := by
  obtain ⟨t, _, rfl⟩ := Option.map_eq_some_iff.mp yields
  exact valid.setTicks t _ (Thread.stat_yield _)

variable [DecidableEq K]

/-- `rt_schedule` neither wakes nor stops a thread. -/
theorem Valid.reschedule (valid : sched.Valid queue) (current : sched.currentThread = some c) :
    ∃ sched' queue', sched.schedule = some sched' ∧ sched'.Valid queue' ∧
      (∀ k, queue' (.suspend k) = queue (.suspend k)) ∧
      ∀ t, (sched.thread t).awake → (sched'.thread t).awake := by
  obtain ⟨sched', queue', scheduled, valid', moves⟩ := valid.schedule current
  exact ⟨sched', queue', scheduled, valid', moves.suspended valid,
    fun _ awake => moves.awake valid valid' current awake⟩

theorem Valid.schedule_accounted (valid : sched.Valid queue) {sched' : Scheduler T K}
    (current : sched.currentThread = some c) (scheduled : sched.schedule = some sched') :
    ∃ queue', sched'.Valid queue' ∧ sched'.Accounted queue queue' ends joins := by
  obtain ⟨_, queue', found, valid', same, _⟩ := valid.reschedule current
  obtain rfl := Option.some.inj (found.symm.trans scheduled)
  exact ⟨queue', valid', accounted_of_eq same⟩

theorem Valid.tickIncrease (valid : sched.Valid queue) {sched' : Scheduler T K}
    (tick : sched.tickIncrease = some sched') :
    ∃ queue', sched'.Valid queue' ∧ sched'.Accounted queue queue' ends joins := by
  obtain ⟨t, current, ticked⟩ := Option.bind_eq_some_iff.mp tick
  dsimp only at ticked
  split at ticked
  · have marked := valid.setTicks t (sched.thread t).initTick
      (Thread.stat_yield (sched.thread t))
    exact marked.schedule_accounted (c := t) current ticked
  · obtain rfl := Option.some.inj ticked
    exact ⟨queue, valid.setTicks t _ rfl, accounted_of_eq fun _ => rfl⟩

/-- A suspended thread leaves its list and becomes ready, or runs on. -/
theorem Valid.wakeUp (valid : sched.Valid queue) (suspended : (sched.thread t).suspended) :
    ∃ queue', (scheduleInsertThread
      { sched with links := sched.links.remove (.inr t) } t).Valid queue' ∧
      (∀ k, queue' (.suspend k) = (queue (.suspend k)).erase t) ∧
      ((scheduleInsertThread
        { sched with links := sched.links.remove (.inr t) } t).thread t).awake := by
  have filed := valid.filed.unhang (Thread.state_ne_of_suspended suspended rfl)
  have mask := valid.filed.mask_of_suspended suspended
  have state := scheduleInsertThread_self { sched with links := sched.links.remove (.inr t) } t
  have others (u : T) (other : u ≠ t) :=
    scheduleInsertThread_other { sched with links := sched.links.remove (.inr t) } other
  have current := scheduleInsertThread_current
    { sched with links := sched.links.remove (.inr t) } t
  by_cases now : sched.currentThread = some t
  · refine ⟨fun h => (queue h).erase t, valid.change t ?_ current others (fun _ => ?_)
      fun not_ => absurd now not_, fun k => rfl, .inr ?_⟩
    · rw [scheduleInsertThread, if_pos now]
      refine (filed.setThread _).settle ?_ (.inl ?_)
      · rw [setThread_self, Thread.setState_state _ _ rfl]
        decide
      · rw [setThread_self]
        exact mask
    · rw [state, if_pos now, Thread.setState_state _ _ rfl]
      decide
    · rw [state, if_pos now, Thread.setState_state _ _ rfl]
  · refine ⟨_, valid.change t (filed.insert now mask) current others
      (fun is => absurd is now) (fun _ => ?_), fun k => ?_, .inl ?_⟩
    · rw [state, if_neg now, Thread.setState_state _ _ rfl]
      decide
    · rw [Function.update_of_ne (by simp)]
    · rw [state, if_neg now, Thread.setState_state _ _ rfl]

theorem Valid.threadResume (valid : sched.Valid queue) (t : T) :
    ∃ queue', (sched.threadResume t).Valid queue' ∧
      (sched.threadResume t).Accounted queue queue' ends joins := by
  rw [Scheduler.threadResume]
  split
  · next suspended =>
      obtain ⟨queue', valid', erased, awake⟩ := valid.wakeUp suspended
      exact ⟨queue', valid', accounted_of_erase erased fun _ _ => .inl awake⟩
  · exact ⟨queue, valid, accounted_of_eq fun _ => rfl⟩

theorem Valid.threadTimeout (valid : sched.Valid queue) {sched' : Scheduler T K}
    (timeout : sched.threadTimeout t = some sched') :
    ∃ queue', sched'.Valid queue' ∧ sched'.Accounted queue queue' ends joins := by
  rw [Scheduler.threadTimeout] at timeout
  split at timeout
  · next suspended =>
      obtain rfl := Option.some.inj timeout
      obtain ⟨queue', valid', erased, awake⟩ := valid.wakeUp suspended
      exact ⟨queue', valid', accounted_of_erase erased fun _ _ => .inl awake⟩
  · cases timeout

theorem Valid.ipcListResume (valid : sched.Valid queue) {object : K} {resumed : T × Scheduler T K}
    (resume : sched.ipcListResume object = some resumed) :
    ∃ queue', resumed.2.Valid queue' ∧ resumed.2.Accounted queue queue' ends joins := by
  rw [Scheduler.ipcListResume] at resume
  split at resume
  · cases resume
  · exact Option.some.inj resume ▸ valid.threadResume _

theorem Valid.threadStartup (valid : sched.Valid queue) {sched' : Scheduler T K}
    (startup : sched.threadStartup t = some sched') :
    ∃ queue', sched'.Valid queue' ∧ sched'.Accounted queue queue' ends joins := by
  rw [Scheduler.threadStartup] at startup
  dsimp only at startup
  split at startup
  · next fresh =>
      obtain rfl := Option.some.inj startup
      have suspended : (sched.setThread t (((sched.thread t).setPriority
          (sched.thread t).currentPriority).setStat SuspendFlag.interruptible.stat)).Valid
          queue := by
        refine valid.change t ?_ rfl (fun u other => setThread_of_ne sched other _) ?_ ?_
        · refine ((valid.filed.loosen (valid.filed.not_mem_of_init fresh)).setThread _).settle
            ?_ (.inl ?_)
          · rw [setThread_self]
            exact (by decide : SuspendFlag.interruptible.stat &&& threadStatMask ≠ threadReady)
          · rw [setThread_self]
            rfl
        · exact fun now => absurd fresh (valid.current now).2
        · intro _
          rw [setThread_self]
          exact (by decide : SuspendFlag.interruptible.stat &&& threadStatMask ≠ threadRunning)
      exact suspended.threadResume t
  · cases startup

/-- The thread leaves its list for a status in which it is on no ready list. -/
theorem Valid.leave (valid : sched.Valid queue) {thread : Thread}
    (notReady : thread.state ≠ threadReady) (notInit : thread.state ≠ threadInit)
    (notRunning : thread.state ≠ threadRunning) (mask : thread.Masked) :
    ((sched.scheduleRemoveThread t).setThread t thread).Valid fun h => (queue h).erase t := by
  refine valid.change t (((valid.filed.remove t).setThread thread).settle ?_ ?_) rfl
    (fun u other => setThread_of_ne _ other thread) (fun _ => ?_) fun _ => ?_
  · rwa [setThread_self]
  · rwa [setThread_self]
  · rw [setThread_self]
    exact ⟨notReady, notInit⟩
  · rwa [setThread_self]

/-- A running thread is on no list, suspended or not. -/
theorem Valid.threadSuspend (valid : sched.Valid queue) {flag : SuspendFlag}
    {suspended : Bool × Scheduler T K} (suspend : sched.threadSuspend t flag = some suspended) :
    suspended.2.Valid queue ∧
      (suspended.1 = true → (suspended.2.thread t).state = flag.stat ∧ ∀ h, t ∉ queue h) := by
  rw [Scheduler.threadSuspend] at suspend
  dsimp only at suspend
  split at suspend
  · cases suspend
  split at suspend
  · obtain rfl := Option.some.inj suspend
    exact ⟨valid, fun ok => by cases ok⟩
  · next current status =>
      obtain rfl := Option.some.inj suspend
      have notReady := (valid.current (not_not.mp current)).1
      have running := not_not.mp fun not_ => status ⟨notReady, not_⟩
      have absent := valid.filed.not_mem_of_running running
      have erased : (fun h => (queue h).erase t) = queue :=
        funext fun h => List.erase_of_not_mem (absent h)
      obtain ⟨ready, fresh, runs⟩ := flag.stat_ne
      have left : ((sched.scheduleRemoveThread t).setThread t
          ((sched.thread t).setState flag.stat)).Valid queue := by
        rw [← erased]
        refine valid.leave ?_ ?_ ?_ (.inl (valid.filed.mask_of_state running (by decide)
          (by decide)))
        · rwa [SuspendFlag.state]
        · rwa [SuspendFlag.state]
        · rwa [SuspendFlag.state]
      refine ⟨left, fun _ => ⟨?_, absent⟩⟩
      rw [remove_thread, setThread_self, SuspendFlag.state]

/-- A thread comes to the suspend list, in front of `after`. -/
theorem Valid.hang (valid : sched.Valid queue) {before after : List T}
    (split : queue (.suspend object) = before ++ after) (absent : ∀ h, t ∉ queue h)
    (suspended : (sched.thread t).suspended) :
    { sched with
      links := sched.links.insertBefore (Links.Lists.start (.suspend object) after)
        (.inr t) }.Valid
      (Function.update queue (.suspend object) (before ++ t :: after)) := by
  refine valid.relink ((valid.filed.loosen absent).hang ?_ ?_ (fun p => by simp)
    (Thread.state_ne_of_suspended suspended rfl) (fun k _ => suspended) (fun not_ => by cases not_)
    (.inl (valid.filed.mask_of_suspended suspended)))
  · cases after with
    | nil =>
        have lists := valid.filed.lists.insertBefore absent (.suspend object)
        rwa [split, List.append_nil] at lists
    | cons u after => exact valid.filed.lists.insertBefore_mem absent split
  · intro u
    rw [split]
    simp only [List.mem_append, List.mem_cons]
    tauto

omit [DecidableEq T] in
theorem accounted_of_hang {before after : List T}
    (split : queue (.suspend object) = before ++ after) :
    sched'.Accounted queue (Function.update queue (.suspend object) (before ++ t :: after)) ends
      fun u k => u = t ∧ k = object where
  leaves k u member := by
    refine .inl ?_
    rcases eq_or_ne (.suspend k : Head K) (.suspend object) with here | apart
    · rw [here, split] at member
      rw [here, Function.update_self]
      simp only [List.mem_append, List.mem_cons] at member ⊢
      tauto
    · rwa [Function.update_of_ne apart]
  comes k u member := by
    rcases eq_or_ne (.suspend k : Head K) (.suspend object) with here | apart
    · rw [here, Function.update_self] at member
      rw [here, split]
      simp only [List.mem_append, List.mem_cons] at member ⊢
      have same := Head.suspend.inj here
      tauto
    · rw [Function.update_of_ne apart] at member
      exact .inl member

theorem Valid.ipcListSuspend (valid : sched.Valid queue) {flag : IpcFlag}
    {suspendFlag : SuspendFlag} {turns : Nat} {suspended : Bool × Scheduler T K}
    (suspend : sched.ipcListSuspend object t flag suspendFlag turns = some suspended) :
    ∃ queue', suspended.2.Valid queue' ∧
      suspended.2.Accounted queue queue' ends (fun u k => u = t ∧ k = object) ∧
      (suspended.1 = true → t ∈ queue' (.suspend object)) := by
  rw [Scheduler.ipcListSuspend] at suspend
  obtain ⟨⟨ok, sched'⟩, first, suspend⟩ := Option.bind_eq_some_iff.mp suspend
  obtain ⟨valid', kept⟩ := valid.threadSuspend first
  dsimp only at suspend valid' kept
  split at suspend
  · next success =>
      obtain ⟨state, absent⟩ := kept success
      have is : (sched'.thread t).suspended := by
        rw [Thread.suspended_iff, state]
        cases suspendFlag <;> rfl
      cases flag with
      | fifo =>
          obtain rfl := Option.some.inj suspend
          have split : queue (.suspend object) = queue (.suspend object) ++ [] :=
            (List.append_nil _).symm
          exact ⟨_, valid'.hang split absent is, accounted_of_hang split, fun _ => by simp⟩
      | prio =>
          obtain ⟨position, placed, suspend⟩ := Option.bind_eq_some_iff.mp suspend
          obtain rfl := Option.some.inj suspend
          rw [valid'.filed.lists.next_head] at placed
          obtain ⟨before, after, joined, rfl, _⟩ :=
            valid'.filed.findPosition (List.nil_append _).symm placed
          exact ⟨_, valid'.hang joined absent is, accounted_of_hang joined, fun _ => by simp⟩
  · next failure =>
      obtain rfl := Option.some.inj suspend
      exact ⟨queue, valid', accounted_of_eq fun _ => rfl, nofun⟩

/-- A running thread can wait for an object when the search gets enough turns. -/
theorem Valid.exists_wait (valid : sched.Valid queue) (current : sched.currentThread = some t)
    (running : (sched.thread t).state = threadRunning) (flag : IpcFlag)
    (suspendFlag : SuspendFlag) {turns : Nat}
    (enough : (queue (.suspend object)).length < turns) :
    ∃ sched', sched.ipcListSuspend object t flag suspendFlag turns = some (true, sched') ∧
      sched'.currentThread = some t := by
  obtain ⟨sched', suspend, same⟩ : ∃ sched',
      sched.threadSuspend t suspendFlag = some (true, sched') ∧ sched'.currentThread = some t := by
    rw [Scheduler.threadSuspend]
    dsimp only
    rw [if_neg (not_not_intro current), if_neg fun status => status.2 running]
    exact ⟨_, rfl, current⟩
  obtain ⟨valid', _⟩ := valid.threadSuspend suspend
  rw [Scheduler.ipcListSuspend, suspend]
  cases flag with
  | fifo => exact ⟨_, rfl, same⟩
  | prio =>
      obtain ⟨position, found⟩ := valid'.filed.exists_findPosition (List.nil_append _).symm enough
        (sched'.thread t).currentPriority
      rw [← valid'.filed.lists.next_head] at found
      simp only [Option.bind_eq_bind, Option.bind_some, if_true, found]
      exact ⟨_, rfl, same⟩

/-- A closed thread that is on no list comes to the defunct ones. -/
theorem Valid.bury (valid : sched.Valid queue) (absent : ∀ h, t ∉ queue h)
    (closed : (sched.thread t).state = threadClose) :
    ∃ queue', { sched with links := sched.links.insertAfter (.inl .defunct) (.inr t) }.Valid
      queue' ∧ ∀ k, queue' (.suspend k) = queue (.suspend k) := by
  refine ⟨_, valid.relink ((valid.filed.loosen absent).hang
    (valid.filed.lists.insertAfter absent .defunct) (fun _ => List.mem_cons) (fun p => by simp)
    (by rw [closed]; decide) (fun k not_ => by cases not_) (fun _ => closed)
    (valid.filed.mask (Option.some_ne_none t))), fun k => ?_⟩
  rw [Function.update_of_ne (by simp)]

/-- A thread leaves its list and is closed. -/
theorem Valid.close (valid : sched.Valid queue) (t : T) (mayEnd : ends t) :
    ∃ queue', { (sched.scheduleRemoveThread t).setThread t
      ((sched.thread t).setStat threadClose) with
        links := ((sched.scheduleRemoveThread t).setThread t
          ((sched.thread t).setStat threadClose)).links.insertAfter (.inl .defunct)
            (.inr t) }.Valid queue' ∧
      Accounted { (sched.scheduleRemoveThread t).setThread t
        ((sched.thread t).setStat threadClose) with
          links := ((sched.scheduleRemoveThread t).setThread t
            ((sched.thread t).setStat threadClose)).links.insertAfter (.inl .defunct)
              (.inr t) } queue queue' ends joins := by
  have mask : (sched.thread t).Masked := valid.filed.mask (Option.some_ne_none t)
  have closed : (((sched.scheduleRemoveThread t).setThread t
      ((sched.thread t).setStat threadClose)).thread t).state = threadClose := by
    rw [setThread_self, Thread.close_state]
  obtain ⟨queue', valid', same⟩ :=
    (valid.leave (by rw [Thread.close_state]; decide) (by rw [Thread.close_state]; decide)
      (by rw [Thread.close_state]; decide) mask.close).bury
      (valid.filed.lists.not_mem_remove t) closed
  exact ⟨queue', valid', accounted_of_erase same fun _ _ => .inr ⟨mayEnd, closed⟩⟩

theorem Valid.threadExit (valid : sched.Valid queue) {sched' : Scheduler T K}
    (exit : sched.threadExit = some sched') :
    ∃ queue', sched'.Valid queue' ∧
      sched'.Accounted queue queue' (fun u => sched.currentThread = some u) joins := by
  obtain ⟨t, current, rfl⟩ := Option.map_eq_some_iff.mp exit
  exact valid.close t current

theorem Valid.threadDetach (valid : sched.Valid queue) (t : T) :
    ∃ queue', (sched.threadDetach t).Valid queue' ∧
      (sched.threadDetach t).Accounted queue queue' (fun u => u = t) joins := by
  rw [Scheduler.threadDetach]
  dsimp only
  split
  · exact ⟨queue, valid, accounted_of_eq fun _ => rfl⟩
  split
  · exact valid.close t rfl
  · next open_ fresh =>
      have absent := valid.filed.not_mem_of_init (not_not.mp fresh)
      have closed : (sched.setThread t ((sched.thread t).setStat threadClose)).Valid queue := by
        refine valid.change t (((valid.filed.loosen absent).setThread _).settle ?_ ?_) rfl
          (fun u other => setThread_of_ne sched other _) ?_ ?_
        · rw [setThread_self, Thread.close_state]
          decide
        · rw [setThread_self]
          exact Thread.Masked.close (valid.filed.mask (Option.some_ne_none t))
        · exact fun now => absurd (not_not.mp fresh) (valid.current now).2
        · intro _
          rw [setThread_self, Thread.close_state]
          decide
      obtain ⟨queue', valid', same⟩ :=
        closed.bury absent (by rw [setThread_self, Thread.close_state])
      exact ⟨queue', valid', accounted_of_eq same⟩

theorem Valid.threadDefunctDequeue (valid : sched.Valid queue) :
    ∃ queue', sched.threadDefunctDequeue.2.Valid queue' ∧
      sched.threadDefunctDequeue.2.Accounted queue queue' ends joins := by
  rw [Scheduler.threadDefunctDequeue, valid.filed.lists.next_head]
  cases listed : queue .defunct with
  | nil => exact ⟨queue, valid, accounted_of_eq fun _ => rfl⟩
  | cons t rest =>
      have closed := valid.filed.defunct (listed ▸ List.mem_cons_self)
      have notReady : (sched.thread t).state ≠ threadReady := by
        rw [closed]
        decide
      refine ⟨_, valid.relink ((valid.filed.unhang notReady).settle notReady
        (valid.filed.mask (Option.some_ne_none t))), ?_⟩
      exact valid.filed.accounted_of_erase (fun _ => rfl) (Thread.not_suspended closed (by decide))

theorem Valid.threadChangePriority (valid : sched.Valid queue) (t : T) (priority : Priority) :
    ∃ queue', (sched.threadChangePriority t priority).Valid queue' ∧
      (sched.threadChangePriority t priority).Accounted queue queue' ends joins := by
  rw [Scheduler.threadChangePriority]
  split
  · next ready =>
      have other : sched.currentThread ≠ some t := fun now => (valid.current now).1 ready
      have filed := ((valid.filed.remove t).setThread
        ((sched.thread t).setPriority priority)).insert other (by rw [setThread_self]; rfl)
      refine ⟨_, valid.change t filed (scheduleInsertThread_current _ t) (fun u apart => ?_)
        (fun now => absurd now other) fun _ => ?_, ?_⟩
      · rw [scheduleInsertThread_other _ apart, setThread_of_ne _ apart]
        rfl
      · rw [scheduleInsertThread_self, setThread_current, remove_current, if_neg other,
          Thread.setState_state _ _ rfl]
        decide
      · refine valid.filed.accounted_of_erase (fun k => ?_)
          (Thread.not_suspended ready (by decide))
        rw [Function.update_of_ne (by simp)]
  · next notReady =>
      refine ⟨queue, valid.update rfl (fun ready => absurd ready notReady) (.inl rfl), ?_⟩
      exact accounted_of_eq fun _ => rfl

theorem Valid.exitCritical (valid : sched.Valid queue) {sched' : Scheduler T K}
    (exit : sched.exitCritical = some sched') :
    ∃ queue', sched'.Valid queue' ∧ sched'.Accounted queue queue' ends joins := by
  rw [Scheduler.exitCritical] at exit
  dsimp only at exit
  split at exit
  · split at exit
    · next started =>
        obtain ⟨c, current⟩ := Option.isSome_iff_exists.mp started
        exact (valid.setLockNest 0#16).schedule_accounted (c := c) current exit
    · obtain rfl := Option.some.inj exit
      exact ⟨queue, valid.setLockNest 0#16, accounted_of_eq fun _ => rfl⟩
  · obtain rfl := Option.some.inj exit
    exact ⟨queue, valid.setLockNest _, accounted_of_eq fun _ => rfl⟩

theorem Valid.schedulerStart (valid : sched.Valid queue) {sched' : Scheduler T K}
    (stopped : sched.currentThread = none) (start : sched.schedulerStart = some sched') :
    ∃ queue', sched'.Valid queue' ∧ sched'.Accounted queue queue' ends joins := by
  obtain ⟨_, found, rfl⟩ := Option.map_eq_some_iff.mp start
  have some_ : sched.readyPriorityGroup ≠ 0#32 := by
    intro zero
    rw [getHighestPriorityThread, zero] at found
    cases found
  obtain ⟨highest, first, rest, found', listed, _⟩ := valid.filed.highest some_
  obtain rfl := Option.some.inj (found'.symm.trans found)
  have ready := ((valid.filed.ready (Option.some_ne_none first) highest).mp
    (listed ▸ List.mem_cons_self)).1
  have mask := valid.filed.mask_of_state ready (by decide) (by decide)
  have state : ((sched.thread first).setStat threadRunning).state = threadRunning := by
    have value : threadRunning &&& threadStatMask = threadRunning := by decide
    exact value
  have filed := (((valid.filed.setCurrent (some first)).remove first).setThread
    ((sched.thread first).setStat threadRunning)).settle
      (by rw [setThread_self, state]; decide) (.inl (by rw [setThread_self]; exact mask))
  refine ⟨_, ⟨filed, fun {u} running => ?_, fun {u} now => ?_⟩,
    valid.filed.accounted_of_erase (fun _ => rfl) (Thread.not_suspended ready (by decide))⟩
  · rcases eq_or_ne u first with rfl | other
    · rfl
    · have old : (sched.thread u).state = threadRunning := by
        rwa [setThread_of_ne _ other] at running
      rw [valid.running old] at stopped
      cases stopped
  · obtain rfl := Option.some.inj now
    rw [setThread_self]
    simp only [remove_thread, state]
    decide

theorem Valid.step (valid : sched.Valid queue) {act : Act T K} {sched' : Scheduler T K}
    (step : sched.step act = some sched') :
    ∃ queue', sched'.Valid queue' ∧
      sched'.Accounted queue queue' (act.ends sched) (act.joins sched) := by
  cases act with
  | startup t => exact valid.threadStartup step
  | start =>
      rw [Scheduler.step] at step
      split at step
      · next stopped => exact valid.schedulerStart stopped step
      · cases step
  | schedule =>
      obtain ⟨c, current, scheduled⟩ := Option.bind_eq_some_iff.mp step
      exact valid.schedule_accounted current scheduled
  | yield => exact ⟨queue, valid.threadYield step, accounted_of_eq fun _ => rfl⟩
  | tick => exact valid.tickIncrease step
  | suspend flag =>
      obtain ⟨t, _, suspended⟩ := Option.bind_eq_some_iff.mp step
      obtain ⟨_, suspend, rfl⟩ := Option.map_eq_some_iff.mp suspended
      exact ⟨queue, (valid.threadSuspend suspend).1, accounted_of_eq fun _ => rfl⟩
  | wait object flag suspendFlag turns =>
      obtain ⟨t, current, waits⟩ := Option.bind_eq_some_iff.mp step
      split at waits
      · obtain ⟨_, suspend, rfl⟩ := Option.map_eq_some_iff.mp waits
        obtain ⟨queue', valid', accounted, _⟩ := valid.ipcListSuspend suspend
        refine ⟨queue', valid', accounted.leaves, fun k u member => ?_⟩
        refine (accounted.comes k u member).imp_right ?_
        rintro ⟨rfl, same⟩
        exact ⟨current, same⟩
      · cases waits
  | wake object =>
      obtain ⟨_, resume, rfl⟩ := Option.map_eq_some_iff.mp step
      exact valid.ipcListResume resume
  | resume t => exact Option.some.inj step ▸ valid.threadResume t
  | timeout t => exact valid.threadTimeout step
  | detach t => exact Option.some.inj step ▸ valid.threadDetach t
  | exit => exact valid.threadExit step
  | reap => exact Option.some.inj step ▸ valid.threadDefunctDequeue
  | changePriority t priority => exact Option.some.inj step ▸ valid.threadChangePriority t priority
  | enterCritical =>
      obtain rfl := Option.some.inj step
      exact ⟨queue, valid.setLockNest _, accounted_of_eq fun _ => rfl⟩
  | exitCritical => exact valid.exitCritical step

theorem Valid.run (valid : sched.Valid queue) {acts : List (Act T K)} {sched' : Scheduler T K}
    (run : sched.run acts = some sched') : ∃ queue', sched'.Valid queue' := by
  induction acts generalizing sched queue with
  | nil => exact ⟨queue, Option.some.inj run ▸ valid⟩
  | cons act acts ih =>
      obtain ⟨sched₁, first, rest⟩ := Option.bind_eq_some_iff.mp run
      obtain ⟨queue₁, valid₁, _⟩ := valid.step first
      exact ih valid₁ rest

/-- In every run each thread is on the list that its status says and on no other, the group has
the bits of the ready lists that are not empty, and only the current thread is running. -/
theorem run_valid {thread : T → Priority × UBase} {acts : List (Act T K)} {sched : Scheduler T K}
    (run : (Scheduler.init thread).run acts = some sched) : ∃ queue, sched.Valid queue :=
  (valid_init thread).run run

/-- Three threads of the priority 5, started, with the scheduler. -/
def threeActs : List (Act (Fin 3) Unit) := [.startup 0, .startup 1, .startup 2, .start]

def threeStarted : Option (Scheduler (Fin 3) Unit) :=
  (Scheduler.init fun _ => (5, 10#32)).run threeActs

theorem threeStarted_shown : ∃ sched, threeStarted = some sched ∧
    sched.currentThread = some 2 ∧ sched.lockNest = 0#16 ∧
    sched.getHighestPriorityThread = some ((sched.thread 2).currentPriority, 1) ∧
    (sched.thread 2).state = threadRunning ∧ (sched.thread 0).state = threadReady := by
  have shown : (threeStarted.map fun sched => decide (sched.currentThread = some 2 ∧
      sched.lockNest = 0#16 ∧
      sched.getHighestPriorityThread = some ((sched.thread 2).currentPriority, 1) ∧
      (sched.thread 2).state = threadRunning ∧ (sched.thread 0).state = threadReady)) =
      some true := by
    decide +kernel
  obtain ⟨sched, started, holds⟩ := Option.map_eq_some_iff.mp shown
  exact ⟨sched, started, of_decide_eq_true holds⟩

theorem run_valid_three : ∃ sched queue, threeStarted = some sched ∧ sched.Valid queue := by
  obtain ⟨sched, started, _⟩ := threeStarted_shown
  obtain ⟨queue, valid⟩ := run_valid started
  exact ⟨sched, queue, started, valid⟩

/-- The thread that runs after `rt_schedule` has at least the priority of every ready one. -/
theorem Scheduled.highest (scheduled : Scheduled sched queue c sched' queue')
    (valid : sched.Valid queue) (valid' : sched'.Valid queue')
    (unlocked : sched.lockNest = 0#16) (current : sched.currentThread = some c) :
    ∃ c', sched'.currentThread = some c' ∧
      (∀ u, (sched'.thread u).state = threadReady →
        (sched'.thread c').currentPriority ≤ (sched'.thread u).currentPriority) ∧
      ((sched.thread c).state = threadRunning ∨ (∃ u, (sched.thread u).state = threadReady) →
        (sched'.thread c').state = threadRunning) ∧
      ((sched.thread c).state = threadRunning → c' ≠ c →
        (sched.thread c').currentPriority < (sched.thread c).currentPriority ∨
        (sched.thread c').currentPriority = (sched.thread c).currentPriority ∧
          (sched.thread c).yields) := by
  have below {queue : Head K → List T} {highest : Priority} {first : T} {rest : List T}
      (top : Top queue highest first rest) {u : T} {p : Priority}
      (member : u ∈ queue (.ready p)) : highest ≤ p := by
    refine Fin.not_lt.mp fun early => ?_
    rw [top.above p early] at member
    cases member
  cases scheduled with
  | none closed =>
      have idle := closed.resolve_left (not_not_intro unlocked)
      have nobody (u : T) : (sched.thread u).state ≠ threadReady := by
        intro ready
        have member := (valid.filed.ready (Option.some_ne_none u) _).mpr ⟨ready, rfl⟩
        rw [idle] at member
        cases member
      refine ⟨c, current, fun u ready => absurd ready (nobody u), ?_, ?_⟩
      · exact fun able => able.resolve_right fun ⟨u, ready⟩ => nobody u ready
      · exact fun _ other => absurd rfl other
  | stay top keeps current' running frame =>
      refine ⟨c, current', fun u ready => ?_, fun _ => running, fun _ other => absurd rfl other⟩
      have member := (valid'.filed.ready (Option.some_ne_none u) _).mpr ⟨ready, rfl⟩
      rw [frame.priority c]
      refine le_trans ?_ (below top member)
      exact keeps.2.elim le_of_lt fun equal => le_of_eq equal.1
  | @switch _ highest first rest _ top gives other current' running frame =>
      have place := ((valid.filed.ready (Option.some_ne_none first) highest).mp
        (top.listed ▸ List.mem_cons_self)).2
      have above (runs : (sched.thread c).state = threadRunning) :
          highest ≤ (sched.thread c).currentPriority :=
        Fin.not_lt.mp fun higher => gives ⟨runs, .inl higher⟩
      refine ⟨first, current', fun u ready => ?_, fun _ => running, fun runs _ => ?_⟩
      · have member := (valid'.filed.ready (Option.some_ne_none u) _).mpr ⟨ready, rfl⟩
        rw [frame.priority first, place]
        have listed := List.mem_of_mem_erase member
        split at listed
        · next runs =>
            rw [Function.update_apply] at listed
            split at listed
            · next same =>
                rw [Head.ready.inj same]
                exact above (of_decide_eq_true runs)
            · exact below top listed
        · exact below top listed
      · rw [place]
        rcases lt_or_eq_of_le (above runs) with less | equal
        · exact .inl less
        · refine .inr ⟨equal, ?_⟩
          by_contra stays
          exact gives ⟨runs, .inr ⟨equal.symm, stays⟩⟩

/-- In every run, with the scheduler not locked: `rt_schedule` finds the thread to switch to,
no ready thread has a higher priority than the one that runs afterwards, some thread runs
when one can, and a running thread loses the processor to a higher priority only, or to its
own when it asked to yield. -/
theorem run_schedule_highest {thread : T → Priority × UBase} {acts : List (Act T K)}
    {sched : Scheduler T K} (run : (Scheduler.init thread).run acts = some sched)
    (unlocked : sched.lockNest = 0#16) (current : sched.currentThread = some c) :
    ∃ sched' c', sched.schedule = some sched' ∧ sched'.currentThread = some c' ∧
      (∀ u, (sched'.thread u).state = threadReady →
        (sched'.thread c').currentPriority ≤ (sched'.thread u).currentPriority) ∧
      ((sched.thread c).state = threadRunning ∨ (∃ u, (sched.thread u).state = threadReady) →
        (sched'.thread c').state = threadRunning) ∧
      ((sched.thread c).state = threadRunning → c' ≠ c →
        (sched.thread c').currentPriority < (sched.thread c).currentPriority ∨
        (sched.thread c').currentPriority = (sched.thread c).currentPriority ∧
          (sched.thread c).yields) := by
  obtain ⟨queue, valid⟩ := (valid_init thread).run run
  obtain ⟨sched', queue', found, valid', scheduled⟩ := valid.schedule current
  obtain ⟨c', shown⟩ := scheduled.highest valid valid' unlocked current
  exact ⟨sched', c', found, shown⟩

theorem run_schedule_highest_three : ∃ sched sched' c', threeStarted = some sched ∧
    sched.schedule = some sched' ∧ sched'.currentThread = some c' ∧
      (sched'.thread c').state = threadRunning := by
  obtain ⟨sched, started, current, unlocked, _, running, _⟩ := threeStarted_shown
  obtain ⟨sched', c', found, current', _, runs, _⟩ :=
    run_schedule_highest started unlocked current
  exact ⟨sched, sched', c', started, found, current', runs (.inl running)⟩

end Calls

end Scheduler

end Ysyx.RtThread
