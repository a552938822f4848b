import Ysyx.RtThread.SchedulerProperties
import Ysyx.RtThread.Semaphore

/-! No wakeup is lost at a semaphore: in every run a semaphore that has a value has nobody waiting,
and a release wakes the first thread that waits. -/

set_option autoImplicit false

namespace Ysyx.RtThread

namespace Scheduler

open Lib (Links)

variable {T K : Type} [DecidableEq T] [DecidableEq K] {sched : Scheduler T K}
  {queue : Head K → List T} {object : K} {t : T} {rest : List T}

omit [DecidableEq T] [DecidableEq K] in
theorem Filed.next_first (filed : sched.Filed queue none)
    (waits : queue (.suspend object) = t :: rest) :
    sched.links.next (.inl (.suspend object)) = .inr t := by
  have next := filed.lists.next_head (.suspend object)
  rwa [waits] at next

/-- The first waiting thread leaves its list and is awake; nobody else changes. -/
theorem Valid.ipcListResume_first (valid : sched.Valid queue)
    (waits : queue (.suspend object) = t :: rest) :
    ∃ sched' queue', sched.ipcListResume object = some (t, sched') ∧ sched'.Valid queue' ∧
      sched'.currentThread = sched.currentThread ∧
      (∀ k, queue' (.suspend k) = (queue (.suspend k)).erase t) ∧ (sched'.thread t).awake ∧
      ∀ u, (sched.thread u).awake → (sched'.thread u).awake := by
  have suspended := valid.filed.suspended (k := object) (waits ▸ List.mem_cons_self)
  obtain ⟨queue', valid', erased, woken⟩ := valid.wakeUp suspended
  refine ⟨sched.threadResume t, queue', ?_, ?_⟩
  · rw [Scheduler.ipcListResume, valid.filed.next_first waits]
  rw [Scheduler.threadResume, if_pos suspended]
  refine ⟨valid', scheduleInsertThread_current _ t, erased, woken, fun u awake => ?_⟩
  rcases eq_or_ne u t with rfl | other
  · exact woken
  · rwa [scheduleInsertThread_other _ other]

end Scheduler

namespace Semaphores

open Scheduler (IpcFlag Accounted accounted_of_eq accounted_of_erase)

variable {T S K : Type} [DecidableEq T] [DecidableEq S] [DecidableEq K]
  {flag : S → IpcFlag} {sys sys' : Semaphores T S K} {s : S} {queue : Head (S ⊕ K) → List T}

/-!
## Calls
-/

/-- The scheduler is valid, and nobody waits for a semaphore that has a value. -/
structure Sound (sys : Semaphores T S K) (queue : Head (S ⊕ K) → List T) : Prop where
  valid : sys.sched.Valid queue
  vacant : ∀ s, sys.value s ≠ 0#16 → queue (.suspend (.inl s)) = []

/-- The thread that an act closes. -/
def SemAct.ends (sys : Semaphores T S K) : SemAct T S K → T → Prop
  | .other act, t => act.ends sys.sched t
  | _, _ => False

namespace Sound

/-- The links decide who waits. -/
theorem of_valid (sound : sys.Sound queue) {queue' : Head (S ⊕ K) → List T}
    (valid : sys.sched.Valid queue') : sys.Sound queue' where
  valid := valid
  vacant s some := by
    have empty := sound.valid.filed.lists.isEmpty_iff.mpr (sound.vacant s some)
    exact valid.filed.lists.isEmpty_iff.mp empty

omit [DecidableEq T] [DecidableEq K] in
theorem setValue (sound : sys.Sound queue) {value : BitVec 16}
    (vacant : value ≠ 0#16 → queue (.suspend (.inl s)) = []) :
    (sys.setValue s value).Sound queue where
  valid := sound.valid
  vacant u some := by
    have updated : Function.update sys.value s value u ≠ 0#16 := some
    by_cases same : u = s
    · subst same
      exact vacant (by rwa [Function.update_self] at updated)
    · exact sound.vacant u (by rwa [Function.update_of_ne same] at updated)

omit [DecidableEq T] [DecidableEq S] [DecidableEq K] in
/-- The scheduler moves on, and only threads that `joins` come to a list of a semaphore. -/
theorem move (sound : sys.Sound queue) {sched : Scheduler T (S ⊕ K)}
    {queue' : Head (S ⊕ K) → List T} {ends : T → Prop} {joins : T → S ⊕ K → Prop}
    (valid : sched.Valid queue') (accounted : sched.Accounted queue queue' ends joins)
    (idle : ∀ s, sys.value s ≠ 0#16 → ∀ t, ¬ joins t (.inl s)) :
    Sound { sys with sched := sched } queue' where
  valid := valid
  vacant s some := List.eq_nil_iff_forall_not_mem.mpr fun t member => by
    rcases accounted.comes (.inl s) t member with old | joined
    · rw [sound.vacant s some] at old
      cases old
    · exact idle s some t joined

/-- The `rt_schedule` at the end of a call. -/
theorem reschedule (sound : sys.Sound queue) (step : sys.reschedule = some sys') :
    ∃ queue', sys'.Sound queue' ∧ sys'.value = sys.value ∧
      (∀ k, queue' (.suspend k) = queue (.suspend k)) ∧
      ∀ t, (sys.sched.thread t).awake → (sys'.sched.thread t).awake := by
  obtain ⟨_, scheduled, rfl⟩ := Option.map_eq_some_iff.mp step
  obtain ⟨c, current, scheduled⟩ := Option.bind_eq_some_iff.mp scheduled
  obtain ⟨_, queue', found, valid', same, awake⟩ := sound.valid.reschedule current
  obtain rfl := Option.some.inj (found.symm.trans scheduled)
  refine ⟨queue', ⟨valid', fun s some => ?_⟩, rfl, same, awake⟩
  rw [same]
  exact sound.vacant s some

theorem semTake (sound : sys.Sound queue) {timeout : BitVec 32} {suspendFlag : SuspendFlag}
    {turns : Nat} {result : Option RtErr × Semaphores T S K}
    (take : sys.semTake flag s timeout suspendFlag turns = some result) :
    ∃ queue', result.2.Sound queue' ∧
      result.2.sched.Accounted queue queue' (fun _ => False)
        (fun t k => sys.sched.currentThread = some t ∧ k = .inl s) ∧
      (result.1 = none → ∀ c, sys.sched.currentThread = some c →
        c ∈ queue' (.suspend (.inl s))) := by
  unfold Semaphores.semTake at take
  split at take
  · rename_i positive
    obtain rfl := Option.some.inj take
    have some : sys.value s ≠ 0#16 := by
      intro none
      rw [none] at positive
      exact absurd positive (by decide)
    exact ⟨queue, sound.setValue fun _ => sound.vacant s some, accounted_of_eq fun _ => rfl, nofun⟩
  rename_i nothing
  split at take
  · obtain rfl := Option.some.inj take
    exact ⟨queue, sound, accounted_of_eq fun _ => rfl, nofun⟩
  obtain ⟨thread, current, take⟩ := Option.bind_eq_some_iff.mp take
  split at take
  · obtain ⟨⟨ok, sched⟩, suspend, take⟩ := Option.bind_eq_some_iff.mp take
    obtain ⟨queue₁, valid₁, waits, listed⟩ := sound.valid.ipcListSuspend suspend
    have waited : sched.Accounted queue queue₁ (fun _ => False)
        fun t k => sys.sched.currentThread = some t ∧ k = .inl s := by
      refine ⟨waits.leaves, fun k t member => (waits.comes k t member).imp_right ?_⟩
      rintro ⟨rfl, same⟩
      exact ⟨current, same⟩
    have sound₁ : Sound { sys with sched := sched } queue₁ := by
      refine sound.move valid₁ waited fun u some t joined => some ?_
      obtain rfl := Sum.inl.inj joined.2
      bv_omega
    cases ok with
    | true =>
        obtain ⟨sys', scheduled, take⟩ := Option.bind_eq_some_iff.mp take
        obtain rfl := Option.some.inj take
        obtain ⟨queue', sound', _, same, awake⟩ := sound₁.reschedule scheduled
        refine ⟨queue', sound', waited.trans (accounted_of_eq same) awake, fun _ c now => ?_⟩
        obtain rfl := Option.some.inj (current.symm.trans now)
        rw [same]
        exact listed rfl
    | false =>
        obtain rfl := Option.some.inj take
        exact ⟨queue₁, sound₁, waited, nofun⟩
  · cases take

theorem wake (sound : sys.Sound queue) {object : S ⊕ K} {resumed : T × Scheduler T (S ⊕ K)}
    (resume : sys.sched.ipcListResume object = some resumed) :
    ∃ queue', Sound { sys with sched := resumed.2 } queue' ∧
      resumed.2.Accounted queue queue' (fun _ => False) fun _ _ => False := by
  obtain ⟨queue', valid', accounted⟩ := sound.valid.ipcListResume resume
  exact ⟨queue', sound.move valid' accounted fun _ _ _ joined => joined, accounted⟩

theorem semRelease (sound : sys.Sound queue) {result : RtErr × Semaphores T S K}
    (release : sys.semRelease s = some result) :
    ∃ queue', result.2.Sound queue' ∧
      result.2.sched.Accounted queue queue' (fun _ => False) fun _ _ => False := by
  unfold Semaphores.semRelease at release
  split at release
  · rename_i empty
    split at release
    · obtain rfl := Option.some.inj release
      exact ⟨queue, sound.setValue fun _ => sound.valid.filed.lists.isEmpty_iff.mp empty,
        accounted_of_eq fun _ => rfl⟩
    · obtain rfl := Option.some.inj release
      exact ⟨queue, sound, accounted_of_eq fun _ => rfl⟩
  · obtain ⟨woken, resume, release⟩ := Option.bind_eq_some_iff.mp release
    obtain ⟨sys', scheduled, release⟩ := Option.bind_eq_some_iff.mp release
    obtain rfl := Option.some.inj release
    obtain ⟨queue₁, sound₁, resumed⟩ := sound.wake resume
    obtain ⟨queue', sound', _, same, awake⟩ := sound₁.reschedule scheduled
    exact ⟨queue', sound', resumed.trans (accounted_of_eq same) awake⟩

theorem nobody_waits (sound : sys.Sound queue)
    (empty : sys.sched.links.isEmpty (.inl (.suspend (.inl s))) = true) :
    ∃ queue', sys.Sound queue' ∧ queue' (.suspend (.inl s)) = [] ∧
      sys.sched.Accounted queue queue' (fun _ => False) (fun _ _ => False) ∧
      ∀ t, (sys.sched.thread t).awake → (sys.sched.thread t).awake :=
  ⟨queue, sound, sound.valid.filed.lists.isEmpty_iff.mp empty, accounted_of_eq fun _ => rfl,
    fun _ => id⟩

/-- The list is empty afterwards. -/
theorem ipcListResumeAll (sound : sys.Sound queue) {turns : Nat} {sched : Scheduler T (S ⊕ K)}
    (resume : ipcListResumeAll sys.sched s turns = some sched) :
    ∃ queue', Sound { sys with sched := sched } queue' ∧ queue' (.suspend (.inl s)) = [] ∧
      sched.Accounted queue queue' (fun _ => False) (fun _ _ => False) ∧
      ∀ t, (sys.sched.thread t).awake → (sched.thread t).awake := by
  induction turns generalizing sys queue with
  | zero =>
      unfold Semaphores.ipcListResumeAll at resume
      split at resume
      · rename_i empty
        obtain rfl := Option.some.inj resume
        exact sound.nobody_waits empty
      · cases resume
  | succ turns ih =>
      unfold Semaphores.ipcListResumeAll at resume
      split at resume
      · rename_i empty
        obtain rfl := Option.some.inj resume
        exact sound.nobody_waits empty
      · rename_i nonempty
        rw [sound.valid.filed.lists.isEmpty_iff] at nonempty
        obtain ⟨first, others, waits⟩ := List.exists_cons_of_ne_nil nonempty
        obtain ⟨woken, resumed, rest⟩ := Option.bind_eq_some_iff.mp resume
        obtain ⟨_, _, found, _, _, _, _, kept⟩ := sound.valid.ipcListResume_first waits
        obtain rfl := Option.some.inj (found.symm.trans resumed)
        obtain ⟨queue₁, sound₁, accounted₁⟩ := sound.wake resumed
        obtain ⟨queue', sound', empty, accounted', awake⟩ := ih sound₁ rest
        exact ⟨queue', sound', empty, accounted₁.trans accounted' awake,
          fun t before => awake t (kept t before)⟩

theorem semReset (sound : sys.Sound queue) {value : BitVec 16} {turns : Nat}
    (reset : sys.semReset s value turns = some sys') :
    ∃ queue', sys'.Sound queue' ∧ queue' (.suspend (.inl s)) = [] ∧
      sys'.sched.Accounted queue queue' (fun _ => False) fun _ _ => False := by
  obtain ⟨sched, resume, scheduled⟩ := Option.bind_eq_some_iff.mp reset
  obtain ⟨queue₁, sound₁, empty, resumed, _⟩ := sound.ipcListResumeAll resume
  obtain ⟨queue', sound', _, same, awake⟩ :=
    (sound₁.setValue fun _ => empty).reschedule scheduled
  exact ⟨queue', sound', (same _).trans empty, resumed.trans (accounted_of_eq same) awake⟩

/-- Nobody is forgotten in a call, or in anything else that is done. -/
theorem step (sound : sys.Sound queue) {act : SemAct T S K}
    (step : sys.step flag act = some sys') :
    ∃ queue', sys'.Sound queue' ∧ ∀ k, ∀ t ∈ queue (.suspend k),
      t ∈ queue' (.suspend k) ∨ (sys'.sched.thread t).awake ∨
        act.ends sys t ∧ (sys'.sched.thread t).state = threadClose := by
  cases act with
  | take s timeout suspendFlag turns =>
      obtain ⟨result, take, rfl⟩ := Option.map_eq_some_iff.mp step
      obtain ⟨queue', sound', accounted, _⟩ := sound.semTake take
      exact ⟨queue', sound', accounted.leaves⟩
  | release s =>
      obtain ⟨result, release, rfl⟩ := Option.map_eq_some_iff.mp step
      obtain ⟨queue', sound', accounted⟩ := sound.semRelease release
      exact ⟨queue', sound', accounted.leaves⟩
  | reset s value turns =>
      obtain ⟨queue', sound', _, accounted⟩ := sound.semReset step
      exact ⟨queue', sound', accounted.leaves⟩
  | other act =>
      simp only [Semaphores.step] at step
      split at step
      · rename_i foreign
        obtain ⟨sched, stepped, rfl⟩ := Option.map_eq_some_iff.mp step
        obtain ⟨queue', valid', accounted⟩ := sound.valid.step stepped
        refine ⟨queue', sound.move valid' accounted fun s _ t joined => ?_, accounted.leaves⟩
        cases act with
        | wait object =>
            obtain rfl := joined.2
            cases foreign
        | _ => exact joined
      · cases step

theorem run (sound : sys.Sound queue) {acts : List (SemAct T S K)}
    (run : sys.run flag acts = some sys') : ∃ queue', sys'.Sound queue' := by
  induction acts generalizing sys queue with
  | nil => exact ⟨queue, Option.some.inj run ▸ sound⟩
  | cons act acts ih =>
      obtain ⟨next, first, rest⟩ := Option.bind_eq_some_iff.mp run
      obtain ⟨_, sound₁, _⟩ := sound.step first
      exact ih sound₁ rest

end Sound

/-!
## Runs
-/

omit [DecidableEq T] [DecidableEq S] [DecidableEq K] in
theorem sound_init (thread : T → Priority × UBase) (value : S → BitVec 16) :
    (init thread value : Semaphores T S K).Sound fun _ => [] :=
  ⟨Scheduler.valid_init thread, fun _ _ => rfl⟩

/-- In every run, whatever else suspends, resumes, ends or moves threads between the calls, no
thread waits for a semaphore that has a value; a take that does not return at once leaves its
thread on the list; and whoever leaves a list is ready or runs, or has been closed by name. -/
theorem run_no_lost_wakeup {thread : T → Priority × UBase} {value : S → BitVec 16}
    {acts : List (SemAct T S K)} (run : (init thread value).run flag acts = some sys) :
    ∃ queue, sys.sched.Valid queue ∧
      (∀ s, sys.value s ≠ 0#16 → queue (.suspend (.inl s)) = []) ∧
      (∀ s timeout suspendFlag turns sys' c, sys.sched.currentThread = some c →
        sys.semTake flag s timeout suspendFlag turns = some (none, sys') →
        ∃ queue', sys'.sched.Valid queue' ∧ c ∈ queue' (.suspend (.inl s))) ∧
      ∀ act sys', sys.step flag act = some sys' → ∃ queue', sys'.sched.Valid queue' ∧
        ∀ k, ∀ t ∈ queue (.suspend k), t ∈ queue' (.suspend k) ∨ sys'.sched.Runnable queue' t ∨
          act.ends sys t ∧ (sys'.sched.thread t).state = threadClose := by
  obtain ⟨queue, sound⟩ := (sound_init thread value).run run
  refine ⟨queue, sound.valid, sound.vacant, ?_, ?_⟩
  · intro s timeout suspendFlag turns sys' c current take
    obtain ⟨queue', sound', _, listed⟩ := sound.semTake take
    exact ⟨queue', sound'.valid, listed rfl c current⟩
  · intro act sys' step
    obtain ⟨queue', sound', fate⟩ := sound.step step
    refine ⟨queue', sound'.valid, fun k t member => ?_⟩
    exact (fate k t member).imp_right fun gone => gone.imp_left sound'.valid.runnable

/-- A take of the running thread that finds no value suspends it on the list, when the search
for its place gets enough turns. -/
theorem take_waits {thread : T → Priority × UBase} {value : S → BitVec 16}
    {acts : List (SemAct T S K)} {c : T} (run : (init thread value).run flag acts = some sys)
    (current : sys.sched.currentThread = some c)
    (running : (sys.sched.thread c).state = threadRunning) (valid : sys.sched.Valid queue)
    (nothing : sys.value s = 0#16) {timeout : BitVec 32} (waits : timeout ≠ 0#32)
    (suspendFlag : SuspendFlag) {turns : Nat}
    (enough : (queue (.suspend (.inl s))).length < turns) :
    ∃ sys' queue', sys.semTake flag s timeout suspendFlag turns = some (none, sys') ∧
      sys'.sched.Valid queue' ∧ c ∈ queue' (.suspend (.inl s)) := by
  obtain ⟨_, sound⟩ := (sound_init thread value).run run
  obtain ⟨sched₁, suspend, same⟩ := valid.exists_wait current running (flag s) suspendFlag enough
  have waited : sys.sched.step (.wait (.inl s) (flag s) suspendFlag turns) = some sched₁ := by
    simp only [Scheduler.step, current, Option.bind_some, if_pos running, suspend,
      Option.map_some]
  obtain ⟨queue₁, valid₁, _⟩ := valid.step waited
  obtain ⟨sched₂, _, scheduled, _⟩ := valid₁.reschedule same
  have take : sys.semTake flag s timeout suspendFlag turns =
      some (none, { sys with sched := sched₂ }) := by
    simp only [semTake, nothing, waits, current, running, suspend, reschedule, Scheduler.step, same,
      scheduled, Option.bind_eq_bind, Option.bind_some, Option.map_some, if_true, if_false]
    rfl
  obtain ⟨queue', sound', _, listed⟩ := (sound.of_valid valid).semTake take
  exact ⟨_, queue', take, sound'.valid, listed rfl c current⟩

/-- Two threads of one priority at a semaphore of value 1: the second take waits, the first
release wakes it, the second one is stored. -/
def handover : List (SemAct (Fin 2) Unit Unit) :=
  [.other (.startup 0), .other (.startup 1), .other .start,
    .take () 0xffffffff#32 .uninterruptible 0, .take () 0xffffffff#32 .uninterruptible 0,
    .release (), .release ()]

theorem handover_waits : ∃ sys queue rest,
    (init (fun _ => (5, 10#32)) fun _ => 1#16).run (fun _ => .fifo) (handover.take 5) = some sys ∧
      sys.sched.currentThread = some 0 ∧ sys.sched.Valid queue ∧
      queue (.suspend (.inl ())) = 1 :: rest := by
  have shown : (((init (fun _ => (5, 10#32)) fun _ => 1#16 : Semaphores (Fin 2) Unit Unit).run
      (fun _ => .fifo) (handover.take 5)).map fun sys =>
        decide (sys.sched.currentThread = some 0 ∧
          sys.sched.links.next (.inl (.suspend (.inl ()))) = .inr 1)) = some true := by
    decide +kernel
  obtain ⟨sys, ran, holds⟩ := Option.map_eq_some_iff.mp shown
  obtain ⟨started, first⟩ := of_decide_eq_true holds
  obtain ⟨queue, sound⟩ := (sound_init _ _).run ran
  have next := sound.valid.filed.lists.next_head (.suspend (.inl ()))
  rw [first] at next
  cases listed : queue (.suspend (.inl ())) with
  | nil =>
      rw [listed] at next
      cases next
  | cons t rest =>
      rw [listed] at next
      obtain rfl := Sum.inr_injective next
      exact ⟨sys, queue, rest, ran, started, sound.valid, listed⟩

/-- After all of it nobody waits. -/
theorem run_no_lost_wakeup_handover : ∃ sys queue,
    (init (fun _ => (5, 10#32)) fun _ => 1#16).run (fun _ => .fifo) handover = some sys ∧
      sys.value () = 1#16 ∧ sys.sched.Valid queue ∧ queue (.suspend (.inl ())) = [] := by
  have shown : (((init (fun _ => (5, 10#32)) fun _ => 1#16 : Semaphores (Fin 2) Unit Unit).run
      (fun _ => .fifo) handover).map fun sys => sys.value ()) = some 1#16 := by
    decide +kernel
  obtain ⟨sys, ran, value⟩ := Option.map_eq_some_iff.mp shown
  obtain ⟨queue, valid, empty, _⟩ := run_no_lost_wakeup ran
  exact ⟨sys, queue, ran, value, valid, empty () (by rw [value]; decide)⟩

/-- In every reachable state with a waiting thread, a release succeeds and leaves the value at 0;
the first thread that waits leaves the list, waits for nothing else and is ready or runs, and the
lists of the other semaphores stay. -/
theorem release_hands_over {thread : T → Priority × UBase} {value : S → BitVec 16}
    {acts : List (SemAct T S K)} {c t : T} {rest : List T} {queue : Head (S ⊕ K) → List T}
    (run : (init thread value).run flag acts = some sys)
    (started : sys.sched.currentThread = some c) (valid : sys.sched.Valid queue)
    (waits : queue (.suspend (.inl s)) = t :: rest) :
    ∃ sys' queue', sys.semRelease s = some (.eok, sys') ∧ sys'.value = sys.value ∧
      sys.value s = 0#16 ∧ sys'.sched.Valid queue' ∧ queue' (.suspend (.inl s)) = rest ∧
      (∀ u, u ≠ s → queue' (.suspend (.inl u)) = queue (.suspend (.inl u))) ∧
      (∀ k, t ∉ queue' (.suspend k)) ∧ sys'.sched.Runnable queue' t := by
  obtain ⟨_, sound₀⟩ := (sound_init thread value).run run
  have sound := sound₀.of_valid valid
  obtain ⟨sched₁, queue₁, resumed, valid₁, same, erased, woken, _⟩ :=
    valid.ipcListResume_first waits
  obtain ⟨sched₂, queue₂, scheduled, valid₂, kept, awake⟩ :=
    valid₁.reschedule (same.trans started)
  have member : t ∈ queue (.suspend (.inl s)) := waits ▸ List.mem_cons_self
  have alone {k : S ⊕ K} (other : k ≠ .inl s) : t ∉ queue (.suspend k) := fun there =>
    other (Head.suspend.inj (valid.filed.lists.one there member))
  have nonempty : ¬ sys.sched.links.isEmpty (.inl (.suspend (.inl s))) = true := by
    rw [valid.filed.lists.isEmpty_iff, waits]
    exact List.cons_ne_nil t rest
  have nothing : sys.value s = 0#16 := by
    by_contra some
    exact absurd (waits.symm.trans (sound.vacant s some)) (List.cons_ne_nil t rest)
  refine ⟨{ sys with sched := sched₂ }, queue₂, ?_, rfl, nothing, valid₂, ?_, fun u other => ?_,
    fun k => ?_, valid₂.runnable (awake t woken)⟩
  · rw [semRelease, if_neg nonempty, resumed]
    simp only [Option.bind_eq_bind, Option.bind_some, reschedule, Scheduler.step, same, started,
      scheduled, Option.map_some]
  · rw [kept, erased, waits, List.erase_cons_head]
  · rw [kept, erased, List.erase_of_not_mem (alone fun equal => other (Sum.inl.inj equal))]
  · rw [kept, erased]
    by_cases here : k = .inl s
    · subst here
      exact valid.filed.lists.not_mem_remove t _
    · exact fun there => alone here (List.mem_of_mem_erase there)

theorem release_hands_over_handover : ∃ (sys sys' : Semaphores (Fin 2) Unit Unit) (queue' : _),
    (init (fun _ => (5, 10#32)) fun _ => 1#16).run (fun _ => .fifo) (handover.take 5) = some sys ∧
      sys.semRelease () = some (.eok, sys') ∧ sys'.sched.Valid queue' ∧
      (∀ k, 1 ∉ queue' (.suspend k)) ∧ sys'.sched.Runnable queue' 1 := by
  obtain ⟨sys, queue, rest, ran, started, valid, waits⟩ := handover_waits
  obtain ⟨sys', queue', released, _, _, valid', _, _, away, runnable⟩ :=
    release_hands_over ran started valid waits
  exact ⟨sys, sys', queue', ran, released, valid', away, runnable⟩

/-- A turn for each waiting thread suffices. -/
theorem exists_ipcListResumeAll {sched : Scheduler T (S ⊕ K)} {queue : Head (S ⊕ K) → List T}
    (valid : sched.Valid queue) {turns : Nat}
    (enough : (queue (.suspend (.inl s))).length ≤ turns) :
    ∃ sched', ipcListResumeAll sched s turns = some sched' ∧
      sched'.currentThread = sched.currentThread := by
  induction turns generalizing sched queue with
  | zero =>
      have empty := List.eq_nil_of_length_eq_zero (Nat.le_zero.mp enough)
      exact ⟨sched, if_pos (valid.filed.lists.isEmpty_iff.mpr empty), rfl⟩
  | succ turns ih =>
      rw [ipcListResumeAll]
      split
      · exact ⟨sched, rfl, rfl⟩
      · next nonempty =>
          rw [valid.filed.lists.isEmpty_iff] at nonempty
          obtain ⟨first, others, waits⟩ := List.exists_cons_of_ne_nil nonempty
          obtain ⟨sched₁, queue₁, resumed, valid₁, same, erased, _⟩ :=
            valid.ipcListResume_first waits
          have fewer : (queue₁ (.suspend (.inl s))).length ≤ turns := by
            rw [erased, waits, List.erase_cons_head]
            rw [waits, List.length_cons] at enough
            omega
          obtain ⟨sched', rest, current⟩ := ih valid₁ fewer
          rw [resumed]
          exact ⟨sched', rest, current.trans same⟩

/-- A reset with enough turns wakes every thread that waits. -/
theorem reset_wakes_all {thread : T → Priority × UBase} {value : S → BitVec 16}
    {acts : List (SemAct T S K)} {c : T} {queue : Head (S ⊕ K) → List T}
    (run : (init thread value).run flag acts = some sys)
    (started : sys.sched.currentThread = some c) (valid : sys.sched.Valid queue)
    (next : BitVec 16) {turns : Nat} (enough : (queue (.suspend (.inl s))).length ≤ turns) :
    ∃ sys' queue', sys.semReset s next turns = some sys' ∧
      sys'.value = Function.update sys.value s next ∧ sys'.sched.Valid queue' ∧
      queue' (.suspend (.inl s)) = [] ∧
      ∀ t ∈ queue (.suspend (.inl s)), sys'.sched.Runnable queue' t := by
  obtain ⟨_, sound₀⟩ := (sound_init thread value).run run
  have sound := sound₀.of_valid valid
  obtain ⟨sched₁, resumed, same⟩ := exists_ipcListResumeAll valid enough
  obtain ⟨_, sound₁, _⟩ := sound.ipcListResumeAll resumed
  obtain ⟨sched₂, _, scheduled, _⟩ := sound₁.valid.reschedule (same.trans started)
  have reset : sys.semReset s next turns =
      some { sched := sched₂, value := Function.update sys.value s next } := by
    simp only [semReset, resumed, Option.bind_eq_bind, Option.bind_some, reschedule, setValue,
      Scheduler.step, same, started, scheduled, Option.map_some]
  obtain ⟨queue', sound', empty, accounted⟩ := sound.semReset reset
  refine ⟨_, queue', reset, rfl, sound'.valid, empty, fun t member => ?_⟩
  rcases accounted.leaves _ t member with stays | awake | ⟨not_, _⟩
  · rw [empty] at stays
    cases stays
  · exact sound'.valid.runnable awake
  · exact not_.elim

end Semaphores

end Ysyx.RtThread
