import Ysyx.RtThread.Scheduler

/-! What the lists and the group of the scheduler hold, and how the insertion and the removal
of a thread change it. -/

set_option autoImplicit false

namespace Ysyx.RtThread

open Lib

/-!
## First bit set
-/

/-- `k` is the place of the lowest bit set. -/
structure LowestBit {w : Nat} (value : BitVec w) (k : Nat) : Prop where
  set : value.getLsbD k = true
  clear : ∀ j < k, value.getLsbD j = false

theorem lowestBitBitmap_spec : ∀ byte : Fin 256, byte ≠ 0 →
    lowestBitBitmap.getD byte.val 0 < 8 ∧
      byte.val.testBit (lowestBitBitmap.getD byte.val 0) = true ∧
      ∀ j < lowestBitBitmap.getD byte.val 0, byte.val.testBit j = false := by
  decide +kernel

theorem getLsbD_ff (i : Nat) : (0xff#32).getLsbD i = decide (i < 8) := by
  rcases Nat.lt_or_ge i 32 with small | large
  · have all : ∀ i : Fin 32, (0xff#32).getLsbD i.val = decide (i.val < 8) := by decide
    exact all ⟨i, small⟩
  · rw [BitVec.getLsbD_of_ge _ _ large, decide_eq_false (by omega)]

/-- The byte from bit `shift` on. -/
theorem getLsbD_byte (value : UBase) {shift : Nat} (inside : shift ≤ 24) (j : Nat) :
    ((value &&& 0xff#32 <<< shift) >>> shift).getLsbD j =
      (decide (j < 8) && value.getLsbD (j + shift)) := by
  rw [BitVec.getLsbD_ushiftRight, BitVec.getLsbD_and, BitVec.getLsbD_shiftLeft,
    Nat.add_sub_cancel_left, getLsbD_ff, Nat.add_comm shift j]
  rcases Nat.lt_or_ge j 8 with low | high
  · simp [low, show j + shift < 32 by omega]
  · simp [Nat.not_lt.mpr high]

theorem byte_clear {value : UBase} (shift : Nat) (inside : shift ≤ 24)
    (zero : value &&& 0xff#32 <<< shift = 0#32) (below : ∀ j < shift, value.getLsbD j = false) :
    ∀ j < shift + 8, value.getLsbD j = false := by
  intro j early
  rcases Nat.lt_or_ge j shift with low | high
  · exact below j low
  · obtain ⟨i, rfl⟩ := Nat.exists_eq_add_of_le' high
    have byte := getLsbD_byte value inside i
    rw [zero, BitVec.zero_ushiftRight, decide_eq_true (by omega), Bool.true_and] at byte
    exact byte.symm.trans (by simp)

theorem byte_ne_zero {value : UBase} {shift : Nat}
    (found : value &&& 0xff#32 <<< shift ≠ 0#32) :
    (value &&& 0xff#32 <<< shift) >>> shift ≠ 0#32 := by
  intro zero
  refine found (BitVec.eq_of_getLsbD_eq fun i _ => ?_)
  rcases Nat.lt_or_ge i shift with low | high
  · simp [low]
  · obtain ⟨j, rfl⟩ := Nat.exists_eq_add_of_le high
    rw [← BitVec.getLsbD_ushiftRight, zero, BitVec.getLsbD_zero, BitVec.getLsbD_zero]

theorem lowestBit_byte {value : UBase} (shift : Nat) (inside : shift ≤ 24)
    (below : ∀ j < shift, value.getLsbD j = false)
    (found : value &&& 0xff#32 <<< shift ≠ 0#32) :
    LowestBit value
      (lowestBitBitmap.getD ((value &&& 0xff#32 <<< shift) >>> shift).toNat 0 + shift) := by
  have bits := getLsbD_byte value inside
  have byteFound := byte_ne_zero found
  generalize (value &&& 0xff#32 <<< shift) >>> shift = byte at bits byteFound ⊢
  have bound : byte.toNat < 256 := by
    refine Nat.lt_pow_two_of_testBit (n := 8) _ fun j late => ?_
    have bit := bits j
    rw [decide_eq_false (by omega), Bool.false_and] at bit
    exact bit
  have nonzero : (⟨byte.toNat, bound⟩ : Fin 256) ≠ 0 := fun zero =>
    byteFound (BitVec.eq_of_toNat_eq (Fin.mk.inj zero))
  obtain ⟨small, set, clear⟩ := lowestBitBitmap_spec ⟨byte.toNat, bound⟩ nonzero
  dsimp only at small set clear
  constructor
  · have bit := bits (lowestBitBitmap.getD byte.toNat 0)
    rw [decide_eq_true small, Bool.true_and] at bit
    exact bit.symm.trans set
  · intro j early
    rcases Nat.lt_or_ge j shift with low | high
    · exact below j low
    · obtain ⟨i, rfl⟩ := Nat.exists_eq_add_of_le' high
      have bit := bits i
      rw [decide_eq_true (by omega), Bool.true_and] at bit
      exact bit.symm.trans (clear i (by omega))

theorem rtFfs_spec {value : UBase} (nonzero : value ≠ 0#32) :
    ∃ k, rtFfs value = k + 1 ∧ LowestBit value k := by
  rw [rtFfs, if_neg nonzero]
  have none : ∀ j < 0, value.getLsbD j = false := fun j early => absurd early (Nat.not_lt_zero j)
  split
  · next found =>
      have shown := lowestBit_byte 0 (by omega) none
        (by rwa [BitVec.shiftLeft_zero])
      rw [BitVec.shiftLeft_zero, BitVec.ushiftRight_zero] at shown
      exact ⟨_, rfl, shown⟩
  rename_i first
  have below := byte_clear 0 (by omega) (by simpa using first) none
  split
  · next found => exact ⟨_, rfl, lowestBit_byte 8 (by omega) below found⟩
  rename_i second
  have below := byte_clear 8 (by omega) (not_not.mp second) below
  split
  · next found => exact ⟨_, rfl, lowestBit_byte 16 (by omega) below found⟩
  rename_i third
  have below := byte_clear 16 (by omega) (not_not.mp third) below
  refine ⟨_, rfl, lowestBit_byte 24 (by omega) below fun zero => nonzero ?_⟩
  have below := byte_clear 24 (by omega) zero below
  exact BitVec.eq_of_getLsbD_eq fun i bound => by simpa using below i bound

/-!
## Status
-/

theorem Thread.setState_state (thread : Thread) (state : BitVec 8)
    (inside : state &&& threadStatMask = state) : (thread.setState state).state = state := by
  refine Eq.trans ?_ inside
  ext i bound
  simp only [Thread.state, setState, setStat, BitVec.getElem_and, BitVec.getElem_or,
    BitVec.getElem_not]
  cases threadStatMask[i] <;> simp

theorem Thread.setState_yields (thread : Thread) (state : BitVec 8)
    (inside : state &&& threadStatYield = 0#8) :
    (thread.setState state).yields ↔ thread.yields := by
  have same :
      (thread.setState state).stat &&& threadStatYield = thread.stat &&& threadStatYield := by
    have split : (thread.setState state).stat &&& threadStatYield =
        (state &&& threadStatYield) |||
          (thread.stat &&& (~~~threadStatMask &&& threadStatYield)) := by
      ext i bound
      simp only [setState, setStat, BitVec.getElem_and, BitVec.getElem_or, BitVec.getElem_not]
      cases threadStatYield[i] <;> simp
    rw [split, inside, BitVec.zero_or]
    rfl
  rw [yields, same, yields]

theorem Thread.suspended_iff {thread : Thread} :
    thread.suspended ↔ thread.state &&& threadSuspendMask = threadSuspendMask := by
  have same : thread.state &&& threadSuspendMask = thread.stat &&& threadSuspendMask := by
    rw [Thread.state, BitVec.and_assoc]
    rfl
  rw [same, Thread.suspended]

theorem Thread.not_suspended {thread : Thread} {state : BitVec 8} (is : thread.state = state)
    (without : state &&& threadSuspendMask = 0#8) : ¬ thread.suspended := by
  rw [Thread.suspended_iff, is, without]
  decide

theorem Thread.state_ne_of_suspended {thread : Thread} (suspended : thread.suspended)
    {state : BitVec 8} (without : state &&& threadSuspendMask = 0#8) : thread.state ≠ state :=
  fun is => Thread.not_suspended is without suspended

/-- A thread that runs or waits for the processor only. -/
def Thread.awake (thread : Thread) : Prop :=
  thread.state = threadReady ∨ thread.state = threadRunning

theorem Thread.stat_yield (thread : Thread) :
    (thread.stat ||| threadStatYield) &&& threadStatMask = thread.stat &&& threadStatMask := by
  have apart : threadStatYield &&& threadStatMask = 0#8 := rfl
  ext i bound
  have here : (threadStatYield &&& threadStatMask)[i] = false := by simp [apart]
  rw [BitVec.getElem_and] at here
  simp only [BitVec.getElem_and, BitVec.getElem_or]
  revert here
  cases threadStatYield[i] <;> cases threadStatMask[i] <;> simp

theorem SuspendFlag.state (thread : Thread) (flag : SuspendFlag) :
    (thread.setState flag.stat).state = flag.stat :=
  thread.setState_state flag.stat (by cases flag <;> rfl)

theorem SuspendFlag.stat_ne (flag : SuspendFlag) :
    flag.stat ≠ threadReady ∧ flag.stat ≠ threadInit ∧ flag.stat ≠ threadRunning := by
  cases flag <;> decide

/-- The mask goes with the priority; a thread that was never started may have none yet. -/
def Thread.Masked (thread : Thread) : Prop :=
  thread.numberMask = 1#32 <<< thread.currentPriority.val ∨
    thread.numberMask = 0#32 ∧ (thread.state = threadInit ∨ thread.state = threadClose)

theorem Thread.close_state (thread : Thread) :
    (thread.setStat threadClose).state = threadClose := by
  have value : threadClose &&& threadStatMask = threadClose := by decide
  exact value

theorem Thread.Masked.close {thread : Thread} (mask : thread.Masked) :
    (thread.setStat threadClose).Masked :=
  mask.imp id fun zero => ⟨zero.1, .inr thread.close_state⟩

/-!
## Lists and group
-/

theorem getLsbD_priorityMask (priority : Priority) (p : Nat) :
    (1#32 <<< priority.val).getLsbD p = decide (p = priority.val) := by
  have bit := BitVec.getLsbD_twoPow priority.val p (w := 32)
  rw [BitVec.twoPow, decide_eq_true priority.isLt, Bool.true_and] at bit
  rw [bit]
  exact decide_eq_decide.mpr eq_comm

namespace Scheduler

variable {T K : Type} {sched : Scheduler T K} {queue : Head K → List T} {t : T} {loose : Option T}

/-- The lists hold the threads `queue` has on them, each one where its status says, and the
group has a bit for each ready list that is not empty. The thread `loose`, if any, is on no
list, whatever its status. -/
structure Filed (sched : Scheduler T K) (queue : Head K → List T) (loose : Option T) : Prop where
  lists : sched.links.Lists queue
  group : ∀ p : Priority, sched.readyPriorityGroup.getLsbD p = true ↔ queue (.ready p) ≠ []
  ready : ∀ {t}, some t ≠ loose → ∀ p, t ∈ queue (.ready p) ↔
    (sched.thread t).state = threadReady ∧ (sched.thread t).currentPriority = p
  suspended : ∀ {t k}, t ∈ queue (.suspend k) → (sched.thread t).suspended
  defunct : ∀ {t}, t ∈ queue .defunct → (sched.thread t).state = threadClose
  mask : ∀ {t}, some t ≠ loose → (sched.thread t).Masked
  loose : ∀ {t}, loose = some t → ∀ h, t ∉ queue h

/-- A thread that was started has its mask. -/
theorem Filed.mask_of_state (filed : sched.Filed queue none) {state : BitVec 8}
    (is : (sched.thread t).state = state) (fresh : state ≠ threadInit)
    (closed : state ≠ threadClose) :
    (sched.thread t).numberMask = 1#32 <<< (sched.thread t).currentPriority.val := by
  rcases filed.mask (Option.some_ne_none t) with mask | ⟨_, not_ | not_⟩
  · exact mask
  · exact absurd (is.symm.trans not_) fresh
  · exact absurd (is.symm.trans not_) closed

theorem Filed.mask_of_suspended (filed : sched.Filed queue none)
    (suspended : (sched.thread t).suspended) :
    (sched.thread t).numberMask = 1#32 <<< (sched.thread t).currentPriority.val :=
  filed.mask_of_state rfl (Thread.state_ne_of_suspended suspended rfl)
    (Thread.state_ne_of_suspended suspended rfl)

/-- The status of a thread on one of the lists. -/
theorem Filed.state_of_mem (filed : sched.Filed queue none) {h : Head K} (member : t ∈ queue h) :
    (sched.thread t).state = threadReady ∨ (sched.thread t).suspended ∨
      (sched.thread t).state = threadClose := by
  cases h with
  | ready p => exact .inl ((filed.ready (Option.some_ne_none t) p).mp member).1
  | suspend k => exact .inr (.inl (filed.suspended member))
  | defunct => exact .inr (.inr (filed.defunct member))

theorem Filed.not_mem_of_running (filed : sched.Filed queue none)
    (running : (sched.thread t).state = threadRunning) (h : Head K) : t ∉ queue h := by
  intro member
  rcases filed.state_of_mem member with ready | suspended | closed
  · exact absurd (running.symm.trans ready) (by decide)
  · exact Thread.not_suspended running (by decide) suspended
  · exact absurd (running.symm.trans closed) (by decide)

theorem Filed.not_mem_of_init (filed : sched.Filed queue none)
    (fresh : (sched.thread t).state = threadInit) (h : Head K) : t ∉ queue h := by
  intro member
  rcases filed.state_of_mem member with ready | suspended | closed
  · exact absurd (fresh.symm.trans ready) (by decide)
  · exact Thread.not_suspended fresh (by decide) suspended
  · exact absurd (fresh.symm.trans closed) (by decide)

theorem Filed.loosen (filed : sched.Filed queue none) (absent : ∀ h, t ∉ queue h) :
    sched.Filed queue (some t) where
  lists := filed.lists
  group := filed.group
  ready _ := filed.ready (Option.some_ne_none _)
  suspended := filed.suspended
  defunct := filed.defunct
  mask _ := filed.mask (Option.some_ne_none _)
  loose same := Option.some.inj same ▸ absent

/-- A thread on no list is filed when it is not ready. -/
theorem Filed.settle (filed : sched.Filed queue (some t))
    (notReady : (sched.thread t).state ≠ threadReady) (mask : (sched.thread t).Masked) :
    sched.Filed queue none where
  lists := filed.lists
  group := filed.group
  ready {u} _ p := by
    rcases eq_or_ne t u with rfl | other
    · exact iff_of_false (filed.loose rfl _) fun ready => notReady ready.1
    · exact filed.ready (fun same => other (Option.some.inj same).symm) p
  suspended := filed.suspended
  defunct := filed.defunct
  mask {u} _ := by
    rcases eq_or_ne t u with rfl | other
    · exact mask
    · exact filed.mask fun same => other (Option.some.inj same).symm
  loose same := by cases same

/-- Who the current thread is does not matter to the lists. -/
theorem Filed.setCurrent (filed : sched.Filed queue loose) (current : Option T) :
    { sched with currentThread := current }.Filed queue loose :=
  ⟨filed.lists, filed.group, filed.ready, filed.suspended, filed.defunct, filed.mask, filed.loose⟩

theorem Filed.setLockNest (filed : sched.Filed queue loose) (lockNest : BitVec 16) :
    { sched with lockNest := lockNest }.Filed queue loose :=
  ⟨filed.lists, filed.group, filed.ready, filed.suspended, filed.defunct, filed.mask, filed.loose⟩

/-- Where `rt_schedule_insert_thread` puts a thread on its ready list. -/
def inserted (thread : Thread) (t : T) (list : List T) : List T :=
  if thread.yields then list ++ [t] else t :: list

theorem mem_inserted {thread : Thread} {u : T} {list : List T} :
    u ∈ inserted thread t list ↔ u = t ∨ u ∈ list := by
  rw [inserted]
  split
  · rw [List.mem_append, List.mem_singleton, or_comm]
  · exact List.mem_cons

/-- Only the threads of the list have changed, and not their priorities. -/
structure Frame (sched sched' : Scheduler T K) (touched : List T) : Prop where
  lockNest : sched'.lockNest = sched.lockNest
  priority : ∀ u, (sched'.thread u).currentPriority = (sched.thread u).currentPriority
  other : ∀ u ∉ touched, sched'.thread u = sched.thread u

theorem Frame.trans {sched₁ sched₂ sched₃ : Scheduler T K} {touched : List T}
    (first : Frame sched₁ sched₂ touched) (second : Frame sched₂ sched₃ touched) :
    Frame sched₁ sched₃ touched where
  lockNest := second.lockNest.trans first.lockNest
  priority u := (second.priority u).trans (first.priority u)
  other u apart := (second.other u apart).trans (first.other u apart)

/-- A thread comes to a list that is not a ready list. -/
theorem Filed.hang [DecidableEq K] (filed : sched.Filed queue (some t))
    {links : Links (Head K ⊕ T)} {h : Head K}
    {list : List T} (lists : links.Lists (Function.update queue h list))
    (gained : ∀ u, u ∈ list ↔ u = t ∨ u ∈ queue h) (notReady : ∀ p, h ≠ .ready p)
    (state : (sched.thread t).state ≠ threadReady)
    (suspended : ∀ k, h = .suspend k → (sched.thread t).suspended)
    (defunct : h = .defunct → (sched.thread t).state = threadClose)
    (mask : (sched.thread t).Masked) :
    { sched with links := links }.Filed (Function.update queue h list) none := by
  have settled := filed.settle state mask
  constructor
  case lists => exact lists
  case group =>
    intro p
    rw [Function.update_of_ne (notReady p).symm]
    exact filed.group p
  case ready =>
    intro u other p
    rw [Function.update_of_ne (notReady p).symm]
    exact settled.ready other p
  case suspended =>
    intro u k member
    rcases eq_or_ne (.suspend k) h with rfl | apart
    · rw [Function.update_self, gained] at member
      rcases member with rfl | old
      · exact suspended k rfl
      · exact filed.suspended old
    · rw [Function.update_of_ne apart] at member
      exact filed.suspended member
  case defunct =>
    intro u member
    rcases eq_or_ne .defunct h with rfl | apart
    · rw [Function.update_self, gained] at member
      rcases member with rfl | old
      · exact defunct rfl
      · exact filed.defunct old
    · rw [Function.update_of_ne apart] at member
      exact filed.defunct member
  case mask => exact settled.mask
  case loose =>
    intro u same
    cases same

section Operations

variable [DecidableEq T]

@[simp] theorem setThread_self (sched : Scheduler T K) (t : T) (thread : Thread) :
    (sched.setThread t thread).thread t = thread := Function.update_self ..

theorem setThread_of_ne (sched : Scheduler T K) {t u : T} (other : u ≠ t) (thread : Thread) :
    (sched.setThread t thread).thread u = sched.thread u := Function.update_of_ne other ..

@[simp] theorem setThread_current (sched : Scheduler T K) (t : T) (thread : Thread) :
    (sched.setThread t thread).currentThread = sched.currentThread := rfl

theorem setThread_frame (sched : Scheduler T K) {t : T} (thread : Thread) {touched : List T}
    (same : thread.currentPriority = (sched.thread t).currentPriority) (member : t ∈ touched) :
    Frame sched (sched.setThread t thread) touched where
  lockNest := rfl
  priority u := by
    rcases eq_or_ne u t with rfl | other
    · rw [setThread_self, same]
    · rw [setThread_of_ne sched other]
  other u apart := setThread_of_ne sched (ne_of_mem_of_not_mem member apart).symm thread

theorem Filed.setThread (filed : sched.Filed queue (some t)) (thread : Thread) :
    (sched.setThread t thread).Filed queue (some t) where
  lists := filed.lists
  group := filed.group
  ready {u} other p := by
    rw [setThread_of_ne sched fun same => other (congrArg some same)]
    exact filed.ready other p
  suspended {u k} member := by
    have other : u ≠ t := fun same => filed.loose rfl _ (same ▸ member)
    rw [setThread_of_ne sched other]
    exact filed.suspended member
  defunct {u} member := by
    have other : u ≠ t := fun same => filed.loose rfl _ (same ▸ member)
    rw [setThread_of_ne sched other]
    exact filed.defunct member
  mask {u} other := by
    rw [setThread_of_ne sched fun same => other (congrArg some same)]
    exact filed.mask other
  loose := filed.loose

/-- A thread changes and stays where it is. -/
theorem Filed.update (filed : sched.Filed queue none) {thread : Thread}
    (state : thread.state = (sched.thread t).state)
    (priority : (sched.thread t).state = threadReady →
      thread.currentPriority = (sched.thread t).currentPriority) (mask : thread.Masked) :
    (sched.setThread t thread).Filed queue none where
  lists := filed.lists
  group := filed.group
  ready {u} _ p := by
    rw [filed.ready (Option.some_ne_none u)]
    rcases eq_or_ne u t with rfl | other
    · rw [setThread_self, state]
      exact and_congr_right fun ready => by rw [priority ready]
    · rw [setThread_of_ne sched other]
  suspended {u k} member := by
    rcases eq_or_ne u t with rfl | other
    · rw [setThread_self, Thread.suspended_iff, state, ← Thread.suspended_iff]
      exact filed.suspended member
    · rw [setThread_of_ne sched other]
      exact filed.suspended member
  defunct {u} member := by
    rcases eq_or_ne u t with rfl | other
    · rw [setThread_self, state]
      exact filed.defunct member
    · rw [setThread_of_ne sched other]
      exact filed.defunct member
  mask {u} _ := by
    rcases eq_or_ne u t with rfl | other
    · rwa [setThread_self]
    · rw [setThread_of_ne sched other]
      exact filed.mask (Option.some_ne_none u)
  loose same := by cases same

variable [DecidableEq K]

@[simp] theorem remove_thread (sched : Scheduler T K) (t : T) :
    (sched.scheduleRemoveThread t).thread = sched.thread := rfl

@[simp] theorem remove_current (sched : Scheduler T K) (t : T) :
    (sched.scheduleRemoveThread t).currentThread = sched.currentThread := rfl

/-- The lists without a thread, in any case. -/
theorem Filed.removed (filed : sched.Filed queue none)
    {group : UBase}
    (bits : ∀ p : Priority, group.getLsbD p = true ↔ (queue (.ready p)).erase t ≠ []) :
    { sched with links := sched.links.remove (.inr t), readyPriorityGroup := group }.Filed
      (fun h => (queue h).erase t) (some t) where
  lists := filed.lists.remove t
  group := bits
  ready {u} other p := by
    rw [List.mem_erase_of_ne fun same => other (congrArg some same)]
    exact filed.ready (Option.some_ne_none u) p
  suspended member := filed.suspended (List.mem_of_mem_erase member)
  defunct member := filed.defunct (List.mem_of_mem_erase member)
  mask _ := filed.mask (Option.some_ne_none _)
  loose same := Option.some.inj same ▸ filed.lists.not_mem_remove t

theorem Filed.remove (filed : sched.Filed queue none) (t : T) :
    (sched.scheduleRemoveThread t).Filed (fun h => (queue h).erase t) (some t) := by
  refine filed.removed fun p => ?_
  have lists := filed.lists.remove t
  have elsewhere (other : p ≠ (sched.thread t).currentPriority) :
      (queue (.ready p)).erase t = queue (.ready p) := by
    refine List.erase_of_not_mem fun member => other ?_
    exact ((filed.ready (Option.some_ne_none t) p).mp member).2.symm
  split
  · next empty =>
      rw [lists.isEmpty_iff] at empty
      rcases filed.mask (Option.some_ne_none t) with mask | ⟨zero, state⟩
      · rw [mask, BitVec.getLsbD_and, BitVec.getLsbD_not, getLsbD_priorityMask]
        rcases eq_or_ne p (sched.thread t).currentPriority with rfl | other
        · simp [empty]
        · rw [elsewhere other, ← filed.group p, decide_eq_false (Fin.val_ne_of_ne other)]
          simp
      · have absent : t ∉ queue (.ready p) := by
          intro member
          have ready := ((filed.ready (Option.some_ne_none t) p).mp member).1
          rcases state with fresh | closed
          · exact absurd (ready.symm.trans fresh) (by decide)
          · exact absurd (ready.symm.trans closed) (by decide)
        have same : sched.readyPriorityGroup &&& ~~~0#32 = sched.readyPriorityGroup := by
          rw [BitVec.not_zero, BitVec.and_allOnes]
        rw [zero, same, List.erase_of_not_mem absent]
        exact filed.group p
  · next nonempty =>
      rw [lists.isEmpty_iff] at nonempty
      rcases eq_or_ne p (sched.thread t).currentPriority with rfl | other
      · refine iff_of_true ((filed.group _).mpr fun nil => nonempty ?_) nonempty
        rw [nil, List.erase_nil]
      · rw [elsewhere other]
        exact filed.group p

/-- A thread that is not ready leaves its list, if it is on one. -/
theorem Filed.unhang (filed : sched.Filed queue none)
    (state : (sched.thread t).state ≠ threadReady) :
    { sched with links := sched.links.remove (.inr t) }.Filed (fun h => (queue h).erase t)
      (some t) := by
  refine filed.removed fun p => ?_
  have absent : t ∉ queue (.ready p) := fun member =>
    state ((filed.ready (Option.some_ne_none t) p).mp member).1
  rw [List.erase_of_not_mem absent]
  exact filed.group p

theorem Filed.insert (filed : sched.Filed queue (some t)) (other : sched.currentThread ≠ some t)
    (mask : (sched.thread t).numberMask = 1#32 <<< (sched.thread t).currentPriority.val) :
    (sched.scheduleInsertThread t).Filed
      (Function.update queue (.ready (sched.thread t).currentPriority)
        (inserted (sched.thread t) t (queue (.ready (sched.thread t).currentPriority)))) none := by
  have absent := filed.loose rfl
  have state := (sched.thread t).setState_state threadReady rfl
  have yields := (sched.thread t).setState_yields threadReady rfl
  rw [scheduleInsertThread, if_neg other]
  dsimp only
  generalize listEq : inserted (sched.thread t) t _ = list
  have gained (u : T) : u ∈ list ↔
      u = t ∨ u ∈ queue (.ready (sched.thread t).currentPriority) := by
    rw [← listEq, mem_inserted]
  constructor
  case lists =>
    subst listEq
    by_cases yield : (sched.thread t).yields
    · rw [inserted, if_pos yield, if_pos (yields.mpr yield)]
      exact filed.lists.insertBefore absent _
    · rw [inserted, if_neg yield, if_neg (mt yields.mp yield)]
      exact filed.lists.insertAfter absent _
  case group =>
    intro p
    have bit : ((sched.thread t).setState threadReady).numberMask.getLsbD p.val =
        decide (p.val = (sched.thread t).currentPriority.val) := by
      rw [← getLsbD_priorityMask, ← mask]
      rfl
    rw [BitVec.getLsbD_or, bit, Bool.or_eq_true, decide_eq_true_iff, ← Fin.ext_iff]
    rcases eq_or_ne p (sched.thread t).currentPriority with rfl | apart
    · rw [Function.update_self]
      exact iff_of_true (.inr rfl) (List.ne_nil_of_mem ((gained t).mpr (.inl rfl)))
    · rw [Function.update_of_ne (fun same => apart (Head.ready.inj same))]
      exact (or_iff_left apart).trans (filed.group p)
  case ready =>
    intro u _ p
    rcases eq_or_ne u t with rfl | different
    · simp only [setThread_self]
      rw [state]
      rcases eq_or_ne p (sched.thread u).currentPriority with rfl | apart
      · rw [Function.update_self]
        exact iff_of_true ((gained u).mpr (.inl rfl)) ⟨rfl, rfl⟩
      · rw [Function.update_of_ne (fun same => apart (Head.ready.inj same))]
        exact iff_of_false (absent _) fun here => apart here.2.symm
    · have loose : some u ≠ some t := fun same => different (Option.some.inj same)
      rw [setThread_of_ne sched different, ← filed.ready loose p]
      rcases eq_or_ne p (sched.thread t).currentPriority with rfl | apart
      · rw [Function.update_self, gained]
        exact or_iff_right different
      · rw [Function.update_of_ne (fun same => apart (Head.ready.inj same))]
  case suspended =>
    intro u k member
    rw [Function.update_of_ne (by simp)] at member
    have different : u ≠ t := fun same => absent _ (same ▸ member)
    rw [setThread_of_ne sched different]
    exact filed.suspended member
  case defunct =>
    intro u member
    rw [Function.update_of_ne (by simp)] at member
    have different : u ≠ t := fun same => absent _ (same ▸ member)
    rw [setThread_of_ne sched different]
    exact filed.defunct member
  case mask =>
    intro u _
    rcases eq_or_ne u t with rfl | different
    · simp only [setThread_self]
      exact .inl mask
    · rw [setThread_of_ne sched different]
      exact filed.mask fun same => different (Option.some.inj same)
  case loose =>
    intro u same
    cases same

theorem scheduleInsertThread_current (sched : Scheduler T K) (t : T) :
    (sched.scheduleInsertThread t).currentThread = sched.currentThread := by
  rw [scheduleInsertThread]
  split <;> rfl

/-- The thread is made ready, or goes on running when it is the current one. -/
theorem scheduleInsertThread_self (sched : Scheduler T K) (t : T) :
    (sched.scheduleInsertThread t).thread t = (sched.thread t).setState
      (if sched.currentThread = some t then threadRunning else threadReady) := by
  rw [scheduleInsertThread]
  split <;> exact Function.update_self ..

theorem scheduleInsertThread_other (sched : Scheduler T K) {t u : T} (other : u ≠ t) :
    (sched.scheduleInsertThread t).thread u = sched.thread u := by
  rw [scheduleInsertThread]
  split <;> exact Function.update_of_ne other ..

end Operations

/-- The first thread of the first ready list that is not empty. -/
theorem Filed.highest (filed : sched.Filed queue loose) (some_ : sched.readyPriorityGroup ≠ 0#32) :
    ∃ highest first rest, sched.getHighestPriorityThread = some (highest, first) ∧
      queue (.ready highest) = first :: rest ∧ ∀ p < highest, queue (.ready p) = [] := by
  obtain ⟨k, place, lowest⟩ := rtFfs_spec some_
  have bound : k < 32 := BitVec.lt_of_getLsbD lowest.set
  have index : (BitVec.ofNat 32 (rtFfs sched.readyPriorityGroup) - 1#32).toNat = k := by
    rw [place, BitVec.ofNat_add, BitVec.add_sub_cancel, BitVec.toNat_ofNat]
    omega
  have nonempty := (filed.group ⟨k, bound⟩).mp lowest.set
  obtain ⟨first, rest, listed⟩ := List.exists_cons_of_ne_nil nonempty
  refine ⟨⟨k, bound⟩, first, rest, ?_, listed, fun p early => ?_⟩
  · rw [getHighestPriorityThread]
    simp only [index, bound, ↓reduceDIte]
    rw [filed.lists.next_head, listed]
    rfl
  · have clear := lowest.clear p.val early
    by_contra some_
    rw [(filed.group p).mpr some_] at clear
    cases clear

end Scheduler

end Ysyx.RtThread
