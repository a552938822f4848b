import Ysyx.Npc.InterconnectRelay

/-! Where the interconnect can be in a transaction, and what is then on its lines and in its
register slices. -/

set_option autoImplicit false

namespace Ysyx.Npc.Amba

open Lib (Machine Skid)

/-!
## One place of a range
-/

theorem flatMap_range_eq {α : Type} {f : Nat → List α} {n j : Nat}
    (only : ∀ i, i = j ∧ i < n ∨ f i = []) : (List.range n).flatMap f = f j := by
  have others (i : Nat) (other : i ≠ j) : f i = [] := (only i).resolve_left fun here => other here.1
  have counted : (List.range n).flatMap f = if j < n then f j else [] := by
    clear only
    induction n with
    | zero => rfl
    | succ n ih =>
        rw [List.range_succ, List.flatMap_append, ih]
        rcases Nat.lt_trichotomy j n with before | rfl | after
        · simp [before, Nat.lt_succ_of_lt before, others n (Nat.ne_of_gt before)]
        · simp
        · have past : ¬ j < n + 1 := by omega
          simp [Nat.lt_asymm after, past, others n (Nat.ne_of_lt after)]
  rw [counted]
  split
  · rfl
  · rename_i past
    exact ((only j).resolve_left fun here => past here.2).symm

namespace AddressMap

variable {map : AddressMap} {read : Bool} {s : Nat} {req : AxiReq}

theorem mem_of_foldl {α : Type} (hits : α → Bool) {x : α} (places : List α) (found : Option α)
    (last : places.foldl (fun found place => if hits place then some place else found) found =
      some x) : found = some x ∨ x ∈ places := by
  induction places generalizing found with
  | nil => exact .inl last
  | cons place places ih =>
      rw [List.foldl_cons] at last
      rcases ih _ last with here | later
      · split at here
        · obtain rfl := Option.some.inj here
          exact .inr List.mem_cons_self
        · exact .inl here
      · exact .inr (List.mem_cons_of_mem _ later)

theorem decode_lt {m region : Nat} (found : map.decode read s req = some (m, region)) :
    m < map.mCount := by
  rcases mem_of_foldl (fun place : Nat × Nat => map.hits read s req place.1 place.2) _ _ found with
    here | member
  · cases here
  · rw [List.mem_flatMap] at member
    obtain ⟨m', inRange, member⟩ := member
    rw [List.mem_map] at member
    obtain ⟨region', _, same⟩ := member
    cases same
    exact List.mem_range.mp inRange

end AddressMap

/-!
## Ports out of the transaction
-/

namespace Interconnect

variable {i j : Nat}

@[simp] theorem only_self (value : Bool) : only i value i = value := Function.update_self _ _ _

theorem only_of_ne (other : j ≠ i) (value : Bool) : only i value j = false :=
  Function.update_of_ne other _ _

end Interconnect

structure MasterQuiet (ic : Interconnect) (s : Nat) : Prop where
  arready : ic.sArready s = false
  awready : ic.sAwready s = false
  wready : ic.sWready s = false
  bvalid : ic.sBvalid s = false
  rvalid : ic.r.valid s = false

structure SlaveQuiet (sys : BusSystem) (m : Nat) : Prop where
  arvalid : sys.ic.mArvalid m = false
  awvalid : sys.ic.mAwvalid m = false
  wvalid : sys.ic.w.valid m = false
  port : sys.slaves m = .clear

/-- A transaction holds the grant; nothing else is under way. -/
structure Held (map : AddressMap) (sys : BusSystem) : Prop where
  granted : sys.ic.arbiter.Granted (2 * map.sCount)
  masters : ∀ s, s ≠ sys.ic.sSelect → MasterQuiet sys.ic s
  slaves : ∀ m, m ≠ sys.ic.mSelect → SlaveQuiet sys m
  r : sys.ic.r.Ordered sys.ic.sSelect
  w : sys.ic.w.Ordered sys.ic.mSelect

/-- Nothing at all is under way. -/
structure Resting (sys : BusSystem) : Prop where
  masters : ∀ s, MasterQuiet sys.ic s
  slaves : ∀ m, SlaveQuiet sys m
  r : sys.ic.r.Ordered sys.ic.sSelect
  w : sys.ic.w.Ordered sys.ic.mSelect

variable {map : AddressMap} {input : BusInput} {sys : BusSystem}

section Quiet

variable {s m : Nat}

theorem MasterQuiet.accepts (quiet : MasterQuiet sys.ic s) : sys.accepts input s = [] := by
  simp [BusSystem.accepts, quiet.arready, quiet.awready]

theorem MasterQuiet.gives (quiet : MasterQuiet sys.ic s) : sys.gives input s = [] := by
  simp [BusSystem.gives, Skid.given, quiet.rvalid]

theorem MasterQuiet.takes (quiet : MasterQuiet sys.ic s) : sys.takes input s = [] := by
  simp [BusSystem.takes, quiet.wready]

theorem MasterQuiet.finishes (quiet : MasterQuiet sys.ic s) : sys.finishes input s = [] := by
  simp [BusSystem.finishes, quiet.bvalid]

theorem SlaveQuiet.sends (quiet : SlaveQuiet sys m) : sys.sends input m = [] := by
  simp [BusSystem.sends, quiet.arvalid, quiet.awvalid]

theorem SlaveQuiet.reads (quiet : SlaveQuiet sys m) : sys.reads input m = [] := by
  simp [BusSystem.reads, BusSystem.slaveLines, SlavePort.drive, quiet.port, SlavePort.clear]

theorem SlaveQuiet.writes (quiet : SlaveQuiet sys m) : sys.writes input m = [] := by
  simp [BusSystem.writes, Skid.given, quiet.wvalid]

theorem SlaveQuiet.answers (quiet : SlaveQuiet sys m) : sys.answers input m = [] := by
  simp [BusSystem.answers, BusSystem.slaveLines, SlavePort.drive, quiet.port, SlavePort.clear]

/-- A master that the grant does not name stays out. -/
theorem MasterQuiet.next (quiet : MasterQuiet sys.ic s) (other : s ≠ sys.ic.sSelect) :
    MasterQuiet (sys.step map input).ic s where
  arready := Interconnect.only_of_ne other _
  awready := Interconnect.only_of_ne other _
  wready := Interconnect.only_of_ne other _
  bvalid := by
    simp only [BusSystem.step, Interconnect.next, Interconnect.sBvalidNext]
    split_ifs
    all_goals simp [Function.update_of_ne other, quiet.bvalid]
  rvalid := by
    simp only [BusSystem.step, Interconnect.next, Skid.next]
    split_ifs
    all_goals simp [Function.update_of_ne other, quiet.rvalid]

/-- A slave stays out while no address is sent to it. -/
theorem SlaveQuiet.next (quiet : SlaveQuiet sys m) (w : sys.ic.w.Ordered sys.ic.mSelect)
    (out : m ≠ sys.ic.mSelect ∨ sys.ic.state ≠ .read ∧ sys.ic.state ≠ .write) :
    SlaveQuiet (sys.step map input) m where
  arvalid := by
    simp only [BusSystem.step, Interconnect.next, Interconnect.mArvalidNext]
    split
    · rename_i addressed
      rw [Bool.and_eq_true, beq_iff_eq] at addressed
      rw [Function.update_of_ne (out.resolve_right fun off => off.1 addressed.1)]
      simp [quiet.arvalid]
    · simp [quiet.arvalid]
  awvalid := by
    simp only [BusSystem.step, Interconnect.next, Interconnect.mAwvalidNext]
    split
    · rename_i addressed
      rw [Bool.and_eq_true, beq_iff_eq] at addressed
      rw [Function.update_of_ne (out.resolve_right fun off => off.2 addressed.1)]
      simp [quiet.awvalid]
    · simp [quiet.awvalid]
  wvalid := by
    by_cases here : m = sys.ic.mSelect
    · subst here
      have off := (out.resolve_left fun other => other rfl).2
      have unpushed : sys.ic.wPush (sys.masterLines input) = false := by
        rw [Interconnect.wPush]
        split
        · rename_i writes
          exact absurd writes off
        · rfl
      simp only [BusSystem.step, Interconnect.next, unpushed]
      exact w.valid_next quiet.wvalid _ _
    · simp only [BusSystem.step, Interconnect.next, Skid.next]
      split_ifs
      all_goals simp [Function.update_of_ne here, quiet.wvalid]
  port := by
    simp [BusSystem.step, BusSystem.slavePort, quiet.arvalid, quiet.awvalid, quiet.wvalid,
      quiet.port, SlavePort.clear]

end Quiet

/-!
## Cycles of a transaction
-/

/-- The transaction ends at its master in this cycle. -/
def Interconnect.done (ic : Interconnect) (masters : Nat → MasterLines) : Bool :=
  if ic.isRead then ic.r.valid ic.sSelect && (ic.master masters).rready && ic.r.out.last
  else ic.sBvalid ic.sSelect && (ic.master masters).bready

namespace Held

theorem sSelect_lt (held : Held map sys) : sys.ic.sSelect < map.sCount := by
  have bound := held.granted.bound
  rw [Interconnect.sSelect]
  omega

/-- Only the transaction's own master and slave shake hands. -/
theorem out_eq (held : Held map sys)
    (bound : sys.ic.mSelect < map.mCount ∨ SlaveQuiet sys sys.ic.mSelect) :
    sys.out map input =
      sys.accepts input sys.ic.sSelect ++ sys.sends input sys.ic.mSelect ++
        sys.gives input sys.ic.sSelect ++ sys.reads input sys.ic.mSelect ++
        sys.writes input sys.ic.mSelect ++ sys.takes input sys.ic.sSelect ++
        sys.answers input sys.ic.mSelect ++ sys.finishes input sys.ic.sSelect := by
  have onMasters {events : Nat → List BusEvent}
      (quiet : ∀ s, MasterQuiet sys.ic s → events s = []) :
      (List.range map.sCount).flatMap events = events sys.ic.sSelect :=
    flatMap_range_eq fun s =>
      if here : s = sys.ic.sSelect then .inl ⟨here, here ▸ held.sSelect_lt⟩
      else .inr (quiet s (held.masters s here))
  have onSlaves {events : Nat → List BusEvent} (quiet : ∀ m, SlaveQuiet sys m → events m = []) :
      (List.range map.mCount).flatMap events = events sys.ic.mSelect := by
    refine flatMap_range_eq fun m => ?_
    by_cases here : m = sys.ic.mSelect
    · subst here
      exact bound.imp (fun bound => ⟨rfl, bound⟩) (quiet _)
    · exact .inr (quiet m (held.slaves m here))
  rw [BusSystem.out, onMasters fun s => MasterQuiet.accepts, onSlaves fun m => SlaveQuiet.sends,
    onMasters fun s => MasterQuiet.gives, onSlaves fun m => SlaveQuiet.reads,
    onSlaves fun m => SlaveQuiet.writes, onMasters fun s => MasterQuiet.takes,
    onSlaves fun m => SlaveQuiet.answers, onMasters fun s => MasterQuiet.finishes]

theorem any_acknowledge (held : Held map sys) (masters : Nat → MasterLines) :
    (List.range (2 * map.sCount)).any (sys.ic.acknowledge masters) = sys.ic.done masters := by
  have here : sys.ic.acknowledge masters sys.ic.arbiter.grantEncoded = sys.ic.done masters := by
    simp only [Interconnect.acknowledge, held.granted.grant, beq_self_eq_true, Bool.true_and,
      Interconnect.done, Interconnect.isRead, beq_iff_eq]
    rfl
  cases done : sys.ic.done masters with
  | true =>
      rw [List.any_eq_true]
      exact ⟨_, List.mem_range.mpr held.granted.bound, here.trans done⟩
  | false =>
      rw [List.any_eq_false]
      intro p _
      by_cases same : p = sys.ic.arbiter.grantEncoded
      · rw [same, here, done]
        nofun
      · simp [Interconnect.acknowledge, held.granted.grant, same]

theorem holds_eq (held : Held map sys) (masters : Nat → MasterLines) :
    sys.ic.arbiter.holds (2 * map.sCount) (sys.ic.acknowledge masters) =
      !sys.ic.done masters := by
  rw [Arbiter.holds, held.granted.valid, Bool.true_and, ← held.any_acknowledge]
  congr 2
  funext p
  rw [Interconnect.acknowledge, ← Bool.and_assoc, Bool.and_self]

variable (busy : sys.ic.done (sys.masterLines input) = false)
include busy

/-- The grant stays until the transaction ends. -/
theorem arbiter_step (held : Held map sys) :
    (sys.step map input).ic.arbiter = sys.ic.arbiter :=
  Arbiter.next_of_holds (by rw [held.holds_eq, busy]; rfl)

theorem sSelect_step (held : Held map sys) :
    (sys.step map input).ic.sSelect = sys.ic.sSelect := by
  rw [Interconnect.sSelect, held.arbiter_step busy, Interconnect.sSelect]

theorem isRead_step (held : Held map sys) : (sys.step map input).ic.isRead = sys.ic.isRead := by
  rw [Interconnect.isRead, held.arbiter_step busy, Interconnect.isRead]

theorem next (held : Held map sys)
    (stays : (sys.step map input).ic.mSelect = sys.ic.mSelect) :
    Held map (sys.step map input) where
  granted := held.arbiter_step busy ▸ held.granted
  masters s other := by
    rw [held.sSelect_step busy] at other
    exact (held.masters s other).next other
  slaves m other := by
    rw [stays] at other
    exact (held.slaves m other).next held.w (.inl other)
  r := by
    rw [held.sSelect_step busy]
    exact held.r.next _ _ _
  w := by
    rw [stays]
    exact held.w.next _ _ _

end Held

/-!
## Stages
-/

/-- The last beat, and no other, says that it is the last. -/
def Ends {β : Type} (last : β → Bool) : List β → Prop
  | [] => False
  | beat :: queue => last beat = queue.isEmpty ∧ (queue ≠ [] → Ends last queue)

theorem Ends.snoc {β : Type} {last : β → Bool} {queue : List β} {beat : β}
    (more : ∀ beat ∈ queue, last beat = false) (final : last beat = true) :
    Ends last (queue ++ [beat]) := by
  induction queue with
  | nil => exact ⟨final, fun some => absurd rfl some⟩
  | cons next queue ih =>
      refine ⟨?_, fun _ => ih fun beat member => more beat (List.mem_cons_of_mem _ member)⟩
      simp [more next List.mem_cons_self]

/-- The beats are made up one at a time while a counter runs down. -/
theorem errorBeats_eq (id : BitVec 4) (len : BitVec 8) :
    errorBeats id len.toNat =
      ⟨id, 0#32, 3#2, len == 0#8⟩ ::
        if len == 0#8 then [] else errorBeats id (len - 1#8).toNat := by
  by_cases zero : len = 0#8
  · subst zero
    rfl
  · have counts : len.toNat = (len - 1#8).toNat + 1 := by bv_omega
    rw [counts, errorBeats]
    simp [zero]

/-- The address that the grant is for waits at its master. -/
def BusSystem.Offered (sys : BusSystem) (req : AxiReq) : Prop :=
  if sys.ic.isRead then (sys.masters sys.ic.sSelect).ar = some req
  else (sys.masters sys.ic.sSelect).aw = some req

/-- The lines of a master whose read has been accepted. -/
structure ReadSide (ic : Interconnect) : Prop where
  isRead : ic.isRead = true
  arready : ic.sArready ic.sSelect = false
  awready : ic.sAwready ic.sSelect = false
  wready : ic.sWready ic.sSelect = false
  bvalid : ic.sBvalid ic.sSelect = false

/-- The lines of a master whose write has been accepted. -/
structure WriteSide (ic : Interconnect) : Prop where
  isRead : ic.isRead = false
  arready : ic.sArready ic.sSelect = false
  awready : ic.sAwready ic.sSelect = false
  rvalid : ic.r.valid ic.sSelect = false

structure Idle (map : AddressMap) (sys : BusSystem) : Prop where
  state : sys.ic.state = .idle
  resting : Resting sys
  offered : sys.ic.arbiter.grantValid = true →
    sys.ic.arbiter.Granted (2 * map.sCount) ∧ ∃ req, sys.Offered req

structure Decoding (map : AddressMap) (sys : BusSystem) : Prop where
  state : sys.ic.state = .decode
  held : Held map sys
  slave : SlaveQuiet sys sys.ic.mSelect
  arready : sys.ic.sArready sys.ic.sSelect = sys.ic.isRead
  awready : sys.ic.sAwready sys.ic.sSelect = !sys.ic.isRead
  wready : sys.ic.sWready sys.ic.sSelect = false
  bvalid : sys.ic.sBvalid sys.ic.sSelect = false
  rvalid : sys.ic.r.valid sys.ic.sSelect = false
  addrValid : sys.ic.addrValid = true
  offered : sys.Offered sys.ic.req

/-- The address waits in the interconnect, then on the lines, then it is sent. -/
def Addressing (addrValid valid sent : Bool) : Prop :=
  addrValid = true ∧ valid = false ∧ sent = false ∨
    addrValid = false ∧ valid = true ∧ sent = false ∨
      addrValid = false ∧ valid = false ∧ sent = true

structure Reading (map : AddressMap) (sys : BusSystem) (sent : Bool) (queue : List RBeat) :
    Prop where
  state : sys.ic.state = .read
  held : Held map sys
  side : ReadSide sys.ic
  bound : sys.ic.mSelect < map.mCount
  contents : sys.ic.r.contents sys.ic.sSelect = queue
  more : ∀ beat ∈ queue, beat.last = false
  awvalid : sys.ic.mAwvalid sys.ic.mSelect = false
  wvalid : sys.ic.w.valid sys.ic.mSelect = false
  port : sys.slaves sys.ic.mSelect = ⟨sent, false, false⟩
  ready : sys.ic.mRready sys.ic.mSelect = true → sys.ic.r.ready = true
  phase : Addressing sys.ic.addrValid (sys.ic.mArvalid sys.ic.mSelect) sent

structure Refusing (map : AddressMap) (sys : BusSystem) (queue : List RBeat) : Prop where
  state : sys.ic.state = .readDrop
  held : Held map sys
  side : ReadSide sys.ic
  slave : SlaveQuiet sys sys.ic.mSelect
  contents : queue =
    sys.ic.r.contents sys.ic.sSelect ++ errorBeats sys.ic.req.id sys.ic.req.len.toNat
  more : ∀ beat ∈ sys.ic.r.contents sys.ic.sSelect, beat.last = false

structure Returning (map : AddressMap) (sys : BusSystem) (queue : List RBeat) : Prop where
  state : sys.ic.state = .waitIdle
  held : Held map sys
  side : ReadSide sys.ic
  slave : SlaveQuiet sys sys.ic.mSelect
  contents : sys.ic.r.contents sys.ic.sSelect = queue
  ends : Ends RBeat.last queue

structure Writing (map : AddressMap) (sys : BusSystem) (sent : Bool) (queue : List WBeat) :
    Prop where
  state : sys.ic.state = .write
  held : Held map sys
  side : WriteSide sys.ic
  bound : sys.ic.mSelect < map.mCount
  bvalid : sys.ic.sBvalid sys.ic.sSelect = false
  contents : sys.ic.w.contents sys.ic.mSelect = queue
  more : ∀ beat ∈ queue, beat.last = false
  arvalid : sys.ic.mArvalid sys.ic.mSelect = false
  port : sys.slaves sys.ic.mSelect = ⟨false, sent, false⟩
  ready : sys.ic.sWready sys.ic.sSelect = true → sys.ic.w.ready = true
  phase : Addressing sys.ic.addrValid (sys.ic.mAwvalid sys.ic.mSelect) sent

/-- All beats of the write are taken from its master. -/
structure Closing (map : AddressMap) (sys : BusSystem) (sent : Bool) (queue : List WBeat) :
    Prop where
  state : sys.ic.state = .writeResp
  held : Held map sys
  side : WriteSide sys.ic
  bound : sys.ic.mSelect < map.mCount
  wready : sys.ic.sWready sys.ic.sSelect = false
  bvalid : sys.ic.sBvalid sys.ic.sSelect = false
  contents : sys.ic.w.contents sys.ic.mSelect = queue
  ends : queue ≠ [] → Ends WBeat.last queue
  arvalid : sys.ic.mArvalid sys.ic.mSelect = false
  awvalid : sys.ic.mAwvalid sys.ic.mSelect = !sent
  port : sys.slaves sys.ic.mSelect = ⟨false, sent, queue.isEmpty⟩

structure Dropping (map : AddressMap) (sys : BusSystem) : Prop where
  state : sys.ic.state = .writeDrop
  held : Held map sys
  side : WriteSide sys.ic
  slave : SlaveQuiet sys sys.ic.mSelect
  bvalid : sys.ic.sBvalid sys.ic.sSelect = false
  bresp : sys.ic.bresp = 3#2

structure Answering (map : AddressMap) (sys : BusSystem) : Prop where
  state : sys.ic.state = .waitIdle
  held : Held map sys
  side : WriteSide sys.ic
  slave : SlaveQuiet sys sys.ic.mSelect
  wready : sys.ic.sWready sys.ic.sSelect = false
  bvalid : sys.ic.sBvalid sys.ic.sSelect = true

/-- What the interconnect is doing when the relay is in this state. -/
inductive Stage (map : AddressMap) (sys : BusSystem) : Relay → Prop where
  | idle : Idle map sys → Stage map sys .idle
  | decoding : Decoding map sys → Stage map sys .idle
  | reading {sent queue} :
      Reading map sys sent queue →
      Stage map sys
        (.reading sys.ic.sSelect sys.ic.req sys.ic.mSelect sys.ic.region sent queue)
  | refusing {queue} : Refusing map sys queue → Stage map sys (.returning sys.ic.sSelect queue)
  | returning {queue} : Returning map sys queue → Stage map sys (.returning sys.ic.sSelect queue)
  | writing {sent queue} :
      Writing map sys sent queue →
      Stage map sys
        (.writing sys.ic.sSelect sys.ic.req sys.ic.mSelect sys.ic.region sent queue false)
  | closing {sent queue} :
      Closing map sys sent queue →
      Stage map sys
        (.writing sys.ic.sSelect sys.ic.req sys.ic.mSelect sys.ic.region sent queue true)
  | dropping : Dropping map sys → Stage map sys (.dropping sys.ic.sSelect sys.ic.req)
  | answering :
      Answering map sys →
      Stage map sys (.responding sys.ic.sSelect ⟨sys.ic.req.id, sys.ic.bresp⟩)

end Ysyx.Npc.Amba
