import Ysyx.Npc.InterconnectStages

/-! The interconnect is the relay: whatever the masters and the slaves do within the protocol,
its handshakes are those of one transaction after the other. -/

set_option autoImplicit false

namespace Ysyx.Npc.Amba

open Lib (Machine Skid)

variable {map : AddressMap} {input : BusInput} {sys : BusSystem}

/-- A cycle takes the relay to where the interconnect then is. -/
def Advances (map : AddressMap) (sys : BusSystem) (input : BusInput) (relay : Relay) : Prop :=
  ∃ relay', relay.run map (sys.out map input) = some relay' ∧
    Stage map (sys.step map input) relay'

/-!
## Between transactions
-/

theorem Resting.out_eq_nil (resting : Resting sys) : sys.out map input = [] := by
  simp [BusSystem.out, List.flatMap_eq_nil_iff, (resting.masters _).accepts,
    (resting.slaves _).sends, (resting.masters _).gives, (resting.slaves _).reads,
    (resting.slaves _).writes, (resting.masters _).takes, (resting.slaves _).answers,
    (resting.masters _).finishes]

/-- A granted address is still offered in the next cycle, as none is accepted in this one. -/
theorem exists_offered (unready : ∀ s, sys.ic.sArready s = false ∧ sys.ic.sAwready s = false)
    (requested : Interconnect.request (sys.masterLines input)
      (sys.step map input).ic.arbiter.grantEncoded = true) :
    ∃ req, (sys.step map input).Offered req := by
  rw [Interconnect.request] at requested
  simp only [BusSystem.Offered, Interconnect.isRead, Interconnect.sSelect, beq_iff_eq]
  generalize (sys.step map input).ic.arbiter.grantEncoded = p at requested ⊢
  split at requested
  · rename_i odd
    refine ⟨(sys.masterLines input (p / 2)).ar, ?_⟩
    rw [if_pos odd]
    rw [BusSystem.masterLines] at requested
    simp [BusSystem.step, MasterPort.next, unready, requested, BusSystem.masterLines]
  · rename_i even
    refine ⟨(sys.masterLines input (p / 2)).aw, ?_⟩
    rw [if_neg even]
    rw [BusSystem.masterLines] at requested
    simp [BusSystem.step, MasterPort.next, unready, requested, BusSystem.masterLines]

/-- The arbiter is free, and the lines rest: the next transaction can start. -/
theorem idle_next (state : (sys.step map input).ic.state = .idle)
    (free : sys.ic.arbiter.holds (2 * map.sCount)
      (sys.ic.acknowledge (sys.masterLines input)) = false)
    (unready : ∀ s, sys.ic.sArready s = false ∧ sys.ic.sAwready s = false)
    (resting : Resting (sys.step map input)) : Idle map (sys.step map input) where
  state := state
  resting := resting
  offered valid := by
    obtain ⟨granted, requested⟩ := Arbiter.next_granted free valid
    exact ⟨granted, exists_offered unready requested⟩

theorem Resting.of_quiet {sys : BusSystem} {s m : Nat}
    (masters : ∀ s, MasterQuiet sys.ic s) (slaves : ∀ m, SlaveQuiet sys m)
    (r : sys.ic.r.Ordered s) (w : sys.ic.w.Ordered m) : Resting sys where
  masters := masters
  slaves := slaves
  r := (r.turn ((Skid.contents_eq_nil r).mpr (masters s).rvalid) _).1
  w := (w.turn ((Skid.contents_eq_nil w).mpr (slaves m).wvalid) _).1

namespace Idle

theorem rests (idle : Idle map sys) (free : sys.ic.arbiter.grantValid = false) :
    Idle map (sys.step map input) := by
  obtain ⟨state, ⟨masters, slaves, r, w⟩, _⟩ := idle
  refine idle_next ?_ ?_ (fun s => ⟨(masters s).arready, (masters s).awready⟩)
    (Resting.of_quiet (fun s => ?_) (fun m => ?_) (r.next _ _ _) (w.next _ _ _))
  · simp [BusSystem.step, Interconnect.next, Interconnect.stateNext, state, free]
  · rw [Arbiter.holds, free, Bool.false_and]
  · by_cases here : s = sys.ic.sSelect
    · rw [here]
      constructor
      · simp [BusSystem.step, Interconnect.next, Interconnect.sArreadyNext, free]
      · simp [BusSystem.step, Interconnect.next, Interconnect.sAwreadyNext, free]
      · simp [BusSystem.step, Interconnect.next, Interconnect.sWreadyNext, state]
      · simp [BusSystem.step, Interconnect.next, Interconnect.sBvalidNext, state,
          (masters _).bvalid]
      · simp only [BusSystem.step, Interconnect.next, Interconnect.rPush, state]
        exact r.valid_next (masters _).rvalid _ _
    · exact (masters s).next here
  · exact (slaves m).next w (.inr (by simp [state]))

theorem held (idle : Idle map sys) (valid : sys.ic.arbiter.grantValid = true) : Held map sys where
  granted := (idle.offered valid).1
  masters s _ := idle.resting.masters s
  slaves m _ := idle.resting.slaves m
  r := idle.resting.r
  w := idle.resting.w

theorem decodes (idle : Idle map sys) (valid : sys.ic.arbiter.grantValid = true) :
    Decoding map (sys.step map input) := by
  have held := idle.held valid
  obtain ⟨state, ⟨masters, slaves, r, w⟩, offered⟩ := idle
  obtain ⟨_, req, offered⟩ := offered valid
  have busy : sys.ic.done (sys.masterLines input) = false := by
    simp [Interconnect.done, (masters _).rvalid, (masters _).bvalid]
  have stays : (sys.step map input).ic.mSelect = sys.ic.mSelect := by
    simp [BusSystem.step, Interconnect.next, Interconnect.mSelectNext, state]
  have same : (sys.step map input).ic.sSelect = sys.ic.sSelect := held.sSelect_step busy
  have reads : (sys.step map input).ic.isRead = sys.ic.isRead := held.isRead_step busy
  constructor
  case held => exact held.next busy stays
  case slave => exact (slaves _).next w (.inr (by simp [state]))
  case offered =>
    rw [BusSystem.Offered] at offered ⊢
    rw [reads, same]
    cases read : sys.ic.isRead
    all_goals
      simp only [read, Bool.false_eq_true, if_true, if_false] at offered ⊢
      simp [BusSystem.step, Interconnect.next, Interconnect.reqNext, state, valid, read,
        MasterPort.next, MasterPort.drive, offered, Interconnect.master, BusSystem.masterLines,
        (masters _).arready, (masters _).awready]
  all_goals try rw [same]
  all_goals try rw [reads]
  · simp [BusSystem.step, Interconnect.next, Interconnect.stateNext, state, valid]
  · simp [BusSystem.step, Interconnect.next, Interconnect.sArreadyNext, state, valid]
  · simp [BusSystem.step, Interconnect.next, Interconnect.sAwreadyNext, state, valid]
  · simp [BusSystem.step, Interconnect.next, Interconnect.sWreadyNext, state]
  · simp [BusSystem.step, Interconnect.next, Interconnect.sBvalidNext, state, (masters _).bvalid]
  · simp only [BusSystem.step, Interconnect.next, Interconnect.rPush, state]
    exact r.valid_next (masters _).rvalid _ _
  · simp [BusSystem.step, Interconnect.next, Interconnect.addrValidNext, state, valid]

theorem advances (idle : Idle map sys) : Advances map sys input .idle := by
  refine ⟨.idle, by rw [idle.resting.out_eq_nil]; rfl, ?_⟩
  cases valid : sys.ic.arbiter.grantValid with
  | false => exact .idle (idle.rests valid)
  | true => exact .decoding (idle.decodes valid)

end Idle

section Sides

variable (held : Held map sys) (busy : sys.ic.done (sys.masterLines input) = false)
include held busy

theorem ReadSide.of_step (read : sys.ic.isRead = true)
    (bvalid : sys.ic.sBvalid sys.ic.sSelect = false)
    (state : sys.ic.state ∈ [.decode, .read, .readDrop, .waitIdle]) :
    ReadSide (sys.step map input).ic := by
  constructor
  · rw [held.isRead_step busy, read]
  all_goals rw [held.sSelect_step busy]
  all_goals
    simp only [List.mem_cons, List.not_mem_nil, or_false] at state
    rcases state with state | state | state | state
  all_goals
    simp [BusSystem.step, Interconnect.next, Interconnect.sArreadyNext,
      Interconnect.sAwreadyNext, Interconnect.sWreadyNext, Interconnect.sBvalidNext, state, read,
      bvalid]

theorem WriteSide.of_step (write : sys.ic.isRead = false)
    (rvalid : sys.ic.r.valid sys.ic.sSelect = false)
    (state : sys.ic.state ∈ [.decode, .write, .writeResp, .writeDrop, .waitIdle]) :
    WriteSide (sys.step map input).ic := by
  have unpushed : sys.ic.rPush (sys.slaveLines input) = false := by
    rw [Interconnect.rPush]
    split
    all_goals simp_all
  constructor
  · rw [held.isRead_step busy, write]
  all_goals rw [held.sSelect_step busy]
  · have off : sys.ic.state ≠ .idle := by rintro idle; simp [idle] at state
    simp [BusSystem.step, Interconnect.next, Interconnect.sArreadyNext, off]
  · have off : sys.ic.state ≠ .idle := by rintro idle; simp [idle] at state
    simp [BusSystem.step, Interconnect.next, Interconnect.sAwreadyNext, off]
  · simp only [BusSystem.step, Interconnect.next, unpushed]
    exact held.r.valid_next rvalid _ _

end Sides

namespace Decoding

theorem busy (decoding : Decoding map sys) :
    sys.ic.done (sys.masterLines input) = false := by
  simp [Interconnect.done, decoding.rvalid, decoding.bvalid]

/-- The address is accepted. -/
theorem out_eq (decoding : Decoding map sys) :
    sys.out map input = [.accept sys.ic.sSelect sys.ic.isRead sys.ic.req] := by
  have offered := decoding.offered
  rw [decoding.held.out_eq (.inr decoding.slave), decoding.slave.sends, decoding.slave.reads,
    decoding.slave.writes, decoding.slave.answers]
  rw [BusSystem.Offered] at offered
  cases read : sys.ic.isRead
  all_goals
    simp only [read, Bool.false_eq_true, if_true, if_false] at offered
    simp [BusSystem.accepts, decoding.arready, decoding.awready, read, BusSystem.masterLines,
      MasterPort.drive, offered, BusSystem.gives, Skid.given, decoding.rvalid, BusSystem.takes,
      decoding.wready, BusSystem.finishes, decoding.bvalid]

theorem slave_step (decoding : Decoding map sys) (m : Nat) :
    SlaveQuiet (sys.step map input) m := by
  by_cases here : m = sys.ic.mSelect
  · rw [here]
    exact decoding.slave.next decoding.held.w (.inr (by simp [decoding.state]))
  · exact (decoding.held.slaves m here).next decoding.held.w (.inl here)

theorem held_step (decoding : Decoding map sys) : Held map (sys.step map input) where
  granted := decoding.held.arbiter_step decoding.busy ▸ decoding.held.granted
  masters s other := by
    rw [decoding.held.sSelect_step decoding.busy] at other
    exact (decoding.held.masters s other).next other
  slaves m _ := decoding.slave_step m
  r := by
    rw [decoding.held.sSelect_step decoding.busy]
    exact decoding.held.r.next _ _ _
  w := by
    have w := decoding.held.w.next (sys.ic.slave (sys.slaveLines input)).wready
      (sys.ic.wPush (sys.masterLines input)) (sys.ic.master (sys.masterLines input)).w
    exact (w.turn ((Skid.contents_eq_nil w).mpr (decoding.slave_step _).wvalid) _).1

theorem contents_step (decoding : Decoding map sys) :
    (sys.step map input).ic.r.contents sys.ic.sSelect = [] := by
  rw [Skid.contents_eq_nil]
  · simp only [BusSystem.step, Interconnect.next, Interconnect.rPush, decoding.state]
    exact decoding.held.r.valid_next decoding.rvalid _ _
  · exact decoding.held.r.next _ _ _

theorem readSide (decoding : Decoding map sys) (read : sys.ic.isRead = true) :
    ReadSide (sys.step map input).ic :=
  .of_step decoding.held decoding.busy read decoding.bvalid (by simp [decoding.state])

theorem writeSide (decoding : Decoding map sys) (write : sys.ic.isRead = false) :
    WriteSide (sys.step map input).ic :=
  .of_step decoding.held decoding.busy write decoding.rvalid (by simp [decoding.state])

theorem sSelect_step (decoding : Decoding map sys) :
    (sys.step map input).ic.sSelect = sys.ic.sSelect :=
  decoding.held.sSelect_step decoding.busy

theorem req_step (decoding : Decoding map sys) : (sys.step map input).ic.req = sys.ic.req := by
  simp [BusSystem.step, Interconnect.next, Interconnect.reqNext, decoding.state]

theorem addrValid_step (decoding : Decoding map sys) :
    (sys.step map input).ic.addrValid = true := by
  simp [BusSystem.step, Interconnect.next, Interconnect.addrValidNext, decoding.state,
    decoding.addrValid]

theorem bvalid_step (decoding : Decoding map sys) :
    (sys.step map input).ic.sBvalid sys.ic.sSelect = false := by
  simp [BusSystem.step, Interconnect.next, Interconnect.sBvalidNext, decoding.state,
    decoding.bvalid]

section Found

variable {m region : Nat} (found : sys.ic.target map = some (m, region))
include found

theorem mSelect_step (decoding : Decoding map sys) : (sys.step map input).ic.mSelect = m := by
  simp [BusSystem.step, Interconnect.next, Interconnect.mSelectNext, decoding.state, found]

theorem region_step (decoding : Decoding map sys) : (sys.step map input).ic.region = region := by
  simp [BusSystem.step, Interconnect.next, Interconnect.regionNext, decoding.state, found]

theorem bound_step (decoding : Decoding map sys) :
    (sys.step map input).ic.mSelect < map.mCount := by
  rw [decoding.mSelect_step found]
  exact AddressMap.decode_lt found

theorem reads (decoding : Decoding map sys) (read : sys.ic.isRead = true) :
    Reading map (sys.step map input) false [] where
  state := by
    simp [BusSystem.step, Interconnect.next, Interconnect.stateNext, decoding.state, found, read]
  held := decoding.held_step
  side := decoding.readSide read
  bound := decoding.bound_step found
  contents := by rw [decoding.sSelect_step, decoding.contents_step]
  more := nofun
  awvalid := (decoding.slave_step _).awvalid
  wvalid := (decoding.slave_step _).wvalid
  port := (decoding.slave_step _).port
  ready said := by
    -- ready is said to the slave of the transaction before, if to any
    rw [decoding.mSelect_step found] at said
    by_cases here : m = sys.ic.mSelect
    · rw [here] at said
      simp only [BusSystem.step, Interconnect.next, Interconnect.mRreadyNext,
        Interconnect.only_self, decoding.state, found, read, Option.isSome_some,
        Bool.true_and] at said
      exact (Skid.next_ready _ _ _ _ _).trans said
    · have unsaid : (sys.step map input).ic.mRready m = false := Interconnect.only_of_ne here _
      rw [unsaid] at said
      cases said
  phase := .inl ⟨decoding.addrValid_step, (decoding.slave_step _).arvalid, rfl⟩

theorem writes (decoding : Decoding map sys) (write : sys.ic.isRead = false) :
    Writing map (sys.step map input) false [] where
  state := by
    simp [BusSystem.step, Interconnect.next, Interconnect.stateNext, decoding.state, found, write]
  held := decoding.held_step
  side := decoding.writeSide write
  bound := decoding.bound_step found
  bvalid := by rw [decoding.sSelect_step, decoding.bvalid_step]
  contents := (Skid.contents_eq_nil decoding.held_step.w).mpr (decoding.slave_step _).wvalid
  more := nofun
  arvalid := (decoding.slave_step _).arvalid
  port := (decoding.slave_step _).port
  ready said := by
    rw [decoding.sSelect_step] at said
    simp only [BusSystem.step, Interconnect.next, Interconnect.sWreadyNext,
      Interconnect.only_self, decoding.state, found, write, Option.isNone_some, Bool.false_or,
      Bool.not_false, Bool.true_and] at said
    exact (Skid.next_ready _ _ _ _ _).trans said
  phase := .inl ⟨decoding.addrValid_step, (decoding.slave_step _).awvalid, rfl⟩

end Found

section Missed

variable (missed : sys.ic.target map = none)
include missed

theorem refuses (decoding : Decoding map sys) (read : sys.ic.isRead = true) :
    Refusing map (sys.step map input) (errorBeats sys.ic.req.id sys.ic.req.len.toNat) where
  state := by
    simp [BusSystem.step, Interconnect.next, Interconnect.stateNext, decoding.state, missed, read]
  held := decoding.held_step
  side := decoding.readSide read
  slave := decoding.slave_step _
  contents := by
    rw [decoding.sSelect_step, decoding.contents_step, decoding.req_step]
    rfl
  more := by
    rw [decoding.sSelect_step, decoding.contents_step]
    intro beat left
    cases left

theorem drops (decoding : Decoding map sys) (write : sys.ic.isRead = false) :
    Dropping map (sys.step map input) where
  state := by
    simp [BusSystem.step, Interconnect.next, Interconnect.stateNext, decoding.state, missed, write]
  held := decoding.held_step
  side := decoding.writeSide write
  slave := decoding.slave_step _
  bvalid := by rw [decoding.sSelect_step, decoding.bvalid_step]
  bresp := by
    simp [BusSystem.step, Interconnect.next, Interconnect.brespNext, decoding.state, missed, write]

end Missed

theorem advances (decoding : Decoding map sys) : Advances map sys input .idle := by
  have target : map.decode sys.ic.isRead sys.ic.sSelect sys.ic.req = sys.ic.target map := rfl
  rw [Advances, decoding.out_eq]
  cases found : sys.ic.target map with
  | some place =>
      obtain ⟨m, region⟩ := place
      cases side : sys.ic.isRead with
      | true =>
          have next : Reading map (sys.step map input) false [] := decoding.reads found side
          have stage := Stage.reading next
          rw [decoding.sSelect_step, decoding.req_step, decoding.mSelect_step found,
            decoding.region_step found] at stage
          exact ⟨_, Relay.run_single (by simp [Relay.step, ← side, target, found]), stage⟩
      | false =>
          have next : Writing map (sys.step map input) false [] := decoding.writes found side
          have stage := Stage.writing next
          rw [decoding.sSelect_step, decoding.req_step, decoding.mSelect_step found,
            decoding.region_step found] at stage
          exact ⟨_, Relay.run_single (by simp [Relay.step, ← side, target, found]), stage⟩
  | none =>
      cases side : sys.ic.isRead with
      | true =>
          have next : Refusing map (sys.step map input) _ := decoding.refuses found side
          have stage := Stage.refusing next
          rw [decoding.sSelect_step] at stage
          exact ⟨_, Relay.run_single (by simp [Relay.step, ← side, target, found]), stage⟩
      | false =>
          have next : Dropping map (sys.step map input) := decoding.drops found side
          have stage := Stage.dropping next
          rw [decoding.sSelect_step, decoding.req_step] at stage
          exact ⟨_, Relay.run_single (by simp [Relay.step, ← side, target, found]), stage⟩

end Decoding

namespace ReadSide

variable (side : ReadSide sys.ic)
include side

theorem accepts : sys.accepts input sys.ic.sSelect = [] := by
  simp [BusSystem.accepts, side.arready, side.awready]

theorem takes : sys.takes input sys.ic.sSelect = [] := by
  simp [BusSystem.takes, side.wready]

theorem finishes : sys.finishes input sys.ic.sSelect = [] := by
  simp [BusSystem.finishes, side.bvalid]

/-- No beat in the slice is the last of the burst: the read does not end in this cycle. -/
theorem busy (more : ∀ beat ∈ sys.ic.r.contents sys.ic.sSelect, beat.last = false) :
    sys.ic.done (sys.masterLines input) = false := by
  rw [Interconnect.done, if_pos side.isRead]
  cases valid : sys.ic.r.valid sys.ic.sSelect with
  | false => rfl
  | true =>
      have first : sys.ic.r.out ∈ sys.ic.r.contents sys.ic.sSelect := by
        simp [Skid.contents, valid]
      rw [more _ first, Bool.and_false]

end ReadSide

namespace Reading

variable {sent : Bool} {queue : List RBeat}

theorem busy (reading : Reading map sys sent queue) :
    sys.ic.done (sys.masterLines input) = false :=
  reading.side.busy (by rw [reading.contents]; exact reading.more)

/-- The address handshake of this cycle. -/
def sends (sys : BusSystem) (input : BusInput) : Bool :=
  sys.ic.mArvalid sys.ic.mSelect && (sys.slaveLines input sys.ic.mSelect).arready

theorem out_eq (reading : Reading map sys sent queue) :
    sys.out map input =
      (if sends sys input then
        [.send sys.ic.mSelect true sys.ic.req sys.ic.region] else []) ++
      (sys.ic.r.given sys.ic.sSelect (sys.masterLines input sys.ic.sSelect).rready).map
        (.give sys.ic.sSelect) ++
      if sys.ic.rPush (sys.slaveLines input) then
        [.read sys.ic.mSelect (sys.slaveLines input sys.ic.mSelect).r] else [] := by
  rw [reading.held.out_eq (.inl reading.bound), reading.side.accepts, reading.side.takes,
    reading.side.finishes]
  simp [BusSystem.sends, reading.awvalid, BusSystem.gives, BusSystem.reads, BusSystem.writes,
    Skid.given, reading.wvalid, BusSystem.answers, BusSystem.slaveLines, SlavePort.drive,
    reading.port, sends, Interconnect.rPush, reading.state, Interconnect.slave,
    Bool.and_comm]

theorem mSelect_step (reading : Reading map sys sent queue) :
    (sys.step map input).ic.mSelect = sys.ic.mSelect := by
  simp [BusSystem.step, Interconnect.next, Interconnect.mSelectNext, reading.state]

theorem sSelect_step (reading : Reading map sys sent queue) :
    (sys.step map input).ic.sSelect = sys.ic.sSelect :=
  reading.held.sSelect_step reading.busy

theorem held_step (reading : Reading map sys sent queue) : Held map (sys.step map input) :=
  reading.held.next reading.busy reading.mSelect_step

theorem readSide (reading : Reading map sys sent queue) : ReadSide (sys.step map input).ic :=
  .of_step reading.held reading.busy reading.side.isRead reading.side.bvalid
    (by simp [reading.state])

theorem req_step (reading : Reading map sys sent queue) :
    (sys.step map input).ic.req = sys.ic.req := by
  simp [BusSystem.step, Interconnect.next, Interconnect.reqNext, reading.state]

theorem region_step (reading : Reading map sys sent queue) :
    (sys.step map input).ic.region = sys.ic.region := by
  simp [BusSystem.step, Interconnect.next, Interconnect.regionNext, reading.state]

theorem awvalid_step (reading : Reading map sys sent queue) :
    (sys.step map input).ic.mAwvalid sys.ic.mSelect = false := by
  simp [BusSystem.step, Interconnect.next, Interconnect.mAwvalidNext, reading.state,
    reading.awvalid]

theorem wvalid_step (reading : Reading map sys sent queue) :
    (sys.step map input).ic.w.valid sys.ic.mSelect = false := by
  simp only [BusSystem.step, Interconnect.next, Interconnect.wPush, reading.state]
  exact reading.held.w.valid_next reading.wvalid _ _

/-- A beat comes only after the address is sent. -/
theorem sent_of_push (reading : Reading map sys sent queue)
    (push : sys.ic.rPush (sys.slaveLines input) = true) : sent = true := by
  simp only [Interconnect.rPush, reading.state, Interconnect.slave, BusSystem.slaveLines,
    SlavePort.drive, reading.port, Bool.and_eq_true] at push
  exact push.2.2

theorem port_step (reading : Reading map sys sent queue) :
    (sys.step map input).slaves sys.ic.mSelect =
      ⟨sends sys input || sent && !(sys.ic.rPush (sys.slaveLines input) &&
        (sys.slaveLines input sys.ic.mSelect).r.last), false, false⟩ := by
  simp [BusSystem.step, BusSystem.slavePort, reading.port, reading.awvalid, reading.wvalid, sends,
    Interconnect.rPush, reading.state, Interconnect.slave, Bool.and_comm]

theorem phase_step (reading : Reading map sys sent queue) :
    Addressing (sys.step map input).ic.addrValid
      ((sys.step map input).ic.mArvalid sys.ic.mSelect) (sends sys input || sent) := by
  simp only [BusSystem.step, Interconnect.next, Interconnect.addrValidNext,
    Interconnect.mArvalidNext, reading.state, sends]
  rcases reading.phase with ⟨waits, off, unsent⟩ | ⟨past, on, unsent⟩ | ⟨past, off, done⟩
  · simp [Addressing, waits, off, unsent]
  · cases ready : (sys.slaveLines input sys.ic.mSelect).arready
    all_goals simp [Addressing, past, on, unsent, ready]
  · simp [Addressing, past, off, done]

/-- The beat that the slave hands over in this cycle. -/
theorem rItem_eq (reading : Reading map sys sent queue) :
    sys.ic.rItem (sys.slaveLines input) =
      ⟨sys.ic.req.id, (sys.slaveLines input sys.ic.mSelect).r.data,
        (sys.slaveLines input sys.ic.mSelect).r.resp,
        (sys.slaveLines input sys.ic.mSelect).r.last⟩ := by
  simp [Interconnect.rItem, reading.state, Interconnect.slave]

theorem taken_eq (reading : Reading map sys sent queue) :
    sys.ic.r.taken (sys.ic.rPush (sys.slaveLines input)) (sys.ic.rItem (sys.slaveLines input)) =
      if sys.ic.rPush (sys.slaveLines input) then [sys.ic.rItem (sys.slaveLines input)]
      else [] := by
  rw [Skid.taken]
  cases push : sys.ic.rPush (sys.slaveLines input) with
  | false => simp
  | true =>
      simp only [Interconnect.rPush, reading.state, Bool.and_eq_true] at push
      simp [reading.ready push.1]

/-- The relay up to the slave's beat. -/
theorem run_gives (reading : Reading map sys sent queue) {rest : List RBeat}
    (split : queue =
      sys.ic.r.given sys.ic.sSelect (sys.masterLines input sys.ic.sSelect).rready ++ rest) :
    (Relay.reading sys.ic.sSelect sys.ic.req sys.ic.mSelect sys.ic.region sent queue).run map
      ((if sends sys input then
        [.send sys.ic.mSelect true sys.ic.req sys.ic.region] else []) ++
      (sys.ic.r.given sys.ic.sSelect (sys.masterLines input sys.ic.sSelect).rready).map
        (.give sys.ic.sSelect)) =
      some (.reading sys.ic.sSelect sys.ic.req sys.ic.mSelect sys.ic.region
        (sends sys input || sent) rest) := by
  rw [split]
  cases sending : sends sys input with
  | false => exact Relay.run_gives_reading _ _
  | true =>
      have unsent : sent = false := by
        rw [sends, Bool.and_eq_true] at sending
        rcases reading.phase with ⟨_, off, _⟩ | ⟨_, _, unsent⟩ | ⟨_, off, _⟩
        · rw [off] at sending
          cases sending.1
        · exact unsent
        · rw [off] at sending
          cases sending.1
      rw [if_pos rfl, unsent]
      refine (Relay.run_cons ?_).trans (Relay.run_gives_reading _ _)
      simp [Relay.step]

theorem continues (reading : Reading map sys sent queue) {queue' : List RBeat}
    (contents : (sys.step map input).ic.r.contents sys.ic.sSelect = queue')
    (more : ∀ beat ∈ queue', beat.last = false)
    (unended : (sys.ic.rPush (sys.slaveLines input) &&
      (sys.slaveLines input sys.ic.mSelect).r.last) = false) :
    Reading map (sys.step map input) (sends sys input || sent) queue' where
  state := by
    simp [BusSystem.step, Interconnect.next, Interconnect.stateNext, reading.state,
      Interconnect.slave, unended]
  held := reading.held_step
  side := reading.readSide
  bound := by rw [reading.mSelect_step]; exact reading.bound
  contents := by rw [reading.sSelect_step, contents]
  more := more
  awvalid := by rw [reading.mSelect_step, reading.awvalid_step]
  wvalid := by rw [reading.mSelect_step, reading.wvalid_step]
  port := by rw [reading.mSelect_step, reading.port_step, unended, Bool.not_false, Bool.and_true]
  ready said := by
    rw [reading.mSelect_step] at said
    simp only [BusSystem.step, Interconnect.next, Interconnect.mRreadyNext,
      Interconnect.only_self, reading.state, Bool.and_eq_true] at said
    exact (Skid.next_ready _ _ _ _ _).trans said.2
  phase := by rw [reading.mSelect_step]; exact reading.phase_step

theorem returns (reading : Reading map sys sent queue) {queue' : List RBeat}
    (contents : (sys.step map input).ic.r.contents sys.ic.sSelect = queue')
    (ends : Ends RBeat.last queue') (push : sys.ic.rPush (sys.slaveLines input) = true)
    (last : (sys.slaveLines input sys.ic.mSelect).r.last = true) :
    Returning map (sys.step map input) queue' where
  state := by
    simp [BusSystem.step, Interconnect.next, Interconnect.stateNext, reading.state,
      Interconnect.slave, push, last]
  held := reading.held_step
  side := reading.readSide
  slave := by
    have past := reading.sent_of_push push
    have phase : Addressing (sys.step map input).ic.addrValid
        ((sys.step map input).ic.mArvalid sys.ic.mSelect) (sends sys input || sent) :=
      reading.phase_step
    have unsends : sends sys input = false := by
      rcases reading.phase with ⟨_, off, _⟩ | ⟨_, _, unsent⟩ | ⟨_, off, _⟩
      · rw [sends, off, Bool.false_and]
      · rw [past] at unsent
        cases unsent
      · rw [sends, off, Bool.false_and]
    rw [reading.mSelect_step]
    constructor
    · rw [past, Bool.or_true] at phase
      simpa [Addressing] using (phase.resolve_left (by simp)).resolve_left (by simp) |>.2.1
    · exact reading.awvalid_step
    · exact reading.wvalid_step
    · rw [reading.port_step, unsends, push, last, Bool.and_self, Bool.not_true, Bool.and_false]
      rfl
  contents := by rw [reading.sSelect_step, contents]
  ends := ends

theorem advances (reading : Reading map sys sent queue) :
    Advances map sys input
      (.reading sys.ic.sSelect sys.ic.req sys.ic.mSelect sys.ic.region sent queue) := by
  obtain ⟨rest, split, kept⟩ := reading.held.r.exists_rest
    (sys.masterLines input sys.ic.sSelect).rready (sys.ic.rPush (sys.slaveLines input))
    (sys.ic.rItem (sys.slaveLines input))
  rw [reading.contents] at split
  rw [reading.taken_eq] at kept
  have contents : (sys.step map input).ic.r.contents sys.ic.sSelect =
      rest ++ if sys.ic.rPush (sys.slaveLines input) then
        [sys.ic.rItem (sys.slaveLines input)] else [] := kept
  have more : ∀ beat ∈ rest, beat.last = false := fun beat member =>
    reading.more beat (by rw [split]; exact List.mem_append_right _ member)
  rw [Advances, reading.out_eq, Relay.run_append, reading.run_gives split]
  have stays (sent : Bool) (queue : List RBeat)
      (next : Reading map (sys.step map input) sent queue) :
      Stage map (sys.step map input)
        (.reading sys.ic.sSelect sys.ic.req sys.ic.mSelect sys.ic.region sent queue) := by
    have stage := Stage.reading next
    rwa [reading.sSelect_step, reading.req_step, reading.mSelect_step,
      reading.region_step] at stage
  cases push : sys.ic.rPush (sys.slaveLines input) with
  | false =>
      rw [push, if_neg Bool.false_ne_true, List.append_nil] at contents
      exact ⟨_, rfl, stays _ _ (reading.continues contents more (by rw [push]; rfl))⟩
  | true =>
      have item : sys.ic.rItem (sys.slaveLines input) = _ := reading.rItem_eq
      rw [push, if_pos rfl] at contents
      rw [reading.sent_of_push push, Bool.or_true, if_pos rfl]
      cases last : (sys.slaveLines input sys.ic.mSelect).r.last with
      | false =>
          refine ⟨_, Relay.run_single (if_pos rfl), ?_⟩
          rw [← item, last, if_neg Bool.false_ne_true]
          have next := reading.continues contents
            (by
              intro beat member
              rcases List.mem_append.mp member with member | here
              · exact more beat member
              · rw [List.mem_singleton.mp here, item, last])
            (by rw [last, Bool.and_false])
          rw [reading.sent_of_push push, Bool.or_true] at next
          exact stays _ _ next
      | true =>
          refine ⟨_, Relay.run_single (if_pos rfl), ?_⟩
          rw [← item, last, if_pos rfl]
          have stage := Stage.returning
            (reading.returns contents (Ends.snoc more (by rw [item, last])) push last)
          rwa [reading.sSelect_step] at stage

end Reading

namespace Refusing

variable {queue : List RBeat}

theorem busy (refusing : Refusing map sys queue) :
    sys.ic.done (sys.masterLines input) = false :=
  refusing.side.busy refusing.more

theorem sSelect_step (refusing : Refusing map sys queue) :
    (sys.step map input).ic.sSelect = sys.ic.sSelect :=
  refusing.held.sSelect_step refusing.busy

theorem mSelect_step (refusing : Refusing map sys queue) :
    (sys.step map input).ic.mSelect = sys.ic.mSelect := by
  simp [BusSystem.step, Interconnect.next, Interconnect.mSelectNext, refusing.state]

theorem held_step (refusing : Refusing map sys queue) : Held map (sys.step map input) :=
  refusing.held.next refusing.busy refusing.mSelect_step

theorem readSide (refusing : Refusing map sys queue) : ReadSide (sys.step map input).ic :=
  .of_step refusing.held refusing.busy refusing.side.isRead refusing.side.bvalid
    (by simp [refusing.state])

theorem slave_step (refusing : Refusing map sys queue) :
    SlaveQuiet (sys.step map input) (sys.step map input).ic.mSelect := by
  rw [refusing.mSelect_step]
  exact refusing.slave.next refusing.held.w (.inr (by simp [refusing.state]))

theorem out_eq (refusing : Refusing map sys queue) :
    sys.out map input =
      (sys.ic.r.given sys.ic.sSelect (sys.masterLines input sys.ic.sSelect).rready).map
        (.give sys.ic.sSelect) := by
  rw [refusing.held.out_eq (.inr refusing.slave), refusing.side.accepts, refusing.side.takes,
    refusing.side.finishes, refusing.slave.sends, refusing.slave.reads, refusing.slave.writes,
    refusing.slave.answers]
  simp [BusSystem.gives]

/-- The next beat to make up is the first of those that are left. -/
theorem taken_eq (refusing : Refusing map sys queue) :
    sys.ic.r.taken (sys.ic.rPush (sys.slaveLines input)) (sys.ic.rItem (sys.slaveLines input)) =
      if sys.ic.r.ready then [⟨sys.ic.req.id, 0#32, 3#2, sys.ic.req.len == 0#8⟩] else [] := by
  simp [Skid.taken, Interconnect.rPush, Interconnect.rItem, refusing.state]

theorem advances (refusing : Refusing map sys queue) :
    Advances map sys input (.returning sys.ic.sSelect queue) := by
  obtain ⟨rest, split, kept⟩ := refusing.held.r.exists_rest
    (sys.masterLines input sys.ic.sSelect).rready (sys.ic.rPush (sys.slaveLines input))
    (sys.ic.rItem (sys.slaveLines input))
  rw [refusing.taken_eq] at kept
  have contents : (sys.step map input).ic.r.contents sys.ic.sSelect =
      rest ++ if sys.ic.r.ready then [⟨sys.ic.req.id, 0#32, 3#2, sys.ic.req.len == 0#8⟩]
        else [] := kept
  have more : ∀ beat ∈ rest, beat.last = false := fun beat member =>
    refusing.more beat (by rw [split]; exact List.mem_append_right _ member)
  have left : rest ++ errorBeats sys.ic.req.id sys.ic.req.len.toNat ≠ [] :=
    List.append_ne_nil_of_right_ne_nil _ (by cases sys.ic.req.len.toNat <;> nofun)
  rw [Advances, refusing.out_eq, refusing.contents, split, List.append_assoc]
  refine ⟨_, Relay.run_gives_returning left _, ?_⟩
  have same : (sys.step map input).ic.sSelect = sys.ic.sSelect := refusing.sSelect_step
  have req : (sys.step map input).ic.req =
      if sys.ic.r.ready then { sys.ic.req with len := sys.ic.req.len - 1#8 } else sys.ic.req := by
    simp [BusSystem.step, Interconnect.next, Interconnect.reqNext, refusing.state]
  have state : (sys.step map input).ic.state =
      if sys.ic.r.ready && sys.ic.req.len == 0#8 then .waitIdle else .readDrop := by
    simp [BusSystem.step, Interconnect.next, Interconnect.stateNext, refusing.state]
  rw [← same] at contents ⊢
  cases ready : sys.ic.r.ready with
  | false =>
      simp only [ready, Bool.false_and, Bool.false_eq_true, if_false, List.append_nil]
        at contents req state
      refine .refusing ⟨state, refusing.held_step, refusing.readSide, refusing.slave_step, ?_, ?_⟩
      · rw [contents, req]
      · rw [contents]
        exact more
  | true =>
      simp only [ready, Bool.true_and, if_true] at contents req state
      rw [errorBeats_eq]
      cases zero : sys.ic.req.len == 0#8 with
      | false =>
          simp only [zero, Bool.false_eq_true, if_false] at contents state ⊢
          refine .refusing
            ⟨state, refusing.held_step, refusing.readSide, refusing.slave_step, ?_, ?_⟩
          · rw [contents, req, List.append_assoc]
            rfl
          · rw [contents]
            intro beat member
            rcases List.mem_append.mp member with member | here
            · exact more beat member
            · rw [List.mem_singleton.mp here]
      | true =>
          simp only [zero, if_true] at contents state ⊢
          exact .returning ⟨state, refusing.held_step, refusing.readSide, refusing.slave_step,
            contents, Ends.snoc more rfl⟩

end Refusing

/-!
## The end of a transaction
-/

theorem Held.release (held : Held map sys) (state : sys.ic.state = .waitIdle)
    (done : sys.ic.done (sys.masterLines input) = true)
    (slave : SlaveQuiet sys sys.ic.mSelect)
    (arready : sys.ic.sArready sys.ic.sSelect = false)
    (awready : sys.ic.sAwready sys.ic.sSelect = false)
    (rvalid : (sys.step map input).ic.r.valid sys.ic.sSelect = false)
    (bvalid : (sys.step map input).ic.sBvalid sys.ic.sSelect = false) :
    Idle map (sys.step map input) := by
  refine idle_next ?_ ?_ (fun s => ?_)
    (Resting.of_quiet (fun s => ?_) (fun m => ?_) (held.r.next _ _ _) (held.w.next _ _ _))
  · simp [BusSystem.step, Interconnect.next, Interconnect.stateNext, state, held.any_acknowledge,
      done]
  · rw [held.holds_eq, done, Bool.not_true]
  · by_cases here : s = sys.ic.sSelect
    · rw [here]
      exact ⟨arready, awready⟩
    · exact ⟨(held.masters s here).arready, (held.masters s here).awready⟩
  · by_cases here : s = sys.ic.sSelect
    · rw [here]
      refine ⟨?_, ?_, ?_, bvalid, rvalid⟩
      · simp [BusSystem.step, Interconnect.next, Interconnect.sArreadyNext, state]
      · simp [BusSystem.step, Interconnect.next, Interconnect.sAwreadyNext, state]
      · simp [BusSystem.step, Interconnect.next, Interconnect.sWreadyNext, state]
    · exact (held.masters s here).next here
  · by_cases here : m = sys.ic.mSelect
    · rw [here]
      exact slave.next held.w (.inr (by simp [state]))
    · exact (held.slaves m here).next held.w (.inl here)

/-- A transaction that has not ended waits on. -/
theorem Held.wait (held : Held map sys) (state : sys.ic.state = .waitIdle)
    (busy : sys.ic.done (sys.masterLines input) = false) :
    (sys.step map input).ic.state = .waitIdle ∧
      (sys.step map input).ic.mSelect = sys.ic.mSelect := by
  simp [BusSystem.step, Interconnect.next, Interconnect.stateNext, Interconnect.mSelectNext, state,
    held.any_acknowledge, busy, held.granted.valid]

namespace Returning

variable {queue : List RBeat}

theorem out_eq (returning : Returning map sys queue) :
    sys.out map input =
      (sys.ic.r.given sys.ic.sSelect (sys.masterLines input sys.ic.sSelect).rready).map
        (.give sys.ic.sSelect) := by
  rw [returning.held.out_eq (.inr returning.slave), returning.side.accepts, returning.side.takes,
    returning.side.finishes, returning.slave.sends, returning.slave.reads, returning.slave.writes,
    returning.slave.answers]
  simp [BusSystem.gives]

theorem contents_step (returning : Returning map sys queue) {rest : List RBeat}
    (split : queue =
      sys.ic.r.given sys.ic.sSelect (sys.masterLines input sys.ic.sSelect).rready ++ rest) :
    (sys.step map input).ic.r.contents sys.ic.sSelect = rest := by
  have kept := returning.held.r.contents_next (sys.masterLines input sys.ic.sSelect).rready
    (sys.ic.rPush (sys.slaveLines input)) (sys.ic.rItem (sys.slaveLines input))
  have unpushed : sys.ic.rPush (sys.slaveLines input) = false := by
    simp [Interconnect.rPush, returning.state]
  have untaken : sys.ic.r.taken false (sys.ic.rItem (sys.slaveLines input)) = [] := by
    simp [Skid.taken]
  rw [returning.contents, split, unpushed, untaken, List.append_nil] at kept
  rw [List.append_cancel_left kept, ← unpushed]
  rfl

theorem stays (returning : Returning map sys queue) {rest : List RBeat}
    (busy : sys.ic.done (sys.masterLines input) = false)
    (contents : (sys.step map input).ic.r.contents sys.ic.sSelect = rest)
    (ends : Ends RBeat.last rest) : Returning map (sys.step map input) rest where
  state := (returning.held.wait returning.state busy).1
  held := returning.held.next busy (returning.held.wait returning.state busy).2
  side := .of_step returning.held busy returning.side.isRead returning.side.bvalid
    (by simp [returning.state])
  slave := by
    rw [(returning.held.wait returning.state busy).2]
    exact returning.slave.next returning.held.w (.inr (by simp [returning.state]))
  contents := by rw [returning.held.sSelect_step busy, contents]
  ends := ends

theorem advances (returning : Returning map sys queue) :
    Advances map sys input (.returning sys.ic.sSelect queue) := by
  have contents := returning.contents
  have ends := returning.ends
  have done : sys.ic.done (sys.masterLines input) =
      (sys.ic.r.valid sys.ic.sSelect && (sys.masterLines input sys.ic.sSelect).rready &&
        sys.ic.r.out.last) := if_pos returning.side.isRead
  have valid : sys.ic.r.valid sys.ic.sSelect = true := by
    rw [← Bool.not_eq_false, ← Skid.contents_eq_nil returning.held.r, contents]
    rintro rfl
    exact ends
  obtain ⟨tail, rfl⟩ : ∃ tail, queue = sys.ic.r.out :: tail := by
    rw [← contents, Skid.contents, if_pos valid]
    exact ⟨_, rfl⟩
  have stays {rest : List RBeat} (next : Returning map (sys.step map input) rest)
      (busy : sys.ic.done (sys.masterLines input) = false) :
      Stage map (sys.step map input) (.returning sys.ic.sSelect rest) := by
    have stage := Stage.returning next
    rwa [returning.held.sSelect_step busy] at stage
  rw [Advances, returning.out_eq]
  cases ready : (sys.masterLines input sys.ic.sSelect).rready with
  | false =>
      have busy : sys.ic.done (sys.masterLines input) = false := by
        rw [done, ready, Bool.and_false, Bool.false_and]
      have split : (sys.step map input).ic.r.contents sys.ic.sSelect = sys.ic.r.out :: tail :=
        returning.contents_step (by simp [Skid.given, ready])
      refine ⟨_, ?_, stays (returning.stays busy split ends) busy⟩
      simp [Skid.given]
  | true =>
      have given : sys.ic.r.given sys.ic.sSelect true = [sys.ic.r.out] := by
        simp [Skid.given, valid]
      have split : (sys.step map input).ic.r.contents sys.ic.sSelect = tail :=
        returning.contents_step (by simp [ready, given])
      rw [valid, ready, Bool.true_and, Bool.true_and, ends.1] at done
      rw [given]
      cases tail with
      | nil =>
          refine ⟨.idle, Relay.run_single (by simp [Relay.step]), .idle ?_⟩
          refine returning.held.release returning.state done returning.slave
            returning.side.arready returning.side.awready ?_ ?_
          · exact (Skid.contents_eq_nil (returning.held.r.next _ _ _)).mp split
          · simp [BusSystem.step, Interconnect.next, Interconnect.sBvalidNext, returning.state,
              returning.side.bvalid]
      | cons next tail =>
          exact ⟨_, Relay.run_single (by simp [Relay.step]),
            stays (returning.stays done split (ends.2 (by simp))) done⟩

end Returning

/-!
## Writes
-/

namespace WriteSide

variable (side : WriteSide sys.ic)
include side

theorem accepts : sys.accepts input sys.ic.sSelect = [] := by
  simp [BusSystem.accepts, side.arready, side.awready]

theorem gives : sys.gives input sys.ic.sSelect = [] := by
  simp [BusSystem.gives, Skid.given, side.rvalid]

theorem done_eq : sys.ic.done (sys.masterLines input) =
    (sys.ic.sBvalid sys.ic.sSelect && (sys.masterLines input sys.ic.sSelect).bready) := by
  simp [Interconnect.done, side.isRead, Interconnect.master]

theorem busy (bvalid : sys.ic.sBvalid sys.ic.sSelect = false) :
    sys.ic.done (sys.masterLines input) = false := by
  rw [side.done_eq, bvalid, Bool.false_and]

end WriteSide

/-- The write address is handed on in this cycle. -/
def sendsWrite (sys : BusSystem) (input : BusInput) : Bool :=
  sys.ic.mAwvalid sys.ic.mSelect && (sys.slaveLines input sys.ic.mSelect).awready

/-- The relay up to the master's beat. -/
theorem run_writes {sent closed : Bool} {queue rest : List WBeat}
    (unsent : sendsWrite sys input = true → sent = false)
    (split : queue =
      sys.ic.w.given sys.ic.mSelect (sys.slaveLines input sys.ic.mSelect).wready ++ rest) :
    (Relay.writing sys.ic.sSelect sys.ic.req sys.ic.mSelect sys.ic.region sent queue closed).run
      map ((if sendsWrite sys input then
        [.send sys.ic.mSelect false sys.ic.req sys.ic.region] else []) ++
      (sys.ic.w.given sys.ic.mSelect (sys.slaveLines input sys.ic.mSelect).wready).map
        (.write sys.ic.mSelect)) =
      some (.writing sys.ic.sSelect sys.ic.req sys.ic.mSelect sys.ic.region
        (sendsWrite sys input || sent) rest closed) := by
  rw [split]
  cases sending : sendsWrite sys input with
  | false => exact Relay.run_writes_writing _ _
  | true =>
      rw [if_pos rfl, unsent sending]
      refine (Relay.run_cons ?_).trans (Relay.run_writes_writing _ _)
      cases closed <;> simp [Relay.step]

namespace Writing

variable {sent : Bool} {queue : List WBeat}

theorem busy (writing : Writing map sys sent queue) :
    sys.ic.done (sys.masterLines input) = false :=
  writing.side.busy writing.bvalid

theorem out_eq (writing : Writing map sys sent queue) :
    sys.out map input =
      (if sendsWrite sys input then
        [.send sys.ic.mSelect false sys.ic.req sys.ic.region] else []) ++
      (sys.ic.w.given sys.ic.mSelect (sys.slaveLines input sys.ic.mSelect).wready).map
        (.write sys.ic.mSelect) ++
      if sys.ic.wPush (sys.masterLines input) then
        [.take sys.ic.sSelect (sys.masterLines input sys.ic.sSelect).w] else [] := by
  rw [writing.held.out_eq (.inl writing.bound), writing.side.accepts, writing.side.gives]
  simp [BusSystem.sends, writing.arvalid, BusSystem.reads, BusSystem.writes, BusSystem.takes,
    BusSystem.answers, BusSystem.finishes, writing.bvalid, BusSystem.slaveLines,
    SlavePort.drive, writing.port, sendsWrite, Interconnect.wPush, writing.state,
    Interconnect.master, Bool.and_comm]

theorem mSelect_step (writing : Writing map sys sent queue) :
    (sys.step map input).ic.mSelect = sys.ic.mSelect := by
  simp [BusSystem.step, Interconnect.next, Interconnect.mSelectNext, writing.state]

theorem sSelect_step (writing : Writing map sys sent queue) :
    (sys.step map input).ic.sSelect = sys.ic.sSelect :=
  writing.held.sSelect_step writing.busy

theorem held_step (writing : Writing map sys sent queue) : Held map (sys.step map input) :=
  writing.held.next writing.busy writing.mSelect_step

theorem writeSide (writing : Writing map sys sent queue) : WriteSide (sys.step map input).ic :=
  .of_step writing.held writing.busy writing.side.isRead writing.side.rvalid
    (by simp [writing.state])

theorem req_step (writing : Writing map sys sent queue) :
    (sys.step map input).ic.req = sys.ic.req := by
  simp [BusSystem.step, Interconnect.next, Interconnect.reqNext, writing.state]

theorem region_step (writing : Writing map sys sent queue) :
    (sys.step map input).ic.region = sys.ic.region := by
  simp [BusSystem.step, Interconnect.next, Interconnect.regionNext, writing.state]

theorem arvalid_step (writing : Writing map sys sent queue) :
    (sys.step map input).ic.mArvalid sys.ic.mSelect = false := by
  simp [BusSystem.step, Interconnect.next, Interconnect.mArvalidNext, writing.state,
    writing.arvalid]

theorem bvalid_step (writing : Writing map sys sent queue) :
    (sys.step map input).ic.sBvalid sys.ic.sSelect = false := by
  simp [BusSystem.step, Interconnect.next, Interconnect.sBvalidNext, writing.state,
    writing.bvalid]

/-- The slave has not seen the last beat. -/
theorem unlast (writing : Writing map sys sent queue) (ready : Bool) :
    (sys.ic.w.valid sys.ic.mSelect && ready && sys.ic.w.out.last) = false := by
  cases valid : sys.ic.w.valid sys.ic.mSelect with
  | false => rfl
  | true =>
      have first : sys.ic.w.out ∈ queue := by
        rw [← writing.contents]
        simp [Skid.contents, valid]
      rw [writing.more _ first, Bool.and_false]

theorem port_step (writing : Writing map sys sent queue) :
    (sys.step map input).slaves sys.ic.mSelect = ⟨false, sendsWrite sys input || sent, false⟩ := by
  simp [BusSystem.step, BusSystem.slavePort, writing.port, writing.arvalid, writing.unlast,
    sendsWrite, BusSystem.slaveLines, SlavePort.drive, Bool.or_comm]

theorem phase_step (writing : Writing map sys sent queue) :
    (sys.step map input).ic.addrValid = false ∧
      Addressing (sys.step map input).ic.addrValid
        ((sys.step map input).ic.mAwvalid sys.ic.mSelect) (sendsWrite sys input || sent) := by
  simp only [BusSystem.step, Interconnect.next, Interconnect.addrValidNext,
    Interconnect.mAwvalidNext, writing.state, sendsWrite]
  rcases writing.phase with ⟨waits, off, unsent⟩ | ⟨past, on, unsent⟩ | ⟨past, off, done⟩
  · simp [Addressing, waits, off, unsent]
  · cases ready : (sys.slaveLines input sys.ic.mSelect).awready
    all_goals simp [Addressing, past, on, unsent, ready]
  · simp [Addressing, past, off, done]

theorem unsent_of_sends (writing : Writing map sys sent queue)
    (sending : sendsWrite sys input = true) : sent = false := by
  rw [sendsWrite, Bool.and_eq_true] at sending
  rcases writing.phase with ⟨_, off, _⟩ | ⟨_, _, unsent⟩ | ⟨_, off, _⟩
  · rw [off] at sending
    cases sending.1
  · exact unsent
  · rw [off] at sending
    cases sending.1

theorem taken_eq (writing : Writing map sys sent queue) :
    sys.ic.w.taken (sys.ic.wPush (sys.masterLines input))
        (sys.masterLines input sys.ic.sSelect).w =
      if sys.ic.wPush (sys.masterLines input) then
        [(sys.masterLines input sys.ic.sSelect).w] else [] := by
  rw [Skid.taken]
  cases push : sys.ic.wPush (sys.masterLines input) with
  | false => simp
  | true =>
      simp only [Interconnect.wPush, writing.state, Bool.and_eq_true] at push
      simp [writing.ready push.1]

theorem continues (writing : Writing map sys sent queue) {queue' : List WBeat}
    (contents : (sys.step map input).ic.w.contents sys.ic.mSelect = queue')
    (more : ∀ beat ∈ queue', beat.last = false)
    (unended : sys.ic.wLast (sys.masterLines input) = false) :
    Writing map (sys.step map input) (sendsWrite sys input || sent) queue' where
  state := by
    simp [BusSystem.step, Interconnect.next, Interconnect.stateNext, writing.state, unended]
  held := writing.held_step
  side := writing.writeSide
  bound := by rw [writing.mSelect_step]; exact writing.bound
  bvalid := by rw [writing.sSelect_step, writing.bvalid_step]
  contents := by rw [writing.mSelect_step, contents]
  more := more
  arvalid := by rw [writing.mSelect_step, writing.arvalid_step]
  port := by rw [writing.mSelect_step, writing.port_step]
  ready said := by
    rw [writing.sSelect_step] at said
    simp only [BusSystem.step, Interconnect.next, Interconnect.sWreadyNext,
      Interconnect.only_self, writing.state, Bool.and_eq_true] at said
    exact (Skid.next_ready _ _ _ _ _).trans said.2
  phase := by rw [writing.mSelect_step]; exact writing.phase_step.2

theorem closes (writing : Writing map sys sent queue) {queue' : List WBeat}
    (contents : (sys.step map input).ic.w.contents sys.ic.mSelect = queue')
    (ends : Ends WBeat.last queue')
    (last : sys.ic.wLast (sys.masterLines input) = true) :
    Closing map (sys.step map input) (sendsWrite sys input || sent) queue' where
  state := by
    simp [BusSystem.step, Interconnect.next, Interconnect.stateNext, writing.state, last]
  held := writing.held_step
  side := writing.writeSide
  bound := by rw [writing.mSelect_step]; exact writing.bound
  wready := by
    rw [writing.sSelect_step]
    simp [BusSystem.step, Interconnect.next, Interconnect.sWreadyNext, writing.state, last]
  bvalid := by rw [writing.sSelect_step, writing.bvalid_step]
  contents := by rw [writing.mSelect_step, contents]
  ends _ := ends
  arvalid := by rw [writing.mSelect_step, writing.arvalid_step]
  awvalid := by
    have stepped : (sys.step map input).ic.addrValid = false ∧ Addressing _ _ _ :=
      writing.phase_step
    obtain ⟨past, phase⟩ := stepped
    rw [writing.mSelect_step]
    rcases phase with ⟨waits, _, _⟩ | ⟨_, on, unsent⟩ | ⟨_, off, done⟩
    · rw [past] at waits
      cases waits
    · rw [on, unsent, Bool.not_false]
    · rw [off, done, Bool.not_true]
  port := by
    rw [writing.mSelect_step, writing.port_step]
    cases queue' with
    | nil => exact ends.elim
    | cons beat queue' => rfl

theorem advances (writing : Writing map sys sent queue) :
    Advances map sys input
      (.writing sys.ic.sSelect sys.ic.req sys.ic.mSelect sys.ic.region sent queue false) := by
  obtain ⟨rest, split, kept⟩ := writing.held.w.exists_rest
    (sys.slaveLines input sys.ic.mSelect).wready (sys.ic.wPush (sys.masterLines input))
    (sys.masterLines input sys.ic.sSelect).w
  rw [writing.contents] at split
  rw [writing.taken_eq] at kept
  have contents : (sys.step map input).ic.w.contents sys.ic.mSelect =
      rest ++ if sys.ic.wPush (sys.masterLines input) then
        [(sys.masterLines input sys.ic.sSelect).w] else [] := kept
  have more : ∀ beat ∈ rest, beat.last = false := fun beat member =>
    writing.more beat (by rw [split]; exact List.mem_append_right _ member)
  have wLast : sys.ic.wLast (sys.masterLines input) =
      (sys.ic.wPush (sys.masterLines input) &&
        (sys.masterLines input sys.ic.sSelect).w.last) := by
    simp [Interconnect.wLast, Interconnect.wPush, writing.state, Interconnect.master]
  have stays (sent : Bool) (queue : List WBeat)
      (next : Writing map (sys.step map input) sent queue) :
      Stage map (sys.step map input)
        (.writing sys.ic.sSelect sys.ic.req sys.ic.mSelect sys.ic.region sent queue false) := by
    have stage := Stage.writing next
    rwa [writing.sSelect_step, writing.req_step, writing.mSelect_step,
      writing.region_step] at stage
  rw [Advances, writing.out_eq, Relay.run_append, run_writes writing.unsent_of_sends split]
  cases push : sys.ic.wPush (sys.masterLines input) with
  | false =>
      rw [push, if_neg Bool.false_ne_true, List.append_nil] at contents
      exact ⟨_, rfl, stays _ _ (writing.continues contents more (by rw [wLast, push]; rfl))⟩
  | true =>
      rw [push, if_pos rfl] at contents
      rw [if_pos rfl]
      refine ⟨_, Relay.run_single (if_pos rfl), ?_⟩
      rw [push, Bool.true_and] at wLast
      cases last : (sys.masterLines input sys.ic.sSelect).w.last with
      | false =>
          refine stays _ _ (writing.continues contents ?_ (wLast.trans last))
          intro beat member
          rcases List.mem_append.mp member with member | here
          · exact more beat member
          · rw [List.mem_singleton.mp here, last]
      | true =>
          have next : Closing map (sys.step map input) _ _ :=
            writing.closes contents (Ends.snoc more last) (wLast.trans last)
          have stage := Stage.closing next
          rwa [writing.sSelect_step, writing.req_step, writing.mSelect_step,
            writing.region_step] at stage

end Writing

namespace Closing

variable {sent : Bool} {queue : List WBeat}

/-- The slave answers in this cycle. -/
def answered (sys : BusSystem) (input : BusInput) : Bool :=
  sys.ic.mBready sys.ic.mSelect && (sys.slaveLines input sys.ic.mSelect).bvalid

theorem busy (closing : Closing map sys sent queue) :
    sys.ic.done (sys.masterLines input) = false :=
  closing.side.busy closing.bvalid

theorem out_eq (closing : Closing map sys sent queue) :
    sys.out map input =
      (if sendsWrite sys input then
        [.send sys.ic.mSelect false sys.ic.req sys.ic.region] else []) ++
      (sys.ic.w.given sys.ic.mSelect (sys.slaveLines input sys.ic.mSelect).wready).map
        (.write sys.ic.mSelect) ++
      if answered sys input then
        [.answer sys.ic.mSelect (sys.slaveLines input sys.ic.mSelect).b] else [] := by
  rw [closing.held.out_eq (.inl closing.bound), closing.side.accepts, closing.side.gives]
  simp [BusSystem.sends, closing.arvalid, BusSystem.reads, BusSystem.writes, BusSystem.takes,
    closing.wready, BusSystem.answers, BusSystem.finishes, closing.bvalid, BusSystem.slaveLines,
    SlavePort.drive, closing.port, sendsWrite, answered, Bool.and_comm]

theorem mSelect_step (closing : Closing map sys sent queue) :
    (sys.step map input).ic.mSelect = sys.ic.mSelect := by
  simp [BusSystem.step, Interconnect.next, Interconnect.mSelectNext, closing.state]

theorem sSelect_step (closing : Closing map sys sent queue) :
    (sys.step map input).ic.sSelect = sys.ic.sSelect :=
  closing.held.sSelect_step closing.busy

theorem held_step (closing : Closing map sys sent queue) : Held map (sys.step map input) :=
  closing.held.next closing.busy closing.mSelect_step

theorem writeSide (closing : Closing map sys sent queue) : WriteSide (sys.step map input).ic :=
  .of_step closing.held closing.busy closing.side.isRead closing.side.rvalid
    (by simp [closing.state])

theorem req_step (closing : Closing map sys sent queue) :
    (sys.step map input).ic.req = sys.ic.req := by
  simp [BusSystem.step, Interconnect.next, Interconnect.reqNext, closing.state]

theorem region_step (closing : Closing map sys sent queue) :
    (sys.step map input).ic.region = sys.ic.region := by
  simp [BusSystem.step, Interconnect.next, Interconnect.regionNext, closing.state]

theorem arvalid_step (closing : Closing map sys sent queue) :
    (sys.step map input).ic.mArvalid sys.ic.mSelect = false := by
  simp [BusSystem.step, Interconnect.next, Interconnect.mArvalidNext, closing.state,
    closing.arvalid]

theorem awvalid_step (closing : Closing map sys sent queue) :
    (sys.step map input).ic.mAwvalid sys.ic.mSelect = !(sendsWrite sys input || sent) := by
  have awvalid := closing.awvalid
  cases sent <;>
    simp [BusSystem.step, Interconnect.next, Interconnect.mAwvalidNext, closing.state, awvalid,
      sendsWrite]

theorem unsent_of_sends (closing : Closing map sys sent queue)
    (sending : sendsWrite sys input = true) : sent = false := by
  rw [sendsWrite, closing.awvalid, Bool.and_eq_true, Bool.not_eq_true'] at sending
  exact sending.1

/-- The slave answers when it has the address and every beat. -/
theorem complete_of_answered (closing : Closing map sys sent queue)
    (answers : answered sys input = true) : sent = true ∧ queue = [] := by
  simp only [answered, BusSystem.slaveLines, SlavePort.drive, closing.port, Bool.and_eq_true,
    List.isEmpty_iff] at answers
  exact ⟨answers.2.1.2, answers.2.2⟩

theorem contents_step (closing : Closing map sys sent queue) {rest : List WBeat}
    (split : queue =
      sys.ic.w.given sys.ic.mSelect (sys.slaveLines input sys.ic.mSelect).wready ++ rest) :
    (sys.step map input).ic.w.contents sys.ic.mSelect = rest := by
  have kept := closing.held.w.contents_next (sys.slaveLines input sys.ic.mSelect).wready
    (sys.ic.wPush (sys.masterLines input)) (sys.masterLines input sys.ic.sSelect).w
  have unpushed : sys.ic.wPush (sys.masterLines input) = false := by
    simp [Interconnect.wPush, closing.state]
  have untaken : sys.ic.w.taken false (sys.masterLines input sys.ic.sSelect).w = [] := by
    simp [Skid.taken]
  rw [closing.contents, split, unpushed, untaken, List.append_nil] at kept
  rw [List.append_cancel_left kept, ← unpushed]
  rfl

/-- The slave has every beat once the last has been given to it. -/
theorem rest_isEmpty (closing : Closing map sys sent queue) {ready : Bool} {rest : List WBeat}
    (split : queue = sys.ic.w.given sys.ic.mSelect ready ++ rest) :
    (queue.isEmpty || sys.ic.w.valid sys.ic.mSelect && ready && sys.ic.w.out.last) =
        rest.isEmpty ∧ (rest ≠ [] → Ends WBeat.last rest) := by
  have contents := closing.contents
  have ends := closing.ends
  cases valid : sys.ic.w.valid sys.ic.mSelect with
  | false =>
      have empty := (Skid.contents_eq_nil closing.held.w).mpr valid
      rw [contents] at empty
      subst empty
      have none : rest = [] := (List.append_eq_nil_iff.mp split.symm).2
      rw [none]
      exact ⟨rfl, fun some => absurd rfl some⟩
  | true =>
      obtain ⟨tail, rfl⟩ : ∃ tail, queue = sys.ic.w.out :: tail := by
        rw [← contents, Skid.contents, if_pos valid]
        exact ⟨_, rfl⟩
      obtain ⟨last, later⟩ := ends (by simp)
      cases ready with
      | false =>
          obtain rfl : rest = sys.ic.w.out :: tail := by simpa [Skid.given] using split.symm
          exact ⟨rfl, ends⟩
      | true =>
          obtain rfl : rest = tail := by simpa [Skid.given, valid] using split.symm
          exact ⟨by rw [last]; rfl, later⟩

theorem continues (closing : Closing map sys sent queue) {rest : List WBeat}
    (split : queue =
      sys.ic.w.given sys.ic.mSelect (sys.slaveLines input sys.ic.mSelect).wready ++ rest)
    (unanswered : answered sys input = false) :
    Closing map (sys.step map input) (sendsWrite sys input || sent) rest where
  state := by
    rw [answered] at unanswered
    simp [BusSystem.step, Interconnect.next, Interconnect.stateNext, closing.state,
      Interconnect.slave, unanswered]
  held := closing.held_step
  side := closing.writeSide
  bound := by rw [closing.mSelect_step]; exact closing.bound
  wready := by
    rw [closing.sSelect_step]
    simp [BusSystem.step, Interconnect.next, Interconnect.sWreadyNext, closing.state]
  bvalid := by
    rw [answered] at unanswered
    rw [closing.sSelect_step]
    simp [BusSystem.step, Interconnect.next, Interconnect.sBvalidNext, closing.state,
      Interconnect.slave, unanswered, closing.bvalid]
  contents := by rw [closing.mSelect_step, closing.contents_step split]
  ends := (closing.rest_isEmpty split).2
  arvalid := by rw [closing.mSelect_step, closing.arvalid_step]
  awvalid := by rw [closing.mSelect_step, closing.awvalid_step]
  port := by
    have done := (closing.rest_isEmpty split).1
    rw [answered, Bool.and_comm] at unanswered
    rw [closing.mSelect_step]
    simp [BusSystem.step, BusSystem.slavePort, closing.port, closing.arvalid, unanswered, done,
      sendsWrite, Bool.or_comm]

theorem responds (closing : Closing map sys sent queue) (answers : answered sys input = true) :
    Answering map (sys.step map input) where
  state := by
    rw [answered] at answers
    simp [BusSystem.step, Interconnect.next, Interconnect.stateNext, closing.state,
      Interconnect.slave, answers]
  held := closing.held_step
  side := closing.writeSide
  slave := by
    obtain ⟨rfl, rfl⟩ := closing.complete_of_answered answers
    rw [closing.mSelect_step]
    constructor
    · exact closing.arvalid_step
    · rw [closing.awvalid_step, Bool.or_true, Bool.not_true]
    · have empty : (sys.step map input).ic.w.contents sys.ic.mSelect = [] :=
        closing.contents_step (by
          have none := (Skid.contents_eq_nil closing.held.w).mp closing.contents
          simp [Skid.given, none])
      exact (Skid.contents_eq_nil (closing.held.w.next _ _ _)).mp empty
    · rw [answered, Bool.and_comm] at answers
      simp [BusSystem.step, BusSystem.slavePort, closing.port, closing.arvalid, answers,
        SlavePort.clear]
  wready := by
    rw [closing.sSelect_step]
    simp [BusSystem.step, Interconnect.next, Interconnect.sWreadyNext, closing.state]
  bvalid := by
    rw [answered] at answers
    rw [closing.sSelect_step]
    simp [BusSystem.step, Interconnect.next, Interconnect.sBvalidNext, closing.state,
      Interconnect.slave, answers]

theorem advances (closing : Closing map sys sent queue) :
    Advances map sys input
      (.writing sys.ic.sSelect sys.ic.req sys.ic.mSelect sys.ic.region sent queue true) := by
  obtain ⟨rest, split, _⟩ := closing.held.w.exists_rest
    (sys.slaveLines input sys.ic.mSelect).wready (sys.ic.wPush (sys.masterLines input))
    (sys.masterLines input sys.ic.sSelect).w
  rw [closing.contents] at split
  rw [Advances, closing.out_eq, Relay.run_append, run_writes closing.unsent_of_sends split]
  cases answers : answered sys input with
  | false =>
      have next : Closing map (sys.step map input) _ _ := closing.continues split answers
      have stage := Stage.closing next
      rw [closing.sSelect_step, closing.req_step, closing.mSelect_step,
        closing.region_step] at stage
      exact ⟨_, rfl, stage⟩
  | true =>
      obtain ⟨rfl, rfl⟩ := closing.complete_of_answered answers
      obtain rfl : rest = [] := (List.append_eq_nil_iff.mp split.symm).2
      have next : Answering map (sys.step map input) := closing.responds answers
      have bresp : (sys.step map input).ic.bresp =
          (sys.slaveLines input sys.ic.mSelect).b.resp := by
        rw [answered] at answers
        simp [BusSystem.step, Interconnect.next, Interconnect.brespNext, closing.state,
          Interconnect.slave, answers]
      have stage := Stage.answering next
      rw [closing.sSelect_step, closing.req_step, bresp] at stage
      rw [Bool.or_true, if_pos rfl]
      exact ⟨_, Relay.run_single (if_pos rfl), stage⟩

end Closing

namespace Dropping

theorem busy (dropping : Dropping map sys) : sys.ic.done (sys.masterLines input) = false :=
  dropping.side.busy dropping.bvalid

theorem out_eq (dropping : Dropping map sys) :
    sys.out map input = sys.takes input sys.ic.sSelect := by
  rw [dropping.held.out_eq (.inr dropping.slave), dropping.side.accepts, dropping.side.gives,
    dropping.slave.sends, dropping.slave.reads, dropping.slave.writes, dropping.slave.answers]
  simp [BusSystem.finishes, dropping.bvalid]

theorem mSelect_step (dropping : Dropping map sys) :
    (sys.step map input).ic.mSelect = sys.ic.mSelect := by
  simp [BusSystem.step, Interconnect.next, Interconnect.mSelectNext, dropping.state]

theorem sSelect_step (dropping : Dropping map sys) :
    (sys.step map input).ic.sSelect = sys.ic.sSelect :=
  dropping.held.sSelect_step dropping.busy

theorem req_step (dropping : Dropping map sys) : (sys.step map input).ic.req = sys.ic.req := by
  simp [BusSystem.step, Interconnect.next, Interconnect.reqNext, dropping.state]

theorem bresp_step (dropping : Dropping map sys) : (sys.step map input).ic.bresp = 3#2 := by
  simp [BusSystem.step, Interconnect.next, Interconnect.brespNext, dropping.state, dropping.bresp]

theorem slave_step (dropping : Dropping map sys) :
    SlaveQuiet (sys.step map input) (sys.step map input).ic.mSelect := by
  rw [dropping.mSelect_step]
  exact dropping.slave.next dropping.held.w (.inr (by simp [dropping.state]))

theorem writeSide (dropping : Dropping map sys) : WriteSide (sys.step map input).ic :=
  .of_step dropping.held dropping.busy dropping.side.isRead dropping.side.rvalid
    (by simp [dropping.state])

theorem continues (dropping : Dropping map sys)
    (unended : sys.ic.wLast (sys.masterLines input) = false) :
    Dropping map (sys.step map input) where
  state := by
    simp [BusSystem.step, Interconnect.next, Interconnect.stateNext, dropping.state, unended]
  held := dropping.held.next dropping.busy dropping.mSelect_step
  side := dropping.writeSide
  slave := dropping.slave_step
  bvalid := by
    rw [dropping.sSelect_step]
    simp [BusSystem.step, Interconnect.next, Interconnect.sBvalidNext, dropping.state, unended,
      dropping.bvalid]
  bresp := dropping.bresp_step

theorem responds (dropping : Dropping map sys)
    (last : sys.ic.wLast (sys.masterLines input) = true) : Answering map (sys.step map input) where
  state := by
    simp [BusSystem.step, Interconnect.next, Interconnect.stateNext, dropping.state, last]
  held := dropping.held.next dropping.busy dropping.mSelect_step
  side := dropping.writeSide
  slave := dropping.slave_step
  wready := by
    rw [dropping.sSelect_step]
    simp [BusSystem.step, Interconnect.next, Interconnect.sWreadyNext, dropping.state, last]
  bvalid := by
    rw [dropping.sSelect_step]
    simp [BusSystem.step, Interconnect.next, Interconnect.sBvalidNext, dropping.state, last]

theorem advances (dropping : Dropping map sys) :
    Advances map sys input (.dropping sys.ic.sSelect sys.ic.req) := by
  have wLast : sys.ic.wLast (sys.masterLines input) =
      ((sys.masterLines input sys.ic.sSelect).wvalid && sys.ic.sWready sys.ic.sSelect &&
        (sys.masterLines input sys.ic.sSelect).w.last) := by
    rw [Interconnect.wLast, Bool.and_comm (sys.ic.sWready _)]
    rfl
  have stays (next : Dropping map (sys.step map input)) :
      Stage map (sys.step map input) (.dropping sys.ic.sSelect sys.ic.req) := by
    have stage := Stage.dropping next
    rwa [dropping.sSelect_step, dropping.req_step] at stage
  rw [Advances, dropping.out_eq, BusSystem.takes]
  cases taken : (sys.masterLines input sys.ic.sSelect).wvalid &&
      sys.ic.sWready sys.ic.sSelect with
  | false => exact ⟨_, rfl, stays (dropping.continues (by rw [wLast, taken, Bool.false_and]))⟩
  | true =>
      rw [taken, Bool.true_and] at wLast
      refine ⟨_, Relay.run_single (if_pos rfl), ?_⟩
      cases last : (sys.masterLines input sys.ic.sSelect).w.last with
      | false => exact stays (dropping.continues (wLast.trans last))
      | true =>
          have next : Answering map (sys.step map input) := dropping.responds (wLast.trans last)
          have stage := Stage.answering next
          rwa [dropping.sSelect_step, dropping.req_step, dropping.bresp_step] at stage

end Dropping

namespace Answering

theorem out_eq (answering : Answering map sys) :
    sys.out map input = sys.finishes input sys.ic.sSelect := by
  rw [answering.held.out_eq (.inr answering.slave), answering.side.accepts, answering.side.gives,
    answering.slave.sends, answering.slave.reads, answering.slave.writes, answering.slave.answers]
  simp [BusSystem.takes, answering.wready]

theorem done_eq (answering : Answering map sys) :
    sys.ic.done (sys.masterLines input) = (sys.masterLines input sys.ic.sSelect).bready := by
  rw [answering.side.done_eq, answering.bvalid, Bool.true_and]

theorem stays (answering : Answering map sys)
    (busy : sys.ic.done (sys.masterLines input) = false) :
    Answering map (sys.step map input) where
  state := (answering.held.wait answering.state busy).1
  held := answering.held.next busy (answering.held.wait answering.state busy).2
  side := .of_step answering.held busy answering.side.isRead answering.side.rvalid
    (by simp [answering.state])
  slave := by
    rw [(answering.held.wait answering.state busy).2]
    exact answering.slave.next answering.held.w (.inr (by simp [answering.state]))
  wready := by
    rw [answering.held.sSelect_step busy]
    simp [BusSystem.step, Interconnect.next, Interconnect.sWreadyNext, answering.state]
  bvalid := by
    rw [answering.held.sSelect_step busy]
    rw [answering.done_eq] at busy
    simp [BusSystem.step, Interconnect.next, Interconnect.sBvalidNext, answering.state,
      answering.bvalid, busy]

theorem advances (answering : Answering map sys) :
    Advances map sys input
      (.responding sys.ic.sSelect ⟨sys.ic.req.id, sys.ic.bresp⟩) := by
  have done : sys.ic.done (sys.masterLines input) = _ := answering.done_eq
  rw [Advances, answering.out_eq, BusSystem.finishes, answering.bvalid, Bool.true_and, ← done]
  cases ends : sys.ic.done (sys.masterLines input) with
  | false =>
      have next : Answering map (sys.step map input) := answering.stays ends
      have same : (sys.step map input).ic.req = sys.ic.req ∧
          (sys.step map input).ic.bresp = sys.ic.bresp := by
        simp [BusSystem.step, Interconnect.next, Interconnect.reqNext, Interconnect.brespNext,
          answering.state]
      have stage := Stage.answering next
      rw [answering.held.sSelect_step ends, same.1, same.2] at stage
      exact ⟨_, rfl, stage⟩
  | true =>
      refine ⟨.idle, Relay.run_single (if_pos ⟨rfl, rfl⟩), .idle ?_⟩
      refine answering.held.release answering.state ends answering.slave
        answering.side.arready answering.side.awready ?_ ?_
      · simp only [BusSystem.step, Interconnect.next, Interconnect.rPush, answering.state]
        exact answering.held.r.valid_next answering.side.rvalid _ _
      · rw [done] at ends
        simp [BusSystem.step, Interconnect.next, Interconnect.sBvalidNext, answering.state, ends]

end Answering

theorem Stage.advances {relay : Relay} (stage : Stage map sys relay) :
    Advances map sys input relay := by
  cases stage with
  | idle idle => exact idle.advances
  | decoding decoding => exact decoding.advances
  | reading reading => exact reading.advances
  | refusing refusing => exact refusing.advances
  | returning returning => exact returning.advances
  | writing writing => exact writing.advances
  | closing closing => exact closing.advances
  | dropping dropping => exact dropping.advances
  | answering answering => exact answering.advances

/-!
## Runs
-/

theorem BusSystem.reset_idle (ic : Interconnect) : Idle map (BusSystem.reset ic) where
  state := rfl
  resting :=
    { masters := fun _ => ⟨rfl, rfl, rfl, rfl, rfl⟩
      slaves := fun _ => ⟨rfl, rfl, rfl, rfl⟩
      r := ⟨nofun, nofun, fun _ _ => rfl⟩
      w := ⟨nofun, nofun, fun _ _ => rfl⟩ }
  offered := nofun

theorem Stage.run {relay : Relay} (stage : Stage map sys relay) (inputs : Nat → BusInput)
    (t n : Nat) :
    ∃ relay', relay.run map ((busMachine map).events inputs t sys n) = some relay' ∧
      Stage map ((busMachine map).run inputs t sys n) relay' := by
  induction n generalizing t sys relay with
  | zero => exact ⟨relay, rfl, stage⟩
  | succ n ih =>
      obtain ⟨next, shown, stage⟩ : Advances map sys (inputs t) relay := stage.advances
      obtain ⟨last, rest, stage⟩ := ih stage (t + 1)
      refine ⟨last, ?_, stage⟩
      rw [Machine.events, Relay.run_append]
      exact (congrArg (Option.bind · _) shown).trans rest

end Ysyx.Npc.Amba
