import Ysyx.Soc.SdramController

/-! The stages of a transfer: what is under way in the command register, in the chips and in the
sampling registers, and the words in the cells. -/

set_option autoImplicit false

namespace Ysyx.Soc

/-!
## Stages
-/

/-- The port of the core while it serves the request. -/
def ApbReq.silent (req : ApbReq) : RamReq := ⟨0#4, false, req.paddr, req.pwdata⟩

/-- The row of the request is open, and no command but its own is under way. -/
structure InService (core : SdramAxiCore) (chips : Sdram) (mem : SdramCell → BitVec 32)
    (req : ApbReq) : Prop where
  backed : Backed core chips mem
  rows : RowsOpen core chips req.ram.rank
  noActive : core.command ≠ .active
  none : ∀ rank half, (chips rank half).wCounter = 0#4
  opened : Opened chips req.ram

/-- The write command is at the chips. -/
structure Written (core : SdramAxiCore) (chips : Sdram) (mem : SdramCell → BitVec 32)
    (req : ApbReq) : Prop extends InService core chips mem req where
  state : core.state = .idle
  command : core.command = .write
  carries : Carries core req.ram
  mask : core.dqm = ~~~req.pstrb
  data : core.data = req.pwdata
  drives : core.dataRdEn = false
  calm : ∀ rank half, (chips rank half).Calm
  ack : core.ack = true
  rd : core.rd.extractLsb' 0 3 = 0#3

/-- The read command is at the chips. -/
structure ReadSent (core : SdramAxiCore) (chips : Sdram) (mem : SdramCell → BitVec 32)
    (req : ApbReq) : Prop extends InService core chips mem req where
  state : core.state = .readWait
  command : core.command = .read
  carries : Carries core req.ram
  calm : ∀ rank half, (chips rank half).Calm
  ack : core.ack = false
  rd : core.rd.extractLsb' 0 3 = 1#3

/-- The chips of the rank have taken the read. -/
structure ReadTaken (core : SdramAxiCore) (chips : Sdram) (mem : SdramCell → BitVec 32)
    (req : ApbReq) : Prop extends InService core chips mem req where
  state : core.state = .delay ∧ core.delay = 2#4 ∧ core.delayState = .idle
  command : core.command = .nop
  drives : core.dataRdEn = true
  fetches : ∀ half, (chips req.ram.rank half).rCounter = 1#4 ∧
    (chips req.ram.rank half).lBank = req.ram.bank ∧
    (chips req.ram.rank half).rAddress = req.ram.cell.col
  calm : ∀ rank half, req.ram.rank ≠ rank → (chips rank half).Calm
  ack : core.ack = false
  rd : core.rd.extractLsb' 0 3 = 2#3

/-- The word has been on the bus. -/
structure ReadSampled (core : SdramAxiCore) (chips : Sdram) (mem : SdramCell → BitVec 32)
    (req : ApbReq) : Prop extends InService core chips mem req where
  state : core.state = .delay ∧ core.delay = 1#4 ∧ core.delayState = .idle
  command : core.command = .nop
  counts : ∀ half, (chips req.ram.rank half).rCounter = 2#4
  calm : ∀ rank half, req.ram.rank ≠ rank → (chips rank half).Calm
  sample : core.sampleData0 = mem req.ram.cell
  ack : core.ack = false
  rd : core.rd.extractLsb' 0 3 = 4#3

/-- The word is at the port. -/
structure ReadDone (core : SdramAxiCore) (chips : Sdram) (mem : SdramCell → BitVec 32)
    (req : ApbReq) : Prop extends InService core chips mem req where
  state : core.state = .idle
  command : core.command = .nop
  counts : ∀ rank half, (chips rank half).rCounter = 0#4
  sample : core.sampleData = mem req.ram.cell
  ack : core.ack = true
  rd : core.rd.extractLsb' 0 3 = 0#3

/-- What the two chips of each rank and the controller are at, with these words in the
cells. -/
inductive Stage : SdramSystem → (SdramCell → BitVec 32) → Prop where
  | powering {master : ApbPhase} {state : SdramTopState} {pending : Option ApbReq}
      {core : SdramAxiCore} {chips : Sdram} {mem : SdramCell → BitVec 32}
      (front : Front master state pending) (powering : Powering core chips mem) :
      Stage ⟨master, ⟨state, core⟩, chips⟩ mem
  | waiting {master : ApbPhase} {state : SdramTopState} {pending : Option ApbReq}
      {core : SdramAxiCore} {chips : Sdram} {mem : SdramCell → BitVec 32} {rank : Bool}
      (front : Front master state pending) (waiting : Waiting core pending)
      (backed : Backed core chips mem) (calm : ∀ rank half, (chips rank half).Calm)
      (rows : RowsOpen core chips rank) (aims : ∀ req, pending = some req → req.ram.rank = rank) :
      Stage ⟨master, ⟨state, core⟩, chips⟩ mem
  | written {req : ApbReq} {core : SdramAxiCore} {chips : Sdram} {mem : SdramCell → BitVec 32}
      (write : req.pwrite = true) (written : Written core chips mem req) :
      Stage ⟨.access req, ⟨.waitAck, core⟩, chips⟩ mem
  | sent {req : ApbReq} {core : SdramAxiCore} {chips : Sdram} {mem : SdramCell → BitVec 32}
      (read : req.pwrite = false) (sent : ReadSent core chips mem req) :
      Stage ⟨.access req, ⟨.waitAck, core⟩, chips⟩ mem
  | taken {req : ApbReq} {core : SdramAxiCore} {chips : Sdram} {mem : SdramCell → BitVec 32}
      (read : req.pwrite = false) (taken : ReadTaken core chips mem req) :
      Stage ⟨.access req, ⟨.waitAck, core⟩, chips⟩ mem
  | sampled {req : ApbReq} {core : SdramAxiCore} {chips : Sdram} {mem : SdramCell → BitVec 32}
      (read : req.pwrite = false) (sampled : ReadSampled core chips mem req) :
      Stage ⟨.access req, ⟨.waitAck, core⟩, chips⟩ mem
  | done {req : ApbReq} {core : SdramAxiCore} {chips : Sdram} {mem : SdramCell → BitVec 32}
      (read : req.pwrite = false) (done : ReadDone core chips mem req) :
      Stage ⟨.access req, ⟨.waitAck, core⟩, chips⟩ mem

section Steps

variable {core : SdramAxiCore} {chips : Sdram} {mem : SdramCell → BitVec 32} {req : ApbReq}
  {ram : RamReq} {dataIn float : BitVec 32} {pending : Option ApbReq}

theorem opened_of_hit {rank : Bool} (rows : RowsOpen core chips rank)
    (noActive : core.command ≠ .active) (hit : core.hit ram = true) : Opened chips ram := by
  intro half
  rw [SdramAxiCore.hit, Bool.and_eq_true, beq_iff_eq, bankDouble_eq] at hit
  have here := rows ram.rank half ram.bank hit.1
  rw [if_neg fun all => noActive all.1] at here
  exact here.trans hit.2.symm

theorem Backed.calm_next (backed : Backed core chips mem) (noRead : core.command ≠ .read)
    (counts : ∀ rank half, (chips rank half).rCounter = 0#4) (rank half : Bool) :
    (chips.posedge (core.pins ram) float rank half).Calm :=
  calm_posedge backed.cke (fun read => absurd read noRead) (counts rank half) (by
    rw [backed.cas]
    decide)

/-- `STATE_WRITE0` and `STATE_READ` put the command out while the row is open. -/
theorem Waiting.accept {rank : Bool} (waiting : Waiting core pending)
    (backed : Backed core chips mem) (calm : ∀ rank half, (chips rank half).Calm)
    (rows : RowsOpen core chips rank) (aims : req.ram.rank = rank)
    (state : core.state = .read ∨ core.state = .write0) (hit : core.hit req.ram = true) :
    InService (core.posedge req.ram dataIn) (chips.posedge (core.pins req.ram) float) mem req ∧
      ∀ rank half, (chips.posedge (core.pins req.ram) float rank half).Calm := by
  have noInit : core.state ≠ .init := by
    rcases state with state | state <;> rw [state] <;> exact SdramState.noConfusion
  have noActive : (core.posedge req.ram dataIn).command ≠ .active := by
    rcases state with state | state <;>
      simp [SdramAxiCore.posedge, SdramAxiCore.outputs, state]
  have same : (core.posedge req.ram dataIn).hit req.ram = core.hit req.ram := by
    rcases state with state | state <;>
      simp [SdramAxiCore.hit, SdramAxiCore.posedge, SdramAxiCore.outputs, state]
  subst aims
  obtain ⟨backed', none⟩ := @Backed.next _ _ req.ram dataIn float _ backed noInit waiting.noWrite
  have rows' := @RowsOpen.next _ _ req.ram dataIn float req.ram.rank rows backed.cke noInit
    (fun _ => rfl)
  exact ⟨⟨backed', rows', noActive, none, opened_of_hit rows' noActive (same.trans hit)⟩,
    fun rank half => backed.calm_next waiting.noRead (fun rank half => (calm rank half).1) rank half⟩

/-- A cycle of the service that puts no new command out. -/
theorem InService.next (base : InService core chips mem req)
    (state : core.state = .idle ∨ core.state = .delay ∨ core.state = .readWait)
    (noWrite : core.command ≠ .write) :
    InService (core.posedge req.silent dataIn) (chips.posedge (core.pins req.silent) float) mem
      req := by
  have noInit : core.state ≠ .init := by
    rcases state with state | state | state <;> rw [state] <;> exact SdramState.noConfusion
  have noActive : (core.posedge req.silent dataIn).command ≠ .active := by
    rcases state with state | state | state <;>
      simp [SdramAxiCore.posedge, SdramAxiCore.outputs, state]
  obtain ⟨backed, none⟩ := @Backed.next _ _ req.silent dataIn float _ base.backed noInit noWrite
  refine ⟨backed, ?_, noActive, none, fun half => ?_⟩
  · exact @RowsOpen.next _ _ req.silent dataIn float req.ram.rank base.rows base.backed.cke noInit
      (fun _ => rfl)
  · rw [posedge_line base.backed.cke, if_neg fun all => base.noActive all.1]
    exact base.opened half

end Steps

section Service

variable {core : SdramAxiCore} {chips : Sdram} {mem : SdramCell → BitVec 32} {req : ApbReq}
  {dataIn float : BitVec 32} {pending : Option ApbReq}

theorem Waiting.sends {rank : Bool} (waiting : Waiting core pending)
    (backed : Backed core chips mem) (calm : ∀ rank half, (chips rank half).Calm)
    (rows : RowsOpen core chips rank) (aims : req.ram.rank = rank)
    (state : core.state = .read) (hit : core.hit req.ram = true) :
    ReadSent (core.posedge req.ram dataIn) (chips.posedge (core.pins req.ram) float) mem req := by
  obtain ⟨base, calm'⟩ := @Waiting.accept _ _ _ req dataIn float _ _ waiting backed calm rows aims
    (.inl state) hit
  refine ⟨base, ?_, ?_, ⟨?_, ?_⟩, calm', ?_, ?_⟩
  · simp [SdramAxiCore.posedge, SdramAxiCore.delayNext, SdramAxiCore.stateNext, state]
  · simp [SdramAxiCore.posedge, SdramAxiCore.outputs, state]
  · simp [SdramAxiCore.posedge, SdramAxiCore.outputs, state]
  · simp [SdramAxiCore.posedge, SdramAxiCore.outputs, state]
  · change (core.state == .write0 || core.rd.getLsbD 2) = false
    rw [rd_two, waiting.rd, state]
    rfl
  · change (core.rd.extractLsb' 0 3 ++ BitVec.ofBool (core.state == .read)).extractLsb' 0 3 = 1#3
    rw [rd_next, waiting.rd, state]
    rfl

theorem Waiting.writes {rank : Bool} (waiting : Waiting core pending)
    (backed : Backed core chips mem) (calm : ∀ rank half, (chips rank half).Calm)
    (rows : RowsOpen core chips rank) (aims : req.ram.rank = rank)
    (state : core.state = .write0) (hit : core.hit req.ram = true) (write : req.pwrite = true) :
    Written (core.posedge req.ram dataIn) (chips.posedge (core.pins req.ram) float) mem req := by
  obtain ⟨base, calm'⟩ := @Waiting.accept _ _ _ req dataIn float _ _ waiting backed calm rows aims
    (.inr state) hit
  refine ⟨base, ?_, ?_, ⟨?_, ?_⟩, ?_, ?_, ?_, calm', ?_, ?_⟩
  · simp [SdramAxiCore.posedge, SdramAxiCore.delayNext, SdramAxiCore.stateNext, state]
  · simp [SdramAxiCore.posedge, SdramAxiCore.outputs, state]
  · simp [SdramAxiCore.posedge, SdramAxiCore.outputs, state]
  · simp [SdramAxiCore.posedge, SdramAxiCore.outputs, state]
  · simp [SdramAxiCore.posedge, SdramAxiCore.outputs, state, ApbReq.ram, write]
  · simp [SdramAxiCore.posedge, SdramAxiCore.outputs, state, ApbReq.ram]
  · simp [SdramAxiCore.posedge, SdramAxiCore.outputs, state]
  · simp [SdramAxiCore.posedge, state]
  · change (core.rd.extractLsb' 0 3 ++ BitVec.ofBool (core.state == .read)).extractLsb' 0 3 = 0#3
    rw [rd_next, waiting.rd, state]
    rfl

theorem ReadSent.next (sent : ReadSent core chips mem req) :
    ReadTaken (core.posedge req.silent dataIn) (chips.posedge (core.pins req.silent) float) mem
      req := by
  have state := sent.state
  have noWrite : core.command ≠ .write := by
    rw [sent.command]
    exact SdramCmd.noConfusion
  have taken (half : Bool) := @read_posedge chips core req.silent float sent.backed.cke sent.command
    ⟨sent.carries.addr, sent.carries.bank⟩ half (sent.calm _ half).1
  refine ⟨sent.toInService.next (.inr (.inr state)) noWrite, ⟨?_, ?_, ?_⟩, ?_, ?_, fun half => ?_,
    fun rank half other => ?_, ?_, ?_⟩
  · simp [SdramAxiCore.posedge, SdramAxiCore.delayNext, state, ApbReq.silent, RamReq.req,
      SdramAxiCore.readLatency]
  · simp [SdramAxiCore.posedge, SdramAxiCore.delayNext, state, ApbReq.silent, RamReq.req,
      SdramAxiCore.readLatency]
  · simp [SdramAxiCore.posedge, SdramAxiCore.delayNext, SdramAxiCore.stateNext, state,
      ApbReq.silent, RamReq.req, SdramAxiCore.readLatency]
  · simp [SdramAxiCore.posedge, SdramAxiCore.outputs, state]
  · simp [SdramAxiCore.posedge, SdramAxiCore.outputs, state]
  · exact ⟨(taken half).1, (taken half).2.2.1, (taken half).2.2.2⟩
  · exact calm_posedge sent.backed.cke (fun _ => other) (sent.calm rank half).1 (by
      rw [sent.backed.cas]
      decide)
  · change (core.state == .write0 || core.rd.getLsbD 2) = false
    rw [rd_two, sent.rd, state]
    rfl
  · change (core.rd.extractLsb' 0 3 ++ BitVec.ofBool (core.state == .read)).extractLsb' 0 3 = 2#3
    rw [rd_next, sent.rd, state]
    rfl

/-- Two idle cycles of the core, on the way back to `STATE_IDLE`. -/
theorem delay_next (state : core.state = .delay) :
    (core.posedge req.silent dataIn).command = .nop ∧
      (core.posedge req.silent dataIn).dataRdEn = true ∧
      (core.posedge req.silent dataIn).delay = core.delay - 1#4 ∧
      (core.posedge req.silent dataIn).delayState = core.delayState ∧
      (core.posedge req.silent dataIn).state =
        (if core.delay - 1#4 = 0#4 then core.delayState else .delay) := by
  simp [SdramAxiCore.posedge, SdramAxiCore.outputs, SdramAxiCore.delayNext,
    SdramAxiCore.stateNext, state]

/-- Between the two edges of the chips the bus shows the word of the cell. -/
theorem ReadTaken.bus (taken : ReadTaken core chips mem req) (after : BitVec 32) :
    (chips.posedge (core.pins req.silent) float).dq (core.pins req.silent) after true ++
      (chips.posedge (core.pins req.silent) float).dq (core.pins req.silent) after false =
        mem req.ram.cell := by
  have noRead : core.command ≠ .read := by
    rw [taken.command]
    exact SdramCmd.noConfusion
  have shows (half : Bool) :
      (chips.posedge (core.pins req.silent) float).dq (core.pins req.silent) after half =
        (chips req.ram.rank half).bank req.ram.bank (req.ram.row ++ req.ram.cell.col) := by
    obtain ⟨one, bank, col⟩ := taken.fetches half
    obtain ⟨_, flag, dout⟩ := @first_posedge chips core req.silent float taken.backed.cke noRead
      req.ram.rank half one (taken.backed.cas _ _) (taken.backed.single _ _)
    have quiet : (chips.posedge (core.pins req.silent) float (!req.ram.rank) half).readFlag =
        false :=
      (calm_posedge taken.backed.cke (fun read => absurd read noRead)
        (taken.calm _ half (by cases req.ram.rank <;> decide)).1 (by
          rw [taken.backed.cas]
          decide)).2
    rw [Sdram32mx16.rSdramAddress, bank, col, taken.opened half] at dout
    have listens : (core.pins req.silent).dqEn = false := by
      simp [SdramAxiCore.pins, taken.drives]
    cases rank : req.ram.rank with
    | false =>
        rw [rank] at flag quiet dout
        simp only [Sdram.dq, listens, flag, Bool.not_false ▸ quiet]
        exact dout
    | true =>
        rw [rank] at flag quiet dout
        simp only [Sdram.dq, listens, flag, Bool.not_true ▸ quiet]
        exact dout
  rw [shows, shows, ← taken.backed.stored, stored_of_wCounter taken.none]
  rfl

theorem ReadTaken.next (taken : ReadTaken core chips mem req)
    (bus : dataIn = mem req.ram.cell) :
    ReadSampled (core.posedge req.silent dataIn) (chips.posedge (core.pins req.silent) float) mem
      req := by
  obtain ⟨state, two, idle⟩ := taken.state
  obtain ⟨command, _, delay, delayState, next⟩ := @delay_next core req dataIn state
  rw [two] at delay next
  have noWrite : core.command ≠ .write := by
    rw [taken.command]
    exact SdramCmd.noConfusion
  have noRead : core.command ≠ .read := by
    rw [taken.command]
    exact SdramCmd.noConfusion
  refine ⟨taken.toInService.next (.inr (.inl state)) noWrite, ⟨next, delay, delayState.trans idle⟩,
    command, fun half => ?_, fun rank half other => ?_, bus, ?_, ?_⟩
  · exact (first_posedge taken.backed.cke noRead (taken.fetches half).1 (taken.backed.cas _ _)
      (taken.backed.single _ _)).1
  · exact calm_posedge taken.backed.cke (fun read => absurd read noRead)
      (taken.calm rank half other).1 (by
        rw [taken.backed.cas]
        decide)
  · change (core.state == .write0 || core.rd.getLsbD 2) = false
    rw [rd_two, taken.rd, state]
    rfl
  · change (core.rd.extractLsb' 0 3 ++ BitVec.ofBool (core.state == .read)).extractLsb' 0 3 = 4#3
    rw [rd_next, taken.rd, state]
    rfl

theorem ReadSampled.next (sampled : ReadSampled core chips mem req) :
    ReadDone (core.posedge req.silent dataIn) (chips.posedge (core.pins req.silent) float) mem
      req := by
  obtain ⟨state, one, idle⟩ := sampled.state
  obtain ⟨command, _, _, _, next⟩ := @delay_next core req dataIn state
  rw [one, idle] at next
  have noWrite : core.command ≠ .write := by
    rw [sampled.command]
    exact SdramCmd.noConfusion
  have noRead : core.command ≠ .read := by
    rw [sampled.command]
    exact SdramCmd.noConfusion
  refine ⟨sampled.toInService.next (.inr (.inl state)) noWrite, next, command,
    fun rank half => ?_, sampled.sample, ?_, ?_⟩
  · by_cases own : req.ram.rank = rank
    · subst own
      exact second_posedge sampled.backed.cke noRead (sampled.counts half) (sampled.backed.cas _ _)
        (sampled.backed.single _ _)
    · exact (calm_posedge sampled.backed.cke (fun read => absurd read noRead)
        (sampled.calm rank half own).1 (by
          rw [sampled.backed.cas]
          decide)).1
  · change (core.state == .write0 || core.rd.getLsbD 2) = true
    rw [rd_two, sampled.rd, state]
    rfl
  · change (core.rd.extractLsb' 0 3 ++ BitVec.ofBool (core.state == .read)).extractLsb' 0 3 = 0#3
    rw [rd_next, sampled.rd, state]
    rfl

/-- After the answer the controller is idle again, or goes to a refresh. -/
theorem idle_next (state : core.state = .idle) (rd : core.rd.extractLsb' 0 3 = 0#3) :
    Waiting (core.posedge req.silent dataIn) none := by
  have command : (core.posedge req.silent dataIn).command = .nop := by
    simp [SdramAxiCore.posedge, SdramAxiCore.outputs, state]
  have asks : Asks req.silent none := by
    refine ⟨fun other none => ?_, fun _ => rfl⟩
    cases none
  obtain ⟨notDelay, serves⟩ := @idle_serves core none req.silent dataIn state asks
  refine ⟨?_, ?_, ?_, ?_, ?_, ?_⟩
  · rw [if_neg notDelay]
    exact serves
  · rw [command]
    exact SdramCmd.noConfusion
  · rw [command]
    exact SdramCmd.noConfusion
  · rw [command]
    exact SdramCmd.noConfusion
  · change (core.state == .write0 || core.rd.getLsbD 2) = false
    rw [rd_two, rd, state]
    rfl
  · change (core.rd.extractLsb' 0 3 ++ BitVec.ofBool (core.state == .read)).extractLsb' 0 3 = 0#3
    rw [Soc.rd_next, rd, state]
    rfl

theorem ReadDone.next (done : ReadDone core chips mem req) :
    Waiting (core.posedge req.silent dataIn) none ∧
      InService (core.posedge req.silent dataIn) (chips.posedge (core.pins req.silent) float) mem
        req ∧
      ∀ rank half, (chips.posedge (core.pins req.silent) float rank half).Calm := by
  have noWrite : core.command ≠ .write := by
    rw [done.command]
    exact SdramCmd.noConfusion
  have noRead : core.command ≠ .read := by
    rw [done.command]
    exact SdramCmd.noConfusion
  exact ⟨idle_next done.state done.rd, done.toInService.next (.inl done.state) noWrite,
    done.backed.calm_next noRead done.counts⟩

theorem Written.next (written : Written core chips mem req) :
    Waiting (core.posedge req.silent dataIn) none ∧
      Backed (core.posedge req.silent dataIn) (chips.posedge (core.pins req.silent) float)
        (Function.update mem req.ram.cell
          (strobe req.pstrb (mem req.ram.cell) req.pwdata)) ∧
      RowsOpen (core.posedge req.silent dataIn) (chips.posedge (core.pins req.silent) float)
        req.ram.rank ∧
      ∀ rank half, (chips.posedge (core.pins req.silent) float rank half).Calm := by
  have state := written.state
  have noInit : core.state ≠ .init := by
    rw [state]
    exact SdramState.noConfusion
  have noRead : core.command ≠ .read := by
    rw [written.command]
    exact SdramCmd.noConfusion
  obtain ⟨cke, loadMode, mode⟩ :=
    @Backed.keeps _ _ req.silent dataIn float _ written.backed noInit
  have stored := @stored_write chips core req.silent float written.backed.cke written.command
    ⟨written.carries.addr, written.carries.bank⟩ written.opened req.pstrb written.mask
    written.drives (fun rank half => (written.calm rank half).2) written.none
  rw [written.backed.stored, written.data] at stored
  refine ⟨idle_next state written.rd, ⟨cke, loadMode, fun rank half => (mode rank half).1,
    fun rank half => (mode rank half).2, fun rank half => ?_, stored⟩, ?_, ?_⟩
  · by_cases command : (core.pins req.silent).commandOf rank = .write
    · refine .inr ⟨?_, (mode rank half).2⟩
      rw [posedge_chip written.backed.cke]
      exact (Sdram32mx16.selected_write command (written.none rank half)).2
    · refine .inl ?_
      rw [posedge_chip written.backed.cke]
      exact (Sdram32mx16.selected_settled command (.inl (written.none rank half))).2
  · exact @RowsOpen.next _ _ req.silent dataIn float req.ram.rank written.rows written.backed.cke
      noInit (fun _ => rfl)
  · exact written.backed.calm_next noRead fun rank half => (written.calm rank half).1

end Service

/-!
## One cycle
-/

/-- The cell of an address. -/
def cellAt (addr : BitVec 32) : SdramCell := RamReq.cell ⟨0#4, false, addr, 0#32⟩

/-- The cells after a transfer. -/
def SdramTransfer.apply (mem : SdramCell → BitVec 32) : SdramTransfer → SdramCell → BitVec 32
  | .read _ _ => mem
  | .write addr data strb =>
      Function.update mem (cellAt addr) (strobe strb (mem (cellAt addr)) data)

def SdramTransfer.Fits (mem : SdramCell → BitVec 32) : SdramTransfer → Prop
  | .read addr data => data = mem (cellAt addr)
  | .write _ _ _ => True

section Cycle

variable {core : SdramAxiCore} {chips : Sdram} {mem : SdramCell → BitVec 32} {req : ApbReq}
  {input : SdramInput}

/-- A cycle in which the controller serves the request. -/
theorem step_service :
    ∃ dataIn, SdramSystem.step input ⟨.access req, ⟨.waitAck, core⟩, chips⟩ =
      ⟨if core.ack then .idle else .access req,
        ⟨if core.ack then .idle else .waitAck, core.posedge req.silent dataIn⟩,
        chips.posedge (core.pins req.silent) input.before⟩ ∧
      dataIn =
        (chips.posedge (core.pins req.silent) input.before).dq (core.pins req.silent) input.after
            true ++
          (chips.posedge (core.pins req.silent) input.before).dq (core.pins req.silent) input.after
            false := by
  have ram : SdramTop.ram ⟨.waitAck, core⟩ (ApbPhase.drive (.access req) input.want) =
      req.silent := by
    simp [SdramTop.ram, SdramTop.active, ApbPhase.drive, ApbReq.silent]
  refine ⟨_, ?_, rfl⟩
  simp only [SdramSystem.step, SdramSystem.dataIn, SdramSystem.edge, SdramSystem.request,
    SdramSystem.pins, ram]
  rfl

/-- A cycle in front of the service. -/
theorem step_front {master : ApbPhase} {state : SdramTopState} {pending : Option ApbReq}
    (front : Front master state pending) (ack : core.ack = false) :
    (∃ dataIn, SdramSystem.step input ⟨master, ⟨state, core⟩, chips⟩ =
        ⟨master.next input.want false,
          ⟨SdramTop.stateNext ⟨state, core⟩ (master.drive input.want),
            core.posedge (SdramTop.ram ⟨state, core⟩ (master.drive input.want)) dataIn⟩,
          chips.posedge (core.pins (SdramTop.ram ⟨state, core⟩ (master.drive input.want)))
            input.before⟩) ∧
      SdramSystem.out ⟨master, ⟨state, core⟩, chips⟩ = [] := by
  constructor
  · refine ⟨SdramSystem.dataIn input ⟨master, ⟨state, core⟩, chips⟩, ?_⟩
    rw [← ack]
    rfl
  · cases front with
    | idle => rfl
    | pending req => simp [SdramSystem.out, ack]

theorem Powering.cycle {master : ApbPhase} {state : SdramTopState} {pending : Option ApbReq}
    (front : Front master state pending) (powering : Powering core chips mem) :
    SdramSystem.out ⟨master, ⟨state, core⟩, chips⟩ = [] ∧
      Stage (SdramSystem.step input ⟨master, ⟨state, core⟩, chips⟩) mem := by
  have noAccept : core.accept = false := by
    rw [SdramAxiCore.accept, powering.state]
    rfl
  obtain ⟨⟨dataIn, step⟩, silent⟩ := @step_front core chips input _ _ _ front powering.ack
  obtain ⟨pending', front', _, asks⟩ := front.next noAccept input.want
  refine ⟨silent, ?_⟩
  rw [step]
  generalize SdramTop.ram ⟨state, core⟩ (master.drive input.want) = ram
  cases refresh : core.refresh with
  | false => exact .powering front' (powering.stays refresh)
  | true =>
      have calm := fun rank half =>
        (@Powering.quiet_next _ _ _ ram input.before powering rank half)
      have mode := fun rank half =>
        (@Powering.mode_next _ _ _ ram input.before powering (.inl refresh) rank half)
      obtain ⟨noRead, noWrite, noActive, loadMode⟩ :=
        @Powering.command_next _ _ _ ram dataIn powering
      obtain ⟨rowOpen, _, _, cke⟩ := @init_outputs core ram dataIn powering.state
      obtain ⟨ack, rd⟩ := @Powering.rd_next _ _ _ ram dataIn powering
      have idle : (core.posedge ram dataIn).state = .idle := by
        simp [SdramAxiCore.posedge, SdramAxiCore.delayNext, SdramAxiCore.stateNext, powering.state,
          refresh]
      refine @Stage.waiting _ _ _ _ _ _ ((pending'.map fun req => req.ram.rank).getD false) front'
        ⟨?_, noRead, noWrite, fun active => absurd active noActive, ack, rd⟩
        ⟨?_, loadMode, fun rank half => (mode rank half).1, fun rank half => (mode rank half).2,
          fun rank half => .inl (calm rank half).2.1, ?_⟩
        (fun rank half => (calm rank half).1) ?_ ?_
      · rw [idle]
        trivial
      · rw [cke, powering.powered (.inl refresh)]
        rfl
      · rw [stored_of_wCounter fun rank half => (calm rank half).2.1]
        exact powering.held_next
      · intro r half bank open_
        rw [rowOpen, powering.rowOpen] at open_
        cases open_
      · rintro req rfl
        rfl

theorem Waiting.cycle {master : ApbPhase} {state : SdramTopState} {pending : Option ApbReq}
    {rank : Bool} (front : Front master state pending) (waiting : Waiting core pending)
    (backed : Backed core chips mem) (calm : ∀ rank half, (chips rank half).Calm)
    (rows : RowsOpen core chips rank) (aims : ∀ req, pending = some req → req.ram.rank = rank) :
    SdramSystem.out ⟨master, ⟨state, core⟩, chips⟩ = [] ∧
      Stage (SdramSystem.step input ⟨master, ⟨state, core⟩, chips⟩) mem := by
  obtain ⟨⟨dataIn, step⟩, silent⟩ := @step_front core chips input _ _ _ front waiting.ack
  refine ⟨silent, ?_⟩
  rw [step]
  have serves := waiting.serves
  by_cases accepted : core.state = .read ∨ core.state = .write0
  · -- the request is accepted, so it waits
    obtain ⟨req, rfl, hit⟩ : ∃ req, pending = some req ∧ core.hit req.ram = true := by
      rcases accepted with here | here
      all_goals
        rw [if_neg (by rw [here]; exact SdramState.noConfusion), here] at serves
        obtain ⟨req, is, _, hit⟩ := serves
        exact ⟨req, is, hit⟩
    cases front with
    | pending =>
        have ram : SdramTop.ram ⟨.waitAccept, core⟩ (ApbPhase.drive (.access req) input.want) =
            req.ram := by
          simp [SdramTop.ram, SdramTop.active, ApbPhase.drive, ApbReq.ram]
        have accept : SdramTop.stateNext ⟨.waitAccept, core⟩
            (ApbPhase.drive (.access req) input.want) = .waitAck := by
          rcases accepted with here | here <;>
            simp [SdramTop.stateNext, SdramAxiCore.accept, here]
        rw [ram, accept]
        rcases accepted with here | here
        · rw [if_neg (by rw [here]; exact SdramState.noConfusion), here] at serves
          obtain ⟨_, ⟨⟩, read, _⟩ := serves
          exact .sent read (waiting.sends backed calm rows (aims req rfl) here hit)
        · rw [if_neg (by rw [here]; exact SdramState.noConfusion), here] at serves
          obtain ⟨_, ⟨⟩, write, _⟩ := serves
          exact .written write (waiting.writes backed calm rows (aims req rfl) here hit write)
  · rw [not_or] at accepted
    have noAccept : core.accept = false := by
      rw [SdramAxiCore.accept, beq_eq_false_iff_ne.mpr accepted.1,
        beq_eq_false_iff_ne.mpr accepted.2]
      rfl
    obtain ⟨pending', front', keeps, asks⟩ := front.next noAccept input.want
    generalize SdramTop.ram ⟨state, core⟩ (master.drive input.want) = ram at asks ⊢
    have noInit : core.state ≠ .init := by
      intro init
      rw [if_neg (by rw [init]; exact SdramState.noConfusion), init] at serves
      exact serves
    have aimed : core.command = .active → rank = ram.rank := by
      intro active
      obtain ⟨req, is⟩ := Option.ne_none_iff_exists'.mp (waiting.active active)
      rw [asks.some req (keeps req is), aims req is]
    have next := @Waiting.next _ _ _ ram dataIn waiting keeps asks accepted.1 accepted.2
    obtain ⟨backed', _⟩ := @Backed.next _ _ ram dataIn input.before _ backed noInit waiting.noWrite
    refine @Stage.waiting _ _ _ _ _ _ ((pending'.map fun req => req.ram.rank).getD false) front'
      next backed' (backed.calm_next waiting.noRead fun rank half => (calm rank half).1) ?_ ?_
    · refine RowsOpen.next (rows.of_rank aimed) backed.cke noInit fun activates => ?_
      rw [if_neg (by rw [activates]; exact SdramState.noConfusion), activates] at serves
      obtain ⟨req, is, _⟩ := serves
      rw [keeps req is, asks.some req (keeps req is)]
      rfl
    · rintro req rfl
      rfl

/-- One cycle of the whole: a transfer that it completes fits the words in the cells. -/
theorem Stage.next {sys : SdramSystem} (stage : Stage sys mem) (input : SdramInput) :
    (sys.out = [] ∧ Stage (sys.step input) mem) ∨
      ∃ transfer, sys.out = [transfer] ∧ transfer.Fits mem ∧
        Stage (sys.step input) (transfer.apply mem) := by
  cases stage with
  | powering front powering => exact .inl (powering.cycle front)
  | waiting front waiting backed calm rows aims =>
      exact .inl (waiting.cycle front backed calm rows aims)
  | @written req core chips _ write written =>
      obtain ⟨dataIn, step, _⟩ := @step_service core chips req input
      obtain ⟨waiting, backed, rows, calm⟩ := @Written.next _ _ _ _ dataIn input.before written
      refine .inr ⟨.write req.paddr req.pwdata req.pstrb, ?_, trivial, ?_⟩
      · simp [SdramSystem.out, written.ack, write]
      · rw [step, written.ack]
        exact .waiting .idle waiting backed calm rows nofun
  | @sent req core chips _ read sent =>
      obtain ⟨dataIn, step, _⟩ := @step_service core chips req input
      refine .inl ⟨?_, ?_⟩
      · simp [SdramSystem.out, sent.ack]
      · rw [step, sent.ack]
        exact .taken read sent.next
  | @taken req core chips _ read taken =>
      obtain ⟨dataIn, step, bus⟩ := @step_service core chips req input
      refine .inl ⟨?_, ?_⟩
      · simp [SdramSystem.out, taken.ack]
      · rw [step, taken.ack]
        exact .sampled read (taken.next (bus.trans (taken.bus input.after)))
  | @sampled req core chips _ read sampled =>
      obtain ⟨dataIn, step, _⟩ := @step_service core chips req input
      refine .inl ⟨?_, ?_⟩
      · simp [SdramSystem.out, sampled.ack]
      · rw [step, sampled.ack]
        exact .done read sampled.next
  | @done req core chips _ read done =>
      obtain ⟨dataIn, step, _⟩ := @step_service core chips req input
      obtain ⟨waiting, base, calm⟩ := @ReadDone.next _ _ _ _ dataIn input.before done
      refine .inr ⟨.read req.paddr core.sampleData, ?_, done.sample, ?_⟩
      · simp [SdramSystem.out, done.ack, read]
      · rw [step, done.ack]
        exact .waiting .idle waiting base.backed calm base.rows nofun

theorem stage_reset (chips : Sdram) : Stage (SdramSystem.reset chips) chips.held := by
  refine .powering .idle ⟨rfl, fun _ => rfl, ?_, ?_, ?_, ?_, ?_, ?_, ?_, ?_, rfl, rfl, rfl⟩
  · exact SdramCmd.noConfusion
  · exact SdramCmd.noConfusion
  · exact SdramCmd.noConfusion
  · exact nofun
  · rintro (refresh | early)
    · cases refresh
    · exact absurd early (by decide)
  · exact nofun
  · rintro (refresh | early)
    · cases refresh
    · exact absurd early (by decide)
  · exact nofun

end Cycle

end Ysyx.Soc
