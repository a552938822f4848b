import Ysyx.Soc.SdramChips

/-! The controller between transfers: what it waits for and where it goes next, how its open rows
are those of the chips, and how it comes out of its initialisation. -/

set_option autoImplicit false

namespace Ysyx.Soc

/-!
## The front
-/

/-- The request at the port of the core while `sdram_top_apb` asks for it. -/
def ApbReq.ram (req : ApbReq) : RamReq where
  wr := if req.pwrite then req.pstrb else 0#4
  rd := !req.pwrite
  addr := req.paddr
  data := req.pwdata

/-- Nothing is asked for, or a request that has not been accepted. -/
inductive Front : ApbPhase → SdramTopState → Option ApbReq → Prop where
  | idle : Front .idle .idle none
  | pending (req : ApbReq) : Front (.access req) .waitAccept (some req)

/-- What the port carries when `pending` is asked for. -/
structure Asks (ram : RamReq) (pending : Option ApbReq) : Prop where
  some : ∀ req, pending = some req → ram = req.ram
  none : pending = none → ram.req = false

theorem Front.next {master : ApbPhase} {state : SdramTopState} {pending : Option ApbReq}
    {core : SdramAxiCore} (front : Front master state pending) (noAccept : core.accept = false)
    (want : ApbReq) :
    ∃ pending', Front (master.next want false) (SdramTop.stateNext ⟨state, core⟩ (master.drive want))
        pending' ∧
      (∀ req, pending = some req → pending' = some req) ∧
      Asks (SdramTop.ram ⟨state, core⟩ (master.drive want)) pending' := by
  cases front with
  | idle =>
      cases psel : want.psel with
      | false =>
          refine ⟨none, ?_, nofun, nofun, fun _ => ?_⟩
          · simp [ApbPhase.next, SdramTop.stateNext, SdramTop.active, ApbPhase.drive, psel,
              Front.idle]
          · simp [SdramTop.ram, SdramTop.active, ApbPhase.drive, psel, RamReq.req]
      | true =>
          refine ⟨some want, ?_, nofun, ?_, nofun⟩
          · simp [ApbPhase.next, SdramTop.stateNext, SdramTop.active, ApbPhase.drive, psel,
              noAccept, Front.pending]
          · rintro _ ⟨⟩
            simp [SdramTop.ram, SdramTop.active, ApbPhase.drive, psel, ApbReq.ram]
  | pending req =>
      refine ⟨some req, ?_, fun _ same => same, ?_, nofun⟩
      · simp [ApbPhase.next, SdramTop.stateNext, noAccept, Front.pending]
      · rintro _ ⟨⟩
        simp [SdramTop.ram, SdramTop.active, ApbPhase.drive, ApbReq.ram]

/-!
## The controller between transfers
-/

/-- The state may be entered with this request pending. -/
def Serves (core : SdramAxiCore) (pending : Option ApbReq) : SdramState → Prop
  | .idle | .refresh => True
  | .read => ∃ req, pending = some req ∧ req.pwrite = false ∧ core.hit req.ram = true
  | .write0 => ∃ req, pending = some req ∧ req.pwrite = true ∧ core.hit req.ram = true
  | .activate => ∃ req, pending = some req ∧ core.target = req.ram.access
  | .precharge => core.target = .refresh ∨ ∃ req, pending = some req ∧ core.target = req.ram.access
  | .init | .delay | .readWait | .write1 => False

theorem Serves.keep {core core' : SdramAxiCore} {pending pending' : Option ApbReq}
    {state : SdramState} (serves : Serves core pending state) (target : core'.target = core.target)
    (rowOpen : core'.rowOpen = core.rowOpen) (activeRow : core'.activeRow = core.activeRow)
    (keeps : ∀ req, pending = some req → pending' = some req) : Serves core' pending' state := by
  have hit (ram : RamReq) : core'.hit ram = core.hit ram := by
    rw [SdramAxiCore.hit, SdramAxiCore.hit, rowOpen, activeRow]
  cases state with
  | idle | refresh => trivial
  | read | write0 =>
      obtain ⟨req, is, kind, open_⟩ := serves
      exact ⟨req, keeps req is, kind, (hit _).trans open_⟩
  | activate =>
      obtain ⟨req, is, aims⟩ := serves
      exact ⟨req, keeps req is, target.trans aims⟩
  | precharge =>
      rcases serves with refresh | ⟨req, is, aims⟩
      · exact .inl (target.trans refresh)
      · exact .inr ⟨req, keeps req is, target.trans aims⟩
  | init | delay | readWait | write1 => exact serves

/-- A request is pending or not, nothing is in service. -/
structure Waiting (core : SdramAxiCore) (pending : Option ApbReq) : Prop where
  serves : if core.state = .delay then core.delay ≠ 0#4 ∧ Serves core pending core.delayState
    else Serves core pending core.state
  noRead : core.command ≠ .read
  noWrite : core.command ≠ .write
  active : core.command = .active → pending ≠ none
  ack : core.ack = false
  rd : core.rd.extractLsb' 0 3 = 0#3

theorem rd_next : ∀ (rd : BitVec 4) (bit : Bool),
    (rd.extractLsb' 0 3 ++ BitVec.ofBool bit : BitVec 4).extractLsb' 0 3 =
      (rd.extractLsb' 0 3).extractLsb' 0 2 ++ BitVec.ofBool bit := by decide

theorem rd_two : ∀ rd : BitVec 4, rd.getLsbD 2 = (rd.extractLsb' 0 3).getLsbD 2 := by decide

theorem access_cases (ram : RamReq) : ram.access = .read ∨ ram.access = .write0 := by
  rw [RamReq.access]
  split_ifs
  · exact .inl rfl
  · exact .inr rfl

section Core

variable {core : SdramAxiCore} {pending pending' : Option ApbReq} {ram : RamReq}
  {dataIn : BitVec 32}

/-- The core serves the request when its row is open. -/
theorem serves_access {req : ApbReq} (is : pending = some req) (hit : core.hit req.ram = true) :
    Serves core pending req.ram.access := by
  cases write : req.pwrite with
  | true =>
      have access : req.ram.access = .write0 := by simp [RamReq.access, ApbReq.ram, write]
      rw [access]
      exact ⟨req, is, write, hit⟩
  | false =>
      have access : req.ram.access = .read := by simp [RamReq.access, ApbReq.ram, write]
      rw [access]
      exact ⟨req, is, write, hit⟩

/-- What `STATE_IDLE` goes on to. -/
theorem idle_serves (state : core.state = .idle) (asks : Asks ram pending) :
    (core.posedge ram dataIn).state ≠ .delay ∧
      Serves (core.posedge ram dataIn) pending (core.posedge ram dataIn).state := by
  have next : (core.posedge ram dataIn).state = core.stateNext ram := by
    simp [SdramAxiCore.posedge, SdramAxiCore.delayNext, state]
  have target : (core.posedge ram dataIn).target = core.targetNext ram := rfl
  have hit (other : RamReq) : (core.posedge ram dataIn).hit other = core.hit other := by
    simp [SdramAxiCore.posedge, SdramAxiCore.outputs, SdramAxiCore.hit, state]
  rw [next]
  simp only [SdramAxiCore.stateNext, SdramAxiCore.targetNext, state] at target ⊢
  cases refresh : core.refresh with
  | true =>
      rw [refresh] at target
      simp only [if_true] at target ⊢
      split_ifs
      · exact ⟨SdramState.noConfusion, .inl target⟩
      · exact ⟨SdramState.noConfusion, trivial⟩
  | false =>
      rw [refresh] at target
      simp only [Bool.false_eq_true, if_false] at target ⊢
      cases asked : ram.req with
      | false => exact ⟨SdramState.noConfusion, trivial⟩
      | true =>
          cases pending with
          | none =>
              rw [asks.none rfl] at asked
              cases asked
          | some req =>
              obtain rfl := asks.some req rfl
              cases open_ : core.hit req.ram with
              | true =>
                  simp only [if_true]
                  refine ⟨?_, serves_access rfl ((hit _).trans open_)⟩
                  rcases access_cases req.ram with read | write
                  · rw [read]
                    exact SdramState.noConfusion
                  · rw [write]
                    exact SdramState.noConfusion
              | false =>
                  simp only [asked, open_, Bool.not_false, Bool.and_self, if_true] at target
                  simp only [if_true, Bool.false_eq_true, if_false]
                  split_ifs
                  · exact ⟨SdramState.noConfusion, .inr ⟨req, rfl, target⟩⟩
                  · exact ⟨SdramState.noConfusion, req, rfl, target⟩

theorem Waiting.commands (waiting : Waiting core pending)
    (noRead : core.state ≠ .read) (noWrite : core.state ≠ .write0) :
    (core.posedge ram dataIn).command ≠ .read ∧ (core.posedge ram dataIn).command ≠ .write ∧
      ((core.posedge ram dataIn).command = .active → core.state = .activate) := by
  have serves := waiting.serves
  simp only [SdramAxiCore.posedge, SdramAxiCore.outputs]
  cases state : core.state with
  | idle | delay | activate | refresh => simp
  | precharge => split_ifs <;> simp
  | read => exact absurd state noRead
  | write0 => exact absurd state noWrite
  | init | readWait | write1 =>
      rw [state] at serves
      exact serves.elim

theorem Waiting.next (waiting : Waiting core pending)
    (keeps : ∀ req, pending = some req → pending' = some req) (asks : Asks ram pending')
    (noRead : core.state ≠ .read) (noWrite : core.state ≠ .write0) :
    Waiting (core.posedge ram dataIn) pending' := by
  obtain ⟨notRead, notWrite, onlyActive⟩ := @Waiting.commands _ _ ram dataIn waiting noRead noWrite
  obtain ⟨serves, _, _, _, _, rd⟩ := waiting
  refine ⟨?_, notRead, notWrite, ?_, ?_, ?_⟩
  · cases state : core.state with
    | idle =>
        obtain ⟨notDelay, after⟩ := idle_serves state asks
        rw [if_neg notDelay]
        exact after
    | delay =>
        rw [if_pos state] at serves
        obtain ⟨_, after⟩ := serves
        have later : Serves (core.posedge ram dataIn) pending' core.delayState := by
          refine after.keep ?_ ?_ ?_ keeps
          all_goals simp [SdramAxiCore.posedge, SdramAxiCore.targetNext, SdramAxiCore.outputs, state]
        by_cases more : core.delay - 1#4 = 0#4
        · have next : (core.posedge ram dataIn).state = core.delayState := by
            simp [SdramAxiCore.posedge, SdramAxiCore.delayNext, SdramAxiCore.stateNext, state, more]
          rw [next]
          split_ifs with again
          · rw [again] at after
            exact after.elim
          · exact later
        · have next : (core.posedge ram dataIn).state = .delay ∧
              (core.posedge ram dataIn).delay = core.delay - 1#4 ∧
              (core.posedge ram dataIn).delayState = core.delayState := by
            simp [SdramAxiCore.posedge, SdramAxiCore.delayNext, state, more]
          rw [if_pos next.1, next.2.1, next.2.2]
          exact ⟨more, later⟩
    | activate =>
        rw [if_neg (by rw [state]; exact SdramState.noConfusion), state] at serves
        obtain ⟨req, is, aims⟩ := serves
        obtain rfl := asks.some req (keeps req is)
        have next : (core.posedge req.ram dataIn).state = .delay ∧
            (core.posedge req.ram dataIn).delay = 2#4 ∧
            (core.posedge req.ram dataIn).delayState = req.ram.access := by
          simp [SdramAxiCore.posedge, SdramAxiCore.delayNext, SdramAxiCore.stateNext,
            SdramAxiCore.trcdCycles, state, aims]
        have hit : (core.posedge req.ram dataIn).hit req.ram = true := by
          simp [SdramAxiCore.hit, SdramAxiCore.posedge, SdramAxiCore.outputs, state]
        rw [if_pos next.1, next.2.1, next.2.2]
        exact ⟨by decide, serves_access (keeps req is) hit⟩
    | precharge =>
        rw [if_neg (by rw [state]; exact SdramState.noConfusion), state] at serves
        have next : (core.posedge ram dataIn).state = .delay ∧
            (core.posedge ram dataIn).delay = 2#4 ∧
            (core.posedge ram dataIn).delayState =
              (if core.target = .refresh then .refresh else .activate) := by
          simp [SdramAxiCore.posedge, SdramAxiCore.delayNext, SdramAxiCore.stateNext,
            SdramAxiCore.trpCycles, state]
        have target : (core.posedge ram dataIn).target = core.target := by
          simp [SdramAxiCore.posedge, SdramAxiCore.targetNext, state]
        rw [if_pos next.1, next.2.1, next.2.2]
        refine ⟨by decide, ?_⟩
        split_ifs with refresh
        · trivial
        · obtain same | ⟨req, is, aims⟩ := serves
          · exact absurd same refresh
          · exact ⟨req, keeps req is, target.trans aims⟩
    | refresh =>
        have next : (core.posedge ram dataIn).state = .delay ∧
            (core.posedge ram dataIn).delay = 6#4 ∧
            (core.posedge ram dataIn).delayState = .idle := by
          simp [SdramAxiCore.posedge, SdramAxiCore.delayNext, SdramAxiCore.stateNext,
            SdramAxiCore.trfcCycles, state]
        rw [if_pos next.1, next.2.1, next.2.2]
        exact ⟨by decide, trivial⟩
    | read => exact absurd state noRead
    | write0 => exact absurd state noWrite
    | init | readWait | write1 =>
        rw [state] at serves
        exact serves.elim
  · intro active none
    have state := onlyActive active
    rw [if_neg (by rw [state]; exact SdramState.noConfusion), state] at serves
    obtain ⟨req, is, _⟩ := serves
    rw [keeps req is] at none
    cases none
  · change (core.state == .write0 || core.rd.getLsbD 2) = false
    rw [rd_two, rd, beq_eq_false_iff_ne.mpr noWrite]
    rfl
  · change (core.rd.extractLsb' 0 3 ++ BitVec.ofBool (core.state == .read)).extractLsb' 0 3 = 0#3
    rw [rd_next, rd, beq_eq_false_iff_ne.mpr noRead]
    rfl

end Core

/-!
## The chips between commands
-/

/-- The chips are initialised and hold these words. -/
structure Backed (core : SdramAxiCore) (chips : Sdram) (mem : SdramCell → BitVec 32) : Prop where
  cke : core.cke = true
  loadMode : core.command = .loadMode → core.addr = SdramAxiCore.modeReg
  cas : ∀ rank half, (chips rank half).casLatency = 2#3
  single : ∀ rank half, (chips rank half).brustLength = 0#3
  settles : ∀ rank half, (chips rank half).Settles
  stored : chips.stored = mem

/-- Where the core has a row open, the chips have it, or are about to by the command to
`rank`. -/
def RowsOpen (core : SdramAxiCore) (chips : Sdram) (rank : Bool) : Prop :=
  ∀ r half bank, core.rowOpen (BitVec.ofBool r ++ bank) = true →
    (if core.command = .active ∧ rank = r ∧ core.bank = bank then core.addr
      else (chips r half).lineAddress bank) = core.activeRow (BitVec.ofBool r ++ bank)

section Chips

variable {core : SdramAxiCore} {chips : Sdram} {ram : RamReq} {dataIn float : BitVec 32}
  {mem : SdramCell → BitVec 32}

theorem bankDouble_eq (ram : RamReq) : ram.bankDouble = BitVec.ofBool ram.rank ++ ram.bank := by
  have bit : ram.addr.extractLsb' 26 1 = BitVec.ofBool ram.rank := by
    apply BitVec.eq_of_getLsbD_eq
    intro i bound
    obtain rfl : i = 0 := by omega
    rw [BitVec.getLsbD_extractLsb']
    cases same : ram.rank <;> simpa [RamReq.rank] using same
  rw [RamReq.bankDouble, bit]

theorem bankDouble_inj {rank rank' : Bool} {bank bank' : BitVec 2} :
    BitVec.ofBool rank ++ bank = BitVec.ofBool rank' ++ bank' ↔ rank = rank' ∧ bank = bank' := by
  revert rank rank' bank bank'
  decide

theorem RowsOpen.of_rank {rank rank' : Bool} (rows : RowsOpen core chips rank)
    (same : core.command = .active → rank = rank') : RowsOpen core chips rank' := by
  intro r half bank open_
  have here := rows r half bank open_
  by_cases active : core.command = .active
  · rw [← same active]
    exact here
  · rw [if_neg fun all => active all.1] at here ⊢
    exact here

theorem RowsOpen.next {rank : Bool} (rows : RowsOpen core chips ram.rank)
    (enabled : core.cke = true) (noInit : core.state ≠ .init)
    (same : core.state = .activate → ram.rank = rank) :
    RowsOpen (core.posedge ram dataIn) (chips.posedge (core.pins ram) float) rank := by
  intro r half bank open_
  rw [posedge_line enabled]
  have kept (unchanged : (core.posedge ram dataIn).activeRow = core.activeRow)
      (notActive : (core.posedge ram dataIn).command ≠ .active)
      (before : core.rowOpen (BitVec.ofBool r ++ bank) = true) :
      (if (core.posedge ram dataIn).command = .active ∧ rank = r ∧
          (core.posedge ram dataIn).bank = bank then (core.posedge ram dataIn).addr
        else if core.command = .active ∧ ram.rank = r ∧ core.bank = bank then core.addr
        else (chips r half).lineAddress bank) =
      (core.posedge ram dataIn).activeRow (BitVec.ofBool r ++ bank) := by
    rw [if_neg fun all => notActive all.1, unchanged]
    exact rows r half bank before
  cases state : core.state with
  | init => exact absurd state noInit
  | activate =>
      have after : (core.posedge ram dataIn).command = .active ∧
          (core.posedge ram dataIn).bank = ram.bank ∧ (core.posedge ram dataIn).addr = ram.row ∧
          (core.posedge ram dataIn).rowOpen = Function.update core.rowOpen ram.bankDouble true ∧
          (core.posedge ram dataIn).activeRow =
            Function.update core.activeRow ram.bankDouble ram.row := by
        simp [SdramAxiCore.posedge, SdramAxiCore.outputs, state]
      obtain ⟨command, bank', addr, rowOpen, activeRow⟩ := after
      rw [rowOpen] at open_
      rw [command, bank', addr, activeRow, ← same state]
      by_cases here : ram.rank = r ∧ ram.bank = bank
      · obtain ⟨rfl, rfl⟩ := here
        rw [if_pos ⟨rfl, rfl, rfl⟩, ← bankDouble_eq, Function.update_self]
      · have other : BitVec.ofBool r ++ bank ≠ ram.bankDouble := by
          rw [bankDouble_eq, Ne, bankDouble_inj]
          rintro ⟨rfl, rfl⟩
          exact here ⟨rfl, rfl⟩
        rw [Function.update_of_ne other] at open_ ⊢
        rw [if_neg fun all => here all.2]
        exact rows r half bank open_
  | precharge =>
      refine kept ?_ ?_ ?_
      · simp only [SdramAxiCore.posedge, SdramAxiCore.outputs, state]
        split_ifs <;> rfl
      · simp only [SdramAxiCore.posedge, SdramAxiCore.outputs, state]
        split_ifs <;> exact SdramCmd.noConfusion
      · simp only [SdramAxiCore.posedge, SdramAxiCore.outputs, state] at open_
        split_ifs at open_
        change Function.update core.rowOpen ram.bankDouble false _ = true at open_
        by_cases here : BitVec.ofBool r ++ bank = ram.bankDouble
        · rw [here, Function.update_self] at open_
          cases open_
        · rwa [Function.update_of_ne here] at open_
  | idle | delay | refresh | read | readWait | write0 | write1 =>
      refine kept ?_ ?_ ?_
      · simp [SdramAxiCore.posedge, SdramAxiCore.outputs, state]
      · simp [SdramAxiCore.posedge, SdramAxiCore.outputs, state]
      · simpa [SdramAxiCore.posedge, SdramAxiCore.outputs, state] using open_

/-- The mode register keeps the value that the controller loads into it. -/
theorem mode_posedge (enabled : core.cke = true)
    (loadMode : core.command = .loadMode → core.addr = SdramAxiCore.modeReg) (rank half : Bool) :
    let after := chips.posedge (core.pins ram) float rank half
    (after.casLatency = 2#3 ∧ after.brustLength = 0#3) ∨
      core.command ≠ .loadMode ∧ after.casLatency = (chips rank half).casLatency ∧
        after.brustLength = (chips rank half).brustLength := by
  rw [posedge_chip enabled]
  by_cases load : core.command = .loadMode
  · have command : (core.pins ram).commandOf rank = .loadMode := by
      have pins : (core.pins ram).command = .loadMode := load
      rw [SdramPins.commandOf, pins]
    refine .inl ?_
    simp only [Sdram32mx16.selected, chipPins, command, if_true, loadMode load]
    exact ⟨rfl, rfl⟩
  · have command : (core.pins ram).commandOf rank ≠ .loadMode := commandOf_ne load (by decide) rank
    refine .inr ⟨load, ?_⟩
    simp [Sdram32mx16.selected, chipPins, command]

/-- What every cycle after the initialisation keeps. -/
theorem Backed.keeps (backed : Backed core chips mem) (noInit : core.state ≠ .init) :
    (core.posedge ram dataIn).cke = true ∧
      ((core.posedge ram dataIn).command = .loadMode →
        (core.posedge ram dataIn).addr = SdramAxiCore.modeReg) ∧
      ∀ rank half, (chips.posedge (core.pins ram) float rank half).casLatency = 2#3 ∧
        (chips.posedge (core.pins ram) float rank half).brustLength = 0#3 := by
  refine ⟨?_, ?_, fun rank half => ?_⟩
  · have enabled := backed.cke
    simp only [SdramAxiCore.posedge, SdramAxiCore.outputs]
    cases state : core.state with
    | init => exact absurd state noInit
    | precharge => split_ifs <;> exact enabled
    | _ => exact enabled
  · intro load
    simp only [SdramAxiCore.posedge, SdramAxiCore.outputs] at load
    cases state : core.state with
    | init => exact absurd state noInit
    | precharge =>
        rw [state] at load
        split_ifs at load
    | _ =>
        rw [state] at load
        cases load
  · rcases @mode_posedge core chips ram float backed.cke backed.loadMode rank half with
      now | ⟨_, cas, single⟩
    · exact now
    · exact ⟨cas.trans (backed.cas rank half), single.trans (backed.single rank half)⟩

theorem Backed.next (backed : Backed core chips mem) (noInit : core.state ≠ .init)
    (noWrite : core.command ≠ .write) :
    Backed (core.posedge ram dataIn) (chips.posedge (core.pins ram) float) mem ∧
      ∀ rank half, (chips.posedge (core.pins ram) float rank half).wCounter = 0#4 := by
  obtain ⟨cke, loadMode, mode⟩ := @Backed.keeps _ _ ram dataIn float _ backed noInit
  obtain ⟨stored, none⟩ := @stored_posedge _ _ ram float backed.cke noWrite backed.settles
  exact ⟨⟨cke, loadMode, fun rank half => (mode rank half).1, fun rank half => (mode rank half).2,
    fun rank half => .inl (none rank half), stored.trans backed.stored⟩, none⟩

end Chips

/-!
## Initialisation
-/

/-- The words in the arrays, without what waits to be written. -/
def Sdram.held (chips : Sdram) (c : SdramCell) : BitVec 32 :=
  (chips c.rank true).bank c.bank (c.row ++ c.col) ++
    (chips c.rank false).bank c.bank (c.row ++ c.col)

theorem stored_of_wCounter {chips : Sdram} (none : ∀ rank half, (chips rank half).wCounter = 0#4) :
    chips.stored = chips.held := by
  funext c
  rw [Sdram.stored, Sdram.held, Sdram32mx16.settled_of_wCounter (none _ _),
    Sdram32mx16.settled_of_wCounter (none _ _)]

/-- `STATE_INIT`: `cke` rises when the timer is at 50, the mode register is loaded when it is
at 10. -/
structure Powering (core : SdramAxiCore) (chips : Sdram) (mem : SdramCell → BitVec 32) : Prop where
  state : core.state = .init
  rowOpen : ∀ i, core.rowOpen i = false
  noRead : core.command ≠ .read
  noWrite : core.command ≠ .write
  noActive : core.command ≠ .active
  loadMode : core.command = .loadMode → core.addr = SdramAxiCore.modeReg
  powered : core.refresh = true ∨ core.refreshTimer ≤ 49 → core.cke = true
  loading : core.refreshTimer = 9 → core.command = .loadMode
  loaded : core.refresh = true ∨ core.refreshTimer ≤ 8 → ∀ rank half,
    (chips rank half).casLatency = 2#3 ∧ (chips rank half).brustLength = 0#3
  quiet : core.cke = true → ∀ rank half, (chips rank half).Calm ∧
    (chips rank half).wCounter = 0#4 ∧ (chips rank half).casLatency ≠ 1#3
  held : chips.held = mem
  ack : core.ack = false
  rd : core.rd.extractLsb' 0 3 = 0#3

section Powering

variable {core : SdramAxiCore} {chips : Sdram} {mem : SdramCell → BitVec 32} {ram : RamReq}
  {dataIn float : BitVec 32}

/-- What `STATE_INIT` drives. -/
theorem init_outputs (state : core.state = .init) :
    (core.posedge ram dataIn).rowOpen = core.rowOpen ∧
      (((core.posedge ram dataIn).command = core.command ∧
          (core.posedge ram dataIn).addr = core.addr) ∨
        (core.posedge ram dataIn).command = .precharge ∨
        (core.posedge ram dataIn).command = .refresh ∨
        (core.posedge ram dataIn).command = .nop ∨
        (core.posedge ram dataIn).command = .loadMode ∧
          (core.posedge ram dataIn).addr = SdramAxiCore.modeReg) ∧
      (core.refreshTimer = 10 → (core.posedge ram dataIn).command = .loadMode) ∧
      (core.posedge ram dataIn).cke = (core.cke || core.refreshTimer == 50) := by
  simp only [SdramAxiCore.posedge, SdramAxiCore.outputs, state]
  split_ifs with at50 at40 at20 at10
  · simp [at50]
  · simp [at40]
  · refine ⟨rfl, .inr (.inr (.inl rfl)), fun at10 => ?_, ?_⟩
    · omega
    · simp [at50]
  · simp [at10]
  · simp [at50, at10]

theorem Powering.quiet_next (powering : Powering core chips mem) (rank half : Bool) :
    let after := chips.posedge (core.pins ram) float rank half
    after.Calm ∧ after.wCounter = 0#4 ∧ after.casLatency ≠ 1#3 ∧
      after.bank = (chips rank half).bank := by
  cases cke : core.cke with
  | false =>
      have off : chips.posedge (core.pins ram) float rank half = (chips rank half).disabled := by
        simp [Sdram.posedge, Sdram32mx16.posedge, SdramAxiCore.pins, cke]
      rw [off]
      refine ⟨⟨rfl, rfl⟩, rfl, ?_, rfl⟩
      change 0#3 ≠ 1#3
      decide
  | true =>
      obtain ⟨⟨counter, _⟩, none, cas⟩ := powering.quiet cke rank half
      refine ⟨calm_posedge cke (fun read => absurd read powering.noRead) counter cas, ?_, ?_, ?_⟩
      · exact (stored_posedge cke powering.noWrite fun rank half =>
          .inl (powering.quiet cke rank half).2.1).2 rank half
      · rcases @mode_posedge core chips ram float cke powering.loadMode rank half with
          now | ⟨_, same, _⟩
        · rw [now.1]
          decide
        · rw [same]
          exact cas
      · rw [posedge_chip cke]
        exact Sdram32mx16.settled_of_wCounter none

theorem Powering.held_next (powering : Powering core chips mem) :
    (chips.posedge (core.pins ram) float).held = mem := by
  rw [← powering.held]
  funext c
  rw [Sdram.held, Sdram.held, (powering.quiet_next _ _).2.2.2, (powering.quiet_next _ _).2.2.2]

theorem Powering.mode_next (powering : Powering core chips mem)
    (late : core.refresh = true ∨ core.refreshTimer ≤ 9) (rank half : Bool) :
    (chips.posedge (core.pins ram) float rank half).casLatency = 2#3 ∧
      (chips.posedge (core.pins ram) float rank half).brustLength = 0#3 := by
  have cke : core.cke = true := powering.powered (late.imp_right fun early => by omega)
  rcases @mode_posedge core chips ram float cke powering.loadMode rank half with
    now | ⟨noLoad, cas, single⟩
  · exact now
  · have loaded : core.refresh = true ∨ core.refreshTimer ≤ 8 := by
      rcases late with refresh | early
      · exact .inl refresh
      · have past : core.refreshTimer ≠ 9 := fun now => noLoad (powering.loading now)
        exact .inr (by omega)
    rw [cas, single]
    exact powering.loaded loaded rank half

theorem Powering.rd_next (powering : Powering core chips mem) :
    (core.posedge ram dataIn).ack = false ∧
      (core.posedge ram dataIn).rd.extractLsb' 0 3 = 0#3 := by
  constructor
  · change (core.state == .write0 || core.rd.getLsbD 2) = false
    rw [rd_two, powering.rd, powering.state]
    rfl
  · change (core.rd.extractLsb' 0 3 ++ BitVec.ofBool (core.state == .read)).extractLsb' 0 3 = 0#3
    rw [Soc.rd_next, powering.rd, powering.state]
    rfl

theorem Powering.command_next (powering : Powering core chips mem) :
    (core.posedge ram dataIn).command ≠ .read ∧ (core.posedge ram dataIn).command ≠ .write ∧
      (core.posedge ram dataIn).command ≠ .active ∧
      ((core.posedge ram dataIn).command = .loadMode →
        (core.posedge ram dataIn).addr = SdramAxiCore.modeReg) := by
  obtain ⟨_, kind, _, _⟩ := @init_outputs core ram dataIn powering.state
  rcases kind with ⟨same, addr⟩ | other | other | other | ⟨load, addr⟩
  · rw [same, addr]
    exact ⟨powering.noRead, powering.noWrite, powering.noActive, powering.loadMode⟩
  · simp [other]
  · simp [other]
  · simp [other]
  · simp [load, addr]

theorem Powering.stays (powering : Powering core chips mem) (early : core.refresh = false) :
    Powering (core.posedge ram dataIn) (chips.posedge (core.pins ram) float) mem := by
  obtain ⟨rowOpen, _, loads, cke⟩ := @init_outputs core ram dataIn powering.state
  obtain ⟨noRead, noWrite, noActive, loadMode⟩ := @Powering.command_next _ _ _ ram dataIn powering
  obtain ⟨ack, rd⟩ := @Powering.rd_next _ _ _ ram dataIn powering
  have timer : (core.posedge ram dataIn).refreshTimer =
      if core.refreshTimer = 0 then 780 else core.refreshTimer - 1 := rfl
  have refresh : (core.posedge ram dataIn).refresh = decide (core.refreshTimer = 0) := by
    by_cases zero : core.refreshTimer = 0
    · simp [SdramAxiCore.posedge, zero]
    · simp [SdramAxiCore.posedge, zero, early, powering.state]
  refine ⟨?_, ?_, noRead, noWrite, noActive, loadMode, ?_, ?_, ?_, ?_, ?_, ack, rd⟩
  · simp [SdramAxiCore.posedge, SdramAxiCore.delayNext, SdramAxiCore.stateNext, powering.state,
      early]
  · intro i
    rw [rowOpen]
    exact powering.rowOpen i
  · intro late
    rw [refresh, decide_eq_true_eq, timer] at late
    rw [cke, Bool.or_eq_true, beq_iff_eq]
    by_cases now : core.refreshTimer = 50
    · exact .inr now
    · exact .inl (powering.powered (.inr (by split_ifs at late <;> omega)))
  · intro now
    rw [timer] at now
    exact loads (by split_ifs at now <;> omega)
  · intro late
    rw [refresh, decide_eq_true_eq, timer] at late
    exact powering.mode_next (.inr (by split_ifs at late <;> omega))
  · intro _ rank half
    obtain ⟨calm, none, cas, _⟩ := @Powering.quiet_next _ _ _ ram float powering rank half
    exact ⟨calm, none, cas⟩
  · exact powering.held_next

end Powering

end Ysyx.Soc
