import Ysyx.Soc.Sdram

/-! What the chips make of the commands of the controller: an edge keeps every word but the one
that a write is of, and a read shows its word two edges later. -/

set_option autoImplicit false

namespace Ysyx.Soc

/-!
## The chip
-/

namespace Sdram32mx16

variable {chip : Sdram32mx16} {pins : SdramChipPins}

/-- No read is under way. -/
def Calm (chip : Sdram32mx16) : Prop := chip.rCounter = 0#4 ∧ chip.readFlag = false

/-- At most one word waits to be written, and no burst follows it. -/
def Settles (chip : Sdram32mx16) : Prop :=
  chip.wCounter = 0#4 ∨ chip.wCounter = 1#4 ∧ chip.brustLength = 0#3

theorem latencyEnd_of_two (cas : chip.casLatency = 2#3) : chip.latencyEnd = 1#32 := by
  rw [latencyEnd, cas]
  rfl

theorem settled_of_wCounter (none : chip.wCounter = 0#4) : chip.settled = chip.bank := by
  rw [settled, none]
  rfl

/-- An edge without a write writes what waits. -/
theorem selected_settled (noWrite : pins.command ≠ .write) (settles : chip.Settles) :
    (chip.selected pins).settled = chip.settled ∧ (chip.selected pins).wCounter = 0#4 := by
  have done : (chip.selected pins).wCounter = 0#4 := by
    simp only [selected, if_neg noWrite]
    rcases settles with none | ⟨one, single⟩
    · rw [none]
      rfl
    · rw [one, length, single]
      rfl
  exact ⟨settled_of_wCounter done, done⟩

/-- The word of a write waits behind the edge that takes it. -/
theorem selected_write (write : pins.command = .write) (none : chip.wCounter = 0#4) :
    (chip.selected pins).settled =
        Function.update chip.settled pins.ba
          (Function.update (chip.settled pins.ba)
            (chip.lineAddress pins.ba ++ pins.a.extractLsb' 0 9)
            (masked pins.dqm
              (chip.settled pins.ba (chip.lineAddress pins.ba ++ pins.a.extractLsb' 0 9))
              pins.din)) ∧
      (chip.selected pins).wCounter = 1#4 := by
  have one : (chip.selected pins).wCounter = 1#4 := by
    simp only [selected, if_pos write, none]
    rfl
  refine ⟨?_, one⟩
  rw [settled, one]
  simp [selected, wSdramAddress, write]

theorem selected_line (bank : BitVec 2) :
    (chip.selected pins).lineAddress bank =
      if pins.command = .active ∧ pins.ba = bank then pins.a else chip.lineAddress bank := by
  by_cases active : pins.command = .active
  · simp only [selected, active, if_true, true_and, Function.update_apply, eq_comm]
  · simp [selected, active]

theorem selected_calm (noRead : pins.command ≠ .read) (none : chip.rCounter = 0#4)
    (cas : chip.casLatency ≠ 1#3) : (chip.selected pins).Calm := by
  have positive : ∀ latency : BitVec 3, latency ≠ 1#3 → latency.setWidth 32 - 1#32 ≠ 0#32 := by
    decide
  have noEnd : chip.latencyEnd ≠ 0#32 := positive _ cas
  simp [Calm, selected, noRead, none, noEnd]

/-- The edge of a read command. -/
theorem selected_read (read : pins.command = .read) (none : chip.rCounter = 0#4) :
    (chip.selected pins).rCounter = 1#4 ∧ (chip.selected pins).readFlag = true ∧
      (chip.selected pins).lBank = pins.ba ∧
      (chip.selected pins).rAddress = pins.a.extractLsb' 0 9 := by
  simp [selected, read, none]

/-- The edge after it, which shows the word. -/
theorem selected_first (noRead : pins.command ≠ .read) (one : chip.rCounter = 1#4)
    (cas : chip.casLatency = 2#3) (single : chip.brustLength = 0#3) :
    (chip.selected pins).rCounter = 2#4 ∧ (chip.selected pins).readFlag = true ∧
      (chip.selected pins).dout = chip.bank chip.lBank chip.rSdramAddress := by
  simp [selected, noRead, one, latencyEnd_of_two cas, cas, length, single]

theorem selected_second (noRead : pins.command ≠ .read) (two : chip.rCounter = 2#4)
    (cas : chip.casLatency = 2#3) (single : chip.brustLength = 0#3) :
    (chip.selected pins).rCounter = 0#4 := by
  simp [selected, noRead, two, latencyEnd_of_two cas, cas, length, single]

theorem posedge_selected (enabled : pins.cke = true) (chosen : pins.cs = false) :
    chip.posedge pins = chip.selected pins := by
  simp [posedge, enabled, chosen]

end Sdram32mx16

/-!
## The chips on the pins of the controller
-/

/-- What the chips have of an address. -/
structure SdramCell where
  rank : Bool
  bank : BitVec 2
  row : BitVec 13
  col : BitVec 9
  deriving DecidableEq, Repr

/-- The cell that the controller selects for a request. -/
def RamReq.cell (ram : RamReq) : SdramCell := ⟨ram.rank, ram.bank, ram.row, ram.col.extractLsb' 0 9⟩

/-- The word in a cell, counting what waits to be written. -/
def Sdram.stored (chips : Sdram) (c : SdramCell) : BitVec 32 :=
  (chips c.rank true).settled c.bank (c.row ++ c.col) ++
    (chips c.rank false).settled c.bank (c.row ++ c.col)

theorem place_inj {row row' : BitVec 13} {col col' : BitVec 9} :
    (row ++ col : BitVec 22) = row' ++ col' ↔ row = row' ∧ col = col' := by
  constructor
  · intro same
    have high := congrArg (BitVec.extractLsb' 9 13) same
    have low := congrArg (BitVec.setWidth 9) same
    rw [BitVec.extractLsb'_append_eq_left, BitVec.extractLsb'_append_eq_left] at high
    rw [BitVec.setWidth_append_eq_right, BitVec.setWidth_append_eq_right] at low
    exact ⟨high, low⟩
  · rintro ⟨rfl, rfl⟩
    rfl

theorem lane_halves (high low : BitVec 16) {i : Nat} (bound : i < 4) :
    lane (high ++ low : BitVec 32) i =
      if i < 2 then low.extractLsb' (8 * i) 8 else high.extractLsb' (8 * (i - 2)) 8 := by
  apply BitVec.eq_of_getLsbD_eq
  intro j inLane
  rw [getLsbD_lane, BitVec.getLsbD_append, decide_eq_true inLane, Bool.true_and]
  split_ifs with inLow first first
  · rw [BitVec.getLsbD_extractLsb', decide_eq_true inLane, Bool.true_and]
  · omega
  · omega
  · rw [BitVec.getLsbD_extractLsb', decide_eq_true inLane, Bool.true_and,
      show 8 * i + j - 16 = 8 * (i - 2) + j by omega]

theorem masked_low (dqm : BitVec 2) (old new : BitVec 16) :
    (Sdram32mx16.masked dqm old new).extractLsb' 0 8 =
      if dqm.getLsbD 0 then old.extractLsb' 0 8 else new.extractLsb' 0 8 :=
  BitVec.extractLsb'_append_eq_right

theorem masked_high (dqm : BitVec 2) (old new : BitVec 16) :
    (Sdram32mx16.masked dqm old new).extractLsb' 8 8 =
      if dqm.getLsbD 1 then old.extractLsb' 8 8 else new.extractLsb' 8 8 :=
  BitVec.extractLsb'_append_eq_left

/-- The byte masks of the two chips of a rank together. -/
theorem masked_append (strb : BitVec 4) (high low : BitVec 16) (data : BitVec 32) :
    (Sdram32mx16.masked (halfOf (~~~strb) true) high (halfOf data true) ++
      Sdram32mx16.masked (halfOf (~~~strb) false) low (halfOf data false) : BitVec 32) =
        strobe strb (high ++ low) data := by
  have bits : ∀ strb : BitVec 4,
      (halfOf (~~~strb) false : BitVec 2).getLsbD 0 = !strb.getLsbD 0 ∧
      (halfOf (~~~strb) false : BitVec 2).getLsbD 1 = !strb.getLsbD 1 ∧
      (halfOf (~~~strb) true : BitVec 2).getLsbD 0 = !strb.getLsbD 2 ∧
      (halfOf (~~~strb) true : BitVec 2).getLsbD 1 = !strb.getLsbD 3 := by decide
  obtain ⟨bit0, bit1, bit2, bit3⟩ := bits strb
  have byte (half : Bool) (k : Nat) (inHalf : 8 * k + 8 ≤ 16) :
      (halfOf data half : BitVec 16).extractLsb' (8 * k) 8 =
        lane data (if half then k + 2 else k) := by
    apply BitVec.eq_of_getLsbD_eq
    intro j inLane
    cases half with
    | true =>
        simp [halfOf, lane, inLane, show 8 * k + j < 16 by omega,
          show 16 + (8 * k + j) = 8 * (k + 2) + j by omega]
    | false => simp [halfOf, lane, inLane, show 8 * k + j < 16 by omega]
  apply eq_of_lanes
  intro i bound
  rw [lane_strobe _ _ _ bound, lane_halves _ _ bound, lane_halves _ _ bound]
  obtain rfl | rfl | rfl | rfl : i = 0 ∨ i = 1 ∨ i = 2 ∨ i = 3 := by omega
  · have low' := masked_low (halfOf (~~~strb) false) low (halfOf data false)
    rw [bit0, byte false 0 (by decide)] at low'
    refine low'.trans ?_
    cases strb.getLsbD 0 <;> rfl
  · have high' := masked_high (halfOf (~~~strb) false) low (halfOf data false)
    rw [bit1, byte false 1 (by decide)] at high'
    refine high'.trans ?_
    cases strb.getLsbD 1 <;> rfl
  · have low' := masked_low (halfOf (~~~strb) true) high (halfOf data true)
    rw [bit2, byte true 0 (by decide)] at low'
    refine low'.trans ?_
    cases strb.getLsbD 2 <;> rfl
  · have high' := masked_high (halfOf (~~~strb) true) high (halfOf data true)
    rw [bit3, byte true 1 (by decide)] at high'
    refine high'.trans ?_
    cases strb.getLsbD 3 <;> rfl

section Pins

variable {chips : Sdram} {core : SdramAxiCore} {ram : RamReq} {float : BitVec 32}

/-- The pins of one chip. -/
def chipPins (chips : Sdram) (core : SdramAxiCore) (ram : RamReq) (float : BitVec 32)
    (rank half : Bool) : SdramChipPins where
  cke := core.cke
  cs := false
  command := (core.pins ram).commandOf rank
  a := core.addr
  ba := core.bank
  dqm := halfOf core.dqm half
  din := chips.dq (core.pins ram) float half

theorem pins_rank : (core.pins ram).a.getLsbD 13 = ram.rank := by
  rw [SdramAxiCore.pins, BitVec.getLsbD_append, if_neg (Nat.lt_irrefl 13)]
  cases ram.rank <;> rfl

theorem posedge_chip (enabled : core.cke = true) (rank half : Bool) :
    chips.posedge (core.pins ram) float rank half =
      (chips rank half).selected (chipPins chips core ram float rank half) := by
  have low : (core.pins ram).a.extractLsb' 0 13 = core.addr :=
    BitVec.extractLsb'_append_eq_right
  rw [Sdram.posedge, low]
  exact Sdram32mx16.posedge_selected enabled rfl

theorem commandOf_cases (pins : SdramPins) (rank : Bool) :
    pins.commandOf rank = pins.command ∨ pins.commandOf rank = .nop := by
  rw [SdramPins.commandOf]
  split
  · rename_i load
    exact .inl load.symm
  · rename_i nop
    exact .inl nop.symm
  · split_ifs
    · exact .inl rfl
    · exact .inr rfl

/-- The commands to one rank. -/
theorem commandOf_of {command : SdramCmd} (is : core.command = command)
    (notLoad : command ≠ .loadMode) (notNop : command ≠ .nop) (rank : Bool) :
    (core.pins ram).commandOf rank = if ram.rank = rank then command else .nop := by
  have pins : (core.pins ram).command = command := is
  rw [SdramPins.commandOf, pins]
  split
  · exact absurd rfl notLoad
  · exact absurd rfl notNop
  · rw [pins_rank]

theorem commandOf_ne {command : SdramCmd} (other : core.command ≠ command) (notNop : command ≠ .nop)
    (rank : Bool) : (core.pins ram).commandOf rank ≠ command := by
  rcases commandOf_cases (core.pins ram) rank with same | nop
  · rw [same]
    exact other
  · rw [nop]
    exact notNop.symm

theorem posedge_line (enabled : core.cke = true) (rank half : Bool) (bank : BitVec 2) :
    (chips.posedge (core.pins ram) float rank half).lineAddress bank =
      if core.command = .active ∧ ram.rank = rank ∧ core.bank = bank then core.addr
      else (chips rank half).lineAddress bank := by
  have opened : (chipPins chips core ram float rank half).command = .active ↔
      core.command = .active ∧ ram.rank = rank := by
    constructor
    · intro active
      by_cases here : core.command = .active
      · rw [chipPins, commandOf_of here (by decide) (by decide)] at active
        by_cases same : ram.rank = rank
        · exact ⟨here, same⟩
        · rw [if_neg same] at active
          cases active
      · exact absurd active (commandOf_ne here (by decide) rank)
    · rintro ⟨here, same⟩
      rw [chipPins, commandOf_of here (by decide) (by decide), if_pos same]
  rw [posedge_chip enabled, Sdram32mx16.selected_line]
  simp only [opened, and_assoc]
  rfl

theorem stored_congr {chips' : Sdram}
    (same : ∀ rank half, (chips' rank half).settled = (chips rank half).settled) :
    chips'.stored = chips.stored := by
  funext c
  rw [Sdram.stored, Sdram.stored, same, same]

/-- An edge without a write keeps every word. -/
theorem stored_posedge (enabled : core.cke = true) (noWrite : core.command ≠ .write)
    (settles : ∀ rank half, (chips rank half).Settles) :
    (chips.posedge (core.pins ram) float).stored = chips.stored ∧
      ∀ rank half, (chips.posedge (core.pins ram) float rank half).wCounter = 0#4 := by
  have edge (rank half : Bool) := @Sdram32mx16.selected_settled (chips rank half)
    (chipPins chips core ram float rank half) (commandOf_ne noWrite (by decide) rank)
    (settles rank half)
  refine ⟨stored_congr fun rank half => ?_, fun rank half => ?_⟩
  · rw [posedge_chip enabled]
    exact (edge rank half).1
  · rw [posedge_chip enabled]
    exact (edge rank half).2

theorem calm_posedge (enabled : core.cke = true) {rank half : Bool}
    (noRead : core.command = .read → ram.rank ≠ rank) (none : (chips rank half).rCounter = 0#4)
    (cas : (chips rank half).casLatency ≠ 1#3) :
    (chips.posedge (core.pins ram) float rank half).Calm := by
  have notRead : (core.pins ram).commandOf rank ≠ .read := by
    by_cases read : core.command = .read
    · rw [commandOf_of read (by decide) (by decide), if_neg (noRead read)]
      decide
    · exact commandOf_ne read (by decide) rank
  rw [posedge_chip enabled]
  exact Sdram32mx16.selected_calm notRead none cas

theorem setBit10_low (col : BitVec 13) :
    (SdramAxiCore.setBit10 col false).extractLsb' 0 9 = col.extractLsb' 0 9 := by
  have ones : (0x1bff#13).extractLsb' 0 9 = BitVec.allOnes 9 := by decide
  rw [SdramAxiCore.setBit10, if_neg (by decide), BitVec.extractLsb'_and, ones, BitVec.and_allOnes]

/-- The command register holds the column of the request. -/
structure Carries (core : SdramAxiCore) (ram : RamReq) : Prop where
  addr : core.addr = SdramAxiCore.setBit10 ram.col false
  bank : core.bank = ram.bank

/-- Both chips of the rank have the row of the request open. -/
def Opened (chips : Sdram) (ram : RamReq) : Prop :=
  ∀ half, (chips ram.rank half).lineAddress ram.bank = ram.row

/-- The edge of a write puts its bytes into the cell of the request, and nothing else. -/
theorem stored_write (enabled : core.cke = true) (write : core.command = .write)
    (carries : Carries core ram) (opened : Opened chips ram) {strb : BitVec 4}
    (mask : core.dqm = ~~~strb) (drives : core.dataRdEn = false)
    (silent : ∀ rank half, (chips rank half).readFlag = false)
    (none : ∀ rank half, (chips rank half).wCounter = 0#4) :
    (chips.posedge (core.pins ram) float).stored =
      Function.update chips.stored ram.cell (strobe strb (chips.stored ram.cell) core.data) := by
  have here (half : Bool) :
      (chips.posedge (core.pins ram) float ram.rank half).settled =
        Function.update (chips ram.rank half).settled ram.bank
          (Function.update ((chips ram.rank half).settled ram.bank) (ram.row ++ ram.cell.col)
            (Sdram32mx16.masked (halfOf (~~~strb) half)
              ((chips ram.rank half).settled ram.bank (ram.row ++ ram.cell.col))
              (halfOf core.data half))) := by
    have command : (chipPins chips core ram float ram.rank half).command = .write := by
      rw [chipPins, commandOf_of write (by decide) (by decide), if_pos rfl]
    have bus : chips.dq (core.pins ram) float half = halfOf core.data half := by
      simp [Sdram.dq, SdramAxiCore.pins, drives, silent]
    rw [posedge_chip enabled, (Sdram32mx16.selected_write command (none _ _)).1]
    simp only [chipPins, carries.bank, carries.addr, setBit10_low, mask, bus, opened half]
    rfl
  have there {rank : Bool} (other : ram.rank ≠ rank) (half : Bool) :
      (chips.posedge (core.pins ram) float rank half).settled = (chips rank half).settled := by
    have command : (chipPins chips core ram float rank half).command ≠ .write := by
      rw [chipPins, commandOf_of write (by decide) (by decide), if_neg other]
      exact SdramCmd.noConfusion
    rw [posedge_chip enabled]
    exact (Sdram32mx16.selected_settled command (.inl (none _ _))).1
  funext c
  obtain ⟨rank, bank, row, col⟩ := c
  by_cases sameRank : ram.rank = rank
  · subst sameRank
    simp only [Sdram.stored, here, Function.update_apply, RamReq.cell, SdramCell.mk.injEq, true_and]
    by_cases sameBank : bank = ram.bank
    · subst sameBank
      simp only [if_true, true_and, Function.update_apply, place_inj]
      split_ifs
      · exact masked_append strb _ _ core.data
      · rfl
    · simp only [sameBank, false_and, if_false]
  · have apart : (⟨rank, bank, row, col⟩ : SdramCell) ≠ ram.cell :=
      fun same => sameRank (congrArg SdramCell.rank same).symm
    rw [Function.update_of_ne apart, Sdram.stored, Sdram.stored, there sameRank, there sameRank]

/-- The edge of a read starts it in both chips of the rank. -/
theorem read_posedge (enabled : core.cke = true) (read : core.command = .read)
    (carries : Carries core ram) {half : Bool} (none : (chips ram.rank half).rCounter = 0#4) :
    let after := chips.posedge (core.pins ram) float ram.rank half
    after.rCounter = 1#4 ∧ after.readFlag = true ∧ after.lBank = ram.bank ∧
      after.rAddress = ram.cell.col := by
  have command : (chipPins chips core ram float ram.rank half).command = .read := by
    rw [chipPins, commandOf_of read (by decide) (by decide), if_pos rfl]
  obtain ⟨counter, flag, bank, addr⟩ := Sdram32mx16.selected_read command none
  rw [← posedge_chip enabled] at counter flag bank addr
  refine ⟨counter, flag, bank.trans carries.bank, addr.trans ?_⟩
  change core.addr.extractLsb' 0 9 = _
  rw [carries.addr, setBit10_low]
  rfl

theorem first_posedge (enabled : core.cke = true) (noRead : core.command ≠ .read) {rank half : Bool}
    (one : (chips rank half).rCounter = 1#4) (cas : (chips rank half).casLatency = 2#3)
    (single : (chips rank half).brustLength = 0#3) :
    let after := chips.posedge (core.pins ram) float rank half
    after.rCounter = 2#4 ∧ after.readFlag = true ∧
      after.dout =
        (chips rank half).bank (chips rank half).lBank (chips rank half).rSdramAddress := by
  have command := @commandOf_ne core ram _ noRead (by decide) rank
  have edge := @Sdram32mx16.selected_first _ (chipPins chips core ram float rank half) command one
    cas single
  rw [← posedge_chip enabled] at edge
  exact edge

theorem second_posedge (enabled : core.cke = true) (noRead : core.command ≠ .read)
    {rank half : Bool} (two : (chips rank half).rCounter = 2#4)
    (cas : (chips rank half).casLatency = 2#3) (single : (chips rank half).brustLength = 0#3) :
    (chips.posedge (core.pins ram) float rank half).rCounter = 0#4 := by
  have command := @commandOf_ne core ram _ noRead (by decide) rank
  rw [posedge_chip enabled]
  exact Sdram32mx16.selected_second command two cas single

end Pins

end Ysyx.Soc
