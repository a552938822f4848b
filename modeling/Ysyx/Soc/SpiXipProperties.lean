import Mathlib.Tactic.IntervalCases
import Ysyx.Soc.SpiXip

/-! When a read through the XIP window is a read of the flash: the state machine writes TX_1 and
CTRL each time, SS only once, and CTRL cannot clear its bit 0. -/

set_option autoImplicit false

namespace Ysyx.Soc

open Lib (Machine)

/-!
## Requests
-/

theorem flashXipSel_of_window {req : ApbReq} (psel : req.psel = true)
    (window : req.paddr.extractLsb' 28 4 = 3#4) :
    SpiTopApb.flashXipSel req = true ∧ SpiTopApb.spiMasterPsel req = false := by
  constructor
  · simp [SpiTopApb.flashXipSel, psel, window]
  · have bit := congrArg (fun x => x.getLsbD 1) window
    simp only [BitVec.getLsbD_extractLsb'] at bit
    by_contra selected
    simp only [SpiTopApb.spiMasterPsel, psel, Bool.and_true, Bool.not_eq_false, beq_iff_eq]
      at selected
    have bit' := congrArg (fun x => x.getLsbD 17) selected
    simp only [BitVec.getLsbD_extractLsb'] at bit'
    simp at bit bit'
    simp [bit] at bit'

/-- What the registers see of the state machine while the window is selected. -/
def Xip.wb (xip : Xip) : WbReq where
  adr := xip.paddr.extractLsb' 0 5
  dat := xip.pwdata
  sel := if xip.psel && xip.pwrite then 0xF#4 else 0#4
  we := xip.pwrite
  stb := xip.psel
  cyc := xip.penable

/-- The device in a cycle of a read through the window. -/
def SpiTopApb.cycle (dev : SpiTopApb) (pins : Pins) (lastEdge inPenable : Bool)
    (paddr : BitVec 32) : SpiTopApb where
  spi := dev.spi.step pins lastEdge dev.xip.wb
  xip := dev.xip.next true inPenable paddr dev.spi.ack dev.spi.int dev.spi.dat

theorem SpiTopApb.step_window {req : ApbReq} (psel : req.psel = true)
    (window : req.paddr.extractLsb' 28 4 = 3#4) (dev : SpiTopApb) (pins : Pins) (lastEdge : Bool) :
    dev.step pins lastEdge req = dev.cycle pins lastEdge req.penable req.paddr := by
  obtain ⟨xip, master⟩ := flashXipSel_of_window psel window
  simp only [step, cycle, SpiTopApb.wb, xip, master, Xip.wb]
  rfl

/-!
## Registers
-/

section Registers

variable {spi : SpiTop} {wb : WbReq} (pins : Pins) (lastEdge : Bool)

theorem SpiTop.step_still (tip : spi.tip = false) (go : spi.regs.go = false)
    (off : (wb.cyc && wb.stb && wb.we) = false) :
    (spi.step pins lastEdge wb).regs = spi.regs ∧ (spi.step pins lastEdge wb).tip = false ∧
      (spi.step pins lastEdge wb).ack = (wb.cyc && wb.stb && !spi.ack) := by
  simp [SpiTop.step, tip, go, off]

theorem SpiTop.step_write (tip : spi.tip = false) (on : (wb.cyc && wb.stb && wb.we) = true) :
    (spi.step pins lastEdge wb).regs = spi.regs.write wb ∧
      (spi.step pins lastEdge wb).tip = spi.regs.go ∧
      (spi.step pins lastEdge wb).ack = (!spi.ack) ∧
      (spi.ack = true → (spi.step pins lastEdge wb).int = false) := by
  simp only [Bool.and_eq_true] at on
  refine ⟨?_, ?_, ?_, ?_⟩
  · simp [SpiTop.step, tip, on]
  · simp [SpiTop.step, tip]
  · simp [SpiTop.step, on]
  · intro ack
    simp [SpiTop.step, tip, ack]

theorem strobe_all (old new : BitVec 32) : strobe 0xF#4 old new = new := by
  apply eq_of_lanes
  intro i bound
  have enabled : (0xF#4).getLsbD i = true := by
    interval_cases i <;> rfl
  rw [lane_strobe _ _ _ bound, if_pos enabled]

variable (regs : SpiRegs) (dat : BitVec 32)

/-- The write of the state machine at a register address. -/
def xipWrite (adr : BitVec 5) : SpiRegs := regs.write ⟨adr, dat, 0xF#4, true, true, true⟩

theorem xipWrite_tx0 :
    (xipWrite regs dat 0#5).ctrl = regs.ctrl ∧ (xipWrite regs dat 0#5).ss = regs.ss := by
  simp [xipWrite, SpiRegs.write]

theorem xipWrite_tx1 :
    (xipWrite regs dat 4#5).ctrl = regs.ctrl ∧ (xipWrite regs dat 4#5).ss = regs.ss ∧
      (xipWrite regs dat 4#5).data 1#2 = dat := by
  simp [xipWrite, SpiRegs.write, strobe_all]

theorem xipWrite_devide :
    (xipWrite regs dat 0x14#5).ctrl = regs.ctrl ∧ (xipWrite regs dat 0x14#5).ss = regs.ss := by
  simp [xipWrite, SpiRegs.write]

theorem xipWrite_ss :
    (xipWrite regs dat 0x18#5).ctrl = regs.ctrl ∧
      (xipWrite regs dat 0x18#5).ss = dat.setWidth 8 := by
  simp [xipWrite, SpiRegs.write]

/-- The control word of a read, with the bit that CTRL does not lose. -/
def readCtrl (ctrl : BitVec 14) : BitVec 14 := if ctrl.getLsbD 0 then 0x3541#14 else 0x3540#14

theorem xipWrite_ctrl :
    (xipWrite regs (Xip.ctrlData true) 0x10#5).ctrl = readCtrl regs.ctrl ∧
      (xipWrite regs (Xip.ctrlData true) 0x10#5).ss = regs.ss ∧
      (xipWrite regs (Xip.ctrlData true) 0x10#5).data = regs.data := by
  have sticky (bit : BitVec 1) :
      (0x35#6 ++ (0x40#8 ||| bit.setWidth 8) : BitVec 14) =
        if bit.getLsbD 0 then 0x3541#14 else 0x3540#14 := by
    revert bit
    decide
  refine ⟨?_, ?_, ?_⟩
  · have bit := sticky (regs.ctrl.extractLsb' 0 1)
    simpa [xipWrite, SpiRegs.write, SpiRegs.writeCtrl, Xip.ctrlData, readCtrl] using bit
  · simp [xipWrite, SpiRegs.write]
  · simp [xipWrite, SpiRegs.write]

end Registers

/-!
## Cycles of a read
-/

section Cycles

variable (pins : Pins) (input : Nat → XipInput) {req : ApbReq}

/-- Any cycle. -/
def Anytime (_ : XipInput) (_ : XipSystem) : Prop := True

/-- The event of a transfer that starts in a cycle. -/
def SpiTopApb.started (dev dev' : SpiTopApb) : List XipEvent :=
  if dev.spi.regs.go && !dev.spi.tip then [.start dev'.spi.regs.transfer] else []

theorem reaches_cycle (window : req.paddr.extractLsb' 28 4 = 3#4) (t : Nat) {dev : SpiTopApb}
    (waits : dev.xip.pready = false) :
    Machine.Reaches (xipMachine pins) input Anytime t ⟨.access req, dev⟩
      (dev.started (dev.cycle pins (input t).lastEdge true req.paddr)) (t + 1)
      ⟨.access req, dev.cycle pins (input t).lastEdge true req.paddr⟩ := by
  have access : ApbPhase.drive (.access req) (input t).want =
      { req with psel := true, penable := true } := rfl
  obtain ⟨xip, master⟩ :=
    @flashXipSel_of_window { req with psel := true, penable := true } rfl window
  have notReady : dev.pready { req with psel := true, penable := true } = false := by
    simp only [SpiTopApb.pready, xip, master, waits]
    rfl
  have stepped := @SpiTopApb.step_window { req with psel := true, penable := true }
    rfl window dev pins (input t).lastEdge
  have once : Machine.Reaches (xipMachine pins) input Anytime t ⟨.access req, dev⟩ _ (t + 1) _ :=
    Machine.Reaches.single trivial
  simpa [xipMachine, access, notReady, stepped, ApbPhase.next, SpiTopApb.started] using once

/-- A cycle that writes no register while no transfer is asked for. -/
theorem reaches_still (window : req.paddr.extractLsb' 28 4 = 3#4) (t : Nat) {spi : SpiTop}
    (xip : Xip) (waits : xip.pready = false) (tip : spi.tip = false) (go : spi.regs.go = false)
    (off : (xip.wb.cyc && xip.wb.stb && xip.wb.we) = false) :
    ∃ spi', Machine.Reaches (xipMachine pins) input Anytime t ⟨.access req, spi, xip⟩ [] (t + 1)
        ⟨.access req, spi', xip.next true true req.paddr spi.ack spi.int spi.dat⟩ ∧
      spi'.regs = spi.regs ∧ spi'.tip = false ∧
      spi'.ack = (xip.wb.cyc && xip.wb.stb && !spi.ack) ∧
      spi'.dat = spi.regs.read xip.wb.adr := by
  have once : Machine.Reaches (xipMachine pins) input Anytime t ⟨.access req, spi, xip⟩ _ (t + 1) _ :=
    reaches_cycle pins input window t waits
  simp only [SpiTopApb.cycle, SpiTopApb.started, go, Bool.false_and, Bool.false_eq_true,
    if_false] at once
  obtain ⟨regs, tip', ack⟩ := SpiTop.step_still pins (input t).lastEdge tip go off
  exact ⟨_, once, regs, tip', ack, rfl⟩

/-- A cycle that writes a register; a transfer starts when `GO` was there before. -/
theorem reaches_on (window : req.paddr.extractLsb' 28 4 = 3#4) (t : Nat) {spi : SpiTop}
    (xip : Xip) (waits : xip.pready = false) (tip : spi.tip = false)
    (on : (xip.wb.cyc && xip.wb.stb && xip.wb.we) = true) :
    ∃ spi', Machine.Reaches (xipMachine pins) input Anytime t ⟨.access req, spi, xip⟩
        (if spi.regs.go then [.start spi'.regs.transfer] else []) (t + 1)
        ⟨.access req, spi', xip.next true true req.paddr spi.ack spi.int spi.dat⟩ ∧
      spi'.regs = spi.regs.write xip.wb ∧ spi'.tip = spi.regs.go ∧ spi'.ack = (!spi.ack) ∧
      (spi.ack = true → spi'.int = false) := by
  have once : Machine.Reaches (xipMachine pins) input Anytime t ⟨.access req, spi, xip⟩ _ (t + 1) _ :=
    reaches_cycle pins input window t waits
  simp only [SpiTopApb.cycle, SpiTopApb.started, tip, Bool.not_false, Bool.and_true] at once
  exact ⟨_, once, SpiTop.step_write pins (input t).lastEdge tip on⟩

/-- A register write of the state machine, from the first cycle with `psel` to the one that
moves on. `before` holds of registers not yet written, `after` of written ones. -/
theorem reaches_write (window : req.paddr.extractLsb' 28 4 = 3#4) (xip : Xip) {moved : Xip}
    (before : SpiRegs → Prop) {after : SpiRegs → Prop} (psel : xip.psel = true) (pwrite : xip.pwrite = true)
    (waits : xip.pready = false)
    (stays : ∀ penable ack int dat, (penable && ack) = false →
      Xip.next { xip with penable := penable } true true req.paddr ack int dat =
        { xip with penable := true })
    (moves : ∀ int dat,
      Xip.next { xip with penable := true } true true req.paddr true int dat = moved)
    (writes : ∀ regs, before regs ∨ after regs → after (regs.write { xip with penable := true }.wb))
    (noGo : ∀ regs, before regs ∨ after regs → regs.go = false)
    {spi : SpiTop} (tip : spi.tip = false) (regs : before spi.regs ∨ after spi.regs)
    (penable : Bool) (t : Nat) :
    ∃ u spi', Machine.Reaches (xipMachine pins) input Anytime t
        ⟨.access req, spi, { xip with penable := penable }⟩ [] u ⟨.access req, spi', moved⟩ ∧
      after spi'.regs ∧ spi'.tip = false ∧ spi'.ack = false := by
  let enabled : Xip := { xip with penable := true }
  have on : (enabled.wb.cyc && enabled.wb.stb && enabled.wb.we) = true := by
    simp [enabled, Xip.wb, psel, pwrite]
  -- the cycle of the acknowledge
  have last {spi : SpiTop} (tip : spi.tip = false) (regs : before spi.regs ∨ after spi.regs)
      (ack : spi.ack = true) (t : Nat) :
      ∃ u spi', Machine.Reaches (xipMachine pins) input Anytime t
          ⟨.access req, spi, { xip with penable := true }⟩ [] u ⟨.access req, spi', moved⟩ ∧
        after spi'.regs ∧ spi'.tip = false ∧ spi'.ack = false := by
    have go := noGo _ regs
    obtain ⟨spi', once, written, tip', ack', -⟩ := reaches_on pins input window t enabled waits tip on
    rw [go, ack, moves, if_neg Bool.false_ne_true] at once
    exact ⟨t + 1, spi', once, written ▸ writes _ regs, tip'.trans go, by rw [ack', ack]; rfl⟩
  -- the cycle before it
  have first {spi : SpiTop} (tip : spi.tip = false) (regs : before spi.regs ∨ after spi.regs)
      (ack : spi.ack = false) (t : Nat) :
      ∃ u spi', Machine.Reaches (xipMachine pins) input Anytime t
          ⟨.access req, spi, { xip with penable := true }⟩ [] u ⟨.access req, spi', moved⟩ ∧
        after spi'.regs ∧ spi'.tip = false ∧ spi'.ack = false := by
    have go := noGo _ regs
    obtain ⟨spi', once, written, tip', ack', -⟩ := reaches_on pins input window t enabled waits tip on
    rw [go, ack, stays true false _ _ rfl, if_neg Bool.false_ne_true] at once
    obtain ⟨u, spi'', rest, done⟩ := last (tip'.trans go) (.inr (written ▸ writes _ regs))
      (by rw [ack', ack]; rfl) (t + 1)
    exact ⟨u, spi'', once.trans rest, done⟩
  cases penable with
  | true =>
      cases ack : spi.ack with
      | true => exact last tip regs ack t
      | false => exact first tip regs ack t
  | false =>
      obtain ⟨spi', once, same, tip', ack', -⟩ :=
        reaches_still pins input window t { xip with penable := false } waits tip (noGo _ regs) rfl
      rw [stays false _ _ _ rfl] at once
      obtain ⟨u, spi'', rest, done⟩ := first tip' (by rw [same]; exact regs) ack' (t + 1)
      exact ⟨u, spi'', once.trans rest, done⟩

/-!
### From the state machine at rest to a started transfer
-/

/-- Registers before `GO`: CTRL as software left it, and the slave select. -/
def Left (ctrl : BitVec 14) (regs : SpiRegs) : Prop := regs.ctrl = ctrl

def Selects (ctrl : BitVec 14) (ss : BitVec 8) (regs : SpiRegs) : Prop :=
  regs.ctrl = ctrl ∧ regs.ss = ss

def Commands (ctrl : BitVec 14) (ss : BitVec 8) (cmd : BitVec 32) (regs : SpiRegs) : Prop :=
  regs.ctrl = ctrl ∧ regs.ss = ss ∧ regs.data 1#2 = cmd

variable {ctrl : BitVec 14} {ss : BitVec 8} {pr : BitVec 32} {spi : SpiTop}

theorem reaches_init_div (window : req.paddr.extractLsb' 28 4 = 3#4) (noGo : ctrl.getLsbD 8 = false)
    (tip : spi.tip = false) (regs : Left ctrl spi.regs) (penable : Bool) (t : Nat) :
    ∃ u spi', Machine.Reaches (xipMachine pins) input Anytime t
        ⟨.access req, spi, ⟨.init_div_t, true, penable, true, 0#32, 0#32, false, pr⟩⟩ [] u
        ⟨.access req, spi', ⟨.init_ss_t, true, false, true, 9#32, 0x14#32, false, pr⟩⟩ ∧
      Left ctrl spi'.regs ∧ spi'.tip = false ∧ spi'.ack = false := by
  refine reaches_write pins input window ⟨.init_div_t, true, true, true, 0#32, 0#32, false, pr⟩ (Left ctrl)
    rfl rfl rfl ?_ ?_ ?_ ?_ tip (.inl regs) penable t
  · intro penable ack int dat off
    simp [Xip.next, off]
  · intro int dat
    rfl
  · rintro regs (left | left) <;> exact (xipWrite_tx0 regs 0#32).1.trans left
  · rintro regs (left | left) <;> rw [SpiRegs.go, left, noGo]

theorem reaches_init_ss (window : req.paddr.extractLsb' 28 4 = 3#4) (noGo : ctrl.getLsbD 8 = false)
    (tip : spi.tip = false) (regs : Left ctrl spi.regs) (penable : Bool) (t : Nat) :
    ∃ u spi', Machine.Reaches (xipMachine pins) input Anytime t
        ⟨.access req, spi, ⟨.init_ss_t, true, penable, true, 9#32, 0x14#32, false, pr⟩⟩ [] u
        ⟨.access req, spi', ⟨.init_ctrl_t, true, false, true, 1#32, 0x18#32, false, pr⟩⟩ ∧
      Left ctrl spi'.regs ∧ spi'.tip = false ∧ spi'.ack = false := by
  refine reaches_write pins input window ⟨.init_ss_t, true, true, true, 9#32, 0x14#32, false, pr⟩ (Left ctrl)
    rfl rfl rfl ?_ ?_ ?_ ?_ tip (.inl regs) penable t
  · intro penable ack int dat off
    simp [Xip.next, off]
  · intro int dat
    rfl
  · rintro regs (left | left) <;> exact (xipWrite_devide regs 9#32).1.trans left
  · rintro regs (left | left) <;> rw [SpiRegs.go, left, noGo]

/-- The only write of SS. -/
theorem reaches_init_ctrl (window : req.paddr.extractLsb' 28 4 = 3#4)
    (noGo : ctrl.getLsbD 8 = false) (tip : spi.tip = false) (regs : Left ctrl spi.regs)
    (penable : Bool) (t : Nat) :
    ∃ u spi', Machine.Reaches (xipMachine pins) input Anytime t
        ⟨.access req, spi, ⟨.init_ctrl_t, true, penable, true, 1#32, 0x18#32, false, pr⟩⟩ [] u
        ⟨.access req, spi', ⟨.idle_t, false, false, false, Xip.ctrlData false, 0x10#32, false, pr⟩⟩ ∧
      Selects ctrl 1#8 spi'.regs ∧ spi'.tip = false ∧ spi'.ack = false := by
  refine reaches_write pins input window ⟨.init_ctrl_t, true, true, true, 1#32, 0x18#32, false, pr⟩ (Left ctrl)
    rfl rfl rfl ?_ ?_ ?_ ?_ tip (.inl regs) penable t
  · intro penable ack int dat off
    simp [Xip.next, off]
  · intro int dat
    rfl
  · intro regs left
    have kept : regs.ctrl = ctrl := left.elim id And.left
    exact ⟨(xipWrite_ss regs 1#32).1.trans kept, (xipWrite_ss regs 1#32).2⟩
  · intro regs left
    have kept : regs.ctrl = ctrl := left.elim id And.left
    rw [SpiRegs.go, kept, noGo]

theorem reaches_idle (window : req.paddr.extractLsb' 28 4 = 3#4) (noGo : ctrl.getLsbD 8 = false)
    (tip : spi.tip = false) (regs : Selects ctrl ss spi.regs) {penable pwrite : Bool}
    {pwdata paddr : BitVec 32} (t : Nat) :
    ∃ u spi', Machine.Reaches (xipMachine pins) input Anytime t
        ⟨.access req, spi, ⟨.idle_t, false, penable, pwrite, pwdata, paddr, false, pr⟩⟩ [] u
        ⟨.access req, spi', ⟨.write_cmd_t, true, penable, true,
          0x03#8 ++ req.paddr.extractLsb' 0 24, 4#32, false, pr⟩⟩ ∧
      Selects ctrl ss spi'.regs ∧ spi'.tip = false ∧ spi'.ack = false := by
  have go : spi.regs.go = false := by rw [SpiRegs.go, regs.1, noGo]
  obtain ⟨spi', once, same, tip', ack', -⟩ := reaches_still pins input window t
    ⟨.idle_t, false, penable, pwrite, pwdata, paddr, false, pr⟩ rfl tip go (by simp [Xip.wb])
  refine ⟨t + 1, spi', once, ?_, tip', ?_⟩
  · rw [Selects, same]
    exact regs
  · rw [ack']
    simp [Xip.wb]

theorem reaches_write_cmd (window : req.paddr.extractLsb' 28 4 = 3#4)
    (noGo : ctrl.getLsbD 8 = false) (tip : spi.tip = false) (regs : Selects ctrl ss spi.regs)
    (cmd : BitVec 32) (penable : Bool) (t : Nat) :
    ∃ u spi', Machine.Reaches (xipMachine pins) input Anytime t
        ⟨.access req, spi, ⟨.write_cmd_t, true, penable, true, cmd, 4#32, false, pr⟩⟩ [] u
        ⟨.access req, spi',
          ⟨.start_trans_t, true, false, true, Xip.ctrlData true, 0x10#32, false, pr⟩⟩ ∧
      Commands ctrl ss cmd spi'.regs ∧ spi'.tip = false ∧ spi'.ack = false := by
  refine reaches_write pins input window ⟨.write_cmd_t, true, true, true, cmd, 4#32, false, pr⟩ (Selects ctrl ss)
    rfl rfl rfl ?_ ?_ ?_ ?_ tip (.inl regs) penable t
  · intro penable ack int dat off
    simp [Xip.next, off]
  · intro int dat
    rfl
  · intro regs left
    have kept : Selects ctrl ss regs := left.elim id fun sent => ⟨sent.1, sent.2.1⟩
    obtain ⟨ctrl', ss', data'⟩ := xipWrite_tx1 regs cmd
    exact ⟨ctrl'.trans kept.1, ss'.trans kept.2, data'⟩
  · intro regs left
    have kept : regs.ctrl = ctrl := left.elim And.left And.left
    rw [SpiRegs.go, kept, noGo]

theorem readCtrl_bits (ctrl : BitVec 14) :
    (readCtrl ctrl).getLsbD 8 = true ∧ (readCtrl ctrl).getLsbD 12 = true ∧
      (readCtrl ctrl).getLsbD 13 = true ∧ (readCtrl ctrl).getLsbD 11 = false ∧
      (readCtrl ctrl).getLsbD 0 = ctrl.getLsbD 0 ∧
      ((readCtrl ctrl).extractLsb' 0 7 = 64#7 ↔ ctrl.getLsbD 0 = false) := by
  rw [readCtrl]
  cases ctrl.getLsbD 0 <;> decide

theorem readCtrl_readCtrl (ctrl : BitVec 14) : readCtrl (readCtrl ctrl) = readCtrl ctrl := by
  rw [readCtrl, (readCtrl_bits ctrl).2.2.2.2.1]
  rfl

/-- The write of CTRL sets `GO`, and the transfer starts in the cycle of the acknowledge. -/
theorem reaches_start_trans (window : req.paddr.extractLsb' 28 4 = 3#4)
    (noGo : ctrl.getLsbD 8 = false) (tip : spi.tip = false) {cmd : BitVec 32}
    (regs : Commands ctrl ss cmd spi.regs) (t : Nat) :
    ∃ u spi', Machine.Reaches (xipMachine pins) input Anytime t
        ⟨.access req, spi,
          ⟨.start_trans_t, true, false, true, Xip.ctrlData true, 0x10#32, false, pr⟩⟩
        [.start spi'.regs.transfer] u
        ⟨.access req, spi',
          ⟨.wait_trans_t, true, false, false, Xip.ctrlData true, 0x10#32, false, pr⟩⟩ ∧
      Commands (readCtrl ctrl) ss cmd spi'.regs ∧ spi'.tip = true ∧ spi'.ack = false ∧
      spi'.int = false := by
  obtain ⟨go', ie, -⟩ := readCtrl_bits ctrl
  have written {regs : SpiRegs} {ctrl : BitVec 14} (commands : Commands ctrl ss cmd regs) :
      Commands (readCtrl ctrl) ss cmd (xipWrite regs (Xip.ctrlData true) 0x10#5) := by
    obtain ⟨ctrl', ss', data'⟩ := xipWrite_ctrl regs
    rw [Commands, ctrl', ss', data', commands.1]
    exact ⟨rfl, commands.2⟩
  have go : spi.regs.go = false := by rw [SpiRegs.go, regs.1, noGo]
  -- `penable` rises
  obtain ⟨spi1, rises, regs1, tip1, ack1, -⟩ := reaches_still pins input window t
    ⟨.start_trans_t, true, false, true, Xip.ctrlData true, 0x10#32, false, pr⟩ rfl tip go rfl
  have risen : spi1.regs.go = false := by rw [regs1, go]
  -- CTRL is written
  obtain ⟨spi2, writes, regs2, tip2, ack2, -⟩ := reaches_on pins input window (t + 1)
    ⟨.start_trans_t, true, true, true, Xip.ctrlData true, 0x10#32, false, pr⟩ rfl
    tip1 rfl
  rw [ack1, risen] at writes
  have commands2 : Commands (readCtrl ctrl) ss cmd spi2.regs := by
    rw [regs2]
    exact written (regs1 ▸ regs)
  have go2 : spi2.regs.go = true := by rw [SpiRegs.go, commands2.1, go']
  -- and again, while the transfer starts
  obtain ⟨spi3, starts, regs3, tip3, ack3, int3⟩ := reaches_on pins input window (t + 2)
    ⟨.start_trans_t, true, true, true, Xip.ctrlData true, 0x10#32, false, pr⟩ rfl
    (tip2.trans risen) rfl
  have acked : spi2.ack = true := by rw [ack2, ack1]; rfl
  rw [acked, go2, if_pos rfl] at starts
  refine ⟨t + 3, spi3, (rises.trans writes).trans starts, ?_, tip3.trans go2, by rw [ack3, acked]; rfl,
    int3 acked⟩
  rw [regs3, ← readCtrl_readCtrl]
  exact written commands2

/-!
### From a started transfer to the answer
-/

theorem SpiTop.step_transfer {wb : WbReq} (tip : spi.tip = true) (ack : spi.ack = false)
    (off : wb.cyc = false) (lastEdge : Bool) :
    (spi.step pins lastEdge wb).regs = (if lastEdge then spi.regs.finish pins else spi.regs) ∧
      (spi.step pins lastEdge wb).tip = !lastEdge ∧ (spi.step pins lastEdge wb).ack = false ∧
      (spi.step pins lastEdge wb).int = (spi.regs.ie && lastEdge || spi.int) := by
  cases lastEdge <;> simp [SpiTop.step, tip, ack, off]

theorem reaches_wait_cycle (window : req.paddr.extractLsb' 28 4 = 3#4) {pwdata paddr : BitVec 32}
    (tip : spi.tip = true) (ack : spi.ack = false) (int : spi.int = false) (t : Nat) :
    ∃ spi', Machine.Reaches (xipMachine pins) input Anytime t
        ⟨.access req, spi, ⟨.wait_trans_t, true, false, false, pwdata, paddr, false, pr⟩⟩ [] (t + 1)
        ⟨.access req, spi', ⟨.wait_trans_t, true, false, false, pwdata, paddr, false, pr⟩⟩ ∧
      spi'.regs = (if (input t).lastEdge then spi.regs.finish pins else spi.regs) ∧
      spi'.tip = (!(input t).lastEdge) ∧ spi'.ack = false ∧
      spi'.int = (spi.regs.ie && (input t).lastEdge) := by
  let waiting : Xip := ⟨.wait_trans_t, true, false, false, pwdata, paddr, false, pr⟩
  have once : Machine.Reaches (xipMachine pins) input Anytime t ⟨.access req, spi, waiting⟩ _ (t + 1)
      _ := reaches_cycle pins input window t rfl
  have off : waiting.wb.cyc = false := rfl
  have stays : waiting.next true true req.paddr spi.ack spi.int spi.dat = waiting := by
    simp [waiting, Xip.next, int]
  simp only [SpiTopApb.cycle, SpiTopApb.started, tip, stays, Bool.not_true, Bool.and_false,
    Bool.false_eq_true, if_false] at once
  obtain ⟨regs', tip', ack', int'⟩ :=
    SpiTop.step_transfer pins tip ack off (input t).lastEdge
  rw [int, Bool.or_false] at int'
  exact ⟨_, once, regs', tip', ack', int'⟩

theorem finish_go (regs : SpiRegs) : (regs.finish pins).go = false := by
  simp [SpiRegs.finish, SpiRegs.go]

/-- The interrupt of the last edge ends the wait. -/
theorem reaches_last_edge (window : req.paddr.extractLsb' 28 4 = 3#4) {pwdata paddr : BitVec 32}
    (ie : spi.regs.ie = true) (tip : spi.tip = true) (ack : spi.ack = false)
    (int : spi.int = false) (t : Nat) (edge : (input t).lastEdge = true) :
    ∃ u spi', Machine.Reaches (xipMachine pins) input Anytime t
        ⟨.access req, spi, ⟨.wait_trans_t, true, false, false, pwdata, paddr, false, pr⟩⟩ [] u
        ⟨.access req, spi', ⟨.read_data_t, true, false, false, pwdata, 0#32, false, pr⟩⟩ ∧
      spi'.regs = spi.regs.finish pins ∧ spi'.tip = false := by
  obtain ⟨spi1, ends, regs1, tip1, -, int1⟩ := reaches_wait_cycle pins input window tip ack int t
  rw [edge, if_pos rfl] at regs1
  rw [edge] at tip1
  rw [ie, edge] at int1
  obtain ⟨spi2, moves, regs2, tip2, -⟩ := reaches_still pins input window (t + 1)
    ⟨.wait_trans_t, true, false, false, pwdata, paddr, false, pr⟩ rfl tip1
    (by rw [regs1, finish_go pins]) rfl
  rw [int1] at moves
  exact ⟨t + 2, spi2, ends.trans moves, regs2.trans regs1, tip2⟩

theorem reaches_wait_trans (window : req.paddr.extractLsb' 28 4 = 3#4) {pwdata paddr : BitVec 32}
    (ie : spi.regs.ie = true) (tip : spi.tip = true) (ack : spi.ack = false)
    (int : spi.int = false) (d t : Nat) (edge : (input (t + d)).lastEdge = true) :
    ∃ u spi', Machine.Reaches (xipMachine pins) input Anytime t
        ⟨.access req, spi, ⟨.wait_trans_t, true, false, false, pwdata, paddr, false, pr⟩⟩ [] u
        ⟨.access req, spi', ⟨.read_data_t, true, false, false, pwdata, 0#32, false, pr⟩⟩ ∧
      spi'.regs = spi.regs.finish pins ∧ spi'.tip = false := by
  induction d generalizing t spi with
  | zero => exact reaches_last_edge pins input window ie tip ack int t edge
  | succ d ih =>
      cases now : (input t).lastEdge with
      | true => exact reaches_last_edge pins input window ie tip ack int t now
      | false =>
          obtain ⟨spi1, waits, regs1, tip1, ack1, int1⟩ := reaches_wait_cycle pins input window tip ack int t
          rw [now, if_neg Bool.false_ne_true] at regs1
          rw [now] at tip1
          rw [now, Bool.and_false] at int1
          rw [Nat.add_comm d, ← Nat.add_assoc] at edge
          obtain ⟨u, spi2, rest, done⟩ := ih (by rw [regs1, ie]) tip1 ack1 int1 (t + 1) edge
          rw [regs1] at done
          exact ⟨u, spi2, waits.trans rest, done⟩

theorem reaches_done (window : req.paddr.extractLsb' 28 4 = 3#4) {penable pwrite : Bool}
    {pwdata paddr word : BitVec 32} (go : spi.regs.go = false) (t : Nat) :
    ∃ dev', Machine.Reaches (xipMachine pins) input Anytime t
      ⟨.access req, spi, ⟨.idle_t, false, penable, pwrite, pwdata, paddr, true, word⟩⟩ [.done word]
      (t + 1) ⟨.idle, dev'⟩ := by
  let sys : XipSystem :=
    ⟨.access req, spi, ⟨.idle_t, false, penable, pwrite, pwdata, paddr, true, word⟩⟩
  obtain ⟨xip, master⟩ :=
    @flashXipSel_of_window { req with psel := true, penable := true } rfl window
  have out : (xipMachine pins).out (input t) sys = [.done word] := by
    simp [sys, xipMachine, ApbPhase.drive, SpiTopApb.pready, SpiTopApb.prdata, xip, master, go]
  have idle : ((xipMachine pins).step (input t) sys).phase = .idle := by
    simp [sys, xipMachine, ApbPhase.drive, ApbPhase.next, SpiTopApb.pready, xip, master]
  have once : Machine.Reaches (xipMachine pins) input Anytime t sys _ (t + 1) _ :=
    Machine.Reaches.single trivial
  rw [out] at once
  refine ⟨((xipMachine pins).step (input t) sys).dev, ?_⟩
  rw [← idle]
  exact once

/-- The read of RX_0, and the cycle in which the master takes the word. -/
theorem reaches_read_data (window : req.paddr.extractLsb' 28 4 = 3#4) {pwdata : BitVec 32}
    (tip : spi.tip = false) (go : spi.regs.go = false) (t : Nat) :
    ∃ u dev', Machine.Reaches (xipMachine pins) input Anytime t
        ⟨.access req, spi, ⟨.read_data_t, true, false, false, pwdata, 0#32, false, pr⟩⟩
        [.done (spi.regs.data 0#2)] u ⟨.idle, dev'⟩ := by
  obtain ⟨spi1, rises, regs1, tip1, ack1, -⟩ := reaches_still pins input window t
    ⟨.read_data_t, true, false, false, pwdata, 0#32, false, pr⟩ rfl tip go rfl
  obtain ⟨spi2, reads, regs2, tip2, ack2, dat2⟩ := reaches_still pins input window (t + 1)
    ⟨.read_data_t, true, true, false, pwdata, 0#32, false, pr⟩ rfl tip1 (by rw [regs1, go]) rfl
  rw [ack1] at reads
  have acked : spi2.ack = true := by rw [ack2, ack1]; rfl
  have word : spi2.dat = spi.regs.data 0#2 := by
    rw [dat2, regs1]
    simp [Xip.wb, SpiRegs.read]
  obtain ⟨spi3, answers, regs3, tip3, -, -⟩ := reaches_still pins input window (t + 2)
    ⟨.read_data_t, true, true, false, pwdata, 0#32, false, pr⟩ rfl tip2
    (by rw [regs2, regs1, go]) rfl
  rw [acked, word] at answers
  have still : spi3.regs.go = false := by rw [regs3, regs2, regs1, go]
  obtain ⟨dev', taken⟩ := reaches_done pins input window still (t + 3)
  exact ⟨t + 4, dev', ((rises.trans reads).trans answers).trans taken⟩

/-- From the state on, one transfer with this slave select and control word sends the command
of the address, and the read is done with its word. -/
def AnswersRead (addr : BitVec 32) (ss : BitVec 8) (ctrl : BitVec 14) (t : Nat) (sys : XipSystem) :
    Prop :=
  ∃ u dev' transfer, Machine.Reaches (xipMachine pins) input Anytime t sys
      [.start transfer, .done (pins transfer 0#2)] u ⟨.idle, dev'⟩ ∧
    transfer.ss = ss ∧ transfer.ctrl = ctrl ∧
    transfer.data 1#2 = 0x03#8 ++ addr.extractLsb' 0 24

variable {pins input} in
theorem AnswersRead.of_reaches {addr : BitVec 32} {t t' : Nat} {sys sys' : XipSystem}
    (reaches : Machine.Reaches (xipMachine pins) input Anytime t sys [] t' sys')
    (answers : AnswersRead pins input addr ss ctrl t' sys') : AnswersRead pins input addr ss ctrl t sys := by
  obtain ⟨u, dev', transfer, rest, sent⟩ := answers
  exact ⟨u, dev', transfer, reaches.trans rest, sent⟩

theorem answers_idle (window : req.paddr.extractLsb' 28 4 = 3#4) (noGo : ctrl.getLsbD 8 = false)
    (fair : Machine.Often input (·.lastEdge = true)) (tip : spi.tip = false)
    (regs : Selects ctrl ss spi.regs) {penable pwrite : Bool} {pwdata paddr : BitVec 32} (t : Nat) :
    AnswersRead pins input req.paddr ss (readCtrl ctrl) t
      ⟨.access req, spi, ⟨.idle_t, false, penable, pwrite, pwdata, paddr, false, pr⟩⟩ := by
  obtain ⟨t1, spi1, leaves, regs1, tip1, -⟩ := reaches_idle pins input window noGo tip regs t
  obtain ⟨t2, spi2, sends, regs2, tip2, -⟩ := reaches_write_cmd pins input window noGo tip1 regs1 _ _ t1
  obtain ⟨t3, spi3, starts, regs3, tip3, ack3, int3⟩ :=
    reaches_start_trans pins input window noGo tip2 regs2 t2
  obtain ⟨go, ie, -⟩ := readCtrl_bits ctrl
  obtain ⟨edge, later, last⟩ := fair t3
  obtain ⟨d, rfl⟩ := Nat.exists_eq_add_of_le later
  have enabled : spi3.regs.ie = true := by rw [SpiRegs.ie, regs3.1, ie]
  obtain ⟨t4, spi4, waits, regs4, tip4⟩ := reaches_wait_trans pins input window enabled tip3 ack3 int3 d t3 last
  obtain ⟨t5, dev', reads⟩ := reaches_read_data pins input window tip4 (by rw [regs4, finish_go pins]) t4
  rw [regs4] at reads
  exact ⟨t5, dev', spi3.regs.transfer,
    (((leaves.trans sends).trans starts).trans waits).trans reads, regs3.2.1, regs3.1, regs3.2.2⟩

theorem answers_init_ctrl (window : req.paddr.extractLsb' 28 4 = 3#4)
    (noGo : ctrl.getLsbD 8 = false) (fair : Machine.Often input (·.lastEdge = true))
    (tip : spi.tip = false) (regs : Left ctrl spi.regs) (penable : Bool) (t : Nat) :
    AnswersRead pins input req.paddr 1#8 (readCtrl ctrl) t
      ⟨.access req, spi, ⟨.init_ctrl_t, true, penable, true, 1#32, 0x18#32, false, pr⟩⟩ := by
  obtain ⟨t1, spi1, selects, regs1, tip1, -⟩ :=
    reaches_init_ctrl pins input window noGo tip regs penable t
  exact .of_reaches selects (answers_idle pins input window noGo fair tip1 regs1 t1)

theorem answers_init_ss (window : req.paddr.extractLsb' 28 4 = 3#4) (noGo : ctrl.getLsbD 8 = false)
    (fair : Machine.Often input (·.lastEdge = true)) (tip : spi.tip = false)
    (regs : Left ctrl spi.regs) (penable : Bool) (t : Nat) :
    AnswersRead pins input req.paddr 1#8 (readCtrl ctrl) t
      ⟨.access req, spi, ⟨.init_ss_t, true, penable, true, 9#32, 0x14#32, false, pr⟩⟩ := by
  obtain ⟨t1, spi1, divides, regs1, tip1, -⟩ :=
    reaches_init_ss pins input window noGo tip regs penable t
  exact .of_reaches divides (answers_init_ctrl pins input window noGo fair tip1 regs1 false t1)

theorem answers_init_div (window : req.paddr.extractLsb' 28 4 = 3#4) (noGo : ctrl.getLsbD 8 = false)
    (fair : Machine.Often input (·.lastEdge = true)) (tip : spi.tip = false)
    (regs : Left ctrl spi.regs) (penable : Bool) (t : Nat) :
    AnswersRead pins input req.paddr 1#8 (readCtrl ctrl) t
      ⟨.access req, spi, ⟨.init_div_t, true, penable, true, 0#32, 0#32, false, pr⟩⟩ := by
  obtain ⟨t1, spi1, clears, regs1, tip1, -⟩ :=
    reaches_init_div pins input window noGo tip regs penable t
  exact .of_reaches clears (answers_init_ss pins input window noGo fair tip1 regs1 false t1)

end Cycles

/-!
## Reads from a state at rest
-/

/-- The state machine between two reads. -/
inductive Xip.Rest : Xip → Prop where
  | init_div {psel penable pwrite : Bool} {prdata : BitVec 32} :
      Rest ⟨.init_div_t, psel, penable, pwrite, 0#32, 0#32, false, prdata⟩
  | init_ss {penable : Bool} {prdata : BitVec 32} :
      Rest ⟨.init_ss_t, true, penable, true, 9#32, 0x14#32, false, prdata⟩
  | init_ctrl {penable : Bool} {prdata : BitVec 32} :
      Rest ⟨.init_ctrl_t, true, penable, true, 1#32, 0x18#32, false, prdata⟩
  | idle {penable pwrite : Bool} {pwdata paddr prdata : BitVec 32} :
      Rest ⟨.idle_t, false, penable, pwrite, pwdata, paddr, false, prdata⟩

section Reads

variable {pins : Pins} {input : Nat → XipInput} {req : ApbReq} {spi : SpiTop} {xip : Xip}

/-- The setup cycle of a read. -/
theorem reaches_setup (psel : req.psel = true) (window : req.paddr.extractLsb' 28 4 = 3#4)
    (want : (input 0).want = req) (go : spi.regs.go = false) :
    Machine.Reaches (xipMachine pins) input Anytime 0 ⟨.idle, spi, xip⟩ [] 1
      ⟨.access req, spi.step pins (input 0).lastEdge xip.wb,
        xip.next true false req.paddr spi.ack spi.int spi.dat⟩ := by
  let sys : XipSystem := ⟨.idle, spi, xip⟩
  have drive : sys.phase.drive (input 0).want = { req with penable := false } := by
    simp [sys, ApbPhase.drive, want, psel]
  have stepped := @SpiTopApb.step_window { req with penable := false } psel window ⟨spi, xip⟩ pins
    (input 0).lastEdge
  have once : Machine.Reaches (xipMachine pins) input Anytime 0 sys _ 1 _ :=
    Machine.Reaches.single trivial
  have out : (xipMachine pins).out (input 0) sys = [] := by
    simp [xipMachine, drive, sys, go]
  have next : (xipMachine pins).step (input 0) sys =
      ⟨.access req, spi.step pins (input 0).lastEdge xip.wb,
        xip.next true false req.paddr spi.ack spi.int spi.dat⟩ := by
    simp only [xipMachine, drive, sys, stepped, SpiTopApb.cycle]
    simp [ApbPhase.next, want, psel]
  rw [out, next] at once
  exact once

/-- A cycle without a transfer writes the register or nothing. -/
theorem SpiTop.step_cases (pins : Pins) (wb : WbReq) (tip : spi.tip = false)
    (go : spi.regs.go = false)
    (lastEdge : Bool) :
    ((spi.step pins lastEdge wb).regs = spi.regs ∨
      (spi.step pins lastEdge wb).regs = spi.regs.write wb) ∧
      (spi.step pins lastEdge wb).tip = false := by
  cases on : wb.cyc && wb.stb && wb.we with
  | true =>
      obtain ⟨regs, tip', -⟩ := SpiTop.step_write pins lastEdge tip on
      exact ⟨.inr regs, tip'.trans go⟩
  | false =>
      obtain ⟨regs, tip', -⟩ := SpiTop.step_still pins lastEdge tip go on
      exact ⟨.inl regs, tip'⟩

theorem answers_read (rest : xip.Rest) (psel : req.psel = true)
    (window : req.paddr.extractLsb' 28 4 = 3#4) (want : (input 0).want = req)
    (fair : Machine.Often input (·.lastEdge = true)) (tip : spi.tip = false)
    (ack : spi.ack = false) (go : spi.regs.go = false) :
    AnswersRead pins input req.paddr (if xip.state = .idle_t then spi.regs.ss else 1#8)
      (readCtrl spi.regs.ctrl) 0 ⟨.idle, spi, xip⟩ := by
  have setup : Machine.Reaches (xipMachine pins) input Anytime 0 ⟨.idle, spi, xip⟩ _ _ _ :=
    reaches_setup psel window want go
  obtain ⟨regs, tip1⟩ := SpiTop.step_cases pins xip.wb tip go (input 0).lastEdge
  rw [ack] at setup
  refine .of_reaches setup ?_
  have left (same : (spi.regs.write xip.wb).ctrl = spi.regs.ctrl) :
      Left spi.regs.ctrl (spi.step pins (input 0).lastEdge xip.wb).regs := by
    rcases regs with old | new
    · rw [Left, old]
    · rw [Left, new, same]
  cases rest with
  | init_div =>
      have written := left (by simp [SpiRegs.write, Xip.wb])
      simp only [Xip.next, Bool.and_false, Bool.false_eq_true, if_false, reduceCtorEq]
      exact answers_init_div pins input window go fair tip1 written true 1
  | init_ss =>
      have written := left (by simp [SpiRegs.write, Xip.wb])
      simp only [Xip.next, Bool.and_false, Bool.false_eq_true, if_false, reduceCtorEq]
      exact answers_init_ss pins input window go fair tip1 written true 1
  | init_ctrl =>
      have written := left (by simp [SpiRegs.write, Xip.wb])
      simp only [Xip.next, Bool.and_false, Bool.false_eq_true, if_false, reduceCtorEq]
      exact answers_init_ctrl pins input window go fair tip1 written true 1
  | @idle penable pwrite pwdata paddr prdata =>
      let xip : Xip := ⟨.idle_t, false, penable, pwrite, pwdata, paddr, false, prdata⟩
      have off : (xip.wb.cyc && xip.wb.stb && xip.wb.we) = false := by simp [xip, Xip.wb]
      have same := (SpiTop.step_still pins (input 0).lastEdge tip go off).1
      simp only [Xip.next, Bool.and_false, Bool.false_eq_true, if_false, if_true]
      exact answers_idle pins input window go fair tip1 ⟨congrArg SpiRegs.ctrl same,
        congrArg SpiRegs.ss same⟩ 1

end Reads

/-!
## Runs of the bus
-/

/-- The state machine while a read is on the bus. -/
inductive Xip.Busy : Xip → Prop where
  | rest {xip : Xip} : xip.Rest → Busy xip
  | reads {state : XipState} {penable pwrite : Bool} {pwdata paddr prdata : BitVec 32} :
      state = .write_cmd_t ∨ state = .start_trans_t ∨ state = .wait_trans_t ∨
        state = .read_data_t →
      Busy ⟨state, true, penable, pwrite, pwdata, paddr, false, prdata⟩
  | answered {penable pwrite : Bool} {pwdata paddr prdata : BitVec 32} :
      Busy ⟨.idle_t, false, penable, pwrite, pwdata, paddr, true, prdata⟩

/-- Between bus transfers the state machine rests, and so it does during those of software. -/
inductive XipSystem.Sound : XipSystem → Prop where
  | idle {spi : SpiTop} {xip : Xip} : xip.Rest → spi.ack = false → Sound ⟨.idle, spi, xip⟩
  | software {req : ApbReq} {spi : SpiTop} {xip : Xip} :
      req.paddr.extractLsb' 12 20 = 0x10001#20 → xip.Rest → Sound ⟨.access req, spi, xip⟩
  | read {req : ApbReq} {spi : SpiTop} {xip : Xip} :
      req.paddr.extractLsb' 28 4 = 3#4 → xip.Busy → Sound ⟨.access req, spi, xip⟩

theorem Xip.Rest.next {xip : Xip} (rest : xip.Rest) {sel inPenable : Bool} {paddr : BitVec 32}
    {ack irq : Bool} {dat : BitVec 32} (apart : (sel && inPenable) = false) :
    (xip.next sel inPenable paddr ack irq dat).Rest := by
  cases rest with
  | @init_div psel penable pwrite prdata =>
      cases acked : penable && ack <;> simp only [Xip.next, acked] <;> constructor
  | @init_ss penable prdata =>
      cases acked : penable && ack <;> simp only [Xip.next, acked] <;> constructor
  | @init_ctrl penable prdata =>
      cases acked : penable && ack <;> simp only [Xip.next, acked] <;> constructor
  | idle =>
      simp only [Xip.next, apart, Bool.and_false, Bool.false_eq_true, if_false]
      constructor

theorem Xip.Busy.next {xip : Xip} (busy : xip.Busy) (waits : xip.pready = false)
    {paddr : BitVec 32} {ack irq : Bool} {dat : BitVec 32} :
    (xip.next true true paddr ack irq dat).Busy := by
  cases busy with
  | rest rest =>
      cases rest with
      | @init_div psel penable pwrite prdata =>
          cases acked : penable && ack <;> simp only [Xip.next, acked] <;> exact .rest (by constructor)
      | @init_ss penable prdata =>
          cases acked : penable && ack <;> simp only [Xip.next, acked] <;> exact .rest (by constructor)
      | @init_ctrl penable prdata =>
          cases acked : penable && ack <;> simp only [Xip.next, acked] <;> exact .rest (by constructor)
      | idle => exact .reads (.inl rfl)
  | @reads state penable pwrite pwdata paddr' prdata phase =>
      rcases phase with rfl | rfl | rfl | rfl
      · cases acked : penable && ack <;> simp only [Xip.next, acked]
        · exact .reads (.inl rfl)
        · exact .reads (.inr (.inl rfl))
      · cases acked : penable && ack <;> simp only [Xip.next, acked]
        · exact .reads (.inr (.inl rfl))
        · exact .reads (.inr (.inr (.inl rfl)))
      · cases irq with
        | false => exact .reads (.inr (.inr (.inl rfl)))
        | true => exact .reads (.inr (.inr (.inr rfl)))
      · cases acked : penable && ack <;> simp only [Xip.next, acked]
        · exact .reads (.inr (.inr (.inr rfl)))
        · exact .answered
  | answered => cases waits

theorem Xip.Busy.answer {xip : Xip} (busy : xip.Busy) (ready : xip.pready = true)
    {paddr : BitVec 32} {ack irq : Bool} {dat : BitVec 32} :
    xip.psel = false ∧ (xip.next true true paddr ack irq dat).Rest := by
  cases busy with
  | rest rest => cases rest <;> cases ready
  | reads => cases ready
  | answered => exact ⟨rfl, .idle⟩

variable {pins : Pins} {input : XipInput} {sys : XipSystem}

theorem SpiTop.step_ack (spi : SpiTop) (pins : Pins) (lastEdge : Bool) (wb : WbReq) :
    (spi.step pins lastEdge wb).ack = (wb.cyc && wb.stb && !spi.ack) := rfl

theorem selects_of_master {req : ApbReq} (psel : req.psel = true)
    (master : req.paddr.extractLsb' 12 20 = 0x10001#20) :
    SpiTopApb.spiMasterPsel req = true ∧ SpiTopApb.flashXipSel req = false := by
  have selected : SpiTopApb.spiMasterPsel req = true := by
    simp [SpiTopApb.spiMasterPsel, psel, master]
  refine ⟨selected, ?_⟩
  by_contra xip
  simp only [SpiTopApb.flashXipSel, psel, Bool.and_true, Bool.not_eq_false, beq_iff_eq] at xip
  rw [(flashXipSel_of_window psel xip).2] at selected
  cases selected

theorem XipSystem.Sound.step (sound : sys.Sound) (decoded : input.want.ToSpi) :
    ((xipMachine pins).step input sys).Sound := by
  cases sound with
  | @idle spi xip rest ack =>
      simp only [xipMachine, ApbPhase.drive, ApbPhase.next, SpiTopApb.step]
      cases selected : input.want.psel with
      | false =>
          have notMaster (req : ApbReq) (psel : req.psel = false) :
              SpiTopApb.spiMasterPsel req = false ∧ SpiTopApb.flashXipSel req = false := by
            simp [SpiTopApb.spiMasterPsel, SpiTopApb.flashXipSel, psel]
          obtain ⟨master, window⟩ := notMaster
            { input.want with psel := false, penable := input.want.penable && !false } rfl
          rw [if_neg Bool.false_ne_true]
          refine .idle (rest.next (by rw [window]; rfl)) ?_
          rw [SpiTop.step_ack, SpiTopApb.wb, master, window]
          rfl
      | true =>
          rw [if_pos rfl]
          have still : (xip.next
              (SpiTopApb.flashXipSel { input.want with psel := true, penable := input.want.penable && !true })
              (input.want.penable && !true) input.want.paddr spi.ack spi.int spi.dat).Rest :=
            rest.next (by simp)
          rcases decoded selected with master | window
          · exact .software master still
          · exact .read window (.rest still)
  | @software req spi xip master rest =>
      obtain ⟨own, notXip⟩ := @selects_of_master { req with psel := true, penable := true } rfl master
      simp only [xipMachine, ApbPhase.drive, ApbPhase.next, SpiTopApb.step, SpiTopApb.pready, own, if_true]
      cases ack : spi.ack with
      | false =>
          rw [if_neg Bool.false_ne_true]
          exact .software master (rest.next (by rw [notXip]; rfl))
      | true =>
          rw [if_pos rfl]
          refine .idle (rest.next (by rw [notXip]; rfl)) ?_
          rw [SpiTop.step_ack, ack]
          simp
  | @read req spi xip window busy =>
      obtain ⟨own, notMaster⟩ :=
        @flashXipSel_of_window { req with psel := true, penable := true } rfl window
      have stepped := @SpiTopApb.step_window { req with psel := true, penable := true } rfl window
        ⟨spi, xip⟩ pins input.lastEdge
      simp only [xipMachine, ApbPhase.drive, ApbPhase.next, SpiTopApb.pready, own, notMaster, stepped,
        SpiTopApb.cycle, if_true, Bool.false_eq_true, if_false]
      cases ready : xip.pready with
      | false =>
          rw [if_neg Bool.false_ne_true]
          exact .read window (busy.next ready)
      | true =>
          rw [if_pos rfl]
          obtain ⟨psel, rest⟩ := @Xip.Busy.answer xip busy ready req.paddr spi.ack spi.int spi.dat
          refine .idle rest ?_
          rw [SpiTop.step_ack]
          simp [Xip.wb, psel]

theorem XipSystem.reset_sound (penable : Bool) : (reset penable).Sound := .idle .init_div rfl

theorem XipSystem.Sound.run (sound : sys.Sound) {input : Nat → XipInput}
    (decoded : ∀ t, (input t).want.ToSpi) (n : Nat) :
    ((xipMachine pins).run input 0 sys n).Sound := by
  induction n with
  | zero => exact sound
  | succ n ih =>
      rw [Machine.run_succ]
      exact ih.step (decoded _)

/-!
## The condition
-/

/-- SS is still to be programmed or selects the flash alone, and CTRL has no bit 0 to keep. -/
def XipSystem.SelectsFlash (sys : XipSystem) : Prop :=
  (sys.dev.xip.state ≠ .idle_t ∨ sys.dev.spi.regs.ss = 1#8) ∧
    sys.dev.spi.regs.ctrl.getLsbD 0 = false

theorem flashRead_iff {transfer : Transfer} {addr : BitVec 32} {ss : BitVec 8} {ctrl : BitVec 14}
    (select : transfer.ss = ss) (control : transfer.ctrl = readCtrl ctrl)
    (command : transfer.data 1#2 = 0x03#8 ++ addr.extractLsb' 0 24) :
    transfer.FlashRead addr ↔ ss = 1#8 ∧ ctrl.getLsbD 0 = false := by
  obtain ⟨-, -, autoSelect, highFirst, -, charLen⟩ := readCtrl_bits ctrl
  constructor
  · intro flash
    rw [← charLen, ← control, ← select]
    exact ⟨flash.slave, flash.charLen⟩
  · rintro ⟨slave, even⟩
    refine ⟨select.trans slave, ?_, ?_, ?_, command⟩
    · rw [control, autoSelect]
    · rw [control, highFirst]
    · rw [control, charLen.mpr even]

/-- Two runs of one input that both end in one transfer and its answer had the same transfer. -/
theorem events_start_unique {input : Nat → XipInput} {m n : Nat} {first second : Transfer}
    {event event' : XipEvent}
    (left : (xipMachine pins).events input 0 sys m = [.start first, event])
    (right : (xipMachine pins).events input 0 sys n = [.start second, event']) :
    first = second := by
  rcases Nat.le_total m n with before | after
  · obtain ⟨k, rfl⟩ := Nat.exists_eq_add_of_le before
    rw [Machine.events_add, left] at right
    simp only [List.cons_append, List.cons.injEq, XipEvent.start.injEq] at right
    exact right.1
  · obtain ⟨k, rfl⟩ := Nat.exists_eq_add_of_le after
    rw [Machine.events_add, right] at left
    simp only [List.cons_append, List.cons.injEq, XipEvent.start.injEq] at left
    exact left.1.symm

theorem XipSystem.Sound.readsFlash_iff (sound : sys.Sound) (quiet : sys.Quiet) {req : ApbReq}
    (read : req.FlashWindow) : sys.ReadsFlash pins req ↔ sys.SelectsFlash := by
  obtain ⟨phase, spi, xip⟩ := sys
  obtain ⟨rfl, tip, go⟩ := quiet
  cases sound with
  | idle rest ack =>
      have answers {input : Nat → XipInput} (want : (input 0).want = req)
          (fair : Machine.Often input (·.lastEdge = true)) :
          AnswersRead pins input req.paddr (if xip.state = .idle_t then spi.regs.ss else 1#8)
            (readCtrl spi.regs.ctrl) 0 ⟨.idle, spi, xip⟩ :=
        answers_read rest read.psel read.window want fair tip ack go
      have selects : (if xip.state = .idle_t then spi.regs.ss else 1#8) = 1#8 ↔
          xip.state ≠ .idle_t ∨ spi.regs.ss = 1#8 := by
        by_cases idle : xip.state = .idle_t <;> simp [idle]
      constructor
      · intro reads
        let input : Nat → XipInput := fun _ => ⟨req, true⟩
        have fair : Machine.Often input (·.lastEdge = true) := fun t => ⟨t, Nat.le_refl t, rfl⟩
        obtain ⟨n, transfer, events, flash⟩ := reads input rfl fair
        obtain ⟨u, dev', transfer', ⟨m, -, -, events', -⟩, select, control, command⟩ :=
          answers rfl fair
        rw [events_start_unique events events', flashRead_iff select control command, selects]
          at flash
        exact flash
      · intro holds input want fair
        obtain ⟨u, dev', transfer, ⟨n, -, -, events, -⟩, select, control, command⟩ :=
          answers want fair
        refine ⟨n, transfer, events, (flashRead_iff select control command).mpr ?_⟩
        exact ⟨selects.mpr holds.1, holds.2⟩

/-- After any accesses of software and any reads of the window, a read is a read of the flash
exactly when the registers select it. -/
theorem xip_readsFlash_iff (pins : Pins) (penable : Bool) (input : Nat → XipInput)
    (decoded : ∀ t, (input t).want.ToSpi) (n : Nat)
    (quiet : ((xipMachine pins).run input 0 (.reset penable) n).Quiet) (req : ApbReq)
    (read : req.FlashWindow) :
    ((xipMachine pins).run input 0 (.reset penable) n).ReadsFlash pins req ↔
      ((xipMachine pins).run input 0 (.reset penable) n).SelectsFlash :=
  ((XipSystem.reset_sound penable).run decoded n).readsFlash_iff quiet read

/-- A read at the start of the flash window. -/
def flashReq : ApbReq := ⟨0x30000000#32, true, false, false, 0#32, 0#4⟩

/-- A read of the flash, and `outb(SPI_SS, 1 << 7)` after it. -/
def readThenSelect (t : Nat) : XipInput :=
  { want :=
      if t = 0 then flashReq
      else if t < 25 then ⟨0x10001018#32, true, false, true, 0x80#32, 1#4⟩
      else ⟨0#32, false, false, false, 0#32, 0#4⟩
    lastEdge := true }

theorem readThenSelect_toSpi (t : Nat) : (readThenSelect t).want.ToSpi := by
  by_cases first : t = 0
  · simp only [readThenSelect, first, if_true]
    exact fun _ => .inr (by decide)
  · by_cases early : t < 25
    · simp only [readThenSelect, first, early, if_true, if_false]
      exact fun _ => .inl (by decide)
    · simp only [readThenSelect, first, early, if_false]
      exact fun psel => absurd psel Bool.false_ne_true

/-- Between the two the window is the flash. -/
theorem xip_readsFlash_first :
    ((xipMachine fun _ _ => 0x13#32).run readThenSelect 0 (.reset true) 22).ReadsFlash
      (fun _ _ => 0x13#32) flashReq :=
  (xip_readsFlash_iff (fun _ _ => 0x13#32) true readThenSelect readThenSelect_toSpi 22
    ⟨by decide +kernel, by decide +kernel, by decide +kernel⟩ flashReq
    ⟨rfl, rfl, by decide⟩).mpr ⟨.inr (by decide +kernel), by decide +kernel⟩

/-- After them the read goes to slave 7. -/
theorem xip_read_fails :
    ((xipMachine fun _ _ => 0x13#32).run readThenSelect 0 (.reset true) 25).Quiet ∧
      ¬ ((xipMachine fun _ _ => 0x13#32).run readThenSelect 0 (.reset true) 25).ReadsFlash
        (fun _ _ => 0x13#32) flashReq := by
  have quiet : ((xipMachine fun _ _ => 0x13#32).run readThenSelect 0 (.reset true) 25).Quiet :=
    ⟨by decide +kernel, by decide +kernel, by decide +kernel⟩
  refine ⟨quiet, fun reads => ?_⟩
  have selects := (((XipSystem.reset_sound true).run readThenSelect_toSpi 25).readsFlash_iff quiet
    ⟨rfl, rfl, by decide⟩).mp reads
  rcases selects.1 with programs | flash
  · exact programs (by decide +kernel)
  · exact absurd flash (by decide +kernel)

end Ysyx.Soc
