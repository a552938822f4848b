import Ysyx.Soc.PsramSerial

/-! What a cycle of the controller does: its shift registers, and the stages of its
initialisation, of a read and of a write. -/

set_option autoImplicit false

namespace Ysyx.Soc

open Lib (slice blit)

/-!
## The shift registers
-/

namespace PsramShifter

/-- Not selected, and the clock is low. -/
structure Quiet (shifter : PsramShifter) : Prop where
  busy : shifter.busy = false
  sck : shifter.sck = false
  ceN : shifter.ceN = true

variable {shifter : PsramShifter} {final : BitVec 8} {addr saddr : BitVec 24}

theorem Quiet.next (quiet : shifter.Quiet) (final : BitVec 8) (addr : BitVec 24) :
    (shifter.next final false addr).Quiet ∧ (shifter.next final false addr).counter = 0#8 := by
  simp [PsramShifter.next, quiet.busy, quiet.sck, quiet.ceN, Quiet.mk]

theorem Quiet.start (quiet : shifter.Quiet) (final : BitVec 8) (addr : BitVec 24) :
    shifter.next final true addr = ⟨true, 0#8, addr, false, true⟩ := by
  simp [PsramShifter.next, quiet.busy, quiet.sck, quiet.ceN]

theorem next_select (more : 0#8 ≠ final + 1#8) (start : Bool) :
    PsramShifter.next ⟨true, 0#8, saddr, false, true⟩ final start addr =
      ⟨true, 0#8, saddr, false, false⟩ := by
  simp [PsramShifter.next, done, more]

theorem next_low {k : BitVec 8} (more : k ≠ final + 1#8) (start : Bool) :
    PsramShifter.next ⟨true, k, saddr, false, false⟩ final start addr =
      ⟨true, k, saddr, true, false⟩ := by
  simp [PsramShifter.next, done, more]

theorem next_high {k : BitVec 8} (more : k ≠ final + 1#8) (start : Bool) :
    PsramShifter.next ⟨true, k, saddr, true, false⟩ final start addr =
      ⟨true, k + 1#8, saddr, false, false⟩ := by
  simp [PsramShifter.next, done, more]

theorem next_done (start : Bool) :
    PsramShifter.next ⟨true, final + 1#8, saddr, false, false⟩ final start addr =
      ⟨false, final + 1#8, saddr, true, false⟩ := by
  simp [PsramShifter.next, done]

/-- Whatever the counter has become, the register is quiet in the cycle after the next. -/
theorem next_tail (k : BitVec 8) :
    (PsramShifter.next ⟨false, k, saddr, true, false⟩ final false addr).Quiet := by
  simp [PsramShifter.next, Quiet.mk]

end PsramShifter

/-!
## The sampled word
-/

/-- The bytes that are in by the time the counter is `k`, and the first half of the next. -/
def Sampled (data : BitVec 2 → Byte) (byte : Nat → Byte) (k : Nat) : Prop :=
  ∀ i < 4, (16 + 2 * i ≤ k → data (BitVec.ofNat 2 i) = byte i) ∧
    (k = 15 + 2 * i → (data (BitVec.ofNat 2 i)).extractLsb' 0 4 = (byte i).extractLsb' 4 4)

theorem sampled_early (data : BitVec 2 → Byte) (byte : Nat → Byte) {k : Nat} (early : k ≤ 14) :
    Sampled data byte k := fun i _ => ⟨fun late => by omega, fun late => by omega⟩

theorem append_nibbles (byte : Byte) :
    (byte.extractLsb' 4 4 ++ byte.extractLsb' 0 4 : BitVec 8) = byte := by
  apply BitVec.eq_of_getLsbD_eq
  intro i bound
  simp only [BitVec.getLsbD_append, BitVec.getLsbD_extractLsb']
  grind

theorem byteIndex_eq (reader : PsramReader) {i : Nat} (bound : i < 4) {k : Nat}
    (counter : reader.shifter.counter = BitVec.ofNat 8 k)
    (inByte : k = 14 + 2 * i ∨ k = 15 + 2 * i) :
    reader.byteIndex = BitVec.ofNat 2 i := by
  rw [PsramReader.byteIndex, counter]
  obtain rfl | rfl | rfl | rfl : i = 0 ∨ i = 1 ∨ i = 2 ∨ i = 3 := by omega
  all_goals
    obtain rfl | rfl := inByte
    all_goals rfl

theorem Sampled.next {reader : PsramReader} {byte : Nat → Byte} {k : Nat}
    (sampled : Sampled reader.data byte k) (counter : reader.shifter.counter = BitVec.ofNat 8 k)
    (most : k ≤ 21) (sck : reader.shifter.sck = true) {din : Nibble}
    (shown : ∀ i < 4, (k = 14 + 2 * i → din = (byte i).extractLsb' 4 4) ∧
      (k = 15 + 2 * i → din = (byte i).extractLsb' 0 4)) (rd : Bool) (addr : BitVec 24) :
    Sampled (reader.next rd addr din).data byte (k + 1) := by
  have value : (BitVec.ofNat 8 k).toNat = k := by
    rw [BitVec.toNat_ofNat, Nat.mod_eq_of_lt (by omega)]
  rcases Nat.lt_or_ge k 14 with early | late
  · exact sampled_early _ _ early
  · have window : 14#8 ≤ BitVec.ofNat 8 k ∧ BitVec.ofNat 8 k ≤ PsramReader.final := by
      rw [BitVec.le_def, BitVec.le_def, value]
      exact ⟨late, most⟩
    obtain ⟨i₀, bound₀, inByte⟩ : ∃ i < 4, k = 14 + 2 * i ∨ k = 15 + 2 * i :=
      ⟨(k - 14) / 2, by omega, by omega⟩
    have index := byteIndex_eq reader bound₀ counter inByte
    intro i bound
    have apart (other : i ≠ i₀) : BitVec.ofNat 2 i ≠ BitVec.ofNat 2 i₀ := by
      rw [Ne, ← BitVec.toNat_inj, BitVec.toNat_ofNat, BitVec.toNat_ofNat]
      omega
    simp only [PsramReader.next, counter, window, sck, index, and_self, if_true]
    by_cases here : i = i₀
    · subst here
      rw [Function.update_self]
      rcases inByte with first | second
      · refine ⟨fun late => by omega, fun _ => ?_⟩
        rw [(shown i bound).1 first, BitVec.extractLsb'_append_eq_right]
      · refine ⟨fun _ => ?_, fun late => by omega⟩
        rw [(sampled i bound).2 second, (shown i bound).2 second, append_nibbles]
    · rw [Function.update_of_ne (apart here)]
      exact ⟨fun past => (sampled i bound).1 (by omega), fun now => by omega⟩

/-!
## The controller between transfers
-/

/-- The bytes of a word from `addr` on, the lowest first. -/
def psramWordAt (host : Host) (addr : BitVec 24) : BitVec 32 :=
  host .psram (addr.toNat + 3) ++ host .psram (addr.toNat + 2) ++ host .psram (addr.toNat + 1) ++
    host .psram addr.toNat

/-- The address of a read, and that of a write. -/
def ApbReq.readAddr (req : ApbReq) : BitVec 24 := req.paddr.extractLsb' 2 22 ++ 0#2
def ApbReq.writeAddr (req : ApbReq) : BitVec 24 := req.paddr.extractLsb' 0 24

/-- The number of bytes and the bytes of a write. -/
def ApbReq.count (req : ApbReq) : Nat := (selSize req.pstrb).toNat

def ApbReq.line (req : ApbReq) : BitVec 32 := selData req.pstrb req.pwdata

/-- What the host has after a transfer. -/
def ApbReq.hostAfter (req : ApbReq) (host : Host) : Host :=
  if req.pwrite then
    Function.update host .psram
      (blit (host .psram) req.writeAddr.toNat ((List.range req.count).map (lane req.line)))
  else host

/-- Ready for a request. -/
structure Calm (sys : PsramSystem) (host : Host) : Prop where
  state : sys.ctrl.state = .idle
  reader : sys.ctrl.reader.shifter.Quiet
  writer : sys.ctrl.writer.Quiet
  settles : Settles sys host

/-- Neither the reader nor the writer has counted. -/
def Uncounted (ctrl : PsramCtrl) : Prop :=
  ctrl.reader.shifter.counter = 0#8 ∧ ctrl.writer.counter = 0#8

/-- A read with `k` nibbles taken, while the clock is high when `rise` is set. -/
structure Reading (sys : PsramSystem) (req : ApbReq) (host : Host) (k : Nat) (rise : Bool) :
    Prop where
  state : sys.ctrl.state = .wait
  shifter : sys.ctrl.reader.shifter = ⟨true, BitVec.ofNat 8 k, req.readAddr, rise, false⟩
  writer : sys.ctrl.writer.Quiet
  sampled : Sampled sys.ctrl.reader.data (fun i => host .psram (req.readAddr.toNat + i)) k
  serial : ∃ outs last, Serial sys (readNibbles req.readAddr) outs last k rise ∧
    ReadRun host req.readAddr outs last

/-- A write with `k` nibbles taken. -/
structure Writing (sys : PsramSystem) (req : ApbReq) (host : Host) (k : Nat) (rise : Bool) :
    Prop where
  state : sys.ctrl.state = .wait
  shifter : sys.ctrl.writer = ⟨true, BitVec.ofNat 8 k, req.writeAddr, rise, false⟩
  reader : sys.ctrl.reader.shifter.Quiet
  serial : ∃ last next, Serial sys (writeNibbles req.writeAddr req.line req.count)
      (List.replicate (8 + 2 * req.count) none) last k rise ∧
    last.posedgeCeN = some next ∧ next.Rests (req.hostAfter host)

/-- The cycle in which the select goes low. -/
structure Selecting (sys : PsramSystem) (req : ApbReq) (host : Host) : Prop where
  state : sys.ctrl.state = .wait
  reader : if req.pwrite then sys.ctrl.reader.shifter.Quiet
    else sys.ctrl.reader.shifter = ⟨true, 0#8, req.readAddr, false, true⟩
  writer : if req.pwrite then sys.ctrl.writer = ⟨true, 0#8, req.writeAddr, false, true⟩
    else sys.ctrl.writer.Quiet
  settles : Settles sys host

/-- The clock after the last: the chip sees one more edge after a read. -/
structure Ending (sys : PsramSystem) (host : Host) : Prop where
  state : sys.ctrl.state = .idle
  tails : (sys.ctrl.reader.shifter.Quiet ∧
      (∃ k saddr, sys.ctrl.writer = ⟨false, k, saddr, true, false⟩) ∧ Settles sys host) ∨
    (sys.ctrl.writer.Quiet ∧
      (∃ saddr, sys.ctrl.reader.shifter = ⟨false, 22#8, saddr, true, false⟩) ∧
      ∃ addr outs last, Serial sys (readNibbles addr) outs last 22 true ∧
        ReadRun host addr outs last)

section Cycle

variable {sys : PsramSystem} {req : ApbReq} {float : Nibble} {host : Host}

theorem pins_of_idle (state : sys.ctrl.state ≠ .init) :
    sys.ctrl.pins req =
      if PsramCtrl.we req then
        ⟨sys.ctrl.writer.sck, sys.ctrl.writer.ceN, writerDout sys.ctrl.writer req.line,
          !sys.ctrl.writer.ceN⟩
      else
        ⟨sys.ctrl.reader.shifter.sck, sys.ctrl.reader.shifter.ceN, sys.ctrl.reader.dout,
          sys.ctrl.reader.doutEn⟩ := by
  cases here : sys.ctrl.state with
  | init => exact absurd here state
  | idle | wait => simp [PsramCtrl.pins, here, ApbReq.line]

theorem step_reader : (sys.step req float).ctrl.reader.shifter =
    sys.ctrl.reader.shifter.next PsramReader.final (sys.ctrl.state == .idle && PsramCtrl.re req)
      req.readAddr := rfl

theorem step_writer : (sys.step req float).ctrl.writer =
    sys.ctrl.writer.next (PsramCtrl.writeFinal req) (sys.ctrl.state == .idle && PsramCtrl.we req)
      req.writeAddr := rfl

theorem Calm.high (calm : Calm sys host) :
    (sys.ctrl.pins req).sck = false ∧ (sys.ctrl.pins req).ceN = true := by
  rw [pins_of_idle (by rw [calm.state]; decide)]
  cases PsramCtrl.we req with
  | true => exact ⟨calm.writer.sck, calm.writer.ceN⟩
  | false => exact ⟨calm.reader.sck, calm.reader.ceN⟩

theorem Calm.unselected (calm : Calm sys host) (psel : req.psel = false) :
    Calm (sys.step req float) host ∧ Uncounted (sys.step req float).ctrl := by
  have high := @Calm.high _ req _ calm
  have reads : PsramCtrl.re req = false := by simp [PsramCtrl.re, psel]
  have writes : PsramCtrl.we req = false := by simp [PsramCtrl.we, psel]
  obtain ⟨reader, readCount⟩ := calm.reader.next PsramReader.final req.readAddr
  obtain ⟨writer, writeCount⟩ := calm.writer.next (PsramCtrl.writeFinal req) req.writeAddr
  refine ⟨⟨?_, ?_, ?_, calm.settles.high high.1 high.2⟩, ?_, ?_⟩
  · simp [PsramSystem.step, PsramCtrl.next, calm.state, psel]
  · rwa [step_reader, reads, Bool.and_false]
  · rwa [step_writer, writes, Bool.and_false]
  · rwa [step_reader, reads, Bool.and_false]
  · rwa [step_writer, writes, Bool.and_false]

theorem Calm.selected (calm : Calm sys host) (psel : req.psel = true) :
    Selecting (sys.step req float) req host := by
  have high := @Calm.high _ req _ calm
  have state : (sys.step req float).ctrl.state = .wait := by
    simp [PsramSystem.step, PsramCtrl.next, calm.state, psel]
  refine ⟨state, ?_, ?_, calm.settles.high high.1 high.2⟩
  · rw [step_reader, calm.state]
    cases write : req.pwrite with
    | true => simpa [PsramCtrl.re, write] using (calm.reader.next PsramReader.final _).1
    | false => simpa [PsramCtrl.re, write, psel] using calm.reader.start PsramReader.final _
  · rw [step_writer, calm.state]
    cases write : req.pwrite with
    | true => simpa [PsramCtrl.we, write, psel] using calm.writer.start (PsramCtrl.writeFinal req) _
    | false => simpa [PsramCtrl.we, write] using (calm.writer.next (PsramCtrl.writeFinal req) _).1

/-!
## A read
-/

section Read

variable (psel : req.psel = true) (isRead : req.pwrite = false)
include psel isRead

theorem we_of_read : PsramCtrl.we req = false ∧ PsramCtrl.re req = true := by
  simp [PsramCtrl.we, PsramCtrl.re, psel, isRead]

theorem pready_of_read : (sys.ctrl.resp req).pready = sys.ctrl.readDone := by
  simp [PsramCtrl.resp, (we_of_read psel isRead).1, psel]

theorem state_of_read (state : sys.ctrl.state = .wait) :
    (sys.step req float).ctrl.state = if sys.ctrl.readDone then .idle else .wait := by
  simp [PsramSystem.step, PsramCtrl.next, state, we_of_read psel isRead]

theorem Selecting.reads (selecting : Selecting sys req host) :
    (sys.ctrl.resp req).pready = false ∧ Reading (sys.step req float) req host 0 false := by
  have reader := selecting.reader
  have writer := selecting.writer
  have notWrite : ¬ req.pwrite = true := by simp [isRead]
  rw [if_neg notWrite] at reader writer
  have pins := @pins_of_idle _ req (selecting.state.trans_ne (by decide))
  rw [if_neg (by simp [(we_of_read psel isRead).1]), reader] at pins
  have more : sys.ctrl.readDone = false := by
    rw [PsramCtrl.readDone, reader]
    rfl
  obtain ⟨first, rests, starts⟩ := @Settles.select _ req float _ selecting.settles
    (by rw [pins]) (by rw [pins])
  obtain ⟨outs, last, run, spec⟩ := rests.exists_read req.readAddr
  refine ⟨(pready_of_read psel isRead).trans more, ?_, ?_, ?_, sampled_early _ _ (by decide),
    outs, last, starts _ _ _ run, spec⟩
  · rw [state_of_read psel isRead selecting.state, more]
    rfl
  · rw [step_reader, reader, PsramShifter.next_select (by decide)]
  · rw [step_writer, selecting.state]
    exact (writer.next _ _).1

variable {k : Nat} {rise : Bool}

theorem Reading.pins (reading : Reading sys req host k rise) :
    sys.ctrl.pins req =
      ⟨rise, false, sys.ctrl.reader.dout, sys.ctrl.reader.doutEn⟩ := by
  rw [pins_of_idle (reading.state.trans_ne (by decide)),
    if_neg (by simp [(we_of_read psel isRead).1]), reading.shifter]

omit psel isRead in
theorem Reading.readDone (reading : Reading sys req host k rise) (most : k ≤ 22) :
    sys.ctrl.readDone = decide (k = 22) := by
  have value : (BitVec.ofNat 8 k).toNat = k := by
    rw [BitVec.toNat_ofNat, Nat.mod_eq_of_lt (by omega)]
  have last : (PsramReader.final + 1#8).toNat = 22 := rfl
  rw [PsramCtrl.readDone, PsramShifter.done, reading.shifter, Bool.eq_iff_iff, beq_iff_eq,
    decide_eq_true_iff, ← BitVec.toNat_inj, value, last]

omit psel isRead in
theorem Reading.more (reading : Reading sys req host k rise) (most : k ≤ 21) :
    BitVec.ofNat 8 k ≠ PsramReader.final + 1#8 := by
  have notDone := reading.readDone (Nat.le_succ_of_le most)
  rw [PsramCtrl.readDone, PsramShifter.done, reading.shifter,
    decide_eq_false (Nat.ne_of_lt (Nat.lt_succ_of_le most))] at notDone
  exact beq_eq_false_iff_ne.mp notDone

theorem Reading.low (reading : Reading sys req host k false) (most : k ≤ 21) :
    (sys.ctrl.resp req).pready = false ∧ Reading (sys.step req float) req host k true := by
  have done := (reading.readDone (Nat.le_succ_of_le most)).trans (decide_eq_false (by omega))
  have pins := reading.pins psel isRead
  obtain ⟨outs, last, serial, spec⟩ := reading.serial
  refine ⟨(pready_of_read psel isRead).trans done, ?_, ?_, ?_, ?_, outs, last,
    serial.low (by rw [pins]) (by rw [pins]), spec⟩
  · rw [state_of_read psel isRead reading.state, done]
    rfl
  · rw [step_reader, reading.shifter, PsramShifter.next_low (reading.more most)]
  · rw [step_writer, reading.state]
    exact (reading.writer.next _ _).1
  · simpa [PsramSystem.step, PsramCtrl.next, PsramReader.next, reading.shifter]
      using reading.sampled

omit psel isRead in
/-- The nibbles of the word as the chip shows them. -/
theorem getD_nibbles (mem : Nat → Byte) (start : Nat) {i : Nat} (bound : i < 4) :
    ((slice mem start 4).flatMap nibbles).getD (2 * i) 0#4 = (mem (start + i)).extractLsb' 4 4 ∧
      ((slice mem start 4).flatMap nibbles).getD (2 * i + 1) 0#4 =
        (mem (start + i)).extractLsb' 0 4 := by
  obtain rfl | rfl | rfl | rfl : i = 0 ∨ i = 1 ∨ i = 2 ∨ i = 3 := by omega
  all_goals exact ⟨rfl, rfl⟩

/-- The command and the address come from the controller; after them the chip has the pins. -/
theorem Reading.carried (reading : Reading sys req host k true) (most : k ≤ 21)
    {outs : List (Option Nibble)} {last : Psram} (spec : ReadRun host req.readAddr outs last)
    (within : k < (readNibbles req.readAddr).length) (chip : Psram)
    (shown : outs.getD k none = chip.shows) :
    chip.posedgeSck (qspiDio (sys.ctrl.pins req) chip float) =
      chip.posedgeSck ((readNibbles req.readAddr).get ⟨k, within⟩) := by
  have pins := reading.pins psel isRead
  have value : (BitVec.ofNat 8 k).toNat = k := by
    rw [BitVec.toNat_ofNat, Nat.mod_eq_of_lt (by omega)]
  rcases Nat.lt_or_ge k 8 with early | late
  · have drives : sys.ctrl.reader.doutEn = true := by
      rw [PsramReader.doutEn, reading.shifter, decide_eq_true_iff, BitVec.lt_def, value]
      exact early
    rw [pins, qspiDio_of_shows_none drives ((spec.header k early).symm.trans shown),
      PsramReader.dout, PsramShifter.dout, reading.shifter, value]
    congr 1
    obtain rfl | rfl | rfl | rfl | rfl | rfl | rfl | rfl :
      k = 0 ∨ k = 1 ∨ k = 2 ∨ k = 3 ∨ k = 4 ∨ k = 5 ∨ k = 6 ∨ k = 7 := by omega
    all_goals rfl
  · obtain ⟨n, here⟩ := spec.body k late (by omega)
    rw [here] at shown
    refine Psram.posedgeSck_of_doutEn ?_ _ _
    simp only [Psram.shows, Option.some_eq_ite_none_right] at shown
    exact shown.1

theorem Reading.high (reading : Reading sys req host k true) (most : k ≤ 21) :
    (sys.ctrl.resp req).pready = false ∧ Reading (sys.step req float) req host (k + 1) false := by
  have done := (reading.readDone (Nat.le_succ_of_le most)).trans (decide_eq_false (by omega))
  have pins := reading.pins psel isRead
  obtain ⟨outs, last, serial, spec⟩ := reading.serial
  have length := length_readNibbles req.readAddr
  have next : Serial (sys.step req float) (readNibbles req.readAddr) outs last (k + 1) false :=
    serial.high (by rw [pins]) (by rw [pins]) (by omega)
      fun chip _ shown => reading.carried psel isRead most spec _ chip shown
  refine ⟨(pready_of_read psel isRead).trans done, ?_, ?_, ?_, ?_, outs, last, next, spec⟩
  · rw [state_of_read psel isRead reading.state, done]
    rfl
  · rw [step_reader, reading.shifter, PsramShifter.next_high (reading.more most), BitVec.ofNat_add]
  · rw [step_writer, reading.state]
    exact (reading.writer.next _ _).1
  · -- the chip shows the next nibble as soon as it has seen the edge
    refine reading.sampled.next (by rw [reading.shifter]) most (by rw [reading.shifter]) ?_ _ _
    obtain ⟨chip, held, shown⟩ := next.shown (by omega)
    have sampled (j : Nat) (here : k = 14 + j) (few : j < 8) : sys.din req float =
        ((slice (host .psram) req.readAddr.toNat 4).flatMap nibbles).getD j 0#4 := by
      have value : (BitVec.ofNat 8 k).toNat = k := by
        rw [BitVec.toNat_ofNat, Nat.mod_eq_of_lt (by omega)]
      have silent : (sys.ctrl.pins req).doutEn = false := by
        rw [pins]
        show sys.ctrl.reader.doutEn = false
        rw [PsramReader.doutEn, reading.shifter, decide_eq_false_iff_not, BitVec.lt_def, value]
        have eight : (8#8).toNat = 8 := rfl
        omega
      have place : k + 1 = 15 + j := by omega
      rw [place, spec.data j few] at shown
      have here : sys.chipNext req float = some chip := held
      rw [PsramSystem.din, here]
      exact qspiDio_of_shows silent shown float
    intro i bound
    obtain ⟨first, second⟩ := getD_nibbles (host .psram) req.readAddr.toNat bound
    exact ⟨fun here => (sampled (2 * i) here (by omega)).trans first,
      fun here => (sampled (2 * i + 1) (by omega) (by omega)).trans second⟩

theorem Reading.done (reading : Reading sys req host 22 false) :
    (sys.ctrl.resp req).pready = true ∧
      (sys.ctrl.resp req).prdata = psramWordAt host req.readAddr ∧
      Ending (sys.step req float) host := by
  have done := reading.readDone (Nat.le_refl 22)
  have pins := reading.pins psel isRead
  obtain ⟨outs, last, serial, spec⟩ := reading.serial
  refine ⟨(pready_of_read psel isRead).trans done, ?_, ?_, .inr ⟨?_, ⟨req.readAddr, ?_⟩,
    req.readAddr, outs, last, serial.low (by rw [pins]) (by rw [pins]), spec⟩⟩
  · have byte (i : Nat) (bound : i < 4) := (reading.sampled i bound).1 (by omega)
    simp only [PsramCtrl.resp, PsramReader.line, psramWordAt]
    exact congr (congrArg HAppend.hAppend (congr (congrArg HAppend.hAppend
      (congr (congrArg HAppend.hAppend (byte 3 (by decide))) (byte 2 (by decide))))
      (byte 1 (by decide)))) (byte 0 (by decide))
  · rw [state_of_read psel isRead reading.state, done]
    rfl
  · rw [step_writer, reading.state]
    exact (reading.writer.next _ _).1
  · rw [step_reader, reading.shifter]
    exact @PsramShifter.next_done PsramReader.final _ _ _

end Read

/-!
## A write
-/

theorem count_cases (req : ApbReq) : req.count = 1 ∨ req.count = 2 ∨ req.count = 4 := by
  simp only [ApbReq.count, selSize]
  split_ifs
  · exact .inl rfl
  · exact .inr (.inl rfl)
  · exact .inr (.inr rfl)

/-- The counter of a write ends behind its last nibble. -/
theorem writeFinal_add (req : ApbReq) :
    PsramCtrl.writeFinal req + 1#8 = BitVec.ofNat 8 (8 + 2 * req.count) := by
  simp only [PsramCtrl.writeFinal, writerFinal, ApbReq.count, selSize]
  split_ifs <;> rfl

section Write

variable (psel : req.psel = true) (isWrite : req.pwrite = true)
include psel isWrite

theorem we_of_write : PsramCtrl.we req = true ∧ PsramCtrl.re req = false := by
  simp [PsramCtrl.we, PsramCtrl.re, psel, isWrite]

theorem pready_of_write : (sys.ctrl.resp req).pready = sys.ctrl.writeDone req := by
  simp [PsramCtrl.resp, (we_of_write psel isWrite).1, psel]

theorem state_of_write (state : sys.ctrl.state = .wait) :
    (sys.step req float).ctrl.state = if sys.ctrl.writeDone req then .idle else .wait := by
  simp [PsramSystem.step, PsramCtrl.next, state, we_of_write psel isWrite]

variable {k : Nat} {rise : Bool}

theorem Writing.pins (writing : Writing sys req host k rise) :
    sys.ctrl.pins req = ⟨rise, false, writerDout sys.ctrl.writer req.line, true⟩ := by
  rw [pins_of_idle (writing.state.trans_ne (by decide)),
    if_pos (we_of_write psel isWrite).1, writing.shifter]
  rfl

omit psel isWrite in
theorem Writing.writeDone (writing : Writing sys req host k rise) (most : k ≤ 8 + 2 * req.count) :
    sys.ctrl.writeDone req = decide (k = 8 + 2 * req.count) := by
  have few := count_cases req
  have value {j : Nat} (small : j ≤ 16) : (BitVec.ofNat 8 j).toNat = j := by
    rw [BitVec.toNat_ofNat, Nat.mod_eq_of_lt (by omega)]
  rw [PsramCtrl.writeDone, PsramShifter.done, writing.shifter, writeFinal_add, Bool.eq_iff_iff,
    beq_iff_eq, decide_eq_true_iff, ← BitVec.toNat_inj, value (by omega), value (by omega)]

omit psel isWrite in
theorem Writing.more (writing : Writing sys req host k rise) (most : k < 8 + 2 * req.count) :
    BitVec.ofNat 8 k ≠ PsramCtrl.writeFinal req + 1#8 := by
  have notDone := writing.writeDone (Nat.le_of_lt most)
  rw [PsramCtrl.writeDone, PsramShifter.done, writing.shifter,
    decide_eq_false (Nat.ne_of_lt most)] at notDone
  exact beq_eq_false_iff_ne.mp notDone

theorem Selecting.writes (selecting : Selecting sys req host) :
    (sys.ctrl.resp req).pready = false ∧ Writing (sys.step req float) req host 0 false := by
  have reader := selecting.reader
  have writer := selecting.writer
  rw [if_pos isWrite] at reader writer
  have pins := @pins_of_idle _ req (selecting.state.trans_ne (by decide))
  rw [if_pos (we_of_write psel isWrite).1, writer] at pins
  have more : 0#8 ≠ PsramCtrl.writeFinal req + 1#8 := by
    rw [writeFinal_add]
    obtain few | few | few := count_cases req <;> rw [few] <;> decide
  have notDone : sys.ctrl.writeDone req = false := by
    rw [PsramCtrl.writeDone, writer]
    exact beq_eq_false_iff_ne.mpr more
  obtain ⟨first, rests, starts⟩ := @Settles.select _ req float _ selecting.settles
    (by rw [pins]) (by rw [pins])
  obtain ⟨last, next, run, edge, rests'⟩ :=
    rests.exists_write req.writeAddr req.line (count_cases req)
  refine ⟨(pready_of_write psel isWrite).trans notDone, ?_, ?_, ?_, last, next,
    starts _ _ _ run, edge, ?_⟩
  · rw [state_of_write psel isWrite selecting.state, notDone]
    rfl
  · rw [step_writer, writer, PsramShifter.next_select more]
  · rw [step_reader, selecting.state]
    exact (reader.next _ _).1
  · rwa [ApbReq.hostAfter, if_pos isWrite]

theorem Writing.low (writing : Writing sys req host k false) (most : k < 8 + 2 * req.count) :
    (sys.ctrl.resp req).pready = false ∧ Writing (sys.step req float) req host k true := by
  have done := (writing.writeDone (Nat.le_of_lt most)).trans (decide_eq_false (Nat.ne_of_lt most))
  have pins := writing.pins psel isWrite
  obtain ⟨last, next, serial, ends⟩ := writing.serial
  refine ⟨(pready_of_write psel isWrite).trans done, ?_, ?_, ?_, last, next,
    serial.low (by rw [pins]) (by rw [pins]), ends⟩
  · rw [state_of_write psel isWrite writing.state, done]
    rfl
  · rw [step_writer, writing.shifter, PsramShifter.next_low (writing.more most)]
  · rw [step_reader, writing.state]
    exact (writing.reader.next _ _).1

omit psel isWrite in
/-- The writer shows the nibbles of the transaction one after the other. -/
theorem writerDout_eq (req : ApbReq) {shifter : PsramShifter}
    (saddr : shifter.saddr = req.writeAddr) (counter : shifter.counter = BitVec.ofNat 8 k)
    (within : k < (writeNibbles req.writeAddr req.line req.count).length) :
    writerDout shifter req.line =
      (writeNibbles req.writeAddr req.line req.count).get ⟨k, within⟩ := by
  have length := length_writeNibbles req.writeAddr req.line req.count
  have few := count_cases req
  have value : shifter.counter.toNat = k := by
    rw [counter, BitVec.toNat_ofNat, Nat.mod_eq_of_lt (by omega)]
  obtain ⟨rest, whole⟩ : ∃ rest, (List.range 4).flatMap (fun i => nibbles (lane req.line i)) =
      ((List.range req.count).map (lane req.line)).flatMap nibbles ++ rest := by
    obtain few | few | few := few
    all_goals
      rw [few]
      exact ⟨_, rfl⟩
  have start : nibbles wcmd ++ addrNibbles shifter.saddr ++
      (List.range 4).flatMap (fun i => nibbles (lane req.line i)) =
        writeNibbles req.writeAddr req.line req.count ++ rest := by
    rw [whole, saddr, ← List.append_assoc]
    rfl
  rw [writerDout, PsramShifter.dout, start, value, List.getD_append _ _ _ _ within,
    List.getD_eq_getElem _ _ within, List.get_eq_getElem]

theorem Writing.high (writing : Writing sys req host k true) (most : k < 8 + 2 * req.count) :
    (sys.ctrl.resp req).pready = false ∧ Writing (sys.step req float) req host (k + 1) false := by
  have done := (writing.writeDone (Nat.le_of_lt most)).trans (decide_eq_false (Nat.ne_of_lt most))
  have pins := writing.pins psel isWrite
  have length := length_writeNibbles req.writeAddr req.line req.count
  obtain ⟨last, next, serial, ends⟩ := writing.serial
  have within : k < (writeNibbles req.writeAddr req.line req.count).length := by omega
  refine ⟨(pready_of_write psel isWrite).trans done, ?_, ?_, ?_, last, next,
    serial.high (by rw [pins]) (by rw [pins]) within fun chip _ shown => ?_, ends⟩
  · rw [state_of_write psel isWrite writing.state, done]
    rfl
  · rw [step_writer, writing.shifter, PsramShifter.next_high (writing.more most), BitVec.ofNat_add]
  · rw [step_reader, writing.state]
    exact (writing.reader.next _ _).1
  · have silent : none = chip.shows := by rw [← shown, List.getD_replicate _ most]
    rw [pins, qspiDio_of_shows_none rfl silent]
    exact congrArg _ (writerDout_eq req (by rw [writing.shifter]) (by rw [writing.shifter]) within)

theorem Writing.done (writing : Writing sys req host (8 + 2 * req.count) false) :
    (sys.ctrl.resp req).pready = true ∧ Ending (sys.step req float) (req.hostAfter host) := by
  have done := (writing.writeDone (Nat.le_refl _)).trans (decide_eq_true rfl)
  have pins := writing.pins psel isWrite
  obtain ⟨last, next, serial, edge, rests⟩ := writing.serial
  have low : Serial (sys.step req float) _ _ _ _ true :=
    serial.low (by rw [pins]) (by rw [pins])
  have settles := low.settles
    (length_writeNibbles _ _ _).symm (Nat.add_pos_left (by decide) _) edge rests
  refine ⟨(pready_of_write psel isWrite).trans done, ?_, .inl ⟨?_,
    ⟨PsramCtrl.writeFinal req + 1#8, req.writeAddr, ?_⟩, settles⟩⟩
  · rw [state_of_write psel isWrite writing.state, done]
    rfl
  · rw [step_reader, writing.state]
    exact (writing.reader.next _ _).1
  · rw [step_writer, writing.shifter, ← writeFinal_add]
    exact PsramShifter.next_done _

end Write

/-!
## After a transfer
-/

theorem Ending.next (ending : Ending sys host) (psel : req.psel = false) :
    Calm (sys.step req float) host := by
  have reads : PsramCtrl.re req = false := by simp [PsramCtrl.re, psel]
  have writes : PsramCtrl.we req = false := by simp [PsramCtrl.we, psel]
  have state : (sys.step req float).ctrl.state = .idle := by
    simp [PsramSystem.step, PsramCtrl.next, ending.state, psel]
  have pins := @pins_of_idle _ req (ending.state.trans_ne (by decide))
  rw [writes, if_neg Bool.false_ne_true] at pins
  obtain ⟨reader, ⟨k, saddr, writer⟩, settles⟩ | ⟨writer, ⟨saddr, reader⟩, addr, outs, last, serial,
    spec⟩ := ending.tails
  · refine ⟨state, ?_, ?_, settles.high ?_ ?_⟩
    · rw [step_reader, reads, Bool.and_false]
      exact (reader.next _ _).1
    · rw [step_writer, writes, Bool.and_false, writer]
      exact PsramShifter.next_tail k
    · rw [pins]
      exact reader.sck
    · rw [pins]
      exact reader.ceN
  · have length := length_readNibbles addr
    obtain ⟨n, here⟩ := spec.body 22 (by decide) (by decide)
    have next : Serial (sys.step req float) (readNibbles addr) outs last 23 false := by
      refine serial.high (by rw [pins, reader]) (by rw [pins, reader]) (by omega)
        fun chip _ shown => ?_
      rw [here] at shown
      refine Psram.posedgeSck_of_doutEn ?_ _ _
      simp only [Psram.shows, Option.some_eq_ite_none_right] at shown
      exact shown.1
    obtain ⟨rest, edge, rests⟩ := spec.ends
    refine ⟨state, ?_, ?_, next.settles length.symm (by decide) edge rests⟩
    · rw [step_reader, reads, Bool.and_false, reader]
      exact PsramShifter.next_tail _
    · rw [step_writer, writes, Bool.and_false]
      exact (writer.next _ _).1

/-!
## Initialisation
-/

/-- `k` bits of the command that changes the mode are sent. -/
structure EntersQpi (sys : PsramSystem) (host : Host) (k : Nat) (rise : Bool) : Prop where
  state : sys.ctrl.state = .init
  init : sys.ctrl.init = ⟨BitVec.ofNat 8 k, rise, false⟩
  reader : sys.ctrl.reader.shifter.Quiet
  writer : sys.ctrl.writer.Quiet
  uncounted : Uncounted sys.ctrl
  serial : ∃ outs last next, Serial sys initNibbles outs last k rise ∧
    (∀ k < 8, outs.getD k none = none) ∧ last.posedgeCeN = some next ∧ next.Rests host

theorem init_waits (state : sys.ctrl.state = .init) (reader : sys.ctrl.reader.shifter.Quiet)
    (writer : sys.ctrl.writer.Quiet) :
    (sys.step req float).ctrl.reader.shifter.Quiet ∧ (sys.step req float).ctrl.writer.Quiet ∧
      Uncounted (sys.step req float).ctrl := by
  have reader' := reader.next PsramReader.final req.readAddr
  have writer' := writer.next (PsramCtrl.writeFinal req) req.writeAddr
  refine ⟨?_, ?_, ?_, ?_⟩
  · rw [step_reader, state]
    exact reader'.1
  · rw [step_writer, state]
    exact writer'.1
  · rw [step_reader, state]
    exact reader'.2
  · rw [step_writer, state]
    exact writer'.2

theorem Uncounted.pready (uncounted : Uncounted sys.ctrl) : (sys.ctrl.resp req).pready = false := by
  have read : sys.ctrl.readDone = false := by
    rw [PsramCtrl.readDone, PsramShifter.done, uncounted.1]
    rfl
  have write : sys.ctrl.writeDone req = false := by
    rw [PsramCtrl.writeDone, PsramShifter.done, uncounted.2, writeFinal_add]
    obtain few | few | few := count_cases req <;> rw [few] <;> rfl
  simp [PsramCtrl.resp, read, write]

theorem entersQpi_reset {data : BitVec 2 → Byte} {chip : Psram} (ready : chip.Ready)
    (spi : chip.qpiMode = false) :
    EntersQpi ((PsramSystem.reset data chip).step req float) chip.host 0 false := by
  obtain ⟨reader, writer, uncounted⟩ := @init_waits (.reset data chip) req float rfl
    ⟨rfl, rfl, rfl⟩ ⟨rfl, rfl, rfl⟩
  obtain ⟨outs, last, next, run, silent, edge, rests⟩ := exists_enterQpi ready spi
  refine ⟨rfl, rfl, reader, writer, uncounted, outs, last, next, ⟨⟨chip, run, chip, ?_, rfl⟩,
    rfl, rfl⟩, silent, edge, rests⟩
  simp [PsramSystem.step, PsramSystem.chipNext, PsramSystem.reset, PsramCtrl.pins, PsramCtrl.reset,
    PsramInit.reset, Psram.edges_high]

variable {k : Nat} {rise : Bool}

theorem EntersQpi.pins (enters : EntersQpi sys host k rise) :
    sys.ctrl.pins req = ⟨rise, false, sys.ctrl.init.dout, true⟩ := by
  simp [PsramCtrl.pins, enters.state, enters.init]

theorem EntersQpi.done (enters : EntersQpi sys host k rise) (most : k ≤ 8) :
    sys.ctrl.init.done = decide (k = 8) := by
  have value : (BitVec.ofNat 8 k).toNat = k := by
    rw [BitVec.toNat_ofNat, Nat.mod_eq_of_lt (by omega)]
  have last : (8#8).toNat = 8 := rfl
  rw [PsramInit.done, enters.init, Bool.eq_iff_iff, beq_iff_eq, decide_eq_true_iff,
    ← BitVec.toNat_inj, value, last]

theorem EntersQpi.low (enters : EntersQpi sys host k false) (more : k < 8) :
    EntersQpi (sys.step req float) host k true := by
  obtain ⟨reader, writer, uncounted⟩ := init_waits enters.state enters.reader enters.writer
  obtain ⟨outs, last, next, serial, rest⟩ := enters.serial
  have done := (enters.done (Nat.le_of_lt more)).trans (decide_eq_false (Nat.ne_of_lt more))
  refine ⟨?_, ?_, reader, writer, uncounted, outs, last, next,
    serial.low (by rw [enters.pins]) (by rw [enters.pins]), rest⟩
  · simp [PsramSystem.step, PsramCtrl.next, enters.state, done]
  · simp [PsramSystem.step, PsramCtrl.next, PsramInit.next, enters.state, enters.init]

theorem EntersQpi.high (enters : EntersQpi sys host k true) (more : k < 8) :
    EntersQpi (sys.step req float) host (k + 1) false := by
  obtain ⟨reader, writer, uncounted⟩ := init_waits enters.state enters.reader enters.writer
  obtain ⟨outs, last, next, serial, silent, rest⟩ := enters.serial
  have done := (enters.done (Nat.le_of_lt more)).trans (decide_eq_false (Nat.ne_of_lt more))
  have within : k < initNibbles.length := more
  refine ⟨?_, ?_, reader, writer, uncounted, outs, last, next,
    serial.high (by rw [enters.pins]) (by rw [enters.pins]) within fun chip _ shown => ?_,
    silent, rest⟩
  · simp [PsramSystem.step, PsramCtrl.next, enters.state, done]
  · rw [enters.init] at done
    simp [PsramSystem.step, PsramCtrl.next, PsramInit.next, enters.state, enters.init, done,
      BitVec.ofNat_add]
  · rw [enters.pins, qspiDio_of_shows_none rfl ((silent k more).symm.trans shown),
      PsramInit.dout, enters.init]
    congr 1
    obtain rfl | rfl | rfl | rfl | rfl | rfl | rfl | rfl :
      k = 0 ∨ k = 1 ∨ k = 2 ∨ k = 3 ∨ k = 4 ∨ k = 5 ∨ k = 6 ∨ k = 7 := by omega
    all_goals rfl

/-- The mode is changed when the select rises with the first cycle of the idle state. -/
theorem EntersQpi.finished (enters : EntersQpi sys host 8 false) :
    Calm (sys.step req float) host ∧ Uncounted (sys.step req float).ctrl := by
  obtain ⟨reader, writer, uncounted⟩ :=
    @init_waits _ req float enters.state enters.reader enters.writer
  obtain ⟨outs, last, next, serial, _, edge, rests⟩ := enters.serial
  have done := (enters.done (Nat.le_refl 8)).trans (decide_eq_true rfl)
  have low : Serial (sys.step req float) _ _ _ _ true :=
    serial.low (by rw [enters.pins]) (by rw [enters.pins])
  have settles := low.settles rfl (by decide) edge rests
  refine ⟨⟨?_, reader, writer, settles⟩, uncounted⟩
  simp [PsramSystem.step, PsramCtrl.next, enters.state, done]

end Cycle

end Ysyx.Soc
