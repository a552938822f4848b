import Ysyx.Soc.SdramBurst
import Ysyx.Soc.SdramChips

/-! The counters of the chip against the bursts on its bus: writes with gaps are stored beat by
beat, every READ brings its beats in time and one more behind them. -/

set_option autoImplicit false

namespace Ysyx.Soc

namespace Sdram32mx16

variable {chip : Sdram32mx16} {pins : SdramChipPins}

/-!
## The counters as numbers
-/

theorem length_bounds (chip : Sdram32mx16) : 1 ≤ chip.length.toNat ∧ chip.length.toNat ≤ 8 := by
  rw [length]
  split_ifs <;> decide

/-- Without a WRITE the counter runs on from a nonzero value to the length. -/
theorem toNat_wCounter_next (noWrite : pins.command ≠ .write) :
    (chip.selected pins).wCounter.toNat =
      if 0 < chip.wCounter.toNat ∧ chip.wCounter.toNat < chip.length.toNat then
        chip.wCounter.toNat + 1
      else 0 := by
  have len := chip.length_bounds
  have zero : 0#4 < chip.wCounter ↔ 0 < chip.wCounter.toNat := BitVec.lt_def
  have step : chip.wCounter.toNat + 1 < 16 →
      (chip.wCounter + 1#4).toNat = chip.wCounter.toNat + 1 := by
    intro small
    rw [BitVec.toNat_add]
    exact Nat.mod_eq_of_lt small
  simp only [selected, if_neg noWrite, zero, BitVec.lt_def]
  split_ifs <;> first | rfl | omega

section Mode

variable (cas : chip.casLatency = 2#3 ∨ chip.casLatency = 3#3)

include cas

theorem cas_bounds : 2 ≤ chip.casLatency.toNat ∧ chip.casLatency.toNat ≤ 3 := by
  rcases cas with two | three
  · rw [two]
    decide
  · rw [three]
    decide

theorem latencyEnd_le_iff :
    chip.latencyEnd ≤ chip.rCounter.setWidth 32 ↔
      chip.casLatency.toNat ≤ chip.rCounter.toNat + 1 := by
  have bounds := cas_bounds cas
  have counter := chip.rCounter.isLt
  rw [latencyEnd, BitVec.le_def, BitVec.toNat_sub, BitVec.toNat_setWidth, BitVec.toNat_setWidth,
    BitVec.toNat_ofNat]
  omega

theorem burstEnd_iff :
    chip.rCounter.setWidth 32 < chip.length.setWidth 32 + chip.casLatency.setWidth 32 - 1#32 ↔
      chip.rCounter.toNat + 1 < chip.casLatency.toNat + chip.length.toNat := by
  have bounds := cas_bounds cas
  have counter := chip.rCounter.isLt
  have len := chip.length_bounds
  rw [BitVec.lt_def, BitVec.toNat_sub, BitVec.toNat_add, BitVec.toNat_setWidth,
    BitVec.toNat_setWidth, BitVec.toNat_setWidth, BitVec.toNat_ofNat]
  omega

/-- Without a READ the counter runs on from a nonzero value to the end of the burst. -/
theorem toNat_rCounter_next (noRead : pins.command ≠ .read) :
    (chip.selected pins).rCounter.toNat =
      if 0 < chip.rCounter.toNat ∧
          chip.rCounter.toNat + 1 < chip.casLatency.toNat + chip.length.toNat then
        chip.rCounter.toNat + 1
      else 0 := by
  have bounds := cas_bounds cas
  have len := chip.length_bounds
  have zero : 0#4 < chip.rCounter ↔ 0 < chip.rCounter.toNat := BitVec.lt_def
  have below : chip.rCounter.setWidth 32 < chip.latencyEnd ↔
      ¬ chip.casLatency.toNat ≤ chip.rCounter.toNat + 1 := by
    rw [← latencyEnd_le_iff cas, BitVec.not_le]
  have step : chip.rCounter.toNat + 1 < 16 →
      (chip.rCounter + 1#4).toNat = chip.rCounter.toNat + 1 := by
    intro small
    rw [BitVec.toNat_add]
    exact Nat.mod_eq_of_lt small
  simp only [selected, if_neg noRead, zero, below, latencyEnd_le_iff cas, burstEnd_iff cas]
  split_ifs <;> first | rfl | omega

/-- While the counter runs the chip drives the bus and steps through the columns. -/
theorem read_next (noRead : pins.command ≠ .read) :
    (chip.selected pins).readFlag = decide (0 < chip.rCounter.toNat) ∧
      (0 < chip.rCounter.toNat → (chip.selected pins).rAddress =
        if chip.casLatency.toNat ≤ chip.rCounter.toNat + 1 then chip.rAddress + 1#9
        else chip.rAddress) ∧
      (chip.casLatency.toNat ≤ chip.rCounter.toNat + 1 →
        (chip.selected pins).dout = chip.bank chip.lBank chip.rSdramAddress) := by
  have bounds := cas_bounds cas
  have zero : 0#4 < chip.rCounter ↔ 0 < chip.rCounter.toNat := BitVec.lt_def
  have below : chip.rCounter.setWidth 32 < chip.latencyEnd ↔
      ¬ chip.casLatency.toNat ≤ chip.rCounter.toNat + 1 := by
    rw [← latencyEnd_le_iff cas, BitVec.not_le]
  refine ⟨?_, ?_, ?_⟩
  · simp only [selected, noRead, zero, below, latencyEnd_le_iff cas, false_or]
    congr 1
    apply propext
    omega
  · intro running
    simp only [selected, if_neg noRead, zero, below, latencyEnd_le_iff cas]
    split_ifs <;> first | rfl | omega
  · intro shown
    simp only [selected, latencyEnd_le_iff cas, if_pos shown]

end Mode

end Sdram32mx16

/-!
## The chip against the bus
-/

section Runs

variable {start : Sdram32mx16} {pins : Nat → SdramChipPins}

/-- The write counter in a phase of the bus, before edge `n`. With a length of 1 it counts the
WRITEs in a row. -/
def WriteTracks (length : Nat) (pins : Nat → SdramChipPins) (n : Nat) (chip : Sdram32mx16) :
    BusPhase → Prop
  | .idle => chip.wCounter.toNat = 0
  | .reading _ _ _ => chip.wCounter.toNat = 0
  | .writing ba col beat =>
      chip.lBank = ba ∧ chip.wAddress = col ∧ beat < length ∧
        (1 < length → chip.wCounter.toNat = beat + 1) ∧
        (length = 1 → 0 < chip.wCounter.toNat ∧
          ∀ i, i < chip.wCounter.toNat → i < n ∧ (pins (n - 1 - i)).command = .write)

/-- The read counter and the read port in a phase of the bus, `bank` being the array. -/
def ReadTracks (length cas : Nat) (rows : BitVec 2 → BitVec 13)
    (bank : BitVec 2 → BitVec 22 → BitVec 16) (chip : Sdram32mx16) : BusPhase → Prop
  | .idle => chip.rCounter.toNat = 0 ∧ chip.readFlag = false
  | .writing _ _ _ => chip.rCounter.toNat = 0 ∧ chip.readFlag = false
  | .reading ba col cycle =>
      chip.lBank = ba ∧ cycle < cas + length ∧ chip.readFlag = true ∧
        chip.rCounter.toNat = (if cycle + 1 < cas + length then cycle + 1 else 0) ∧
        (cycle + 1 < cas + length → chip.rAddress = col + BitVec.ofNat 9 (cycle + 2 - cas)) ∧
        (cas ≤ cycle + 1 →
          chip.dout = bank ba (rows ba ++ (col + BitVec.ofNat 9 (cycle + 1 - cas))))

section Write

variable {chip : Sdram32mx16} {length cas n : Nat} {phase : BusPhase}

theorem WriteTracks.pos {ba : BitVec 2} {col : BitVec 9} {beat : Nat} (one : 1 ≤ length)
    (tracks : WriteTracks length pins n chip (.writing ba col beat)) :
    0 < chip.wCounter.toNat := by
  obtain ⟨_, _, _, long, single⟩ := tracks
  rcases Nat.lt_or_eq_of_le one with more | same
  · rw [long more]
    exact Nat.succ_pos beat
  · exact (single same.symm).1

/-- The last beat leaves the counter at the length or above. -/
theorem WriteTracks.last (one : 1 ≤ length) (tracks : WriteTracks length pins n chip phase)
    (free : phase.Free length cas) :
    ¬ (0 < chip.wCounter.toNat ∧ chip.wCounter.toNat < length) := by
  cases phase with
  | idle =>
      rw [WriteTracks] at tracks
      omega
  | reading ba col cycle =>
      rw [WriteTracks] at tracks
      omega
  | writing ba col beat =>
      have positive := tracks.pos one
      obtain ⟨_, _, _, long, single⟩ := tracks
      have final : beat + 1 = length := free
      rcases Nat.lt_or_eq_of_le one with more | same
      · have count := long more
        omega
      · omega

/-- With a length of 1 the counter is the number of WRITEs before edge `n`. -/
theorem WriteTracks.chain (tracks : WriteTracks length pins n chip phase) (single : length = 1)
    (i : Nat) (bound : i < chip.wCounter.toNat) : i < n ∧ (pins (n - 1 - i)).command = .write := by
  cases phase with
  | idle =>
      rw [WriteTracks] at tracks
      omega
  | reading ba col cycle =>
      rw [WriteTracks] at tracks
      omega
  | writing ba col beat => exact (tracks.2.2.2.2 single).2 i bound

/-- A WRITE counts up from zero; with a length of 1 the chain that has been counted goes on. -/
theorem WriteTracks.write (one : 1 ≤ length) (tracks : WriteTracks length pins n chip phase)
    (write : (pins n).command = .write)
    (long : 1 < length → ∀ ba col beat, phase ≠ .writing ba col beat)
    (gap : length = 1 → ∀ n, ∃ k, k < 16 ∧ (pins (n + k)).command ≠ .write) :
    WriteTracks length pins (n + 1) (chip.selected (pins n))
      (.writing (pins n).ba ((pins n).a.extractLsb' 0 9) 0) := by
  have count : (chip.selected (pins n)).wCounter = chip.wCounter + 1#4 := by
    simp [Sdram32mx16.selected, write]
  refine ⟨by simp [Sdram32mx16.selected, write], by simp [Sdram32mx16.selected, write], one, ?_, ?_⟩
  · intro more
    have none : chip.wCounter.toNat = 0 := by
      cases phase with
      | idle => exact tracks
      | reading ba col cycle => exact tracks
      | writing ba col beat => exact absurd rfl (long more ba col beat)
    rw [count, BitVec.toNat_add, none]
    rfl
  · intro single
    have chain := tracks.chain single
    have small : chip.wCounter.toNat + 1 < 16 := by
      by_contra full
      obtain ⟨k, bound, other⟩ := gap single (n - 15)
      have long15 := chain 14 (by omega)
      rcases Nat.lt_or_eq_of_le (Nat.le_of_lt_succ bound) with early | last
      · have earlier := (chain (14 - k) (by omega)).2
        rw [show n - 1 - (14 - k) = n - 15 + k by omega] at earlier
        exact other earlier
      · rw [show n - 15 + k = n by omega] at other
        exact other write
    rw [count, BitVec.toNat_add, show (1#4).toNat = 1 from rfl, Nat.mod_eq_of_lt small]
    refine ⟨Nat.succ_pos _, ?_⟩
    intro i bound
    cases i with
    | zero => exact ⟨Nat.succ_pos n, write⟩
    | succ i =>
        obtain ⟨early, earlier⟩ := chain i (by omega)
        refine ⟨Nat.succ_lt_succ early, ?_⟩
        rw [show n + 1 - 1 - (i + 1) = n - 1 - i by omega]
        exact earlier

/-- A cycle without a command. -/
theorem WriteTracks.nop (one : 1 ≤ length) (len : chip.length.toNat = length)
    (tracks : WriteTracks length pins n chip phase) (nop : (pins n).command = .nop) :
    WriteTracks length pins (n + 1) (chip.selected (pins n))
      (phase.next length cas (pins n)) := by
  have noWrite : (pins n).command ≠ .write := by simp [nop]
  have counter := chip.toNat_wCounter_next noWrite
  rw [len] at counter
  cases phase with
  | idle =>
      rw [WriteTracks] at tracks
      simp only [BusPhase.next, nop, WriteTracks, counter, tracks, Nat.lt_irrefl, false_and,
        if_false]
  | reading ba col cycle =>
      rw [WriteTracks] at tracks
      simp only [BusPhase.next, nop]
      split_ifs
      all_goals
        simp only [WriteTracks, counter, tracks, Nat.lt_irrefl, false_and, if_false]
  | writing ba col beat =>
      have positive := tracks.pos one
      have running : 0#4 < chip.wCounter := BitVec.lt_def.mpr positive
      simp only [BusPhase.next, nop]
      split_ifs with more
      · obtain ⟨bank, address, _, long, _⟩ := tracks
        have count := long (by omega)
        refine ⟨?_, ?_, more, ?_, fun single => by omega⟩
        · simp [Sdram32mx16.selected, nop, bank]
        · simp only [Sdram32mx16.selected, if_neg noWrite, if_pos running, address]
        · intro _
          rw [counter, if_pos (by omega), count]
      · have final : BusPhase.Free length cas (.writing ba col beat) := by
          have inside := tracks.2.2.1
          show beat + 1 = length
          omega
        rw [WriteTracks, counter, if_neg (tracks.last one final)]

end Write

section Read

variable {chip : Sdram32mx16} {length cas n : Nat} {phase : BusPhase}
  {bank : BitVec 2 → BitVec 22 → BitVec 16}

/-- The last cycle of a burst leaves the counter at zero. -/
theorem ReadTracks.last {rows : BitVec 2 → BitVec 13}
    (tracks : ReadTracks length cas rows bank chip phase) (free : phase.Free length cas) :
    chip.rCounter.toNat = 0 := by
  cases phase with
  | idle => exact tracks.1
  | writing ba col beat => exact tracks.1
  | reading ba col cycle =>
      have final : cycle + 1 = cas + length := free
      rw [tracks.2.2.2.1, if_neg (by omega)]

theorem col_succ (col : BitVec 9) (i : Nat) :
    col + BitVec.ofNat 9 i + 1#9 = col + BitVec.ofNat 9 (i + 1) := by
  rw [BitVec.ofNat_add, BitVec.add_assoc]

/-- A READ starts the counter. -/
theorem ReadTracks.read {p : SdramChipPins} (latency : 2 ≤ cas)
    (tracks : ReadTracks length cas chip.lineAddress bank chip phase)
    (free : phase.Free length cas) (read : p.command = .read)
    {bank' : BitVec 2 → BitVec 22 → BitVec 16} :
    ReadTracks length cas chip.lineAddress bank' (chip.selected p)
      (.reading p.ba (p.a.extractLsb' 0 9) 0) := by
  have none : chip.rCounter = 0#4 := BitVec.eq_of_toNat_eq (tracks.last free)
  obtain ⟨counter, flag, place, address⟩ := Sdram32mx16.selected_read read none
  refine ⟨place, by omega, flag, ?_, ?_, fun early => by omega⟩
  · rw [counter, if_pos (by omega)]
    rfl
  · intro _
    rw [address, show 0 + 2 - cas = 0 by omega, BitVec.add_zero]

/-- Outside the bursts of READs the chip is quiet. -/
theorem ReadTracks.quiet {p : SdramChipPins} (mode : chip.casLatency = 2#3 ∨ chip.casLatency = 3#3)
    (noRead : p.command ≠ .read) (none : chip.rCounter.toNat = 0) :
    (chip.selected p).rCounter.toNat = 0 ∧ (chip.selected p).readFlag = false := by
  constructor
  · rw [Sdram32mx16.toNat_rCounter_next mode noRead, none]
    simp only [Nat.lt_irrefl, false_and, if_false]
  · rw [(Sdram32mx16.read_next mode noRead).1, none]
    rfl

/-- A cycle without a command. -/
theorem ReadTracks.nop {p : SdramChipPins}
    (mode : chip.casLatency = 2#3 ∨ chip.casLatency = 3#3) (latency : chip.casLatency.toNat = cas)
    (len : chip.length.toNat = length)
    (tracks : ReadTracks length cas chip.lineAddress bank chip phase)
    (whole : (∃ ba col cycle, phase = .reading ba col cycle) → chip.bank = bank)
    (nop : p.command = .nop) {bank' : BitVec 2 → BitVec 22 → BitVec 16}
    (same : (∃ ba col cycle, phase = .reading ba col cycle) → bank' = bank) :
    ReadTracks length cas chip.lineAddress bank' (chip.selected p) (phase.next length cas p) := by
  have noRead : p.command ≠ .read := by simp [nop]
  have bounds := Sdram32mx16.cas_bounds mode
  have counter := Sdram32mx16.toNat_rCounter_next mode noRead
  obtain ⟨flag, address, shown⟩ := Sdram32mx16.read_next mode noRead
  rw [latency, len] at counter
  rw [latency] at address shown bounds
  cases phase with
  | idle =>
      simp only [BusPhase.next, nop]
      exact ReadTracks.quiet mode noRead tracks.1
  | writing ba col beat =>
      have quiet := ReadTracks.quiet mode noRead tracks.1
      simp only [BusPhase.next, nop]
      split_ifs
      · exact quiet
      · exact quiet
  | reading ba col cycle =>
      obtain ⟨place, inside, _, count, column, _⟩ := tracks
      simp only [BusPhase.next, nop]
      split_ifs with more
      · rw [if_pos more] at count
        have at_ := column more
        refine ⟨?_, more, ?_, ?_, ?_, ?_⟩
        · simp [Sdram32mx16.selected, nop, place]
        · rw [flag, count]
          exact decide_eq_true (Nat.succ_pos cycle)
        · rw [counter, count]
          simp only [Nat.succ_pos, true_and]
        · intro _
          rw [address (by omega), at_, count]
          split_ifs with running
          · rw [col_succ]
            congr 2
            omega
          · rw [show cycle + 2 - cas = 0 by omega, show cycle + 1 + 2 - cas = 0 by omega]
        · intro late
          rw [shown (by omega), whole ⟨ba, col, cycle, rfl⟩, same ⟨ba, col, cycle, rfl⟩, place,
            Sdram32mx16.rSdramAddress, place, at_]
      · rw [if_neg more] at count
        exact ReadTracks.quiet mode noRead count

end Read

/-!
## Runs
-/

/-- The chip before edge `n` and the bus behind the edge before it. -/
structure Tracks (start : Sdram32mx16) (pins : Nat → SdramChipPins) (n : Nat) : Prop where
  rows : (chipAt start pins n).lineAddress = start.lineAddress
  latency : (chipAt start pins n).casLatency = start.casLatency
  length : (chipAt start pins n).brustLength = start.brustLength
  settled : (chipAt start pins n).settled = expectedAt start pins n
  write : WriteTracks (burstLength start) pins n (chipAt start pins n) (busAt start pins n)
  read : ReadTracks (burstLength start) (burstCas start) start.lineAddress
    (expectedAt start pins n) (chipAt start pins n) (busAt start pins n)

theorem BurstRun.chipAt_succ (run : BurstRun start pins) (n : Nat) :
    chipAt start pins (n + 1) = (chipAt start pins n).selected (pins n) :=
  Sdram32mx16.posedge_selected (run.enabled n).1 (run.enabled n).2

/-- A burst of a READ begins with its command or goes on for its length. -/
theorem busAt_reading (run : BurstRun start pins) {n : Nat} {ba : BitVec 2} {col : BitVec 9}
    {cycle : Nat} (here : busAt start pins (n + 1) = .reading ba col cycle) :
    ((pins n).command = .read ∧ cycle = 0) ∨
      ∃ before, cycle = before + 1 ∧ cycle < burstCas start + burstLength start ∧
        busAt start pins n = .reading ba col before := by
  rw [busAt] at here
  rcases run.commands n with nop | read | write
  · simp only [BusPhase.next, nop] at here
    cases phase : busAt start pins n with
    | idle =>
        rw [phase] at here
        cases here
    | writing ba' col' beat =>
        rw [phase] at here
        dsimp only at here
        split_ifs at here
    | reading ba' col' before =>
        rw [phase] at here
        dsimp only at here
        split_ifs at here with inside
        cases here
        exact .inr ⟨before, rfl, inside, rfl⟩
  · simp only [BusPhase.next, read] at here
    cases here
    exact .inl ⟨read, rfl⟩
  · simp only [BusPhase.next, write] at here
    cases here

/-- A burst of a WRITE begins with its command or goes on without one. -/
theorem busAt_writing (run : BurstRun start pins) {n : Nat} {ba : BitVec 2} {col : BitVec 9}
    {beat : Nat} (here : busAt start pins (n + 1) = .writing ba col beat) :
    (pins n).command = .write ∨
      (pins n).command = .nop ∧ ∃ ba' col' beat', busAt start pins n = .writing ba' col' beat' := by
  rw [busAt] at here
  rcases run.commands n with nop | read | write
  · simp only [BusPhase.next, nop] at here
    cases phase : busAt start pins n with
    | idle =>
        rw [phase] at here
        cases here
    | reading ba' col' cycle =>
        rw [phase] at here
        dsimp only at here
        split_ifs at here
    | writing ba' col' beat' => exact .inr ⟨nop, ba', col', beat', rfl⟩
  · simp only [BusPhase.next, read] at here
    cases here
  · exact .inl write

/-- READ and WRITE leave the rows and the mode as they are. -/
theorem BurstRun.registers (run : BurstRun start pins) (n : Nat) :
    (chipAt start pins (n + 1)).lineAddress = (chipAt start pins n).lineAddress ∧
      (chipAt start pins (n + 1)).casLatency = (chipAt start pins n).casLatency ∧
      (chipAt start pins (n + 1)).brustLength = (chipAt start pins n).brustLength := by
  rw [run.chipAt_succ]
  rcases run.commands n with nop | read | write
  · simp [Sdram32mx16.selected, nop]
  · simp [Sdram32mx16.selected, read]
  · simp [Sdram32mx16.selected, write]

theorem tracks_zero (run : BurstRun start pins) : Tracks start pins 0 where
  rows := rfl
  latency := rfl
  length := rfl
  settled := Sdram32mx16.settled_of_wCounter run.idle.2.1
  write := congrArg BitVec.toNat run.idle.2.1
  read := ⟨congrArg BitVec.toNat run.idle.1, run.idle.2.2⟩

section Step

variable (run : BurstRun start pins) (gaps : WriteGaps start pins) {n : Nat}
  (tracks : Tracks start pins n)

include run tracks

theorem Tracks.lengths :
    (chipAt start pins n).length.toNat = burstLength start ∧
      (chipAt start pins n).casLatency.toNat = burstCas start ∧
      ((chipAt start pins n).casLatency = 2#3 ∨ (chipAt start pins n).casLatency = 3#3) := by
  refine ⟨?_, ?_, ?_⟩
  · rw [Sdram32mx16.length, tracks.length]
    rfl
  · rw [tracks.latency]
    rfl
  · rw [tracks.latency]
    exact run.cas

include gaps in
theorem Tracks.write_next :
    WriteTracks (burstLength start) pins (n + 1) (chipAt start pins (n + 1))
      (busAt start pins (n + 1)) := by
  have one : 1 ≤ burstLength start := start.length_bounds.1
  obtain ⟨len, _, _⟩ := tracks.lengths run
  rw [run.chipAt_succ, busAt]
  rcases run.commands n with nop | read | write
  · exact tracks.write.nop one len nop
  · have noWrite : (pins n).command ≠ .write := by simp [read]
    have last := tracks.write.last one (run.spaced n (by simp [read]))
    simp only [BusPhase.next, read]
    rw [WriteTracks, Sdram32mx16.toNat_wCounter_next noWrite, len, if_neg last]
  · have next := tracks.write.write one write (fun more => gaps.long more n write) gaps.single
    simp only [BusPhase.next, write]
    exact next

/-- The data of a beat wait in the chip behind its edge. -/
theorem Tracks.wData_next {ba : BitVec 2} {col : BitVec 9} {beat : Nat}
    (here : busAt start pins (n + 1) = .writing ba col beat) :
    (chipAt start pins (n + 1)).wData = (pins n).din := by
  have before := tracks.write
  rw [run.chipAt_succ]
  rcases busAt_writing run here with write | ⟨nop, ba', col', beat', earlier⟩
  · simp [Sdram32mx16.selected, write]
  · rw [earlier] at before
    have running : 0#4 < (chipAt start pins n).wCounter :=
      BitVec.lt_def.mpr (before.pos start.length_bounds.1)
    simp [Sdram32mx16.selected, nop, running]

include gaps in
/-- The array with the waiting word has all beats that were on the bus. -/
theorem Tracks.settled_next :
    (chipAt start pins (n + 1)).settled = expectedAt start pins (n + 1) := by
  have one : 1 ≤ burstLength start := start.length_bounds.1
  have write := tracks.write_next run gaps
  have bank : (chipAt start pins (n + 1)).bank = expectedAt start pins n := by
    rw [run.chipAt_succ, ← tracks.settled]
    rfl
  have none : (chipAt start pins (n + 1)).wCounter.toNat = 0 →
      (chipAt start pins (n + 1)).settled = expectedAt start pins n := by
    intro zero
    rw [Sdram32mx16.settled_of_wCounter (BitVec.eq_of_toNat_eq zero), bank]
  rw [expectedAt]
  cases phase : busAt start pins (n + 1) with
  | idle =>
      rw [phase] at write
      exact none write
  | reading ba col cycle =>
      rw [phase] at write
      exact none write
  | writing ba col beat =>
      have data := tracks.wData_next run phase
      have rows := (run.registers n).1.trans tracks.rows
      have mask : (chipAt start pins (n + 1)).dqmBuf1 = (pins n).dqm := by
        rw [run.chipAt_succ]
        rfl
      rw [phase] at write
      have waiting : 0#4 < (chipAt start pins (n + 1)).wCounter := BitVec.lt_def.mpr (write.pos one)
      obtain ⟨place, address, _⟩ := write
      dsimp only
      rw [Sdram32mx16.settled, if_pos waiting, Sdram32mx16.wSdramAddress, bank, rows, mask, data,
        place, address, storeBeat]

theorem Tracks.read_next :
    ReadTracks (burstLength start) (burstCas start) start.lineAddress
      (expectedAt start pins (n + 1)) (chipAt start pins (n + 1)) (busAt start pins (n + 1)) := by
  obtain ⟨len, latency, mode⟩ := tracks.lengths run
  have bounds := Sdram32mx16.cas_bounds mode
  have before := tracks.read
  have write := tracks.write
  rw [run.chipAt_succ, busAt]
  rw [← tracks.rows] at before ⊢
  rcases run.commands n with nop | read | write
  · refine before.nop mode latency len ?_ nop ?_
    · rintro ⟨ba, col, cycle, phase⟩
      rw [phase] at write
      rw [← tracks.settled, Sdram32mx16.settled_of_wCounter (BitVec.eq_of_toNat_eq write)]
    · rintro ⟨ba, col, cycle, phase⟩
      rw [expectedAt, busAt, phase]
      simp only [BusPhase.next, nop]
      split_ifs
      · rfl
      · rfl
  · simp only [BusPhase.next, read]
    exact before.read (by omega) (run.spaced n (by simp [read])) read
  · have none := before.last (run.spaced n (by simp [write]))
    simp only [BusPhase.next, write]
    exact ReadTracks.quiet mode (by simp [write]) none

include gaps in
theorem Tracks.next : Tracks start pins (n + 1) := by
  obtain ⟨rows, latency, length⟩ := run.registers n
  exact ⟨rows.trans tracks.rows, latency.trans tracks.latency, length.trans tracks.length,
    tracks.settled_next run gaps, tracks.write_next run gaps, tracks.read_next run⟩

end Step

theorem tracks_run (run : BurstRun start pins) (gaps : WriteGaps start pins) (n : Nat) :
    Tracks start pins n := by
  induction n with
  | zero => exact tracks_zero run
  | succ n tracks => exact tracks.next run gaps

/-- A READ has the bus to itself until its last beat. -/
theorem busAt_of_read (run : BurstRun start pins) {t : Nat} (read : (pins t).command = .read)
    (cycle : Nat) (inside : cycle < burstCas start + burstLength start) :
    busAt start pins (t + 1 + cycle) =
      .reading (pins t).ba ((pins t).a.extractLsb' 0 9) cycle := by
  induction cycle with
  | zero =>
      rw [Nat.add_zero, busAt]
      simp only [BusPhase.next, read]
  | succ cycle ih =>
      have phase := ih (by omega)
      have quiet : (pins (t + 1 + cycle)).command = .nop := by
        by_contra command
        have free := run.spaced _ command
        rw [phase] at free
        have final : cycle + 1 = burstCas start + burstLength start := free
        omega
      rw [← Nat.add_assoc, busAt, phase]
      simp only [BusPhase.next, quiet]
      rw [if_pos inside]

theorem busAt_ne_reading (run : BurstRun start pins) (none : ∀ n, (pins n).command ≠ .read)
    (n : Nat) (ba : BitVec 2) (col : BitVec 9) (cycle : Nat) :
    busAt start pins n ≠ .reading ba col cycle := by
  intro here
  induction n generalizing cycle with
  | zero => cases here
  | succ n ih =>
      rcases busAt_reading run here with ⟨read, _⟩ | ⟨before, _, _, earlier⟩
      · exact none n read
      · exact ih before earlier

/-- One cycle behind the last beat of a READ the chip still drives the bus. -/
theorem read_overrun (run : BurstRun start pins) (gaps : WriteGaps start pins) {t : Nat}
    (read : (pins t).command = .read) :
    ¬ Silent start pins (t + burstCas start + burstLength start) := by
  have latency := Sdram32mx16.cas_bounds run.cas
  have positive : 0 < burstCas start + burstLength start := by
    rw [burstCas]
    omega
  have last := busAt_of_read run read (burstCas start + burstLength start - 1) (by omega)
  rw [show t + 1 + (burstCas start + burstLength start - 1) =
    t + burstCas start + burstLength start by omega] at last
  have tracks := (tracks_run run gaps (t + burstCas start + burstLength start)).read
  rw [last] at tracks
  intro silent
  have driven := silent ?_
  · rw [tracks.2.2.1] at driven
    cases driven
  · intro ba col cycle here
    rcases busAt_reading run here with ⟨_, first⟩ | ⟨before, rfl, inside, earlier⟩
    · exact first
    · -- the burst would have to be longer
      rw [last] at earlier
      injection earlier with _ _ same
      omega

/-- With gaps between the WRITEs each of them stores its beats and nothing else, and each READ
drives its beats in time; that nothing else is driven holds of the runs without a READ. -/
theorem sdram_bursts (start : Sdram32mx16) (pins : Nat → SdramChipPins)
    (run : BurstRun start pins) (gaps : WriteGaps start pins) :
    StoresBeats start pins ∧ (∀ n, DrivesBeat start pins n) ∧
      ((∀ n, Silent start pins n) ↔ ∀ n, (pins n).command ≠ .read) := by
  have tracks := tracks_run run gaps
  refine ⟨?_, ?_, ?_, ?_⟩
  · intro n
    rw [run.chipAt_succ, ← (tracks n).settled]
    rfl
  · intro n ba col cycle here late
    have latency := Sdram32mx16.cas_bounds run.cas
    have read := (tracks n).read
    rcases busAt_reading run here with ⟨_, rfl⟩ | ⟨before, rfl, _, earlier⟩
    · rw [burstCas] at late
      omega
    · rw [earlier] at read
      exact ⟨read.2.2.1, read.2.2.2.2.2 late⟩
  · intro silent t read
    exact read_overrun run gaps read (silent _)
  · intro none n _
    have read := (tracks n).read
    cases phase : busAt start pins n with
    | idle =>
        rw [phase] at read
        exact read.2
    | writing ba col beat =>
        rw [phase] at read
        exact read.2
    | reading ba col cycle => exact absurd phase (busAt_ne_reading run none n ba col cycle)

end Runs

/-!
## Two short runs
-/

/-- A chip with a length of 2 and a latency of 2. -/
def burstChip : Sdram32mx16 :=
  ⟨fun _ _ => 0#16, fun _ => 0#13, 0#16, 2#3, 1#3, 0#2, 0#2, 0#4, 0#4, false, 0#9, 0#9, 0#16⟩

/-- A WRITE to column 0 and, when its two beats are over, a second command to column 4. -/
def twoBursts (second : SdramCmd) (n : Nat) : SdramChipPins :=
  ⟨true, false, if n = 0 then .write else if n = 2 then second else .nop,
    if n = 2 then 4#13 else 0#13, 0#2, 0#2, BitVec.ofNat 16 (n + 1)⟩

theorem twoBursts_run {second : SdramCmd} (command : second = .read ∨ second = .write) :
    BurstRun burstChip (twoBursts second) where
  length := by decide
  cas := .inl rfl
  idle := ⟨rfl, rfl, rfl⟩
  enabled := fun _ => ⟨rfl, rfl⟩
  commands := by
    intro n
    simp only [twoBursts]
    split_ifs
    · exact .inr (.inr rfl)
    · exact .inr command
    · exact .inl rfl
  spaced := by
    intro n given
    simp only [twoBursts] at given
    split_ifs at given with first later
    · subst first
      trivial
    · subst later
      exact rfl
    · exact absurd rfl given

theorem sdram_bursts_write_read :
    StoresBeats burstChip (twoBursts .read) ∧ (∀ n, DrivesBeat burstChip (twoBursts .read) n) ∧
      ((∀ n, Silent burstChip (twoBursts .read) n) ↔ ∀ n, (twoBursts .read n).command ≠ .read) :=
  sdram_bursts burstChip (twoBursts .read) (twoBursts_run (.inl rfl))
    { long := by
        intro _ n write ba col beat
        simp only [twoBursts] at write
        split_ifs at write with first
        subst first
        rw [busAt]
        exact BusPhase.noConfusion
      single := by
        intro single
        cases single }

/-- The second of two WRITEs without a gap loses its second beat. -/
theorem sdram_bursts_gapless_fails :
    ¬ ∀ (start : Sdram32mx16) (pins : Nat → SdramChipPins), BurstRun start pins →
      StoresBeats start pins ∧ ∀ n, DrivesBeat start pins n ∧ Silent start pins n := by
  intro always
  have stored := (always burstChip (twoBursts .write) (twoBursts_run (.inr rfl))).1 4
  have cell := congrFun (congrFun stored 0#2) 5#22
  exact absurd cell (by decide)

end Ysyx.Soc
