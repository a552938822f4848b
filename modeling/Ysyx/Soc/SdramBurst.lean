import Ysyx.Soc.Sdram

/-! Bursts of READ and WRITE commands at one chip `sdram_32mx16` with its mode loaded, and
what belongs on its data bus in each cycle. -/

set_option autoImplicit false

namespace Ysyx.Soc

/-!
## The data bus
-/

/-- The burst that has the data bus behind an edge: a WRITE with the beat that was on it, a
READ with the cycles since its command. -/
inductive BusPhase where
  | idle
  | writing (ba : BitVec 2) (col : BitVec 9) (beat : Nat)
  | reading (ba : BitVec 2) (col : BitVec 9) (cycle : Nat)
  deriving DecidableEq, Repr

namespace BusPhase

variable (length cas : Nat)

def next (pins : SdramChipPins) (phase : BusPhase) : BusPhase :=
  match pins.command with
  | .write => .writing pins.ba (pins.a.extractLsb' 0 9) 0
  | .read => .reading pins.ba (pins.a.extractLsb' 0 9) 0
  | _ =>
      match phase with
      | .idle => .idle
      | .writing ba col beat =>
          if beat + 1 < length then .writing ba (col + 1#9) (beat + 1) else .idle
      | .reading ba col cycle =>
          if cycle + 1 < cas + length then .reading ba col (cycle + 1) else .idle

/-- The last beat of the burst has been on the bus. -/
def Free : BusPhase → Prop
  | .idle => True
  | .writing _ _ beat => beat + 1 = length
  | .reading _ _ cycle => cycle + 1 = cas + length

end BusPhase

/-- The array with one beat stored, masked by its `dqm`. -/
def storeBeat (bank : BitVec 2 → BitVec 22 → BitVec 16) (ba : BitVec 2) (addr : BitVec 22)
    (dqm : BitVec 2) (data : BitVec 16) : BitVec 2 → BitVec 22 → BitVec 16 :=
  Function.update bank ba
    (Function.update (bank ba) addr (Sdram32mx16.masked dqm (bank ba addr) data))

/-!
## Runs
-/

section Runs

variable (start : Sdram32mx16) (pins : Nat → SdramChipPins)

/-- The chip before edge `n`. -/
def chipAt : Nat → Sdram32mx16
  | 0 => start
  | n + 1 => (chipAt n).posedge (pins n)

/-- `Length` and `CAS_Latency` of the loaded mode. -/
def burstLength : Nat := start.length.toNat
def burstCas : Nat := start.casLatency.toNat

/-- The burst behind the edge before edge `n`. -/
def busAt : Nat → BusPhase
  | 0 => .idle
  | n + 1 => (busAt n).next (burstLength start) (burstCas start) (pins n)

/-- The array with the beats of all WRITEs that were on the bus before edge `n`. -/
def expectedAt : Nat → BitVec 2 → BitVec 22 → BitVec 16
  | 0 => start.bank
  | n + 1 =>
      match busAt start pins (n + 1) with
      | .writing ba col _ =>
          storeBeat (expectedAt n) ba (start.lineAddress ba ++ col) (pins n).dqm (pins n).din
      | _ => expectedAt n

/-- A mode with a length of 1, 2, 4 or 8 and a latency of 2 or 3, no burst under way, and READ
and WRITE commands that wait for the end of the last burst's data. -/
structure BurstRun : Prop where
  length : start.brustLength ≤ 3#3
  cas : start.casLatency = 2#3 ∨ start.casLatency = 3#3
  idle : start.rCounter = 0#4 ∧ start.wCounter = 0#4 ∧ start.readFlag = false
  enabled : ∀ n, (pins n).cke = true ∧ (pins n).cs = false
  commands : ∀ n, (pins n).command = .nop ∨ (pins n).command = .read ∨ (pins n).command = .write
  spaced : ∀ n, (pins n).command ≠ .nop →
    (busAt start pins n).Free (burstLength start) (burstCas start)

/-- Each beat of a WRITE is in the array one edge after it was on the bus, and nothing else has
changed there. -/
def StoresBeats : Prop := ∀ n, (chipAt start pins (n + 1)).bank = expectedAt start pins n

/-- In a cycle with a beat of a READ, the chip drives it. -/
def DrivesBeat (n : Nat) : Prop :=
  ∀ ba col cycle, busAt start pins (n + 1) = .reading ba col cycle → burstCas start ≤ cycle →
    (chipAt start pins n).readFlag = true ∧
      (chipAt start pins n).dout = expectedAt start pins n ba
        (start.lineAddress ba ++ (col + BitVec.ofNat 9 (cycle - burstCas start)))

/-- In a cycle outside the bursts of READs, or with the command of one, it drives nothing. -/
def Silent (n : Nat) : Prop :=
  (∀ ba col cycle, busAt start pins (n + 1) = .reading ba col cycle → cycle = 0) →
    (chipAt start pins n).readFlag = false

/-- No WRITE follows the last beat of a WRITE at once; with a length of 1 such chains stay
below 16. -/
structure WriteGaps : Prop where
  long : 1 < burstLength start → ∀ n, (pins n).command = .write →
    ∀ ba col beat, busAt start pins n ≠ .writing ba col beat
  single : burstLength start = 1 → ∀ n, ∃ k, k < 16 ∧ (pins (n + k)).command ≠ .write

end Runs

end Ysyx.Soc
