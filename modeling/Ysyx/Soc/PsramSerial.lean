import Ysyx.Soc.PsramController
import Ysyx.Soc.PsramProperties

/-! The serial clocks of the controller and the transactions of the chip: after `k` rising edges
the chip has taken the first `k` nibbles. -/

set_option autoImplicit false

namespace Ysyx.Soc

open Lib (slice blit)

/-!
## Prefixes of a transaction
-/

namespace Psram

variable {psram next last : Psram} {dins : List Nibble} {outs : List (Option Nibble)}

/-- What the chip puts on the pins. -/
def shows (psram : Psram) : Option Nibble := if psram.doutEn then some psram.dout else none

theorem clocks_take (run : psram.clocks dins = some (outs, last)) {k : Nat}
    (within : k < dins.length) :
    ∃ middle next, psram.clocks (dins.take k) = some (outs.take k, middle) ∧
      middle.posedgeSck (dins.get ⟨k, within⟩) = some next ∧
      psram.clocks (dins.take (k + 1)) = some (outs.take (k + 1), next) ∧
      outs.getD k none = middle.shows := by
  induction dins generalizing psram outs k with
  | nil => cases within
  | cons din rest ih =>
      simp only [clocks, Option.bind_eq_bind, Option.bind_eq_some_iff] at run
      obtain ⟨first, edge, ⟨tail, _⟩, run, result⟩ := run
      cases result
      cases k with
      | zero =>
          refine ⟨psram, first, rfl, edge, ?_, rfl⟩
          simp [clocks, edge]
      | succ k =>
          obtain ⟨middle, next, before, step, after, shown⟩ :=
            ih run (Nat.lt_of_succ_lt_succ within)
          refine ⟨middle, next, ?_, step, ?_, by simpa using shown⟩
          · simp [clocks, edge, before]
          · simp [clocks, edge, after]

theorem clocks_of_transact (run : psram.transact dins = some (outs, next)) :
    ∃ last, psram.clocks dins = some (outs, last) ∧ last.posedgeCeN = some next := by
  simp only [transact, Option.bind_eq_bind, Option.bind_eq_some_iff] at run
  obtain ⟨⟨outs, last⟩, run, next, edge, result⟩ := run
  cases result
  exact ⟨last, run, edge⟩

/-- A chip that drives the pins does not look at them. -/
theorem posedgeSck_of_doutEn (drives : psram.doutEn = true) (din din' : Nibble) :
    psram.posedgeSck din = psram.posedgeSck din' := by
  simp only [doutEn, Bool.and_eq_true, Bool.or_eq_true, beq_iff_eq] at drives
  obtain ⟨state | state, cmd⟩ := drives <;> simp [posedgeSck, state, cmd]

theorem doutEn_posedgeSck (drives : psram.doutEn = true) {din : Nibble}
    (edge : psram.posedgeSck din = some next) : next.doutEn = true := by
  simp only [doutEn, Bool.and_eq_true, Bool.or_eq_true, beq_iff_eq] at drives
  obtain ⟨state | state, cmd⟩ := drives
  · simp only [posedgeSck, state, Option.some.injEq] at edge
    subst edge
    simp [doutEn, cmd]
  · simp only [posedgeSck, state, Option.map_eq_some_iff] at edge
    obtain ⟨rdata, -, rfl⟩ := edge
    by_cases done : psram.counter = 6#8 <;> simp [doutEn, cmd, done]

/-!
## Edges
-/

theorem edges_high (psram : Psram) (sck ceN : Bool) (din : Nibble) :
    psram.edges sck false ceN true din = if ceN then some psram else psram.posedgeCeN := by
  cases ceN <;> simp [edges]

theorem edges_low (psram : Psram) (sck ceN : Bool) (din : Nibble) :
    psram.edges sck false ceN false din = some psram := by
  simp [edges]

theorem edges_rise (psram : Psram) (din : Nibble) :
    psram.edges false true false false din = psram.posedgeSck din := by
  simp [edges]

/-- Between two transactions, with the host's arrays. -/
structure Rests (psram : Psram) (host : Host) : Prop where
  ready : psram.Ready
  qpi : psram.qpiMode = true
  host : psram.host = host

end Psram

/-!
## What the chip shows
-/

theorem qspiDio_of_shows_none {pins : PsramPins} {chip : Psram} (drives : pins.doutEn = true)
    (silent : none = chip.shows) (float : Nibble) : qspiDio pins chip float = pins.dout := by
  have off : chip.doutEn = false := by
    rw [Bool.eq_false_iff]
    intro on
    simp [Psram.shows, on] at silent
  simp [qspiDio, drives, off]

theorem qspiDio_of_shows {pins : PsramPins} {chip : Psram} {n : Nibble}
    (silent : pins.doutEn = false) (shown : some n = chip.shows) (float : Nibble) :
    qspiDio pins chip float = n := by
  simp only [Psram.shows, Option.some_eq_ite_none_right, Option.some.injEq] at shown
  simp [qspiDio, silent, shown.1, shown.2]

/-- A read of a word and one clock more: what the chip shows before each clock. -/
structure ReadRun (host : Host) (addr : BitVec 24) (outs : List (Option Nibble)) (last : Psram) :
    Prop where
  header : ∀ k < 8, outs.getD k none = none
  body : ∀ k, 8 ≤ k → k < 23 → ∃ n, outs.getD k none = some n
  data : ∀ j < 8, outs.getD (15 + j) none =
    some (((slice (host .psram) addr.toNat 4).flatMap nibbles).getD j 0#4)
  ends : ∃ next, last.posedgeCeN = some next ∧ next.Rests host

def readNibbles (addr : BitVec 24) : List Nibble := (QpiTx.read addr 8 fun _ => 0#4).drive

theorem length_readNibbles (addr : BitVec 24) : (readNibbles addr).length = 23 := rfl

theorem Psram.Rests.exists_read {first : Psram} {host : Host} (rests : first.Rests host)
    (addr : BitVec 24) :
    ∃ outs last, first.clocks (readNibbles addr) = some (outs, last) ∧
      ReadRun host addr outs last := by
  obtain ⟨outs, next, run, data, ready, qpi, kept⟩ :=
    transact_read rests.ready rests.qpi addr (Nat.le_refl 8) fun _ => 0#4
  obtain ⟨last, run, edge⟩ := Psram.clocks_of_transact run
  change first.clocks (readNibbles addr) = _ at run
  have length := length_readNibbles addr
  obtain ⟨chip, _, before, _, _, shown⟩ :=
    Psram.clocks_take run (show 8 < _ by rw [length]; decide)
  have header := Psram.clocks_header rests.ready rests.qpi rcmd addr
  obtain ⟨silent, drives⟩ : outs.take 8 = List.replicate 8 none ∧ chip.doutEn = true := by
    have same := before.symm.trans header
    simp only [Option.some.injEq, Prod.mk.injEq] at same
    obtain ⟨silent, rfl⟩ := same
    exact ⟨silent, by simp [Psram.doutEn, Psram.afterAddress]⟩
  have answers : ∀ k, 8 ≤ k → k < 23 → ∃ chip : Psram, chip.doutEn = true ∧
      first.clocks ((readNibbles addr).take k) = some (outs.take k, chip) ∧
      outs.getD k none = chip.shows := by
    intro k least
    induction k, least using Nat.le_induction with
    | base => exact fun _ => ⟨chip, drives, before, shown⟩
    | succ k least ih =>
        intro within
        obtain ⟨chip, drives, before, _⟩ := ih (Nat.lt_of_succ_lt within)
        obtain ⟨middle, next, same, edge, after, _⟩ :=
          Psram.clocks_take run (Nat.lt_of_succ_lt (length ▸ within))
        obtain ⟨_, _, same', _, _, shown⟩ := Psram.clocks_take run (length ▸ within)
        rw [before] at same
        cases same
        rw [after] at same'
        cases same'
        exact ⟨next, Psram.doutEn_posedgeSck drives edge, after, shown⟩
  refine ⟨outs, last, run, ?_, ?_, ?_, ⟨next, edge, ready, qpi, kept.trans rests.host⟩⟩
  · intro k early
    have here : (outs.take 8).getD k none = none := by
      rw [silent, List.getD_replicate _ early]
    simpa [List.getElem?_take, early] using here
  · intro k least within
    obtain ⟨chip, drives, _, shown⟩ := answers k least within
    exact ⟨chip.dout, shown.trans (if_pos drives)⟩
  · intro j within
    rw [rests.host] at data
    have count : ((slice (host .psram) addr.toNat 4).flatMap nibbles).length = 8 := rfl
    have here := congrArg (fun outs => outs.getD j none) data
    rw [List.take_of_length_le (Nat.le_of_eq count)] at here
    simpa [List.getElem?_eq_getElem (count ▸ within)] using here

/-- The nibbles of a write of the lowest bytes of `line`. -/
def writeNibbles (addr : BitVec 24) (line : BitVec 32) (count : Nat) : List Nibble :=
  (QpiTx.write addr ((List.range count).map (lane line))).drive

theorem length_writeNibbles (addr : BitVec 24) (line : BitVec 32) (count : Nat) :
    (writeNibbles addr line count).length = 8 + 2 * count := by
  have body : (((List.range count).map (lane line)).flatMap nibbles).length = 2 * count := by
    have two : ((List.range count).map (lane line)).map (fun byte => (nibbles byte).length) =
        List.replicate count 2 := by
      simp only [nibbles, List.map_map, Function.comp_def, List.length_cons, List.length_nil,
        List.map_const', List.length_range]
    rw [List.length_flatMap, two, List.sum_replicate_nat, Nat.mul_comm]
  rw [writeNibbles, QpiTx.drive, List.length_append, body]
  rfl

theorem Psram.Rests.exists_write {first : Psram} {host : Host} (rests : first.Rests host)
    (addr : BitVec 24) (line : BitVec 32) {count : Nat} (size : count = 1 ∨ count = 2 ∨ count = 4) :
    ∃ last next, first.clocks (writeNibbles addr line count) =
        some (List.replicate (8 + 2 * count) none, last) ∧
      last.posedgeCeN = some next ∧
      next.Rests (Function.update host .psram
        (blit (host .psram) addr.toNat ((List.range count).map (lane line)))) := by
  obtain ⟨outs, next, run, ready, qpi, kept⟩ :=
    @transact_write _ rests.ready rests.qpi addr ((List.range count).map (lane line))
      (by simpa using size)
  obtain ⟨last, run, edge⟩ := Psram.clocks_of_transact run
  have header := Psram.clocks_header rests.ready rests.qpi wcmd addr
  have body := Psram.clocks_shiftIn ((List.range count).map (lane line))
    { first with cmd := wcmd, addr := addr, state := .data_t } rfl rfl
  have whole := Psram.clocks_append header body
  rw [List.replicate_append_replicate, List.length_map, List.length_range] at whole
  obtain rfl : outs = List.replicate (8 + 2 * count) none := by
    have same := run.symm.trans whole
    simp only [Option.some.injEq, Prod.mk.injEq] at same
    exact same.1
  rw [rests.host] at kept
  exact ⟨last, next, run, edge, ready, qpi, kept⟩

def initNibbles : List Nibble := enterQpi fun _ => 0#3

/-- The chip is silent while it is told to change its mode. -/
theorem exists_enterQpi {first : Psram} (ready : first.Ready) (spi : first.qpiMode = false) :
    ∃ outs last next, first.clocks initNibbles = some (outs, last) ∧
      (∀ k < 8, outs.getD k none = none) ∧
      last.posedgeCeN = some next ∧ next.Rests first.host := by
  obtain ⟨outs, next, run, ready', qpi, kept⟩ := transact_enterQpi ready spi fun _ => 0#3
  obtain ⟨last, run, edge⟩ := Psram.clocks_of_transact run
  refine ⟨outs, last, next, run, fun k early => ?_, edge, ready', qpi, kept⟩
  obtain ⟨chip, _, before, _, _, shown⟩ := @Psram.clocks_take _ _ _ _ run k early
  have bits := clocks_bits ready spi (fun _ => 0#3) (fun i => qpicmd.extractLsb' (7 - i) 1)
    (Nat.le_of_lt_succ early)
  have prefix_ : (enterQpi fun _ => 0#3).take k =
      (List.range k).map fun i => 0#3 ++ qpicmd.extractLsb' (7 - i) 1 := by
    rw [enterQpi, ← List.map_take, List.take_range, Nat.min_eq_left (Nat.le_of_lt early)]
  rw [prefix_, bits] at before
  simp only [Option.some.injEq, Prod.mk.injEq] at before
  rw [shown, ← before.2]
  simp [Psram.shows, Psram.doutEn, ready.state]

/-!
## Transactions of the controller
-/

/-- The chip has taken the first `k` nibbles of the transaction `dins` that it ends in `last`
having shown `outs`; the next edge of the clock is the rising one when `rise` is set. -/
structure Serial (sys : PsramSystem) (dins : List Nibble) (outs : List (Option Nibble))
    (last : Psram) (k : Nat) (rise : Bool) : Prop where
  run : ∃ first : Psram, first.clocks dins = some (outs, last) ∧
    ∃ chip, sys.chip = some chip ∧ first.clocks (dins.take k) = some (outs.take k, chip)
  sck : sys.sck = (!rise && decide (0 < k))
  ceN : sys.ceN = (!rise && decide (k = 0))

/-- Once the select is high the chip rests. -/
def Settles (sys : PsramSystem) (host : Host) : Prop :=
  ∃ chip rest : Psram, sys.chip = some chip ∧
    (if sys.ceN then some chip else chip.posedgeCeN) = some rest ∧ rest.Rests host

/-- All nibbles are taken and the select may rise. -/
theorem Serial.settles {sys : PsramSystem} {dins : List Nibble} {outs : List (Option Nibble)}
    {last next : Psram} {k : Nat} {rise : Bool} {host : Host}
    (serial : Serial sys dins outs last k rise) (all : k = dins.length) (positive : 0 < k)
    (edge : last.posedgeCeN = some next) (rests : next.Rests host) : Settles sys host := by
  obtain ⟨⟨first, run, chip, held, taken⟩, -, ceN⟩ := serial
  rw [all, List.take_length, run] at taken
  simp only [Option.some.injEq, Prod.mk.injEq] at taken
  have selected : sys.ceN = false := by simp [ceN, Nat.ne_of_gt positive]
  exact ⟨chip, next, held, by simp [selected, ← taken.2, edge], rests⟩

/-- The nibble that the chip shows between two edges. -/
theorem Serial.shown {sys : PsramSystem} {dins : List Nibble} {outs : List (Option Nibble)}
    {last : Psram} {k : Nat} {rise : Bool} (serial : Serial sys dins outs last k rise)
    (within : k < dins.length) : ∃ chip, sys.chip = some chip ∧ outs.getD k none = chip.shows := by
  obtain ⟨⟨first, run, chip, held, taken⟩, -, -⟩ := serial
  obtain ⟨middle, _, same, _, _, shown⟩ := Psram.clocks_take run within
  rw [taken] at same
  cases same
  exact ⟨chip, held, shown⟩

section Cycle

variable {sys : PsramSystem} {req : ApbReq} {float : Nibble} {dins : List Nibble}
  {outs : List (Option Nibble)} {last : Psram} {k : Nat} {host : Host}

theorem Settles.high (settles : Settles sys host) (sck : (sys.ctrl.pins req).sck = false)
    (ceN : (sys.ctrl.pins req).ceN = true) :
    Settles (sys.step req float) host := by
  obtain ⟨chip, rest, held, edge, rests⟩ := settles
  have next : (sys.step req float).chip = some rest := by
    simp [PsramSystem.step, PsramSystem.chipNext, held, sck, ceN, Psram.edges_high, edge]
  have high : (sys.step req float).ceN = true := ceN
  exact ⟨rest, rest, next, by simp [high], rests⟩

/-- Selecting a chip that rests starts a transaction. -/
theorem Settles.select (settles : Settles sys host) (high : (sys.ctrl.pins req).ceN = true)
    (low : (sys.ctrl.pins req).sck = false) :
    ∃ first : Psram, first.Rests host ∧ ∀ dins outs last, first.clocks dins = some (outs, last) →
      Serial (sys.step req float) dins outs last 0 false := by
  obtain ⟨chip, rest, held, edge, rests⟩ := settles
  have next : (sys.step req float).chip = some rest := by
    simp [PsramSystem.step, PsramSystem.chipNext, held, low, high, Psram.edges_high, edge]
  refine ⟨rest, rests, fun dins outs last run => ⟨⟨rest, run, rest, next, rfl⟩, low, high⟩⟩

theorem Serial.low (serial : Serial sys dins outs last k false)
    (sck : (sys.ctrl.pins req).sck = false) (ceN : (sys.ctrl.pins req).ceN = false) :
    Serial (sys.step req float) dins outs last k true := by
  obtain ⟨⟨first, run, chip, held, before⟩, -, -⟩ := serial
  have next : (sys.step req float).chip = some chip := by
    simp [PsramSystem.step, PsramSystem.chipNext, held, sck, ceN, Psram.edges_low]
  exact ⟨⟨first, run, chip, next, before⟩, sck, ceN⟩

/-- A rising edge with the next nibble on the pins. -/
theorem Serial.high (serial : Serial sys dins outs last k true)
    (sck : (sys.ctrl.pins req).sck = true) (ceN : (sys.ctrl.pins req).ceN = false)
    (within : k < dins.length)
    (carried : ∀ chip : Psram, sys.chip = some chip → outs.getD k none = chip.shows →
      chip.posedgeSck (qspiDio (sys.ctrl.pins req) chip float) =
        chip.posedgeSck (dins.get ⟨k, within⟩)) :
    Serial (sys.step req float) dins outs last (k + 1) false := by
  obtain ⟨⟨first, run, chip, held, before⟩, wasLow, selected⟩ := serial
  obtain ⟨middle, next, same, edge, after, shown⟩ := Psram.clocks_take run within
  obtain rfl : middle = chip := by
    rw [before] at same
    simpa using same.symm
  have taken : (sys.step req float).chip = some next := by
    simp only [Bool.not_true, Bool.false_and] at wasLow selected
    simp only [PsramSystem.step, PsramSystem.chipNext, held, sck, ceN, wasLow, selected,
      Psram.edges_rise, Option.bind_eq_bind, Option.bind_some]
    rw [carried _ held shown, edge]
  refine ⟨⟨first, run, next, taken, after⟩, ?_, ?_⟩
  · simpa [PsramSystem.step] using sck
  · simpa [PsramSystem.step] using ceN

end Cycle

end Ysyx.Soc
