import Mathlib.Logic.Function.Basic
import Ysyx.Lib.Slice

/-! The PSRAM chip model `psram.v` in QPI mode, with the DPI functions behind it and the
arrays of the simulator they reach. -/

set_option autoImplicit false

namespace Ysyx.Soc

open Lib (slice blit)

abbrev Byte := BitVec 8
abbrev Nibble := BitVec 4

/-!
## The host side
-/

/-- The arrays of `mem.cpp`. -/
inductive HostArray where
  | mrom | flash | psram
  deriving DecidableEq, Repr

abbrev Host := HostArray → Nat → Byte

/-- `guest_to_host`; nothing when the address is invalid and its assertion fails. -/
def guestToHost (paddr : BitVec 32) : Option (HostArray × Nat) :=
  if 0x20000000#32 ≤ paddr ∧ paddr ≤ 0x20000fff#32 then
    some (.mrom, (paddr - 0x20000000#32).toNat)
  else if 0x30000000#32 ≤ paddr ∧ paddr ≤ 0x3fffffff#32 then
    some (.flash, (paddr - 0x30000000#32).toNat)
  else if 0x80000000#32 ≤ paddr ∧ paddr ≤ 0x9fffffff#32 then
    some (.psram, (paddr - 0x80000000#32).toNat)
  else none

/-- The low bytes of a word in the order of a little-endian store. -/
def leBytes (data : BitVec 32) (len : Nat) : List Byte :=
  (List.range len).map fun i => data.extractLsb' (8 * i) 8

/-- `_pmem_write`: a `len` other than 1, 2 and 4 writes nothing. -/
def pmemWrite (host : Host) (addr data : BitVec 32) (len : Nat) : Option Host :=
  (guestToHost addr).map fun (array, i) =>
    if len = 1 ∨ len = 2 ∨ len = 4 then
      Function.update host array (blit (host array) i (leBytes data len))
    else host

/-- `_pmem_read` with `len` 4, the only one the DPI functions use. -/
def pmemRead4 (host : Host) (addr : BitVec 32) : Option (BitVec 32) :=
  (guestToHost addr).map fun (array, i) =>
    host array (i + 3) ++ host array (i + 2) ++ host array (i + 1) ++ host array i

def psramStart : BitVec 32 := 0x80000000#32
def psramEnd : BitVec 32 := 0x9fffffff#32

/-- `psram_read`; outside the PSRAM the word keeps its value. -/
def psramRead (host : Host) (addr old : BitVec 32) : Option (BitVec 32) :=
  let addr := psramStart + addr
  if psramStart ≤ addr ∧ addr ≤ psramEnd then pmemRead4 host addr else some old

/-- `psram_write`: `mask` is the number of nibbles, and `data` is shifted right as a signed
word; nothing when the distance is out of range for a shift. -/
def psramWrite (host : Host) (addr data mask : BitVec 32) : Option Host :=
  let addr := psramStart + addr
  if psramStart ≤ addr ∧ addr ≤ psramEnd then
    if mask = 0#32 ∨ 8#32 < mask then none
    else pmemWrite host addr (data.sshiftRight ((8 - mask.toNat) * 4)) (mask.toNat / 2)
  else some host

/-!
## The chip
-/

@[simp] def rcmd : BitVec 8 := 0xEB#8
@[simp] def wcmd : BitVec 8 := 0x38#8
@[simp] def qpicmd : BitVec 8 := 0x35#8

inductive PsramState where
  | cmd_t | addr_t | data_t | delay_t | err_t
  deriving DecidableEq, Repr

structure Psram where
  qpiMode : Bool
  cmd : BitVec 8
  addr : BitVec 24
  data : BitVec 32
  rdata : BitVec 32
  counter : BitVec 8
  state : PsramState
  host : Host

/-- The bytes of a word in reverse order. -/
def bswap (x : BitVec 32) : BitVec 32 :=
  x.extractLsb' 0 8 ++ x.extractLsb' 8 8 ++ x.extractLsb' 16 8 ++ x.extractLsb' 24 8

namespace Psram

/-- What is shifted out, from its highest nibble on. -/
def shiftOut (psram : Psram) : BitVec 32 :=
  if psram.counter = 0#8 then bswap psram.rdata else psram.data

def dout (psram : Psram) : Nibble :=
  (if psram.state = .data_t ∧ psram.counter = 0#8 then bswap psram.rdata
    else psram.data).extractLsb' 28 4

def doutEn (psram : Psram) : Bool :=
  (psram.state == .data_t || psram.state == .delay_t) && psram.cmd == rcmd

/-- A rising edge of `sck` while `ce_n` is low; nothing at the `$fatal` of the error state. -/
def posedgeSck (psram : Psram) (din : Nibble) : Option Psram :=
  let counter := psram.counter
  match psram.state with
  | .cmd_t =>
      let last := if psram.qpiMode then 1#8 else 7#8
      some { psram with
        counter := if counter < last then counter + 1#8 else 0#8
        state := if counter = last then .addr_t else .cmd_t
        cmd :=
          if psram.qpiMode then psram.cmd.extractLsb' 0 4 ++ din
          else psram.cmd.extractLsb' 0 7 ++ din.extractLsb' 0 1 }
  | .addr_t =>
      some { psram with
        counter := if counter < 5#8 then counter + 1#8 else 0#8
        state :=
          if counter = 5#8 then
            if psram.cmd = rcmd then .delay_t else if psram.cmd = wcmd then .data_t else .err_t
          else .addr_t
        addr := if counter < 6#8 then psram.addr.extractLsb' 0 20 ++ din else psram.addr }
  | .data_t =>
      some { psram with
        counter := counter + 1#8
        data :=
          if psram.cmd = rcmd then psram.shiftOut.extractLsb' 0 28 ++ 0#4
          else if psram.cmd = wcmd then psram.data.extractLsb' 0 28 ++ din
          else psram.data }
  | .delay_t =>
      (if counter = 0#8 ∧ psram.cmd = rcmd then
          psramRead psram.host (psram.addr.setWidth 32) psram.rdata
        else some psram.rdata).map fun rdata =>
          { psram with
            counter := if counter < 6#8 then counter + 1#8 else 0#8
            state := if counter = 6#8 then .data_t else .delay_t
            rdata := rdata }
  | .err_t => none

/-- The rising edge of `ce_n`, which ends a transaction. -/
def posedgeCeN (psram : Psram) : Option Psram :=
  (if psram.cmd = wcmd then
      psramWrite psram.host (psram.addr.setWidth 32) (bswap psram.data) (psram.counter.setWidth 32)
    else some psram.host).map fun host =>
      { psram with
        qpiMode := psram.qpiMode || psram.cmd == qpicmd
        cmd := 0#8
        addr := 0#24
        data := 0#32
        counter := 0#8
        state := .cmd_t
        host := host }

/-- Clocks with the nibbles of the list on the pins; what the chip drives in each of them. -/
def clocks : List Nibble → Psram → Option (List (Option Nibble) × Psram)
  | [], psram => some ([], psram)
  | din :: rest, psram => do
      let next ← psram.posedgeSck din
      let (outs, last) ← clocks rest next
      some ((if psram.doutEn then some psram.dout else none) :: outs, last)

/-- A transaction: the clocks while `ce_n` is low, and its rising edge. -/
def transact (psram : Psram) (dins : List Nibble) : Option (List (Option Nibble) × Psram) := do
  let (outs, last) ← psram.clocks dins
  let next ← last.posedgeCeN
  some (outs, next)

end Psram

/-!
## Transactions
-/

/-- High nibble first. -/
def nibbles (byte : Byte) : List Nibble := [byte.extractLsb' 4 4, byte.extractLsb' 0 4]

def addrNibbles (addr : BitVec 24) : List Nibble :=
  [addr.extractLsb' 20 4, addr.extractLsb' 16 4, addr.extractLsb' 12 4, addr.extractLsb' 8 4,
    addr.extractLsb' 4 4, addr.extractLsb' 0 4]

/-- The `35h` command of the SPI mode, one bit a clock on `din[0]`. -/
def enterQpi (high : Nat → BitVec 3) : List Nibble :=
  (List.range 8).map fun i => high i ++ qpicmd.extractLsb' (7 - i) 1

/-- A QPI transaction. In a read `idle` is what is on the pins while the chip has them: the
seven clocks of the delay state and one for each data nibble. -/
inductive QpiTx where
  | write (addr : BitVec 24) (bytes : List Byte)
  | read (addr : BitVec 24) (count : Nat) (idle : Nat → Nibble)

def QpiTx.Valid : QpiTx → Prop
  | .write _ bytes => bytes.length = 1 ∨ bytes.length = 2 ∨ bytes.length = 4
  | .read _ count _ => count ≤ 8

def QpiTx.drive : QpiTx → List Nibble
  | .write addr bytes => nibbles wcmd ++ addrNibbles addr ++ bytes.flatMap nibbles
  | .read addr count idle =>
      nibbles rcmd ++ addrNibbles addr ++ (List.range (7 + count)).map idle

/-- The data nibbles that come out after command, address and delay. -/
def QpiTx.result (outs : List (Option Nibble)) : QpiTx → List (Option Nibble)
  | .write _ _ => []
  | .read _ _ _ => outs.drop 15

def Psram.run : List QpiTx → Psram → Option (List (List (Option Nibble)) × Psram)
  | [], psram => some ([], psram)
  | tx :: txs, psram => do
      let (outs, next) ← psram.transact tx.drive
      let (results, last) ← run txs next
      some (tx.result outs :: results, last)

/-!
## The byte memory it is for
-/

/-- What a transaction returns, and the memory after it. -/
def QpiTx.apply (mem : Nat → Byte) : QpiTx → List (Option Nibble) × (Nat → Byte)
  | .write addr bytes => ([], blit mem addr.toNat bytes)
  | .read addr count _ =>
      ((((slice mem addr.toNat 4).flatMap nibbles).take count).map some, mem)

def memoryRun (mem : Nat → Byte) : List QpiTx → List (List (Option Nibble)) × (Nat → Byte)
  | [] => ([], mem)
  | tx :: txs =>
      let (result, mem) := tx.apply mem
      let (results, mem) := memoryRun mem txs
      (result :: results, mem)

end Ysyx.Soc
