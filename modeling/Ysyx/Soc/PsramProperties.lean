import Mathlib.Data.List.Induction
import Ysyx.Soc.Psram

/-! The PSRAM chip in QPI mode is a byte memory: each transaction returns what the memory
returns and leaves the chip ready for the next command. -/

set_option autoImplicit false

namespace Ysyx.Soc

open Lib (slice blit)

/-!
## Words and nibbles
-/

theorem join_nibbles (before byte : Byte) :
    ((before.extractLsb' 0 4 ++ byte.extractLsb' 4 4).extractLsb' 0 4 ++
      byte.extractLsb' 0 4 : BitVec 8) = byte := by
  apply BitVec.eq_of_getLsbD_eq
  intro i bound
  simp only [BitVec.getLsbD_append, BitVec.getLsbD_extractLsb']
  grind

/-- A word after one more byte has been shifted in from below. -/
def pushByte (data : BitVec 32) (byte : Byte) : BitVec 32 := data.extractLsb' 0 24 ++ byte

theorem push_nibbles (data : BitVec 32) (byte : Byte) :
    ((data.extractLsb' 0 28 ++ byte.extractLsb' 4 4 : BitVec 32).extractLsb' 0 28 ++
      byte.extractLsb' 0 4 : BitVec 32) = pushByte data byte := by
  apply BitVec.eq_of_getLsbD_eq
  intro i bound
  simp only [pushByte, BitVec.getLsbD_append, BitVec.getLsbD_extractLsb']
  grind

/-- The address after one more nibble. -/
def pushNibble (addr : BitVec 24) (din : Nibble) : BitVec 24 := addr.extractLsb' 0 20 ++ din

theorem getLsbD_pushNibble (addr : BitVec 24) (din : Nibble) (i : Nat) :
    (pushNibble addr din).getLsbD i =
      if i < 4 then din.getLsbD i else decide (i < 24) && addr.getLsbD (i - 4) := by
  have room (high : ¬ i < 4) : (i - 4 < 20) = (i < 24) := propext (by omega)
  simp only [pushNibble, BitVec.getLsbD_append, BitVec.getLsbD_extractLsb']
  by_cases low : i < 4
  · simp [low]
  · simp [low, room low]

theorem getLsbD_pushByte (data : BitVec 32) (byte : Byte) (i : Nat) :
    (pushByte data byte).getLsbD i =
      if i < 8 then byte.getLsbD i else decide (i < 32) && data.getLsbD (i - 8) := by
  have room (high : ¬ i < 8) : (i - 8 < 24) = (i < 32) := propext (by omega)
  simp only [pushByte, BitVec.getLsbD_append, BitVec.getLsbD_extractLsb']
  by_cases low : i < 8
  · simp [low]
  · simp [low, room low]

theorem push_address (old addr : BitVec 24) : (addrNibbles addr).foldl pushNibble old = addr := by
  apply BitVec.eq_of_getLsbD_eq
  intro i bound
  simp only [addrNibbles, List.foldl_cons, List.foldl_nil, getLsbD_pushNibble,
    BitVec.getLsbD_extractLsb']
  grind

theorem getLsbD_bswap (x : BitVec 32) (i : Nat) :
    (bswap x).getLsbD i = (decide (i < 32) && x.getLsbD (24 - i / 8 * 8 + i % 8)) := by
  simp only [bswap, BitVec.getLsbD_append, BitVec.getLsbD_extractLsb']
  grind

/-- The byte sent last is the lowest of the word. -/
theorem getLsbD_foldl_pushByte (bytes : List Byte) (data : BitVec 32) {j i : Nat}
    (inByte : i < 8) (inWord : j < 4) (sent : j < bytes.length) :
    (bytes.foldl pushByte data).getLsbD (8 * j + i) =
      (bytes.get ⟨bytes.length - 1 - j, by omega⟩).getLsbD i := by
  induction bytes using List.reverseRecOn generalizing j with
  | nil => simp at sent
  | append_singleton rest byte ih =>
      rw [List.foldl_append, List.foldl_cons, List.foldl_nil, getLsbD_pushByte]
      cases j with
      | zero => simp [inByte]
      | succ j =>
          have before : 8 * (j + 1) + i - 8 = 8 * j + i := by omega
          have inWord' : 8 * (j + 1) + i < 32 := by omega
          have sent' : j < rest.length := by simpa using sent
          have place : (rest ++ [byte]).length - 1 - (j + 1) = rest.length - 1 - j := by
            simp
            omega
          rw [if_neg (by omega), before, ih (by omega) sent']
          simp only [inWord', decide_true, Bool.true_and, place, List.get_eq_getElem]
          rw [List.getElem_append_left]

/-- The C side finds the bytes sent in the low bytes of its shifted word. -/
theorem leBytes_pushed (bytes : List Byte) (size : bytes.length ≤ 4) :
    leBytes ((bswap (bytes.foldl pushByte 0#32)).sshiftRight ((8 - 2 * bytes.length) * 4))
      bytes.length = bytes := by
  apply List.ext_getElem (by simp [leBytes])
  intro k _ inBytes
  simp only [leBytes, List.getElem_map, List.getElem_range]
  apply BitVec.eq_of_getLsbD_eq
  intro i bound
  have inWord : (8 - 2 * bytes.length) * 4 + (8 * k + i) < 32 := by omega
  have place : 24 - ((8 - 2 * bytes.length) * 4 + (8 * k + i)) / 8 * 8 +
      ((8 - 2 * bytes.length) * 4 + (8 * k + i)) % 8 = 8 * (bytes.length - 1 - k) + i := by omega
  have reversed : bytes.length - 1 - (bytes.length - 1 - k) = k := by omega
  have stored : ¬ 32 ≤ 8 * k + i := by omega
  simp only [BitVec.getLsbD_extractLsb', BitVec.getLsbD_sshiftRight, getLsbD_bswap, inWord, place,
    stored, bound, decide_true, decide_false, Bool.true_and, Bool.not_false, if_true]
  rw [getLsbD_foldl_pushByte bytes _ bound (by omega) (by omega)]
  simp only [reversed, List.get_eq_getElem]

/-!
## The arrays behind the chip
-/

theorem toNat_psramStart_add (addr : BitVec 24) :
    (psramStart + addr.setWidth 32).toNat = 0x80000000 + addr.toNat := by
  have bound := addr.isLt
  simp only [psramStart, BitVec.toNat_add, BitVec.toNat_setWidth, BitVec.toNat_ofNat]
  omega

theorem psram_inside (addr : BitVec 24) :
    psramStart ≤ psramStart + addr.setWidth 32 ∧ psramStart + addr.setWidth 32 ≤ psramEnd := by
  have bound := addr.isLt
  constructor
  · rw [BitVec.le_def, toNat_psramStart_add, psramStart, BitVec.toNat_ofNat]
    omega
  · rw [BitVec.le_def, toNat_psramStart_add, psramEnd, BitVec.toNat_ofNat]
    omega

theorem guestToHost_psram (addr : BitVec 24) :
    guestToHost (psramStart + addr.setWidth 32) = some (.psram, addr.toNat) := by
  obtain ⟨low, high⟩ := psram_inside addr
  have offset : (psramStart + addr.setWidth 32 - psramStart).toNat = addr.toNat := by
    rw [BitVec.add_comm, BitVec.add_sub_cancel, BitVec.toNat_setWidth,
      Nat.mod_eq_of_lt (Nat.lt_trans addr.isLt (by decide))]
  have above : 0x80000000 ≤ (psramStart + addr.setWidth 32).toNat := by
    rw [toNat_psramStart_add]
    exact Nat.le_add_right _ _
  have notMrom : ¬ psramStart + addr.setWidth 32 ≤ 0x20000fff#32 := by
    rw [BitVec.le_def, BitVec.toNat_ofNat]
    omega
  have notFlash : ¬ psramStart + addr.setWidth 32 ≤ 0x3fffffff#32 := by
    rw [BitVec.le_def, BitVec.toNat_ofNat]
    omega
  rw [guestToHost, if_neg fun inside => notMrom inside.2,
    if_neg fun inside => notFlash inside.2, if_pos ⟨low, high⟩]
  exact congrArg (fun i => some (HostArray.psram, i)) offset

theorem psramRead_inside (host : Host) (addr : BitVec 24) (old : BitVec 32) :
    psramRead host (addr.setWidth 32) old =
      some (host .psram (addr.toNat + 3) ++ host .psram (addr.toNat + 2) ++
        host .psram (addr.toNat + 1) ++ host .psram addr.toNat) := by
  simp only [psramRead]
  rw [if_pos (psram_inside addr), pmemRead4, guestToHost_psram]
  rfl

/-- The nibble count as the mask selects the shift and the width of the store. -/
theorem psramWrite_inside (host : Host) (addr : BitVec 24) {bytes : List Byte}
    (size : bytes.length = 1 ∨ bytes.length = 2 ∨ bytes.length = 4) :
    psramWrite host (addr.setWidth 32) (bswap (bytes.foldl pushByte 0#32))
        ((BitVec.ofNat 8 (2 * bytes.length)).setWidth 32) =
      some (Function.update host .psram (blit (host .psram) addr.toNat bytes)) := by
  have mask : ((BitVec.ofNat 8 (2 * bytes.length)).setWidth 32).toNat = 2 * bytes.length := by
    rw [BitVec.toNat_setWidth, BitVec.toNat_ofNat]
    omega
  have nibbleCount : ¬ ((BitVec.ofNat 8 (2 * bytes.length)).setWidth 32 = 0#32 ∨
      8#32 < (BitVec.ofNat 8 (2 * bytes.length)).setWidth 32) := by
    rintro (zero | many)
    · rw [zero, BitVec.toNat_ofNat] at mask
      omega
    · rw [BitVec.lt_def, mask, BitVec.toNat_ofNat] at many
      omega
  have width : 2 * bytes.length / 2 = bytes.length := by omega
  simp only [psramWrite]
  rw [if_pos (psram_inside addr), if_neg nibbleCount, mask, width, pmemWrite, guestToHost_psram]
  simp only [Option.map_some, if_pos size]
  rw [leBytes_pushed bytes (by omega)]

/-!
## Phases of a transaction
-/

namespace Psram

/-- Ready for a command. -/
structure Ready (psram : Psram) : Prop where
  state : psram.state = .cmd_t
  counter : psram.counter = 0#8
  cmd : psram.cmd = 0#8
  addr : psram.addr = 0#24
  data : psram.data = 0#32

theorem posedgeCeN_ready {psram next : Psram} (edge : psram.posedgeCeN = some next) :
    next.Ready := by
  simp only [posedgeCeN, Option.map_eq_some_iff] at edge
  obtain ⟨host, -, rfl⟩ := edge
  exact ⟨rfl, rfl, rfl, rfl, rfl⟩

theorem posedgeCeN_write (psram : Psram) {host : Host} (cmd : psram.cmd = wcmd)
    (stored : psramWrite psram.host (psram.addr.setWidth 32) (bswap psram.data)
      (psram.counter.setWidth 32) = some host) :
    ∃ next, psram.posedgeCeN = some next ∧ next.qpiMode = psram.qpiMode ∧ next.host = host := by
  rw [posedgeCeN, if_pos cmd, stored]
  exact ⟨_, rfl, by simp [cmd], rfl⟩

theorem posedgeCeN_keeps (psram : Psram) (cmd : psram.cmd ≠ wcmd) :
    ∃ next, psram.posedgeCeN = some next ∧
      next.qpiMode = (psram.qpiMode || psram.cmd == qpicmd) ∧ next.host = psram.host := by
  rw [posedgeCeN, if_neg cmd]
  exact ⟨_, rfl, rfl, rfl⟩

theorem transact_eq {psram last next : Psram} {dins : List Nibble} {outs : List (Option Nibble)}
    (clocked : psram.clocks dins = some (outs, last)) (edge : last.posedgeCeN = some next) :
    psram.transact dins = some (outs, next) := by
  rw [transact, clocked]
  simp [edge]

theorem clocks_append {dins dins' : List Nibble} {outs outs' : List (Option Nibble)}
    {psram middle last : Psram} (early : psram.clocks dins = some (outs, middle))
    (late : middle.clocks dins' = some (outs', last)) :
    psram.clocks (dins ++ dins') = some (outs ++ outs', last) := by
  induction dins generalizing psram outs with
  | nil =>
      cases early
      exact late
  | cons din rest ih =>
      simp only [clocks, Option.bind_eq_bind, Option.bind_eq_some_iff] at early
      obtain ⟨next, edge, ⟨tail, middle'⟩, run, result⟩ := early
      cases result
      rw [List.cons_append, clocks, edge]
      simp [ih run]

theorem clocks_command {psram : Psram} (ready : psram.Ready) (qpi : psram.qpiMode = true)
    (command : Byte) :
    psram.clocks (nibbles command) =
      some ([none, none], { psram with cmd := command, state := .addr_t }) := by
  obtain ⟨state, counter, cmd, -, -⟩ := ready
  cases psram
  simp only at state counter cmd qpi
  subst state counter cmd qpi
  have joined := join_nibbles 0#8 command
  simpa [clocks, nibbles, posedgeSck, doutEn] using joined

/-- The state after the address. -/
def afterAddress (cmd : Byte) : PsramState :=
  if cmd = rcmd then .delay_t else if cmd = wcmd then .data_t else .err_t

theorem clocks_address (psram : Psram) (state : psram.state = .addr_t)
    (counter : psram.counter = 0#8) (addr : BitVec 24) :
    psram.clocks (addrNibbles addr) =
      some (List.replicate 6 none,
        { psram with addr := addr, state := afterAddress psram.cmd }) := by
  have pushed := push_address psram.addr addr
  cases psram
  simp only at state counter pushed
  subst state counter
  simpa [clocks, addrNibbles, posedgeSck, doutEn, afterAddress, pushNibble] using pushed

theorem clocks_header {psram : Psram} (ready : psram.Ready) (qpi : psram.qpiMode = true)
    (command : Byte) (addr : BitVec 24) :
    psram.clocks (nibbles command ++ addrNibbles addr) =
      some (List.replicate 8 none,
        { psram with cmd := command, addr := addr, state := afterAddress command }) := by
  have address := clocks_address { psram with cmd := command, state := .addr_t }
    rfl ready.counter addr
  exact clocks_append (clocks_command ready qpi command) address

theorem clocks_delay (psram : Psram) (state : psram.state = .delay_t)
    (counter : psram.counter = 0#8) (cmd : psram.cmd = rcmd) {word : BitVec 32}
    (fetched : psramRead psram.host (psram.addr.setWidth 32) psram.rdata = some word)
    (idle : List Nibble) (length : idle.length = 7) :
    ∃ outs, outs.length = 7 ∧
      psram.clocks idle = some (outs, { psram with state := .data_t, rdata := word }) := by
  match idle, length with
  | [_, _, _, _, _, _, _], _ =>
      cases psram
      simp only at state counter cmd fetched
      subst state counter cmd
      simp [clocks, posedgeSck, fetched]

/-- The nibbles a word shifts out, with zeros behind it. -/
def topNibbles : Nat → BitVec 32 → List Nibble
  | 0, _ => []
  | n + 1, word => word.extractLsb' 28 4 :: topNibbles n (word.extractLsb' 0 28 ++ 0#4)

theorem take_topNibbles {n m : Nat} (word : BitVec 32) (fits : n ≤ m) :
    (topNibbles m word).take n = topNibbles n word := by
  induction n generalizing m word with
  | zero => rfl
  | succ n ih =>
      cases m with
      | zero => omega
      | succ m => rw [topNibbles, topNibbles, List.take_succ_cons, ih _ (by omega)]

theorem topNibbles_succ_succ (n : Nat) (word : BitVec 32) :
    topNibbles (n + 2) word =
      nibbles (word.extractLsb' 24 8) ++ topNibbles n (pushByte word 0#8) := by
  have high : (word.extractLsb' 24 8).extractLsb' 4 4 = word.extractLsb' 28 4 := by
    apply BitVec.eq_of_getLsbD_eq
    intro i bound
    simp only [BitVec.getLsbD_extractLsb']
    grind
  have low : (word.extractLsb' 24 8).extractLsb' 0 4 =
      (word.extractLsb' 0 28 ++ 0#4 : BitVec 32).extractLsb' 28 4 := by
    apply BitVec.eq_of_getLsbD_eq
    intro i bound
    simp only [BitVec.getLsbD_append, BitVec.getLsbD_extractLsb']
    grind
  have rest := push_nibbles word 0#8
  have zeros (k : Nat) : (0#8).extractLsb' k 4 = 0#4 := by simp
  rw [zeros, zeros] at rest
  rw [topNibbles, topNibbles, rest, nibbles, high, low]
  rfl

theorem top_pushByte (word : BitVec 32) (a b c d : Byte) :
    (pushByte (pushByte (pushByte (pushByte word a) b) c) d).extractLsb' 24 8 = a := by
  apply BitVec.eq_of_getLsbD_eq
  intro i bound
  simp only [BitVec.getLsbD_extractLsb', getLsbD_pushByte]
  grind

theorem bswap_append (a b c d : Byte) :
    bswap (d ++ c ++ b ++ a) = pushByte (pushByte (pushByte (pushByte 0#32 a) b) c) d := by
  apply BitVec.eq_of_getLsbD_eq
  intro i bound
  simp only [getLsbD_bswap, getLsbD_pushByte, BitVec.getLsbD_append]
  grind

theorem topNibbles_bswap (a b c d : Byte) :
    topNibbles 8 (bswap (d ++ c ++ b ++ a)) = [a, b, c, d].flatMap nibbles := by
  rw [bswap_append]
  simp only [topNibbles_succ_succ, top_pushByte, List.flatMap_cons, List.flatMap_nil]
  rfl

theorem clocks_shiftOut (idle : List Nibble) (psram : Psram) (state : psram.state = .data_t)
    (cmd : psram.cmd = rcmd) (room : psram.counter.toNat + idle.length < 256) :
    ∃ last : Psram,
      psram.clocks idle = some ((topNibbles idle.length psram.shiftOut).map some, last) ∧
      last.qpiMode = psram.qpiMode ∧ last.cmd = rcmd ∧ last.host = psram.host := by
  induction idle generalizing psram with
  | nil => exact ⟨psram, rfl, rfl, cmd, rfl⟩
  | cons din rest ih =>
      rw [List.length_cons] at room
      let next : Psram :=
        { psram with
          counter := psram.counter + 1#8
          data := psram.shiftOut.extractLsb' 0 28 ++ 0#4 }
      have counted : next.counter.toNat = psram.counter.toNat + 1 := by
        simp only [next, BitVec.toNat_add, BitVec.toNat_ofNat]
        omega
      have started : next.counter ≠ 0#8 := by
        intro zero
        simp [zero] at counted
      have edge : psram.posedgeSck din = some next := by simp [posedgeSck, state, cmd, next]
      have enabled : psram.doutEn = true := by simp [doutEn, state, cmd]
      have driven : psram.dout = psram.shiftOut.extractLsb' 28 4 := by simp [dout, shiftOut, state]
      have shifted : next.shiftOut = psram.shiftOut.extractLsb' 0 28 ++ 0#4 := by
        rw [shiftOut, if_neg started]
      obtain ⟨last, run, kept⟩ := ih next state cmd (by omega)
      refine ⟨last, ?_, kept⟩
      rw [clocks, edge, List.length_cons, topNibbles, enabled, driven, ← shifted]
      simp [run]

theorem clocks_nibble {psram : Psram} (din : Nibble) (state : psram.state = .data_t)
    (cmd : psram.cmd = wcmd) :
    psram.clocks [din] = some ([none], { psram with
      counter := psram.counter + 1#8
      data := psram.data.extractLsb' 0 28 ++ din }) := by
  simp [clocks, posedgeSck, doutEn, state, cmd]

theorem clocks_byte {psram : Psram} (byte : Byte) (state : psram.state = .data_t)
    (cmd : psram.cmd = wcmd) :
    psram.clocks (nibbles byte) = some ([none, none], { psram with
      counter := psram.counter + 2#8
      data := pushByte psram.data byte }) := by
  have both := clocks_append (clocks_nibble (byte.extractLsb' 4 4) state cmd)
    (clocks_nibble (byte.extractLsb' 0 4) state cmd)
  simpa [nibbles, push_nibbles, BitVec.add_assoc] using both

theorem clocks_shiftIn (bytes : List Byte) (psram : Psram) (state : psram.state = .data_t)
    (cmd : psram.cmd = wcmd) :
    psram.clocks (bytes.flatMap nibbles) =
      some (List.replicate (2 * bytes.length) none,
        { psram with
          counter := psram.counter + BitVec.ofNat 8 (2 * bytes.length)
          data := bytes.foldl pushByte psram.data }) := by
  induction bytes generalizing psram with
  | nil => simp [clocks]
  | cons byte rest ih =>
      have whole := clocks_append (clocks_byte byte state cmd) (ih _ state cmd)
      have count : psram.counter + 2#8 + BitVec.ofNat 8 (2 * rest.length) =
          psram.counter + BitVec.ofNat 8 (2 * rest.length + 2) := by
        rw [BitVec.add_assoc, BitVec.add_comm 2#8, BitVec.ofNat_add]
      rw [List.flatMap_cons, whole, List.foldl_cons, List.length_cons, count, Nat.mul_add]
      simp [List.replicate_succ]

end Psram

/-!
## Transactions
-/

theorem transact_write {psram : Psram} (ready : psram.Ready) (qpi : psram.qpiMode = true)
    (addr : BitVec 24) {bytes : List Byte}
    (size : bytes.length = 1 ∨ bytes.length = 2 ∨ bytes.length = 4) :
    ∃ outs next, psram.transact (QpiTx.write addr bytes).drive = some (outs, next) ∧
      next.Ready ∧ next.qpiMode = true ∧
      next.host = Function.update psram.host .psram (blit (psram.host .psram) addr.toNat bytes) := by
  have header := Psram.clocks_header ready qpi wcmd addr
  have body := Psram.clocks_shiftIn bytes
    { psram with cmd := wcmd, addr := addr, state := .data_t } rfl rfl
  have clocked := Psram.clocks_append header body
  have stored := psramWrite_inside psram.host addr size
  obtain ⟨next, edge, mode, host⟩ := Psram.posedgeCeN_write
    { psram with
      cmd := wcmd
      addr := addr
      state := .data_t
      counter := psram.counter + BitVec.ofNat 8 (2 * bytes.length)
      data := bytes.foldl pushByte psram.data } rfl
    (by simpa [ready.counter, ready.data] using stored)
  exact ⟨_, next, Psram.transact_eq clocked edge, Psram.posedgeCeN_ready edge, mode.trans qpi, host⟩

theorem transact_read {psram : Psram} (ready : psram.Ready) (qpi : psram.qpiMode = true)
    (addr : BitVec 24) {count : Nat} (size : count ≤ 8) (idle : Nat → Nibble) :
    ∃ outs next, psram.transact (QpiTx.read addr count idle).drive = some (outs, next) ∧
      outs.drop 15 =
        (((slice (psram.host .psram) addr.toNat 4).flatMap nibbles).take count).map some ∧
      next.Ready ∧ next.qpiMode = true ∧ next.host = psram.host := by
  have header := Psram.clocks_header ready qpi rcmd addr
  obtain ⟨garbage, length, delay⟩ := Psram.clocks_delay
    { psram with cmd := rcmd, addr := addr, state := .delay_t } rfl ready.counter rfl
    (psramRead_inside psram.host addr psram.rdata) ((List.range 7).map idle) (by simp)
  let data := (List.range count).map fun k => idle (7 + k)
  obtain ⟨last, shift, mode, cmd, host⟩ := Psram.clocks_shiftOut data
    { psram with
      cmd := rcmd
      addr := addr
      state := .data_t
      rdata := psram.host .psram (addr.toNat + 3) ++ psram.host .psram (addr.toNat + 2) ++
        psram.host .psram (addr.toNat + 1) ++ psram.host .psram addr.toNat } rfl rfl
    (by simp [data, ready.counter]; omega)
  have drive : (QpiTx.read addr count idle).drive =
      nibbles rcmd ++ addrNibbles addr ++ ((List.range 7).map idle ++ data) := by
    simp [QpiTx.drive, List.range_add, data]
  have shifted := Psram.topNibbles_bswap (psram.host .psram addr.toNat)
    (psram.host .psram (addr.toNat + 1)) (psram.host .psram (addr.toNat + 2))
    (psram.host .psram (addr.toNat + 3))
  have word : slice (psram.host .psram) addr.toNat 4 =
      [psram.host .psram addr.toNat, psram.host .psram (addr.toNat + 1),
        psram.host .psram (addr.toNat + 2), psram.host .psram (addr.toNat + 3)] := rfl
  have clocked := Psram.clocks_append header (Psram.clocks_append delay shift)
  rw [← drive] at clocked
  obtain ⟨next, edge, mode', host'⟩ := Psram.posedgeCeN_keeps last (by simp [cmd])
  refine ⟨_, next, Psram.transact_eq clocked edge, ?_, Psram.posedgeCeN_ready edge, ?_, ?_⟩
  · have header' : (List.replicate 8 (none : Option Nibble) ++ garbage).length = 15 := by
      rw [List.length_append, List.length_replicate, length]
    rw [word, ← shifted, Psram.take_topNibbles _ size, ← List.append_assoc,
      List.drop_left' header', Psram.shiftOut, if_pos ready.counter]
    simp [data]
  · rw [mode', mode, qpi, Bool.true_or]
  · exact host'.trans host

/-- One bit of the command in SPI mode. -/
theorem clocks_bit {psram : Psram} (state : psram.state = .cmd_t) (spi : psram.qpiMode = false)
    (high : BitVec 3) (bit : BitVec 1) :
    psram.clocks [high ++ bit] =
      some ([none], { psram with
        counter := if psram.counter < 7#8 then psram.counter + 1#8 else 0#8
        state := if psram.counter = 7#8 then .addr_t else .cmd_t
        cmd := psram.cmd.extractLsb' 0 7 ++ bit }) := by
  have low : (high ++ bit).extractLsb' 0 1 = bit := BitVec.extractLsb'_append_eq_right
  have silent : psram.doutEn = false := by simp [Psram.doutEn, state]
  simp only [Psram.clocks, Psram.posedgeSck, state, spi, silent, Bool.false_eq_true, if_false]
  rw [low]
  rfl

/-- The bits of the command before the last. -/
theorem clocks_bits {psram : Psram} (ready : psram.Ready) (spi : psram.qpiMode = false)
    (high : Nat → BitVec 3) (bit : Nat → BitVec 1) {n : Nat} (bound : n ≤ 7) :
    psram.clocks ((List.range n).map fun i => high i ++ bit i) =
      some (List.replicate n none, { psram with
        counter := BitVec.ofNat 8 n
        cmd := (List.range n).foldl (fun cmd i => cmd.extractLsb' 0 7 ++ bit i) 0#8 }) := by
  induction n with
  | zero =>
      obtain ⟨state, counter, cmd, -, -⟩ := ready
      cases psram
      simp only at counter cmd
      subst counter cmd
      rfl
  | succ n ih =>
      have before := ih (Nat.le_of_succ_le bound)
      have counter : BitVec.ofNat 8 n < 7#8 ∧ BitVec.ofNat 8 n ≠ 7#8 := by
        rw [BitVec.lt_def, Ne, ← BitVec.toNat_inj, BitVec.toNat_ofNat]
        have small : n % 2 ^ 8 = n := Nat.mod_eq_of_lt (by omega)
        have seven : (7#8).toNat = 7 := rfl
        omega
      have next := @clocks_bit { psram with
        counter := BitVec.ofNat 8 n
        cmd := (List.range n).foldl (fun cmd i => cmd.extractLsb' 0 7 ++ bit i) 0#8 }
        ready.state spi (high n) (bit n)
      rw [if_pos counter.1, if_neg counter.2] at next
      rw [List.range_succ, List.map_append, List.foldl_append, List.replicate_succ']
      have whole := Psram.clocks_append before next
      rw [List.map_singleton, whole, ready.state, BitVec.ofNat_add]
      rfl

theorem transact_enterQpi {psram : Psram} (ready : psram.Ready) (spi : psram.qpiMode = false)
    (high : Nat → BitVec 3) :
    ∃ outs next, psram.transact (enterQpi high) = some (outs, next) ∧
      next.Ready ∧ next.qpiMode = true ∧ next.host = psram.host := by
  have clocked : psram.clocks (enterQpi high) =
      some (List.replicate 8 none, { psram with cmd := qpicmd, state := .addr_t }) := by
    have bits := clocks_bits ready spi high (fun i => qpicmd.extractLsb' (7 - i) 1) (Nat.le_refl 7)
    have last := @clocks_bit { psram with
      counter := 7#8
      cmd := (List.range 7).foldl
        (fun cmd i => cmd.extractLsb' 0 7 ++ qpicmd.extractLsb' (7 - i) 1) 0#8 }
      ready.state spi (high 7) (qpicmd.extractLsb' 0 1)
    have command : ((List.range 7).foldl
        (fun cmd i => cmd.extractLsb' 0 7 ++ qpicmd.extractLsb' (7 - i) 1) 0#8).extractLsb' 0 7 ++
          qpicmd.extractLsb' 0 1 = qpicmd := by decide
    rw [command, if_neg (BitVec.lt_irrefl 7#8), if_pos rfl] at last
    have whole := Psram.clocks_append bits last
    rw [enterQpi, List.range_succ, List.map_append, List.map_singleton, whole, ready.counter]
    rfl
  obtain ⟨next, edge, mode, host⟩ := Psram.posedgeCeN_keeps
    { psram with cmd := qpicmd, state := .addr_t } (by simp)
  exact ⟨_, next, Psram.transact_eq clocked edge, Psram.posedgeCeN_ready edge, by simp [mode], host⟩

/-- The transactions of the list one by one: what one leaves is what the next finds. -/
theorem run_memory (txs : List QpiTx) (valid : ∀ tx ∈ txs, tx.Valid) {psram : Psram}
    (ready : psram.Ready) (qpi : psram.qpiMode = true) :
    ∃ last, psram.run txs = some ((memoryRun (psram.host .psram) txs).1, last) ∧
      last.Ready ∧ last.qpiMode = true ∧
      last.host =
        Function.update psram.host .psram (memoryRun (psram.host .psram) txs).2 := by
  induction txs generalizing psram with
  | nil => exact ⟨psram, rfl, ready, qpi, (Function.update_eq_self _ _).symm⟩
  | cons tx txs ih =>
      have later : ∀ tx' ∈ txs, tx'.Valid := fun tx' member =>
        valid tx' (List.mem_cons_of_mem _ member)
      cases tx with
      | write addr bytes =>
          obtain ⟨outs, next, done, ready', qpi', host⟩ :=
            transact_write ready qpi addr (valid _ List.mem_cons_self)
          obtain ⟨last, run, ready'', qpi'', host'⟩ := ih later ready' qpi'
          have array : next.host .psram = blit (psram.host .psram) addr.toNat bytes := by
            rw [host, Function.update_self]
          refine ⟨last, ?_, ready'', qpi'', ?_⟩
          · simp [Psram.run, done, run, array, memoryRun, QpiTx.apply, QpiTx.result]
          · rw [host', array, host, Function.update_idem]
            rfl
      | read addr count idle =>
          obtain ⟨outs, next, done, data, ready', qpi', host⟩ :=
            transact_read ready qpi addr (valid _ List.mem_cons_self) idle
          obtain ⟨last, run, ready'', qpi'', host'⟩ := ih later ready' qpi'
          rw [host] at run host'
          refine ⟨last, ?_, ready'', qpi'', host'⟩
          simp [Psram.run, done, run, memoryRun, QpiTx.apply, QpiTx.result, data]

theorem psram_memory {psram : Psram} (ready : psram.Ready) (spi : psram.qpiMode = false)
    (high : Nat → BitVec 3) (txs : List QpiTx) (valid : ∀ tx ∈ txs, tx.Valid) :
    ∃ outs qpi last,
      psram.transact (enterQpi high) = some (outs, qpi) ∧
      qpi.Ready ∧ qpi.qpiMode = true ∧ qpi.host = psram.host ∧
      qpi.run txs = some ((memoryRun (psram.host .psram) txs).1, last) ∧
      last.Ready ∧ last.qpiMode = true ∧
      last.host =
        Function.update psram.host .psram (memoryRun (psram.host .psram) txs).2 := by
  obtain ⟨outs, qpi, entered, ready', mode, host⟩ := transact_enterQpi ready spi high
  obtain ⟨last, run, kept⟩ := run_memory txs valid ready' mode
  rw [host] at run kept
  exact ⟨outs, qpi, last, entered, ready', mode, host, run, kept⟩

/-- All registers and arrays zero. -/
def Psram.zeroed : Psram :=
  { qpiMode := false, cmd := 0#8, addr := 0#24, data := 0#32, rdata := 0#32, counter := 0#8,
    state := .cmd_t, host := fun _ _ => 0#8 }

/-- A word, one of its bytes, and a read that crosses its end. -/
theorem psram_memory_overlap :
    ∃ outs qpi last,
      Psram.zeroed.transact (enterQpi fun _ => 0#3) = some (outs, qpi) ∧
      qpi.run [.write 0x10#24 [0x11#8, 0x22#8, 0x33#8, 0x44#8], .write 0x12#24 [0xAB#8],
        .read 0x11#24 8 fun _ => 0#4] =
        some ([[], [], [some 2#4, some 2#4, some 0xA#4, some 0xB#4, some 4#4, some 4#4, some 0#4,
          some 0#4]], last) := by
  obtain ⟨outs, qpi, last, entered, -, -, -, run, -⟩ :=
    @psram_memory Psram.zeroed ⟨rfl, rfl, rfl, rfl, rfl⟩ rfl (fun _ => 0#3)
      [.write 0x10#24 [0x11#8, 0x22#8, 0x33#8, 0x44#8], .write 0x12#24 [0xAB#8],
        .read 0x11#24 8 fun _ => 0#4]
      (by simp [QpiTx.Valid])
  exact ⟨outs, qpi, last, entered, run⟩

end Ysyx.Soc
