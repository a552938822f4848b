import Ysyx.Lib.LaneMemory
import Ysyx.Soc.SdramProgress
import Mathlib.Data.List.Forall2

/-! The SDRAM over APB as a memory of words: every transfer is answered, and a read shows what was
last written to its cell. Two words share a cell when they differ in bit 25 of the address. -/

set_option autoImplicit false

namespace Ysyx.Soc

open Lib (Machine Access Replays Retains lastWrite replays_append lastWrite_moved)

/-!
## The log of a run
-/

def wordOf (addr : BitVec 32) : BitVec 30 := addr.extractLsb' 2 30

/-- The transfer as an access to a memory of words with byte lanes. -/
def SdramTransfer.access : SdramTransfer → Access (BitVec 30) (Fin 4) (BitVec 8)
  | .read addr data => .read (wordOf addr) fun i => lane data i
  | .write addr data strb => .write (wordOf addr) (fun i => lane data i) fun i => strb.getLsbD i

def SdramTransfer.addr : SdramTransfer → BitVec 32
  | .read addr _ | .write addr _ _ => addr

/-- The cell of a word. -/
def cellOf (word : BitVec 30) : SdramCell := cellAt (word ++ 0#2)

/-- The transfers done in the first `n` cycles after a reset. -/
def sdramLog (chips : Sdram) (inputs : Nat → SdramInput) (n : Nat) : List SdramTransfer :=
  sdramMachine.events inputs 0 (SdramSystem.reset chips) n

def sdramAt (chips : Sdram) (inputs : Nat → SdramInput) (n : Nat) : SdramSystem :=
  sdramMachine.run inputs 0 (SdramSystem.reset chips) n

theorem sdramLog_succ (chips : Sdram) (inputs : Nat → SdramInput) (n : Nat) :
    sdramLog chips inputs (n + 1) = sdramLog chips inputs n ++ (sdramAt chips inputs n).out := by
  rw [sdramLog, Machine.events_succ]
  rfl

theorem sdramAt_succ (chips : Sdram) (inputs : Nat → SdramInput) (n : Nat) :
    sdramAt chips inputs (n + 1) = (sdramAt chips inputs n).step (inputs n) := by
  rw [sdramAt, Machine.run_succ, Nat.zero_add]
  rfl

def lanes (mem : SdramCell → BitVec 32) (c : SdramCell) (i : Fin 4) : BitVec 8 := lane (mem c) i

theorem cellAt_eq (addr : BitVec 32) : cellAt addr = cellOf (wordOf addr) := by
  have bits (k n : Nat) (inside : 2 ≤ k) (bound : k + n ≤ 32) :
      (wordOf addr ++ 0#2 : BitVec 32).extractLsb' k n = addr.extractLsb' k n := by
    apply BitVec.eq_of_getLsbD_eq
    intro i low
    rw [BitVec.getLsbD_extractLsb', BitVec.getLsbD_extractLsb', BitVec.getLsbD_append,
      if_neg (by omega), wordOf, BitVec.getLsbD_extractLsb', show 2 + (k + i - 2) = k + i by omega,
      decide_eq_true (show k + i - 2 < 30 by omega), Bool.true_and]
  have rank : (wordOf addr ++ 0#2 : BitVec 32).getLsbD 26 = addr.getLsbD 26 := by
    have bit := congrArg (fun x => x.getLsbD 0) (bits 26 1 (by decide) (by decide))
    simpa [BitVec.getLsbD_extractLsb'] using bit
  rw [cellOf, cellAt, cellAt, RamReq.cell, RamReq.cell, SdramCell.mk.injEq]
  refine ⟨rank.symm, (bits 10 2 (by decide) (by decide)).symm,
    (bits 12 13 (by decide) (by decide)).symm, ?_⟩
  rw [RamReq.col, RamReq.col, bits 2 8 (by decide) (by decide)]

theorem lanes_apply (mem : SdramCell → BitVec 32) (transfer : SdramTransfer) :
    lanes (transfer.apply mem) = (transfer.access.moved cellOf).apply (lanes mem) := by
  cases transfer with
  | read addr data => rfl
  | write addr data strb =>
      funext c i
      rw [SdramTransfer.access, Access.moved, Access.apply, lanes, SdramTransfer.apply, ← cellAt_eq]
      by_cases here : c = cellAt addr
      · subst here
        rw [Function.update_self, lane_strobe _ _ _ i.isLt]
        simp only [true_and]
        rfl
      · rw [Function.update_of_ne here]
        exact (if_neg fun both => here both.1).symm

theorem fits_access {mem : SdramCell → BitVec 32} {transfer : SdramTransfer}
    (fits : transfer.Fits mem) : (transfer.access.moved cellOf).Fits (lanes mem) := by
  cases transfer with
  | read addr data =>
      have same : data = mem (cellAt addr) := fits
      rw [same, cellAt_eq]
      rfl
  | write addr data strb => trivial

/-- The log of a run fits a memory of cells. -/
theorem sdramLog_replays (chips : Sdram) (inputs : Nat → SdramInput) (n : Nat) :
    Replays (lanes chips.held) ((sdramLog chips inputs n).map fun t => t.access.moved cellOf) ∧
      ∃ mem, Stage (sdramAt chips inputs n) mem ∧
        Lib.replayed (lanes chips.held)
          ((sdramLog chips inputs n).map fun t => t.access.moved cellOf) = lanes mem := by
  induction n with
  | zero => exact ⟨trivial, chips.held, stage_reset chips, rfl⟩
  | succ n ih =>
      obtain ⟨replays, mem, stage, memory⟩ := ih
      rw [sdramLog_succ, sdramAt_succ, List.map_append, replays_append, memory, Lib.replayed,
        List.foldl_append]
      rcases stage.next (inputs n) with ⟨silent, after⟩ | ⟨transfer, shown, fits, after⟩
      · rw [silent]
        exact ⟨⟨replays, trivial⟩, mem, after, memory⟩
      · rw [shown]
        refine ⟨⟨replays, fits_access fits, trivial⟩, _, after, ?_⟩
        rw [lanes_apply, ← memory]
        rfl

/-!
## Words and cells
-/

/-- The 64 MiB from 0xa0000000 that the linker script gives to the SDRAM. -/
def InWindow (addr : BitVec 32) : Prop := 0xa0000000#32 ≤ addr ∧ addr ≤ 0xa3ffffff#32

/-- The word whose address differs in bit 25. -/
def twin (word : BitVec 30) : BitVec 30 := word ^^^ 0x800000#30

theorem inWindow_bits {addr : BitVec 32} (inside : InWindow addr) {i : Nat} (high : 26 ≤ i) :
    addr.getLsbD i = (0xa0000000#32).getLsbD i := by
  have top : addr.toNat / 2 ^ 26 = 0xa0000000 / 2 ^ 26 := by
    obtain ⟨low, up⟩ := inside
    rw [BitVec.le_def] at low up
    have low' : 0xa0000000 ≤ addr.toNat := low
    have up' : addr.toNat ≤ 0xa3ffffff := up
    omega
  have bit := congrArg (fun x => x.testBit (i - 26)) top
  simp only [Nat.testBit_div_two_pow, Nat.sub_add_cancel high] at bit
  rw [BitVec.getLsbD, bit]
  rfl

/-- The cell is bit 26 and the bits 24 to 2 of the address. -/
theorem cellAt_eq_iff_bits {a b : BitVec 32} :
    cellAt a = cellAt b ↔ a.getLsbD 26 = b.getLsbD 26 ∧
      ∀ i, 2 ≤ i → i < 25 → a.getLsbD i = b.getLsbD i := by
  have col (addr : BitVec 32) : (RamReq.col ⟨0#4, false, addr, 0#32⟩).extractLsb' 0 9 =
      addr.extractLsb' 2 8 ++ 0#1 := BitVec.extractLsb'_append_eq_right
  rw [cellAt, cellAt, RamReq.cell, RamReq.cell, SdramCell.mk.injEq, col, col,
    BitVec.append_left_inj]
  have part {start len : Nat} (same : a.extractLsb' start len = b.extractLsb' start len) (i : Nat)
      (above : start ≤ i) (below : i < start + len) : a.getLsbD i = b.getLsbD i := by
    have bit := congrArg (fun x => x.getLsbD (i - start)) same
    simpa [BitVec.getLsbD_extractLsb', show i - start < len by omega,
      Nat.add_sub_cancel' above] using bit
  have whole {start len : Nat} (above : 2 ≤ start) (below : start + len ≤ 25)
      (bits : ∀ i, 2 ≤ i → i < 25 → a.getLsbD i = b.getLsbD i) :
      a.extractLsb' start len = b.extractLsb' start len := by
    apply BitVec.eq_of_getLsbD_eq
    intro i inside
    rw [BitVec.getLsbD_extractLsb', BitVec.getLsbD_extractLsb',
      bits (start + i) (by omega) (by omega)]
  constructor
  · rintro ⟨rank, bank, row, col⟩
    refine ⟨rank, fun i above below => ?_⟩
    rcases Nat.lt_or_ge i 10 with inCol | past
    · exact part col i above inCol
    · rcases Nat.lt_or_ge i 12 with inBank | past'
      · exact part bank i past inBank
      · exact part row i past' below
  · rintro ⟨rank, bits⟩
    exact ⟨rank, whole (by decide) (by decide) bits, whole (by decide) (by decide) bits,
      whole (by decide) (by decide) bits⟩

/-- Two words of the window share a cell exactly when they are the same or differ in bit 25 of
the address. -/
theorem cellAt_eq_iff {a b : BitVec 32} (insideA : InWindow a) (insideB : InWindow b) :
    cellAt a = cellAt b ↔ wordOf a = wordOf b ∨ wordOf a = twin (wordOf b) := by
  have top (i : Nat) (high : 26 ≤ i) : a.getLsbD i = b.getLsbD i :=
    (inWindow_bits insideA high).trans (inWindow_bits insideB high).symm
  have word (addr : BitVec 32) {i : Nat} (inside : i < 30) :
      (wordOf addr).getLsbD i = addr.getLsbD (i + 2) := by
    rw [wordOf, BitVec.getLsbD_extractLsb', decide_eq_true inside, Bool.true_and, Nat.add_comm]
  have flip : ∀ i : Fin 30, (0x800000#30).getLsbD i.val = decide (i.val = 23) := by decide
  have twinned {i : Nat} (inside : i < 30) :
      (twin (wordOf b)).getLsbD i = (b.getLsbD (i + 2)).xor (decide (i = 23)) := by
    rw [twin, BitVec.getLsbD_xor, word b inside, flip ⟨i, inside⟩]
  rw [cellAt_eq_iff_bits]
  constructor
  · rintro ⟨_, bits⟩
    have others {i : Nat} (not23 : i ≠ 23) : a.getLsbD (i + 2) = b.getLsbD (i + 2) := by
      rcases Nat.lt_or_ge (i + 2) 25 with low | high
      · exact bits _ (Nat.le_add_left 2 i) low
      · exact top _ (by omega)
    by_cases bit : a.getLsbD 25 = b.getLsbD 25
    · left
      apply BitVec.eq_of_getLsbD_eq
      intro i inside
      rw [word a inside, word b inside]
      by_cases at23 : i = 23
      · subst at23
        exact bit
      · exact others at23
    · right
      apply BitVec.eq_of_getLsbD_eq
      intro i inside
      rw [word a inside, twinned inside]
      by_cases at23 : i = 23
      · subst at23
        rw [decide_eq_true rfl, Bool.xor_true]
        exact Bool.eq_not.mpr bit
      · rw [decide_eq_false at23, Bool.xor_false]
        exact others at23
  · intro same
    refine ⟨top 26 (Nat.le_refl 26), fun i above below => ?_⟩
    have inside : i - 2 < 30 := by omega
    rcases same with same | same
    · have bit := congrArg (fun w => w.getLsbD (i - 2)) same
      simpa only [word _ inside, Nat.sub_add_cancel above] using bit
    · have bit := congrArg (fun w => w.getLsbD (i - 2)) same
      simpa only [word _ inside, twinned inside, Nat.sub_add_cancel above,
        decide_eq_false (show i - 2 ≠ 23 by omega), Bool.xor_false] using bit

/-!
## The memory of words
-/

/-- Byte by byte a read shows the last write to its word that covers the byte, or what the word
had at first. -/
def WordMemory (log : List SdramTransfer) : Prop :=
  ∃ init : BitVec 30 → Fin 4 → BitVec 8, ∀ before addr data after,
    log = before ++ .read addr data :: after → ∀ i : Fin 4,
      lane data i = (lastWrite (wordOf addr) i (before.map SdramTransfer.access)).getD
        (init (wordOf addr) i)

/-- A byte that the twin of a word was written is written again before the word is read. -/
def TwinSafe (log : List SdramTransfer) : Prop :=
  ∀ before addr data after, log = before ++ .read addr data :: after →
    ∀ first other word strb rest, before = first ++ .write other word strb :: rest →
      wordOf other = twin (wordOf addr) → ∀ i : Fin 4, strb.getLsbD i = true →
        ∃ addr' data' strb', .write addr' data' strb' ∈ rest ∧ wordOf addr' = wordOf addr ∧
          strb'.getLsbD i = true

/-- A run within one half of the window is safe. -/
theorem twinSafe_of_apart {log : List SdramTransfer}
    (apart : ∀ a ∈ log, ∀ b ∈ log, wordOf a.addr ≠ twin (wordOf b.addr)) : TwinSafe log := by
  rintro before addr data after rfl first other word strb rest rfl twinned
  exact absurd twinned (apart (.write other word strb) (by simp) (.read addr data) (by simp))

theorem access_write {transfer : SdramTransfer} {word : BitVec 30} {data : Fin 4 → BitVec 8}
    {mask : Fin 4 → Bool} (is : transfer.access = .write word data mask) :
    ∃ addr data' strb, transfer = .write addr data' strb ∧ wordOf addr = word ∧
      ∀ i, mask i = strb.getLsbD i := by
  cases transfer with
  | read addr data => cases is
  | write addr data strb =>
      cases is
      exact ⟨addr, data, strb, rfl, rfl, fun _ => rfl⟩

theorem TwinSafe.retains {log : List SdramTransfer} (safe : TwinSafe log)
    (window : ∀ transfer ∈ log, InWindow transfer.addr) {before after : List SdramTransfer}
    {addr data : BitVec 32} (split : log = before ++ .read addr data :: after) (i : Fin 4) :
    Retains cellOf (wordOf addr) i (before.map SdramTransfer.access) := by
  intro first word data' mask rest split' together covers
  obtain ⟨first', tail, splitBefore, rfl, mapped⟩ := List.map_eq_append_iff.mp split'
  obtain ⟨transfer, rest', rfl, is, rfl⟩ := List.map_eq_cons_iff.mp mapped
  obtain ⟨other, written, strb, rfl, rfl, same⟩ := access_write is
  have inside : InWindow addr := window (.read addr data) (by simp [split])
  have inside' : InWindow other := window (.write other written strb) (by simp [split, splitBefore])
  rw [← cellAt_eq, ← cellAt_eq, cellAt_eq_iff inside' inside] at together
  rcases together with own | twinned
  · exact .inl own
  · obtain ⟨addr', data', strb', found, word, again⟩ :=
      safe before addr data after split first' other written strb rest' splitBefore twinned i
        (by rw [← same]; exact covers)
    refine .inr ⟨fun i => lane data' i, fun i => strb'.getLsbD i, ?_, again⟩
    rw [← word]
    exact List.mem_map_of_mem found

/-- Byte by byte a read shows the last write to its cell. -/
theorem sdramLog_read {chips : Sdram} {inputs : Nat → SdramInput} {n : Nat}
    {before after : List SdramTransfer} {addr data : BitVec 32}
    (split : sdramLog chips inputs n = before ++ .read addr data :: after) (i : Fin 4) :
    lane data i =
      (lastWrite (cellOf (wordOf addr)) i
        ((before.map SdramTransfer.access).map (Access.moved cellOf))).getD
        (lanes chips.held (cellOf (wordOf addr)) i) := by
  have replays := (sdramLog_replays chips inputs n).1
  rw [split, List.map_append, List.map_cons] at replays
  have shown := replays.read i
  have places : (before.map fun t => t.access.moved cellOf) =
      (before.map SdramTransfer.access).map (Access.moved cellOf) := by
    rw [List.map_map]
    rfl
  rw [places] at shown
  exact shown

theorem TwinSafe.wordMemory {chips : Sdram} {inputs : Nat → SdramInput} {n : Nat}
    (safe : TwinSafe (sdramLog chips inputs n))
    (window : ∀ transfer ∈ sdramLog chips inputs n, InWindow transfer.addr) :
    WordMemory (sdramLog chips inputs n) := by
  refine ⟨fun word => lanes chips.held (cellOf word), ?_⟩
  intro before addr data after split i
  rw [sdramLog_read split i, lastWrite_moved (safe.retains window split i)]

/-!
## Answers
-/

/-- A read, or a write of some byte. -/
def ApbReq.Transfers (req : ApbReq) : Prop := req.pwrite = true → req.pstrb ≠ 0#4

theorem ApbReq.Transfers.asks {req : ApbReq} (transfers : req.Transfers) : req.ram.req = true := by
  cases write : req.pwrite with
  | false => simp [RamReq.req, ApbReq.ram, write]
  | true => simp [RamReq.req, ApbReq.ram, write, transfers write]

/-- The next transfer to be done answers the request that waits. -/
theorem exists_transfer (chips : Sdram) (inputs : Nat → SdramInput) {n : Nat} {req : ApbReq}
    (pending : (sdramAt chips inputs n).master = .access req) (transfers : req.Transfers) :
    ∃ m transfer, n ≤ m ∧ transfer.Answers req ∧ sdramLog chips inputs m = sdramLog chips inputs n ∧
      sdramLog chips inputs (m + 1) = sdramLog chips inputs n ++ [transfer] ∧
      (sdramAt chips inputs (m + 1)).master = .idle := by
  obtain ⟨_, mem, stage, _⟩ := sdramLog_replays chips inputs n
  obtain ⟨k, transfer, answers, quiet, shown, idle⟩ :=
    stage.exists_answer pending transfers.asks inputs n
  refine ⟨n + k, transfer, Nat.le_add_right n k, answers, ?_, ?_, ?_⟩
  · rw [sdramLog, Machine.events_add, Nat.zero_add]
    exact (congrArg _ quiet).trans (List.append_nil _)
  · rw [sdramLog, Nat.add_assoc, Machine.events_add, Nat.zero_add]
    exact congrArg _ shown
  · rw [sdramAt, Nat.add_assoc, Machine.run_add, Nat.zero_add]
    exact idle

/-- Any sequence of requests is the log of some run. -/
theorem exists_log (chips : Sdram) (script : List ApbReq)
    (valid : ∀ req ∈ script, req.psel = true ∧ req.Transfers) :
    ∃ inputs n, List.Forall₂ SdramTransfer.Answers script (sdramLog chips inputs n) ∧
      (sdramAt chips inputs n).master = .idle := by
  induction script using List.reverseRecOn with
  | nil => exact ⟨fun _ => ⟨⟨0#32, false, false, false, 0#32, 0#4⟩, 0#32, 0#32⟩, 0, .nil, rfl⟩
  | append_singleton script req ih =>
      obtain ⟨inputs, n, answered, idle⟩ := ih fun r found => valid r (List.mem_append_left _ found)
      obtain ⟨selected, transfers⟩ := valid req (by simp)
      -- the last request follows in cycle `n`
      let inputs' : Nat → SdramInput := fun k => if k < n then inputs k else ⟨req, 0#32, 0#32⟩
      have same := @Machine.run_congr _ _ _ sdramMachine inputs inputs' 0 n
        (fun k bound => by simp [inputs', bound]) (SdramSystem.reset chips)
      have state : sdramAt chips inputs' n = sdramAt chips inputs n := same.1.symm
      have log : sdramLog chips inputs' n = sdramLog chips inputs n := same.2.symm
      have here : inputs' n = ⟨req, 0#32, 0#32⟩ := if_neg (Nat.lt_irrefl n)
      have pending : (sdramAt chips inputs' (n + 1)).master = .access req := by
        rw [sdramAt_succ, state, here]
        simp [SdramSystem.step, idle, ApbPhase.next, selected]
      have silent : sdramLog chips inputs' (n + 1) = sdramLog chips inputs n := by
        rw [sdramLog_succ, state, log]
        simp [SdramSystem.out, idle]
      obtain ⟨m, transfer, _, answers, _, shown, after⟩ :=
        exists_transfer chips inputs' pending transfers
      refine ⟨inputs', m + 1, ?_, after⟩
      rw [shown, silent]
      exact List.rel_append answered (.cons answers .nil)

/-!
## The SDRAM as a memory
-/

/-- In every run the words of the window are a memory while no byte of a word is read that its
twin was written last. Every request is answered, and twins are the only words that share a
cell. -/
theorem sdram_memory (chips : Sdram) (inputs : Nat → SdramInput) (n : Nat)
    (window : ∀ transfer ∈ sdramLog chips inputs n, InWindow transfer.addr)
    (safe : TwinSafe (sdramLog chips inputs n)) :
    WordMemory (sdramLog chips inputs n) ∧
      (∀ req, (sdramAt chips inputs n).master = .access req → req.Transfers →
        ∃ m transfer, n ≤ m ∧ transfer.Answers req ∧
          sdramLog chips inputs (m + 1) = sdramLog chips inputs n ++ [transfer]) ∧
      ∀ a b, InWindow a → InWindow b →
        (cellAt a = cellAt b ↔ wordOf a = wordOf b ∨ wordOf a = twin (wordOf b)) := by
  refine ⟨safe.wordMemory window, fun req pending transfers => ?_, fun a b => cellAt_eq_iff⟩
  obtain ⟨m, transfer, after, answers, _, shown, _⟩ :=
    exists_transfer chips inputs pending transfers
  exact ⟨m, transfer, after, answers, shown⟩

/-- Chips of zeros. -/
def Sdram.blank : Sdram := fun _ _ =>
  { bank := fun _ _ => 0#16
    lineAddress := fun _ => 0#13
    dout := 0#16
    casLatency := 0#3
    brustLength := 0#3
    lBank := 0#2
    dqmBuf1 := 0#2
    rCounter := 0#4
    wCounter := 0#4
    readFlag := false
    rAddress := 0#9
    wAddress := 0#9
    wData := 0#16 }

theorem sdram_memory_read_back :
    ∃ inputs n, sdramLog .blank inputs n =
      [.write 0xa0000000#32 1#32 15#4, .read 0xa0000000#32 1#32] := by
  obtain ⟨inputs, n, answered, _⟩ := exists_log .blank
    [⟨0xa0000000#32, true, false, true, 1#32, 15#4⟩, ⟨0xa0000000#32, true, false, false, 0#32, 0#4⟩]
    (by simp [ApbReq.Transfers])
  refine ⟨inputs, n, ?_⟩
  generalize log : sdramLog .blank inputs n = transfers at answered
  obtain _ | ⟨first, _ | ⟨second, ⟨⟩⟩⟩ := answered
  obtain rfl := first.write rfl
  obtain ⟨data, rfl⟩ := second.read rfl
  have window : ∀ transfer ∈ sdramLog .blank inputs n, InWindow transfer.addr := by
    rw [log]
    simp [InWindow, SdramTransfer.addr]
  have safe : TwinSafe (sdramLog .blank inputs n) := by
    rw [log]
    apply twinSafe_of_apart
    simp only [List.mem_cons, List.not_mem_nil, or_false, forall_eq_or_imp, forall_eq,
      SdramTransfer.addr]
    decide
  obtain ⟨⟨init, law⟩, _, _⟩ := sdram_memory .blank inputs n window safe
  have last : ∀ i : Fin 4, lastWrite (wordOf 0xa0000000#32) i
      [SdramTransfer.access (.write 0xa0000000#32 1#32 15#4)] = some (lane 1#32 i) := by decide
  obtain rfl : data = 1#32 := by
    apply eq_of_lanes
    intro i bound
    have shown := law [_] _ _ [] log ⟨i, bound⟩
    simp only [List.map_cons, List.map_nil, last, Option.getD_some] at shown
    exact shown
  rfl

/-- A write to 0xa2000000 changes the word at 0xa0000000. -/
theorem sdram_twin_overwritten :
    ∃ inputs n, sdramLog .blank inputs n =
        [.write 0xa0000000#32 1#32 15#4, .write 0xa2000000#32 2#32 15#4,
          .read 0xa0000000#32 2#32] ∧
      ¬ WordMemory (sdramLog .blank inputs n) := by
  obtain ⟨inputs, n, answered, _⟩ := exists_log .blank
    [⟨0xa0000000#32, true, false, true, 1#32, 15#4⟩, ⟨0xa2000000#32, true, false, true, 2#32, 15#4⟩,
      ⟨0xa0000000#32, true, false, false, 0#32, 0#4⟩]
    (by simp [ApbReq.Transfers])
  refine ⟨inputs, n, ?_⟩
  generalize log : sdramLog .blank inputs n = transfers at answered
  obtain _ | ⟨first, _ | ⟨second, _ | ⟨third, ⟨⟩⟩⟩⟩ := answered
  obtain rfl := first.write rfl
  obtain rfl := second.write rfl
  obtain ⟨data, rfl⟩ := third.read rfl
  have inCell : ∀ i : Fin 4, lastWrite (cellOf (wordOf 0xa0000000#32)) i
      [(SdramTransfer.access (.write 0xa0000000#32 1#32 15#4)).moved cellOf,
        (SdramTransfer.access (.write 0xa2000000#32 2#32 15#4)).moved cellOf] =
      some (lane 2#32 i) := by decide
  have inWord : lastWrite (wordOf 0xa0000000#32) (0 : Fin 4)
      [SdramTransfer.access (.write 0xa0000000#32 1#32 15#4),
        SdramTransfer.access (.write 0xa2000000#32 2#32 15#4)] = some (lane 1#32 0) := by decide
  obtain rfl : data = 2#32 := by
    apply eq_of_lanes
    intro i bound
    have shown := @sdramLog_read _ _ _ [_, _] [] _ _ log ⟨i, bound⟩
    simp only [List.map_cons, List.map_nil, inCell, Option.getD_some] at shown
    exact shown
  refine ⟨rfl, ?_⟩
  rintro ⟨init, law⟩
  have shown := law [_, _] _ _ [] rfl 0
  simp only [List.map_cons, List.map_nil] at shown
  rw [inWord, Option.getD_some] at shown
  revert shown
  decide

end Ysyx.Soc
