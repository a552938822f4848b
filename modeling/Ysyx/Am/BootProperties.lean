import Ysyx.Am.Boot
import Ysyx.Am.FetchProperties

/-! The boot loader puts every section where it belongs and enters `_trm_init`, whatever the
sizes of the sections. -/

set_option autoImplicit false

namespace Ysyx.Am.Boot

open Rv32 (Word RegId Instr writeGpr loadValue)
open Lib (ByteMem)
open Lib.ByteMem (InBlock)

/-!
## Loops
-/

/-- The loops change these registers only. -/
def Kept (r : RegId) : Prop := r ≠ t0 ∧ r ≠ t1 ∧ r ≠ t2

instance (r : RegId) : Decidable (Kept r) := inferInstanceAs (Decidable (_ ∧ _ ∧ _))

/-- Before turn `k` of a loop that fills the block at `base`, from the machine `entry`. -/
structure Filling (entry : Machine) (base : Word) (bytes : Nat → BitVec 8) (k : Nat)
    (machine : Machine) : Prop where
  mem : machine.mem = entry.mem.fill base bytes (4 * k)
  index : machine.gpr t0 = BitVec.ofNat 32 (4 * k)
  kept : ∀ r, Kept r → machine.gpr r = entry.gpr r

/-- The body of a loop writes word `k` of the block. -/
def Fills (symbols : Symbol → Word) (body : Text) (entry : Machine) (base : Word)
    (bytes : Nat → BitVec 8) (n : Nat) : Prop :=
  ∀ k < n, ∀ machine, Filling entry base bytes k machine →
    TextAt symbols machine.mem machine.pc body →
      ∃ after, machine.Runs (InBlock base (4 * n)) after ∧
        after.pc = machine.pc + BitVec.ofNat 32 (4 * textSize body) ∧
        after.mem = entry.mem.fill base bytes (4 * (k + 1)) ∧
        after.gpr t0 = machine.gpr t0 ∧ ∀ r, Kept r → after.gpr r = machine.gpr r

section Loops

variable {symbols : Symbol → Word} {entry : Machine} {base : Word} {bytes : Nat → BitVec 8}
  {n : Nat}

theorem textSize_wordLoop (body : Text) : textSize (wordLoop body) = textSize body + 3 := by
  rw [wordLoop, textSize_append, textSize_append, Nat.add_assoc, Nat.add_comm]
  rfl

/-- The condition of `bgeu t0, a2` before turn `k`. -/
theorem bgeu_taken {k : Nat} (size : 4 * n < 2 ^ 32) (bound : k ≤ n) :
    Rv32.BranchOp.bgeu.taken (BitVec.ofNat 32 (4 * k)) (BitVec.ofNat 32 (4 * n)) =
      decide (n ≤ k) := by
  have index : (BitVec.ofNat 32 (4 * k)).toNat = 4 * k := by
    rw [BitVec.toNat_ofNat, Nat.mod_eq_of_lt (by omega)]
  have limit : (BitVec.ofNat 32 (4 * n)).toNat = 4 * n := by
    rw [BitVec.toNat_ofNat, Nat.mod_eq_of_lt size]
  rw [Rv32.BranchOp.taken, BitVec.ult, index, limit, ← decide_not]
  congr 1
  apply propext
  omega

/-- The distance to a label behind `m` instructions and `c` more. -/
theorem offset_eq (m c : Nat) :
    BitVec.ofInt 32 (4 * ((m : Int) + c)) = BitVec.ofNat 32 (4 * (m + c)) := by
  rw [← BitVec.ofInt_natCast]
  push_cast
  rfl

/-- The jump back to the test goes over the body, the test and the increment. -/
theorem back_to_test (pc : Word) (m : Nat) :
    pc + BitVec.ofNat 32 (4 * (m + 2)) + BitVec.ofInt 32 (-(4 * (m + 2))) = pc := by
  have offset : BitVec.ofInt 32 (4 * (m + 2)) = BitVec.ofNat 32 (4 * (m + 2)) := offset_eq m 2
  rw [BitVec.ofInt_neg, offset, ← BitVec.sub_eq_add_neg, BitVec.add_sub_cancel]

variable {body : Text} (text : TextAt symbols entry.mem entry.pc (wordLoop body))
  (fits : 4 * textSize (wordLoop body) ≤ 2 ^ 32)
  (apart : ∀ addr, InBlock entry.pc (4 * textSize (wordLoop body)) addr →
    ¬ InBlock base (4 * n) addr)
  (size : 4 * n < 2 ^ 32) (limit : entry.gpr a2 = BitVec.ofNat 32 (4 * n))

include text fits apart

/-- The loop fills a block away from its text. -/
theorem textAt_fill (bytes : Nat → BitVec 8) {k : Nat} (bound : k ≤ n) :
    TextAt symbols (entry.mem.fill base bytes (4 * k)) entry.pc (wordLoop body) := by
  refine text.congr fits fun addr inside => ByteMem.fill_outside fun filled => ?_
  refine apart addr inside ?_
  unfold InBlock at filled ⊢
  omega

include size limit

theorem wordLoop_test {k : Nat} (bound : k ≤ n) {machine : Machine} (here : machine.pc = entry.pc)
    (filling : Filling entry base bytes k machine) :
    machine.Runs (InBlock base (4 * n))
      { machine with
        pc :=
          if n ≤ k then entry.pc + BitVec.ofNat 32 (4 * textSize (wordLoop body))
          else entry.pc + 4#32 } := by
  have fetched := (textAt_fill text fits apart bytes bound).1
  rw [← filling.mem, ← here] at fetched
  have offset : BitVec.ofInt 32 (4 * (textSize body + 3)) =
      BitVec.ofNat 32 (4 * textSize (wordLoop body)) :=
    textSize_wordLoop body ▸ offset_eq (textSize body) 3
  have branch := runs_branch (InBlock base (4 * n)) fetched
  rw [filling.index, filling.kept a2 (by decide), limit, bgeu_taken size bound, offset,
    here] at branch
  simpa only [decide_eq_true_eq] using branch

theorem wordLoop_turn {k : Nat} (bound : k < n) (fills : Fills symbols body entry base bytes n)
    {machine : Machine} (here : machine.pc = entry.pc)
    (filling : Filling entry base bytes k machine) :
    ∃ after, machine.Runs (InBlock base (4 * n)) after ∧ after.pc = entry.pc ∧
      Filling entry base bytes (k + 1) after := by
  have entered := wordLoop_test text fits apart size limit (Nat.le_of_lt bound) here filling
  rw [if_neg (Nat.not_le.mpr bound)] at entered
  have inner := (textAt_fill text fits apart bytes (Nat.le_of_lt bound)).append.1.append.2
  rw [← filling.mem] at inner
  obtain ⟨middle, filled, pc, mem, index, kept⟩ := fills k bound
    { machine with pc := entry.pc + 4#32 } ⟨filling.mem, filling.index, filling.kept⟩ inner
  -- the text is still there after the store
  obtain ⟨increment, jump, _⟩ := (textAt_fill text fits apart bytes bound).append.2
  have place : entry.pc + BitVec.ofNat 32 (4 * textSize ([.instr (bgeu t0 a2
      (4 * (textSize body + 3)))] ++ body)) = middle.pc := by
    rw [pc, textSize_append, Nat.mul_add, BitVec.ofNat_add, ← BitVec.add_assoc]
    rfl
  rw [place, ← mem] at increment jump
  obtain ⟨counted, counts, pc', mem', gpr'⟩ :=
    runs_plain_op (InBlock base (4 * n)) increment rfl
  rw [← pc', ← mem'] at jump
  have again := runs_j (InBlock base (4 * n)) jump
  have index' : counted.gpr t0 = BitVec.ofNat 32 (4 * (k + 1)) := by
    rw [gpr', Nat.mul_add, BitVec.ofNat_add, ← filling.index, ← index]
    rfl
  have kept' (r : RegId) (saved : Kept r) : counted.gpr r = entry.gpr r := by
    rw [gpr', ← filling.kept r saved, ← kept r saved]
    exact writeGpr_of_ne _ _ saved.1
  refine ⟨_, (entered.trans filled).trans (counts.trans again), ?_, mem'.trans mem, index', kept'⟩
  have done : counted.pc = entry.pc + BitVec.ofNat 32 (4 * (textSize body + 2)) := by
    rw [pc', pc]
    bv_omega
  dsimp only
  rw [done]
  exact back_to_test entry.pc (textSize body)

theorem wordLoop_runs (first : entry.gpr t0 = 0#32)
    (fills : Fills symbols body entry base bytes n) :
    ∃ after, entry.Runs (InBlock base (4 * n)) after ∧
      after.pc = entry.pc + BitVec.ofNat 32 (4 * textSize (wordLoop body)) ∧
      after.mem = entry.mem.fill base bytes (4 * n) ∧
      ∀ r, Kept r → after.gpr r = entry.gpr r := by
  obtain ⟨turned, turns, pc, filling⟩ : ∃ turned, entry.Runs (InBlock base (4 * n)) turned ∧
      turned.pc = entry.pc ∧ Filling entry base bytes n turned := by
    refine Machine.Runs.count (fun k machine =>
      machine.pc = entry.pc ∧ Filling entry base bytes k machine) ?_ ⟨rfl, ?_⟩
    · rintro k bound machine ⟨here, filling⟩
      exact wordLoop_turn text fits apart size limit bound fills here filling
    · exact ⟨(ByteMem.fill_zero _ _ _).symm, first, fun _ _ => rfl⟩
  have left := wordLoop_test text fits apart size limit (Nat.le_refl n) pc filling
  exact ⟨_, turns.trans left, if_pos (Nat.le_refl n), filling.mem, filling.kept⟩

end Loops

/-!
## The words of a section
-/

section Words

variable {symbols : Symbol → Word} {entry : Machine} {base src : Word} {n : Nat}

theorem copyWord_fills (size : 4 * n < 2 ^ 32) (first : entry.gpr a0 = base)
    (image : entry.gpr a1 = src)
    (apart : ∀ addr, InBlock src (4 * n) addr → ¬ InBlock base (4 * n) addr) :
    Fills symbols copyWord entry base (fun i => entry.mem (src + BitVec.ofNat 32 i)) n := by
  intro k bound machine filling text
  have parts : TextAt symbols machine.mem machine.pc
      ([.instr (add t1 a1 t0), .instr (load t2 0 t1), .instr (add t1 a0 t0)] ++
        [.instr (store t2 0 t1)]) := text
  obtain ⟨computed, computes, pc, mem, gpr⟩ :=
    runs_plain (InBlock base (4 * n)) parts.append.1 rfl
  have fetched := parts.append.2.1
  rw [← pc, ← mem] at fetched
  have place : computed.gpr t1 = base + BitVec.ofNat 32 (4 * k) := by
    rw [← first, ← filling.kept a0 (by decide), ← filling.index, gpr]
    rfl
  have value : computed.gpr t2 = machine.mem.readSlot src k := by
    rw [ByteMem.readSlot, ← image, ← filling.kept a1 (by decide), ← filling.index, gpr]
    exact congrArg (fun addr => machine.mem.readLe addr 4) (BitVec.add_zero _)
  have stores := runs_store_slot bound (by omega) place fetched
  refine ⟨_, computes.trans stores, ?_, ?_, ?_, fun r saved => ?_⟩
  · dsimp only
    rw [pc, BitVec.add_assoc]
    rfl
  · dsimp only
    rw [mem, filling.mem, value, filling.mem]
    apply ByteMem.writeSlot_fill bound (by omega)
    intro i byte
    have inside : InBlock src (4 * n) (src + BitVec.ofNat 32 (4 * k) + BitVec.ofNat 32 i) := by
      rw [InBlock, ByteMem.toNat_slot_sub src bound (by omega) byte]
      omega
    have unfilled := apart _ inside
    rw [ByteMem.readSlot, ByteMem.extractLsb'_readLe _ _ byte, ByteMem.fill_outside,
      BitVec.add_assoc, ← BitVec.ofNat_add]
    unfold InBlock at unfilled ⊢
    omega
  · dsimp only
    rw [gpr]
    rfl
  · dsimp only
    rw [gpr]
    exact (writeGpr_of_ne _ _ saved.2.1).trans
      ((writeGpr_of_ne _ _ saved.2.2).trans (writeGpr_of_ne _ _ saved.2.1))

theorem clearWord_fills (size : 4 * n < 2 ^ 32) (first : entry.gpr a0 = base) :
    Fills symbols clearWord entry base (fun _ => 0#8) n := by
  intro k bound machine filling text
  have parts : TextAt symbols machine.mem machine.pc
      ([.instr (add t1 a0 t0)] ++ [.instr (store zero 0 t1)]) := text
  obtain ⟨computed, computes, pc, mem, gpr⟩ :=
    runs_plain (InBlock base (4 * n)) parts.append.1 rfl
  have fetched := parts.append.2.1
  rw [← pc, ← mem] at fetched
  have place : computed.gpr t1 = base + BitVec.ofNat 32 (4 * k) := by
    rw [← first, ← filling.kept a0 (by decide), ← filling.index, gpr]
    rfl
  have value : computed.gpr zero = 0#32 := computed.x0
  have stores := runs_store_slot bound (by omega) place fetched
  refine ⟨_, computes.trans stores, ?_, ?_, ?_, fun r saved => ?_⟩
  · dsimp only
    rw [pc, BitVec.add_assoc]
    rfl
  · dsimp only
    rw [mem, filling.mem, value]
    apply ByteMem.writeSlot_fill bound (by omega)
    intro i byte
    exact BitVec.extractLsb'_zero
  · dsimp only
    rw [gpr]
    rfl
  · dsimp only
    rw [gpr]
    exact writeGpr_of_ne _ _ saved.2.1

end Words

theorem textSize_sizedLoop (body : Text) :
    textSize (sizedLoop body) = textSize (wordLoop body) + 3 := by
  rw [sizedLoop, textSize_append, Nat.add_comm]
  rfl

/-- The loop with its test for an empty block, from the bounds of the block. -/
theorem sizedLoop_runs {symbols : Symbol → Word} {entry : Machine} {base : Word}
    {bytes : Nat → BitVec 8} {n : Nat} {body : Text}
    (text : TextAt symbols entry.mem entry.pc (sizedLoop body))
    (fits : 4 * textSize (sizedLoop body) ≤ 2 ^ 32)
    (apart : ∀ addr, InBlock entry.pc (4 * textSize (sizedLoop body)) addr →
      ¬ InBlock base (4 * n) addr)
    (size : 4 * n < 2 ^ 32)
    (distance : entry.gpr a2 - entry.gpr a0 = BitVec.ofNat 32 (4 * n))
    (fills : ∀ ready : Machine, ready.mem = entry.mem →
      (∀ r, Kept r → r ≠ a2 → ready.gpr r = entry.gpr r) →
        Fills symbols body ready base bytes n) :
    ∃ after, entry.Runs (InBlock base (4 * n)) after ∧
      after.pc = entry.pc + BitVec.ofNat 32 (4 * textSize (sizedLoop body)) ∧
      after.mem = entry.mem.fill base bytes (4 * n) ∧
      ∀ r, Kept r → r ≠ a2 → after.gpr r = entry.gpr r := by
  rw [textSize_sizedLoop] at fits apart ⊢
  obtain ⟨⟨subtract, test, clear, _⟩, loop⟩ := text.append
  obtain ⟨sized, sizes, pc, mem, gpr⟩ :=
    runs_plain_op (InBlock base (4 * n)) subtract rfl
  rw [← pc, ← mem] at test
  have tested := runs_branch (InBlock base (4 * n)) test
  have length : sized.gpr a2 = BitVec.ofNat 32 (4 * n) := by
    rw [gpr, ← distance]
    rfl
  have kept (r : RegId) (other : r ≠ a2) : sized.gpr r = entry.gpr r := by
    rw [gpr]
    exact writeGpr_of_ne _ _ other
  have taken : Rv32.BranchOp.beq.taken (sized.gpr a2) (sized.gpr zero) = decide (n = 0) := by
    have none : sized.gpr zero = 0#32 := sized.x0
    rw [length, none, Rv32.BranchOp.taken, beq_eq_decide]
    congr 1
    rw [← BitVec.toNat_inj, BitVec.toNat_ofNat, Nat.mod_eq_of_lt size]
    simp
  rw [taken] at tested
  by_cases empty : n = 0
  · subst empty
    refine ⟨_, sizes.trans tested, ?_, ?_, fun r _ other => kept r other⟩
    · have offset : BitVec.ofInt 32 (4 * (textSize (wordLoop body) + 2)) =
          BitVec.ofNat 32 (4 * (textSize (wordLoop body) + 2)) := offset_eq _ 2
      dsimp only
      rw [decide_eq_true rfl, if_pos rfl, offset, pc]
      bv_omega
    · exact mem.trans (ByteMem.fill_zero _ _ _).symm
  · rw [decide_eq_false empty, if_neg Bool.false_ne_true] at tested
    rw [← pc, ← mem] at clear
    have fetched : { sized with pc := sized.pc + 4#32 }.fetch = some (mv t0 zero) := clear
    obtain ⟨ready, clears, pc', mem', gpr'⟩ := runs_plain_op (InBlock base (4 * n)) fetched rfl
    have place : ready.pc = entry.pc + 12#32 := by
      rw [pc']
      dsimp only
      rw [pc]
      bv_omega
    have same : ready.mem = entry.mem := mem'.trans mem
    have saved (r : RegId) (keep : Kept r) (other : r ≠ a2) : ready.gpr r = entry.gpr r := by
      rw [gpr', ← kept r other]
      exact writeGpr_of_ne _ _ keep.1
    have first : ready.gpr t0 = 0#32 := by
      rw [gpr']
      exact (congrArg (· + _) sized.x0).trans (BitVec.zero_add _)
    have limit : ready.gpr a2 = BitVec.ofNat 32 (4 * n) := by
      rw [gpr', ← length]
      exact writeGpr_of_ne _ _ (by decide)
    have loop' : TextAt symbols ready.mem ready.pc (wordLoop body) := by
      rw [same, place]
      exact loop
    have apart' (addr : Word) (inside : InBlock ready.pc (4 * textSize (wordLoop body)) addr) :
        ¬ InBlock base (4 * n) addr := by
      refine apart addr ?_
      rw [place] at inside
      unfold InBlock at inside ⊢
      bv_omega
    obtain ⟨after, runs, pc'', mem'', kept''⟩ := wordLoop_runs loop' (by omega) apart' size limit
      first (fills ready same saved)
    refine ⟨after, ((sizes.trans tested).trans clears).trans runs, ?_, same ▸ mem'', ?_⟩
    · rw [pc'', place]
      bv_omega
    · intro r keep other
      exact (kept'' r keep).trans (saved r keep other)

/-!
## Sections
-/

variable {symbols : Symbol → Word}

/-- The number of words of a section. -/
def words (symbols : Symbol → Word) (s : OutputSection) : Nat :=
  (endOf symbols s - startOf symbols s) / 4

theorem toNat_sub_start {s : OutputSection} {addr : Word} (inside : InSection symbols s addr) :
    (addr - symbols s.start).toNat = addr.toNat - startOf symbols s := by
  obtain ⟨above, _⟩ := inside
  unfold startOf at above ⊢
  bv_omega

section Sections

variable {s : OutputSection} (placed : Placed symbols s)
include placed

theorem Placed.size : 4 * words symbols s = endOf symbols s - startOf symbols s :=
  Nat.mul_div_cancel' (Nat.dvd_sub placed.aligned.2 placed.aligned.1)

theorem Placed.size_lt : 4 * words symbols s < 2 ^ 32 := by
  have bound : endOf symbols s < 2 ^ 32 := (symbols s.end_).isLt
  rw [placed.size]
  omega

theorem Placed.distance :
    symbols s.end_ - symbols s.start = BitVec.ofNat 32 (4 * words symbols s) := by
  have ordered : (symbols s.start).toNat ≤ (symbols s.end_).toNat := placed.ordered
  rw [placed.size]
  unfold startOf endOf
  bv_omega

theorem Placed.inBlock_iff (addr : Word) :
    InBlock (symbols s.start) (4 * words symbols s) addr ↔ InSection symbols s addr := by
  have ordered : (symbols s.start).toNat ≤ (symbols s.end_).toNat := placed.ordered
  rw [InBlock, InSection, placed.size]
  unfold startOf endOf
  bv_omega

def InFlash (addr : Word) : Prop :=
  flash.origin ≤ addr.toNat ∧ addr.toNat < flash.origin + flash.length

/-- No section runs in flash. -/
theorem Placed.not_inFlash {addr : Word} (inside : InSection symbols s addr) : ¬ InFlash addr := by
  obtain ⟨above, below⟩ := inside
  have region := placed.inside (Nat.lt_of_le_of_lt above below)
  unfold InFlash
  cases s <;> simp only [OutputSection.region, sram, sdram, flash] at region ⊢ <;> omega

/-- The image of a section is in flash. -/
theorem Placed.inFlash {load : Symbol} (image : s.load = some load) {i : Nat}
    (bound : i < 4 * words symbols s) : InFlash (symbols load + BitVec.ofNat 32 i) := by
  rw [placed.size] at bound
  have inside := placed.image load image (by omega)
  unfold InFlash
  simp only [flash] at inside ⊢
  bv_omega

theorem Placed.image_apart {load : Symbol} (image : s.load = some load) (addr : Word)
    (inside : InBlock (symbols load) (4 * words symbols s) addr) :
    ¬ InBlock (symbols s.start) (4 * words symbols s) addr := by
  intro run
  have inFlash := placed.inFlash image inside
  rw [BitVec.ofNat_toNat, BitVec.setWidth_eq, BitVec.add_comm, BitVec.sub_add_cancel] at inFlash
  exact placed.not_inFlash ((placed.inBlock_iff addr).mp run) inFlash

end Sections

/-- The first stage is in flash. -/
theorem Linked.start_inFlash (linked : Linked symbols) {front size : Nat} {addr : Word}
    (part : front + size ≤ textSize startText)
    (inside : InBlock (symbols .start + BitVec.ofNat 32 (4 * front)) (4 * size) addr) :
    InFlash addr := by
  have whole : textSize startText = 25 := rfl
  have region := linked.start (by omega)
  unfold InBlock at inside
  unfold InFlash
  rw [whole] at region part
  simp only [flash] at region ⊢
  bv_omega

/-!
## Loading
-/

/-- At the call of `_bl_ss_load_align4` for a section. -/
structure Called (symbols : Symbol → Word) (s : OutputSection) (load : Symbol)
    (machine : Machine) : Prop where
  pc : machine.pc = symbols .blSsLoadAlign4
  a0 : machine.gpr a0 = symbols s.start
  a1 : machine.gpr a1 = symbols load
  a2 : machine.gpr a2 = symbols s.end_

theorem loadSection_runs {machine : Machine} {s : OutputSection} {load : Symbol}
    (text : TextAt symbols machine.mem machine.pc (loadSection s.start load s.end_))
    {writable : Word → Prop} :
    ∃ after, machine.Runs writable after ∧ Called symbols s load after ∧
      after.gpr ra = machine.pc + 28#32 ∧ after.mem = machine.mem := by
  have parts : TextAt symbols machine.mem machine.pc
      ([.la a0 s.start, .la a1 load, .la a2 s.end_] ++ [.jal ra .blSsLoadAlign4]) := text
  obtain ⟨ready, computes, pc, mem, gpr⟩ := runs_plain writable parts.append.1 rfl
  have call := parts.append.2
  rw [← pc, ← mem] at call
  have others {r : RegId} (other : r ≠ ra) :
      writeGpr ready.gpr ra (ready.pc + 4#32) r = ready.gpr r := writeGpr_of_ne _ _ other
  have link : writeGpr ready.gpr ra (ready.pc + 4#32) ra = ready.pc + 4#32 :=
    writeGpr_same _ _ (by decide)
  refine ⟨_, computes.trans (runs_jal_line writable call), ⟨rfl, ?_, ?_, ?_⟩, ?_, mem⟩
  · exact (others (by decide)).trans (congrFun gpr a0)
  · exact (others (by decide)).trans (congrFun gpr a1)
  · exact (others (by decide)).trans (congrFun gpr a2)
  · refine link.trans ?_
    rw [pc, BitVec.add_assoc]
    rfl

/-- The sections of the list are in place; the rest is as it was at first. -/
structure Loading (symbols : Symbol → Word) (initial : ByteMem 32) (done : List OutputSection)
    (mem : ByteMem 32) : Prop where
  loaded : ∀ s ∈ done, ∀ addr, InSection symbols s addr →
    mem addr = contents symbols initial s (addr.toNat - startOf symbols s)
  rest : ∀ addr, (∀ s ∈ done, ¬ InSection symbols s addr) → mem addr = initial addr

/-- The second stage is part of `.bl.s`. -/
theorem Linked.loader_inside (linked : Linked symbols) {front size : Nat} {addr : Word}
    (part : front + size ≤ textSize loaderText)
    (inside : InBlock (symbols .doBlSs + BitVec.ofNat 32 (4 * front)) (4 * size) addr) :
    InSection symbols .blS addr := by
  obtain ⟨above, below⟩ := linked.loader
  have limit : endOf symbols .blS < 2 ^ 32 := (symbols _).isLt
  unfold InBlock at inside
  unfold InSection startOf OutputSection.start at *
  bv_omega

section Loading

variable {initial mem : ByteMem 32} {done : List OutputSection}

theorem Loading.nil (initial : ByteMem 32) : Loading symbols initial [] initial :=
  ⟨fun _ member => absurd member List.not_mem_nil, fun _ _ => rfl⟩

variable (linked : Linked symbols) (loading : Loading symbols initial done mem)
include linked loading

theorem Loading.flash {addr : Word} (inFlash : InFlash addr) : mem addr = initial addr :=
  loading.rest addr fun s _ inside => (linked.placed s).not_inFlash inside inFlash

/-- The images stay what they are while sections are loaded. -/
theorem Loading.contents_eq {s : OutputSection} {i : Nat} (bound : i < 4 * words symbols s) :
    contents symbols mem s i = contents symbols initial s i := by
  unfold contents
  cases image : s.load with
  | none => rfl
  | some load => exact loading.flash linked ((linked.placed s).inFlash image bound)

theorem Loading.next {s : OutputSection} (new : s ∉ done) {bytes : Nat → BitVec 8}
    (same : ∀ i < 4 * words symbols s, bytes i = contents symbols mem s i) :
    Loading symbols initial (s :: done)
      (mem.fill (symbols s.start) bytes (4 * words symbols s)) := by
  have placed := linked.placed s
  constructor
  · intro s' member addr inside
    by_cases here : s' = s
    · subst here
      have filled := (placed.inBlock_iff addr).mpr inside
      rw [ByteMem.fill_inside filled, same _ filled, loading.contents_eq linked filled,
        toNat_sub_start inside]
    · have outside := mt (placed.inBlock_iff addr).mp (linked.apart s' s here addr inside)
      rw [ByteMem.fill_outside outside]
      exact loading.loaded s' ((List.mem_cons.mp member).resolve_left here) addr inside
  · intro addr outside
    have apart := mt (placed.inBlock_iff addr).mp (outside s List.mem_cons_self)
    rw [ByteMem.fill_outside apart]
    exact loading.rest addr fun s' member => outside s' (List.mem_cons_of_mem s member)

/-- The code in flash stays. -/
theorem Loading.startText (flashed : Flashed symbols initial) :
    TextAt symbols mem (symbols .start) startText := by
  refine flashed.start.congr (by decide) fun addr inside => loading.flash linked ?_
  rw [← BitVec.add_zero (symbols .start)] at inside
  exact linked.start_inFlash (Nat.le_of_eq (Nat.zero_add _)) inside

/-- Once `.bl.s` is in place, the second stage lies where it was linked. -/
theorem Loading.loaderText (flashed : Flashed symbols initial)
    (member : OutputSection.blS ∈ done) :
    TextAt symbols mem (symbols .doBlSs) loaderText := by
  refine CodeAt.move flashed.loader fun i bound => ?_
  rw [length_assemble] at bound
  obtain ⟨above, below⟩ := linked.loader
  have limit : endOf symbols .blS < 2 ^ 32 := (symbols _).isLt
  have inside : InSection symbols .blS (symbols .doBlSs + BitVec.ofNat 32 i) := by
    unfold InSection startOf OutputSection.start at *
    bv_omega
  rw [loading.loaded .blS member _ inside, ← toNat_sub_start inside]
  change initial (symbols .blSLoad + BitVec.ofNat 32 _) = _
  congr 1
  rw [BitVec.ofNat_toNat, BitVec.setWidth_eq]
  change _ + (_ - symbols .blS) = _
  bv_omega

/-- `_bl_ss_load_align4`, called for a section, puts it in place and returns. -/
theorem Loading.routine_runs (flashed : Flashed symbols initial)
    (member : OutputSection.blS ∈ done) {s : OutputSection} (new : s ∉ done) {load : Symbol}
    (image : s.load = some load) {machine : Machine} (here : machine.mem = mem)
    (called : Called symbols s load machine) (aligned : 4 ∣ (machine.gpr ra).toNat) :
    ∃ after, machine.Runs (InSection symbols s) after ∧ after.pc = machine.gpr ra ∧
      Loading symbols initial (s :: done) after.mem := by
  subst here
  have placed := linked.placed s
  have other : OutputSection.blS ≠ s := fun same => new (same ▸ member)
  have text : TextAt symbols machine.mem machine.pc (sizedLoop copyWord ++ [.instr ret]) := by
    rw [called.pc, linked.routine]
    exact (loading.loaderText linked flashed member).append.2
  have size : textSize (sizedLoop copyWord) = 10 := rfl
  have distance : machine.gpr a2 - machine.gpr a0 = BitVec.ofNat 32 (4 * words symbols s) := by
    rw [called.a2, called.a0, placed.distance]
  have codeApart (addr : Word)
      (inside : InBlock machine.pc (4 * textSize (sizedLoop copyWord)) addr) :
      ¬ InBlock (symbols s.start) (4 * words symbols s) addr := by
    rw [called.pc, linked.routine, size] at inside
    exact mt (placed.inBlock_iff addr).mp
      (linked.apart .blS s other addr (linked.loader_inside (by decide) inside))
  obtain ⟨copied, copies, pc, mem, kept⟩ := sizedLoop_runs text.append.1 (by omega) codeApart
    placed.size_lt distance fun ready same saved => by
      have fills : Fills symbols copyWord ready _ _ _ := copyWord_fills placed.size_lt
        ((saved a0 (by decide) (by decide)).trans called.a0)
        ((saved a1 (by decide) (by decide)).trans called.a1) (placed.image_apart image)
      rwa [same] at fills
  have loaded : Loading symbols initial (s :: done) copied.mem := by
    rw [mem]
    refine loading.next linked new fun i _ => ?_
    rw [contents, image]
  have still : TextAt symbols copied.mem machine.pc (sizedLoop copyWord ++ [.instr ret]) := by
    rw [called.pc, linked.routine]
    exact (loaded.loaderText linked flashed (List.mem_cons_of_mem s member)).append.2
  have fetched := still.append.2.1
  rw [← pc] at fetched
  have link : copied.gpr ra = machine.gpr ra := kept ra (by decide) (by decide)
  rw [← link] at aligned
  refine ⟨_, (copies.mono fun addr => (placed.inBlock_iff addr).mp).trans
    (runs_jalr _ aligned fetched), link, loaded⟩

/-- One of the three calls of the second stage. -/
theorem Loading.section_runs (flashed : Flashed symbols initial)
    (member : OutputSection.blS ∈ done) {s : OutputSection} (new : s ∉ done) {load : Symbol}
    (image : s.load = some load) {machine : Machine} (here : machine.mem = mem)
    (text : TextAt symbols machine.mem machine.pc (loadSection s.start load s.end_))
    (aligned : 4 ∣ machine.pc.toNat) :
    ∃ after, machine.Runs (fun addr => ∃ s, InSection symbols s addr) after ∧
      after.pc = machine.pc + 28#32 ∧ Loading symbols initial (s :: done) after.mem := by
  obtain ⟨called, calls, call, link, same⟩ := loadSection_runs text
  obtain ⟨after, copies, pc, loaded⟩ :=
    loading.routine_runs linked flashed member new image (same.trans here) call (by bv_omega)
  exact ⟨after, calls.trans (copies.mono fun addr inside => ⟨s, inside⟩), pc.trans link, loaded⟩

/-- The clearing of `.bss`. -/
theorem Loading.clearBss_runs (new : OutputSection.bss ∉ done) {machine : Machine}
    (here : machine.mem = mem)
    (text : TextAt symbols machine.mem machine.pc clearBss)
    (within : ∀ addr, InBlock machine.pc (4 * textSize clearBss) addr →
      InSection symbols .blS addr) :
    ∃ after, machine.Runs (fun addr => ∃ s, InSection symbols s addr) after ∧
      after.pc = machine.pc + BitVec.ofNat 32 (4 * textSize clearBss) ∧
      Loading symbols initial (.bss :: done) after.mem := by
  subst here
  have placed := linked.placed .bss
  have parts : TextAt symbols machine.mem machine.pc
      ([.la a0 .bssStart, .la a2 .ebss] ++ sizedLoop clearWord) := text
  obtain ⟨ready, computes, pc, mem, gpr⟩ :=
    runs_plain (InBlock (symbols .bssStart) (4 * words symbols .bss))
      parts.append.1 rfl
  have loop := parts.append.2
  rw [← pc, ← mem] at loop
  have size : textSize clearBss = 12 := rfl
  have inner : textSize (sizedLoop clearWord) = 8 := rfl
  rw [size] at within ⊢
  have distance : ready.gpr a2 - ready.gpr a0 = BitVec.ofNat 32 (4 * words symbols .bss) := by
    rw [← placed.distance, gpr]
    rfl
  have apart (addr : Word) (inside : InBlock ready.pc (4 * textSize (sizedLoop clearWord)) addr) :
      ¬ InBlock (symbols .bssStart) (4 * words symbols .bss) addr := by
    refine mt (placed.inBlock_iff addr).mp
      (linked.apart .blS .bss (by decide) addr (within addr ?_))
    rw [pc, inner] at inside
    change InBlock (machine.pc + 16#32) (4 * 8) addr at inside
    unfold InBlock at inside ⊢
    bv_omega
  obtain ⟨cleared, clears, pc', mem', _⟩ := sizedLoop_runs loop (by omega) apart placed.size_lt
    distance fun ready' _ saved =>
      clearWord_fills placed.size_lt ((saved a0 (by decide) (by decide)).trans (congrFun gpr a0))
  refine ⟨cleared, (computes.trans clears).mono fun addr inside =>
    ⟨.bss, (placed.inBlock_iff addr).mp inside⟩, ?_, ?_⟩
  · rw [pc', pc, BitVec.add_assoc]
    rfl
  · rw [mem', mem]
    exact loading.next linked new fun _ _ => rfl

end Loading

/-!
## Stages
-/

/-- A stage is left through a register. -/
theorem leave_runs {machine : Machine} {lines : Text} {target : Symbol} {writable : Word → Prop}
    (text : TextAt symbols machine.mem machine.pc (lines ++ [.instr (jalr ra)]))
    (plain : lines.all Line.plain = true)
    (link : lines.foldl (Line.effect symbols machine.mem) machine.gpr ra = symbols target)
    (aligned : 4 ∣ (symbols target).toNat) :
    ∃ after, machine.Runs writable after ∧ after.pc = symbols target ∧ after.mem = machine.mem ∧
      ∀ r, r ≠ ra →
        after.gpr r = lines.foldl (Line.effect symbols machine.mem) machine.gpr r := by
  obtain ⟨ready, computes, pc, mem, gpr⟩ := runs_plain writable text.append.1 plain
  have fetched := text.append.2.1
  rw [← pc, ← mem] at fetched
  have target_ : ready.gpr ra = symbols target := (congrFun gpr ra).trans link
  have leaves := runs_jalr writable (target_ ▸ aligned) fetched
  refine ⟨_, computes.trans leaves, target_, mem, fun r other => ?_⟩
  exact (writeGpr_of_ne _ _ other).trans (congrFun gpr r)

/-- The first stage puts `.bl.s` in place and jumps there. -/
theorem start_runs (linked : Linked symbols) {machine : Machine}
    (flashed : Flashed symbols machine.mem) (here : machine.pc = symbols .start) :
    ∃ after, machine.Runs (InSection symbols .blS) after ∧ after.pc = symbols .doBlSs ∧
      Loading symbols machine.mem [.blS] after.mem := by
  have placed := linked.placed .blS
  have text : TextAt symbols machine.mem machine.pc
      (startSetup ++ wordLoop copyWord ++
        ((clearRegs ++ [.la ra .doBlSs]) ++ [.instr (jalr ra)])) :=
    here ▸ flashed.start
  have size : textSize startText = 25 := rfl
  have setup : textSize startSetup = 9 := rfl
  have loop : textSize (wordLoop copyWord) = 7 := rfl
  obtain ⟨ready, computes, pc, mem, gpr⟩ :=
    runs_plain (InBlock (symbols .blS) (4 * words symbols .blS)) text.append.1.append.1 rfl
  have loopText := text.part
  rw [← pc, ← mem] at loopText
  have first : ready.gpr t0 = 0#32 := by
    rw [gpr]
    exact (congrArg (· + _) machine.x0).trans (BitVec.zero_add _)
  have limit : ready.gpr a2 = BitVec.ofNat 32 (4 * words symbols .blS) := by
    rw [← placed.distance, gpr]
    rfl
  have apart (addr : Word) (inside : InBlock ready.pc (4 * textSize (wordLoop copyWord)) addr) :
      ¬ InBlock (symbols .blS) (4 * words symbols .blS) addr := by
    intro run
    rw [pc, here, setup, loop] at inside
    exact placed.not_inFlash ((placed.inBlock_iff addr).mp run)
      (linked.start_inFlash (by decide) inside)
  obtain ⟨copied, copies, pc', mem', _⟩ := wordLoop_runs loopText (by omega) apart
    placed.size_lt limit first
    (copyWord_fills placed.size_lt (congrFun gpr a0) (congrFun gpr a1)
      (placed.image_apart rfl))
  rw [mem] at mem'
  have loaded : Loading symbols machine.mem [.blS] copied.mem := by
    rw [mem']
    exact (Loading.nil machine.mem).next linked List.not_mem_nil fun _ _ => rfl
  have rest : TextAt symbols copied.mem machine.pc
      (startSetup ++ wordLoop copyWord ++
        ((clearRegs ++ [.la ra .doBlSs]) ++ [.instr (jalr ra)])) :=
    here ▸ loaded.startText linked flashed
  have leave := rest.append.2
  have place : copied.pc =
      machine.pc + BitVec.ofNat 32 (4 * textSize (startSetup ++ wordLoop copyWord)) := by
    rw [pc', pc, BitVec.add_assoc]
    rfl
  rw [← place] at leave
  obtain ⟨after, leaves, pc'', mem'', _⟩ := leave_runs leave rfl rfl linked.targets.1
  refine ⟨after, ((computes.trans copies).trans leaves).mono fun addr inside => ?_, pc'',
    mem'' ▸ loaded⟩
  exact (placed.inBlock_iff addr).mp inside

/-- The second stage, part by part. -/
theorem loaderText_parts {mem : ByteMem 32} {addr : Word}
    (text : TextAt symbols mem addr loaderText) :
    TextAt symbols mem addr (loadSection .text .textLoad .etext) ∧
      TextAt symbols mem (addr + 28#32) (loadSection .data .dataLoad .edata) ∧
      TextAt symbols mem (addr + 56#32) (loadSection .dataExtra .dataExtraLoad .edataExtra) ∧
      TextAt symbols mem (addr + 84#32) clearBss ∧
      TextAt symbols mem (addr + 132#32)
        ((clearRegs ++ [.la sp .stackPointer, .la ra .trmInit]) ++ [.instr (jalr ra)]) := by
  have parts : TextAt symbols mem addr
      (loadSection .text .textLoad .etext ++ loadSection .data .dataLoad .edata ++
        loadSection .dataExtra .dataExtraLoad .edataExtra ++ clearBss ++
        ((clearRegs ++ [.la sp .stackPointer, .la ra .trmInit]) ++ [.instr (jalr ra)]) ++
        blSsLoadAlign4Text) := text
  have cleared := parts.append.1.append.1
  have loads := cleared.append.1
  exact ⟨loads.append.1.append.1, loads.append.1.append.2, loads.append.2, cleared.append.2,
    parts.append.1.append.2⟩

/-- The second stage puts the other sections in place and enters `_trm_init`. -/
theorem loader_runs (linked : Linked symbols) {initial : ByteMem 32}
    (flashed : Flashed symbols initial) {machine : Machine} (here : machine.pc = symbols .doBlSs)
    (loading : Loading symbols initial [.blS] machine.mem) :
    ∃ after, machine.Runs (fun addr => ∃ s, InSection symbols s addr) after ∧
      after.pc = symbols .trmInit ∧ after.gpr sp = symbols .stackPointer ∧
      Loading symbols initial [.bss, .dataExtra, .data, .text, .blS] after.mem := by
  have aligned := linked.targets.1
  rw [← here] at aligned
  have parts {done : List OutputSection} {mem : ByteMem 32}
      (loading : Loading symbols initial done mem) (member : OutputSection.blS ∈ done) :=
    loaderText_parts (here ▸ loading.loaderText linked flashed member)
  obtain ⟨first, run₁, pc₁, loading₁⟩ :=
    loading.section_runs linked flashed (s := .text) (by decide) (by decide) rfl rfl
      (parts loading (by decide)).1 aligned
  have data := (parts loading₁ (by decide)).2.1
  rw [← pc₁] at data
  obtain ⟨second, run₂, pc₂, loading₂⟩ :=
    loading₁.section_runs linked flashed (s := .data) (by decide) (by decide) rfl rfl data
      (by rw [pc₁]; bv_omega)
  have dataExtra := (parts loading₂ (by decide)).2.2.1
  have place₂ : second.pc = machine.pc + 56#32 := by
    rw [pc₂, pc₁]
    bv_omega
  rw [← place₂] at dataExtra
  obtain ⟨third, run₃, pc₃, loading₃⟩ :=
    loading₂.section_runs linked flashed (s := .dataExtra) (by decide) (by decide) rfl rfl
      dataExtra (by rw [place₂]; bv_omega)
  have bss := (parts loading₃ (by decide)).2.2.2.1
  have place₃ : third.pc = machine.pc + 84#32 := by
    rw [pc₃, place₂]
    bv_omega
  rw [← place₃] at bss
  have within (addr : Word) (inside : InBlock third.pc (4 * textSize clearBss) addr) :
      InSection symbols .blS addr := by
    rw [place₃, here] at inside
    have part : InBlock (symbols .doBlSs + BitVec.ofNat 32 (4 * 21)) (4 * 12) addr := inside
    exact linked.loader_inside (by decide) part
  obtain ⟨fourth, run₄, pc₄, loading₄⟩ :=
    loading₃.clearBss_runs linked (by decide) rfl bss within
  have leave := (parts loading₄ (by decide)).2.2.2.2
  have place₄ : fourth.pc = machine.pc + 132#32 := by
    rw [pc₄, place₃, BitVec.add_assoc]
    rfl
  rw [← place₄] at leave
  obtain ⟨after, run₅, pc₅, mem₅, gpr₅⟩ := leave_runs leave rfl rfl linked.targets.2
  refine ⟨after, (((run₁.trans run₂).trans run₃).trans run₄).trans run₅, pc₅,
    gpr₅ sp (by decide), mem₅ ▸ loading₄⟩

/-- For every placement of the sections, the code from `_start` enters `_trm_init` with the
stack pointer set and every section in place, and on the way writes the sections only. -/
theorem boot_loads (symbols : Symbol → Word) (linked : Linked symbols) (machine : Machine)
    (flashed : Flashed symbols machine.mem) (here : machine.pc = symbols .start) :
    ∃ after, machine.Runs (fun addr => ∃ s, InSection symbols s addr) after ∧
      EntersTrm symbols machine after := by
  obtain ⟨middle, first, place, loading⟩ := start_runs linked flashed here
  obtain ⟨after, second, pc, stack, loaded⟩ := loader_runs linked flashed place loading
  refine ⟨after, (first.mono fun addr inside => ⟨.blS, inside⟩).trans second,
    ⟨pc, stack, fun s => loaded.loaded s ?_, fun addr outside =>
      loaded.rest addr fun s _ => outside s⟩⟩
  cases s <;> decide

/-!
## A small image
-/

/-- One word of `.text`, one of `.data`, two of `.bss`, and no `.data.extra`. -/
def smallSymbols : Symbol → Word
  | .start => 0x30000000#32
  | .doBlSs | .blS => 0x0f000000#32
  | .blSsLoadAlign4 => 0x0f0000b0#32
  | .eblS => 0x0f0000dc#32
  | .stackPointer => 0x0f0004e0#32
  | .blSLoad => 0x30000064#32
  | .trmInit | .text => 0xa0000000#32
  | .textLoad => 0x30000140#32
  | .etext | .data => 0xa0000004#32
  | .dataLoad => 0x30000144#32
  | .edata | .bssStart => 0xa0000008#32
  | .ebss => 0xa0000010#32
  | .dataExtra | .dataExtraLoad | .edataExtra => 0#32

/-- `start.S` as the assembler and the linker leave it in flash, and the two images. -/
def smallImage : List (BitVec 32) :=
  [
    0x00000413, 0xdf000517, 0xffc50513, 0x00000597, 0x05858593, 0xdf000617, 0x0c860613,
    0x40a60633, 0x00000293, 0x00c2fe63, 0x00558333, 0x00032383, 0x00550333, 0x00732023,
    0x00428293, 0xfe9ff06f, 0x00000513, 0x00000593, 0x00000613, 0x00000293, 0x00000313,
    0x00000393, 0xdf000097, 0xfa808093, 0x000080e7, 0x91000517, 0x00050513, 0x21000597,
    0x13858593, 0x91000617, 0xff460613, 0x098000ef, 0x91000517, 0xfe850513, 0x21000597,
    0x12058593, 0x91000617, 0xfdc60613, 0x07c000ef, 0xf1000517, 0xfc850513, 0xf1000597,
    0xfc058593, 0xf1000617, 0xfb860613, 0x060000ef, 0x91000517, 0xfb450513, 0x91000617,
    0xfb460613, 0x40a60633, 0x00060e63, 0x00000293, 0x00c2fa63, 0x00550333, 0x00032023,
    0x00428293, 0xff1ff06f, 0x00000513, 0x00000593, 0x00000613, 0x00000293, 0x00000313,
    0x00000393, 0x00000117, 0x44410113, 0x91000097, 0xf5c08093, 0x000080e7, 0x40a60633,
    0x02060263, 0x00000293, 0x00c2fe63, 0x00558333, 0x00032383, 0x00550333, 0x00732023,
    0x00428293, 0xfe9ff06f, 0x00008067, 0x0000006f, 0x12345678]

def smallMem : ByteMem 32 := fun addr =>
  let i := (addr - 0x30000000#32).toNat
  (smallImage.getD (i / 4) 0#32).extractLsb' (8 * (i % 4)) 8

theorem small_linked : Linked smallSymbols := by
  refine ⟨fun s => ?_, fun s s' other addr inside inside' => ?_, by decide, by decide, by decide,
    by decide⟩
  · cases s <;> refine ⟨by decide, by decide, by decide, fun load image => ?_⟩ <;> cases image <;>
      decide
  · unfold InSection startOf endOf at inside inside'
    cases s <;> cases s' <;> first
      | exact absurd rfl other
      | simp only [OutputSection.start, OutputSection.end_, smallSymbols,
          BitVec.toNat_ofNat] at inside inside'
        omega

theorem small_flashed : Flashed smallSymbols smallMem :=
  ⟨by unfold TextAt; decide +kernel, by decide +kernel⟩

/-- The small image boots. -/
theorem boot_loads_small :
    let machine : Machine := ⟨fun _ => 0#32, rfl, 0x30000000#32, fun _ => 0#32, smallMem⟩
    ∃ after, machine.Runs (fun addr => ∃ s, InSection smallSymbols s addr) after ∧
      EntersTrm smallSymbols machine after :=
  boot_loads smallSymbols small_linked _ small_flashed rfl

end Ysyx.Am.Boot
