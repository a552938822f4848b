import Ysyx.Nemu.Memory
import Mathlib.Data.List.Induction

/-! The memory map of the build with `CONFIG_YSYXSOC`: the five windows of `guest_to_host` are
wider than the arrays behind them, and the accesses inside the arrays see a memory. -/

set_option autoImplicit false

namespace Ysyx.Nemu

open Rv32 (Word Byte)
open Lib (leWord)

/-!
## Sequences of writes
-/

/-- A call of `paddr_write`. -/
structure PWrite where
  addr : Word
  len : Nat
  data : Word

def paddrWrites (cfg : Config) (mem : HostMem) (writes : List PWrite) : Except Fault HostMem :=
  writes.foldlM (fun mem w => paddrWrite cfg mem w.addr w.len w.data) mem

/-- The byte that the last write to cover the address has put there. -/
def lastByte (writes : List PWrite) (addr : Word) : Option Byte :=
  writes.foldl (fun last w =>
    if (addr - w.addr).toNat < w.len then
      some (w.data.extractLsb' (8 * (addr - w.addr).toNat) 8)
    else last) none

theorem paddrWrites_append (cfg : Config) (mem : HostMem) (writes : List PWrite) (w : PWrite) :
    paddrWrites cfg mem (writes ++ [w]) =
      (paddrWrites cfg mem writes).bind fun next => paddrWrite cfg next w.addr w.len w.data := by
  rw [paddrWrites, List.foldlM_append]
  cases before : paddrWrites cfg mem writes with
  | error fault =>
      rw [paddrWrites] at before
      rw [before]
      rfl
  | ok next =>
      rw [paddrWrites] at before
      rw [before]
      simp only [List.foldlM_cons, List.foldlM_nil, bind, Except.bind]
      cases paddrWrite cfg next w.addr w.len w.data <;> rfl

theorem lastByte_append (writes : List PWrite) (w : PWrite) (addr : Word) :
    lastByte (writes ++ [w]) addr =
      if (addr - w.addr).toNat < w.len then
        some (w.data.extractLsb' (8 * (addr - w.addr).toNat) 8)
      else lastByte writes addr := by
  rw [lastByte, List.foldl_append]
  rfl

/-!
## Windows and arrays
-/

/-- The access stays below the end of the array of its window. -/
def Roomy (addr : Word) (len : Nat) : Prop :=
  let a := addr.toNat
  (0x0f000000 ≤ a ∧ a + len ≤ 0x0f000000 + Region.sram.size) ∨
    (0x20000000 ≤ a ∧ a + len ≤ 0x20000000 + Region.mrom.size) ∨
    (0x30000000 ≤ a ∧ a + len ≤ 0x30000000 + Region.flash.size) ∨
    (0x80000000 ≤ a ∧ a + len ≤ 0x80000000 + Region.psram.size) ∨
    (0xa0000000 ≤ a ∧ a + len ≤ 0xa0000000 + Region.sdram.size)

theorem backed_iff_roomy {addr : Word} {len : Nat} (positive : 0 < len) :
    Backed .shareYsyxsoc addr len ↔ Roomy addr len := by
  simp only [Backed, Roomy, guestToHost, Region.size]
  constructor
  · rintro ⟨region, offset, at_, nonneg, fits⟩
    split_ifs at at_ <;> simp only [Except.ok.injEq, Prod.mk.injEq] at at_ <;>
      obtain ⟨rfl, rfl⟩ := at_ <;> simp only [Region.size] at fits <;> omega
  · intro roomy
    split_ifs
    · exact ⟨_, _, rfl, by omega, by simp only [Region.size]; omega⟩
    · exact ⟨_, _, rfl, by omega, by simp only [Region.size]; omega⟩
    · exact ⟨_, _, rfl, by omega, by simp only [Region.size]; omega⟩
    · exact ⟨_, _, rfl, by omega, by simp only [Region.size]; omega⟩
    · exact ⟨_, _, rfl, by omega, by simp only [Region.size]; omega⟩
    · omega

theorem validLen_pos {len : Nat} (valid : validLen len = true) : 0 < len := by
  rcases Nat.eq_zero_or_pos len with rfl | positive
  · simp [validLen] at valid
  · exact positive

theorem backed_of_paddrWrite {cfg : Config} {mem next : HostMem} {addr data : Word} {len : Nat}
    (valid : validLen len = true) (write : paddrWrite cfg mem addr len data = .ok next) :
    Backed cfg.build addr len ∧ ∀ region,
      (∀ offset, guestToHost cfg.build addr ≠ .ok (region, offset)) → next region = mem region := by
  rw [paddrWrite] at write
  split_ifs at write
  cases at_ : guestToHost cfg.build addr with
  | error fault =>
      rw [at_] at write
      cases write
  | ok place =>
      rw [at_] at write
      simp only [Except.bind, hostWrite, valid, if_true] at write
      split_ifs at write with inside
      obtain rfl := Except.ok.inj write
      refine ⟨⟨place.1, place.2, at_, inside⟩, fun region other => ?_⟩
      have apart : region ≠ place.1 := by
        rintro rfl
        exact other place.2 rfl
      funext j
      exact if_neg fun all => apart all.1

/-!
## The memory
-/

/-- The writes and the read stay inside the arrays; the read returns, byte by byte, what was
last written; a region that is not written is as before. -/
structure FaithfulMemory (cfg : Config) (mem : HostMem) (writes : List PWrite) (addr : Word)
    (len : Nat) : Prop where
  inside : (∀ w ∈ writes, Backed cfg.build w.addr w.len) ∧ Backed cfg.build addr len
  returns : ∃ next, paddrWrites cfg mem writes = .ok next ∧
    paddrRead cfg next addr len = .ok (leWord (fun i =>
      (lastByte writes (addr + BitVec.ofNat 32 i)).getD
        (guestView cfg.build mem (addr + BitVec.ofNat 32 i))) len) ∧
    ∀ region, (∀ w ∈ writes, ∀ offset, guestToHost cfg.build w.addr ≠ .ok (region, offset)) →
      next region = mem region

/-- Writes inside the arrays leave the bytes that were last written. -/
theorem paddrWrites_of_backed {cfg : Config} {mem : HostMem} {writes : List PWrite}
    (valid : ∀ w ∈ writes, validLen w.len = true)
    (backed : ∀ w ∈ writes, Backed cfg.build w.addr w.len) :
    ∃ next, paddrWrites cfg mem writes = .ok next ∧
      (∀ addr, guestView cfg.build next addr =
        (lastByte writes addr).getD (guestView cfg.build mem addr)) ∧
      ∀ region, (∀ w ∈ writes, ∀ offset, guestToHost cfg.build w.addr ≠ .ok (region, offset)) →
        next region = mem region := by
  induction writes using List.reverseRecOn with
  | nil => exact ⟨mem, rfl, fun _ => rfl, fun _ _ => rfl⟩
  | append_singleton writes w ih =>
      obtain ⟨middle, ran, view, apart⟩ := ih
        (fun w found => valid w (List.mem_append_left _ found))
        (fun w found => backed w (List.mem_append_left _ found))
      have member : w ∈ writes ++ [w] := List.mem_append_right _ (List.mem_singleton_self w)
      obtain ⟨next, stored, after⟩ :=
        @paddrWrite_of_backed cfg middle w.addr w.data w.len (valid w member) (backed w member)
      refine ⟨next, ?_, fun addr => ?_, fun region other => ?_⟩
      · rw [paddrWrites_append, ran]
        exact stored
      · rw [after, Lib.ByteMem.writeLe, lastByte_append, view]
        split_ifs <;> rfl
      · rw [(backed_of_paddrWrite (valid w member) stored).2 region (other w member)]
        exact apart region fun w found => other w (List.mem_append_left _ found)

theorem faithfulMemory_iff_backed {cfg : Config} {mem : HostMem} {writes : List PWrite}
    {addr : Word} {len : Nat} (valid : ∀ w ∈ writes, validLen w.len = true)
    (validRead : validLen len = true) :
    FaithfulMemory cfg mem writes addr len ↔
      (∀ w ∈ writes, Backed cfg.build w.addr w.len) ∧ Backed cfg.build addr len := by
  constructor
  · intro faithful
    exact faithful.inside
  · rintro ⟨backed, backedRead⟩
    obtain ⟨next, ran, view, apart⟩ := @paddrWrites_of_backed cfg mem writes valid backed
    refine ⟨⟨backed, backedRead⟩, next, ran, ?_, apart⟩
    rw [paddrRead_of_backed validRead backedRead]
    congr 1
    exact Lib.ByteMem.readLe_eq_leWord fun i _ => view _

/-- The accesses see a memory exactly when each of them stays inside the array of its window. -/
theorem soc_memory_iff (rtCheck : Bool) (mem : HostMem) (writes : List PWrite) (addr : Word)
    (len : Nat) (valid : ∀ w ∈ writes, validLen w.len = true) (validRead : validLen len = true) :
    FaithfulMemory ⟨.shareYsyxsoc, rtCheck⟩ mem writes addr len ↔
      (∀ w ∈ writes, Roomy w.addr w.len) ∧ Roomy addr len := by
  rw [faithfulMemory_iff_backed valid validRead, backed_iff_roomy (validLen_pos validRead)]
  have each : (∀ w ∈ writes, Backed .shareYsyxsoc w.addr w.len) ↔
      ∀ w ∈ writes, Roomy w.addr w.len := by
    constructor
    · intro backed w found
      exact (backed_iff_roomy (validLen_pos (valid w found))).mp (backed w found)
    · intro roomy w found
      exact (backed_iff_roomy (validLen_pos (valid w found))).mpr (roomy w found)
  exact and_congr_left' each

theorem soc_memory_psram :
    FaithfulMemory ⟨.shareYsyxsoc, true⟩ (fun _ _ => 0#8)
      [⟨0x803ffffc#32, 4, 0x12345678#32⟩, ⟨0x803ffffd#32, 1, 0xab#32⟩] 0x803ffffc#32 4 := by
  refine (soc_memory_iff true _ _ _ _ ?_ rfl).mpr ⟨?_, ?_⟩
  · simp [validLen]
  · simp [Roomy, Region.size]
  · simp [Roomy, Region.size]

/-- The first byte after the array of the SRAM is an accepted address. -/
theorem soc_memory_sram_fails :
    ¬ ∀ (mem : HostMem) (writes : List PWrite) (addr : Word) (len : Nat),
      (∀ w ∈ writes, validLen w.len = true ∧
        ∃ at_, guestToHost .shareYsyxsoc w.addr = .ok at_) →
      validLen len = true → (∃ at_, guestToHost .shareYsyxsoc addr = .ok at_) →
      FaithfulMemory ⟨.shareYsyxsoc, true⟩ mem writes addr len := by
  intro always
  have faithful := always (fun _ _ => 0#8) [] 0x0f002000#32 1 nofun rfl ⟨_, rfl⟩
  have roomy := (backed_iff_roomy Nat.one_pos).mp faithful.inside.2
  simp [Roomy, Region.size] at roomy

end Ysyx.Nemu
