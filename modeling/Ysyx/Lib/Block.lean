import Ysyx.Lib.ByteMem

/-! Words at the slots of a block of byte memory: reading a slot back, and what a write of one
slot leaves alone; blocks filled slot by slot. Blocks may wrap around the top of the address
space. -/

set_option autoImplicit false

namespace Ysyx.Lib.ByteMem

variable {width : Nat}

/-- The address lies in the `size` bytes from `base` on. -/
def InBlock (base : BitVec width) (size : Nat) (addr : BitVec width) : Prop :=
  (addr - base).toNat < size

/-- The word `k` words after `base`. -/
def readSlot (mem : ByteMem width) (base : BitVec width) (k : Nat) : BitVec 32 :=
  mem.readLe (base + BitVec.ofNat width (4 * k)) 4

def writeSlot (mem : ByteMem width) (base : BitVec width) (k : Nat) (value : BitVec 32) :
    ByteMem width :=
  mem.writeLe (base + BitVec.ofNat width (4 * k)) 4 value

/-- A slot of a block that fits covers the four addresses at its distance from the base. -/
theorem slot_covers (base addr : BitVec width) {k n : Nat} (slot : k < n) (fits : 4 * n ≤ 2 ^ width) :
    (addr - (base + BitVec.ofNat width (4 * k))).toNat < 4 ↔
      4 * k ≤ (addr - base).toNat ∧ (addr - base).toNat < 4 * k + 4 := by
  have bound := (addr - base).isLt
  have start : (BitVec.ofNat width (4 * k)).toNat = 4 * k := by
    rw [BitVec.toNat_ofNat, Nat.mod_eq_of_lt (by omega)]
  rw [← BitVec.sub_sub, BitVec.toNat_sub, start]
  rcases Nat.lt_or_ge (addr - base).toNat (4 * k) with before | after
  · rw [Nat.mod_eq_of_lt (by omega)]
    omega
  · have turn : 2 ^ width - 4 * k + (addr - base).toNat =
        (addr - base).toNat - 4 * k + 2 ^ width := by omega
    rw [turn, Nat.add_mod_right, Nat.mod_eq_of_lt (by omega)]
    omega

theorem toNat_slot_sub (base : BitVec width) {k n i : Nat} (slot : k < n) (fits : 4 * n ≤ 2 ^ width)
    (bound : i < 4) :
    (base + BitVec.ofNat width (4 * k) + BitVec.ofNat width i - base).toNat = 4 * k + i := by
  rw [BitVec.add_assoc, BitVec.add_comm base, BitVec.add_sub_cancel, ← BitVec.ofNat_add,
    BitVec.toNat_ofNat, Nat.mod_eq_of_lt (by omega)]

theorem writeSlot_outside {mem : ByteMem width} {base addr : BitVec width} {k n : Nat}
    {value : BitVec 32} (slot : k < n) (fits : 4 * n ≤ 2 ^ width)
    (outside : ¬ InBlock base (4 * n) addr) : mem.writeSlot base k value addr = mem addr := by
  apply writeLe_apply_of_not_covered
  rw [slot_covers base addr slot fits]
  unfold InBlock at outside
  omega

theorem readSlot_congr {left right : ByteMem width} {base : BitVec width} {k n : Nat}
    (slot : k < n) (fits : 4 * n ≤ 2 ^ width)
    (same : ∀ addr, InBlock base (4 * n) addr → left addr = right addr) :
    left.readSlot base k = right.readSlot base k := by
  apply readLe_congr
  intro i bound
  apply same
  rw [InBlock, toNat_slot_sub _ slot fits bound]
  omega

theorem readSlot_writeSlot_same (mem : ByteMem width) (base : BitVec width) (value : BitVec 32)
    {k n : Nat} (slot : k < n) (fits : 4 * n ≤ 2 ^ width) :
    (mem.writeSlot base k value).readSlot base k = value := by
  apply BitVec.eq_of_getLsbD_eq
  intro bit bound
  have offset : (BitVec.ofNat width (bit / 8)).toNat = bit / 8 := by
    rw [BitVec.toNat_ofNat, Nat.mod_eq_of_lt (by omega)]
  have inByte : 8 * (bit / 8) + bit % 8 = bit := by omega
  rw [readSlot, getLsbD_readLe _ _ _ _ bound, writeSlot, writeLe, BitVec.add_comm _ (.ofNat _ _),
    BitVec.add_sub_cancel, offset, if_pos (by omega), BitVec.getLsbD_extractLsb', inByte]
  have inWord : bit < 8 * 4 := by omega
  have lowBits : bit % 8 < 8 := by omega
  simp only [inWord, lowBits, decide_true, Bool.true_and]

theorem readSlot_writeSlot_ne (mem : ByteMem width) (base : BitVec width) (value : BitVec 32)
    {j k n : Nat} (read : j < n) (slot : k < n) (fits : 4 * n ≤ 2 ^ width) (apart : j ≠ k) :
    (mem.writeSlot base k value).readSlot base j = mem.readSlot base j := by
  apply readLe_congr
  intro i bound
  apply writeLe_apply_of_not_covered
  rw [slot_covers _ _ slot fits, toNat_slot_sub _ read fits bound]
  omega

/-- The slots of the list one after the other. -/
def writeSlots (mem : ByteMem width) (base : BitVec width) (value : Nat → BitVec 32)
    (slots : List Nat) : ByteMem width :=
  slots.foldl (fun mem k => mem.writeSlot base k (value k)) mem

theorem writeSlots_congr {mem : ByteMem width} {base : BitVec width} {left right : Nat → BitVec 32}
    {slots : List Nat} (same : ∀ k ∈ slots, left k = right k) :
    mem.writeSlots base left slots = mem.writeSlots base right slots := by
  induction slots generalizing mem with
  | nil => rfl
  | cons k slots ih =>
      rw [writeSlots, writeSlots, List.foldl_cons, List.foldl_cons, same k List.mem_cons_self]
      exact ih fun j member => same j (List.mem_cons_of_mem _ member)

theorem writeSlots_outside {mem : ByteMem width} {base addr : BitVec width}
    {value : Nat → BitVec 32} {slots : List Nat} {n : Nat} (inside : ∀ k ∈ slots, k < n)
    (fits : 4 * n ≤ 2 ^ width) (outside : ¬ InBlock base (4 * n) addr) :
    mem.writeSlots base value slots addr = mem addr := by
  induction slots generalizing mem with
  | nil => rfl
  | cons k slots ih =>
      rw [writeSlots, List.foldl_cons, ← writeSlots,
        ih fun j member => inside j (List.mem_cons_of_mem _ member),
        writeSlot_outside (inside k List.mem_cons_self) fits outside]

theorem readSlot_writeSlots {mem : ByteMem width} {base : BitVec width} {value : Nat → BitVec 32}
    {slots : List Nat} {j n : Nat} (inside : ∀ k ∈ slots, k < n) (read : j < n)
    (fits : 4 * n ≤ 2 ^ width) :
    (mem.writeSlots base value slots).readSlot base j =
      if j ∈ slots then value j else mem.readSlot base j := by
  induction slots generalizing mem with
  | nil => rfl
  | cons k slots ih =>
      rw [writeSlots, List.foldl_cons, ← writeSlots,
        ih fun i member => inside i (List.mem_cons_of_mem _ member)]
      by_cases later : j ∈ slots
      · rw [if_pos later, if_pos (List.mem_cons_of_mem _ later)]
      · rw [if_neg later]
        by_cases here : j = k
        · subst here
          rw [if_pos List.mem_cons_self, readSlot_writeSlot_same _ _ _ read fits]
        · rw [if_neg (by simp [here, later]),
            readSlot_writeSlot_ne _ _ _ read (inside k List.mem_cons_self) fits here]

/-!
## Filled blocks
-/

/-- The first `size` bytes from `base` on replaced. -/
def fill (mem : ByteMem width) (base : BitVec width) (bytes : Nat → BitVec 8) (size : Nat) :
    ByteMem width :=
  fun addr => if (addr - base).toNat < size then bytes (addr - base).toNat else mem addr

section Fill

variable {mem : ByteMem width} {base addr : BitVec width} {bytes : Nat → BitVec 8} {size : Nat}

theorem fill_inside (inside : InBlock base size addr) :
    mem.fill base bytes size addr = bytes (addr - base).toNat := if_pos inside

theorem fill_outside (outside : ¬ InBlock base size addr) :
    mem.fill base bytes size addr = mem addr := if_neg outside

theorem fill_zero (mem : ByteMem width) (base : BitVec width) (bytes : Nat → BitVec 8) :
    mem.fill base bytes 0 = mem := by
  funext addr
  exact fill_outside (Nat.not_lt_zero _)

/-- The bytes of a word that is read. -/
theorem extractLsb'_readLe (mem : ByteMem width) (addr : BitVec width) {i : Nat} (bound : i < 4) :
    (mem.readLe addr 4).extractLsb' (8 * i) 8 = mem (addr + BitVec.ofNat width i) := by
  apply BitVec.eq_of_getLsbD_eq
  intro bit inByte
  have byte : (8 * i + bit) / 8 = i := by omega
  have rest : (8 * i + bit) % 8 = bit := by omega
  have inWord : 8 * i + bit < 8 * 4 := by omega
  rw [BitVec.getLsbD_extractLsb', getLsbD_readLe _ _ _ _ (by omega), byte, rest]
  simp only [inByte, inWord, decide_true, Bool.true_and]

/-- The next slot of a block that is filled from its start. -/
theorem writeSlot_fill {k n : Nat} {value : BitVec 32} (slot : k < n) (fits : 4 * n ≤ 2 ^ width)
    (same : ∀ i < 4, value.extractLsb' (8 * i) 8 = bytes (4 * k + i)) :
    (mem.fill base bytes (4 * k)).writeSlot base k value = mem.fill base bytes (4 * (k + 1)) := by
  funext addr
  have covers := slot_covers base addr slot fits
  by_cases covered : (addr - (base + BitVec.ofNat width (4 * k))).toNat < 4
  · obtain ⟨i, distance⟩ : ∃ i, (addr - (base + BitVec.ofNat width (4 * k))).toNat = i := ⟨_, rfl⟩
    rw [distance] at covered
    have place : addr = base + BitVec.ofNat width (4 * k) + BitVec.ofNat width i := by
      rw [← distance, BitVec.ofNat_toNat, BitVec.setWidth_eq, BitVec.add_comm, BitVec.sub_add_cancel]
    have offset : (addr - base).toNat = 4 * k + i := by
      rw [place]
      exact toNat_slot_sub base slot fits covered
    have inside : InBlock base (4 * (k + 1)) addr := by
      rw [InBlock, offset]
      omega
    rw [fill_inside inside, offset, writeSlot, writeLe, distance, if_pos covered]
    exact same i covered
  · rw [writeSlot, writeLe_apply_of_not_covered covered]
    rw [covers] at covered
    simp only [fill]
    congr 1
    apply propext
    omega

end Fill

end Ysyx.Lib.ByteMem
