import Mathlib.Data.BitVec

/-! Byte-addressed little-endian memory over an address space of any width,
and the view of it that a data bus with byte strobes has. -/

set_option autoImplicit false

namespace Ysyx.Lib

/-- A memory gives every address a byte; addresses wrap at the top. -/
abbrev ByteMem (width : Nat) := BitVec width → BitVec 8

namespace ByteMem

variable {width : Nat}

/-- The `count` bytes from `addr` on, least significant first, in the low bits
of a word. -/
def readLe (mem : ByteMem width) (addr : BitVec width) : Nat → BitVec 32
  | 0 => 0#32
  | count + 1 => (mem addr).setWidth 32 ||| (readLe mem (addr + 1) count <<< 8)

/-- Replace the `count` bytes from `addr` on by the low bytes of `value`. -/
def writeLe (mem : ByteMem width) (addr : BitVec width) (count : Nat) (value : BitVec 32) :
    ByteMem width :=
  fun at_ =>
    if (at_ - addr).toNat < count then value.extractLsb' (8 * (at_ - addr).toNat) 8
    else mem at_

private theorem advance (addr : BitVec width) (index : Nat) :
    addr + BitVec.ofNat width (index + 1) = addr + 1 + BitVec.ofNat width index := by
  rw [BitVec.ofNat_add, BitVec.add_assoc, BitVec.add_comm (BitVec.ofNat width index)]
  rfl

theorem getLsbD_readLe (mem : ByteMem width) (addr : BitVec width) (count bit : Nat)
    (inWord : bit < 32) :
    (mem.readLe addr count).getLsbD bit =
      (decide (bit < 8 * count) && (mem (addr + BitVec.ofNat width (bit / 8))).getLsbD (bit % 8)) := by
  induction count generalizing addr bit with
  | zero => simp [readLe]
  | succ count ih =>
      by_cases first : bit < 8
      · have zeroth : bit / 8 = 0 := Nat.div_eq_of_lt first
        have same : bit % 8 = bit := Nat.mod_eq_of_lt first
        have covered : bit < 8 * (count + 1) := by omega
        simp [readLe, first, inWord, zeroth, same, covered]
      · have shifted := ih (addr + 1) (bit - 8) (by omega)
        have byteIndex : bit / 8 = (bit - 8) / 8 + 1 := by omega
        have bitIndex : bit % 8 = (bit - 8) % 8 := by omega
        have address : addr + BitVec.ofNat width (bit / 8) =
            addr + 1 + BitVec.ofNat width ((bit - 8) / 8) := by
          rw [byteIndex, advance]
        have high : ((mem addr).setWidth 32).getLsbD bit = false := by
          simp [BitVec.getLsbD_setWidth, BitVec.getLsbD_of_ge (mem addr) bit (by omega)]
        have bounds : decide (bit - 8 < 8 * count) = decide (bit < 8 * (count + 1)) := by
          congr 1
          apply propext
          omega
        rw [readLe, BitVec.getLsbD_or, high, BitVec.getLsbD_shiftLeft, shifted, address,
          bitIndex, bounds]
        simp [inWord, first]

/-- A read depends only on the bytes it covers. -/
theorem readLe_congr {left right : ByteMem width} {addr : BitVec width} {count : Nat}
    (same : ∀ i, i < count → left (addr + BitVec.ofNat width i) = right (addr + BitVec.ofNat width i)) :
    left.readLe addr count = right.readLe addr count := by
  induction count generalizing addr with
  | zero => rfl
  | succ count ih =>
      have here := same 0 (by omega)
      have rest : left.readLe (addr + 1) count = right.readLe (addr + 1) count := by
        apply ih
        intro i bound
        have shifted := same (i + 1) (by omega)
        rwa [advance] at shifted
      simp only [BitVec.add_zero] at here
      rw [readLe, readLe, here, rest]

theorem writeLe_apply_of_not_covered {mem : ByteMem width} {addr at_ : BitVec width} {count : Nat}
    {value : BitVec 32} (outside : ¬ (at_ - addr).toNat < count) :
    mem.writeLe addr count value at_ = mem at_ := by
  rw [writeLe, if_neg outside]

/-- The bytes read fill the low bits only. -/
theorem setWidth_readLe {mem : ByteMem width} {addr : BitVec width} {count bits : Nat}
    (fits : 8 * count ≤ bits) :
    ((mem.readLe addr count).setWidth bits).setWidth 32 = mem.readLe addr count := by
  apply BitVec.eq_of_getLsbD_eq
  intro bit inWord
  rw [BitVec.getLsbD_setWidth, BitVec.getLsbD_setWidth, getLsbD_readLe _ _ _ _ inWord]
  by_cases low : bit < 8 * count
  · simp [inWord, low, show bit < bits by omega]
  · simp [low]

/-- A write takes the low bytes of its value only. -/
theorem writeLe_setWidth {mem : ByteMem width} {addr : BitVec width} {count bits : Nat}
    {value : BitVec 32} (fits : 8 * count ≤ bits) :
    mem.writeLe addr count ((value.setWidth bits).setWidth 32) = mem.writeLe addr count value := by
  funext at_
  by_cases covered : (at_ - addr).toNat < count
  · rw [writeLe, writeLe, if_pos covered, if_pos covered]
    generalize (at_ - addr).toNat = index at covered
    apply BitVec.eq_of_getLsbD_eq
    intro bit inByte
    simp only [BitVec.getLsbD_extractLsb', BitVec.getLsbD_setWidth, inByte, decide_true,
      Bool.true_and, show 8 * index + bit < bits by omega]
    by_cases inWord : 8 * index + bit < 32
    · simp [inWord]
    · simp [inWord, BitVec.getLsbD_of_ge value _ (Nat.not_lt.mp inWord)]
  · rw [writeLe_apply_of_not_covered covered, writeLe_apply_of_not_covered covered]

/-!
## Byte lanes
-/

/-- The address of the aligned 32-bit word around an address. -/
def wordBase (addr : BitVec width) : BitVec width := (addr >>> 2) <<< 2

/-- A write of the byte lanes that `strb` enables in the word around `addr`. -/
def writeLanes (mem : ByteMem width) (addr : BitVec width) (strb : BitVec 4) (data : BitVec 32) :
    ByteMem width :=
  fun at_ =>
    if wordBase at_ = wordBase addr ∧ strb.getLsbD (at_.toNat % 4) = true then
      data.extractLsb' (8 * (at_.toNat % 4)) 8
    else mem at_

theorem toNat_wordBase (addr : BitVec width) :
    (wordBase addr).toNat = addr.toNat - addr.toNat % 4 := by
  have bound := addr.isLt
  have floor : addr.toNat >>> 2 <<< 2 = addr.toNat - addr.toNat % 4 := by
    rw [Nat.shiftLeft_eq, Nat.shiftRight_eq_div_pow]
    omega
  rw [wordBase, BitVec.toNat_shiftLeft, BitVec.toNat_ushiftRight, floor]
  exact Nat.mod_eq_of_lt (by omega)

theorem wordBase_add (addr : BitVec width) :
    wordBase addr + BitVec.ofNat width (addr.toNat % 4) = addr := by
  have bound := addr.isLt
  apply BitVec.eq_of_toNat_eq
  rw [BitVec.toNat_add, toNat_wordBase, BitVec.toNat_ofNat,
    Nat.mod_eq_of_lt (a := addr.toNat % 4) (by omega), Nat.sub_add_cancel (Nat.mod_le _ _)]
  exact Nat.mod_eq_of_lt bound

/-- Shifted down to the addressed lane, the aligned word shows the bytes from `addr` on. -/
theorem setWidth_readLe_wordBase {mem : ByteMem width} {addr : BitVec width} {count : Nat}
    (within : addr.toNat % 4 + count ≤ 4) :
    ((mem.readLe (wordBase addr) 4) >>> (8 * (addr.toNat % 4))).setWidth (8 * count) =
      (mem.readLe addr count).setWidth (8 * count) := by
  apply BitVec.eq_of_getLsbD_eq
  intro bit bound
  have split : (8 * (addr.toNat % 4) + bit) / 8 = addr.toNat % 4 + bit / 8 := by omega
  have rest : (8 * (addr.toNat % 4) + bit) % 8 = bit % 8 := by omega
  have address : wordBase addr + BitVec.ofNat width (addr.toNat % 4 + bit / 8) =
      addr + BitVec.ofNat width (bit / 8) := by
    rw [BitVec.ofNat_add, ← BitVec.add_assoc, wordBase_add]
  rw [BitVec.getLsbD_setWidth, BitVec.getLsbD_setWidth, BitVec.getLsbD_ushiftRight,
    getLsbD_readLe _ _ _ _ (by omega), getLsbD_readLe _ _ _ _ (by omega), split, rest, address]
  simp only [bound, decide_true, Bool.true_and, show 8 * (addr.toNat % 4) + bit < 8 * 4 by omega]

/-- A naturally aligned write is the write of its byte lanes. -/
theorem writeLanes_eq_writeLe {mem : ByteMem width} {addr : BitVec width} {count : Nat}
    {strb : BitVec 4} {value : BitVec 32} (within : addr.toNat % 4 + count ≤ 4) (wide : 2 ≤ width)
    (lanes : ∀ i, strb.getLsbD i = decide (addr.toNat % 4 ≤ i ∧ i < addr.toNat % 4 + count)) :
    mem.writeLanes addr strb (value <<< (8 * (addr.toNat % 4))) = mem.writeLe addr count value := by
  funext at_
  have hat := at_.isLt
  have haddr := addr.isLt
  have four : 2 ^ width % 4 = 0 := by
    obtain ⟨k, rfl⟩ := Nat.exists_eq_add_of_le wide
    rw [Nat.pow_add]
    omega
  have same : (wordBase at_ = wordBase addr ∧ strb.getLsbD (at_.toNat % 4) = true) ↔
      (at_ - addr).toNat < count := by
    rw [lanes, ← BitVec.toNat_inj, toNat_wordBase, toNat_wordBase, BitVec.toNat_sub]
    simp only [decide_eq_true_eq]
    rcases Nat.lt_or_ge at_.toNat addr.toNat with below | above
    · have distance : (2 ^ width - addr.toNat + at_.toNat) % 2 ^ width =
          2 ^ width - addr.toNat + at_.toNat := Nat.mod_eq_of_lt (by omega)
      rw [distance]
      omega
    · have distance : (2 ^ width - addr.toNat + at_.toNat) % 2 ^ width =
          at_.toNat - addr.toNat := by
        rw [show 2 ^ width - addr.toNat + at_.toNat = at_.toNat - addr.toNat + 2 ^ width by omega,
          Nat.add_mod_right, Nat.mod_eq_of_lt (by omega)]
      rw [distance]
      omega
  by_cases covered : (at_ - addr).toNat < count
  · obtain ⟨word, enabled⟩ := same.mpr covered
    rw [writeLanes, writeLe, if_pos ⟨word, enabled⟩, if_pos covered]
    have low := lanes (at_.toNat % 4)
    rw [enabled] at low
    have order : addr.toNat % 4 ≤ at_.toNat % 4 := by simpa using (decide_eq_true_eq.mp low.symm).1
    have index : (at_ - addr).toNat = at_.toNat % 4 - addr.toNat % 4 := by
      have heads := congrArg BitVec.toNat word
      rw [toNat_wordBase, toNat_wordBase] at heads
      rw [BitVec.toNat_sub_of_le (by rw [BitVec.le_def]; omega)]
      omega
    apply BitVec.eq_of_getLsbD_eq
    intro bit bound
    rw [index, BitVec.getLsbD_extractLsb', BitVec.getLsbD_extractLsb', BitVec.getLsbD_shiftLeft]
    have inWord : 8 * (at_.toNat % 4) + bit < 32 := by omega
    have high : ¬ 8 * (at_.toNat % 4) + bit < 8 * (addr.toNat % 4) := by omega
    have shifted : 8 * (at_.toNat % 4) + bit - 8 * (addr.toNat % 4) =
        8 * (at_.toNat % 4 - addr.toNat % 4) + bit := by omega
    simp only [bound, inWord, high, shifted, decide_true, decide_false, Bool.true_and, Bool.not_false]
  · rw [writeLanes, if_neg (mt same.mp covered), writeLe_apply_of_not_covered covered]

end ByteMem

/-- The `count` bytes of a byte sequence as a word, least significant first. -/
def leWord (bytes : Nat → BitVec 8) : Nat → BitVec 32
  | 0 => 0#32
  | count + 1 => (bytes 0).setWidth 32 ||| (leWord (fun i => bytes (i + 1)) count <<< 8)

theorem ByteMem.readLe_eq_leWord {width : Nat} {mem : ByteMem width} {addr : BitVec width}
    {count : Nat} {bytes : Nat → BitVec 8}
    (same : ∀ i, i < count → mem (addr + BitVec.ofNat width i) = bytes i) :
    mem.readLe addr count = leWord bytes count := by
  induction count generalizing addr bytes with
  | zero => rfl
  | succ count ih =>
      have here := same 0 (by omega)
      simp only [BitVec.add_zero] at here
      have rest : mem.readLe (addr + 1) count = leWord (fun i => bytes (i + 1)) count := by
        apply ih
        intro i bound
        rw [← advance]
        exact same (i + 1) (by omega)
      rw [readLe, leWord, here, rest]

end Ysyx.Lib
