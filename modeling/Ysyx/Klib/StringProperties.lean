import Ysyx.Klib.String
import Ysyx.Lib.Copy
import Ysyx.Lib.Ring

/-! What the string functions of klib do exactly: `memmove` copies downwards only, `strncpy`
writes one terminator and no padding, the comparisons look at the first byte of empty ranges
and `memcmp` stops at a zero byte. -/

set_option autoImplicit false

namespace Ysyx.Klib

open Lib (ByteMem copyCells copyCells_cons copyCells_frame copyCells_dst copyCells_apart
  copyCells_chase periodic_iff)

/-!
## Addresses
-/

theorem toNat_at {ptr : BitVec 32} {i : Nat} (inside : ptr.toNat + i < 2 ^ 32) :
    (ptr + BitVec.ofNat 32 i).toNat = ptr.toNat + i := by
  rw [BitVec.toNat_add, BitVec.toNat_ofNat]
  omega

theorem at_eq_iff {p q : BitVec 32} {i j : Nat} (left : p.toNat + i < 2 ^ 32)
    (right : q.toNat + j < 2 ^ 32) :
    p + BitVec.ofNat 32 i = q + BitVec.ofNat 32 j ↔ p.toNat + i = q.toNat + j := by
  rw [← BitVec.toNat_inj, toNat_at left, toNat_at right]

theorem at_ne {ptr : BitVec 32} {i j : Nat} (order : i < j) (small : j < 2 ^ 32) :
    ptr + BitVec.ofNat 32 i ≠ ptr + BitVec.ofNat 32 j := by
  intro same
  have := Lib.Ring.ofNat_inj (Nat.lt_trans order small) small same
  omega

theorem at_succ (ptr : BitVec 32) (i : Nat) :
    ptr + 1#32 + BitVec.ofNat 32 i = ptr + BitVec.ofNat 32 (i + 1) := by
  rw [Nat.add_comm i 1, BitVec.ofNat_add, BitVec.add_assoc]

theorem toNat_sub_of_lt {p q : BitVec 32} (order : p.toNat < q.toNat) :
    (q - p).toNat = q.toNat - p.toNat :=
  BitVec.toNat_sub_of_le (BitVec.le_def.mpr (Nat.le_of_lt order))

/-!
## `memmove`
-/

/-- The `n` bytes at `dst` are those that were at `src`, and nothing else has changed. -/
structure Moved (mem copied : ByteMem 32) (dst src : BitVec 32) (n : Nat) : Prop where
  bytes : ∀ i, i < n → byteAt copied dst i = byteAt mem src i
  frame : ∀ a, (∀ i, i < n → a ≠ dst + BitVec.ofNat 32 i) → copied a = mem a

/-- The address of turn `i` of `n` turns downwards. -/
def downFrom (ptr : BitVec 32) (n i : Nat) : BitVec 32 := ptr + BitVec.ofNat 32 (n - 1 - i)

theorem memmoveLoop_eq (dst src : BitVec 32) (n : Nat) (mem : ByteMem 32) :
    memmoveLoop dst src n mem = copyCells mem (downFrom dst n) (downFrom src n) n := by
  induction n generalizing mem with
  | zero => rfl
  | succ n ih =>
      have shifted (ptr : BitVec 32) :
          (fun i => downFrom ptr (n + 1) (i + 1)) = downFrom ptr n := by
        funext i
        rw [downFrom, downFrom]
        congr 2
        omega
      rw [memmoveLoop, ih, copyCells_cons, shifted, shifted]
      rfl

theorem memmove_turns {n : BitVec 32} (small : n.toNat < 2 ^ 31) :
    ((n - 1#32).toInt + 1).toNat = n.toNat := by
  rw [BitVec.toInt_eq_toNat_cond, BitVec.toNat_sub]
  simp only [BitVec.toNat_ofNat]
  split_ifs <;> omega

theorem downFrom_ne {ptr : BitVec 32} {n i j : Nat} (small : n < 2 ^ 32) (order : i < j)
    (bound : j < n) : downFrom ptr n i ≠ downFrom ptr n j :=
  (at_ne (by omega) (by omega)).symm

/-- The byte a turn has written, read back. -/
theorem memmoveLoop_byte {mem : ByteMem 32} {dst src : BitVec 32} {n i : Nat}
    (small : n < 2 ^ 32) (bound : i < n) :
    byteAt (memmoveLoop dst src n mem) dst i =
      copyCells mem (downFrom dst n) (downFrom src n) (n - 1 - i)
        (downFrom src n (n - 1 - i)) := by
  have turn : dst + BitVec.ofNat 32 i = downFrom dst n (n - 1 - i) := by
    rw [downFrom]
    congr 2
    omega
  rw [byteAt, memmoveLoop_eq, turn]
  exact copyCells_dst (fun _ _ => downFrom_ne small) (by omega)

section Overlap

variable {mem : ByteMem 32} {dst src : BitVec 32} {n : Nat}
  (inSrc : src.toNat + n ≤ 2 ^ 32) (small : n < 2 ^ 32)

include inSrc small

/-- Upwards in the address space nothing is read after it has been written. -/
theorem memmoveLoop_up (inDst : dst.toNat + n ≤ 2 ^ 32) (order : src.toNat ≤ dst.toNat) (i : Nat)
    (bound : i < n) :
    byteAt (memmoveLoop dst src n mem) dst i = byteAt mem src i := by
  rw [memmoveLoop_byte small bound, copyCells_apart, downFrom, byteAt]
  · congr 3
    omega
  · intro k earlier
    rw [downFrom, downFrom, Ne, at_eq_iff (by omega) (by omega)]
    omega

theorem memmoveLoop_down (order : dst.toNat < src.toNat) :
    (∀ i, i < n → byteAt (memmoveLoop dst src n mem) dst i = byteAt mem src i) ↔
      ∀ i, i + (src - dst).toNat < n →
        byteAt mem src i = byteAt mem src (i + (src - dst).toNat) := by
  have distance := toNat_sub_of_lt order
  generalize (src - dst).toNat = d at distance
  have chase : ∀ j, j < n →
      copyCells mem (downFrom dst n) (downFrom src n) j (downFrom src n j) =
        mem (downFrom src n (j % d)) := by
    intro j bound
    refine copyCells_chase (by omega)
      (fun i k before inside => downFrom_ne small before (by omega)) ?_
    intro i k before inside
    rw [downFrom, downFrom, at_eq_iff (by omega) (by omega)]
    omega
  have period := periodic_iff (show 0 < d by omega) (fun j => mem (downFrom src n j)) n
  constructor
  · intro copied i bound
    have repeats := period.mp fun j inside => by
      have byte := copied (n - 1 - j) (by omega)
      rw [memmoveLoop_byte small (by omega), show n - 1 - (n - 1 - j) = j by omega,
        chase j inside] at byte
      exact byte
    have here := repeats (n - 1 - (i + d)) (by omega)
    simp only [downFrom, show n - 1 - (n - 1 - (i + d)) = i + d by omega,
      show n - 1 - (n - 1 - (i + d) + d) = i by omega] at here
    exact here.symm
  · intro repeats i bound
    have same := period.mpr (fun k inside => by
      have here := repeats (n - 1 - (k + d)) (by omega)
      rw [show n - 1 - (k + d) + d = n - 1 - k by omega] at here
      exact here.symm) (n - 1 - i) (by omega)
    rw [memmoveLoop_byte small bound, chase _ (by omega), same, downFrom, byteAt]
    congr 3
    omega

end Overlap

theorem memmove_frame {mem : ByteMem 32} {dst src : BitVec 32} {n : Nat} {a : BitVec 32}
    (outside : ∀ i, i < n → a ≠ dst + BitVec.ofNat 32 i) :
    memmoveLoop dst src n mem a = mem a := by
  rw [memmoveLoop_eq]
  exact copyCells_frame fun i bound => outside (n - 1 - i) (by omega)

/-- A move is right unless the destination is below the source in memory and the bytes there
do not repeat with the distance of the two. -/
theorem memmove_iff (mem : ByteMem 32) (dst src n : BitVec 32) (validDst : Valid dst n.toNat)
    (validSrc : Valid src n.toNat) (small : n.toNat < 2 ^ 31) :
    (∃ copied, memmove mem dst src n = some (copied, dst) ∧ Moved mem copied dst src n.toNat) ↔
      (dst.toNat < src.toNat → ∀ i, i + (src - dst).toNat < n.toNat →
        byteAt mem src i = byteAt mem src (i + (src - dst).toNat)) := by
  have result : memmove mem dst src n = some (memmoveLoop dst src n.toNat mem, dst) := by
    rw [memmove, if_neg validDst.1, memmove_turns small]
  have word : n.toNat < 2 ^ 32 := n.isLt
  constructor
  · rintro ⟨copied, called, moved⟩ order
    rw [result] at called
    cases called
    exact (memmoveLoop_down validSrc.2 word order).mp moved.bytes
  · intro repeats
    refine ⟨_, result, ?_, fun a outside => memmove_frame outside⟩
    rcases Nat.lt_or_ge dst.toNat src.toNat with down | up
    · exact (memmoveLoop_down validSrc.2 word down).mpr (repeats down)
    · exact memmoveLoop_up validSrc.2 word validDst.2 up

/-- The example bytes: every address holds its low byte. -/
def lowBytes : ByteMem 32 := fun a => a.setWidth 8

theorem memmove_upwards :
    ∃ copied, memmove lowBytes 0x80000002#32 0x80000000#32 5#32 = some (copied, 0x80000002#32) ∧
      Moved lowBytes copied 0x80000002#32 0x80000000#32 5 :=
  (memmove_iff lowBytes 0x80000002#32 0x80000000#32 5#32 ⟨by decide, by decide⟩
    ⟨by decide, by decide⟩ (by decide)).mpr fun order => absurd order (by decide)

/-- Two bytes moved down by one place: the first of them is lost. -/
theorem memmove_downwards_fails :
    ¬ ∀ (mem : ByteMem 32) (dst src n : BitVec 32), Valid dst n.toNat → Valid src n.toNat →
      n.toNat < 2 ^ 31 → ∃ copied, memmove mem dst src n = some (copied, dst) ∧
        Moved mem copied dst src n.toNat := by
  intro always
  obtain ⟨copied, called, moved⟩ := always lowBytes 0x80000000#32 0x80000001#32 2#32
    ⟨by decide, by decide⟩ ⟨by decide, by decide⟩ (by decide)
  have first := moved.bytes 0 (by decide)
  have result : copied 0x80000000#32 = 2#8 := by
    rw [memmove, if_neg (by decide)] at called
    cases called
    decide
  rw [byteAt, BitVec.add_zero, result] at first
  exact absurd first (by decide)

/-!
## `strncpy`
-/

/-- The string at `src` has `l` characters. -/
def IsStrlen (mem : ByteMem 32) (src : BitVec 32) (l : Nat) : Prop :=
  byteAt mem src l = 0#8 ∧ ∀ i, i < l → byteAt mem src i ≠ 0#8

/-- The `n` bytes at `dst` are the string of length `l` at `src`, cut off or padded with zeros,
and nothing else has changed. -/
structure Padded (mem copied : ByteMem 32) (dst src : BitVec 32) (n l : Nat) : Prop where
  bytes : ∀ i, i < min n l → byteAt copied dst i = byteAt mem src i
  padding : ∀ i, l ≤ i → i < n → byteAt copied dst i = 0#8
  frame : ∀ a, (∀ i, i < n → a ≠ dst + BitVec.ofNat 32 i) → copied a = mem a

/-- The byte that the terminator replaces was zero when the string fills the field, and the rest
of the field was zero when it does not; and the string is not read after it is overwritten. -/
def StrncpyFits (mem : ByteMem 32) (dst src : BitVec 32) (n l : Nat) : Prop :=
  if n ≤ l then
    byteAt mem dst n = 0#8 ∧ (src.toNat < dst.toNat → ∀ i, i + (dst - src).toNat < n →
      byteAt mem src i = byteAt mem src (i + (dst - src).toNat))
  else
    ¬ (src.toNat < dst.toNat ∧ dst.toNat ≤ src.toNat + l) ∧
      ∀ k, l < k → k < n → byteAt mem dst k = 0#8

/-- The address of turn `i` upwards. -/
def upFrom (ptr : BitVec 32) (i : Nat) : BitVec 32 := ptr + BitVec.ofNat 32 i

/-- What turn `j` reads. -/
def turnByte (mem : ByteMem 32) (dst src : BitVec 32) (j : Nat) : BitVec 8 :=
  copyCells mem (upFrom dst) (upFrom src) j (upFrom src j)

/-- The loop makes turns until it reads a zero or has made `n`, and then writes a zero. -/
theorem strncpyLoop_eq (mem : ByteMem 32) (dst src : BitVec 32) (n : Nat) :
    ∃ turns, turns ≤ n ∧
      strncpyLoop mem dst src n =
        Function.update (copyCells mem (upFrom dst) (upFrom src) turns) (upFrom dst turns) 0#8 ∧
      (∀ j, j < turns → turnByte mem dst src j ≠ 0#8) ∧
      (turns = n ∨ turnByte mem dst src turns = 0#8) := by
  have here (ptr : BitVec 32) : upFrom ptr 0 = ptr := BitVec.add_zero ptr
  have shifted (ptr : BitVec 32) : (fun i => upFrom ptr (i + 1)) = upFrom (ptr + 1#32) := by
    funext i
    exact (at_succ ptr i).symm
  induction n generalizing mem dst src with
  | zero =>
      refine ⟨0, Nat.le_refl 0, ?_, by simp, .inl rfl⟩
      rw [here]
      rfl
  | succ n ih =>
      rw [strncpyLoop]
      split_ifs with ended
      · refine ⟨0, Nat.zero_le _, ?_, by simp, .inr ?_⟩
        · rw [here]
          rfl
        · rw [turnByte, here]
          exact ended
      · obtain ⟨turns, bound, result, going, stop⟩ :=
          ih (Function.update mem dst (mem src)) (dst + 1#32) (src + 1#32)
        have cells (j : Nat) : copyCells mem (upFrom dst) (upFrom src) (j + 1) =
            copyCells (Function.update mem dst (mem src)) (upFrom (dst + 1#32))
              (upFrom (src + 1#32)) j := by
          rw [copyCells_cons, here, here, shifted, shifted]
        have next (ptr : BitVec 32) (j : Nat) : upFrom ptr (j + 1) = upFrom (ptr + 1#32) j :=
          congrFun (shifted ptr) j
        refine ⟨turns + 1, Nat.succ_le_succ bound, ?_, ?_, ?_⟩
        · rw [result, cells, next]
        · intro j before
          cases j with
          | zero =>
              rw [turnByte, here]
              exact ended
          | succ j =>
              rw [turnByte, cells, next]
              exact going j (Nat.lt_of_succ_lt_succ before)
        · rcases stop with all | zero
          · exact .inl (by rw [all])
          · refine .inr ?_
            rw [turnByte, cells, next]
            exact zero

theorem upFrom_ne {ptr : BitVec 32} {n i j : Nat} (small : n < 2 ^ 32) (order : i < j)
    (bound : j ≤ n) : upFrom ptr i ≠ upFrom ptr j :=
  at_ne order (by omega)

/-- The bytes of a copy with its terminator. -/
theorem terminated_byte {mem : ByteMem 32} {dst src : BitVec 32} {turns i : Nat}
    (small : turns < 2 ^ 32) (bound : i < turns) :
    byteAt (Function.update (copyCells mem (upFrom dst) (upFrom src) turns) (upFrom dst turns) 0#8)
      dst i = turnByte mem dst src i := by
  have apart : upFrom dst i ≠ upFrom dst turns := upFrom_ne small bound (Nat.le_refl _)
  rw [byteAt, ← upFrom, Function.update_of_ne apart]
  exact copyCells_dst (fun _ _ order inside => upFrom_ne small order (Nat.le_of_lt inside)) bound

theorem terminated_frame {mem : ByteMem 32} {dst src a : BitVec 32} {turns : Nat}
    (outside : ∀ i, i ≤ turns → a ≠ upFrom dst i) :
    Function.update (copyCells mem (upFrom dst) (upFrom src) turns) (upFrom dst turns) 0#8 a =
      mem a := by
  rw [Function.update_of_ne (outside turns (Nat.le_refl _))]
  exact copyCells_frame fun i bound => outside i (Nat.le_of_lt bound)

section Strings

variable {mem : ByteMem 32} {dst src : BitVec 32} {n l : Nat}

/-- Reads that no earlier turn has touched. -/
theorem turnByte_apart {j : Nat} (inSrc : src.toNat + j < 2 ^ 32)
    (inDst : ∀ i, i < j → dst.toNat + i < 2 ^ 32)
    (apart : dst.toNat ≤ src.toNat ∨ src.toNat + j < dst.toNat) :
    turnByte mem dst src j = byteAt mem src j := by
  apply copyCells_apart
  intro i order
  have inside := inDst i order
  rw [upFrom, upFrom, Ne, at_eq_iff inSrc inside]
  omega

theorem turnByte_chase {j : Nat} (order : src.toNat < dst.toNat) (inDst : dst.toNat + j < 2 ^ 32) :
    turnByte mem dst src j = byteAt mem src (j % (dst - src).toNat) := by
  have distance := toNat_sub_of_lt order
  refine copyCells_chase (by omega) ?_ ?_
  · intro i k before bound
    exact at_ne before (by omega)
  · intro i k before bound
    rw [upFrom, upFrom, at_eq_iff (by omega) (by omega)]
    omega

/-- The turns end after the first zero that is read, or after `n`. -/
theorem strncpyLoop_of_turns {turns : Nat} (bound : turns ≤ n)
    (going : ∀ j, j < turns → turnByte mem dst src j ≠ 0#8)
    (stop : turns = n ∨ turnByte mem dst src turns = 0#8) :
    strncpyLoop mem dst src n =
      Function.update (copyCells mem (upFrom dst) (upFrom src) turns) (upFrom dst turns) 0#8 := by
  obtain ⟨made, madeBound, result, madeGoing, madeStop⟩ := strncpyLoop_eq mem dst src n
  have same : made = turns := by
    rcases Nat.lt_trichotomy made turns with fewer | same | more
    · rcases madeStop with all | zero
      · omega
      · exact absurd zero (going made fewer)
    · exact same
    · rcases stop with all | zero
      · omega
      · exact absurd zero (madeGoing turns more)
  rw [result, same]

section Field

variable (inDst : dst.toNat + n ≤ 2 ^ 32) (inSrc : src.toNat + l < 2 ^ 32)
  (small : n < 2 ^ 32) (string : IsStrlen mem src l)

include inDst inSrc small string

omit small in
/-- The string fills the field. -/
theorem strncpyLoop_filled (fills : n ≤ l) :
    strncpyLoop mem dst src n =
      Function.update (copyCells mem (upFrom dst) (upFrom src) n) (upFrom dst n) 0#8 := by
  refine strncpyLoop_of_turns (Nat.le_refl n) ?_ (.inl rfl)
  intro j bound
  rcases Nat.lt_or_ge src.toNat dst.toNat with above | below
  · rw [turnByte_chase above (by omega)]
    exact string.2 _ (Nat.lt_of_le_of_lt (Nat.mod_le j _) (by omega))
  · rw [turnByte_apart (by omega) (by omega) (.inl below)]
    exact string.2 j (by omega)

theorem padded_filled (fills : n ≤ l) :
    Padded mem (strncpyLoop mem dst src n) dst src n l ↔
      byteAt mem dst n = 0#8 ∧ (src.toNat < dst.toNat → ∀ i, i + (dst - src).toNat < n →
        byteAt mem src i = byteAt mem src (i + (dst - src).toNat)) := by
  rw [strncpyLoop_filled inDst inSrc string fills]
  constructor
  · intro padded
    constructor
    · have kept := padded.frame (upFrom dst n) fun i bound => (at_ne bound small).symm
      rw [Function.update_self] at kept
      exact kept.symm
    · intro above
      have distance := toNat_sub_of_lt above
      refine (periodic_iff (by omega) (byteAt mem src) n).mp ?_
      intro j bound
      rw [← turnByte_chase above (by omega), ← terminated_byte small bound]
      exact padded.bytes j (by omega)
  · rintro ⟨zero, repeats⟩
    constructor
    · intro i bound
      rw [terminated_byte small (by omega)]
      rcases Nat.lt_or_ge src.toNat dst.toNat with above | below
      · have distance := toNat_sub_of_lt above
        rw [turnByte_chase above (by omega)]
        exact (periodic_iff (by omega) (byteAt mem src) n).mpr (repeats above) i (by omega)
      · exact turnByte_apart (by omega) (by omega) (.inl below)
    · intro i past bound
      omega
    · intro a outside
      by_cases last : a = upFrom dst n
      · rw [last, Function.update_self]
        exact zero.symm
      · apply terminated_frame
        intro i bound
        rcases Nat.lt_or_eq_of_le bound with before | rfl
        · exact outside i before
        · exact last

omit small in
/-- The string ends inside the field and is not overwritten while it is read. -/
theorem strncpyLoop_short (ends : l < n)
    (apart : dst.toNat ≤ src.toNat ∨ src.toNat + l < dst.toNat) :
    strncpyLoop mem dst src n =
      Function.update (copyCells mem (upFrom dst) (upFrom src) l) (upFrom dst l) 0#8 := by
  have reads (j : Nat) (bound : j ≤ l) : turnByte mem dst src j = byteAt mem src j :=
    turnByte_apart (by omega) (by omega) (by omega)
  refine strncpyLoop_of_turns (Nat.le_of_lt ends) ?_ (.inr ?_)
  · intro j bound
    rw [reads j (Nat.le_of_lt bound)]
    exact string.2 j bound
  · rw [reads l (Nat.le_refl l)]
    exact string.1

theorem padded_short (ends : l < n)
    (apart : dst.toNat ≤ src.toNat ∨ src.toNat + l < dst.toNat) :
    Padded mem (strncpyLoop mem dst src n) dst src n l ↔
      ∀ k, l < k → k < n → byteAt mem dst k = 0#8 := by
  rw [strncpyLoop_short inDst inSrc string ends apart]
  have rest (k : Nat) (past : l < k) (bound : k < n) :
      byteAt (Function.update (copyCells mem (upFrom dst) (upFrom src) l) (upFrom dst l) 0#8)
        dst k = byteAt mem dst k :=
    terminated_frame fun i before => (at_ne (by omega) (by omega)).symm
  constructor
  · intro padded k past bound
    rw [← rest k past bound]
    exact padded.padding k (Nat.le_of_lt past) bound
  · intro zeros
    constructor
    · intro i bound
      rw [terminated_byte (by omega) (by omega)]
      exact turnByte_apart (by omega) (by omega) (by omega)
    · intro i past bound
      rcases Nat.lt_or_eq_of_le past with later | rfl
      · rw [rest i later bound]
        exact zeros i later bound
      · exact Function.update_self ..
    · intro a outside
      exact terminated_frame fun i bound => outside i (by omega)

omit inSrc in
/-- The string ends inside the field, but its end is overwritten before it is read. -/
theorem not_padded_of_overwritten (ends : l < n) (above : src.toNat < dst.toNat)
    (near : dst.toNat ≤ src.toNat + l) :
    ¬ Padded mem (strncpyLoop mem dst src n) dst src n l := by
  have distance := toNat_sub_of_lt above
  have nonzero (j : Nat) (bound : j < n) : turnByte mem dst src j ≠ 0#8 := by
    rw [turnByte_chase above (by omega)]
    have early := Nat.mod_lt j (show 0 < (dst - src).toNat by omega)
    exact string.2 _ (by omega)
  rw [strncpyLoop_of_turns (Nat.le_refl n) nonzero (.inl rfl)]
  intro padded
  have last := padded.padding l (Nat.le_refl l) ends
  rw [terminated_byte small ends] at last
  exact nonzero l ends last

end Field

end Strings

/-- The result is the padded string exactly when nothing had to be padded or kept: one zero is
written behind the copied characters, inside the field or behind it. -/
theorem strncpy_iff (mem : ByteMem 32) (dst src n : BitVec 32) (l : Nat)
    (validDst : Valid dst n.toNat) (validSrc : Valid src (l + 1)) (string : IsStrlen mem src l) :
    (∃ copied, strncpy mem dst src n = some (copied, dst) ∧
      Padded mem copied dst src n.toNat l) ↔ StrncpyFits mem dst src n.toNat l := by
  have result : strncpy mem dst src n = some (strncpyLoop mem dst src n.toNat, dst) := by
    rw [strncpy, if_neg validDst.1]
  have only : (∃ copied, strncpy mem dst src n = some (copied, dst) ∧
      Padded mem copied dst src n.toNat l) ↔
        Padded mem (strncpyLoop mem dst src n.toNat) dst src n.toNat l := by
    constructor
    · rintro ⟨copied, called, padded⟩
      rw [result] at called
      cases called
      exact padded
    · exact fun padded => ⟨_, result, padded⟩
  have inSrc : src.toNat + l < 2 ^ 32 := validSrc.2
  rw [only, StrncpyFits]
  split_ifs with fills
  · exact padded_filled validDst.2 inSrc n.isLt string fills
  · have ends : l < n.toNat := Nat.lt_of_not_le fills
    by_cases near : src.toNat < dst.toNat ∧ dst.toNat ≤ src.toNat + l
    · refine iff_of_false ?_ fun fits => fits.1 near
      exact not_padded_of_overwritten validDst.2 n.isLt string ends near.1 near.2
    · rw [padded_short validDst.2 inSrc n.isLt string ends (by omega)]
      exact ⟨fun zeros => ⟨near, zeros⟩, fun fits => fits.2⟩

/-- The string `ab` at 0x80000000; the other bytes are 0xff. -/
def abString : ByteMem 32 := fun a =>
  if a = 0x80000000#32 then 97#8 else if a = 0x80000001#32 then 98#8
  else if a = 0x80000002#32 then 0#8 else 0xff#8

theorem strncpy_exact :
    ∃ copied, strncpy abString 0x90000000#32 0x80000000#32 3#32 = some (copied, 0x90000000#32) ∧
      Padded abString copied 0x90000000#32 0x80000000#32 3 2 :=
  (strncpy_iff abString 0x90000000#32 0x80000000#32 3#32 2 ⟨by decide, by decide⟩
    ⟨by decide, by decide⟩ ⟨by decide, by decide⟩).mpr <| by
      rw [StrncpyFits, if_neg (by decide)]
      refine ⟨by decide, ?_⟩
      intro k past bound
      have width : (3#32).toNat = 3 := rfl
      omega

/-- In a field of four bytes the last one is left as it was. -/
theorem strncpy_padding_fails :
    ¬ ∀ (mem : ByteMem 32) (dst src n : BitVec 32) (l : Nat), Valid dst n.toNat →
      Valid src (l + 1) → IsStrlen mem src l →
      ∃ copied, strncpy mem dst src n = some (copied, dst) ∧
        Padded mem copied dst src n.toNat l := by
  intro always
  obtain ⟨copied, called, padded⟩ := always abString 0x90000000#32 0x80000000#32 4#32 2
    ⟨by decide, by decide⟩ ⟨by decide, by decide⟩ ⟨by decide, by decide⟩
  have last := padded.padding 3 (by decide) (by decide)
  have result : copied 0x90000003#32 = 0xff#8 := by
    rw [strncpy, if_neg (by decide)] at called
    cases called
    decide
  rw [byteAt, show (0x90000000#32 + BitVec.ofNat 32 3) = 0x90000003#32 by decide, result] at last
  exact absurd last (by decide)

end Ysyx.Klib
