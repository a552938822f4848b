import Mathlib.Algebra.Group.Nat.Defs

/-! A queue kept in a memory of `2 ^ w` cells between a read and a write pointer of `w`
bits, which wrap around. The pointers alone do not tell empty from full. -/

set_option autoImplicit false

namespace Ysyx.Lib

variable {α : Type} {w : Nat}

/-- The memory after a write. -/
def store (cells : BitVec w → α) (ptr : BitVec w) (x : α) : BitVec w → α :=
  fun i => if i = ptr then x else cells i

/-- The cells from `rPtr` to `wPtr` hold the queue, oldest element first. -/
structure Ring (cells : BitVec w → α) (rPtr wPtr : BitVec w) (queue : List α) : Prop where
  fits : queue.length ≤ 2 ^ w
  wPtr : wPtr = rPtr + BitVec.ofNat w queue.length
  cell : ∀ i x, queue[i]? = some x → cells (rPtr + BitVec.ofNat w i) = x

namespace Ring

variable {cells : BitVec w → α} {rPtr wPtr : BitVec w} {queue : List α} {x : α}

theorem empty (cells : BitVec w → α) (ptr : BitVec w) : Ring cells ptr ptr [] where
  fits := Nat.zero_le _
  wPtr := by simp
  cell := by intro i x found; simp at found

theorem ofNat_inj {i j : Nat} (iBound : i < 2 ^ w) (jBound : j < 2 ^ w)
    (same : rPtr + BitVec.ofNat w i = rPtr + BitVec.ofNat w j) : i = j := by
  have offsets := congrArg BitVec.toNat (BitVec.add_right_inj rPtr |>.mp same)
  simpa [Nat.mod_eq_of_lt iBound, Nat.mod_eq_of_lt jBound] using offsets

theorem push (ring : Ring cells rPtr wPtr queue) (space : queue.length < 2 ^ w) (x : α) :
    Ring (store cells wPtr x) rPtr (wPtr + 1#w) (queue ++ [x]) where
  fits := by
    rw [List.length_append, List.length_singleton]
    exact space
  wPtr := by
    rw [ring.wPtr, List.length_append, List.length_singleton, BitVec.ofNat_add, BitVec.add_assoc]
  cell := by
    intro i y found
    rw [store]
    rcases Nat.lt_or_ge i queue.length with old | new
    · rw [List.getElem?_append_left old] at found
      rw [if_neg, ring.cell i y found]
      intro same
      rw [ring.wPtr] at same
      have := ofNat_inj (by omega) space same
      omega
    · rw [List.getElem?_append_right new, List.getElem?_singleton] at found
      split at found
      · next zero =>
          obtain rfl : i = queue.length := by omega
          rw [if_pos ring.wPtr.symm]
          exact Option.some.inj found
      · cases found

theorem front (ring : Ring cells rPtr wPtr (x :: queue)) : cells rPtr = x := by
  have cell := ring.cell 0 x rfl
  simpa using cell

theorem pop (ring : Ring cells rPtr wPtr (x :: queue)) :
    Ring cells (rPtr + 1#w) wPtr queue where
  fits := Nat.le_trans (Nat.le_succ _) ring.fits
  wPtr := by
    rw [ring.wPtr, List.length_cons, Nat.add_comm, BitVec.ofNat_add, BitVec.add_assoc]
  cell := by
    intro i y found
    have cell := ring.cell (i + 1) y (by simpa using found)
    rwa [Nat.add_comm, BitVec.ofNat_add, ← BitVec.add_assoc] at cell

/-- The write pointer is one ahead of the read pointer on the last element only. -/
theorem last_iff (ring : Ring cells rPtr wPtr (x :: queue)) :
    wPtr = rPtr + 1#w ↔ queue = [] := by
  have fits := ring.fits
  rw [List.length_cons] at fits
  rw [ring.wPtr, List.length_cons, Nat.add_comm, BitVec.ofNat_add, ← BitVec.add_assoc]
  constructor
  · intro same
    have none : rPtr + 1#w + BitVec.ofNat w queue.length = rPtr + 1#w + BitVec.ofNat w 0 := by
      simpa using same
    exact List.eq_nil_of_length_eq_zero (ofNat_inj fits (Nat.two_pow_pos w) none)
  · rintro rfl
    simp

end Ring

end Ysyx.Lib
