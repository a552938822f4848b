import Mathlib.Algebra.Group.Nat.Defs
import Ysyx.Nemu.RingBuffer
import Mathlib.Tactic.SplitIfs
import Mathlib.Order.Basic

/-! The two counters run modulo `2 ^ 32` and the indices modulo the capacity, a power of
two: in between lies the queue. -/

set_option autoImplicit false

namespace Ysyx.Nemu

open Lib (slice blit wrapped wrapBlit length_slice length_wrapped take_slice drop_slice
  wrapped_add wrapped_mod wrapped_eq_slices wrapped_wrapBlit wrapped_wrapBlit_before wrapBlit_congr)

/-!
## Capacities
-/

theorem toNat_uintMin (a b : BitVec 32) : (uintMin a b).toNat = min a.toNat b.toNat := by
  rw [uintMin]
  split_ifs with less
  · rw [BitVec.lt_def] at less
    omega
  · rw [BitVec.lt_def] at less
    omega

theorem toNat_one_shiftLeft {i : Nat} (bound : i < 32) : (1#32 <<< i).toNat = 2 ^ i := by
  have small : 2 ^ i < 2 ^ 32 := Nat.pow_lt_pow_right (by decide) bound
  rw [BitVec.toNat_shiftLeft, BitVec.toNat_ofNat, Nat.mod_eq_of_lt (by decide : 1 < 2 ^ 32),
    Nat.one_shiftLeft, Nat.mod_eq_of_lt small]

theorem isPowerOf2_iff (x : BitVec 32) : isPowerOf2 x = true ↔ x.toNat.isPowerOfTwo := by
  rw [← Nat.ne_zero_and_sub_one_eq_zero_iff_isPowerOfTwo]
  simp only [isPowerOf2, Bool.and_eq_true, bne_iff_ne, ne_eq, beq_iff_eq]
  have zero : x = 0#32 ↔ x.toNat = 0 := by
    constructor
    · rintro rfl; rfl
    · intro same; exact BitVec.eq_of_toNat_eq same
  rw [zero]
  refine and_congr_right fun positive => ?_
  have pred : (x - 1#32).toNat = x.toNat - 1 := by
    have value : (1#32).toNat = 1 := rfl
    have bound := x.isLt
    rw [BitVec.toNat_sub]
    omega
  rw [← BitVec.toNat_inj, BitVec.toNat_and, pred]
  rfl

/-- The loop stops at the first power of two that is large enough. -/
theorem roundupLoop_spec {x : BitVec 32} {i left : Nat} (b : BitVec 32) (turns : left + i = 32)
    (some_ : 0 < left) (bound : x.toNat ≤ 2 ^ 31) (small : ∀ j < i, 2 ^ j < x.toNat) :
    ∃ k < 32, (roundupLoop x left i b).toNat = 2 ^ k ∧ x.toNat ≤ 2 ^ k ∧
      ∀ j < k, 2 ^ j < x.toNat := by
  induction left generalizing i b with
  | zero => exact absurd some_ (Nat.lt_irrefl 0)
  | succ left ih =>
      have inRange : i < 32 := by omega
      have value := toNat_one_shiftLeft inRange
      rw [roundupLoop]
      split_ifs with enough
      · rw [BitVec.le_def, value] at enough
        exact ⟨i, by omega, value, enough, small⟩
      · rw [BitVec.le_def, value] at enough
        rcases Nat.eq_zero_or_pos left with rfl | more
        · obtain rfl : i = 31 := by omega
          exact absurd bound enough
        · refine ih _ (by omega) more fun j before => ?_
          rcases Nat.lt_succ_iff_lt_or_eq.mp before with earlier | rfl
          · exact small j earlier
          · exact Nat.lt_of_not_le enough

/-- The capacity is the least power of two that is large enough. -/
theorem ringBufferMalloc_spec (fresh : Nat → BitVec 8) {size : BitVec 32}
    (high : size.toNat ≤ 2 ^ 31) :
    ∃ fifo k, ringBufferMalloc fresh size = some fifo ∧ k < 32 ∧ fifo.size.toNat = 2 ^ k ∧
      fifo.alloc = 2 ^ k ∧ fifo.in_ = 0#32 ∧ fifo.out = 0#32 ∧
      size.toNat ≤ 2 ^ k ∧ ∀ j < k, 2 ^ j < size.toNat := by
  rw [ringBufferMalloc]
  split_ifs with power large
  · obtain ⟨k, exact_⟩ := (isPowerOf2_iff size).mp power
    have bound : k < 32 := by
      rw [← Nat.pow_lt_pow_iff_right (by decide : 1 < 2), ← exact_]
      exact size.isLt
    refine ⟨_, k, rfl, bound, exact_, exact_, rfl, rfl, Nat.le_of_eq exact_, fun j before => ?_⟩
    rw [exact_]
    exact Nat.pow_lt_pow_right (by decide) before
  · rw [BitVec.lt_def] at large
    exact absurd high (Nat.not_le_of_lt large)
  · obtain ⟨k, bound, value, enough, least⟩ :=
      roundupLoop_spec 0#32 (Nat.add_zero 32) (by decide) high
        (fun j before => absurd before (Nat.not_lt_zero j))
    exact ⟨_, k, rfl, bound, value, value, rfl, rfl, enough, least⟩

/-!
## The queue between the counters
-/

/-- The ring of capacity `2 ^ k` holds the bytes of `queue`. -/
structure RingBuffer.Holds (fifo : RingBuffer) (k : Nat) (queue : List (BitVec 8)) : Prop where
  exponent : k < 32
  size : fifo.size.toNat = 2 ^ k
  alloc : fifo.alloc = 2 ^ k
  len : (ringBufferLen fifo).toNat = queue.length
  fits : queue.length ≤ 2 ^ k
  cells : wrapped fifo.buffer (2 ^ k) fifo.out.toNat queue.length = queue

namespace RingBuffer.Holds

variable {fifo : RingBuffer} {k : Nat} {queue : List (BitVec 8)}

theorem toNat_mask (holds : fifo.Holds k queue) (counter : BitVec 32) :
    (fifo.mask counter).toNat = counter.toNat % 2 ^ k := by
  have pred : (fifo.size - 1#32).toNat = 2 ^ k - 1 := by
    have value : (1#32).toNat = 1 := rfl
    have bound := fifo.size.isLt
    have positive := Nat.two_pow_pos k
    rw [BitVec.toNat_sub, holds.size] at *
    omega
  rw [RingBuffer.mask, BitVec.toNat_and, pred, Nat.and_two_pow_sub_one_eq_mod]

theorem cap_le (holds : fifo.Holds k queue) : 2 ^ k ≤ 2 ^ 31 :=
  Nat.pow_le_pow_right (by decide) (Nat.le_of_lt_succ holds.exponent)

/-- Both counters may have wrapped; the indices agree because the capacity divides `2 ^ 32`. -/
theorem in_mod (holds : fifo.Holds k queue) :
    fifo.in_.toNat % 2 ^ k = (fifo.out.toNat + queue.length) % 2 ^ k := by
  have sum : fifo.in_ = fifo.out + ringBufferLen fifo := by
    rw [ringBufferLen, BitVec.add_comm, BitVec.sub_add_cancel]
  have divides : 2 ^ k ∣ 2 ^ 32 := Nat.pow_dvd_pow 2 (Nat.le_of_lt holds.exponent)
  rw [sum, BitVec.toNat_add, Nat.mod_mod_of_dvd _ divides, holds.len]

theorem toNat_avail (holds : fifo.Holds k queue) :
    (ringBufferAvail fifo).toNat = 2 ^ k - queue.length := by
  have fits := holds.fits
  have small := holds.cap_le
  rw [ringBufferAvail, BitVec.toNat_sub, holds.size, holds.len]
  omega

theorem isFull_iff (holds : fifo.Holds k queue) :
    ringBufferIsFull fifo = true ↔ queue.length = 2 ^ k := by
  have avail := holds.toNat_avail
  have fits := holds.fits
  rw [ringBufferIsFull, beq_iff_eq, ← BitVec.toNat_inj, avail]
  have zero : (0#32).toNat = 0 := rfl
  omega

theorem new {fifo : RingBuffer} {k : Nat} (exponent : k < 32) (size : fifo.size.toNat = 2 ^ k)
    (alloc : fifo.alloc = 2 ^ k) (same : fifo.in_ = fifo.out) : fifo.Holds k [] where
  exponent := exponent
  size := size
  alloc := alloc
  len := by simp [ringBufferLen, same]
  fits := Nat.zero_le _
  cells := rfl

theorem reset (holds : fifo.Holds k queue) : (ringBufferReset fifo).Holds k [] :=
  new holds.exponent holds.size holds.alloc rfl

/-- The part of a copy that fits before the end of the buffer. -/
theorem toNat_part (holds : fifo.Holds k queue) (n counter : BitVec 32) :
    (uintMin n (fifo.size - fifo.mask counter)).toNat =
      min n.toNat (2 ^ k - counter.toNat % 2 ^ k) := by
  have below : counter.toNat % 2 ^ k < 2 ^ k := Nat.mod_lt _ (Nat.two_pow_pos k)
  have small := holds.cap_le
  rw [toNat_uintMin, BitVec.toNat_sub, holds.toNat_mask, holds.size]
  congr 1
  omega

/-- `RingBuffer_In` appends as many bytes as there is room for. -/
theorem push (holds : fifo.Holds k queue) (src : Nat → BitVec 8) (len : BitVec 32) :
    ∃ fifo', ringBufferIn fifo src len =
        some (BitVec.ofNat 32 (min len.toNat (2 ^ k - queue.length)), fifo') ∧
      fifo'.Holds k (queue ++ slice src 0 (min len.toNat (2 ^ k - queue.length))) := by
  have small := holds.cap_le
  have fits := holds.fits
  have below : fifo.in_.toNat % 2 ^ k < 2 ^ k := Nat.mod_lt _ (Nat.two_pow_pos k)
  have taken : (uintMin len (ringBufferAvail fifo)).toNat =
      min len.toNat (2 ^ k - queue.length) := by
    rw [toNat_uintMin, holds.toNat_avail]
  have part := holds.toNat_part (uintMin len (ringBufferAvail fifo)) fifo.in_
  simp only [ringBufferIn]
  generalize uintMin len (ringBufferAvail fifo) = count at taken part ⊢
  generalize uintMin count (fifo.size - fifo.mask fifo.in_) = l at part ⊢
  rw [← taken]
  have within : count.toNat ≤ 2 ^ k - queue.length := by omega
  have rest : (count - l).toNat = count.toNat - l.toNat := by
    have bound := count.isLt
    rw [BitVec.toNat_sub]
    omega
  have first : (fifo.mask fifo.in_).toNat + (slice src 0 l.toNat).length ≤ fifo.alloc := by
    rw [holds.toNat_mask, length_slice, holds.alloc]
    omega
  have second : (0#32).toNat + (slice src l.toNat (count - l).toNat).length ≤ fifo.alloc := by
    have zero : (0#32).toNat = 0 := rfl
    rw [length_slice, holds.alloc, rest]
    omega
  -- the two copies are one copy at wrapped positions
  have copied : blit (blit fifo.buffer (fifo.mask fifo.in_).toNat (slice src 0 l.toNat))
      (0#32).toNat (slice src l.toNat (count - l).toNat) =
      wrapBlit fifo.buffer (2 ^ k) (fifo.out.toNat + queue.length) (slice src 0 count.toNat) := by
    rw [← wrapBlit_congr fifo.buffer _ holds.in_mod, wrapBlit, length_slice, ← part,
      take_slice _ _ (by omega), drop_slice _ _ (by omega), holds.toNat_mask, rest, Nat.zero_add]
    rfl
  have room : (slice src 0 count.toNat).length ≤ 2 ^ k := by
    rw [length_slice]
    omega
  refine ⟨{ fifo with
    buffer := wrapBlit fifo.buffer (2 ^ k) (fifo.out.toNat + queue.length)
      (slice src 0 count.toNat)
    in_ := fifo.in_ + count }, ?_, holds.exponent, holds.size, holds.alloc, ?_, ?_, ?_⟩
  · simp only [RingBuffer.put, first, if_true, second, copied, Option.bind_eq_bind,
      Option.bind_some, BitVec.ofNat_toNat, BitVec.setWidth_eq]
    rfl
  · have len := holds.len
    have bound : queue.length + count.toNat < 2 ^ 32 := by omega
    simp only [ringBufferLen, List.length_append, length_slice] at len ⊢
    have shift : fifo.in_ + count - fifo.out = fifo.in_ - fifo.out + count := by
      rw [BitVec.sub_eq_add_neg, BitVec.add_assoc, BitVec.add_comm count, ← BitVec.add_assoc,
        ← BitVec.sub_eq_add_neg]
    rw [shift, BitVec.toNat_add, len, Nat.mod_eq_of_lt bound]
  · rw [List.length_append, length_slice]
    omega
  · rw [List.length_append, length_slice, wrapped_add]
    have space : queue.length + (slice src 0 count.toNat).length ≤ 2 ^ k := by
      rw [length_slice]
      omega
    have old := wrapped_wrapBlit_before fifo.buffer fifo.out.toNat space
    have new := wrapped_wrapBlit fifo.buffer (fifo.out.toNat + queue.length) room
    rw [length_slice] at new
    rw [old, new, holds.cells]

/-- `RingBuffer_Out` takes the oldest bytes, as many as there are. -/
theorem pop (holds : fifo.Holds k queue) (len : BitVec 32) :
    ∃ fifo', ringBufferOut fifo len =
        some (BitVec.ofNat 32 (min len.toNat queue.length),
          queue.take (min len.toNat queue.length), fifo') ∧
      fifo'.Holds k (queue.drop (min len.toNat queue.length)) := by
  have small := holds.cap_le
  have fits := holds.fits
  have below : fifo.out.toNat % 2 ^ k < 2 ^ k := Nat.mod_lt _ (Nat.two_pow_pos k)
  have taken : (uintMin len (ringBufferLen fifo)).toNat = min len.toNat queue.length := by
    rw [toNat_uintMin, holds.len]
  have part := holds.toNat_part (uintMin len (ringBufferLen fifo)) fifo.out
  simp only [ringBufferOut]
  generalize uintMin len (ringBufferLen fifo) = count at taken part ⊢
  generalize uintMin count (fifo.size - fifo.mask fifo.out) = l at part ⊢
  rw [← taken]
  have within : count.toNat ≤ queue.length := by omega
  have rest : (count - l).toNat = count.toNat - l.toNat := by
    have bound := count.isLt
    rw [BitVec.toNat_sub]
    omega
  have first : (fifo.mask fifo.out).toNat + l.toNat ≤ fifo.alloc := by
    rw [holds.toNat_mask, holds.alloc]
    omega
  have second : (0#32).toNat + (count - l).toNat ≤ fifo.alloc := by
    have zero : (0#32).toNat = 0 := rfl
    rw [holds.alloc, rest]
    omega
  -- the cells of the queue, split at the bytes that are taken
  obtain ⟨more, length⟩ := Nat.exists_eq_add_of_le within
  have cells := holds.cells
  rw [length, wrapped_add] at cells
  have oldest : queue.take count.toNat =
      wrapped fifo.buffer (2 ^ k) fifo.out.toNat count.toNat := by
    rw [← cells, List.take_left' (length_wrapped _ _ _ _)]
  have newer : queue.drop count.toNat =
      wrapped fifo.buffer (2 ^ k) (fifo.out.toNat + count.toNat) more := by
    rw [← cells, List.drop_left' (length_wrapped _ _ _ _)]
  have copied : slice fifo.buffer (fifo.mask fifo.out).toNat l.toNat ++
      slice fifo.buffer (0#32).toNat (count - l).toNat = queue.take count.toNat := by
    rw [oldest, holds.toNat_mask, rest, ← wrapped_eq_slices fifo.buffer (by omega) part]
    rfl
  refine ⟨{ fifo with out := fifo.out + count }, ?_, holds.exponent, holds.size, holds.alloc, ?_,
    ?_, ?_⟩
  · simp only [RingBuffer.get, first, if_true, second, copied, Option.bind_eq_bind,
      Option.bind_some, BitVec.ofNat_toNat, BitVec.setWidth_eq]
    rfl
  · have len := holds.len
    simp only [ringBufferLen, List.length_drop] at len ⊢
    have shift : fifo.in_ - (fifo.out + count) = fifo.in_ - fifo.out - count := by
      apply BitVec.eq_of_toNat_eq
      simp only [BitVec.toNat_sub, BitVec.toNat_add]
      omega
    rw [shift, BitVec.toNat_sub, len]
    omega
  · rw [List.length_drop]
    omega
  · have divides : 2 ^ k ∣ 2 ^ 32 := Nat.pow_dvd_pow 2 (Nat.le_of_lt holds.exponent)
    rw [newer, length_wrapped, ← wrapped_mod, BitVec.toNat_add, Nat.mod_mod_of_dvd _ divides,
      wrapped_mod]

/-- One call of the ring is one call of the queue. -/
theorem call (holds : fifo.Holds k queue) (op : RingOp) :
    ∃ fifo', fifo.call op = some ((queueCall (2 ^ k) op queue).1, fifo') ∧
      fifo'.Holds k (queueCall (2 ^ k) op queue).2 := by
  cases op with
  | push src len =>
      obtain ⟨fifo', pushed, holds'⟩ := holds.push src len
      exact ⟨fifo', by simp [RingBuffer.call, queueCall, pushed], holds'⟩
  | pop len =>
      obtain ⟨fifo', popped, holds'⟩ := holds.pop len
      exact ⟨fifo', by simp [RingBuffer.call, queueCall, popped], holds'⟩
  | reset => exact ⟨ringBufferReset fifo, rfl, holds.reset⟩

theorem calls (holds : fifo.Holds k queue) (ops : List RingOp) :
    ∃ fifo', fifo.calls ops = some ((queueCalls (2 ^ k) ops queue).1, fifo') ∧
      fifo'.Holds k (queueCalls (2 ^ k) ops queue).2 := by
  induction ops generalizing fifo queue with
  | nil => exact ⟨fifo, rfl, holds⟩
  | cons op ops ih =>
      obtain ⟨next, called, holds'⟩ := holds.call op
      obtain ⟨last, rest, holdsLast⟩ := ih holds'
      exact ⟨last, by simp [RingBuffer.calls, called, rest, queueCalls], holdsLast⟩

end RingBuffer.Holds

/-!
## The instruction trace
-/

/-- The bytes of a word as they lie in the buffer. -/
def wordBytes (inst : BitVec 32) : List (BitVec 8) := slice (instBytes inst) 0 4

theorem length_flatMap_wordBytes (words : List (BitVec 32)) :
    (words.flatMap wordBytes).length = 4 * words.length := by
  induction words with
  | nil => rfl
  | cons word words ih =>
      rw [List.flatMap_cons, List.length_append, ih, wordBytes, length_slice, List.length_cons]
      omega

/-- The words the trace keeps: a full ring of eight gives up its oldest. -/
def keep (words : List (BitVec 32)) (inst : BitVec 32) : List (BitVec 32) :=
  (if words.length = 8 then words.drop 1 else words) ++ [inst]

theorem execOnceTrace_holds {rb : RingBuffer} {words : List (BitVec 32)}
    (holds : rb.Holds 5 (words.flatMap wordBytes)) (inst : BitVec 32) :
    ∃ rb', execOnceTrace rb inst = some rb' ∧
      rb'.Holds 5 ((keep words inst).flatMap wordBytes) := by
  have length := length_flatMap_wordBytes words
  have fits := holds.fits
  have four : (4#32).toNat = 4 := rfl
  -- the ring after the oldest word has left, if it had to
  have spared : ∃ rest rb', (if ringBufferIsFull rb then (ringBufferOut rb 4#32).map (·.2.2)
      else some rb) = some rb' ∧ rb'.Holds 5 (rest.flatMap wordBytes) ∧ rest.length < 8 ∧
        keep words inst = rest ++ [inst] := by
    by_cases full : words.length = 8
    · have isFull : ringBufferIsFull rb = true := holds.isFull_iff.mpr (by omega)
      obtain ⟨rb', popped, holds'⟩ := holds.pop 4#32
      have taken : min (4#32).toNat (words.flatMap wordBytes).length = 4 := by omega
      rw [taken] at holds'
      refine ⟨words.drop 1, rb', by simp [isFull, popped], ?_, ?_, by simp [keep, full]⟩
      · obtain ⟨first, rest, rfl⟩ := List.exists_cons_of_length_eq_add_one full
        have bytes : (wordBytes first).length = 4 := length_slice _ _ _
        rw [List.flatMap_cons, List.drop_left' bytes] at holds'
        exact holds'
      · rw [List.length_drop]
        omega
    · have notFull : ringBufferIsFull rb = false := by
        rw [Bool.eq_false_iff]
        intro isFull
        have := holds.isFull_iff.mp isFull
        omega
      refine ⟨words, rb, by simp [notFull], holds, by omega, by simp [keep, full]⟩
  obtain ⟨rest, rb', stepped, holds', room, kept⟩ := spared
  obtain ⟨rb'', pushed, holds''⟩ := holds'.push (instBytes inst) 4#32
  have rest_length := length_flatMap_wordBytes rest
  have taken : min (4#32).toNat (2 ^ 5 - (rest.flatMap wordBytes).length) = 4 := by omega
  rw [taken] at pushed holds''
  refine ⟨rb'', ?_, ?_⟩
  · rw [execOnceTrace, stepped, Option.bind_some, pushed]
    rfl
  · rw [kept, List.flatMap_append, List.flatMap_singleton]
    exact holds''

theorem keep_last (words : List (BitVec 32)) (inst : BitVec 32) :
    keep (words.drop (words.length - 8)) inst =
      (words ++ [inst]).drop ((words ++ [inst]).length - 8) := by
  rw [keep, List.length_drop, List.length_append, List.length_singleton]
  split_ifs with full
  · rw [List.drop_drop, List.drop_append_of_le_length (by omega)]
    congr 2
    omega
  · have short : words.length - 8 = 0 := by omega
    have still : words.length + 1 - 8 = 0 := by omega
    rw [short, still]
    rfl

theorem executeTrace_holds {rb : RingBuffer} (before : List (BitVec 32))
    (holds : rb.Holds 5 ((before.drop (before.length - 8)).flatMap wordBytes))
    (insts : List (BitVec 32)) :
    ∃ rb', executeTrace insts rb = some rb' ∧
      rb'.Holds 5 (((before ++ insts).drop ((before ++ insts).length - 8)).flatMap wordBytes) := by
  induction insts generalizing rb before with
  | nil => exact ⟨rb, rfl, by simpa using holds⟩
  | cons inst insts ih =>
      obtain ⟨next, stepped, holds'⟩ := execOnceTrace_holds holds inst
      rw [keep_last] at holds'
      obtain ⟨last, rest, holdsLast⟩ := ih _ holds'
      refine ⟨last, by rw [executeTrace, stepped]; exact rest, ?_⟩
      rw [List.append_assoc, List.singleton_append] at holdsLast
      exact holdsLast

/-- A ring buffer of any size up to `2 ^ 31` is a bounded byte queue over every sequence of
calls, and the trace ring holds the last eight instruction words. -/
theorem ringBuffer_refines (fresh : Nat → BitVec 8) :
    (∀ size : BitVec 32, 1 ≤ size.toNat → size.toNat ≤ 2 ^ 31 →
      ∃ fifo k, ringBufferMalloc fresh size = some fifo ∧
        size.toNat ≤ 2 ^ k ∧ (∀ j < k, 2 ^ j < size.toNat) ∧
        ∀ ops, ∃ last, fifo.calls ops = some ((queueCalls (2 ^ k) ops []).1, last) ∧
          last.Holds k (queueCalls (2 ^ k) ops []).2) ∧
    ∃ rb, ringBufferMalloc fresh iringbufSize = some rb ∧
      ∀ insts, ∃ last, executeTrace insts rb = some last ∧
        last.Holds 5 ((insts.drop (insts.length - 8)).flatMap wordBytes) := by
  constructor
  · intro size low high
    obtain ⟨fifo, k, made, exponent, sized, alloc, in_, out, enough, least⟩ :=
      ringBufferMalloc_spec fresh high
    exact ⟨fifo, k, made, enough, least,
      (RingBuffer.Holds.new exponent sized alloc (in_.trans out.symm)).calls⟩
  · have holds : (⟨fresh, 32, 32#32, 0#32, 0#32⟩ : RingBuffer).Holds 5 [] :=
      .new (by decide) rfl rfl rfl
    refine ⟨_, rfl, fun insts => ?_⟩
    exact executeTrace_holds [] holds insts

/-- A request for 20 bytes. -/
theorem ringBuffer_refines_twenty :
    ∃ fifo k, ringBufferMalloc (fun _ => 0#8) 20#32 = some fifo ∧ 20 ≤ 2 ^ k ∧
      ∀ j < k, 2 ^ j < 20 := by
  obtain ⟨fifo, k, made, enough, least, _⟩ :=
    (ringBuffer_refines fun _ => 0#8).1 20#32 (by decide) (by decide)
  exact ⟨fifo, k, made, enough, least⟩

end Ysyx.Nemu
