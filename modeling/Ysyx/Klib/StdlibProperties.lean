import Ysyx.Klib.Stdlib
import Mathlib.Data.List.Induction
import Mathlib.Algebra.BigOperators.Ring.List

/-! When the allocator of klib is safe: it neither aligns nor looks at the end of the heap. -/

set_option autoImplicit false

namespace Ysyx.Klib

/-!
## What an allocator is for
-/

/-- The block is aligned to 4 bytes, lies in the heap and does not meet a block in use. -/
structure Placed (block : Block) (live : List Block) : Prop where
  aligned : 4 ∣ block.ptr.toNat
  inside : heap.start.toNat ≤ block.ptr.toNat ∧
    block.ptr.toNat + block.size.toNat ≤ heap.end_.toNat
  apart : ∀ b ∈ live, b.ptr.toNat + b.size.toNat ≤ block.ptr.toNat ∨
    block.ptr.toNat + block.size.toNat ≤ b.ptr.toNat

/-- A request is answered by a block or by NULL; where there is no place it is NULL, and the
allocator stays as it was. -/
structure Serves (s : AllocState) (size : BitVec 32) : Prop where
  placed : (malloc s.addr size).1 ≠ 0#32 → Placed ⟨(malloc s.addr size).1, size⟩ s.live
  full : (∀ ptr, ¬ Placed ⟨ptr, size⟩ s.live) → malloc s.addr size = (0#32, s.addr)

/-- Every request of the sequence is served. -/
def SafeCalls (calls : List Call) : Prop :=
  ∀ before size, before ++ [.malloc size] <+: calls → Serves (AllocState.run before) size

/-!
## One call
-/

/-- The bump pointer is `total` bytes into the heap, behind the blocks in use. -/
structure Bump (s : AllocState) (total : Nat) : Prop where
  next : (if s.addr = 0#32 then heap.start else s.addr).toNat = heap.start.toNat + total
  behind : ∀ b ∈ s.live, b.ptr.toNat + b.size.toNat ≤ heap.start.toNat + total

theorem Bump.init : Bump AllocState.init 0 := ⟨rfl, by simp [AllocState.init]⟩

theorem Bump.malloc {s : AllocState} {total : Nat} (bump : Bump s total) {size : BitVec 32}
    (fits : total + size.toNat ≤ 0x400000) :
    Bump (s.step (.malloc size)) (total + size.toNat) := by
  obtain ⟨next, behind⟩ := bump
  rw [AllocState.step, Klib.malloc]
  dsimp only
  generalize (if s.addr = 0#32 then heap.start else s.addr) = ptr at next
  have start : heap.start.toNat = 0x80000000 := rfl
  have moved : (ptr + size).toNat = heap.start.toNat + (total + size.toNat) := by
    rw [BitVec.toNat_add]
    omega
  constructor
  · have nonzero : ptr + size ≠ 0#32 := by
      intro zero
      rw [zero, BitVec.toNat_zero] at moved
      omega
    rw [if_neg nonzero, moved]
  · intro b found
    have place : b ∈ s.live ∨ b = ⟨ptr, size⟩ := by
      split_ifs at found
      · exact .inl found
      · simpa using found
    rcases place with old | rfl
    · exact Nat.le_trans (behind b old) (by omega)
    · dsimp only
      omega

theorem Bump.free {s : AllocState} {total : Nat} (bump : Bump s total) (ptr : BitVec 32) :
    Bump (s.step (.free ptr)) total :=
  ⟨bump.next, fun b found => bump.behind b (List.mem_of_mem_eraseP found)⟩

/-- A call is served exactly where the bump pointer is aligned and has room behind it. -/
theorem Bump.serves_iff {s : AllocState} {total : Nat} (bump : Bump s total)
    (bound : total ≤ 0x400000) (size : BitVec 32) :
    Serves s size ↔ 4 ∣ total ∧ total + size.toNat ≤ 0x400000 := by
  obtain ⟨next, behind⟩ := bump
  have called : (Klib.malloc s.addr size).1 = if s.addr = 0#32 then heap.start else s.addr := rfl
  generalize (if s.addr = 0#32 then heap.start else s.addr) = ptr at next called
  have start : heap.start.toNat = 0x80000000 := rfl
  have limit : heap.end_.toNat = 0x80400000 := rfl
  have nonzero : ptr ≠ 0#32 := by
    rintro rfl
    rw [BitVec.toNat_zero] at next
    omega
  have good : Placed ⟨ptr, size⟩ s.live ↔ 4 ∣ total ∧ total + size.toNat ≤ 0x400000 := by
    constructor
    · rintro ⟨aligned, inside, _⟩
      dsimp only at aligned inside
      omega
    · rintro ⟨aligned, fits⟩
      refine ⟨?_, ?_, fun b found => .inl ?_⟩
      · dsimp only
        omega
      · dsimp only
        omega
      · rw [next]
        exact behind b found
  constructor
  · intro serves
    have placed := serves.placed
    rw [called] at placed
    exact good.mp (placed nonzero)
  · intro fits
    have placed := good.mpr fits
    constructor
    · rw [called]
      exact fun _ => placed
    · exact fun full => absurd placed (full ptr)

/-!
## Sequences of calls
-/

theorem AllocState.run_append (calls : List Call) (call : Call) :
    AllocState.run (calls ++ [call]) = (AllocState.run calls).step call := by
  rw [AllocState.run, List.foldl_append]
  rfl

theorem sizes_malloc (calls : List Call) (size : BitVec 32) :
    sizes (calls ++ [.malloc size]) = sizes calls ++ [size.toNat] :=
  List.filterMap_append

theorem sizes_free (calls : List Call) (ptr : BitVec 32) :
    sizes (calls ++ [.free ptr]) = sizes calls := by
  rw [sizes, List.filterMap_append]
  exact List.append_nil _

theorem Bump.run {calls : List Call} (bound : (sizes calls).sum ≤ 0x400000) :
    Bump (AllocState.run calls) (sizes calls).sum := by
  induction calls using List.reverseRecOn with
  | nil => exact Bump.init
  | append_singleton calls call ih =>
      rw [AllocState.run_append]
      cases call with
      | malloc size =>
          rw [sizes_malloc, List.sum_append, List.sum_singleton] at bound ⊢
          exact (ih (by omega)).malloc bound
      | free ptr =>
          rw [sizes_free] at bound ⊢
          exact (ih bound).free ptr

theorem safeCalls_append (calls : List Call) (call : Call) :
    SafeCalls (calls ++ [call]) ↔
      SafeCalls calls ∧ ∀ size, call = .malloc size → Serves (AllocState.run calls) size := by
  constructor
  · intro safe
    constructor
    · intro before size found
      exact safe before size (found.trans (List.prefix_append _ _))
    · rintro size rfl
      exact safe calls size (List.prefix_refl _)
  · rintro ⟨safe, last⟩ before size found
    rcases List.prefix_concat_iff.mp found with whole | part
    · obtain ⟨same, sameCall⟩ := List.append_inj' whole rfl
      rw [same]
      exact last size (List.head_eq_of_cons_eq sameCall).symm
    · exact safe before size part

theorem four_dvd_iff (list : List Nat) :
    (∀ s ∈ list.dropLast, 4 ∣ s) ∧ 4 ∣ list.sum ↔ ∀ s ∈ list, 4 ∣ s := by
  rcases List.eq_nil_or_concat list with rfl | ⟨front, last, rfl⟩
  · simp
  · rw [List.concat_eq_append, List.dropLast_concat, List.sum_append, List.sum_singleton]
    constructor
    · rintro ⟨each, all⟩ s found
      rcases List.mem_append.mp found with early | final
      · exact each s early
      · rw [List.mem_singleton.mp final]
        exact (Nat.dvd_add_right (List.dvd_sum each)).mp all
    · intro each
      have early : ∀ s ∈ front, 4 ∣ s := fun s found => each s (List.mem_append_left _ found)
      refine ⟨early, Nat.dvd_add (List.dvd_sum early) (each last ?_)⟩
      exact List.mem_append_right _ (List.mem_singleton_self last)

/-- A sequence of calls is safe exactly when the sizes fit into the heap together and are
multiples of 4, but for the last. -/
theorem malloc_safe_iff (calls : List Call) :
    SafeCalls calls ↔
      (sizes calls).sum ≤ 0x400000 ∧ ∀ s ∈ (sizes calls).dropLast, 4 ∣ s := by
  induction calls using List.reverseRecOn with
  | nil =>
      refine iff_of_true ?_ ⟨Nat.zero_le _, by simp [sizes]⟩
      intro before size found
      simp at found
  | append_singleton calls call ih =>
      rw [safeCalls_append, ih]
      cases call with
      | free ptr =>
          rw [sizes_free]
          exact and_iff_left fun size same => by cases same
      | malloc size =>
          rw [sizes_malloc, List.sum_append, List.sum_singleton, List.dropLast_concat]
          constructor
          · rintro ⟨⟨bound, each⟩, serves⟩
            obtain ⟨aligned, fits⟩ := ((Bump.run bound).serves_iff bound size).mp (serves size rfl)
            exact ⟨fits, (four_dvd_iff _).mp ⟨each, aligned⟩⟩
          · rintro ⟨fits, each⟩
            obtain ⟨early, aligned⟩ := (four_dvd_iff _).mpr each
            have bound : (sizes calls).sum ≤ 0x400000 := by omega
            refine ⟨⟨bound, early⟩, ?_⟩
            intro other same
            cases same
            exact ((Bump.run bound).serves_iff bound size).mpr ⟨aligned, fits⟩

/-- One byte and then a word: the second block is at 0x80000001. -/
theorem malloc_unaligned : ¬ ∀ calls : List Call, SafeCalls calls := by
  intro always
  have serves := always [.malloc 1#32, .malloc 4#32] [.malloc 1#32] 4#32 (List.prefix_refl _)
  exact absurd (serves.placed (by decide)).aligned (by decide)

end Ysyx.Klib
