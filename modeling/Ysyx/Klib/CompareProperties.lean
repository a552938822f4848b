import Ysyx.Klib.StringProperties

/-! The comparisons of klib: `strncmp` is right for every count but zero, where it looks at the
first bytes; `memcmp` is also wrong behind a zero byte and, where `char` is signed, about the
order of bytes with different top bits. -/

set_option autoImplicit false

namespace Ysyx.Klib

open Lib (ByteMem)

/-!
## What a comparison is for
-/

/-- The first difference of the `n` bytes is at `j`. -/
def FirstDiff (mem : ByteMem 32) (s1 s2 : BitVec 32) (n j : Nat) : Prop :=
  j < n ∧ byteAt mem s1 j ≠ byteAt mem s2 j ∧ ∀ i, i < j → byteAt mem s1 i = byteAt mem s2 i

def SameSign (a b : Int) : Prop := (0 < a ↔ 0 < b) ∧ (a < 0 ↔ b < 0)

/-- The result compares the `n` bytes as unsigned ones, up to a common byte that stops it, and
no byte behind is read. -/
structure Compares (stops : BitVec 8 → Prop) (mem : ByteMem 32) (s1 s2 : BitVec 32) (n : Nat)
    (result : Compared) : Prop where
  differ : ∀ j, FirstDiff mem s1 s2 n j → (∀ i, i < j → ¬ stops (byteAt mem s1 i)) →
    SameSign result.value (ucharValue (byteAt mem s1 j) - ucharValue (byteAt mem s2 j))
  equal : (∀ j, FirstDiff mem s1 s2 n j → ∃ i, i < j ∧ stops (byteAt mem s1 i)) →
    result.value = 0
  within : ∀ a ∈ result.reads, ∃ i, i < n ∧
    (a = s1 + BitVec.ofNat 32 i ∨ a = s2 + BitVec.ofNat 32 i) ∧
    ∀ k, k < i → ¬ (stops (byteAt mem s1 k) ∧ byteAt mem s1 k = byteAt mem s2 k)

/-- `memcmp` is stopped by no byte. -/
structure MemcmpMeets (mem : ByteMem 32) (s1 s2 : BitVec 32) (n : Nat) (result : Compared) :
    Prop where
  compares : Compares (fun _ => False) mem s1 s2 n result
  zero : result.value = 0 ↔ ∀ i, i < n → byteAt mem s1 i = byteAt mem s2 i

/-- `strncmp` is stopped by a NUL. -/
def StrncmpMeets (mem : ByteMem 32) (s1 s2 : BitVec 32) (n : Nat) (result : Compared) : Prop :=
  Compares (· = 0#8) mem s1 s2 n result

/-!
## The loop
-/

/-- Where the loop stops, `left` being the last index it can reach. -/
structure Stops (mem : ByteMem 32) (s1 s2 : BitVec 32) (left last : Nat) : Prop where
  bound : last ≤ left
  before : ∀ k, k < last → byteAt mem s1 k ≠ 0#8 ∧ byteAt mem s1 k = byteAt mem s2 k
  here : last = left ∨ byteAt mem s1 last = 0#8 ∨ byteAt mem s1 last ≠ byteAt mem s2 last

theorem compareLoop_stops (mem : ByteMem 32) (s1 s2 : BitVec 32) (left : Nat) :
    ∃ last, Stops mem s1 s2 left last ∧
      (compareLoop mem s1 s2 left).2 =
        (s1 + BitVec.ofNat 32 last, s2 + BitVec.ofNat 32 last) ∧
      ∀ a ∈ (compareLoop mem s1 s2 left).1, ∃ i, i ≤ last ∧
        (a = s1 + BitVec.ofNat 32 i ∨ a = s2 + BitVec.ofNat 32 i) := by
  have first (ptr : BitVec 32) : ptr + BitVec.ofNat 32 0 = ptr := BitVec.add_zero ptr
  have byte (ptr : BitVec 32) : byteAt mem ptr 0 = mem ptr := congrArg mem (first ptr)
  induction left generalizing s1 s2 with
  | zero =>
      refine ⟨0, ⟨Nat.le_refl 0, by simp, .inl rfl⟩, ?_, ?_⟩
      · rw [first, first, compareLoop]
      · intro a read
        rw [compareLoop, List.mem_singleton] at read
        exact ⟨0, Nat.le_refl 0, .inl (read.trans (first s1).symm)⟩
  | succ left ih =>
      rw [compareLoop]
      split_ifs with ended differs
      · refine ⟨0, ⟨Nat.zero_le _, by simp, .inr (.inl ?_)⟩, ?_, ?_⟩
        · rw [byte]
          exact ended
        · rw [first, first]
        · intro a read
          rw [List.mem_singleton] at read
          exact ⟨0, Nat.le_refl 0, .inl (read.trans (first s1).symm)⟩
      · refine ⟨0, ⟨Nat.zero_le _, by simp, .inr (.inr ?_)⟩, ?_, ?_⟩
        · rw [byte, byte]
          exact differs
        · rw [first, first]
        · intro a read
          refine ⟨0, Nat.le_refl 0, ?_⟩
          rw [first, first]
          simpa using read
      · obtain ⟨last, stops, ends, reads⟩ := ih (s1 + 1#32) (s2 + 1#32)
        have next (ptr : BitVec 32) (i : Nat) :
            byteAt mem (ptr + 1#32) i = byteAt mem ptr (i + 1) :=
          congrArg mem (at_succ ptr i)
        refine ⟨last + 1, ⟨Nat.succ_le_succ stops.bound, ?_, ?_⟩, ?_, ?_⟩
        · intro k bound
          cases k with
          | zero =>
              rw [byte, byte]
              exact ⟨ended, Classical.not_not.mp differs⟩
          | succ k =>
              rw [← next, ← next]
              exact stops.before k (Nat.lt_of_succ_lt_succ bound)
        · rw [← next, ← next]
          exact stops.here.imp (congrArg (· + 1)) id
        · rw [ends, at_succ, at_succ]
        · intro a read
          rcases List.mem_append.mp read with now | later
          · refine ⟨0, Nat.zero_le _, ?_⟩
            rw [first, first]
            simpa using now
          · obtain ⟨i, bound, place⟩ := reads a later
            rw [at_succ, at_succ] at place
            exact ⟨i + 1, Nat.succ_le_succ bound, place⟩

/-- The result is the difference where the loop stops, and nothing behind is read. -/
theorem compareBytes_eq (convert : BitVec 8 → Int) (mem : ByteMem 32) (s1 s2 n : BitVec 32) :
    ∃ last, Stops mem s1 s2 (n - 1#32).toNat last ∧
      (compareBytes convert mem s1 s2 n).value =
        convert (byteAt mem s1 last) - convert (byteAt mem s2 last) ∧
      ∀ a ∈ (compareBytes convert mem s1 s2 n).reads, ∃ i, i ≤ last ∧
        (a = s1 + BitVec.ofNat 32 i ∨ a = s2 + BitVec.ofNat 32 i) := by
  obtain ⟨last, stops, ends, reads⟩ := compareLoop_stops mem s1 s2 (n - 1#32).toNat
  have end1 := congrArg Prod.fst ends
  have end2 := congrArg Prod.snd ends
  refine ⟨last, stops, ?_, ?_⟩
  · have value : (compareBytes convert mem s1 s2 n).value =
        convert (mem (compareLoop mem s1 s2 (n - 1#32).toNat).2.1) -
          convert (mem (compareLoop mem s1 s2 (n - 1#32).toNat).2.2) := rfl
    rw [value, ends]
    rfl
  · intro a read
    rcases List.mem_append.mp read with loop | result
    · exact reads a loop
    · refine ⟨last, Nat.le_refl last, ?_⟩
      rw [end1, end2] at result
      simpa using result

/-- Nothing is read of empty ranges, but the loop has to look at the first bytes. -/
theorem not_compares_zero {stops : BitVec 8 → Prop} {convert : BitVec 8 → Int}
    {mem : ByteMem 32} {s1 s2 : BitVec 32} {n : Nat} (empty : n = 0) :
    ¬ Compares stops mem s1 s2 n (compareBytes convert mem s1 s2 0#32) := by
  intro compares
  obtain ⟨i, bound, _⟩ := compares.within _ (List.mem_append_right _ List.mem_cons_self)
  omega

section Nonempty

variable {mem : ByteMem 32} {s1 s2 n : BitVec 32} {last : Nat}
  (stops : Stops mem s1 s2 (n - 1#32).toNat last) (nonempty : n ≠ 0#32)

include stops nonempty

theorem Stops.bounds : last < n.toNat ∧ ((n - 1#32).toNat = last → last = n.toNat - 1) := by
  have positive : n.toNat ≠ 0 := fun zero => nonempty (BitVec.eq_of_toNat_eq zero)
  have width := n.isLt
  have bound := stops.bound
  have count : (n - 1#32).toNat = n.toNat - 1 := by
    rw [BitVec.toNat_sub]
    simp only [BitVec.toNat_ofNat]
    omega
  omega

/-- A difference that no NUL precedes is found. -/
theorem Stops.eq_of_firstDiff {j : Nat} (first : FirstDiff mem s1 s2 n.toNat j)
    (nonzero : ∀ i, i < j → byteAt mem s1 i ≠ 0#8) : last = j := by
  obtain ⟨bound, differ, same⟩ := first
  obtain ⟨inside, final⟩ := stops.bounds nonempty
  rcases Nat.lt_trichotomy last j with early | found | late
  · rcases stops.here with exhausted | zero | different
    · have := final exhausted.symm
      omega
    · exact absurd zero (nonzero last early)
    · exact absurd (same last early) different
  · exact found
  · exact absurd (stops.before j late).2 differ

/-- A difference where the loop stops is the first one. -/
theorem Stops.firstDiff (differ : byteAt mem s1 last ≠ byteAt mem s2 last) :
    FirstDiff mem s1 s2 n.toNat last :=
  ⟨(stops.bounds nonempty).1, differ, fun i bound => (stops.before i bound).2⟩

end Nonempty

/-!
## `strncmp`
-/

theorem strncmp_meets {mem : ByteMem 32} {s1 s2 n : BitVec 32} (nonempty : n ≠ 0#32) :
    StrncmpMeets mem s1 s2 n.toNat (strncmp mem s1 s2 n) := by
  obtain ⟨last, stops, value, reads⟩ := compareBytes_eq ucharValue mem s1 s2 n
  constructor
  · intro j first nonzero
    rw [strncmp, value, stops.eq_of_firstDiff nonempty first nonzero]
    exact ⟨Iff.rfl, Iff.rfl⟩
  · intro stopped
    have same : byteAt mem s1 last = byteAt mem s2 last := by
      by_contra differ
      obtain ⟨i, bound, zero⟩ := stopped last (stops.firstDiff nonempty differ)
      exact (stops.before i bound).1 zero
    rw [strncmp, value, same, Int.sub_self]
  · intro a read
    obtain ⟨i, bound, place⟩ := reads a read
    have inside := (stops.bounds nonempty).1
    refine ⟨i, by omega, place, ?_⟩
    intro k earlier common
    exact (stops.before k (Nat.lt_of_lt_of_le earlier bound)).1 common.1

/-!
## `memcmp`
-/

/-- The first difference is not behind a zero byte, and where `char` is signed its two bytes
have the same top bit. -/
def MemcmpExact (charSigned : Bool) (mem : ByteMem 32) (s1 s2 : BitVec 32) (n : Nat) : Prop :=
  ∀ j, FirstDiff mem s1 s2 n j → (∀ i, i < j → byteAt mem s1 i ≠ 0#8) ∧
    (charSigned = true → ((byteAt mem s1 j).toNat < 128 ↔ (byteAt mem s2 j).toNat < 128))

theorem charValue_sub_eq_zero {charSigned : Bool} {b c : BitVec 8} :
    charValue charSigned b - charValue charSigned c = 0 ↔ b = c := by
  rw [← BitVec.toNat_inj, charValue, charValue, BitVec.toInt_eq_toNat_cond,
    BitVec.toInt_eq_toNat_cond]
  have bBound := b.isLt
  have cBound := c.isLt
  cases charSigned <;> simp only [if_true, Bool.false_eq_true, if_false] <;> omega

theorem sameSign_charValue {charSigned : Bool} {b c : BitVec 8} (differ : b ≠ c) :
    SameSign (charValue charSigned b - charValue charSigned c) (ucharValue b - ucharValue c) ↔
      (charSigned = true → (b.toNat < 128 ↔ c.toNat < 128)) := by
  have values : b.toNat ≠ c.toNat := fun same => differ (BitVec.eq_of_toNat_eq same)
  rw [SameSign, charValue, charValue, ucharValue, ucharValue, BitVec.toInt_eq_toNat_cond,
    BitVec.toInt_eq_toNat_cond]
  have bBound := b.isLt
  have cBound := c.isLt
  cases charSigned with
  | false => simp
  | true =>
      simp only [if_true, true_implies]
      split_ifs <;> omega

theorem exists_firstDiff {mem : ByteMem 32} {s1 s2 : BitVec 32} {n : Nat}
    (differ : ¬ ∀ i, i < n → byteAt mem s1 i = byteAt mem s2 i) :
    ∃ j, FirstDiff mem s1 s2 n j := by
  have some : ∃ i, i < n ∧ byteAt mem s1 i ≠ byteAt mem s2 i := by
    simpa only [not_forall, exists_prop] using differ
  have found := Nat.find_spec some
  refine ⟨Nat.find some, found.1, found.2, ?_⟩
  intro i earlier
  by_contra here
  exact Nat.find_min some earlier ⟨Nat.lt_trans earlier found.1, here⟩

theorem memcmp_meets {charSigned : Bool} {mem : ByteMem 32} {s1 s2 n : BitVec 32}
    (nonempty : n ≠ 0#32) (clean : MemcmpExact charSigned mem s1 s2 n.toNat) :
    MemcmpMeets mem s1 s2 n.toNat (memcmp charSigned mem s1 s2 n) := by
  obtain ⟨last, stops, value, reads⟩ := compareBytes_eq (charValue charSigned) mem s1 s2 n
  have inside := (stops.bounds nonempty).1
  refine ⟨⟨?_, ?_, ?_⟩, ?_⟩
  · intro j first _
    obtain ⟨nonzero, classes⟩ := clean j first
    rw [memcmp, value, stops.eq_of_firstDiff nonempty first nonzero]
    exact (sameSign_charValue first.2.1).mpr classes
  · intro none
    rw [memcmp, value, charValue_sub_eq_zero]
    by_contra differ
    obtain ⟨i, _, stop⟩ := none last (stops.firstDiff nonempty differ)
    exact stop
  · intro a read
    obtain ⟨i, bound, place⟩ := reads a read
    exact ⟨i, by omega, place, fun k _ stop => stop.1⟩
  · rw [memcmp, value, charValue_sub_eq_zero]
    constructor
    · intro same
      by_contra differ
      obtain ⟨j, first⟩ := exists_firstDiff differ
      have found := stops.eq_of_firstDiff nonempty first (clean j first).1
      rw [found] at same
      exact first.2.1 same
    · intro all
      exact all last inside

theorem memcmpExact_of_meets {charSigned : Bool} {mem : ByteMem 32} {s1 s2 n : BitVec 32}
    (nonempty : n ≠ 0#32) (meets : MemcmpMeets mem s1 s2 n.toNat (memcmp charSigned mem s1 s2 n)) :
    MemcmpExact charSigned mem s1 s2 n.toNat := by
  obtain ⟨last, stops, value, _⟩ := compareBytes_eq (charValue charSigned) mem s1 s2 n
  intro j first
  have sign := meets.compares.differ j first fun _ _ stop => stop
  have nonzero : ∀ i, i < j → byteAt mem s1 i ≠ 0#8 := by
    intro i earlier zero
    -- the loop stops at the zero, where the bytes are equal still
    have early : last ≤ i := by
      by_contra late
      exact (stops.before i (Nat.lt_of_not_le late)).1 zero
    have same := first.2.2 last (Nat.lt_of_le_of_lt early earlier)
    have none : (memcmp charSigned mem s1 s2 n).value = 0 := by
      rw [memcmp, value, same, Int.sub_self]
    have all := meets.zero.mp none
    exact first.2.1 (all j first.1)
  refine ⟨nonzero, ?_⟩
  rw [memcmp, value, stops.eq_of_firstDiff nonempty first nonzero] at sign
  exact (sameSign_charValue first.2.1).mp sign

/-- `strncmp` is right for every positive count, and `memcmp` where in addition the first
difference is not behind a zero byte and a signed `char` does not turn it around. -/
theorem string_compare_iff (charSigned : Bool) (mem : ByteMem 32) (s1 s2 n : BitVec 32) :
    (MemcmpMeets mem s1 s2 n.toNat (memcmp charSigned mem s1 s2 n) ↔
      n ≠ 0#32 ∧ MemcmpExact charSigned mem s1 s2 n.toNat) ∧
    (StrncmpMeets mem s1 s2 n.toNat (strncmp mem s1 s2 n) ↔ n ≠ 0#32) := by
  constructor
  · constructor
    · intro meets
      have nonempty : n ≠ 0#32 := by
        rintro rfl
        exact not_compares_zero rfl meets.compares
      exact ⟨nonempty, memcmpExact_of_meets nonempty meets⟩
    · rintro ⟨nonempty, clean⟩
      exact memcmp_meets nonempty clean
  · constructor
    · rintro meets rfl
      exact not_compares_zero rfl meets
    · exact strncmp_meets

/-- Two words that differ behind a zero byte: `memcmp` calls them equal. -/
theorem memcmp_zero_byte_fails :
    ¬ ∀ (charSigned : Bool) (mem : ByteMem 32) (s1 s2 n : BitVec 32),
      MemcmpMeets mem s1 s2 n.toNat (memcmp charSigned mem s1 s2 n) ∧
        StrncmpMeets mem s1 s2 n.toNat (strncmp mem s1 s2 n) := by
  intro always
  -- the bytes 0 1 at 0x80000000 and 0 0 at 0x80000010
  let mem : ByteMem 32 := fun a => if a = 0x80000001#32 then 1#8 else 0#8
  have meets := (always false mem 0x80000000#32 0x80000010#32 2#32).1
  have same := meets.zero.mp (by decide) 1 (by decide)
  exact absurd same (by decide)

end Ysyx.Klib
