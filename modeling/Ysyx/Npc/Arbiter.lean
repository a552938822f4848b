import Mathlib.Data.Nat.Log
import Mathlib.Tactic.Ring
import Ysyx.Lib.Machine

/-! `priority_encoder.v` and `arbiter.v` as the interconnect uses them: the lowest bit wins, and a
round robin that holds a grant until it is acknowledged. -/

set_option autoImplicit false

namespace Ysyx.Npc.Amba

open Lib (Machine)

/-!
## The priority encoder
-/

namespace PriorityEncoder

variable (input : Nat → Bool)

/-- `stage_valid[l][n]`. -/
def stageValid : Nat → Nat → Bool
  | 0, n => input (2 * n + 1) || input (2 * n)
  | l + 1, n => stageValid l (2 * n + 1) || stageValid l (2 * n)

/-- `stage_enc[l]` from bit `n * (l + 1)` on. -/
def stageEnc : Nat → Nat → Nat
  | 0, n => if input (2 * n) then 0 else 1
  | l + 1, n =>
      if stageValid input l (2 * n) then stageEnc l (2 * n)
      else 2 ^ (l + 1) + stageEnc l (2 * n + 1)

def levels (width : Nat) : Nat := if 2 < width then Nat.clog 2 width else 1

def padded (width : Nat) (i : Nat) : Bool := decide (i < width) && input i

def outputValid (width : Nat) : Bool := stageValid (padded input width) (levels width - 1) 0
def outputEncoded (width : Nat) : Nat := stageEnc (padded input width) (levels width - 1) 0

variable {input}

theorem stageValid_iff (l n : Nat) :
    stageValid input l n = true ↔ ∃ i < 2 ^ (l + 1), input (2 ^ (l + 1) * n + i) = true := by
  induction l generalizing n with
  | zero =>
      rw [stageValid, Bool.or_eq_true]
      constructor
      · rintro (odd | even)
        · exact ⟨1, by decide, odd⟩
        · exact ⟨0, by decide, even⟩
      · rintro ⟨i, bound, set⟩
        obtain rfl | rfl : i = 0 ∨ i = 1 := by omega
        · exact .inr set
        · exact .inl set
  | succ l ih =>
      have twice : 2 ^ (l + 1 + 1) = 2 * 2 ^ (l + 1) := Nat.pow_succ'
      have left : 2 ^ (l + 1) * (2 * n) = 2 * 2 ^ (l + 1) * n := by ring
      have right : 2 ^ (l + 1) * (2 * n + 1) = 2 * 2 ^ (l + 1) * n + 2 ^ (l + 1) := by ring
      rw [stageValid, Bool.or_eq_true, ih, ih, twice, left, right]
      constructor
      · rintro (⟨i, bound, set⟩ | ⟨i, bound, set⟩)
        · exact ⟨2 ^ (l + 1) + i, by omega, by rwa [← Nat.add_assoc]⟩
        · exact ⟨i, by omega, set⟩
      · rintro ⟨i, bound, set⟩
        rcases Nat.lt_or_ge i (2 ^ (l + 1)) with low | high
        · exact .inr ⟨i, low, set⟩
        · obtain ⟨j, rfl⟩ := Nat.exists_eq_add_of_le high
          exact .inl ⟨j, by omega, by rwa [Nat.add_assoc]⟩

/-- The lowest bit that is set in the window of a stage. -/
theorem stageEnc_least (l n : Nat) (valid : stageValid input l n = true) :
    stageEnc input l n < 2 ^ (l + 1) ∧ input (2 ^ (l + 1) * n + stageEnc input l n) = true ∧
      ∀ i < stageEnc input l n, input (2 ^ (l + 1) * n + i) = false := by
  induction l generalizing n with
  | zero =>
      rw [stageValid, Bool.or_eq_true] at valid
      rw [stageEnc]
      by_cases even : input (2 * n) = true
      · rw [if_pos even]
        exact ⟨by decide, even, fun i bound => absurd bound (Nat.not_lt_zero i)⟩
      · rw [if_neg even]
        refine ⟨by decide, valid.resolve_right even, fun i bound => ?_⟩
        obtain rfl : i = 0 := by omega
        exact Bool.eq_false_iff.mpr even
  | succ l ih =>
      have twice : 2 ^ (l + 1 + 1) = 2 * 2 ^ (l + 1) := Nat.pow_succ'
      have left : 2 ^ (l + 1) * (2 * n) = 2 * 2 ^ (l + 1) * n := by ring
      have right : 2 ^ (l + 1) * (2 * n + 1) = 2 * 2 ^ (l + 1) * n + 2 ^ (l + 1) := by ring
      rw [stageValid, Bool.or_eq_true] at valid
      rw [stageEnc, twice]
      by_cases low : stageValid input l (2 * n) = true
      · obtain ⟨bound, set, clear⟩ := ih (2 * n) low
        rw [left] at set clear
        rw [if_pos low]
        exact ⟨by omega, set, clear⟩
      · obtain ⟨bound, set, clear⟩ := ih (2 * n + 1) (valid.resolve_right low)
        rw [right] at set clear
        rw [if_neg low, ← Nat.add_assoc]
        refine ⟨by omega, set, fun i before => ?_⟩
        rcases Nat.lt_or_ge i (2 ^ (l + 1)) with here | there
        · rw [Bool.eq_false_iff]
          intro set
          exact low ((stageValid_iff l (2 * n)).mpr ⟨i, here, by rwa [left]⟩)
        · obtain ⟨j, rfl⟩ := Nat.exists_eq_add_of_le there
          rw [← Nat.add_assoc]
          exact clear j (by omega)

theorem width_le {width : Nat} : width ≤ 2 ^ (levels width - 1 + 1) := by
  rw [levels]
  split
  · rename_i more
    have positive : 0 < Nat.clog 2 width := Nat.clog_pos (by decide) (by omega)
    rw [Nat.sub_add_cancel positive]
    exact Nat.le_pow_clog (by decide) width
  · omega

/-- Some bit is set, and the encoder names the lowest. -/
theorem outputEncoded_least {width : Nat} (valid : outputValid input width = true) :
    outputEncoded input width < width ∧ input (outputEncoded input width) = true ∧
      ∀ i < outputEncoded input width, input i = false := by
  obtain ⟨_, set, clear⟩ := stageEnc_least _ _ valid
  rw [Nat.mul_zero, Nat.zero_add, padded, Bool.and_eq_true, decide_eq_true_iff] at set
  refine ⟨set.1, set.2, fun i before => ?_⟩
  have unset := clear i before
  rw [Nat.mul_zero, Nat.zero_add, padded, Bool.and_eq_false_iff, decide_eq_false_iff_not] at unset
  exact unset.resolve_left fun beyond => beyond (Nat.lt_trans before set.1)

theorem outputValid_iff {width : Nat} :
    outputValid input width = true ↔ ∃ i < width, input i = true := by
  rw [outputValid, stageValid_iff]
  constructor
  · rintro ⟨i, _, set⟩
    rw [Nat.mul_zero, Nat.zero_add, padded, Bool.and_eq_true, decide_eq_true_iff] at set
    exact ⟨i, set⟩
  · rintro ⟨i, bound, set⟩
    refine ⟨i, Nat.lt_of_lt_of_le bound width_le, ?_⟩
    simp [padded, bound, set]

end PriorityEncoder

/-!
## The arbiter
-/

structure Arbiter where
  grant : Nat → Bool
  grantValid : Bool
  grantEncoded : Nat
  mask : Nat → Bool

namespace Arbiter

def reset : Arbiter := ⟨fun _ => false, false, 0, fun _ => false⟩

variable (ports : Nat) (request acknowledge : Nat → Bool) (arbiter : Arbiter)

/-- `masked_request_index` while there is one, else `request_index`. -/
def chosen : Nat :=
  let masked := fun p => request p && arbiter.mask p
  if PriorityEncoder.outputValid masked ports then PriorityEncoder.outputEncoded masked ports
  else PriorityEncoder.outputEncoded request ports

/-- A grant that is not acknowledged yet. -/
def holds : Bool :=
  arbiter.grantValid && !(List.range ports).any fun p => arbiter.grant p && acknowledge p

def next : Arbiter :=
  if arbiter.holds ports acknowledge then arbiter
  else if PriorityEncoder.outputValid request ports then
    let index := arbiter.chosen ports request
    { grant := fun p => p == index
      grantValid := true
      grantEncoded := index
      mask := fun p => decide (p < ports ∧ index + 1 ≤ p) }
  else { arbiter with grant := fun _ => false, grantValid := false, grantEncoded := 0 }

/-- One port has the grant. -/
structure Granted : Prop where
  valid : arbiter.grantValid = true
  bound : arbiter.grantEncoded < ports
  grant : ∀ p, arbiter.grant p = (p == arbiter.grantEncoded)

variable {ports request acknowledge arbiter}

theorem chosen_spec (valid : PriorityEncoder.outputValid request ports = true) :
    arbiter.chosen ports request < ports ∧ request (arbiter.chosen ports request) = true := by
  rw [chosen]
  split
  · rename_i masked
    obtain ⟨bound, set, _⟩ := PriorityEncoder.outputEncoded_least masked
    exact ⟨bound, (Bool.and_eq_true_iff.mp set).1⟩
  · obtain ⟨bound, set, _⟩ := PriorityEncoder.outputEncoded_least valid
    exact ⟨bound, set⟩

theorem next_of_holds (holds : arbiter.holds ports acknowledge = true) :
    arbiter.next ports request acknowledge = arbiter := by
  rw [next, if_pos holds]

/-- A new grant is to a port that requests. -/
theorem next_granted (free : arbiter.holds ports acknowledge = false)
    (valid : (arbiter.next ports request acknowledge).grantValid = true) :
    (arbiter.next ports request acknowledge).Granted ports ∧
      request (arbiter.next ports request acknowledge).grantEncoded = true := by
  rw [next, if_neg (by simp [free])] at valid ⊢
  split at valid
  · rename_i some
    obtain ⟨bound, set⟩ := chosen_spec some
    rw [if_pos some]
    exact ⟨⟨rfl, bound, fun _ => rfl⟩, set⟩
  · cases valid

/-!
### Turns
-/

/-- The ports that come before port `p` after a grant to port `i`. -/
def turns (ports p i : Nat) : Nat := if i < p then p - i - 1 else ports - 1 - i + p

/-- `mask` and the grant, if there is one, are of the port that was granted last. -/
structure Last (ports : Nat) (arbiter : Arbiter) (i : Nat) : Prop where
  bound : i < ports
  mask : ∀ p, arbiter.mask p = decide (p < ports ∧ i + 1 ≤ p)
  grant : arbiter.grantValid = true → arbiter.grantEncoded = i

theorem reset_last (some : 0 < ports) : Last ports reset (ports - 1) where
  bound := by omega
  mask p := by
    have none : ¬ (p < ports ∧ ports - 1 + 1 ≤ p) := by omega
    exact (decide_eq_false none).symm
  grant := nofun

/-- A port that requests is granted, or it comes nearer to its turn. -/
theorem turns_chosen {i p : Nat} (last : Last ports arbiter i) (bound : p < ports)
    (requests : request p = true) :
    arbiter.chosen ports request = p ∨
      turns ports p (arbiter.chosen ports request) < turns ports p i := by
  have inRange := last.bound
  rw [chosen]
  split
  · rename_i masked
    obtain ⟨chosenBound, set, clear⟩ := PriorityEncoder.outputEncoded_least masked
    rw [Bool.and_eq_true, last.mask, decide_eq_true_iff] at set
    have least : p < PriorityEncoder.outputEncoded
        (fun p => request p && arbiter.mask p) ports → p ≤ i := by
      intro before
      have unset := clear p before
      rw [requests, Bool.true_and, last.mask, decide_eq_false_iff_not] at unset
      omega
    simp only [turns]
    split_ifs <;> omega
  · rename_i unmasked
    obtain ⟨chosenBound, _, clear⟩ := PriorityEncoder.outputEncoded_least
      (PriorityEncoder.outputValid_iff.mpr ⟨p, bound, requests⟩)
    have above : p ≤ i := by
      by_contra later
      refine unmasked (PriorityEncoder.outputValid_iff.mpr ⟨p, bound, ?_⟩)
      rw [requests, Bool.true_and, last.mask, decide_eq_true_iff]
      omega
    have least : PriorityEncoder.outputEncoded request ports ≤ p := by
      by_contra later
      rw [clear p (by omega)] at requests
      cases requests
    simp only [turns]
    split_ifs <;> omega

theorem Last.next_of_request {i p : Nat} (last : Last ports arbiter i) (bound : p < ports)
    (requests : request p = true) (free : arbiter.holds ports acknowledge = false) :
    ∃ j, Last ports (arbiter.next ports request acknowledge) j ∧
      (arbiter.next ports request acknowledge).grantValid = true ∧
      (j = p ∨ turns ports p j < turns ports p i) := by
  have valid := PriorityEncoder.outputValid_iff.mpr ⟨p, bound, requests⟩
  refine ⟨arbiter.chosen ports request, ?_⟩
  rw [next, if_neg (by simp [free]), if_pos valid]
  exact ⟨⟨(chosen_spec valid).1, fun _ => rfl, fun _ => rfl⟩, rfl,
    turns_chosen last bound requests⟩

theorem Last.next {i : Nat} (last : Last ports arbiter i) :
    ∃ j, Last ports (arbiter.next ports request acknowledge) j := by
  rw [Arbiter.next]
  split
  · exact ⟨i, last⟩
  · split
    · rename_i valid
      exact ⟨_, (chosen_spec valid).1, fun _ => rfl, fun _ => rfl⟩
    · exact ⟨i, last.bound, last.mask, nofun⟩

end Arbiter

end Ysyx.Npc.Amba
