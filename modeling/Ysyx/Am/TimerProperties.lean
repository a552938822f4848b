import Ysyx.Am.Timer
import Ysyx.Npc.AxiLiteProperties

/-! What the two 32-bit loads of `get_time` make of a counter that runs on between them. -/

set_option autoImplicit false

namespace Ysyx.Am

open Npc (Clint ClintSystem ReadInput clintAt clint_mtime)

/-!
## One call
-/

def low (time : BitVec 64) : BitVec 32 := time.extractLsb' 0 32

theorem toNat_getTime (build : TimerBuild) (first second : Clint) :
    (getTime build first second).toNat =
      second.mtime.toNat / 2 ^ 32 * 2 ^ 32 + first.mtime.toNat % 2 ^ 32 := by
  have lo : first.rdataNext build.clint = first.mtime.extractLsb' 0 32 := by
    cases build <;> rfl
  have hi : second.rdataNext (build.clint + 4#32) = second.mtime.extractLsb' 32 32 := by
    cases build <;> rfl
  have bound := second.mtime.isLt
  rw [getTime, lo, hi, BitVec.toNat_add, BitVec.toNat_shiftLeft, BitVec.toNat_setWidth,
    BitVec.toNat_setWidth, BitVec.extractLsb'_toNat, BitVec.extractLsb'_toNat,
    Nat.shiftLeft_eq, Nat.shiftRight_eq_div_pow, Nat.shiftRight_eq_div_pow]
  omega

/-- The value lies between the counter at the first and at the second load exactly when the
low word has not wrapped in between. -/
theorem getTime_between_iff (build : TimerBuild) (first second : Clint) :
    (first.mtime ≤ getTime build first second ∧ getTime build first second ≤ second.mtime) ↔
      first.mtime ≤ second.mtime ∧ low first.mtime ≤ low second.mtime := by
  have value := toNat_getTime build first second
  simp only [low, BitVec.le_def, BitVec.extractLsb'_toNat, Nat.shiftRight_zero, value]
  omega

/-!
## Sequences of calls
-/

section Runs

variable {build : TimerBuild} {start : ClintSystem} {inputs : Nat → ReadInput}

/-- One call after the other, and the loads of each in order. -/
def Chronological (calls : List TimerCall) : Prop :=
  (∀ call ∈ calls, call.first < call.second) ∧
    calls.Pairwise fun call later => call.second < later.first

/-- `mtime` does not wrap before the call is over. -/
def TimerCall.BeforeWrap (start : ClintSystem) (call : TimerCall) : Prop :=
  start.clint.mtime.toNat + call.second < 2 ^ 64

/-- The low word at the second load is not below the low word at the first. -/
def TimerCall.Untorn (start : ClintSystem) (inputs : Nat → ReadInput) (call : TimerCall) : Prop :=
  low (mtimeAt start inputs call.first) ≤ low (mtimeAt start inputs call.second)

instance (call : TimerCall) : Decidable (call.BeforeWrap start) :=
  inferInstanceAs (Decidable (_ < _))

instance (call : TimerCall) : Decidable (call.Untorn start inputs) :=
  inferInstanceAs (Decidable (_ ≤ _))

theorem toNat_mtimeAt {n : Nat} (fits : start.clint.mtime.toNat + n < 2 ^ 64) :
    (mtimeAt start inputs n).toNat = start.clint.mtime.toNat + n := by
  rw [mtimeAt, clint_mtime, BitVec.toNat_add, BitVec.toNat_ofNat]
  omega

theorem TimerCall.time_between {call : TimerCall} (ordered : call.first < call.second)
    (fits : call.BeforeWrap start) (untorn : call.Untorn start inputs) :
    start.clint.mtime.toNat + call.first ≤ (call.time build start inputs).toNat ∧
      (call.time build start inputs).toNat ≤ start.clint.mtime.toNat + call.second := by
  rw [TimerCall.BeforeWrap] at fits
  have first : (mtimeAt start inputs call.first).toNat = start.clint.mtime.toNat + call.first :=
    toNat_mtimeAt (by omega)
  have second : (mtimeAt start inputs call.second).toNat =
      start.clint.mtime.toNat + call.second :=
    toNat_mtimeAt fits
  have grows : mtimeAt start inputs call.first ≤ mtimeAt start inputs call.second := by
    rw [BitVec.le_def, first, second]
    omega
  obtain ⟨above, below⟩ := (getTime_between_iff build (clintAt start inputs call.first).clint
    (clintAt start inputs call.second).clint).mpr ⟨grows, untorn⟩
  rw [BitVec.le_def] at above below
  exact ⟨first ▸ above, second ▸ below⟩

/-- A difference to an earlier time grows with the time. -/
theorem sub_le_sub {boot time later : BitVec 64} (before : boot ≤ time) (after : time ≤ later) :
    time - boot ≤ later - boot := by
  simp only [BitVec.le_def, BitVec.toNat_sub] at before after ⊢
  omega

theorem uptimes_grow {init : TimerCall} {calls : List TimerCall}
    (chronological : Chronological (init :: calls))
    (fits : ∀ call ∈ init :: calls, call.BeforeWrap start)
    (untorn : ∀ call ∈ init :: calls, call.Untorn start inputs) :
    (uptimes build start inputs init calls).Pairwise (· ≤ ·) := by
  obtain ⟨loads, order⟩ := chronological
  obtain ⟨afterInit, order⟩ := List.pairwise_cons.mp order
  have between := fun call listed =>
    @TimerCall.time_between build start inputs call (loads call listed) (fits call listed)
      (untorn call listed)
  have boot := between init List.mem_cons_self
  rw [uptimes, List.pairwise_map]
  refine order.imp_of_mem ?_
  intro call later listed laterListed apart
  have time := between call (List.mem_cons_of_mem _ listed)
  have laterTime := between later (List.mem_cons_of_mem _ laterListed)
  have fromInit := afterInit call listed
  apply sub_le_sub <;> rw [BitVec.le_def] <;> omega

/-- Each call returns a value between `mtime` at its two loads exactly when the counter and
its low word have not wrapped in between, and where this holds of every call, the results
of `__am_timer_uptime` never decrease. -/
theorem get_time_untorn_iff (build : TimerBuild) (start : ClintSystem)
    (inputs : Nat → ReadInput) :
    (∀ t d, (mtimeAt start inputs t ≤ (TimerCall.mk t (t + d)).time build start inputs ∧
        (TimerCall.mk t (t + d)).time build start inputs ≤ mtimeAt start inputs (t + d)) ↔
      mtimeAt start inputs t ≤ mtimeAt start inputs (t + d) ∧
        (TimerCall.mk t (t + d)).Untorn start inputs) ∧
    (∀ init calls, Chronological (init :: calls) →
      (∀ call ∈ init :: calls, call.BeforeWrap start) →
      (∀ call ∈ init :: calls, call.Untorn start inputs) →
      (uptimes build start inputs init calls).Pairwise (· ≤ ·)) :=
  ⟨fun _ _ => getTime_between_iff build _ _, fun _ _ => uptimes_grow⟩

end Runs

/-- A CLINT just before the low word of `mtime` wraps. -/
def nearCarry : ClintSystem := ⟨⟨false, false, 0#32, 0xffffffff#64⟩, none⟩

def noReads (_ : Nat) : ReadInput := ⟨none, false⟩

/-- Two calls a cycle after the carry. -/
theorem get_time_untorn_two :
    (uptimes .npc nearCarry noReads ⟨1, 3⟩ [⟨5, 7⟩, ⟨9, 11⟩]).Pairwise (· ≤ ·) := by
  refine (get_time_untorn_iff .npc nearCarry noReads).2 ⟨1, 3⟩ [⟨5, 7⟩, ⟨9, 11⟩] ?_ ?_ ?_
  · exact ⟨by decide, by decide⟩
  · decide
  · decide +kernel

/-- The low word wraps between the loads: the value is 2^32 too large. -/
theorem get_time_carry_fails :
    ¬ ∀ (build : TimerBuild) (start : ClintSystem) (inputs : Nat → ReadInput) (t d : Nat),
      (TimerCall.mk t (t + d)).BeforeWrap start →
      mtimeAt start inputs t ≤ (TimerCall.mk t (t + d)).time build start inputs ∧
        (TimerCall.mk t (t + d)).time build start inputs ≤ mtimeAt start inputs (t + d) := by
  intro always
  have between := always .ysyxsoc nearCarry noReads 0 1 (by decide)
  exact absurd between.2 (by decide +kernel)

end Ysyx.Am
