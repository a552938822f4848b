import Mathlib.Logic.Function.Basic

/-! Cells copied one at a time in a given order, each read at its turn. A source cell that an
earlier turn has overwritten brings the earlier value again. -/

set_option autoImplicit false

namespace Ysyx.Lib

variable {A α : Type} [DecidableEq A]

/-- The memory after `n` turns; turn `i` copies `src i` to `dst i`. -/
def copyCells (mem : A → α) (dst src : Nat → A) : Nat → A → α
  | 0 => mem
  | n + 1 =>
      let turned := copyCells mem dst src n
      Function.update turned (dst n) (turned (src n))

section Turns

variable {mem : A → α} {dst src : Nat → A} {n : Nat}

/-- The first turn made on its own. -/
theorem copyCells_cons (mem : A → α) (dst src : Nat → A) (n : Nat) :
    copyCells mem dst src (n + 1) =
      copyCells (Function.update mem (dst 0) (mem (src 0))) (fun i => dst (i + 1))
        (fun i => src (i + 1)) n := by
  induction n with
  | zero => rfl
  | succ n ih => rw [copyCells, ih, copyCells]

theorem copyCells_frame {a : A} (outside : ∀ i, i < n → a ≠ dst i) :
    copyCells mem dst src n a = mem a := by
  induction n with
  | zero => rfl
  | succ n ih =>
      rw [copyCells, Function.update_of_ne (outside n (Nat.lt_succ_self n))]
      exact ih fun i bound => outside i (Nat.lt_succ_of_lt bound)

/-- A cell keeps what its turn has put there. -/
theorem copyCells_dst (inj : ∀ i j, i < j → j < n → dst i ≠ dst j) {j : Nat} (bound : j < n) :
    copyCells mem dst src n (dst j) = copyCells mem dst src j (src j) := by
  induction n with
  | zero => cases bound
  | succ n ih =>
      rw [copyCells]
      rcases Nat.lt_succ_iff_lt_or_eq.mp bound with earlier | rfl
      · rw [Function.update_of_ne (inj j n earlier (Nat.lt_succ_self n))]
        exact ih (fun i k order inside => inj i k order (Nat.lt_succ_of_lt inside)) earlier
      · rw [Function.update_self]

/-- Where no turn reads what an earlier one has written, all turns read the first memory. -/
theorem copyCells_apart {j : Nat} (apart : ∀ i, i < j → src j ≠ dst i) :
    copyCells mem dst src j (src j) = mem (src j) :=
  copyCells_frame apart

/-- Where a turn reads the cell written `d` turns before, the first `d` values repeat. -/
theorem copyCells_chase {d j : Nat} (positive : 0 < d)
    (inj : ∀ i k, i < k → k < j → dst i ≠ dst k)
    (meets : ∀ i k, i < k → k ≤ j → (src k = dst i ↔ k = i + d)) :
    copyCells mem dst src j (src j) = mem (src (j % d)) := by
  induction j using Nat.strongRecOn with
  | ind j ih =>
      rcases Nat.lt_or_ge j d with first | later
      · rw [Nat.mod_eq_of_lt first]
        apply copyCells_apart
        intro i order same
        have step := (meets i j order (Nat.le_refl j)).mp same
        omega
      · have earlier : j - d < j := by omega
        have cell : src j = dst (j - d) := (meets (j - d) j earlier (Nat.le_refl j)).mpr (by omega)
        have kept : copyCells mem dst src j (dst (j - d)) =
            copyCells mem dst src (j - d) (src (j - d)) :=
          copyCells_dst inj earlier
        rw [cell, kept, Nat.mod_eq_sub_mod later]
        exact ih (j - d) earlier (fun i k order inside => inj i k order (by omega))
          fun i k order inside => meets i k order (by omega)

/-- Values that repeat with a period are those of its first turn. -/
theorem periodic_iff {d : Nat} (positive : 0 < d) (value : Nat → α) (n : Nat) :
    (∀ j, j < n → value (j % d) = value j) ↔ ∀ i, i + d < n → value i = value (i + d) := by
  constructor
  · intro same i bound
    rw [← same i (by omega), ← same (i + d) bound, Nat.add_mod_right]
  · intro repeats j
    induction j using Nat.strongRecOn with
    | ind j ih =>
        intro bound
        rcases Nat.lt_or_ge j d with first | later
        · rw [Nat.mod_eq_of_lt first]
        · have before := repeats (j - d) (by omega)
          rw [Nat.mod_eq_sub_mod later, ih (j - d) (by omega) (by omega), before,
            Nat.sub_add_cancel later]

end Turns

end Ysyx.Lib
