import Mathlib.Order.Monotone.Basic
import Mathlib.Data.Nat.Find
import Mathlib.Tactic.Choose

/-! Synchronous machines driven by an input stream: runs, the events of a run,
invariants, simulations, and progress under streams that are fair. -/

set_option autoImplicit false

namespace Ysyx.Lib

/-- One clock domain: the next state and the events of a cycle. -/
structure Machine (ι σ ε : Type) where
  step : ι → σ → σ
  out : ι → σ → List ε

namespace Machine

variable {ι σ τ ε : Type}

/-- The state `n` cycles after the state `s` of cycle `t`. -/
def run (machine : Machine ι σ ε) (input : Nat → ι) (t : Nat) (s : σ) : Nat → σ
  | 0 => s
  | n + 1 => run machine input (t + 1) (machine.step (input t) s) n

/-- The events of the `n` cycles from cycle `t` on. -/
def events (machine : Machine ι σ ε) (input : Nat → ι) (t : Nat) (s : σ) : Nat → List ε
  | 0 => []
  | n + 1 =>
      machine.out (input t) s ++ events machine input (t + 1) (machine.step (input t) s) n

section Runs

variable (machine : Machine ι σ ε) (input : Nat → ι)

@[simp] theorem run_zero (t : Nat) (s : σ) : machine.run input t s 0 = s := rfl

theorem run_add (t : Nat) (s : σ) (m n : Nat) :
    machine.run input t s (m + n) = machine.run input (t + m) (machine.run input t s m) n := by
  induction m generalizing t s with
  | zero => simp
  | succ m ih =>
      rw [Nat.add_right_comm, run, run, ih, Nat.add_right_comm t 1 m]
      rfl

theorem run_succ (t : Nat) (s : σ) (n : Nat) :
    machine.run input t s (n + 1) = machine.step (input (t + n)) (machine.run input t s n) := by
  rw [run_add]
  rfl

theorem events_add (t : Nat) (s : σ) (m n : Nat) :
    machine.events input t s (m + n) =
      machine.events input t s m ++
        machine.events input (t + m) (machine.run input t s m) n := by
  induction m generalizing t s with
  | zero => simp [events]
  | succ m ih =>
      rw [Nat.add_right_comm, events, events, ih, Nat.add_right_comm t 1 m, List.append_assoc]
      rfl

theorem events_succ (t : Nat) (s : σ) (n : Nat) :
    machine.events input t s (n + 1) =
      machine.events input t s n ++ machine.out (input (t + n)) (machine.run input t s n) := by
  rw [events_add]
  simp [events]

theorem events_eq_nil {t n : Nat} {s : σ}
    (silent : ∀ k < n, machine.out (input (t + k)) (machine.run input t s k) = []) :
    machine.events input t s n = [] := by
  induction n with
  | zero => rfl
  | succ n ih =>
      rw [events_succ, silent n (Nat.lt_succ_self n), List.append_nil]
      exact ih fun k bound => silent k (Nat.lt_succ_of_lt bound)

/-- A run depends on the inputs of its own cycles. -/
theorem run_congr {input' : Nat → ι} {t n : Nat} (same : ∀ k < n, input (t + k) = input' (t + k))
    (s : σ) : machine.run input t s n = machine.run input' t s n ∧
      machine.events input t s n = machine.events input' t s n := by
  induction n with
  | zero => exact ⟨rfl, rfl⟩
  | succ n ih =>
      obtain ⟨state, shown⟩ := ih fun k bound => same k (Nat.lt_succ_of_lt bound)
      rw [run_succ, run_succ, events_succ, events_succ, state, shown, same n (Nat.lt_succ_self n)]
      exact ⟨rfl, rfl⟩

/-- What holds at first and is kept by every cycle holds at every cycle. -/
theorem invariant {holds : σ → Prop} (keeps : ∀ i s, holds s → holds (machine.step i s))
    {s : σ} (initial : holds s) (t n : Nat) : holds (machine.run input t s n) := by
  induction n generalizing t s with
  | zero => exact initial
  | succ n ih => exact ih (keeps _ _ initial) (t + 1)

end Runs

/-!
## Simulation
-/

/-- Related states stay related and show the same events, under every input. -/
structure Simulates (concrete : Machine ι σ ε) (abstract : Machine ι τ ε) (related : σ → τ → Prop) :
    Prop where
  step : ∀ i s q, related s q → related (concrete.step i s) (abstract.step i q)
  out : ∀ i s q, related s q → concrete.out i s = abstract.out i q

variable {concrete : Machine ι σ ε} {abstract : Machine ι τ ε} {related : σ → τ → Prop}

theorem Simulates.run (simulates : Simulates concrete abstract related) {s : σ} {q : τ}
    (initial : related s q) (input : Nat → ι) (t n : Nat) :
    related (concrete.run input t s n) (abstract.run input t q n) := by
  induction n generalizing t s q with
  | zero => exact initial
  | succ n ih => exact ih (simulates.step _ _ _ initial) (t + 1)

theorem Simulates.events (simulates : Simulates concrete abstract related) {s : σ} {q : τ}
    (initial : related s q) (input : Nat → ι) (t n : Nat) :
    concrete.events input t s n = abstract.events input t q n := by
  induction n generalizing t s q with
  | zero => rfl
  | succ n ih =>
      rw [Machine.events, Machine.events, simulates.out _ _ _ initial,
        ih (simulates.step _ _ _ initial) (t + 1)]

/-!
## Progress
-/

/-- The stream meets the condition again and again. -/
def Often (input : Nat → ι) (condition : ι → Prop) : Prop := ∀ t, ∃ u, t ≤ u ∧ condition (input u)

variable {machine : Machine ι σ ε} {input : Nat → ι} {during : ι → σ → Prop}

/-- From state `s` of cycle `t` the machine comes to `s'` at cycle `t'`, showing
`shown`, and every cycle on the way satisfies `during`. -/
def Reaches (machine : Machine ι σ ε) (input : Nat → ι) (during : ι → σ → Prop) (t : Nat) (s : σ)
    (shown : List ε) (t' : Nat) (s' : σ) : Prop :=
  ∃ n, t' = t + n ∧ machine.run input t s n = s' ∧ machine.events input t s n = shown ∧
    ∀ k < n, during (input (t + k)) (machine.run input t s k)

theorem Reaches.refl (t : Nat) (s : σ) : Reaches machine input during t s [] t s :=
  ⟨0, rfl, rfl, rfl, fun _ bound => absurd bound (Nat.not_lt_zero _)⟩

theorem Reaches.trans {t t' t'' : Nat} {s s' s'' : σ} {first second : List ε}
    (before : Reaches machine input during t s first t' s')
    (after : Reaches machine input during t' s' second t'' s'') :
    Reaches machine input during t s (first ++ second) t'' s'' := by
  obtain ⟨m, rfl, rfl, rfl, onFirst⟩ := before
  obtain ⟨n, rfl, rfl, rfl, onSecond⟩ := after
  refine ⟨m + n, Nat.add_assoc t m n, run_add machine input t s m n,
    events_add machine input t s m n, ?_⟩
  intro k bound
  rcases Nat.lt_or_ge k m with early | late
  · exact onFirst k early
  · obtain ⟨j, rfl⟩ := Nat.exists_eq_add_of_le late
    rw [run_add, ← Nat.add_assoc]
    exact onSecond j (by omega)

theorem Reaches.single {t : Nat} {s : σ} (holds : during (input t) s) :
    Reaches machine input during t s (machine.out (input t) s) (t + 1)
      (machine.step (input t) s) := by
  refine ⟨1, rfl, rfl, List.append_nil _, ?_⟩
  intro k bound
  obtain rfl : k = 0 := by omega
  exact holds

/-- A state that only waits for a condition the stream meets again and again is left. -/
theorem Reaches.wait {condition : ι → Prop} {s : σ} (fair : Often input condition)
    (holds : ∀ i, ¬ condition i → during i s)
    (stays : ∀ i, ¬ condition i → machine.step i s = s ∧ machine.out i s = []) (t : Nat) :
    ∃ u, condition (input u) ∧ Reaches machine input during t s [] u s := by
  classical
  obtain ⟨u, ⟨after, met⟩, least⟩ : ∃ u, (t ≤ u ∧ condition (input u)) ∧
      ∀ m < u, ¬ (t ≤ m ∧ condition (input m)) :=
    ⟨Nat.find (fair t), Nat.find_spec (fair t), fun _ bound => Nat.find_min (fair t) bound⟩
  obtain ⟨n, rfl⟩ := Nat.exists_eq_add_of_le after
  have waits : ∀ k, k ≤ n →
      machine.run input t s k = s ∧ machine.events input t s k = [] := by
    intro k bound
    induction k with
    | zero => exact ⟨rfl, rfl⟩
    | succ k ih =>
        obtain ⟨same, silent⟩ := ih (by omega)
        have unmet : ¬ condition (input (t + k)) := fun now =>
          least (t + k) (by omega) ⟨Nat.le_add_right t k, now⟩
        rw [run_succ, events_succ, same, silent]
        exact ⟨(stays _ unmet).1, by rw [(stays _ unmet).2]; rfl⟩
  refine ⟨t + n, met, n, rfl, (waits n (Nat.le_refl n)).1, (waits n (Nat.le_refl n)).2, ?_⟩
  intro k bound
  rw [(waits k (Nat.le_of_lt bound)).1]
  exact holds _ fun now => least (t + k) (by omega) ⟨Nat.le_add_right t k, now⟩

/-- A waiting state takes its step in the first cycle that meets the condition. -/
theorem Reaches.serve {condition : ι → Prop} {s : σ} (fair : Often input condition)
    (holds : ∀ i, during i s)
    (stays : ∀ i, ¬ condition i → machine.step i s = s ∧ machine.out i s = []) (t : Nat) :
    ∃ u, condition (input u) ∧ Reaches machine input during t s (machine.out (input u) s) (u + 1)
      (machine.step (input u) s) := by
  obtain ⟨u, met, waited⟩ := Reaches.wait fair (fun i _ => holds i) stays t
  exact ⟨u, met, waited.trans (Reaches.single (holds (input u)))⟩

/-- A measure that never grows and shrinks whenever the condition of its value is met comes
down to 1, and then the condition of 1 is met. -/
theorem exists_served {rank : Nat → Nat} {condition : Nat → ι → Prop}
    (fair : ∀ r, Often input (condition r))
    (goes : ∀ n, 1 < rank n → 0 < rank (n + 1) ∧ rank (n + 1) ≤ rank n ∧
      (condition (rank n) (input n) → rank (n + 1) < rank n))
    (stays : ∀ n, rank n = 1 → ¬ condition 1 (input n) → rank (n + 1) = 1) (n : Nat)
    (pending : 0 < rank n) : ∃ m, n ≤ m ∧ rank m = 1 ∧ condition 1 (input m) := by
  classical
  obtain ⟨r, same⟩ : ∃ r, rank n = r := ⟨_, rfl⟩
  induction r using Nat.strong_induction_on generalizing n with
  | _ r smaller =>
      obtain ⟨u, after, met⟩ := fair r n
      obtain ⟨d, rfl⟩ := Nat.exists_eq_add_of_le after
      clear after
      induction d generalizing n with
      | zero =>
          rcases Nat.lt_or_ge 1 r with more | one
          · obtain ⟨positive, _, drops⟩ := goes n (same ▸ more)
            obtain ⟨m, later, found⟩ :=
              smaller _ (by rw [← same] at met ⊢; exact drops met) (n + 1) positive rfl
            exact ⟨m, by omega, found⟩
          · obtain rfl : r = 1 := by omega
            exact ⟨n, Nat.le_refl n, same, met⟩
      | succ d ih =>
          rw [← Nat.add_assoc, Nat.add_right_comm] at met
          rcases Nat.lt_or_ge 1 r with more | one
          · obtain ⟨positive, bound, _⟩ := goes n (same ▸ more)
            rcases Nat.lt_or_eq_of_le bound with less | equal
            · obtain ⟨m, later, found⟩ := smaller _ (same ▸ less) (n + 1) positive rfl
              exact ⟨m, by omega, found⟩
            · obtain ⟨m, later, found⟩ := ih (n + 1) positive (equal.trans same) met
              exact ⟨m, by omega, found⟩
          · obtain rfl : r = 1 := by omega
            by_cases now : condition 1 (input n)
            · exact ⟨n, Nat.le_refl n, same, now⟩
            · obtain ⟨m, later, found⟩ := ih (n + 1) (by rw [stays n same now]; decide)
                (stays n same now) met
              exact ⟨m, by omega, found⟩

/-- A measure that shrinks until the goal is met brings every run to it. -/
theorem exists_first {holds goal : σ → Prop} {measure : σ → Nat}
    (nears : ∀ i s, holds s → ¬ goal s →
      holds (machine.step i s) ∧ measure (machine.step i s) < measure s)
    {s : σ} (initial : holds s) (t : Nat) :
    ∃ n, holds (machine.run input t s n) ∧ goal (machine.run input t s n) ∧
      ∀ k < n, holds (machine.run input t s k) ∧ ¬ goal (machine.run input t s k) := by
  obtain ⟨r, same⟩ : ∃ r, measure s = r := ⟨_, rfl⟩
  induction r using Nat.strong_induction_on generalizing t s with
  | _ r smaller =>
      by_cases met : goal s
      · exact ⟨0, initial, met, fun _ bound => absurd bound (Nat.not_lt_zero _)⟩
      · obtain ⟨keeps, drops⟩ := nears (input t) s initial met
        obtain ⟨n, last, reached, before⟩ := smaller _ (same ▸ drops) keeps (t + 1) rfl
        refine ⟨n + 1, last, reached, fun k bound => ?_⟩
        cases k with
        | zero => exact ⟨initial, met⟩
        | succ k => exact before k (Nat.lt_of_succ_lt_succ bound)

/-- Steps from one marked cycle to a later one make an infinite sequence of them. -/
theorem exists_marks {marked : Nat → Nat → Prop} {between : Nat → Nat → Nat → Prop}
    (initial : marked 0 0)
    (further : ∀ n t, marked n t → ∃ u, t < u ∧ marked (n + 1) u ∧ between n t u) :
    ∃ mark : Nat → Nat, mark 0 = 0 ∧ StrictMono mark ∧
      ∀ n, marked n (mark n) ∧ between n (mark n) (mark (n + 1)) := by
  classical
  choose! next later marks spans using further
  let mark : Nat → Nat := fun n => Nat.rec 0 (fun n t => next n t) n
  have marked_mark : ∀ n, marked n (mark n) := by
    intro n
    induction n with
    | zero => exact initial
    | succ n ih => exact marks n _ ih
  refine ⟨mark, rfl, strictMono_nat_of_lt_succ fun n => later n _ (marked_mark n), fun n => ?_⟩
  exact ⟨marked_mark n, spans n _ (marked_mark n)⟩

end Machine

end Ysyx.Lib
