import Ysyx.Lib.Machine

/-! A port with valid/ready handshakes in both directions whose responder decides to accept
a request one cycle before it shows `ready`, and sets the response in the same step. A
trace gives the signals of the port in each cycle. -/

set_option autoImplicit false

namespace Ysyx.Lib

/-- The signals of one cycle. -/
structure Signals (α β : Type) where
  /-- The request the master drives, while its valid is high. -/
  asked : Option α
  ready : Bool
  valid : Bool
  data : β
  /-- The master takes a response. -/
  taken : Bool
  /-- What a request accepted in this cycle is answered with. -/
  value : α → β

variable {α β : Type}

/-- The request that is accepted in this cycle. -/
def Signals.accepts (signals : Signals α β) : Option α :=
  if signals.ready || (signals.valid && !signals.taken) then none else signals.asked

/-- The registers follow the acceptances, and the master holds its request. -/
structure Responds (trace : Nat → Signals α β) : Prop where
  idle : (trace 0).ready = false ∧ (trace 0).valid = false
  ready : ∀ n, (trace (n + 1)).ready = (trace n).accepts.isSome
  valid : ∀ n, (trace (n + 1)).valid =
    ((trace n).accepts.isSome || ((trace n).valid && !(trace n).taken))
  data : ∀ n, (trace (n + 1)).data = ((trace n).accepts.map (trace n).value).getD (trace n).data
  holds : ∀ n, (trace n).ready = false → (trace n).asked.isSome = true →
    (trace (n + 1)).asked = (trace n).asked

/-!
## Ledgers
-/

/-- The requests whose handshake is before cycle `n`. -/
def requests (trace : Nat → Signals α β) : Nat → List α
  | 0 => []
  | n + 1 => requests trace n ++ if (trace n).ready then (trace n).asked.toList else []

/-- The responses delivered before cycle `n`. -/
def responses (trace : Nat → Signals α β) : Nat → List β
  | 0 => []
  | n + 1 => responses trace n ++
      if (trace n).valid && (trace n).taken then [(trace n).data] else []

/-- The requests accepted before cycle `n`, with their answers in that cycle. -/
def accepted (trace : Nat → Signals α β) : Nat → List (α × β)
  | 0 => []
  | n + 1 => accepted trace n ++
      ((trace n).accepts.map fun request => (request, (trace n).value request)).toList

/-- Each request is answered exactly once, in order, with its value when it was accepted. -/
structure AnswersOnce (trace : Nat → Signals α β) : Prop where
  /-- A request is accepted once; the handshake of the last one may be outstanding. -/
  request : ∀ n, (accepted trace n).map Prod.fst =
    requests trace n ++ if (trace n).ready then (trace n).asked.toList else []
  /-- It is answered once; the response to the last one may be pending. -/
  response : ∀ n, (accepted trace n).map Prod.snd =
    responses trace n ++ if (trace n).valid then [(trace n).data] else []
  counts : ∀ n, (requests trace n).length + (trace n).ready.toNat =
    (responses trace n).length + (trace n).valid.toNat
  /-- The ready pulse lasts one cycle, in which the request and its response are there. -/
  pulse : ∀ n, (trace n).ready = true →
    (trace n).asked.isSome = true ∧ (trace n).valid = true ∧ (trace (n + 1)).ready = false
  kept : ∀ n, (trace n).valid = true → (trace n).taken = false →
    (trace (n + 1)).valid = true ∧ (trace (n + 1)).data = (trace n).data
  guarded : ∀ n, (trace n).accepts.isSome = true → (trace n).valid = false ∨ (trace n).taken = true
  /-- A master that takes responses again and again gets every handshake and response. -/
  served : Machine.Often trace (·.taken = true) → ∀ n,
    ((trace n).asked.isSome = true → ∃ m, n ≤ m ∧ (trace m).ready = true) ∧
      ((trace n).valid = true → ∃ m, n ≤ m ∧ (trace m).valid = true ∧ (trace m).taken = true)

section Responds

variable {trace : Nat → Signals α β}

theorem Signals.accepts_eq_some {signals : Signals α β} {request : α}
    (accepts : signals.accepts = some request) :
    signals.ready = false ∧ (signals.valid = false ∨ signals.taken = true) ∧
      signals.asked = some request := by
  unfold Signals.accepts at accepts
  split at accepts
  · cases accepts
  next free =>
    simp only [Bool.or_eq_true, Bool.and_eq_true, not_or, Bool.not_eq_true', not_and,
      Bool.not_eq_true] at free
    refine ⟨free.1, ?_, accepts⟩
    cases valid : signals.valid with
    | false => exact .inl rfl
    | true => exact .inr (by simpa using free.2 valid)

/-- The acceptance as a responder computes it. -/
theorem Signals.isSome_accepts (signals : Signals α β) :
    signals.accepts.isSome =
      (signals.asked.isSome && !signals.ready && (!signals.valid || signals.taken)) := by
  obtain ⟨asked, ready, valid, data, taken, value⟩ := signals
  cases asked <;> cases ready <;> cases valid <;> cases taken <;> rfl

/-- The data register as a responder computes it; `other` is on idle request lines. -/
theorem Signals.answer (signals : Signals α β) (other : α) :
    (signals.accepts.map signals.value).getD signals.data =
      if signals.asked.isSome && !signals.ready && (!signals.valid || signals.taken) then
        signals.value (signals.asked.getD other) else signals.data := by
  obtain ⟨asked, ready, valid, data, taken, value⟩ := signals
  cases asked <;> cases ready <;> cases valid <;> cases taken <;> rfl

variable (responds : Responds trace)

include responds

/-- While ready is shown the master still drives the accepted request. -/
theorem Responds.shown (n : Nat) (ready : (trace n).ready = true) :
    (trace n).asked.isSome = true ∧ (trace n).valid = true := by
  cases n with
  | zero => exact absurd (responds.idle.1.symm.trans ready) (by decide)
  | succ n =>
      rw [responds.ready] at ready
      obtain ⟨request, accepts⟩ := Option.isSome_iff_exists.mp ready
      obtain ⟨unready, _, asked⟩ := Signals.accepts_eq_some accepts
      have held := responds.holds n unready (by rw [asked]; rfl)
      rw [held, asked, responds.valid, ready]
      exact ⟨rfl, rfl⟩

theorem Responds.single (n : Nat) (ready : (trace n).ready = true) :
    (trace (n + 1)).ready = false := by
  rw [responds.ready]
  cases accepts : (trace n).accepts with
  | none => rfl
  | some request =>
      exact absurd ((Signals.accepts_eq_some accepts).1.symm.trans ready) (by decide)

theorem Responds.kept (n : Nat) (valid : (trace n).valid = true)
    (waits : (trace n).taken = false) :
    (trace (n + 1)).valid = true ∧ (trace (n + 1)).data = (trace n).data := by
  have none : (trace n).accepts = none := by
    simp [Signals.accepts, valid, waits]
  rw [responds.valid, responds.data, none, valid, waits]
  exact ⟨rfl, rfl⟩

theorem Responds.request (n : Nat) :
    (accepted trace n).map Prod.fst =
      requests trace n ++ if (trace n).ready then (trace n).asked.toList else [] := by
  induction n with
  | zero => simp [accepted, requests, responds.idle.1]
  | succ n ih =>
      rw [accepted, requests, List.map_append, ih, responds.ready]
      cases accepts : (trace n).accepts with
      | none => simp
      | some request =>
          obtain ⟨unready, _, asked⟩ := Signals.accepts_eq_some accepts
          have held := responds.holds n unready (by rw [asked]; rfl)
          simp [unready, held, asked]

theorem Responds.response (n : Nat) :
    (accepted trace n).map Prod.snd =
      responses trace n ++ if (trace n).valid then [(trace n).data] else [] := by
  induction n with
  | zero => simp [accepted, responses, responds.idle.2]
  | succ n ih =>
      rw [accepted, responses, List.map_append, ih, responds.valid, responds.data]
      cases accepts : (trace n).accepts with
      | none => cases (trace n).valid <;> cases (trace n).taken <;> simp
      | some request =>
          obtain ⟨_, free, _⟩ := Signals.accepts_eq_some accepts
          rcases free with empty | taken
          · simp [empty]
          · cases (trace n).valid <;> simp [taken]

theorem Responds.counts (n : Nat) :
    (requests trace n).length + (trace n).ready.toNat =
      (responses trace n).length + (trace n).valid.toNat := by
  have asked := congrArg List.length (responds.request n)
  have answered := congrArg List.length (responds.response n)
  rw [List.length_map, List.length_append] at asked answered
  have outstanding : (if (trace n).ready then (trace n).asked.toList else []).length =
      (trace n).ready.toNat := by
    cases ready : (trace n).ready with
    | false => rfl
    | true =>
        obtain ⟨request, driven⟩ := Option.isSome_iff_exists.mp (responds.shown n ready).1
        simp [driven]
  have pending : (if (trace n).valid then [(trace n).data] else []).length =
      (trace n).valid.toNat := by
    cases (trace n).valid <;> rfl
  omega

/-- A response waits for the master. -/
theorem Responds.delivered (fair : Machine.Often trace (·.taken = true)) (n : Nat)
    (valid : (trace n).valid = true) :
    ∃ m, n ≤ m ∧ (trace m).valid = true ∧ (trace m).taken = true := by
  obtain ⟨u, after, taken⟩ := fair n
  obtain ⟨d, rfl⟩ := Nat.exists_eq_add_of_le after
  clear after
  induction d generalizing n with
  | zero => exact ⟨n, Nat.le_refl n, valid, taken⟩
  | succ d ih =>
      cases now : (trace n).taken with
      | true => exact ⟨n, Nat.le_refl n, valid, now⟩
      | false =>
          have next := (responds.kept n valid now).1
          rw [← Nat.add_assoc, Nat.add_right_comm] at taken
          obtain ⟨m, later, served⟩ := ih (n + 1) next taken
          exact ⟨m, by omega, served⟩

/-- A request is accepted in the first cycle that takes the response before it, if not
earlier. -/
theorem Responds.handshake (fair : Machine.Often trace (·.taken = true)) (n : Nat)
    (asked : (trace n).asked.isSome = true) : ∃ m, n ≤ m ∧ (trace m).ready = true := by
  obtain ⟨u, after, taken⟩ := fair n
  obtain ⟨d, rfl⟩ := Nat.exists_eq_add_of_le after
  clear after
  induction d generalizing n with
  | zero =>
      cases ready : (trace n).ready with
      | true => exact ⟨n, Nat.le_refl n, ready⟩
      | false =>
          refine ⟨n + 1, Nat.le_succ n, ?_⟩
          rw [responds.ready, Signals.accepts, ready]
          simp only [Nat.add_zero] at taken
          simpa [taken] using asked
  | succ d ih =>
      cases ready : (trace n).ready with
      | true => exact ⟨n, Nat.le_refl n, ready⟩
      | false =>
          have held := responds.holds n ready asked
          rw [← Nat.add_assoc, Nat.add_right_comm] at taken
          obtain ⟨m, later, shown⟩ := ih (n + 1) (by rw [held]; exact asked) taken
          exact ⟨m, by omega, shown⟩

theorem Responds.answersOnce : AnswersOnce trace where
  request := responds.request
  response := responds.response
  counts := responds.counts
  pulse := fun n ready =>
    ⟨(responds.shown n ready).1, (responds.shown n ready).2, responds.single n ready⟩
  kept := responds.kept
  guarded := by
    intro n accepts
    obtain ⟨request, found⟩ := Option.isSome_iff_exists.mp accepts
    exact (Signals.accepts_eq_some found).2.1
  served := fun fair n => ⟨responds.handshake fair n, responds.delivered fair n⟩

end Responds

/-!
## Ports of machines
-/

variable {ι σ ε : Type}

/-- The port that a machine shows in a cycle follows the acceptances, in the states of an
invariant. -/
structure ShowsPort (machine : Machine ι σ ε) (holds : σ → Prop) (port : ι → σ → Signals α β) :
    Prop where
  keeps : ∀ i s, holds s → holds (machine.step i s)
  ready : ∀ i i' s, holds s → (port i' (machine.step i s)).ready = (port i s).accepts.isSome
  valid : ∀ i i' s, holds s → (port i' (machine.step i s)).valid =
    ((port i s).accepts.isSome || ((port i s).valid && !(port i s).taken))
  data : ∀ i i' s, holds s → (port i' (machine.step i s)).data =
    ((port i s).accepts.map (port i s).value).getD (port i s).data
  held : ∀ i i' s, holds s → (port i s).ready = false → (port i s).asked.isSome = true →
    (port i' (machine.step i s)).asked = (port i s).asked

theorem ShowsPort.responds {machine : Machine ι σ ε} {holds : σ → Prop}
    {port : ι → σ → Signals α β} (shows : ShowsPort machine holds port) {start : σ}
    (initial : holds start)
    (idle : ∀ i, (port i start).ready = false ∧ (port i start).valid = false) (inputs : Nat → ι) :
    Responds fun n => port (inputs n) (machine.run inputs 0 start n) := by
  have always := Machine.invariant machine inputs shows.keeps initial 0
  have next (n : Nat) : machine.run inputs 0 start (n + 1) =
      machine.step (inputs n) (machine.run inputs 0 start n) := by
    rw [Machine.run_succ, Nat.zero_add]
  constructor
  case idle => exact idle (inputs 0)
  case ready => exact fun n => (next n).symm ▸ shows.ready _ _ _ (always n)
  case valid => exact fun n => (next n).symm ▸ shows.valid _ _ _ (always n)
  case data => exact fun n => (next n).symm ▸ shows.data _ _ _ (always n)
  case holds => exact fun n => (next n).symm ▸ shows.held _ _ _ (always n)

end Ysyx.Lib
