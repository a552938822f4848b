import Ysyx.Nemu.Audio
import Mathlib.Tactic.SplitIfs

/-! Every byte given is delivered, queued, written behind the queue or still with the guest,
in this order, as long as no callback rewinds the buffer under a fill. -/

set_option autoImplicit false

namespace Ysyx.Nemu

open Lib (slice blit slice_zero slice_one slice_add slice_congr slice_blit slice_blit_outside)

namespace AudioSystem

variable {sys next : AudioSystem} {act : AudioAct}

/-- The bytes of the buffer from one index to another. -/
def between (sbuf : Nat → BitVec 8) (from_ to_ : Int) : List (BitVec 8) :=
  slice sbuf from_.toNat (to_ - from_).toNat

/-- The indices stay in the buffer, and the guest's count is never before `tail`. -/
structure Bounds (sys : AudioSystem) : Prop where
  front : 0 ≤ sys.audio.front
  order : sys.audio.front ≤ sys.audio.tail
  size : sys.audio.tail ≤ sbSize
  count : ∀ count rest, sys.guest = .fill count rest → sys.audio.tail ≤ count ∧ count ≤ sbSize

/-- The published bytes that no callback has taken. -/
def queued (sys : AudioSystem) : List (BitVec 8) :=
  between sys.audio.sbuf sys.audio.front sys.audio.tail

/-- What the guest has written behind `tail`, and what it has not written yet. -/
def unpublished (sys : AudioSystem) : List (BitVec 8) :=
  match sys.guest with
  | .idle => []
  | .read rest => rest
  | .fill count rest => between sys.audio.sbuf sys.audio.tail count ++ rest

/-- Nothing is lost, repeated or out of order. -/
def Accounted (sys : AudioSystem) : Prop :=
  sys.given = sys.delivered ++ sys.queued ++ sys.unpublished

/-!
## What a step can do
-/

inductive Moves (sys : AudioSystem) : AudioAct → AudioSystem → Prop where
  | stays (act : AudioAct) : Moves sys act sys
  | play (buf : List (BitVec 8)) (guest : sys.guest = .idle) :
      Moves sys (.play buf) { sys with guest := .read buf, given := sys.given ++ buf }
  | finish (guest : sys.guest = .read []) : Moves sys .guest { sys with guest := .idle }
  | poll (rest : List (BitVec 8)) (guest : sys.guest = .read rest) :
      Moves sys .guest { sys with audio := { sys.audio with regCount := sys.audio.tail } }
  | start (rest : List (BitVec 8)) (guest : sys.guest = .read rest) :
      Moves sys .guest
        { sys with
          audio := { sys.audio with regCount := sys.audio.tail }
          guest := .fill sys.audio.tail rest }
  | write (count : Int) (byte : BitVec 8) (rest : List (BitVec 8))
      (guest : sys.guest = .fill count (byte :: rest)) (space : count < sbSize) :
      Moves sys .guest
        { sys with audio := sys.audio.writeSbuf count byte, guest := .fill (count + 1) rest }
  | publish (count : Int) (rest : List (BitVec 8)) (guest : sys.guest = .fill count rest) :
      Moves sys .guest
        { sys with
          audio := { sys.audio with regCount := count, tail := count }, guest := .read rest }
  | take (len : Nat) (inside : sys.audio.front + len < sys.audio.tail) :
      Moves sys (.callback len)
        { sys with
          audio := { sys.audio with front := sys.audio.front + len }
          delivered := sys.delivered ++ slice sys.audio.sbuf sys.audio.front.toNat len }
  | drain (len : Nat) (all : sys.audio.tail - sys.audio.front ≤ len) :
      Moves sys (.callback len)
        { sys with
          audio := { sys.audio with front := 0, tail := 0 }
          delivered := sys.delivered ++ sys.queued }

theorem sbSize_nonneg : 0 ≤ sbSize := by decide

theorem bounds_init (sbuf : Nat → BitVec 8) : (init sbuf).Bounds where
  front := Int.le_refl 0
  order := Int.le_refl 0
  size := sbSize_nonneg
  count := fun _ _ filling => Guest.noConfusion filling

theorem callback_moves (bounds : sys.Bounds) (len : Nat) :
    ∃ next, sys.step (.callback len) = some next ∧ sys.Moves (.callback len) next := by
  have order := bounds.order
  by_cases less : sys.audio.front + len < sys.audio.tail
  · refine ⟨_, ?_, .take len less⟩
    have part : ¬ sys.audio.tail - sys.audio.front < len := by omega
    have rest : ¬ sys.audio.front + len = sys.audio.tail := by omega
    simp [step, Audio.mycallback, part, rest]
  · have all : sys.audio.tail - sys.audio.front ≤ len := by omega
    refine ⟨_, ?_, .drain len all⟩
    have nread : (if sys.audio.tail - sys.audio.front < len then
        sys.audio.tail - sys.audio.front else len) = sys.audio.tail - sys.audio.front := by
      split_ifs <;> omega
    have drained : sys.audio.front + (sys.audio.tail - sys.audio.front) = sys.audio.tail := by
      omega
    simp [step, Audio.mycallback, nread, drained, queued, between]

/-- No step fails an assertion. -/
theorem step_moves (bounds : sys.Bounds) (act : AudioAct) :
    ∃ next, sys.step act = some next ∧ sys.Moves act next := by
  have size := bounds.size
  cases act with
  | callback len => exact callback_moves bounds len
  | play buf =>
      cases guest : sys.guest with
      | idle => exact ⟨_, by simp only [step, guest], .play buf guest⟩
      | read _ | fill _ _ => exact ⟨_, by simp only [step, guest], .stays _⟩
  | guest =>
      have reads : sys.audio.readCount =
          some (sys.audio.tail, { sys.audio with regCount := sys.audio.tail }) := by
        simp [Audio.readCount, Audio.ioHandler, size]
      cases guest : sys.guest with
      | idle => exact ⟨_, by simp only [step, guestStep, guest], .stays _⟩
      | read rest =>
          cases rest with
          | nil => exact ⟨_, by simp only [step, guestStep, guest], .finish guest⟩
          | cons byte rest =>
              by_cases full : sys.audio.tail = sbSize
              · refine ⟨_, ?_, .poll _ guest⟩
                simp [step, guestStep, guest, reads, full]
              · refine ⟨_, ?_, .start _ guest⟩
                simp [step, guestStep, guest, reads, full]
      | fill count rest =>
          obtain ⟨_, within⟩ := bounds.count count rest guest
          have publishes : sys.audio.writeCount count =
              some { sys.audio with regCount := count, tail := count } := by
            simp [Audio.writeCount, Audio.ioHandler, within]
          cases rest with
          | nil =>
              refine ⟨_, ?_, .publish _ _ guest⟩
              simp [step, guestStep, guest, publishes]
          | cons byte rest =>
              by_cases space : count < sbSize
              · refine ⟨_, ?_, .write _ _ _ guest space⟩
                simp [step, guestStep, guest, space]
              · refine ⟨_, ?_, .publish _ _ guest⟩
                simp [step, guestStep, guest, space, publishes]

theorem Moves.bounds (moves : sys.Moves act next) (bounds : sys.Bounds) : next.Bounds := by
  obtain ⟨front, order, size, count⟩ := bounds
  cases moves with
  | stays => exact ⟨front, order, size, count⟩
  | play | finish => exact ⟨front, order, size, fun _ _ filling => Guest.noConfusion filling⟩
  | poll => exact ⟨front, order, size, count⟩
  | start rest guest =>
      refine ⟨front, order, size, fun at_ rest' filling => ?_⟩
      injection filling with same
      subst same
      exact ⟨Int.le_refl _, size⟩
  | write at_ byte rest guest space =>
      obtain ⟨after, _⟩ := count _ _ guest
      refine ⟨front, order, size, fun at' rest' filling => ?_⟩
      injection filling with same
      subst same
      exact ⟨Int.le_trans after (by omega), by omega⟩
  | publish at_ rest guest =>
      obtain ⟨after, within⟩ := count _ _ guest
      exact ⟨front, Int.le_trans order after, within, fun _ _ filling => Guest.noConfusion filling⟩
  | take len inside =>
      refine ⟨?_, Int.le_of_lt inside, size, count⟩
      exact Int.le_trans front (Int.le_add_of_nonneg_right (Int.natCast_nonneg len))
  | drain len all =>
      refine ⟨Int.le_refl 0, Int.le_refl 0, sbSize_nonneg, fun at_ rest filling => ?_⟩
      obtain ⟨after, within⟩ := count _ _ filling
      exact ⟨Int.le_trans (Int.le_trans front order) after, within⟩

/-!
## The account
-/

section Between

variable {sbuf : Nat → BitVec 8} {a b c : Int}

theorem between_self (sbuf : Nat → BitVec 8) (a : Int) : between sbuf a a = [] := by
  simp [between]

theorem between_append (sbuf : Nat → BitVec 8) (low : 0 ≤ a) (left : a ≤ b) (right : b ≤ c) :
    between sbuf a b ++ between sbuf b c = between sbuf a c := by
  have split : (c - a).toNat = (b - a).toNat + (c - b).toNat := by omega
  have start : b.toNat = a.toNat + (b - a).toNat := by omega
  rw [between, between, between, split, slice_add, ← start]

/-- A write behind a run of bytes leaves it alone. -/
theorem between_blit (low : 0 ≤ a) (left : a ≤ b) (right : b ≤ c) (data : List (BitVec 8)) :
    between (blit sbuf c.toNat data) a b = between sbuf a b :=
  slice_blit_outside (.inl (by omega))

theorem between_blit_one (sbuf : Nat → BitVec 8) (c : Int) (byte : BitVec 8) :
    between (blit sbuf c.toNat [byte]) c (c + 1) = [byte] := by
  have one : (c + 1 - c).toNat = 1 := by omega
  rw [between, one]
  exact slice_blit sbuf c.toNat [byte]

end Between

theorem accounted_init (sbuf : Nat → BitVec 8) : (init sbuf).Accounted := rfl

/-- One step keeps the account, unless it rewinds the buffer under a fill. -/
theorem Moves.accounted (moves : sys.Moves act next) (bounds : sys.Bounds)
    (spared : ¬ sys.Rewinds act) (accounted : sys.Accounted) : next.Accounted := by
  obtain ⟨front, order, _, count⟩ := bounds
  have low := Int.le_trans front order
  simp only [Accounted, queued, unpublished] at accounted ⊢
  cases moves with
  | stays | poll => exact accounted
  | play buf guest | finish guest | start rest guest => simp_all [between_self]
  | write at_ byte rest guest space =>
      obtain ⟨after, _⟩ := count _ _ guest
      have grown : between (blit sys.audio.sbuf at_.toNat [byte]) sys.audio.tail (at_ + 1) =
          between sys.audio.sbuf sys.audio.tail at_ ++ [byte] := by
        rw [← between_append _ low after (by omega), between_blit low after (Int.le_refl _),
          between_blit_one]
      simp only [guest] at accounted
      simp only [Audio.writeSbuf, grown, between_blit front order after]
      simpa using accounted
  | publish at_ rest guest =>
      obtain ⟨after, _⟩ := count _ _ guest
      simp only [guest] at accounted
      simp only
      rw [← between_append _ front order after]
      simpa using accounted
  | take len inside =>
      have taken : slice sys.audio.sbuf sys.audio.front.toNat len =
          between sys.audio.sbuf sys.audio.front (sys.audio.front + len) := by
        have length : (sys.audio.front + len - sys.audio.front).toNat = len := by omega
        rw [between, length]
      have split := between_append sys.audio.sbuf front
        (Int.le_add_of_nonneg_right (Int.natCast_nonneg len)) (Int.le_of_lt inside)
      simp only [taken]
      rw [← split, ← List.append_assoc sys.delivered] at accounted
      exact accounted
  | drain len all =>
      cases guest : sys.guest with
      | idle | read _ =>
          simp only [guest] at accounted
          simpa [queued, between_self] using accounted
      | fill at_ rest =>
          have atZero : sys.audio.tail = 0 := by
            simp only [Rewinds, guest, not_and] at spared
            have notPositive : ¬ 0 < sys.audio.tail := fun positive => spared positive all
            omega
          simp only [guest] at accounted
          simpa [queued, between_self, atZero] using accounted

/-!
## Runs
-/

theorem run_bounds (bounds : sys.Bounds) (acts : List AudioAct) :
    ∃ last, run acts sys = some last ∧ last.Bounds := by
  induction acts generalizing sys with
  | nil => exact ⟨sys, rfl, bounds⟩
  | cons act acts ih =>
      obtain ⟨next, stepped, moves⟩ := step_moves bounds act
      rw [run, stepped]
      exact ih (moves.bounds bounds)

theorem run_accounted (bounds : sys.Bounds) (accounted : sys.Accounted) {acts : List AudioAct}
    (undisturbed : Undisturbed acts sys) {last : AudioSystem} (ran : run acts sys = some last) :
    last.Accounted := by
  induction acts generalizing sys with
  | nil =>
      obtain rfl := Option.some.inj ran
      exact accounted
  | cons act acts ih =>
      obtain ⟨spared, after⟩ := undisturbed
      obtain ⟨next, stepped, moves⟩ := step_moves bounds act
      rw [run, stepped] at ran
      exact ih (moves.bounds bounds) (moves.accounted bounds spared accounted)
        (after next stepped) ran

/-- Whatever the interleaving no assertion fails and the indices stay in the buffer; when no
callback rewinds the buffer under a fill, what has been delivered, what is queued, what the
guest has written and what it has left are the bytes given. -/
theorem audio_in_order (sbuf : Nat → BitVec 8) (acts : List AudioAct) :
    ∃ last, run acts (init sbuf) = some last ∧
      (0 ≤ last.audio.front ∧ last.audio.front ≤ last.audio.tail ∧ last.audio.tail ≤ sbSize) ∧
      (Undisturbed acts (init sbuf) →
        last.given = last.delivered ++ last.queued ++ last.unpublished ∧
          last.delivered <+: last.given) := by
  obtain ⟨last, ran, bounds⟩ := run_bounds (bounds_init sbuf) acts
  refine ⟨last, ran, ⟨bounds.front, bounds.order, bounds.size⟩, fun undisturbed => ?_⟩
  have accounted := run_accounted (bounds_init sbuf) (accounted_init sbuf) undisturbed ran
  refine ⟨accounted, last.queued ++ last.unpublished, ?_⟩
  rw [accounted, List.append_assoc]

instance : (act : AudioAct) → (sys : AudioSystem) → Decidable (sys.Rewinds act)
  | .callback len, ⟨audio, .fill _ _, _, _⟩ =>
      inferInstanceAs (Decidable (0 < audio.tail ∧ audio.tail - audio.front ≤ len))
  | .callback _, ⟨_, .idle, _, _⟩ | .callback _, ⟨_, .read _, _, _⟩ => .isFalse id
  | .play _, _ | .guest, _ => .isFalse id

instance decidableUndisturbed :
    (acts : List AudioAct) → (sys : AudioSystem) → Decidable (Undisturbed acts sys)
  | [], _ => .isTrue trivial
  | act :: acts, sys =>
      match stepped : sys.step act with
      | none => decidable_of_iff (¬ sys.Rewinds act) (by simp [Undisturbed, stepped])
      | some next =>
          have := decidableUndisturbed acts next
          decidable_of_iff (¬ sys.Rewinds act ∧ Undisturbed acts next)
            (by simp [Undisturbed, stepped])

/-- Two bytes are played, and callbacks take them before and after the guest is done. -/
def calm : List AudioAct :=
  [.play [1#8, 2#8], .guest, .callback 4, .guest, .guest, .guest, .callback 1, .guest, .callback 5]

theorem audio_in_order_calm : ∃ last, run calm (init fun _ => 0#8) = some last ∧
    last.given = last.delivered ++ last.queued ++ last.unpublished ∧
      last.delivered = [1#8, 2#8] := by
  obtain ⟨last, ran, _, order⟩ := audio_in_order (fun _ => 0#8) calm
  have delivered : ((run calm (init fun _ => 0#8)).map AudioSystem.delivered) =
      some [1#8, 2#8] := by
    decide +kernel
  rw [ran] at delivered
  exact ⟨last, ran, (order (by decide +kernel)).1, Option.some.inj delivered⟩

/-- Two bytes are played, the first is delivered; a third byte is on its way when a callback
takes the second. -/
def rewinding : List AudioAct :=
  [.play [1#8, 2#8], .guest, .guest, .guest, .guest, .guest, .callback 1,
    .play [3#8], .guest, .callback 5, .guest, .guest, .callback 3]

/-- The first two bytes are delivered a second time. -/
theorem audio_replays :
    ¬ ∀ (sbuf : Nat → BitVec 8) (acts : List AudioAct) (last : AudioSystem),
      run acts (init sbuf) = some last → last.delivered <+: last.given := by
  intro always
  have inOrder := always (fun _ => 0#8) rewinding _ rfl
  revert inOrder
  decide +kernel

end AudioSystem

end Ysyx.Nemu
