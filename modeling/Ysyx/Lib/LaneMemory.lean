import Mathlib.Data.List.Induction

/-! A memory of words with lanes, and the logs of reads and masked writes that it explains. -/

set_option autoImplicit false

namespace Ysyx.Lib

variable {α κ ι β : Type}

inductive Access (α ι β : Type) where
  | read (addr : α) (data : ι → β)
  | write (addr : α) (data : ι → β) (mask : ι → Bool)

namespace Access

def addr : Access α ι β → α
  | .read addr _ => addr
  | .write addr _ _ => addr

/-- The same access to another address. -/
def moved (place : α → κ) : Access α ι β → Access κ ι β
  | .read addr data => .read (place addr) data
  | .write addr data mask => .write (place addr) data mask

variable [DecidableEq α]

/-- The memory after the access. -/
def apply (mem : α → ι → β) : Access α ι β → α → ι → β
  | .read _ _ => mem
  | .write addr data mask => fun a i => if a = addr ∧ mask i = true then data i else mem a i

/-- A read shows what the memory holds. -/
def Fits (mem : α → ι → β) : Access α ι β → Prop
  | .read addr data => data = mem addr
  | .write _ _ _ => True

end Access

open Access

variable [DecidableEq α]

/-- Every read of the log shows what the memory holds after the writes before it. -/
def Replays (mem : α → ι → β) : List (Access α ι β) → Prop
  | [] => True
  | access :: rest => access.Fits mem ∧ Replays (access.apply mem) rest

def replayed (mem : α → ι → β) (log : List (Access α ι β)) : α → ι → β := log.foldl apply mem

theorem replays_append (mem : α → ι → β) (before after : List (Access α ι β)) :
    Replays mem (before ++ after) ↔ Replays mem before ∧ Replays (replayed mem before) after := by
  induction before generalizing mem with
  | nil => exact ⟨fun fits => ⟨trivial, fits⟩, fun fits => fits.2⟩
  | cons access rest ih =>
      rw [List.cons_append, Replays, Replays, ih, and_assoc]
      rfl

/-- What the last write that covers the lane has put there. -/
def lastWrite (addr : α) (i : ι) (log : List (Access α ι β)) : Option β :=
  log.foldl (fun last access =>
    match access with
    | .write a data mask => if addr = a ∧ mask i = true then some (data i) else last
    | .read _ _ => last) none

theorem lastWrite_append_singleton (addr : α) (i : ι) (log : List (Access α ι β))
    (access : Access α ι β) :
    lastWrite addr i (log ++ [access]) =
      match access with
      | .write a data mask =>
          if addr = a ∧ mask i = true then some (data i) else lastWrite addr i log
      | .read _ _ => lastWrite addr i log := by
  rw [lastWrite, List.foldl_append]
  rfl

theorem replayed_eq (mem : α → ι → β) (log : List (Access α ι β)) (addr : α) (i : ι) :
    replayed mem log addr i = (lastWrite addr i log).getD (mem addr i) := by
  induction log using List.reverseRecOn with
  | nil => rfl
  | append_singleton log access ih =>
      rw [lastWrite_append_singleton, replayed, List.foldl_append]
      cases access with
      | read a data => exact ih
      | write a data mask =>
          by_cases covered : addr = a ∧ mask i = true
          · simp only [List.foldl_cons, List.foldl_nil, apply, if_pos covered, Option.getD_some]
          · simp only [List.foldl_cons, List.foldl_nil, apply, if_neg covered]
            exact ih

/-- Lane by lane a read shows the last write that covers it, else what was there at first. -/
theorem Replays.read {mem : α → ι → β} {before after : List (Access α ι β)} {addr : α}
    {data : ι → β} (replays : Replays mem (before ++ .read addr data :: after)) (i : ι) :
    data i = (lastWrite addr i before).getD (mem addr i) := by
  have shown : data = replayed mem before addr := ((replays_append _ _ _).mp replays).2.1
  rw [shown, replayed_eq]

/-- What another address of the place puts in the lane, a later write to this address covers. -/
def Retains (place : α → κ) (addr : α) (i : ι) (log : List (Access α ι β)) : Prop :=
  ∀ before a data mask after, log = before ++ .write a data mask :: after →
    place a = place addr → mask i = true →
    a = addr ∨ ∃ data' mask', .write addr data' mask' ∈ after ∧ mask' i = true

omit [DecidableEq α] in
theorem Retains.of_append {place : α → κ} {addr : α} {i : ι} {log : List (Access α ι β)}
    {access : Access α ι β} (retains : Retains place addr i (log ++ [access]))
    (uncovered : ∀ data mask, access = .write addr data mask → mask i = false) :
    Retains place addr i log := by
  intro before a data mask after split together covers
  have whole : log ++ [access] = before ++ .write a data mask :: (after ++ [access]) := by
    rw [split, List.append_assoc, List.cons_append]
  obtain same | ⟨data', mask', found, covers'⟩ :=
    retains before a data mask _ whole together covers
  · exact .inl same
  · rw [List.mem_append, List.mem_singleton] at found
    rcases found with found | last
    · exact .inr ⟨data', mask', found, covers'⟩
    · rw [uncovered data' mask' last.symm] at covers'
      cases covers'

/-- An address that retains the lane at its place has what the place has. -/
theorem lastWrite_moved [DecidableEq κ] {place : α → κ} {log : List (Access α ι β)} {addr : α}
    {i : ι} (retains : Retains place addr i log) :
    lastWrite (place addr) i (log.map (moved place)) = lastWrite addr i log := by
  induction log using List.reverseRecOn with
  | nil => rfl
  | append_singleton log access ih =>
      rw [List.map_append, List.map_singleton, lastWrite_append_singleton,
        lastWrite_append_singleton]
      cases access with
      | read a data => exact ih (retains.of_append nofun)
      | write a data mask =>
          simp only [moved]
          by_cases here : addr = a ∧ mask i = true
          · rw [if_pos here, if_pos ⟨congrArg place here.1, here.2⟩]
          · have there : ¬ (place addr = place a ∧ mask i = true) := by
              rintro ⟨together, covers⟩
              obtain same | ⟨_, _, found, _⟩ :=
                retains log a data mask [] rfl together.symm covers
              · exact here ⟨same.symm, covers⟩
              · cases found
            rw [if_neg here, if_neg there]
            refine ih (retains.of_append ?_)
            rintro _ _ ⟨⟩
            exact Bool.eq_false_iff.mpr fun covers => here ⟨rfl, covers⟩

end Ysyx.Lib
