import Mathlib.Logic.Function.Basic
import Mathlib.Tactic.SplitIfs

/-! A register slice with a spare register between a source and the selected one of several
sinks: it is a queue of at most two items, and its source may be told late that it is full. -/

set_option autoImplicit false

namespace Ysyx.Lib

variable {ι β : Type}

/-- `valid` says for which sink the item in `out` is. -/
structure Skid (ι β : Type) where
  ready : Bool
  valid : ι → Bool
  out : β
  temp : β
  tempValid : Bool

namespace Skid

variable (skid : Skid ι β) (sel : ι) (sinkReady push : Bool) (item : β)

/-- The slice can take an item in the next cycle. -/
def early : Bool := sinkReady || (!skid.tempValid && (!skid.valid sel || !push))

variable [DecidableEq ι]

def next : Skid ι β :=
  let ready := skid.early sel sinkReady push
  if skid.ready then
    if sinkReady || !skid.valid sel then
      { skid with ready := ready, valid := Function.update skid.valid sel push, out := item }
    else { skid with ready := ready, temp := item, tempValid := push }
  else if sinkReady then
    { skid with
      ready := ready
      valid := Function.update skid.valid sel skid.tempValid
      out := skid.temp
      tempValid := false }
  else { skid with ready := ready }

theorem next_ready : (skid.next sel sinkReady push item).ready = skid.early sel sinkReady push := by
  rw [next]
  split_ifs
  all_goals rfl

omit [DecidableEq ι]

/-- The items on their way to the selected sink, the oldest first. -/
def contents : List β :=
  (if skid.valid sel then [skid.out] else []) ++ (if skid.tempValid then [skid.temp] else [])

/-- What the sink takes in a cycle. -/
def given : List β := if skid.valid sel && sinkReady then [skid.out] else []

/-- What the slice takes in a cycle. -/
def taken : List β := if skid.ready && push then [item] else []

/-- The spare register fills last, and only after the slice has said that it is full. -/
structure Ordered : Prop where
  spare : skid.tempValid = true → skid.valid sel = true
  ready : skid.ready = true → skid.tempValid = false
  others : ∀ i, i ≠ sel → skid.valid i = false

variable {skid sel}

theorem contents_eq_nil (ordered : skid.Ordered sel) :
    skid.contents sel = [] ↔ skid.valid sel = false := by
  constructor
  · intro empty
    cases valid : skid.valid sel with
    | false => rfl
    | true => simp [contents, valid] at empty
  · intro valid
    have spare : skid.tempValid = false := by
      rw [Bool.eq_false_iff]
      intro spare
      rw [ordered.spare spare] at valid
      cases valid
    simp [contents, valid, spare]

/-- An empty slice may be turned to another sink. -/
theorem Ordered.turn (ordered : skid.Ordered sel) (empty : skid.contents sel = []) (sel' : ι) :
    skid.Ordered sel' ∧ skid.contents sel' = [] := by
  have valid := (contents_eq_nil ordered).mp empty
  have spare : skid.tempValid = false := by
    rw [Bool.eq_false_iff]
    intro spare
    rw [ordered.spare spare] at valid
    cases valid
  have none (i : ι) : skid.valid i = false := by
    by_cases here : i = sel
    · rw [here, valid]
    · exact ordered.others i here
  refine ⟨⟨?_, fun _ => spare, fun i _ => none i⟩, ?_⟩
  · rw [spare]
    nofun
  · simp [contents, none, spare]

variable [DecidableEq ι]

/-- What was in the slice and what it takes is what it gives and what is then in it. -/
theorem Ordered.contents_next (ordered : skid.Ordered sel) (sinkReady push : Bool) (item : β) :
    skid.contents sel ++ skid.taken push item =
      skid.given sel sinkReady ++ (skid.next sel sinkReady push item).contents sel := by
  have spare := ordered.spare
  have ready := ordered.ready
  cases isReady : skid.ready <;> cases isValid : skid.valid sel <;> cases sinkReady <;>
    cases isSpare : skid.tempValid <;>
      simp_all [contents, taken, given, next]

/-- The slice gives its oldest items; what it takes goes behind the rest. -/
theorem Ordered.exists_rest (ordered : skid.Ordered sel) (sinkReady push : Bool) (item : β) :
    ∃ rest, skid.contents sel = skid.given sel sinkReady ++ rest ∧
      (skid.next sel sinkReady push item).contents sel = rest ++ skid.taken push item := by
  obtain ⟨rest, split⟩ : ∃ rest, skid.contents sel = skid.given sel sinkReady ++ rest := by
    rw [contents, given]
    cases skid.valid sel <;> cases sinkReady <;> simp
  have kept := ordered.contents_next sinkReady push item
  rw [split, List.append_assoc] at kept
  exact ⟨rest, split, (List.append_cancel_left kept).symm⟩

theorem Ordered.next (ordered : skid.Ordered sel) (sinkReady push : Bool) (item : β) :
    (skid.next sel sinkReady push item).Ordered sel := by
  have spare := ordered.spare
  have ready := ordered.ready
  have others := ordered.others
  cases isReady : skid.ready <;> cases isValid : skid.valid sel <;> cases sinkReady <;>
    cases isSpare : skid.tempValid <;> cases push <;>
      constructor <;> simp_all [Skid.next, early, Function.update_of_ne]

/-- An empty slice that takes nothing stays empty. -/
theorem Ordered.valid_next (ordered : skid.Ordered sel) (valid : skid.valid sel = false)
    (sinkReady : Bool) (item : β) : (skid.next sel sinkReady false item).valid sel = false := by
  have kept := ordered.contents_next sinkReady false item
  rw [(contents_eq_nil ordered).mpr valid] at kept
  simp only [taken, Bool.and_false, Bool.false_eq_true, if_false, List.append_nil,
    List.nil_eq_append_iff] at kept
  exact (contents_eq_nil (ordered.next sinkReady false item)).mp kept.2

end Skid

end Ysyx.Lib
