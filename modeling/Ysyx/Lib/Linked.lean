import Mathlib.Data.List.Nodup
import Mathlib.Logic.Function.Basic

/-! Singly linked lists threaded through an array of nodes: `next` is the link of each
node, and a pointer is a node or nothing. -/

set_option autoImplicit false

namespace Ysyx.Lib

variable {ι : Type} {next next' : ι → Option ι} {p : Option ι} {l r : List ι} {a b x : ι}

/-- From the pointer on the links run through the nodes of the list and end. -/
def Linked (next : ι → Option ι) : Option ι → List ι → Prop
  | p, [] => p = none
  | p, a :: l => p = some a ∧ Linked next (next a) l

instance decidableLinked [DecidableEq ι] (next : ι → Option ι) :
    ∀ (p : Option ι) (l : List ι), Decidable (Linked next p l)
  | p, [] => inferInstanceAs (Decidable (p = none))
  | _, a :: l =>
      haveI := decidableLinked next (next a) l
      inferInstanceAs (Decidable (_ ∧ _))

/-- `while (p != NULL && !stop(p)) p = p->next`; nothing when the turns do not suffice. -/
def walk (next : ι → Option ι) (stop : ι → Bool) : Nat → Option ι → Option (Option ι)
  | 0, _ => none
  | _ + 1, none => some none
  | turns + 1, some a => if stop a then some (some a) else walk next stop turns (next a)

/-- `while (p->next) p = p->next`. -/
def walkLast (next : ι → Option ι) : Nat → ι → Option ι
  | 0, _ => none
  | turns + 1, a =>
      match next a with
      | none => some a
      | some b => walkLast next turns b

namespace Linked

theorem congr (linked : Linked next p l) (same : ∀ a ∈ l, next a = next' a) :
    Linked next' p l := by
  induction l generalizing p with
  | nil => exact linked
  | cons a l ih =>
      obtain ⟨here, rest⟩ := linked
      refine ⟨here, ?_⟩
      rw [← same a List.mem_cons_self]
      exact ih rest fun b member => same b (List.mem_cons_of_mem a member)

theorem eq_nil (linked : Linked next none l) : l = [] := by
  cases l with
  | nil => rfl
  | cons a l => cases linked.1

theorem exists_last (linked : Linked next (some a) l) : ∃ l' x, l = l' ++ [x] := by
  cases l with
  | nil => cases linked
  | cons b l => exact ⟨_, _, (List.dropLast_append_getLast (List.cons_ne_nil b l)).symm⟩

theorem first_mem (linked : Linked next (some b) (l ++ a :: r)) : b ∈ l ++ [a] := by
  cases l with
  | nil =>
      obtain rfl := Option.some.inj linked.1
      exact List.mem_singleton_self b
  | cons c l =>
      obtain rfl := Option.some.inj linked.1
      exact List.mem_cons_self

/-- A link outside the list may change. -/
theorem update [DecidableEq ι] (linked : Linked next p l) (outside : a ∉ l) (q : Option ι) :
    Linked (Function.update next a q) p l := by
  apply linked.congr
  intro b member
  rw [Function.update_of_ne]
  rintro rfl
  exact outside member

/-- The link of the last node before `r` is the pointer to `r`. -/
theorem tail (linked : Linked next p (l ++ a :: r)) : Linked next (next a) r := by
  induction l generalizing p with
  | nil => exact linked.2
  | cons b l ih => exact ih linked.2

/-- Relinking a node of the list changes what comes after it. -/
theorem relink [DecidableEq ι] {q : Option ι} {r' : List ι}
    (linked : Linked next p (l ++ a :: r)) (fresh : a ∉ l)
    (after : Linked (Function.update next a q) q r') :
    Linked (Function.update next a q) p (l ++ a :: r') := by
  induction l generalizing p with
  | nil =>
      refine ⟨linked.1, ?_⟩
      rw [Function.update_self]
      exact after
  | cons b l ih =>
      obtain ⟨here, rest⟩ := linked
      refine ⟨here, ?_⟩
      rw [Function.update_of_ne (List.ne_of_not_mem_cons fresh).symm]
      exact ih rest (List.not_mem_of_not_mem_cons fresh)

theorem walk_eq (linked : Linked next p l) (stop : ι → Bool) {turns : Nat}
    (enough : l.length < turns) : walk next stop turns p = some (l.find? stop) := by
  induction l generalizing p turns with
  | nil =>
      obtain ⟨turns, rfl⟩ := Nat.exists_eq_succ_of_ne_zero (Nat.ne_of_gt enough)
      obtain rfl := linked
      rfl
  | cons a l ih =>
      obtain ⟨turns, rfl⟩ := Nat.exists_eq_succ_of_ne_zero (Nat.ne_zero_of_lt enough)
      obtain ⟨rfl, rest⟩ := linked
      rw [walk]
      cases stopped : stop a with
      | true => simp [stopped]
      | false => simpa [stopped] using ih rest (Nat.lt_of_succ_lt_succ enough)

theorem walkLast_eq (linked : Linked next (some a) (l ++ [x])) {turns : Nat}
    (enough : l.length < turns) : walkLast next turns a = some x := by
  induction l generalizing a turns with
  | nil =>
      obtain ⟨turns, rfl⟩ := Nat.exists_eq_succ_of_ne_zero (Nat.ne_of_gt enough)
      obtain ⟨here, rest⟩ := linked
      obtain rfl := Option.some.inj here
      have ends : next a = none := rest
      simp only [walkLast, ends]
  | cons b l ih =>
      obtain ⟨turns, rfl⟩ := Nat.exists_eq_succ_of_ne_zero (Nat.ne_zero_of_lt enough)
      obtain ⟨here, rest⟩ := linked
      obtain rfl := Option.some.inj here
      obtain ⟨c, link⟩ : ∃ c, next a = some c := by
        cases l with
        | nil => exact ⟨_, rest.1⟩
        | cons c l => exact ⟨c, rest.1⟩
      rw [link] at rest
      simp only [walkLast, link]
      exact ih rest (Nat.lt_of_succ_lt_succ enough)

/-- The node found by its link is the one before. -/
theorem find_before [DecidableEq ι] (linked : Linked next p (l ++ a :: b :: r))
    (nodup : (l ++ a :: b :: r).Nodup) :
    (l ++ a :: b :: r).find? (fun i => next i == some b) = some a := by
  have found : next a = some b := linked.tail.1
  induction l generalizing p with
  | nil => simp [found]
  | cons c l ih =>
      obtain ⟨_, rest⟩ := linked
      obtain ⟨fresh, distinct⟩ := List.nodup_cons.mp nodup
      have other : next c ≠ some b := by
        intro same
        rw [same] at rest
        cases l with
        | nil =>
            obtain rfl := Option.some.inj rest.1
            simp at distinct
        | cons d l =>
            obtain rfl := Option.some.inj rest.1
            simp at distinct
      rw [List.cons_append, List.find?_cons_of_neg (by simpa using other)]
      exact ih rest distinct

end Linked

end Ysyx.Lib
