import Mathlib.Data.List.Nodup
import Mathlib.Data.List.Perm.Basic
import Mathlib.Data.Sum.Basic
import Mathlib.Logic.Function.Basic

/-! Circular doubly linked lists of nodes that carry their own links. A node that is on no
list is linked to itself, so that removing it changes nothing. -/

set_option autoImplicit false

namespace Ysyx.Lib

/-- The two links of every node. -/
structure Links (ν : Type) where
  next : ν → ν
  prev : ν → ν

namespace Links

variable {ν : Type}

/-- Every node alone. -/
def init (ν : Type) : Links ν := ⟨id, id⟩

section Operations

variable [DecidableEq ν]

def setNext (links : Links ν) (a b : ν) : Links ν :=
  { links with next := fun c => if c = a then b else links.next c }

def setPrev (links : Links ν) (a b : ν) : Links ν :=
  { links with prev := fun c => if c = a then b else links.prev c }

def insertAfter (links : Links ν) (l n : ν) : Links ν :=
  let links := links.setPrev (links.next l) n
  let links := links.setNext n (links.next l)
  let links := links.setNext l n
  links.setPrev n l

def insertBefore (links : Links ν) (l n : ν) : Links ν :=
  let links := links.setNext (links.prev l) n
  let links := links.setPrev n (links.prev l)
  let links := links.setPrev l n
  links.setNext n l

def remove (links : Links ν) (n : ν) : Links ν :=
  let links := links.setPrev (links.next n) (links.prev n)
  let links := links.setNext (links.prev n) (links.next n)
  let links := links.setPrev n n
  links.setNext n n

def isEmpty (links : Links ν) (l : ν) : Bool := links.next l = l

end Operations

/-- The two links are inverse to each other. -/
structure Wired (links : Links ν) : Prop where
  prev_next : ∀ a, links.prev (links.next a) = a
  next_prev : ∀ a, links.next (links.prev a) = a

/-- From `a` the links run through the nodes of the list to `b`. -/
def Path (next : ν → ν) : ν → List ν → ν → Prop
  | a, [], b => next a = b
  | a, x :: xs, b => next a = x ∧ Path next x xs b

/-- The list with the head `h` holds the nodes `xs`, first to last. -/
structure Holds (links : Links ν) (h : ν) (xs : List ν) : Prop where
  path : Path links.next h xs h
  nodup : (h :: xs).Nodup

variable {links : Links ν} {a b h l n x : ν} {xs ys : List ν}

theorem wired_init : (init ν).Wired := ⟨fun _ => rfl, fun _ => rfl⟩

namespace Wired

theorem next_eq (wired : links.Wired) : links.next a = b ↔ a = links.prev b :=
  ⟨fun next => by rw [← next, wired.prev_next], fun prev => by rw [prev, wired.next_prev]⟩

theorem alone_prev (wired : links.Wired) (alone : links.next a = a) : links.prev a = a :=
  (wired.next_eq.mp alone).symm

end Wired

/-!
## The operations on wired links
-/

section Operations

variable [DecidableEq ν]

theorem Wired.insertAfter (wired : links.Wired) (other : l ≠ n) (alone : links.next n = n) :
    (links.insertAfter l n).Wired := by
  have := wired.prev_next
  have := wired.next_prev
  have := wired.alone_prev alone
  constructor
  · intro a
    simp only [Links.insertAfter, setPrev, setNext]
    grind
  · intro a
    simp only [Links.insertAfter, setPrev, setNext]
    grind

theorem Wired.insertBefore (wired : links.Wired) (other : l ≠ n) (alone : links.next n = n) :
    (links.insertBefore l n).Wired := by
  have := wired.prev_next
  have := wired.next_prev
  have := wired.alone_prev alone
  constructor
  · intro a
    simp only [Links.insertBefore, setPrev, setNext]
    grind
  · intro a
    simp only [Links.insertBefore, setPrev, setNext]
    grind

theorem Wired.remove (wired : links.Wired) (n : ν) : (links.remove n).Wired := by
  have := wired.prev_next
  have := wired.next_prev
  constructor
  · intro a
    simp only [Links.remove, setPrev, setNext]
    grind
  · intro a
    simp only [Links.remove, setPrev, setNext]
    grind

theorem insertAfter_next (links : Links ν) (l n c : ν) : (links.insertAfter l n).next c =
    if c = l then n else if c = n then links.next l else links.next c := rfl

theorem insertBefore_next (links : Links ν) (l n c : ν) : (links.insertBefore l n).next c =
    if c = n then l else if c = links.prev l then n else links.next c := rfl

theorem Wired.remove_next (wired : links.Wired) (n c : ν) : (links.remove n).next c =
    if c = n then n else if c = links.prev n then links.next n else links.next c := by
  have := wired.prev_next n
  simp only [Links.remove, setPrev, setNext]
  grind

end Operations

/-!
## Paths
-/

namespace Path

variable {next next' : ν → ν}

theorem congr (path : Path next a xs b) (same : ∀ c ∈ a :: xs, next c = next' c) :
    Path next' a xs b := by
  induction xs generalizing a with
  | nil => exact (same a List.mem_cons_self).symm.trans path
  | cons x xs ih =>
      obtain ⟨here, rest⟩ := path
      refine ⟨(same a List.mem_cons_self).symm.trans here, ih rest ?_⟩
      exact fun c member => same c (List.mem_cons_of_mem a member)

theorem append : Path next a (xs ++ x :: ys) b ↔ Path next a xs x ∧ Path next x ys b := by
  induction xs generalizing a with
  | nil => exact Iff.rfl
  | cons y xs ih =>
      change (_ ∧ Path next y (xs ++ x :: ys) b) ↔ (_ ∧ Path next y xs x) ∧ _
      rw [ih, and_assoc]

theorem next_mem {c : ν} (path : Path next a xs b) (member : c ∈ a :: xs) :
    next c ∈ xs ++ [b] := by
  induction xs generalizing a with
  | nil =>
      obtain rfl := List.mem_singleton.mp member
      exact List.mem_singleton.mpr path
  | cons x xs ih =>
      obtain ⟨here, rest⟩ := path
      rcases List.mem_cons.mp member with rfl | later
      · exact here ▸ List.mem_cons_self
      · exact List.mem_cons_of_mem x (ih rest later)

/-- Where the link into `b` is turned to `n`, the path leads to `n`. -/
theorem redirect [DecidableEq ν] (path : Path next a xs b) (fresh : b ∉ xs)
    (turned : ∀ c ∈ a :: xs, next' c = if next c = b then n else next c) :
    Path next' a xs n := by
  induction xs generalizing a with
  | nil => exact (turned a List.mem_cons_self).trans (if_pos path)
  | cons x xs ih =>
      obtain ⟨here, rest⟩ := path
      have other : next a ≠ b := fun same => fresh (same ▸ here ▸ List.mem_cons_self)
      refine ⟨((turned a List.mem_cons_self).trans (if_neg other)).trans here, ih rest ?_ ?_⟩
      · exact fun member => fresh (List.mem_cons_of_mem x member)
      · exact fun c member => turned c (List.mem_cons_of_mem a member)

end Path

/-!
## What the lists hold
-/

namespace Holds

theorem congr {links' : Links ν} (holds : links.Holds h xs)
    (same : ∀ c ∈ h :: xs, links.next c = links'.next c) : links'.Holds h xs :=
  ⟨holds.path.congr same, holds.nodup⟩

theorem next_head (holds : links.Holds h (x :: xs)) : links.next h = x := holds.path.1

/-- A node that is alone is on no list. -/
theorem not_mem_of_alone (holds : links.Holds h xs) (alone : links.next n = n) (other : h ≠ n) :
    n ∉ xs := by
  intro member
  obtain ⟨ys, zs, rfl⟩ := List.append_of_mem member
  have onward := (Path.append.mp holds.path).2
  cases zs with
  | nil => exact other (onward.symm.trans alone)
  | cons z zs =>
      have nodup := (List.nodup_cons.mp holds.nodup).2.of_append_right
      have back : z = n := onward.1.symm.trans alone
      exact (List.nodup_cons.mp nodup).1 (back ▸ List.mem_cons_self)

theorem next_mem {c : ν} (holds : links.Holds h xs) (member : c ∈ h :: xs) :
    links.next c ∈ h :: xs := by
  have := holds.path.next_mem member
  simpa [or_comm] using this

section Operations

variable [DecidableEq ν]

theorem isEmpty_iff (holds : links.Holds h xs) : links.isEmpty h = true ↔ xs = [] := by
  rw [Links.isEmpty, decide_eq_true_iff]
  cases xs with
  | nil => exact iff_of_true holds.path rfl
  | cons x xs =>
      refine iff_of_false (fun alone => ?_) (List.cons_ne_nil x xs)
      have same : x = h := holds.next_head.symm.trans alone
      exact (List.nodup_cons.mp holds.nodup).1 (same ▸ List.mem_cons_self)

theorem insertAfter (holds : links.Holds h xs) (other : h ≠ n) (alone : links.next n = n) :
    (links.insertAfter h n).Holds h (n :: xs) := by
  have absent := holds.not_mem_of_alone alone other
  obtain ⟨outside, nodup⟩ := List.nodup_cons.mp holds.nodup
  constructor
  · refine ⟨(insertAfter_next links h n h).trans (if_pos rfl), ?_⟩
    have start : (links.insertAfter h n).next n = links.next h :=
      (insertAfter_next links h n n).trans ((if_neg other.symm).trans (if_pos rfl))
    have rest : ∀ c ∈ xs, links.next c = (links.insertAfter h n).next c := by
      intro c member
      rw [insertAfter_next, if_neg (ne_of_mem_of_not_mem member outside),
        if_neg (ne_of_mem_of_not_mem member absent)]
    cases xs with
    | nil => exact start.trans holds.path
    | cons x xs => exact ⟨start.trans holds.path.1, holds.path.2.congr rest⟩
  · simp only [List.nodup_cons, List.mem_cons, not_or]
    exact ⟨⟨other, outside⟩, absent, nodup⟩

theorem insertBefore (holds : links.Holds h xs) (wired : links.Wired) (other : h ≠ n)
    (alone : links.next n = n) : (links.insertBefore h n).Holds h (xs ++ [n]) := by
  have absent := holds.not_mem_of_alone alone other
  obtain ⟨outside, nodup⟩ := List.nodup_cons.mp holds.nodup
  constructor
  · refine Path.append.mpr ⟨holds.path.redirect outside ?_, ?_⟩
    · intro c member
      have apart : c ≠ n := by
        rintro rfl
        exact (List.mem_cons.mp member).elim other.symm absent
      simp only [insertBefore_next, if_neg apart, ← wired.next_eq]
    · exact (insertBefore_next links h n n).trans (if_pos rfl)
  · rw [List.nodup_cons, List.mem_append, List.mem_singleton, not_or]
    refine ⟨⟨outside, other⟩, List.nodup_append.mpr ⟨nodup, List.nodup_singleton n, ?_⟩⟩
    intro c member d single
    rw [List.mem_singleton.mp single]
    exact ne_of_mem_of_not_mem member absent

/-- A node comes before another one of the list. -/
theorem insertBefore_mem (holds : links.Holds h (xs ++ x :: ys)) (wired : links.Wired)
    (other : h ≠ n) (alone : links.next n = n) :
    (links.insertBefore x n).Holds h (xs ++ n :: x :: ys) := by
  have absent := holds.not_mem_of_alone alone other
  obtain ⟨outside, nodup⟩ := List.nodup_cons.mp holds.nodup
  obtain ⟨left, right, apart⟩ := List.nodup_append.mp nodup
  have notLeft : x ∉ xs := fun here => apart x here x List.mem_cons_self rfl
  obtain ⟨before, after⟩ := Path.append.mp holds.path
  rw [List.mem_append, not_or] at absent
  constructor
  · refine Path.append.mpr ⟨before.redirect notLeft ?_, ?_, after.congr ?_⟩
    · intro c member
      have apart : c ≠ n := by
        rintro rfl
        exact (List.mem_cons.mp member).elim other.symm absent.1
      simp only [insertBefore_next, if_neg apart, ← wired.next_eq]
    · exact (insertBefore_next links x n n).trans (if_pos rfl)
    · intro c member
      have onward := after.next_mem member
      have notBack : links.next c ≠ x := by
        intro same
        rw [same, List.mem_append, List.mem_singleton] at onward
        rcases onward with later | head
        · exact (List.nodup_cons.mp right).1 later
        · exact outside (head ▸ List.mem_append_right _ List.mem_cons_self)
      rw [insertBefore_next, if_neg (ne_of_mem_of_not_mem member absent.2),
        if_neg (mt wired.next_eq.mpr notBack)]
  · have moved : (n :: (h :: (xs ++ x :: ys))).Perm (h :: (xs ++ n :: x :: ys)) :=
      (List.Perm.swap h n _).trans (List.perm_middle.symm.cons h)
    refine moved.nodup_iff.mp (List.nodup_cons.mpr ⟨?_, holds.nodup⟩)
    rw [List.mem_cons, List.mem_append, not_or, not_or]
    exact ⟨other.symm, absent⟩

theorem remove (holds : links.Holds h (xs ++ n :: ys)) (wired : links.Wired) :
    (links.remove n).Holds h (xs ++ ys) := by
  obtain ⟨outside, nodup⟩ := List.nodup_cons.mp holds.nodup
  obtain ⟨left, right, apart⟩ := List.nodup_append.mp nodup
  have absentRight := (List.nodup_cons.mp right).1
  have absentLeft : n ∉ xs := fun here => apart n here n List.mem_cons_self rfl
  have headOther : n ≠ h := fun same =>
    outside (same ▸ List.mem_append_right _ List.mem_cons_self)
  obtain ⟨before, after⟩ := Path.append.mp holds.path
  constructor
  · have first : Path (links.remove n).next h xs (links.next n) := by
      refine before.redirect absentLeft fun c here => ?_
      have other : c ≠ n := by
        rintro rfl
        exact (List.mem_cons.mp here).elim headOther absentLeft
      simp only [wired.remove_next, if_neg other, ← wired.next_eq]
    cases ys with
    | nil =>
        have last : links.next n = h := after
        rw [List.append_nil, ← last]
        exact last ▸ first
    | cons y ys =>
        refine Path.append.mpr ⟨after.1 ▸ first, after.2.congr fun c here => ?_⟩
        have onward := after.next_mem (List.mem_cons_of_mem n here)
        have notBack : links.next c ≠ n := by
          intro same
          rw [same, List.mem_append, List.mem_singleton] at onward
          exact onward.elim absentRight headOther
        rw [wired.remove_next, if_neg (ne_of_mem_of_not_mem here absentRight),
          if_neg (mt wired.next_eq.mpr notBack)]
  · refine holds.nodup.sublist ?_
    exact ((List.sublist_cons_self n ys).append_left xs).cons_cons h

/-! A list that the operation does not touch. -/

theorem insertAfter_other (holds : links.Holds h xs) (list : l ∉ h :: xs) (node : n ∉ h :: xs) :
    (links.insertAfter l n).Holds h xs := by
  refine holds.congr fun c member => ?_
  rw [insertAfter_next, if_neg (ne_of_mem_of_not_mem member list),
    if_neg (ne_of_mem_of_not_mem member node)]

theorem insertBefore_other (holds : links.Holds h xs) (wired : links.Wired) (list : l ∉ h :: xs)
    (node : n ∉ h :: xs) : (links.insertBefore l n).Holds h xs := by
  refine holds.congr fun c member => ?_
  have notInto : links.next c ≠ l := fun same => list (same ▸ holds.next_mem member)
  rw [insertBefore_next, if_neg (ne_of_mem_of_not_mem member node),
    if_neg (mt wired.next_eq.mpr notInto)]

theorem remove_other (holds : links.Holds h xs) (wired : links.Wired) (node : n ∉ h :: xs) :
    (links.remove n).Holds h xs := by
  refine holds.congr fun c member => ?_
  have notInto : links.next c ≠ n := fun same => node (same ▸ holds.next_mem member)
  rw [wired.remove_next, if_neg (ne_of_mem_of_not_mem member node),
    if_neg (mt wired.next_eq.mpr notInto)]

end Operations

end Holds

/-!
## Families of lists
-/

/-- Lists with the heads `ι` over the elements `τ`: each element is on the list that `queue`
has it on, and on no other. -/
structure Lists {ι τ : Type} (links : Links (ι ⊕ τ)) (queue : ι → List τ) : Prop where
  wired : links.Wired
  holds : ∀ h, links.Holds (.inl h) ((queue h).map .inr)
  one : ∀ {h h' t}, t ∈ queue h → t ∈ queue h' → h = h'
  alone : ∀ {t}, (∀ h, t ∉ queue h) → links.next (.inr t) = .inr t

namespace Lists

variable {ι τ : Type} {links : Links (ι ⊕ τ)} {queue : ι → List τ} {h : ι} {t x : τ} {l l' : List τ}

theorem init (ι τ : Type) : (Links.init (ι ⊕ τ)).Lists fun _ => [] where
  wired := wired_init
  holds _ := ⟨rfl, List.nodup_singleton _⟩
  one member := absurd member List.not_mem_nil
  alone _ := rfl

theorem nodup (lists : links.Lists queue) (h : ι) : (queue h).Nodup :=
  (List.nodup_cons.mp (lists.holds h).nodup).2.of_map _

/-- The node that a list starts with, where it ends with the head `h`. -/
def start (h : ι) : List τ → ι ⊕ τ
  | [] => .inl h
  | t :: _ => .inr t

theorem next_head (lists : links.Lists queue) (h : ι) :
    links.next (.inl h) = start h (queue h) := by
  have path := (lists.holds h).path
  cases listed : queue h with
  | nil =>
      rw [listed] at path
      exact path
  | cons t l =>
      rw [listed] at path
      exact path.1

theorem next_mem (lists : links.Lists queue) (split : queue h = l ++ t :: l') :
    links.next (.inr t) = start h l' := by
  have path := (lists.holds h).path
  rw [split, List.map_append, List.map_cons] at path
  have onward := (Path.append.mp path).2
  cases l' with
  | nil => exact onward
  | cons t' l' => exact onward.1

/-- What the list of another head is made of is neither the head nor what is not on it. -/
theorem not_mem {h' : ι} (other : h ≠ h') (absent : t ∉ queue h') :
    .inl h ∉ (.inl h' : ι ⊕ τ) :: (queue h').map .inr ∧
      .inr t ∉ (.inl h' : ι ⊕ τ) :: (queue h').map .inr := by
  constructor
  · simp [other]
  · simpa using absent

theorem not_mem_remove [DecidableEq τ] (lists : links.Lists queue) (t : τ) (h : ι) :
    t ∉ (queue h).erase t :=
  (lists.nodup h).not_mem_erase

/-- An element that was on no list comes to the list of `h`, which becomes `l`. -/
theorem insert [DecidableEq ι] {links' : Links (ι ⊕ τ)} (lists : links.Lists queue)
    (absent : ∀ h, t ∉ queue h)
    (wired : links'.Wired) (here : links'.Holds (.inl h) (l.map .inr))
    (elsewhere : ∀ h', h ≠ h' → links'.Holds (.inl h') ((queue h').map .inr))
    (gained : ∀ y, y ∈ l ↔ y = t ∨ y ∈ queue h)
    (same : ∀ y, y ≠ t → links.next (.inr y) = .inr y → links'.next (.inr y) = .inr y) :
    links'.Lists (Function.update queue h l) where
  wired := wired
  holds h' := by
    rcases eq_or_ne h' h with rfl | other
    · rwa [Function.update_self]
    · rw [Function.update_of_ne other]
      exact elsewhere h' other.symm
  one {h₁ h₂ y} first second := by
    rw [Function.update_apply] at first second
    have := gained y
    have := absent h₁
    have := absent h₂
    have := @lists.one
    grind
  alone {y} nowhere := by
    have notHere := nowhere h
    rw [Function.update_self, gained, not_or] at notHere
    refine same y notHere.1 (lists.alone fun h' => ?_)
    rcases eq_or_ne h' h with rfl | other
    · exact notHere.2
    · have := nowhere h'
      rwa [Function.update_of_ne other] at this

section Operations

variable [DecidableEq ι] [DecidableEq τ]

theorem isEmpty_iff (lists : links.Lists queue) :
    links.isEmpty (.inl h) = true ↔ queue h = [] := by
  rw [(lists.holds h).isEmpty_iff, List.map_eq_nil_iff]

theorem insertAfter (lists : links.Lists queue) (absent : ∀ h, t ∉ queue h) (h : ι) :
    (links.insertAfter (.inl h) (.inr t)).Lists (Function.update queue h (t :: queue h)) := by
  have alone := lists.alone absent
  refine lists.insert absent (lists.wired.insertAfter Sum.inl_ne_inr alone)
    ((lists.holds h).insertAfter Sum.inl_ne_inr alone) ?_ (fun _ => List.mem_cons) ?_
  · intro h' other
    obtain ⟨list, node⟩ := not_mem other (absent h')
    exact (lists.holds h').insertAfter_other list node
  · intro y other self
    rw [insertAfter_next, if_neg Sum.inr_ne_inl, if_neg (Sum.inr_injective.ne other), self]

theorem insertBefore (lists : links.Lists queue) (absent : ∀ h, t ∉ queue h) (h : ι) :
    (links.insertBefore (.inl h) (.inr t)).Lists (Function.update queue h (queue h ++ [t])) := by
  have alone := lists.alone absent
  refine lists.insert absent (lists.wired.insertBefore Sum.inl_ne_inr alone) ?_ ?_ ?_ ?_
  · rw [List.map_append]
    exact (lists.holds h).insertBefore lists.wired Sum.inl_ne_inr alone
  · intro h' other
    obtain ⟨list, node⟩ := not_mem other (absent h')
    exact (lists.holds h').insertBefore_other lists.wired list node
  · intro y
    rw [List.mem_append, List.mem_singleton, or_comm]
  · intro y other self
    have notLast : (.inr y : ι ⊕ τ) ≠ links.prev (.inl h) := by
      intro last
      rw [← lists.wired.next_eq, self] at last
      cases last
    rw [insertBefore_next, if_neg (Sum.inr_injective.ne other), if_neg notLast, self]

/-- An element comes before another one of its list. -/
theorem insertBefore_mem (lists : links.Lists queue) (absent : ∀ h, t ∉ queue h)
    (split : queue h = l ++ x :: l') :
    (links.insertBefore (.inr x) (.inr t)).Lists
      (Function.update queue h (l ++ t :: x :: l')) := by
  have alone := lists.alone absent
  have member : x ∈ queue h := by simp [split]
  have other : x ≠ t := ne_of_mem_of_not_mem member (absent h)
  refine lists.insert absent
    (lists.wired.insertBefore (Sum.inr_injective.ne other) alone) ?_ ?_ ?_ ?_
  · have holds := lists.holds h
    rw [split, List.map_append, List.map_cons] at holds
    rw [List.map_append, List.map_cons, List.map_cons]
    exact holds.insertBefore_mem lists.wired Sum.inl_ne_inr alone
  · intro h' apart
    have absent' : x ∉ queue h' := fun also => apart (lists.one member also)
    exact (lists.holds h').insertBefore_other lists.wired (not_mem apart absent').2
      (not_mem apart (absent h')).2
  · intro y
    rw [split]
    simp only [List.mem_append, List.mem_cons]
    tauto
  · intro y different self
    have notLast : (.inr y : ι ⊕ τ) ≠ links.prev (.inr x) := by
      intro last
      rw [← lists.wired.next_eq, self] at last
      obtain rfl := Sum.inr_injective last
      have onward := (lists.holds h).not_mem_of_alone self Sum.inl_ne_inr
      exact onward (List.mem_map_of_mem member)
    rw [insertBefore_next, if_neg (Sum.inr_injective.ne different), if_neg notLast, self]

theorem remove (lists : links.Lists queue) (t : τ) :
    (links.remove (.inr t)).Lists fun h => (queue h).erase t where
  wired := lists.wired.remove (.inr t)
  holds h := by
    by_cases member : t ∈ queue h
    · obtain ⟨l, l', split⟩ := List.append_of_mem member
      have nodup := lists.nodup h
      have holds := lists.holds h
      rw [split] at nodup holds
      have absent : t ∉ l := fun here =>
        (List.nodup_append.mp nodup).2.2 t here t List.mem_cons_self rfl
      rw [List.map_append, List.map_cons] at holds
      rw [split, List.erase_append_right _ absent, List.erase_cons_head, List.map_append]
      exact holds.remove lists.wired
    · rw [List.erase_of_not_mem member]
      exact (lists.holds h).remove_other lists.wired (by simpa using member)
  one first second := lists.one (List.mem_of_mem_erase first) (List.mem_of_mem_erase second)
  alone {y} nowhere := by
    rw [lists.wired.remove_next]
    split
    · next same => exact same.symm
    · next other =>
        have different : y ≠ t := fun same => other (congrArg Sum.inr same)
        have self : links.next (.inr y) = .inr y :=
          lists.alone fun h member => nowhere h ((List.mem_erase_of_ne different).mpr member)
        rw [if_neg fun into => other (self.symm.trans (lists.wired.next_eq.mpr into)), self]

end Operations

end Lists

end Links

end Ysyx.Lib
