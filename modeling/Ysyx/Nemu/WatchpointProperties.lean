import Ysyx.Nemu.Watchpoint
import Mathlib.Data.List.Perm.Basic
import Mathlib.Tactic.SplitIfs

/-! The pool is the registry of watchpoints: the head list runs through the active ones in
the order of their creation and the free list through all others. -/

set_option autoImplicit false

namespace Ysyx.Nemu

open Lib (Linked walk walkLast)

namespace WpPool

variable {pool : WpPool} {ptr i : WpPtr}

@[simp] theorem next_setNext (pool : WpPool) (ptr : WpPtr) (q : Option WpPtr) :
    (pool.setNext ptr q).next = Function.update pool.next ptr q := by
  funext i
  by_cases same : i = ptr
  · subst same
    simp [next, setNext]
  · simp [next, setNext, same]

@[simp] theorem next_setExpr (pool : WpPool) (ptr : WpPtr) (e : String) (value : BitVec 32) :
    (pool.setExpr ptr e value).next = pool.next := by
  funext i
  by_cases same : i = ptr
  · subst same
    simp [next, setExpr]
  · simp [next, setExpr, same]

/-- Relinking keeps everything else an entry holds. -/
@[simp] theorem fields_setNext (pool : WpPool) (ptr i : WpPtr) (q : Option WpPtr) :
    ((pool.setNext ptr q).wpPool i).NO = (pool.wpPool i).NO ∧
      ((pool.setNext ptr q).wpPool i).e = (pool.wpPool i).e ∧
      ((pool.setNext ptr q).wpPool i).value = (pool.wpPool i).value := by
  by_cases same : i = ptr
  · subst same
    simp [setNext]
  · simp [setNext, same]

@[simp] theorem number_setExpr (pool : WpPool) (ptr i : WpPtr) (e : String) (value : BitVec 32) :
    ((pool.setExpr ptr e value).wpPool i).NO = (pool.wpPool i).NO := by
  by_cases same : i = ptr
  · subst same
    simp [setExpr]
  · simp [setExpr, same]

/-- One entry has got a text and a value; nothing else but links and heads has changed. -/
structure Sets (pool pool' : WpPool) (ptr : WpPtr) (e : String) (value : BitVec 32) : Prop where
  number : ∀ i, (pool'.wpPool i).NO = (pool.wpPool i).NO
  others : ∀ i, i ≠ ptr → (pool'.wpPool i).e = (pool.wpPool i).e ∧
    (pool'.wpPool i).value = (pool.wpPool i).value
  here : (pool'.wpPool ptr).e = e ∧ (pool'.wpPool ptr).value = value

theorem sets_setExpr (pool : WpPool) (ptr : WpPtr) (e : String) (value : BitVec 32) :
    pool.Sets (pool.setExpr ptr e value) ptr e value where
  number := fun i => number_setExpr pool ptr i e value
  others := fun i other => by simp [setExpr, other]
  here := by simp [setExpr]

theorem Sets.setNext {pool' : WpPool} {e : String} {value : BitVec 32}
    (sets : pool.Sets pool' ptr e value) (a : WpPtr) (q : Option WpPtr) :
    pool.Sets (pool'.setNext a q) ptr e value where
  number := fun i => by rw [(fields_setNext _ _ _ _).1, sets.number i]
  others := fun i other => by
    rw [(fields_setNext _ _ _ _).2.1, (fields_setNext _ _ _ _).2.2]
    exact sets.others i other
  here := by
    rw [(fields_setNext _ _ _ _).2.1, (fields_setNext _ _ _ _).2.2]
    exact sets.here

/-- Relinking first makes no difference. -/
theorem Sets.of_setNext {pool' : WpPool} {e : String} {value : BitVec 32} {a : WpPtr}
    {q : Option WpPtr} (sets : (pool.setNext a q).Sets pool' ptr e value) :
    pool.Sets pool' ptr e value where
  number := fun i => by rw [sets.number i, (fields_setNext _ _ _ _).1]
  others := fun i other => by
    rw [(sets.others i other).1, (sets.others i other).2]
    exact (fields_setNext _ _ _ _).2
  here := sets.here

end WpPool

/-- The numbers of the active watchpoints, in their order. -/
def Registry.numbers (registry : Registry) : List WpPtr := registry.active.map (·.no)

/-- The pool holds the watchpoints of the registry. -/
structure Represents (pool : WpPool) (registry : Registry) : Prop where
  head : Linked pool.next pool.head registry.numbers
  free : Linked pool.next pool.free_ registry.free
  once : (registry.numbers ++ registry.free).Perm (List.finRange nrWp)
  number : ∀ i, (pool.wpPool i).NO = i.val
  entry : ∀ watchpoint ∈ registry.active, (pool.wpPool watchpoint.no).e = watchpoint.e ∧
    (pool.wpPool watchpoint.no).value = watchpoint.value
  order : registry.active.Pairwise fun a b => a.born < b.born
  born : ∀ watchpoint ∈ registry.active, watchpoint.born < registry.created

namespace Represents

variable {pool : WpPool} {registry : Registry}

theorem nodup (represents : Represents pool registry) :
    (registry.numbers ++ registry.free).Nodup :=
  represents.once.nodup_iff.mpr (List.nodup_finRange nrWp)

theorem length_le (represents : Represents pool registry) :
    registry.numbers.length + registry.free.length = nrWp := by
  have length := represents.once.length_eq
  simpa using length

theorem init : Represents initWpPool Registry.init where
  head := rfl
  free := by decide
  once := List.Perm.refl _
  number := fun _ => rfl
  entry := fun _ member => absurd member List.not_mem_nil
  order := List.Pairwise.nil
  born := fun _ member => absurd member List.not_mem_nil

/-- The first free entry is in neither list afterwards. -/
theorem fresh (represents : Represents pool registry) {no : WpPtr} {free : List WpPtr}
    (available : registry.free = no :: free) : no ∉ registry.numbers ∧ no ∉ free := by
  have nodup := represents.nodup
  rw [available, List.nodup_middle] at nodup
  have outside := (List.nodup_cons.mp nodup).1
  rw [List.mem_append] at outside
  exact not_or.mp outside

/-- What a new entry at the end of the head list makes of the pool. -/
theorem create (represents : Represents pool registry) {no : WpPtr} {free : List WpPtr}
    (available : registry.free = no :: free) {pool' : WpPool} {e : String} {value : BitVec 32}
    (sets : pool.Sets pool' no e value)
    (headList : Linked pool'.next pool'.head (registry.numbers ++ [no]))
    (freeList : Linked pool'.next pool'.free_ free) :
    Represents pool' ⟨registry.active ++ [⟨no, e, value, registry.created⟩], free,
      registry.created + 1⟩ := by
  have numbers : (Registry.mk (registry.active ++ [⟨no, e, value, registry.created⟩]) free
      (registry.created + 1)).numbers = registry.numbers ++ [no] := by
    simp [Registry.numbers]
  refine ⟨numbers ▸ headList, freeList, ?_,
    fun i => (sets.number i).trans (represents.number i), ?_, ?_, ?_⟩
  · rw [numbers, List.append_assoc, List.singleton_append, ← available]
    exact represents.once
  · intro watchpoint member
    rcases List.mem_append.mp member with old | new
    · have other : watchpoint.no ≠ no := by
        rintro rfl
        exact (represents.fresh available).1 (List.mem_map_of_mem old)
      rw [(sets.others _ other).1, (sets.others _ other).2]
      exact represents.entry watchpoint old
    · obtain rfl := List.mem_singleton.mp new
      exact sets.here
  · rw [List.pairwise_append]
    refine ⟨represents.order, List.pairwise_singleton _ _, fun a old b new => ?_⟩
    obtain rfl := List.mem_singleton.mp new
    exact represents.born a old
  · intro watchpoint member
    rcases List.mem_append.mp member with old | new
    · exact Nat.lt_succ_of_lt (represents.born watchpoint old)
    · obtain rfl := List.mem_singleton.mp new
      exact Nat.lt_succ_self _

/-- `new_wp` takes the first free entry and puts it at the end of the head list. -/
theorem newWp (represents : Represents pool registry) {no : WpPtr} {free : List WpPtr}
    (available : registry.free = no :: free) {e : String} (short : e.length < 32)
    (value : BitVec 32) :
    ∃ pool', pool.newWp e value = some (no, pool') ∧
      Represents pool' ⟨registry.active ++ [⟨no, e, value, registry.created⟩], free,
        registry.created + 1⟩ := by
  obtain ⟨notActive, notFree⟩ := represents.fresh available
  have nodup := represents.nodup
  have length := represents.length_le
  have freeList := represents.free
  rw [available] at freeList nodup
  obtain ⟨first, rest⟩ := freeList
  have fits : ¬ 32 ≤ e.length := by omega
  simp only [WpPool.newWp, first, fits, if_false]
  -- the entry taken from the free list
  generalize claimed : ({ pool with free_ := pool.next no }.setNext no none).setExpr no e value =
    pool₁
  have sets : pool.Sets pool₁ no e value := by
    have sets := WpPool.sets_setExpr ({ pool with free_ := pool.next no }.setNext no none) no e value
    rw [claimed] at sets
    have sets := sets.of_setNext
    exact ⟨sets.number, sets.others, sets.here⟩
  have links : pool₁.next = Function.update pool.next no none := by
    rw [← claimed, WpPool.next_setExpr, WpPool.next_setNext]
    rfl
  have head₁ : pool₁.head = pool.head := by rw [← claimed]; rfl
  have free₁ : pool₁.free_ = pool.next no := by rw [← claimed]; rfl
  have active₁ : Linked pool₁.next pool.head registry.numbers := by
    rw [links]
    exact represents.head.update notActive none
  have freeList₁ : Linked pool₁.next pool₁.free_ free := by
    rw [links, free₁]
    exact rest.update notFree none
  have ends : pool₁.next no = none := by rw [links, Function.update_self]
  rw [head₁]
  cases start : pool.head with
  | none =>
      rw [start] at active₁
      have empty : registry.numbers = [] := active₁.eq_nil
      refine ⟨{ pool₁ with head := some no }, rfl,
        represents.create available ⟨sets.number, sets.others, sets.here⟩ ?_ freeList₁⟩
      rw [empty]
      exact ⟨rfl, ends⟩
  | some p =>
      rw [start] at active₁
      obtain ⟨l, x, numbers⟩ := active₁.exists_last
      rw [numbers] at active₁ length notActive
      rw [numbers, List.append_assoc, List.singleton_append] at nodup
      have enough : l.length < WpPool.turns := by
        simp only [List.length_append, List.length_singleton, WpPool.turns] at length ⊢
        omega
      have walked := active₁.walkLast_eq enough
      rw [List.nodup_middle, List.nodup_cons] at nodup
      have unlike : no ≠ x := by
        rintro rfl
        exact notActive (by simp)
      have notBefore : x ∉ l := fun member => nodup.1 (List.mem_append_left _ member)
      have notFree' : x ∉ free := fun member =>
        nodup.1 (List.mem_append_right _ (List.mem_cons_of_mem no member))
      refine ⟨pool₁.setNext x (some no), by simp [walked],
        represents.create available (sets.setNext x (some no)) ?_ ?_⟩
      · have head' : (pool₁.setNext x (some no)).head = some p := head₁.trans start
        rw [WpPool.next_setNext, head', numbers, List.append_assoc]
        refine active₁.relink notBefore ⟨rfl, ?_⟩
        rw [Function.update_of_ne unlike]
        exact ends
      · rw [WpPool.next_setNext]
        exact freeList₁.update notFree' (some no)

/-- What an entry taken out of the head list makes of the pool. -/
theorem remove (represents : Represents pool registry) {l r : List Watchpoint} {w : Watchpoint}
    (active : registry.active = l ++ w :: r) {pool' : WpPool} {e : String} {value : BitVec 32}
    (sets : pool.Sets pool' w.no e value)
    (headList : Linked pool'.next pool'.head (l.map (·.no) ++ r.map (·.no)))
    (freeList : Linked pool'.next pool'.free_ (w.no :: registry.free)) :
    Represents pool' ⟨l ++ r, w.no :: registry.free, registry.created⟩ := by
  have nodup := represents.nodup
  have once := represents.once
  have entry := represents.entry
  have order := represents.order
  have born := represents.born
  simp only [Registry.numbers, active, List.map_append, List.map_cons, List.append_assoc,
    List.cons_append] at nodup once
  rw [active] at entry order born
  rw [List.nodup_middle, List.nodup_cons] at nodup
  have kept : (l ++ r).Sublist (l ++ w :: r) :=
    List.Sublist.append (List.Sublist.refl l) (List.sublist_cons_self w r)
  refine ⟨?_, freeList, ?_, fun i => (sets.number i).trans (represents.number i), ?_,
    order.sublist kept, fun watchpoint member => born watchpoint (kept.subset member)⟩
  · simpa [Registry.numbers] using headList
  · refine List.Perm.trans ?_ once
    simp only [Registry.numbers, List.map_append, List.append_assoc]
    exact List.Perm.append_left _ List.perm_middle
  · intro watchpoint member
    have other : watchpoint.no ≠ w.no := by
      intro same
      apply nodup.1
      rw [← same, ← List.append_assoc, ← List.map_append]
      exact List.mem_append_left _ (List.mem_map_of_mem member)
    rw [(sets.others _ other).1, (sets.others _ other).2]
    exact entry watchpoint (kept.subset member)

/-- `free_wp` unlinks the entry and puts it in front of the free list. -/
theorem freeWp (represents : Represents pool registry) {l r : List Watchpoint} {w : Watchpoint}
    (active : registry.active = l ++ w :: r) :
    ∃ pool', pool.freeWp w.no = some pool' ∧
      Represents pool' ⟨l ++ r, w.no :: registry.free, registry.created⟩ := by
  have numbers : registry.numbers = l.map (·.no) ++ w.no :: r.map (·.no) := by
    simp [Registry.numbers, active]
  have nodup := represents.nodup
  have length := represents.length_le
  have headList := represents.head
  rw [numbers] at nodup length headList
  have unique := nodup.of_append_left
  have whole := nodup
  rw [List.append_assoc, List.cons_append, List.nodup_middle, List.nodup_cons] at nodup
  have outside := nodup.1
  have notFree : w.no ∉ registry.free := fun member =>
    outside (List.mem_append_right _ (List.mem_append_right _ member))
  -- what is left to do when the head list no longer contains the entry
  have freed : ∀ pool₁ : WpPool, Linked pool₁.next pool₁.head (l.map (·.no) ++ r.map (·.no)) →
      Linked pool₁.next pool₁.free_ registry.free →
      (∀ pool', pool₁.Sets pool' w.no "" 0#32 → pool.Sets pool' w.no "" 0#32) →
      Represents (({ pool₁.setNext w.no pool₁.free_ with free_ := some w.no }).setExpr w.no "" 0#32)
        ⟨l ++ r, w.no :: registry.free, registry.created⟩ := by
    intro pool₁ headList₁ freeList₁ same
    have links : (({ pool₁.setNext w.no pool₁.free_ with free_ := some w.no }).setExpr w.no ""
        0#32).next = Function.update pool₁.next w.no pool₁.free_ := by
      rw [WpPool.next_setExpr]
      exact WpPool.next_setNext _ _ _
    have sets := (WpPool.sets_setExpr { pool₁.setNext w.no pool₁.free_ with free_ := some w.no }
      w.no "" 0#32)
    refine represents.remove active (same _ ?_) ?_ ?_
    · exact WpPool.Sets.of_setNext ⟨sets.number, sets.others, sets.here⟩
    · rw [links]
      refine headList₁.update ?_ pool₁.free_
      rw [← List.append_assoc] at outside
      exact fun member => outside (List.mem_append_left _ member)
    · rw [links]
      refine ⟨rfl, ?_⟩
      rw [Function.update_self]
      exact freeList₁.update notFree pool₁.free_
  rw [WpPool.freeWp]
  rcases List.eq_nil_or_concat l with rfl | ⟨l', a, rfl⟩
  · obtain ⟨start, rest⟩ := headList
    simp only [start, if_true, Option.map_some]
    refine ⟨_, rfl, freed { pool with head := pool.next w.no } rest represents.free ?_⟩
    exact fun pool' sets => ⟨sets.number, sets.others, sets.here⟩
  · simp only [List.concat_eq_append, List.map_append, List.map_cons, List.map_nil,
      List.append_assoc, List.cons_append, List.nil_append] at headList unique length freed whole ⊢
    rw [List.nodup_middle, List.nodup_cons] at whole
    have notBefore : a.no ∉ l'.map (·.no) := fun member => whole.1 (List.mem_append_left _ member)
    have notAfter : a.no ∉ r.map (·.no) := fun member =>
      whole.1 (List.mem_append_right _ (List.mem_cons_of_mem _ (List.mem_append_left _ member)))
    have notSpare : a.no ∉ registry.free := fun member =>
      whole.1 (List.mem_append_right _ (List.mem_cons_of_mem _ (List.mem_append_right _ member)))
    have turns : (l'.map (·.no) ++ a.no :: w.no :: r.map (·.no)).length < WpPool.turns := by
      rw [WpPool.turns]
      omega
    have walked := headList.walk_eq (fun tmp => pool.next tmp == some w.no) turns
    rw [headList.find_before unique] at walked
    cases start : pool.head with
    | none =>
        rw [start] at headList
        have empty := headList.eq_nil
        simp at empty
    | some h =>
        rw [start] at headList walked
        have apart : ¬ w.no = h := by
          rintro rfl
          have member := headList.first_mem
          rw [← List.singleton_append, ← List.append_assoc, List.nodup_middle,
            List.nodup_cons] at unique
          exact unique.1 (List.mem_append_left _ member)
        simp only [apart, if_false, walked, Option.bind_some, Option.map_some]
        refine ⟨_, rfl, freed (pool.setNext a.no (pool.next w.no)) ?_ ?_ ?_⟩
        · have head' : (pool.setNext a.no (pool.next w.no)).head = some h := start
          rw [WpPool.next_setNext, head']
          exact headList.relink notBefore (headList.tail.2.update notAfter _)
        · rw [WpPool.next_setNext]
          exact represents.free.update notSpare _
        · exact fun pool' sets => sets.of_setNext

/-- `delete_wp` finds the entry by its number. -/
theorem deleteWp_eq (represents : Represents pool registry) (n : Int) :
    pool.deleteWp n =
      some ((registry.active.find? fun watchpoint => watchpoint.no.val == n).map (·.no)) := by
  have length := represents.length_le
  have turns : registry.numbers.length < WpPool.turns := by
    rw [WpPool.turns]
    omega
  rw [WpPool.deleteWp, represents.head.walk_eq _ turns, Registry.numbers, List.find?_map]
  congr 3
  funext watchpoint
  simp only [Function.comp_apply, represents.number]

theorem filter_eq (represents : Represents pool registry) {l r : List Watchpoint} {w : Watchpoint}
    (active : registry.active = l ++ w :: r) :
    (registry.active.filter fun watchpoint => watchpoint.no != w.no) = l ++ r := by
  have nodup := represents.nodup.of_append_left
  rw [Registry.numbers, active, List.map_append, List.map_cons, List.nodup_middle,
    List.nodup_cons, ← List.map_append] at nodup
  have others : ∀ watchpoint ∈ l ++ r, (watchpoint.no != w.no) = true := by
    intro watchpoint member
    rw [bne_iff_ne]
    intro same
    exact nodup.1 (same ▸ List.mem_map_of_mem member)
  have kept := List.filter_eq_self.mpr others
  rw [List.filter_append] at kept
  rw [active, List.filter_append, List.filter_cons_of_neg (by simp), kept]

/-- One command does to the pool what it does to the registry. -/
theorem cmd (represents : Represents pool registry) {cmd : WpCmd} {registry' : Registry}
    (short : ∀ e value, cmd = .w e value → e.length < 32)
    (reached : registry.cmd cmd = some registry') :
    ∃ pool', pool.cmd cmd = some pool' ∧ Represents pool' registry' := by
  cases cmd with
  | w e value =>
      simp only [Registry.cmd] at reached
      cases available : registry.free with
      | nil => simp [available] at reached
      | cons no free =>
          simp only [available] at reached
          obtain rfl := Option.some.inj reached
          obtain ⟨pool', made, represents'⟩ :=
            represents.newWp available (short e value rfl) value
          exact ⟨pool', by simp [WpPool.cmd, made], represents'⟩
  | d n =>
      simp only [Registry.cmd] at reached
      simp only [WpPool.cmd, represents.deleteWp_eq, Option.bind_some]
      cases found : registry.active.find? fun watchpoint => watchpoint.no.val == n with
      | none =>
          simp only [found] at reached
          obtain rfl := Option.some.inj reached
          exact ⟨pool, rfl, represents⟩
      | some w =>
          simp only [found] at reached
          obtain rfl := Option.some.inj reached
          obtain ⟨_, l, r, active, _⟩ := List.find?_eq_some_iff_append.mp found
          obtain ⟨pool', freed, represents'⟩ := represents.freeWp active
          rw [represents.filter_eq active]
          exact ⟨pool', freed, represents'⟩

theorem cmds (represents : Represents pool registry) {cmds : List WpCmd} {registry' : Registry}
    (short : ∀ e value, .w e value ∈ cmds → e.length < 32)
    (reached : registry.cmds cmds = some registry') :
    ∃ pool', pool.cmds cmds = some pool' ∧ Represents pool' registry' := by
  induction cmds generalizing pool registry with
  | nil =>
      obtain rfl := Option.some.inj reached
      exact ⟨pool, rfl, represents⟩
  | cons first rest ih =>
      obtain ⟨middle, one, more⟩ := Option.bind_eq_some_iff.mp reached
      obtain ⟨pool₁, stepped, represents₁⟩ := represents.cmd
        (fun e value same => short e value (same ▸ List.mem_cons_self)) one
      obtain ⟨pool', ran, represents'⟩ := ih represents₁
        (fun e value member => short e value (List.mem_cons_of_mem first member)) more
      exact ⟨pool', by rw [WpPool.cmds, stepped]; exact ran, represents'⟩

end Represents

/-- For every sequence of commands that does not exhaust the pool: no assertion fails, the two
lists hold each entry exactly once, the active one in the order of creation with the texts and
the values given, and deleting a number that is not in use changes nothing. -/
theorem watchpoints_refine (cmds : List WpCmd)
    (short : ∀ e value, .w e value ∈ cmds → e.length < 32) (registry : Registry)
    (reached : Registry.init.cmds cmds = some registry) :
    ∃ pool, initWpPool.cmds cmds = some pool ∧ Represents pool registry ∧
      ∀ n : Int, (∀ watchpoint ∈ registry.active, (watchpoint.no.val : Int) ≠ n) →
        pool.cmd (.d n) = some pool := by
  obtain ⟨pool, ran, represents⟩ := Represents.init.cmds short reached
  refine ⟨pool, ran, represents, fun n unknown => ?_⟩
  have none_ : (registry.active.find? fun watchpoint => watchpoint.no.val == n) = none := by
    rw [List.find?_eq_none]
    intro watchpoint member same
    exact unknown watchpoint member (by simpa using same)
  simp [WpPool.cmd, represents.deleteWp_eq, none_]

/-- Two watchpoints are set, the first is deleted, and its entry is used again. -/
theorem watchpoints_refine_reuse :
    ∃ pool, initWpPool.cmds [.w "$a0" 1#32, .w "$a1" 2#32, .d 0, .w "$a2" 3#32] = some pool ∧
      Represents pool ⟨[⟨⟨1, by decide⟩, "$a1", 2#32, 1⟩, ⟨⟨0, by decide⟩, "$a2", 3#32, 2⟩],
        (List.finRange nrWp).drop 2, 3⟩ := by
  have short : ∀ e value,
      WpCmd.w e value ∈ [.w "$a0" 1#32, .w "$a1" 2#32, .d 0, .w "$a2" 3#32] → e.length < 32 := by
    intro e value member
    simp only [List.mem_cons, WpCmd.w.injEq, reduceCtorEq, false_or, List.not_mem_nil,
      or_false] at member
    rcases member with ⟨rfl, _⟩ | ⟨rfl, _⟩ | ⟨rfl, _⟩ <;> decide
  obtain ⟨pool, ran, represents, _⟩ := watchpoints_refine _ short _ rfl
  exact ⟨pool, ran, represents⟩

end Ysyx.Nemu
