import Ysyx.Npc.IcacheProperties

/-! How long a line stays in the two ways of its set: a refill clears the valid bit of the
other way, so a set never holds two lines. -/

set_option autoImplicit false

namespace Ysyx.Npc

open Rv32 (Word)
open Lib (Machine)

/-!
## Refills
-/

/-- The line that a beat of the memory is written to in this cycle. -/
def IcacheSystem.refill (sys : IcacheSystem) : Option (BitVec 3 × BitVec 1) :=
  if sys.cache.state = .memRdata ∧ sys.beats = true then
    some (sys.cache.cacheIndex, sys.cache.waySel)
  else none

/-- The way holds the line with this tag. -/
def Icache.Resident (cache : Icache) (index : BitVec 3) (way : BitVec 1) (tag : BitVec 26) : Prop :=
  (cache.dataValid index).getLsbD way.toNat = true ∧ cache.tagArray index way = tag

/-- Whether a fetch of the address hits, as logged when it is accepted. -/
def Icache.hits (cache : Icache) (addr : Word) : Bool :=
  cache.holds addr 0#1 || cache.holds addr 1#1

section Step

variable {run : IcacheRun} {input : IcacheInput}

theorem step_cache (noFence : input.fence = false) :
    (icacheMachine.step input run).sys.cache = run.sys.cache.caseStep (run.sys.bus input) := by
  have fence : (run.sys.bus input).fence = false := noFence
  change run.sys.cache.next (run.sys.bus input) = _
  rw [Icache.next, fence]
  rfl

/-- A beat makes its way the only valid one of the set; nothing else touches the arrays. -/
theorem arrays_next (noFence : input.fence = false) :
    match run.sys.refill with
    | some (index, way) =>
        (icacheMachine.step input run).sys.cache.dataValid =
            (fun i => if i = index then 1#2 <<< way.toNat else run.sys.cache.dataValid i) ∧
          (icacheMachine.step input run).sys.cache.tagArray =
            setWay run.sys.cache.tagArray index way run.sys.cache.cacheTag
    | none =>
        (icacheMachine.step input run).sys.cache.dataValid = run.sys.cache.dataValid ∧
          (icacheMachine.step input run).sys.cache.tagArray = run.sys.cache.tagArray := by
  rw [step_cache noFence, Icache.caseStep, IcacheSystem.refill]
  cases state : run.sys.cache.state with
  | memRdata =>
      cases beats : run.sys.beats with
      | true =>
          have taken : ((run.sys.bus input).memRvalid && run.sys.cache.memRready) = true := beats
          simp [Icache.rdataStep, Icache.defaults, taken]
      | false =>
          have taken : ((run.sys.bus input).memRvalid && run.sys.cache.memRready) = false := beats
          simp [Icache.rdataStep, Icache.defaults, taken]
  | idle =>
      simp only [reduceCtorEq, false_and, if_false, Icache.idleStep]
      split_ifs <;> exact ⟨rfl, rfl⟩
  | checkCache =>
      simp only [reduceCtorEq, false_and, if_false, Icache.checkStep]
      cases run.sys.cache.checkCache run.sys.cache.cacheTag <;> exact ⟨rfl, rfl⟩
  | memAraddr =>
      simp only [reduceCtorEq, false_and, if_false, Icache.araddrStep]
      split_ifs <;> exact ⟨rfl, rfl⟩
  | updateArray => exact ⟨rfl, rfl⟩
  | instrFetch =>
      simp only [reduceCtorEq, false_and, if_false, Icache.fetchStep]
      split_ifs <;> exact ⟨rfl, rfl⟩

/-- A beat clears the other way of its set. -/
theorem other_way_cleared {index : BitVec 3} {way other : BitVec 1} (noFence : input.fence = false)
    (refill : run.sys.refill = some (index, way)) (distinct : other ≠ way) :
    ((icacheMachine.step input run).sys.cache.dataValid index).getLsbD other.toNat = false := by
  have next := @arrays_next run input noFence
  rw [refill] at next
  rw [congrFun next.1 index, if_pos rfl]
  have ways : ∀ other way : BitVec 1, other ≠ way →
      (1#2 <<< way.toNat).getLsbD other.toNat = false := by decide
  exact ways other way distinct

/-- A line survives a cycle in which no beat falls in its set. -/
theorem Icache.Resident.next {index : BitVec 3} {way : BitVec 1} {tag : BitVec 26}
    (resident : run.sys.cache.Resident index way tag) (noFence : input.fence = false)
    (other : ∀ w, run.sys.refill ≠ some (index, w)) :
    (icacheMachine.step input run).sys.cache.Resident index way tag := by
  have next := @arrays_next run input noFence
  cases refill : run.sys.refill with
  | none =>
      rw [refill] at next
      rw [Icache.Resident, next.1, next.2]
      exact resident
  | some place =>
      obtain ⟨i, w⟩ := place
      have apart : index ≠ i := by
        rintro rfl
        exact other w refill
      rw [refill] at next
      rw [Icache.Resident, congrFun next.1 index, next.2, if_neg apart,
        setWay_index_ne _ _ _ _ apart]
      exact resident

theorem way_cases : ∀ way : BitVec 1, way = 0#1 ∨ way = 1#1 := by decide

theorem Icache.Resident.hits {cache : Icache} {way : BitVec 1} {addr : Word}
    (resident : cache.Resident (indexOf addr) way (tagOf addr)) : cache.hits addr = true := by
  have held : cache.holds addr way = true := by
    rw [Icache.holds, resident.1, resident.2, beq_self_eq_true]
    rfl
  rw [Icache.hits]
  rcases way_cases way with rfl | rfl
  · rw [held, Bool.true_or]
  · rw [held, Bool.or_true]

/-- A set holds one line: another tag of the set misses. -/
theorem Icache.Resident.misses {cache : Icache} {way : BitVec 1} {tag : BitVec 26} {addr : Word}
    (oneWay : ∀ index, (cache.dataValid index).getLsbD 0 = true →
      (cache.dataValid index).getLsbD 1 = false)
    (resident : cache.Resident (indexOf addr) way tag) (distinct : tagOf addr ≠ tag) :
    cache.hits addr = false := by
  obtain ⟨valid, rfl⟩ := resident
  have one := oneWay (indexOf addr)
  rw [Icache.hits, Icache.holds, Icache.holds, Bool.or_eq_false_iff]
  rcases way_cases way with rfl | rfl
  · have other : (cache.dataValid (indexOf addr)).getLsbD 1 = false := one valid
    exact ⟨by rw [beq_eq_false_iff_ne.mpr distinct, Bool.and_false], by
      rw [show (1#1).toNat = 1 from rfl, other, Bool.false_and]⟩
  · have other : (cache.dataValid (indexOf addr)).getLsbD 0 = false := by
      rw [Bool.eq_false_iff]
      intro first
      exact absurd (one first) (by rw [show (1#1).toNat = 1 from rfl] at valid; simp [valid])
    exact ⟨by rw [show (0#1).toNat = 0 from rfl, other, Bool.false_and], by
      rw [beq_eq_false_iff_ne.mpr distinct, Bool.and_false]⟩

end Step

/-!
## The line of the last fetch
-/

/-- From the acceptance of a fetch on: its line is looked up, read, and then in the selected
way until the next fetch. -/
def Icache.Follows (cache : Icache) (index : BitVec 3) (tag : BitVec 26) : Prop :=
  match cache.state with
  | .checkCache =>
      cache.cacheTag = tag ∧ cache.cacheIndex = index ∧
        cache.icacheValid = cache.dataValid index ∧ cache.icacheTag = cache.tagArray index
  | .memAraddr | .memRdata => cache.cacheTag = tag ∧ cache.cacheIndex = index
  | .updateArray | .instrFetch | .idle => cache.Resident index cache.waySel tag

section Follow

variable {run : IcacheRun} {input : IcacheInput} {index : BitVec 3} {tag : BitVec 26}

theorem follows_of_accepts {req : FetchReq} (idle : run.sys.cache.state = .idle)
    (accepts : run.sys.accepts = some req) (noFence : input.fence = false) :
    (icacheMachine.step input run).sys.cache.Follows (indexOf req.addr) (tagOf req.addr) := by
  obtain ⟨taken, addr⟩ := bus_of_accepts accepts input
  rw [step_cache noFence, Icache.caseStep, idle]
  simp only [Icache.idleStep, taken, if_true, Icache.Follows, addr]
  exact ⟨rfl, rfl, rfl, rfl⟩

theorem checkCache_some {cache : Icache} {way : BitVec 1}
    (found : cache.checkCache tag = some way) :
    cache.icacheValid.getLsbD way.toNat = true ∧ cache.icacheTag way = tag := by
  rw [Icache.checkCache] at found
  split_ifs at found with first second
  · cases found
    simp only [Bool.and_eq_true, beq_iff_eq] at first
    exact ⟨first.1, first.2.symm⟩
  · cases found
    simp only [Bool.and_eq_true, beq_iff_eq] at second
    exact ⟨second.1, second.2.symm⟩

theorem Icache.Follows.next (follows : run.sys.cache.Follows index tag)
    (noFence : input.fence = false) (accepts : run.sys.accepts = none) :
    (icacheMachine.step input run).sys.cache.Follows index tag := by
  have idle := bus_of_not_accepts accepts input
  rw [step_cache noFence, Icache.caseStep]
  rw [Icache.Follows] at follows
  cases state : run.sys.cache.state with
  | idle =>
      rw [state] at follows
      simp only [Icache.idleStep, idle, Bool.false_eq_true, if_false, Icache.Follows,
        Icache.defaults, state]
      exact follows
  | checkCache =>
      rw [state] at follows
      obtain ⟨sameTag, sameIndex, valid, tags⟩ := follows
      simp only [Icache.checkStep, sameTag]
      cases found : run.sys.cache.checkCache tag with
      | some way =>
          obtain ⟨isValid, isTag⟩ := checkCache_some found
          rw [valid] at isValid
          rw [tags] at isTag
          exact ⟨isValid, isTag⟩
      | none => exact ⟨sameTag, sameIndex⟩
  | memAraddr =>
      rw [state] at follows
      simp only [Icache.araddrStep]
      split_ifs
      · exact follows
      · simp only [Icache.Follows, Icache.defaults, state]
        exact follows
  | memRdata =>
      rw [state] at follows
      obtain ⟨rfl, rfl⟩ := follows
      have ways : ∀ way : BitVec 1, (1#2 <<< way.toNat).getLsbD way.toNat = true := by decide
      simp only [Icache.rdataStep]
      split_ifs with beat last
      · simp only [Icache.Follows, Icache.Resident, Icache.defaults, if_true, setWay_same]
        exact ⟨ways _, trivial⟩
      · exact ⟨rfl, rfl⟩
      · simp only [Icache.Follows, Icache.defaults, state, and_self]
  | updateArray =>
      rw [state] at follows
      exact follows
  | instrFetch =>
      rw [state] at follows
      have same : ∀ cache : Icache, (cache.state = .idle ∨ cache.state = .instrFetch) →
          cache.Resident index cache.waySel tag → cache.Follows index tag := by
        rintro cache (here | here) resident <;> rw [Icache.Follows, here] <;> exact resident
      apply same
      · simp only [Icache.fetchStep]
        cases (run.sys.bus input).ifuRready || !run.sys.cache.ifuRvalid with
        | false => exact .inr state
        | true =>
            by_cases last : run.sys.cache.ifuRead.len = 0#8
            · exact .inl (if_pos last)
            · exact .inr (if_neg last)
      · simp only [Icache.fetchStep]
        cases (run.sys.bus input).ifuRready || !run.sys.cache.ifuRvalid <;> exact follows

end Follow

/-!
## Runs
-/

section Runs

variable (any : Icache) (inputs : Nat → IcacheInput)

/-- Lines stay in their way from cycle `a` to cycle `b`, unless their own way is refilled. -/
def LinesStay (a b : Nat) : Prop :=
  ∀ n m index way tag, a ≤ n → n ≤ m → m ≤ b →
    (icacheAt any inputs n).sys.cache.Resident index way tag →
    (∀ k, n ≤ k → k < m → (icacheAt any inputs k).sys.refill ≠ some (index, way)) →
    (icacheAt any inputs m).sys.cache.Resident index way tag

/-- No refill falls in a set whose other way is valid. -/
def OtherWayFree (a b : Nat) : Prop :=
  ∀ k index way, a ≤ k → k < b → (icacheAt any inputs k).sys.refill = some (index, way) →
    ((icacheAt any inputs k).sys.cache.dataValid index).getLsbD (way + 1#1).toNat = false

theorem way_add_one_ne : ∀ way : BitVec 1, way + 1#1 ≠ way := by decide

theorem eq_way_add_one : ∀ way other : BitVec 1, other ≠ way → way = other + 1#1 := by decide

theorem linesStay_iff {a b : Nat} (noFence : ∀ k, a ≤ k → k < b → (inputs k).fence = false) :
    LinesStay any inputs a b ↔ OtherWayFree any inputs a b := by
  constructor
  · intro stay k index way after before refill
    by_contra valid
    rw [Bool.not_eq_false] at valid
    have kept := stay k (k + 1) index (way + 1#1) _ after (Nat.le_succ k) before ⟨valid, rfl⟩
      (by
        intro j late early own
        obtain rfl : j = k := by omega
        exact way_add_one_ne way (congrArg Prod.snd (Option.some.inj (own.symm.trans refill))))
    have cleared := other_way_cleared (noFence k after before) refill (way_add_one_ne way)
    rw [icacheAt_succ] at kept
    rw [kept.1] at cleared
    cases cleared
  · intro free n m index way tag start later
    induction m, later using Nat.le_induction with
    | base => exact fun _ resident _ => resident
    | succ m later ih =>
        intro inside resident own
        have here := ih (by omega) resident fun k late early => own k late (by omega)
        rw [icacheAt_succ]
        refine here.next (noFence m (by omega) (by omega)) fun w refill => ?_
        have distinct : w ≠ way := by
          rintro rfl
          exact own m later (Nat.lt_succ_self m) refill
        have other := free m index w (by omega) (by omega) refill
        rw [eq_way_add_one way w distinct] at here
        rw [here.1] at other
        cases other

/-- The fetch accepted in a cycle misses. -/
def MissesAt (n : Nat) : Prop :=
  ∃ req, (icacheAt any inputs n).sys.accepts = some req ∧
    (icacheAt any inputs n).sys.cache.hits req.addr = false

/-- Fetches accepted in the cycles `cycle 0`, `cycle 1`, ... of two lines of a set in turn. -/
structure Alternates (cycle : Nat → Nat) (count : Nat) (index : BitVec 3)
    (even odd : BitVec 26) : Prop where
  fetch : ∀ j, j < count → ∃ req, (icacheAt any inputs (cycle j)).sys.accepts = some req ∧
    indexOf req.addr = index ∧ tagOf req.addr = if j % 2 = 0 then even else odd
  later : ∀ j, j + 1 < count → cycle j < cycle (j + 1)
  between : ∀ j k, j + 1 < count → cycle j < k → k < cycle (j + 1) →
    (icacheAt any inputs k).sys.accepts = none
  noFence : ∀ j k, j + 1 < count → cycle j ≤ k → k < cycle (j + 1) → (inputs k).fence = false

/-- No line of an alternation is missed twice. -/
def MissedOnce (cycle : Nat → Nat) (count : Nat) : Prop :=
  ∀ i j, i < j → j < count → i % 2 = j % 2 →
    ¬ (MissesAt any inputs (cycle i) ∧ MissesAt any inputs (cycle j))

theorem idle_of_accepts {n : Nat} {req : FetchReq}
    (accepts : (icacheAt any inputs n).sys.accepts = some req) :
    (icacheAt any inputs n).sys.cache.state = .idle := by
  simp only [IcacheSystem.accepts] at accepts
  split_ifs at accepts with ready
  exact (icacheInv_at inputs any n).ready ready

theorem follows_at {n m : Nat} {req : FetchReq} (later : n < m)
    (accepts : (icacheAt any inputs n).sys.accepts = some req)
    (between : ∀ k, n < k → k < m → (icacheAt any inputs k).sys.accepts = none)
    (noFence : ∀ k, n ≤ k → k < m → (inputs k).fence = false) :
    (icacheAt any inputs m).sys.cache.Follows (indexOf req.addr) (tagOf req.addr) := by
  induction m, later using Nat.le_induction with
  | base =>
      rw [icacheAt_succ]
      exact follows_of_accepts (idle_of_accepts any inputs accepts) accepts
        (noFence n (Nat.le_refl n) (Nat.lt_succ_self n))
  | succ m later ih =>
      have here := ih (fun k after before => between k after (by omega))
        (fun k after before => noFence k after (by omega))
      rw [icacheAt_succ]
      exact here.next (noFence m (by omega) (Nat.lt_succ_self m))
        (between m later (Nat.lt_succ_self m))

variable {any inputs}

/-- All fetches of an alternation but the first miss. -/
theorem Alternates.misses {cycle : Nat → Nat} {count : Nat} {index : BitVec 3}
    {even odd : BitVec 26} (alternates : Alternates any inputs cycle count index even odd)
    (distinct : even ≠ odd) {j : Nat} (bound : j + 1 < count) :
    MissesAt any inputs (cycle (j + 1)) := by
  obtain ⟨first, accepts, sameIndex, sameTag⟩ := alternates.fetch j (by omega)
  obtain ⟨second, accepts', sameIndex', sameTag'⟩ := alternates.fetch (j + 1) bound
  have follows := follows_at any inputs (alternates.later j bound) accepts
    (fun k after before => alternates.between j k bound after before)
    (fun k after before => alternates.noFence j k bound after before)
  rw [Icache.Follows, idle_of_accepts any inputs accepts', sameIndex, ← sameIndex'] at follows
  refine ⟨second, accepts', Icache.Resident.misses (icacheInv_at inputs any _).oneWay follows ?_⟩
  rw [sameTag, sameTag']
  rcases Nat.mod_two_eq_zero_or_one j with zero | one
  · have next : (j + 1) % 2 = 1 := by omega
    simp only [zero, next]
    exact distinct.symm
  · have next : (j + 1) % 2 = 0 := by omega
    simp only [one, next]
    exact distinct

theorem Alternates.missedOnce_iff {cycle : Nat → Nat} {count : Nat} {index : BitVec 3}
    {even odd : BitVec 26} (alternates : Alternates any inputs cycle count index even odd)
    (distinct : even ≠ odd) :
    MissedOnce any inputs cycle count ↔
      count ≤ 2 ∨ count = 3 ∧ ¬ MissesAt any inputs (cycle 0) := by
  constructor
  · intro once
    rcases Nat.lt_or_ge 2 count with many | few
    · right
      have three : count = 3 := by
        by_contra more
        exact once 1 3 (by decide) (by omega) rfl
          ⟨alternates.misses distinct (by omega), alternates.misses distinct (by omega)⟩
      exact ⟨three, fun miss => once 0 2 (by decide) (by omega) rfl
        ⟨miss, alternates.misses distinct (by omega)⟩⟩
    · exact .inl few
  · rintro few i j less bound parity ⟨missI, _⟩
    rcases few with few | ⟨rfl, hit⟩
    · omega
    · obtain rfl : i = 0 := by omega
      exact hit missI

variable (any inputs)

/-- A fetch of a line in the cache is logged as a hit. -/
theorem resident_logged {m : Nat} {req : FetchReq} {way : BitVec 1}
    (accepts : (icacheAt any inputs m).sys.accepts = some req)
    (resident : (icacheAt any inputs m).sys.cache.Resident (indexOf req.addr) way
      (tagOf req.addr)) :
    ∃ older since,
      (icacheAt any inputs (m + 1)).log.inFlight = older ++ [⟨req, since, true, []⟩] := by
  have hits := resident.hits
  rw [Icache.hits] at hits
  rw [icacheAt_succ]
  simp only [icacheMachine, IcacheLog.next, accepts, hits]
  exact ⟨_, _, rfl⟩

theorem hit_reads_nothing {m : Nat}
    (answers : (icacheAt any inputs m).sys.answers (inputs m) = true) :
    ∃ fetch rest, (icacheAt any inputs m).log.inFlight = fetch :: rest ∧
      (fetch.hit = true → fetch.reads = []) := by
  have transparent := (icacheInv_at inputs any m).transparent
  obtain ⟨fetch, rest, flight, complete, _⟩ := transparent.answer (by rwa [icacheAt_now])
  refine ⟨fetch, rest, flight, fun hit => ?_⟩
  rw [Fetch.Complete, hit] at complete
  exact complete

/-- Without a fence, lines stay exactly as long as no refill falls in a set whose other way is
valid, and a fetch of a line that stayed reads nothing; and two lines of a set fetched in
turn are missed once each exactly in the first two fetches, or three of which the first hits. -/
theorem icache_ways_iff :
    (∀ a b, (∀ k, a ≤ k → k < b → (inputs k).fence = false) →
      (LinesStay any inputs a b ↔ OtherWayFree any inputs a b)) ∧
    (∀ m req way, (icacheAt any inputs m).sys.accepts = some req →
      (icacheAt any inputs m).sys.cache.Resident (indexOf req.addr) way (tagOf req.addr) →
      ∃ older since,
        (icacheAt any inputs (m + 1)).log.inFlight = older ++ [⟨req, since, true, []⟩]) ∧
    (∀ m, (icacheAt any inputs m).sys.answers (inputs m) = true →
      ∃ fetch rest, (icacheAt any inputs m).log.inFlight = fetch :: rest ∧
        (fetch.hit = true → fetch.reads = [])) ∧
    ∀ cycle count index even odd, Alternates any inputs cycle count index even odd → even ≠ odd →
      (MissedOnce any inputs cycle count ↔
        count ≤ 2 ∨ count = 3 ∧ ¬ MissesAt any inputs (cycle 0)) :=
  ⟨fun _ _ noFence => linesStay_iff any inputs noFence,
    fun _ _ _ accepts resident => resident_logged any inputs accepts resident,
    fun _ answers => hit_reads_nothing any inputs answers,
    fun _ _ _ _ _ alternates distinct => alternates.missedOnce_iff distinct⟩

end Runs

/-- Everyone is ready in every cycle; the fetch unit asks for two lines of set 0 in turn. -/
def twoLines (n : Nat) : IcacheInput where
  want := some ⟨if n < 1 ∨ 5 ≤ n then 0x0c000000#30 else 0x0c000010#30, 0#4⟩
  ifuRready := true
  fence := false
  memArready := true
  memRaise := true
  idleData := 0#32
  idleLast := false
  mem := fun addr => addr

theorem twoLines_alternates :
    Alternates default twoLines (fun j => 1 + 8 * j) 3 0#3 0xc00000#26 0xc00001#26 := by
  have accepted : ∀ j : Fin 3, (icacheAt default twoLines (1 + 8 * j.val)).sys.accepts =
      some ⟨if j.val % 2 = 0 then 0x0c000000#30 else 0x0c000010#30, 0#4⟩ := by decide +kernel
  have silent : ∀ k : Fin 17, k.val % 8 ≠ 1 →
      (icacheAt default twoLines k.val).sys.accepts = none := by decide +kernel
  constructor
  · intro j bound
    refine ⟨_, accepted ⟨j, bound⟩, ?_⟩
    rcases Nat.mod_two_eq_zero_or_one j with zero | one
    · simp only [zero]
      decide
    · simp only [one]
      decide
  · intro j _
    omega
  · intro j k bound after before
    exact silent ⟨k, by omega⟩ (by simp only; omega)
  · intro j k _ _ _
    rfl

theorem icache_ways_two :
    MissedOnce default twoLines (fun j => 1 + 8 * j) 2 := by
  have whole := twoLines_alternates
  have pair : Alternates default twoLines (fun j => 1 + 8 * j) 2 0#3 0xc00000#26 0xc00001#26 :=
    ⟨fun j bound => whole.fetch j (by omega), fun j bound => whole.later j (by omega),
      fun j k bound => whole.between j k (by omega), fun j k bound => whole.noFence j k (by omega)⟩
  exact ((icache_ways_iff default twoLines).2.2.2 _ _ _ _ _ pair (by decide)).mpr
    (.inl (Nat.le_refl 2))

/-- The third fetch misses the line of the first one again. -/
theorem icache_ways_fails :
    ¬ ∀ (any : Icache) (inputs : Nat → IcacheInput) (cycle : Nat → Nat) (count : Nat)
      (index : BitVec 3) (even odd : BitVec 26),
      Alternates any inputs cycle count index even odd → even ≠ odd →
        MissedOnce any inputs cycle count := by
  intro always
  have once := always default twoLines _ _ _ _ _ twoLines_alternates (by decide)
  have first : MissesAt default twoLines 1 :=
    ⟨⟨0x0c000000#30, 0#4⟩, by decide +kernel, by decide +kernel⟩
  have third : MissesAt default twoLines 17 :=
    ⟨⟨0x0c000000#30, 0#4⟩, by decide +kernel, by decide +kernel⟩
  exact once 0 2 (by decide) (by decide) rfl ⟨first, third⟩

end Ysyx.Npc
