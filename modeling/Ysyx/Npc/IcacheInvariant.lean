import Ysyx.Npc.Icache
import Mathlib.Tactic.SplitIfs

/-! What one cycle of the cache keeps, state by state: the fetch in service and the word
held for the fetch unit are the fetches in flight, and every valid line holds what its
last refill read since the last fence. -/

set_option autoImplicit false

namespace Ysyx.Npc

open Rv32 (Word)
open Lib (Machine)

/-!
## Addresses and words
-/

theorem addr_and_not_seven (addr : Word) :
    addr &&& ~~~7#32 = lineAddr (tagOf addr) (indexOf addr) := by
  apply BitVec.eq_of_getLsbD_eq
  intro i bound
  have seven : (7#32).getLsbD i = decide (i < 3) := by
    have low : ∀ i : Fin 32, (7#32).getLsbD i.val = decide (i.val < 3) := by decide
    exact low ⟨i, bound⟩
  rw [lineAddr]
  simp only [BitVec.getLsbD_and, BitVec.getLsbD_not, seven, bound, decide_true, Bool.true_and]
  rw [BitVec.getLsbD_append, BitVec.getLsbD_append]
  simp only [tagOf, indexOf, BitVec.getLsbD_extractLsb', BitVec.getLsbD_zero]
  rcases Nat.lt_or_ge i 3 with low | high
  · simp [low]
  · rcases Nat.lt_or_ge i 6 with mid | top
    · simp [show ¬ i < 3 by omega, show i - 3 < 3 by omega, show 3 + (i - 3) = i by omega]
    · simp [show ¬ i < 3 by omega, show ¬ i - 3 < 3 by omega, show i - 3 - 3 < 26 by omega,
        show 6 + (i - 3 - 3) = i by omega]

theorem tagOf_lineAddr (tag : BitVec 26) (index : BitVec 3) : tagOf (lineAddr tag index) = tag := by
  apply BitVec.eq_of_getLsbD_eq
  intro i bound
  rw [tagOf, BitVec.getLsbD_extractLsb', lineAddr]
  rw [BitVec.getLsbD_append, BitVec.getLsbD_append]
  simp [bound, show ¬ 6 + i < 3 by omega, show ¬ 6 + i - 3 < 3 by omega,
    show 6 + i - 3 - 3 = i by omega]

theorem indexOf_lineAddr (tag : BitVec 26) (index : BitVec 3) :
    indexOf (lineAddr tag index) = index := by
  apply BitVec.eq_of_getLsbD_eq
  intro i bound
  rw [indexOf, BitVec.getLsbD_extractLsb', lineAddr]
  rw [BitVec.getLsbD_append, BitVec.getLsbD_append]
  simp [bound, show ¬ 3 + i < 3 by omega, show 3 + i - 3 = i by omega]

theorem getLsbD_addr_low (req : FetchReq) {i : Nat} (bound : i < 3) :
    req.addr.getLsbD i = (decide (i = 2) && req.addr.getLsbD 2) := by
  rcases Nat.lt_or_ge i 2 with low | high
  · have zero : req.addr.getLsbD i = false := by
      rw [FetchReq.addr, BitVec.getLsbD_append]
      simp [low]
    simp [zero, Nat.ne_of_lt low]
  · obtain rfl : i = 2 := by omega
    simp

/-- An aligned address is the first or the second word of its line. -/
theorem addr_cases (req : FetchReq) :
    (offsetOf req.addr = 0#3 ∧ req.addr = lineAddr (tagOf req.addr) (indexOf req.addr)) ∨
      (offsetOf req.addr = 4#3 ∧
        req.addr = lineAddr (tagOf req.addr) (indexOf req.addr) + 4#32) := by
  have seven : ∀ i : Fin 32, (7#32).getLsbD i.val = decide (i.val < 3) := by decide
  have four : ∀ i : Fin 32, (4#32).getLsbD i.val = decide (i.val = 2) := by decide
  have four' : ∀ i : Fin 3, (4#3).getLsbD i.val = decide (i.val = 2) := by decide
  have disjoint : (req.addr &&& ~~~7#32) &&& 4#32 = 0#32 := by
    rw [BitVec.and_assoc]
    exact (congrArg (req.addr &&& ·) (by decide : ~~~7#32 &&& 4#32 = 0#32)).trans BitVec.and_zero
  rw [← addr_and_not_seven, BitVec.add_eq_or_of_and_eq_zero _ _ disjoint]
  cases bit : req.addr.getLsbD 2 with
  | false =>
      refine .inl ⟨?_, ?_⟩ <;> apply BitVec.eq_of_getLsbD_eq <;> intro i bound
      · rw [offsetOf, BitVec.getLsbD_extractLsb', Nat.zero_add, getLsbD_addr_low req bound, bit]
        simp
      · simp only [BitVec.getLsbD_and, BitVec.getLsbD_not, seven ⟨i, bound⟩]
        by_cases low : i < 3
        · rw [getLsbD_addr_low req low, bit]
          simp
        · simp [low, bound]
  | true =>
      refine .inr ⟨?_, ?_⟩ <;> apply BitVec.eq_of_getLsbD_eq <;> intro i bound
      · rw [offsetOf, BitVec.getLsbD_extractLsb', Nat.zero_add, getLsbD_addr_low req bound, bit,
          four' ⟨i, bound⟩]
        simp [bound]
      · simp only [BitVec.getLsbD_or, BitVec.getLsbD_and, BitVec.getLsbD_not, seven ⟨i, bound⟩,
          four ⟨i, bound⟩]
        by_cases low : i < 3
        · simp [getLsbD_addr_low req low, bit, low]
        · simp [low, bound, show ¬ i = 2 by omega]

theorem Line.getLsbD_word (line : Line) (offset : BitVec 3) (i : Nat) :
    (line.word offset).getLsbD i = (decide (i < 32) && line.getLsbD (8 * offset.toNat + i)) := by
  rw [Line.word, BitVec.getLsbD_setWidth, BitVec.getLsbD_ushiftRight]

theorem Line.getLsbD_write (line : Line) (offset : BitVec 3) (data : Word) {i : Nat}
    (bound : i < 64) :
    (line.write offset data).getLsbD i =
      if 8 * offset.toNat ≤ i ∧ i < 8 * offset.toNat + 32 then
        data.getLsbD (i - 8 * offset.toNat) else line.getLsbD i := by
  have ones : ∀ k : Fin 64, (0xffffffff#64).getLsbD k.val = decide (k.val < 32) := by decide
  simp only [Line.write, BitVec.getLsbD_or, BitVec.getLsbD_and, BitVec.getLsbD_not,
    BitVec.getLsbD_shiftLeft, BitVec.getLsbD_setWidth, bound, decide_true, Bool.true_and]
  rw [ones ⟨i - 8 * offset.toNat, by omega⟩]
  rcases Nat.lt_or_ge i (8 * offset.toNat) with below | above
  · simp [below, Nat.not_le.mpr below]
  · rcases Nat.lt_or_ge i (8 * offset.toNat + 32) with inside | beyond
    · simp [Nat.not_lt.mpr above, above, inside, show i - 8 * offset.toNat < 32 by omega,
        show i - 8 * offset.toNat < 64 by omega]
    · simp [Nat.not_lt.mpr above, Nat.not_lt.mpr beyond,
        show ¬ i - 8 * offset.toNat < 32 by omega,
        BitVec.getLsbD_of_ge data (i - 8 * offset.toNat) (by omega)]

theorem Line.word_write_same (line : Line) (data : Word) {offset : BitVec 3}
    (aligned : offset = 0#3 ∨ offset = 4#3) : (line.write offset data).word offset = data := by
  have fits : offset.toNat ≤ 4 := by
    rcases aligned with rfl | rfl <;> decide
  apply BitVec.eq_of_getLsbD_eq
  intro i bound
  rw [Line.getLsbD_word, Line.getLsbD_write _ _ _ (by omega), if_pos (by omega)]
  simp [bound]

theorem Line.word_zero_write_four (line : Line) (data : Word) :
    (line.write 4#3 data).word 0#3 = line.word 0#3 := by
  apply BitVec.eq_of_getLsbD_eq
  intro i bound
  have zero : (0#3).toNat = 0 := rfl
  have four : (4#3).toNat = 4 := rfl
  rw [Line.getLsbD_word, Line.getLsbD_word, Line.getLsbD_write _ _ _ (by omega),
    if_neg (by omega)]

/-!
## Freshness
-/

variable {inputs : Nat → IcacheInput} {n : Nat} {run : IcacheRun}

theorem Fresh.mono {since since' now now' : Nat} {addr data : Word}
    (fresh : Fresh inputs since now addr data) (before : since' ≤ since) (after : now ≤ now') :
    Fresh inputs since' now' addr data := by
  obtain ⟨t, later, past, found⟩ := fresh
  exact ⟨t, Nat.le_trans before later, Nat.lt_of_lt_of_le past after, found⟩

theorem Fresh.eq_of_unchanged {since now : Nat} {addr data : Word}
    (fresh : Fresh inputs since now addr data)
    (unchanged : ∀ t, since ≤ t → t ≤ now → (inputs t).mem addr = (inputs now).mem addr) :
    data = (inputs now).mem addr := by
  obtain ⟨t, later, past, rfl⟩ := fresh
  exact unchanged t later (Nat.le_of_lt past)

/-- Both words of the line are fresh. -/
def LineFresh (inputs : Nat → IcacheInput) (since now : Nat) (tag : BitVec 26) (index : BitVec 3)
    (line : Line) : Prop :=
  Fresh inputs since now (lineAddr tag index) (line.word 0#3) ∧
    Fresh inputs since now (lineAddr tag index + 4#32) (line.word 4#3)

theorem LineFresh.mono {since since' now now' : Nat} {tag : BitVec 26} {index : BitVec 3}
    {line : Line} (fresh : LineFresh inputs since now tag index line) (before : since' ≤ since)
    (after : now ≤ now') : LineFresh inputs since' now' tag index line :=
  ⟨fresh.1.mono before after, fresh.2.mono before after⟩

/-- A word of a fresh line. -/
theorem LineFresh.word {since now : Nat} {req : FetchReq} {line : Line}
    (fresh : LineFresh inputs since now (tagOf req.addr) (indexOf req.addr) line) :
    Fresh inputs since now req.addr (line.word (offsetOf req.addr)) := by
  rcases addr_cases req with ⟨offset, addr⟩ | ⟨offset, addr⟩
  · rw [offset, addr]
    exact fresh.1
  · rw [offset, addr]
    exact fresh.2

/-- The memory is about to show, or shows, the beat at an address. -/
def BeatAt (inputs : Nat → IcacheInput) (since now : Nat) (slave : BurstSlave) (ar : AxiAddr)
    (addr : Word) (left : BitVec 8) : Prop :=
  slave = .wait ar addr left ∨ ∃ data, slave = .valid ar addr left data ∧
    Fresh inputs since now addr data

theorem beatAt_raise {since : Nat} (past : since ≤ n) (ar : AxiAddr) (addr : Word)
    (left : BitVec 8) :
    BeatAt inputs since (n + 1) (BurstSlave.raise (inputs n) ar addr left) ar addr left := by
  rw [BurstSlave.raise]
  split_ifs
  · exact .inr ⟨_, rfl, n, past, Nat.lt_succ_self n, rfl⟩
  · exact .inl rfl

/-!
## The invariant
-/

/-- The cache's side of the memory bus is silent. -/
def Quiet (sys : IcacheSystem) : Prop :=
  sys.cache.memArvalid = false ∧ sys.cache.memRready = false ∧ sys.slave = .idle

def Icache.Latched (cache : Icache) (req : FetchReq) : Prop :=
  cache.ifuRead = req.ar ∧ cache.cacheTag = tagOf req.addr ∧ cache.cacheIndex = indexOf req.addr

/-- The word at the address of the request in the selected way. -/
def Icache.selected (cache : Icache) (req : FetchReq) : Word :=
  (cache.dataArray (indexOf req.addr) cache.waySel).word (offsetOf req.addr)

/-- Where the refill of a line stands: no word there yet, or the first one. -/
def RefillAt (inputs : Nat → IcacheInput) (run : IcacheRun) (req : FetchReq) : Prop :=
  let cache := run.sys.cache
  let line := lineAddr (tagOf req.addr) (indexOf req.addr)
  let since := run.log.lastFence
  (cache.wrOffset = 0#3 ∧ run.log.current = ⟨line, []⟩ ∧
      BeatAt inputs since run.log.now run.sys.slave req.lineRead line 1#8) ∨
    (∃ low, cache.wrOffset = 4#3 ∧ run.log.current = ⟨line, [low]⟩ ∧
      (cache.dataArray (indexOf req.addr) cache.waySel).word 0#3 = low ∧
      Fresh inputs since run.log.now line low ∧
      BeatAt inputs since run.log.now run.sys.slave req.lineRead (line + 4#32) 0#8)

/-- The fetch in service, state by state. -/
def Serving (inputs : Nat → IcacheInput) (run : IcacheRun) (fetch : Fetch) : Prop :=
  let cache := run.sys.cache
  cache.Latched fetch.req ∧
    match cache.state with
    | .idle => False
    | .checkCache =>
        Quiet run.sys ∧ fetch.reads = [] ∧
        (fetch.hit = ((cache.icacheValid.getLsbD 0 && tagOf fetch.req.addr == cache.icacheTag 0#1)
          ||
          (cache.icacheValid.getLsbD 1 && tagOf fetch.req.addr == cache.icacheTag 1#1))) ∧
        ∀ way, cache.icacheValid.getLsbD way.toNat = true →
          cache.icacheTag way = tagOf fetch.req.addr →
          LineFresh inputs fetch.since run.log.now (tagOf fetch.req.addr) (indexOf fetch.req.addr)
            (cache.dataArray (indexOf fetch.req.addr) way)
    | .memAraddr =>
        fetch.hit = false ∧ fetch.reads = [] ∧ cache.memRready = false ∧ run.sys.slave = .idle ∧
        (cache.memArvalid = true → cache.memAr = fetch.req.lineRead)
    | .memRdata =>
        fetch.Complete ∧ fetch.hit = false ∧ cache.memArvalid = false ∧ cache.memRready = true ∧
        cache.memAr = fetch.req.lineRead ∧ RefillAt inputs run fetch.req
    | .updateArray | .instrFetch =>
        Quiet run.sys ∧ fetch.Complete ∧
        Fresh inputs fetch.since run.log.now fetch.req.addr (cache.selected fetch.req)

/-- The word held for the fetch unit. -/
def Held (inputs : Nat → IcacheInput) (run : IcacheRun) : Option Fetch → Prop
  | none => run.sys.cache.ifuRvalid = false
  | some fetch =>
      run.sys.cache.ifuRvalid = true ∧ fetch.Complete ∧ run.sys.cache.ifuRlast = true ∧
        run.sys.cache.ifuRid = fetch.req.id ∧
        Fresh inputs fetch.since run.log.now fetch.req.addr run.sys.cache.ifuRdata

def Served (inputs : Nat → IcacheInput) (run : IcacheRun) : Option Fetch → Prop
  | none => run.sys.cache.state = .idle ∧ Quiet run.sys
  | some fetch => Serving inputs run fetch

/-- A valid line holds what its last refill read, all of it after the last fence. -/
def LineOk (inputs : Nat → IcacheInput) (run : IcacheRun) (index : BitVec 3) (way : BitVec 1) :
    Prop :=
  let tag := run.sys.cache.tagArray index way
  let line := run.sys.cache.dataArray index way
  LineFresh inputs run.log.lastFence run.log.now tag index line ∧
    run.log.refills index way = some ⟨lineAddr tag index, [line.word 0#3, line.word 4#3]⟩

structure IcacheInv (inputs : Nat → IcacheInput) (run : IcacheRun) : Prop where
  fence : run.log.lastFence ≤ run.log.now
  offset : run.sys.cache.state ≠ .memRdata → run.sys.cache.wrOffset = 0#3
  oneWay : ∀ index, (run.sys.cache.dataValid index).getLsbD 0 = true →
    (run.sys.cache.dataValid index).getLsbD 1 = false
  lines : ∀ index way, ¬ (run.sys.cache.state = .memRdata ∧ index = run.sys.cache.cacheIndex) →
    (run.sys.cache.dataValid index).getLsbD way.toNat = true → LineOk inputs run index way
  since : ∀ fetch ∈ run.log.inFlight, fetch.since ≤ run.log.lastFence
  flight : ∃ held current : Option Fetch, run.log.inFlight = held.toList ++ current.toList ∧
    Held inputs run held ∧ Served inputs run current
  ready : run.sys.cache.ifuArready = true → run.sys.cache.state = .idle
  counts : run.log.accepted = run.log.answered + run.log.inFlight.length

theorem icacheInv_reset (any : Icache) :
    IcacheInv inputs ⟨IcacheSystem.reset any, IcacheLog.reset⟩ where
  fence := Nat.le_refl 0
  offset := fun _ => rfl
  oneWay := by
    intro index valid
    simp [IcacheSystem.reset, Icache.reset] at valid
  lines := by
    intro index way _ valid
    simp [IcacheSystem.reset, Icache.reset] at valid
  since := by intro fetch found; cases found
  flight := ⟨none, none, rfl, rfl, rfl, rfl, rfl, rfl⟩
  ready := fun _ => rfl
  counts := rfl

/-!
## The log in one cycle
-/

section Step

variable {held current : Option Fetch} {fetch : Fetch}

/-- The fetch in service after the memory has accepted an address. -/
def afterAsk (run : IcacheRun) (input : IcacheInput) (current : Option Fetch) : Option Fetch :=
  match run.sys.asks input with
  | some ar => current.map fun fetch => { fetch with reads := fetch.reads ++ [ar] }
  | none => current

def afterAnswer (run : IcacheRun) (input : IcacheInput) (held : Option Fetch) : Option Fetch :=
  if run.sys.answers input then none else held

def newFetch (run : IcacheRun) : Option Fetch :=
  run.sys.accepts.map fun req =>
    ⟨req, run.log.lastFence, run.sys.cache.holds req.addr 0#1 || run.sys.cache.holds req.addr 1#1,
      []⟩

theorem inFlight_next (flight : run.log.inFlight = held.toList ++ current.toList)
    (holds : Held inputs run held) (input : IcacheInput)
    (asked : run.sys.asks input ≠ none → current ≠ none) :
    (icacheMachine.step input run).log.inFlight =
      (afterAnswer run input held).toList ++ (afterAsk run input current).toList ++
        (newFetch run).toList := by
  have answers : run.sys.answers input = true → held ≠ none := by
    rintro answers rfl
    simp [IcacheSystem.answers, show run.sys.cache.ifuRvalid = false from holds] at answers
  refine congrArg₂ (· ++ ·) ?_ (by rw [newFetch]; cases run.sys.accepts <;> rfl)
  rw [flight, afterAnswer, afterAsk]
  cases asks : run.sys.asks input with
  | none =>
      cases answered : run.sys.answers input with
      | false => rfl
      | true =>
          cases held with
          | none => exact absurd rfl (answers answered)
          | some fetch => rfl
  | some ar =>
      cases current with
      | none => exact absurd rfl (asked (by rw [asks]; exact Option.some_ne_none ar))
      | some fetch =>
          cases held with
          | none =>
              cases answered : run.sys.answers input with
              | false => rfl
              | true => exact absurd rfl (answers answered)
          | some older => cases answered : run.sys.answers input <;> rfl

theorem lastFence_le (inv : IcacheInv inputs run) (input : IcacheInput) :
    run.log.lastFence ≤ (icacheMachine.step input run).log.lastFence ∧
      (icacheMachine.step input run).log.lastFence ≤ run.log.now := by
  change run.log.lastFence ≤ (if _ then _ else _) ∧ (if _ then _ else _) ≤ run.log.now
  have past := inv.fence
  split_ifs
  · exact ⟨past, Nat.le_refl _⟩
  · exact ⟨Nat.le_refl _, past⟩

/-- No fence counts while a fetch is in flight. -/
theorem lastFence_of_busy (busy : run.log.inFlight ≠ []) (input : IcacheInput) :
    (icacheMachine.step input run).log.lastFence = run.log.lastFence := by
  change (if _ then _ else _) = _
  rw [if_neg]
  simp [busy]

theorem since_next (inv : IcacheInv inputs run)
    (flight : run.log.inFlight = held.toList ++ current.toList)
    (holds : Held inputs run held) (input : IcacheInput)
    (asked : run.sys.asks input ≠ none → current ≠ none) :
    ∀ fetch ∈ (icacheMachine.step input run).log.inFlight,
      fetch.since ≤ (icacheMachine.step input run).log.lastFence := by
  have since := inv.since
  have later := (lastFence_le inv input).1
  rw [inFlight_next flight holds input asked]
  rw [flight] at since
  intro fetch found
  refine Nat.le_trans ?_ later
  simp only [List.mem_append, Option.mem_toList] at found since
  rcases found with (older | served) | new
  · refine since fetch (.inl ?_)
    rw [afterAnswer] at older
    split_ifs at older
    exact older
  · rw [afterAsk] at served
    cases asks : run.sys.asks input with
    | none => exact since fetch (.inr (by rw [asks] at served; exact served))
    | some ar =>
        rw [asks] at served
        cases current with
        | none => cases served
        | some before =>
            obtain rfl := Option.some.inj served
            exact since before (.inr rfl)
  · rw [newFetch] at new
    cases accepts : run.sys.accepts with
    | none => rw [accepts] at new; cases new
    | some req =>
        rw [accepts] at new
        obtain rfl := Option.some.inj new
        exact Nat.le_refl _

theorem counts_next (inv : IcacheInv inputs run)
    (flight : run.log.inFlight = held.toList ++ current.toList)
    (holds : Held inputs run held) (input : IcacheInput)
    (asked : run.sys.asks input ≠ none → current ≠ none) :
    (icacheMachine.step input run).log.accepted =
      (icacheMachine.step input run).log.answered +
        (icacheMachine.step input run).log.inFlight.length := by
  have counts := inv.counts
  rw [inFlight_next flight holds input asked]
  rw [flight] at counts
  change run.log.accepted + _ = run.log.answered + _ + _
  have new : (newFetch run).toList.length = if run.sys.accepts.isSome then 1 else 0 := by
    cases accepts : run.sys.accepts <;> simp [newFetch, accepts]
  have served : (afterAsk run input current).toList.length = current.toList.length := by
    cases asks : run.sys.asks input <;> cases current <;> simp [afterAsk, asks]
  have answered : (afterAnswer run input held).toList.length +
      (if run.sys.answers input then 1 else 0) = held.toList.length := by
    cases answers : run.sys.answers input with
    | false => simp [afterAnswer, answers]
    | true =>
        cases held with
        | none =>
            simp [IcacheSystem.answers, show run.sys.cache.ifuRvalid = false from holds] at answers
        | some _ => simp [afterAnswer, answers]
  simp only [List.length_append, new, served] at counts ⊢
  omega

/-!
## The cache in one cycle
-/

theorem valid_of_next {cache : Icache} {bus : IcacheBus} {index : BitVec 3} {way : Nat}
    (valid : ((cache.next bus).dataValid index).getLsbD way = true) :
    bus.fence = false ∧ ((cache.caseStep bus).dataValid index).getLsbD way = true := by
  simp only [Icache.next] at valid
  cases fence : bus.fence with
  | false => exact ⟨rfl, by simpa [fence] using valid⟩
  | true => simp [fence] at valid

/-- A step that leaves the fetch unit's read channel to its defaults. -/
structure KeepsAnswer (cache next : Icache) (rready : Bool) : Prop where
  rvalid : next.ifuRvalid = (cache.ifuRvalid && !rready)
  rdata : next.ifuRdata = cache.ifuRdata
  rlast : next.ifuRlast = cache.ifuRlast
  rid : next.ifuRid = cache.ifuRid

/-- A step that leaves the arrays alone. -/
structure KeepsArrays (cache next : Icache) : Prop where
  data : next.dataArray = cache.dataArray
  tag : next.tagArray = cache.tagArray
  valid : next.dataValid = cache.dataValid
  offset : next.wrOffset = cache.wrOffset

/-- The held word stays until the fetch unit takes it. -/
theorem Held.keep (holds : Held inputs run held) (input : IcacheInput)
    (keeps : KeepsAnswer run.sys.cache (run.sys.cache.caseStep (run.sys.bus input))
      input.ifuRready) :
    Held inputs (icacheMachine.step input run) (afterAnswer run input held) := by
  obtain ⟨rvalid, rdata, rlast, rid⟩ := keeps
  cases held with
  | none =>
      have invalid : run.sys.cache.ifuRvalid = false := holds
      have none : afterAnswer run input none = none := by
        rw [afterAnswer]
        split_ifs <;> rfl
      rw [none]
      change (run.sys.cache.caseStep (run.sys.bus input)).ifuRvalid = false
      rw [rvalid, invalid]
      rfl
  | some fetch =>
      obtain ⟨valid, complete, last, id, fresh⟩ := holds
      cases ready : input.ifuRready with
      | true =>
          have none : afterAnswer run input (some fetch) = none := by
            simp [afterAnswer, IcacheSystem.answers, valid, ready]
          rw [none]
          change (run.sys.cache.caseStep (run.sys.bus input)).ifuRvalid = false
          rw [rvalid, ready, Bool.not_true, Bool.and_false]
      | false =>
          have some : afterAnswer run input (some fetch) = some fetch := by
            simp [afterAnswer, IcacheSystem.answers, ready]
          rw [some]
          refine ⟨?_, complete, rlast.trans last, rid.trans id, ?_⟩
          · exact rvalid.trans (by rw [valid, ready]; rfl)
          · change Fresh inputs fetch.since (run.log.now + 1) fetch.req.addr
              (run.sys.cache.caseStep (run.sys.bus input)).ifuRdata
            rw [rdata]
            exact fresh.mono (Nat.le_refl _) (Nat.le_succ _)

/-- Lines that the cycle does not write keep what is known of them. -/
theorem LineOk.keep {index : BitVec 3} {way : BitVec 1} (ok : LineOk inputs run index way)
    (input : IcacheInput) (noFence : (run.sys.bus input).fence = false)
    (data : (run.sys.cache.caseStep (run.sys.bus input)).dataArray index way =
      run.sys.cache.dataArray index way)
    (tag : (run.sys.cache.caseStep (run.sys.bus input)).tagArray index way =
      run.sys.cache.tagArray index way)
    (refills : (icacheMachine.step input run).log.refills index way =
      run.log.refills index way) :
    LineOk inputs (icacheMachine.step input run) index way := by
  have fence : (icacheMachine.step input run).log.lastFence = run.log.lastFence := by
    change (if _ then _ else _) = _
    have low : input.fence = false := noFence
    simp [low]
  obtain ⟨fresh, refill⟩ := ok
  rw [LineOk, fence, refills]
  change LineFresh inputs _ (run.log.now + 1)
      ((run.sys.cache.caseStep (run.sys.bus input)).tagArray index way) index
      ((run.sys.cache.caseStep (run.sys.bus input)).dataArray index way) ∧ run.log.refills index
        way =
    some ⟨lineAddr ((run.sys.cache.caseStep (run.sys.bus input)).tagArray index way) index,
      [((run.sys.cache.caseStep (run.sys.bus input)).dataArray index way).word 0#3,
        ((run.sys.cache.caseStep (run.sys.bus input)).dataArray index way).word 4#3]⟩
  rw [data, tag]
  exact ⟨fresh.mono (Nat.le_refl _) (Nat.le_succ _), refill⟩

/-- A cycle that leaves the arrays alone. -/
theorem lines_keep (inv : IcacheInv inputs run) (input : IcacheInput)
    (keeps : KeepsArrays run.sys.cache (run.sys.cache.caseStep (run.sys.bus input)))
    (noRefill : (run.sys.beats && run.sys.slave.rlast input) = false)
    (still : run.sys.cache.state = .memRdata →
      (run.sys.cache.caseStep (run.sys.bus input)).state = .memRdata ∧
        (run.sys.cache.caseStep (run.sys.bus input)).cacheIndex = run.sys.cache.cacheIndex) :
    let next := icacheMachine.step input run
    (∀ index, (next.sys.cache.dataValid index).getLsbD 0 = true →
        (next.sys.cache.dataValid index).getLsbD 1 = false) ∧
      ∀ index way, ¬ (next.sys.cache.state = .memRdata ∧ index = next.sys.cache.cacheIndex) →
        (next.sys.cache.dataValid index).getLsbD way.toNat = true → LineOk inputs next index way :=
          by
  obtain ⟨data, tag, valid, -⟩ := keeps
  constructor
  · intro index zero
    by_contra one
    rw [Bool.not_eq_false] at one
    obtain ⟨_, zeroBefore⟩ := valid_of_next zero
    obtain ⟨_, oneBefore⟩ := valid_of_next one
    rw [valid] at zeroBefore oneBefore
    rw [inv.oneWay index zeroBefore] at oneBefore
    cases oneBefore
  · intro index way outside found
    obtain ⟨noFence, before⟩ := valid_of_next found
    rw [valid] at before
    refine (inv.lines index way ?_ before).keep input noFence (by rw [data]) (by rw [tag]) ?_
    · rintro ⟨reading, same⟩
      obtain ⟨state, cacheIndex⟩ := still reading
      exact outside ⟨state, same.trans cacheIndex.symm⟩
    · change (if _ then _ else _ : BitVec 3 → BitVec 1 → Option Refill) index way = _
      rw [noRefill]
      rfl

theorem IcacheInv.of_parts (inv : IcacheInv inputs run) {input : IcacheInput}
    (flight : run.log.inFlight = held.toList ++ current.toList) (holds : Held inputs run held)
    (asked : run.sys.asks input ≠ none → current ≠ none)
    (offset : (icacheMachine.step input run).sys.cache.state ≠ .memRdata →
      (icacheMachine.step input run).sys.cache.wrOffset = 0#3)
    (lines : let next := icacheMachine.step input run
      (∀ index, (next.sys.cache.dataValid index).getLsbD 0 = true →
        (next.sys.cache.dataValid index).getLsbD 1 = false) ∧
      ∀ index way, ¬ (next.sys.cache.state = .memRdata ∧ index = next.sys.cache.cacheIndex) →
        (next.sys.cache.dataValid index).getLsbD way.toNat = true → LineOk inputs next index way)
    (ready : (icacheMachine.step input run).sys.cache.ifuArready = true →
      (icacheMachine.step input run).sys.cache.state = .idle)
    (flight' : ∃ held' current' : Option Fetch,
      (afterAnswer run input held).toList ++ (afterAsk run input current).toList ++
        (newFetch run).toList = held'.toList ++ current'.toList ∧
      Held inputs (icacheMachine.step input run) held' ∧
      Served inputs (icacheMachine.step input run) current') :
    IcacheInv inputs (icacheMachine.step input run) where
  fence := Nat.le_succ_of_le (lastFence_le inv input).2
  offset := offset
  oneWay := lines.1
  lines := lines.2
  since := since_next inv flight holds input asked
  flight := by
    rw [inFlight_next flight holds input asked]
    exact flight'
  ready := ready
  counts := counts_next inv flight holds input asked

/-- Outside the idle state no fetch is accepted. -/
theorem newFetch_of_busy (inv : IcacheInv inputs run) (busy : run.sys.cache.state ≠ .idle) :
    newFetch run = none := by
  have ready : run.sys.cache.ifuArready = false := by
    rw [← Bool.not_eq_true]
    exact fun ready => busy (inv.ready ready)
  simp [newFetch, IcacheSystem.accepts, ready]

theorem asks_of_silent (silent : run.sys.cache.memArvalid = false) (input : IcacheInput) :
    run.sys.asks input = none := by
  simp [IcacheSystem.asks, silent]

theorem beats_of_silent (silent : run.sys.cache.memRready = false) : run.sys.beats = false := by
  simp [IcacheSystem.beats, silent]

theorem bus_of_accepts {req : FetchReq} (accepts : run.sys.accepts = some req)
    (input : IcacheInput) :
    ((run.sys.bus input).ifuArvalid && run.sys.cache.ifuArready) = true ∧
      (run.sys.bus input).ifuAr = req.ar := by
  simp only [IcacheSystem.accepts] at accepts
  split_ifs at accepts with ready
  simp [IcacheSystem.bus, accepts, ready]

theorem bus_of_not_accepts (accepts : run.sys.accepts = none) (input : IcacheInput) :
    ((run.sys.bus input).ifuArvalid && run.sys.cache.ifuArready) = false := by
  simp only [IcacheSystem.accepts] at accepts
  split_ifs at accepts with ready
  · simp [IcacheSystem.bus, accepts]
  · simp [ready]

/-!
## State by state
-/

theorem step_idle (inv : IcacheInv inputs run) (state : run.sys.cache.state = .idle)
    (input : IcacheInput) : IcacheInv inputs (icacheMachine.step input run) := by
  obtain ⟨held, current, flight, holds, served⟩ := inv.flight
  obtain rfl : current = none := by
    cases current with
    | none => rfl
    | some fetch => simp [Served, Serving, state] at served
  obtain ⟨-, noAr, noReady, idle⟩ := served
  have asks := asks_of_silent noAr input
  have case : run.sys.cache.caseStep (run.sys.bus input) =
      run.sys.cache.idleStep (run.sys.bus input) := by rw [Icache.caseStep, state]
  have slave : (icacheMachine.step input run).sys.slave = .idle := by
    simp [icacheMachine, IcacheSystem.next, idle, asks, BurstSlave.next]
  have answer : KeepsAnswer run.sys.cache (run.sys.cache.caseStep (run.sys.bus input))
      input.ifuRready := by
    rw [case, Icache.idleStep]
    split_ifs <;> exact ⟨rfl, rfl, rfl, rfl⟩
  have arrays : KeepsArrays run.sys.cache (run.sys.cache.caseStep (run.sys.bus input)) := by
    rw [case, Icache.idleStep]
    split_ifs <;> exact ⟨rfl, rfl, rfl, rfl⟩
  have silent : (run.sys.cache.caseStep (run.sys.bus input)).memArvalid = false ∧
      (run.sys.cache.caseStep (run.sys.bus input)).memRready = false := by
    rw [case, Icache.idleStep]
    split_ifs <;> simp [Icache.defaults, noAr]
  have quiet : Quiet (icacheMachine.step input run).sys := ⟨silent.1, silent.2, slave⟩
  have lines := lines_keep inv input arrays (by rw [beats_of_silent noReady]; rfl)
    (fun reading => absurd (state.symm.trans reading) (by decide))
  have kept := holds.keep input answer
  refine inv.of_parts flight holds (by simp [asks]) ?_ lines ?_ ?_
  · intro _
    exact arrays.offset.trans (inv.offset (by rw [state]; decide))
  · change (run.sys.cache.caseStep (run.sys.bus input)).ifuArready = true →
      (run.sys.cache.caseStep (run.sys.bus input)).state = .idle
    rw [case, Icache.idleStep]
    cases accepts : run.sys.accepts with
    | none =>
        rw [bus_of_not_accepts accepts input]
        exact fun _ => state
    | some req =>
        rw [(bus_of_accepts accepts input).1]
        exact fun ready => absurd ready (by simp [Icache.defaults])
  · cases accepts : run.sys.accepts with
    | none =>
        refine ⟨_, none, ?_, kept, ?_, quiet⟩
        · simp [afterAsk, asks, newFetch, accepts]
        · change (run.sys.cache.caseStep (run.sys.bus input)).state = .idle
          rw [case, Icache.idleStep, bus_of_not_accepts accepts input]
          exact state
    | some req =>
        obtain ⟨handshake, ar⟩ := bus_of_accepts accepts input
        refine ⟨_, newFetch run, ?_, kept, ?_⟩
        · simp [afterAsk, asks]
        · have new : newFetch run = some ⟨req, run.log.lastFence,
              run.sys.cache.holds req.addr 0#1 || run.sys.cache.holds req.addr 1#1, []⟩ := by
            simp [newFetch, accepts]
          have after : run.sys.cache.caseStep (run.sys.bus input) =
              { run.sys.cache.defaults (run.sys.bus input) with
                state := .checkCache
                ifuRead := req.ar
                cacheTag := tagOf req.addr
                cacheIndex := indexOf req.addr
                cacheOffset := offsetOf req.addr
                icacheValid := run.sys.cache.dataValid (indexOf req.addr)
                icacheTag := run.sys.cache.tagArray (indexOf req.addr) } := by
            rw [case, Icache.idleStep, if_pos handshake, ar]
            rfl
          have next : (icacheMachine.step input run).sys.cache =
              { run.sys.cache.caseStep (run.sys.bus input) with
                dataValid := (icacheMachine.step input run).sys.cache.dataValid } := rfl
          rw [after] at next
          rw [new]
          refine ⟨?_, ?_⟩
          · rw [next]
            exact ⟨rfl, rfl, rfl⟩
          · have checking : (icacheMachine.step input run).sys.cache.state = .checkCache := by
              rw [next]
            rw [checking]
            refine ⟨quiet, rfl, ?_, ?_⟩
            · rw [next]
              rfl
            · rw [next]
              intro way found same
              have ok := inv.lines (indexOf req.addr) way (by rw [state]; simp) found
              have tags : run.sys.cache.tagArray (indexOf req.addr) way = tagOf req.addr := same
              rw [LineOk, tags] at ok
              exact ok.1.mono (Nat.le_refl _) (Nat.le_succ _)

/-- A fetch is in service outside the idle state. -/
theorem exists_served (inv : IcacheInv inputs run) (busy : run.sys.cache.state ≠ .idle) :
    ∃ (held : Option Fetch) (fetch : Fetch),
      run.log.inFlight = held.toList ++ (some fetch).toList ∧ Held inputs run held ∧
        Serving inputs run fetch := by
  obtain ⟨held, current, flight, holds, served⟩ := inv.flight
  cases current with
  | none => exact absurd served.1 busy
  | some fetch => exact ⟨held, fetch, flight, holds, served⟩

theorem busy_of_served (flight : run.log.inFlight = held.toList ++ (some fetch).toList) :
    run.log.inFlight ≠ [] := by
  rw [flight]
  simp

/-- A cycle that goes on with the fetch in service and writes no array. -/
theorem step_service (inv : IcacheInv inputs run) {input : IcacheInput} {fetch' : Fetch}
    (busy : run.sys.cache.state ≠ .idle)
    (flight : run.log.inFlight = held.toList ++ (some fetch).toList)
    (holds : Held inputs run held)
    (answer : KeepsAnswer run.sys.cache (run.sys.cache.caseStep (run.sys.bus input))
      input.ifuRready)
    (arrays : KeepsArrays run.sys.cache (run.sys.cache.caseStep (run.sys.bus input)))
    (ready : (run.sys.cache.caseStep (run.sys.bus input)).ifuArready = false)
    (noRefill : (run.sys.beats && run.sys.slave.rlast input) = false)
    (still : run.sys.cache.state = .memRdata →
      (run.sys.cache.caseStep (run.sys.bus input)).state = .memRdata ∧
        (run.sys.cache.caseStep (run.sys.bus input)).cacheIndex = run.sys.cache.cacheIndex)
    (after : afterAsk run input (some fetch) = some fetch')
    (serving : Serving inputs (icacheMachine.step input run) fetch') :
    IcacheInv inputs (icacheMachine.step input run) := by
  refine inv.of_parts flight holds (fun _ => Option.some_ne_none fetch) ?_
    (lines_keep inv input arrays noRefill still) ?_ ?_
  · intro outside
    refine arrays.offset.trans (inv.offset fun reading => outside ?_)
    exact (still reading).1
  · intro accepting
    exact absurd (ready.symm.trans accepting) (by decide)
  · refine ⟨_, some fetch', ?_, holds.keep input answer, serving⟩
    rw [after, newFetch_of_busy inv busy]
    simp

theorem step_check (inv : IcacheInv inputs run) (state : run.sys.cache.state = .checkCache)
    (input : IcacheInput) : IcacheInv inputs (icacheMachine.step input run) := by
  have busy : run.sys.cache.state ≠ .idle := by rw [state]; decide
  obtain ⟨held, fetch, flight, holds, latched, serving⟩ := exists_served inv busy
  rw [state] at serving
  obtain ⟨⟨noAr, noReady, idle⟩, noReads, hit, fresh⟩ := serving
  have asks := asks_of_silent noAr input
  have slave : (icacheMachine.step input run).sys.slave = .idle := by
    simp [icacheMachine, IcacheSystem.next, idle, asks, BurstSlave.next]
  obtain ⟨way, target, after, outcome⟩ : ∃ way target,
      run.sys.cache.caseStep (run.sys.bus input) =
        { run.sys.cache.defaults (run.sys.bus input) with state := target, waySel := way } ∧
      ((target = .instrFetch ∧ fetch.hit = true ∧
          LineFresh inputs fetch.since run.log.now (tagOf fetch.req.addr)
            (indexOf fetch.req.addr) (run.sys.cache.dataArray (indexOf fetch.req.addr) way)) ∨
        (target = .memAraddr ∧ fetch.hit = false)) := by
    simp only [Icache.caseStep, state, Icache.checkStep, Icache.checkCache, latched.2.1]
    split_ifs with zero one
    · refine ⟨0#1, .instrFetch, rfl, .inl ⟨rfl, by rw [hit, zero]; rfl, ?_⟩⟩
      rw [Bool.and_eq_true, beq_iff_eq] at zero
      exact fresh 0#1 zero.1 zero.2.symm
    · refine ⟨1#1, .instrFetch, rfl, .inl ⟨rfl, by rw [hit, one, Bool.or_true], ?_⟩⟩
      rw [Bool.and_eq_true, beq_iff_eq] at one
      exact fresh 1#1 one.1 one.2.symm
    · refine ⟨_, .memAraddr, rfl, .inr ⟨rfl, ?_⟩⟩
      rw [hit, Bool.not_eq_true _ |>.mp zero, Bool.not_eq_true _ |>.mp one]
      rfl
  have next : (icacheMachine.step input run).sys.cache =
      { run.sys.cache.caseStep (run.sys.bus input) with
        dataValid := (icacheMachine.step input run).sys.cache.dataValid } := rfl
  have silent : (icacheMachine.step input run).sys.cache.memArvalid = false ∧
      (icacheMachine.step input run).sys.cache.memRready = false := by
    rw [next, after]
    simp [Icache.defaults, noAr]
  refine step_service inv busy flight holds ?_ ?_ ?_ (by rw [beats_of_silent noReady]; rfl) ?_
    (by rw [afterAsk, asks]) ⟨?_, ?_⟩
  · rw [after]
    exact ⟨rfl, rfl, rfl, rfl⟩
  · rw [after]
    exact ⟨rfl, rfl, rfl, rfl⟩
  · rw [after]
    rfl
  · intro reading
    rw [state] at reading
    cases reading
  · rw [next, after]
    exact latched
  · have target' : (icacheMachine.step input run).sys.cache.state = target := by rw [next, after]
    rw [target']
    rcases outcome with ⟨rfl, isHit, lineFresh⟩ | ⟨rfl, isMiss⟩
    · refine ⟨⟨silent.1, silent.2, slave⟩, ?_, ?_⟩
      · rw [Fetch.Complete, noReads, isHit]
        rfl
      · rw [next, after]
        exact lineFresh.word.mono (Nat.le_refl _) (Nat.le_succ _)
    · refine ⟨isMiss, noReads, silent.2, slave, ?_⟩
      rw [silent.1]
      exact fun asking => absurd asking Bool.false_ne_true

theorem cache_next (run : IcacheRun) (input : IcacheInput) :
    (icacheMachine.step input run).sys.cache =
      { run.sys.cache.caseStep (run.sys.bus input) with
        dataValid := (icacheMachine.step input run).sys.cache.dataValid } := rfl

theorem lineRead_eq {cache : Icache} {req : FetchReq} (latched : cache.Latched req) :
    ({ addr := cache.ifuRead.addr &&& ~~~7#32
       id := cache.ifuRead.id
       len := BitVec.ofNat 8 (cachelineSize / (1 <<< cache.ifuRead.size.toNat)) - 1#8
       size := cache.ifuRead.size
       burst := cache.ifuRead.burst } : AxiAddr) = req.lineRead := by
  have len : BitVec.ofNat 8 (cachelineSize / (1 <<< (2#3).toNat)) - 1#8 = 1#8 := by decide
  rw [latched.1, addr_and_not_seven]
  simp only [FetchReq.ar, FetchReq.lineRead, len]

theorem step_araddr (inv : IcacheInv inputs run) (state : run.sys.cache.state = .memAraddr)
    (now : run.log.now = n) : IcacheInv inputs (icacheMachine.step (inputs n) run) := by
  have busy : run.sys.cache.state ≠ .idle := by rw [state]; decide
  obtain ⟨held, fetch, flight, holds, latched, serving⟩ := exists_served inv busy
  rw [state] at serving
  obtain ⟨miss, noReads, noReady, idle, ar⟩ := serving
  have case : run.sys.cache.caseStep (run.sys.bus (inputs n)) =
      run.sys.cache.araddrStep (run.sys.bus (inputs n)) := by rw [Icache.caseStep, state]
  have fence := lastFence_of_busy (busy_of_served flight) (inputs n)
  have noBeat : (run.sys.beats && run.sys.slave.rlast (inputs n)) = false := by
    rw [beats_of_silent noReady]
    rfl
  have notReading : run.sys.cache.state = .memRdata → False := by
    intro reading
    rw [state] at reading
    cases reading
  cases handshake : run.sys.cache.memArvalid && (inputs n).memArready with
  | true =>
      obtain ⟨asking, taken⟩ := Bool.and_eq_true_iff.mp handshake
      have asks : run.sys.asks (inputs n) = some fetch.req.lineRead := by
        simp [IcacheSystem.asks, asking, taken, idle, BurstSlave.isIdle, ar asking]
      have after : run.sys.cache.caseStep (run.sys.bus (inputs n)) =
          { run.sys.cache.defaults (run.sys.bus (inputs n)) with
            state := .memRdata, memRready := true } := by
        rw [case, Icache.araddrStep, if_pos]
        simp [IcacheSystem.bus, asking, taken, idle, BurstSlave.isIdle]
      have next := cache_next run (inputs n)
      rw [after] at next
      refine step_service inv busy flight holds (by rw [after]; exact ⟨rfl, rfl, rfl, rfl⟩)
        (by rw [after]; exact ⟨rfl, rfl, rfl, rfl⟩) (by rw [after]; rfl) noBeat
        (fun reading => (notReading reading).elim) (by rw [afterAsk, asks]; rfl) ⟨?_, ?_⟩
      · rw [next]
        exact latched
      · have reading : (icacheMachine.step (inputs n) run).sys.cache.state = .memRdata := by
          rw [next]
        rw [reading]
        refine ⟨?_, miss, ?_, ?_, ?_, .inl ⟨?_, ?_, ?_⟩⟩
        · simp [Fetch.Complete, noReads, miss]
        · rw [next]
          simp [Icache.defaults, IcacheSystem.bus, taken, idle, BurstSlave.isIdle]
        · rw [next]
        · rw [next]
          exact ar asking
        · rw [next]
          exact inv.offset (fun reading => notReading reading)
        · simp only [icacheMachine, IcacheLog.next, asks]
          rfl
        · have slave : (icacheMachine.step (inputs n) run).sys.slave =
              BurstSlave.raise (inputs n) fetch.req.lineRead fetch.req.lineRead.addr
                fetch.req.lineRead.len := by
            simp [icacheMachine, IcacheSystem.next, idle, asks, BurstSlave.next]
          rw [slave, fence]
          have past := inv.fence
          rw [now] at past
          have beat : BeatAt inputs _ _ _ _ _ _ := beatAt_raise past fetch.req.lineRead
            fetch.req.lineRead.addr fetch.req.lineRead.len
          rw [← now] at beat ⊢
          exact beat
  | false =>
      have asks : run.sys.asks (inputs n) = none := by
        rw [IcacheSystem.asks, ← Bool.and_assoc, handshake]
        rfl
      have after : run.sys.cache.caseStep (run.sys.bus (inputs n)) =
          { run.sys.cache.defaults (run.sys.bus (inputs n)) with
            memArvalid := true, memAr := fetch.req.lineRead } := by
        rw [case, Icache.araddrStep, if_neg, lineRead_eq latched]
        simp only [IcacheSystem.bus, idle, BurstSlave.isIdle, Bool.and_true]
        rw [handshake]
        exact Bool.false_ne_true
      have next := cache_next run (inputs n)
      rw [after] at next
      refine step_service inv busy flight holds (by rw [after]; exact ⟨rfl, rfl, rfl, rfl⟩)
        (by rw [after]; exact ⟨rfl, rfl, rfl, rfl⟩) (by rw [after]; rfl) noBeat
        (fun reading => (notReading reading).elim) (by rw [afterAsk, asks]) ⟨?_, ?_⟩
      · rw [next]
        exact latched
      · have waiting : (icacheMachine.step (inputs n) run).sys.cache.state = .memAraddr := by
          rw [next]
          exact state
        rw [waiting]
        refine ⟨miss, noReads, ?_, ?_, ?_⟩
        · rw [next]
          rfl
        · simp [icacheMachine, IcacheSystem.next, idle, asks, BurstSlave.next]
        · rw [next]
          exact fun _ => rfl

theorem step_update (inv : IcacheInv inputs run) (state : run.sys.cache.state = .updateArray)
    (input : IcacheInput) : IcacheInv inputs (icacheMachine.step input run) := by
  have busy : run.sys.cache.state ≠ .idle := by rw [state]; decide
  obtain ⟨held, fetch, flight, holds, latched, serving⟩ := exists_served inv busy
  rw [state] at serving
  obtain ⟨⟨noAr, noReady, idle⟩, complete, fresh⟩ := serving
  have asks := asks_of_silent noAr input
  have after : run.sys.cache.caseStep (run.sys.bus input) =
      { run.sys.cache.defaults (run.sys.bus input) with state := .instrFetch } := by
    rw [Icache.caseStep, state]
  have next := cache_next run input
  rw [after] at next
  refine step_service inv busy flight holds (by rw [after]; exact ⟨rfl, rfl, rfl, rfl⟩)
    (by rw [after]; exact ⟨rfl, rfl, rfl, rfl⟩) (by rw [after]; rfl)
    (by rw [beats_of_silent noReady]; rfl) (fun reading => ?_) (by rw [afterAsk, asks]) ⟨?_, ?_⟩
  · rw [state] at reading
    cases reading
  · rw [next]
    exact latched
  · have fetching : (icacheMachine.step input run).sys.cache.state = .instrFetch := by rw [next]
    rw [fetching]
    refine ⟨⟨?_, ?_, ?_⟩, complete, ?_⟩
    · rw [next]
      simp [Icache.defaults, noAr]
    · rw [next]
      rfl
    · simp [icacheMachine, IcacheSystem.next, idle, asks, BurstSlave.next]
    · rw [next]
      exact fresh.mono (Nat.le_refl _) (Nat.le_succ _)

theorem step_fetch (inv : IcacheInv inputs run) (state : run.sys.cache.state = .instrFetch)
    (input : IcacheInput) : IcacheInv inputs (icacheMachine.step input run) := by
  have busy : run.sys.cache.state ≠ .idle := by rw [state]; decide
  obtain ⟨held, fetch, flight, holds, latched, serving⟩ := exists_served inv busy
  rw [state] at serving
  obtain ⟨⟨noAr, noReady, idle⟩, complete, fresh⟩ := serving
  have asks := asks_of_silent noAr input
  have case : run.sys.cache.caseStep (run.sys.bus input) =
      run.sys.cache.fetchStep (run.sys.bus input) := by rw [Icache.caseStep, state]
  have slave : (icacheMachine.step input run).sys.slave = .idle := by
    simp [icacheMachine, IcacheSystem.next, idle, asks, BurstSlave.next]
  have noBeat : (run.sys.beats && run.sys.slave.rlast input) = false := by
    rw [beats_of_silent noReady]
    rfl
  have notReading : run.sys.cache.state = .memRdata → False := by
    intro reading
    rw [state] at reading
    cases reading
  have arrays : KeepsArrays run.sys.cache (run.sys.cache.caseStep (run.sys.bus input)) := by
    rw [case, Icache.fetchStep]
    split_ifs <;> exact ⟨rfl, rfl, rfl, rfl⟩
  have lines := lines_keep inv input arrays noBeat (fun reading => (notReading reading).elim)
  have next := cache_next run input
  cases free : input.ifuRready || !run.sys.cache.ifuRvalid with
  | true =>
      have gone : afterAnswer run input held = none := by
        cases held with
        | none => rw [afterAnswer]; split_ifs <;> rfl
        | some older =>
            have valid : run.sys.cache.ifuRvalid = true := holds.1
            have taken : input.ifuRready = true := by simpa [valid] using free
            simp [afterAnswer, IcacheSystem.answers, valid, taken]
      have after : run.sys.cache.caseStep (run.sys.bus input) =
          { run.sys.cache.defaults (run.sys.bus input) with
            state := .idle
            ifuArready := true
            ifuRvalid := true
            ifuRdata := run.sys.cache.selected fetch.req
            ifuRlast := true
            ifuRid := fetch.req.id
            ifuRead := { fetch.req.ar with addr := fetch.req.addr + 4#32, len := 255#8 }
            cacheTag := tagOf fetch.req.addr
            cacheIndex := indexOf fetch.req.addr
            cacheOffset := offsetOf fetch.req.addr } := by
        have go : ((run.sys.bus input).ifuRready || !run.sys.cache.ifuRvalid) = true := free
        rw [case, Icache.fetchStep, if_pos go, latched.1]
        rfl
      rw [after] at next
      refine inv.of_parts flight holds (fun _ => Option.some_ne_none fetch) ?_ lines ?_ ?_
      · intro _
        exact arrays.offset.trans (inv.offset fun reading => notReading reading)
      · intro _
        rw [next]
      · refine ⟨some fetch, none, ?_, ⟨?_, complete, ?_, ?_, ?_⟩, ?_, ?_, ?_, slave⟩
        · rw [gone, afterAsk, asks, newFetch_of_busy inv busy]
          rfl
        · rw [next]
        · rw [next]
        · rw [next]
        · rw [next]
          exact fresh.mono (Nat.le_refl _) (Nat.le_succ _)
        · rw [next]
        · rw [next]
          simp [Icache.defaults, noAr]
        · rw [next]
          rfl
  | false =>
      have after : run.sys.cache.caseStep (run.sys.bus input) =
          run.sys.cache.defaults (run.sys.bus input) := by
        rw [case, Icache.fetchStep, if_neg]
        change ¬ (input.ifuRready || !run.sys.cache.ifuRvalid) = true
        rw [free]
        exact Bool.false_ne_true
      rw [after] at next
      refine step_service inv busy flight holds (by rw [after]; exact ⟨rfl, rfl, rfl, rfl⟩)
        arrays (by rw [after]; rfl) noBeat (fun reading => (notReading reading).elim)
        (by rw [afterAsk, asks]) ⟨?_, ?_⟩
      · rw [next]
        exact latched
      · have fetching : (icacheMachine.step input run).sys.cache.state = .instrFetch := by
          rw [next]
          exact state
        rw [fetching]
        refine ⟨⟨?_, ?_, slave⟩, complete, ?_⟩
        · rw [next]
          simp [Icache.defaults, noAr]
        · rw [next]
          rfl
        · rw [next]
          exact fresh.mono (Nat.le_refl _) (Nat.le_succ _)

theorem setWay_same {α : Type} (array : BitVec 3 → BitVec 1 → α) (index : BitVec 3)
    (way : BitVec 1) (x : α) : setWay array index way x index way = x :=
  if_pos ⟨rfl, rfl⟩

theorem setWay_index_ne {α : Type} (array : BitVec 3 → BitVec 1 → α) {index i : BitVec 3}
    (way w : BitVec 1) (x : α) (other : i ≠ index) : setWay array index way x i w = array i w :=
  if_neg fun same => other same.1

/-- The refill waits for a beat: nothing is written. -/
theorem step_rdata_wait (inv : IcacheInv inputs run) (state : run.sys.cache.state = .memRdata)
    (now : run.log.now = n) {ar : AxiAddr} {addr : Word} {left : BitVec 8}
    (slave : run.sys.slave = .wait ar addr left) :
    IcacheInv inputs (icacheMachine.step (inputs n) run) := by
  have busy : run.sys.cache.state ≠ .idle := by rw [state]; decide
  obtain ⟨held, fetch, flight, holds, latched, serving⟩ := exists_served inv busy
  rw [state] at serving
  obtain ⟨complete, miss, noAr, ready, memAr, refill⟩ := serving
  have asks := asks_of_silent noAr (inputs n)
  have fence := lastFence_of_busy (busy_of_served flight) (inputs n)
  have noBeat : run.sys.beats = false := by simp [IcacheSystem.beats, slave, BurstSlave.rvalid]
  have after : run.sys.cache.caseStep (run.sys.bus (inputs n)) =
      { run.sys.cache.defaults (run.sys.bus (inputs n)) with memRready := true } := by
    rw [Icache.caseStep, state]
    simp [Icache.rdataStep, IcacheSystem.bus, slave, BurstSlave.rvalid]
  have next := cache_next run (inputs n)
  rw [after] at next
  have past := inv.fence
  rw [now] at past
  have raised : (icacheMachine.step (inputs n) run).sys.slave =
      BurstSlave.raise (inputs n) ar addr left := by
    simp [icacheMachine, IcacheSystem.next, slave, BurstSlave.next]
  have current : (icacheMachine.step (inputs n) run).log.current = run.log.current := by
    simp only [icacheMachine, IcacheLog.next, asks, noBeat]
    rfl
  have later : (icacheMachine.step (inputs n) run).log.now = n + 1 :=
    congrArg (· + 1) now
  refine step_service inv busy flight holds (by rw [after]; exact ⟨rfl, rfl, rfl, rfl⟩)
    (by rw [after]; exact ⟨rfl, rfl, rfl, rfl⟩) (by rw [after]; rfl) (by rw [noBeat]; rfl)
    (fun _ => by rw [after]; exact ⟨state, rfl⟩) (by rw [afterAsk, asks]) ⟨?_, ?_⟩
  · rw [next]
    exact latched
  · have reading : (icacheMachine.step (inputs n) run).sys.cache.state = .memRdata := by
      rw [next]
      exact state
    rw [reading]
    refine ⟨complete, miss, ?_, ?_, ?_, ?_⟩
    · rw [next]
      simp [Icache.defaults, noAr]
    · rw [next]
    · rw [next]
      exact memAr
    · rcases refill with ⟨offset, empty, beat⟩ | ⟨low, offset, one, word, fresh, beat⟩
      · obtain ⟨rfl, rfl, rfl⟩ : ar = fetch.req.lineRead ∧
            addr = lineAddr (tagOf fetch.req.addr) (indexOf fetch.req.addr) ∧ left = 1#8 := by
          rcases beat with same | ⟨_, same, _⟩ <;> rw [slave] at same <;> cases same
          exact ⟨rfl, rfl, rfl⟩
        refine .inl ⟨by rw [next]; exact offset, current.trans empty, ?_⟩
        rw [raised, fence, later]
        exact beatAt_raise past _ _ _
      · obtain ⟨rfl, rfl, rfl⟩ : ar = fetch.req.lineRead ∧
            addr = lineAddr (tagOf fetch.req.addr) (indexOf fetch.req.addr) + 4#32 ∧
              left = 0#8 := by
          rcases beat with same | ⟨_, same, _⟩ <;> rw [slave] at same <;> cases same
          exact ⟨rfl, rfl, rfl⟩
        refine .inr ⟨low, by rw [next]; exact offset, current.trans one, by rw [next]; exact word,
          ?_, ?_⟩
        · rw [fence]
          exact fresh.mono (Nat.le_refl _) (Nat.le_succ _)
        · rw [raised, fence, later]
          exact beatAt_raise past _ _ _

/-- The cache after a beat of a refill. -/
def Icache.afterBeat (cache : Icache) (bus : IcacheBus) (data : Word) (last : Bool) : Icache :=
  { cache.defaults bus with
    state := if last then .updateArray else .memRdata
    memRready := !last
    wrOffset := cache.wrOffset + 4#3
    dataArray := setWay cache.dataArray cache.cacheIndex cache.waySel
      ((cache.dataArray cache.cacheIndex cache.waySel).write cache.wrOffset data)
    dataValid := fun i =>
      if i = cache.cacheIndex then 1#2 <<< cache.waySel.toNat else cache.dataValid i
    tagArray := setWay cache.tagArray cache.cacheIndex cache.waySel cache.cacheTag }

/-- A beat touches the set under refill only. -/
theorem lines_beat (inv : IcacheInv inputs run) {input : IcacheInput} {data : Word} {last : Bool}
    (after : run.sys.cache.caseStep (run.sys.bus input) =
      run.sys.cache.afterBeat (run.sys.bus input) data last)
    (refills : ∀ index way, index ≠ run.sys.cache.cacheIndex →
      (icacheMachine.step input run).log.refills index way = run.log.refills index way) :
    let next := icacheMachine.step input run
    (∀ index, (next.sys.cache.dataValid index).getLsbD 0 = true →
        (next.sys.cache.dataValid index).getLsbD 1 = false) ∧
      ∀ index way, index ≠ run.sys.cache.cacheIndex →
        (next.sys.cache.dataValid index).getLsbD way.toNat = true → LineOk inputs next index way :=
          by
  constructor
  · intro index zero
    by_contra one
    rw [Bool.not_eq_false] at one
    obtain ⟨_, zeroBefore⟩ := valid_of_next zero
    obtain ⟨_, oneBefore⟩ := valid_of_next one
    rw [after, Icache.afterBeat] at zeroBefore oneBefore
    simp only at zeroBefore oneBefore
    split_ifs at zeroBefore oneBefore with here
    · have single : ∀ way : BitVec 1, (1#2 <<< way.toNat).getLsbD 0 = true →
          (1#2 <<< way.toNat).getLsbD 1 = false := by decide
      rw [single _ zeroBefore] at oneBefore
      cases oneBefore
    · rw [inv.oneWay index zeroBefore] at oneBefore
      cases oneBefore
  · intro index way other found
    obtain ⟨noFence, before⟩ := valid_of_next found
    rw [after, Icache.afterBeat] at before
    simp only [if_neg other] at before
    refine (inv.lines index way (fun inside => other inside.2) before).keep input noFence ?_ ?_
      (refills index way other)
    · rw [after]
      exact setWay_index_ne _ _ _ _ other
    · rw [after]
      exact setWay_index_ne _ _ _ _ other

/-- The common part of a beat: the bus, the registers and the log. -/
theorem step_beat {req : FetchReq} (state : run.sys.cache.state = .memRdata)
    (ready : run.sys.cache.memRready = true) (memAr : run.sys.cache.memAr = req.lineRead)
    (noAr : run.sys.cache.memArvalid = false) {addr data : Word} {left : BitVec 8}
    (slave : run.sys.slave = .valid req.lineRead addr left data) (input : IcacheInput) :
    run.sys.cache.caseStep (run.sys.bus input) =
        run.sys.cache.afterBeat (run.sys.bus input) data (left == 0#8) ∧
      (icacheMachine.step input run).sys.slave =
        (if left = 0#8 then .idle
          else BurstSlave.raise input req.lineRead (addr + 4#32) (left - 1#8)) ∧
      (icacheMachine.step input run).log.current =
        ⟨run.log.current.addr, run.log.current.words ++ [data]⟩ := by
  have asks := asks_of_silent noAr input
  have beat : run.sys.beats = true := by
    simp [IcacheSystem.beats, slave, BurstSlave.rvalid, ready]
  refine ⟨?_, ?_, ?_⟩
  · have taken : ((run.sys.bus input).memRvalid && run.sys.cache.memRready) = true := beat
    have word : (run.sys.bus input).memRdata = data := by
      simp [IcacheSystem.bus, slave, BurstSlave.rdata]
    have last : (run.sys.bus input).memRlast = (left == 0#8) := by
      simp [IcacheSystem.bus, slave, BurstSlave.rlast]
    have size : (1#3 <<< (2#3).toNat) = 4#3 := by decide
    rw [Icache.caseStep, state]
    simp only [Icache.rdataStep, if_pos taken, word, last, memAr, FetchReq.lineRead, size]
    rfl
  · have size : (1#32 <<< (2#3).toNat) = 4#32 := by decide
    simp only [icacheMachine, IcacheSystem.next, slave, BurstSlave.next, ready, if_true,
      FetchReq.lineRead, size]
  · simp only [icacheMachine, IcacheLog.next, asks, beat, if_true, slave, BurstSlave.rdata]

theorem step_rdata_first (inv : IcacheInv inputs run) (state : run.sys.cache.state = .memRdata)
    (now : run.log.now = n) {ar : AxiAddr} {addr data : Word}
    (slave : run.sys.slave = .valid ar addr 1#8 data) :
    IcacheInv inputs (icacheMachine.step (inputs n) run) := by
  have busy : run.sys.cache.state ≠ .idle := by rw [state]; decide
  obtain ⟨held, fetch, flight, holds, latched, serving⟩ := exists_served inv busy
  rw [state] at serving
  obtain ⟨complete, miss, noAr, ready, memAr, refill⟩ := serving
  obtain ⟨offset, empty, beat⟩ | ⟨_, _, _, _, _, beat⟩ := refill
  case inr => rcases beat with same | ⟨_, same, _⟩ <;> rw [slave] at same <;> cases same
  obtain same | ⟨_, same, fresh⟩ := beat
  case inl => rw [slave] at same; cases same
  rw [slave] at same
  obtain ⟨rfl, rfl, -, rfl⟩ := BurstSlave.valid.inj same
  obtain ⟨after, slave', current⟩ := step_beat state ready memAr noAr slave (inputs n)
  have asks := asks_of_silent noAr (inputs n)
  have fence := lastFence_of_busy (busy_of_served flight) (inputs n)
  have past := inv.fence
  rw [now] at past
  have later : (icacheMachine.step (inputs n) run).log.now = n + 1 := congrArg (· + 1) now
  have noLast : (run.sys.beats && run.sys.slave.rlast (inputs n)) = false := by
    rw [slave]
    exact Bool.and_false _
  have lines := lines_beat inv after (fun index way _ => by
    change (if _ then _ else _ : BitVec 3 → BitVec 1 → Option Refill) index way = _
    rw [noLast]
    rfl)
  have next := cache_next run (inputs n)
  rw [after] at next
  have reading : (icacheMachine.step (inputs n) run).sys.cache.state = .memRdata := by
    rw [next]
    rfl
  refine inv.of_parts flight holds (fun _ => Option.some_ne_none fetch)
    (fun outside => absurd reading outside) ⟨lines.1, ?_⟩ ?_ ?_
  · intro index way outside
    refine lines.2 index way fun here => outside ⟨reading, here.trans ?_⟩
    rw [next]
    rfl
  · intro accepting
    rw [next] at accepting
    exact absurd accepting Bool.false_ne_true
  · refine ⟨_, some fetch, ?_, holds.keep (inputs n) (by rw [after]; exact ⟨rfl, rfl, rfl, rfl⟩),
      ?_, ?_⟩
    · rw [afterAsk, asks, newFetch_of_busy inv busy]
      simp
    · rw [next]
      exact latched
    · rw [reading]
      refine ⟨complete, miss, ?_, ?_, ?_, .inr ⟨data, ?_, ?_, ?_, ?_, ?_⟩⟩
      · rw [next]
        simp [Icache.afterBeat, Icache.defaults, noAr]
      · rw [next]
        rfl
      · rw [next]
        exact memAr
      · rw [next]
        simp only [Icache.afterBeat, offset]
        decide
      · rw [current, empty]
        rfl
      · rw [next]
        simp only [Icache.afterBeat, Icache.defaults, ← latched.2.2]
        rw [setWay_same, offset]
        exact Line.word_write_same _ _ (.inl rfl)
      · rw [fence]
        exact fresh.mono (Nat.le_refl _) (Nat.le_succ _)
      · rw [slave', fence, later]
        exact beatAt_raise past _ _ _

theorem step_rdata_last (inv : IcacheInv inputs run) (state : run.sys.cache.state = .memRdata)
    {ar : AxiAddr} {addr data : Word} (slave : run.sys.slave = .valid ar addr 0#8 data)
    (input : IcacheInput) :
    IcacheInv inputs (icacheMachine.step input run) := by
  have busy : run.sys.cache.state ≠ .idle := by rw [state]; decide
  obtain ⟨held, fetch, flight, holds, latched, serving⟩ := exists_served inv busy
  rw [state] at serving
  obtain ⟨complete, miss, noAr, ready, memAr, refill⟩ := serving
  obtain ⟨_, _, beat⟩ | ⟨low, offset, one, word, freshLow, beat⟩ := refill
  case inl => rcases beat with same | ⟨_, same, _⟩ <;> rw [slave] at same <;> cases same
  obtain same | ⟨_, same, fresh⟩ := beat
  case inl => rw [slave] at same; cases same
  rw [slave] at same
  obtain ⟨rfl, rfl, -, rfl⟩ := BurstSlave.valid.inj same
  obtain ⟨after, slave', current⟩ := step_beat state ready memAr noAr slave input
  have asks := asks_of_silent noAr input
  have fence := lastFence_of_busy (busy_of_served flight) input
  have last : (run.sys.beats && run.sys.slave.rlast input) = true := by
    rw [IcacheSystem.beats, slave, ready]
    rfl
  have refills : (icacheMachine.step input run).log.refills =
      setWay run.log.refills run.sys.cache.cacheIndex run.sys.cache.waySel
        (some ⟨lineAddr (tagOf fetch.req.addr) (indexOf fetch.req.addr), [low, data]⟩) := by
    change (if _ then _ else _) = _
    rw [last, if_pos rfl, one, slave, latched.2.2]
    simp only [indexOf_lineAddr]
    rfl
  have lines := lines_beat inv after (fun index way other => by
    rw [refills]
    exact setWay_index_ne _ _ _ _ other)
  have next := cache_next run input
  rw [after] at next
  have updating : (icacheMachine.step input run).sys.cache.state = .updateArray := by
    rw [next]
    rfl
  have written : (icacheMachine.step input run).sys.cache.dataArray (indexOf fetch.req.addr)
        run.sys.cache.waySel =
      (run.sys.cache.dataArray (indexOf fetch.req.addr) run.sys.cache.waySel).write 4#3 data := by
    rw [next]
    simp only [Icache.afterBeat, ← latched.2.2, offset]
    exact setWay_same _ _ _ _
  have lowWord : ((icacheMachine.step input run).sys.cache.dataArray
      (indexOf fetch.req.addr) run.sys.cache.waySel).word 0#3 = low := by
    rw [written, Line.word_zero_write_four, word]
  have highWord : ((icacheMachine.step input run).sys.cache.dataArray
      (indexOf fetch.req.addr) run.sys.cache.waySel).word 4#3 = data := by
    rw [written, Line.word_write_same _ _ (.inr rfl)]
  have lineFresh : LineFresh inputs run.log.lastFence
      (icacheMachine.step input run).log.now (tagOf fetch.req.addr) (indexOf fetch.req.addr)
      ((icacheMachine.step input run).sys.cache.dataArray (indexOf fetch.req.addr)
        run.sys.cache.waySel) := by
    rw [LineFresh, lowWord, highWord]
    exact ⟨freshLow.mono (Nat.le_refl _) (Nat.le_succ _), fresh.mono (Nat.le_refl _)
      (Nat.le_succ _)⟩
  have since : fetch.since ≤ run.log.lastFence :=
    inv.since fetch (by rw [flight]; simp)
  refine inv.of_parts flight holds (fun _ => Option.some_ne_none fetch) ?_ ⟨lines.1, ?_⟩ ?_ ?_
  · intro _
    rw [next]
    simp only [Icache.afterBeat, offset]
    decide
  · intro index way _ found
    by_cases here : index = run.sys.cache.cacheIndex
    · obtain ⟨_, before⟩ := valid_of_next found
      have single : ∀ way way' : BitVec 1, (1#2 <<< way.toNat).getLsbD way'.toNat = true →
          way' = way := by decide
      obtain rfl : way = run.sys.cache.waySel := by
        rw [after] at before
        simp only [Icache.afterBeat, if_pos here] at before
        exact single _ _ before
      have tag : (icacheMachine.step input run).sys.cache.tagArray index
          run.sys.cache.waySel = tagOf fetch.req.addr := by
        rw [next, here, ← latched.2.1]
        exact setWay_same _ _ _ _
      rw [LineOk, tag, fence, refills, here]
      rw [latched.2.2]
      exact ⟨lineFresh, (setWay_same _ _ _ _).trans (by rw [lowWord, highWord])⟩
    · exact lines.2 index way here found
  · intro accepting
    rw [next] at accepting
    exact absurd accepting Bool.false_ne_true
  · refine ⟨_, some fetch, ?_, holds.keep input (by rw [after]; exact ⟨rfl, rfl, rfl, rfl⟩),
      ?_, ?_⟩
    · rw [afterAsk, asks, newFetch_of_busy inv busy]
      simp
    · rw [next]
      exact latched
    · rw [updating]
      refine ⟨⟨?_, ?_, slave'⟩, complete, ?_⟩
      · rw [next]
        simp [Icache.afterBeat, Icache.defaults, noAr]
      · rw [next]
        rfl
      · have way : (icacheMachine.step input run).sys.cache.waySel =
            run.sys.cache.waySel := by
          rw [next]
          rfl
        rw [Icache.selected, way]
        exact (lineFresh.mono since (Nat.le_refl _)).word

/-- One cycle keeps the invariant. -/
theorem IcacheInv.step (inv : IcacheInv inputs run) (now : run.log.now = n) :
    IcacheInv inputs (icacheMachine.step (inputs n) run) := by
  cases state : run.sys.cache.state with
  | idle => exact step_idle inv state (inputs n)
  | checkCache => exact step_check inv state (inputs n)
  | memAraddr => exact step_araddr inv state now
  | memRdata =>
      have busy : run.sys.cache.state ≠ .idle := by rw [state]; decide
      obtain ⟨_, fetch, _, _, _, serving⟩ := exists_served inv busy
      rw [state] at serving
      obtain ⟨_, _, _, _, _, ⟨_, _, wait | ⟨data, valid, _⟩⟩ | ⟨_, _, _, _, _, wait | ⟨data, valid,
        _⟩⟩⟩ :=
        serving
      · exact step_rdata_wait inv state now wait
      · exact step_rdata_first inv state now valid
      · exact step_rdata_wait inv state now wait
      · exact step_rdata_last inv state valid (inputs n)
  | updateArray => exact step_update inv state (inputs n)
  | instrFetch => exact step_fetch inv state (inputs n)

end Step

end Ysyx.Npc
