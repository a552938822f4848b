import Ysyx.Npc.CoreProperties
import Ysyx.Npc.IcacheResidency

/-! What the state without a reset value makes of the core after a reset: the register file,
and the data, tag and valid arrays of the instruction cache. -/

set_option autoImplicit false

namespace Ysyx.Npc

open Rv32 (Word)

/-!
## The register file
-/

/-- The operands of the word in `idu` read zero where they read register 0. -/
def Core.ReadsZero (core : Core) : Prop :=
  let d := idu core.ifu.instr
  (d.rs1id = 0#5 → core.rf d.rs1id = 0#32) ∧ (d.rs2id = 0#5 → core.rf d.rs2id = 0#32)

/-- Every operand read of register 0 yields 0, in every run from the release of the reset. -/
def X0ReadsZero (build : Build) (rf : Regfile) : Prop :=
  ∀ (σ : Type) (dev : Device σ) (choices : Nat → Choice) (mem : σ) (n : Nat),
    let sys := (machine dev).run choices 0 (System.reset build rf mem) n
    sys.core.ifuValid (sys.ifuBus (choices n)) = true → sys.core.ReadsZero

/-- A memory of `lui x0, 0`. -/
def luiDevice : Device Unit := ⟨fun mem _ => (0x00000037#32, mem), fun mem _ _ _ => mem⟩

theorem x0ReadsZero_iff (build : Build) (rf : Regfile) :
    X0ReadsZero build rf ↔ rf 0#5 = 0#32 := by
  constructor
  · intro reads
    exact (reads Unit luiDevice (fun _ => .prompt) () 3 rfl).1 rfl
  · intro zero σ dev choices mem n sys _
    have kept : sys.core.rf 0#5 = 0#32 := run_x0 dev choices build mem zero n
    exact ⟨fun first => by rw [first]; exact kept, fun second => by rw [second]; exact kept⟩

/-!
## The arrays of the cache
-/

/-- The cache when its reset is released: the valid bits have no reset value either. -/
def Icache.release (any : Icache) : Icache := { any.reset with dataValid := any.dataValid }

def icacheFrom (any : Icache) (inputs : Nat → IcacheInput) (n : Nat) : IcacheRun :=
  icacheMachine.run inputs 0 ⟨⟨any.release, none, .idle⟩, IcacheLog.reset⟩ n

/-- Every word the cache returns was in memory at its address at some moment since the reset. -/
def ReturnsFresh (any : Icache) : Prop :=
  ∀ (inputs : Nat → IcacheInput) (n : Nat),
    (icacheFrom any inputs n).sys.answers (inputs n) = true →
    ∃ fetch rest, (icacheFrom any inputs n).log.inFlight = fetch :: rest ∧
      Fresh inputs 0 n fetch.req.addr (icacheFrom any inputs n).sys.cache.ifuRdata

theorem release_of_empty {any : Icache} (empty : ∀ index, any.dataValid index = 0#2) :
    any.release = any.reset := by
  have none : any.dataValid = fun _ => 0#2 := funext empty
  rw [Icache.release, none]
  rfl

theorem returnsFresh_of_empty {any : Icache} (empty : ∀ index, any.dataValid index = 0#2) :
    ReturnsFresh any := by
  intro inputs n answers
  have same : icacheFrom any inputs n = icacheAt any inputs n := by
    rw [icacheFrom, release_of_empty empty]
    rfl
  rw [same] at answers ⊢
  have transparent := (icacheInv_at inputs any n).transparent
  obtain ⟨fetch, rest, flight, _, _, _, fresh, _⟩ :=
    transparent.answer (by rwa [icacheAt_now])
  rw [icacheAt_now] at fresh
  exact ⟨fetch, rest, flight, fresh.mono (Nat.zero_le _) (Nat.le_refl n)⟩

/-- The fetch of the first word of a line. -/
def lineFetch (tag : BitVec 26) (index : BitVec 3) : FetchReq where
  word := (lineAddr tag index).extractLsb' 2 30
  id := 0#4

theorem addr_lineFetch (tag : BitVec 26) (index : BitVec 3) :
    (lineFetch tag index).addr = lineAddr tag index := by
  apply BitVec.eq_of_getLsbD_eq
  intro i bound
  rw [FetchReq.addr, lineFetch, BitVec.getLsbD_append, BitVec.getLsbD_extractLsb']
  by_cases low : i < 2
  · have zero : (lineAddr tag index).getLsbD i = false := by
      rw [lineAddr, BitVec.getLsbD_append, if_pos (by omega)]
      exact BitVec.getLsbD_zero
    rw [if_pos low, zero]
    exact BitVec.getLsbD_zero
  · rw [if_neg low, show 2 + (i - 2) = i by omega, decide_eq_true (show i - 2 < 30 by omega),
      Bool.true_and]

/-- Everyone is ready, and memory holds the one word everywhere. -/
def constantInput (req : FetchReq) (data : Word) : IcacheInput where
  want := some req
  ifuRready := true
  fence := false
  memArready := true
  memRaise := true
  idleData := 0#32
  idleLast := false
  mem := fun _ => data

/-- The way that a look-up of the address finds in these arrays. -/
def Icache.lookup (any : Icache) (addr : Word) : Option (BitVec 1) :=
  Icache.checkCache
    { any with
      icacheValid := any.dataValid (indexOf addr)
      icacheTag := any.tagArray (indexOf addr) } (tagOf addr)

/-- A cycle in which nothing is asked, answered or accepted leaves the fetches in flight. -/
theorem inFlight_of_silent {run : IcacheRun} (input : IcacheInput)
    (asks : run.sys.cache.memArvalid = false) (answers : run.sys.cache.ifuRvalid = false)
    (accepts : run.sys.cache.ifuArready = false) :
    (icacheMachine.step input run).log.inFlight = run.log.inFlight := by
  simp [icacheMachine, IcacheLog.next, IcacheSystem.asks, IcacheSystem.answers,
    IcacheSystem.accepts, asks, answers, accepts]

/-- A hit is answered two cycles after its look-up. -/
theorem hit_answered {run : IcacheRun} {input : IcacheInput} {req : FetchReq} {way : BitVec 1}
    (noFence : input.fence = false) (state : run.sys.cache.state = .checkCache)
    (found : run.sys.cache.checkCache run.sys.cache.cacheTag = some way)
    (latched : run.sys.cache.ifuRead = req.ar) (asks : run.sys.cache.memArvalid = false)
    (answers : run.sys.cache.ifuRvalid = false) (accepts : run.sys.cache.ifuArready = false) :
    let after := icacheMachine.step input (icacheMachine.step input run)
    after.sys.cache.ifuRvalid = true ∧ after.log.inFlight = run.log.inFlight ∧
      after.sys.cache.ifuRdata =
        (run.sys.cache.dataArray (indexOf req.addr) way).word (offsetOf req.addr) := by
  have hit : (icacheMachine.step input run).sys.cache =
      { run.sys.cache.defaults (run.sys.bus input) with state := .instrFetch, waySel := way } := by
    rw [step_cache noFence, Icache.caseStep, state]
    simp only [Icache.checkStep, found]
  have silent : (icacheMachine.step input run).sys.cache.ifuRvalid = false := by
    rw [hit]
    simp [Icache.defaults, answers]
  have fetched : (icacheMachine.step input (icacheMachine.step input run)).sys.cache =
      (icacheMachine.step input run).sys.cache.fetchStep
        ((icacheMachine.step input run).sys.bus input) := by
    rw [step_cache noFence, Icache.caseStep, hit]
  refine ⟨?_, ?_, ?_⟩
  · rw [fetched, Icache.fetchStep, silent]
    simp
  · have noAsk : (icacheMachine.step input run).sys.cache.memArvalid = false := by
      rw [hit]
      simp [Icache.defaults, asks]
    have noAccept : (icacheMachine.step input run).sys.cache.ifuArready = false := by
      rw [hit]
      rfl
    rw [inFlight_of_silent input noAsk silent noAccept,
      inFlight_of_silent input asks answers accepts]
  · rw [fetched, Icache.fetchStep, silent, hit]
    simp [Icache.defaults, latched, FetchReq.ar]

/-- A fetch right after the reset is answered from a line that was there before it. -/
theorem answer_of_lookup {any : Icache} {req : FetchReq} {way : BitVec 1} (data : Word)
    (found : any.lookup req.addr = some way) :
    let run := icacheFrom any (fun _ => constantInput req data) 4
    run.sys.answers (constantInput req data) = true ∧
      (∃ fetch, run.log.inFlight = [fetch] ∧ fetch.req = req) ∧
      run.sys.cache.ifuRdata = (any.dataArray (indexOf req.addr) way).word (offsetOf req.addr) := by
  obtain ⟨valid, flight, value⟩ := @hit_answered
    (icacheFrom any (fun _ => constantInput req data) 2) (constantInput req data) req way rfl rfl
    found rfl rfl rfl rfl
  refine ⟨?_, ⟨_, flight, rfl⟩, value⟩
  change (_ && true) = true
  rw [Bool.and_true]
  exact valid

theorem lookup_lineFetch (any : Icache) (tag : BitVec 26) (index : BitVec 3) :
    any.lookup (lineFetch tag index).addr =
      if (any.dataValid index).getLsbD 0 && tag == any.tagArray index 0#1 then some 0#1
      else if (any.dataValid index).getLsbD 1 && tag == any.tagArray index 1#1 then some 1#1
      else none := by
  rw [Icache.lookup, Icache.checkCache, addr_lineFetch, tagOf_lineAddr, indexOf_lineAddr]

/-- A valid bit makes some address hit. -/
theorem exists_lookup {any : Icache} {index : BitVec 3} (valid : any.dataValid index ≠ 0#2) :
    ∃ (req : FetchReq) (way : BitVec 1), any.lookup req.addr = some way := by
  have bits : ∀ v : BitVec 2, v ≠ 0#2 → v.getLsbD 0 = false → v.getLsbD 1 = true := by decide
  cases first : (any.dataValid index).getLsbD 0 with
  | true =>
      refine ⟨lineFetch (any.tagArray index 0#1) index, 0#1, ?_⟩
      rw [lookup_lineFetch, first, beq_self_eq_true]
      rfl
  | false =>
      refine ⟨lineFetch (any.tagArray index 1#1) index, 1#1, ?_⟩
      rw [lookup_lineFetch, first, bits _ valid first, beq_self_eq_true]
      rfl

theorem returnsFresh_iff (any : Icache) :
    ReturnsFresh any ↔ ∀ index, any.dataValid index = 0#2 := by
  constructor
  · intro fresh index
    by_contra valid
    obtain ⟨req, way, found⟩ := exists_lookup valid
    obtain ⟨answers, ⟨fetch, flight, rfl⟩, value⟩ := answer_of_lookup
      (~~~(any.dataArray (indexOf req.addr) way).word (offsetOf req.addr)) found
    obtain ⟨_, _, _, _, _, _, same⟩ := fresh _ 4 answers
    rw [value] at same
    have bit := congrArg (fun word => word.getLsbD 0) same
    simp [constantInput] at bit
  · exact returnsFresh_of_empty

/-- A reset erases the past exactly when register 0 holds zero and no line is valid as it is
released. -/
theorem reset_erases_iff (build : Build) (rf : Regfile) (any : Icache) :
    X0ReadsZero build rf ∧ ReturnsFresh any ↔
      rf 0#5 = 0#32 ∧ ∀ index, any.dataValid index = 0#2 := by
  rw [x0ReadsZero_iff, returnsFresh_iff]

theorem reset_keeps_x0_fails :
    ¬ ∀ (build : Build) (rf : Regfile) (any : Icache), X0ReadsZero build rf ∧ ReturnsFresh any := by
  intro always
  have zero := (x0ReadsZero_iff .ysyxsoc fun _ => 1#32).mp (always .ysyxsoc _ default).1
  cases zero

end Ysyx.Npc
