import Ysyx.Npc.Masters
import Ysyx.Lib.Machine

/-! `axi_icache`: a two-way cache of eight sets of eight bytes, between the fetch unit and
a memory that changes as it likes. -/

set_option autoImplicit false

namespace Ysyx.Npc

open Rv32 (Word)
open Lib (Machine)

/-!
## Address fields
-/

@[simp] def cachelineSize : Nat := 8

def tagOf (addr : Word) : BitVec 26 := addr.extractLsb' 6 26
def indexOf (addr : Word) : BitVec 3 := addr.extractLsb' 3 3
def offsetOf (addr : Word) : BitVec 3 := addr.extractLsb' 0 3

/-- The address of the line with this tag and index. -/
def lineAddr (tag : BitVec 26) (index : BitVec 3) : Word := tag ++ index ++ 0#3

abbrev Line : Type := BitVec 64

/-- `line[offset*8 +: 32]` -/
def Line.word (line : Line) (offset : BitVec 3) : Word :=
  (line >>> (8 * offset.toNat)).setWidth 32

def Line.write (line : Line) (offset : BitVec 3) (data : Word) : Line :=
  (line &&& ~~~(0xffffffff#64 <<< (8 * offset.toNat))) |||
    (data.setWidth 64 <<< (8 * offset.toNat))

/-!
## The cache
-/

inductive IcacheState where
  | idle | checkCache | memAraddr | memRdata | updateArray | instrFetch
  deriving DecidableEq, Inhabited, Repr

/-- The registers, and the latches `ifu_cache_tag`, `ifu_cache_index`, `ifu_cache_offset`. -/
structure Icache where
  state : IcacheState
  ifuArready : Bool
  ifuRvalid : Bool
  ifuRdata : Word
  ifuRlast : Bool
  ifuRid : BitVec 4
  ifuRead : AxiAddr
  cacheTag : BitVec 26
  cacheIndex : BitVec 3
  cacheOffset : BitVec 3
  icacheTag : BitVec 1 → BitVec 26
  icacheValid : BitVec 2
  waySel : BitVec 1
  wrOffset : BitVec 3
  memArvalid : Bool
  memAr : AxiAddr
  memRready : Bool
  dataArray : BitVec 3 → BitVec 1 → Line
  dataValid : BitVec 3 → BitVec 2
  tagArray : BitVec 3 → BitVec 1 → BitVec 26
  deriving Inhabited

/-- After reset. The arrays, latches and data registers have none; all valid bits are 0. -/
def Icache.reset (any : Icache) : Icache :=
  { any with
    state := .idle
    ifuArready := false
    ifuRvalid := false
    ifuRlast := false
    ifuRid := 0#4
    ifuRead := AxiAddr.reset
    waySel := 0#1
    wrOffset := 0#3
    memArvalid := false
    memAr := AxiAddr.reset
    memRready := false
    dataValid := fun _ => 0#2 }

/-- What the cache reads of its two buses. -/
structure IcacheBus where
  ifuArvalid : Bool
  ifuAr : AxiAddr
  ifuRready : Bool
  memArready : Bool
  memRvalid : Bool
  memRdata : Word
  memRlast : Bool
  fence : Bool

/-- The first way that is valid and carries the tag. -/
def Icache.checkCache (cache : Icache) (tag : BitVec 26) : Option (BitVec 1) :=
  if cache.icacheValid.getLsbD 0 && tag == cache.icacheTag 0#1 then some 0#1 else
  if cache.icacheValid.getLsbD 1 && tag == cache.icacheTag 1#1 then some 1#1 else none

def setWay {α : Type} (array : BitVec 3 → BitVec 1 → α) (index : BitVec 3) (way : BitVec 1) (x : α) :
    BitVec 3 → BitVec 1 → α :=
  fun i w => if i = index ∧ w = way then x else array i w

/-- What the combinational block sets before its `case`. -/
def Icache.defaults (cache : Icache) (bus : IcacheBus) : Icache :=
  { cache with
    ifuArready := false
    ifuRvalid := cache.ifuRvalid && !bus.ifuRready
    memArvalid := cache.memArvalid && !bus.memArready
    memRready := false }

def Icache.idleStep (cache : Icache) (bus : IcacheBus) : Icache :=
  let next := cache.defaults bus
  if bus.ifuArvalid && cache.ifuArready then
    let index := indexOf bus.ifuAr.addr
    { next with
      state := .checkCache
      ifuRead := { bus.ifuAr with size := if bus.ifuAr.size < 2#3 then bus.ifuAr.size else 2#3 }
      cacheTag := tagOf bus.ifuAr.addr
      cacheIndex := index
      cacheOffset := offsetOf bus.ifuAr.addr
      icacheValid := cache.dataValid index
      icacheTag := cache.tagArray index }
  else { next with ifuArready := true }

def Icache.checkStep (cache : Icache) (bus : IcacheBus) : Icache :=
  let next := cache.defaults bus
  match cache.checkCache cache.cacheTag with
  | some way => { next with state := .instrFetch, waySel := way }
  | none => { next with state := .memAraddr, waySel := cache.waySel + 1#1 }

def Icache.araddrStep (cache : Icache) (bus : IcacheBus) : Icache :=
  let next := cache.defaults bus
  if cache.memArvalid && bus.memArready then { next with state := .memRdata, memRready := true }
  else
    { next with
      memArvalid := true
      memAr :=
        { addr := cache.ifuRead.addr &&& ~~~7#32
          id := cache.ifuRead.id
          len := BitVec.ofNat 8 (cachelineSize / (1 <<< cache.ifuRead.size.toNat)) - 1#8
          size := cache.ifuRead.size
          burst := cache.ifuRead.burst } }

def Icache.rdataStep (cache : Icache) (bus : IcacheBus) : Icache :=
  let next := cache.defaults bus
  let index := cache.cacheIndex
  let way := cache.waySel
  if bus.memRvalid && cache.memRready then
    { next with
      state := if bus.memRlast then .updateArray else .memRdata
      memRready := !bus.memRlast
      wrOffset := cache.wrOffset + (1#3 <<< cache.memAr.size.toNat)
      dataArray := setWay cache.dataArray index way
        ((cache.dataArray index way).write cache.wrOffset bus.memRdata)
      dataValid := fun i => if i = index then 1#2 <<< way.toNat else cache.dataValid i
      tagArray := setWay cache.tagArray index way cache.cacheTag }
  else { next with memRready := true }

def Icache.fetchStep (cache : Icache) (bus : IcacheBus) : Icache :=
  let next := cache.defaults bus
  if bus.ifuRready || !cache.ifuRvalid then
    let read := cache.ifuRead
    let incr := read.burst != 0b00#2
    let index := if incr then indexOf read.addr else cache.cacheIndex
    let offset := if incr then offsetOf read.addr else cache.cacheOffset
    { next with
      state := if read.len = 0#8 then .idle else .instrFetch
      ifuArready := read.len == 0#8
      ifuRvalid := true
      ifuRdata := (cache.dataArray index cache.waySel).word offset
      ifuRlast := read.len == 0#8
      ifuRid := read.id
      ifuRead :=
        { read with
          addr := if incr then read.addr + (1#32 <<< read.size.toNat) else read.addr
          len := read.len - 1#8 }
      cacheTag := if incr then tagOf read.addr else cache.cacheTag
      cacheIndex := index
      cacheOffset := offset }
  else next

def Icache.caseStep (cache : Icache) (bus : IcacheBus) : Icache :=
  match cache.state with
  | .idle => cache.idleStep bus
  | .checkCache => cache.checkStep bus
  | .memAraddr => cache.araddrStep bus
  | .memRdata => cache.rdataStep bus
  | .updateArray => { cache.defaults bus with state := .instrFetch }
  | .instrFetch => cache.fetchStep bus

/-- One clock edge; the clearing by `fence_i` is the last assignment. -/
def Icache.next (cache : Icache) (bus : IcacheBus) : Icache :=
  let next := cache.caseStep bus
  { next with dataValid := if bus.fence then fun _ => 0#2 else next.dataValid }

/-!
## The environment
-/

/-- A fetch of an aligned word in one beat. -/
structure FetchReq where
  word : BitVec 30
  id : BitVec 4
  deriving DecidableEq, Repr

def FetchReq.addr (req : FetchReq) : Word := req.word ++ 0#2

def FetchReq.ar (req : FetchReq) : AxiAddr := ⟨req.addr, req.id, 0#8, 2#3, 0b01#2⟩

/-- The choices of the environment in a cycle, and the memory's content in it. -/
structure IcacheInput where
  want : Option FetchReq
  ifuRready : Bool
  fence : Bool
  memArready : Bool
  memRaise : Bool
  idleData : Word
  idleLast : Bool
  mem : Word → Word

/-- A memory that answers incrementing bursts, each word read as its beat is raised. -/
inductive BurstSlave where
  | idle
  | wait (ar : AxiAddr) (addr : Word) (left : BitVec 8)
  | valid (ar : AxiAddr) (addr : Word) (left : BitVec 8) (data : Word)
  deriving DecidableEq, Repr

namespace BurstSlave

def isIdle : BurstSlave → Bool
  | .idle => true
  | _ => false

def rvalid : BurstSlave → Bool
  | .valid _ _ _ _ => true
  | _ => false

def rdata (input : IcacheInput) : BurstSlave → Word
  | .valid _ _ _ data => data
  | _ => input.idleData

def rlast (input : IcacheInput) : BurstSlave → Bool
  | .valid _ _ left _ => left == 0#8
  | _ => input.idleLast

def raise (input : IcacheInput) (ar : AxiAddr) (addr : Word) (left : BitVec 8) : BurstSlave :=
  if input.memRaise then .valid ar addr left (input.mem addr) else .wait ar addr left

def next (input : IcacheInput) (asked : Option AxiAddr) (rready : Bool) : BurstSlave → BurstSlave
  | .idle =>
      match asked with
      | some ar => raise input ar ar.addr ar.len
      | none => .idle
  | .wait ar addr left => raise input ar addr left
  | .valid ar addr left data =>
      if rready then
        if left = 0#8 then .idle else raise input ar (addr + (1#32 <<< ar.size.toNat)) (left - 1#8)
      else .valid ar addr left data

end BurstSlave

structure IcacheSystem where
  cache : Icache
  /-- The request the fetch unit holds on its AR channel. -/
  ifu : Option FetchReq
  slave : BurstSlave

namespace IcacheSystem

def reset (any : Icache) : IcacheSystem := ⟨any.reset, none, .idle⟩

/-- The fetch that is accepted in this cycle. -/
def accepts (sys : IcacheSystem) : Option FetchReq :=
  if sys.cache.ifuArready then sys.ifu else none

/-- The fetch unit takes a beat in this cycle. -/
def answers (sys : IcacheSystem) (input : IcacheInput) : Bool :=
  sys.cache.ifuRvalid && input.ifuRready

/-- The address the memory accepts in this cycle. -/
def asks (sys : IcacheSystem) (input : IcacheInput) : Option AxiAddr :=
  if sys.cache.memArvalid && (input.memArready && sys.slave.isIdle) then some sys.cache.memAr
  else none

/-- The cache takes a beat of the memory in this cycle. -/
def beats (sys : IcacheSystem) : Bool := sys.slave.rvalid && sys.cache.memRready

def bus (sys : IcacheSystem) (input : IcacheInput) : IcacheBus where
  ifuArvalid := sys.ifu.isSome
  ifuAr := (sys.ifu.map FetchReq.ar).getD AxiAddr.reset
  ifuRready := input.ifuRready
  memArready := input.memArready && sys.slave.isIdle
  memRvalid := sys.slave.rvalid
  memRdata := sys.slave.rdata input
  memRlast := sys.slave.rlast input
  fence := input.fence

def next (input : IcacheInput) (sys : IcacheSystem) : IcacheSystem where
  cache := sys.cache.next (sys.bus input)
  ifu := if sys.ifu.isSome && !sys.cache.ifuArready then sys.ifu else input.want
  slave := sys.slave.next input (sys.asks input) sys.cache.memRready

end IcacheSystem

/-!
## What is observed of a run
-/

/-- A fetch in flight: the last fence before it, whether its line was in the cache when it
was accepted, and the memory reads made for it. -/
structure Fetch where
  req : FetchReq
  since : Nat
  hit : Bool
  reads : List AxiAddr
  deriving DecidableEq, Repr

/-- A line read from memory. -/
structure Refill where
  addr : Word
  words : List Word
  deriving DecidableEq, Repr

structure IcacheLog where
  now : Nat
  /-- The last cycle with `fence_i` high and no fetch in flight. -/
  lastFence : Nat
  /-- Accepted and not answered, in order. -/
  inFlight : List Fetch
  accepted : Nat
  answered : Nat
  /-- The burst the memory is answering. -/
  current : Refill
  /-- The last refill of each line. -/
  refills : BitVec 3 → BitVec 1 → Option Refill

def IcacheLog.reset : IcacheLog where
  now := 0
  lastFence := 0
  inFlight := []
  accepted := 0
  answered := 0
  current := ⟨0#32, []⟩
  refills := fun _ _ => none

def Icache.holds (cache : Icache) (addr : Word) (way : BitVec 1) : Bool :=
  (cache.dataValid (indexOf addr)).getLsbD way.toNat &&
    tagOf addr == cache.tagArray (indexOf addr) way

/-- The read is made for the youngest fetch in flight. -/
def addRead (ar : AxiAddr) : List Fetch → List Fetch
  | [] => []
  | [fetch] => [{ fetch with reads := fetch.reads ++ [ar] }]
  | fetch :: rest => fetch :: addRead ar rest

def IcacheLog.next (sys : IcacheSystem) (input : IcacheInput) (log : IcacheLog) : IcacheLog where
  now := log.now + 1
  lastFence := if input.fence && log.inFlight.isEmpty then log.now else log.lastFence
  inFlight :=
    let asked :=
      match sys.asks input with
      | some ar => addRead ar log.inFlight
      | none => log.inFlight
    (if sys.answers input then asked.tail else asked) ++
      match sys.accepts with
      | some req =>
          [⟨req, log.lastFence, sys.cache.holds req.addr 0#1 || sys.cache.holds req.addr 1#1, []⟩]
      | none => []
  accepted := log.accepted + (if sys.accepts.isSome then 1 else 0)
  answered := log.answered + (if sys.answers input then 1 else 0)
  current :=
    match sys.asks input with
    | some ar => ⟨ar.addr, []⟩
    | none =>
        if sys.beats then ⟨log.current.addr, log.current.words ++ [sys.slave.rdata input]⟩
        else log.current
  refills :=
    if sys.beats && sys.slave.rlast input then
      setWay log.refills (indexOf log.current.addr) sys.cache.waySel
        (some ⟨log.current.addr, log.current.words ++ [sys.slave.rdata input]⟩)
    else log.refills

structure IcacheRun where
  sys : IcacheSystem
  log : IcacheLog

def icacheMachine : Machine IcacheInput IcacheRun Unit where
  step := fun input run => ⟨run.sys.next input, run.log.next run.sys input⟩
  out := fun _ _ => []

/-!
## Transparency
-/

/-- The burst that reads the line of a fetch. -/
def FetchReq.lineRead (req : FetchReq) : AxiAddr :=
  ⟨lineAddr (tagOf req.addr) (indexOf req.addr), req.id, 1#8, 2#3, 0b01#2⟩

/-- A hit reads nothing, a miss its line once. -/
def Fetch.Complete (fetch : Fetch) : Prop :=
  fetch.reads = if fetch.hit then [] else [fetch.req.lineRead]

/-- The word was in memory in a cycle from `since` on. -/
def Fresh (inputs : Nat → IcacheInput) (since now : Nat) (addr data : Word) : Prop :=
  ∃ t, since ≤ t ∧ t < now ∧ (inputs t).mem addr = data

/-- What the cache shows in a cycle is what a memory would show. -/
structure IcacheRun.Transparent (inputs : Nat → IcacheInput) (run : IcacheRun) : Prop where
  /-- A beat answers the oldest fetch in flight, with a word of memory. -/
  answer : run.sys.answers (inputs run.log.now) = true →
    ∃ fetch rest, run.log.inFlight = fetch :: rest ∧ fetch.Complete ∧
      run.sys.cache.ifuRlast = true ∧ run.sys.cache.ifuRid = fetch.req.id ∧
      Fresh inputs fetch.since run.log.now fetch.req.addr run.sys.cache.ifuRdata ∧
      ((∀ t, fetch.since ≤ t → t ≤ run.log.now →
          (inputs t).mem fetch.req.addr = (inputs run.log.now).mem fetch.req.addr) →
        run.sys.cache.ifuRdata = (inputs run.log.now).mem fetch.req.addr)
  /-- Every fetch is answered at most once. -/
  once : run.log.accepted = run.log.answered + run.log.inFlight.length
  /-- The memory is asked for the line of a fetch in flight that missed, once. -/
  ask : ∀ ar, run.sys.asks (inputs run.log.now) = some ar →
    ∃ older fetch, run.log.inFlight = older ++ [fetch] ∧ fetch.hit = false ∧ fetch.reads = [] ∧
      ar = fetch.req.lineRead
  /-- The write offset is 0 outside a refill. -/
  offset : run.sys.cache.state ≠ .memRdata → run.sys.cache.wrOffset = 0#3
  /-- Outside a refill every valid line holds what its last refill read. -/
  lines : run.sys.cache.state ≠ .memRdata → ∀ index way,
    (run.sys.cache.dataValid index).getLsbD way.toNat = true →
      let line := run.sys.cache.dataArray index way
      run.log.refills index way =
        some ⟨lineAddr (run.sys.cache.tagArray index way) index, [line.word 0#3, line.word 4#3]⟩
  /-- At most one way of a set matches. -/
  unique : ∀ addr, (run.sys.cache.holds addr 0#1 && run.sys.cache.holds addr 1#1) = false

end Ysyx.Npc
