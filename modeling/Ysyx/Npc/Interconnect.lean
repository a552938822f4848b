import Ysyx.Lib.Skid
import Ysyx.Npc.Arbiter

/-! `axi_interconnect.v` cycle by cycle between any number of masters and slaves, with the widths
of its instances in `top.v`. One transaction is under way at a time. -/

set_option autoImplicit false

namespace Ysyx.Npc.Amba

open Lib (Machine Skid)

/-!
## Ports
-/

/-- The address channels. The user signals are disabled in every instance. -/
structure AxiReq where
  id : BitVec 4
  addr : BitVec 32
  len : BitVec 8
  size : BitVec 3
  burst : BitVec 2
  lock : Bool
  cache : BitVec 4
  prot : BitVec 3
  qos : BitVec 4
  deriving DecidableEq, Repr

structure WBeat where
  data : BitVec 32
  strb : BitVec 4
  last : Bool
  deriving DecidableEq, Repr

structure BResp where
  id : BitVec 4
  resp : BitVec 2
  deriving DecidableEq, Repr

structure RBeat where
  id : BitVec 4
  data : BitVec 32
  resp : BitVec 2
  last : Bool
  deriving DecidableEq, Repr

/-- What a master drives. -/
structure MasterLines where
  awvalid : Bool
  aw : AxiReq
  wvalid : Bool
  w : WBeat
  bready : Bool
  arvalid : Bool
  ar : AxiReq
  rready : Bool

/-- What a slave drives. -/
structure SlaveLines where
  awready : Bool
  wready : Bool
  bvalid : Bool
  b : BResp
  arready : Bool
  rvalid : Bool
  r : RBeat

/-- `M_BASE_ADDR`, `M_ADDR_WIDTH` and the other tables, by slave and region; `FORWARD_ID` is set. -/
structure AddressMap where
  sCount : Nat
  mCount : Nat
  mRegions : Nat
  baseAddr : Nat → Nat → BitVec 32
  addrWidth : Nat → Nat → Nat
  secure : Nat → Bool
  connectRead : Nat → Nat → Bool
  connectWrite : Nat → Nat → Bool

namespace AddressMap

variable (map : AddressMap)

def hits (read : Bool) (s : Nat) (req : AxiReq) (m region : Nat) : Bool :=
  let width := map.addrWidth m region
  width != 0 && (!map.secure m || !req.prot.getLsbD 1) &&
    (if read then map.connectRead m s else map.connectWrite m s) &&
    req.addr >>> width == map.baseAddr m region >>> width

/-- The loop over slaves and regions: the last that hits. -/
def decode (read : Bool) (s : Nat) (req : AxiReq) : Option (Nat × Nat) :=
  ((List.range map.mCount).flatMap fun m => (List.range map.mRegions).map fun region =>
    (m, region)).foldl
      (fun found place => if map.hits read s req place.1 place.2 then some place else found) none

end AddressMap

/-!
## The interconnect
-/

inductive BusState where
  | idle | decode | write | writeResp | writeDrop | read | readDrop | waitIdle
  deriving DecidableEq, Repr

structure Interconnect where
  state : BusState
  mSelect : Nat
  req : AxiReq
  region : Nat
  addrValid : Bool
  bresp : BitVec 2
  sAwready : Nat → Bool
  sWready : Nat → Bool
  sBvalid : Nat → Bool
  sArready : Nat → Bool
  mAwvalid : Nat → Bool
  mBready : Nat → Bool
  mArvalid : Nat → Bool
  mRready : Nat → Bool
  arbiter : Arbiter
  r : Skid Nat RBeat
  w : Skid Nat WBeat

namespace Interconnect

/-- The registers without a reset keep what they had. -/
def reset (ic : Interconnect) : Interconnect :=
  { ic with
    state := .idle
    sAwready := fun _ => false
    sWready := fun _ => false
    sBvalid := fun _ => false
    sArready := fun _ => false
    mAwvalid := fun _ => false
    mBready := fun _ => false
    mArvalid := fun _ => false
    mRready := fun _ => false
    arbiter := .reset
    r := { ic.r with ready := false, valid := fun _ => false, tempValid := false }
    w := { ic.w with ready := false, valid := fun _ => false, tempValid := false } }

variable (map : AddressMap) (masters : Nat → MasterLines) (slaves : Nat → SlaveLines)
  (ic : Interconnect)

def isRead : Bool := ic.arbiter.grantEncoded % 2 == 1
def sSelect : Nat := ic.arbiter.grantEncoded / 2

/-- `current_s_axi_*` and `current_m_axi_*`. -/
def master : MasterLines := masters ic.sSelect
def slave : SlaveLines := slaves ic.mSelect

def request (p : Nat) : Bool :=
  if p % 2 = 1 then (masters (p / 2)).arvalid else (masters (p / 2)).awvalid

def acknowledge (p : Nat) : Bool :=
  let master := masters (p / 2)
  ic.arbiter.grant p &&
    if p % 2 = 1 then ic.r.valid (p / 2) && master.rready && ic.r.out.last
    else ic.sBvalid (p / 2) && master.bready

/-- A beat for the read datapath. -/
def rPush : Bool :=
  match ic.state with
  | .read => ic.mRready ic.mSelect && (ic.slave slaves).rvalid
  | .readDrop => true
  | _ => false

def rItem : RBeat :=
  match ic.state with
  | .readDrop => ⟨ic.req.id, 0#32, 3#2, ic.req.len == 0#8⟩
  | _ => { (ic.slave slaves).r with id := ic.req.id }

/-- A beat for the write datapath. -/
def wPush : Bool :=
  match ic.state with
  | .write => ic.sWready ic.sSelect && (ic.master masters).wvalid
  | _ => false

def rEarly : Bool := ic.r.early ic.sSelect (ic.master masters).rready (ic.rPush slaves)
def wEarly : Bool := ic.w.early ic.mSelect (ic.slave slaves).wready (ic.wPush masters)

def target : Option (Nat × Nat) := map.decode ic.isRead ic.sSelect ic.req

/-- The last beat of a write is taken from the master. -/
def wLast : Bool :=
  ic.sWready ic.sSelect && (ic.master masters).wvalid && (ic.master masters).w.last

def stateNext : BusState :=
  match ic.state with
  | .idle => if ic.arbiter.grantValid then .decode else .idle
  | .decode =>
      match ic.target map with
      | some _ => if ic.isRead then .read else .write
      | none => if ic.isRead then .readDrop else .writeDrop
  | .write => if ic.wLast masters then .writeResp else .write
  | .writeResp =>
      if ic.mBready ic.mSelect && (ic.slave slaves).bvalid then .waitIdle else .writeResp
  | .writeDrop => if ic.wLast masters then .waitIdle else .writeDrop
  | .read => if ic.rPush slaves && (ic.slave slaves).r.last then .waitIdle else .read
  | .readDrop => if ic.r.ready && ic.req.len == 0#8 then .waitIdle else .readDrop
  | .waitIdle =>
      if !ic.arbiter.grantValid || (List.range (2 * map.sCount)).any (ic.acknowledge masters) then
        .idle
      else .waitIdle

def mSelectNext : Nat :=
  match ic.state, ic.target map with
  | .decode, some (m, _) => m
  | _, _ => ic.mSelect

def regionNext : Nat :=
  match ic.state, ic.target map with
  | .decode, some (_, region) => region
  | _, _ => ic.region

def reqNext : AxiReq :=
  match ic.state with
  | .idle =>
      if ic.arbiter.grantValid then
        if ic.isRead then (ic.master masters).ar else (ic.master masters).aw
      else ic.req
  | .readDrop => if ic.r.ready then { ic.req with len := ic.req.len - 1#8 } else ic.req
  | _ => ic.req

def addrValidNext : Bool :=
  match ic.state with
  | .idle => ic.arbiter.grantValid || ic.addrValid
  | .write | .writeDrop | .read => false
  | _ => ic.addrValid

def brespNext : BitVec 2 :=
  match ic.state with
  | .decode => if (ic.target map).isNone && !ic.isRead then 3#2 else ic.bresp
  | .writeResp =>
      if ic.mBready ic.mSelect && (ic.slave slaves).bvalid then (ic.slave slaves).b.resp
      else ic.bresp
  | _ => ic.bresp

/-- The vector that is `value` at one place and clear elsewhere. -/
def only (i : Nat) (value : Bool) : Nat → Bool := Function.update (fun _ => false) i value

def sArreadyNext : Nat → Bool :=
  only ic.sSelect (ic.state == .idle && ic.arbiter.grantValid && ic.isRead)

def sAwreadyNext : Nat → Bool :=
  only ic.sSelect (ic.state == .idle && ic.arbiter.grantValid && !ic.isRead)

def sWreadyNext : Nat → Bool :=
  only ic.sSelect <|
    match ic.state with
    | .decode => !ic.isRead && ((ic.target map).isNone || ic.wEarly masters slaves)
    | .write => !ic.wLast masters && ic.wEarly masters slaves
    | .writeDrop => !ic.wLast masters
    | _ => false

def sBvalidNext : Nat → Bool :=
  let held := fun s => ic.sBvalid s && !(masters s).bready
  let answers :=
    match ic.state with
    | .writeResp => ic.mBready ic.mSelect && (ic.slave slaves).bvalid
    | .writeDrop => ic.wLast masters
    | _ => false
  if answers then Function.update held ic.sSelect true else held

def mArvalidNext : Nat → Bool :=
  let held := fun m => ic.mArvalid m && !(slaves m).arready
  if ic.state == .read && ic.addrValid then Function.update held ic.mSelect true else held

def mAwvalidNext : Nat → Bool :=
  let held := fun m => ic.mAwvalid m && !(slaves m).awready
  if ic.state == .write && ic.addrValid then Function.update held ic.mSelect true else held

/-- In the decode state this is the slave of the transaction before. -/
def mRreadyNext : Nat → Bool :=
  only ic.mSelect <|
    match ic.state with
    | .decode => (ic.target map).isSome && ic.isRead && ic.rEarly masters slaves
    | .read =>
        !(ic.rPush slaves && (ic.slave slaves).r.last) && ic.rEarly masters slaves
    | _ => false

def mBreadyNext : Nat → Bool :=
  only ic.mSelect <|
    match ic.state with
    | .write => ic.wLast masters
    | .writeResp => !(ic.mBready ic.mSelect && (ic.slave slaves).bvalid)
    | _ => false

def next : Interconnect where
  state := ic.stateNext map masters slaves
  mSelect := ic.mSelectNext map
  req := ic.reqNext masters
  region := ic.regionNext map
  addrValid := ic.addrValidNext
  bresp := ic.brespNext map slaves
  sAwready := ic.sAwreadyNext
  sWready := ic.sWreadyNext map masters slaves
  sBvalid := ic.sBvalidNext masters slaves
  sArready := ic.sArreadyNext
  mAwvalid := ic.mAwvalidNext slaves
  mBready := ic.mBreadyNext masters slaves
  mArvalid := ic.mArvalidNext slaves
  mRready := ic.mRreadyNext map masters slaves
  arbiter := ic.arbiter.next (2 * map.sCount) (request masters) (ic.acknowledge masters)
  r := ic.r.next ic.sSelect (ic.master masters).rready (ic.rPush slaves) (ic.rItem slaves)
  w := ic.w.next ic.mSelect (ic.slave slaves).wready (ic.wPush masters) (ic.master masters).w

end Interconnect

end Ysyx.Npc.Amba
