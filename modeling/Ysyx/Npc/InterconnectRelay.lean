import Ysyx.Npc.Interconnect

/-! The interconnect among masters and slaves that keep to the protocol, and the relay that it
stands for: one transaction at a time, each address and each beat handed on once, in order. -/

set_option autoImplicit false

namespace Ysyx.Npc.Amba

open Lib (Machine Skid)

/-!
## The two sides
-/

/-- The addresses that a master offers until they are accepted. -/
structure MasterPort where
  ar : Option AxiReq
  aw : Option AxiReq

/-- An address stays on the lines until it is accepted; all else is as the master likes. -/
def MasterPort.drive (port : MasterPort) (want : MasterLines) : MasterLines :=
  { want with
    arvalid := port.ar.isSome || want.arvalid
    ar := port.ar.getD want.ar
    awvalid := port.aw.isSome || want.awvalid
    aw := port.aw.getD want.aw }

def MasterPort.next (port : MasterPort) (want : MasterLines) (arready awready : Bool) :
    MasterPort where
  ar := if (port.drive want).arvalid && !arready then some (port.drive want).ar else none
  aw := if (port.drive want).awvalid && !awready then some (port.drive want).aw else none

/-- What a slave has accepted and not answered to its end. -/
structure SlavePort where
  reading : Bool
  awDone : Bool
  wDone : Bool
  deriving DecidableEq, Repr

def SlavePort.clear : SlavePort := ⟨false, false, false⟩

/-- A slave answers only what it has accepted. -/
def SlavePort.drive (port : SlavePort) (want : SlaveLines) : SlaveLines :=
  { want with
    rvalid := want.rvalid && port.reading
    bvalid := want.bvalid && port.awDone && port.wDone }

structure BusInput where
  masters : Nat → MasterLines
  slaves : Nat → SlaveLines

structure BusSystem where
  ic : Interconnect
  masters : Nat → MasterPort
  slaves : Nat → SlavePort

/-- The handshakes at the masters and at the slaves. -/
inductive BusEvent where
  | accept (s : Nat) (read : Bool) (req : AxiReq)
  | send (m : Nat) (read : Bool) (req : AxiReq) (region : Nat)
  | give (s : Nat) (beat : RBeat)
  | read (m : Nat) (beat : RBeat)
  | write (m : Nat) (beat : WBeat)
  | take (s : Nat) (beat : WBeat)
  | answer (m : Nat) (b : BResp)
  | finish (s : Nat) (b : BResp)
  deriving DecidableEq, Repr

namespace BusSystem

def reset (ic : Interconnect) : BusSystem := ⟨ic.reset, fun _ => ⟨none, none⟩, fun _ => .clear⟩

variable (map : AddressMap) (input : BusInput) (sys : BusSystem)

def masterLines (s : Nat) : MasterLines := (sys.masters s).drive (input.masters s)
def slaveLines (m : Nat) : SlaveLines := (sys.slaves m).drive (input.slaves m)

def slavePort (m : Nat) : SlavePort :=
  let port := sys.slaves m
  let lines := sys.slaveLines input m
  let answered := lines.bvalid && sys.ic.mBready m
  { reading :=
      sys.ic.mArvalid m && lines.arready ||
        port.reading && !(lines.rvalid && sys.ic.mRready m && lines.r.last)
    awDone := (port.awDone || sys.ic.mAwvalid m && lines.awready) && !answered
    wDone := (port.wDone || sys.ic.w.valid m && lines.wready && sys.ic.w.out.last) && !answered }

def step : BusSystem where
  ic := sys.ic.next map (sys.masterLines input) (sys.slaveLines input)
  masters s := (sys.masters s).next (input.masters s) (sys.ic.sArready s) (sys.ic.sAwready s)
  slaves := sys.slavePort input

def accepts (s : Nat) : List BusEvent :=
  let lines := sys.masterLines input s
  (if lines.arvalid && sys.ic.sArready s then [.accept s true lines.ar] else []) ++
    if lines.awvalid && sys.ic.sAwready s then [.accept s false lines.aw] else []

def sends (m : Nat) : List BusEvent :=
  let lines := sys.slaveLines input m
  (if sys.ic.mArvalid m && lines.arready then [.send m true sys.ic.req sys.ic.region] else []) ++
    if sys.ic.mAwvalid m && lines.awready then [.send m false sys.ic.req sys.ic.region] else []

def gives (s : Nat) : List BusEvent :=
  (sys.ic.r.given s (sys.masterLines input s).rready).map (.give s)

def reads (m : Nat) : List BusEvent :=
  let lines := sys.slaveLines input m
  if lines.rvalid && sys.ic.mRready m then [.read m lines.r] else []

def writes (m : Nat) : List BusEvent :=
  (sys.ic.w.given m (sys.slaveLines input m).wready).map (.write m)

def takes (s : Nat) : List BusEvent :=
  let lines := sys.masterLines input s
  if lines.wvalid && sys.ic.sWready s then [.take s lines.w] else []

def answers (m : Nat) : List BusEvent :=
  let lines := sys.slaveLines input m
  if lines.bvalid && sys.ic.mBready m then [.answer m lines.b] else []

def finishes (s : Nat) : List BusEvent :=
  if sys.ic.sBvalid s && (sys.masterLines input s).bready then
    [.finish s ⟨sys.ic.req.id, sys.ic.bresp⟩]
  else []

/-- The handshakes of a cycle. -/
def out : List BusEvent :=
  (List.range map.sCount).flatMap (sys.accepts input) ++
    (List.range map.mCount).flatMap (sys.sends input) ++
    (List.range map.sCount).flatMap (sys.gives input) ++
    (List.range map.mCount).flatMap (sys.reads input) ++
    (List.range map.mCount).flatMap (sys.writes input) ++
    (List.range map.sCount).flatMap (sys.takes input) ++
    (List.range map.mCount).flatMap (sys.answers input) ++
    (List.range map.sCount).flatMap (sys.finishes input)

end BusSystem

def busMachine (map : AddressMap) : Machine BusInput BusSystem BusEvent where
  step := BusSystem.step map
  out := fun input sys => sys.out map input

/-!
## The relay
-/

/-- The beats of a refused read of `n + 1` beats. -/
def errorBeats (id : BitVec 4) : Nat → List RBeat
  | 0 => [⟨id, 0#32, 3#2, true⟩]
  | n + 1 => ⟨id, 0#32, 3#2, false⟩ :: errorBeats id n

/-- One transaction at a time. `queue` has the beats that one side has handed over and the other
has yet to take. -/
inductive Relay where
  | idle
  | reading (s : Nat) (req : AxiReq) (m region : Nat) (sent : Bool) (queue : List RBeat)
  | returning (s : Nat) (queue : List RBeat)
  | writing (s : Nat) (req : AxiReq) (m region : Nat) (sent : Bool) (queue : List WBeat)
      (closed : Bool)
  | dropping (s : Nat) (req : AxiReq)
  | responding (s : Nat) (b : BResp)
  deriving DecidableEq, Repr

namespace Relay

/-- The relay after a handshake; nothing when it has no place for it. -/
def step (map : AddressMap) : Relay → BusEvent → Option Relay
  | .idle, .accept s read req =>
      match map.decode read s req with
      | some (m, region) =>
          some (if read then .reading s req m region false []
            else .writing s req m region false [] false)
      | none =>
          some (if read then .returning s (errorBeats req.id req.len.toNat) else .dropping s req)
  | .reading s req m region false queue, .send m' true req' region' =>
      if m' = m ∧ req' = req ∧ region' = region then some (.reading s req m region true queue)
      else none
  | .reading s req m region true queue, .read m' beat =>
      let queue := queue ++ [{ beat with id := req.id }]
      if m' = m then
        some (if beat.last then .returning s queue else .reading s req m region true queue)
      else none
  | .reading s req m region sent (next :: queue), .give s' beat =>
      if s' = s ∧ beat = next then some (.reading s req m region sent queue) else none
  | .returning s (next :: queue), .give s' beat =>
      if s' = s ∧ beat = next then some (if queue = [] then .idle else .returning s queue)
      else none
  | .writing s req m region sent queue false, .take s' beat =>
      if s' = s then some (.writing s req m region sent (queue ++ [beat]) beat.last) else none
  | .writing s req m region false queue closed, .send m' false req' region' =>
      if m' = m ∧ req' = req ∧ region' = region then
        some (.writing s req m region true queue closed)
      else none
  | .writing s req m region sent (next :: queue) closed, .write m' beat =>
      if m' = m ∧ beat = next then some (.writing s req m region sent queue closed) else none
  | .writing s req m _ true [] true, .answer m' b =>
      if m' = m then some (.responding s ⟨req.id, b.resp⟩) else none
  | .dropping s req, .take s' beat =>
      if s' = s then some (if beat.last then .responding s ⟨req.id, 3#2⟩ else .dropping s req)
      else none
  | .responding s b, .finish s' b' => if s' = s ∧ b' = b then some .idle else none
  | _, _ => none

/-- The relay after the handshakes of the list. -/
def run (map : AddressMap) (relay : Relay) (events : List BusEvent) : Option Relay :=
  events.foldlM (step map) relay

@[simp] theorem run_nil (map : AddressMap) (relay : Relay) : relay.run map [] = some relay := rfl

theorem run_append (map : AddressMap) (relay : Relay) (events events' : List BusEvent) :
    relay.run map (events ++ events') = (relay.run map events).bind fun relay =>
      relay.run map events' := by
  simp [run, List.foldlM_append]

theorem run_cons {map : AddressMap} {relay relay' : Relay} {event : BusEvent}
    {events : List BusEvent} (step : relay.step map event = some relay') :
    relay.run map (event :: events) = relay'.run map events := by
  simp [run, step]

theorem run_single {map : AddressMap} {relay relay' : Relay} {event : BusEvent}
    (step : relay.step map event = some relay') : relay.run map [event] = some relay' := by
  simp [run, step]

section Queues

variable {map : AddressMap} {s m region : Nat} {req : AxiReq} {sent closed : Bool}

theorem run_gives_reading (given rest : List RBeat) :
    (reading s req m region sent (given ++ rest)).run map (given.map (.give s)) =
      some (.reading s req m region sent rest) := by
  induction given with
  | nil => rfl
  | cons beat given ih =>
      refine (run_cons ?_).trans ih
      simp [step]

theorem run_gives_returning {rest : List RBeat} (more : rest ≠ []) (given : List RBeat) :
    (returning s (given ++ rest)).run map (given.map (.give s)) = some (.returning s rest) := by
  induction given with
  | nil => rfl
  | cons beat given ih =>
      refine (run_cons ?_).trans ih
      simp [step, more]

theorem run_writes_writing (given rest : List WBeat) :
    (writing s req m region sent (given ++ rest) closed).run map (given.map (.write m)) =
      some (.writing s req m region sent rest closed) := by
  induction given with
  | nil => rfl
  | cons beat given ih =>
      refine (run_cons ?_).trans ih
      cases sent <;> cases closed <;> simp [step]

end Queues

end Relay

end Ysyx.Npc.Amba
