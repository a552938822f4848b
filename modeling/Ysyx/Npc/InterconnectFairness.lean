import Mathlib.Data.List.Perm.Subperm
import Ysyx.Npc.InterconnectProperties

/-! No master waits long for the interconnect: while its address is not accepted, every other port
has at most one address accepted. -/

set_option autoImplicit false

namespace Ysyx.Npc.Amba

open Lib (Machine Skid)

variable {map : AddressMap} {input : BusInput} {sys : BusSystem}

/-- The port of the arbiter whose address is accepted. -/
def BusEvent.port : BusEvent → Option Nat
  | .accept s isRead _ => some (2 * s + isRead.toNat)
  | _ => none

/-- The ports with an address accepted, in order. -/
def accepted (events : List BusEvent) : List Nat := events.filterMap BusEvent.port

/-- The port has an address on its lines. -/
def BusSystem.offers (sys : BusSystem) (input : BusInput) (p : Nat) : Bool :=
  Interconnect.request (sys.masterLines input) p

/-- The grant is to an address that is not accepted yet. -/
def BusSystem.Pending (sys : BusSystem) : Prop :=
  sys.ic.state = .decode ∨ sys.ic.state = .idle ∧ sys.ic.arbiter.grantValid = true

theorem accepted_append (events events' : List BusEvent) :
    accepted (events ++ events') = accepted events ++ accepted events' :=
  List.filterMap_append

theorem accepted_out : accepted (sys.out map input) =
    (List.range map.sCount).flatMap fun s => accepted (sys.accepts input s) := by
  have sends (m : Nat) : accepted (sys.sends input m) = [] := by
    rw [BusSystem.sends, accepted_append]
    split_ifs <;> rfl
  have gives (s : Nat) : accepted (sys.gives input s) = [] := by
    simp [BusSystem.gives, accepted, BusEvent.port]
  have reads (m : Nat) : accepted (sys.reads input m) = [] := by
    rw [BusSystem.reads]
    split_ifs <;> rfl
  have writes (m : Nat) : accepted (sys.writes input m) = [] := by
    simp [BusSystem.writes, accepted, BusEvent.port]
  have takes (s : Nat) : accepted (sys.takes input s) = [] := by
    rw [BusSystem.takes]
    split_ifs <;> rfl
  have answers (m : Nat) : accepted (sys.answers input m) = [] := by
    rw [BusSystem.answers]
    split_ifs <;> rfl
  have finishes (s : Nat) : accepted (sys.finishes input s) = [] := by
    rw [BusSystem.finishes]
    split_ifs <;> rfl
  have places {f : Nat → List BusEvent} (none : ∀ i, accepted (f i) = []) (n : Nat) :
      accepted ((List.range n).flatMap f) = [] := by
    rw [accepted, List.filterMap_flatMap, List.flatMap_eq_nil_iff]
    exact fun i _ => none i
  simp only [BusSystem.out, accepted_append, places sends, places gives, places reads,
    places writes, places takes, places answers, places finishes, List.append_nil]
  rw [accepted, List.filterMap_flatMap]
  rfl

/-- An address that is not accepted stays on its lines. -/
theorem BusSystem.offers_step {p : Nat} (bound : p < 2 * map.sCount)
    (offers : sys.offers input p = true) (waits : p ∉ accepted (sys.out map input))
    (input' : BusInput) : (sys.step map input).offers input' p = true := by
  have inRange : p / 2 < map.sCount := by omega
  rw [accepted_out, List.mem_flatMap] at waits
  have unaccepted : p ∉ accepted (sys.accepts input (p / 2)) := fun member =>
    waits ⟨p / 2, List.mem_range.mpr inRange, member⟩
  rw [accepts, accepted_append, List.mem_append, not_or] at unaccepted
  rw [BusSystem.offers, Interconnect.request] at offers ⊢
  by_cases odd : p % 2 = 1
  · have unready : sys.ic.sArready (p / 2) = false := by
      rw [if_pos odd] at offers
      rw [Bool.eq_false_iff]
      intro ready
      have port : 2 * (p / 2) + 1 = p := by omega
      refine unaccepted.1 ?_
      simp [offers, ready, accepted, BusEvent.port, port]
    rw [if_pos odd, masterLines] at offers ⊢
    have kept : ((sys.step map input).masters (p / 2)).ar.isSome = true := by
      simp only [BusSystem.step, MasterPort.next, offers, unready]
      rfl
    simp [MasterPort.drive, kept]
  · have unready : sys.ic.sAwready (p / 2) = false := by
      rw [if_neg odd] at offers
      rw [Bool.eq_false_iff]
      intro ready
      have port : 2 * (p / 2) = p := by omega
      refine unaccepted.2 ?_
      simp [offers, ready, accepted, BusEvent.port, port]
    rw [if_neg odd, masterLines] at offers ⊢
    have kept : ((sys.step map input).masters (p / 2)).aw.isSome = true := by
      simp only [BusSystem.step, MasterPort.next, offers, unready]
      rfl
    simp [MasterPort.drive, kept]

/-!
## Waiting for the grant
-/

/-- The transaction is past the decode stage. -/
theorem Stage.underway {relay : Relay} (stage : Stage map sys relay)
    (idle : sys.ic.state ≠ .idle) (decode : sys.ic.state ≠ .decode) :
    Held map sys ∧ (∀ s, accepted (sys.accepts input s) = []) ∧
      (sys.ic.done (sys.masterLines input) = true → sys.ic.state = .waitIdle) := by
  have quiet (held : Held map sys) (here : sys.accepts input sys.ic.sSelect = []) (s : Nat) :
      accepted (sys.accepts input s) = [] := by
    by_cases same : s = sys.ic.sSelect
    · rw [same, here]
      rfl
    · rw [(held.masters s same).accepts]
      rfl
  have never (busy : sys.ic.done (sys.masterLines input) = false) :
      sys.ic.done (sys.masterLines input) = true → sys.ic.state = .waitIdle := by
    rw [busy]
    nofun
  cases stage with
  | idle stage => exact absurd stage.state idle
  | decoding stage => exact absurd stage.state decode
  | reading stage => exact ⟨stage.held, quiet stage.held stage.side.accepts, never stage.busy⟩
  | refusing stage => exact ⟨stage.held, quiet stage.held stage.side.accepts, never stage.busy⟩
  | returning stage => exact ⟨stage.held, quiet stage.held stage.side.accepts, fun _ => stage.state⟩
  | writing stage => exact ⟨stage.held, quiet stage.held stage.side.accepts, never stage.busy⟩
  | closing stage => exact ⟨stage.held, quiet stage.held stage.side.accepts, never stage.busy⟩
  | dropping stage => exact ⟨stage.held, quiet stage.held stage.side.accepts, never stage.busy⟩
  | answering stage => exact ⟨stage.held, quiet stage.held stage.side.accepts, fun _ => stage.state⟩

/-- The state after the decode stage leads to the idle state only. -/
theorem Held.not_pending_step (held : Held map sys) (idle : sys.ic.state ≠ .idle)
    (busy : sys.ic.done (sys.masterLines input) = false) : ¬ (sys.step map input).Pending := by
  have any := held.any_acknowledge (sys.masterLines input)
  have next : (sys.step map input).ic.state ≠ .decode ∧
      (sys.step map input).ic.state ≠ .idle := by
    simp only [BusSystem.step, Interconnect.next, Interconnect.stateNext, any, busy,
      held.granted.valid]
    cases state : sys.ic.state
    case idle => exact absurd state idle
    case decode => cases sys.ic.target map <;> cases sys.ic.isRead <;> simp
    all_goals simp only
    all_goals split_ifs <;> simp_all
  rintro (decode | ⟨idle, _⟩)
  · exact next.1 decode
  · exact next.2 idle

/-- Port `p` waits, and the ports in `ports` have been accepted since. Either the grant is already
`p`'s, or each grant has brought it nearer to its turn. -/
def Waiting (map : AddressMap) (sys : BusSystem) (p : Nat) (ports : List Nat) : Prop :=
  ∃ i, Arbiter.Last (2 * map.sCount) sys.ic.arbiter i ∧ ports.Nodup ∧
    (∀ q ∈ ports, q < 2 * map.sCount) ∧
    (sys.Pending ∧ i = p ∨
      (∀ q ∈ ports, Arbiter.turns (2 * map.sCount) p i ≤ Arbiter.turns (2 * map.sCount) p q) ∧
        (sys.Pending → i ∉ ports))

section Waits

variable {relay : Relay} {p : Nat} {ports : List Nat}

theorem Waiting.regrant (waiting : Waiting map sys p ports) (unpending : ¬ sys.Pending)
    (bound : p < 2 * map.sCount) (offers : sys.offers input p = true)
    (free : sys.ic.arbiter.holds (2 * map.sCount)
      (sys.ic.acknowledge (sys.masterLines input)) = false)
    (state : (sys.step map input).ic.state = .idle) :
    Waiting map (sys.step map input) p ports := by
  obtain ⟨i, last, nodup, inRange, nears⟩ := waiting
  obtain ⟨nears, _⟩ := nears.resolve_left fun pending => unpending pending.1
  obtain ⟨j, next, valid, turn⟩ := last.next_of_request bound offers free
  refine ⟨j, next, nodup, inRange, ?_⟩
  rcases turn with here | nearer
  · exact .inl ⟨.inr ⟨state, valid⟩, here⟩
  · refine .inr ⟨fun q member => Nat.le_trans (Nat.le_of_lt nearer) (nears q member), ?_⟩
    intro _ member
    exact absurd (nears j member) (Nat.not_le_of_gt nearer)

theorem Waiting.keep {more : List Nat} (waiting : Waiting map sys p ports)
    (same : (sys.step map input).ic.arbiter = sys.ic.arbiter)
    (offered : (sys.step map input).Pending → sys.Pending) (none : more = [])
    (unsettled : sys.Pending → (sys.step map input).Pending) :
    Waiting map (sys.step map input) p (ports ++ more) := by
  obtain ⟨i, last, nodup, inRange, nears⟩ := waiting
  rw [none, List.append_nil]
  refine ⟨i, same ▸ last, nodup, inRange, nears.imp ?_ ?_⟩
  · rintro ⟨pending, here⟩
    exact ⟨unsettled pending, here⟩
  · rintro ⟨nears, out⟩
    exact ⟨nears, fun pending => out (offered pending)⟩

theorem Stage.idle_of_state (stage : Stage map sys relay) (state : sys.ic.state = .idle) :
    Idle map sys := by
  cases stage with
  | idle stage => exact stage
  | decoding stage | reading stage | refusing stage | returning stage | writing stage
  | closing stage | dropping stage | answering stage =>
      rw [stage.state] at state
      cases state

theorem Stage.decoding_of_state (stage : Stage map sys relay) (state : sys.ic.state = .decode) :
    Decoding map sys := by
  cases stage with
  | decoding stage => exact stage
  | idle stage | reading stage | refusing stage | returning stage | writing stage
  | closing stage | dropping stage | answering stage =>
      rw [stage.state] at state
      cases state

theorem Waiting.step_idle (waiting : Waiting map sys p ports) (idle : Idle map sys)
    (bound : p < 2 * map.sCount) (offers : sys.offers input p = true) :
    Waiting map (sys.step map input) p (ports ++ accepted (sys.out map input)) := by
  rw [idle.resting.out_eq_nil]
  cases valid : sys.ic.arbiter.grantValid with
  | false =>
      rw [accepted, List.filterMap_nil, List.append_nil]
      refine waiting.regrant ?_ bound offers ?_ (idle.rests valid).state
      · rintro (decode | ⟨_, granted⟩)
        · rw [idle.state] at decode
          cases decode
        · rw [valid] at granted
          cases granted
      · rw [Arbiter.holds, valid, Bool.false_and]
  | true =>
      have next : Decoding map (sys.step map input) := idle.decodes valid
      have busy : sys.ic.done (sys.masterLines input) = false := by
        simp [Interconnect.done, (idle.resting.masters _).rvalid, (idle.resting.masters _).bvalid]
      exact waiting.keep ((idle.held valid).arbiter_step busy) (fun _ => .inr ⟨idle.state, valid⟩)
        rfl fun _ => .inl next.state

theorem Waiting.step_decode (waiting : Waiting map sys p ports) (decoding : Decoding map sys)
    (waits : p ∉ accepted (sys.out map input)) :
    Waiting map (sys.step map input) p (ports ++ accepted (sys.out map input)) := by
  obtain ⟨i, last, nodup, inRange, nears⟩ := waiting
  have port : accepted (sys.out map input) = [i] := by
    have same := last.grant decoding.held.granted.valid
    have value : 2 * sys.ic.sSelect + sys.ic.isRead.toNat = sys.ic.arbiter.grantEncoded := by
      rw [Interconnect.sSelect, Interconnect.isRead]
      rcases Nat.mod_two_eq_zero_or_one sys.ic.arbiter.grantEncoded with even | odd
      · simp [even]
        omega
      · simp [odd]
        omega
    rw [decoding.out_eq, ← same, ← value]
    rfl
  rw [port] at waits ⊢
  obtain ⟨nears, out⟩ :=
    nears.resolve_left fun here => waits (List.mem_singleton.mpr here.2.symm)
  have unpending : ¬ (sys.step map input).Pending :=
    decoding.held.not_pending_step (by simp [decoding.state]) decoding.busy
  refine ⟨i, decoding.held.arbiter_step decoding.busy ▸ last, ?_, ?_, .inr ⟨?_, ?_⟩⟩
  · exact List.nodup_append.mpr ⟨nodup, List.pairwise_singleton _ i, fun q member j here =>
      (List.mem_singleton.mp here) ▸ fun same => out (.inl decoding.state) (same ▸ member)⟩
  · intro q member
    rcases List.mem_append.mp member with member | here
    · exact inRange q member
    · rw [List.mem_singleton.mp here]
      exact last.bound
  · intro q member
    rcases List.mem_append.mp member with member | here
    · exact nears q member
    · rw [List.mem_singleton.mp here]
  · exact fun pending => absurd pending unpending

theorem Waiting.step (waiting : Waiting map sys p ports) (stage : Stage map sys relay)
    (bound : p < 2 * map.sCount) (offers : sys.offers input p = true)
    (waits : p ∉ accepted (sys.out map input)) :
    Waiting map (sys.step map input) p (ports ++ accepted (sys.out map input)) := by
  by_cases idle : sys.ic.state = .idle
  · exact waiting.step_idle (stage.idle_of_state idle) bound offers
  by_cases decode : sys.ic.state = .decode
  · exact waiting.step_decode (stage.decoding_of_state decode) waits
  obtain ⟨held, unaccepted, ends⟩ : Held map sys ∧ (∀ s, accepted (sys.accepts input s) = []) ∧ _ :=
    stage.underway idle decode
  have none : accepted (sys.out map input) = [] := by
    rw [accepted_out, List.flatMap_eq_nil_iff]
    exact fun s _ => unaccepted s
  have unpending : ¬ sys.Pending := by
    rintro (here | ⟨here, _⟩)
    · exact decode here
    · exact idle here
  cases done : sys.ic.done (sys.masterLines input) with
  | false =>
      exact waiting.keep (held.arbiter_step done)
        (fun pending => absurd pending (held.not_pending_step idle done)) none
        fun pending => absurd pending unpending
  | true =>
      rw [none, List.append_nil]
      refine waiting.regrant unpending bound offers ?_ ?_
      · rw [held.holds_eq, done, Bool.not_true]
      · simp [BusSystem.step, Interconnect.next, Interconnect.stateNext, ends done,
          held.any_acknowledge, done]

theorem Waiting.run {inputs : Nat → BusInput} {t : Nat} (waiting : Waiting map sys p ports)
    (stage : Stage map sys relay) (bound : p < 2 * map.sCount)
    (offers : sys.offers (inputs t) p = true) (n : Nat)
    (waits : p ∉ accepted ((busMachine map).events inputs t sys n)) :
    Waiting map ((busMachine map).run inputs t sys n) p
      (ports ++ accepted ((busMachine map).events inputs t sys n)) := by
  induction n generalizing t sys relay ports with
  | zero => simpa [Machine.events, accepted] using waiting
  | succ n ih =>
      rw [Machine.events, accepted_append, List.mem_append, not_or] at waits
      obtain ⟨relay', _, stage'⟩ : Advances map sys (inputs t) relay := stage.advances
      rw [Machine.events, accepted_append, ← List.append_assoc]
      exact ih (waiting.step stage bound offers waits.1) stage'
        (BusSystem.offers_step bound offers waits.1 _) waits.2

end Waits

theorem BusSystem.reset_last (ic : Interconnect) (inputs : Nat → BusInput)
    (some : 0 < map.sCount) (t : Nat) :
    ∃ i, Arbiter.Last (2 * map.sCount)
      ((busMachine map).run inputs 0 (BusSystem.reset ic) t).ic.arbiter i := by
  let lasts : BusSystem → Prop := fun sys =>
    ∃ i, Arbiter.Last (2 * map.sCount) sys.ic.arbiter i
  have keeps (input : BusInput) (sys : BusSystem) (last : lasts sys) :
      lasts (sys.step map input) := by
    obtain ⟨i, last⟩ := last
    exact last.next
  have initial : lasts (BusSystem.reset ic) := ⟨_, Arbiter.reset_last (by omega)⟩
  exact Machine.invariant (busMachine map) inputs keeps initial 0 t

/-- While port `p` has an address on its lines and none is accepted, no other port has two
addresses accepted. -/
theorem interconnect_fair (map : AddressMap) (ic : Interconnect) (inputs : Nat → BusInput)
    (t n p : Nat) (bound : p < 2 * map.sCount)
    (offers : ((busMachine map).run inputs 0 (BusSystem.reset ic) t).offers (inputs t) p = true)
    (waits : p ∉ accepted ((busMachine map).events inputs t
      ((busMachine map).run inputs 0 (BusSystem.reset ic) t) n)) :
    (accepted ((busMachine map).events inputs t
      ((busMachine map).run inputs 0 (BusSystem.reset ic) t) n)).Nodup ∧
    (accepted ((busMachine map).events inputs t
      ((busMachine map).run inputs 0 (BusSystem.reset ic) t) n)).length < 2 * map.sCount := by
  obtain ⟨relay, _, stage⟩ := (Stage.idle (BusSystem.reset_idle ic)).run inputs 0 t
  have some : 0 < map.sCount := by omega
  obtain ⟨i, last⟩ := BusSystem.reset_last ic inputs some t
  have waiting : Waiting map ((busMachine map).run inputs 0 (BusSystem.reset ic) t) p [] :=
    ⟨i, last, List.nodup_nil, nofun, .inr ⟨nofun, fun _ => nofun⟩⟩
  obtain ⟨_, _, nodup, inRange, _⟩ := waiting.run stage bound offers n waits
  rw [List.nil_append] at nodup inRange
  refine ⟨nodup, ?_⟩
  have all : (p :: accepted ((busMachine map).events inputs t
      ((busMachine map).run inputs 0 (BusSystem.reset ic) t) n)) ⊆
        List.range (2 * map.sCount) := by
    intro q member
    rcases List.mem_cons.mp member with here | member
    · exact List.mem_range.mpr (here ▸ bound)
    · exact List.mem_range.mpr (inRange q member)
  have short := (List.subperm_of_subset (List.nodup_cons.mpr ⟨waits, nodup⟩) all).length_le
  rw [List.length_cons, List.length_range] at short
  exact short

/-- Two masters before one slave that has all addresses. -/
def twoMasters : AddressMap where
  sCount := 2
  mCount := 1
  mRegions := 1
  baseAddr _ _ := 0#32
  addrWidth _ _ := 32
  secure _ := false
  connectRead _ _ := true
  connectWrite _ _ := true

def bothRead : BusInput where
  masters _ := ⟨false, ⟨0, 0, 0, 2, 1, false, 0, 0, 0⟩, false, ⟨0, 0, false⟩, true,
    true, ⟨0, 0x80000000#32, 0, 2, 1, false, 0, 0, 0⟩, true⟩
  slaves _ := ⟨true, true, false, ⟨0, 0⟩, true, false, ⟨0, 0, 0, false⟩⟩

def blankInterconnect : Interconnect where
  state := .idle
  mSelect := 0
  req := ⟨0, 0, 0, 0, 0, false, 0, 0, 0⟩
  region := 0
  addrValid := false
  bresp := 0
  sAwready _ := false
  sWready _ := false
  sBvalid _ := false
  sArready _ := false
  mAwvalid _ := false
  mBready _ := false
  mArvalid _ := false
  mRready _ := false
  arbiter := .reset
  r := ⟨false, fun _ => false, ⟨0, 0, 0, false⟩, ⟨0, 0, 0, false⟩, false⟩
  w := ⟨false, fun _ => false, ⟨0, 0, false⟩, ⟨0, 0, false⟩, false⟩

theorem interconnect_fair_two :
    (accepted ((busMachine twoMasters).events (fun _ => bothRead) 0
      (BusSystem.reset blankInterconnect) 3)).Nodup ∧
    (accepted ((busMachine twoMasters).events (fun _ => bothRead) 0
      (BusSystem.reset blankInterconnect) 3)).length < 4 :=
  interconnect_fair twoMasters blankInterconnect (fun _ => bothRead) 0 3 3
    (by decide) (by decide) (by decide)

end Ysyx.Npc.Amba
