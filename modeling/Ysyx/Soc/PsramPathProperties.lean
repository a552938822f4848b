import Ysyx.Soc.PsramPath

/-! The PSRAM behind the delayer is a memory of bytes: in every run of the bus each transfer to it
returns what the transfers before it have left. -/

set_option autoImplicit false

namespace Ysyx.Soc

open Lib (Access Machine Replays replayed slice blit)

/-!
## One cycle of the bus
-/

/-- The access phase of a transfer. -/
def ApbReq.held (req : ApbReq) : ApbReq := { req with psel := true, penable := true }

/-- The master and the delayer, with the request that the PSRAM has yet to answer. -/
inductive Upstream (sel : BitVec 32 → Bool) : ApbPhase → Delayer → Option ApbReq → Prop where
  | idle (delayer : Delayer) (state : delayer.state = .idle_t) : Upstream sel .idle delayer none
  | away (req : ApbReq) (delayer : Delayer) (other : sel req.paddr = false)
      (state : delayer.state ≠ .idle_t) : Upstream sel (.access req) delayer none
  | asking (req : ApbReq) (delayer : Delayer) (mine : sel req.paddr = true)
      (state : delayer.state = .wait_perip_t) : Upstream sel (.access req) delayer (some req)

/-- What the PSRAM sees while `pending` is asked for. -/
structure Sees (req : ApbReq) (pending : Option ApbReq) : Prop where
  some : ∀ want, pending = some want → req.psel = true ∧ req.held = want.held
  none : pending = none → req.psel = false

/-- The cycles that the controller takes at most until it answers the request. -/
def PsramCtrl.left (ctrl : PsramCtrl) (req : ApbReq) : Nat :=
  match ctrl.state with
  | .init => 100 + 2 * (8 - ctrl.init.counter.toNat) + (if ctrl.init.sck then 0 else 1)
  | .idle => 47
  | .wait =>
      let shifter := if req.pwrite then ctrl.writer else ctrl.reader.shifter
      2 * (22 - shifter.counter.toNat) + (if shifter.sck then 0 else 1) +
        (if shifter.ceN then 1 else 0)

/-- The cycles until the request is done: those of the controller, then those of the delayer. -/
def PsramBus.rank (bus : PsramBus) (req : ApbReq) : Nat :=
  match bus.delayer.state with
  | .delay_t => (bus.delayer.counter - 1#32).toNat
  | _ => 2 ^ 32 + bus.psram.ctrl.left req

section Left

variable {sys : PsramSystem} {req : ApbReq} {host : Host} {k : Nat} {rise : Bool}

theorem EntersQpi.left (enters : EntersQpi sys host k rise) (most : k ≤ 8) :
    sys.ctrl.left req = 100 + 2 * (8 - k) + (if rise then 0 else 1) := by
  simp [PsramCtrl.left, enters.state, enters.init]
  omega

theorem Calm.left (calm : Calm sys host) : sys.ctrl.left req = 47 := by
  simp [PsramCtrl.left, calm.state]

theorem Selecting.left (selecting : Selecting sys req host) : sys.ctrl.left req = 46 := by
  have reader := selecting.reader
  have writer := selecting.writer
  cases write : req.pwrite <;> simp_all [PsramCtrl.left, selecting.state]

theorem Reading.left (reading : Reading sys req host k rise) (isRead : req.pwrite = false)
    (most : k ≤ 22) : sys.ctrl.left req = 2 * (22 - k) + (if rise then 0 else 1) := by
  simp [PsramCtrl.left, reading.state, reading.shifter, isRead]
  omega

theorem Writing.left (writing : Writing sys req host k rise) (isWrite : req.pwrite = true)
    (most : k ≤ 8 + 2 * req.count) :
    sys.ctrl.left req = 2 * (22 - k) + (if rise then 0 else 1) := by
  have few := count_cases req
  simp [PsramCtrl.left, writing.state, writing.shifter, isWrite]
  omega

end Left

section Cycle

variable {sel : BitVec 32 → Bool} {input : PsramInput} {master : ApbPhase} {delayer : Delayer}
  {psram : PsramSystem} {pending : Option ApbReq} {req : ApbReq} {host : Host}

theorem request_asking (mine : sel req.paddr = true) (state : delayer.state = .wait_perip_t) :
    PsramBus.request sel input ⟨.access req, delayer, psram⟩ = req.held := by
  simp [PsramBus.request, PsramBus.upstream, Delayer.request, ApbPhase.drive, state, mine,
    ApbReq.held]

theorem rank_of_waiting (state : delayer.state = .wait_perip_t) :
    PsramBus.rank ⟨master, delayer, psram⟩ req = 2 ^ 32 + psram.ctrl.left req := by
  simp [PsramBus.rank, state]

theorem rank_of_delaying (state : delayer.state = .delay_t) :
    PsramBus.rank ⟨master, delayer, psram⟩ req = (delayer.counter - 1#32).toNat := by
  simp [PsramBus.rank, state]

/-- While the PSRAM does not answer, no transfer to it is done. -/
theorem Upstream.next (up : Upstream sel master delayer pending)
    (silent : pending ≠ none →
      (psram.ctrl.resp (PsramBus.request sel input ⟨master, delayer, psram⟩)).pready = false) :
    PsramBus.out sel ⟨master, delayer, psram⟩ = [] ∧
      (∀ req, master = .access req → sel req.paddr = true → pending ≠ none ∧
        delayer.state = .wait_perip_t ∧
        (PsramBus.step sel input ⟨master, delayer, psram⟩).master = .access req ∧
        (PsramBus.step sel input ⟨master, delayer, psram⟩).delayer.state = .wait_perip_t) ∧
      ∃ pending', Upstream sel (PsramBus.step sel input ⟨master, delayer, psram⟩).master
          (PsramBus.step sel input ⟨master, delayer, psram⟩).delayer pending' ∧
        Sees (PsramBus.request sel input ⟨master, delayer, psram⟩) pending' := by
  cases up with
  | idle _ state =>
      refine ⟨rfl, nofun, ?_⟩
      cases psel : input.want.psel with
      | false =>
          refine ⟨none, ?_, nofun, fun _ => ?_⟩
          · have next : (PsramBus.step sel input ⟨.idle, delayer, psram⟩).master = .idle := by
              simp [PsramBus.step, ApbPhase.next, psel]
            rw [next]
            refine .idle _ ?_
            simp [PsramBus.step, Delayer.next, PsramBus.upstream, ApbPhase.drive, state, psel]
          · simp [PsramBus.request, PsramBus.upstream, Delayer.request, ApbPhase.drive, psel]
      | true =>
          have next : (PsramBus.step sel input ⟨.idle, delayer, psram⟩).master =
              .access input.want := by
            simp [PsramBus.step, ApbPhase.next, psel]
          have waits : (PsramBus.step sel input ⟨.idle, delayer, psram⟩).delayer.state =
              .wait_perip_t := by
            simp [PsramBus.step, Delayer.next, PsramBus.upstream, ApbPhase.drive, state, psel]
          cases mine : sel input.want.paddr with
          | false =>
              refine ⟨none, ?_, nofun, fun _ => ?_⟩
              · rw [next]
                exact .away _ _ mine (by rw [waits]; decide)
              · simp [PsramBus.request, PsramBus.upstream, Delayer.request, ApbPhase.drive, mine]
          | true =>
              refine ⟨some input.want, ?_, ?_, nofun⟩
              · rw [next]
                exact .asking _ _ mine waits
              · rintro _ ⟨⟩
                simp [PsramBus.request, PsramBus.upstream, Delayer.request, ApbPhase.drive, mine,
                  psel, state, ApbReq.held]
  | away req _ other state =>
      have unselected :
          (PsramBus.request sel input ⟨.access req, delayer, psram⟩).psel = false := by
        simp [PsramBus.request, PsramBus.upstream, Delayer.request, ApbPhase.drive, other]
      refine ⟨by simp [PsramBus.out, other], ?_, none, ?_, nofun, fun _ => unselected⟩
      · rintro _ ⟨⟩ mine
        rw [other] at mine
        cases mine
      by_cases last : delayer.state = .delay_t ∧ delayer.counter = 1#32
      · have next : (PsramBus.step sel input ⟨.access req, delayer, psram⟩).master = .idle := by
          simp [PsramBus.step, ApbPhase.next, Delayer.resp, last]
        rw [next]
        refine .idle _ ?_
        simp [PsramBus.step, Delayer.next, last]
      · have held : delayer.resp.pready = false := by
          simpa [Delayer.resp] using last
        have next : (PsramBus.step sel input ⟨.access req, delayer, psram⟩).master =
            .access req := by
          simp [PsramBus.step, ApbPhase.next, held]
        rw [next]
        refine .away _ _ other ?_
        cases here : delayer.state with
        | idle_t => exact absurd here state
        | wait_perip_t =>
            simp only [PsramBus.step, Delayer.next, here]
            split <;> decide
        | delay_t =>
            have more : delayer.counter ≠ 1#32 := fun one => last ⟨here, one⟩
            simp [PsramBus.step, Delayer.next, here, more]
  | asking req _ mine state =>
      have request := @request_asking sel input delayer psram req mine state
      have quiet := silent nofun
      have held : delayer.resp.pready = false := by simp [Delayer.resp, state]
      have next : (PsramBus.step sel input ⟨.access req, delayer, psram⟩).master =
          .access req := by
        simp [PsramBus.step, ApbPhase.next, held]
      have waits : (PsramBus.step sel input ⟨.access req, delayer, psram⟩).delayer.state =
          .wait_perip_t := by
        simp [PsramBus.step, Delayer.next, state, PsramBus.answer, PsramBus.upstream,
          ApbPhase.drive, mine, quiet]
      refine ⟨by simp [PsramBus.out, held], ?_, some req, ?_, ?_, nofun⟩
      · rintro _ ⟨⟩ _
        exact ⟨nofun, state, next, waits⟩
      · rw [next]
        exact .asking _ _ mine waits
      · rintro _ ⟨⟩
        rw [request]
        exact ⟨rfl, rfl⟩

/-!
## Stages of the bus
-/

/-- How far the bus is, with what the transfers that are done have left in the arrays of the
host. -/
inductive PsramStage (sel : BitVec 32 → Bool) : PsramBus → Host → Prop where
  | reset {data : BitVec 2 → Byte} {chip : Psram} (ready : chip.Ready)
      (spi : chip.qpiMode = false) : PsramStage sel (.reset data chip) chip.host
  | enters {master : ApbPhase} {delayer : Delayer} {psram : PsramSystem}
      {pending : Option ApbReq} {host : Host} {k : Nat} {rise : Bool}
      (up : Upstream sel master delayer pending) (enters : EntersQpi psram host k rise)
      (bound : if rise then k < 8 else k ≤ 8) : PsramStage sel ⟨master, delayer, psram⟩ host
  | calm {master : ApbPhase} {delayer : Delayer} {psram : PsramSystem} {pending : Option ApbReq}
      {host : Host} (up : Upstream sel master delayer pending) (calm : Calm psram host)
      (uncounted : pending ≠ none → Uncounted psram.ctrl) :
      PsramStage sel ⟨master, delayer, psram⟩ host
  | selecting {req : ApbReq} {delayer : Delayer} {psram : PsramSystem} {host : Host}
      (mine : sel req.paddr = true) (state : delayer.state = .wait_perip_t)
      (selecting : Selecting psram req.held host) :
      PsramStage sel ⟨.access req, delayer, psram⟩ host
  | reading {req : ApbReq} {delayer : Delayer} {psram : PsramSystem} {host : Host} {k : Nat}
      {rise : Bool} (mine : sel req.paddr = true) (state : delayer.state = .wait_perip_t)
      (isRead : req.pwrite = false) (reading : Reading psram req.held host k rise)
      (bound : if rise then k < 22 else k ≤ 22) : PsramStage sel ⟨.access req, delayer, psram⟩ host
  | writing {req : ApbReq} {delayer : Delayer} {psram : PsramSystem} {host : Host} {k : Nat}
      {rise : Bool} (mine : sel req.paddr = true) (state : delayer.state = .wait_perip_t)
      (isWrite : req.pwrite = true) (writing : Writing psram req.held host k rise)
      (bound : if rise then k < 8 + 2 * req.count else k ≤ 8 + 2 * req.count) :
      PsramStage sel ⟨.access req, delayer, psram⟩ host
  | held {req : ApbReq} {delayer : Delayer} {psram : PsramSystem} {host : Host}
      (mine : sel req.paddr = true) (state : delayer.state = .delay_t)
      (done : Calm psram (req.hostAfter host) ∨ Ending psram (req.hostAfter host))
      (prdata : req.pwrite = false → delayer.prdata_r = psramWordAt host req.readAddr) :
      PsramStage sel ⟨.access req, delayer, psram⟩ host

/-- What a cycle does: nothing that the master sees, but a request to the PSRAM comes nearer to
its end, or the transfer that it waits for is done. -/
def PsramStage.Next (sel : BitVec 32 → Bool) (input : PsramInput) (bus : PsramBus) (host : Host) :
    Prop :=
  (bus.out sel = [] ∧ PsramStage sel (bus.step sel input) host ∧
      ∀ req, bus.master = .access req → sel req.paddr = true →
        (bus.step sel input).master = .access req ∧ (bus.step sel input).rank req < bus.rank req) ∨
    ∃ req prdata, bus.master = .access req ∧ sel req.paddr = true ∧
      bus.out sel = [req.access prdata] ∧
      (req.pwrite = false → prdata = psramWordAt host req.readAddr) ∧
      PsramStage sel (bus.step sel input) (req.hostAfter host)

theorem Upstream.enters {k : Nat} {rise : Bool} (up : Upstream sel master delayer pending)
    (enters : EntersQpi psram host k rise) (bound : if rise then k < 8 else k ≤ 8) :
    PsramStage.Next sel input ⟨master, delayer, psram⟩ host := by
  obtain ⟨silent, waits, pending', up', _⟩ :=
    @Upstream.next _ input _ _ _ _ up fun _ => enters.uncounted.pready
  obtain ⟨stage, nearer⟩ : PsramStage sel (PsramBus.step sel input ⟨master, delayer, psram⟩) host ∧
      ∀ req, (PsramBus.step sel input ⟨master, delayer, psram⟩).psram.ctrl.left req <
        psram.ctrl.left req := by
    cases rise with
    | true =>
        have more : k < 8 := bound
        have next : EntersQpi (PsramBus.step sel input ⟨master, delayer, psram⟩).psram host
            (k + 1) false := enters.high more
        refine ⟨.enters up' next (Nat.succ_le_of_lt more), fun req => ?_⟩
        rw [next.left more, enters.left (Nat.le_of_lt more), if_neg Bool.false_ne_true, if_pos rfl]
        omega
    | false =>
        rcases Nat.lt_or_eq_of_le (show k ≤ 8 from bound) with more | rfl
        · have next : EntersQpi (PsramBus.step sel input ⟨master, delayer, psram⟩).psram
              host k true := enters.low more
          refine ⟨.enters up' next more, fun req => ?_⟩
          rw [next.left (Nat.le_of_lt more), enters.left (Nat.le_of_lt more)]
          exact Nat.lt_succ_self _
        · have next : Calm (PsramBus.step sel input ⟨master, delayer, psram⟩).psram host ∧
              Uncounted (PsramBus.step sel input ⟨master, delayer, psram⟩).psram.ctrl :=
            enters.finished
          refine ⟨.calm up' next.1 fun _ => next.2, fun req => ?_⟩
          rw [next.1.left, enters.left (Nat.le_refl 8)]
          decide
  refine .inl ⟨silent, stage, fun req pending mine => ?_⟩
  obtain ⟨_, state, master', state'⟩ := waits req pending mine
  refine ⟨master', ?_⟩
  rw [rank_of_waiting state, rank_of_waiting state']
  exact Nat.add_lt_add_left (nearer req) _

/-- A request is taken up in the cycle that sees it. -/
theorem Upstream.calm (up : Upstream sel master delayer pending) (calm : Calm psram host)
    (uncounted : pending ≠ none → Uncounted psram.ctrl) :
    PsramStage.Next sel input ⟨master, delayer, psram⟩ host := by
  obtain ⟨silent, waits, pending', up', sees⟩ :=
    @Upstream.next _ input _ _ _ _ up fun asks => (uncounted asks).pready
  generalize next : PsramBus.step sel input ⟨master, delayer, psram⟩ = bus' at waits up'
  obtain ⟨master', delayer', psram'⟩ := bus'
  have stepped : psram.step (PsramBus.request sel input ⟨master, delayer, psram⟩) input.float =
      psram' := congrArg PsramBus.psram next
  obtain ⟨stage, nearer⟩ : PsramStage sel ⟨master', delayer', psram'⟩ host ∧
      ∀ req, master' = .access req → delayer'.state = .wait_perip_t → pending' ≠ none →
        psram'.ctrl.left req < 47 := by
    cases pending' with
    | none =>
        obtain ⟨calm', uncounted'⟩ := @Calm.unselected _ _ input.float _ calm (sees.none rfl)
        rw [stepped] at calm' uncounted'
        exact ⟨.calm up' calm' fun _ => uncounted', fun _ _ _ some => absurd rfl some⟩
    | some want =>
        obtain ⟨psel, same⟩ := sees.some want rfl
        have selecting := @Calm.selected _ _ input.float _ calm psel
        rw [stepped] at selecting
        have held : Selecting psram' want.held host := by
          rw [← same]
          exact ⟨selecting.state, selecting.reader, selecting.writer, selecting.settles⟩
        cases up' with
        | asking _ _ mine state =>
            refine ⟨.selecting mine state held, ?_⟩
            rintro _ ⟨⟩ _ _
            have left : psram'.ctrl.left want = 46 := held.left
            rw [left]
            decide
  refine .inl ⟨silent, next ▸ stage, fun req pending'' mine => ?_⟩
  obtain ⟨some, state, is, state'⟩ := waits req pending'' mine
  rw [next]
  refine ⟨is, ?_⟩
  rw [rank_of_waiting state, rank_of_waiting state', calm.left]
  refine Nat.add_lt_add_left (nearer req is state' ?_) _
  rintro rfl
  cases up' with
  | idle => cases is
  | away _ _ other _ =>
      cases is
      rw [mine] at other
      cases other

section Service

variable (mine : sel req.paddr = true)
include mine

theorem step_serve (state : delayer.state = .wait_perip_t)
    (quiet : (psram.ctrl.resp req.held).pready = false) :
    PsramBus.out sel ⟨.access req, delayer, psram⟩ = [] ∧
      ∃ delayer', PsramBus.step sel input ⟨.access req, delayer, psram⟩ =
          ⟨.access req, delayer', psram.step req.held input.float⟩ ∧
        delayer'.state = .wait_perip_t := by
  have request := @request_asking sel input delayer psram req mine state
  have held : delayer.resp.pready = false := by simp [Delayer.resp, state]
  refine ⟨by simp [PsramBus.out, held],
    delayer.next (PsramBus.upstream input ⟨.access req, delayer, psram⟩)
      (PsramBus.answer sel input ⟨.access req, delayer, psram⟩), ?_, ?_⟩
  · simp only [PsramBus.step, ApbPhase.next, request, held]
    rfl
  · simp [Delayer.next, state, PsramBus.answer, PsramBus.upstream, ApbPhase.drive, mine, request,
      quiet]

theorem step_served (state : delayer.state = .wait_perip_t)
    (ready : (psram.ctrl.resp req.held).pready = true) :
    PsramBus.out sel ⟨.access req, delayer, psram⟩ = [] ∧
      ∃ delayer', PsramBus.step sel input ⟨.access req, delayer, psram⟩ =
          ⟨.access req, delayer', psram.step req.held input.float⟩ ∧
        delayer'.state = .delay_t ∧
        delayer'.prdata_r = (psram.ctrl.resp req.held).prdata := by
  have request := @request_asking sel input delayer psram req mine state
  have held : delayer.resp.pready = false := by simp [Delayer.resp, state]
  refine ⟨by simp [PsramBus.out, held],
    delayer.next (PsramBus.upstream input ⟨.access req, delayer, psram⟩)
      (PsramBus.answer sel input ⟨.access req, delayer, psram⟩), ?_, ?_, ?_⟩
  · simp only [PsramBus.step, ApbPhase.next, request, held]
    rfl
  · simp [Delayer.next, state, PsramBus.answer, PsramBus.upstream, ApbPhase.drive, mine, request,
      ready]
  · simp [Delayer.next, PsramBus.answer, PsramBus.upstream, ApbPhase.drive, mine, request, ready]

/-- The stage after a cycle of service, which is one cycle nearer to the end. -/
theorem PsramStage.next_of_serve (state : delayer.state = .wait_perip_t)
    (quiet : (psram.ctrl.resp req.held).pready = false)
    (nearer : (psram.step req.held input.float).ctrl.left req < psram.ctrl.left req)
    (stage : ∀ delayer : Delayer, delayer.state = .wait_perip_t →
      PsramStage sel ⟨.access req, delayer, psram.step req.held input.float⟩ host) :
    Next sel input ⟨.access req, delayer, psram⟩ host := by
  obtain ⟨silent, delayer', next, waits⟩ := @step_serve _ input _ _ _ mine state quiet
  refine .inl ⟨silent, next ▸ stage delayer' waits, ?_⟩
  rintro _ ⟨⟩ _
  rw [next]
  refine ⟨rfl, ?_⟩
  rw [rank_of_waiting state, rank_of_waiting waits]
  exact Nat.add_lt_add_left nearer _

/-- The stage after the answer of the controller. -/
theorem PsramStage.next_of_served (state : delayer.state = .wait_perip_t)
    (ready : (psram.ctrl.resp req.held).pready = true)
    (stage : ∀ delayer : Delayer, delayer.state = .delay_t →
      delayer.prdata_r = (psram.ctrl.resp req.held).prdata →
      PsramStage sel ⟨.access req, delayer, psram.step req.held input.float⟩ host) :
    Next sel input ⟨.access req, delayer, psram⟩ host := by
  obtain ⟨silent, delayer', next, delays, prdata⟩ := @step_served _ input _ _ _ mine state ready
  refine .inl ⟨silent, next ▸ stage delayer' delays prdata, ?_⟩
  rintro _ ⟨⟩ _
  rw [next]
  refine ⟨rfl, ?_⟩
  rw [rank_of_waiting state, rank_of_delaying delays]
  have bound := (delayer'.counter - 1#32).isLt
  omega

theorem PsramStage.next_selecting (state : delayer.state = .wait_perip_t)
    (selecting : Selecting psram req.held host) :
    Next sel input ⟨.access req, delayer, psram⟩ host := by
  have left : psram.ctrl.left req = 46 := selecting.left
  cases write : req.pwrite with
  | true =>
      obtain ⟨quiet, writing⟩ := @Selecting.writes _ req.held input.float _ rfl write selecting
      have left' : (psram.step req.held input.float).ctrl.left req = 45 :=
        writing.left write (Nat.zero_le _)
      exact next_of_serve mine state quiet (by rw [left, left']; decide)
        fun _ waits => .writing mine waits write writing (Nat.zero_le _)
  | false =>
      obtain ⟨quiet, reading⟩ := @Selecting.reads _ req.held input.float _ rfl write selecting
      have left' : (psram.step req.held input.float).ctrl.left req = 45 :=
        reading.left write (Nat.zero_le _)
      exact next_of_serve mine state quiet (by rw [left, left']; decide)
        fun _ waits => .reading mine waits write reading (by decide)

theorem PsramStage.next_reading {k : Nat} {rise : Bool} (state : delayer.state = .wait_perip_t)
    (isRead : req.pwrite = false) (reading : Reading psram req.held host k rise)
    (bound : if rise then k < 22 else k ≤ 22) :
    Next sel input ⟨.access req, delayer, psram⟩ host := by
  have left (most : k ≤ 22) : psram.ctrl.left req = 2 * (22 - k) + if rise then 0 else 1 :=
    reading.left isRead most
  cases rise with
  | true =>
      have more : k < 22 := bound
      obtain ⟨quiet, reading'⟩ :=
        @Reading.high _ req.held input.float _ rfl isRead _ reading (Nat.le_of_lt_succ more)
      have left' : (psram.step req.held input.float).ctrl.left req = 2 * (22 - (k + 1)) + 1 :=
        reading'.left isRead (Nat.succ_le_of_lt more)
      refine next_of_serve mine state quiet ?_
        fun _ waits => .reading mine waits isRead reading' (Nat.succ_le_of_lt more)
      rw [left', left (Nat.le_of_lt more), if_pos rfl]
      omega
  | false =>
      rcases Nat.lt_or_eq_of_le (show k ≤ 22 from bound) with more | rfl
      · obtain ⟨quiet, reading'⟩ :=
          @Reading.low _ req.held input.float _ rfl isRead _ reading (Nat.le_of_lt_succ more)
        have left' : (psram.step req.held input.float).ctrl.left req = 2 * (22 - k) :=
          reading'.left isRead (Nat.le_of_lt more)
        refine next_of_serve mine state quiet ?_
          fun _ waits => .reading mine waits isRead reading' more
        rw [left', left (Nat.le_of_lt more)]
        exact Nat.lt_succ_self _
      · obtain ⟨ready, word, ending⟩ := @Reading.done _ req.held input.float _ rfl isRead reading
        have same : req.hostAfter host = host := by simp [ApbReq.hostAfter, isRead]
        exact next_of_served mine state ready fun _ delays prdata =>
          .held mine delays (.inr (same.symm ▸ ending)) fun _ => prdata.trans word

theorem PsramStage.next_writing {k : Nat} {rise : Bool} (state : delayer.state = .wait_perip_t)
    (isWrite : req.pwrite = true) (writing : Writing psram req.held host k rise)
    (bound : if rise then k < 8 + 2 * req.count else k ≤ 8 + 2 * req.count) :
    Next sel input ⟨.access req, delayer, psram⟩ host := by
  have few := count_cases req
  have left (most : k ≤ 8 + 2 * req.count) :
      psram.ctrl.left req = 2 * (22 - k) + if rise then 0 else 1 := writing.left isWrite most
  cases rise with
  | true =>
      have more : k < 8 + 2 * req.count := bound
      obtain ⟨quiet, writing'⟩ := @Writing.high _ req.held input.float _ rfl isWrite _ writing more
      have left' : (psram.step req.held input.float).ctrl.left req = 2 * (22 - (k + 1)) + 1 :=
        writing'.left isWrite (Nat.succ_le_of_lt more)
      refine next_of_serve mine state quiet ?_
        fun _ waits => .writing mine waits isWrite writing' (Nat.succ_le_of_lt more)
      rw [left', left (Nat.le_of_lt more), if_pos rfl]
      omega
  | false =>
      rcases Nat.lt_or_eq_of_le (show k ≤ 8 + 2 * req.count from bound) with more | rfl
      · obtain ⟨quiet, writing'⟩ := @Writing.low _ req.held input.float _ rfl isWrite _ writing more
        have left' : (psram.step req.held input.float).ctrl.left req = 2 * (22 - k) :=
          writing'.left isWrite (Nat.le_of_lt more)
        refine next_of_serve mine state quiet ?_
          fun _ waits => .writing mine waits isWrite writing' more
        rw [left', left (Nat.le_of_lt more)]
        exact Nat.lt_succ_self _
      · obtain ⟨ready, ending⟩ := @Writing.done _ req.held input.float _ rfl isWrite writing
        refine next_of_served mine state ready fun _ delays _ =>
          .held mine delays (.inr ending) fun isRead => ?_
        rw [isWrite] at isRead
        cases isRead

theorem PsramStage.next_held (state : delayer.state = .delay_t)
    (done : Calm psram (req.hostAfter host) ∨ Ending psram (req.hostAfter host))
    (prdata : req.pwrite = false → delayer.prdata_r = psramWordAt host req.readAddr) :
    Next sel input ⟨.access req, delayer, psram⟩ host := by
  have unselected : (PsramBus.request sel input ⟨.access req, delayer, psram⟩).psel = false := by
    simp [PsramBus.request, PsramBus.upstream, Delayer.request, state]
  have unanswered : (PsramBus.answer sel input ⟨.access req, delayer, psram⟩).pready = false := by
    simp [PsramBus.answer, PsramBus.upstream, ApbPhase.drive, mine, PsramCtrl.resp, unselected]
  have calm : Calm (psram.step (PsramBus.request sel input ⟨.access req, delayer, psram⟩)
      input.float) (req.hostAfter host) := by
    rcases done with calm | ending
    · exact (calm.unselected unselected).1
    · exact ending.next unselected
  by_cases last : delayer.counter = 1#32
  · have ready : delayer.resp.pready = true := by simp [Delayer.resp, state, last]
    refine .inr ⟨req, delayer.prdata_r, rfl, mine, ?_, prdata, ?_⟩
    · simp [PsramBus.out, Delayer.resp, state, last, mine]
    · simp only [PsramBus.step, ApbPhase.next, ready, if_true]
      refine .calm (.idle _ ?_) calm fun some => absurd rfl some
      simp [Delayer.next, state, last]
  · have quiet : delayer.resp.pready = false := by simp [Delayer.resp, last]
    have delays : (PsramBus.step sel input ⟨.access req, delayer, psram⟩).delayer.state =
        .delay_t := by
      simp [PsramBus.step, Delayer.next, state, last]
    have stays : (PsramBus.step sel input ⟨.access req, delayer, psram⟩).master =
        .access req := by
      simp [PsramBus.step, ApbPhase.next, quiet]
    refine .inl ⟨by simp [PsramBus.out, quiet], ?_, ?_⟩
    · simp only [PsramBus.step, ApbPhase.next, quiet, Bool.false_eq_true, if_false]
      refine .held mine delays (.inl calm) fun isRead => ?_
      simpa [Delayer.next, unanswered] using prdata isRead
    · rintro _ ⟨⟩ _
      refine ⟨stays, ?_⟩
      have counted : (PsramBus.step sel input ⟨.access req, delayer, psram⟩).delayer.counter =
          delayer.counter - 1#32 := by
        simp [PsramBus.step, Delayer.next, state, last]
      have differs : (delayer.counter - 1#32).toNat ≠ 0 := by
        intro zero
        apply last
        have same : delayer.counter - 1#32 = 0#32 := BitVec.eq_of_toNat_eq zero
        simpa [BitVec.sub_eq_iff_eq_add] using same
      rw [rank_of_delaying state, PsramBus.rank, delays]
      simp only [counted]
      rw [BitVec.toNat_sub, BitVec.toNat_ofNat]
      omega

end Service

theorem PsramStage.next {bus : PsramBus} (stage : PsramStage sel bus host) (input : PsramInput) :
    Next sel input bus host := by
  cases stage with
  | @reset data chip ready spi =>
      have up : Upstream sel .idle Delayer.reset none := .idle _ rfl
      obtain ⟨silent, _, pending', up', _⟩ :=
        @Upstream.next sel input _ _ (.reset data chip) _ up nofun
      exact .inl ⟨silent, .enters up' (entersQpi_reset ready spi) (by decide), nofun⟩
  | enters up enters bound => exact up.enters enters bound
  | calm up calm uncounted => exact up.calm calm uncounted
  | selecting mine state selecting => exact next_selecting mine state selecting
  | reading mine state isRead reading bound => exact next_reading mine state isRead reading bound
  | writing mine state isWrite writing bound =>
      exact next_writing mine state isWrite writing bound
  | held mine state done prdata => exact next_held mine state done prdata

end Cycle

/-!
## The arrays of the host as words
-/

def hostLanes (host : Host) (word : BitVec 22) (i : Fin 4) : Byte :=
  host .psram (4 * word.toNat + i)

/-- The strobe is a byte, an aligned half or the word, and the address is that of its lowest
lane. -/
def ApbReq.OneRun (req : ApbReq) : Prop :=
  (req.pstrb, req.paddr.extractLsb' 0 2) ∈
    [(0b0001#4, 0#2), (0b0010#4, 1#2), (0b0100#4, 2#2), (0b1000#4, 3#2), (0b0011#4, 0#2),
      (0b1100#4, 2#2), (0b1111#4, 0#2)]

instance (req : ApbReq) : Decidable req.OneRun := inferInstanceAs (Decidable (_ ∈ _))

theorem toNat_readAddr (req : ApbReq) :
    req.readAddr.toNat = 4 * (psramWord req.paddr).toNat := by
  rw [ApbReq.readAddr, BitVec.toNat_append, psramWord, Nat.shiftLeft_eq]
  simp [Nat.mul_comm]

theorem toNat_writeAddr (req : ApbReq) :
    req.writeAddr.toNat =
      4 * (psramWord req.paddr).toNat + (req.paddr.extractLsb' 0 2).toNat := by
  simp only [ApbReq.writeAddr, psramWord, BitVec.extractLsb'_toNat, Nat.shiftRight_eq_div_pow]
  omega

/-- The lanes of a strobe follow each other from the address on. -/
theorem ApbReq.OneRun.lanes {req : ApbReq} (oneRun : req.OneRun) :
    (req.paddr.extractLsb' 0 2).toNat + req.count ≤ 4 ∧
      (∀ i < 4, req.pstrb.getLsbD i = decide ((req.paddr.extractLsb' 0 2).toNat ≤ i ∧
        i < (req.paddr.extractLsb' 0 2).toNat + req.count)) ∧
      ∀ j < req.count, lane req.line j =
        lane req.pwdata ((req.paddr.extractLsb' 0 2).toNat + j) := by
  obtain ⟨paddr, _, _, _, pwdata, pstrb⟩ := req
  simp only [OneRun] at oneRun
  simp only [ApbReq.count, ApbReq.line]
  generalize paddr.extractLsb' 0 2 = offset at oneRun ⊢
  simp only [List.mem_cons, Prod.mk.injEq, List.not_mem_nil, or_false] at oneRun
  obtain ⟨rfl, rfl⟩ | ⟨rfl, rfl⟩ | ⟨rfl, rfl⟩ | ⟨rfl, rfl⟩ | ⟨rfl, rfl⟩ | ⟨rfl, rfl⟩ |
    ⟨rfl, rfl⟩ := oneRun
  all_goals
    refine ⟨by decide, fun i bound => ?_, fun j bound => ?_⟩
    · obtain rfl | rfl | rfl | rfl : i = 0 ∨ i = 1 ∨ i = 2 ∨ i = 3 := by omega
      all_goals rfl
    · have small : j < 4 := Nat.lt_of_lt_of_le bound (by decide)
      obtain rfl | rfl | rfl | rfl : j = 0 ∨ j = 1 ∨ j = 2 ∨ j = 3 := by omega
      all_goals
        first
        | exact absurd bound (by decide)
        | simp [selData, selSize, lane_append]

theorem ApbReq.OneRun.apply {req : ApbReq} (oneRun : req.OneRun) (isWrite : req.pwrite = true)
    (host : Host) (prdata : BitVec 32) :
    (req.access prdata).apply (hostLanes host) = hostLanes (req.hostAfter host) := by
  obtain ⟨fits, strobe, bytes⟩ := oneRun.lanes
  have start := toNat_writeAddr req
  generalize (req.paddr.extractLsb' 0 2).toNat = offset at fits strobe bytes start
  funext word i
  have bound := i.isLt
  simp only [ApbReq.access, isWrite, if_true, Access.apply, hostLanes, ApbReq.hostAfter,
    Function.update_self]
  have length : ((List.range req.count).map (lane req.line)).length = req.count := by simp
  by_cases here : word = psramWord req.paddr ∧ req.pstrb.getLsbD i = true
  · obtain ⟨rfl, covers⟩ := here
    rw [strobe i bound, decide_eq_true_iff] at covers
    obtain ⟨j, place⟩ := Nat.exists_eq_add_of_le covers.1
    have inside : j < req.count := by omega
    have cell : 4 * (psramWord req.paddr).toNat + i.val - req.writeAddr.toNat = j := by omega
    rw [if_pos ⟨rfl, by rw [strobe i bound, decide_eq_true covers]⟩, blit, if_neg (by omega), cell,
      List.getD_eq_getElem _ _ (by rw [length]; exact inside)]
    simp [bytes j inside, place]
  · rw [if_neg here, Lib.blit_outside]
    rw [length]
    rw [not_and, strobe i bound, decide_eq_true_iff] at here
    by_cases same : word = psramWord req.paddr
    · have missed := here same
      subst same
      omega
    · have apart : word.toNat ≠ (psramWord req.paddr).toNat :=
        fun equal => same (BitVec.eq_of_toNat_eq equal)
      omega

theorem fits_read {req : ApbReq} (isRead : req.pwrite = false) (host : Host) :
    (req.access (psramWordAt host req.readAddr)).Fits (hostLanes host) := by
  simp only [ApbReq.access, isRead, Bool.false_eq_true, if_false, Access.Fits]
  funext i
  rw [psramWordAt, lane_append _ _ _ _ _ i.isLt, toNat_readAddr, hostLanes]
  obtain rfl | rfl | rfl | rfl : i = 0 ∨ i = 1 ∨ i = 2 ∨ i = 3 := by omega
  all_goals rfl

/-!
## Runs
-/

theorem PsramStage.alive {sel : BitVec 32 → Bool} {bus : PsramBus} {host : Host}
    (stage : PsramStage sel bus host) : ∃ chip, bus.psram.chip = some chip := by
  have settled {sys : PsramSystem} {host : Host} (settles : Settles sys host) :
      ∃ chip, sys.chip = some chip := by
    obtain ⟨chip, _, held, _⟩ := settles
    exact ⟨chip, held⟩
  have clocked {sys : PsramSystem} {dins : List Nibble} {outs : List (Option Nibble)}
      {last : Psram} {k : Nat} {rise : Bool} (serial : Serial sys dins outs last k rise) :
      ∃ chip, sys.chip = some chip := by
    obtain ⟨_, _, chip, held, _⟩ := serial.run
    exact ⟨chip, held⟩
  cases stage with
  | @reset _ chip => exact ⟨chip, rfl⟩
  | enters _ enters =>
      obtain ⟨_, _, _, serial, _⟩ := enters.serial
      exact clocked serial
  | calm _ calm => exact settled calm.settles
  | selecting _ _ selecting => exact settled selecting.settles
  | reading _ _ _ reading =>
      obtain ⟨_, _, serial, _⟩ := reading.serial
      exact clocked serial
  | writing _ _ _ writing =>
      obtain ⟨_, _, serial, _⟩ := writing.serial
      exact clocked serial
  | held _ _ done =>
      obtain calm | ending := done
      · exact settled calm.settles
      · obtain ⟨_, _, settles⟩ | ⟨_, _, _, _, _, serial, _⟩ := ending.tails
        · exact settled settles
        · exact clocked serial

section Runs

variable (sel : BitVec 32 → Bool) (data : BitVec 2 → Byte) (chip : Psram)
  (inputs : Nat → PsramInput)

def psramAt (n : Nat) : PsramBus := (psramMachine sel).run inputs 0 (.reset data chip) n

/-- The transfers to the PSRAM that are done in the first `n` cycles. -/
def psramLog (n : Nat) : List (Access (BitVec 22) (Fin 4) Byte) :=
  (psramMachine sel).events inputs 0 (.reset data chip) n

theorem psramAt_succ (n : Nat) : psramAt sel data chip inputs (n + 1) =
    (psramAt sel data chip inputs n).step sel (inputs n) := by
  rw [psramAt, Machine.run_succ, Nat.zero_add]
  rfl

theorem psramLog_succ (n : Nat) : psramLog sel data chip inputs (n + 1) =
    psramLog sel data chip inputs n ++ (psramAt sel data chip inputs n).out sel := by
  rw [psramLog, Machine.events_succ, Nat.zero_add]
  rfl

/-- The writes that the master asks the PSRAM for are those of a processor. -/
def Driven (inputs : Nat → PsramInput) : Prop :=
  ∀ n, (inputs n).want.psel = true → sel (inputs n).want.paddr = true →
    (inputs n).want.pwrite = true → (inputs n).want.OneRun

variable {sel data chip inputs}

theorem Driven.pending (driven : Driven sel inputs) (n : Nat) {req : ApbReq}
    (pending : (psramAt sel data chip inputs n).master = .access req)
    (mine : sel req.paddr = true) (isWrite : req.pwrite = true) : req.OneRun := by
  induction n with
  | zero => cases pending
  | succ n ih =>
      rw [psramAt_succ] at pending
      simp only [PsramBus.step, ApbPhase.next] at pending
      split at pending
      · split at pending
        · cases pending
          exact driven n ‹_› mine isWrite
        · cases pending
      · rename_i master
        split at pending
        · cases pending
        · exact ih (master.trans pending)

theorem psramLog_replays (ready : chip.Ready) (spi : chip.qpiMode = false)
    (driven : Driven sel inputs) (n : Nat) :
    Replays (hostLanes chip.host) (psramLog sel data chip inputs n) ∧
      ∃ host, PsramStage sel (psramAt sel data chip inputs n) host ∧
        hostLanes host = replayed (hostLanes chip.host) (psramLog sel data chip inputs n) := by
  induction n with
  | zero => exact ⟨trivial, chip.host, .reset ready spi, rfl⟩
  | succ n ih =>
      obtain ⟨replays, host, stage, same⟩ := ih
      rw [psramLog_succ, psramAt_succ]
      rcases stage.next (inputs n) with ⟨silent, stage', _⟩ |
        ⟨req, prdata, pending, mine, shown, word, stage'⟩
      · rw [silent, List.append_nil]
        exact ⟨replays, host, stage', same⟩
      · have after : (req.access prdata).apply (hostLanes host) =
            hostLanes (req.hostAfter host) ∧ (req.access prdata).Fits (hostLanes host) := by
          cases write : req.pwrite with
          | true =>
              refine ⟨(driven.pending n pending mine write).apply write host prdata, ?_⟩
              simp [ApbReq.access, write, Access.Fits]
          | false =>
              rw [word write]
              refine ⟨?_, fits_read write host⟩
              simp [ApbReq.access, write, Access.apply, ApbReq.hostAfter]
        rw [shown]
        refine ⟨(Lib.replays_append _ _ _).mpr ⟨replays, ?_, trivial⟩, req.hostAfter host, stage',
          ?_⟩
        · rw [← same]
          exact after.2
        · simp only [replayed, List.foldl_append, List.foldl_cons, List.foldl_nil] at same ⊢
          rw [← same]
          exact after.1.symm

theorem exists_psram_answer (ready : chip.Ready) (spi : chip.qpiMode = false)
    (driven : Driven sel inputs) {n : Nat} {req : ApbReq}
    (pending : (psramAt sel data chip inputs n).master = .access req)
    (mine : sel req.paddr = true) :
    ∃ m prdata, n ≤ m ∧ psramLog sel data chip inputs (m + 1) =
      psramLog sel data chip inputs n ++ [req.access prdata] := by
  obtain ⟨_, host, stage, _⟩ := @psramLog_replays _ data _ _ ready spi driven n
  obtain ⟨k, ⟨⟨host', stage'⟩, pending'⟩, goal, before⟩ :=
    @Machine.exists_first _ _ _ (psramMachine sel) inputs
      (fun bus => (∃ host, PsramStage sel bus host) ∧ bus.master = .access req)
      (fun bus => bus.out sel ≠ []) (fun bus => bus.rank req)
      (fun input bus holds more => by
        obtain ⟨⟨host, stage⟩, pending⟩ := holds
        rcases stage.next input with ⟨_, stage', nearer⟩ | ⟨_, _, _, _, shown, _⟩
        · obtain ⟨stays, less⟩ := nearer req pending mine
          exact ⟨⟨⟨host, stage'⟩, stays⟩, less⟩
        · rw [shown] at more
          exact absurd (List.cons_ne_nil _ _) more)
      _ ⟨⟨host, stage⟩, pending⟩ n
  have here : (psramMachine sel).run inputs n (psramAt sel data chip inputs n) k =
      psramAt sel data chip inputs (n + k) := by
    rw [psramAt, psramAt, Machine.run_add, Nat.zero_add]
  have quiet : psramLog sel data chip inputs (n + k) = psramLog sel data chip inputs n := by
    have silent : (psramMachine sel).events inputs n (psramAt sel data chip inputs n) k = [] :=
      Machine.events_eq_nil _ _ fun j bound => not_not.mp (before j bound).2
    rw [psramLog, Machine.events_add, Nat.zero_add]
    exact (congrArg _ silent).trans (List.append_nil _)
  rw [here] at stage' pending' goal
  rcases stage'.next (inputs (n + k)) with ⟨silent, _⟩ | ⟨req', prdata, pending'', _, shown, _⟩
  · exact absurd silent goal
  · cases pending'.symm.trans pending''
    refine ⟨n + k, prdata, Nat.le_add_right n k, ?_⟩
    rw [psramLog_succ, quiet, shown]

/-- From reset on the PSRAM is a memory of words with four lanes: each read returns what the
transfers before it have left, whatever the timing of the requests, the transfers of other
devices between them and the undriven pins. The simulation goes on, and every request is
answered. -/
theorem psram_path_memory (ready : chip.Ready) (spi : chip.qpiMode = false)
    (driven : Driven sel inputs) (n : Nat) :
    Replays (hostLanes chip.host) (psramLog sel data chip inputs n) ∧
      (∃ chip', (psramAt sel data chip inputs n).psram.chip = some chip') ∧
      ∀ req, (psramAt sel data chip inputs n).master = .access req → sel req.paddr = true →
        ∃ m prdata, n ≤ m ∧ psramLog sel data chip inputs (m + 1) =
          psramLog sel data chip inputs n ++ [req.access prdata] := by
  obtain ⟨replays, host, stage, _⟩ := @psramLog_replays _ data _ _ ready spi driven n
  exact ⟨replays, stage.alive, fun req pending mine =>
    exists_psram_answer ready spi driven pending mine⟩

end Runs

/-- A half word in the upper lanes of the word at 0x80000010. -/
def halfWrite : ApbReq := ⟨0x80000012#32, true, false, true, 0xABCD0000#32, 0b1100#4⟩

/-- A master that asks for nothing else gets its write done in a chip of zeros. -/
theorem psram_path_memory_half :
    let sel := fun addr : BitVec 32 => addr.extractLsb' 24 8 == 0x80#8
    let inputs := fun _ : Nat => (⟨halfWrite, ⟨true, 0#32, false⟩, 0#4⟩ : PsramInput)
    ∃ m prdata, psramLog sel (fun _ => 0#8) .zeroed inputs (m + 1) = [halfWrite.access prdata] ∧
      Replays (hostLanes Psram.zeroed.host)
        (psramLog sel (fun _ => 0#8) .zeroed inputs (m + 1)) := by
  intro sel inputs
  have driven : Driven sel inputs := fun _ _ _ _ => by
    show halfWrite.OneRun
    decide
  have ready : Psram.zeroed.Ready := ⟨rfl, rfl, rfl, rfl, rfl⟩
  obtain ⟨_, _, answered⟩ := @psram_path_memory sel (fun _ => 0#8) _ _ ready rfl driven 1
  obtain ⟨m, prdata, _, log⟩ := answered halfWrite rfl rfl
  exact ⟨m, prdata, log, (@psram_path_memory sel _ _ _ ready rfl driven (m + 1)).1⟩

end Ysyx.Soc
