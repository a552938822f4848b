import Ysyx.Am.TrapProperties

/-! A parked context stays as it was saved over every run of the others, and resumes there. -/

set_option autoImplicit false

namespace Ysyx.Am

open Rv32 (Word RegId CsrSlot)
open Lib (ByteMem)
open Lib.ByteMem (InBlock)

/-!
## Saved contexts
-/

/-- The `Context` at `c` is the one of the parked context. -/
def Held (mem : ByteMem 32) (c : Word) : Parked → Prop
  | .yielded gpr pc mstatus =>
      gpr 0#5 = 0#32 ∧ gpr sp = c + BitVec.ofNat 32 sizeofContext ∧
        (∀ n < 32, n ≠ 0 → n ≠ 2 → member mem c (.gpr n) = gpr (BitVec.ofNat 5 n)) ∧
        member mem c .mepc = pc + 4#32 ∧ member mem c .mstatus = mstatus
  | .fresh entry arg kstackEnd =>
      kstackEnd = c + BitVec.ofNat 32 sizeofContext ∧ member mem c (.gpr 10) = arg ∧
        member mem c .mepc = entry ∧ member mem c .mstatus = 0x1800#32

theorem Held.congr {mem mem' : ByteMem 32} {c : Word} {parked : Parked} (held : Held mem c parked)
    (same : ∀ addr, InBlock c sizeofContext addr → mem' addr = mem addr) : Held mem' c parked := by
  have members (field : Member) (place : field.index < 36) :
      member mem' c field = member mem c field := member_congr place same
  cases parked with
  | yielded gpr pc mstatus =>
      obtain ⟨zero, stack, registers, mepc, status⟩ := held
      refine ⟨zero, stack, ?_, (members .mepc (by decide)).trans mepc,
        (members .mstatus (by decide)).trans status⟩
      intro n bound notZero notStack
      have place : (Member.gpr n).index < 36 := Nat.lt_trans bound (by decide)
      exact (members (.gpr n) place).trans (registers n bound notZero notStack)
  | fresh entry arg kstackEnd =>
      obtain ⟨stack, argument, mepc, status⟩ := held
      exact ⟨stack, (members (.gpr 10) (by decide)).trans argument,
        (members .mepc (by decide)).trans mepc, (members .mstatus (by decide)).trans status⟩

theorem register_cases (r : RegId) :
    r = 0#5 ∨ r = sp ∨ ∃ n < 32, n ≠ 0 ∧ n ≠ 2 ∧ r = BitVec.ofNat 5 n := by
  revert r
  decide

theorem Held.resumed {before after : Machine} {c : Word} {parked : Parked}
    (held : Held before.mem c parked) (restored : Restored c before after) :
    parked.Resumed after := by
  cases parked with
  | yielded gpr pc mstatus =>
      obtain ⟨zero, stack, registers, mepc, status⟩ := held
      refine ⟨?_, restored.pc.trans mepc, restored.mstatus.trans status⟩
      funext r
      rcases register_cases r with rfl | rfl | ⟨n, bound, notZero, notStack, rfl⟩
      · exact after.x0.trans zero.symm
      · exact restored.sp.trans stack.symm
      · exact (restored.gpr n bound notZero notStack).trans (registers n bound notZero notStack)
  | fresh entry arg kstackEnd =>
      obtain ⟨stack, argument, mepc, status⟩ := held
      exact ⟨restored.pc.trans mepc,
        (restored.gpr 10 (by decide) (by decide) (by decide)).trans argument,
        restored.sp.trans stack.symm, restored.mstatus.trans status⟩

theorem context_add (machine : Machine) :
    machine.gpr sp = machine.context + BitVec.ofNat 32 sizeofContext :=
  (BitVec.sub_add_cancel _ _).symm

theorem held_kcontext (mem : ByteMem 32) (kstackEnd entry arg : Word) :
    Held (kcontext mem kstackEnd entry arg).2 (kcontext mem kstackEnd entry arg).1
      (.fresh entry arg kstackEnd) := by
  refine ⟨(BitVec.sub_add_cancel _ _).symm, ?_, ?_, ?_⟩ <;> simp only [kcontext]
  · rw [member_setMember_same _ _ _ (by decide)]
  · rw [member_setMember_ne _ _ _ (by decide) (by decide) (by decide),
      member_setMember_ne _ _ _ (by decide) (by decide) (by decide),
      member_setMember_same _ _ _ (by decide)]
  · rw [member_setMember_ne _ _ _ (by decide) (by decide) (by decide),
      member_setMember_same _ _ _ (by decide)]

theorem kcontext_outside {mem mem' : ByteMem 32} {kstackEnd entry arg c addr : Word}
    (built : kcontext mem kstackEnd entry arg = (c, mem'))
    (outside : ¬ InBlock c sizeofContext addr) : mem' addr = mem addr := by
  cases built
  rw [setMember_outside _ (by decide) outside, setMember_outside _ (by decide) outside,
    setMember_outside _ (by decide) outside]

/-!
## One yield
-/

namespace System

variable {ι : Type} {place : Placement} {system after : System ι}

/-- What a trap leaves behind: the context of the interrupted code, past its `ecall`, and every
saved `Context` as it was. -/
theorem Switches.effect {userHandler : UserHandler} {c : Word} {resumed : Machine}
    (switches : system.Switches userHandler c)
    (traps : Traps place (some userHandler) system.machine resumed) :
    ∃ back, Restored c back resumed ∧ back.csr CsrSlot.mtvec = place.amAsmTrap ∧
      Held back.mem system.machine.context
        (.yielded system.machine.gpr system.machine.pc (system.machine.csr CsrSlot.mstatus)) ∧
      ∀ addr, system.Occupied addr → ¬ InBlock system.machine.context sizeofContext addr →
        back.mem addr = system.machine.mem addr := by
  cases traps with
  | @intro result mem back vectored handled returns =>
      have label : (system.machine.step (.sys .ecall)).pc = place.amAsmTrap := vectored
      have saved : Saved place (system.machine.step (.sys .ecall)) (place.atCall system.machine) :=
        exec_entry label
      generalize place.atCall system.machine = call at handled returns saved
      have argument : call.gpr a0 = system.machine.context := saved.a0
      have cause : member call.mem system.machine.context .mcause = 0x0b#32 := saved.mcause
      have mepc : member call.mem system.machine.context .mepc = system.machine.pc := saved.mepc
      obtain ⟨returned, kept⟩ : c = result ∧ ∀ addr,
          system.Occupied addr ∨ InBlock system.machine.context sizeofContext addr →
            mem addr = setMember call.mem system.machine.context .mepc
              (system.machine.pc + 4#32) addr := by
        rw [argument, amIrqHandle, if_pos cause, mepc] at handled
        generalize setMember call.mem system.machine.context .mepc
          (system.machine.pc + 4#32) = advanced at handled ⊢
        have result' := switches.result advanced
        have keeps := switches.keeps advanced
        generalize userHandler .yield system.machine.context advanced = answer at *
        obtain ⟨pointer, memory⟩ := answer
        dsimp only at handled result' keeps
        by_cases null : pointer = 0#32
        · simp [null] at handled
        · rw [if_pos null] at handled
          cases handled
          exact ⟨result'.symm, keeps⟩
      subst returned
      have outside (addr : Word) (out : ¬ InBlock system.machine.context sizeofContext addr) :
          call.mem addr = system.machine.mem addr := saved.outside addr out
      refine ⟨back, exec_exit returns.a0, ?_, ?_, ?_⟩
      · exact (returns.mtvec.trans (congrFun saved.csr _)).trans vectored
      · rw [returns.mem]
        refine Held.congr ?_ fun addr inside => kept addr (.inr inside)
        refine ⟨system.machine.x0, context_add _, ?_, ?_, ?_⟩
        · intro n bound notZero notStack
          have apart : (Member.gpr n).index ≠ Member.mepc.index := Nat.ne_of_lt (by
            simp only [Member.index, gprNum]
            omega)
          have place' : (Member.gpr n).index < 36 := Nat.lt_trans bound (by decide)
          rw [member_setMember_ne _ _ _ place' (by decide) apart]
          exact saved.gpr n bound notZero notStack
        · exact member_setMember_same _ _ _ (by decide)
        · rw [member_setMember_ne _ _ _ (by decide) (by decide) (by decide)]
          exact saved.mstatus
      · intro addr occupied apart
        rw [returns.mem, kept addr (.inl occupied), setMember_outside _ (by decide) apart,
          outside addr apart]

/-!
## Runs
-/

variable [DecidableEq ι]

/-- Traps go to the label, and every parked context is behind its pointer as it was saved. -/
structure Sound (place : Placement) (system : System ι) : Prop where
  mtvec : system.machine.csr CsrSlot.mtvec = place.amAsmTrap
  running : system.parked system.current = none
  held : ∀ j c parked, system.parked j = some (c, parked) → Held system.machine.mem c parked

omit [DecidableEq ι] in
theorem Booted.sound (booted : system.Booted place) : system.Sound place where
  mtvec := booted.1
  running := booted.2 _
  held j c parked found := by simp [booted.2 j] at found

/-- Every context that may run next is held in the memory the call returns with. -/
theorem Sound.waiting_held (sound : system.Sound place) {mem : ByteMem 32}
    (room : ∀ addr, InBlock system.machine.context sizeofContext addr → ¬ system.Occupied addr)
    (saved : Held mem system.machine.context
      (.yielded system.machine.gpr system.machine.pc (system.machine.csr CsrSlot.mstatus)))
    (kept : ∀ addr, system.Occupied addr → ¬ InBlock system.machine.context sizeofContext addr →
      mem addr = system.machine.mem addr)
    {j : ι} {c : Word} {parked : Parked} (found : system.waiting j = some (c, parked)) :
    Held mem c parked := by
  by_cases own : j = system.current
  · subst own
    rw [waiting, Function.update_self] at found
    cases found
    exact saved
  · rw [waiting, Function.update_of_ne own] at found
    refine (sound.held j c parked found).congr fun addr inside => ?_
    have occupied : system.Occupied addr := ⟨j, c, parked, found, inside⟩
    exact kept addr occupied fun block => room addr block occupied

theorem Yields.spec (sound : system.Sound place) (yields : system.Yields place after) :
    after.Sound place ∧
      ∃ c parked, system.waiting after.current = some (c, parked) ∧
        parked.Resumed after.machine := by
  cases yields with
  | @intro userHandler next c parked resumed room found switches traps =>
      obtain ⟨back, restored, mtvec, saved, kept⟩ := switches.effect traps
      have held {j : ι} {c : Word} {parked : Parked}
          (found : system.waiting j = some (c, parked)) : Held back.mem c parked :=
        sound.waiting_held room saved kept found
      refine ⟨⟨restored.mtvec.trans mtvec, Function.update_self _ _ _, ?_⟩,
        c, parked, found, (held found).resumed restored⟩
      intro j c' parked' found'
      by_cases resumes : j = next
      · simp [resumes] at found'
      · dsimp only at found'
        rw [Function.update_of_ne resumes] at found'
        rw [restored.mem]
        exact held found'

theorem Step.sound (sound : system.Sound place) (step : Step place system after) :
    after.Sound place := by
  cases step with
  | run vectored kept =>
      refine ⟨vectored.trans sound.mtvec, sound.running, ?_⟩
      intro j c parked found
      exact (sound.held j c parked found).congr fun addr inside =>
        kept addr ⟨j, c, parked, found, inside⟩
  | @kcontext j kstackEnd entry arg c mem unused other built room =>
      refine ⟨sound.mtvec, (Function.update_of_ne other.symm _ _).trans sound.running, ?_⟩
      intro i c' parked found
      dsimp only at found
      by_cases new : i = j
      · subst new
        have fresh := held_kcontext system.machine.mem kstackEnd entry arg
        rw [built] at fresh
        rw [Function.update_self] at found
        cases found
        exact fresh
      · rw [Function.update_of_ne new] at found
        refine (sound.held i c' parked found).congr fun addr inside => ?_
        have occupied : system.Occupied addr := ⟨i, c', parked, found, inside⟩
        exact kcontext_outside built fun block => room addr block occupied
  | yield yields => exact (yields.spec sound).1

theorem Reaches.sound {start : System ι} (booted : start.Booted place)
    (reaches : Reaches place start system) : system.Sound place := by
  induction reaches with
  | refl => exact booted.sound
  | tail _ step sound => exact step.sound sound

/-- Whichever context the handler returns runs next, unless its pointer is null. -/
theorem Sound.exists_yields (sound : system.Sound place) {userHandler : UserHandler} {next : ι}
    {c : Word} {parked : Parked}
    (room : ∀ addr, InBlock system.machine.context sizeofContext addr → ¬ system.Occupied addr)
    (found : system.waiting next = some (c, parked)) (switches : system.Switches userHandler c)
    (notNull : c ≠ 0#32) : ∃ after, system.Yields place after ∧ after.current = next := by
  have label : (system.machine.step (.sys .ecall)).pc = place.amAsmTrap := sound.mtvec
  have saved : Saved place (system.machine.step (.sys .ecall)) (place.atCall system.machine) :=
    exec_entry label
  obtain ⟨call, entered⟩ : ∃ call, place.atCall system.machine = call := ⟨_, rfl⟩
  rw [entered] at saved
  have argument : call.gpr a0 = system.machine.context := saved.a0
  have cause : member call.mem system.machine.context .mcause = 0x0b#32 := saved.mcause
  obtain ⟨mem, handled⟩ : ∃ mem,
      amIrqHandle (some userHandler) call.mem (call.gpr a0) = some (c, mem) := by
    rw [argument, amIrqHandle, if_pos cause]
    have result := switches.result (setMember call.mem system.machine.context .mepc
      (member call.mem system.machine.context .mepc + 4#32))
    simp only [result, notNull, ne_eq, not_false_eq_true, if_true, Option.some.injEq, Prod.mk.injEq,
      true_and, exists_eq']
  have notZero : a0 ≠ 0#5 := by decide
  let back : Machine :=
    { call with
      gpr := Rv32.writeGpr call.gpr a0 c
      x0 := Rv32.writeGpr_zero call.x0 a0 c
      pc := call.gpr ra
      mem := mem }
  have returns : Returns call c mem back := ⟨rfl, writeGpr_same call.gpr c notZero, rfl, rfl⟩
  rw [← entered] at handled returns
  exact ⟨_, .intro room found switches (.intro sound.mtvec handled returns), rfl⟩

end System

/-- The entry saves, the exit restores, and in every run of any number of contexts each of them
resumes as it was parked. -/
theorem contexts_exact (ι : Type) [DecidableEq ι] (place : Placement) :
    (∀ machine : Machine, machine.pc = place.amAsmTrap →
      Saved place machine (machine.exec (amAsmTrapEntry place.amAsmTrap place.amIrqHandle))) ∧
    (∀ (machine : Machine) (c : Word), machine.gpr a0 = c →
      Restored c machine (machine.exec amAsmTrapExit)) ∧
    ∀ start system after : System ι, start.Booted place → System.Reaches place start system →
      system.Yields place after →
        ∃ c parked, system.waiting after.current = some (c, parked) ∧
          parked.Resumed after.machine :=
  ⟨fun _ here => exec_entry here, fun _ _ returned => exec_exit returned,
    fun _ _ _ booted reaches yields => (yields.spec (reaches.sound booted)).2⟩

/-- A hart that has run `cte_init` with the trap entry at `100h`, its stack at `1000h`. -/
def bootMachine : Machine where
  gpr r := if r = sp then 0x1000#32 else 0#32
  x0 := rfl
  pc := 0#32
  csr slot := if slot = CsrSlot.mtvec then 0x100#32 else 0#32
  mem _ := 0#8

/-- The first context creates a second one and yields to it. -/
theorem contexts_exact_first_switch :
    ∃ system after : System Bool,
      System.Reaches ⟨0x100#32, 0x200#32⟩ ⟨bootMachine, false, fun _ => none⟩ system ∧
      system.Yields ⟨0x100#32, 0x200#32⟩ after ∧ after.current = true ∧
      after.machine.pc = 0x300#32 ∧ after.machine.gpr a0 = 7#32 ∧
      after.machine.gpr sp = 0x2000#32 := by
  let place : Placement := ⟨0x100#32, 0x200#32⟩
  let start : System Bool := ⟨bootMachine, false, fun _ => none⟩
  let fresh : Parked := .fresh 0x300#32 7#32 0x2000#32
  obtain ⟨-, -, resumes⟩ := contexts_exact Bool place
  have booted : start.Booted place := ⟨rfl, fun _ => rfl⟩
  obtain ⟨system, created, current, context, parked⟩ : ∃ system : System Bool,
      System.Step place start system ∧ system.current = false ∧
        system.machine.context = 0xf70#32 ∧
        system.parked = Function.update (fun _ => none) true (some (0x1f70#32, fresh)) := by
    refine ⟨_, @System.Step.kcontext Bool _ place start true 0x2000#32 0x300#32 7#32 _ _ rfl
      (by decide) rfl ?_, rfl, ?_, rfl⟩
    · rintro addr - ⟨j, c, parked, found, -⟩
      simp [start] at found
    · change bootMachine.context = 0xf70#32
      decide
  have reaches : System.Reaches place start system := .single created
  have found : system.waiting true = some (0x1f70#32, fresh) := by
    simp [System.waiting, current, parked]
  have room : ∀ addr, InBlock system.machine.context sizeofContext addr →
      ¬ system.Occupied addr := by
    rintro addr inside ⟨j, c, waiting, held, block⟩
    rw [context, InBlock, sizeofContext, gprNum] at inside
    cases j with
    | false => simp [parked] at held
    | true =>
        simp only [parked, Function.update_self, Option.some.injEq, Prod.mk.injEq] at held
        rw [← held.1, InBlock, sizeofContext, gprNum] at block
        bv_omega
  have switches : system.Switches (fun _ _ mem => (0x1f70#32, mem)) 0x1f70#32 :=
    ⟨fun _ => rfl, fun _ _ _ => rfl⟩
  obtain ⟨after, yields, next⟩ :=
    (reaches.sound booted).exists_yields room found switches (by decide)
  obtain ⟨c, waiting, found', resumed⟩ := resumes start system after booted reaches yields
  rw [next, found] at found'
  cases found'
  obtain ⟨pc, argument, stack, -⟩ := resumed
  exact ⟨system, after, reaches, yields, next, pc, argument, stack⟩

end Ysyx.Am
