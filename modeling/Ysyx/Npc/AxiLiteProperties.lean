import Ysyx.Npc.AxiLite
import Mathlib.Algebra.Group.Nat.Defs

/-! The channels of the AXI4-Lite slaves are ports that answer each request exactly once. -/

set_option autoImplicit false

namespace Ysyx.Npc

open Lib (Machine Signals Responds AnswersOnce ShowsPort)
open Soc (lane lane_strobe)

/-!
## The CLINT
-/

/-- The registers are the words of a region. -/
theorem regIndex_eq_iff (addr : BitVec 32) {k : Nat} (bound : k < 1024) :
    regIndex addr = BitVec.ofNat 10 k ↔ addr.toNat / 4 % 1024 = k := by
  rw [regIndex, ← BitVec.toNat_inj, BitVec.extractLsb'_toNat, Nat.shiftRight_eq_div_pow,
    BitVec.toNat_ofNat, Nat.mod_eq_of_lt bound]

theorem clintAt_succ (start : ClintSystem) (inputs : Nat → ReadInput) (n : Nat) :
    clintAt start inputs (n + 1) = (clintAt start inputs n).next (inputs n) := by
  rw [clintAt, Machine.run_succ, Nat.zero_add]
  rfl

theorem clint_mtime (start : ClintSystem) (inputs : Nat → ReadInput) (n : Nat) :
    (clintAt start inputs n).clint.mtime = start.clint.mtime + BitVec.ofNat 64 n := by
  induction n with
  | zero => simp [clintAt]
  | succ n ih =>
      rw [clintAt_succ, BitVec.ofNat_add, ← BitVec.add_assoc, ← ih]
      rfl

/-- Word 0 is the low half of the time since reset and word 1 the high half; the others read
0. -/
theorem clint_value (inputs : Nat → ReadInput) (n : Nat) (addr : BitVec 32) :
    ((clintRead inputs n).value addr).toNat =
      if addr.toNat / 4 % 1024 = 0 then n % 2 ^ 32
      else if addr.toNat / 4 % 1024 = 1 then n / 2 ^ 32 % 2 ^ 32
      else 0 := by
  have time : (clintAt ClintSystem.reset inputs n).clint.mtime.toNat = n % 2 ^ 64 := by
    rw [clint_mtime]
    simp [ClintSystem.reset, Clint.reset]
  simp only [clintRead, ClintSystem.read, Clint.rdataNext,
    regIndex_eq_iff addr (show 0 < 1024 by decide), regIndex_eq_iff addr (show 1 < 1024 by decide)]
  split_ifs
  · rw [BitVec.extractLsb'_toNat, time, Nat.shiftRight_zero]
    omega
  · rw [BitVec.extractLsb'_toNat, time, Nat.shiftRight_eq_div_pow]
    omega
  · rfl

/-- A held value stays on the channel. -/
theorem or_of_held {α : Type} {held want : Option α} (driven : (held.or want).isSome = true)
    (want' : Option α) : (held.or want).or want' = held.or want := by
  obtain ⟨value, found⟩ := Option.isSome_iff_exists.mp driven
  rw [found]
  rfl

theorem clint_showsPort : ShowsPort clintMachine (fun _ => True) ClintSystem.read where
  keeps := fun _ _ _ => trivial
  ready := by
    intro input input' sys _
    rw [Signals.isSome_accepts]
    rfl
  valid := by
    intro input input' sys _
    rw [Signals.isSome_accepts]
    rfl
  data := by
    intro input input' sys _
    rw [Signals.answer _ 0#32]
    rfl
  held := by
    intro input input' sys _ unready driven
    simp only [ClintSystem.read] at unready driven
    simp only [clintMachine, ClintSystem.next, ClintSystem.read, unready]
    exact or_of_held driven input'.want

theorem clint_answersOnce (inputs : Nat → ReadInput) : AnswersOnce (clintRead inputs) :=
  (clint_showsPort.responds trivial (fun _ => ⟨rfl, rfl⟩) inputs).answersOnce

/-!
## The UART
-/

theorem uartAt_succ (inputs : Nat → UartInput) (n : Nat) :
    uartAt inputs (n + 1) = (uartAt inputs n).next (inputs n) := by
  rw [uartAt, Machine.run_succ, Nat.zero_add]
  rfl

theorem uart_read_showsPort : ShowsPort uartMachine (fun _ => True) UartSystem.read where
  keeps := fun _ _ _ => trivial
  ready := by
    intro input input' sys _
    rw [Signals.isSome_accepts]
    rfl
  valid := by
    intro input input' sys _
    rw [Signals.isSome_accepts]
    rfl
  data := by
    intro input input' sys _
    rw [Signals.answer _ 0#32]
    rfl
  held := by
    intro input input' sys _ unready driven
    simp only [UartSystem.read] at unready driven
    simp only [uartMachine, UartSystem.next, UartSystem.read, unready]
    exact or_of_held driven input'.wantAr

/-- Word 0 is the data register; the others read 0. -/
theorem uart_value (inputs : Nat → UartInput) (n : Nat) (addr : BitVec 32) :
    (uartRead inputs n).value addr =
      if addr.toNat / 4 % 1024 = 0 then (uartAt inputs n).uart.uartData else 0#32 := by
  simp only [uartRead, UartSystem.read, Uart.rdataNext,
    regIndex_eq_iff addr (show 0 < 1024 by decide)]

/-- A write to word 0 replaces the lanes that its strobe names, any other one nothing. -/
theorem lane_written (data addr value : BitVec 32) (strb : BitVec 4) {i : Nat} (bound : i < 4) :
    lane (Uart.written data addr value strb) i =
      if addr.toNat / 4 % 1024 = 0 ∧ strb.getLsbD i then lane value i else lane data i := by
  simp only [Uart.written, regIndex_eq_iff addr (show 0 < 1024 by decide)]
  by_cases first : addr.toNat / 4 % 1024 = 0
  · simp only [first, if_true, true_and, lane_strobe _ _ _ bound]
  · simp only [first, if_false, false_and]

/-- The two ready signals of a write are one. -/
def UartSystem.Paired (sys : UartSystem) : Prop := sys.uart.wready = sys.uart.awready

theorem uart_paired (inputs : Nat → UartInput) (n : Nat) : (uartAt inputs n).Paired := by
  induction n with
  | zero => rfl
  | succ n _ =>
      rw [uartAt_succ]
      rfl

theorem UartSystem.write_isSome (input : UartInput) (sys : UartSystem) :
    (sys.write input).isSome = ((sys.awDriven input).isSome && (sys.wDriven input).isSome) := by
  rw [UartSystem.write]
  cases sys.awDriven input <;> cases sys.wDriven input <;> rfl

theorem UartSystem.regWen (input : UartInput) {sys : UartSystem} (paired : sys.Paired) :
    sys.uart.regWen (sys.bus input) = (sys.writes input).accepts.isSome := by
  rw [UartSystem.Paired] at paired
  rw [Signals.isSome_accepts, Uart.regWen, paired, Bool.and_self]
  simp only [UartSystem.writes, UartSystem.write_isSome, UartSystem.bus]

theorem uart_write_showsPort :
    ShowsPort uartMachine UartSystem.Paired UartSystem.writes where
  keeps := fun _ _ _ => rfl
  ready := fun input _ _ paired => UartSystem.regWen input paired
  valid := by
    intro input input' sys paired
    rw [← UartSystem.regWen input paired]
    rfl
  data := fun _ _ _ _ => rfl
  held := by
    intro input input' sys paired unready driven
    simp only [UartSystem.writes, UartSystem.write_isSome, Bool.and_eq_true] at unready driven
    have aw := or_of_held driven.1 input'.wantAw
    have w := or_of_held driven.2 input'.wantW
    rw [UartSystem.Paired] at paired
    simp only [uartMachine, UartSystem.next, UartSystem.writes, UartSystem.write, paired, unready,
      UartSystem.awDriven, UartSystem.wDriven, Bool.false_eq_true, if_false, aw, w]

theorem uart_read_answersOnce (inputs : Nat → UartInput) : AnswersOnce (uartRead inputs) :=
  (uart_read_showsPort.responds trivial (fun _ => ⟨rfl, rfl⟩) inputs).answersOnce

theorem uart_write_answersOnce (inputs : Nat → UartInput) : AnswersOnce (uartWrite inputs) := by
  have initial : UartSystem.reset.Paired := rfl
  exact (uart_write_showsPort.responds initial (fun _ => ⟨rfl, rfl⟩) inputs).answersOnce

/-- Each of the two request channels of a write has one handshake for each write. -/
theorem uart_handshakes (inputs : Nat → UartInput) (n : Nat) :
    awHandshakes inputs n = (Lib.requests (uartWrite inputs) n).length ∧
      wHandshakes inputs n = (Lib.requests (uartWrite inputs) n).length := by
  induction n with
  | zero => exact ⟨rfl, rfl⟩
  | succ n ih =>
      have paired := uart_paired inputs n
      rw [UartSystem.Paired] at paired
      rw [awHandshakes, wHandshakes, Lib.requests, List.length_append, ih.1, ih.2, paired]
      cases ready : (uartAt inputs n).uart.awready with
      | false => simp [uartWrite, UartSystem.writes, ready]
      | true =>
          have asked := ((uart_write_answersOnce inputs).pulse n ready).1
          obtain ⟨request, found⟩ := Option.isSome_iff_exists.mp asked
          have both := asked
          simp only [uartWrite, UartSystem.writes, UartSystem.write_isSome,
            Bool.and_eq_true] at both
          simp [both.1, both.2, uartWrite, UartSystem.writes, ready] at found ⊢
          simp [found]

/-- The data register has every accepted write once, in order. -/
theorem uart_data (inputs : Nat → UartInput) (n : Nat) :
    (uartAt inputs n).uart.uartData =
      ((Lib.accepted (uartWrite inputs) n).map Prod.fst).foldl
        (fun data (addr, value, strb) => Uart.written data addr value strb) 0#32 := by
  induction n with
  | zero => rfl
  | succ n ih =>
      rw [Lib.accepted, List.map_append, List.foldl_append, ← ih, uartAt_succ]
      have paired := uart_paired inputs n
      rw [UartSystem.Paired] at paired
      generalize sysIs : uartAt inputs n = sys at paired
      simp only [uartWrite, sysIs, UartSystem.writes, UartSystem.next, UartSystem.bus, Uart.next,
        Uart.regWen, Signals.accepts, UartSystem.write, paired]
      cases sys.awDriven (inputs n) <;> cases sys.wDriven (inputs n) <;>
        cases sys.uart.awready <;> cases sys.uart.bvalid <;> cases (inputs n).bready <;> rfl

/-- The CLINT's reads and the UART's reads and writes are answered exactly once, whatever the
master does with its valid and ready signals, from the registers that their addresses name. -/
theorem axi_lite_answers_once :
    (∀ inputs : Nat → ReadInput, AnswersOnce (clintRead inputs)) ∧
    (∀ inputs : Nat → UartInput, AnswersOnce (uartRead inputs) ∧ AnswersOnce (uartWrite inputs) ∧
      ∀ n, awHandshakes inputs n = (Lib.requests (uartWrite inputs) n).length ∧
        wHandshakes inputs n = (Lib.requests (uartWrite inputs) n).length ∧
        (uartAt inputs n).uart.wready = (uartAt inputs n).uart.awready ∧
        (uartAt inputs n).uart.uartData =
          ((Lib.accepted (uartWrite inputs) n).map Prod.fst).foldl
            (fun data (addr, value, strb) => Uart.written data addr value strb) 0#32) ∧
    (∀ inputs n addr, ((clintRead inputs n).value addr).toNat =
      if addr.toNat / 4 % 1024 = 0 then n % 2 ^ 32
      else if addr.toNat / 4 % 1024 = 1 then n / 2 ^ 32 % 2 ^ 32
      else 0) ∧
    (∀ inputs n addr, (uartRead inputs n).value addr =
      if addr.toNat / 4 % 1024 = 0 then (uartAt inputs n).uart.uartData else 0#32) ∧
    ∀ data addr value strb, ∀ i < 4, lane (Uart.written data addr value strb) i =
      if addr.toNat / 4 % 1024 = 0 ∧ strb.getLsbD i then lane value i else lane data i := by
  refine ⟨clint_answersOnce, fun inputs => ⟨uart_read_answersOnce inputs,
    uart_write_answersOnce inputs, fun n => ?_⟩, clint_value, uart_value,
    fun data addr value strb _ => lane_written data addr value strb⟩
  obtain ⟨aw, w⟩ := uart_handshakes inputs n
  exact ⟨aw, w, uart_paired inputs n, uart_data inputs n⟩

end Ysyx.Npc
