import Ysyx.Npc.AxiLiteProperties

/-! The characters that `axi_lite_uart` prints in the simulation: one for each accepted write,
whatever its register and its strobes. -/

set_option autoImplicit false

namespace Ysyx.Npc

open Lib (accepted Signals)
open Soc (strobe lane lane_strobe)

/-!
## The output
-/

/-- `always @(sim_disp_en)`: the character of a change of the enable to high. -/
def Uart.display (before after : Uart) : List (BitVec 8) :=
  if before.simDispEn ≠ after.simDispEn ∧ after.simDispEn = true then
    [after.uartData.extractLsb' 0 8]
  else []

/-- The characters printed up to cycle `n`. -/
def printed (inputs : Nat → UartInput) : Nat → List (BitVec 8)
  | 0 => []
  | n + 1 => printed inputs n ++
      Uart.display (uartAt inputs n).uart (uartAt inputs (n + 1)).uart

/-- The writes accepted before cycle `n`. -/
def uartWrites (inputs : Nat → UartInput) (n : Nat) : List (BitVec 32 × BitVec 32 × BitVec 4) :=
  (accepted (uartWrite inputs) n).map Prod.fst

/-- A write to the data register whose strobe enables byte 0. -/
def Prints (write : BitVec 32 × BitVec 32 × BitVec 4) : Prop :=
  regIndex write.1 = 0#10 ∧ write.2.2.getLsbD 0 = true

instance (write : BitVec 32 × BitVec 32 × BitVec 4) : Decidable (Prints write) :=
  inferInstanceAs (Decidable (_ ∧ _))

/-- The low data bytes of these writes. -/
def dataBytes (writes : List (BitVec 32 × BitVec 32 × BitVec 4)) : List (BitVec 8) :=
  (writes.filter (Prints ·)).map fun write => write.2.1.extractLsb' 0 8

/-!
## One cycle
-/

theorem uartWrites_succ (inputs : Nat → UartInput) (n : Nat) :
    uartWrites inputs (n + 1) = uartWrites inputs n ++ (uartWrite inputs n).accepts.toList := by
  rw [uartWrites, uartWrites, accepted, List.map_append]
  cases (uartWrite inputs n).accepts <;> rfl

theorem uart_simDispEn (inputs : Nat → UartInput) (n : Nat) :
    (uartAt inputs n).uart.simDispEn = (uartAt inputs n).uart.awready := by
  cases n with
  | zero => rfl
  | succ n =>
      rw [uartAt_succ]
      rfl

theorem uart_simDispEn_succ (inputs : Nat → UartInput) (n : Nat) :
    (uartAt inputs (n + 1)).uart.simDispEn = (uartWrite inputs n).accepts.isSome := by
  rw [uartAt_succ]
  exact UartSystem.regWen (inputs n) (uart_paired inputs n)

/-- A write is accepted only while the enable is low, so that every acceptance changes it. -/
theorem display_eq (inputs : Nat → UartInput) (n : Nat) :
    Uart.display (uartAt inputs n).uart (uartAt inputs (n + 1)).uart =
      (uartWrite inputs n).accepts.toList.map fun _ =>
        (uartAt inputs (n + 1)).uart.uartData.extractLsb' 0 8 := by
  rw [Uart.display, uart_simDispEn_succ]
  cases accepts : (uartWrite inputs n).accepts with
  | none => simp
  | some write =>
      have low : (uartAt inputs n).uart.simDispEn = false := by
        rw [uart_simDispEn]
        exact (Lib.Signals.accepts_eq_some accepts).1
      simp [low]

theorem uartData_succ (inputs : Nat → UartInput) (n : Nat)
    {write : BitVec 32 × BitVec 32 × BitVec 4}
    (accepts : (uartWrite inputs n).accepts = some write) :
    (uartAt inputs (n + 1)).uart.uartData =
      Uart.written (uartAt inputs n).uart.uartData write.1 write.2.1 write.2.2 := by
  rw [uart_data, uart_data, accepted, accepts, List.map_append, List.foldl_append]
  rfl

theorem written_low {write : BitVec 32 × BitVec 32 × BitVec 4} (prints : Prints write)
    (data : BitVec 32) :
    (Uart.written data write.1 write.2.1 write.2.2).extractLsb' 0 8 =
      write.2.1.extractLsb' 0 8 := by
  rw [Uart.written, if_pos prints.1]
  have low := lane_strobe write.2.2 data write.2.1 (show 0 < 4 by decide)
  rw [if_pos prints.2] at low
  exact low

/-!
## Runs
-/

theorem length_printed (inputs : Nat → UartInput) (n : Nat) :
    (printed inputs n).length = (uartWrites inputs n).length := by
  induction n with
  | zero => rfl
  | succ n ih =>
      rw [printed, uartWrites_succ, display_eq, List.length_append, List.length_append,
        List.length_map, ih]

theorem length_dataBytes (writes : List (BitVec 32 × BitVec 32 × BitVec 4)) :
    (dataBytes writes).length = (writes.filter (Prints ·)).length :=
  List.length_map _

theorem printed_of_prints (inputs : Nat → UartInput) (n : Nat)
    (each : ∀ write ∈ uartWrites inputs n, Prints write) :
    printed inputs n = dataBytes (uartWrites inputs n) := by
  induction n with
  | zero => rfl
  | succ n ih =>
      rw [uartWrites_succ] at each ⊢
      have earlier := ih fun write found => each write (List.mem_append_left _ found)
      rw [printed, display_eq, earlier, dataBytes, dataBytes, List.filter_append, List.map_append]
      cases accepts : (uartWrite inputs n).accepts with
      | none => rfl
      | some write =>
          have prints : Prints write := each write (by simp [accepts])
          rw [uartData_succ inputs n accepts]
          simp [prints, written_low]

/-- The output is the data written to the data register exactly while every accepted write is
one to it with byte 0 enabled: an acceptance always prints. -/
theorem uart_output_iff (inputs : Nat → UartInput) (n : Nat) :
    printed inputs n = dataBytes (uartWrites inputs n) ↔
      ∀ write ∈ uartWrites inputs n, Prints write := by
  constructor
  · intro same
    have lengths := congrArg List.length same
    rw [length_printed, length_dataBytes] at lengths
    have whole := List.filter_eq_self.mp
      (List.filter_sublist.eq_of_length lengths.symm)
    exact fun write found => of_decide_eq_true (whole write found)
  · exact printed_of_prints inputs n

/-!
## A write to another register
-/

/-- A write of `A` to the word after the data register. -/
def strayInput (_ : Nat) : UartInput :=
  ⟨some 0xa0000004#32, some (0x41#32, 1#4), true, none, true⟩

/-- The write to offset 4 prints a character that was never written to the data register. -/
theorem uart_output_stray :
    ¬ ∀ (inputs : Nat → UartInput) (n : Nat),
      printed inputs n = dataBytes (uartWrites inputs n) := by
  intro always
  have same := always strayInput 1
  exact absurd same (by decide)

end Ysyx.Npc
