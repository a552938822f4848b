import Ysyx.Nemu.Inst
import Ysyx.Rv32.Semantics
import Mathlib.Tactic.IntervalCases
import Mathlib.Tactic.SplitIfs

/-! The interpreter against the instruction set: bit-field macros, then pattern
selection, then the bodies, then one executed word. -/

set_option autoImplicit false

namespace Ysyx.Nemu

open Rv32
open Lib (ByteMem)

/-!
## Bit-field macros
-/

theorem bits_eq_extractLsb' (x : Word) {hi lo : Nat} (ordered : lo ≤ hi) (bound : hi < 32) :
    bits x hi lo = (x.extractLsb' lo (hi - lo + 1)).setWidth 64 := by
  have fits : 2 ^ (hi - lo + 1) < 18446744073709551616 :=
    Nat.pow_lt_pow_right (by omega) (show hi - lo + 1 < 64 by omega)
  have mask : (1#64 <<< (hi - lo + 1) - 1#64).toNat = 2 ^ (hi - lo + 1) - 1 := by
    have positive : 1 ≤ 2 ^ (hi - lo + 1) := Nat.one_le_two_pow
    rw [BitVec.toNat_sub_of_le]
    · simp [Nat.shiftLeft_eq, Nat.mod_eq_of_lt fits]
    · rw [BitVec.le_def, BitVec.toNat_shiftLeft]
      simp [Nat.shiftLeft_eq, Nat.mod_eq_of_lt fits, positive]
  apply BitVec.eq_of_toNat_eq
  have small : (x.toNat >>> lo) < 18446744073709551616 :=
    Nat.lt_of_le_of_lt (Nat.shiftRight_le _ _) (Nat.lt_trans x.isLt (by decide))
  have inWidth : x.toNat >>> lo % 2 ^ (hi - lo + 1) < 18446744073709551616 :=
    Nat.lt_of_le_of_lt (Nat.mod_le _ _) small
  rw [bits, BitVec.toNat_and, mask, Nat.and_two_pow_sub_one_eq_mod]
  simp only [BitVec.toNat_setWidth, BitVec.toNat_ushiftRight, BitVec.extractLsb'_toNat]
  rw [Nat.mod_eq_of_lt small, Nat.mod_eq_of_lt inWidth]

theorem sext_setWidth {len : Nat} (x : BitVec len) (bound : len ≤ 64) :
    sext (x.setWidth 64) len = x.signExtend 64 := by
  rw [sext, BitVec.setWidth_setWidth_of_le _ bound, BitVec.setWidth_eq]

theorem setWidth_signExtend {len : Nat} (x : BitVec len) :
    (x.signExtend 64).setWidth 32 = x.signExtend 32 := by
  apply BitVec.eq_of_getLsbD_eq
  intro i bound
  simp only [BitVec.getLsbD_setWidth, BitVec.getLsbD_signExtend, bound, show i < 64 by omega,
    decide_true, Bool.true_and]

theorem immOperand_I (w : Word) : immOperand w .I = immI w := by
  rw [immOperand, bits_eq_extractLsb' w (by decide) (by decide), sext_setWidth _ (by decide),
    setWidth_signExtend, immI]

theorem immOperand_U (w : Word) : immOperand w .U = immU w := by
  rw [immOperand, bits_eq_extractLsb' w (by decide) (by decide), sext_setWidth _ (by decide)]
  apply BitVec.eq_of_getLsbD_eq
  intro i bound
  unfold immU
  grind

theorem immOperand_S (w : Word) : immOperand w .S = immS w := by
  rw [immOperand, bits_eq_extractLsb' w (by decide) (by decide),
    bits_eq_extractLsb' w (by decide) (by decide), sext_setWidth _ (by decide)]
  apply BitVec.eq_of_getLsbD_eq
  intro i bound
  unfold immS
  grind [BitVec.msb_append]

theorem immOperand_B (w : Word) : immOperand w .B = immB w := by
  simp only [immOperand]
  rw [bits_eq_extractLsb' w (by decide) (by decide), bits_eq_extractLsb' w (by decide) (by decide),
    bits_eq_extractLsb' w (by decide) (by decide), bits_eq_extractLsb' w (by decide) (by decide),
    sext_setWidth _ (by decide)]
  apply BitVec.eq_of_getLsbD_eq
  intro i bound
  simp only [immB, BitVec.getLsbD_setWidth, BitVec.getLsbD_or, BitVec.getLsbD_shiftLeft,
    BitVec.getLsbD_signExtend, BitVec.getLsbD_extractLsb', BitVec.getLsbD_append,
    BitVec.msb_eq_getLsbD_last, bound, decide_true, Bool.true_and]
  interval_cases i <;> simp

theorem immOperand_J (w : Word) : immOperand w .J = immJ w := by
  simp only [immOperand]
  rw [bits_eq_extractLsb' w (by decide) (by decide), bits_eq_extractLsb' w (by decide) (by decide),
    bits_eq_extractLsb' w (by decide) (by decide), bits_eq_extractLsb' w (by decide) (by decide),
    sext_setWidth _ (by decide)]
  apply BitVec.eq_of_getLsbD_eq
  intro i bound
  simp only [immJ, BitVec.getLsbD_setWidth, BitVec.getLsbD_or, BitVec.getLsbD_shiftLeft,
    BitVec.getLsbD_signExtend, BitVec.getLsbD_extractLsb', BitVec.getLsbD_append,
    BitVec.msb_eq_getLsbD_last, bound, decide_true, Bool.true_and]
  interval_cases i <;> simp

/-- The immediate each instruction format of the manual carries. -/
def formatImm (w : Word) : OperandType → Word
  | .I => immI w
  | .U => immU w
  | .S => immS w
  | .J => immJ w
  | .B => immB w
  | .R | .N => 0#32

theorem immOperand_eq_formatImm (w : Word) (type : OperandType) :
    immOperand w type = formatImm w type := by
  cases type with
  | I => exact immOperand_I w
  | U => exact immOperand_U w
  | S => exact immOperand_S w
  | J => exact immOperand_J w
  | B => exact immOperand_B w
  | R | N => rfl

theorem bits_rd (w : Word) : (bits w 11 7).setWidth 5 = rd w := by
  rw [bits_eq_extractLsb' w (by decide) (by decide), BitVec.setWidth_setWidth_of_le _ (by decide),
    BitVec.setWidth_eq, rd]

theorem bits_rs1 (w : Word) : (bits w 19 15).setWidth 5 = rs1 w := by
  rw [bits_eq_extractLsb' w (by decide) (by decide), BitVec.setWidth_setWidth_of_le _ (by decide),
    BitVec.setWidth_eq, rs1]

theorem bits_rs2 (w : Word) : (bits w 24 20).setWidth 5 = rs2 w := by
  rw [bits_eq_extractLsb' w (by decide) (by decide), BitVec.setWidth_setWidth_of_le _ (by decide),
    BitVec.setWidth_eq, rs2]

theorem bits_low_byte (x : Word) : (bits x 7 0).setWidth 32 = (x.setWidth 8).setWidth 32 := by
  rw [bits_eq_extractLsb' x (by decide) (by decide), ← BitVec.setWidth_eq_extractLsb' (by decide),
    BitVec.setWidth_setWidth_of_le _ (by decide)]

theorem bits_low_half (x : Word) : (bits x 15 0).setWidth 32 = (x.setWidth 16).setWidth 32 := by
  rw [bits_eq_extractLsb' x (by decide) (by decide), ← BitVec.setWidth_eq_extractLsb' (by decide),
    BitVec.setWidth_setWidth_of_le _ (by decide)]

/-- Register shifts take `BITS(src2, 4, 0)`. -/
theorem toNat_bits_shift (x : Word) : (bits x 4 0).toNat = x.toNat % 32 := by
  rw [bits_eq_extractLsb' x (by decide) (by decide)]
  simp
  omega

/-- Immediate shifts take `BITS(imm, 5, 0)`; the sixth bit is bit 25 of the word,
which is zero in every legal shift. -/
theorem toNat_bits_shamt {w : Word} (legal : w.getLsbD 25 = false) :
    (bits (immI w) 5 0).toNat = (shamt w).toNat % 32 := by
  have sixth : bits (immI w) 5 0 = (w.extractLsb' 20 5).setWidth 64 := by
    rw [bits_eq_extractLsb' _ (by decide) (by decide)]
    apply BitVec.eq_of_getLsbD_eq
    intro i bound
    simp only [immI, BitVec.getLsbD_setWidth, BitVec.getLsbD_extractLsb', BitVec.getLsbD_signExtend]
    by_cases low : i < 5
    · simp [low, bound, show i < 12 by omega, show i < 6 by omega, show i < 32 by omega]
    · rcases Nat.lt_or_ge i 6 with six | high
      · obtain rfl : i = 5 := by omega
        simpa using legal
      · simp [low, Nat.not_lt.mpr high]
  rw [sixth, shamt]
  simp
  omega

/-!
## Pattern selection
-/

/-- What a pattern string constrains, by fields of the word. -/
inductive Fields where
  | opcode (op : BitVec 7)
  | funct3 (f3 : BitVec 3) (op : BitVec 7)
  | funct6 (f6 : BitVec 6) (f3 : BitVec 3) (op : BitVec 7)
  | funct7 (f7 : BitVec 7) (f3 : BitVec 3) (op : BitVec 7)
  | word (w : Word)
  | any
  deriving DecidableEq, Repr

def Fields.key : Fields → Word
  | .opcode op => 0#25 ++ op
  | .funct3 f3 op => 0#17 ++ (f3 ++ (0#5 ++ op))
  | .funct6 f6 f3 op => f6 ++ (0#11 ++ (f3 ++ (0#5 ++ op)))
  | .funct7 f7 f3 op => f7 ++ (0#10 ++ (f3 ++ (0#5 ++ op)))
  | .word w => w
  | .any => 0#32

def Fields.mask : Fields → BitVec 64
  | .opcode _ => 0x7f#64
  | .funct3 _ _ => 0x707f#64
  | .funct6 _ _ _ => 0xfc00707f#64
  | .funct7 _ _ _ => 0xfe00707f#64
  | .word _ => 0xffffffff#64
  | .any => 0#64

/-- The open bits at the end of a string are shifted out, the others masked out. -/
def Fields.pattern (fields : Fields) : Pattern where
  key := fields.key.setWidth 64
  mask := fields.mask
  shift := if fields = .any then 32#64 else 0#64

def Fields.holds (w : Word) : Fields → Prop
  | .opcode op => Rv32.opcode w = op
  | .funct3 f3 op => Rv32.funct3 w = f3 ∧ Rv32.opcode w = op
  | .funct6 f6 f3 op => w.extractLsb' 26 6 = f6 ∧ Rv32.funct3 w = f3 ∧ Rv32.opcode w = op
  | .funct7 f7 f3 op => Rv32.funct7 w = f7 ∧ Rv32.funct3 w = f3 ∧ Rv32.opcode w = op
  | .word v => w = v
  | .any => True

/-- Pattern strings are compared in 64 bits, with the bits they leave open masked out. -/
private theorem setWidth_inj {left right : Word} :
    left.setWidth 64 = right.setWidth 64 ↔ left = right := by
  constructor
  · intro same
    have narrowed := congrArg (BitVec.setWidth 32) same
    rwa [BitVec.setWidth_setWidth_of_le _ (by decide), BitVec.setWidth_eq,
      BitVec.setWidth_setWidth_of_le _ (by decide), BitVec.setWidth_eq] at narrowed
  · rintro rfl
    rfl

private theorem masked_opcode (w : Word) :
    w.setWidth 64 &&& 0x7f#64 = (0#25 ++ opcode w : Word).setWidth 64 := by
  apply BitVec.eq_of_getLsbD_eq
  intro i bound
  simp only [opcode, BitVec.getLsbD_and, BitVec.getLsbD_setWidth, BitVec.getLsbD_append,
    BitVec.getLsbD_extractLsb']
  interval_cases i <;> simp

private theorem masked_funct3 (w : Word) :
    w.setWidth 64 &&& 0x707f#64 =
      (0#17 ++ (funct3 w ++ (0#5 ++ opcode w)) : Word).setWidth 64 := by
  apply BitVec.eq_of_getLsbD_eq
  intro i bound
  simp only [opcode, funct3, BitVec.getLsbD_and, BitVec.getLsbD_setWidth, BitVec.getLsbD_append,
    BitVec.getLsbD_extractLsb']
  interval_cases i <;> simp

private theorem masked_funct6 (w : Word) :
    w.setWidth 64 &&& 0xfc00707f#64 =
      (w.extractLsb' 26 6 ++ (0#11 ++ (funct3 w ++ (0#5 ++ opcode w))) : Word).setWidth 64 := by
  apply BitVec.eq_of_getLsbD_eq
  intro i bound
  simp only [opcode, funct3, BitVec.getLsbD_and, BitVec.getLsbD_setWidth, BitVec.getLsbD_append,
    BitVec.getLsbD_extractLsb']
  interval_cases i <;> simp

private theorem masked_funct7 (w : Word) :
    w.setWidth 64 &&& 0xfe00707f#64 =
      (funct7 w ++ (0#10 ++ (funct3 w ++ (0#5 ++ opcode w))) : Word).setWidth 64 := by
  apply BitVec.eq_of_getLsbD_eq
  intro i bound
  simp only [opcode, funct3, funct7, BitVec.getLsbD_and, BitVec.getLsbD_setWidth,
    BitVec.getLsbD_append, BitVec.getLsbD_extractLsb']
  interval_cases i <;> simp

private theorem append_inj {m n : Nat} {a b : BitVec m} {c d : BitVec n} :
    a ++ c = b ++ d ↔ a = b ∧ c = d := by
  constructor
  · intro same
    have high := congrArg (BitVec.extractLsb' n m) same
    have low := congrArg (BitVec.setWidth n) same
    simpa [BitVec.setWidth_append, BitVec.extractLsb'_append_eq_left] using And.intro high low
  · rintro ⟨rfl, rfl⟩
    rfl

/-- Two fields with a masked-out gap between them. -/
private theorem append_field_inj {m k n : Nat} {a b : BitVec m} {gap : BitVec k} {c d : BitVec n}
    (same : a ++ (gap ++ c) = b ++ (gap ++ d)) : a = b ∧ c = d := by
  obtain ⟨high, rest⟩ := append_inj.mp same
  exact ⟨high, (append_inj.mp rest).2⟩

theorem Fields.matches_iff (fields : Fields) (w : Word) :
    fields.pattern.matches w = true ↔ fields.holds w := by
  simp only [Pattern.matches, beq_iff_eq]
  cases fields with
  | opcode op =>
      change w.setWidth 64 &&& 0x7f#64 = (key _).setWidth 64 ↔ _
      rw [masked_opcode, setWidth_inj]
      exact append_inj.trans (by simp [holds])
  | funct3 f3 op =>
      change w.setWidth 64 &&& 0x707f#64 = (key _).setWidth 64 ↔ _
      rw [masked_funct3, setWidth_inj]
      exact ⟨fun same => append_field_inj (append_inj.mp same).2, by rintro ⟨rfl, rfl⟩; rfl⟩
  | funct6 f6 f3 op =>
      change w.setWidth 64 &&& 0xfc00707f#64 = (key _).setWidth 64 ↔ _
      rw [masked_funct6, setWidth_inj]
      constructor
      · intro same
        obtain ⟨high, low⟩ := append_field_inj same
        exact ⟨high, append_field_inj low⟩
      · rintro ⟨rfl, rfl, rfl⟩
        rfl
  | funct7 f7 f3 op =>
      change w.setWidth 64 &&& 0xfe00707f#64 = (key _).setWidth 64 ↔ _
      rw [masked_funct7, setWidth_inj]
      constructor
      · intro same
        obtain ⟨high, low⟩ := append_field_inj same
        exact ⟨high, append_field_inj low⟩
      · rintro ⟨rfl, rfl, rfl⟩
        rfl
  | word v =>
      change w.setWidth 64 &&& BitVec.setWidth 64 (BitVec.allOnes 32) = (key _).setWidth 64 ↔ _
      rw [← BitVec.setWidth_and, setWidth_inj, BitVec.and_allOnes]
      rfl
  | any => simp [pattern, key, mask, holds]

/-- The fields each line of the table constrains, line by line. -/
def instFields : List Fields := [
  .opcode 0b0110111#7, .opcode 0b0010111#7,
  .funct3 0b010#3 0b0000011#7, .funct3 0b000#3 0b0010011#7, .funct3 0b000#3 0b1100111#7,
  .funct3 0b011#3 0b0010011#7, .funct3 0b111#3 0b0010011#7,
  .funct6 0b010000#6 0b101#3 0b0010011#7, .funct6 0b000000#6 0b001#3 0b0010011#7,
  .funct3 0b100#3 0b0000011#7, .funct6 0b000000#6 0b101#3 0b0010011#7,
  .funct3 0b100#3 0b0010011#7, .funct3 0b001#3 0b0000011#7, .funct3 0b101#3 0b0000011#7,
  .funct3 0b010#3 0b0010011#7, .funct3 0b000#3 0b0000011#7, .funct3 0b110#3 0b0010011#7,
  .funct3 0b001#3 0b1110011#7, .funct3 0b010#3 0b1110011#7, .word 0x00000073#32,
  .funct3 0b010#3 0b0100011#7, .funct3 0b000#3 0b0100011#7, .funct3 0b001#3 0b0100011#7,
  .opcode 0b1101111#7,
  .funct3 0b000#3 0b1100011#7, .funct3 0b001#3 0b1100011#7, .funct3 0b101#3 0b1100011#7,
  .funct3 0b111#3 0b1100011#7, .funct3 0b110#3 0b1100011#7, .funct3 0b100#3 0b1100011#7,
  .funct7 0b0000000#7 0b000#3 0b0110011#7, .funct7 0b0100000#7 0b000#3 0b0110011#7,
  .funct7 0b0000001#7 0b110#3 0b0110011#7, .funct7 0b0000001#7 0b100#3 0b0110011#7,
  .funct7 0b0000001#7 0b000#3 0b0110011#7, .funct7 0b0000000#7 0b110#3 0b0110011#7,
  .funct7 0b0000000#7 0b011#3 0b0110011#7, .funct7 0b0000000#7 0b100#3 0b0110011#7,
  .funct7 0b0000000#7 0b001#3 0b0110011#7, .funct7 0b0000001#7 0b001#3 0b0110011#7,
  .funct7 0b0000001#7 0b111#3 0b0110011#7, .funct7 0b0000001#7 0b101#3 0b0110011#7,
  .funct7 0b0000000#7 0b111#3 0b0110011#7, .funct7 0b0000000#7 0b010#3 0b0110011#7,
  .funct7 0b0100000#7 0b101#3 0b0110011#7, .funct7 0b0000000#7 0b101#3 0b0110011#7,
  .funct7 0b0000001#7 0b011#3 0b0110011#7, .word 0x30200073#32, .word 0x00100073#32, .any ]

theorem instPats_decode :
    instPats.map (fun line => patternDecode line.pattern.toList) =
      instFields.map fun fields => some fields.pattern := by
  simp only [instPats, List.map_cons, List.map_nil]
  -- the kernel is slow to decode a literal's bytes, so its characters are rewritten first
  repeat rw [String.toList_ofList]
  decide +kernel

/-- A line is reached when the lines before it fail, and taken when its fields hold. -/
theorem selectPat_cons {w : Word} {line : InstPat} {rest : List InstPat} {fields : Fields}
    (decoded : patternDecode line.pattern.toList = some fields.pattern) :
    selectPat w (line :: rest) =
      if fields.pattern.matches w then some line else selectPat w rest := by
  simp only [selectPat, decoded]

instance (fields : Fields) (w : Word) : Decidable (fields.holds w) :=
  decidable_of_iff _ (fields.matches_iff w)

def selectFields (w : Word) : List (InstPat × Fields) → Option InstPat
  | [] => none
  | (line, fields) :: rest => if fields.holds w then some line else selectFields w rest

theorem selectPat_eq_selectFields (w : Word) :
    ∀ (lines : List InstPat) (table : List Fields),
      lines.map (fun line => patternDecode line.pattern.toList) =
        table.map (fun fields => some fields.pattern) →
      selectPat w lines = selectFields w (lines.zip table)
  | [], _, _ => by simp [selectPat, selectFields]
  | _ :: _, [], mapped => by simp at mapped
  | line :: lines, fields :: table, mapped => by
      simp only [List.map_cons, List.cons.injEq] at mapped
      obtain ⟨decoded, rest⟩ := mapped
      rw [selectPat_cons decoded, selectPat_eq_selectFields w lines table rest]
      simp only [List.zip_cons_cons, selectFields, fields.matches_iff]

theorem selectPat_instPats (w : Word) :
    selectPat w instPats = selectFields w (instPats.zip instFields) :=
  selectPat_eq_selectFields w _ _ instPats_decode

/-- The word's opcode does not rule the line out. -/
def Fields.admits (op : BitVec 7) : Fields → Bool
  | .opcode op' | .funct3 _ op' | .funct6 _ _ op' | .funct7 _ _ op' => op' == op
  | .word v => Rv32.opcode v == op
  | .any => true

theorem Fields.holds_admits {fields : Fields} {w : Word} (holds : fields.holds w) :
    fields.admits (Rv32.opcode w) = true := by
  cases fields with
  | opcode op => exact beq_iff_eq.mpr holds.symm
  | funct3 f3 op => exact beq_iff_eq.mpr holds.2.symm
  | funct6 f6 f3 op => exact beq_iff_eq.mpr holds.2.2.symm
  | funct7 f7 f3 op => exact beq_iff_eq.mpr holds.2.2.symm
  | word v => exact beq_iff_eq.mpr (congrArg Rv32.opcode (Eq.symm holds))
  | any => rfl

/-- Only the lines of the word's opcode matter. -/
theorem selectFields_filter (w : Word) (table : List (InstPat × Fields)) :
    selectFields w table =
      selectFields w (table.filter fun row => row.2.admits (Rv32.opcode w)) := by
  induction table with
  | nil => rfl
  | cons row rest ih =>
      rw [List.filter_cons]
      split_ifs with admitted
      · simp only [selectFields, ih]
      · have fails : ¬ row.2.holds w := fun holds => admitted (Fields.holds_admits holds)
        simp only [selectFields, fails, ↓reduceIte, ih]

def InstPat.matches (line : InstPat) (w : Word) : Bool :=
  (patternDecode line.pattern.toList).any fun pattern => pattern.matches w

/-- The line of the table that the word reaches: it matches and no earlier line does. -/
def FirstMatch (w : Word) (line : InstPat) : Prop :=
  ∃ before after, instPats = before ++ line :: after ∧ line.matches w = true ∧
    ∀ earlier ∈ before, earlier.matches w = false

theorem selectPat_some {w : Word} {lines : List InstPat} {line : InstPat}
    (selected : selectPat w lines = some line) :
    ∃ before after, lines = before ++ line :: after ∧ line.matches w = true ∧
      ∀ earlier ∈ before, earlier.matches w = false := by
  induction lines with
  | nil => cases selected
  | cons first rest ih =>
      simp only [selectPat] at selected
      split at selected
      · cases selected
      next pattern decoded =>
        split_ifs at selected with matched
        · cases selected
          exact ⟨[], rest, rfl, by simp [InstPat.matches, decoded, matched], by simp⟩
        · obtain ⟨before, after, split, here, none⟩ := ih selected
          have fails : first.matches w = false := by simp [InstPat.matches, decoded, matched]
          refine ⟨first :: before, after, by rw [split, List.cons_append], here, ?_⟩
          intro earlier listed
          rcases List.mem_cons.mp listed with rfl | older
          · exact fails
          · exact none earlier older

/-!
## Names and formats
-/

/-- The name under which the table lists an instruction. -/
def instName : Instr → InstName
  | .lui _ _ => .lui
  | .auipc _ _ => .auipc
  | .jal _ _ => .jal
  | .jalr _ _ _ => .jalr
  | .branch op _ _ _ =>
      match op with
      | .beq => .beq | .bne => .bne | .blt => .blt | .bge => .bge | .bltu => .bltu | .bgeu => .bgeu
  | .load op _ _ _ =>
      match op with
      | .lb => .lb | .lh => .lh | .lw => .lw | .lbu => .lbu | .lhu => .lhu
  | .store op _ _ _ =>
      match op with
      | .sb => .sb | .sh => .sh | .sw => .sw
  | .opImm op _ _ _ =>
      match op with
      | .add => .addi | .sll => .slli | .slt => .slti | .sltu => .sltiu | .xor => .xori
      | .srl => .srli | .sra => .srai | .or => .ori | .and => .andi
      | .sub => .inv
  | .opReg op _ _ _ =>
      match op with
      | .add => .add | .sub => .sub | .sll => .sll | .slt => .slt | .sltu => .sltu
      | .xor => .xor | .srl => .srl | .sra => .sra | .or => .or | .and => .and

/-- The format the manual gives an instruction. -/
def instFormat : Instr → OperandType
  | .lui _ _ | .auipc _ _ => .U
  | .jal _ _ => .J
  | .jalr _ _ _ | .load _ _ _ _ | .opImm _ _ _ _ => .I
  | .branch _ _ _ _ => .B
  | .store _ _ _ _ => .S
  | .opReg _ _ _ _ => .R

/-- The table gives the word this name and format. -/
def Selects (w : Word) (name : InstName) (type : OperandType) : Prop :=
  (selectPat w instPats).map (fun line => (line.name, line.type)) = some (name, type)

private theorem opcode_ecall : opcode 0x00000073#32 = 0b1110011#7 := rfl
private theorem opcode_mret : opcode 0x30200073#32 = 0b1110011#7 := rfl
private theorem opcode_ebreak : opcode 0x00100073#32 = 0b1110011#7 := rfl

theorem selects_iff {w : Word} {op : BitVec 7} {name : InstName} {type : OperandType}
    (is : opcode w = op) :
    Selects w name type ↔
      (selectFields w ((instPats.zip instFields).filter fun row => row.2.admits op)).map
        (fun line => (line.name, line.type)) = some (name, type) := by
  rw [Selects, selectPat_instPats, selectFields_filter, is]

attribute [simp] instPats instFields Fields.admits selectFields Fields.holds opcode_ecall
  opcode_mret opcode_ebreak

theorem selects_lui {w : Word} (op : opcode w = 0b0110111#7) : Selects w .lui .U := by
  rw [selects_iff op]
  simp [op]

theorem selects_auipc {w : Word} (op : opcode w = 0b0010111#7) : Selects w .auipc .U := by
  rw [selects_iff op]
  simp [op]

theorem selects_jal {w : Word} (op : opcode w = 0b1101111#7) : Selects w .jal .J := by
  rw [selects_iff op]
  simp [op]

theorem selects_jalr {w : Word} (op : opcode w = 0b1100111#7) (f3 : funct3 w = 0b000#3) :
    Selects w .jalr .I := by
  rw [selects_iff op]
  simp [op, f3]

theorem selects_branch {w : Word} {f : BranchOp} (op : opcode w = 0b1100011#7)
    (found : branchOp? (funct3 w) = some f) :
    Selects w (instName (.branch f (rs1 w) (rs2 w) (immB w))) .B := by
  rw [selects_iff op]
  have f3 := branchOp?_some found
  cases f <;> simp [f3, BranchOp.funct3, op, instName]

theorem selects_load {w : Word} {f : LoadOp} (op : opcode w = 0b0000011#7)
    (found : loadOp? (funct3 w) = some f) :
    Selects w (instName (.load f (rd w) (rs1 w) (immI w))) .I := by
  rw [selects_iff op]
  have f3 := loadOp?_some found
  cases f <;> simp [f3, LoadOp.funct3, op, instName]

theorem selects_store {w : Word} {f : StoreOp} (op : opcode w = 0b0100011#7)
    (found : storeOp? (funct3 w) = some f) :
    Selects w (instName (.store f (rs1 w) (rs2 w) (immS w))) .S := by
  rw [selects_iff op]
  have f3 := storeOp?_some found
  cases f <;> simp [f3, StoreOp.funct3, op, instName]

theorem funct6_eq (w : Word) : w.extractLsb' 26 6 = (funct7 w).extractLsb' 1 6 := by
  apply BitVec.eq_of_getLsbD_eq
  intro i bound
  simp [funct7, bound, show 1 + i < 7 by omega, ← Nat.add_assoc]

theorem selects_opImm {w : Word} {f : AluOp} (op : opcode w = 0b0010011#7)
    (found : aluImmOp? (funct3 w) (funct7 w) = some f) :
    Selects w (instName (.opImm f (rd w) (rs1 w) (if f.isShift then shamt w else immI w))) .I := by
  rw [selects_iff op]
  obtain ⟨f3, notSub, f7⟩ := aluImmOp?_some found
  cases f with
  | sub => exact absurd rfl notSub
  | sll | srl | sra =>
      simp [f3, f7 rfl, AluOp.funct3, AluOp.funct7, op, instName, funct6_eq]
  | add | slt | sltu | xor | or | and => simp [f3, AluOp.funct3, op, instName]

theorem selects_opReg {w : Word} {f : AluOp} (op : opcode w = 0b0110011#7)
    (found : aluOp? (funct3 w) (funct7 w) = some f) :
    Selects w (instName (.opReg f (rd w) (rs1 w) (rs2 w))) .R := by
  rw [selects_iff op]
  obtain ⟨f3, f7⟩ := aluOp?_some found
  cases f <;> simp [f3, f7, AluOp.funct3, AluOp.funct7, op, instName]

theorem selects_of_encodes {w : Word} {instr : Instr} (encodes : Encodes w instr) :
    Selects w (instName instr) (instFormat instr) := by
  cases encodes with
  | lui op => exact selects_lui op
  | auipc op => exact selects_auipc op
  | jal op => exact selects_jal op
  | jalr op f3 => exact selects_jalr op f3
  | branch op found => exact selects_branch op found
  | load op found => exact selects_load op found
  | store op found => exact selects_store op found
  | opImm op found => exact selects_opImm op found
  | opReg op found => exact selects_opReg op found

/-!
## Bodies
-/

/-- The hart a NEMU state stands for. -/
def State.hart (build : Build) (st : State) (pc : Word) : Hart where
  gpr := st.cpu.gpr
  pc := pc
  mem := guestView build st.mem

@[simp] theorem State.hart_gpr (build : Build) (st : State) (pc : Word) :
    (st.hart build pc).gpr = st.cpu.gpr := rfl

@[simp] theorem State.hart_pc (build : Build) (st : State) (pc : Word) :
    (st.hart build pc).pc = pc := rfl

@[simp] theorem State.hart_mem (build : Build) (st : State) (pc : Word) :
    (st.hart build pc).mem = guestView build st.mem := rfl

/-- Writing `rd` and then resetting `$zero` is a write of the register file. -/
theorem setGpr_reset {st : State} (zero : st.cpu.gpr 0#5 = 0#32) (rd : RegId) (v : Word) :
    ((st.setGpr rd v).setGpr 0#5 0#32).cpu.gpr = writeGpr st.cpu.gpr rd v := by
  funext q
  simp only [State.setGpr, writeGpr]
  by_cases isZero : q = 0#5 <;> by_cases isRd : q = rd <;> simp_all

theorem reset_gpr {st : State} (zero : st.cpu.gpr 0#5 = 0#32) :
    (st.setGpr 0#5 0#32).cpu.gpr = st.cpu.gpr := by
  funext q
  by_cases isZero : q = 0#5 <;> simp_all [State.setGpr]

@[simp] theorem State.setGpr_mem (st : State) (r : RegId) (v : Word) :
    (st.setGpr r v).mem = st.mem := rfl

@[simp] theorem State.setGpr_csr (st : State) (r : RegId) (v : Word) :
    (st.setGpr r v).cpu.csr = st.cpu.csr := rfl

/-- The result of a body is the specification's step from `st` at `pc`. -/
structure Implements (build : Build) (st : State) (pc : Word) (instr : Instr) (next : Word)
    (st' : State) : Prop where
  hart : st'.hart build next = (st.hart build pc).step instr
  csr : st'.cpu.csr = st.cpu.csr

section Bodies

variable {build : Build} {st : State} {pc next : Word} {instr : Instr}

/-- A body that writes one register. -/
theorem Implements.write {v : Word} {rd : RegId} (zero : st.cpu.gpr 0#5 = 0#32)
    (dest : instr.dest = some rd) (value : (st.hart build pc).written instr = some v)
    (target : instr.nextPc pc st.cpu.gpr = next) :
    Implements build st pc instr next ((st.setGpr rd v).setGpr 0#5 0#32) where
  hart := by
    have reads : (st.hart build pc).x = st.cpu.gpr := Hart.x_eq_gpr zero
    apply Hart.ext
    · simp only [State.hart_gpr, Hart.step, dest, value, writeBack, setGpr_reset zero]
    · simp only [State.hart_pc, Hart.step, reads, target]
    · simp only [State.hart_mem, State.setGpr_mem, Hart.step_mem_of_dest dest]
  csr := rfl

/-- A body that only moves the pc. -/
theorem Implements.branch {op : BranchOp} {a b : RegId} {imm : Word}
    (zero : st.cpu.gpr 0#5 = 0#32)
    (target : (Instr.branch op a b imm).nextPc pc st.cpu.gpr = next) :
    Implements build st pc (.branch op a b imm) next (st.setGpr 0#5 0#32) where
  hart := by
    have reads : (st.hart build pc).x = st.cpu.gpr := Hart.x_eq_gpr zero
    apply Hart.ext
    · exact reset_gpr zero
    · simp only [State.hart_pc, Hart.step, reads, target]
    · rfl
  csr := rfl

/-- A body that writes memory. -/
theorem Implements.store {op : StoreOp} {a b : RegId} {imm : Word} {mem : HostMem}
    (zero : st.cpu.gpr 0#5 = 0#32)
    (stored : guestView build mem =
      storeValue (guestView build st.mem) op (st.cpu.gpr a + imm) (st.cpu.gpr b)) :
    Implements build st pc (.store op a b imm) (pc + 4#32)
      (({ st with mem := mem } : State).setGpr 0#5 0#32) where
  hart := by
    have reads : (st.hart build pc).x = st.cpu.gpr := Hart.x_eq_gpr zero
    apply Hart.ext
    · exact reset_gpr zero
    · rfl
    · simp only [State.hart_mem, State.setGpr_mem, Hart.step, Instr.access, reads, stored]
  csr := rfl

end Bodies

theorem decodeOperand_imm (w : Word) (gpr : RegId → Word) (type : OperandType) :
    (decodeOperand w gpr type).imm = formatImm w type :=
  immOperand_eq_formatImm w type

theorem decodeOperand_I (w : Word) (gpr : RegId → Word) :
    decodeOperand w gpr .I = ⟨rd w, gpr (rs1 w), 0#32, immI w⟩ := by
  simp only [decodeOperand, bits_rd, bits_rs1, immOperand_I]

theorem decodeOperand_U (w : Word) (gpr : RegId → Word) :
    decodeOperand w gpr .U = ⟨rd w, 0#32, 0#32, immU w⟩ := by
  simp only [decodeOperand, bits_rd, immOperand_U]

theorem decodeOperand_S (w : Word) (gpr : RegId → Word) :
    decodeOperand w gpr .S = ⟨rd w, gpr (rs1 w), gpr (rs2 w), immS w⟩ := by
  simp only [decodeOperand, bits_rd, bits_rs1, bits_rs2, immOperand_S]

theorem decodeOperand_J (w : Word) (gpr : RegId → Word) :
    decodeOperand w gpr .J = ⟨rd w, 0#32, 0#32, immJ w⟩ := by
  simp only [decodeOperand, bits_rd, immOperand_J]

theorem decodeOperand_R (w : Word) (gpr : RegId → Word) :
    decodeOperand w gpr .R = ⟨rd w, gpr (rs1 w), gpr (rs2 w), 0#32⟩ := by
  simp only [decodeOperand, bits_rd, bits_rs1, bits_rs2, immOperand]

theorem decodeOperand_B (w : Word) (gpr : RegId → Word) :
    decodeOperand w gpr .B = ⟨rd w, gpr (rs1 w), gpr (rs2 w), immB w⟩ := by
  simp only [decodeOperand, bits_rd, bits_rs1, bits_rs2, immOperand_B]

/-- `decode_exec` of a selected line. -/
theorem decodeExec_of_selects (cfg : Config) (pc : Word) (st : State) {w : Word} {name : InstName}
    {type : OperandType} (selects : Selects w name type) :
    decodeExec cfg w pc (pc + 4#32) st =
      (execBody cfg pc (pc + 4#32) st (decodeOperand w st.cpu.gpr type) name).bind fun done =>
        .ok (done.1, done.2.setGpr 0#5 0#32) := by
  obtain ⟨line, found, names⟩ := Option.map_eq_some_iff.mp selects
  obtain ⟨rfl, rfl⟩ := Prod.mk.inj names
  simp only [decodeExec, found]
  rfl

/-- The access of an instruction is to ordinary memory. -/
def AccessBacked (build : Build) : Access → Prop
  | .none => True
  | .load op addr => Backed build addr op.size
  | .store op addr _ => Backed build addr op.size

/-!
## One executed word
-/

section Exec

variable {cfg : Config} {w pc : Word} {st : State}

/-- `decode_exec` of a word ends normally and does what the specification says. -/
def Executes (cfg : Config) (w pc : Word) (st : State) (instr : Instr) : Prop :=
  ∃ next st', decodeExec cfg w pc (pc + 4#32) st = .ok (next, st') ∧
    Implements cfg.build st pc instr next st'

private theorem written_of_reads {build : Build} {instr : Instr} {v : Word}
    (zero : st.cpu.gpr 0#5 = 0#32) (noLoad : ∀ op rd rs1 imm, instr ≠ .load op rd rs1 imm)
    (value : instr.result pc st.cpu.gpr = some v) :
    (st.hart build pc).written instr = some v := by
  have reads : (st.hart build pc).x = st.cpu.gpr := Hart.x_eq_gpr zero
  cases instr with
  | load op rd rs1 imm => exact absurd rfl (noLoad op rd rs1 imm)
  | _ => simpa only [Hart.written, Instr.access, State.hart_pc, reads] using value

/-- A register-writing line whose body computes the specification's result. -/
theorem Executes.of_write {name : InstName} {type : OperandType} {instr : Instr} {next v : Word}
    (zero : st.cpu.gpr 0#5 = 0#32) (selects : Selects w name type)
    (dest : instr.dest = some (rd w)) (value : (st.hart cfg.build pc).written instr = some v)
    (target : instr.nextPc pc st.cpu.gpr = next)
    (body : execBody cfg pc (pc + 4#32) st (decodeOperand w st.cpu.gpr type) name =
      .ok (next, st.setGpr (rd w) v)) :
    Executes cfg w pc st instr := by
  have run := decodeExec_of_selects cfg pc st selects
  rw [body] at run
  exact ⟨_, _, run, .write zero dest value target⟩

theorem executes_lui (zero : st.cpu.gpr 0#5 = 0#32) (op : opcode w = 0b0110111#7) :
    Executes cfg w pc st (.lui (rd w) (immU w)) := by
  apply Executes.of_write zero (selects_lui op) rfl (v := immU w) rfl rfl
  rw [decodeOperand_U]
  rfl

theorem executes_auipc (zero : st.cpu.gpr 0#5 = 0#32) (op : opcode w = 0b0010111#7) :
    Executes cfg w pc st (.auipc (rd w) (immU w)) := by
  apply Executes.of_write zero (selects_auipc op) rfl (v := pc + immU w) rfl rfl
  rw [decodeOperand_U]
  rfl

theorem executes_jal (zero : st.cpu.gpr 0#5 = 0#32) (op : opcode w = 0b1101111#7) :
    Executes cfg w pc st (.jal (rd w) (immJ w)) := by
  apply Executes.of_write zero (selects_jal op) rfl (v := pc + 4#32) rfl rfl
  rw [decodeOperand_J]
  rfl

theorem executes_jalr (zero : st.cpu.gpr 0#5 = 0#32) (op : opcode w = 0b1100111#7)
    (f3 : funct3 w = 0b000#3) : Executes cfg w pc st (.jalr (rd w) (rs1 w) (immI w)) := by
  apply Executes.of_write zero (selects_jalr op f3) rfl (v := pc + 4#32) rfl rfl
  rw [decodeOperand_I]
  rfl

/-- The register-register bodies compute `AluOp.eval`. -/
theorem execBody_opReg (snpc : Word) (o : Operands) (f : AluOp) (a b c : RegId) :
    execBody cfg pc snpc st o (instName (.opReg f a b c)) =
      .ok (snpc, st.setGpr o.rd (f.eval o.src1 o.src2)) := by
  cases f <;> simp only [instName, execBody, AluOp.eval, toNat_bits_shift]

theorem executes_opReg {f : AluOp} (zero : st.cpu.gpr 0#5 = 0#32) (op : opcode w = 0b0110011#7)
    (found : aluOp? (funct3 w) (funct7 w) = some f) :
    Executes cfg w pc st (.opReg f (rd w) (rs1 w) (rs2 w)) := by
  apply Executes.of_write zero (selects_opReg op found) rfl
    (written_of_reads zero (by simp) rfl) rfl
  rw [execBody_opReg, decodeOperand_R]
  rfl

theorem funct7_bit_of_shift {f : AluOp} (found : aluImmOp? (funct3 w) (funct7 w) = some f)
    (shift : f.isShift = true) : w.getLsbD 25 = false := by
  have low : w.getLsbD 25 = (funct7 w).getLsbD 0 := by simp [funct7]
  rw [low, (aluImmOp?_some found).2.2 shift]
  cases f <;> rfl

/-- The register-immediate bodies compute `AluOp.eval` on the manual's immediate. -/
theorem execBody_opImm (snpc : Word) {o : Operands} {f : AluOp} (a b : RegId) (imm : Word)
    (found : aluImmOp? (funct3 w) (funct7 w) = some f) (immediate : o.imm = immI w) :
    execBody cfg pc snpc st o (instName (.opImm f a b imm)) =
      .ok (snpc, st.setGpr o.rd (f.eval o.src1 (if f.isShift then shamt w else immI w))) := by
  have legal := funct7_bit_of_shift found
  cases f with
  | sub => exact absurd rfl (aluImmOp?_some found).2.1
  | sll | srl | sra =>
      simp only [instName, execBody, AluOp.eval, AluOp.isShift, immediate, ↓reduceIte,
        toNat_bits_shamt (legal rfl)]
  | add | slt | sltu | xor | or | and =>
      simp only [instName, execBody, AluOp.eval, AluOp.isShift, immediate, Bool.false_eq_true,
        ↓reduceIte]

theorem executes_opImm {f : AluOp} (zero : st.cpu.gpr 0#5 = 0#32) (op : opcode w = 0b0010011#7)
    (found : aluImmOp? (funct3 w) (funct7 w) = some f) :
    Executes cfg w pc st (.opImm f (rd w) (rs1 w) (if f.isShift then shamt w else immI w)) := by
  apply Executes.of_write zero (selects_opImm op found) rfl
    (written_of_reads zero (by simp) rfl) rfl
  rw [execBody_opImm _ _ _ _ found (decodeOperand_imm _ _ _), decodeOperand_I]
  rfl

private theorem sext_narrow (v : Word) {len : Nat} (bound : len ≤ 64) :
    (sext (v.setWidth 64) len).setWidth 32 = (v.setWidth len).signExtend 32 := by
  rw [sext, BitVec.setWidth_setWidth_of_le _ bound, setWidth_signExtend]

/-- The load bodies read the guest's memory and extend as the specification does. -/
theorem execBody_load {snpc : Word} {o : Operands} {f : LoadOp} (a b : RegId) (imm : Word)
    (backed : Backed cfg.build (o.src1 + o.imm) f.size) :
    execBody cfg pc snpc st o (instName (.load f a b imm)) =
      .ok (snpc, st.setGpr o.rd (loadValue (guestView cfg.build st.mem) f (o.src1 + o.imm))) := by
  have read : paddrRead cfg st.mem (o.src1 + o.imm) f.size =
      .ok ((guestView cfg.build st.mem).readLe (o.src1 + o.imm) f.size) :=
    paddrRead_of_backed (by cases f <;> rfl) backed
  cases f with
  | lw =>
      simp only [instName, execBody, vaddrRead, LoadOp.size] at read ⊢
      rw [read]
      rfl
  | lb | lh =>
      simp only [instName, execBody, vaddrRead, LoadOp.size] at read ⊢
      rw [read]
      simp only [bind, Except.bind, pure, Except.pure, loadValue, LoadOp.size, LoadOp.extend,
        sext_narrow _ (show 8 ≤ 64 by decide), sext_narrow _ (show 16 ≤ 64 by decide)]
  | lbu | lhu =>
      simp only [instName, execBody, vaddrRead, LoadOp.size] at read ⊢
      rw [read]
      simp only [bind, Except.bind, pure, Except.pure, loadValue, LoadOp.size, LoadOp.extend,
        ByteMem.setWidth_readLe (show 8 * 1 ≤ 8 by decide),
        ByteMem.setWidth_readLe (show 8 * 2 ≤ 16 by decide)]

theorem executes_load {f : LoadOp} (zero : st.cpu.gpr 0#5 = 0#32) (op : opcode w = 0b0000011#7)
    (found : loadOp? (funct3 w) = some f)
    (backed : Backed cfg.build (st.cpu.gpr (rs1 w) + immI w) f.size) :
    Executes cfg w pc st (.load f (rd w) (rs1 w) (immI w)) := by
  have reads : (st.hart cfg.build pc).x = st.cpu.gpr := Hart.x_eq_gpr zero
  apply Executes.of_write zero (selects_load op found) rfl
    (v := loadValue (guestView cfg.build st.mem) f (st.cpu.gpr (rs1 w) + immI w))
    (by simp only [Hart.written, Instr.access, reads, State.hart_mem]) rfl
  rw [decodeOperand_I]
  exact execBody_load (o := ⟨rd w, st.cpu.gpr (rs1 w), 0#32, immI w⟩) (rd w) (rs1 w) (immI w) backed

/-- The store bodies change the guest's memory as the specification does. -/
theorem execBody_store {snpc : Word} {o : Operands} {f : StoreOp} (a b : RegId) (imm : Word)
    (backed : Backed cfg.build (o.src1 + o.imm) f.size) :
    ∃ mem, execBody cfg pc snpc st o (instName (.store f a b imm)) =
        .ok (snpc, { st with mem := mem }) ∧
      guestView cfg.build mem =
        storeValue (guestView cfg.build st.mem) f (o.src1 + o.imm) o.src2 := by
  have write (data : Word) :
      ∃ next, paddrWrite cfg st.mem (o.src1 + o.imm) f.size data = .ok next ∧
        guestView cfg.build next =
          (guestView cfg.build st.mem).writeLe (o.src1 + o.imm) f.size data :=
    paddrWrite_of_backed (by cases f <;> rfl) backed
  cases f with
  | sw =>
      obtain ⟨mem, stored, view⟩ := write o.src2
      refine ⟨mem, ?_, view⟩
      simp only [instName, execBody, vaddrWrite, StoreOp.size] at stored ⊢
      rw [stored]
      rfl
  | sb =>
      obtain ⟨mem, stored, view⟩ := write ((bits o.src2 7 0).setWidth 32)
      refine ⟨mem, ?_, ?_⟩
      · simp only [instName, execBody, vaddrWrite, StoreOp.size] at stored ⊢
        rw [stored]
        rfl
      · rw [view, bits_low_byte, storeValue, StoreOp.size,
          ByteMem.writeLe_setWidth (show 8 * 1 ≤ 8 by decide)]
  | sh =>
      obtain ⟨mem, stored, view⟩ := write ((bits o.src2 15 0).setWidth 32)
      refine ⟨mem, ?_, ?_⟩
      · simp only [instName, execBody, vaddrWrite, StoreOp.size] at stored ⊢
        rw [stored]
        rfl
      · rw [view, bits_low_half, storeValue, StoreOp.size,
          ByteMem.writeLe_setWidth (show 8 * 2 ≤ 16 by decide)]

theorem executes_store {f : StoreOp} (zero : st.cpu.gpr 0#5 = 0#32) (op : opcode w = 0b0100011#7)
    (found : storeOp? (funct3 w) = some f)
    (backed : Backed cfg.build (st.cpu.gpr (rs1 w) + immS w) f.size) :
    Executes cfg w pc st (.store f (rs1 w) (rs2 w) (immS w)) := by
  have run := decodeExec_of_selects cfg pc st (selects_store op found)
  rw [decodeOperand_S] at run
  obtain ⟨mem, body, view⟩ :=
    execBody_store (o := ⟨rd w, st.cpu.gpr (rs1 w), st.cpu.gpr (rs2 w), immS w⟩) (rs1 w) (rs2 w)
      (immS w) backed
  rw [body] at run
  exact ⟨_, _, run, .store zero view⟩

/-- The branch bodies decide as `BranchOp.taken`. -/
theorem execBody_branch (snpc : Word) (o : Operands) (f : BranchOp) (a b : RegId) (imm : Word) :
    execBody cfg pc snpc st o (instName (.branch f a b imm)) =
      .ok (if f.taken o.src1 o.src2 then pc + o.imm else snpc, st) := by
  cases f with
  | blt | bltu => rfl
  | beq | bne => simp only [instName, execBody, BranchOp.taken, beq_iff_eq, bne_iff_ne]
  | bge | bgeu =>
      simp only [instName, execBody, BranchOp.taken, BitVec.sle_eq_not_slt, BitVec.ule_eq_not_ult]
      rfl

theorem executes_branch {f : BranchOp} (zero : st.cpu.gpr 0#5 = 0#32)
    (op : opcode w = 0b1100011#7) (found : branchOp? (funct3 w) = some f) :
    Executes cfg w pc st (.branch f (rs1 w) (rs2 w) (immB w)) := by
  have run := decodeExec_of_selects cfg pc st (selects_branch op found)
  rw [execBody_branch, decodeOperand_B] at run
  exact ⟨_, _, run, .branch zero rfl⟩

theorem executes_of_encodes {instr : Instr} (zero : st.cpu.gpr 0#5 = 0#32)
    (encodes : Encodes w instr) (backed : AccessBacked cfg.build (instr.access st.cpu.gpr)) :
    Executes cfg w pc st instr := by
  cases encodes with
  | lui op => exact executes_lui zero op
  | auipc op => exact executes_auipc zero op
  | jal op => exact executes_jal zero op
  | jalr op f3 => exact executes_jalr zero op f3
  | branch op found => exact executes_branch zero op found
  | load op found => exact executes_load zero op found backed
  | store op found => exact executes_store zero op found backed
  | opImm op found => exact executes_opImm zero op found
  | opReg op found => exact executes_opReg zero op found

end Exec

/-- Whatever the body did, `$zero` is reset after it. -/
theorem decodeExec_zero {cfg : Config} {w pc snpc : Word} {st : State} {done : Word × State}
    (run : decodeExec cfg w pc snpc st = .ok done) : done.2.cpu.gpr 0#5 = 0#32 := by
  simp only [decodeExec] at run
  split at run
  · cases run
  next line _ =>
    cases body : execBody cfg pc snpc st (decodeOperand w st.cpu.gpr line.type) line.name with
    | error fault =>
        rw [body] at run
        cases run
    | ok result =>
        rw [body] at run
        obtain rfl := Except.ok.inj run
        rfl

/-- NEMU implements RV32I: the table selects the instruction's own line first,
the immediate is the manual's, and the state after the word is the manual's. -/
theorem decodeExec_implements_rv32i {cfg : Config} {w pc : Word} {st : State} {instr : Instr}
    (decoded : decode w = some instr) (zero : st.cpu.gpr 0#5 = 0#32)
    (backed : AccessBacked cfg.build (instr.access st.cpu.gpr)) :
    ∃ line next st', FirstMatch w line ∧
      line.name = instName instr ∧ line.type = instFormat instr ∧
      (decodeOperand w st.cpu.gpr line.type).imm = formatImm w line.type ∧
      decodeExec cfg w pc (pc + 4#32) st = .ok (next, st') ∧
      st'.hart cfg.build next = (st.hart cfg.build pc).step instr ∧
      st'.cpu.gpr 0#5 = 0#32 ∧ st'.cpu.csr = st.cpu.csr := by
  have encodes := decode_encodes decoded
  obtain ⟨line, selected, names⟩ := Option.map_eq_some_iff.mp (selects_of_encodes encodes)
  obtain ⟨name, type⟩ := Prod.mk.inj names
  obtain ⟨next, st', run, implements⟩ : Executes cfg w pc st instr :=
    executes_of_encodes zero encodes backed
  refine ⟨line, next, st', selectPat_some selected, name, type, decodeOperand_imm _ _ _, run,
    implements.hart, ?_, implements.csr⟩
  have kept : ((st.hart cfg.build pc).step instr).gpr 0#5 = 0#32 := Hart.step_gpr_zero zero instr
  rw [← implements.hart] at kept
  exact kept

/-- `addi x1, x1, -1` in the shared-object build. -/
theorem decodeExec_implements_addi :
    let st : State :=
      { cpu := { gpr := fun _ => 0#32, pc := 0x80000000#32, csr := fun _ => 0#32 }
        mem := fun _ _ => 0#8 }
    ∃ line next st', FirstMatch 0xfff08093#32 line ∧
      line.name = .addi ∧ line.type = .I ∧
      (decodeOperand 0xfff08093#32 st.cpu.gpr line.type).imm = formatImm 0xfff08093#32 line.type ∧
      decodeExec ⟨.share, true⟩ 0xfff08093#32 0x80000000#32 (0x80000000#32 + 4#32) st =
        .ok (next, st') ∧
      st'.hart .share next =
        (st.hart .share 0x80000000#32).step (.opImm .add 1#5 1#5 0xffffffff#32) ∧
      st'.cpu.gpr 0#5 = 0#32 ∧ st'.cpu.csr = st.cpu.csr :=
  decodeExec_implements_rv32i
    (show decode 0xfff08093#32 = some (.opImm .add 1#5 1#5 0xffffffff#32) by decide) rfl trivial

end Ysyx.Nemu
