import Ysyx.Nemu.SystemProperties

/-! Where the CSR instructions of the interpreter index `cpu.csr`: the twelve bits of the
address arrive sign-extended, and the switch lets numbers it does not know pass. -/

set_option autoImplicit false

namespace Ysyx.Nemu

open Rv32

/-- `MSTATUS`, `MTVEC`, `MEPC` and `MCAUSE`. -/
def knownCsrs : List (BitVec 12) := [0x300#12, 0x305#12, 0x341#12, 0x342#12]

/-- The `int` that `check_csr_idx` receives for an address. -/
def csrArgument (addr : BitVec 12) : Int := (addr.signExtend 32).toInt

theorem checkCsrIdx_known (rtCheck : Bool) :
    knownCsrs.map (fun addr => checkCsrIdx rtCheck (csrArgument addr)) =
      [.ok 0, .ok 1, .ok 2, .ok 3] := by
  cases rtCheck <;> rfl

theorem checkCsrIdx_unknown {addr : BitVec 12} (unknown : addr ∉ knownCsrs) (rtCheck : Bool) :
    checkCsrIdx rtCheck (csrArgument addr) =
      if rtCheck then .error .assertFail else .ok (csrArgument addr) := by
  have value : csrArgument addr = addr.toInt := BitVec.toInt_signExtend_of_le (by decide)
  have other {known : BitVec 12} (listed : known ∈ knownCsrs) : csrArgument addr ≠ known.toInt := by
    intro same
    exact unknown (BitVec.eq_of_toInt_eq (value.symm.trans same) ▸ listed)
  have notMstatus : csrArgument addr ≠ mstatus := @other 0x300#12 (by decide)
  have notMtvec : csrArgument addr ≠ mtvec := @other 0x305#12 (by decide)
  have notMepc : csrArgument addr ≠ mepc := @other 0x341#12 (by decide)
  have notMcause : csrArgument addr ≠ mcause := @other 0x342#12 (by decide)
  rw [checkCsrIdx, if_neg notMstatus, if_neg notMtvec, if_neg notMepc, if_neg notMcause]

/-- An address with bit 11 set arrives negative. -/
theorem csrArgument_inside_iff (addr : BitVec 12) :
    (0 ≤ csrArgument addr ∧ csrArgument addr < 4) ↔ addr.toNat < 4 := by
  rw [csrArgument, BitVec.toInt_signExtend_of_le (by decide), BitVec.toInt_eq_toNat_cond]
  have bound := addr.isLt
  split <;> omega

/-- The assertion is compiled in, or the switch knows the address, or the address is an
entry number itself. -/
def CsrGuarded (cfg : Config) (addr : BitVec 12) : Prop :=
  cfg.rtCheck = true ∨ addr ∈ knownCsrs ∨ addr.toNat < 4

theorem checkCsrIdx_inside_iff (cfg : Config) (addr : BitVec 12) :
    (∀ idx, checkCsrIdx cfg.rtCheck (csrArgument addr) = .ok idx → 0 ≤ idx ∧ idx < 4) ↔
      CsrGuarded cfg addr := by
  by_cases known : addr ∈ knownCsrs
  · have listed : checkCsrIdx cfg.rtCheck (csrArgument addr) ∈
        ([.ok 0, .ok 1, .ok 2, .ok 3] : List (Except Fault Int)) := by
      rw [← checkCsrIdx_known cfg.rtCheck]
      exact List.mem_map_of_mem known
    refine ⟨fun _ => .inr (.inl known), fun _ idx found => ?_⟩
    rw [found] at listed
    simp at listed
    omega
  · rw [checkCsrIdx_unknown known]
    cases check : cfg.rtCheck with
    | true => exact ⟨fun _ => .inl check, fun _ idx found => nomatch found⟩
    | false =>
        have plain : CsrGuarded cfg addr ↔ addr.toNat < 4 := by
          simp [CsrGuarded, check, known]
        rw [plain, ← csrArgument_inside_iff]
        constructor
        · intro inside
          exact inside _ rfl
        · intro inside idx found
          cases found
          exact inside

/-- The access goes outside the array. -/
theorem csrIndex_outside_iff (cfg : Config) (idx : Int) :
    csrIndex cfg idx = .error .csrArray ↔
      ¬ ∀ slot, checkCsrIdx cfg.rtCheck idx = .ok slot → 0 ≤ slot ∧ slot < 4 := by
  rw [csrIndex]
  cases checked : checkCsrIdx cfg.rtCheck idx with
  | error fault =>
      have stops : fault = .assertFail := by
        unfold checkCsrIdx at checked
        split_ifs at checked
        exact (Except.error.inj checked).symm
      subst stops
      simp [Except.bind]
  | ok slot =>
      simp only [Except.bind, csrSlot]
      split_ifs with inside
      · simp [inside]
      · simp [inside]

/-!
## Execution
-/

theorem type_of_csr {line : InstPat} (listed : line ∈ instPats)
    (csr : line.name = .csrrw ∨ line.name = .csrrs) : line.type = .I := by
  have table : ∀ line ∈ instPats, (line.name = .csrrw ∨ line.name = .csrrs) → line.type = .I := by
    decide
  exact table line listed csr

theorem execBody_csr_outside_iff {cfg : Config} {pc snpc : Word} {st : State} {o : Operands}
    {name : InstName} (csr : name = .csrrw ∨ name = .csrrs) :
    execBody cfg pc snpc st o name = .error .csrArray ↔
      csrIndex cfg o.imm.toInt = .error .csrArray := by
  rcases csr with rfl | rfl
  all_goals
    simp only [execBody]
    cases csrIndex cfg o.imm.toInt with
    | error fault => simp [bind, Except.bind]
    | ok slot => simp [bind, Except.bind, pure, Except.pure]

section Words

variable {cfg : Config} {inst pc snpc : Word} {st : State} {line : InstPat}

theorem csr_argument (selected : selectPat inst instPats = some line)
    (csr : line.name = .csrrw ∨ line.name = .csrrs) :
    (decodeOperand inst st.cpu.gpr line.type).imm.toInt = csrArgument (csrField inst) := by
  obtain ⟨before, after, table, -⟩ := selectPat_some selected
  have format : line.type = .I := type_of_csr (by rw [table]; simp) csr
  rw [format, decodeOperand_I]
  rfl

theorem decodeExec_csr_inside_iff (selected : selectPat inst instPats = some line)
    (csr : line.name = .csrrw ∨ line.name = .csrrs) :
    decodeExec cfg inst pc snpc st ≠ .error .csrArray ↔ CsrGuarded cfg (csrField inst) := by
  have outside : decodeExec cfg inst pc snpc st = .error .csrArray ↔
      execBody cfg pc snpc st (decodeOperand inst st.cpu.gpr line.type) line.name =
        .error .csrArray := by
    simp only [decodeExec, selected]
    cases execBody cfg pc snpc st (decodeOperand inst st.cpu.gpr line.type) line.name with
    | error fault => simp [bind, Except.bind]
    | ok done => simp [bind, Except.bind, pure, Except.pure]
  rw [ne_eq, outside, execBody_csr_outside_iff csr, csr_argument selected csr,
    csrIndex_outside_iff, not_not]
  exact checkCsrIdx_inside_iff cfg (csrField inst)

/-- A CSR instruction stays inside `cpu.csr`, or stops before the access, exactly when its
address is guarded; the four known addresses have the four entries. -/
theorem csr_inside_iff (selected : selectPat inst instPats = some line)
    (csr : line.name = .csrrw ∨ line.name = .csrrs) :
    ((∀ idx, checkCsrIdx cfg.rtCheck (decodeOperand inst st.cpu.gpr line.type).imm.toInt = .ok idx →
        0 ≤ idx ∧ idx < 4) ↔ CsrGuarded cfg (csrField inst)) ∧
    (decodeExec cfg inst pc snpc st ≠ .error .csrArray ↔ CsrGuarded cfg (csrField inst)) ∧
    knownCsrs.map (fun addr => checkCsrIdx cfg.rtCheck (csrArgument addr)) =
      [.ok 0, .ok 1, .ok 2, .ok 3] := by
  refine ⟨?_, decodeExec_csr_inside_iff selected csr, checkCsrIdx_known cfg.rtCheck⟩
  rw [csr_argument selected csr]
  exact checkCsrIdx_inside_iff cfg (csrField inst)

end Words

/-- All registers zero. -/
def zeroState : State where
  cpu := { gpr := fun _ => 0#32, pc := 0x80000000#32, csr := fun _ => 0#32 }
  mem := fun _ _ => 0#8

/-- `csrrs x5, mtvec, x0` without run-time checks. -/
theorem csr_inside_mtvec :
    decodeExec ⟨.share, false⟩ 0x305022f3#32 0x80000000#32 0x80000004#32 zeroState ≠
      .error .csrArray := by
  have selected : selectPat 0x305022f3#32 instPats =
      some ⟨"??????? ????? ????? 010 ????? 11100 11", .csrrs, .I⟩ := by
    rw [selectPat_instPats]
    decide
  exact (csr_inside_iff selected (.inr rfl)).2.1.mpr (.inr (.inl (by decide)))

/-- `csrrs x5, mvendorid, x0` without run-time checks reads `cpu.csr[-239]`. -/
theorem csr_mvendorid_fails :
    ¬ ∀ (cfg : Config) (inst pc snpc : Word) (st : State) (line : InstPat),
      selectPat inst instPats = some line → (line.name = .csrrw ∨ line.name = .csrrs) →
      decodeExec cfg inst pc snpc st ≠ .error .csrArray := by
  intro always
  have selected : selectPat 0xf11022f3#32 instPats =
      some ⟨"??????? ????? ????? 010 ????? 11100 11", .csrrs, .I⟩ := by
    rw [selectPat_instPats]
    decide
  have inside := always ⟨.share, false⟩ 0xf11022f3#32 0x80000000#32 0x80000004#32 zeroState _
    selected (.inr rfl)
  rw [decodeExec_csr_inside_iff selected (.inr rfl)] at inside
  rcases inside with check | known | entry
  · cases check
  · exact absurd known (by decide)
  · exact absurd entry (by decide)

end Ysyx.Nemu
