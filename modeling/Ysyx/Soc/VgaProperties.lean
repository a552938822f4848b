import Ysyx.Soc.Vga

/-! Which requests may change the frame buffer and `sync_reg`, and which do. The
write port looks at `penable` alone, so the law holds of the cycles in which that
makes no difference. -/

set_option autoImplicit false

namespace Ysyx.Soc

open Lib (Machine)

variable {req : ApbReq} {vga vga' : Vga}

/-!
## The law
-/

/-- The request writes byte lane `i` of frame-buffer word `index`. -/
def ApbReq.WritesData (req : ApbReq) (index : BitVec 21) (i : Nat) : Prop :=
  req.writes = true ∧ req.paddr ≠ syncAddr ∧ req.dataIndex = index ∧ req.pstrb.getLsbD i = true

def ApbReq.WritesSync (req : ApbReq) : Prop :=
  req.writes = true ∧ req.paddr = syncAddr ∧ req.pstrb.getLsbD 0 = true

/-- What no request addresses stays as it is. -/
structure FrameLaw (req : ApbReq) (vga vga' : Vga) : Prop where
  data : ∀ index, ∀ i < 4, ¬ req.WritesData index i →
    lane (vga'.data index) i = lane (vga.data index) i
  sync : ¬ req.WritesSync → vga'.syncReg = vga.syncReg

/-!
## The condition
-/

/-- The cycle is no access phase; or it stores in `sync_reg` what is there or what a
write transfer brings; or it stores in a word, with `sync_reg` clear, lanes that are
there or that a write transfer enables. -/
def Vga.Meets (vga : Vga) (req : ApbReq) : Prop :=
  req.penable = true →
    if req.paddr = syncAddr then
      req.WritesSync ∨ req.pwdata.getLsbD 0 = vga.syncReg
    else
      vga.syncReg = false ∧ ∀ i < 4, req.WritesData req.dataIndex i ∨
        lane req.pwdata i = lane (vga.data req.dataIndex) i

/-!
## One cycle
-/

theorem Vga.next_of_no_access (noAccess : req.penable = false) :
    (vga.next req).data = vga.data ∧ (vga.next req).syncReg = vga.syncReg := by
  simp [Vga.next, noAccess]

theorem Vga.next_of_sync (access : req.penable = true) (sync : req.paddr = syncAddr) :
    (vga.next req).data = vga.data ∧ (vga.next req).syncReg = req.pwdata.getLsbD 0 := by
  simp [Vga.next, access, sync]

theorem Vga.next_of_data (access : req.penable = true) (data : req.paddr ≠ syncAddr)
    (index : BitVec 21) :
    (vga.next req).data index = (if index = req.dataIndex then req.pwdata else vga.data index) ∧
      (vga.next req).syncReg = false := by
  simp only [syncAddr, ne_eq] at data
  simp [Vga.next, access, data]

theorem frameLaw_of_sync (access : req.penable = true) (sync : req.paddr = syncAddr) :
    FrameLaw req vga (vga.next req) ↔
      req.WritesSync ∨ req.pwdata.getLsbD 0 = vga.syncReg := by
  obtain ⟨data, syncReg⟩ := vga.next_of_sync access sync
  constructor
  · intro law
    by_cases writes : req.WritesSync
    · exact .inl writes
    · exact .inr (syncReg.symm.trans (law.sync writes))
  · intro meets
    constructor
    case data =>
      intro index i _ _
      rw [data]
    case sync =>
      intro noWrite
      rw [syncReg, meets.resolve_left noWrite]

theorem frameLaw_of_data (access : req.penable = true) (notSync : req.paddr ≠ syncAddr) :
    FrameLaw req vga (vga.next req) ↔
      vga.syncReg = false ∧ ∀ i < 4, req.WritesData req.dataIndex i ∨
        lane req.pwdata i = lane (vga.data req.dataIndex) i := by
  have next := fun index => vga.next_of_data access notSync index
  constructor
  · intro law
    constructor
    · rw [← law.sync (fun writes => notSync writes.2.1), (next 0#21).2]
    · intro i bound
      by_cases writes : req.WritesData req.dataIndex i
      · exact .inl writes
      · have kept := law.data req.dataIndex i bound writes
        rw [(next req.dataIndex).1, if_pos rfl] at kept
        exact .inr kept
  · rintro ⟨clear, lanes⟩
    constructor
    case data =>
      intro index i bound noWrite
      rw [(next index).1]
      split_ifs with same
      · subst same
        exact (lanes i bound).resolve_left noWrite
      · rfl
    case sync =>
      intro _
      rw [(next 0#21).2, clear]

/-- One cycle keeps the law exactly when it meets the condition. -/
theorem frameLaw_iff : FrameLaw req vga (vga.next req) ↔ vga.Meets req := by
  rw [Vga.Meets]
  cases access : req.penable with
  | false =>
      obtain ⟨data, syncReg⟩ := vga.next_of_no_access access
      constructor
      · intro _ absurdity
        cases absurdity
      · intro _
        exact ⟨fun index i _ _ => by rw [data], fun _ => syncReg⟩
  | true =>
      by_cases sync : req.paddr = syncAddr
      · rw [if_pos sync, frameLaw_of_sync access sync]
        exact ⟨fun holds _ => holds, fun holds => holds rfl⟩
      · rw [if_neg sync, frameLaw_of_data access sync]
        exact ⟨fun holds _ => holds, fun holds => holds rfl⟩

/-- A write transfer to a word with every lane enabled, `sync_reg` clear. -/
theorem Vga.meets_of_full_write (writes : req.writes = true) (notSync : req.paddr ≠ syncAddr)
    (full : req.pstrb = 0b1111#4) (clear : vga.syncReg = false) : vga.Meets req := by
  intro _
  rw [if_neg notSync]
  refine ⟨clear, fun i bound => .inl ⟨writes, notSync, rfl, ?_⟩⟩
  obtain rfl | rfl | rfl | rfl : i = 0 ∨ i = 1 ∨ i = 2 ∨ i = 3 := by omega
  all_goals rw [full]; rfl

/-!
## Runs
-/

/-- The state at the start of a cycle of the run from reset. -/
def vgaAt (reqs : Nat → ApbReq) (n : Nat) : Vga := vgaMachine.run reqs 0 Vga.reset n

theorem vgaAt_succ (reqs : Nat → ApbReq) (n : Nat) :
    vgaAt reqs (n + 1) = (vgaAt reqs n).next (reqs n) := by
  rw [vgaAt, Machine.run_succ, Nat.zero_add]
  rfl

/-- In every run, up to any cycle, the law holds throughout exactly when every cycle meets
the condition. -/
theorem frame_law_run_iff (reqs : Nat → ApbReq) (n : Nat) :
    (∀ k < n, FrameLaw (reqs k) (vgaAt reqs k) (vgaAt reqs (k + 1))) ↔
      ∀ k < n, (vgaAt reqs k).Meets (reqs k) := by
  simp only [vgaAt_succ, frameLaw_iff]

/-- The UART's transfer at a port that only `psel` keeps out of it. -/
def uartWrite : ApbReq := ⟨0x10000000#32, false, true, true, 0x41#32, 0b0001#4⟩

/-- There printing a character writes frame-buffer word 0. -/
theorem frame_law_uart_fails :
    ¬ ∀ (reqs : Nat → ApbReq) (n : Nat),
      FrameLaw (reqs n) (vgaAt reqs n) (vgaAt reqs (n + 1)) := by
  intro always
  have kept := (always (fun _ => uartWrite) 0).data 0#21 0 (by decide)
    (fun writes => absurd writes.1 (by decide))
  exact absurd kept (by decide)

/-- Where every cycle meets the condition, a lane of a word that has changed has been
written by a transfer addressed to it. -/
theorem exists_write_of_changed {reqs : Nat → ApbReq} {n : Nat}
    (meets : ∀ k < n, (vgaAt reqs k).Meets (reqs k)) {index : BitVec 21} {i : Nat}
    (bound : i < 4) (changed : lane ((vgaAt reqs n).data index) i ≠ 0#8) :
    ∃ k < n, (reqs k).WritesData index i := by
  have law := (frame_law_run_iff reqs n).mpr meets
  clear meets
  induction n with
  | zero => exact absurd (lane_zero i) changed
  | succ n ih =>
      by_cases writes : (reqs n).WritesData index i
      · exact ⟨n, Nat.lt_succ_self n, writes⟩
      · have kept := (law n (Nat.lt_succ_self n)).data index i bound writes
        obtain ⟨k, before, written⟩ := ih (kept ▸ changed)
          (fun k inside => law k (Nat.lt_succ_of_lt inside))
        exact ⟨k, Nat.lt_succ_of_lt before, written⟩

end Ysyx.Soc
