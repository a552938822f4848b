import Ysyx.Soc.VgaProperties

/-! The raster of `vga_top_apb`: frames of 525 lines of 800 cycles, and the frame-buffer
word that each pixel shows. -/

set_option autoImplicit false

namespace Ysyx.Soc

/-!
## Counting over lines
-/

theorem countP_range_blocks (p : Nat → Bool) (width k : Nat) :
    (List.range ((k + 1) * width)).countP p =
      (List.range (k * width)).countP p +
        (List.range width).countP fun j => p (k * width + j) := by
  rw [Nat.succ_mul, List.range_add, List.countP_append, List.countP_map]
  rfl

/-- The cycle `p` of a frame shows a pixel. -/
def activeAt (p : Nat) : Bool :=
  decide (144 ≤ p % 800 ∧ p % 800 < 784 ∧ 35 ≤ p / 800 ∧ p / 800 < 515)

theorem countP_active_line (k : Nat) :
    (List.range 800).countP (fun j => activeAt (k * 800 + j)) =
      if 35 ≤ k ∧ k < 515 then 640 else 0 := by
  have line : ∀ j ∈ List.range 800, activeAt (k * 800 + j) =
      (decide (35 ≤ k ∧ k < 515) && decide (144 ≤ j ∧ j < 784)) := by
    intro j listed
    have bound : j < 800 := List.mem_range.mp listed
    have column : (k * 800 + j) % 800 = j := by omega
    have row : (k * 800 + j) / 800 = k := by omega
    rw [activeAt, column, row, ← Bool.decide_and]
    exact decide_eq_decide.mpr (by omega)
  rw [List.countP_congr fun j listed => by rw [line j listed]]
  split_ifs with inside
  · simp only [inside, and_self, decide_true, Bool.true_and]
    decide +kernel
  · simp [inside]

theorem countP_active (k : Nat) :
    (List.range (k * 800)).countP activeAt = 640 * (min k 515 - 35) := by
  induction k with
  | zero => rfl
  | succ k ih =>
      rw [countP_range_blocks, ih, countP_active_line]
      split_ifs <;> omega

/-!
## One cycle
-/

variable {vga : Vga}

/-- The number of words shown before column `x` of line `y`; the last line resets it. -/
def scanned (x y : Nat) : Nat :=
  if y < 36 then 0
  else if y ≤ 515 then (y - 36) * 640 + min (x - 145) 640
  else if y < 525 ∨ x ≤ 1 then 307200
  else 0

/-- The counters between two clock edges. -/
structure Vga.Scan (vga : Vga) : Prop where
  column : vga.xCnt.toNat ≤ 800
  top : 1 ≤ vga.yCnt.toNat
  bottom : vga.yCnt.toNat ≤ 525
  waiting : vga.xCnt.toNat = 0 → vga.yCnt.toNat = 1
  counter : vga.counter.toNat = scanned vga.xCnt.toNat vga.yCnt.toNat

theorem Vga.valid_iff (vga : Vga) :
    vga.valid = true ↔ 144 < vga.xCnt.toNat ∧ vga.xCnt.toNat ≤ 784 ∧ 35 < vga.yCnt.toNat ∧
      vga.yCnt.toNat ≤ 515 := by
  simp [Vga.valid, BitVec.lt_def, BitVec.le_def, and_assoc]

theorem Vga.next_xCnt (scan : vga.Scan) (req : ApbReq) :
    (vga.next req).xCnt.toNat =
      if vga.xCnt.toNat = 800 then (if vga.yCnt.toNat = 525 then 0 else 1)
      else if vga.xCnt.toNat = 0 then (if vga.syncReg then 1 else 0)
      else vga.xCnt.toNat + 1 := by
  have bound := scan.column
  simp only [Vga.next, hTotal, vTotal, ← BitVec.toNat_inj, BitVec.lt_def]
  split_ifs <;> simp_all
  all_goals omega

theorem Vga.next_yCnt (scan : vga.Scan) (req : ApbReq) :
    (vga.next req).yCnt.toNat =
      if vga.xCnt.toNat = 800 then
        (if vga.yCnt.toNat = 525 then 1 else vga.yCnt.toNat + 1)
      else vga.yCnt.toNat := by
  have bound := scan.bottom
  simp only [Vga.next, hTotal, vTotal, ← BitVec.toNat_inj]
  split_ifs <;> simp_all
  all_goals omega

theorem scanned_le (x y : Nat) : scanned x y ≤ 307200 := by
  unfold scanned
  split_ifs <;> omega

theorem Vga.next_counter (scan : vga.Scan) (req : ApbReq) :
    (vga.next req).counter.toNat =
      if vga.yCnt.toNat = 525 then 0
      else if vga.valid then vga.counter.toNat + 1 else vga.counter.toNat := by
  have bound := scanned_le vga.xCnt.toNat vga.yCnt.toNat
  rw [← scan.counter] at bound
  simp only [Vga.next, vTotal, ← BitVec.toNat_inj]
  split_ifs <;> simp_all
  all_goals omega

theorem Vga.Scan.next (scan : vga.Scan) (req : ApbReq) : (vga.next req).Scan := by
  have nextX := Vga.next_xCnt scan req
  have nextY := Vga.next_yCnt scan req
  have nextCounter := Vga.next_counter scan req
  obtain ⟨column, top, bottom, waiting, counter⟩ := scan
  have valid := vga.valid_iff
  generalize vga.xCnt.toNat = x at *
  generalize vga.yCnt.toNat = y at *
  constructor
  case column => rw [nextX]; split_ifs <;> omega
  case top => rw [nextY]; split_ifs <;> omega
  case bottom => rw [nextY]; split_ifs <;> omega
  case waiting =>
    rw [nextX, nextY]
    intro zero
    split_ifs at zero ⊢ <;> omega
  case counter =>
    rw [nextX, nextY, nextCounter, counter]
    clear nextX nextY nextCounter
    cases shown : vga.valid with
    | true =>
        obtain ⟨left, right, above, below⟩ := valid.mp shown
        have inside : x ≠ 800 ∧ x ≠ 0 ∧ y ≠ 525 := by omega
        simp only [scanned, inside, if_false, if_true]
        split_ifs <;> omega
    | false =>
        have hidden : ¬ (144 < x ∧ x ≤ 784 ∧ 35 < y ∧ y ≤ 515) := fun inside =>
          absurd (valid.mpr inside) (by simp [shown])
        by_cases right : x = 800
        · by_cases below : y = 525
          · simp [right, below, scanned]
          · simp only [scanned, right, below, Bool.false_eq_true, if_true, if_false]
            split_ifs <;> omega
        · by_cases zero : x = 0
          · obtain rfl : y = 1 := waiting zero
            cases vga.syncReg <;> simp [zero, scanned]
          · simp only [scanned, right, zero, Bool.false_eq_true, if_false]
            split_ifs <;> omega

/-!
## Runs
-/

theorem scan_at (reqs : Nat → ApbReq) (n : Nat) : (vgaAt reqs n).Scan := by
  induction n with
  | zero =>
      have start : Vga.reset.Scan := by constructor <;> decide
      exact start
  | succ n ih =>
      rw [vgaAt_succ]
      exact ih.next (reqs n)

/-- The scan leaves column 0 at the end of this cycle. -/
def Vga.Starts (vga : Vga) : Prop := vga.xCnt = 0#10 ∧ vga.syncReg = true

/-- The scan is in cycle `p` of a frame. -/
def Vga.InFrame (vga : Vga) (p : Nat) : Prop :=
  vga.xCnt.toNat = p % 800 + 1 ∧ vga.yCnt.toNat = p / 800 + 1

theorem Vga.InFrame.valid {p : Nat} (inside : vga.InFrame p) : vga.valid = activeAt p := by
  rw [Bool.eq_iff_iff, vga.valid_iff, activeAt, decide_eq_true_iff, inside.1, inside.2]
  omega

/-- The next place of the scan, in the line or at the start of the next one. -/
theorem place_succ (p : Nat) :
    (p % 800 = 799 → (p + 1) % 800 = 0 ∧ (p + 1) / 800 = p / 800 + 1) ∧
      (p % 800 ≠ 799 → (p + 1) % 800 = p % 800 + 1 ∧ (p + 1) / 800 = p / 800) := by
  omega

theorem inFrame_of_starts {reqs : Nat → ApbReq} {n : Nat} (starts : (vgaAt reqs n).Starts)
    (p : Nat) (bound : p < 420000) : (vgaAt reqs (n + 1 + p)).InFrame p := by
  induction p with
  | zero =>
      have scan := scan_at reqs n
      have column : (vgaAt reqs n).xCnt.toNat = 0 := by rw [starts.1]; rfl
      have line := scan.waiting column
      rw [Nat.add_zero, vgaAt_succ]
      refine ⟨(Vga.next_xCnt scan _).trans ?_, (Vga.next_yCnt scan _).trans ?_⟩
      · simp [column, starts.2]
      · simp [column, line]
  | succ p ih =>
      have scan := scan_at reqs (n + 1 + p)
      obtain ⟨column, line⟩ := ih (by omega)
      obtain ⟨wraps, stays⟩ := place_succ p
      rw [← Nat.add_assoc, vgaAt_succ]
      refine ⟨(Vga.next_xCnt scan _).trans ?_, (Vga.next_yCnt scan _).trans ?_⟩
      all_goals
        rw [column, line]
        by_cases last : p % 800 = 799
        · obtain ⟨left, below⟩ := wraps last
          rw [if_pos (by omega), if_neg (by omega)]
          omega
        · obtain ⟨right, same⟩ := stays last
          simp only [show ¬ p % 800 + 1 = 800 by omega, Nat.succ_ne_zero, if_false]
          omega

theorem waits_after {reqs : Nat → ApbReq} {n : Nat} (last : (vgaAt reqs n).InFrame 419999) :
    (vgaAt reqs (n + 1)).xCnt = 0#10 ∧ (vgaAt reqs (n + 1)).yCnt = 1#10 := by
  have scan := scan_at reqs n
  obtain ⟨column, line⟩ := last
  rw [vgaAt_succ]
  constructor <;> apply BitVec.eq_of_toNat_eq
  · rw [Vga.next_xCnt scan, column, line]
    rfl
  · rw [Vga.next_yCnt scan, column, line]
    rfl

/-- The frame is over after 525 lines of 800 cycles. -/
theorem waits_after_frame {reqs : Nat → ApbReq} {n : Nat} (starts : (vgaAt reqs n).Starts) :
    (vgaAt reqs (n + 1 + 420000)).xCnt = 0#10 ∧ (vgaAt reqs (n + 1 + 420000)).yCnt = 1#10 := by
  obtain ⟨m, last⟩ : ∃ m, m = n + 1 + 419999 := ⟨_, rfl⟩
  rw [show n + 1 + 420000 = m + 1 by omega]
  apply waits_after
  rw [last]
  exact inFrame_of_starts starts 419999 (by omega)

/-- Every cycle outside column 0 belongs to a frame that was started. -/
theorem exists_start (reqs : Nat → ApbReq) (n : Nat) (moving : (vgaAt reqs n).xCnt ≠ 0#10) :
    ∃ m p, p < 420000 ∧ n = m + 1 + p ∧ (vgaAt reqs m).Starts := by
  induction n with
  | zero => exact absurd rfl moving
  | succ n ih =>
      by_cases before : (vgaAt reqs n).xCnt = 0#10
      · have scan := scan_at reqs n
        refine ⟨n, 0, by decide, rfl, before, ?_⟩
        cases sync : (vgaAt reqs n).syncReg with
        | true => rfl
        | false =>
            have column : (vgaAt reqs n).xCnt.toNat = 0 := by rw [before]; rfl
            have still := Vga.next_xCnt scan (reqs n)
            rw [column, sync, ← vgaAt_succ] at still
            exact absurd (BitVec.eq_of_toNat_eq still) moving
      · obtain ⟨m, p, bound, rfl, starts⟩ := ih before
        rcases Nat.lt_or_ge (p + 1) 420000 with inside | last
        · exact ⟨m, p + 1, inside, rfl, starts⟩
        · obtain rfl : p = 419999 := by omega
          exact absurd (waits_after_frame starts).1 moving

/-- A store of 1 to the sync address starts a frame, when the scan waits. -/
theorem starts_of_sync (reqs : Nat → ApbReq) (n : Nat) (waits : (vgaAt reqs n).xCnt = 0#10)
    (access : (reqs n).penable = true) (sync : (reqs n).paddr = syncAddr)
    (one : (reqs n).pwdata.getLsbD 0 = true) :
    (vgaAt reqs n).Starts ∨ (vgaAt reqs (n + 1)).Starts := by
  cases pending : (vgaAt reqs n).syncReg with
  | true => exact .inl ⟨waits, pending⟩
  | false =>
      have column : (vgaAt reqs n).xCnt.toNat = 0 := by rw [waits]; rfl
      have still := Vga.next_xCnt (scan_at reqs n) (reqs n)
      rw [column, pending, ← vgaAt_succ] at still
      refine .inr ⟨BitVec.eq_of_toNat_eq still, ?_⟩
      rw [vgaAt_succ, ((vgaAt reqs n).next_of_sync access sync).2, one]

/-- In every run from reset, whatever the requests do to `sync_reg`: the address of a visible
pixel is its place in the active area, which therefore shows the frame buffer row by row;
a started frame starts with the address 0 and has 525 lines of 800 cycles, 640 * 480 of
them visible; the scan moves in started frames only; and a store of 1 to the sync address
starts one when the scan waits. -/
theorem vga_raster (reqs : Nat → ApbReq) :
    (∀ n, (vgaAt reqs n).valid = true →
      36 ≤ (vgaAt reqs n).yCnt.toNat ∧ 145 ≤ (vgaAt reqs n).xCnt.toNat ∧
      (vgaAt reqs n).counter.toNat =
        ((vgaAt reqs n).yCnt.toNat - 36) * 640 + ((vgaAt reqs n).xCnt.toNat - 145)) ∧
    (∀ n r c, r < 480 → c < 640 →
      (vgaAt reqs n).yCnt.toNat = 36 + r → (vgaAt reqs n).xCnt.toNat = 145 + c →
      let word := (vgaAt reqs n).data (BitVec.ofNat 21 (r * 640 + c))
      let pixel := (vgaAt reqs n).pixel
      pixel.valid = true ∧ pixel.r = word.extractLsb' 16 8 ∧ pixel.g = word.extractLsb' 8 8 ∧
        pixel.b = word.extractLsb' 0 8) ∧
    (∀ n, (vgaAt reqs n).Starts →
      (vgaAt reqs n).counter = 0#21 ∧ (vgaAt reqs (n + 1)).counter = 0#21 ∧
      (∀ p < 420000, (vgaAt reqs (n + 1 + p)).InFrame p) ∧
      (vgaAt reqs (n + 1 + 420000)).xCnt = 0#10 ∧
      (List.range 420000).countP (fun p => (vgaAt reqs (n + 1 + p)).valid) = 640 * 480) ∧
    (∀ n, (vgaAt reqs n).xCnt ≠ 0#10 →
      ∃ m p, p < 420000 ∧ n = m + 1 + p ∧ (vgaAt reqs m).Starts) ∧
    (∀ n, (vgaAt reqs n).xCnt = 0#10 → (reqs n).penable = true → (reqs n).paddr = syncAddr →
      (reqs n).pwdata.getLsbD 0 = true →
      (vgaAt reqs n).Starts ∨ (vgaAt reqs (n + 1)).Starts) := by
  have address : ∀ n, (vgaAt reqs n).valid = true →
      36 ≤ (vgaAt reqs n).yCnt.toNat ∧ 145 ≤ (vgaAt reqs n).xCnt.toNat ∧
      (vgaAt reqs n).counter.toNat =
        ((vgaAt reqs n).yCnt.toNat - 36) * 640 + ((vgaAt reqs n).xCnt.toNat - 145) := by
    intro n valid
    obtain ⟨left, right, above, below⟩ := (vgaAt reqs n).valid_iff.mp valid
    refine ⟨above, left, ?_⟩
    rw [(scan_at reqs n).counter, scanned, if_neg (by omega), if_pos below]
    omega
  refine ⟨address, ?_, ?_, exists_start reqs, starts_of_sync reqs⟩
  · intro n r c row column y x
    have valid : (vgaAt reqs n).valid = true := (vgaAt reqs n).valid_iff.mpr (by omega)
    have counter : (vgaAt reqs n).counter = BitVec.ofNat 21 (r * 640 + c) := by
      apply BitVec.eq_of_toNat_eq
      rw [(address n valid).2.2, y, x, BitVec.toNat_ofNat]
      omega
    simp only [Vga.pixel, valid, if_true, counter, and_self]
  · intro n starts
    have column : (vgaAt reqs n).xCnt.toNat = 0 := by rw [starts.1]; rfl
    have zero {x y : Nat} (line : y = 1) : scanned x y = 0 := by subst line; rfl
    refine ⟨?_, ?_, inFrame_of_starts starts, (waits_after_frame starts).1, ?_⟩
    · apply BitVec.eq_of_toNat_eq
      rw [(scan_at reqs n).counter, zero ((scan_at reqs n).waiting column)]
      rfl
    · apply BitVec.eq_of_toNat_eq
      rw [(scan_at reqs (n + 1)).counter, zero (inFrame_of_starts starts 0 (by decide)).2]
      rfl
    · have visible : ∀ p ∈ List.range 420000,
          (vgaAt reqs (n + 1 + p)).valid = activeAt p := fun p listed =>
        (inFrame_of_starts starts p (List.mem_range.mp listed)).valid
      rw [List.countP_congr fun p listed => by rw [visible p listed]]
      exact countP_active 525

end Ysyx.Soc
