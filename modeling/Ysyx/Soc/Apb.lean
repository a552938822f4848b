import Mathlib.Tactic.SplitIfs

/-! The APB request as the peripherals see it. `APBFanout` drives one `psel` and one
`penable` for each device and broadcasts everything else. -/

set_option autoImplicit false

namespace Ysyx.Soc

structure ApbReq where
  paddr : BitVec 32
  psel : Bool
  penable : Bool
  pwrite : Bool
  pwdata : BitVec 32
  pstrb : BitVec 4
  deriving DecidableEq, Repr

/-- The access phase of a write to the selected device. -/
@[simp] def ApbReq.writes (req : ApbReq) : Bool := req.psel && req.penable && req.pwrite

/-- The one master of the bus, as one device sees it: between transfers to that device,
or in the access phase of one. -/
inductive ApbPhase where
  | idle
  | access (req : ApbReq)
  deriving DecidableEq, Repr

/-- What the master drives when it would like to drive `want`: a transfer starts without
`penable` and is held until it is done; between transfers `penable` and the other lines
belong to other devices and are arbitrary. -/
def ApbPhase.drive (phase : ApbPhase) (want : ApbReq) : ApbReq :=
  match phase with
  | .idle => { want with penable := want.penable && !want.psel }
  | .access req => { req with psel := true, penable := true }

def ApbPhase.next (phase : ApbPhase) (want : ApbReq) (pready : Bool) : ApbPhase :=
  match phase with
  | .idle => if want.psel then .access want else .idle
  | .access req => if pready then .idle else .access req

/-!
## Byte lanes
-/

def lane (w : BitVec 32) (i : Nat) : BitVec 8 := w.extractLsb' (8 * i) 8

/-- The word with the lanes enabled by `strb` replaced. -/
def strobe (strb : BitVec 4) (old new : BitVec 32) : BitVec 32 :=
  let pick (i : Nat) : BitVec 8 := if strb.getLsbD i then lane new i else lane old i
  pick 3 ++ pick 2 ++ pick 1 ++ pick 0

theorem getLsbD_lane (w : BitVec 32) (i j : Nat) :
    (lane w i).getLsbD j = (decide (j < 8) && w.getLsbD (8 * i + j)) :=
  BitVec.getLsbD_extractLsb' _ _ _ _

theorem lane_zero (i : Nat) : lane 0#32 i = 0#8 := by
  apply BitVec.eq_of_getLsbD_eq
  intro j _
  simp [getLsbD_lane]

theorem eq_of_lanes {w w' : BitVec 32} (same : ∀ i < 4, lane w i = lane w' i) : w = w' := by
  apply BitVec.eq_of_getLsbD_eq
  intro k bound
  have bit := congrArg (fun l => l.getLsbD (k % 8)) (same (k / 8) (by omega))
  simp only [getLsbD_lane, Nat.div_add_mod, Nat.mod_lt k (show 8 > 0 by decide), decide_true,
    Bool.true_and] at bit
  exact bit

theorem getLsbD_lanes (a b c d : BitVec 8) (k : Nat) :
    (a ++ b ++ c ++ d : BitVec (8 + 8 + 8 + 8)).getLsbD k =
      if k < 8 then d.getLsbD k else if k - 8 < 8 then c.getLsbD (k - 8) else
      if k - 16 < 8 then b.getLsbD (k - 16) else a.getLsbD (k - 24) := by
  simp only [BitVec.getLsbD_append, Nat.sub_sub]

theorem lane_append (a b c d : BitVec 8) (i : Nat) (bound : i < 4) :
    lane (a ++ b ++ c ++ d) i =
      if i = 0 then d else if i = 1 then c else if i = 2 then b else a := by
  apply BitVec.eq_of_getLsbD_eq
  intro j inLane
  rw [getLsbD_lane, getLsbD_lanes]
  simp only [inLane, decide_true, Bool.true_and]
  obtain rfl | rfl | rfl | rfl : i = 0 ∨ i = 1 ∨ i = 2 ∨ i = 3 := by omega
  · simp [inLane]
  · simp [inLane]
  · have high : ¬ 16 + j < 8 ∧ ¬ 16 + j - 8 < 8 := by omega
    simp [inLane, high]
  · have high : ¬ 24 + j < 8 ∧ ¬ 24 + j - 8 < 8 ∧ ¬ 24 + j - 16 < 8 := by omega
    simp [high]

theorem lane_strobe (strb : BitVec 4) (old new : BitVec 32) {i : Nat} (bound : i < 4) :
    lane (strobe strb old new) i = if strb.getLsbD i then lane new i else lane old i := by
  rw [strobe, lane_append _ _ _ _ i bound]
  obtain rfl | rfl | rfl | rfl : i = 0 ∨ i = 1 ∨ i = 2 ∨ i = 3 := by omega
  all_goals rfl

end Ysyx.Soc
