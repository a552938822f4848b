import Ysyx.Am.Gpu
import Ysyx.Soc.VgaProperties
import Ysyx.Soc.VgaRaster

/-! Drawing with the frame buffer driver: the rectangle is right, but the refresh that a call
with `sync` asks for is cancelled by its own first pixel. -/

set_option autoImplicit false

namespace Ysyx.Am

open Soc (ApbReq ApbResp Vga VgaBus Frame syncAddr vgaBusMachine vgaBusAt vgaBusAt_add VgaStage
  vgaStage_at vgaSel)

/-!
## What a call is for
-/

/-- The frame buffer word of pixel `j` in row `i` of the rectangle. -/
def FbDraw.cell (ctl : FbDraw) (i j : Nat) : Nat := (ctl.y.toNat + i) * 640 + (ctl.x.toNat + j)

def FbDraw.OnScreen (ctl : FbDraw) : Prop :=
  ctl.x.toNat + ctl.w.toNat ≤ 640 ∧ ctl.y.toNat + ctl.h.toNat ≤ 480

/-- The rectangle is drawn and nothing else, and with `sync` a refresh is pending or the scan
of a frame has started after the last store. -/
structure Drawn {sel : BitVec 32 → Bool} {ctl : FbDraw} (call : Call sel ctl) : Prop where
  pixels : ∀ i j, i < ctl.h.toNat → j < ctl.w.toNat →
    call.final.data (BitVec.ofNat 21 (ctl.cell i j)) = ctl.pixels (i * ctl.w.toNat + j)
  others : ∀ index, (∀ i j, i < ctl.h.toNat → j < ctl.w.toNat →
    index ≠ BitVec.ofNat 21 (ctl.cell i j)) → call.final.data index = (call.after 0).data index
  refresh : ctl.sync = true →
    call.final.syncReg = true ∨ ∃ k < call.cycles, call.Stored k ∧ (call.after k).Starts

/-!
## One store
-/

/-- The store changes this word of the frame buffer. -/
def Store.Writes (store : Store) (index : BitVec 21) : Prop :=
  store.addr ≠ syncAddr ∧ index = store.access.dataIndex

instance (store : Store) (index : BitVec 21) : Decidable (store.Writes index) :=
  inferInstanceAs (Decidable (_ ∧ _))

/-- The frame buffer after a store. -/
def Store.write (store : Store) (data : BitVec 21 → BitVec 32) : BitVec 21 → BitVec 32 :=
  fun index => if store.Writes index then store.data else data index

/-- An access for the store stores its data. -/
theorem write_access (frame : Frame) (store : Store) :
    (frame.write store.access).data = store.write frame.data ∧
      (frame.write store.access).syncReg =
        (decide (store.addr = syncAddr) && store.data.getLsbD 0) :=
  ⟨rfl, rfl⟩

/-!
## Sequences of stores
-/

theorem foldl_write_frame {stores : List Store} {index : BitVec 21}
    (others : ∀ store ∈ stores, ¬ store.Writes index) (data : BitVec 21 → BitVec 32) :
    stores.foldl (fun data store => store.write data) data index = data index := by
  induction stores generalizing data with
  | nil => rfl
  | cons store stores ih =>
      obtain ⟨here, later⟩ := List.forall_mem_cons.mp others
      rw [List.foldl_cons, ih later, Store.write, if_neg here]

/-- A word that is written, always with the same data, holds them. -/
theorem foldl_write_eq {stores : List Store} {index : BitVec 21} {value : BitVec 32}
    (same : ∀ store ∈ stores, store.Writes index → store.data = value)
    (written : ∃ store ∈ stores, store.Writes index) (data : BitVec 21 → BitVec 32) :
    stores.foldl (fun data store => store.write data) data index = value := by
  induction stores generalizing data with
  | nil =>
      obtain ⟨store, found, _⟩ := written
      cases found
  | cons store stores ih =>
      obtain ⟨here, later⟩ := List.forall_mem_cons.mp same
      rw [List.foldl_cons]
      by_cases again : ∃ store ∈ stores, store.Writes index
      · exact ih later again _
      · have last : store.Writes index := by
          obtain ⟨other, found, writes⟩ := written
          rcases List.mem_cons.mp found with rfl | old
          · exact writes
          · exact absurd ⟨other, old, writes⟩ again
        rw [foldl_write_frame (fun other found writes => again ⟨other, found, writes⟩),
          Store.write, if_pos last]
        exact here last

theorem foldl_write_data (frame : Frame) (stores : List Store) :
    ((stores.map Store.access).foldl Frame.write frame).data =
      stores.foldl (fun data store => store.write data) frame.data := by
  induction stores generalizing frame with
  | nil => rfl
  | cons store stores ih =>
      rw [List.map_cons, List.foldl_cons, List.foldl_cons, ih, (write_access frame store).1]

/-- The last store decides about the refresh. -/
theorem foldl_write_syncReg (frame : Frame) (front : List Store) (last : Store) :
    (((front ++ [last]).map Store.access).foldl Frame.write frame).syncReg =
      (decide (last.addr = syncAddr) && last.data.getLsbD 0) := by
  rw [List.map_append, List.foldl_append]
  exact (write_access _ last).2

/-- When the stores have been made, they are what the device has stored. -/
theorem Call.Stored.frame {sel : BitVec 32 → Bool} {ctl : FbDraw} {call : Call sel ctl} {k : Nat}
    (stored : call.Stored k) : (call.after k).frame =
      ((amGpuFbdraw ctl).map Store.access).foldl Frame.write (call.after 0).frame := by
  have stage : VgaStage sel (vgaBusAt sel call.vga call.inputs call.start) :=
    vgaStage_at call.ready call.inputs call.start
  rw [Call.after, vgaBusAt_add, (stage.run call.inputs call.start k).2, stored]
  rfl

/-!
## The stores of a call
-/

theorem mem_pixelStores {ctl : FbDraw} {store : Store} :
    store ∈ ctl.pixelStores ↔
      ∃ i j, i < ctl.h.toNat ∧ j < ctl.w.toNat ∧ store = ctl.pixelStore i j := by
  rw [FbDraw.pixelStores]
  split_ifs with empty
  · constructor
    · intro found
      cases found
    · rintro ⟨i, j, row, column, _⟩
      rcases empty with zero | zero
      · rw [zero] at column
        cases column
      · rw [zero] at row
        cases row
  · simp only [List.mem_flatMap, List.mem_map, List.mem_range]
    constructor
    · rintro ⟨i, row, j, column, rfl⟩
      exact ⟨i, j, row, column, rfl⟩
    · rintro ⟨i, j, row, column, rfl⟩
      exact ⟨i, row, j, column, rfl⟩

theorem mem_amGpuFbdraw {ctl : FbDraw} {store : Store} :
    store ∈ amGpuFbdraw ctl ↔
      store = ⟨vgaSyncAddr, if ctl.sync then 1#32 else 0#32⟩ ∨
        ∃ i j, i < ctl.h.toNat ∧ j < ctl.w.toNat ∧ store = ctl.pixelStore i j := by
  rw [amGpuFbdraw, List.mem_cons, mem_pixelStores]

section Screen

variable {ctl : FbDraw} (onScreen : ctl.OnScreen) {i j : Nat} (row : i < ctl.h.toNat)
  (column : j < ctl.w.toNat)

include onScreen row column

theorem cell_lt : ctl.cell i j < 307200 := by
  obtain ⟨across, down⟩ := onScreen
  rw [FbDraw.cell]
  omega

theorem toNat_pixelStore_addr :
    (ctl.pixelStore i j).addr.toNat = 0x21000000 + 4 * ctl.cell i j := by
  obtain ⟨across, down⟩ := onScreen
  simp only [FbDraw.pixelStore, FbDraw.cell, vgaFbAddr, width, BitVec.toNat_add, BitVec.toNat_mul,
    BitVec.toNat_ofNat]
  omega

theorem pixelStore_data : (ctl.pixelStore i j).data = ctl.pixels (i * ctl.w.toNat + j) := by
  obtain ⟨across, down⟩ := onScreen
  have product : i * ctl.w.toNat ≤ 480 * 640 := Nat.mul_le_mul (by omega) (by omega)
  rw [FbDraw.pixelStore]
  dsimp only
  congr 1
  simp only [BitVec.toNat_add, BitVec.toNat_mul, BitVec.toNat_ofNat]
  rw [Nat.mod_eq_of_lt (show i < 2 ^ 32 by omega), Nat.mod_eq_of_lt (show j < 2 ^ 32 by omega),
    Nat.mod_eq_of_lt (show i * ctl.w.toNat < 2 ^ 32 by omega)]
  exact Nat.mod_eq_of_lt (by omega)

theorem pixelStore_writes {index : BitVec 21} :
    (ctl.pixelStore i j).Writes index ↔ index = BitVec.ofNat 21 (ctl.cell i j) := by
  have addr := toNat_pixelStore_addr onScreen row column
  have bound := cell_lt onScreen row column
  have apart : (ctl.pixelStore i j).addr ≠ syncAddr := by
    intro same
    rw [same] at addr
    simp only [syncAddr, BitVec.toNat_ofNat] at addr
    omega
  have place : (ctl.pixelStore i j).access.dataIndex = BitVec.ofNat 21 (ctl.cell i j) := by
    apply BitVec.eq_of_toNat_eq
    rw [ApbReq.dataIndex, BitVec.extractLsb'_toNat,
      show (ctl.pixelStore i j).access.paddr = (ctl.pixelStore i j).addr from rfl, addr,
      BitVec.toNat_ofNat, Nat.shiftRight_eq_div_pow]
    omega
  rw [Store.Writes, place]
  exact and_iff_right apart

theorem cell_inj {i' j' : Nat} (row' : i' < ctl.h.toNat) (column' : j' < ctl.w.toNat)
    (same : BitVec.ofNat 21 (ctl.cell i j) = BitVec.ofNat 21 (ctl.cell i' j')) :
    i = i' ∧ j = j' := by
  have bound := cell_lt onScreen row column
  have bound' := cell_lt onScreen row' column'
  have cells := congrArg BitVec.toNat same
  rw [BitVec.toNat_ofNat, BitVec.toNat_ofNat, Nat.mod_eq_of_lt (by omega),
    Nat.mod_eq_of_lt (by omega)] at cells
  obtain ⟨across, down⟩ := onScreen
  rw [FbDraw.cell, FbDraw.cell] at cells
  omega

end Screen

theorem not_sync_writes {sync : BitVec 32} {index : BitVec 21} :
    ¬ (Store.mk vgaSyncAddr sync).Writes index :=
  fun writes => writes.1 (show vgaSyncAddr = syncAddr by decide)

/-- Every pixel of the rectangle is stored, the others are not. -/
theorem fbdraw_data {ctl : FbDraw} (onScreen : ctl.OnScreen) (data : BitVec 21 → BitVec 32) :
    (∀ i j, i < ctl.h.toNat → j < ctl.w.toNat →
      (amGpuFbdraw ctl).foldl (fun data store => store.write data) data
        (BitVec.ofNat 21 (ctl.cell i j)) = ctl.pixels (i * ctl.w.toNat + j)) ∧
    ∀ index, (∀ i j, i < ctl.h.toNat → j < ctl.w.toNat →
      index ≠ BitVec.ofNat 21 (ctl.cell i j)) →
      (amGpuFbdraw ctl).foldl (fun data store => store.write data) data index = data index := by
  constructor
  · intro i j row column
    apply foldl_write_eq
    · intro store found writes
      rcases mem_amGpuFbdraw.mp found with rfl | ⟨i', j', row', column', rfl⟩
      · exact absurd writes not_sync_writes
      · have cells := (pixelStore_writes onScreen row' column').mp writes
        obtain ⟨rfl, rfl⟩ := cell_inj onScreen row column row' column' cells
        exact pixelStore_data onScreen row column
    · exact ⟨ctl.pixelStore i j, mem_amGpuFbdraw.mpr (.inr ⟨i, j, row, column, rfl⟩),
        (pixelStore_writes onScreen row column).mpr rfl⟩
  · intro index outside
    apply foldl_write_frame
    intro store found writes
    rcases mem_amGpuFbdraw.mp found with rfl | ⟨i, j, row, column, rfl⟩
    · exact not_sync_writes writes
    · exact outside i j row column ((pixelStore_writes onScreen row column).mp writes)

/-- The last store of a call that draws is a pixel. -/
theorem exists_last_pixel {ctl : FbDraw} (onScreen : ctl.OnScreen) (wide : ctl.w ≠ 0#32)
    (high : ctl.h ≠ 0#32) :
    ∃ front last, amGpuFbdraw ctl = front ++ [last] ∧ last.addr ≠ syncAddr := by
  have columns : 0 < ctl.w.toNat := Nat.pos_of_ne_zero fun zero =>
    wide (BitVec.eq_of_toNat_eq zero)
  have rows : 0 < ctl.h.toNat := Nat.pos_of_ne_zero fun zero =>
    high (BitVec.eq_of_toNat_eq zero)
  have first : ctl.pixelStore 0 0 ∈ ctl.pixelStores :=
    mem_pixelStores.mpr ⟨0, 0, rows, columns, rfl⟩
  rcases List.eq_nil_or_concat ctl.pixelStores with none | ⟨front, last, split⟩
  · rw [none] at first
    cases first
  · rw [List.concat_eq_append] at split
    have found : last ∈ ctl.pixelStores := by
      rw [split]
      exact List.mem_append_right _ (List.mem_singleton_self last)
    obtain ⟨i, j, row, column, rfl⟩ := mem_pixelStores.mp found
    refine ⟨⟨vgaSyncAddr, if ctl.sync then 1#32 else 0#32⟩ :: front, ctl.pixelStore i j, ?_, ?_⟩
    · rw [amGpuFbdraw, split]
      rfl
    · exact ((pixelStore_writes onScreen row column).mpr rfl).1

/-- The stores are in the range of the VGA. -/
theorem vgaSel_of_mem {ctl : FbDraw} (onScreen : ctl.OnScreen) {store : Store}
    (found : store ∈ amGpuFbdraw ctl) : vgaSel store.addr = true := by
  rcases mem_amGpuFbdraw.mp found with rfl | ⟨i, j, row, column, rfl⟩
  · show vgaSel vgaSyncAddr = true
    decide
  · have addr := toNat_pixelStore_addr onScreen row column
    have bound := cell_lt onScreen row column
    simp only [vgaSel, Bool.and_eq_true, decide_eq_true_eq, BitVec.le_def, BitVec.lt_def,
      BitVec.toNat_ofNat, addr]
    omega

theorem events_storeInputs {sel : BitVec 32 → Bool} {bus : VgaBus} {stores : List Store}
    (rest : bus.AtRest) (selected : ∀ store ∈ stores, sel store.addr = true) (other : ApbResp) :
    (vgaBusMachine sel).events (storeInputs stores other) 0 bus (7 * stores.length) =
      stores.map Store.access := by
  have want : ∀ k (bound : k < (stores.map Store.request).length),
      (storeInputs stores other (0 + 7 * k)).want = (stores.map Store.request)[k] := by
    intro k bound
    rw [Nat.zero_add, storeInputs, Nat.mul_div_cancel_left k (by decide)]
    exact (List.getElem_eq_getD _).symm
  have writes : ∀ req ∈ stores.map Store.request,
      req.psel = true ∧ req.pwrite = true ∧ sel req.paddr = true := by
    intro req found
    obtain ⟨store, listed, rfl⟩ := List.mem_map.mp found
    exact ⟨rfl, rfl, selected store listed⟩
  have made := (rest.transfers want writes).2
  rw [List.length_map, List.map_map] at made
  exact made

/-- A call whose stores follow each other as fast as the delayer lets them. -/
def Call.backToBack {ctl : FbDraw} (onScreen : ctl.OnScreen) (vga : Vga)
    (ready : vga.apbState = .idle) (other : ApbResp) : Call vgaSel ctl where
  vga := vga
  ready := ready
  inputs := storeInputs (amGpuFbdraw ctl) other
  start := 0
  cycles := 7 * (amGpuFbdraw ctl).length
  stores :=
    have rest : (VgaBus.reset vga).AtRest := ⟨rfl, rfl, rfl, ready⟩
    events_storeInputs rest (fun _ found => vgaSel_of_mem onScreen found) other

theorem not_drawn {sel : BitVec 32 → Bool} {ctl : FbDraw} (call : Call sel ctl)
    (onScreen : ctl.OnScreen) (sync : ctl.sync = true) (wide : ctl.w ≠ 0#32)
    (high : ctl.h ≠ 0#32) : ¬ Drawn call := by
  obtain ⟨front, last, split, pixel⟩ := exists_last_pixel onScreen wide high
  have clear : ∀ k, call.Stored k → (call.after k).syncReg = false := by
    intro k stored
    have syncReg := congrArg Frame.syncReg stored.frame
    rw [split, foldl_write_syncReg, decide_eq_false pixel, Bool.false_and] at syncReg
    exact syncReg
  intro drawn
  rcases drawn.refresh sync with pending | ⟨k, _, stored, starts⟩
  · rw [Call.final, clear call.cycles call.stores] at pending
    cases pending
  · have set := starts.2
    rw [clear k stored] at set
    cases set

/-- In every call the rectangle is drawn, and what `sync` promises holds unless it is set and a
pixel follows it; then it fails in every call. -/
theorem fbdraw_iff {sel : BitVec 32 → Bool} {ctl : FbDraw} (call : Call sel ctl)
    (onScreen : ctl.OnScreen) :
    Drawn call ↔ ctl.sync = false ∨ ctl.w = 0#32 ∨ ctl.h = 0#32 := by
  constructor
  · intro drawn
    by_contra neither
    simp only [not_or, Bool.not_eq_false] at neither
    exact not_drawn call onScreen neither.1 neither.2.1 neither.2.2 drawn
  · intro condition
    have frame := Call.Stored.frame (k := call.cycles) call.stores
    obtain ⟨pixels, others⟩ := fbdraw_data onScreen (call.after 0).data
    have data : call.final.data =
        (amGpuFbdraw ctl).foldl (fun data store => store.write data) (call.after 0).data :=
      (congrArg Frame.data frame).trans (foldl_write_data _ _)
    rw [← data] at pixels others
    refine ⟨pixels, others, fun sync => .inl ?_⟩
    have empty : ctl.w = 0#32 ∨ ctl.h = 0#32 := condition.resolve_left (by simp [sync])
    have only : amGpuFbdraw ctl = [] ++ [⟨vgaSyncAddr, 1#32⟩] := by
      rw [amGpuFbdraw, FbDraw.pixelStores, if_pos empty, if_pos sync]
      rfl
    have syncReg := congrArg Frame.syncReg frame
    rw [only, foldl_write_syncReg] at syncReg
    exact syncReg

def onePixel (sync : Bool) : FbDraw := ⟨253#32, 0#32, fun _ => 0xff#32, 1#32, 1#32, sync⟩

theorem onePixel_onScreen (sync : Bool) : (onePixel sync).OnScreen := by
  cases sync <;> exact ⟨by decide, by decide⟩

/-- One pixel drawn, the first thing after reset. -/
def onePixelCall (sync : Bool) : Call vgaSel (onePixel sync) :=
  .backToBack (onePixel_onScreen sync) Vga.reset rfl ⟨false, 0#32, false⟩

theorem fbdraw_pixel : Drawn (onePixelCall false) :=
  (fbdraw_iff (onePixelCall false) (onePixel_onScreen false)).mpr (.inl rfl)

theorem fbdraw_sync_fails :
    ¬ ∀ (ctl : FbDraw) (call : Call vgaSel ctl), ctl.OnScreen → Drawn call := by
  intro always
  have onScreen := onePixel_onScreen true
  exact not_drawn (onePixelCall true) onScreen rfl (by decide) (by decide) (always _ _ onScreen)

-- A scan starts in the cycle after the sync store, before the pixel; at the end nothing is pending.
example : ((onePixelCall true).after 2).Starts ∧ (onePixelCall true).final.syncReg = false :=
  ⟨⟨by decide +kernel, by decide +kernel⟩, by decide +kernel⟩

end Ysyx.Am
