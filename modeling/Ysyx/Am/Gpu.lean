import Ysyx.Soc.VgaBus

/-! The frame buffer driver of the abstract machine, `riscv/ysyxsoc/gpu.c`, and its calls on the
bus of the VGA device. -/

set_option autoImplicit false

namespace Ysyx.Am

open Soc (ApbReq ApbResp Vga VgaInput vgaBusMachine vgaBusAt)

def vgaFbAddr : BitVec 32 := 0x21000000#32
def vgaCtlAddr : BitVec 32 := 0x211FFFF0#32
def vgaSyncAddr : BitVec 32 := vgaCtlAddr + 4#32

/-- `Width` of the screen. -/
def width : BitVec 32 := 640#32

/-- A store of a word to the device. -/
structure Store where
  addr : BitVec 32
  data : BitVec 32
  deriving DecidableEq, Repr

/-- `AM_GPU_FBDRAW_T`, with the words that `pixels` points to. -/
structure FbDraw where
  x : BitVec 32
  y : BitVec 32
  pixels : Nat → BitVec 32
  w : BitVec 32
  h : BitVec 32
  sync : Bool

/-- `fb[(i+y)*Width + x + j] = pixels[i*w + j]` -/
def FbDraw.pixelStore (ctl : FbDraw) (i j : Nat) : Store where
  addr := vgaFbAddr +
    4#32 * ((BitVec.ofNat 32 i + ctl.y) * width + ctl.x + BitVec.ofNat 32 j)
  data := ctl.pixels (BitVec.ofNat 32 i * ctl.w + BitVec.ofNat 32 j).toNat

/-- The stores of the two loops, behind the check for an empty rectangle. -/
def FbDraw.pixelStores (ctl : FbDraw) : List Store :=
  if ctl.w = 0#32 ∨ ctl.h = 0#32 then []
  else (List.range ctl.h.toNat).flatMap fun i =>
    (List.range ctl.w.toNat).map fun j => ctl.pixelStore i j

/-- The stores of `__am_gpu_fbdraw`, in order. -/
def amGpuFbdraw (ctl : FbDraw) : List Store :=
  ⟨vgaSyncAddr, if ctl.sync then 1#32 else 0#32⟩ :: ctl.pixelStores

/-!
## A call
-/

/-- What the master of the bus drives for a store. -/
def Store.request (store : Store) : ApbReq := ⟨store.addr, true, false, true, store.data, 15#4⟩

/-- The access phase of its transfer. -/
def Store.access (store : Store) : ApbReq := { store.request with penable := true }

/-- A call is a stretch of a run of the bus, from any frame buffer and raster position, in which
the VGA is accessed for the stores and for nothing else. Transfers to other devices lie where
they like; the stretch ends with the last access or in any cycle after it. -/
structure Call (sel : BitVec 32 → Bool) (ctl : FbDraw) where
  vga : Vga
  ready : vga.apbState = .idle
  inputs : Nat → VgaInput
  start : Nat
  cycles : Nat
  stores : (vgaBusMachine sel).events inputs start (vgaBusAt sel vga inputs start) cycles =
    (amGpuFbdraw ctl).map Store.access

namespace Call

variable {sel : BitVec 32 → Bool} {ctl : FbDraw} (call : Call sel ctl)

/-- The device after `k` cycles of the call. -/
def after (k : Nat) : Vga := (vgaBusAt sel call.vga call.inputs (call.start + k)).vga

/-- The device when the call has returned. -/
def final : Vga := call.after call.cycles

/-- The last pixel has been written before cycle `k`. -/
def Stored (k : Nat) : Prop :=
  (vgaBusMachine sel).events call.inputs call.start (vgaBusAt sel call.vga call.inputs call.start)
    k = (amGpuFbdraw ctl).map Store.access

end Call

/-- A master that makes the stores of a call back to back. -/
def storeInputs (stores : List Store) (other : ApbResp) (n : Nat) : VgaInput where
  want := (stores.map Store.request).getD (n / 7) ⟨0#32, false, false, false, 0#32, 0#4⟩
  other := other

end Ysyx.Am
