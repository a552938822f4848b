import Ysyx.Rv32.Instr
import Ysyx.Lib.ByteMem
import Mathlib.Tactic.SplitIfs

/-! Guest memory of NEMU: `memory/paddr.c`, `memory/vaddr.c` and
`memory/host.h`, for the native build, the shared-object build used as the
reference of differential testing, and the latter with `CONFIG_YSYXSOC`. -/

set_option autoImplicit false

namespace Ysyx.Nemu

open Rv32 (Word RegId Byte)
open Lib (ByteMem leWord)

inductive Build where
  | native
  | share
  | shareYsyxsoc
  deriving DecidableEq, Repr

structure Config where
  build : Build
  /-- `CONFIG_RT_CHECK`: run-time assertions are compiled in. -/
  rtCheck : Bool
  deriving DecidableEq, Repr

/-- Ways in which an execution stops or leaves what C defines. -/
inductive Fault where
  /-- `out_of_bound`, or a device access that never reaches `pmem`. -/
  | outOfBound
  /-- An access past the end of a host array. -/
  | hostArray
  | assertFail
  | csrArray
  /-- Integer division that C leaves undefined and the host traps. -/
  | division
  | nemuTrap
  | invalidInst
  deriving DecidableEq, Repr

/-- The host arrays that back guest memory. -/
inductive Region where
  | pmem | mrom | sram | flash | psram | sdram
  deriving DecidableEq, Repr

def mbase : Nat := 0x80000000
def msize : Nat := 0x8000000

def Region.size : Region → Nat
  | .pmem => msize
  | .mrom => 4 * 1024
  | .sram => 8 * 1024
  | .flash => 16 * 1024 * 1024
  | .psram => 4 * 1024 * 1024
  | .sdram => 64 * 1024 * 1024

abbrev HostMem := Region → Nat → Byte

/-- A guest address as an array and an offset; the offset is a C pointer
difference and may be negative. -/
def guestToHost (build : Build) (paddr : Word) : Except Fault (Region × Int) :=
  let a := paddr.toNat
  match build with
  | .native | .share => .ok (.pmem, (a : Int) - mbase)
  | .shareYsyxsoc =>
      if 0x0f000000 ≤ a ∧ a ≤ 0x0fffffff then .ok (.sram, (a : Int) - 0x0f000000) else
      if 0x20000000 ≤ a ∧ a ≤ 0x20000fff then .ok (.mrom, (a : Int) - 0x20000000) else
      if 0x30000000 ≤ a ∧ a ≤ 0x3fffffff then .ok (.flash, (a : Int) - 0x30000000) else
      if 0x80000000 ≤ a ∧ a ≤ 0x9fffffff then .ok (.psram, (a : Int) - 0x80000000) else
      if 0xa0000000 ≤ a ∧ a ≤ 0xbfffffff then .ok (.sdram, (a : Int) - 0xa0000000)
      else .error .outOfBound

/-- `host_read` and `host_write` accept lengths 1, 2 and 4 only. -/
def validLen (len : Nat) : Bool := len == 1 || len == 2 || len == 4

def inArray (region : Region) (offset : Int) (len : Nat) : Prop :=
  0 ≤ offset ∧ offset + len ≤ region.size

instance (region : Region) (offset : Int) (len : Nat) : Decidable (inArray region offset len) :=
  inferInstanceAs (Decidable (_ ∧ _))

def hostRead (cfg : Config) (mem : HostMem) (at_ : Region × Int) (len : Nat) : Except Fault Word :=
  if validLen len then
    if inArray at_.1 at_.2 len then
      .ok (leWord (fun i => mem at_.1 (at_.2.toNat + i)) len)
    else .error .hostArray
  else if cfg.rtCheck then .error .assertFail else .ok 0#32

/-- The little-endian store `*(uintN_t *)addr = data`. -/
def hostStore (mem : HostMem) (at_ : Region × Int) (len : Nat) (data : Word) : HostMem :=
  fun region j =>
    if region = at_.1 ∧ at_.2.toNat ≤ j ∧ j < at_.2.toNat + len then
      data.extractLsb' (8 * (j - at_.2.toNat)) 8
    else mem region j

def hostWrite (cfg : Config) (mem : HostMem) (at_ : Region × Int) (len : Nat) (data : Word) :
    Except Fault HostMem :=
  if validLen len then
    if inArray at_.1 at_.2 len then
      .ok (hostStore mem at_ len data)
    else .error .hostArray
  else if cfg.rtCheck then .error .assertFail else .ok mem

def inPmem (addr : Word) : Bool := (addr - BitVec.ofNat 32 mbase).toNat < msize

/-- The native build checks `in_pmem`; a shared-object build does not. -/
def paddrCheck (build : Build) (addr : Word) : Bool :=
  match build with
  | .native => inPmem addr
  | .share | .shareYsyxsoc => true

def paddrRead (cfg : Config) (mem : HostMem) (addr : Word) (len : Nat) : Except Fault Word :=
  if paddrCheck cfg.build addr then
    (guestToHost cfg.build addr).bind fun at_ => hostRead cfg mem at_ len
  else .error .outOfBound

def paddrWrite (cfg : Config) (mem : HostMem) (addr : Word) (len : Nat) (data : Word) :
    Except Fault HostMem :=
  if paddrCheck cfg.build addr then
    (guestToHost cfg.build addr).bind fun at_ => hostWrite cfg mem at_ len data
  else .error .outOfBound

def vaddrIfetch (cfg : Config) (mem : HostMem) (addr : Word) (len : Nat) : Except Fault Word :=
  paddrRead cfg mem addr len

def vaddrRead (cfg : Config) (mem : HostMem) (addr : Word) (len : Nat) : Except Fault Word :=
  paddrRead cfg mem addr len

def vaddrWrite (cfg : Config) (mem : HostMem) (addr : Word) (len : Nat) (data : Word) :
    Except Fault HostMem :=
  paddrWrite cfg mem addr len data

/-!
## Guest view
-/

/-- The byte the guest sees at an address; addresses without backing read zero. -/
def guestView (build : Build) (mem : HostMem) : ByteMem 32 := fun addr =>
  match guestToHost build addr with
  | .ok (region, offset) => if 0 ≤ offset then mem region offset.toNat else 0#8
  | .error _ => 0#8

/-- The access lies in ordinary memory: inside one backing array. -/
def Backed (build : Build) (addr : Word) (len : Nat) : Prop :=
  ∃ region offset, guestToHost build addr = .ok (region, offset) ∧ inArray region offset len

theorem guestToHost_injective {build : Build} {left right : Word} {at_ : Region × Int}
    (leftAt : guestToHost build left = .ok at_) (rightAt : guestToHost build right = .ok at_) :
    left = right := by
  apply BitVec.eq_of_toNat_eq
  rcases at_ with ⟨region, offset⟩
  cases build
  case native | share =>
    simp only [guestToHost, Except.ok.injEq, Prod.mk.injEq] at leftAt rightAt
    omega
  case shareYsyxsoc =>
    simp only [guestToHost] at leftAt rightAt
    split_ifs at leftAt <;> split_ifs at rightAt <;>
      simp only [Except.ok.injEq, Prod.mk.injEq] at leftAt rightAt <;>
      first
        | omega
        | (obtain ⟨rfl, _⟩ := leftAt; simp at rightAt)

private theorem toNat_add_of_lt (addr : Word) (i : Nat) (fits : addr.toNat + i < 2 ^ 32) :
    (addr + BitVec.ofNat 32 i).toNat = addr.toNat + i := by
  rw [BitVec.toNat_add, BitVec.toNat_ofNat, Nat.mod_eq_of_lt (show i < 2 ^ 32 by omega),
    Nat.mod_eq_of_lt fits]

/-- Inside a backing array consecutive guest bytes are consecutive host bytes. -/
theorem guestToHost_add {build : Build} {addr : Word} {region : Region} {offset : Int} {len i : Nat}
    (at_ : guestToHost build addr = .ok (region, offset)) (within : inArray region offset len)
    (bound : i < len) :
    guestToHost build (addr + BitVec.ofNat 32 i) = .ok (region, offset + i) := by
  obtain ⟨nonneg, fits⟩ := within
  cases build
  case native | share =>
    simp only [guestToHost, Except.ok.injEq, Prod.mk.injEq] at at_
    obtain ⟨rfl, rfl⟩ := at_
    simp only [Region.size, msize, mbase] at fits nonneg
    have sum := toNat_add_of_lt addr i (by omega)
    simp only [guestToHost, sum, Except.ok.injEq, Prod.mk.injEq, true_and, Nat.cast_add]
    omega
  case shareYsyxsoc =>
    simp only [guestToHost] at at_
    split_ifs at at_ <;> simp only [Except.ok.injEq, Prod.mk.injEq] at at_ <;>
      obtain ⟨rfl, rfl⟩ := at_ <;> simp only [Region.size] at fits <;>
      (have sum := toNat_add_of_lt addr i (by omega)
       simp only [guestToHost, sum]
       split_ifs <;> first
         | omega
         | (simp only [Except.ok.injEq, Prod.mk.injEq, true_and]; omega))

theorem Backed.guestView {build : Build} {mem : HostMem} {addr : Word} {region : Region}
    {offset : Int} {len i : Nat} (at_ : guestToHost build addr = .ok (region, offset))
    (within : inArray region offset len) (bound : i < len) :
    guestView build mem (addr + BitVec.ofNat 32 i) = mem region (offset.toNat + i) := by
  have nonneg := within.1
  have here : (0 : Int) ≤ offset + i := by omega
  have index : (offset + (i : Int)).toNat = offset.toNat + i := by omega
  simp [Nemu.guestView, guestToHost_add at_ within bound, here, index]

/-- Access rights of the native build follow from the backing. -/
theorem Backed.paddrCheck {build : Build} {addr : Word} {len : Nat} (positive : 0 < len)
    (backed : Backed build addr len) : paddrCheck build addr = true := by
  obtain ⟨region, offset, at_, nonneg, fits⟩ := backed
  cases build
  case share | shareYsyxsoc => rfl
  case native =>
    simp only [guestToHost, Except.ok.injEq, Prod.mk.injEq] at at_
    obtain ⟨rfl, rfl⟩ := at_
    simp only [Region.size, msize, mbase] at fits nonneg
    simp only [Nemu.paddrCheck, inPmem, BitVec.toNat_sub, mbase, msize]
    have := addr.isLt
    simp
    omega

/-- A read of ordinary memory returns the guest's bytes, little endian. -/
theorem paddrRead_of_backed {cfg : Config} {mem : HostMem} {addr : Word} {len : Nat}
    (valid : validLen len = true) (backed : Backed cfg.build addr len) :
    paddrRead cfg mem addr len = .ok ((guestView cfg.build mem).readLe addr len) := by
  have positive : 0 < len := by
    rcases Nat.eq_zero_or_pos len with rfl | positive
    · simp [validLen] at valid
    · exact positive
  have allowed := backed.paddrCheck positive
  obtain ⟨region, offset, at_, within⟩ := backed
  rw [paddrRead, if_pos allowed, at_]
  simp only [Except.bind, hostRead, valid, within, ↓reduceIte]
  rw [ByteMem.readLe_eq_leWord fun i bound => Backed.guestView at_ within bound]

/-- A host byte outside the written range belongs to a guest byte outside it. -/
private theorem not_covered_of_ne {build : Build} {addr x : Word} {region : Region} {offset : Int}
    {at_ : Region × Int} {len : Nat} (start : guestToHost build addr = .ok (region, offset))
    (within : inArray region offset len) (found : guestToHost build x = .ok at_)
    (outside : ¬ (x - addr).toNat < len) (nonneg : 0 ≤ at_.2) :
    ¬ (at_.1 = region ∧ offset.toNat ≤ at_.2.toNat ∧ at_.2.toNat < offset.toNat + len) := by
  rintro ⟨same, low, high⟩
  have lowest := within.1
  obtain ⟨i, index⟩ := Nat.exists_eq_add_of_le low
  have bound : i < len := by omega
  have reached := guestToHost_add start within bound
  have sameAt : at_ = (region, offset + (i : Int)) := by
    apply Prod.ext same
    change at_.2 = offset + (i : Int)
    omega
  rw [sameAt] at found
  have address := guestToHost_injective found reached
  apply outside
  rw [address, BitVec.add_comm, BitVec.add_sub_cancel, BitVec.toNat_ofNat]
  exact Nat.lt_of_le_of_lt (Nat.mod_le _ _) bound

/-- A write of ordinary memory changes exactly the guest bytes it covers. -/
theorem paddrWrite_of_backed {cfg : Config} {mem : HostMem} {addr data : Word} {len : Nat}
    (valid : validLen len = true) (backed : Backed cfg.build addr len) :
    ∃ next, paddrWrite cfg mem addr len data = .ok next ∧
      guestView cfg.build next = (guestView cfg.build mem).writeLe addr len data := by
  have positive : 0 < len := by
    rcases Nat.eq_zero_or_pos len with rfl | positive
    · simp [validLen] at valid
    · exact positive
  have allowed := backed.paddrCheck positive
  obtain ⟨region, offset, start, within⟩ := backed
  have stored : paddrWrite cfg mem addr len data =
      .ok (hostStore mem (region, offset) len data) := by
    rw [paddrWrite, if_pos allowed, start]
    simp only [Except.bind, hostWrite, valid, within, ↓reduceIte]
  refine ⟨_, stored, ?_⟩
  funext x
  by_cases covered : (x - addr).toNat < len
  · have address : x = addr + BitVec.ofNat 32 (x - addr).toNat := by
      rw [BitVec.ofNat_toNat, BitVec.setWidth_eq, BitVec.add_comm, BitVec.sub_add_cancel]
    rw [ByteMem.writeLe, if_pos covered]
    conv_lhs => rw [address]
    rw [Backed.guestView start within covered]
    simp only [hostStore, Nat.le_add_right, Nat.add_lt_add_iff_left, covered, and_self,
      ↓reduceIte, Nat.add_sub_cancel_left]
  · rw [ByteMem.writeLe_apply_of_not_covered covered]
    unfold guestView hostStore
    cases found : guestToHost cfg.build x with
    | error fault => rfl
    | ok at_ =>
        dsimp only
        split_ifs with nonneg clash
        · exact absurd clash (not_covered_of_ne start within found covered nonneg)
        · rfl
        · rfl

end Ysyx.Nemu
