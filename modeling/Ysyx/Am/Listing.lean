import Ysyx.Am.FetchProperties

/-! Assembly listings with local labels, and the flow of control through one that lies in
memory. -/

set_option autoImplicit false

namespace Ysyx.Am

open Rv32 (Word RegId Instr BranchOp writeGpr)
open Lib (ByteMem)

/-!
## Listings
-/

/-- A label, or an instruction that may name one. -/
inductive Item (Label : Type) where
  | label (name : Label)
  | op (op : Op)
  | branch (op : BranchOp) (rs1 rs2 : RegId) (target : Label)
  | jal (rd : RegId) (target : Label)

abbrev Listing (Label : Type) := List (Item Label)

namespace Listing

variable {Label : Type}

/-- The number of instructions before a label. -/
def index [DecidableEq Label] (name : Label) : Listing Label → Nat
  | [] => 0
  | .label other :: rest => if other = name then 0 else index name rest
  | _ :: rest => index name rest + 1

/-- From instruction `k` to instruction `target`, in bytes. -/
def distance (k target : Nat) : Word := BitVec.ofInt 32 (4 * ((target : Int) - k))

def resolve (index : Label → Nat) : Nat → Listing Label → List Op
  | _, [] => []
  | k, .label _ :: rest => resolve index k rest
  | k, .op op :: rest => op :: resolve index (k + 1) rest
  | k, .branch op rs1 rs2 target :: rest =>
      .base (.branch op rs1 rs2 (distance k (index target))) :: resolve index (k + 1) rest
  | k, .jal rd target :: rest =>
      .base (.jal rd (distance k (index target))) :: resolve index (k + 1) rest

/-- The instructions, every label replaced by its distance. -/
def ops [DecidableEq Label] (listing : Listing Label) : List Op :=
  resolve (fun name => index name listing) 0 listing

end Listing

/-!
## Flow
-/

abbrev Regs := RegId → Word

/-- Where instruction `k` lies. -/
def place (base : Word) (k : Nat) : Word := base + BitVec.ofNat 32 (4 * k)

/-- Control goes from one instruction of the code to another, and the registers from `gpr` to
`gpr'`; nothing is stored on the way. -/
inductive Goes (ops : List Op) (base : Word) (mem : ByteMem 32) (k' : Nat) (gpr' : Regs) :
    Nat → Regs → Prop where
  | refl : Goes ops base mem k' gpr' k' gpr'
  | plain {k : Nat} {gpr : Regs} {op : Op} : ops[k]? = some op → op.plain = true →
      Goes ops base mem k' gpr' (k + 1) (op.effect mem gpr) → Goes ops base mem k' gpr' k gpr
  | taken {k target : Nat} {gpr : Regs} {op : BranchOp} {rs1 rs2 : RegId} :
      ops[k]? = some (.base (.branch op rs1 rs2 (Listing.distance k target))) →
      op.taken (gpr rs1) (gpr rs2) = true → Goes ops base mem k' gpr' target gpr →
      Goes ops base mem k' gpr' k gpr
  | skip {k target : Nat} {gpr : Regs} {op : BranchOp} {rs1 rs2 : RegId} :
      ops[k]? = some (.base (.branch op rs1 rs2 (Listing.distance k target))) →
      op.taken (gpr rs1) (gpr rs2) = false → Goes ops base mem k' gpr' (k + 1) gpr →
      Goes ops base mem k' gpr' k gpr
  | jump {k target : Nat} {gpr : Regs} {rd : RegId} :
      ops[k]? = some (.base (.jal rd (Listing.distance k target))) →
      Goes ops base mem k' gpr' target (writeGpr gpr rd (place base (k + 1))) →
      Goes ops base mem k' gpr' k gpr
  | back {k target : Nat} {gpr : Regs} {rs1 : RegId} :
      ops[k]? = some (.base (.jalr 0#5 rs1 0#32)) → gpr rs1 = place base target →
      Goes ops base mem k' gpr' target (writeGpr gpr 0#5 (place base (k + 1))) →
      Goes ops base mem k' gpr' k gpr

section Flow

variable {ops : List Op} {base : Word} {mem : ByteMem 32} {k m n : Nat} {gpr gpr' gpr'' : Regs}

theorem Goes.trans (first : Goes ops base mem m gpr' k gpr)
    (second : Goes ops base mem n gpr'' m gpr') : Goes ops base mem n gpr'' k gpr := by
  induction first with
  | refl => exact second
  | plain here plain _ ih => exact .plain here plain ih
  | taken here holds _ ih => exact .taken here holds ih
  | skip here fails _ ih => exact .skip here fails ih
  | jump here _ ih => exact .jump here ih
  | back here link _ ih => exact .back here link ih

theorem place_succ (base : Word) (k : Nat) : place base k + 4#32 = place base (k + 1) := by
  rw [place, place, BitVec.add_assoc, Nat.mul_add, BitVec.ofNat_add]

theorem place_distance (base : Word) (k target : Nat) :
    place base k + Listing.distance k target = place base target := by
  have source : BitVec.ofNat 32 (4 * k) = BitVec.ofInt 32 (4 * (k : Int)) := by
    rw [← BitVec.ofInt_natCast]
    rfl
  have goal : BitVec.ofNat 32 (4 * target) = BitVec.ofInt 32 (4 * (target : Int)) := by
    rw [← BitVec.ofInt_natCast]
    rfl
  rw [place, place, Listing.distance, source, goal, BitVec.add_assoc, ← BitVec.ofInt_add]
  congr 2
  omega

theorem CodeAt.get {mem : ByteMem 32} {base : Word} {code : List Op} (here : CodeAt mem base code)
    {k : Nat} {op : Op} (found : code[k]? = some op) :
    decodeOp (mem.readLe (place base k) 4) = some op := by
  induction code generalizing base k with
  | nil => cases found
  | cons first rest ih =>
      cases k with
      | zero =>
          rw [place, Nat.mul_zero, BitVec.add_zero]
          exact here.1.trans found
      | succ k =>
          have later := ih here.2 found
          rwa [place, BitVec.add_assoc, BitVec.add_comm 4#32, ← BitVec.add_assoc,
            show base + BitVec.ofNat 32 (4 * k) = place base k from rfl, place_succ] at later

/-- The clearing of bit 0 by `jalr` does nothing to the place of an instruction. -/
theorem place_even {base : Word} (aligned : 4 ∣ base.toNat) (k : Nat) :
    (place base k + 0#32) &&& ~~~1#32 = place base k := by
  have even : (place base k).getLsbD 0 = false := by
    rw [BitVec.getLsbD, Nat.testBit_zero, decide_eq_false_iff_not, place]
    bv_omega
  rw [BitVec.add_zero, ← (Rv32.eq_clear_bit_zero_iff _).mpr even]

/-- The machine at an instruction of the code. -/
structure Reached (start : Machine) (base : Word) (k : Nat) (gpr : Regs) (machine : Machine) :
    Prop where
  runs : start.Runs (fun _ => False) machine
  pc : machine.pc = place base k
  gpr : machine.gpr = gpr
  mem : machine.mem = start.mem
  csr : machine.csr = start.csr

/-- One instruction that stores nothing. -/
theorem Reached.step {start machine : Machine} (here : Reached start base k machine.gpr machine)
    (code : CodeAt start.mem base ops) {op : Op} (found : ops[k]? = some op)
    (quiet : machine.writes op = []) (mem : (machine.step op).mem = machine.mem)
    (csr : (machine.step op).csr = machine.csr) (gpr : (machine.step op).gpr = gpr')
    (pc : (machine.step op).pc = place base m) :
    Reached start base m gpr' (machine.step op) where
  runs := by
    refine here.runs.trans (.step ?_ (by simp [quiet]))
    rw [Machine.fetch, here.pc, here.mem]
    exact code.get found
  pc := pc
  gpr := gpr
  mem := mem.trans here.mem
  csr := csr.trans here.csr

/-- What goes through the code is run by the machine. -/
theorem Goes.reached (goes : Goes ops base mem n gpr' k gpr) {start machine : Machine}
    (code : CodeAt start.mem base ops) (aligned : 4 ∣ base.toNat) (same : start.mem = mem)
    (here : Reached start base k gpr machine) :
    ∃ after, Reached start base n gpr' after := by
  induction goes generalizing machine with
  | refl => exact ⟨machine, here⟩
  | @plain k gpr op found plain _ ih =>
      obtain rfl := here.gpr
      obtain ⟨effect, next, kept, quiet⟩ := step_plain machine plain
      have csr : (machine.step op).csr = machine.csr := by
        cases op with
        | base => rfl
        | sys => cases plain
      rw [here.mem, same] at effect
      exact ih (here.step code found quiet kept csr effect
        (next.trans (here.pc ▸ place_succ base k)))
  | @taken k target gpr op rs1 rs2 found holds _ ih =>
      obtain rfl := here.gpr
      have branch := step_branch machine op rs1 rs2 (Listing.distance k target)
      have pc := congrArg Machine.pc branch
      dsimp only at pc
      rw [holds, if_pos rfl, here.pc, place_distance] at pc
      exact ih (here.step code found rfl rfl rfl rfl pc)
  | @skip k target gpr op rs1 rs2 found fails _ ih =>
      obtain rfl := here.gpr
      have branch := step_branch machine op rs1 rs2 (Listing.distance k target)
      have pc := congrArg Machine.pc branch
      dsimp only at pc
      rw [fails, if_neg Bool.false_ne_true, here.pc, place_succ] at pc
      exact ih (here.step code found rfl rfl rfl rfl pc)
  | @jump k target gpr rd found _ ih =>
      obtain rfl := here.gpr
      have link := step_jal machine rd (Listing.distance k target)
      rw [here.pc, place_succ, place_distance] at link
      exact ih (here.step code found rfl rfl rfl (congrArg Machine.gpr link :)
        (congrArg Machine.pc link :))
  | @back k target gpr rs1 found link _ ih =>
      obtain rfl := here.gpr
      have jumped := step_jalr machine 0#5 rs1 0#32
      rw [link, place_even aligned, here.pc, place_succ] at jumped
      exact ih (here.step code found rfl rfl rfl (congrArg Machine.gpr jumped :)
        (congrArg Machine.pc jumped :))

end Flow

end Ysyx.Am
