import Ysyx.Lib.Linked
import Mathlib.Data.Fintype.Basic

/-! The watchpoint pool of the debugger: two lists threaded through one array of 32
entries, and the commands `w` and `d`. -/

set_option autoImplicit false

namespace Ysyx.Nemu

open Lib (walk walkLast)

def nrWp : Nat := 32

/-- A pointer into `wp_pool`. -/
abbrev WpPtr := Fin nrWp

structure WP where
  NO : Int
  next : Option WpPtr
  e : String
  value : BitVec 32

structure WpPool where
  wpPool : WpPtr → WP
  head : Option WpPtr
  free_ : Option WpPtr

def initWpPool : WpPool where
  wpPool := fun i =>
    { NO := i
      next := if bound : i.val + 1 < nrWp then some ⟨i.val + 1, bound⟩ else none
      e := ""
      value := 0#32 }
  head := none
  free_ := some ⟨0, by decide⟩

namespace WpPool

def next (pool : WpPool) (i : WpPtr) : Option WpPtr := (pool.wpPool i).next

/-- `ptr->next = q`. -/
def setNext (pool : WpPool) (ptr : WpPtr) (q : Option WpPtr) : WpPool :=
  { pool with wpPool := Function.update pool.wpPool ptr { pool.wpPool ptr with next := q } }

/-- The text and the value of an entry. -/
def setExpr (pool : WpPool) (ptr : WpPtr) (e : String) (value : BitVec 32) : WpPool :=
  { pool with
    wpPool := Function.update pool.wpPool ptr { pool.wpPool ptr with e := e, value := value } }

/-- The turns a loop over the pool is given; one more than it has entries. -/
def turns : Nat := nrWp + 1

/-- `new_wp`, where `expr` evaluates `e` to `value`; nothing when the assertion on `free_`
fails or `e` does not fit its buffer. -/
def newWp (pool : WpPool) (e : String) (value : BitVec 32) : Option (WpPtr × WpPool) :=
  match pool.free_ with
  | none => none
  | some tmp =>
      if 32 ≤ e.length then none else
      let pool := { pool with free_ := pool.next tmp }
      let pool := pool.setNext tmp none
      let pool := pool.setExpr tmp e value
      match pool.head with
      | none => some (tmp, { pool with head := some tmp })
      | some p => (walkLast pool.next turns p).map fun p => (tmp, pool.setNext p (some tmp))

/-- Nothing when an assertion fails or `wp` is not found, so that a null pointer is used. -/
def freeWp (pool : WpPool) (wp : WpPtr) : Option WpPool :=
  match pool.head with
  | none => none
  | some head =>
      let unlinked : Option WpPool :=
        if wp = head then some { pool with head := pool.next head }
        else
          (walk pool.next (fun tmp => pool.next tmp == some wp) turns (some head)).bind fun found =>
            found.map fun tmp => pool.setNext tmp (pool.next wp)
      unlinked.map fun pool =>
        let pool := pool.setNext wp pool.free_
        { pool with free_ := some wp }.setExpr wp "" 0#32

/-- The entry with number `n`, if it is in use. -/
def deleteWp (pool : WpPool) (n : Int) : Option (Option WpPtr) :=
  walk pool.next (fun tmp => (pool.wpPool tmp).NO == n) turns pool.head

end WpPool

/-- `w e`, where the expression has the value `value` in the machine's state, and `d n`. -/
inductive WpCmd where
  | w (e : String) (value : BitVec 32)
  | d (n : Int)
  deriving DecidableEq, Repr

/-- `cmd_w` and `cmd_d`. -/
def WpPool.cmd (pool : WpPool) : WpCmd → Option WpPool
  | .w e value => (pool.newWp e value).map (·.2)
  | .d n =>
      (pool.deleteWp n).bind fun found =>
        match found with
        | none => some pool
        | some wp => pool.freeWp wp

def WpPool.cmds : List WpCmd → WpPool → Option WpPool
  | [], pool => some pool
  | cmd :: rest, pool => (pool.cmd cmd).bind (cmds rest)

/-!
## The watchpoints it is for
-/

/-- A watchpoint in use; `born` counts the watchpoints created before it. -/
structure Watchpoint where
  no : WpPtr
  e : String
  value : BitVec 32
  born : Nat
  deriving DecidableEq, Repr

/-- The watchpoints in the order of their creation, and the free numbers, last freed first. -/
structure Registry where
  active : List Watchpoint
  free : List WpPtr
  created : Nat
  deriving DecidableEq, Repr

def Registry.init : Registry := ⟨[], List.finRange nrWp, 0⟩

/-- Nothing when the pool is exhausted. -/
def Registry.cmd (registry : Registry) : WpCmd → Option Registry
  | .w e value =>
      match registry.free with
      | [] => none
      | no :: free =>
          some ⟨registry.active ++ [⟨no, e, value, registry.created⟩], free, registry.created + 1⟩
  | .d n =>
      match registry.active.find? fun watchpoint => watchpoint.no.val == n with
      | none => some registry
      | some found =>
          some { registry with
            active := registry.active.filter fun watchpoint => watchpoint.no != found.no
            free := found.no :: registry.free }

def Registry.cmds : List WpCmd → Registry → Option Registry
  | [], registry => some registry
  | cmd :: rest, registry => (registry.cmd cmd).bind (cmds rest)

end Ysyx.Nemu
