import Ysyx.Nemu.Expr

/-! The expressions of the debugger as C reads them, and the trees in which `eval` takes a
range apart. -/

set_option autoImplicit false

namespace Ysyx.Nemu.Expr

open Rv32 (Word)

inductive UnaryOp where
  | pos | neg | deref
  deriving DecidableEq, Repr

inductive BinaryOp where
  | add | sub | mul | div | eq | ne | and | or
  deriving DecidableEq, Repr

def UnaryOp.token : UnaryOp → Token
  | .pos => .pos
  | .neg => .neg
  | .deref => .deref

def BinaryOp.token : BinaryOp → Token
  | .add => .plus
  | .sub => .minus
  | .mul => .star
  | .div => .slash
  | .eq => .eq
  | .ne => .noeq
  | .and => .and
  | .or => .or

/-- The precedence level of C, the tightest first; primaries have 0 and prefixes 2. -/
def BinaryOp.level : BinaryOp → Nat
  | .mul | .div => 3
  | .add | .sub => 4
  | .eq | .ne => 5
  | .and => 6
  | .or => 7

/-- A parse tree, with its parentheses. -/
inductive Tree where
  | num (str : List Char)
  | hexnum (str : List Char)
  | reg (str : List Char)
  | paren (inner : Tree)
  | unary (op : UnaryOp) (rest : Tree)
  | binary (op : BinaryOp) (left right : Tree)
  deriving DecidableEq, Repr

namespace Tree

def tokens : Tree → List Token
  | num str => [.num str]
  | hexnum str => [.hexnum str]
  | reg str => [.reg str]
  | paren inner => .lparen :: inner.tokens ++ [.rparen]
  | unary op rest => op.token :: rest.tokens
  | binary op left right => left.tokens ++ op.token :: right.tokens

def level : Tree → Nat
  | num _ | hexnum _ | reg _ | paren _ => 0
  | unary _ _ => 2
  | binary op _ _ => op.level

/-- The tree is the parse of its tokens in C: prefixes bind tightest and every binary
operator associates to the left. -/
def WellFormed : Tree → Prop
  | num _ | hexnum _ | reg _ => True
  | paren inner => inner.WellFormed
  | unary _ rest => rest.WellFormed ∧ rest.level ≤ 2
  | binary op left right =>
      left.WellFormed ∧ right.WellFormed ∧ left.level ≤ op.level ∧ right.level < op.level

instance decidableWellFormed : ∀ t : Tree, Decidable t.WellFormed
  | num _ | hexnum _ | reg _ => .isTrue trivial
  | paren inner => decidableWellFormed inner
  | unary _ rest =>
      haveI := decidableWellFormed rest
      inferInstanceAs (Decidable (_ ∧ _))
  | binary _ left right =>
      haveI := decidableWellFormed left
      haveI := decidableWellFormed right
      inferInstanceAs (Decidable (_ ∧ _))

end Tree

/-!
## Values
-/

variable {Mem : Type}

def UnaryOp.value (m : Machine Mem) (op : UnaryOp) (x : Word) (mem : Mem) : Option (Word × Mem) :=
  match op with
  | .pos => some (x, mem)
  | .neg => some (-x, mem)
  | .deref => m.vaddrRead x mem

/-- Nothing for a division by zero. -/
def BinaryOp.value (op : BinaryOp) (x y : Word) : Option Word :=
  match op with
  | .add => some (x + y)
  | .sub => some (x - y)
  | .mul => some (x * y)
  | .div => if y = 0 then none else some (x / y)
  | .eq => some (if x = y then 1 else 0)
  | .ne => some (if x = y then 0 else 1)
  | .and => some (if x = 0 ∨ y = 0 then 0 else 1)
  | .or => some (if x = 0 ∧ y = 0 then 0 else 1)

/-- The value of a tree modulo 2^32, operands from left to right; nothing when a divisor is
zero, an address is not readable or a register is not known. -/
def Tree.value (m : Machine Mem) : Tree → Mem → Option (Word × Mem)
  | num str, mem => some (BitVec.ofNat 32 (digitsValue 10 str), mem)
  | hexnum str, mem => some (BitVec.ofNat 32 (digitsValue 16 (str.drop 2)), mem)
  | reg str, mem => (lookup m.cpu (str.drop 1)).map fun value => (value, mem)
  | paren inner, mem => inner.value m mem
  | unary op rest, mem => (rest.value m mem).bind fun (x, mem) => op.value m x mem
  | binary op left right, mem =>
      (left.value m mem).bind fun (x, mem) =>
        (right.value m mem).bind fun (y, mem) => (op.value x y).map fun value => (value, mem)

/-- A literal of the grammar is below 2^32 and a register is one of the table or `pc`. -/
def Token.Literal : Token → Prop
  | .num str => str ≠ [] ∧ (∀ c ∈ str, c ∈ decDigits) ∧ digitsValue 10 str < 2 ^ 32
  | .hexnum str => ∃ x digits, str = '0' :: x :: digits ∧ x ∈ ['x', 'X'] ∧ digits ≠ [] ∧
      (∀ c ∈ digits, c ∈ hexDigits) ∧ digitsValue 16 digits < 2 ^ 32
  | .reg str => ∃ name, str = '$' :: name ∧ (name ∈ regs ∨ name = ['p', 'c'])
  | _ => True

/-!
## Groupings
-/

/-- How `eval` takes a range apart: `hole` where it finds no value, and before a prefix
operator the tokens it skips. -/
inductive Grouping where
  | hole
  | operand (tok : Token)
  | unary (skipped : List Token) (op : UnaryOp) (rest : Grouping)
  | binary (op : BinaryOp) (left right : Grouping)
  deriving DecidableEq, Repr

def Grouping.run (m : Machine Mem) : Grouping → Mem → Except Stop (Result Mem)
  | hole, mem => .ok ⟨0, [false], mem⟩
  | operand tok, mem => .ok (evalToken m tok mem)
  | unary _ op rest, mem => do
      let right ← rest.run m mem
      evalOp m op.token 0 right.val right.stores right.mem
  | binary op left right, mem => do
      let left ← left.run m mem
      let right ← right.run m left.mem
      evalOp m op.token left.val right.val (left.stores ++ right.stores) right.mem

def isOperand : Token → Bool
  | .hexnum _ | .num _ | .reg _ => true
  | _ => false

def Token.unaryOp : Token → Option UnaryOp
  | .pos => some .pos
  | .neg => some .neg
  | .deref => some .deref
  | _ => none

def Token.binaryOp : Token → Option BinaryOp
  | .plus => some .add
  | .minus => some .sub
  | .star => some .mul
  | .slash => some .div
  | .eq => some .eq
  | .noeq => some .ne
  | .and => some .and
  | .or => some .or
  | _ => none

def grouping (range : List Token) : Grouping :=
  match range with
  | [] => .hole
  | [tok] => if isOperand tok then .operand tok else .hole
  | first :: second :: rest =>
      let range := first :: second :: rest
      if checkParentheses range then grouping range.tail.dropLast
      else match _found : dominantOp range with
        | none => .hole
        | some op =>
            let tok := range.getD op .rparen
            match tok.unaryOp, tok.binaryOp with
            | some unaryOp, _ => .unary (range.take op) unaryOp (grouping (range.drop (op + 1)))
            | none, some binaryOp =>
                .binary binaryOp (grouping (range.take op)) (grouping (range.drop (op + 1)))
            | none, none => .hole
termination_by range.length
decreasing_by
  · simp only [List.length_dropLast, List.length_tail, List.length_cons]
    omega
  · have := dominantOp_lt _found
    simp only [List.length_drop, List.length_cons]
    omega
  · have := dominantOp_lt _found
    simp only [range, List.length_take, List.length_cons] at this ⊢
    omega
  · have := dominantOp_lt _found
    simp only [List.length_drop, List.length_cons]
    omega

/-- The prefix operators a tree begins with. -/
def Tree.leading : Tree → List UnaryOp
  | unary op rest => op :: rest.leading
  | binary _ left _ => left.leading
  | num _ | hexnum _ | reg _ | paren _ => []

/-- The tokens after them. -/
def Tree.body : Tree → List Token
  | unary _ rest => rest.body
  | binary op left right => left.body ++ op.token :: right.tokens
  | num str => [.num str]
  | hexnum str => [.hexnum str]
  | reg str => [.reg str]
  | paren inner => .lparen :: inner.tokens ++ [.rparen]

/-- Prefix operators over all that follows them. -/
def Grouping.under (ops : List UnaryOp) (rest : Grouping) : Grouping :=
  ops.foldr (Grouping.unary []) rest

/-- The grouping of a tree's tokens after the prefix operators it begins with. -/
def Tree.core : Tree → Grouping
  | num str => .operand (.num str)
  | hexnum str => .operand (.hexnum str)
  | reg str => .operand (.reg str)
  | paren inner => .under inner.leading inner.core
  | unary _ rest => rest.core
  | binary op left right => .binary op left.core (.under right.leading right.core)

/-- The grouping of a parse tree's tokens: a prefix operator at the front of a range takes
the whole rest of the range. -/
def Tree.group (t : Tree) : Grouping := .under t.leading t.core

/-- The tree itself as a grouping. -/
def Tree.shape : Tree → Grouping
  | num str => .operand (.num str)
  | hexnum str => .operand (.hexnum str)
  | reg str => .operand (.reg str)
  | paren inner => inner.shape
  | unary op rest => .unary [] op rest.shape
  | binary op left right => .binary op left.shape right.shape

/-- No left operand of a binary operator begins with a prefix operator. -/
def Tree.PrefixFree : Tree → Prop
  | num _ | hexnum _ | reg _ => True
  | paren inner => inner.PrefixFree
  | unary _ rest => rest.PrefixFree
  | binary _ left right => left.leading = [] ∧ left.PrefixFree ∧ right.PrefixFree

end Ysyx.Nemu.Expr
