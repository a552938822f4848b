import Ysyx.Lib.Regex
import Ysyx.Nemu.Inst

/-! The expression evaluator of the debugger, `monitor/sdb/expr.c`, with the register lookup
of `isa/riscv32/reg.c`. A range of the token array is the list of its tokens. -/

set_option autoImplicit false

namespace Ysyx.Nemu.Expr

open Rv32 (Word)
open Lib (oneOf literal opt many1 longestMatch)

/-!
## Tokens
-/

/-- The token types; `str` is kept for the three types whose text is read again. -/
inductive Token where
  | hexnum (str : List Char)
  | num (str : List Char)
  | reg (str : List Char)
  | eq | noeq | and | or
  | neg | pos | deref
  | plus | minus | star | slash | lparen | rparen
  deriving DecidableEq, Repr

def decDigits : List Char := ['0', '1', '2', '3', '4', '5', '6', '7', '8', '9']

def hexDigits : List Char :=
  decDigits ++ ['a', 'b', 'c', 'd', 'e', 'f'] ++ ['A', 'B', 'C', 'D', 'E', 'F']

def regChars : List Char :=
  decDigits ++ ['a', 'b', 'c', 'd', 'e', 'f', 'g', 'h', 'i', 'j', 'k', 'l', 'm', 'n', 'o', 'p',
    'q', 'r', 's', 't', 'u', 'v', 'w', 'x', 'y', 'z']

/-- A rule and what `make_token` records for a match; nothing for `TK_NOTYPE`. -/
structure Rule where
  regex : RegularExpression Char
  token : List Char → Option Token

def rules : List Rule :=
  [ ⟨many1 (oneOf [' ']), fun _ => none⟩,
    ⟨literal ['0'] * (oneOf ['x', 'X'] * many1 (oneOf hexDigits)), fun s => some (.hexnum s)⟩,
    ⟨many1 (oneOf decDigits), fun s => some (.num s)⟩,
    ⟨literal ['$'] * (opt (literal ['$']) * many1 (oneOf regChars)), fun s => some (.reg s)⟩,
    ⟨literal ['+'], fun _ => some .plus⟩,
    ⟨literal ['-'], fun _ => some .minus⟩,
    ⟨literal ['*'], fun _ => some .star⟩,
    ⟨literal ['/'], fun _ => some .slash⟩,
    ⟨literal ['('], fun _ => some .lparen⟩,
    ⟨literal [')'], fun _ => some .rparen⟩,
    ⟨literal ['=', '='], fun _ => some .eq⟩,
    ⟨literal ['!', '='], fun _ => some .noeq⟩,
    ⟨literal ['&', '&'], fun _ => some .and⟩,
    ⟨literal ['|', '|'], fun _ => some .or⟩ ]

/-- The first rule that matches at the start of the text, with the length it matches. -/
def firstRule (e : List Char) : Option (Nat × Rule) :=
  rules.findSome? fun rule => (longestMatch rule.regex e).map fun len => (len, rule)

/-- Why `expr` does not return: an `Assert` of `make_token`, or `vaddr_read` out of bounds. -/
inductive Stop where
  | substringTooLong
  | tooManyTokens
  | outOfBound
  deriving DecidableEq, Repr

def strSize : Nat := 32
def nrTokens : Nat := 1024

theorem rules_nonempty : ∀ rule ∈ rules, ¬ rule.regex.rmatch [] := by decide

theorem firstRule_mem {e : List Char} {len : Nat} {rule : Rule}
    (found : firstRule e = some (len, rule)) :
    rule ∈ rules ∧ longestMatch rule.regex e = some len := by
  obtain ⟨candidate, member, here⟩ := List.exists_of_findSome?_eq_some found
  obtain ⟨length, longest, pair⟩ := Option.map_eq_some_iff.mp here
  obtain ⟨rfl, rfl⟩ := Prod.mk.inj pair
  exact ⟨member, longest⟩

theorem firstRule_pos {e : List Char} {len : Nat} {rule : Rule}
    (found : firstRule e = some (len, rule)) : 0 < len := by
  obtain ⟨member, longest⟩ := firstRule_mem found
  refine Nat.pos_of_ne_zero fun zero => rules_nonempty _ member ?_
  have accepted := Lib.rmatch_of_longestMatch longest
  rwa [zero, List.take_zero] at accepted

/-- `make_token` from the text at `position`; nothing when no rule matches there. -/
def makeToken (e : List Char) (tokens : List Token) : Except Stop (Option (List Token)) :=
  match e with
  | [] => .ok (some tokens)
  | c :: rest =>
      match _found : firstRule (c :: rest) with
      | none => .ok none
      | some (len, rule) =>
          if strSize ≤ len then .error .substringTooLong
          else if nrTokens ≤ tokens.length then .error .tooManyTokens
          else makeToken ((c :: rest).drop len)
            (tokens ++ (rule.token ((c :: rest).take len)).toList)
termination_by e.length
decreasing_by
  rw [List.length_drop]
  have := firstRule_pos _found
  simp only [List.length_cons]
  omega

/-- After one of these an operator is binary. -/
def endsOperand : Token → Bool
  | .hexnum _ | .num _ | .reg _ | .rparen => true
  | _ => false

/-- The loop of `expr` that finds the prefix operators, with the token before the range. -/
def retag (prev : Option Token) : List Token → List Token
  | [] => []
  | tok :: rest =>
      let tok :=
        if prev.any endsOperand then tok
        else match tok with
          | .plus => .pos
          | .minus => .neg
          | .star => .deref
          | other => other
      tok :: retag (some tok) rest

/-!
## Ranges
-/

/-- `count` after a token, as both loops below keep it. -/
def countAfter (count : Int) : Token → Int
  | .lparen => count + 1
  | .rparen => count - 1
  | _ => count

/-- The loop of `check_parentheses` over the rest of the range. -/
def balanced (count : Int) : List Token → Bool
  | [] => count == 0
  | tok :: rest =>
      let count := countAfter count tok
      if count = 0 ∧ rest ≠ [] then false else balanced count rest

def checkParentheses (range : List Token) : Bool :=
  range.head? == some .lparen && range.getLast? == some .rparen && balanced 0 range

def opPriority : Token → Nat
  | .pos | .neg => 1
  | .deref => 2
  | .star | .slash => 3
  | .plus | .minus => 4
  | .eq | .noeq => 5
  | .and => 6
  | .or => 7
  | _ => 0

/-- The local variables of `dominant_op`. -/
structure Scan where
  i : Nat
  count : Int
  op : Option Nat
  priority : Nat
  deriving DecidableEq, Repr

/-- One turn of the loop of `dominant_op`; an error is the `break`, with the operator. -/
def Scan.step (scan : Scan) (tok : Token) : Except Nat Scan :=
  let count := countAfter scan.count tok
  let next : Scan := { scan with i := scan.i + 1, count := count }
  let curPri := opPriority tok
  if count ≠ 0 then .ok next
  else if curPri = 0 then .ok next
  else if 2 < curPri ∧ scan.priority ≤ curPri then
    .ok { next with op := some scan.i, priority := curPri }
  else if curPri ≤ 2 ∧ scan.priority ≤ 2 then .error scan.i
  else .ok next

def dominantOp (range : List Token) : Option Nat :=
  match range.foldlM Scan.step ⟨0, 0, none, 0⟩ with
  | .ok scan => scan.op
  | .error op => some op

/-- A scan that only holds operators among the tokens it has passed. -/
def Scan.Passed (range : List Token) (scan : Scan) : Prop :=
  scan.i ≤ range.length ∧
    ∀ op, scan.op = some op → ∃ tok, range[op]? = some tok ∧ opPriority tok ≠ 0

theorem Scan.step_cases (scan : Scan) (tok : Token) :
    (∃ next, scan.step tok = .ok next ∧ next.i = scan.i + 1 ∧ next.op = scan.op) ∨
    (opPriority tok ≠ 0 ∧
      ∃ next, scan.step tok = .ok next ∧ next.i = scan.i + 1 ∧ next.op = some scan.i) ∨
    (opPriority tok ≠ 0 ∧ scan.step tok = .error scan.i) := by
  simp only [Scan.step]
  split
  · exact .inl ⟨_, rfl, rfl, rfl⟩
  · split
    · exact .inl ⟨_, rfl, rfl, rfl⟩
    · rename_i operator
      split
      · exact .inr (.inl ⟨operator, _, rfl, rfl, rfl⟩)
      · split
        · exact .inr (.inr ⟨operator, rfl⟩)
        · exact .inl ⟨_, rfl, rfl, rfl⟩

private theorem Scan.Passed.foldlM {range rest : List Token} {scan : Scan}
    (passed : scan.Passed range) (here : range.drop scan.i = rest) :
    match rest.foldlM Scan.step scan with
    | .ok last => last.Passed range
    | .error op => ∃ tok, range[op]? = some tok ∧ opPriority tok ≠ 0 := by
  induction rest generalizing scan with
  | nil => exact passed
  | cons tok rest ih =>
      have inside : range[scan.i]? = some tok := by
        rw [← List.head?_drop, here]
        rfl
      have within : scan.i + 1 ≤ range.length := (List.getElem?_eq_some_iff.mp inside).1
      have after : range.drop (scan.i + 1) = rest := by
        rw [← List.tail_drop, here]
        rfl
      rw [List.foldlM_cons]
      obtain ⟨next, ran, index, op⟩ | ⟨operator, next, ran, index, op⟩ | ⟨operator, ran⟩ :=
        scan.step_cases tok
      · rw [ran]
        exact ih ⟨by omega, by rw [op]; exact passed.2⟩ (by rw [index]; exact after)
      · rw [ran]
        refine ih ⟨by omega, fun held same => ?_⟩ (by rw [index]; exact after)
        obtain rfl : scan.i = held := Option.some.inj (op ▸ same)
        exact ⟨tok, inside, operator⟩
      · rw [ran]
        exact ⟨tok, inside, operator⟩

theorem dominantOp_spec {range : List Token} {op : Nat} (found : dominantOp range = some op) :
    ∃ tok, range[op]? = some tok ∧ opPriority tok ≠ 0 := by
  have start : Scan.Passed range ⟨0, 0, none, 0⟩ :=
    ⟨Nat.zero_le _, fun _ absurd => nomatch absurd⟩
  have passed := start.foldlM List.drop_zero
  rw [dominantOp] at found
  generalize range.foldlM Scan.step _ = outcome at passed found
  cases outcome with
  | ok scan => exact passed.2 op found
  | error broke =>
      obtain rfl : broke = op := Option.some.inj found
      exact passed

theorem dominantOp_lt {range : List Token} {op : Nat} (found : dominantOp range = some op) :
    op < range.length := by
  obtain ⟨tok, inside, _⟩ := dominantOp_spec found
  exact (List.getElem?_eq_some_iff.mp inside).1

/-!
## Evaluation
-/

def regs : List (List Char) :=
  [ ['$', '0'], ['r', 'a'], ['s', 'p'], ['g', 'p'], ['t', 'p'], ['t', '0'], ['t', '1'],
    ['t', '2'], ['s', '0'], ['s', '1'], ['a', '0'], ['a', '1'], ['a', '2'], ['a', '3'],
    ['a', '4'], ['a', '5'], ['a', '6'], ['a', '7'], ['s', '2'], ['s', '3'], ['s', '4'],
    ['s', '5'], ['s', '6'], ['s', '7'], ['s', '8'], ['s', '9'], ['s', '1', '0'],
    ['s', '1', '1'], ['t', '3'], ['t', '4'], ['t', '5'], ['t', '6'] ]

/-- The value under a name: the loop over `regs`, then `pc`. -/
def lookup (cpu : Cpu) (name : List Char) : Option Word :=
  match regs.idxOf? name with
  | some i => some (cpu.gpr (BitVec.ofNat 5 i))
  | none => if name = ['p', 'c'] then some cpu.pc else none

/-- `isa_reg_str2val` compares the two characters after the first; the flag is what it
stores in `*success`. -/
def isaRegStr2val (cpu : Cpu) (s : List Char) : Word × Bool :=
  match lookup cpu ((s.drop 1).take 2) with
  | some value => (value, true)
  | none => (0, false)

def digitValue (c : Char) : Nat := if hexDigits.idxOf c < 16 then hexDigits.idxOf c
  else hexDigits.idxOf c - 6

def digitsValue (base : Nat) (digits : List Char) : Nat :=
  digits.foldl (fun value c => base * value + digitValue c) 0

/-- `sscanf` with `%u` or `%x`: the host converts to 64 bits, saturating, and stores 32. -/
def scanNumber (base : Nat) (digits : List Char) : Word :=
  BitVec.ofNat 32 (min (digitsValue base digits) (2 ^ 64 - 1))

/-- The registers, and `vaddr_read` of four bytes on the memory and the devices; nothing when
the address is out of bounds. -/
structure Machine (Mem : Type) where
  cpu : Cpu
  vaddrRead : Word → Mem → Option (Word × Mem)

/-- A return of `eval`: its value, what it stored in `*success` in order (it never reads the
flag), and the memory it leaves. -/
structure Result (Mem : Type) where
  val : Word
  stores : List Bool
  mem : Mem

variable {Mem : Type}

/-- A range of one token; a prefix `0x` is skipped by `%x`. -/
def evalToken (m : Machine Mem) (tok : Token) (mem : Mem) : Result Mem :=
  match tok with
  | .hexnum str => ⟨scanNumber 16 (str.drop 2), [], mem⟩
  | .num str => ⟨scanNumber 10 str, [], mem⟩
  | .reg str => ⟨(isaRegStr2val m.cpu str).1, [(isaRegStr2val m.cpu str).2], mem⟩
  | _ => ⟨0, [false], mem⟩

def truth (b : Bool) : Word := if b then 1 else 0

/-- The `switch` of `eval` on the dominant operator. -/
def evalOp (m : Machine Mem) (tok : Token) (val1 val2 : Word) (stores : List Bool) (mem : Mem) :
    Except Stop (Result Mem) :=
  match tok with
  | .plus => .ok ⟨val1 + val2, stores, mem⟩
  | .minus => .ok ⟨val1 - val2, stores, mem⟩
  | .star => .ok ⟨val1 * val2, stores, mem⟩
  | .slash =>
      if val2 = 0 then .ok ⟨0, stores ++ [false], mem⟩ else .ok ⟨val1 / val2, stores, mem⟩
  | .and => .ok ⟨truth (val1 != 0 && val2 != 0), stores, mem⟩
  | .or => .ok ⟨truth (val1 != 0 || val2 != 0), stores, mem⟩
  | .eq => .ok ⟨truth (val1 == val2), stores, mem⟩
  | .noeq => .ok ⟨truth (val1 != val2), stores, mem⟩
  | .pos => .ok ⟨val2, stores, mem⟩
  | .neg => .ok ⟨-val2, stores, mem⟩
  | .deref =>
      match m.vaddrRead val2 mem with
      | some (value, mem) => .ok ⟨value, stores, mem⟩
      | none => .error .outOfBound
  | _ => .ok ⟨0, stores ++ [false], mem⟩

def isPrefix : Token → Bool
  | .pos | .neg | .deref => true
  | _ => false

/-- `eval` of the range with these tokens. -/
def eval (m : Machine Mem) (range : List Token) (mem : Mem) : Except Stop (Result Mem) :=
  match range with
  | [] => .ok ⟨0, [false], mem⟩
  | [tok] => .ok (evalToken m tok mem)
  | first :: second :: rest =>
      let range := first :: second :: rest
      if checkParentheses range then eval m range.tail.dropLast mem
      else match _found : dominantOp range with
        | none => .ok ⟨0, [false], mem⟩
        | some op => do
            let tok := range.getD op .rparen
            let left ← if isPrefix tok then .ok ⟨0, [], mem⟩ else eval m (range.take op) mem
            let right ← eval m (range.drop (op + 1)) left.mem
            evalOp m tok left.val right.val (left.stores ++ right.stores) right.mem
termination_by range.length
decreasing_by
  · simp only [List.length_dropLast, List.length_tail, List.length_cons]
    omega
  · have := dominantOp_lt _found
    simp only [List.length_drop, List.length_cons]
    omega
  · have := dominantOp_lt _found
    simp only [range, List.length_take, List.length_cons] at this ⊢
    omega

/-- The flag after a run that started from `success`. -/
def Result.success (result : Result Mem) (success : Bool) : Bool :=
  result.stores.getLastD success

/-- `expr`; a text that is not tokenised stores `false`. -/
def expr (m : Machine Mem) (e : List Char) (mem : Mem) : Except Stop (Result Mem) := do
  match ← makeToken e [] with
  | none => .ok ⟨0, [false], mem⟩
  | some tokens => eval m (retag none tokens) mem

end Ysyx.Nemu.Expr
