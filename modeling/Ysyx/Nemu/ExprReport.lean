import Ysyx.Nemu.ExprPrecedence

/-! The success flag of `expr`: what each grouping stores in it, and when the flag tells
whether the text is an expression that can be evaluated. -/

set_option autoImplicit false

namespace Ysyx.Nemu.Expr

open Rv32 (Word)

variable {Mem : Type}

/-!
## Failures of a grouping
-/

def Named (name : List Char) : Prop := name ∈ regs ∨ name = ['p', 'c']

/-- The register is one of the table. -/
def Known (str : List Char) : Prop := Named (str.drop 1)

/-- The register is found, by the two characters compared. -/
def Found (str : List Char) : Prop := Named ((str.drop 1).take 2)

namespace Grouping

def operands : Grouping → List Token
  | hole => []
  | operand tok => [tok]
  | unary _ _ rest => rest.operands
  | binary _ left right => left.operands ++ right.operands

/-- Somewhere there is a range without a value. -/
def Holed : Grouping → Prop
  | hole => True
  | operand tok => isOperand tok = false
  | unary _ _ rest => rest.Holed
  | binary _ left right => left.Holed ∨ right.Holed

/-- Somewhere tokens are skipped before a prefix operator. -/
def Skips : Grouping → Prop
  | hole | operand _ => False
  | unary skipped _ rest => skipped ≠ [] ∨ rest.Skips
  | binary _ left right => left.Skips ∨ right.Skips

def DividesByZero (m : Machine Mem) : Grouping → Mem → Prop
  | hole, _ | operand _, _ => False
  | unary _ _ rest, mem => rest.DividesByZero m mem
  | binary op left right, mem =>
      left.DividesByZero m mem ∨ ∃ first, left.run m mem = .ok first ∧
        (right.DividesByZero m first.mem ∨
          (op = .div ∧ ∃ second, right.run m first.mem = .ok second ∧ second.val = 0))

/-- Something fails in the evaluation. -/
def Fails (m : Machine Mem) (g : Grouping) (mem : Mem) : Prop :=
  g.Holed ∨ (∃ str, Token.reg str ∈ g.operands ∧ ¬ Found str) ∨ g.DividesByZero m mem

def FindsRegister (g : Grouping) : Prop := ∃ str, Token.reg str ∈ g.operands ∧ Found str

/-- Somewhere the left operand of an operator fails and a register is found in the right one. -/
def Resets (m : Machine Mem) : Grouping → Mem → Prop
  | hole, _ | operand _, _ => False
  | unary _ _ rest, mem => rest.Resets m mem
  | binary _ left right, mem =>
      left.Resets m mem ∨ (left.Fails m mem ∧ right.FindsRegister) ∨
        ∃ first, left.run m mem = .ok first ∧ right.Resets m first.mem

/-- What is accepted is more than an expression: tokens are skipped, or a register is found
that is not in the table. -/
def Lax (g : Grouping) : Prop :=
  g.Skips ∨ ∃ str, Token.reg str ∈ g.operands ∧ Found str ∧ ¬ Known str

end Grouping

/-!
## The flag
-/

/-- Once false, the flag stays false. -/
def Sticky (stores : List Bool) : Prop :=
  stores.Pairwise fun before after => before = false → after = false

/-- The text is an expression of the grammar with known registers, and its evaluation divides
by zero nowhere. -/
def Valid (m : Machine Mem) (e : List Char) (mem : Mem) : Prop :=
  ∃ tokens t, makeToken e [] = .ok (some tokens) ∧ Tree.WellFormed t ∧
    t.tokens.map Token.raw = tokens ∧ (∀ str, Token.reg str ∈ t.tokens → Known str) ∧
    ¬ t.group.DividesByZero m mem

/-- `expr`, called with `*success = true`, leaves it true exactly for the valid texts, and
never sets it again once something failed. -/
def Reports (m : Machine Mem) (e : List Char) (mem : Mem) : Prop :=
  ∃ out, expr m e mem = .ok out ∧ (out.success true = true ↔ Valid m e mem) ∧
    Sticky out.stores

/-- At most 1024 tokens of at most 31 characters. -/
structure InBounds (e : List Char) : Prop where
  short : ∀ str tok, (str, some tok) ∈ (pieces e).1 → str.length < strSize
  few : (recorded (pieces e).1).length ≤ nrTokens

/-- The grouping of the text. -/
def textGrouping (e : List Char) : Grouping := grouping (retag none (recorded (pieces e).1))

/-- The condition under which the flag reports failure as it should. -/
structure Reporting (m : Machine Mem) (e : List Char) (mem : Mem) : Prop where
  blanks : ∀ str, (str, none) ∈ (pieces e).1 → str.length < strSize
  room : (recorded (pieces e).1).length = nrTokens →
    ∀ p ∈ (pieces e).1.getLast?, p.2 ≠ none
  resets : (pieces e).2 = true → ¬ (textGrouping e).Resets m mem
  lax : (pieces e).2 = true → (textGrouping e).Fails m mem ∨ ¬ (textGrouping e).Lax

/-!
## Stores of a run
-/

theorem lookup_isSome (cpu : Cpu) {name : List Char} :
    (lookup cpu name).isSome = true ↔ Named name := by
  rw [lookup, Named]
  cases index : regs.idxOf? name with
  | some i =>
      have member : name ∈ regs := by
        by_contra none
        rw [List.idxOf?_eq_none_iff.mpr none] at index
        cases index
      simp [member]
  | none =>
      have absent := List.idxOf?_eq_none_iff.mp index
      by_cases pc : name = ['p', 'c'] <;> simp [absent, pc]

theorem evalToken_reg (m : Machine Mem) (str : List Char) (mem : Mem) :
    (Found str → (evalToken m (.reg str) mem).stores = [true]) ∧
    (¬ Found str → (evalToken m (.reg str) mem).stores = [false]) := by
  rw [Found, ← lookup_isSome m.cpu]
  simp only [evalToken, isaRegStr2val]
  cases lookup m.cpu ((str.drop 1).take 2) <;> simp

theorem Result.ok_inj {first second : Result Mem}
    (same : (Except.ok first : Except Stop (Result Mem)) = .ok second) : first = second :=
  Except.ok.inj same

theorem evalOp_unary_stores {m : Machine Mem} {op : UnaryOp} {x : Word} {stores : List Bool}
    {mem : Mem} {out : Result Mem} (ran : evalOp m op.token 0 x stores mem = .ok out) :
    out.stores = stores := by
  cases op with
  | pos | neg =>
      obtain rfl := Result.ok_inj ran
      rfl
  | deref =>
      simp only [evalOp, UnaryOp.token] at ran
      split at ran
      · obtain rfl := Result.ok_inj ran
        rfl
      · cases ran

theorem evalOp_binary_stores {m : Machine Mem} {op : BinaryOp} {x y : Word} {stores : List Bool}
    {mem : Mem} {out : Result Mem} (ran : evalOp m op.token x y stores mem = .ok out) :
    out.stores = stores ++ (if op = .div ∧ y = 0 then [false] else []) := by
  cases op with
  | div =>
      simp only [evalOp, BinaryOp.token] at ran
      split at ran <;> obtain rfl := Result.ok_inj ran <;> simp_all
  | _ =>
      obtain rfl := Result.ok_inj ran
      simp

namespace Grouping

variable {m : Machine Mem} {mem : Mem} {out : Result Mem}

theorem run_unary {skipped : List Token} {op : UnaryOp} {rest : Grouping}
    (ran : (unary skipped op rest).run m mem = .ok out) :
    ∃ first, rest.run m mem = .ok first ∧ out.stores = first.stores := by
  rw [run] at ran
  cases inner : rest.run m mem with
  | error stop =>
      rw [inner] at ran
      cases ran
  | ok first =>
      rw [inner] at ran
      exact ⟨first, rfl, evalOp_unary_stores ran⟩

theorem run_binary {op : BinaryOp} {left right : Grouping}
    (ran : (binary op left right).run m mem = .ok out) :
    ∃ first second, left.run m mem = .ok first ∧ right.run m first.mem = .ok second ∧
      out.stores = first.stores ++ second.stores ++
        (if op = .div ∧ second.val = 0 then [false] else []) := by
  rw [run] at ran
  cases runLeft : left.run m mem with
  | error stop =>
      rw [runLeft] at ran
      cases ran
  | ok first =>
      rw [runLeft] at ran
      simp only [bind, Except.bind] at ran
      cases runRight : right.run m first.mem with
      | error stop =>
          rw [runRight] at ran
          cases ran
      | ok second =>
          rw [runRight] at ran
          exact ⟨first, second, rfl, runRight, evalOp_binary_stores ran⟩

theorem fails_binary {op : BinaryOp} {left right : Grouping} {first second : Result Mem}
    (runLeft : left.run m mem = .ok first) (runRight : right.run m first.mem = .ok second) :
    (binary op left right).Fails m mem ↔
      left.Fails m mem ∨ right.Fails m first.mem ∨ (op = .div ∧ second.val = 0) := by
  simp only [Fails, Holed, operands, DividesByZero, List.mem_append, runLeft, runRight,
    Except.ok.injEq, exists_eq_left', or_and_right, exists_or]
  grind

theorem findsRegister_binary {op : BinaryOp} {left right : Grouping} :
    (binary op left right).FindsRegister ↔ left.FindsRegister ∨ right.FindsRegister := by
  simp only [FindsRegister, operands, List.mem_append, or_and_right, exists_or]

/-- What an operand stores. -/
theorem operand_stores (m : Machine Mem) (tok : Token) (mem : Mem) :
    (false ∈ (evalToken m tok mem).stores ↔ (operand tok).Fails m mem) ∧
    (true ∈ (evalToken m tok mem).stores ↔ (operand tok).FindsRegister) ∧
    Sticky (evalToken m tok mem).stores := by
  cases tok with
  | reg str =>
      obtain ⟨found, missed⟩ := evalToken_reg m str mem
      by_cases here : Found str
      · simp [found here, Fails, FindsRegister, Holed, DividesByZero, operands, isOperand, here,
          Sticky]
      · simp [missed here, Fails, FindsRegister, Holed, DividesByZero, operands, isOperand, here,
          Sticky]
  | _ => simp [evalToken, Fails, FindsRegister, Holed, DividesByZero, operands, isOperand, Sticky]

theorem false_mem_stores {g : Grouping} (ran : g.run m mem = .ok out) :
    false ∈ out.stores ↔ g.Fails m mem := by
  induction g generalizing mem out with
  | hole =>
      obtain rfl := Result.ok_inj ran
      simp [Fails, Holed]
  | operand tok =>
      obtain rfl := Result.ok_inj ran
      exact (operand_stores m tok mem).1
  | unary skipped op rest ih =>
      obtain ⟨first, inner, same⟩ := run_unary ran
      rw [same, ih inner]
      rfl
  | binary op left right ihLeft ihRight =>
      obtain ⟨first, second, runLeft, runRight, same⟩ := run_binary ran
      have division : false ∈ (if op = .div ∧ second.val = 0 then [false] else []) ↔
          op = .div ∧ second.val = 0 := by
        split
        · simpa
        · simpa using ‹¬ (op = .div ∧ second.val = 0)›
      rw [same, fails_binary runLeft runRight, ← ihLeft runLeft, ← ihRight runRight]
      simp only [List.mem_append, or_assoc, division]

theorem true_mem_stores {g : Grouping} (ran : g.run m mem = .ok out) :
    true ∈ out.stores ↔ g.FindsRegister := by
  induction g generalizing mem out with
  | hole =>
      obtain rfl := Result.ok_inj ran
      simp [FindsRegister, operands]
  | operand tok =>
      obtain rfl := Result.ok_inj ran
      exact (operand_stores m tok mem).2.1
  | unary skipped op rest ih =>
      obtain ⟨first, inner, same⟩ := run_unary ran
      rw [same, ih inner]
      rfl
  | binary op left right ihLeft ihRight =>
      obtain ⟨first, second, runLeft, runRight, same⟩ := run_binary ran
      rw [same, findsRegister_binary, ← ihLeft runLeft, ← ihRight runRight]
      simp only [List.mem_append, or_assoc]
      split <;> simp_all

end Grouping

theorem sticky_append {first second : List Bool} :
    Sticky (first ++ second) ↔ Sticky first ∧ Sticky second ∧
      ¬ (false ∈ first ∧ true ∈ second) := by
  rw [Sticky, List.pairwise_append]
  refine and_congr_right fun _ => and_congr_right fun _ => ?_
  constructor
  · rintro after ⟨failed, set⟩
    exact absurd (after false failed true set rfl) (by decide)
  · intro none before failed after later same
    subst same
    cases after with
    | false => rfl
    | true => exact absurd ⟨failed, later⟩ none

theorem Grouping.sticky_stores {m : Machine Mem} {g : Grouping} {mem : Mem} {out : Result Mem}
    (ran : g.run m mem = .ok out) : Sticky out.stores ↔ ¬ g.Resets m mem := by
  induction g generalizing mem out with
  | hole =>
      obtain rfl := Result.ok_inj ran
      simp [Resets, Sticky]
  | operand tok =>
      obtain rfl := Result.ok_inj ran
      simpa [Resets] using (operand_stores m tok mem).2.2
  | unary skipped op rest ih =>
      obtain ⟨first, inner, same⟩ := run_unary ran
      rw [same, ih inner]
      rfl
  | binary op left right ihLeft ihRight =>
      obtain ⟨first, second, runLeft, runRight, same⟩ := run_binary ran
      have division : Sticky (if op = .div ∧ second.val = 0 then [false] else []) := by
        split <;> simp [Sticky]
      have noSet : true ∉ (if op = .div ∧ second.val = 0 then [false] else []) := by
        split <;> simp
      rw [same, sticky_append, sticky_append, ihLeft runLeft, ihRight runRight,
        false_mem_stores runLeft, true_mem_stores runRight]
      simp only [Resets, runLeft, Except.ok.injEq, exists_eq_left']
      tauto

/-- A run that never sets the flag again ends with the flag of its failures. -/
theorem success_iff_of_sticky {out : Result Mem} (sticky : Sticky out.stores) :
    out.success true = true ↔ false ∉ out.stores := by
  constructor
  · intro good failed
    rw [Result.success] at good
    obtain ⟨before, last, same⟩ := List.eq_nil_or_concat out.stores |>.resolve_left
      (List.ne_nil_of_mem failed)
    rw [same, List.concat_eq_append] at good sticky failed
    simp at good
    subst good
    have := (sticky_append.mp sticky).2.2
    simp_all
  · intro clean
    exact Result.success_of_clean fun b inside => by
      cases b with
      | true => rfl
      | false => exact absurd inside clean

/-!
## Expressions and groupings
-/

/-- A prefix operator before a parse tree: it binds tighter than the binary operators. -/
theorem exists_unary (op : UnaryOp) {t : Tree} (parsed : t.WellFormed) :
    ∃ whole : Tree, whole.WellFormed ∧ whole.tokens = op.token :: t.tokens ∧
      whole.level ≤ max 2 t.level := by
  induction t with
  | num str | hexnum str | reg str | paren inner | unary inner rest _ =>
      exact ⟨.unary op _, ⟨parsed, by simp [Tree.level]⟩, rfl, le_max_left _ _⟩
  | binary top left right ihLeft _ =>
      obtain ⟨parsedLeft, parsedRight, below, above⟩ := parsed
      obtain ⟨first, wellFormed, tokens, level⟩ := ihLeft parsedLeft
      have looser := top.two_lt_level
      refine ⟨.binary top first right, ⟨wellFormed, parsedRight, by omega, above⟩, ?_, ?_⟩
      · rw [Tree.tokens, tokens]
        rfl
      · exact le_max_right _ _

theorem Tree.level_binary (op : BinaryOp) (left right : Tree) :
    (binary op left right).level = op.level := rfl

/-- A binary operator between two parse trees, which are split where they bind less tightly. -/
theorem exists_binary (op : BinaryOp) {left right : Tree} (parsedLeft : left.WellFormed)
    (parsedRight : right.WellFormed) :
    ∃ whole : Tree, whole.WellFormed ∧ whole.tokens = left.tokens ++ op.token :: right.tokens ∧
      whole.level ≤ max op.level (max left.level right.level) := by
  have tight := op.two_lt_level
  induction size : left.tokens.length + right.tokens.length using Nat.strongRecOn
    generalizing left right with
  | ind n ih =>
      subst size
      by_cases plain : left.level ≤ op.level ∧ right.level < op.level
      · exact ⟨.binary op left right, ⟨parsedLeft, parsedRight, plain⟩, rfl, le_max_left _ _⟩
      · by_cases splitRight : left.level ≤ right.level
        · cases right with
          | binary top first second =>
              obtain ⟨parsedFirst, parsedSecond, below, above⟩ := parsedRight
              simp only [Tree.level_binary] at plain splitRight ⊢
              obtain ⟨inner, parsed, tokens, level⟩ := ih _ (by simp [Tree.tokens])
                parsedLeft parsedFirst rfl
              refine ⟨.binary top inner second, ⟨parsed, parsedSecond, by omega, above⟩, ?_, ?_⟩
              · rw [Tree.tokens, tokens, Tree.tokens]
                simp
              · rw [Tree.level_binary]
                omega
          | _ =>
              simp only [Tree.level] at plain splitRight
              omega
        · cases left with
          | binary top first second =>
              obtain ⟨parsedFirst, parsedSecond, below, above⟩ := parsedLeft
              simp only [Tree.level_binary] at plain splitRight ⊢
              obtain ⟨inner, parsed, tokens, level⟩ := ih _ (by simp [Tree.tokens]; omega)
                parsedSecond parsedRight rfl
              refine ⟨.binary top first inner, ⟨parsedFirst, parsed, below, by omega⟩, ?_, ?_⟩
              · rw [Tree.tokens, tokens, Tree.tokens]
                simp
              · rw [Tree.level_binary]
                omega
          | _ =>
              simp only [Tree.level] at plain splitRight
              omega

/-- Every expression of the grammar, however it is derived, has a parse tree. -/
theorem exists_wellFormed (t : Tree) :
    ∃ parse : Tree, parse.WellFormed ∧ parse.tokens = t.tokens := by
  induction t with
  | num str => exact ⟨.num str, trivial, rfl⟩
  | hexnum str => exact ⟨.hexnum str, trivial, rfl⟩
  | reg str => exact ⟨.reg str, trivial, rfl⟩
  | paren inner ih =>
      obtain ⟨parse, wellFormed, same⟩ := ih
      exact ⟨.paren parse, wellFormed, by rw [Tree.tokens, Tree.tokens, same]⟩
  | unary op rest ih =>
      obtain ⟨parse, wellFormed, same⟩ := ih
      obtain ⟨whole, parsed, tokens, _⟩ := exists_unary op wellFormed
      exact ⟨whole, parsed, by rw [tokens, same, Tree.tokens]⟩
  | binary op left right ihLeft ihRight =>
      obtain ⟨parseLeft, wellFormedLeft, sameLeft⟩ := ihLeft
      obtain ⟨parseRight, wellFormedRight, sameRight⟩ := ihRight
      obtain ⟨whole, parsed, tokens, _⟩ := exists_binary op wellFormedLeft wellFormedRight
      exact ⟨whole, parsed, by rw [tokens, sameLeft, sameRight, Tree.tokens]⟩

namespace Tree

theorem group_holed (t : Tree) : ¬ t.core.Holed ∧ ¬ t.group.Holed := by
  have under (ops : List UnaryOp) {g : Grouping} (whole : ¬ g.Holed) :
      ¬ (Grouping.under ops g).Holed := by
    induction ops with
    | nil => exact whole
    | cons op ops ih => exact ih
  induction t with
  | num str | hexnum str | reg str => simp [core, group, leading, Grouping.under, Grouping.Holed,
      isOperand]
  | paren inner ih => exact ⟨ih.2, ih.2⟩
  | unary op rest ih => exact ⟨ih.1, ih.2⟩
  | binary op left right ihLeft ihRight =>
      have here : ¬ (binary op left right).core.Holed := by
        rintro (holed | holed)
        · exact ihLeft.1 holed
        · exact ihRight.2 holed
      exact ⟨here, under _ here⟩

theorem group_skips (t : Tree) : ¬ t.core.Skips ∧ ¬ t.group.Skips := by
  have under (ops : List UnaryOp) {g : Grouping} (whole : ¬ g.Skips) :
      ¬ (Grouping.under ops g).Skips := by
    induction ops with
    | nil => exact whole
    | cons op ops ih =>
        rintro (some_ | more)
        · exact some_ rfl
        · exact ih more
  induction t with
  | num str | hexnum str | reg str => simp [core, group, leading, Grouping.under, Grouping.Skips]
  | paren inner ih => exact ⟨ih.2, ih.2⟩
  | unary op rest ih => exact ⟨ih.1, under (op :: rest.leading) ih.1⟩
  | binary op left right ihLeft ihRight =>
      have here : ¬ (binary op left right).core.Skips := by
        rintro (skips | skips)
        · exact ihLeft.1 skips
        · exact ihRight.2 skips
      exact ⟨here, under _ here⟩

theorem group_operands (t : Tree) :
    t.core.operands = t.tokens.filter isOperand ∧ t.group.operands = t.tokens.filter isOperand := by
  have under (ops : List UnaryOp) (g : Grouping) :
      (Grouping.under ops g).operands = g.operands := by
    induction ops with
    | nil => rfl
    | cons op ops ih => exact ih
  induction t with
  | num str | hexnum str | reg str => exact ⟨rfl, rfl⟩
  | paren inner ih =>
      have peeled : (paren inner).tokens.filter isOperand = inner.tokens.filter isOperand := by
        simp [tokens, isOperand]
      rw [peeled]
      exact ⟨ih.2, ih.2⟩
  | unary op rest ih =>
      have peeled : (unary op rest).tokens.filter isOperand = rest.tokens.filter isOperand := by
        simp [tokens]
      rw [peeled]
      exact ⟨ih.1, ih.2⟩
  | binary op left right ihLeft ihRight =>
      have here : (binary op left right).core.operands =
          (binary op left right).tokens.filter isOperand := by
        rw [tokens, List.filter_append, List.filter_cons_of_neg (by simp), ← ihLeft.1,
          ← ihRight.2]
        rfl
      exact ⟨here, (under _ _).trans here⟩

end Tree

theorem peel_parentheses {range : List Token} (long : 2 ≤ range.length)
    (paren : checkParentheses range = true) :
    .lparen :: range.tail.dropLast ++ [.rparen] = range := by
  simp only [checkParentheses, Bool.and_eq_true, beq_iff_eq] at paren
  obtain ⟨⟨opened, closed⟩, _⟩ := paren
  obtain ⟨first, second, rest, rfl⟩ := exists_of_long long
  obtain rfl : first = .lparen := Option.some.inj opened
  rw [List.getLast?_cons_cons] at closed
  exact congrArg (.lparen :: ·) (List.dropLast_append_getLast? Token.rparen closed)

/-- A grouping that has a value everywhere and skips nothing is that of an expression. -/
theorem exists_tree {range : List Token} (whole : ¬ (grouping range).Holed)
    (keeps : ¬ (grouping range).Skips) : ∃ t : Tree, t.tokens = range := by
  induction length : range.length using Nat.strongRecOn generalizing range with
  | ind n ih =>
      subst length
      match range with
      | [] => exact absurd (by rw [grouping]; trivial) whole
      | [tok] =>
          rw [grouping] at whole
          cases tok with
          | num str => exact ⟨.num str, rfl⟩
          | hexnum str => exact ⟨.hexnum str, rfl⟩
          | reg str => exact ⟨.reg str, rfl⟩
          | _ => exact absurd trivial whole
      | first :: second :: rest =>
          generalize same : first :: second :: rest = range at ih whole keeps
          have long : 2 ≤ range.length := by simp [← same]
          by_cases paren : checkParentheses range = true
          · rw [grouping_paren long paren] at whole keeps
            obtain ⟨t, tokens⟩ := ih _
              (by simp only [List.length_dropLast, List.length_tail]; omega) whole keeps rfl
            exact ⟨.paren t, by rw [Tree.tokens, tokens, peel_parentheses long paren]⟩
          · cases found : dominantOp range with
            | none =>
                rw [grouping_hole long paren found] at whole
                exact absurd trivial whole
            | some op =>
                have lt := dominantOp_lt found
                have shorter : (range.drop (op + 1)).length < range.length := by
                  rw [List.length_drop]
                  omega
                have before : (range.take op).length < range.length := by
                  rw [List.length_take]
                  omega
                obtain ⟨tok, inside, operator⟩ := dominantOp_spec found
                have split : range.take op ++ tok :: range.drop (op + 1) = range := by
                  obtain ⟨_, rfl⟩ := List.getElem?_eq_some_iff.mp inside
                  rw [List.getElem_cons_drop, List.take_append_drop]
                obtain ⟨unary, rfl⟩ | ⟨binary, rfl⟩ := Token.operator_of_priority operator
                · rw [grouping_unary long paren found inside] at whole keeps
                  obtain ⟨none, keeps⟩ := not_or.mp keeps
                  obtain ⟨t, tokens⟩ := ih _ shorter whole keeps rfl
                  refine ⟨.unary unary t, ?_⟩
                  rw [not_not.mp none, List.nil_append] at split
                  rw [Tree.tokens, tokens, split]
                · rw [grouping_binary long paren found inside] at whole keeps
                  obtain ⟨wholeLeft, wholeRight⟩ := not_or.mp whole
                  obtain ⟨keepsLeft, keepsRight⟩ := not_or.mp keeps
                  obtain ⟨left, tokensLeft⟩ := ih _ before wholeLeft keepsLeft rfl
                  obtain ⟨right, tokensRight⟩ := ih _ shorter wholeRight keepsRight rfl
                  exact ⟨.binary binary left right, by
                    rw [Tree.tokens, tokensLeft, tokensRight, split]⟩

/-!
## Texts
-/

theorem rules_raw : ∀ rule ∈ rules, ∀ str tok, rule.token str = some tok → tok.raw = tok := by
  intro rule member str tok made
  simp only [rules, List.mem_cons, List.not_mem_nil, or_false] at member
  rcases member with rfl | rfl | rfl | rfl | rfl | rfl | rfl | rfl | rfl | rfl | rfl | rfl | rfl | rfl
    <;> simp only [reduceCtorEq, Option.some.injEq] at made <;> subst made <;> rfl

theorem recorded_raw (e : List Char) : ∀ tok ∈ recorded (pieces e).1, tok.raw = tok := by
  induction length : e.length using Nat.strongRecOn generalizing e with
  | ind n ih =>
      subst length
      by_cases done : e = []
      · subst done
        simp [pieces, recorded]
      · cases found : firstRule e with
        | none => simp [pieces_none done found, recorded]
        | some pair =>
            obtain ⟨len, rule⟩ := pair
            have shorter : (e.drop len).length < e.length := by
              have positive := firstRule_pos found
              have within := firstRule_le found
              rw [List.length_drop]
              omega
            rw [pieces_some found, recorded_cons]
            intro tok inside
            rcases List.mem_append.mp inside with here | later
            · exact rules_raw rule (firstRule_mem found).1 _ tok (Option.mem_toList.mp here)
            · exact ih _ shorter (e.drop len) rfl tok later

theorem map_raw_retag {tokens : List Token} (raws : ∀ tok ∈ tokens, tok.raw = tok)
    (prev : Option Token) : (retag prev tokens).map Token.raw = tokens := by
  induction tokens generalizing prev with
  | nil => rfl
  | cons tok rest ih =>
      simp only [retag, List.map_cons]
      rw [ih (fun other inside => raws other (by simp [inside]))]
      have here := raws tok (by simp)
      congr 1
      split
      · exact here
      · cases tok <;> first | rfl | exact here

theorem valid_iff {m : Machine Mem} {e : List Char} {mem : Mem} {tokens : List Token}
    (made : makeToken e [] = .ok (some tokens)) (raws : ∀ tok ∈ tokens, tok.raw = tok) :
    Valid m e mem ↔ ¬ (grouping (retag none tokens)).Holed ∧
      ¬ (grouping (retag none tokens)).Skips ∧
      (∀ str, Token.reg str ∈ (grouping (retag none tokens)).operands → Known str) ∧
      ¬ (grouping (retag none tokens)).DividesByZero m mem := by
  constructor
  · rintro ⟨tokens', t, made', parsed, same, known, divides⟩
    obtain rfl : tokens = tokens' := Option.some.inj (Except.ok.inj (made.symm.trans made'))
    rw [← same, retag_raw, grouping_tokens parsed, t.group_operands.2]
    refine ⟨t.group_holed.2, t.group_skips.2, fun str inside => ?_, divides⟩
    exact known str (List.mem_of_mem_filter inside)
  · rintro ⟨whole, keeps, known, divides⟩
    obtain ⟨derived, tokens'⟩ := exists_tree whole keeps
    obtain ⟨t, parsed, same⟩ := exists_wellFormed derived
    have texts : t.tokens = retag none tokens := same.trans tokens'
    have group : grouping (retag none tokens) = t.group := by
      rw [← texts, grouping_tokens parsed]
    rw [group] at known divides
    refine ⟨tokens, t, made, parsed, by rw [texts, map_raw_retag raws], fun str inside => ?_,
      divides⟩
    refine known str ?_
    rw [t.group_operands.2]
    exact List.mem_filter.mpr ⟨inside, rfl⟩

theorem recorded_pos {cut : List (List Char × Option Token)} {p : List Char × Option Token}
    (inside : p ∈ cut) (token : p.2 ≠ none) : 0 < (recorded cut).length := by
  obtain ⟨tok, same⟩ := Option.ne_none_iff_exists'.mp token
  exact List.length_pos_of_mem (List.mem_filterMap.mpr ⟨p, inside, same⟩)

theorem getLast?_cons_of {first : List Char × Option Token}
    {rest : List (List Char × Option Token)} (more : rest ≠ []) :
    (first :: rest).getLast? = rest.getLast? := by
  obtain ⟨second, others, rfl⟩ := List.exists_cons_of_ne_nil more
  exact List.getLast?_cons_cons

theorem fits_iff_blanks {cut : List (List Char × Option Token)} {nr : Nat}
    (short : ∀ str tok, (str, some tok) ∈ cut → str.length < strSize)
    (few : nr + (recorded cut).length ≤ nrTokens) :
    Fits nr cut ↔ (∀ str, (str, none) ∈ cut → str.length < strSize) ∧
      (nr + (recorded cut).length = nrTokens → ∀ p ∈ cut.getLast?, p.2 ≠ none) := by
  induction cut generalizing nr with
  | nil => simp [Fits]
  | cons first rest ih =>
      obtain ⟨str, tok⟩ := first
      rw [recorded_cons, List.length_append] at few ⊢
      have next : Fits (nr + tok.toList.length) rest ↔ _ :=
        ih (fun str tok inside => short str tok (by simp [inside])) (by omega)
      rw [Fits, next]
      have later : (∀ p ∈ ((str, tok) :: rest).getLast?, p.2 ≠ none) ↔
          (rest = [] → tok ≠ none) ∧ ∀ p ∈ rest.getLast?, p.2 ≠ none := by
        by_cases more : rest = []
        · subst more
          simp
        · simp [getLast?_cons_of more, more]
      rw [later]
      cases tok with
      | some tok =>
          have here := short str tok (by simp)
          simp only [Option.toList_some, List.length_singleton] at few ⊢
          simp only [List.mem_cons, Prod.mk.injEq, reduceCtorEq, and_false, false_or, ne_eq,
            not_false_eq_true, implies_true, true_and, ← Nat.add_assoc] at few ⊢
          exact ⟨fun fits => fits.2.2, fun fits => ⟨here, by omega, fits⟩⟩
      | none =>
          simp only [Option.toList_none, List.length_nil, Nat.add_zero, Nat.zero_add] at few ⊢
          constructor
          · rintro ⟨here, room, blanks, last⟩
            refine ⟨fun other inside => ?_, fun full => ⟨fun empty => ?_, last full⟩⟩
            · rcases List.mem_cons.mp inside with same | inside
              · obtain ⟨rfl, _⟩ := Prod.mk.inj same
                exact here
              · exact blanks other inside
            · subst empty
              simp [recorded] at full
              omega
          · rintro ⟨blanks, last⟩
            refine ⟨blanks str (by simp), ?_, fun other inside => blanks other (by simp [inside]),
              fun full => (last full).2⟩
            by_contra none
            have full : nr + (recorded rest).length = nrTokens := by omega
            obtain ⟨notLast, token⟩ := last full
            have more : rest ≠ [] := fun empty => notLast empty rfl
            have inside := List.getLast_mem more
            have := recorded_pos inside
              (token (rest.getLast more) (List.getLast?_eq_some_getLast more))
            omega

/-- A full table of names is compared by two characters at most. -/
theorem Known.found {str : List Char} (known : Known str) : Found str := by
  have table : ∀ name ∈ ['p', 'c'] :: regs, name.take 2 ∈ ['p', 'c'] :: regs := by decide
  have named {name : List Char} : Named name ↔ name ∈ ['p', 'c'] :: regs := by
    rw [Named, List.mem_cons, or_comm]
  exact named.mpr (table _ (named.mp known))

/-- An expression is what neither fails nor is accepted by laxity. -/
theorem Grouping.expression_iff {m : Machine Mem} {g : Grouping} {mem : Mem} :
    (¬ g.Holed ∧ ¬ g.Skips ∧ (∀ str, Token.reg str ∈ g.operands → Known str) ∧
      ¬ g.DividesByZero m mem) ↔ ¬ g.Fails m mem ∧ ¬ g.Lax := by
  constructor
  · rintro ⟨whole, keeps, known, divides⟩
    constructor
    · rintro (holed | ⟨str, inside, missed⟩ | zero)
      · exact whole holed
      · exact missed (known str inside).found
      · exact divides zero
    · rintro (skips | ⟨str, inside, _, unknown⟩)
      · exact keeps skips
      · exact unknown (known str inside)
  · rintro ⟨clean, strict⟩
    refine ⟨fun holed => clean (.inl holed), fun skips => strict (.inl skips),
      fun str inside => ?_, fun zero => clean (.inr (.inr zero))⟩
    by_contra unknown
    by_cases found : Found str
    · exact strict (.inr ⟨str, inside, found, unknown⟩)
    · exact clean (.inr (.inl ⟨str, inside, found⟩))

theorem evalOp_error {m : Machine Mem} {tok : Token} {x y : Word} {stores : List Bool} {mem : Mem}
    {stop : Stop} (ran : evalOp m tok x y stores mem = .error stop) : stop = .outOfBound := by
  cases tok with
  | slash =>
      simp only [evalOp] at ran
      split at ran <;> cases ran
  | deref =>
      simp only [evalOp] at ran
      split at ran
      · cases ran
      · exact (Except.error.inj ran).symm
  | _ => cases ran

/-- Only a read out of bounds stops a run. -/
theorem Grouping.run_error {m : Machine Mem} {g : Grouping} {mem : Mem} {stop : Stop}
    (ran : g.run m mem = .error stop) : stop = .outOfBound := by
  induction g generalizing mem with
  | hole | operand tok => cases ran
  | unary skipped op rest ih =>
      rw [run] at ran
      cases inner : rest.run m mem with
      | error first =>
          rw [inner] at ran
          obtain rfl := Except.error.inj ran
          exact ih inner
      | ok first =>
          rw [inner] at ran
          exact evalOp_error ran
  | binary op left right ihLeft ihRight =>
      rw [run] at ran
      cases runLeft : left.run m mem with
      | error first =>
          rw [runLeft] at ran
          obtain rfl := Except.error.inj ran
          exact ihLeft runLeft
      | ok first =>
          rw [runLeft] at ran
          simp only [bind, Except.bind] at ran
          cases runRight : right.run m first.mem with
          | error second =>
              rw [runRight] at ran
              obtain rfl := Except.error.inj ran
              exact ihRight runRight
          | ok second =>
              rw [runRight] at ran
              exact evalOp_error ran

theorem not_iff_not_and_not {fails lax : Prop} :
    (¬ fails ↔ ¬ fails ∧ ¬ lax) ↔ fails ∨ ¬ lax := by
  tauto

/-- The flag of `expr` tells failure exactly under `Reporting`. -/
theorem expr_reports {m : Machine Mem} {e : List Char} {mem : Mem} (bounds : InBounds e)
    (readable : expr m e mem ≠ .error .outOfBound) :
    Reports m e mem ↔ Reporting m e mem := by
  have fits : Fits 0 (pieces e).1 ↔ _ := fits_iff_blanks bounds.short (by simpa using bounds.few)
  obtain ⟨made, stopped⟩ := makeToken_eq e []
  by_cases room : Fits 0 (pieces e).1
  · have made := made room
    obtain ⟨blanks, last⟩ := fits.mp room
    rw [Nat.zero_add] at last
    cases reached : (pieces e).2 with
    | false =>
        rw [reached] at made
        have ran : expr m e mem = .ok ⟨0, [false], mem⟩ := by
          rw [expr, made]
          rfl
        constructor
        · intro _
          exact ⟨blanks, last, by simp [reached], by simp [reached]⟩
        · intro _
          refine ⟨_, ran, ?_, by simp [Sticky]⟩
          refine iff_of_false (by simp [Result.success]) ?_
          rintro ⟨tokens, t, made', _⟩
          rw [made] at made'
          cases made'
    | true =>
        rw [reached] at made
        have made : makeToken e [] = .ok (some (recorded (pieces e).1)) := made
        have ran : expr m e mem = (textGrouping e).run m mem := by
          rw [expr, made]
          exact eval_eq_run m _ mem
        have valid : Valid m e mem ↔ ¬ (textGrouping e).Fails m mem ∧ ¬ (textGrouping e).Lax :=
          (valid_iff made (recorded_raw e)).trans Grouping.expression_iff
        cases result : (textGrouping e).run m mem with
        | error stop => exact absurd (Grouping.run_error result ▸ ran.trans result) readable
        | ok out =>
            have failed := Grouping.false_mem_stores result
            have sticky := Grouping.sticky_stores result
            rw [result] at ran
            constructor
            · rintro ⟨out', ran', flag, kept⟩
              obtain rfl : out = out' := Except.ok.inj (ran.symm.trans ran')
              rw [success_iff_of_sticky kept, failed, valid] at flag
              exact ⟨blanks, last, fun _ => sticky.mp kept, fun _ => not_iff_not_and_not.mp flag⟩
            · rintro ⟨_, _, resets, lax⟩
              have kept := sticky.mpr (resets reached)
              refine ⟨out, ran, ?_, kept⟩
              rw [success_iff_of_sticky kept, failed, valid]
              exact not_iff_not_and_not.mpr (lax reached)
  · have stops : ∀ out, expr m e mem ≠ .ok out := by
      intro out ran
      rw [expr] at ran
      rcases stopped room with stop | stop
      all_goals
        rw [stop] at ran
        cases ran
    constructor
    · rintro ⟨out, ran, _⟩
      exact absurd ran (stops out)
    · rintro ⟨blanks, last, _⟩
      exact absurd (fits.mpr ⟨blanks, by simpa using last⟩) room

theorem InBounds.of_pieces {e : List Char} {cut : List (List Char × Option Token) × Bool}
    (same : pieces e = cut) (short : ∀ p ∈ cut.1, p.1.length < strSize)
    (few : (recorded cut.1).length ≤ nrTokens) : InBounds e := by
  subst same
  exact ⟨fun str tok inside => short (str, some tok) inside, few⟩

/-- `$ra+1`. -/
theorem expr_reports_sum : Reports probe ['$', 'r', 'a', '+', '1'] () := by
  have cut : pieces ['$', 'r', 'a', '+', '1'] =
      ([(['$', 'r', 'a'], some (.reg ['$', 'r', 'a'])), (['+'], some .plus),
        (['1'], some (.num ['1']))], true) := by decide +kernel
  have group : textGrouping ['$', 'r', 'a', '+', '1'] =
      .binary .add (.operand (.reg ['$', 'r', 'a'])) (.operand (.num ['1'])) := by decide +kernel
  have ran : (expr probe ['$', 'r', 'a', '+', '1'] ()).isOk = true := by decide +kernel
  refine (expr_reports (.of_pieces cut (by decide) (by decide)) ?_).mpr ⟨?_, ?_, ?_, ?_⟩
  · intro stopped
    rw [stopped] at ran
    cases ran
  · simp [cut]
  · simp [cut]
  · simp [group, Grouping.Resets, Grouping.FindsRegister, Grouping.operands]
  · have known : Known ['$', 'r', 'a'] := .inl (by decide)
    refine fun _ => .inr ?_
    rw [group]
    rintro (skips | ⟨str, inside, _, unknown⟩)
    · simp [Grouping.Skips] at skips
    · simp [Grouping.operands] at inside
      exact unknown (inside ▸ known)

/-- `1/0+$ra` fails in the division and succeeds after the register. -/
theorem expr_reports_fails : ¬ ∀ (m : Machine Unit) (e : List Char) (mem : Unit),
    InBounds e → expr m e mem ≠ .error .outOfBound → Reports m e mem := by
  intro claim
  have cut : pieces ['1', '/', '0', '+', '$', 'r', 'a'] =
      ([(['1'], some (.num ['1'])), (['/'], some .slash), (['0'], some (.num ['0'])),
        (['+'], some .plus), (['$', 'r', 'a'], some (.reg ['$', 'r', 'a']))], true) := by
    decide +kernel
  have stores : (expr probe ['1', '/', '0', '+', '$', 'r', 'a'] ()).toOption.map Result.stores =
      some [false, true] := by decide +kernel
  have bounds : InBounds ['1', '/', '0', '+', '$', 'r', 'a'] :=
    .of_pieces cut (by decide) (by decide)
  have readable : expr probe ['1', '/', '0', '+', '$', 'r', 'a'] () ≠ .error .outOfBound := by
    intro stopped
    rw [stopped] at stores
    cases stores
  obtain ⟨out, ran, _, sticky⟩ := claim probe _ () bounds readable
  rw [ran] at stores
  have same : out.stores = [false, true] := Option.some.inj stores
  rw [same] at sticky
  simp [Sticky] at sticky

end Ysyx.Nemu.Expr
