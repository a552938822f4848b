import Ysyx.Nemu.ExprProperties
import Ysyx.Nemu.ExprText
import Mathlib.Data.List.Chain

/-! `expr` on the text of a parse tree: the tokens are found again, the prefix operators among
them too, and the value is that of the tree as `eval` groups it. -/

set_option autoImplicit false

namespace Ysyx.Nemu.Expr

open Rv32 (Word)

variable {Mem : Type}

/-!
## Tokens of a tree
-/

@[simp] theorem UnaryOp.isOperand_token (op : UnaryOp) : isOperand op.token = false := by
  cases op <;> rfl

@[simp] theorem BinaryOp.isOperand_token (op : BinaryOp) : isOperand op.token = false := by
  cases op <;> rfl

@[simp] theorem UnaryOp.endsOperand_token (op : UnaryOp) : endsOperand op.token = false := by
  cases op <;> rfl

@[simp] theorem BinaryOp.endsOperand_token (op : BinaryOp) : endsOperand op.token = false := by
  cases op <;> rfl

@[simp] theorem BinaryOp.raw_token (op : BinaryOp) : op.token.raw = op.token := by
  cases op <;> rfl

/-- No operand directly follows an operand. -/
def Apart (tok next : Token) : Prop := isOperand tok = true → isOperand next = false

theorem apart_tokens (t : Tree) {rest : List Token} (chain : rest.IsChain Apart)
    (first : ∀ tok ∈ rest.head?, isOperand tok = false) : (t.tokens ++ rest).IsChain Apart := by
  have free {tok : Token} {rest : List Token} (operator : isOperand tok = false)
      (chain : rest.IsChain Apart) : (tok :: rest).IsChain Apart :=
    chain.cons fun _ _ operand => absurd (operator.symm.trans operand) Bool.false_ne_true
  induction t generalizing rest with
  | num str | hexnum str | reg str => exact chain.cons fun tok head _ => first tok head
  | paren inner ih =>
      have whole : (Tree.paren inner).tokens ++ rest =
          .lparen :: (inner.tokens ++ .rparen :: rest) := by simp [Tree.tokens]
      rw [whole]
      exact free rfl (ih (free rfl chain) (by simp [isOperand]))
  | unary op inner ih => exact free op.isOperand_token (ih chain first)
  | binary op left right ihLeft ihRight =>
      rw [Tree.tokens, List.append_assoc]
      exact ihLeft (free op.isOperand_token (ihRight chain first)) (by simp)

theorem retag_after {prev : Option Token} {tok : Token} {rest : List Token}
    (operand : prev.any endsOperand = true) :
    retag prev (tok :: rest) = tok :: retag (some tok) rest := by
  simp only [retag, operand, if_true]

theorem retag_prefix {prev : Option Token} {rest : List Token} (op : UnaryOp)
    (operator : prev.any endsOperand = false) :
    retag prev (op.token.raw :: rest) = op.token :: retag (some op.token) rest := by
  cases op <;> simp [retag, operator, UnaryOp.token, Token.raw]

/-- The prefix operators of a tree are found again. -/
theorem retag_tokens (t : Tree) (prev : Option Token) (operator : prev.any endsOperand = false) :
    ∃ last, endsOperand last = true ∧ ∀ rest, retag prev (t.tokens.map Token.raw ++ rest) =
      t.tokens ++ retag (some last) rest := by
  induction t generalizing prev with
  | num str => exact ⟨.num str, rfl, fun rest => by simp [Tree.tokens, Token.raw, retag, operator]⟩
  | hexnum str =>
      exact ⟨.hexnum str, rfl, fun rest => by simp [Tree.tokens, Token.raw, retag, operator]⟩
  | reg str => exact ⟨.reg str, rfl, fun rest => by simp [Tree.tokens, Token.raw, retag, operator]⟩
  | paren inner ih =>
      obtain ⟨last, ends, found⟩ := ih (some .lparen) rfl
      refine ⟨.rparen, rfl, fun rest => ?_⟩
      have opened (rest : List Token) :
          retag prev (.lparen :: rest) = .lparen :: retag (some .lparen) rest := by
        simp [retag, operator]
      simp only [Tree.tokens, List.map_cons, List.map_append, List.cons_append,
        List.append_assoc, Token.raw, List.map_nil, List.nil_append]
      rw [opened, found, retag_after (by simpa using ends)]
  | unary op inner ih =>
      obtain ⟨last, ends, found⟩ := ih (some op.token) (by simp)
      refine ⟨last, ends, fun rest => ?_⟩
      rw [Tree.tokens, List.map_cons, List.cons_append, retag_prefix op operator, found]
      rfl
  | binary op left right ihLeft ihRight =>
      obtain ⟨lastLeft, endsLeft, foundLeft⟩ := ihLeft prev operator
      obtain ⟨last, ends, found⟩ := ihRight (some op.token) (by simp)
      refine ⟨last, ends, fun rest => ?_⟩
      rw [Tree.tokens, List.map_append, List.append_assoc, foundLeft, List.map_cons,
        List.cons_append, op.raw_token, retag_after (by simpa using endsLeft), found,
        List.append_assoc]
      rfl

theorem retag_raw (t : Tree) : retag none (t.tokens.map Token.raw) = t.tokens := by
  obtain ⟨last, _, found⟩ := retag_tokens t none rfl
  simpa [retag] using found []

/-- A name of the table is one the rule for registers matches. -/
theorem regs_lexical : ∀ name ∈ ['p', 'c'] :: regs,
    ∃ dollar ∈ [[], ['$']], dollar ++ name.drop dollar.length = name ∧
      name.drop dollar.length ≠ [] ∧ name.drop dollar.length ⊆ regChars := by decide

theorem Token.Literal.lexical {tok : Token} (literal : tok.Literal) : tok.Lexical := by
  cases tok with
  | num str => exact ⟨literal.1, literal.2.1⟩
  | hexnum str =>
      obtain ⟨x, digits, rfl, mark, nonempty, inside, _⟩ := literal
      exact ⟨x, digits, rfl, mark, nonempty, inside⟩
  | reg str =>
      obtain ⟨name, rfl, known⟩ := literal
      have member : name ∈ ['p', 'c'] :: regs := by
        rcases known with table | rfl
        · exact List.mem_cons_of_mem _ table
        · exact List.mem_cons_self
      obtain ⟨dollar, isOpt, whole, nonempty, inside⟩ := regs_lexical name member
      refine ⟨dollar, name.drop dollar.length, by rw [whole], by simpa using isOpt, nonempty,
        inside⟩
  | _ => trivial

/-!
## Bounds
-/

/-- The blanks the arrays of `make_token` leave room for: a run of blanks is a match like
another, and none is taken after the last token that fits. -/
structure BlanksFit (spaced : List (Nat × Token)) (last : Nat) : Prop where
  between : ∀ p ∈ spaced, p.1 < strSize
  after : last < strSize
  room : spaced.length = nrTokens → last = 0

theorem recorded_append (first second : List (List Char × Option Token)) :
    recorded (first ++ second) = recorded first ++ recorded second :=
  List.filterMap_append

theorem recorded_blank (gap : Nat) : recorded (blank gap) = [] := by
  rw [blank]
  split <;> rfl

theorem recorded_spelled (spaced : List (Nat × Token)) (last : Nat) :
    recorded (spelled spaced last) = (spaced.map Prod.snd).map Token.raw := by
  induction spaced with
  | nil => exact recorded_blank last
  | cons first rest ih =>
      obtain ⟨gap, tok⟩ := first
      rw [spelled, recorded_append, recorded_blank, recorded_cons, ih]
      rfl

theorem fits_blank {nr gap : Nat} {rest : List (List Char × Option Token)} :
    Fits nr (blank gap ++ rest) ↔
      (gap ≠ 0 → gap < strSize ∧ nr < nrTokens) ∧ Fits nr rest := by
  by_cases zero : gap = 0
  · simp [blank, zero]
  · simp [blank, zero, Fits, and_assoc]

theorem fits_spelled {spaced : List (Nat × Token)} {last nr : Nat}
    (short : ∀ p ∈ spaced, p.2.text.length < strSize) (few : nr + spaced.length ≤ nrTokens) :
    Fits nr (spelled spaced last) ↔ (∀ p ∈ spaced, p.1 < strSize) ∧
      (last ≠ 0 → last < strSize ∧ nr + spaced.length < nrTokens) := by
  induction spaced generalizing nr with
  | nil =>
      rw [spelled, ← List.append_nil (blank last), fits_blank]
      simp [Fits]
  | cons first rest ih =>
      obtain ⟨gap, tok⟩ := first
      simp only [List.length_cons] at few
      have next : Fits (nr + 1) (spelled rest last) ↔ _ :=
        ih (fun p inside => short p (by simp [inside])) (by omega)
      have here := short (gap, tok) (by simp)
      have positive : 0 < strSize := by decide
      rw [spelled, fits_blank, Fits, Option.toList_some, List.length_singleton, next]
      simp only [List.length_cons, List.forall_mem_cons]
      constructor
      · rintro ⟨gapFits, _, room, gaps, blanks⟩
        refine ⟨⟨?_, gaps⟩, fun more => ⟨(blanks more).1, ?_⟩⟩
        · by_cases zero : gap = 0
          · omega
          · exact (gapFits zero).1
        · have := (blanks more).2
          omega
      · rintro ⟨⟨gapFits, gaps⟩, blanks⟩
        refine ⟨fun _ => ⟨gapFits, by omega⟩, here, by omega, gaps, fun more => ⟨(blanks more).1, ?_⟩⟩
        have := (blanks more).2
        omega

theorem BlanksFit.fits {spaced : List (Nat × Token)} {last : Nat}
    (short : ∀ p ∈ spaced, p.2.text.length < strSize) (few : spaced.length ≤ nrTokens) :
    Fits 0 (spelled spaced last) ↔ BlanksFit spaced last := by
  have positive : 0 < strSize := by decide
  rw [fits_spelled short (by omega)]
  constructor
  · rintro ⟨between, blanks⟩
    refine ⟨between, ?_, fun full => ?_⟩
    · by_cases zero : last = 0
      · omega
      · exact (blanks zero).1
    · by_contra more
      have := (blanks more).2
      omega
  · rintro ⟨between, after, room⟩
    refine ⟨between, fun more => ⟨after, ?_⟩⟩
    by_contra full
    exact more (room (by omega))

/-!
## The value of `expr`
-/

section Text

variable {m : Machine Mem} {t : Tree} {spaced : List (Nat × Token)} {last : Nat}

/-- On the text of a parse tree `expr` runs the grouping of the tree, and stops in
`make_token` exactly when the blanks do not fit. -/
theorem expr_spell (parsed : t.WellFormed) (literals : ∀ tok ∈ t.tokens, tok.Literal)
    (spells : spaced.map Prod.snd = t.tokens) (short : ∀ tok ∈ t.tokens, tok.text.length < strSize)
    (few : t.tokens.length ≤ nrTokens) (mem : Mem) :
    (BlanksFit spaced last → expr m (spell spaced last) mem = t.group.run m mem) ∧
    (¬ BlanksFit spaced last → ∃ stop, expr m (spell spaced last) mem = .error stop) := by
  have inTree : ∀ p ∈ spaced, p.2 ∈ t.tokens := fun p inside =>
    spells ▸ List.mem_map_of_mem inside
  have chain : (t.tokens ++ []).IsChain Apart := apart_tokens t .nil (by simp)
  rw [List.append_nil, ← spells] at chain
  have cut := pieces_spell last (fun p inside => (literals _ (inTree p inside)).lexical) chain
  have length : spaced.length = t.tokens.length := by rw [← spells, List.length_map]
  have fits : Fits 0 (spelled spaced last) ↔ BlanksFit spaced last :=
    BlanksFit.fits (fun p inside => short _ (inTree p inside)) (by omega)
  obtain ⟨made, stopped⟩ := makeToken_eq (spell spaced last) []
  rw [cut, recorded_spelled, spells] at made
  rw [cut] at stopped
  constructor
  · intro blanks
    rw [expr, made (fits.mpr blanks)]
    calc eval m (retag none (t.tokens.map Token.raw)) mem
        = (grouping t.tokens).run m mem := by rw [retag_raw, eval_eq_run]
      _ = t.group.run m mem := by rw [grouping_tokens parsed]
  · intro blanks
    rcases stopped (fun fit => blanks (fits.mp fit)) with stop | stop
    · exact ⟨.substringTooLong, by rw [expr, stop]; rfl⟩
    · exact ⟨.tooManyTokens, by rw [expr, stop]; rfl⟩

/-- `expr`, called with `*success = true`, leaves it true and returns the value of the tree. -/
def Respects (m : Machine Mem) (t : Tree) (e : List Char) (mem : Mem) : Prop :=
  ∃ out, expr m e mem = .ok out ∧ out.success true = true ∧
    t.value m mem = some (out.val, out.mem)

/-- Where the grouping is the tree and every register name is compared whole. -/
structure Tree.Direct (t : Tree) : Prop where
  prefixFree : t.PrefixFree
  noS10 : Token.reg ['$', 's', '1', '0'] ∉ t.tokens
  noS11 : Token.reg ['$', 's', '1', '1'] ∉ t.tokens

theorem Result.success_of_clean {result : Result Mem} (clean : ∀ b ∈ result.stores, b = true) :
    result.success true = true := by
  rw [Result.success]
  cases stores : result.stores.getLast? with
  | none => simp [List.getLastD_eq_getLast?, stores]
  | some b =>
      rw [List.getLastD_eq_getLast?, stores]
      exact clean b (List.mem_of_getLast? stores)

/-- The value of every expression is that of its parse tree where no left operand begins with
a prefix operator, no register is `$s10` or `$s11` and the blanks fit; in general it is so
exactly when the blanks fit and the grouping happens to have the same value. -/
theorem expr_precedence (parsed : t.WellFormed) (literals : ∀ tok ∈ t.tokens, tok.Literal)
    (spells : spaced.map Prod.snd = t.tokens) (short : ∀ tok ∈ t.tokens, tok.text.length < strSize)
    (few : t.tokens.length ≤ nrTokens) {mem after : Mem} {value : Word}
    (result : t.value m mem = some (value, after)) :
    (BlanksFit spaced last ∧ t.Direct → Respects m t (spell spaced last) mem) ∧
    (Respects m t (spell spaced last) mem ↔ BlanksFit spaced last ∧
      ∃ out, t.group.run m mem = .ok out ∧ out.success true = true ∧
        t.value m mem = some (out.val, out.mem)) := by
  have ⟨runs, stops⟩ : (BlanksFit spaced last → expr m (spell spaced last) mem = _) ∧ _ :=
    expr_spell parsed literals spells short few mem
  constructor
  · rintro ⟨blanks, direct⟩
    obtain ⟨stores, ran, clean⟩ := run_shape literals direct.noS10 direct.noS11 result
    refine ⟨⟨value, stores, after⟩, ?_, Result.success_of_clean clean, result⟩
    rw [runs blanks, Tree.group_eq_shape direct.prefixFree, ran]
  · constructor
    · rintro ⟨out, ran, good, same⟩
      by_cases blanks : BlanksFit spaced last
      · exact ⟨blanks, out, runs blanks ▸ ran, good, same⟩
      · obtain ⟨stop, stopped⟩ := stops blanks
        rw [stopped] at ran
        cases ran
    · rintro ⟨blanks, out, ran, good, same⟩
      exact ⟨out, (runs blanks).trans ran, good, same⟩

end Text

/-- Registers that hold their number, and no readable memory. -/
def probe : Machine Unit where
  cpu := ⟨fun i => i.setWidth 32, 0, fun _ => 0⟩
  vaddrRead := fun _ _ => none

/-- `(1 + 2)*-$t0`. -/
theorem expr_precedence_product :
    let one := Token.num ['1']
    let two := Token.num ['2']
    let t0 := Token.reg ['$', 't', '0']
    Respects probe
      (.binary .mul (.paren (.binary .add (.num ['1']) (.num ['2'])))
        (.unary .neg (.reg ['$', 't', '0'])))
      (spell [(0, .lparen), (0, one), (1, .plus), (1, two), (0, .rparen), (0, .star), (0, .neg),
        (0, t0)] 0) () := by
  intro one two t0
  let product : Tree := .binary .mul (.paren (.binary .add (.num ['1']) (.num ['2'])))
    (.unary .neg (.reg ['$', 't', '0']))
  have value : product.value probe () = some (-15, ()) := by decide
  refine (expr_precedence (by decide) ?_ rfl ?_ (by decide) value).1
    ⟨⟨by decide, by decide, by decide⟩, ⟨?_, by decide, by decide⟩⟩
  · simp [product, Tree.tokens, Token.Literal, BinaryOp.token, UnaryOp.token, digitsValue]
    decide
  · decide
  · simp [product, Tree.PrefixFree, Tree.leading]

theorem expr_precedence_fails : ¬ ∀ (m : Machine Unit) (t : Tree) (spaced : List (Nat × Token))
    (last : Nat) (mem after : Unit) (value : Word), t.WellFormed →
      (∀ tok ∈ t.tokens, tok.Literal) → spaced.map Prod.snd = t.tokens →
      (∀ tok ∈ t.tokens, tok.text.length < strSize) → t.tokens.length ≤ nrTokens →
      t.value m mem = some (value, after) → Respects m t (spell spaced last) mem := by
  intro claim
  obtain ⟨out, ran, _, same⟩ := claim probe
    (.binary .add (.unary .neg (.num ['1'])) (.num ['2']))
    [(0, .neg), (0, .num ['1']), (0, .plus), (0, .num ['2'])] 0 () () 1 (by decide)
    (by simp [Tree.tokens, Token.Literal, BinaryOp.token, UnaryOp.token, digitsValue]; decide) rfl
    (by decide) (by decide) (by decide)
  have wrong : (expr probe (spell [(0, .neg), (0, .num ['1']), (0, .plus), (0, .num ['2'])] 0)
      ()).toOption.map Result.val = some (-3) := by decide +kernel
  rw [ran] at wrong
  have value : out.val = -3 := Option.some.inj wrong
  rw [value] at same
  cases same

end Ysyx.Nemu.Expr
