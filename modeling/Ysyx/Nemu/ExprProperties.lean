import Ysyx.Nemu.ExprGrammar

/-! `eval` on a range: the grouping it runs, and what that grouping is for the tokens of a
parse tree. -/

set_option autoImplicit false

namespace Ysyx.Nemu.Expr

open Rv32 (Word)

variable {Mem : Type}

/-!
## Operators
-/

@[simp] theorem UnaryOp.token_unaryOp (op : UnaryOp) : op.token.unaryOp = some op := by
  cases op <;> rfl

@[simp] theorem BinaryOp.token_unaryOp (op : BinaryOp) : op.token.unaryOp = none := by
  cases op <;> rfl

@[simp] theorem BinaryOp.token_binaryOp (op : BinaryOp) : op.token.binaryOp = some op := by
  cases op <;> rfl

@[simp] theorem BinaryOp.opPriority_token (op : BinaryOp) : opPriority op.token = op.level := by
  cases op <;> rfl

theorem BinaryOp.two_lt_level (op : BinaryOp) : 2 < op.level := by
  cases op <;> decide

theorem UnaryOp.opPriority_token (op : UnaryOp) :
    opPriority op.token ≠ 0 ∧ opPriority op.token ≤ 2 := by
  cases op <;> decide

@[simp] theorem UnaryOp.countAfter_token (op : UnaryOp) (count : Int) :
    countAfter count op.token = count := by
  cases op <;> rfl

@[simp] theorem BinaryOp.countAfter_token (op : BinaryOp) (count : Int) :
    countAfter count op.token = count := by
  cases op <;> rfl

theorem Token.operator_of_priority {tok : Token} (operator : opPriority tok ≠ 0) :
    (∃ op : UnaryOp, tok = op.token) ∨ ∃ op : BinaryOp, tok = op.token := by
  cases tok
  case pos => exact .inl ⟨.pos, rfl⟩
  case neg => exact .inl ⟨.neg, rfl⟩
  case deref => exact .inl ⟨.deref, rfl⟩
  case plus => exact .inr ⟨.add, rfl⟩
  case minus => exact .inr ⟨.sub, rfl⟩
  case star => exact .inr ⟨.mul, rfl⟩
  case slash => exact .inr ⟨.div, rfl⟩
  case eq => exact .inr ⟨.eq, rfl⟩
  case noeq => exact .inr ⟨.ne, rfl⟩
  case and => exact .inr ⟨.and, rfl⟩
  case or => exact .inr ⟨.or, rfl⟩
  all_goals exact absurd rfl operator

@[simp] theorem UnaryOp.isPrefix_token (op : UnaryOp) : isPrefix op.token = true := by
  cases op <;> rfl

@[simp] theorem BinaryOp.isPrefix_token (op : BinaryOp) : isPrefix op.token = false := by
  cases op <;> rfl

/-!
## What `eval` runs
-/

theorem getD_of_getElem? {range : List Token} {op : Nat} {tok : Token}
    (inside : range[op]? = some tok) : range.getD op .rparen = tok := by
  rw [List.getD_eq_getElem?_getD, inside]
  rfl

section Split

variable {range : List Token} {op : Nat}

theorem exists_of_long (long : 2 ≤ range.length) :
    ∃ first second rest, range = first :: second :: rest := by
  match range, long with
  | first :: second :: rest, _ => exact ⟨first, second, rest, rfl⟩

theorem grouping_paren (long : 2 ≤ range.length) (paren : checkParentheses range = true) :
    grouping range = grouping range.tail.dropLast := by
  obtain ⟨first, second, rest, rfl⟩ := exists_of_long long
  rw [grouping, if_pos paren]

theorem grouping_hole (long : 2 ≤ range.length) (paren : ¬ checkParentheses range = true)
    (found : dominantOp range = none) : grouping range = .hole := by
  obtain ⟨first, second, rest, rfl⟩ := exists_of_long long
  rw [grouping, if_neg paren]
  split
  · rfl
  · simp_all

theorem grouping_unary {unary : UnaryOp} (long : 2 ≤ range.length)
    (paren : ¬ checkParentheses range = true) (found : dominantOp range = some op)
    (inside : range[op]? = some unary.token) :
    grouping range = .unary (range.take op) unary (grouping (range.drop (op + 1))) := by
  obtain ⟨first, second, rest, rfl⟩ := exists_of_long long
  rw [grouping, if_neg paren]
  split
  · simp_all
  · rename_i at_ same
    obtain rfl : op = at_ := Option.some.inj (found.symm.trans same)
    simp only [getD_of_getElem? inside, UnaryOp.token_unaryOp]

theorem grouping_binary {binary : BinaryOp} (long : 2 ≤ range.length)
    (paren : ¬ checkParentheses range = true) (found : dominantOp range = some op)
    (inside : range[op]? = some binary.token) :
    grouping range =
      .binary binary (grouping (range.take op)) (grouping (range.drop (op + 1))) := by
  obtain ⟨first, second, rest, rfl⟩ := exists_of_long long
  rw [grouping, if_neg paren]
  split
  · simp_all
  · rename_i at_ same
    obtain rfl : op = at_ := Option.some.inj (found.symm.trans same)
    simp only [getD_of_getElem? inside, BinaryOp.token_unaryOp, BinaryOp.token_binaryOp]

variable (m : Machine Mem) (mem : Mem)

theorem eval_paren (long : 2 ≤ range.length) (paren : checkParentheses range = true) :
    eval m range mem = eval m range.tail.dropLast mem := by
  obtain ⟨first, second, rest, rfl⟩ := exists_of_long long
  rw [eval, if_pos paren]

theorem eval_hole (long : 2 ≤ range.length) (paren : ¬ checkParentheses range = true)
    (found : dominantOp range = none) : eval m range mem = .ok ⟨0, [false], mem⟩ := by
  obtain ⟨first, second, rest, rfl⟩ := exists_of_long long
  rw [eval, if_neg paren]
  split
  · rfl
  · simp_all

theorem eval_unary {unary : UnaryOp} (long : 2 ≤ range.length)
    (paren : ¬ checkParentheses range = true) (found : dominantOp range = some op)
    (inside : range[op]? = some unary.token) :
    eval m range mem = (eval m (range.drop (op + 1)) mem).bind fun right =>
      evalOp m unary.token 0 right.val right.stores right.mem := by
  obtain ⟨first, second, rest, rfl⟩ := exists_of_long long
  rw [eval, if_neg paren]
  split
  · simp_all
  · rename_i at_ same
    obtain rfl : op = at_ := Option.some.inj (found.symm.trans same)
    simp only [getD_of_getElem? inside, UnaryOp.isPrefix_token, if_true, bind, Except.bind,
      List.nil_append]

theorem eval_binary {binary : BinaryOp} (long : 2 ≤ range.length)
    (paren : ¬ checkParentheses range = true) (found : dominantOp range = some op)
    (inside : range[op]? = some binary.token) :
    eval m range mem = (eval m (range.take op) mem).bind fun left =>
      (eval m (range.drop (op + 1)) left.mem).bind fun right =>
        evalOp m binary.token left.val right.val (left.stores ++ right.stores) right.mem := by
  obtain ⟨first, second, rest, rfl⟩ := exists_of_long long
  rw [eval, if_neg paren]
  split
  · simp_all
  · rename_i at_ same
    obtain rfl : op = at_ := Option.some.inj (found.symm.trans same)
    simp only [getD_of_getElem? inside, BinaryOp.isPrefix_token, bind]
    rfl

/-- `eval` runs the grouping of its range, whatever the range holds. -/
theorem eval_eq_run (m : Machine Mem) (range : List Token) (mem : Mem) :
    eval m range mem = (grouping range).run m mem := by
  induction length : range.length using Nat.strongRecOn generalizing range mem with
  | ind n ih =>
      subst length
      match range with
      | [] => rw [eval, grouping, Grouping.run]
      | [tok] =>
          rw [eval, grouping]
          cases tok <;> rfl
      | first :: second :: rest =>
          generalize whole : first :: second :: rest = range at ih
          have long : 2 ≤ range.length := by simp [← whole]
          by_cases paren : checkParentheses range = true
          · rw [eval_paren m mem long paren, grouping_paren long paren]
            exact ih _ (by simp only [List.length_dropLast, List.length_tail]; omega) _ _ rfl
          · cases found : dominantOp range with
            | none =>
                rw [eval_hole m mem long paren found, grouping_hole long paren found,
                  Grouping.run]
            | some op =>
                have lt := dominantOp_lt found
                have shorter : (range.drop (op + 1)).length < range.length := by
                  rw [List.length_drop]
                  omega
                have before : (range.take op).length < range.length := by
                  rw [List.length_take]
                  omega
                obtain ⟨tok, inside, operator⟩ := dominantOp_spec found
                obtain ⟨unary, rfl⟩ | ⟨binary, rfl⟩ := Token.operator_of_priority operator
                · rw [eval_unary m mem long paren found inside,
                    grouping_unary long paren found inside, Grouping.run,
                    ih _ shorter _ _ rfl]
                  rfl
                · rw [eval_binary m mem long paren found inside,
                    grouping_binary long paren found inside, Grouping.run,
                    ih _ before _ _ rfl]
                  simp only [ih _ shorter _ _ rfl]
                  rfl

end Split

/-!
## Parentheses and the dominant operator of a tree
-/

namespace Tree

theorem tokens_eq (t : Tree) : t.tokens = t.leading.map UnaryOp.token ++ t.body := by
  induction t with
  | unary op rest ih => simp [tokens, leading, body, ih]
  | binary op left right ihLeft _ => simp [tokens, leading, body, ihLeft]
  | _ => rfl

theorem body_ne_nil (t : Tree) : t.body ≠ [] := by
  induction t with
  | unary op rest ih => exact ih
  | _ => simp [body]

end Tree

theorem balanced_inside {count after : Int} {tok : Token} {rest : List Token}
    (next : countAfter count tok = after) (inside : 0 < after) :
    balanced count (tok :: rest) = balanced after rest := by
  rw [balanced, next, if_neg (by omega)]

theorem balanced_tokens (t : Tree) {count : Int} (inside : 0 < count) (rest : List Token) :
    balanced count (t.tokens ++ rest) = balanced count rest := by
  induction t generalizing count rest with
  | num str | hexnum str | reg str => exact balanced_inside rfl inside
  | paren inner ih =>
      have within : 0 < count + 1 := by omega
      calc balanced count (.lparen :: (inner.tokens ++ [.rparen]) ++ rest)
          = balanced (count + 1) (inner.tokens ++ .rparen :: rest) := by
            rw [List.cons_append, List.append_assoc]
            exact balanced_inside rfl within
        _ = balanced (count + 1) (.rparen :: rest) := ih within _
        _ = balanced count rest := balanced_inside (Int.add_sub_cancel count 1) inside
  | unary op inner ih =>
      rw [Tree.tokens, List.cons_append, balanced_inside (op.countAfter_token count) inside,
        ih inside]
  | binary op left right ihLeft ihRight =>
      rw [Tree.tokens, List.append_assoc, ihLeft inside, List.cons_append,
        balanced_inside (op.countAfter_token count) inside, ihRight inside]

theorem checkParentheses_paren (t : Tree) : checkParentheses (Tree.paren t).tokens = true := by
  have inside := balanced_tokens t (show (0 : Int) < 1 by decide) [.rparen]
  have last : (Token.lparen :: t.tokens ++ [Token.rparen]).getLast? = some Token.rparen :=
    List.getLast?_concat
  rw [checkParentheses, Tree.tokens, last]
  simp [balanced, countAfter, inside]

/-- The parentheses of a tree close before what follows it. -/
theorem balanced_body (t : Tree) {rest : List Token} (more : rest ≠ []) :
    balanced 0 (t.body ++ rest) = false := by
  induction t generalizing rest with
  | num str | hexnum str | reg str =>
      simp [Tree.body, balanced, countAfter, more]
  | paren inner _ =>
      have inside := balanced_tokens inner (show (0 : Int) < 1 by decide) (.rparen :: rest)
      simp [Tree.body, balanced, countAfter, inside, more]
  | unary op inner ih => exact ih more
  | binary op left right ihLeft _ =>
      rw [Tree.body, List.append_assoc]
      exact ihLeft (by simp)

theorem checkParentheses_binary (left : Tree) {rest : List Token} (more : rest ≠ []) :
    ¬ checkParentheses (left.body ++ rest) = true := by
  simp [checkParentheses, balanced_body left more]

theorem checkParentheses_unary (op : UnaryOp) (rest : List Token) :
    ¬ checkParentheses (op.token :: rest) = true := by
  cases op <;> simp [checkParentheses, UnaryOp.token]

namespace Scan

theorem step_plain {scan : Scan} {tok : Token} (plain : opPriority tok = 0) :
    scan.step tok = .ok { scan with i := scan.i + 1, count := countAfter scan.count tok } := by
  simp only [step, plain]
  split <;> rfl

theorem step_inside {scan : Scan} {tok : Token} (inside : countAfter scan.count tok ≠ 0) :
    scan.step tok = .ok { scan with i := scan.i + 1, count := countAfter scan.count tok } := by
  simp only [step, if_pos inside]

theorem foldlM_cons_of_step {scan next : Scan} {tok : Token} {rest : List Token}
    (ran : scan.step tok = .ok next) :
    (tok :: rest).foldlM step scan = rest.foldlM step next := by
  rw [List.foldlM_cons, ran]
  rfl

theorem foldlM_append_of_run {scan next : Scan} {first rest : List Token}
    (ran : first.foldlM step scan = .ok next) :
    (first ++ rest).foldlM step scan = rest.foldlM step next := by
  rw [List.foldlM_append, ran]
  rfl

/-- Between parentheses nothing is chosen. -/
theorem foldlM_inside (t : Tree) {scan : Scan} (inside : 0 < scan.count) :
    t.tokens.foldlM step scan = .ok { scan with i := scan.i + t.tokens.length } := by
  induction t generalizing scan with
  | num str | hexnum str | reg str => exact foldlM_cons_of_step (step_plain rfl)
  | paren inner ih =>
      have within : (0 : Int) < scan.count + 1 := by omega
      rw [Tree.tokens, List.cons_append, foldlM_cons_of_step (step_plain rfl)]
      rw [foldlM_append_of_run (ih within), foldlM_cons_of_step (step_plain rfl)]
      simp [countAfter, Nat.add_assoc, pure, Except.pure]
      omega
  | unary op inner ih =>
      rw [Tree.tokens, foldlM_cons_of_step (step_inside (by simp; omega))]
      rw [ih (by simpa)]
      simp
      omega
  | binary op left right ihLeft ihRight =>
      rw [Tree.tokens, foldlM_append_of_run (ihLeft inside),
        foldlM_cons_of_step (step_inside (by simp; omega)), ihRight (by simpa)]
      simp
      omega

/-- To the right of a binary operator nothing that binds tighter replaces it. -/
theorem foldlM_right {t : Tree} (parsed : t.WellFormed) {scan : Scan} (outside : scan.count = 0)
    (held : 2 < scan.priority) (looser : t.level < scan.priority) :
    t.tokens.foldlM step scan = .ok { scan with i := scan.i + t.tokens.length } := by
  induction t generalizing scan with
  | num str | hexnum str | reg str => exact foldlM_cons_of_step (step_plain rfl)
  | paren inner _ =>
      have within : (0 : Int) < scan.count + 1 := by omega
      rw [Tree.tokens, List.cons_append, foldlM_cons_of_step (step_plain rfl)]
      rw [foldlM_append_of_run (foldlM_inside inner within), foldlM_cons_of_step (step_plain rfl)]
      simp [countAfter, Nat.add_assoc, pure, Except.pure]
      omega
  | unary op inner ih =>
      have tighter : inner.level < scan.priority := by
        have := parsed.2
        omega
      have skipped : scan.step op.token = .ok { scan with i := scan.i + 1 } := by
        have ⟨operator, prefix_⟩ := op.opPriority_token
        simp only [step, UnaryOp.countAfter_token, outside, ne_eq, not_true_eq_false, if_false,
          operator]
        rw [if_neg (by omega), if_neg (by omega)]
      rw [Tree.tokens, foldlM_cons_of_step skipped]
      rw [ih parsed.1 (by exact outside) (by exact held) (by exact tighter)]
      simp
      omega
  | binary op left right ihLeft ihRight =>
      obtain ⟨parsedLeft, parsedRight, below, above⟩ := parsed
      have tighter : op.level < scan.priority := looser
      have skipped (i : Nat) :
          Scan.step { scan with i := i } op.token = .ok { scan with i := i + 1 } := by
        have binary := op.two_lt_level
        simp only [step, BinaryOp.countAfter_token, outside, ne_eq, not_true_eq_false, if_false,
          BinaryOp.opPriority_token]
        rw [if_neg (by omega), if_neg (by omega), if_neg (by omega)]
      rw [Tree.tokens, foldlM_append_of_run (ihLeft parsedLeft outside held (by omega)),
        foldlM_cons_of_step (skipped _)]
      rw [ihRight parsedRight (by simpa) (by simpa) (by simp; omega)]
      simp
      omega

/-- After a tree without the prefixes it begins with, the operator held is at most as loose
as the tree. -/
theorem foldlM_body {t : Tree} (parsed : t.WellFormed) (i : Nat) :
    ∃ op priority, t.body.foldlM step ⟨i, 0, none, 0⟩ =
        .ok ⟨i + t.body.length, 0, op, priority⟩ ∧ priority ≤ t.level ∧
      ∀ binary left right, t = .binary binary left right → op = some (i + left.body.length) := by
  induction t with
  | num str | hexnum str | reg str =>
      exact ⟨none, 0, foldlM_cons_of_step (step_plain rfl), by simp, by simp⟩
  | paren inner _ =>
      refine ⟨none, 0, ?_, by simp, by simp⟩
      have within : (0 : Int) < 0 + 1 := by decide
      rw [Tree.body, List.cons_append, foldlM_cons_of_step (step_plain rfl)]
      rw [foldlM_append_of_run (foldlM_inside inner within), foldlM_cons_of_step (step_plain rfl)]
      simp [countAfter, Nat.add_assoc, pure, Except.pure]
      omega
  | unary op inner ih =>
      obtain ⟨held, priority, ran, below, _⟩ := ih parsed.1
      exact ⟨held, priority, ran, below.trans parsed.2, by simp⟩
  | binary op left right ihLeft _ =>
      obtain ⟨parsedLeft, parsedRight, below, above⟩ := parsed
      obtain ⟨held, priority, ran, atMost, _⟩ := ihLeft parsedLeft
      have chosen : Scan.step ⟨i + left.body.length, 0, held, priority⟩ op.token =
          .ok ⟨i + left.body.length + 1, 0, some (i + left.body.length), op.level⟩ := by
        have binary := op.two_lt_level
        simp only [step, BinaryOp.countAfter_token, ne_eq, not_true_eq_false, if_false,
          BinaryOp.opPriority_token]
        rw [if_neg (by omega), if_pos (by omega)]
      refine ⟨some (i + left.body.length), op.level, ?_, le_rfl, ?_⟩
      · rw [Tree.body, foldlM_append_of_run ran, foldlM_cons_of_step chosen,
          foldlM_right parsedRight rfl op.two_lt_level above]
        simp
        omega
      · rintro _ _ _ ⟨⟩
        rfl

end Scan

theorem dominantOp_binary {op : BinaryOp} {left right : Tree}
    (parsed : (Tree.binary op left right).WellFormed) :
    dominantOp (left.body ++ op.token :: right.tokens) = some left.body.length := by
  obtain ⟨held, priority, ran, _, chosen⟩ := Scan.foldlM_body parsed 0
  rw [Tree.body] at ran
  simp only [dominantOp, ran, chosen op left right rfl, Nat.zero_add]

theorem dominantOp_unary (op : UnaryOp) (rest : List Token) :
    dominantOp (op.token :: rest) = some 0 := by
  have broke : Scan.step ⟨0, 0, none, 0⟩ op.token = .error 0 := by
    cases op <;> rfl
  rw [dominantOp, List.foldlM_cons, broke]
  rfl

theorem grouping_prefix (op : UnaryOp) {rest : List Token} (more : rest ≠ []) :
    grouping (op.token :: rest) = .unary [] op (grouping rest) := by
  have long : 2 ≤ (op.token :: rest).length := by
    have := List.length_pos_iff.mpr more
    simp only [List.length_cons]
    omega
  rw [grouping_unary long (checkParentheses_unary op rest) (dominantOp_unary op rest) rfl]
  rfl

theorem grouping_prefixes (ops : List UnaryOp) {rest : List Token} (more : rest ≠ []) :
    grouping (ops.map UnaryOp.token ++ rest) = .under ops (grouping rest) := by
  induction ops with
  | nil => rfl
  | cons op ops ih =>
      rw [List.map_cons, List.cons_append,
        grouping_prefix op (List.append_ne_nil_of_right_ne_nil _ more), ih]
      rfl

theorem grouping_body {t : Tree} (parsed : t.WellFormed) : grouping t.body = t.core := by
  induction t with
  | num str | hexnum str | reg str => rw [Tree.body, grouping]; rfl
  | paren inner ih =>
      have long : 2 ≤ (Tree.paren inner).tokens.length := by
        simp [Tree.tokens]
      have peeled : (Tree.paren inner).tokens.tail.dropLast = inner.tokens := by
        simp [Tree.tokens]
      calc grouping (Tree.paren inner).tokens
          = grouping inner.tokens := by
            rw [grouping_paren long (checkParentheses_paren inner), peeled]
        _ = .under inner.leading inner.core := by
            rw [inner.tokens_eq, grouping_prefixes _ inner.body_ne_nil, ih parsed]
  | unary op inner ih => exact ih parsed.1
  | binary op left right ihLeft ihRight =>
      have long : 2 ≤ (left.body ++ op.token :: right.tokens).length := by
        have := List.length_pos_iff.mpr left.body_ne_nil
        simp only [List.length_append, List.length_cons]
        omega
      have inside : (left.body ++ op.token :: right.tokens)[left.body.length]? =
          some op.token := by simp
      rw [Tree.body, grouping_binary long (checkParentheses_binary left (by simp))
        (dominantOp_binary parsed) inside]
      have before : (left.body ++ op.token :: right.tokens).take left.body.length = left.body :=
        List.take_left
      have after : (left.body ++ op.token :: right.tokens).drop (left.body.length + 1) =
          right.tokens := by simp
      rw [before, after, ihLeft parsed.1, right.tokens_eq,
        grouping_prefixes _ right.body_ne_nil, ihRight parsed.2.1]
      rfl

/-- The grouping of a parse tree's tokens. -/
theorem grouping_tokens {t : Tree} (parsed : t.WellFormed) : grouping t.tokens = t.group := by
  rw [t.tokens_eq, grouping_prefixes _ t.body_ne_nil, grouping_body parsed]
  rfl

theorem Tree.group_eq_shape {t : Tree} (free : t.PrefixFree) : t.group = t.shape := by
  induction t with
  | num str | hexnum str | reg str => rfl
  | paren inner ih => exact ih free
  | unary op rest ih =>
      rw [Tree.shape, ← ih free]
      rfl
  | binary op left right ihLeft ihRight =>
      obtain ⟨none, freeLeft, freeRight⟩ := free
      have leftShape := ihLeft freeLeft
      rw [Tree.group, none] at leftShape
      calc (Tree.binary op left right).group
          = .binary op left.core right.group := by
            rw [Tree.group, Tree.leading, none]
            rfl
        _ = .binary op left.shape right.shape := by
            rw [ihRight freeRight, ← leftShape]
            rfl

/-!
## Values
-/

theorem scanNumber_of_lt {base : Nat} {digits : List Char}
    (small : digitsValue base digits < 2 ^ 32) :
    scanNumber base digits = BitVec.ofNat 32 (digitsValue base digits) := by
  rw [scanNumber, Nat.min_eq_left (by omega)]

/-- Only two names of the table are longer than the two characters compared. -/
theorem regs_short : ∀ name ∈ regs,
    name.take 2 = name ∨ name = ['s', '1', '0'] ∨ name = ['s', '1', '1'] := by decide

theorem isaRegStr2val_of_lookup {cpu : Cpu} {str : List Char} {value : Word}
    (literal : (Token.reg str).Literal) (s10 : str ≠ ['$', 's', '1', '0'])
    (s11 : str ≠ ['$', 's', '1', '1']) (found : lookup cpu (str.drop 1) = some value) :
    isaRegStr2val cpu str = (value, true) := by
  obtain ⟨name, rfl, known⟩ := literal
  have short : name.take 2 = name := by
    rcases known with table | rfl
    · rcases regs_short name table with short | rfl | rfl
      · exact short
      · exact absurd rfl s10
      · exact absurd rfl s11
    · rfl
  rw [isaRegStr2val, List.drop_one, List.tail_cons, short]
  rw [List.drop_one, List.tail_cons] at found
  rw [found]

theorem evalOp_unary {m : Machine Mem} {op : UnaryOp} {x value : Word} {mem after : Mem}
    {stores : List Bool} (result : op.value m x mem = some (value, after)) :
    evalOp m op.token 0 x stores mem = .ok ⟨value, stores, after⟩ := by
  cases op with
  | pos | neg =>
      obtain ⟨rfl, rfl⟩ := Prod.mk.inj (Option.some.inj result)
      rfl
  | deref =>
      have readable : m.vaddrRead x mem = some (value, after) := result
      simp only [evalOp, UnaryOp.token, readable]

theorem evalOp_binary {m : Machine Mem} {op : BinaryOp} {x y value : Word} {mem : Mem}
    {stores : List Bool} (result : op.value x y = some value) :
    evalOp m op.token x y stores mem = .ok ⟨value, stores, mem⟩ := by
  cases op with
  | add | sub | mul =>
      obtain rfl := Option.some.inj result
      rfl
  | div =>
      simp only [BinaryOp.value] at result
      split at result
      · cases result
      · rename_i nonzero
        obtain rfl := Option.some.inj result
        simp only [evalOp, BinaryOp.token, if_neg nonzero]
  | eq | ne | and | or =>
      obtain rfl := Option.some.inj result
      by_cases left : x = 0 <;> by_cases right : y = 0 <;> by_cases same : x = y <;>
        simp_all [evalOp, BinaryOp.token, truth]

/-- The tree as it stands runs to its value and stores no failure. -/
theorem run_shape {m : Machine Mem} {t : Tree} (literals : ∀ tok ∈ t.tokens, tok.Literal)
    (s10 : Token.reg ['$', 's', '1', '0'] ∉ t.tokens)
    (s11 : Token.reg ['$', 's', '1', '1'] ∉ t.tokens) {mem after : Mem} {value : Word}
    (result : t.value m mem = some (value, after)) :
    ∃ stores, t.shape.run m mem = .ok ⟨value, stores, after⟩ ∧ ∀ b ∈ stores, b = true := by
  induction t generalizing mem after value with
  | num str =>
      obtain ⟨rfl, rfl⟩ := Prod.mk.inj (Option.some.inj result)
      have literal := literals (.num str) (by simp [Tree.tokens])
      refine ⟨[], ?_, by simp⟩
      simp only [Tree.shape, Grouping.run, evalToken, scanNumber_of_lt literal.2.2]
  | hexnum str =>
      obtain ⟨rfl, rfl⟩ := Prod.mk.inj (Option.some.inj result)
      obtain ⟨x, digits, rfl, _, _, _, small⟩ := literals (.hexnum str) (by simp [Tree.tokens])
      refine ⟨[], ?_, by simp⟩
      have number : scanNumber 16 (('0' :: x :: digits).drop 2) =
          BitVec.ofNat 32 (digitsValue 16 (('0' :: x :: digits).drop 2)) :=
        scanNumber_of_lt small
      simp only [Tree.shape, Grouping.run, evalToken, number]
  | reg str =>
      obtain ⟨found, present, pair⟩ := Option.map_eq_some_iff.mp result
      obtain ⟨rfl, rfl⟩ := Prod.mk.inj pair
      have read := isaRegStr2val_of_lookup (literals _ (by simp [Tree.tokens]))
        (by rintro rfl; simp [Tree.tokens] at s10) (by rintro rfl; simp [Tree.tokens] at s11)
        present
      exact ⟨[true], by simp [Tree.shape, Grouping.run, evalToken, read], by simp⟩
  | paren inner ih =>
      refine ih (fun tok inside => literals tok ?_) (fun inside => s10 ?_)
        (fun inside => s11 ?_) result
      all_goals simp [Tree.tokens, inside]
  | unary op rest ih =>
      obtain ⟨⟨x, between⟩, operand, result⟩ := Option.bind_eq_some_iff.mp result
      obtain ⟨stores, ran, clean⟩ := ih
        (fun tok inside => literals tok (by simp [Tree.tokens, inside]))
        (fun inside => s10 (by simp [Tree.tokens, inside]))
        (fun inside => s11 (by simp [Tree.tokens, inside])) operand
      refine ⟨stores, ?_, clean⟩
      rw [Tree.shape, Grouping.run, ran]
      exact evalOp_unary result
  | binary op left right ihLeft ihRight =>
      obtain ⟨⟨x, between⟩, first, result⟩ := Option.bind_eq_some_iff.mp result
      obtain ⟨⟨y, last⟩, second, result⟩ := Option.bind_eq_some_iff.mp result
      obtain ⟨found, combined, pair⟩ := Option.map_eq_some_iff.mp result
      obtain ⟨rfl, rfl⟩ := Prod.mk.inj pair
      obtain ⟨storesLeft, ranLeft, cleanLeft⟩ := ihLeft
        (fun tok inside => literals tok (by simp [Tree.tokens, inside]))
        (fun inside => s10 (by simp [Tree.tokens, inside]))
        (fun inside => s11 (by simp [Tree.tokens, inside])) first
      obtain ⟨storesRight, ranRight, cleanRight⟩ := ihRight
        (fun tok inside => literals tok (by simp [Tree.tokens, inside]))
        (fun inside => s10 (by simp [Tree.tokens, inside]))
        (fun inside => s11 (by simp [Tree.tokens, inside])) second
      refine ⟨storesLeft ++ storesRight, ?_, fun b inside => ?_⟩
      · rw [Tree.shape, Grouping.run, ranLeft]
        simp only [bind, Except.bind, ranRight]
        exact evalOp_binary combined
      · rcases List.mem_append.mp inside with inside | inside
        · exact cleanLeft b inside
        · exact cleanRight b inside

end Ysyx.Nemu.Expr
