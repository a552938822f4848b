import Ysyx.Nemu.ExprGrammar

/-! `make_token` on the text of an expression: the pieces the rules cut it into, its bounds,
and the pieces of a text that spells given tokens with blanks between them. -/

set_option autoImplicit false

namespace Ysyx.Nemu.Expr

open Lib (oneOf literal opt many1 longestMatch)

/-- The pieces the rules cut a text into, each with the token it records; the flag tells
whether they reach its end. -/
def pieces (e : List Char) : List (List Char × Option Token) × Bool :=
  match e with
  | [] => ([], true)
  | c :: rest =>
      match _found : firstRule (c :: rest) with
      | none => ([], false)
      | some (len, rule) =>
          let str := (c :: rest).take len
          let next := pieces ((c :: rest).drop len)
          ((str, rule.token str) :: next.1, next.2)
termination_by e.length
decreasing_by
  rw [List.length_drop]
  have := firstRule_pos _found
  simp only [List.length_cons]
  omega

def recorded (cut : List (List Char × Option Token)) : List Token := cut.filterMap Prod.snd

/-- The two assertions of `make_token` hold at every piece, after `nr` tokens. -/
def Fits : Nat → List (List Char × Option Token) → Prop
  | _, [] => True
  | nr, (str, tok) :: rest =>
      str.length < strSize ∧ nr < nrTokens ∧ Fits (nr + tok.toList.length) rest

/-- The characters of a token. -/
def Token.text : Token → List Char
  | .hexnum str | .num str | .reg str => str
  | .eq => ['=', '=']
  | .noeq => ['!', '=']
  | .and => ['&', '&']
  | .or => ['|', '|']
  | .plus | .pos => ['+']
  | .minus | .neg => ['-']
  | .star | .deref => ['*']
  | .slash => ['/']
  | .lparen => ['(']
  | .rparen => [')']

/-- The token as `make_token` records it, before the prefix operators are found. -/
def Token.raw : Token → Token
  | .pos => .plus
  | .neg => .minus
  | .deref => .star
  | tok => tok

/-- The text of the token is one its rule matches. -/
def Token.Lexical : Token → Prop
  | .num str => str ≠ [] ∧ ∀ c ∈ str, c ∈ decDigits
  | .hexnum str => ∃ x digits, str = '0' :: x :: digits ∧ x ∈ ['x', 'X'] ∧ digits ≠ [] ∧
      ∀ c ∈ digits, c ∈ hexDigits
  | .reg str => ∃ dollar name, str = '$' :: (dollar ++ name) ∧ (dollar = [] ∨ dollar = ['$']) ∧
      name ≠ [] ∧ ∀ c ∈ name, c ∈ regChars
  | _ => True

/-- The characters that may follow an operand. -/
def delimiters : List Char := [' ', '+', '-', '*', '/', '(', ')', '=', '!', '&', '|']

/-- Tokens with blanks before each of them, and `last` blanks at the end. -/
def spell : List (Nat × Token) → Nat → List Char
  | [], last => List.replicate last ' '
  | (gap, tok) :: rest, last => List.replicate gap ' ' ++ (tok.text ++ spell rest last)

def blank (gap : Nat) : List (List Char × Option Token) :=
  if gap = 0 then [] else [(List.replicate gap ' ', none)]

def spelled : List (Nat × Token) → Nat → List (List Char × Option Token)
  | [], last => blank last
  | (gap, tok) :: rest, last => blank gap ++ (tok.text, some tok.raw) :: spelled rest last

/-!
## The bounds of `make_token`
-/

theorem firstRule_le {e : List Char} {len : Nat} {rule : Rule}
    (found : firstRule e = some (len, rule)) : len ≤ e.length :=
  Lib.longestMatch_le (firstRule_mem found).2

theorem firstRule_nil : firstRule [] = none := by decide

theorem makeToken_none {e : List Char} {tokens : List Token} (more : e ≠ [])
    (found : firstRule e = none) : makeToken e tokens = .ok none := by
  obtain ⟨c, rest, rfl⟩ := List.exists_cons_of_ne_nil more
  rw [makeToken]
  split
  · rfl
  · simp_all

theorem makeToken_some {e : List Char} {tokens : List Token} {len : Nat} {rule : Rule}
    (found : firstRule e = some (len, rule)) :
    makeToken e tokens =
      if strSize ≤ len then .error .substringTooLong
      else if nrTokens ≤ tokens.length then .error .tooManyTokens
      else makeToken (e.drop len) (tokens ++ (rule.token (e.take len)).toList) := by
  cases e with
  | nil => simp [firstRule_nil] at found
  | cons c rest =>
      rw [makeToken]
      split
      · simp_all
      · rename_i same
        obtain ⟨rfl, rfl⟩ := Prod.mk.inj (Option.some.inj (found.symm.trans same))
        rfl

theorem pieces_none {e : List Char} (more : e ≠ []) (found : firstRule e = none) :
    pieces e = ([], false) := by
  obtain ⟨c, rest, rfl⟩ := List.exists_cons_of_ne_nil more
  rw [pieces]
  split
  · rfl
  · simp_all

theorem pieces_some {e : List Char} {len : Nat} {rule : Rule}
    (found : firstRule e = some (len, rule)) :
    pieces e = ((e.take len, rule.token (e.take len)) :: (pieces (e.drop len)).1,
      (pieces (e.drop len)).2) := by
  cases e with
  | nil => simp [firstRule_nil] at found
  | cons c rest =>
      rw [pieces]
      split
      · simp_all
      · rename_i same
        obtain ⟨rfl, rfl⟩ := Prod.mk.inj (Option.some.inj (found.symm.trans same))
        rfl

theorem recorded_cons (str : List Char) (tok : Option Token)
    (cut : List (List Char × Option Token)) :
    recorded ((str, tok) :: cut) = tok.toList ++ recorded cut := by
  cases tok <;> rfl

/-- `make_token` records the pieces when they fit its arrays, and asserts otherwise. -/
theorem makeToken_eq (e : List Char) (tokens : List Token) :
    (Fits tokens.length (pieces e).1 → makeToken e tokens =
      .ok (if (pieces e).2 then some (tokens ++ recorded (pieces e).1) else none)) ∧
    (¬ Fits tokens.length (pieces e).1 → makeToken e tokens = .error .substringTooLong ∨
      makeToken e tokens = .error .tooManyTokens) := by
  induction length : e.length using Nat.strongRecOn generalizing e tokens with
  | ind n ih =>
      subst length
      by_cases done : e = []
      · subst done
        simp [pieces, Fits, makeToken, recorded]
      · cases found : firstRule e with
        | none => simp [pieces_none done found, makeToken_none done found, Fits]
        | some pair =>
            obtain ⟨len, rule⟩ := pair
            have positive := firstRule_pos found
            have within := firstRule_le found
            have shorter : (e.drop len).length < e.length := by
              rw [List.length_drop]
              omega
            have size : (e.take len).length = len := by
              rw [List.length_take]
              omega
            have next := ih _ shorter (e.drop len)
              (tokens ++ (rule.token (e.take len)).toList) rfl
            rw [List.length_append] at next
            rw [pieces_some found, makeToken_some found, recorded_cons, Fits, size,
              ← List.append_assoc]
            by_cases long : strSize ≤ len
            · simp [if_pos long, Nat.not_lt.mpr long]
            · by_cases full : nrTokens ≤ tokens.length
              · simp [if_neg long, if_pos full, Nat.not_lt.mpr full]
              · simp only [if_neg long, if_neg full, Nat.lt_of_not_le long,
                  Nat.lt_of_not_le full, true_and]
                exact next

/-!
## Single tokens
-/

section Matches

variable {c d : Char} {cs rest word : List Char} {regex : RegularExpression Char}

theorem longestMatch_literal_ne (other : d ≠ c) :
    longestMatch (literal (c :: cs)) (d :: rest) = none := by
  refine Lib.longestMatch_eq_none_of_head [c] (fun word accepted => ?_) (by simpa)
  exact ⟨c, by simp, cs, Lib.literal_rmatch.mp accepted⟩

theorem longestMatch_many1_ne (other : d ∉ cs) :
    longestMatch (many1 (oneOf cs)) (d :: rest) = none := by
  refine Lib.longestMatch_eq_none_of_head cs (fun word accepted => ?_) (by simpa)
  obtain ⟨more, inside⟩ := Lib.many1_oneOf_rmatch.mp accepted
  obtain ⟨first, tail, rfl⟩ := List.exists_cons_of_ne_nil more
  exact ⟨first, inside first (by simp), tail, rfl⟩

theorem longestMatch_mul_ne (other : d ≠ c) :
    longestMatch (literal (c :: cs) * regex) (d :: rest) = none := by
  refine Lib.longestMatch_eq_none_of_head [c] (fun word accepted => ?_) (by simpa)
  obtain ⟨first, tail, rfl, head, _⟩ := Lib.mul_rmatch.mp accepted
  exact ⟨c, by simp, cs ++ tail, by rw [Lib.literal_rmatch.mp head]; rfl⟩

theorem longestMatch_literal :
    longestMatch (literal word) (word ++ rest) = some word.length := by
  refine Lib.longestMatch_append (Lib.literal_rmatch.mpr rfl) fun more nonempty _ accepted => ?_
  exact nonempty (List.append_right_eq_self.mp (Lib.literal_rmatch.mp accepted))

theorem longestMatch_many1 (nonempty : word ≠ []) (inside : ∀ c ∈ word, c ∈ cs)
    (stops : ∀ c ∈ rest.head?, c ∉ cs) :
    longestMatch (many1 (oneOf cs)) (word ++ rest) = some word.length := by
  refine Lib.longestMatch_append (Lib.many1_oneOf_rmatch.mpr ⟨nonempty, inside⟩) ?_
  intro more some_ start accepted
  obtain ⟨c, tail, rfl⟩ := List.exists_cons_of_ne_nil some_
  obtain ⟨after, rfl⟩ := start
  exact stops c (by simp) ((Lib.many1_oneOf_rmatch.mp accepted).2 c (by simp))

theorem longestMatch_char : longestMatch (literal [c]) (c :: rest) = some 1 :=
  longestMatch_literal

theorem longestMatch_two : longestMatch (literal [c, d]) (c :: d :: rest) = some 2 :=
  longestMatch_literal

end Matches

def hexRegex : RegularExpression Char :=
  literal ['0'] * (oneOf ['x', 'X'] * many1 (oneOf hexDigits))

theorem hexRegex_rmatch {word : List Char} :
    hexRegex.rmatch word ↔ (Token.hexnum word).Lexical := by
  constructor
  · intro accepted
    obtain ⟨zero, tail, rfl, isZero, marked⟩ := Lib.mul_rmatch.mp accepted
    obtain ⟨mark, digits, rfl, isMark, number⟩ := Lib.mul_rmatch.mp marked
    obtain rfl := Lib.literal_rmatch.mp isZero
    obtain ⟨x, member, rfl⟩ := Lib.oneOf_rmatch.mp isMark
    exact ⟨x, digits, rfl, member, Lib.many1_oneOf_rmatch.mp number⟩
  · rintro ⟨x, digits, rfl, member, accepted⟩
    refine Lib.mul_rmatch.mpr ⟨['0'], x :: digits, rfl, Lib.literal_rmatch.mpr rfl, ?_⟩
    exact Lib.mul_rmatch.mpr ⟨[x], digits, rfl, Lib.oneOf_rmatch.mpr ⟨x, member, rfl⟩,
      Lib.many1_oneOf_rmatch.mpr accepted⟩

def regRegex : RegularExpression Char :=
  literal ['$'] * (opt (literal ['$']) * many1 (oneOf regChars))

theorem regRegex_rmatch {word : List Char} :
    regRegex.rmatch word ↔ (Token.reg word).Lexical := by
  constructor
  · intro accepted
    obtain ⟨first, tail, rfl, isDollar, named⟩ := Lib.mul_rmatch.mp accepted
    obtain ⟨dollar, name, rfl, isOpt, letters⟩ := Lib.mul_rmatch.mp named
    obtain rfl := Lib.literal_rmatch.mp isDollar
    refine ⟨dollar, name, rfl, ?_, Lib.many1_oneOf_rmatch.mp letters⟩
    exact (Lib.opt_rmatch.mp isOpt).imp_right Lib.literal_rmatch.mp
  · rintro ⟨dollar, name, rfl, isOpt, accepted⟩
    refine Lib.mul_rmatch.mpr ⟨['$'], dollar ++ name, rfl, Lib.literal_rmatch.mpr rfl, ?_⟩
    refine Lib.mul_rmatch.mpr ⟨dollar, name, rfl, ?_, Lib.many1_oneOf_rmatch.mpr accepted⟩
    exact Lib.opt_rmatch.mpr (isOpt.imp_right Lib.literal_rmatch.mpr)

theorem delimiters_spec : ∀ c ∈ delimiters,
    c ∉ decDigits ∧ c ∉ hexDigits ∧ c ∉ regChars ∧ c ∉ ['x', 'X'] := by
  simp [delimiters, decDigits, hexDigits, regChars]

variable {rest : List Char}

theorem longestMatch_hex {str : List Char} (lexical : (Token.hexnum str).Lexical)
    (stops : ∀ c ∈ rest.head?, c ∈ delimiters) :
    longestMatch hexRegex (str ++ rest) = some str.length := by
  refine Lib.longestMatch_append (hexRegex_rmatch.mpr lexical) fun more some_ start accepted => ?_
  obtain ⟨c, tail, rfl⟩ := List.exists_cons_of_ne_nil some_
  obtain ⟨after, rfl⟩ := start
  obtain ⟨x, digits, rfl, _⟩ := lexical
  obtain ⟨y, longer, same, _, _, inside⟩ := hexRegex_rmatch.mp accepted
  obtain ⟨_, same⟩ := List.cons_eq_cons.mp same
  obtain ⟨_, rfl⟩ := List.cons_eq_cons.mp same
  exact (delimiters_spec c (stops c (by simp))).2.1 (inside c (by simp))

theorem longestMatch_hex_decimal {str : List Char} (lexical : (Token.num str).Lexical)
    (stops : ∀ c ∈ rest.head?, c ∈ delimiters) :
    longestMatch hexRegex (str ++ rest) = none := by
  refine Lib.longestMatch_eq_none fun word start accepted => ?_
  obtain ⟨x, digits, rfl, mark, _⟩ := hexRegex_rmatch.mp accepted
  obtain ⟨after, same⟩ := start
  obtain ⟨nonempty, inside⟩ := lexical
  match str, nonempty with
  | [zero], _ =>
      obtain ⟨_, rfl⟩ := List.cons_eq_cons.mp same
      exact (delimiters_spec x (stops x (by simp))).2.2.2 mark
  | zero :: second :: tail, _ =>
      obtain ⟨_, same⟩ := List.cons_eq_cons.mp same
      obtain ⟨rfl, _⟩ := List.cons_eq_cons.mp same
      have digit : x ∈ decDigits := inside x (by simp)
      have none : ∀ c ∈ ['x', 'X'], c ∉ decDigits := by simp [decDigits]
      exact none x mark digit

theorem longestMatch_reg {str : List Char} (lexical : (Token.reg str).Lexical)
    (stops : ∀ c ∈ rest.head?, c ∈ delimiters) :
    longestMatch regRegex (str ++ rest) = some str.length := by
  refine Lib.longestMatch_append (regRegex_rmatch.mpr lexical) fun more some_ start accepted => ?_
  obtain ⟨c, tail, rfl⟩ := List.exists_cons_of_ne_nil some_
  obtain ⟨after, rfl⟩ := start
  have outside : c ∉ regChars := (delimiters_spec c (stops c (by simp))).2.2.1
  have dollarOutside : '$' ∉ regChars := by decide
  obtain ⟨dollar, name, rfl, isOpt, nonempty, inside⟩ := lexical
  obtain ⟨dollarMore, longer, same, isOptMore, _, within⟩ := regRegex_rmatch.mp accepted
  obtain ⟨_, same⟩ := List.cons_eq_cons.mp same
  obtain ⟨first, others, rfl⟩ := List.exists_cons_of_ne_nil nonempty
  have firstInside : first ∈ regChars := inside first (by simp)
  rcases isOpt with rfl | rfl <;> rcases isOptMore with rfl | rfl
  · obtain rfl : first :: others ++ c :: tail = longer := same
    exact outside (within c (by simp))
  · obtain ⟨rfl, _⟩ := List.cons_eq_cons.mp same
    exact dollarOutside firstInside
  · obtain rfl : '$' :: first :: others ++ c :: tail = longer := same
    exact dollarOutside (within '$' (by simp))
  · obtain ⟨_, same⟩ := List.cons_eq_cons.mp same
    obtain rfl : first :: others ++ c :: tail = longer := same
    exact outside (within c (by simp))

/-- The rule of a token. -/
def Token.rule : Token → Rule
  | .hexnum _ => ⟨hexRegex, fun s => some (.hexnum s)⟩
  | .num _ => ⟨many1 (oneOf decDigits), fun s => some (.num s)⟩
  | .reg _ => ⟨regRegex, fun s => some (.reg s)⟩
  | tok => ⟨literal tok.text, fun _ => some tok.raw⟩

theorem Token.rule_token (tok : Token) : tok.rule.token tok.text = some tok.raw := by
  cases tok <;> rfl

/-- The first rule that matches at a token is the rule of the token. -/
theorem firstRule_text {tok : Token} (lexical : tok.Lexical)
    (stops : isOperand tok = true → ∀ c ∈ rest.head?, c ∈ delimiters) :
    firstRule (tok.text ++ rest) = some (tok.text.length, tok.rule) := by
  cases tok with
  | num str =>
      obtain ⟨digit, digits, rfl⟩ := List.exists_cons_of_ne_nil lexical.1
      have noBlank : digit ∉ [' '] := by
        have apart : ∀ c ∈ decDigits, c ∉ [' '] := by simp [decDigits]
        exact apart digit (lexical.2 digit (by simp))
      have noHex := longestMatch_hex_decimal lexical (stops rfl)
      have matched := longestMatch_many1 lexical.1 lexical.2
        fun c head => (delimiters_spec c (stops rfl c head)).1
      simp only [hexRegex, List.cons_append] at noHex matched
      simp [firstRule, rules, longestMatch_many1_ne noBlank, noHex, matched, Token.text,
        Token.rule]
  | hexnum str =>
      have matched := longestMatch_hex lexical (stops rfl)
      obtain ⟨x, digits, rfl, _⟩ := lexical
      simp only [hexRegex, List.cons_append] at matched
      simp [firstRule, rules, longestMatch_many1_ne, matched, Token.text, Token.rule, hexRegex]
  | reg str =>
      have matched := longestMatch_reg lexical (stops rfl)
      obtain ⟨dollar, name, rfl, _⟩ := lexical
      have noDigit : '$' ∉ decDigits := by decide
      simp only [regRegex, List.cons_append, List.append_assoc] at matched
      simp [firstRule, rules, longestMatch_many1_ne, longestMatch_mul_ne, noDigit, matched,
        Token.text, Token.rule, regRegex]
  | _ =>
      simp [firstRule, rules, longestMatch_many1_ne, longestMatch_mul_ne,
        longestMatch_literal_ne, longestMatch_char, longestMatch_two, decDigits, Token.text,
        Token.rule, Token.raw]

theorem firstRule_blank {gap : Nat} (some_ : gap ≠ 0) (stops : rest.head? ≠ some ' ') :
    ∃ rule, firstRule (List.replicate gap ' ' ++ rest) = some (gap, rule) ∧
      ∀ str, rule.token str = none := by
  have matched : longestMatch (many1 (oneOf [' '])) (List.replicate gap ' ' ++ rest) =
      some gap := by
    have other : ∀ c ∈ rest.head?, c ∉ [' '] := by
      intro c head blank
      exact stops (by rw [← List.mem_singleton.mp blank]; exact head)
    have nonempty : List.replicate gap ' ' ≠ [] := by simpa
    have run := longestMatch_many1 nonempty (by simp) other
    rwa [List.length_replicate] at run
  exact ⟨⟨many1 (oneOf [' ']), fun _ => none⟩, by simp [firstRule, rules, matched], fun _ => rfl⟩

/-!
## Spelled tokens
-/

theorem pieces_text {tok : Token} (lexical : tok.Lexical)
    (stops : isOperand tok = true → ∀ c ∈ rest.head?, c ∈ delimiters) :
    pieces (tok.text ++ rest) =
      ((tok.text, some tok.raw) :: (pieces rest).1, (pieces rest).2) := by
  rw [pieces_some (firstRule_text lexical stops), List.take_left, List.drop_left,
    tok.rule_token]

theorem pieces_blank (gap : Nat) (stops : rest.head? ≠ some ' ') :
    pieces (List.replicate gap ' ' ++ rest) =
      (blank gap ++ (pieces rest).1, (pieces rest).2) := by
  by_cases zero : gap = 0
  · subst zero
    rfl
  · obtain ⟨rule, found, none⟩ := firstRule_blank zero stops
    have taken : (List.replicate gap ' ' ++ rest).take gap = List.replicate gap ' ' :=
      List.take_left' List.length_replicate
    have dropped : (List.replicate gap ' ' ++ rest).drop gap = rest :=
      List.drop_left' List.length_replicate
    rw [pieces_some found, none, taken, dropped, blank, if_neg zero]
    rfl

/-- The first character of a token's text. -/
theorem text_head {tok : Token} (lexical : tok.Lexical) :
    ∃ c tail, tok.text = c :: tail ∧ c ≠ ' ' ∧ (isOperand tok = false → c ∈ delimiters) := by
  cases tok with
  | num str =>
      obtain ⟨digit, digits, rfl⟩ := List.exists_cons_of_ne_nil lexical.1
      have apart : ∀ c ∈ decDigits, c ≠ ' ' := by simp [decDigits]
      exact ⟨digit, digits, rfl, apart digit (lexical.2 digit (by simp)), by simp [isOperand]⟩
  | hexnum str =>
      obtain ⟨x, digits, rfl, _⟩ := lexical
      exact ⟨'0', x :: digits, rfl, by decide, by simp [isOperand]⟩
  | reg str =>
      obtain ⟨dollar, name, rfl, _⟩ := lexical
      exact ⟨'$', dollar ++ name, rfl, by decide, by simp [isOperand]⟩
  | _ => exact ⟨_, _, rfl, by decide, by simp [delimiters]⟩

/-- A text that spells tokens is cut into these tokens and the blanks, where no operand
directly follows an operand. -/
theorem pieces_spell {spaced : List (Nat × Token)} (last : Nat)
    (lexical : ∀ p ∈ spaced, p.2.Lexical)
    (apart : (spaced.map Prod.snd).IsChain fun tok next =>
      isOperand tok = true → isOperand next = false) :
    pieces (spell spaced last) = (spelled spaced last, true) := by
  induction spaced with
  | nil =>
      have blanks : pieces (List.replicate last ' ' ++ []) = _ := pieces_blank last (by simp)
      rw [List.append_nil] at blanks
      rw [spell, spelled, blanks]
      simp [pieces]
  | cons first rest ih =>
      obtain ⟨gap, tok⟩ := first
      have here : tok.Lexical := lexical (gap, tok) (by simp)
      obtain ⟨c, tail, text, notBlank, _⟩ := text_head here
      have stops : isOperand tok = true → ∀ c ∈ (spell rest last).head?, c ∈ delimiters := by
        intro operand d head
        match rest with
        | [] =>
            rw [spell] at head
            obtain ⟨_, rfl⟩ := List.mem_replicate.mp (List.mem_of_mem_head? head)
            decide
        | (0, next) :: more =>
            obtain ⟨e, others, nextText, _, delimiter⟩ := text_head (lexical (0, next) (by simp))
            have isNext : isOperand next = false := by
              simp only [List.map_cons, List.isChain_cons_cons] at apart
              exact apart.1 operand
            simp [spell, nextText] at head
            exact head ▸ delimiter isNext
        | (gap + 1, next) :: more =>
            simp [spell, List.replicate_succ] at head
            exact head ▸ (by decide)
      rw [spell, pieces_blank gap (by simp [text, notBlank]), pieces_text here stops,
        ih (fun p inside => lexical p (by simp [inside])) apart.of_cons, spelled]

end Ysyx.Nemu.Expr
