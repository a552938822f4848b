import Mathlib.Computability.RegularExpressions

/-! Matching a regular expression at the start of an input, the longest match winning. -/

set_option autoImplicit false

namespace Ysyx.Lib

open RegularExpression (char star)

variable {α : Type} [DecidableEq α]

/-- A bracket expression. -/
def oneOf : List α → RegularExpression α
  | [] => 0
  | c :: cs => char c + oneOf cs

def literal : List α → RegularExpression α
  | [] => 1
  | c :: cs => char c * literal cs

/-- The operator `?`. -/
def opt (regex : RegularExpression α) : RegularExpression α := 1 + regex

/-- The operator `+`. -/
def many1 (regex : RegularExpression α) : RegularExpression α := regex * star regex

def longestUpTo (regex : RegularExpression α) (input : List α) : Nat → Option Nat
  | 0 => if regex.rmatch [] then some 0 else none
  | n + 1 =>
      if regex.rmatch (input.take (n + 1)) then some (n + 1) else longestUpTo regex input n

/-- The length of the longest match that begins where the input begins. -/
def longestMatch (regex : RegularExpression α) (input : List α) : Option Nat :=
  longestUpTo regex input input.length

/-!
## Accepted words
-/

theorem oneOf_rmatch {cs word : List α} :
    (oneOf cs).rmatch word ↔ ∃ c ∈ cs, word = [c] := by
  induction cs with
  | nil => simp [oneOf]
  | cons c cs ih =>
      rw [oneOf, RegularExpression.add_rmatch_iff, RegularExpression.char_rmatch_iff, ih]
      simp

theorem literal_rmatch {text word : List α} :
    (literal text).rmatch word ↔ word = text := by
  induction text generalizing word with
  | nil => rw [literal, RegularExpression.one_rmatch_iff]
  | cons c cs ih =>
      rw [literal, RegularExpression.mul_rmatch_iff]
      constructor
      · rintro ⟨first, rest, rfl, head, tail⟩
        rw [RegularExpression.char_rmatch_iff] at head
        rw [head, ih.mp tail]
        rfl
      · rintro rfl
        exact ⟨[c], cs, rfl, by rw [RegularExpression.char_rmatch_iff], ih.mpr rfl⟩

theorem mul_rmatch {left right : RegularExpression α} {word : List α} :
    (left * right).rmatch word ↔
      ∃ first rest, word = first ++ rest ∧ left.rmatch first ∧ right.rmatch rest :=
  RegularExpression.mul_rmatch_iff left right word

theorem opt_rmatch {regex : RegularExpression α} {word : List α} :
    (opt regex).rmatch word ↔ word = [] ∨ regex.rmatch word := by
  rw [opt, RegularExpression.add_rmatch_iff, RegularExpression.one_rmatch_iff]

/-- A repeated bracket expression takes the non-empty words over its characters. -/
theorem many1_oneOf_rmatch {cs word : List α} :
    (many1 (oneOf cs)).rmatch word ↔ word ≠ [] ∧ ∀ c ∈ word, c ∈ cs := by
  rw [many1, mul_rmatch]
  constructor
  · rintro ⟨first, rest, rfl, head, tail⟩
    obtain ⟨c, member, rfl⟩ := oneOf_rmatch.mp head
    obtain ⟨parts, rfl, each⟩ := (RegularExpression.star_rmatch_iff _ _).mp tail
    refine ⟨by simp, fun d inside => ?_⟩
    rcases List.mem_append.mp inside with inside | inside
    · rw [List.mem_singleton.mp inside]
      exact member
    · obtain ⟨part, among, inside⟩ := List.mem_flatten.mp inside
      obtain ⟨e, member, rfl⟩ := oneOf_rmatch.mp (each part among).2
      rw [List.mem_singleton.mp inside]
      exact member
  · rintro ⟨nonempty, all⟩
    obtain ⟨c, rest, rfl⟩ := List.exists_cons_of_ne_nil nonempty
    refine ⟨[c], rest, rfl, oneOf_rmatch.mpr ⟨c, all c (by simp), rfl⟩, ?_⟩
    rw [RegularExpression.star_rmatch_iff]
    refine ⟨rest.map fun d => [d], by rw [← List.flatMap_def, List.flatMap_singleton'], fun part among => ?_⟩
    obtain ⟨d, inside, rfl⟩ := List.mem_map.mp among
    exact ⟨by simp, oneOf_rmatch.mpr ⟨d, all d (by simp [inside]), rfl⟩⟩

/-!
## The longest match
-/

variable {regex : RegularExpression α} {input : List α}

private theorem longestUpTo_eq_some {n bound : Nat} (within : n ≤ bound)
    (found : regex.rmatch (input.take n))
    (longest : ∀ k, n < k → k ≤ bound → ¬ regex.rmatch (input.take k)) :
    longestUpTo regex input bound = some n := by
  induction bound with
  | zero =>
      obtain rfl : n = 0 := by omega
      rw [longestUpTo, if_pos (by simpa using found)]
  | succ bound ih =>
      by_cases last : n = bound + 1
      · rw [longestUpTo, if_pos (by rwa [← last]), last]
      · rw [longestUpTo, if_neg (longest _ (by omega) le_rfl)]
        exact ih (by omega) fun k above below => longest k above (by omega)

private theorem longestUpTo_eq_none {bound : Nat}
    (never : ∀ k ≤ bound, ¬ regex.rmatch (input.take k)) :
    longestUpTo regex input bound = none := by
  induction bound with
  | zero => rw [longestUpTo, if_neg (by simpa using never 0 le_rfl)]
  | succ bound ih =>
      rw [longestUpTo, if_neg (never _ le_rfl)]
      exact ih fun k below => never k (by omega)

theorem longestMatch_le {n : Nat} (found : longestMatch regex input = some n) :
    n ≤ input.length := by
  have upTo : ∀ bound, longestUpTo regex input bound = some n → n ≤ bound := by
    intro bound
    induction bound with
    | zero =>
        rw [longestUpTo]
        split <;> simp
        omega
    | succ bound ih =>
        rw [longestUpTo]
        split
        · simp only [Option.some.injEq]
          omega
        · intro rest
          have := ih rest
          omega
  exact upTo _ found

theorem rmatch_of_longestMatch {n : Nat} (found : longestMatch regex input = some n) :
    regex.rmatch (input.take n) := by
  have upTo : ∀ bound, longestUpTo regex input bound = some n → regex.rmatch (input.take n) := by
    intro bound
    induction bound with
    | zero =>
        rw [longestUpTo]
        split
        · rintro ⟨⟩
          assumption
        · rintro ⟨⟩
    | succ bound ih =>
        rw [longestUpTo]
        split
        · rintro ⟨⟩
          assumption
        · exact ih
  exact upTo _ found

/-- A word is the longest match when no continuation of it into the rest is accepted. -/
theorem longestMatch_append {word rest : List α} (found : regex.rmatch word)
    (longest : ∀ more, more ≠ [] → more <+: rest → ¬ regex.rmatch (word ++ more)) :
    longestMatch regex (word ++ rest) = some word.length := by
  apply longestUpTo_eq_some (by simp) (by simpa using found)
  intro k above below
  rw [List.length_append] at below
  rw [List.take_append, List.take_of_length_le above.le]
  refine longest _ ?_ (List.take_prefix _ rest)
  intro none
  have := congrArg List.length none
  rw [List.length_take, List.length_nil] at this
  omega

theorem longestMatch_eq_none (never : ∀ word, word <+: input → ¬ regex.rmatch word) :
    longestMatch regex input = none :=
  longestUpTo_eq_none fun k _ => never _ (List.take_prefix k input)

/-- No match when every accepted word begins with a character that the input does not. -/
theorem longestMatch_eq_none_of_head (heads : List α)
    (first : ∀ word, regex.rmatch word → ∃ c ∈ heads, ∃ rest, word = c :: rest)
    (other : ∀ c ∈ input.head?, c ∉ heads) : longestMatch regex input = none := by
  refine longestMatch_eq_none fun word start accepted => ?_
  obtain ⟨c, member, rest, rfl⟩ := first _ accepted
  obtain ⟨more, rfl⟩ := start
  exact other c (by simp) member

end Ysyx.Lib
