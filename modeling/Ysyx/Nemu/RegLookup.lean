import Ysyx.Nemu.ExprReport

/-! The names of registers in the debugger: `isa_reg_str2val` looks two characters up, whatever
follows them in the token. -/

set_option autoImplicit false

namespace Ysyx.Nemu.Expr

open Rv32 (Word)

/-- The token is looked up by the whole text after the first dollar sign. -/
structure LooksUp (cpu : Cpu) (s : List Char) : Prop where
  succeeds : (isaRegStr2val cpu s).2 = true ↔ Named (s.drop 1)
  value : ∀ v, lookup cpu (s.drop 1) = some v → (isaRegStr2val cpu s).1 = v

theorem named_short {name : List Char} (named : Named name) :
    name.length ≤ 2 ∨ name = ['s', '1', '0'] ∨ name = ['s', '1', '1'] := by
  have table : ∀ name ∈ regs, name.length ≤ 2 ∨ name = ['s', '1', '0'] ∨
      name = ['s', '1', '1'] := by decide
  rcases named with member | rfl
  · exact table name member
  · exact .inl (by decide)

theorem isaRegStr2val_snd {cpu : Cpu} {s : List Char} :
    (isaRegStr2val cpu s).2 = true ↔ Named ((s.drop 1).take 2) := by
  rw [isaRegStr2val, ← lookup_isSome cpu]
  cases lookup cpu ((s.drop 1).take 2) with
  | none => exact Iff.rfl
  | some v => exact Iff.rfl

/-- Where the text is no longer than what is compared, the lookup is exact. -/
theorem looksUp_of_short {s : List Char} (short : (s.drop 1).length ≤ 2) (cpu : Cpu) :
    LooksUp cpu s := by
  have whole : (s.drop 1).take 2 = s.drop 1 := List.take_of_length_le short
  constructor
  · rw [isaRegStr2val_snd, whole]
  · intro v found
    rw [isaRegStr2val, whole, found]

theorem looksUp_of_unknown {s : List Char} (unknown : ¬ Named ((s.drop 1).take 2)) (cpu : Cpu) :
    LooksUp cpu s := by
  have absent : ¬ Named (s.drop 1) := by
    intro named
    rcases named_short named with short | ten | eleven
    · rw [List.take_of_length_le short] at unknown
      exact unknown named
    · rw [ten] at unknown
      exact unknown (.inl (by decide))
    · rw [eleven] at unknown
      exact unknown (.inl (by decide))
  constructor
  · rw [isaRegStr2val_snd]
    exact iff_of_false unknown absent
  · intro v found
    exact absurd ((lookup_isSome cpu).mp (by rw [found]; rfl)) absent

def numbered : Cpu := ⟨fun r => r.setWidth 32, 32#32, fun _ => 0#32⟩

/-- Different names stand for different registers. -/
theorem lookup_injective {a b : List Char} (namedA : Named a) (namedB : Named b)
    (same : ∀ cpu, lookup cpu a = lookup cpu b) : a = b := by
  have distinct : ((regs ++ [['p', 'c']]).map (lookup numbered)).Nodup := by decide
  have member {name : List Char} (named : Named name) : name ∈ regs ++ [['p', 'c']] := by
    rcases named with table | rfl
    · exact List.mem_append_left _ table
    · exact List.mem_append_right _ (List.mem_singleton_self _)
  exact List.inj_on_of_nodup_map distinct (member namedA) (member namedB) (same numbered)

/-- The lookup is right whatever the registers hold exactly when the text is at most two
characters long or its first two are no name. -/
theorem reg_lookup_iff (s : List Char) :
    ((∀ cpu, LooksUp cpu s) ↔ (s.drop 1).length ≤ 2 ∨ ¬ Named ((s.drop 1).take 2)) ∧
      ∀ a b, Named a → Named b → (∀ cpu, lookup cpu a = lookup cpu b) → a = b := by
  refine ⟨?_, fun a b => lookup_injective⟩
  constructor
  · intro looks
    by_contra neither
    rw [not_or, Classical.not_not] at neither
    obtain ⟨long, known⟩ := neither
    have named := (looks numbered).succeeds.mp (isaRegStr2val_snd.mpr known)
    -- of the longer texts only `s10` and `s11` are names, and they read `s1`
    rcases named_short named with short | ten | eleven
    · exact long short
    · have shown := (looks numbered).value 26#32 (by rw [ten]; rfl)
      rw [isaRegStr2val, ten] at shown
      exact absurd shown (by decide)
    · have shown := (looks numbered).value 27#32 (by rw [eleven]; rfl)
      rw [isaRegStr2val, eleven] at shown
      exact absurd shown (by decide)
  · rintro (short | unknown) cpu
    · exact looksUp_of_short short cpu
    · exact looksUp_of_unknown unknown cpu

/-- The token `$s10` shows `s1`, and `$a0b` shows `a0`. -/
theorem reg_lookup_fails :
    ¬ ∀ (cpu : Cpu) (s : List Char), (Token.reg s).Lexical → LooksUp cpu s := by
  intro always
  have token : (Token.reg ['$', 'a', '0', 'b']).Lexical :=
    ⟨[], ['a', '0', 'b'], rfl, .inl rfl, by decide, by simp [regChars, decDigits]⟩
  have named := (always numbered _ token).succeeds.mp (by decide)
  rcases named with member | pc
  · exact absurd member (by decide)
  · exact absurd pc (by decide)

end Ysyx.Nemu.Expr
