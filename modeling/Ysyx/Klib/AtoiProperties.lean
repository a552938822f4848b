import Ysyx.Klib.Stdlib
import Mathlib.Tactic.SplitIfs

/-! Which printed integers `atoi` of klib reads back: it has no sign, and it adds the character
before it takes the offset `'0'` away. -/

set_option autoImplicit false

namespace Ysyx.Klib

/-!
## Printing
-/

def charByte (c : Char) : BitVec 8 := BitVec.ofNat 8 c.toNat

/-- The decimal representation, as the characters of a C string. -/
def decimal (value : Int) : List (BitVec 8) := (toString value).toList.map charByte

/-- The characters `'0'` to `'9'`. -/
def IsDigit (b : BitVec 8) : Prop := 48 ≤ b.toNat ∧ b.toNat ≤ 57

instance (b : BitVec 8) : Decidable (IsDigit b) := inferInstanceAs (Decidable (_ ∧ _))

theorem decimal_natCast (n : Nat) : decimal n = (Nat.toDigits 10 n).map charByte := by
  rw [decimal, ← Nat.toList_repr]
  rfl

/-- A negative number starts with the minus sign. -/
theorem decimal_negSucc (n : Nat) :
    decimal (Int.negSucc n) = charByte '-' :: (Nat.toDigits 10 (n + 1)).map charByte := by
  rw [decimal, ← Nat.toList_repr]
  change List.map charByte ("-" ++ (n + 1).repr).toList = _
  rw [String.toList_append]
  rfl

/-!
## Single characters
-/

section Characters

variable (charSigned : Bool) (rest : List (BitVec 8))

theorem intResult_of_mem {value : Int} (low : -2 ^ 31 ≤ value) (high : value < 2 ^ 31) :
    intResult value = some value := if_pos ⟨low, high⟩

theorem charValue_of_lt {b : BitVec 8} (ascii : b.toNat < 128) :
    charValue charSigned b = b.toNat := by
  cases charSigned with
  | false => rfl
  | true =>
      rw [charValue, if_pos rfl, BitVec.toInt_eq_toNat_of_lt (by omega)]

theorem isDigit_iff (b : BitVec 8) :
    charValue charSigned b ≥ 48 ∧ charValue charSigned b ≤ 57 ↔ IsDigit b := by
  rcases Nat.lt_or_ge b.toNat 128 with ascii | high
  · rw [charValue_of_lt charSigned ascii, IsDigit]
    omega
  · have outside : charValue charSigned b < 0 ∨ 128 ≤ charValue charSigned b := by
      cases charSigned with
      | false => exact .inr (Int.ofNat_le.mpr high)
      | true =>
          left
          rw [charValue, if_pos rfl, BitVec.toInt_eq_toNat_cond, if_neg (by omega)]
          have bound := b.isLt
          omega
    rw [IsDigit]
    omega

theorem charValue_digitChar {d : Nat} (digit : d < 10) :
    charValue charSigned (charByte d.digitChar) = 48 + d := by
  have code : (charByte d.digitChar).toNat = 48 + d := by
    rw [charByte, Nat.toNat_digitChar_of_lt_ten digit, BitVec.toNat_ofNat,
      Nat.mod_eq_of_lt (by omega)]
  rw [charValue_of_lt charSigned (by omega), code]
  rfl

/-- The loop ends at the first character that is no digit. -/
theorem atoiLoop_stop {x : Int} (stops : ∀ b ∈ rest.head?, ¬ IsDigit b) :
    atoiLoop charSigned x rest = some x := by
  cases rest with
  | nil => rfl
  | cons b rest =>
      have other : ¬ IsDigit b := stops b rfl
      rw [atoiLoop, if_neg (mt (isDigit_iff charSigned b).mp other)]

/-- One digit: the sum with the character still counted as a character must fit. -/
theorem atoiLoop_digit {x d : Nat} (digit : d < 10) (small : x * 10 < 2 ^ 31) :
    atoiLoop charSigned x (charByte d.digitChar :: rest) =
      if x * 10 + d + 48 < 2 ^ 31 then atoiLoop charSigned ((x * 10 + d : Nat) : Int) rest
      else none := by
  have value := charValue_digitChar charSigned digit
  have tens : intResult ((x : Int) * 10) = some ((x : Int) * 10) :=
    intResult_of_mem (by omega) (by omega)
  rw [atoiLoop, value, if_pos (by omega), tens, Option.bind_eq_bind, Option.bind_some]
  split_ifs with fits
  · have sum : intResult ((x : Int) * 10 + (48 + d)) = some ((x : Int) * 10 + (48 + d)) :=
      intResult_of_mem (by omega) (by omega)
    have value : (x : Int) * 10 + (48 + d) - 48 = ((x * 10 + d : Nat) : Int) := by omega
    have next : intResult ((x : Int) * 10 + (48 + d) - 48) = some ((x * 10 + d : Nat) : Int) := by
      rw [value]
      exact intResult_of_mem (by omega) (by omega)
    rw [sum, Option.bind_some, next, Option.bind_some]
  · have sum : intResult ((x : Int) * 10 + (48 + d)) = none := if_neg (by omega)
    rw [sum, Option.bind_none]

/-!
## Numbers
-/

/-- The digits of a number are read back when the number and a character more fit. -/
theorem atoiLoop_toDigits {n : Nat} (bound : n < 2 ^ 31) :
    atoiLoop charSigned 0 ((Nat.toDigits 10 n).map charByte ++ rest) =
      if n + 48 < 2 ^ 31 then atoiLoop charSigned n rest else none := by
  induction n using Nat.strongRecOn generalizing rest with
  | ind n ih =>
      rcases Nat.lt_or_ge n 10 with digit | more
      · rw [Nat.toDigits_of_lt_base digit, List.map_singleton, List.singleton_append]
        have read := atoiLoop_digit charSigned rest (x := 0) digit (by decide)
        simpa using read
      · have front := ih (n / 10) (by omega) (charByte (n % 10).digitChar :: rest) (by omega)
        have last := atoiLoop_digit charSigned rest (x := n / 10) (d := n % 10)
          (Nat.mod_lt n (by decide)) (by omega)
        have whole : n / 10 * 10 + n % 10 = n := by omega
        rw [Nat.toDigits_of_base_le (by decide) more, List.map_append, List.append_assoc,
          List.map_singleton, List.singleton_append, front, if_pos (by omega), last, whole]

theorem atoi_spaces {list : List (BitVec 8)} (spaces : Nat)
    (stops : ∀ b ∈ list.head?, charValue charSigned b ≠ 32) :
    atoi charSigned (List.replicate spaces 0x20#8 ++ list) = atoiLoop charSigned 0 list := by
  have space : charValue charSigned 0x20#8 = 32 := charValue_of_lt charSigned (by decide)
  rw [atoi]
  congr 1
  induction spaces with
  | zero =>
      cases list with
      | nil => rfl
      | cons b list => exact List.dropWhile_cons_of_neg (by simpa using stops b rfl)
  | succ spaces ih =>
      rw [List.replicate_succ, List.cons_append, List.dropWhile_cons_of_pos (by simpa using space)]
      exact ih

theorem head_toDigits (n : Nat) :
    ∃ d digits, d < 10 ∧ Nat.toDigits 10 n = d.digitChar :: digits := by
  induction n using Nat.strongRecOn with
  | ind n ih =>
      rcases Nat.lt_or_ge n 10 with digit | more
      · exact ⟨n, [], digit, Nat.toDigits_of_lt_base digit⟩
      · obtain ⟨d, digits, digit, front⟩ := ih (n / 10) (by omega)
        refine ⟨d, digits ++ [(n % 10).digitChar], digit, ?_⟩
        rw [Nat.toDigits_of_base_le (by decide) more, front, List.cons_append]

theorem atoi_natCast {n : Nat} (bound : n < 2 ^ 31) (spaces : Nat)
    (stops : ∀ b ∈ rest.head?, ¬ IsDigit b) :
    atoi charSigned (List.replicate spaces 0x20#8 ++ (decimal n ++ rest)) =
      if n + 48 < 2 ^ 31 then some (n : Int) else none := by
  obtain ⟨d, digits, digit, front⟩ := head_toDigits n
  rw [decimal_natCast, atoi_spaces charSigned spaces, atoiLoop_toDigits charSigned rest bound,
    atoiLoop_stop charSigned rest stops]
  rw [front]
  rintro b (_ | _)
  rw [charValue_digitChar charSigned digit]
  omega

/-- The minus sign ends both loops. -/
theorem atoi_negSucc (n spaces : Nat) :
    atoi charSigned (List.replicate spaces 0x20#8 ++ (decimal (Int.negSucc n) ++ rest)) =
      some 0 := by
  have minus : charValue charSigned (charByte '-') = 45 := charValue_of_lt charSigned (by decide)
  rw [decimal_negSucc, List.cons_append, atoi_spaces charSigned spaces]
  · apply atoiLoop_stop
    rintro b (_ | _)
    decide
  · rintro b (_ | _)
    rw [minus]
    decide

end Characters

/-- Of the spaces, a number and what follows, `atoi` reads back exactly the numbers that are
not negative and leave room for a character. -/
theorem atoi_iff (charSigned : Bool) (spaces : Nat) (v : BitVec 32) (suffix : List (BitVec 8))
    (stops : ∀ b ∈ suffix.head?, ¬ IsDigit b) :
    atoi charSigned (List.replicate spaces 0x20#8 ++ (decimal v.toInt ++ suffix)) =
        some v.toInt ↔
      0 ≤ v.toInt ∧ v.toInt + 48 ≤ 2147483647 := by
  have bound : v.toInt < 2 ^ 31 := BitVec.toInt_lt
  generalize v.toInt = value at bound ⊢
  cases value with
  | ofNat n =>
      rw [Int.ofNat_eq_natCast] at bound ⊢
      rw [atoi_natCast charSigned suffix (by omega) spaces stops]
      split_ifs with fits
      · exact iff_of_true rfl ⟨Int.natCast_nonneg n, by omega⟩
      · exact iff_of_false nofun (by omega)
  | negSucc n =>
      rw [atoi_negSucc]
      exact iff_of_false (by simp) (by omega)

/-- The largest number that is read back, behind two spaces and before a point. -/
theorem atoi_largest :
    (∀ b ∈ [0x2e#8].head?, ¬ IsDigit b) ∧
      atoi true (List.replicate 2 0x20#8 ++ (decimal (2147483599#32).toInt ++ [0x2e#8])) =
        some (2147483599#32).toInt :=
  have stops : ∀ b ∈ [0x2e#8].head?, ¬ IsDigit b := by decide
  ⟨stops, (atoi_iff true 2 2147483599#32 [0x2e#8] stops).mpr (by decide)⟩

/-- `"-1"` is read as 0. -/
theorem atoi_minus_one_fails :
    ¬ ∀ (charSigned : Bool) (spaces : Nat) (v : BitVec 32) (suffix : List (BitVec 8)),
      (∀ b ∈ suffix.head?, ¬ IsDigit b) →
        atoi charSigned (List.replicate spaces 0x20#8 ++ (decimal v.toInt ++ suffix)) =
          some v.toInt := by
  intro inverts
  have read := inverts true 0 (BitVec.ofInt 32 (-1)) [] nofun
  have value : (BitVec.ofInt 32 (-1)).toInt = Int.negSucc 0 := by decide
  rw [value, atoi_negSucc] at read
  exact absurd read (by decide)

end Ysyx.Klib
