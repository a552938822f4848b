import Mathlib.Data.List.GetD

/-! Runs of cells of an array: reading `n` cells from an index on, copying a list into the
array, and both at positions that wrap around a capacity. -/

set_option autoImplicit false

namespace Ysyx.Lib

variable {α : Type}

/-- The `n` cells from `start` on. -/
def slice (cells : Nat → α) (start n : Nat) : List α :=
  (List.range n).map fun i => cells (start + i)

/-- The array with `data` copied to the cells from `start` on. -/
def blit (cells : Nat → α) (start : Nat) (data : List α) : Nat → α :=
  fun i => if i < start then cells i else data.getD (i - start) (cells i)

@[simp] theorem slice_zero (cells : Nat → α) (start : Nat) : slice cells start 0 = [] := rfl

@[simp] theorem length_slice (cells : Nat → α) (start n : Nat) :
    (slice cells start n).length = n := by simp [slice]

theorem slice_one (cells : Nat → α) (start : Nat) : slice cells start 1 = [cells start] := rfl

theorem slice_add (cells : Nat → α) (start m n : Nat) :
    slice cells start (m + n) = slice cells start m ++ slice cells (start + m) n := by
  simp [slice, List.range_add, Nat.add_assoc]

theorem slice_congr {cells cells' : Nat → α} {start n : Nat}
    (same : ∀ i, start ≤ i → i < start + n → cells i = cells' i) :
    slice cells start n = slice cells' start n := by
  apply List.map_congr_left
  intro i member
  have bound := List.mem_range.mp member
  exact same _ (Nat.le_add_right start i) (by omega)

theorem getElem_slice (cells : Nat → α) (start n i : Nat) (bound : i < (slice cells start n).length) :
    (slice cells start n)[i] = cells (start + i) := by simp [slice]

theorem take_slice (cells : Nat → α) (start : Nat) {l n : Nat} (fits : l ≤ n) :
    (slice cells start n).take l = slice cells start l := by
  obtain ⟨m, rfl⟩ := Nat.exists_eq_add_of_le fits
  rw [slice_add, List.take_left' (length_slice _ _ _)]

theorem drop_slice (cells : Nat → α) (start : Nat) {l n : Nat} (fits : l ≤ n) :
    (slice cells start n).drop l = slice cells (start + l) (n - l) := by
  obtain ⟨m, rfl⟩ := Nat.exists_eq_add_of_le fits
  rw [slice_add, List.drop_left' (length_slice _ _ _), Nat.add_sub_cancel_left]

theorem blit_outside {cells : Nat → α} {start i : Nat} {data : List α}
    (outside : i < start ∨ start + data.length ≤ i) : blit cells start data i = cells i := by
  rw [blit]
  rcases outside with before | after
  · rw [if_pos before]
  · rw [if_neg (by omega), List.getD_eq_default _ _ (by omega)]

theorem slice_blit_outside {cells : Nat → α} {start n at_ : Nat} {data : List α}
    (outside : start + n ≤ at_ ∨ at_ + data.length ≤ start) :
    slice (blit cells at_ data) start n = slice cells start n := by
  apply slice_congr
  intro i low high
  exact blit_outside (by omega)

theorem slice_blit (cells : Nat → α) (start : Nat) (data : List α) :
    slice (blit cells start data) start data.length = data := by
  apply List.ext_getElem (length_slice _ _ _)
  intro i inSlice inData
  rw [getElem_slice, blit, if_neg (by omega), Nat.add_sub_cancel_left,
    List.getD_eq_getElem _ _ inData]

/-!
## Positions modulo a capacity
-/

/-- The cells of `n` consecutive positions, each taken modulo `cap`. -/
def wrapped (cells : Nat → α) (cap start n : Nat) : List α :=
  (List.range n).map fun i => cells ((start + i) % cap)

@[simp] theorem wrapped_zero (cells : Nat → α) (cap start : Nat) : wrapped cells cap start 0 = [] :=
  rfl

@[simp] theorem length_wrapped (cells : Nat → α) (cap start n : Nat) :
    (wrapped cells cap start n).length = n := by simp [wrapped]

theorem wrapped_mod (cells : Nat → α) (cap start n : Nat) :
    wrapped cells cap (start % cap) n = wrapped cells cap start n := by
  simp [wrapped]

theorem wrapped_add (cells : Nat → α) (cap start m n : Nat) :
    wrapped cells cap start (m + n) =
      wrapped cells cap start m ++ wrapped cells cap (start + m) n := by
  simp [wrapped, List.range_add, Nat.add_assoc]

theorem getElem_wrapped (cells : Nat → α) (cap start n i : Nat)
    (bound : i < (wrapped cells cap start n).length) :
    (wrapped cells cap start n)[i] = cells ((start + i) % cap) := by simp [wrapped]

/-- Positions up to a capacity after `start` wrap at most once. -/
theorem position_cases {cap j : Nat} (start : Nat) (bound : j < cap) :
    (start % cap + j < cap ∧ (start + j) % cap = start % cap + j) ∨
      (cap ≤ start % cap + j ∧ (start + j) % cap = start % cap + j - cap) := by
  have inside : start % cap < cap := Nat.mod_lt _ (Nat.zero_lt_of_lt bound)
  have split : (start + j) % cap = (start % cap + j) % cap := by simp
  rcases Nat.lt_or_ge (start % cap + j) cap with before | after
  · exact .inl ⟨before, split.trans (Nat.mod_eq_of_lt before)⟩
  · refine .inr ⟨after, ?_⟩
    rw [split, Nat.mod_eq_sub_mod after, Nat.mod_eq_of_lt (by omega)]

/-- Reading up to the end of the array and the rest from its beginning. -/
theorem wrapped_eq_slices (cells : Nat → α) {cap start n l : Nat} (fits : n ≤ cap)
    (first : l = min n (cap - start % cap)) :
    slice cells (start % cap) l ++ slice cells 0 (n - l) = wrapped cells cap start n := by
  apply List.ext_getElem
  · simp only [List.length_append, length_slice, length_wrapped]
    omega
  · intro i _ inWrapped
    rw [length_wrapped] at inWrapped
    have inside : start % cap < cap := Nat.mod_lt _ (by omega)
    rw [getElem_wrapped]
    rcases position_cases start (Nat.lt_of_lt_of_le inWrapped fits) with
      ⟨before, here⟩ | ⟨after, here⟩
    · have left : i < (slice cells (start % cap) l).length := by
        rw [length_slice]
        omega
      rw [List.getElem_append_left left, getElem_slice, here]
    · have right : (slice cells (start % cap) l).length ≤ i := by
        rw [length_slice]
        omega
      rw [List.getElem_append_right right, getElem_slice, here, length_slice]
      congr 1
      omega

/-- Copying `data` up to the end of the array and its rest to the beginning. -/
def wrapBlit (cells : Nat → α) (cap start : Nat) (data : List α) : Nat → α :=
  let l := min data.length (cap - start % cap)
  blit (blit cells (start % cap) (data.take l)) 0 (data.drop l)

theorem wrapBlit_congr (cells : Nat → α) {cap start start' : Nat} (data : List α)
    (same : start % cap = start' % cap) :
    wrapBlit cells cap start data = wrapBlit cells cap start' data := by
  simp only [wrapBlit, same]

theorem wrapBlit_apply (cells : Nat → α) {cap start j : Nat} {data : List α}
    (fits : data.length ≤ cap) (bound : j < cap) :
    wrapBlit cells cap start data ((start + j) % cap) =
      data.getD j (cells ((start + j) % cap)) := by
  simp only [wrapBlit]
  generalize first : min data.length (cap - start % cap) = l
  rcases position_cases start bound with ⟨before, here⟩ | ⟨after, here⟩
  · rw [here, blit_outside (.inr (by rw [List.length_drop]; omega)), blit, if_neg (by omega),
      Nat.add_sub_cancel_left]
    rcases Nat.lt_or_ge j l with inside | outside
    · rw [List.getD_eq_getElem _ _ (by rw [List.length_take]; omega),
        List.getD_eq_getElem _ _ (by omega), List.getElem_take]
    · rw [List.getD_eq_default _ _ (by rw [List.length_take]; omega),
        List.getD_eq_default _ _ (by omega)]
  · have inside : start % cap < cap := Nat.mod_lt _ (Nat.zero_lt_of_lt bound)
    rw [here, blit, if_neg (Nat.not_lt_zero _), Nat.sub_zero, blit, if_pos (by omega)]
    rcases Nat.lt_or_ge j data.length with within | beyond
    · rw [List.getD_eq_getElem _ _ (by rw [List.length_drop]; omega),
        List.getD_eq_getElem _ _ within, List.getElem_drop]
      congr 1
      omega
    · rw [List.getD_eq_default _ _ (by rw [List.length_drop]; omega),
        List.getD_eq_default _ _ beyond]

theorem wrapped_wrapBlit (cells : Nat → α) (start : Nat) {cap : Nat} {data : List α}
    (fits : data.length ≤ cap) :
    wrapped (wrapBlit cells cap start data) cap start data.length = data := by
  apply List.ext_getElem (length_wrapped _ _ _ _)
  intro i _ inData
  rw [getElem_wrapped, wrapBlit_apply cells fits (Nat.lt_of_lt_of_le inData fits),
    List.getD_eq_getElem _ _ inData]

/-- The positions before `start` keep their cells when the copy leaves them room. -/
theorem wrapped_wrapBlit_before (cells : Nat → α) (start : Nat) {cap n : Nat} {data : List α}
    (room : n + data.length ≤ cap) :
    wrapped (wrapBlit cells cap (start + n) data) cap start n = wrapped cells cap start n := by
  apply List.ext_getElem (by simp)
  intro i inNew inOld
  rw [length_wrapped] at inOld
  have around : (start + i) % cap = (start + n + (cap - n + i)) % cap := by
    have turn : start + n + (cap - n + i) = start + i + cap := by omega
    rw [turn, Nat.add_mod_right]
  rw [getElem_wrapped, getElem_wrapped, around, wrapBlit_apply cells (by omega) (by omega),
    List.getD_eq_default _ _ (by omega)]

end Ysyx.Lib
