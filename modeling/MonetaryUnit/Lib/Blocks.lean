/-
# MonetaryUnit.Lib.Blocks — a list cut into blocks of one size

The complete blocks at the front of a list, and what is left behind them. A list that is cut once
more, with something put behind it, gives the blocks it gave before and those of the rest
(`cut_append`): whoever keeps the rest can go on with the next part.
-/

import Mathlib.Data.List.Basic

namespace MonetaryUnit.Lib

open List

variable {α : Type} {B : Nat} {l : List α}

def cut (B : Nat) (l : List α) : List (List α) × List α :=
  if 0 < B ∧ B ≤ l.length then
    (l.take B :: (cut B (l.drop B)).1, (cut B (l.drop B)).2)
  else ([], l)
termination_by l.length
decreasing_by all_goals simp only [length_drop]; omega

theorem cut_of_lt (h : l.length < B) : cut B l = ([], l) := by
  rw [cut, if_neg (by omega)]

theorem cut_of_le (hB : 0 < B) (h : B ≤ l.length) :
    cut B l = (l.take B :: (cut B (l.drop B)).1, (cut B (l.drop B)).2) := by
  rw [cut, if_pos ⟨hB, h⟩]

theorem length_cut (hB : 0 < B) (l : List α) : (cut B l).2.length = l.length % B := by
  fun_induction cut B l with
  | case1 l h ih =>
    rw [ih, length_drop]
    exact (Nat.mod_eq_sub_mod h.2).symm
  | case2 l h => exact (Nat.mod_eq_of_lt (show l.length < B by omega)).symm

/-- The blocks of a list with `m` behind it are its own blocks, and those of its
rest with `m` behind it. -/
theorem cut_append (hB : 0 < B) (l m : List α) : cut B (l ++ m) =
    ((cut B l).1 ++ (cut B ((cut B l).2 ++ m)).1, (cut B ((cut B l).2 ++ m)).2) := by
  fun_induction cut B l with
  | case1 l h ih =>
    have hle : B ≤ (l ++ m).length := by
      rw [length_append]
      omega
    rw [cut_of_le hB hle, take_append_of_le_length h.2, drop_append_of_le_length h.2, ih]
    rfl
  | case2 l h => rfl

end MonetaryUnit.Lib
