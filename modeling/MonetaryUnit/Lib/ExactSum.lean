/-
# MonetaryUnit.Lib.ExactSum — 64-bit sums that do not wrap

Signed 64-bit addition is integer addition as long as the integer result is in range; so is a
running sum of non-negative terms whose total is.
-/

import Mathlib.Algebra.Order.BigOperators.Group.List
import Mathlib.Algebra.Order.Ring.Int
import Mathlib.Algebra.BigOperators.Intervals

namespace MonetaryUnit.Lib

open List

theorem toInt_add_of_bounds {a b : Int64} (hlo : -2 ^ 63 ≤ a.toInt + b.toInt)
    (hhi : a.toInt + b.toInt < 2 ^ 63) : (a + b).toInt = a.toInt + b.toInt := by
  rw [Int64.toInt_add]
  apply Int.bmod_eq_of_le <;> omega

theorem toInt_sub_of_bounds {a b : Int64} (hlo : -2 ^ 63 ≤ a.toInt - b.toInt)
    (hhi : a.toInt - b.toInt < 2 ^ 63) : (a - b).toInt = a.toInt - b.toInt := by
  rw [Int64.toInt_sub]
  apply Int.bmod_eq_of_le <;> omega

/-- Two non-negative numbers whose 64-bit sum is not negative were added exactly. -/
theorem toInt_add_of_nonneg {a b : Int64} (ha : 0 ≤ a.toInt) (hb : 0 ≤ b.toInt)
    (hab : 0 ≤ (a + b).toInt) : (a + b).toInt = a.toInt + b.toInt := by
  have ha' := a.toInt_lt
  have hb' := b.toInt_lt
  rw [Int64.toInt_add] at hab ⊢
  rcases lt_or_ge (a.toInt + b.toInt) (2 ^ 63) with hlt | hge
  · apply Int.bmod_eq_of_le <;> omega
  · -- past the range the sum wraps to a negative number
    rw [Int.bmod_def] at hab
    split at hab <;> omega

theorem toInt_foldl_add {l : List Int64} {n : Int64} (hn : 0 ≤ n.toInt)
    (hl : ∀ x ∈ l, 0 ≤ x.toInt) (h : n.toInt + (l.map Int64.toInt).sum < 2 ^ 63) :
    (l.foldl (· + ·) n).toInt = n.toInt + (l.map Int64.toInt).sum := by
  induction l generalizing n with
  | nil => simp
  | cons x l ih =>
    rw [forall_mem_cons] at hl
    rw [map_cons, sum_cons] at h ⊢
    have hrest : 0 ≤ (l.map Int64.toInt).sum := by
      apply sum_nonneg
      simpa using hl.2
    have hsum : (n + x).toInt = n.toInt + x.toInt := by
      apply toInt_add_of_bounds <;> omega
    rw [foldl_cons, ih (by omega) hl.2 (by omega)]
    omega

end MonetaryUnit.Lib
