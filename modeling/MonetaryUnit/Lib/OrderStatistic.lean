/-
# MonetaryUnit.Lib.OrderStatistic — the k-th smallest element and the elements below a bound

The element at place `k` of a sorted list is at least `v` exactly when no more than `k` elements
are below `v`. The elements below `v` can be counted in any order, so a program that sorts a
copy and picks one place is described by counts over the list it started with.
-/

import Mathlib.Data.List.Sort

namespace MonetaryUnit.Lib

open List

variable {α : Type} [LinearOrder α] {l : List α} {k : Nat}

theorem le_getElem_iff (h : l.Pairwise (· ≤ ·)) (hk : k < l.length) (v : α) :
    v ≤ l[k] ↔ l.countP (· < v) ≤ k := by
  induction l generalizing k with
  | nil => cases hk
  | cons a l ih =>
    obtain ⟨ha, hl⟩ := pairwise_cons.mp h
    rcases lt_or_ge a v with hlt | hge
    · rw [countP_cons_of_pos (by simpa using hlt)]
      cases k with
      | zero => simpa using hlt
      | succ k => simpa using ih hl (Nat.lt_of_succ_lt_succ hk)
    · -- nothing from `a` on is below `v`
      have hall : ∀ b ∈ a :: l, v ≤ b := by
        intro b hb
        rcases mem_cons.mp hb with rfl | hb
        · exact hge
        · exact hge.trans (ha b hb)
      have hnone : (a :: l).countP (· < v) = 0 :=
        countP_eq_zero.mpr fun b hb => by simpa using hall b hb
      exact iff_of_true (hall _ (getElem_mem hk)) (hnone ▸ Nat.zero_le k)

/-- What the `k`-th smallest element of any list is at least. -/
theorem le_kth_iff (hk : k < l.length) (d v : α) :
    v ≤ (l.mergeSort (· ≤ ·)).getD k d ↔ l.countP (· < v) ≤ k := by
  have hlen : k < (l.mergeSort (· ≤ ·)).length := by rwa [length_mergeSort]
  rw [getD_eq_getElem?_getD, getElem?_eq_getElem hlen, Option.getD_some,
    le_getElem_iff (pairwise_mergeSort' (· ≤ ·) l) hlen, (mergeSort_perm l _).countP_eq]

end MonetaryUnit.Lib
