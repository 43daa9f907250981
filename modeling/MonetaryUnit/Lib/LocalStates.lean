/-
# MonetaryUnit.Lib.LocalStates — totals over the local states of a family of threads

A system of threads has one local state for each of them. What the threads hold together, how many
of them are in some state, is the total of a measure over the family. A step of one thread changes
one summand; a step that changes no measure changes no total.
-/

import Mathlib.Algebra.Order.BigOperators.Group.Finset

namespace MonetaryUnit.Lib

open Function Finset

variable {ι α M : Type} [Fintype ι]

/-- The measure `g` over all local states. -/
def localTotal [AddCommMonoid M] (g : α → M) (f : ι → α) : M := ∑ i, g (f i)

section Sums

variable [AddCommMonoid M] {g : α → M} {f f' : ι → α}

theorem localTotal_congr {g' : α → M} (h : ∀ i, g' (f' i) = g (f i)) :
    localTotal g' f' = localTotal g f :=
  sum_congr rfl fun i _ => h i

theorem localTotal_eq_zero (h : ∀ i, g (f i) = 0) : localTotal g f = 0 := sum_eq_zero fun i _ => h i

variable [DecidableEq ι]

/-- One thread moves: its old summand goes, its new one comes. -/
theorem localTotal_update (g : α → M) (f : ι → α) (i : ι) (a : α) :
    localTotal g (update f i a) + g (f i) = localTotal g f + g a := by
  have hsplit : ∀ h : ι → α, localTotal g h = g (h i) + ∑ j ∈ univ.erase i, g (h j) :=
    fun h => (add_sum_erase _ _ (mem_univ i)).symm
  have hrest : ∑ j ∈ univ.erase i, g (update f i a j) = ∑ j ∈ univ.erase i, g (f j) := by
    refine sum_congr rfl fun j hj => ?_
    rw [update_of_ne (ne_of_mem_erase hj)]
  rw [hsplit (update f i a), hsplit f, hrest, update_self]
  rw [add_right_comm, add_comm (g a), add_right_comm]

end Sums

theorem le_localTotal [AddCommMonoid M] [PartialOrder M] [IsOrderedAddMonoid M]
    [CanonicallyOrderedAdd M] (g : α → M) (f : ι → α) (i : ι) : g (f i) ≤ localTotal g f :=
  single_le_sum (f := fun j => g (f j)) (fun _ _ => zero_le) (mem_univ i)

theorem exists_ne_zero_of_localTotal_ne_zero {g : α → ℕ} {f : ι → α} (h : localTotal g f ≠ 0) :
    ∃ i, g (f i) ≠ 0 := by
  by_contra hnone
  exact h (localTotal_eq_zero fun i => not_not.mp fun hi => hnone ⟨i, hi⟩)

end MonetaryUnit.Lib
