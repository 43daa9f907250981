/-
# MonetaryUnit.Lib.Flagged — a selection kept as a vector of flags

A subset of the entries of a list, given by one flag for each position. Setting a flag that was
not set adds that entry to the selection, up to order.
-/

import Mathlib.Data.List.Perm.Subperm

namespace MonetaryUnit.Lib

open List Option

variable {α : Type}

/-- The entries whose flag is set. -/
def flagged : List Bool → List α → List α
  | true :: fs, x :: l => x :: flagged fs l
  | false :: fs, _ :: l => flagged fs l
  | _, _ => []

theorem flagged_sublist (fs : List Bool) (l : List α) : (flagged fs l).Sublist l := by
  induction l generalizing fs with
  | nil =>
    rcases fs with _ | ⟨_ | _, fs⟩
    all_goals exact List.Sublist.refl []
  | cons x l ih =>
    rcases fs with _ | ⟨_ | _, fs⟩
    · exact nil_sublist _
    · exact (ih fs).cons x
    · exact (ih fs).cons_cons x

theorem flagged_all (l : List α) : flagged (replicate l.length true) l = l := by
  induction l with
  | nil => rfl
  | cons x l ih => exact congrArg (x :: ·) ih

theorem flagged_none (l : List α) : flagged (replicate l.length false) l = [] := by
  induction l with
  | nil => rfl
  | cons x l ih => exact ih

theorem flagged_set {fs : List Bool} {l : List α} {i : Nat} {x : α} (hf : fs[i]? = some false)
    (hx : l[i]? = some x) : (flagged (fs.set i true) l).Perm (x :: flagged fs l) := by
  induction l generalizing fs i with
  | nil => exact absurd hx (by rw [getElem?_nil]; exact (some_ne_none x).symm)
  | cons y l ih =>
    rcases fs with _ | ⟨f, fs⟩
    · exact absurd hf (by rw [getElem?_nil]; exact (some_ne_none _).symm)
    rcases i with _ | i
    · rw [getElem?_cons_zero, some_inj] at hf hx
      subst hf hx
      exact List.Perm.refl _
    · rw [getElem?_cons_succ] at hf hx
      have hrest := ih hf hx
      rcases f with _ | _
      · exact hrest
      · exact (hrest.cons y).trans (List.Perm.swap x y _)

/-- Setting a flag and clearing it again. -/
theorem set_set_of_clear {fs : List Bool} {i : Nat} (hf : fs[i]? = some false) :
    (fs.set i true).set i false = fs := by
  rw [set_set]
  obtain ⟨hi, hget⟩ := List.getElem?_eq_some_iff.mp hf
  rw [← hget]
  exact set_getElem_self hi

end MonetaryUnit.Lib
