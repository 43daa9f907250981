/-
# MonetaryUnit.Lib.GreedyMatch — matching two lists in order

The members of one list are to be assigned to members of another, each to one that accepts it and
all in the same order. Taking the first that accepts never rules an assignment out: whatever a later
choice could serve, the first one can serve too. `greedyMatch_iff` is that exchange argument.
-/

import Mathlib.Data.List.NodupEquivFin

namespace MonetaryUnit.Lib

open List Bool

variable {α β : Type} {ok : α → β → Bool} {as : List α} {bs : List β} {a : α} {b : β}

/-- A strictly increasing assignment of positions such that every pair is accepted. -/
def OrderedMatch (ok : α → β → Bool) (as : List α) (bs : List β) : Prop :=
  ∃ f : Fin as.length → Fin bs.length, StrictMono f ∧ ∀ i, ok (as.get i) (bs.get (f i)) = true

/-- Each member takes the first one that accepts it. -/
def greedyMatch (ok : α → β → Bool) : List α → List β → Bool
  | [], _ => true
  | _ :: _, [] => false
  | a :: as, b :: bs => if ok a b then greedyMatch ok as bs else greedyMatch ok (a :: as) bs

/-- An assignment is a sublist of the second list that accepts the first one member by member. -/
theorem orderedMatch_iff_sublist : OrderedMatch ok as bs ↔
      ∃ cs, cs.Sublist bs ∧ List.Forall₂ (fun a b => ok a b = true) as cs := by
  constructor
  · rintro ⟨f, hmono, hok⟩
    have hlen : (ofFn fun i => bs.get (f i)).length = as.length := length_ofFn
    refine ⟨ofFn fun i => bs.get (f i), ?_, ?_⟩
    · rw [sublist_iff_exists_fin_orderEmbedding_get_eq]
      refine ⟨OrderEmbedding.ofStrictMono (fun i => f (i.cast hlen)) fun i j hij => hmono hij,
        fun i => ?_⟩
      simp only [get_ofFn]
      rfl
    · rw [forall₂_iff_get]
      refine ⟨hlen.symm, fun i h h' => ?_⟩
      simpa using hok ⟨i, h⟩
  · rintro ⟨cs, hsub, hall⟩
    obtain ⟨g, hg⟩ := sublist_iff_exists_fin_orderEmbedding_get_eq.mp hsub
    obtain ⟨hlen, hget⟩ := forall₂_iff_get.mp hall
    refine ⟨fun i => g (i.cast hlen), fun i j hij => g.strictMono hij, fun i => ?_⟩
    rw [← hg]
    exact hget i i.2 (hlen ▸ i.2)

theorem OrderedMatch.length_le (h : OrderedMatch ok as bs) : as.length ≤ bs.length := by
  obtain ⟨cs, hsub, hall⟩ := orderedMatch_iff_sublist.mp h
  rw [hall.length_eq]
  exact hsub.length_le

theorem orderedMatch_nil : OrderedMatch ok [] bs :=
  orderedMatch_iff_sublist.mpr ⟨[], nil_sublist bs, .nil⟩

/-- A pair that is accepted can be taken. -/
theorem orderedMatch_cons_of_ok (h : ok a b = true) :
    OrderedMatch ok (a :: as) (b :: bs) ↔ OrderedMatch ok as bs := by
  rw [orderedMatch_iff_sublist, orderedMatch_iff_sublist]
  constructor
  · rintro ⟨cs, hsub, hall⟩
    cases hall with
    | @cons _ c _ cs _ htail => exact ⟨cs, hsub.tail, htail⟩
  · rintro ⟨cs, hsub, hall⟩
    exact ⟨b :: cs, hsub.cons_cons b, .cons h hall⟩

/-- One that is not accepted serves nobody. -/
theorem orderedMatch_cons_of_not_ok (h : ok a b = false) :
    OrderedMatch ok (a :: as) (b :: bs) ↔ OrderedMatch ok (a :: as) bs := by
  rw [orderedMatch_iff_sublist, orderedMatch_iff_sublist]
  constructor
  · rintro ⟨cs, hsub, hall⟩
    refine ⟨cs, ?_, hall⟩
    cases hsub with
    | cons _ hsub => exact hsub
    | cons_cons _ hsub =>
      cases hall with
      | cons hok _ => simp [h] at hok
  · rintro ⟨cs, hsub, hall⟩
    exact ⟨cs, hsub.cons b, hall⟩

/-- The greedy choice finds an assignment whenever there is one. -/
theorem greedyMatch_iff : greedyMatch ok as bs = true ↔ OrderedMatch ok as bs := by
  induction bs generalizing as with
  | nil =>
    cases as with
    | nil => exact iff_of_true rfl orderedMatch_nil
    | cons a as => exact iff_of_false false_ne_true fun h => absurd h.length_le (by simp)
  | cons b bs ih =>
    cases as with
    | nil => exact iff_of_true rfl orderedMatch_nil
    | cons a as =>
      rw [greedyMatch]
      by_cases hok : ok a b = true
      · rw [if_pos hok, orderedMatch_cons_of_ok hok]
        exact ih
      · rw [if_neg hok, orderedMatch_cons_of_not_ok (by simpa using hok)]
        exact ih

/-- With fewer left than are to be assigned, there is nothing to look for. -/
theorem greedyMatch_of_length_lt (h : bs.length < as.length) : greedyMatch ok as bs = false := by
  rw [eq_false_iff]
  intro hmatch
  exact absurd (greedyMatch_iff.mp hmatch).length_le (Nat.not_le.mpr h)

end MonetaryUnit.Lib
