/-
# MonetaryUnit.Lib.AssocList — totals over a finite map, and its keys in order

A map with distinct keys, kept as Mathlib's `AList`, and a total over its entries: the number
of entries of a kind, or the sum of a field. `mapTotal` follows the map through insertions,
replacements and erasures.

A map whose keys are ordered, as in a `std::map`, is walked along its keys: `firstKey` is
`begin`, `lowerBound` is `lower_bound`, and `upperBound` is where an iterator goes next. A
`rank` gives the order.
-/

import Mathlib.Data.List.AList
import Mathlib.Data.List.MinMax
import Mathlib.Algebra.BigOperators.Group.List.Basic

namespace MonetaryUnit.Lib

open List AList Option

section AssocList

variable {α β M : Type} [DecidableEq α] {s : AList (fun _ : α => β)} {a a' : α} {b b' : β}

theorem entries_erase (h : s.lookup a = some b) :
    s.entries.Perm (⟨a, b⟩ :: (s.erase a).entries) := by
  have hmem : a ∈ s.keys := mem_keys.mpr (lookup_isSome.mp (by rw [h]; rfl))
  obtain ⟨b', l1, l2, -, hs, herase⟩ := exists_of_kerase hmem
  have hb : b' = b := by
    have hin : (⟨a, b'⟩ : Sigma fun _ : α => β) ∈ s.entries := by
      rw [hs]
      simp
    have hlook := mem_lookup_iff.mpr hin
    rw [h] at hlook
    exact (some.inj hlook).symm
  subst hb
  show s.entries.Perm (_ :: s.entries.kerase a)
  rw [herase]
  nth_rewrite 1 [hs]
  exact perm_middle

theorem length_entries_erase (h : s.lookup a = some b) :
    (s.erase a).entries.length + 1 = s.entries.length := by
  rw [(entries_erase h).length_eq, length_cons]

/-- After an insertion there is the new entry, or an old one under another key. -/
theorem lookup_insert_eq_some : (s.insert a b).lookup a' = some b' ↔
    (a' = a ∧ b' = b) ∨ (a' ≠ a ∧ s.lookup a' = some b') := by
  by_cases ha : a' = a
  · subst ha
    simp [@eq_comm _ b]
  · simp [ha]

theorem lookup_erase_eq_some : (s.erase a).lookup a' = some b' ↔
    a' ≠ a ∧ s.lookup a' = some b' := by
  by_cases ha : a' = a
  · subst ha
    simp
  · simp [ha]

variable [AddCommMonoid M]

/-- The sum of `f` over the entries. -/
def mapTotal (f : α → β → M) (s : AList (fun _ : α => β)) : M :=
  (s.entries.map fun it => f it.1 it.2).sum

variable {f : α → β → M}

theorem mapTotal_erase (h : s.lookup a = some b) :
    mapTotal f s = f a b + mapTotal f (s.erase a) := by
  have hsum := ((entries_erase h).map fun it => f it.1 it.2).sum_eq
  rwa [map_cons] at hsum

/-- An insertion replaces whatever the key had. -/
theorem mapTotal_insert : mapTotal f (s.insert a b) = f a b + mapTotal f (s.erase a) := by
  rfl

theorem mapTotal_insert_new (h : s.lookup a = none) :
    mapTotal f (s.insert a b) = f a b + mapTotal f s := by
  have hnot : a ∉ s := lookup_eq_none.mp h
  rw [mapTotal, entries_insert_of_notMem hnot]
  rfl

theorem mapTotal_congr {g : α → β → M} (h : ∀ {a b}, s.lookup a = some b → f a b = g a b) :
    mapTotal f s = mapTotal g s := by
  unfold mapTotal
  congr 1
  apply map_congr_left
  intro it hit
  exact h (mem_lookup_iff.mpr hit)

end AssocList

section KeyOrder

variable {α β ι : Type} [LinearOrder ι] (rank : α → ι) (s : AList (fun _ : α => β))

/-- The least of the keys that satisfy `p`. -/
def leastKey (p : α → Bool) : Option α := (s.keys.filter p).argmin rank

def firstKey : Option α := leastKey rank s fun _ => true

/-- The first key that is not before `a`. -/
def lowerBound (a : α) : Option α := leastKey rank s fun x => decide (rank a ≤ rank x)

/-- The first key after `a`. -/
def upperBound (a : α) : Option α := leastKey rank s fun x => decide (rank a < rank x)

variable {rank s} {p : α → Bool} {a k : α}

theorem leastKey_eq_some (h : leastKey rank s p = some k) :
    k ∈ s ∧ p k = true ∧ ∀ x ∈ s, p x = true → rank k ≤ rank x := by
  have hmem := mem_filter.mp (argmin_mem h)
  exact ⟨mem_keys.mpr hmem.1, hmem.2, fun x hx hp =>
    le_of_mem_argmin (mem_filter.mpr ⟨mem_keys.mp hx, hp⟩) h⟩

theorem leastKey_eq_none (h : leastKey rank s p = none) : ∀ x ∈ s, p x = false := by
  intro x hx
  have hnil : s.keys.filter p = [] := argmin_eq_none.mp h
  rw [← Bool.not_eq_true]
  exact filter_eq_nil_iff.mp hnil x (mem_keys.mp hx)

/-- Among the keys looked at there is none before the one that is found. -/
theorem notMem_of_lt_leastKey (hlt : ∀ k, leastKey rank s p = some k → rank a < rank k)
    (hp : p a = true) : a ∉ s := by
  intro hin
  rcases hleast : leastKey rank s p with _ | k
  · exact Bool.noConfusion (hp.symm.trans (leastKey_eq_none hleast a hin))
  · exact absurd (hlt k hleast) (not_lt.mpr ((leastKey_eq_some hleast).2.2 a hin hp))

/-- A search that starts over at the first key finds one in every map that is not empty. -/
theorem lowerBound_or_firstKey (hne : s.entries ≠ []) (a : α) :
    ∃ k ∈ s, (lowerBound rank s a).or (firstKey rank s) = some k := by
  rcases hlow : lowerBound rank s a with _ | k
  · rcases hfirst : firstKey rank s with _ | k
    · rcases hent : s.entries with _ | ⟨e, es⟩
      · exact absurd hent hne
      · have hin : e.1 ∈ s := by
          rw [AList.mem_keys, AList.keys, hent]
          exact mem_cons_self
        exact absurd (leastKey_eq_none hfirst e.1 hin) Bool.noConfusion
    · exact ⟨k, (leastKey_eq_some hfirst).1, rfl⟩
  · exact ⟨k, (leastKey_eq_some hlow).1, rfl⟩

end KeyOrder

end MonetaryUnit.Lib
