/-
# MonetaryUnit.Lib.SlotTable — counting in tables, and places in a list

Two counts that a program keeps beside its tables. `holders` is the number of slots of a table
that hold a key, what a reference count is meant to be. `tally` is the number of entries of a
kind under the keys below a bound, what a counter of entries is meant to be. Both follow one
assignment: what the assigned place held before goes, what it holds now comes.

`Places` is a list without repetitions together with the place of each member, as a program keeps
it to remove a member in constant time: swap it to the end and drop the end.
-/

import Mathlib.Data.List.Nodup
import Mathlib.Data.List.Count
import Mathlib.Logic.Equiv.Basic

namespace MonetaryUnit.Lib

open List Function Option

/-- Two tests that differ at one element of a list without repetitions. -/
theorem countP_differ {α : Type} {l : List α} (hnodup : l.Nodup) {a : α} (ha : a ∈ l)
    {p q : α → Bool} (h : ∀ b ∈ l, b ≠ a → p b = q b) :
    l.countP p + (q a).toNat = l.countP q + (p a).toNat := by
  induction l with
  | nil => cases ha
  | cons b l ih =>
    obtain ⟨hb, hl⟩ := nodup_cons.mp hnodup
    rw [countP_cons, countP_cons]
    rcases mem_cons.mp ha with rfl | hmem
    · -- the two tests agree on the rest of the list
      have hrest : l.countP p = l.countP q := by
        apply countP_congr
        intro c hc
        rw [h c (mem_cons_of_mem _ hc) (ne_of_mem_of_not_mem hc hb)]
      rw [hrest]
      cases p a <;> cases q a <;> simp
    · have hne : b ≠ a := fun heq => hb (heq ▸ hmem)
      have hhead := h b mem_cons_self hne
      have htail := ih hl hmem fun c hc => h c (mem_cons_of_mem _ hc)
      rw [hhead]
      omega

theorem toNat_decide (P : Prop) [Decidable P] : (decide P).toNat = if P then 1 else 0 := by
  by_cases hP : P <;> simp [hP]

/-! ## Slots that hold a key -/

section Holders

variable {σ κ : Type} [DecidableEq σ] [DecidableEq κ]

def holders (slots : List σ) (t : σ → Option κ) (n : κ) : Nat := slots.countP fun s => t s = some n

variable {slots : List σ} {t : σ → Option κ}

theorem holders_update (hnodup : slots.Nodup) (hall : ∀ s, s ∈ slots) (s : σ) (x : Option κ)
    (n : κ) :
    holders slots (update t s x) n + (if t s = some n then 1 else 0) =
      holders slots t n + (if x = some n then 1 else 0) := by
  have hdiffer := countP_differ hnodup (hall s) (p := fun s' => decide (update t s x s' = some n))
    (q := fun s' => decide (t s' = some n))
    (by
      intro b _ hb
      rw [update_of_ne hb])
  simp only [update_self, toNat_decide] at hdiffer
  exact hdiffer

omit [DecidableEq σ] in
theorem holders_eq_zero (hall : ∀ s, s ∈ slots) {n : κ} :
    holders slots t n = 0 ↔ ∀ s, t s ≠ some n := by
  rw [holders, countP_eq_zero]
  simp only [decide_eq_true_eq]
  exact ⟨fun h s => h s (hall s), fun h s _ => h s⟩

end Holders

/-! ## Entries of a kind -/

section Tally

variable {β : Type}

def tally (N : Nat) (entry : Nat → Option β) (kind : β → Bool) : Nat :=
  (List.range N).countP fun n => (entry n).any kind

variable {N : Nat} {entry : Nat → Option β} {kind : β → Bool}

theorem tally_update {n : Nat} (hn : n < N) (x : Option β) :
    tally N (update entry n x) kind + ((entry n).any kind).toNat =
      tally N entry kind + (x.any kind).toNat := by
  have hdiffer := countP_differ nodup_range (mem_range.mpr hn)
    (p := fun i => (update entry n x i).any kind) (q := fun i => (entry i).any kind)
    (by
      intro b _ hb
      rw [update_of_ne hb])
  simp only [update_self] at hdiffer
  exact hdiffer

/-- Keys that have no entry do not count. -/
theorem tally_mono {N' : Nat} (hle : N ≤ N') (h : ∀ n, N ≤ n → entry n = none) :
    tally N' entry kind = tally N entry kind := by
  induction hle with
  | refl => rfl
  | step hle ih =>
    rw [← ih, tally, range_succ, countP_append, countP_singleton, h _ hle]
    rfl

end Tally

/-! ## Places in a list -/

section Places

variable {κ : Type}

def Places (l : List κ) (pos : κ → Option Int) : Prop :=
  ∀ n p, pos n = some p ↔ ∃ i : Nat, p = i ∧ l[i]? = some n

variable {l : List κ} {pos : κ → Option Int}

theorem Places.at_iff (h : Places l pos) {n : κ} {i : Nat} :
    pos n = some (i : Int) ↔ l[i]? = some n := by
  rw [h]
  constructor
  · rintro ⟨j, hj, hn⟩
    rwa [Int.natCast_inj.mp hj]
  · intro hn
    exact ⟨i, rfl, hn⟩

/-- No member is at two places. -/
theorem Places.unique (h : Places l pos) {n : κ} {i j : Nat} (hi : l[i]? = some n)
    (hj : l[j]? = some n) : i = j :=
  Int.natCast_inj.mp (some.inj ((h.at_iff.mpr hi).symm.trans (h.at_iff.mpr hj)))

theorem places_of_at (h : ∀ n i, pos n = some ((i : Nat) : Int) ↔ l[i]? = some n)
    (hnat : ∀ n p, pos n = some p → 0 ≤ p) : Places l pos := by
  intro n p
  constructor
  · intro hp
    obtain ⟨i, rfl⟩ := Int.eq_ofNat_of_zero_le (hnat n p hp)
    exact ⟨i, rfl, (h n i).mp hp⟩
  · rintro ⟨i, rfl, hi⟩
    exact (h n i).mpr hi

section

variable (h : Places l pos)
include h

theorem Places.nonneg {n : κ} {p : Int} (hp : pos n = some p) : 0 ≤ p := by
  obtain ⟨i, rfl, -⟩ := (h n p).mp hp
  exact Int.natCast_nonneg i

variable [DecidableEq κ]

omit [DecidableEq κ] in
/-- Members may be renamed in the list and in the places at once. -/
theorem Places.map (e : κ ≃ κ) : Places (l.map e) (pos ∘ e.symm) := by
  intro n p
  rw [comp_apply, h]
  simp only [getElem?_map, map_eq_some_iff, ← Equiv.eq_symm_apply, exists_eq_right]

theorem Places.swap {p1 p2 : Nat} {n1 n2 : κ} (h1 : l[p1]? = some n1) (h2 : l[p2]? = some n2) :
    Places ((l.set p1 n2).set p2 n1) (update (update pos n1 (some p2)) n2 (some p1)) := by
  have hlt1 : p1 < l.length := (List.getElem?_eq_some_iff.mp h1).1
  have hlt2 : p2 < l.length := (List.getElem?_eq_some_iff.mp h2).1
  -- the two members change their names
  have hlist : (l.set p1 n2).set p2 n1 = l.map (Equiv.swap n2 n1) := by
    refine ext_getElem? fun i => ?_
    rw [getElem?_set, length_set, getElem?_set, getElem?_map]
    rcases eq_or_ne p2 i with rfl | hi2
    · rw [if_pos rfl, if_pos hlt2, h2, map_some, Equiv.swap_apply_left]
    rcases eq_or_ne p1 i with rfl | hi1
    · rw [if_neg hi2, if_pos rfl, if_pos hlt1, h1, map_some, Equiv.swap_apply_right]
    rw [if_neg hi2, if_neg hi1]
    rcases hi : l[i]? with _ | n
    · rfl
    · have hn2 : n ≠ n2 := fun heq => hi2 (h.unique h2 (heq ▸ hi))
      have hn1 : n ≠ n1 := fun heq => hi1 (h.unique h1 (heq ▸ hi))
      rw [map_some, Equiv.swap_apply_of_ne_of_ne hn2 hn1]
  have hmap := h.map (Equiv.swap n2 n1)
  rw [Equiv.symm_swap, Equiv.comp_swap_eq_update, h.at_iff.mpr h1, h.at_iff.mpr h2] at hmap
  rw [hlist]
  exact hmap

theorem Places.push {a : κ} (ha : pos a = none) :
    Places (l ++ [a]) (update pos a (some l.length)) := by
  apply places_of_at
  · intro n i
    rcases eq_or_ne n a with rfl | hn
    · rw [update_self, some.injEq, Int.natCast_inj]
      constructor
      · rintro rfl
        simp
      · intro hi
        rcases Nat.lt_or_ge i l.length with hlt | hge
        · rw [getElem?_append_left hlt, ← h.at_iff, ha] at hi
          cases hi
        · have hlen := (List.getElem?_eq_some_iff.mp hi).1
          rw [length_append, length_singleton] at hlen
          omega
    · rw [update_of_ne hn, h.at_iff]
      rcases Nat.lt_or_ge i l.length with hlt | hge
      · rw [getElem?_append_left hlt]
      · rw [getElem?_append_right hge, getElem?_eq_none hge]
        simp only [reduceCtorEq, false_iff]
        intro hi
        have := mem_singleton.mp (mem_of_getElem? hi)
        exact hn this
  · intro n p hp
    rcases eq_or_ne n a with rfl | hn
    · rw [update_self, some.injEq] at hp
      omega
    · rw [update_of_ne hn] at hp
      exact h.nonneg hp

theorem Places.pop {a : κ} (ha : l[l.length - 1]? = some a) :
    Places l.dropLast (update pos a none) := by
  apply places_of_at
  · intro n i
    rw [getElem?_dropLast]
    rcases eq_or_ne n a with rfl | hn
    · rw [update_self]
      simp only [reduceCtorEq, false_iff]
      intro hi
      split at hi
      · have := h.unique hi ha
        omega
      · cases hi
    · rw [update_of_ne hn, h.at_iff]
      split
      · rfl
      simp only [reduceCtorEq, iff_false]
      intro hi
      -- only the last place is left
      have hlt := (List.getElem?_eq_some_iff.mp hi).1
      have hlast : i = l.length - 1 := by omega
      rw [hlast, ha] at hi
      exact hn (some.inj hi).symm
  · intro n p hp
    rcases eq_or_ne n a with rfl | hn
    · rw [update_self] at hp
      cases hp
    · rw [update_of_ne hn] at hp
      exact h.nonneg hp

end

end Places

end MonetaryUnit.Lib
