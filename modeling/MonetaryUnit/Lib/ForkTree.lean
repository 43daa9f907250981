/-
# MonetaryUnit.Lib.ForkTree — rooted trees given by parent pointers

A tree whose nodes know their parent and their height and nothing of their children. The path
from a node to the root is computed by following parents; the ancestors of a node are the
members of its path, so that ancestry is decidable. `pickBest` chooses from a list of nodes the
one that a comparator puts last; it is specified for comparators that compare the keys of the
nodes in a linear order.
-/

import Mathlib.Order.Lattice
import Mathlib.Data.List.TakeWhile

namespace MonetaryUnit.Lib

open List Option Nat

/-! ## Trees and paths -/

/-- A rooted tree. The height decreases along `parent`, so that every walk ends at the root. -/
structure ParentTree (β : Type) where
  root : β
  parent : β → Option β
  height : β → Nat
  parent_eq_none : ∀ b, parent b = none ↔ b = root
  height_root : height root = 0
  height_parent : ∀ b p, parent b = some p → height b = height p + 1

namespace ParentTree

variable {β : Type} (T : ParentTree β)

/-- The first `n` nodes of the walk from `b` towards the root. -/
def walk : Nat → β → List β
  | 0, _ => []
  | n + 1, b => b :: (T.parent b).elim [] (walk n)

/-- The walk from `b` to the root, `b` first. -/
def pathTo (b : β) : List β := T.walk (T.height b + 1) b

variable {T} {a b c p : β} {h : Nat} {xs : List β}

theorem pathTo_eq (b : β) : T.pathTo b = b :: (T.parent b).elim [] T.pathTo := by
  rw [pathTo, walk]
  rcases h : T.parent b with _ | p
  · rfl
  · rw [elim_some, elim_some, T.height_parent b p h, pathTo]

theorem pathTo_of_parent (h : T.parent b = some p) : T.pathTo b = b :: T.pathTo p := by
  rw [pathTo_eq, h, elim_some]

theorem pathTo_root : T.pathTo T.root = [T.root] := by
  rw [pathTo_eq, (T.parent_eq_none T.root).mpr rfl, elim_none]

theorem parent_root : T.parent T.root = none := (T.parent_eq_none T.root).mpr rfl

theorem ne_root (h : T.parent b = some p) : b ≠ T.root := by
  rintro rfl
  rw [parent_root] at h
  exact some_ne_none p h.symm

theorem exists_parent (h : b ≠ T.root) : ∃ p, T.parent b = some p := by
  rcases hp : T.parent b with _ | p
  · exact absurd ((T.parent_eq_none b).mp hp) h
  · exact ⟨p, rfl⟩

/-- Induction from the root upwards. -/
theorem induction {P : β → Prop} (hroot : P T.root)
    (hstep : ∀ b p, T.parent b = some p → P p → P b) (b : β) : P b := by
  induction hn : T.height b using Nat.strong_induction_on generalizing b with
  | h n ih =>
    rcases hp : T.parent b with _ | p
    · rwa [(T.parent_eq_none b).mp hp]
    · have hheight := T.height_parent b p hp
      exact hstep b p hp (ih _ (by omega) p rfl)

theorem length_pathTo (b : β) : (T.pathTo b).length = T.height b + 1 := by
  induction b using T.induction with
  | hroot => rw [pathTo_root, T.height_root, length_singleton]
  | hstep b p hp ih => rw [pathTo_of_parent hp, length_cons, ih, T.height_parent b p hp]

/-! ## Ancestry -/

theorem self_mem_pathTo (b : β) : b ∈ T.pathTo b := by
  exact mem_cons_self

theorem mem_pathTo_of_parent (h : T.parent b = some p) :
    a ∈ T.pathTo b ↔ a = b ∨ a ∈ T.pathTo p := by
  rw [pathTo_of_parent h, mem_cons]

theorem mem_pathTo_root : a ∈ T.pathTo T.root ↔ a = T.root := by
  rw [pathTo_root, mem_singleton]

theorem parent_mem_pathTo (h : T.parent b = some p) : p ∈ T.pathTo b :=
  (mem_pathTo_of_parent h).mpr (.inr (self_mem_pathTo p))

theorem root_mem_pathTo (b : β) : T.root ∈ T.pathTo b := by
  induction b using T.induction with
  | hroot => exact self_mem_pathTo _
  | hstep b p hp ih => exact (mem_pathTo_of_parent hp).mpr (.inr ih)

theorem pathTo_trans (hab : a ∈ T.pathTo b) (hbc : b ∈ T.pathTo c) : a ∈ T.pathTo c := by
  induction c using T.induction with
  | hroot =>
    rw [mem_pathTo_root] at hbc
    rwa [hbc] at hab
  | hstep c p hp ih =>
    rcases (mem_pathTo_of_parent hp).mp hbc with rfl | hbp
    · exact hab
    · exact (mem_pathTo_of_parent hp).mpr (.inr (ih hbp))

/-- What passes from a node to its parent holds along the path. -/
theorem of_mem_pathTo {P : β → Prop} (hP : ∀ b p, P b → T.parent b = some p → P p) (hb : P b)
    (ha : a ∈ T.pathTo b) : P a := by
  induction b using T.induction with
  | hroot => rwa [mem_pathTo_root.mp ha]
  | hstep b p hp ih =>
    rcases (mem_pathTo_of_parent hp).mp ha with rfl | ha
    · exact hb
    · exact ih (hP b p hb hp) ha

/-- A proper ancestor is an ancestor of the parent. -/
theorem mem_pathTo_parent (h : T.parent b = some p) (ha : a ∈ T.pathTo b) (hne : a ≠ b) :
    a ∈ T.pathTo p :=
  ((mem_pathTo_of_parent h).mp ha).resolve_left hne

theorem height_le (h : a ∈ T.pathTo b) : T.height a ≤ T.height b := by
  induction b using T.induction with
  | hroot => rw [mem_pathTo_root.mp h]
  | hstep b p hp ih =>
    rcases (mem_pathTo_of_parent hp).mp h with rfl | h
    · exact le_refl _
    · rw [T.height_parent b p hp]
      exact le_succ_of_le (ih h)

/-- Two ancestors of one node are comparable: a path has one node of each height. -/
theorem comparable (ha : a ∈ T.pathTo c) (hb : b ∈ T.pathTo c) :
    a ∈ T.pathTo b ∨ b ∈ T.pathTo a := by
  induction c using T.induction with
  | hroot =>
    rw [mem_pathTo_root] at ha hb
    rw [ha, hb]
    exact .inl (self_mem_pathTo _)
  | hstep c p hp ih =>
    rcases (mem_pathTo_of_parent hp).mp ha with rfl | ha'
    · exact .inr hb
    · rcases (mem_pathTo_of_parent hp).mp hb with rfl | hb'
      · exact .inl ha
      · exact ih ha' hb'

/-- A proper ancestor is lower. -/
theorem eq_of_height_eq (hab : a ∈ T.pathTo b) (h : T.height a = T.height b) : a = b := by
  by_contra hne
  have hroot : b ≠ T.root := fun he => hne (by rw [he] at hab ⊢; exact mem_pathTo_root.mp hab)
  obtain ⟨p, hp⟩ := exists_parent hroot
  have hle := height_le (mem_pathTo_parent hp hab hne)
  have hlt := T.height_parent b p hp
  omega

theorem eq_of_mem_pathTo (hab : a ∈ T.pathTo b) (hba : b ∈ T.pathTo a) : a = b :=
  eq_of_height_eq hab (le_antisymm (height_le hab) (height_le hba))

/-! ## The ancestor at a height -/

/-- The node reached by following `n` parents. -/
def up (T : ParentTree β) : Nat → β → Option β
  | 0, b => some b
  | n + 1, b => (T.parent b).bind (up T n)

/-- The ancestor of `b` at height `h`. -/
def atHeight (T : ParentTree β) (h : Nat) (b : β) : Option β :=
  if h ≤ T.height b then T.up (T.height b - h) b else none

theorem up_spec {n : Nat} (h : n ≤ T.height b) :
    ∃ a, T.up n b = some a ∧ a ∈ T.pathTo b ∧ T.height a + n = T.height b := by
  induction n generalizing b with
  | zero => exact ⟨b, rfl, self_mem_pathTo b, rfl⟩
  | succ n ih =>
    have hne : b ≠ T.root := by
      rintro rfl
      rw [T.height_root] at h
      exact absurd h (not_succ_le_zero n)
    obtain ⟨p, hp⟩ := exists_parent hne
    have hh := T.height_parent b p hp
    obtain ⟨a, ha, hmem, hheight⟩ := ih (show n ≤ T.height p by omega)
    refine ⟨a, ?_, pathTo_trans hmem (parent_mem_pathTo hp), by omega⟩
    rw [up, hp, bind_some, ha]

/-- A path has one node of each height. -/
theorem eq_of_height (ha : a ∈ T.pathTo c) (hb : b ∈ T.pathTo c) (h : T.height a = T.height b) :
    a = b := by
  rcases comparable ha hb with hab | hba
  · exact eq_of_height_eq hab h
  · exact (eq_of_height_eq hba h.symm).symm

theorem atHeight_eq_some_iff : T.atHeight h b = some a ↔ a ∈ T.pathTo b ∧ T.height a = h := by
  rw [atHeight]
  constructor
  · intro heq
    split at heq
    · next hle =>
      obtain ⟨a', ha', hmem, hheight⟩ := up_spec (sub_le (T.height b) h)
      rw [heq] at ha'
      obtain rfl := some.inj ha'
      exact ⟨hmem, by omega⟩
    · exact absurd heq.symm (some_ne_none a)
  · rintro ⟨hmem, rfl⟩
    have hle := height_le hmem
    rw [if_pos hle]
    obtain ⟨a', ha', hmem', hheight⟩ := up_spec (sub_le (T.height b) (T.height a))
    rw [ha', eq_of_height hmem' hmem (by omega)]

theorem atHeight_self (b : β) : T.atHeight (T.height b) b = some b :=
  atHeight_eq_some_iff.mpr ⟨self_mem_pathTo b, rfl⟩

theorem exists_atHeight (hle : h ≤ T.height b) : ∃ a, T.atHeight h b = some a := by
  obtain ⟨a, ha, -, -⟩ := up_spec (sub_le (T.height b) h)
  exact ⟨a, by rw [atHeight, if_pos hle, ha]⟩

/-- Above the height asked for, an ancestor has the same ancestors. -/
theorem atHeight_of_mem (ha : a ∈ T.pathTo b) (hle : h ≤ T.height a) :
    T.atHeight h a = T.atHeight h b := by
  obtain ⟨c, hc⟩ := exists_atHeight hle
  obtain ⟨hmem, hheight⟩ := atHeight_eq_some_iff.mp hc
  rw [hc, atHeight_eq_some_iff.mpr ⟨pathTo_trans hmem ha, hheight⟩]

/-- An ancestor is one of the lower ones exactly when it is not higher. -/
theorem mem_pathTo_of_height_le (ha : a ∈ T.pathTo c) (hb : b ∈ T.pathTo c)
    (h : T.height a ≤ T.height b) : a ∈ T.pathTo b := by
  rcases comparable ha hb with hab | hba
  · exact hab
  · rw [eq_of_height ha hb (le_antisymm h (height_le hba))]
    exact self_mem_pathTo b

/-! ## Paths between two nodes -/

/-- `bs` is the path from `t`, exclusive, up to `b`. -/
def Climbs (T : ParentTree β) : β → List β → β → Prop
  | t, [], b => t = b
  | t, x :: xs, b => T.parent x = some t ∧ Climbs T x xs b

theorem climbs_snoc {t : β} (h : T.Climbs t xs p) (hp : T.parent b = some p) :
    T.Climbs t (xs ++ [b]) b := by
  induction xs generalizing t with
  | nil =>
    have ht : t = p := h
    exact ⟨ht ▸ hp, rfl⟩
  | cons x xs ih => exact ⟨h.1, ih h.2⟩

theorem climbs_mem_pathTo {t : β} (h : T.Climbs t xs b) :
    t ∈ T.pathTo b ∧ ∀ x ∈ xs, x ∈ T.pathTo b := by
  induction xs generalizing t with
  | nil =>
    have ht : t = b := h
    exact ⟨ht ▸ self_mem_pathTo t, fun x hx => absurd hx not_mem_nil⟩
  | cons x xs ih =>
    obtain ⟨hx, hxs⟩ := ih h.2
    refine ⟨pathTo_trans (parent_mem_pathTo h.1) hx, fun y hy => ?_⟩
    rcases mem_cons.mp hy with rfl | hy
    · exact hx
    · exact hxs y hy

/-! ## The part of a path above a set of nodes

A set of nodes is closed when it has the root and the parents of its members. The walk from a
node meets such a set, and from there on stays in it. -/

section Above

variable [DecidableEq β] {K : List β}

/-- The nodes of `b`'s path that come before the first one in `K`, the oldest first. -/
def above (T : ParentTree β) (K : List β) (b : β) : List β :=
  ((T.pathTo b).takeWhile (fun x => decide (x ∉ K))).reverse

/-- The first node of `b`'s path in `K`. -/
def meet (T : ParentTree β) (K : List β) (b : β) : Option β :=
  (T.pathTo b).find? (fun x => decide (x ∈ K))

theorem above_mem (h : b ∈ K) : T.above K b = [] := by
  rw [above, pathTo_eq, takeWhile_cons_of_neg (by simpa using h), reverse_nil]

theorem above_not_mem (h : b ∉ K) (hp : T.parent b = some p) :
    T.above K b = T.above K p ++ [b] := by
  rw [above, pathTo_of_parent hp, takeWhile_cons_of_pos (by simpa using h), reverse_cons, above]

theorem meet_mem (h : b ∈ K) : T.meet K b = some b := by
  rw [meet, pathTo_eq, find?_cons_of_pos (by simpa using h)]

theorem meet_not_mem (h : b ∉ K) (hp : T.parent b = some p) : T.meet K b = T.meet K p := by
  rw [meet, pathTo_of_parent hp, find?_cons_of_neg (by simpa using h), meet]

/-- The walk from a node meets a set that has the root, at an ancestor of
the node; the nodes above that meeting point are the path from it up to the node. -/
theorem climbs_above (hroot : T.root ∈ K) (b : β) :
    ∃ f, T.meet K b = some f ∧ f ∈ K ∧ f ∈ T.pathTo b ∧ T.Climbs f (T.above K b) b := by
  induction b using T.induction with
  | hroot =>
    refine ⟨T.root, meet_mem hroot, hroot, self_mem_pathTo _, ?_⟩
    rw [above_mem hroot]
    rfl
  | hstep b p hp ih =>
    by_cases hb : b ∈ K
    · refine ⟨b, meet_mem hb, hb, self_mem_pathTo b, ?_⟩
      rw [above_mem hb]
      rfl
    · obtain ⟨f, hmeet, hf, hfp, hclimb⟩ := ih
      refine ⟨f, (meet_not_mem hb hp).trans hmeet, hf, pathTo_trans hfp (parent_mem_pathTo hp), ?_⟩
      rw [above_not_mem hb hp]
      exact climbs_snoc hclimb hp

/-- The meeting point is the highest ancestor in the set. -/
theorem mem_pathTo_meet {f : β} (hroot : T.root ∈ K) (hmeet : T.meet K b = some f)
    (ha : a ∈ T.pathTo b) (haK : a ∈ K) : a ∈ T.pathTo f := by
  induction b using T.induction with
  | hroot =>
    rw [meet_mem hroot] at hmeet
    rwa [← some.inj hmeet]
  | hstep b p hp ih =>
    by_cases hb : b ∈ K
    · rw [meet_mem hb] at hmeet
      rwa [← some.inj hmeet]
    · rw [meet_not_mem hb hp] at hmeet
      exact ih hmeet (mem_pathTo_parent hp ha fun he => hb (he ▸ haK))

end Above

end ParentTree

/-! ## The best element of a list -/

section PickBest

variable {β κ : Type} [LinearOrder κ] {l : List β} {less : β → β → Bool}

/-- The element that comes last under the comparator `less`. -/
def pickBest (less : β → β → Bool) : List β → Option β
  | [] => none
  | b :: bs =>
    match pickBest less bs with
    | none => some b
    | some m => if less m b then some b else some m

theorem pickBest_eq_none (h : pickBest less l = none) : l = [] := by
  rcases l with _ | ⟨b, bs⟩
  · rfl
  · rw [pickBest] at h
    split at h
    · cases h
    · split at h <;> cases h

/-- The choice is a member, and no member has a greater key. -/
theorem pickBest_spec {key : β → κ} (hless : ∀ a b, less a b = true ↔ key a < key b) {m : β}
    (h : pickBest less l = some m) : m ∈ l ∧ ∀ x ∈ l, key x ≤ key m := by
  induction l generalizing m with
  | nil => exact absurd h.symm (some_ne_none m)
  | cons b bs ih =>
    rw [pickBest] at h
    rcases hm : pickBest less bs with _ | n <;> rw [hm] at h
    · rw [pickBest_eq_none hm, ← some.inj h]
      exact ⟨mem_cons_self, fun x hx => by rw [mem_singleton.mp hx]⟩
    obtain ⟨hn, hmax⟩ := ih hm
    dsimp only at h
    split at h
    case isTrue hlt =>
      rw [← some.inj h]
      have hnb := (hless n b).mp hlt
      exact ⟨mem_cons_self,
        forall_mem_cons.mpr ⟨le_rfl, fun x hx => (hmax x hx).trans hnb.le⟩⟩
    case isFalse hlt =>
      rw [← some.inj h]
      have hbn : key b ≤ key n := not_lt.mp fun hlt' => hlt ((hless n b).mpr hlt')
      exact ⟨mem_cons_of_mem b hn, forall_mem_cons.mpr ⟨hbn, hmax⟩⟩

end PickBest

end MonetaryUnit.Lib
