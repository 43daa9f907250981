/-
# MonetaryUnit.Lib.PairTree — trees hashed level by level

A list of nodes is hashed pair by pair into the next level, an odd last node with itself, until
one node is left. Over any type of nodes and any hash of two nodes:

  * a level of even width whose last two nodes are equal has the same next level as the level
    without its last node (`pairUp_dropLast`);
  * away from that case, and if no two of the pairs hashed collide, the top determines the
    leaves (`treeTop_injective`).

A two-node level is special: without its last node it *is* a top, so nothing can be dropped.
-/

import Mathlib.Data.List.Basic
import Mathlib.Tactic.Ring

namespace MonetaryUnit.Lib

open List Function Nat

variable {α : Type}

/-! ## One level -/

/-- The pairs a level hashes. -/
def pairUp : List α → List (α × α)
  | [] => []
  | [a] => [(a, a)]
  | a :: b :: rest => (a, b) :: pairUp rest

/-- The level has even width and its last two nodes are equal. -/
def EndsInTwins : List α → Prop
  | [] => False
  | [_] => False
  | a :: b :: rest => (rest = [] ∧ a = b) ∨ EndsInTwins rest

instance decidableEndsInTwins [DecidableEq α] : (l : List α) → Decidable (EndsInTwins l)
  | [] => inferInstanceAs (Decidable False)
  | [_] => inferInstanceAs (Decidable False)
  | a :: b :: rest =>
    have := decidableEndsInTwins rest
    inferInstanceAs (Decidable ((rest = [] ∧ a = b) ∨ EndsInTwins rest))

def hashLevel (hash : α → α → α) (nodes : List α) : List α :=
  (pairUp nodes).map fun p => hash p.1 p.2

@[simp] theorem length_pairUp (l : List α) : (pairUp l).length = (l.length + 1) / 2 := by
  induction l using pairUp.induct with
  | case1 => simp [pairUp]
  | case2 a => simp [pairUp]
  | case3 a b rest ih =>
    rw [pairUp, length_cons, length_cons, length_cons]
    omega

@[simp] theorem length_hashLevel (hash : α → α → α) (l : List α) :
    (hashLevel hash l).length = (l.length + 1) / 2 := by
  rw [hashLevel, length_map, length_pairUp]

variable {l l' : List α} {fuel f f' : Nat} {ps qs : List (α × α)}

theorem mem_of_mem_pairUp {p : α × α} (hp : p ∈ pairUp l) : p.1 ∈ l := by
  induction l using pairUp.induct with
  | case1 => cases hp
  | case2 a =>
    rw [pairUp, mem_singleton] at hp
    simp [hp]
  | case3 a b rest ih =>
    rw [pairUp, mem_cons] at hp
    rcases hp with rfl | hp
    · exact mem_cons_self
    · exact mem_cons_of_mem _ (mem_cons_of_mem _ (ih hp))

theorem mem_hashLevel {hash : α → α → α} {x : α} :
    x ∈ hashLevel hash l ↔ ∃ p ∈ pairUp l, x = hash p.1 p.2 := by
  simp only [hashLevel, mem_map, eq_comm]

/-- Whole pairs in front are paired the same whatever follows. -/
theorem pairUp_take {j : Nat} (hj : 2 * j ≤ l.length) :
    pairUp (l.take (2 * j)) = (pairUp l).take j := by
  induction l using pairUp.induct generalizing j with
  | case1 => simp [pairUp]
  | case2 a =>
    have hj0 : j = 0 := by simp at hj; omega
    subst hj0
    rfl
  | case3 a b rest ih =>
    cases j with
    | zero => rfl
    | succ j =>
      rw [length_cons, length_cons] at hj
      show pairUp (a :: b :: rest.take (2 * j)) = _
      rw [pairUp, ih (by omega), pairUp, take_succ_cons]

theorem hashLevel_take (hash : α → α → α) {j : Nat} (hj : 2 * j ≤ l.length) :
    hashLevel hash (l.take (2 * j)) = (hashLevel hash l).take j := by
  rw [hashLevel, pairUp_take hj, map_take, hashLevel]

/-- The second of two equal last nodes can go: the first is then
paired with itself. -/
theorem pairUp_dropLast (h : EndsInTwins l) : pairUp l.dropLast = pairUp l := by
  induction l using pairUp.induct with
  | case1 => exact h.elim
  | case2 a => exact h.elim
  | case3 a b rest ih =>
    rcases h with ⟨rfl, rfl⟩ | h
    · rfl
    · have hne : rest ≠ [] := by
        rintro rfl
        exact h
      rw [dropLast_cons_of_ne_nil (cons_ne_nil b rest),
        dropLast_cons_of_ne_nil hne, pairUp, pairUp, ih h]

theorem pairUp_injective_of_length (hlen : l.length = l'.length) (h : pairUp l = pairUp l') :
    l = l' := by
  induction l using pairUp.induct generalizing l' with
  | case1 =>
    exact (length_eq_zero_iff.mp hlen.symm).symm
  | case2 a =>
    match l', hlen with
    | [b], _ =>
      rw [pairUp, pairUp, cons.injEq, Prod.mk.injEq] at h
      rw [h.1.1]
  | case3 a b rest ih =>
    match l', hlen with
    | c :: d :: rest', hlen =>
      rw [pairUp, pairUp, cons.injEq] at h
      obtain ⟨⟨rfl, rfl⟩, hrest⟩ := h
      rw [ih (by simpa using hlen) hrest]

/-- Of two levels that hash the same pairs the wider one ends in twins. -/
theorem endsInTwins_of_pairUp_eq (hlen : l.length < l'.length) (h : pairUp l = pairUp l') :
    EndsInTwins l' := by
  induction l using pairUp.induct generalizing l' with
  | case1 =>
    have hl := congrArg length h
    rw [length_pairUp, length_pairUp] at hl
    rw [length_nil] at hl hlen
    omega
  | case2 a =>
    match l', hlen with
    | b :: c :: rest, _ =>
      rw [pairUp, pairUp, cons.injEq] at h
      obtain ⟨⟨rfl, rfl⟩, hrest⟩ := h
      have hl := congrArg length hrest
      rw [length_pairUp, length_nil] at hl
      have hnil : rest = [] := length_eq_zero_iff.mp (by omega)
      exact .inl ⟨hnil, rfl⟩
  | case3 a b rest ih =>
    match l', hlen with
    | c :: d :: rest', hlen =>
      rw [pairUp, pairUp, cons.injEq] at h
      exact .inr (ih (by simpa using hlen) h.2)

/-- Two levels of more than one node that hash the same pairs are equal, unless one of them has
more than two nodes and ends in twins. -/
theorem pairUp_injective (h : pairUp l = pairUp l') (hl : 1 < l.length) (hl' : 1 < l'.length)
    (ht : ¬(2 < l.length ∧ EndsInTwins l)) (ht' : ¬(2 < l'.length ∧ EndsInTwins l')) : l = l' := by
  rcases lt_trichotomy l.length l'.length with hlt | heq | hgt
  · exact absurd ⟨by omega, endsInTwins_of_pairUp_eq hlt h⟩ ht'
  · exact pairUp_injective_of_length heq h
  · exact absurd ⟨by omega, endsInTwins_of_pairUp_eq hgt h.symm⟩ ht

/-! ## The whole tree -/

section Tree

variable (hash : α → α → α)

/-- The last level reached: one node, once the fuel covers the width. -/
def treeTop : Nat → List α → List α
  | 0, nodes => nodes
  | fuel + 1, nodes =>
    if 1 < nodes.length then treeTop fuel (hashLevel hash nodes) else nodes

/-- The levels of more than one node, from the leaves up. -/
def hashedLevels : Nat → List α → List (List α)
  | 0, _ => []
  | fuel + 1, nodes =>
    if 1 < nodes.length then nodes :: hashedLevels fuel (hashLevel hash nodes) else []

/-- Every pair hashed on the way to the top. -/
def treePairs (fuel : Nat) (nodes : List α) : List (α × α) :=
  (hashedLevels hash fuel nodes).flatMap pairUp

/-- A level of more than `w` nodes ends in twins. -/
def HasTwins (w fuel : Nat) (nodes : List α) : Prop :=
  ∃ level ∈ hashedLevels hash fuel nodes, w < level.length ∧ EndsInTwins level

instance [DecidableEq α] (w fuel : Nat) (nodes : List α) : Decidable (HasTwins hash w fuel nodes) :=
  inferInstanceAs (Decidable (∃ level ∈ hashedLevels hash fuel nodes,
    w < level.length ∧ EndsInTwins level))

end Tree

variable {hash : α → α → α}

theorem treeTop_of_le_one (hl : l.length ≤ 1) : treeTop hash fuel l = l := by
  cases fuel with
  | zero => rfl
  | succ fuel => exact if_neg (by omega)

theorem treeTop_succ (hl : 1 < l.length) :
    treeTop hash (fuel + 1) l = treeTop hash fuel (hashLevel hash l) :=
  if_pos hl

theorem hashedLevels_of_le_one (hl : l.length ≤ 1) : hashedLevels hash fuel l = [] := by
  cases fuel with
  | zero => rfl
  | succ fuel => exact if_neg (by omega)

theorem hashedLevels_succ (hl : 1 < l.length) :
    hashedLevels hash (fuel + 1) l = l :: hashedLevels hash fuel (hashLevel hash l) :=
  if_pos hl

theorem treePairs_of_le_one (hl : l.length ≤ 1) : treePairs hash fuel l = [] := by
  rw [treePairs, hashedLevels_of_le_one hl, flatMap_nil]

theorem treePairs_succ (hl : 1 < l.length) :
    treePairs hash (fuel + 1) l = pairUp l ++ treePairs hash fuel (hashLevel hash l) := by
  rw [treePairs, hashedLevels_succ hl, flatMap_cons, ← treePairs]

theorem not_hasTwins_of_le_one {w : Nat} (hl : l.length ≤ 1) : ¬HasTwins hash w fuel l := by
  rintro ⟨level, hmem, -⟩
  rw [hashedLevels_of_le_one hl] at hmem
  cases hmem

theorem hasTwins_succ {w : Nat} (hl : 1 < l.length) : HasTwins hash w (fuel + 1) l ↔
      (w < l.length ∧ EndsInTwins l) ∨ HasTwins hash w fuel (hashLevel hash l) := by
  simp only [HasTwins, hashedLevels_succ hl, mem_cons, exists_eq_or_imp]

/-- Fuel that covers the width is enough. -/
theorem tree_fuel (hf : l.length ≤ f + 1) (hf' : l.length ≤ f' + 1) :
    treeTop hash f l = treeTop hash f' l ∧ hashedLevels hash f l = hashedLevels hash f' l := by
  induction f generalizing f' l with
  | zero =>
    rw [treeTop_of_le_one hf, treeTop_of_le_one hf, hashedLevels_of_le_one hf,
      hashedLevels_of_le_one hf]
    exact ⟨rfl, rfl⟩
  | succ f ih =>
    rcases lt_or_ge 1 l.length with hl | hl
    · obtain ⟨k, rfl⟩ : ∃ k, f' = k + 1 := ⟨f' - 1, by omega⟩
      rw [treeTop_succ hl, treeTop_succ hl, hashedLevels_succ hl, hashedLevels_succ hl]
      obtain ⟨htop, hlevels⟩ := @ih (hashLevel hash l) k (by rw [length_hashLevel]; omega)
        (by rw [length_hashLevel]; omega)
      exact ⟨htop, congrArg _ hlevels⟩
    · rw [treeTop_of_le_one hl, treeTop_of_le_one hl, hashedLevels_of_le_one hl,
        hashedLevels_of_le_one hl]
      exact ⟨rfl, rfl⟩

theorem length_treeTop (hne : l ≠ []) (hf : l.length ≤ fuel + 1) :
    (treeTop hash fuel l).length = 1 := by
  have hpos : 0 < l.length := length_pos_of_ne_nil hne
  induction fuel generalizing l with
  | zero =>
    show l.length = 1
    omega
  | succ fuel ih =>
    rcases lt_or_ge 1 l.length with hl | hl
    · rw [treeTop_succ hl]
      have hlen := length_hashLevel hash l
      exact ih (ne_nil_of_length_pos (by omega)) (by omega) (by omega)
    · rw [treeTop_of_le_one hl]
      omega

/-- The first component of a hashed pair is a leaf or the hash of a pair. -/
theorem fst_of_mem_treePairs {q : α × α} (hq : q ∈ treePairs hash fuel l) :
    q.1 ∈ l ∨ ∃ r ∈ treePairs hash fuel l, q.1 = hash r.1 r.2 := by
  induction fuel generalizing l with
  | zero => cases hq
  | succ fuel ih =>
    rcases lt_or_ge 1 l.length with hl | hl
    · rw [treePairs_succ hl, mem_append] at hq
      rw [treePairs_succ hl]
      rcases hq with hq | hq
      · exact .inl (mem_of_mem_pairUp hq)
      · -- a node of the next level is itself the hash of a pair
        right
        rcases ih hq with hmem | ⟨r, hr, heq⟩
        · obtain ⟨r, hr, heq⟩ := mem_hashLevel.mp hmem
          exact ⟨r, mem_append_left _ hr, heq⟩
        · exact ⟨r, mem_append_right _ hr, heq⟩
    · rw [treePairs_of_le_one hl] at hq
      cases hq

/-- The top over more than one leaf is the hash of a pair. -/
theorem mem_treeTop {x : α} (hl : 1 < l.length) (hf : l.length ≤ fuel + 1)
    (hx : x ∈ treeTop hash fuel l) : ∃ p ∈ treePairs hash fuel l, x = hash p.1 p.2 := by
  induction fuel generalizing l with
  | zero => omega
  | succ fuel ih =>
    rw [treeTop_succ hl] at hx
    rw [treePairs_succ hl]
    rcases lt_or_ge 1 (hashLevel hash l).length with hnext | hnext
    · obtain ⟨p, hp, heq⟩ := ih hnext (by rw [length_hashLevel]; omega) hx
      exact ⟨p, mem_append_right _ hp, heq⟩
    · rw [treeTop_of_le_one hnext] at hx
      obtain ⟨p, hp, heq⟩ := mem_hashLevel.mp hx
      exact ⟨p, mem_append_left _ hp, heq⟩

/-- No two of the pairs have the same hash. -/
def CollisionFree (hash : α → α → α) (ps : List (α × α)) : Prop :=
  ∀ p ∈ ps, ∀ q ∈ ps, hash p.1 p.2 = hash q.1 q.2 → p = q

/-- None of the leaves is the hash of one of the pairs. -/
def Apart (hash : α → α → α) (leaves : List α) (ps : List (α × α)) : Prop :=
  ∀ t ∈ leaves, ∀ p ∈ ps, t ≠ hash p.1 p.2

instance [DecidableEq α] (ps : List (α × α)) : Decidable (CollisionFree hash ps) :=
  inferInstanceAs (Decidable (∀ p ∈ ps, ∀ q ∈ ps, hash p.1 p.2 = hash q.1 q.2 → p = q))

instance [DecidableEq α] (leaves : List α) (ps : List (α × α)) : Decidable (Apart hash leaves ps) :=
  inferInstanceAs (Decidable (∀ t ∈ leaves, ∀ p ∈ ps, t ≠ hash p.1 p.2))

theorem CollisionFree.symm (h : CollisionFree hash (ps ++ qs)) : CollisionFree hash (qs ++ ps) := by
  intro p hp q hq
  rw [mem_append, or_comm, ← mem_append] at hp hq
  exact h p hp q hq

theorem CollisionFree.mono {ps' qs' : List (α × α)} (h : CollisionFree hash (ps' ++ qs'))
    (hp : ps ⊆ ps') (hq : qs ⊆ qs') : CollisionFree hash (ps ++ qs) := by
  have hsub : ps ++ qs ⊆ ps' ++ qs' := append_subset.mpr ⟨fun _ h => mem_append_left _ (hp h),
      fun _ h => mem_append_right _ (hq h)⟩
  exact fun p hp q hq => h p (hsub hp) q (hsub hq)

theorem map_injective_of_collisionFree (h : CollisionFree hash (ps ++ qs))
    (heq : ps.map (fun p => hash p.1 p.2) = qs.map fun p => hash p.1 p.2) : ps = qs := by
  induction ps generalizing qs with
  | nil => exact (map_eq_nil_iff.mp heq.symm).symm
  | cons p ps ih =>
    match qs, heq with
    | q :: qs, heq =>
      rw [map_cons, map_cons, cons.injEq] at heq
      have hpq : p = q := h p (by simp) q (by simp) heq.1
      have hrest : ps = qs := ih (h.mono (subset_cons_self p ps) (subset_cons_self q qs)) heq.2
      rw [hpq, hrest]

/-- If the leaves of one tree are apart from the pairs of another, the next levels are too. -/
theorem Apart.hashLevel (hl : 1 < l.length) (hl' : 1 < l'.length)
    (hapart : Apart hash l (treePairs hash (f' + 1) l'))
    (hinj : CollisionFree hash (treePairs hash (f + 1) l ++ treePairs hash (f' + 1) l')) :
    Apart hash (hashLevel hash l) (treePairs hash f' (Lib.hashLevel hash l')) := by
  rw [treePairs_succ hl] at hinj
  rw [treePairs_succ hl'] at hapart hinj
  rintro x hx q hq rfl
  obtain ⟨p, hp, heq⟩ := mem_hashLevel.mp hx
  -- the two hashes are of one pair, whose first half is a leaf below and a hash above
  have hqp : q = p := hinj q (by simp [hq]) p (by simp [hp]) heq
  have hleaf : q.1 ∈ l := hqp ▸ mem_of_mem_pairUp hp
  rcases fst_of_mem_treePairs hq with hmem | ⟨r, hr, hr1⟩
  · obtain ⟨r, hr, hr1⟩ := mem_hashLevel.mp hmem
    exact hapart q.1 hleaf r (mem_append_left _ hr) hr1
  · exact hapart q.1 hleaf r (mem_append_right _ hr) hr1

/-- A single leaf is not the top of a tree of several leaves. -/
theorem Apart.eq_of_le_one (hne : l ≠ []) (hl : l.length ≤ 1) (hf' : l'.length ≤ f' + 1)
    (hapart : Apart hash l (treePairs hash f' l')) (htop : treeTop hash f l = treeTop hash f' l') :
    l = l' := by
  rw [treeTop_of_le_one hl] at htop
  rcases lt_or_ge 1 l'.length with hl' | hl'
  · obtain ⟨x, hx⟩ := exists_mem_of_ne_nil l hne
    obtain ⟨p, hp, heq⟩ := mem_treeTop hl' hf' (htop ▸ hx)
    exact absurd heq (hapart x hx p hp)
  · rwa [treeTop_of_le_one hl'] at htop

/-- The top determines the leaves: two trees without twins in a level
of more than two nodes, with no collision among their pairs and no leaf of one equal to an
inner node of the other, have equal leaves if they have equal tops. -/
theorem treeTop_injective (hne : l ≠ []) (hne' : l' ≠ []) (hf : l.length ≤ f + 1)
    (hf' : l'.length ≤ f' + 1) (ht : ¬HasTwins hash 2 f l) (ht' : ¬HasTwins hash 2 f' l')
    (hinj : CollisionFree hash (treePairs hash f l ++ treePairs hash f' l'))
    (hapart : Apart hash l (treePairs hash f' l')) (hapart' : Apart hash l' (treePairs hash f l))
    (htop : treeTop hash f l = treeTop hash f' l') : l = l' := by
  induction f generalizing f' l l' with
  | zero => exact hapart.eq_of_le_one hne hf hf' htop
  | succ f ih =>
    rcases le_or_gt l.length 1 with hl | hl
    · exact hapart.eq_of_le_one hne hl hf' htop
    rcases le_or_gt l'.length 1 with hl' | hl'
    · exact (hapart'.eq_of_le_one hne' hl' hf htop.symm).symm
    obtain ⟨k, rfl⟩ : ∃ k, f' = k + 1 := ⟨f' - 1, by omega⟩
    have hlen := length_hashLevel hash l
    have hlen' := length_hashLevel hash l'
    rw [hasTwins_succ hl] at ht
    rw [hasTwins_succ hl'] at ht'
    have hnext : hashLevel hash l = hashLevel hash l' := by
      apply @ih _ _ k
      · exact ne_nil_of_length_pos (by omega)
      · exact ne_nil_of_length_pos (by omega)
      · omega
      · omega
      · exact fun h => ht (.inr h)
      · exact fun h => ht' (.inr h)
      · rw [treePairs_succ hl, treePairs_succ hl'] at hinj
        exact hinj.mono (subset_append_right _ _) (subset_append_right _ _)
      · exact hapart.hashLevel hl hl' hinj
      · exact hapart'.hashLevel hl' hl hinj.symm
      · rwa [treeTop_succ hl, treeTop_succ hl'] at htop
    have hpairs : pairUp l = pairUp l' := by
      rw [treePairs_succ hl, treePairs_succ hl'] at hinj
      exact map_injective_of_collisionFree
        (hinj.mono (subset_append_left _ _) (subset_append_left _ _)) hnext
    exact pairUp_injective hpairs hl hl' (fun h => ht (.inl h)) (fun h => ht' (.inl h))

/-- Twins in a level of more than two nodes: some proper
part of the leaves from the front has the same top, and hashes no pair of its own. -/
theorem exists_shorter_of_hasTwins (h : HasTwins hash 2 fuel l) :
    ∃ j, 1 < j ∧ j < l.length ∧ treeTop hash fuel (l.take j) = treeTop hash fuel l ∧
      treePairs hash fuel (l.take j) ⊆ treePairs hash fuel l := by
  induction fuel generalizing l with
  | zero =>
    obtain ⟨level, hmem, -⟩ := h
    cases hmem
  | succ fuel ih =>
    rcases lt_or_ge 1 l.length with hl | hl
    · rcases (hasTwins_succ hl).mp h with ⟨hwide, htwins⟩ | hnext
      · have htake : 1 < (l.take (l.length - 1)).length := by
          rw [length_take]
          omega
        have hsame : pairUp (l.take (l.length - 1)) = pairUp l := by
          rw [← dropLast_eq_take, pairUp_dropLast htwins]
        refine ⟨l.length - 1, by omega, by omega, ?_, ?_⟩
        · rw [treeTop_succ htake, treeTop_succ hl, hashLevel, hsame, ← hashLevel]
        · rw [treePairs_succ htake, treePairs_succ hl, hashLevel, hsame]
          exact List.Subset.refl _
      · -- the leaves below the nodes that stay are the first `2 * j`
        obtain ⟨j, hj, hjlen, htop, hpairs⟩ := ih hnext
        rw [length_hashLevel] at hjlen
        have htake : 1 < (l.take (2 * j)).length := by
          rw [length_take]
          omega
        refine ⟨2 * j, by omega, by omega, ?_, ?_⟩
        · rw [treeTop_succ htake, treeTop_succ hl, hashLevel_take hash (by omega), htop]
        · rw [treePairs_succ htake, treePairs_succ hl, hashLevel_take hash (by omega),
            pairUp_take (by omega)]
          exact append_subset.mpr ⟨fun _ h => mem_append_left _ (mem_of_mem_take h),
              fun _ h => mem_append_right _ (hpairs h)⟩
    · exact absurd h (not_hasTwins_of_le_one hl)

/-- Some leaves from the front have the same top and no twins left. -/
theorem exists_take_not_hasTwins (hne : l ≠ []) :
    ∃ j, l.take j ≠ [] ∧ ¬HasTwins hash 2 fuel (l.take j) ∧
      treeTop hash fuel (l.take j) = treeTop hash fuel l ∧
      treePairs hash fuel (l.take j) ⊆ treePairs hash fuel l := by
  induction hn : l.length using Nat.strongRecOn generalizing l with
  | ind n ih =>
    by_cases h : HasTwins hash 2 fuel l
    · obtain ⟨j, hj, hjlen, htop, hpairs⟩ := exists_shorter_of_hasTwins h
      have hlen : (l.take j).length = j := length_take_of_le (le_of_lt hjlen)
      obtain ⟨i, hne', htwins, htop', hpairs'⟩ :=
        ih j (by omega) (ne_nil_of_length_pos (by omega)) hlen
      rw [take_take] at hne' htwins htop' hpairs'
      exact ⟨min i j, hne', htwins, htop'.trans htop, List.Subset.trans hpairs' hpairs⟩
    · refine ⟨l.length, ?_⟩
      rw [take_length]
      exact ⟨hne, h, rfl, List.Subset.refl _⟩

/-- A tree without twins in a level of more than two nodes has the fewest leaves of all trees
with its top: its leaves are the front of theirs. -/
theorem leaves_isPrefix_of_treeTop_eq (hne : l ≠ []) (hne' : l' ≠ []) (hf : l.length ≤ f + 1)
    (hf' : l'.length ≤ f' + 1) (ht : ¬HasTwins hash 2 f l)
    (hinj : CollisionFree hash (treePairs hash f l ++ treePairs hash f' l'))
    (hapart : Apart hash l (treePairs hash f' l')) (hapart' : Apart hash l' (treePairs hash f l))
    (htop : treeTop hash f l = treeTop hash f' l') : l <+: l' := by
  obtain ⟨j, hnej, htj, htopj, hpairs⟩ := @exists_take_not_hasTwins α l' f' hash hne'
  have hlen : (l'.take j).length ≤ f' + 1 := le_trans (length_take_le' j l') hf'
  have heq : l = l'.take j := by
    refine treeTop_injective hne hnej hf hlen ht htj (hinj.mono (List.Subset.refl _) hpairs)
      ?_ ?_ (htop.trans htopj.symm)
    · exact fun t ht p hp => hapart t ht p (hpairs hp)
    · exact fun t ht p hp => hapart' t (mem_of_mem_take ht) p hp
  rw [heq]
  exact take_prefix j l'

/-! ## Levels by height -/

/-- Node `i` of the next level is made of two children, or of its only one twice. -/
theorem getElem?_pairUp {i : Nat} (d : α) (hi : 2 * i < l.length) :
    (pairUp l)[i]? = some (l.getD (2 * i) d,
      if 2 * i + 1 < l.length then l.getD (2 * i + 1) d else l.getD (2 * i) d) := by
  induction l using pairUp.induct generalizing i with
  | case1 => simp at hi
  | case2 a =>
    have hi0 : i = 0 := by simp at hi; omega
    subst hi0
    rfl
  | case3 a b rest ih =>
    cases i with
    | zero => simp [pairUp]
    | succ i =>
      rw [length_cons, length_cons] at hi
      have hrest := ih (i := i) (by omega)
      show (pairUp rest)[i]? = _
      have hiff : 2 * (i + 1) + 1 < rest.length + 1 + 1 ↔ 2 * i + 1 < rest.length := by omega
      rw [hrest, length_cons, length_cons, if_congr hiff rfl rfl]
      rfl

theorem getD_hashLevel {i : Nat} (d : α) (hi : 2 * i < l.length) : (hashLevel hash l).getD i d =
      hash (l.getD (2 * i) d)
        (if 2 * i + 1 < l.length then l.getD (2 * i + 1) d else l.getD (2 * i) d) := by
  rw [hashLevel, getD_eq_getElem?_getD, getElem?_map, getElem?_pairUp d hi]
  rfl

/-- The pairs of a level are among those hashed on the way to the top. -/
theorem mem_treePairs_of_level {h : Nat} {p : α × α} (hh : h < fuel)
    (hwide : ∀ k ≤ h, 1 < ((hashLevel hash)^[k] l).length)
    (hp : p ∈ pairUp ((hashLevel hash)^[h] l)) : p ∈ treePairs hash fuel l := by
  induction h generalizing fuel l with
  | zero =>
    obtain ⟨f, rfl⟩ : ∃ f, fuel = f + 1 := ⟨fuel - 1, by omega⟩
    have hl : 1 < l.length := hwide 0 (le_refl 0)
    rw [treePairs_succ hl]
    exact mem_append_left _ hp
  | succ h ih =>
    obtain ⟨f, rfl⟩ : ∃ f, fuel = f + 1 := ⟨fuel - 1, by omega⟩
    have hl : 1 < l.length := hwide 0 (zero_le _)
    rw [treePairs_succ hl]
    apply mem_append_right
    exact ih (by omega) (fun k hk => hwide (k + 1) (by omega)) hp

theorem length_iterate_hashLevel (l : List α) (h : Nat) :
    ((hashLevel hash)^[h] l).length = (l.length + 2 ^ h - 1) / 2 ^ h := by
  induction h with
  | zero => simp
  | succ h ih =>
    have hpos : 0 < 2 ^ h := Nat.two_pow_pos h
    rw [iterate_succ_apply', length_hashLevel, ih, pow_succ,
      ← Nat.div_div_eq_div_mul, ← Nat.add_div_right _ hpos]
    congr 2
    omega

/-- Every level of more than one node below the top has fewer nodes than the one before. -/
theorem levels_lt_length {H : Nat} (hne : l ≠ [])
    (hwide : ∀ k < H, 1 < ((hashLevel hash)^[k] l).length) : H < l.length := by
  have hshrink : ∀ k ≤ H, ((hashLevel hash)^[k] l).length + k ≤ l.length := by
    intro k hk
    induction k with
    | zero => exact le_refl _
    | succ k ih =>
      have hlast := hwide k hk
      rw [iterate_succ_apply', length_hashLevel]
      omega
  rcases Nat.eq_zero_or_pos H with hzero | hpos
  · have := length_pos_of_ne_nil hne
    omega
  · have hlast := hwide (H - 1) (by omega)
    have hprev := hshrink (H - 1) (by omega)
    omega

/-- The top is the first level of at most one node. -/
theorem treeTop_eq_iterate {h : Nat} (hf : h ≤ fuel) (htop : ((hashLevel hash)^[h] l).length ≤ 1)
    (hbelow : ∀ k < h, 1 < ((hashLevel hash)^[k] l).length) :
    treeTop hash fuel l = (hashLevel hash)^[h] l := by
  induction h generalizing fuel l with
  | zero => exact treeTop_of_le_one htop
  | succ h ih =>
    obtain ⟨f, rfl⟩ : ∃ f, fuel = f + 1 := ⟨fuel - 1, by omega⟩
    have hl : 1 < l.length := hbelow 0 (by omega)
    rw [treeTop_succ hl]
    apply ih (by omega) htop
    intro k hk
    exact hbelow (k + 1) (by omega)

end MonetaryUnit.Lib
