/-
# MonetaryUnit.Chain.SkipList — `GetAncestor` by skip pointers

Every entry of the block index has a pointer `pskip` to one of its ancestors, at the height that
`GetSkipHeight` gives. `GetAncestor` chooses between `pskip` and `pprev` by looking at heights only.
`BuildSkip` sets the pointer of a new entry with a call of `GetAncestor` on the parent, so that the
pointers and the walk rest on each other.

`getAncestor_buildIndex` says that this works out: in every index built by `AddToBlockIndex` the
walk ends, meets no null pointer, and arrives where the parents alone lead. Other modules speak of
`ParentTree.atHeight`. A result `none` is a null pointer that is followed; the null pointer as an
answer is `some none`.
-/

import MonetaryUnit.Lib.ForkTree

namespace MonetaryUnit

open Lib ParentTree List Option Nat Bool

/-! ## The heights -/

def invertLowestOne (n : Nat) : Nat := n &&& (n - 1)

def getSkipHeight (height : Nat) : Nat :=
  if height < 2 then 0
  else if height % 2 = 1 then invertLowestOne (invertLowestOne (height - 1)) + 1
  else invertLowestOne height

theorem invertLowestOne_le (n : Nat) : invertLowestOne n ≤ n - 1 := and_le_right

/-- A skip pointer leads downwards. -/
theorem getSkipHeight_lt {k : Nat} (h : 0 < k) : getSkipHeight k < k := by
  rw [getSkipHeight]
  split_ifs with hsmall hodd
  · exact h
  · have h1 := invertLowestOne_le (k - 1)
    have h2 := invertLowestOne_le (invertLowestOne (k - 1))
    omega
  · have h1 := invertLowestOne_le k
    omega

/-! ## The walk -/

/-- The choice of `GetAncestor` at height `heightWalk` on the way to `height`: follow `pskip`,
unless the skip of the parent is better. -/
def followsSkip (heightWalk height : Nat) : Bool :=
  let heightSkip := getSkipHeight heightWalk
  let heightSkipPrev := getSkipHeight (heightWalk - 1)
  heightSkip == height || (decide (height < heightSkip) &&
      !(decide (heightSkipPrev + 2 < heightSkip) && decide (height ≤ heightSkipPrev)))

/-- A pointer that is followed does not lead below the height asked for. -/
theorem le_getSkipHeight_of_followsSkip {heightWalk height : Nat}
    (h : followsSkip heightWalk height = true) : height ≤ getSkipHeight heightWalk := by
  rw [followsSkip, or_eq_true, beq_iff_eq, and_eq_true, decide_eq_true_eq] at h
  omega

section Walk

variable {β : Type} (T : ParentTree β) (pskip : β → Option β)

/-- The loop of `GetAncestor`. Every round lowers `heightWalk`. -/
def skipWalk (height : Nat) : Nat → Option β → Nat → Option (Option β)
  | 0, _, _ => none
  | fuel + 1, pindexWalk, heightWalk =>
    if heightWalk ≤ height then some pindexWalk
    else
      match pindexWalk with
      | none => none
      | some walk =>
        if followsSkip heightWalk height then
          skipWalk height fuel (pskip walk) (getSkipHeight heightWalk)
        else skipWalk height fuel (T.parent walk) (heightWalk - 1)

def getAncestor (b : β) (height : Int) : Option (Option β) :=
  if (T.height b : Int) < height ∨ height < 0 then some none
  else skipWalk T pskip height.toNat (T.height b + 1) (some b) (T.height b)

/-- The skip pointers up to `b` lead to the ancestors at their heights. -/
def SkipsTo (b : β) : Prop :=
  ∀ a ∈ T.pathTo b, a ≠ T.root → pskip a = T.atHeight (getSkipHeight (T.height a)) a

variable {T pskip} {b : β}

theorem SkipsTo.mono {a : β} (h : SkipsTo T pskip b) (ha : a ∈ T.pathTo b) : SkipsTo T pskip a :=
  fun c hc => h c (pathTo_trans hc ha)

/-- The loop stays on the path of `b`, at or above the height asked for. -/
theorem skipWalk_spec (hs : SkipsTo T pskip b) {height fuel : Nat} {walk : β}
    (hwalk : walk ∈ T.pathTo b) (hle : height ≤ T.height walk) (hfuel : T.height walk < fuel) :
    skipWalk T pskip height fuel (some walk) (T.height walk) = some (T.atHeight height b) := by
  induction fuel generalizing walk with
  | zero => exact absurd hfuel (not_lt_zero _)
  | succ fuel ih =>
    rw [skipWalk]
    by_cases hdone : T.height walk ≤ height
    · rw [if_pos hdone, atHeight_eq_some_iff.mpr ⟨hwalk, le_antisymm hdone hle⟩]
    rw [if_neg hdone]
    have hpos : 0 < T.height walk := by omega
    have hne : walk ≠ T.root := fun he => by
      rw [he, T.height_root] at hpos
      exact lt_irrefl 0 hpos
    have hlt := getSkipHeight_lt hpos
    rcases hskip : followsSkip (T.height walk) height with _ | _
    · obtain ⟨p, hp⟩ := exists_parent hne
      have hh := T.height_parent walk p hp
      have hpred : T.height walk - 1 = T.height p := by omega
      rw [hp, hpred]
      exact ih (pathTo_trans (parent_mem_pathTo hp) hwalk) (by omega) (by omega)
    · obtain ⟨w, hw⟩ := exists_atHeight hlt.le
      obtain ⟨hmem, hheight⟩ := atHeight_eq_some_iff.mp hw
      rw [hs walk hwalk hne, hw, ← hheight]
      have hge := le_getSkipHeight_of_followsSkip hskip
      exact ih (pathTo_trans hmem hwalk) (by omega) (by omega)

/-- `GetAncestor` where the skip pointers are right. -/
theorem getAncestor_eq (hs : SkipsTo T pskip b) (height : Int) : getAncestor T pskip b height =
      some (if height < 0 then none else T.atHeight height.toNat b) := by
  rw [getAncestor]
  by_cases hneg : height < 0
  · rw [if_pos (.inr hneg), if_pos hneg]
  · rw [if_neg hneg]
    by_cases hhigh : (T.height b : Int) < height
    · rw [if_pos (.inl hhigh), atHeight, if_neg (by omega)]
    · rw [if_neg (by omega)]
      exact skipWalk_spec hs (self_mem_pathTo b) (by omega) (lt_succ_self _)

end Walk

/-! ## Building the index -/

/-- The entries of `mapBlockIndex`, in the order in which they were added, and their skip
pointers. -/
structure SkipIndex (β : Type) where
  mapBlockIndex : List β
  pskip : β → Option β

namespace SkipIndex

variable {β : Type} [DecidableEq β] (T : ParentTree β)

/-- `BuildSkip`, and the entry is in the map. -/
def insertEntry (s : SkipIndex β) (b : β) (skip : Option β) : SkipIndex β where
  mapBlockIndex := s.mapBlockIndex ++ [b]
  pskip := fun x => if x = b then skip else s.pskip x

/-- `AddToBlockIndex`. A block whose parent is not known does not get here:
`AcceptBlockHeader` refuses it. -/
def addToBlockIndex (s : SkipIndex β) (b : β) : Option (SkipIndex β) :=
  if b ∈ s.mapBlockIndex then some s
  else
    match T.parent b with
    | none => some (s.insertEntry b none)
    | some pprev =>
      if pprev ∈ s.mapBlockIndex then
        (getAncestor T s.pskip pprev (getSkipHeight (T.height b))).map (s.insertEntry b)
      else some s

def empty : SkipIndex β := ⟨[], fun _ => none⟩

/-- The index after the headers `bs` have arrived. -/
def buildIndex (bs : List β) : Option (SkipIndex β) := bs.foldlM (addToBlockIndex T) empty

/-- The parents of the entries are entries, and their skip pointers are right. -/
structure Built (s : SkipIndex β) : Prop where
  parent_known : ∀ b ∈ s.mapBlockIndex, ∀ p, T.parent b = some p → p ∈ s.mapBlockIndex
  skips : ∀ b ∈ s.mapBlockIndex, b ≠ T.root → s.pskip b = T.atHeight (getSkipHeight (T.height b)) b

variable {T} {s s' : SkipIndex β} {b : β}

omit [DecidableEq β] in
theorem Built.path_known (h : s.Built T) {a : β} (hb : b ∈ s.mapBlockIndex)
    (ha : a ∈ T.pathTo b) : a ∈ s.mapBlockIndex :=
  of_mem_pathTo (fun b p hb => h.parent_known b hb p) hb ha

omit [DecidableEq β] in
theorem Built.skipsTo (h : s.Built T) (hb : b ∈ s.mapBlockIndex) : SkipsTo T s.pskip b :=
  fun a ha hne => h.skips a (h.path_known hb ha) hne

/-- A new entry whose pointer is right. The pointers of the others do not change. -/
theorem Built.insertEntry (h : s.Built T) {skip : Option β} (hb : b ∉ s.mapBlockIndex)
    (hparent : ∀ p, T.parent b = some p → p ∈ s.mapBlockIndex)
    (hskip : b ≠ T.root → skip = T.atHeight (getSkipHeight (T.height b)) b) :
    (s.insertEntry b skip).Built T where
  parent_known := fun x hx p hp => by
    rcases mem_append.mp hx with hx | hx
    · exact mem_append_left _ (h.parent_known x hx p hp)
    · rw [mem_singleton.mp hx] at hp
      exact mem_append_left _ (hparent p hp)
  skips := fun x hx hne => by
    show (if x = b then skip else s.pskip x) = _
    rcases mem_append.mp hx with hx | hx
    · have hxb : x ≠ b := fun he => hb (he ▸ hx)
      rw [if_neg hxb]
      exact h.skips x hx hne
    · have hxb : x = b := mem_singleton.mp hx
      rw [if_pos hxb, hxb]
      exact hskip (hxb ▸ hne)

theorem addToBlockIndex_built (h : s.Built T) (b : β) :
    ∃ s', s.addToBlockIndex T b = some s' ∧ s'.Built T := by
  rw [addToBlockIndex]
  by_cases hb : b ∈ s.mapBlockIndex
  · exact ⟨s, if_pos hb, h⟩
  rw [if_neg hb]
  rcases hp : T.parent b with _ | p
  · refine ⟨s.insertEntry b none, rfl, h.insertEntry hb (fun q hq => ?_) fun hne => ?_⟩
    · exact absurd (hp.symm.trans hq) (some_ne_none q).symm
    · exact absurd ((T.parent_eq_none b).mp hp) hne
  dsimp only
  by_cases hknown : p ∈ s.mapBlockIndex
  · -- the ancestors of the parent are those of the block, below it
    have hh := T.height_parent b p hp
    have hlt := getSkipHeight_lt (show 0 < T.height b by omega)
    have hsame := atHeight_of_mem (parent_mem_pathTo hp)
      (show getSkipHeight (T.height b) ≤ T.height p by omega)
    rw [if_pos hknown, getAncestor_eq (h.skipsTo hknown), Int.toNat_natCast, hsame]
    refine ⟨s.insertEntry b _, rfl, h.insertEntry hb (fun q hq => ?_) fun _ => rfl⟩
    exact some.inj (hp.symm.trans hq) ▸ hknown
  · exact ⟨s, if_neg hknown, h⟩

theorem foldlM_built (bs : List β) (h : s.Built T) :
    ∃ s', bs.foldlM (addToBlockIndex T) s = some s' ∧ s'.Built T := by
  induction bs generalizing s with
  | nil => exact ⟨s, rfl, h⟩
  | cons b bs ih =>
    obtain ⟨s1, hadd, h1⟩ := addToBlockIndex_built h b
    obtain ⟨s', hrest, h'⟩ := ih h1
    refine ⟨s', ?_, h'⟩
    rw [foldlM_cons, hadd]
    exact hrest

theorem buildIndex_built (T : ParentTree β) (bs : List β) :
    ∃ s, buildIndex T bs = some s ∧ s.Built T :=
  foldlM_built bs ⟨fun _ hb => absurd hb not_mem_nil, fun _ hb => absurd hb not_mem_nil⟩

/-- **`getAncestor_buildIndex`** — the headers `bs` are added without following a null pointer,
and `GetAncestor` of any entry and any height then ends with what the parents alone give. -/
theorem getAncestor_buildIndex (T : ParentTree β) (bs : List β) :
    ∃ s, buildIndex T bs = some s ∧ ∀ b ∈ s.mapBlockIndex, ∀ height : Int,
      getAncestor T s.pskip b height = some (if height < 0 ∨ (T.height b : Int) < height then none
          else T.up (T.height b - height.toNat) b) := by
  obtain ⟨s, hs, hbuilt⟩ := buildIndex_built T bs
  refine ⟨s, hs, fun b hb height => ?_⟩
  rw [getAncestor_eq (hbuilt.skipsTo hb), atHeight]
  by_cases hneg : height < 0
  · rw [if_pos hneg, if_pos (.inl hneg)]
  · rw [if_neg hneg]
    by_cases hhigh : (T.height b : Int) < height
    · rw [if_neg (by omega), if_pos (.inr hhigh)]
    · rw [if_pos (by omega), if_neg (by omega)]

/-- A chain up to 9, and above it two branches: the even numbers and the odd ones. -/
def forkAtNine : ParentTree Nat where
  root := 0
  parent := fun n => if n = 0 then none else some (if n ≤ 10 then n - 1 else n - 2)
  height := fun n => if n ≤ 10 then n else 5 + n / 2
  parent_eq_none := fun n => by split <;> simp_all
  height_root := rfl
  height_parent := fun n p h => by
    split_ifs at h with hzero hlow
    · obtain rfl := some.inj h
      split_ifs <;> omega
    · obtain rfl := some.inj h
      split_ifs <;> omega

theorem buildIndex_forkAtNine {s : SkipIndex Nat} (h : buildIndex forkAtNine (range 41) = some s) :
    s.mapBlockIndex = range 41 := by
  have hkeys : (buildIndex forkAtNine (range 41)).map mapBlockIndex = some (range 41) := by
    decide +kernel
  rw [h] at hkeys
  exact some.inj hkeys

/-- From height 24 of the odd branch down to height 11 of it, and to height 4 below the fork. -/
theorem getAncestor_forkAtNine : ∃ s, buildIndex forkAtNine (range 41) = some s ∧
    getAncestor forkAtNine s.pskip 39 11 = some (some 13) ∧
    getAncestor forkAtNine s.pskip 39 4 = some (some 4) := by
  obtain ⟨s, hs, hanc⟩ := getAncestor_buildIndex forkAtNine (range 41)
  have hmem : 39 ∈ s.mapBlockIndex := by
    rw [buildIndex_forkAtNine hs]
    decide
  exact ⟨s, hs, (hanc 39 hmem 11).trans (by decide), (hanc 39 hmem 4).trans (by decide)⟩

end SkipIndex

end MonetaryUnit
