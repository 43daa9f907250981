/-
# MonetaryUnit.Chain.ActiveChain — `CChain` and the fork point of two blocks

`CChain` of `chain.h` and `chain.cpp` keeps a chain as a vector of pointers indexed by height, with
`LastCommonAncestor` and `FindForkInGlobalIndex` of `main.cpp`.

`SetTip` stops copying at the first entry that is already right. This is sound because the vector
held a whole path before (`Holds`), and paths that agree at one height agree below it. `GetLocator`
lists blocks at distances 0 to 11 and then 13, 17, 25, 41, …: each distance is twice the one before
less nine, which bounds how far the first listed block on the other chain is below the fork.

A block is named by its hash. A result `none` of a walk is a null pointer followed or an assertion
that fails, and does not happen.
-/

import Mathlib.Data.List.Find
import MonetaryUnit.Chain.SkipList

namespace MonetaryUnit

open Lib List ParentTree Option Nat

variable {β : Type} [DecidableEq β]

/-! ## The vector -/

/-- `vChain`. A null pointer is an entry that `resize` made. -/
structure CChain (β : Type) where
  vChain : List (Option β)

namespace CChain

variable (T : ParentTree β)

def genesis (c : CChain β) : Option β := c.vChain.head?.join

def tip (c : CChain β) : Option β := c.vChain.getLast?.join

/-- `operator[]`. -/
def entryAt (c : CChain β) (nHeight : Int) : Option β :=
  if nHeight < 0 ∨ (c.vChain.length : Int) ≤ nHeight then none
  else c.vChain[nHeight.toNat]?.join

def height (c : CChain β) : Int := (c.vChain.length : Int) - 1

def contains (c : CChain β) (b : β) : Bool := c.entryAt (T.height b) == some b

def resize (c : CChain β) (n : Nat) : CChain β :=
  ⟨c.vChain.take n ++ List.replicate (n - c.vChain.length) none⟩

/-- The loop of `SetTip`. -/
def fillFrom : Nat → Option β → CChain β → CChain β
  | 0, _, c => c
  | _ + 1, none, c => c
  | n + 1, some b, c =>
    if c.vChain[T.height b]? = some (some b) then c
    else fillFrom n (T.parent b) ⟨c.vChain.set (T.height b) (some b)⟩

/-- Fill in ancestors down to the first that is there already. -/
def setTip (c : CChain β) : Option β → CChain β
  | none => ⟨[]⟩
  | some b => fillFrom T (T.height b + 1) (some b) (c.resize (T.height b + 1))

/-! ## Forks and locators -/

variable (pskip : β → Option β)

/-- The loop of `FindFork`. -/
def walkToChain (c : CChain β) : Nat → Option β → Option (Option β)
  | 0, _ => none
  | _ + 1, none => some none
  | n + 1, some b => if c.contains T b then some (some b) else c.walkToChain n (T.parent b)

/-- The last block on the chain among the ancestors of a block. -/
def findFork (c : CChain β) (b : β) : Option (Option β) :=
  if c.height < T.height b then
    (getAncestor T pskip b c.height).bind (c.walkToChain T (T.height b + 1))
  else c.walkToChain T (T.height b + 1) (some b)

/-- The block that `GetLocator` goes to from `b`. -/
def locatorNext (c : CChain β) (b : β) (nHeight : Nat) : Option (Option β) :=
  if c.contains T b then some (c.entryAt nHeight) else getAncestor T pskip b nHeight

/-- The loop of `GetLocator`. The step is doubled once more than ten blocks are listed. -/
def locatorLoop (c : CChain β) : Nat → Nat → List β → Option β → Option (List β)
  | 0, _, _, _ => none
  | _ + 1, _, vHave, none => some vHave
  | n + 1, nStep, vHave, some b =>
    if T.height b = 0 then some (vHave ++ [b])
    else
      match c.locatorNext T pskip b (T.height b - nStep) with
      | none => none
      | some next =>
        c.locatorLoop n (if 10 < vHave.length + 1 then nStep * 2 else nStep) (vHave ++ [b]) next

/-- `GetLocator`, of the tip if no block is given. -/
def getLocator (c : CChain β) (pindex : Option β) : Option (List β) :=
  let start := pindex.or c.tip
  c.locatorLoop T pskip (start.elim 0 T.height + 2) 1 [] start

/-- The first block of a locator that is on the chain. -/
def findForkInGlobalIndex (mapBlockIndex : List β) (c : CChain β) (vHave : List β) : Option β :=
  match vHave.find? (fun b => decide (b ∈ mapBlockIndex) && c.contains T b) with
  | some b => some b
  | none => c.genesis

end CChain

section LastCommonAncestor

variable (T : ParentTree β) (pskip : β → Option β)

/-- The loop of `LastCommonAncestor` and the assertion after it. -/
def commonLoop : Nat → Option β → Option β → Option (Option β)
  | 0, _, _ => none
  | n + 1, pa, pb =>
    if pa ≠ pb ∧ pa.isSome ∧ pb.isSome then commonLoop n (pa.bind T.parent) (pb.bind T.parent)
    else if pa = pb then some pa
    else none

/-- Bring both to one height, then walk down together. -/
def lastCommonAncestor (pa pb : β) : Option (Option β) :=
  if T.height pb < T.height pa then
    (getAncestor T pskip pa (T.height pb)).bind fun a => commonLoop T (T.height pb + 1) a (some pb)
  else if T.height pa < T.height pb then
    (getAncestor T pskip pb (T.height pa)).bind fun b => commonLoop T (T.height pa + 1) (some pa) b
  else commonLoop T (T.height pa + 1) (some pa) (some pb)

end LastCommonAncestor

/-! ## The highest common ancestor -/

variable {T : ParentTree β} {pskip : β → Option β} {a b f A B F : β}

/-- `F` is the highest common ancestor of `A` and `B`. -/
structure IsFork (T : ParentTree β) (A B F : β) : Prop where
  left : F ∈ T.pathTo A
  right : F ∈ T.pathTo B
  highest : ∀ c, c ∈ T.pathTo A → c ∈ T.pathTo B → c ∈ T.pathTo F

theorem exists_isFork (T : ParentTree β) (A B : β) : ∃ F, IsFork T A B F := by
  have hroot : T.root ∈ T.pathTo A := root_mem_pathTo A
  obtain ⟨F, hmeet, hF, hFB, -⟩ := climbs_above hroot B
  exact ⟨F, hF, hFB, fun c hcA hcB => mem_pathTo_meet hroot hmeet hcB hcA⟩

section

omit [DecidableEq β]

section

variable (h : IsFork T A B F)
include h

theorem IsFork.symm : IsFork T B A F :=
  ⟨h.right, h.left, fun c hB hA => h.highest c hA hB⟩

/-- An ancestor that still reaches the height of the other block has the same fork. -/
theorem IsFork.of_atHeight (hb : b ∈ T.pathTo B) (hle : T.height A ≤ T.height b) : IsFork T A b F :=
  ⟨h.left, mem_pathTo_of_height_le h.right hb ((height_le h.left).trans hle),
    fun c hA hb' => h.highest c hA (pathTo_trans hb' hb)⟩

theorem IsFork.eq_of_mem (hB : B ∈ T.pathTo A) : F = B :=
  eq_of_mem_pathTo h.right (h.highest B hB (self_mem_pathTo B))

/-- Below a block that is not common, the fork is that of the parent. -/
theorem IsFork.of_parent {p : β} (hB : B ∉ T.pathTo A) (hp : T.parent B = some p) :
    IsFork T A p F :=
  ⟨h.left, mem_pathTo_parent hp h.right fun he => hB (he ▸ h.left),
    fun c hA hc => h.highest c hA (pathTo_trans hc (parent_mem_pathTo hp))⟩

end

end

/-- Two blocks at one height walk down together until they meet. -/
theorem commonLoop_spec {n : Nat} (h : IsFork T A B F) (hheight : T.height A = T.height B)
    (hn : T.height A < n) : commonLoop T n (some A) (some B) = some (some F) := by
  induction n generalizing A B with
  | zero => exact absurd hn (not_lt_zero _)
  | succ n ih =>
    rw [commonLoop]
    by_cases hAB : A = B
    · subst hAB
      have hF := h.eq_of_mem (self_mem_pathTo A)
      rw [if_neg (fun hc => hc.1 rfl), if_pos rfl, hF]
    -- different blocks of one height are not the root, nor on each other's path
    have hne : ∀ x y, T.height x = T.height y → x ≠ y → x ≠ T.root ∧ x ∉ T.pathTo y := by
      intro x y hxy hne
      refine ⟨fun hx => hne ?_, fun hmem => hne (eq_of_height hmem (self_mem_pathTo y) hxy)⟩
      rw [hx, T.height_root] at hxy
      have hy := eq_of_height (self_mem_pathTo y)
        (root_mem_pathTo y) (by rw [T.height_root]; exact hxy.symm)
      rw [hx, hy]
    obtain ⟨hA, hAnot⟩ := hne A B hheight hAB
    obtain ⟨hB, hBnot⟩ := hne B A hheight.symm fun he => hAB he.symm
    obtain ⟨p, hp⟩ := exists_parent hA
    obtain ⟨q, hq⟩ := exists_parent hB
    have hhp := T.height_parent A p hp
    have hhq := T.height_parent B q hq
    have hpB : B ∉ T.pathTo p := fun hmem => hBnot (pathTo_trans hmem (parent_mem_pathTo hp))
    have hfork := ((h.symm.of_parent hAnot hp).symm).of_parent hpB hq
    rw [if_pos ⟨fun he => hAB (some.inj he), rfl, rfl⟩, bind_some, bind_some, hp, hq]
    exact ih hfork (by omega) (by omega)

/-- `LastCommonAncestor` finds the fork of the two blocks. -/
theorem lastCommonAncestor_spec (hA : SkipsTo T pskip A) (hB : SkipsTo T pskip B)
    (h : IsFork T A B F) : lastCommonAncestor T pskip A B = some (some F) := by
  rw [lastCommonAncestor]
  split_ifs with hlt hgt
  · obtain ⟨a, ha⟩ := exists_atHeight hlt.le
    obtain ⟨hmem, hheight⟩ := atHeight_eq_some_iff.mp ha
    rw [getAncestor_eq hA, Int.toNat_natCast, ha]
    exact commonLoop_spec (h.symm.of_atHeight hmem hheight.ge).symm hheight (by omega)
  · obtain ⟨b, hb⟩ := exists_atHeight hgt.le
    obtain ⟨hmem, hheight⟩ := atHeight_eq_some_iff.mp hb
    rw [getAncestor_eq hB, Int.toNat_natCast, hb]
    exact commonLoop_spec (h.of_atHeight hmem hheight.ge) hheight.symm (by omega)
  · exact commonLoop_spec h (by omega) (by omega)

namespace CChain

variable {c : CChain β}

/-! ## `SetTip` -/

/-- The vector is the path of `A`. -/
structure Holds (T : ParentTree β) (c : CChain β) (A : β) : Prop where
  length : c.vChain.length = T.height A + 1
  entries : ∀ k ≤ T.height A, c.vChain[k]? = some (T.atHeight k A)

/-- The vector while `SetTip A` runs, at the block `b`: above `b` it is the path of `A`, from `b`
down it is what was left of the path of `P`, null from height `m` on. -/
structure Filling (T : ParentTree β) (c : CChain β) (A P : β) (m : Nat) (b : β) : Prop where
  length : c.vChain.length = T.height A + 1
  path : b ∈ T.pathTo A
  done : ∀ k, T.height b < k → k ≤ T.height A → c.vChain[k]? = some (T.atHeight k A)
  old : ∀ k ≤ T.height b, c.vChain[k]? = some (if k < m then T.atHeight k P else none)

variable {m n size nStep : Nat} {P : β} {k offset : Nat}

omit [DecidableEq β] in
/-- An entry that is right already is on the old path, which then has the rest too. -/
theorem Filling.stop (h : Filling T c A P m b) (hstop : c.vChain[T.height b]? = some (some b)) :
    Holds T c A := by
  refine ⟨h.length, fun k hk => ?_⟩
  rcases lt_or_ge (T.height b) k with hlt | hge
  · exact h.done k hlt hk
  have hm : T.height b < m ∧ T.atHeight (T.height b) P = some b := by
    have hold := (h.old _ le_rfl).symm.trans hstop
    split at hold
    · next hm => exact ⟨hm, some.inj hold⟩
    · exact absurd (some.inj hold).symm (some_ne_none b)
  have hbP := (atHeight_eq_some_iff.mp hm.2).1
  rw [h.old k hge, if_pos (by omega), ← atHeight_of_mem hbP hge, ← atHeight_of_mem h.path hge]

omit [DecidableEq β] in
theorem Filling.set (h : Filling T c A P m b) : ∀ k, T.height b ≤ k → k ≤ T.height A →
      (c.vChain.set (T.height b) (some b))[k]? = some (T.atHeight k A) := by
  intro k hk hkA
  rw [getElem?_set]
  split_ifs with heq hlen
  · rw [← heq, atHeight_eq_some_iff.mpr ⟨h.path, rfl⟩]
  · rw [h.length] at hlen
    omega
  · exact h.done k (by omega) hkA

theorem fillFrom_spec (h : Filling T c A P m b) (hn : T.height b < n) :
    Holds T (fillFrom T n (some b) c) A := by
  induction n generalizing b c with
  | zero => exact absurd hn (not_lt_zero _)
  | succ n ih =>
    rw [fillFrom]
    split_ifs with hstop
    · exact h.stop hstop
    rcases hp : T.parent b with _ | p
    · -- the root was the last entry
      have hroot := (T.parent_eq_none b).mp hp
      have hempty : fillFrom T n none ⟨c.vChain.set (T.height b) (some b)⟩ =
          ⟨c.vChain.set (T.height b) (some b)⟩ := by
        rcases n with _ | n <;> rfl
      rw [hempty]
      refine ⟨by rw [length_set]; exact h.length, fun k hk => h.set k ?_ hk⟩
      rw [hroot, T.height_root]
      exact zero_le k
    · have hh := T.height_parent b p hp
      refine ih ⟨by rw [length_set]; exact h.length, pathTo_trans (parent_mem_pathTo hp) h.path,
        fun k hk hkA => h.set k (by omega) hkA, fun k hk => ?_⟩ (by omega)
      rw [getElem?_set_ne (by omega)]
      exact h.old k (by omega)

omit [DecidableEq β] in
theorem getElem?_resize {n : Nat} (hk : k < n) : (c.resize n).vChain[k]? =
    some (if k < c.vChain.length then c.vChain[k]?.join else none) := by
  rw [resize]
  rcases lt_or_ge k c.vChain.length with hlt | hge
  · rw [if_pos hlt, getElem?_append_left (by rw [length_take]; omega),
      getElem?_take_of_lt hk, getElem?_eq_getElem hlt]
    rfl
  · rw [if_neg (by omega), getElem?_append_right (by rw [length_take]; omega),
      length_take, getElem?_replicate, if_pos (by omega)]

omit [DecidableEq β] in
theorem length_resize (n : Nat) : (c.resize n).vChain.length = n := by
  rw [resize, length_append, length_take, length_replicate]
  omega

/-- A vector is empty or a path: what `SetTip` starts from. -/
def Settled (T : ParentTree β) (c : CChain β) : Prop := c.vChain = [] ∨ ∃ P, Holds T c P

theorem setTip_holds (h : Settled T c) (A : β) : Holds T (c.setTip T (some A)) A := by
  have hstart : ∃ P m, Filling T (c.resize (T.height A + 1)) A P m A := by
    rcases h with hempty | ⟨P, hP⟩
    · refine ⟨A, 0, length_resize _, self_mem_pathTo A,
        fun k hk hk' => absurd hk (by omega), fun k hk => ?_⟩
      rw [getElem?_resize (by omega), hempty, if_neg (by simp), if_neg (by omega)]
    · refine ⟨P, c.vChain.length, length_resize _, self_mem_pathTo A,
        fun k hk hk' => absurd hk (by omega), fun k hk => ?_⟩
      rw [getElem?_resize (by omega)]
      split_ifs with hlt
      · rw [hP.entries k (by rw [hP.length] at hlt; omega), join_some]
      · rfl
  obtain ⟨P, m, hfill⟩ := hstart
  exact fillFrom_spec hfill (lt_succ_self _)

theorem setTip_settled (h : Settled T c) (pindex : Option β) : Settled T (c.setTip T pindex) := by
  rcases pindex with _ | A
  · exact .inl rfl
  · exact .inr ⟨A, setTip_holds h A⟩

/-- Any calls of `SetTip`, of blocks or of the null pointer, and then one of `A`. -/
theorem setTips_holds (tips : List (Option β)) (A : β) :
    Holds T ((tips.foldl (CChain.setTip T) ⟨[]⟩).setTip T (some A)) A := by
  have hall : ∀ (tips : List (Option β)) (c : CChain β), Settled T c →
      Settled T (tips.foldl (CChain.setTip T) c) := by
    intro tips
    induction tips with
    | nil => exact fun c hc => hc
    | cons t tips ih => exact fun c hc => ih _ (setTip_settled hc t)
  exact setTip_holds (hall tips ⟨[]⟩ (.inl rfl)) A

/-! ## Membership and forks -/

omit [DecidableEq β] in
theorem Holds.entryAt (h : Holds T c A) (hk : k ≤ T.height A) : c.entryAt k = T.atHeight k A := by
  have hlen := h.length
  rw [CChain.entryAt, if_neg (by omega), Int.toNat_natCast, h.entries k hk, join_some]

omit [DecidableEq β] in
theorem Holds.height_eq (h : Holds T c A) : c.height = T.height A := by
  have hlen := h.length
  rw [CChain.height]
  omega

/-- `Contains` holds exactly for the ancestors of the tip. -/
theorem Holds.contains_iff (h : Holds T c A) : c.contains T b = true ↔ b ∈ T.pathTo A := by
  rw [CChain.contains, beq_iff_eq]
  rcases lt_or_ge (T.height A) (T.height b) with hlt | hge
  · have hlen := h.length
    have hout : c.entryAt (T.height b) = none := by
      rw [CChain.entryAt, if_pos (by omega)]
    rw [hout]
    refine iff_of_false (some_ne_none b).symm fun hb => ?_
    exact absurd (height_le hb) (by omega)
  · rw [h.entryAt hge, atHeight_eq_some_iff]
    exact ⟨And.left, fun hb => ⟨hb, rfl⟩⟩

theorem walkToChain_spec (h : Holds T c A) (hfork : IsFork T A b F)
    (hn : T.height b < n) : c.walkToChain T n (some b) = some (some F) := by
  induction n generalizing b with
  | zero => exact absurd hn (not_lt_zero _)
  | succ n ih =>
    rw [walkToChain]
    split_ifs with hmem
    · rw [hfork.eq_of_mem (h.contains_iff.mp hmem)]
    · have hnot : b ∉ T.pathTo A := fun hb => hmem (h.contains_iff.mpr hb)
      have hroot : b ≠ T.root := fun he => hnot (he ▸ root_mem_pathTo A)
      obtain ⟨p, hp⟩ := exists_parent hroot
      have hh := T.height_parent b p hp
      rw [hp]
      exact ih (hfork.of_parent hnot hp) (by omega)

/-- `FindFork` finds the fork of a block with the tip of the chain. -/
theorem findFork_spec (h : Holds T c A) (hs : SkipsTo T pskip B) (hfork : IsFork T A B F) :
    c.findFork T pskip B = some (some F) := by
  rw [findFork, h.height_eq]
  split_ifs with hhigh
  · obtain ⟨b, hb⟩ := exists_atHeight (show T.height A ≤ T.height B by omega)
    obtain ⟨hmem, hheight⟩ := atHeight_eq_some_iff.mp hb
    rw [getAncestor_eq hs, Int.toNat_natCast, hb]
    exact walkToChain_spec h (hfork.of_atHeight hmem hheight.ge) (by omega)
  · exact walkToChain_spec h hfork (lt_succ_self _)

/-! ## Locators -/

/-- From `b` the loop goes to an ancestor, whether by the vector or by skip pointers. -/
theorem locatorNext_spec (h : Holds T c A) (hs : SkipsTo T pskip b) (hk : k ≤ T.height b) :
    c.locatorNext T pskip b k = some (T.atHeight k b) := by
  rw [locatorNext]
  split_ifs with hmem
  · have hb := h.contains_iff.mp hmem
    rw [h.entryAt (hk.trans (height_le hb)), atHeight_of_mem hb hk]
  · rw [getAncestor_eq hs, if_neg (by omega), Int.toNat_natCast]

/-- The list holds ancestors of `b`, from `b` to the root, each lower than the one before. -/
structure IsLocator (T : ParentTree β) (b : β) (bs : List β) : Prop where
  first : bs.head? = some b
  last : bs.getLast? = some T.root
  ancestors : ∀ x ∈ bs, x ∈ T.pathTo b
  decreasing : bs.Pairwise fun x y => T.height y < T.height x

/-- The step of the loop when `size` blocks are listed and the next one is `offset` below the
first. -/
def StepAt (size nStep offset : Nat) : Prop :=
  (size ≤ 10 ∧ nStep = 1 ∧ offset = size) ∨ (11 ≤ size ∧ 11 ≤ offset ∧ nStep + 9 = offset)

theorem StepAt.pos (h : StepAt size nStep offset) : 0 < nStep := by
  rcases h with ⟨-, hstep, -⟩ | ⟨-, hoff, hstep⟩ <;> omega

theorem StepAt.next (h : StepAt size nStep offset) :
    StepAt (size + 1) (if 10 < size + 1 then nStep * 2 else nStep) (offset + nStep) := by
  rcases h with ⟨hsize, hstep, hoff⟩ | ⟨hsize, hoff, hstep⟩
  · split_ifs with hten
    · exact .inr ⟨by omega, by omega, by omega⟩
    · exact .inl ⟨by omega, hstep, by omega⟩
  · rw [if_pos (by omega)]
    exact .inr ⟨by omega, by omega, by omega⟩

/-- `x` is at the height of `F` or below it, and not far: at most twice as far below `B` as `F`
is, and at `F` itself if that is at most eleven blocks below `B`. -/
structure NearFork (T : ParentTree β) (B F x : β) : Prop where
  le : T.height x ≤ T.height F
  far : T.height B - T.height x ≤ 2 * (T.height B - T.height F)
  exact : T.height B - T.height F ≤ 11 → T.height x = T.height F

omit [DecidableEq β] in
/-- One step from above the fork stays above it or lands near it. -/
theorem StepAt.nearFork (hstep : StepAt size nStep (T.height B - T.height b))
    (hb : T.height b ≤ T.height B) (hFb : T.height F < T.height b)
    (ha : T.height a = T.height b - nStep) : T.height F < T.height a ∨ NearFork T B F a := by
  rcases lt_or_ge (T.height F) (T.height a) with hlt | hge
  · exact .inl hlt
  · right
    rcases hstep with ⟨hsize, hone, hoff⟩ | ⟨hsize, hoff, hstep⟩
    · exact ⟨hge, by omega, by omega⟩
    · exact ⟨hge, by omega, by omega⟩

omit [DecidableEq β] in
theorem IsLocator.cons {bs : List β} (h : IsLocator T a bs) (ha : a ∈ T.pathTo b)
    (hlt : T.height a < T.height b) : IsLocator T b (b :: bs) where
  first := rfl
  last := by
    rw [getLast?_cons, h.last]
    rfl
  ancestors := fun x hx => by
    rcases mem_cons.mp hx with rfl | hx
    · exact self_mem_pathTo x
    · exact pathTo_trans (h.ancestors x hx) ha
  decreasing := pairwise_cons.mpr ⟨fun x hx =>
    lt_of_le_of_lt (height_le (h.ancestors x hx)) hlt, h.decreasing⟩

/-- The loop lists ancestors down to the root. If it starts above `F`, or
near it, then the first of them that is not above `F` is near it. -/
theorem locatorLoop_spec {vHave : List β} (h : Holds T c A)
    (hs : SkipsTo T pskip B) (hb : b ∈ T.pathTo B) (hn : T.height b < n)
    (hstep : T.height b = 0 ∨ StepAt vHave.length nStep (T.height B - T.height b)) :
    ∃ bs, c.locatorLoop T pskip n nStep vHave (some b) = some (vHave ++ bs) ∧
      IsLocator T b bs ∧ (T.height F < T.height b ∨ NearFork T B F b →
        ∃ x, bs.find? (fun x => decide (T.height x ≤ T.height F)) = some x ∧ NearFork T B F x) := by
  induction n generalizing nStep vHave b with
  | zero => exact absurd hn (not_lt_zero _)
  | succ n ih =>
    rw [locatorLoop]
    by_cases hzero : T.height b = 0
    · -- genesis ends the list
      have hroot : b = T.root := eq_of_height (self_mem_pathTo b)
        (root_mem_pathTo b) (by rw [hzero, T.height_root])
      refine ⟨[b], if_pos hzero, ⟨rfl, by rw [hroot]; rfl, fun x hx => ?_,
        pairwise_singleton _ _⟩, fun hnear => ?_⟩
      · rw [mem_singleton.mp hx]
        exact self_mem_pathTo b
      · have hnear' : NearFork T B F b := hnear.resolve_left (by omega)
        exact ⟨b, find?_cons_of_pos (by simpa using hnear'.le), hnear'⟩
    · rw [if_neg hzero]
      have hat := hstep.resolve_left hzero
      have hpos := hat.pos
      have hbB := height_le hb
      obtain ⟨a, ha⟩ := exists_atHeight (sub_le (T.height b) nStep)
      obtain ⟨hmem, hheight⟩ := atHeight_eq_some_iff.mp ha
      have hnext : T.height a = 0 ∨ StepAt (vHave ++ [b]).length
          (if 10 < vHave.length + 1 then nStep * 2 else nStep) (T.height B - T.height a) := by
        rcases Nat.eq_zero_or_pos (T.height a) with ha0 | hapos
        · exact .inl ha0
        · have hoff : T.height B - T.height a = T.height B - T.height b + nStep := by omega
          right
          rw [length_append, hoff]
          exact hat.next
      obtain ⟨bs, hloop, hbs, hhit⟩ := ih (pathTo_trans hmem hb) (by omega) hnext
      refine ⟨b :: bs, ?_, hbs.cons hmem (by omega), fun hnear => ?_⟩
      · rw [locatorNext_spec h (hs.mono hb) (sub_le _ _), ha]
        rw [append_assoc] at hloop
        exact hloop
      · rcases lt_or_ge (T.height F) (T.height b) with hlt | hge
        · rw [find?_cons_of_neg (by simpa using hlt)]
          exact hhit (hat.nearFork hbB hlt hheight)
        · exact ⟨b, find?_cons_of_pos (by simpa using hge), hnear.resolve_left (by omega)⟩

/-- A locator of `B`, and the block `FindForkInGlobalIndex` takes from it. -/
theorem getLocator_spec (h : Holds T c A) (hs : SkipsTo T pskip B) (hfork : IsFork T A B F)
    {mapBlockIndex : List β} (hknown : ∀ x ∈ T.pathTo B, x ∈ mapBlockIndex) :
    ∃ bs, c.getLocator T pskip (some B) = some bs ∧ IsLocator T B bs ∧
      ∃ x, c.findForkInGlobalIndex T mapBlockIndex bs = some x ∧ x ∈ T.pathTo B ∧
        NearFork T B F x := by
  have hFB := height_le hfork.right
  have hstart : T.height F < T.height B ∨ NearFork T B F B := by
    rcases lt_or_ge (T.height F) (T.height B) with hlt | hge
    · exact .inl hlt
    · exact .inr ⟨hge, by omega, fun _ => by omega⟩
  obtain ⟨bs, hloop, hbs, hhit⟩ := @locatorLoop_spec β _ T pskip B A B F c (T.height B + 2) 1 []
    h hs (self_mem_pathTo B) (by omega)
    (.inr (.inl ⟨Nat.zero_le 10, rfl, by rw [Nat.sub_self]; rfl⟩))
  obtain ⟨x, hx, hnear⟩ := hhit hstart
  refine ⟨bs, hloop, hbs, x, ?_, hbs.ancestors x (mem_of_find?_eq_some hx), hnear⟩
  -- of the ancestors of `B`, those in the chain are the ones not above the fork
  have hsame : bs.find? (fun b => decide (b ∈ mapBlockIndex) && c.contains T b) = some x := by
    rw [← hx]
    apply find?_congr
    intro y hy
    have hyB := hbs.ancestors y hy
    have hiff : c.contains T y = true ↔ T.height y ≤ T.height F := by
      rw [h.contains_iff]
      constructor
      · exact fun hyA => height_le (hfork.highest y hyA hyB)
      · exact fun hle => pathTo_trans (mem_pathTo_of_height_le hyB hfork.right hle) hfork.left
    rw [decide_eq_true (hknown y hyB), Bool.true_and, Bool.eq_iff_iff, hiff, decide_eq_true_eq]
  rw [findForkInGlobalIndex, hsame]

/-- **`activeChain_correct`** — after any calls of `SetTip` that end in `SetTip(A)`, over an index
built from any headers: the vector is `A`'s path and `Contains` its membership; `FindFork(B)` and
`LastCommonAncestor(A, B)` are the highest common ancestor `F`; `GetLocator(B)` lists ancestors of
`B` from `B` down to genesis; and the fork found from that locator is a common ancestor at most
twice as far below `B` as `F` is, and `F` itself if that is at most eleven blocks below. -/
theorem activeChain_correct (T : ParentTree β) (bs : List β) (tips : List (Option β)) (A B : β) :
    ∃ s, SkipIndex.buildIndex T bs = some s ∧ (A ∈ s.mapBlockIndex → B ∈ s.mapBlockIndex →
        ∃ c, c = (tips.foldl (CChain.setTip T) ⟨[]⟩).setTip T (some A) ∧
          (c.vChain.length = T.height A + 1 ∧
            ∀ k ≤ T.height A, c.vChain[k]? = some (T.up (T.height A - k) A)) ∧
          (∀ x, c.contains T x = true ↔ x ∈ T.pathTo A) ∧
          ∃ F, IsFork T A B F ∧ c.findFork T s.pskip B = some (some F) ∧
            lastCommonAncestor T s.pskip A B = some (some F) ∧
            ∃ vHave, c.getLocator T s.pskip (some B) = some vHave ∧ IsLocator T B vHave ∧
              ∃ x, c.findForkInGlobalIndex T s.mapBlockIndex vHave = some x ∧
                x ∈ T.pathTo A ∧ x ∈ T.pathTo B ∧
                T.height B - T.height x ≤ 2 * (T.height B - T.height F) ∧
                (T.height B - T.height F ≤ 11 → x = F)) := by
  obtain ⟨s, hs, hbuilt⟩ := SkipIndex.buildIndex_built T bs
  refine ⟨s, hs, fun hA hB => ⟨_, rfl, ?_⟩⟩
  have h := @setTips_holds β _ T tips A
  obtain ⟨F, hfork⟩ := exists_isFork T A B
  obtain ⟨vHave, hloc, hlist, x, hfind, hxB, hnear⟩ := getLocator_spec h (hbuilt.skipsTo hB) hfork
    fun x hx => hbuilt.path_known hB hx
  refine ⟨⟨h.length, fun k hk => ?_⟩, fun x => h.contains_iff, F, hfork,
    findFork_spec h (hbuilt.skipsTo hB) hfork,
    lastCommonAncestor_spec (hbuilt.skipsTo hA) (hbuilt.skipsTo hB) hfork, vHave, hloc, hlist, x,
    hfind, ?_, hxB, hnear.far, fun hd => ?_⟩
  · rw [h.entries k hk, atHeight, if_pos hk]
  · exact pathTo_trans (mem_pathTo_of_height_le hxB hfork.right hnear.le) hfork.left
  · exact eq_of_height hxB hfork.right (hnear.exact hd)

open SkipIndex in
/-- The tip goes from 13 to 40, on the other branch. The fork with 39 is found 15 blocks below it,
and the locator of 39 leads to a block of the chain that is at most 30 below. -/
theorem activeChain_forkAtNine : ∃ s c vHave x, buildIndex forkAtNine (List.range 41) = some s ∧
    c = (CChain.setTip forkAtNine ⟨[]⟩ (some 13)).setTip forkAtNine (some 40) ∧
    c.findFork forkAtNine s.pskip 39 = some (some 9) ∧
    c.getLocator forkAtNine s.pskip (some 39) = some vHave ∧
    c.findForkInGlobalIndex forkAtNine s.mapBlockIndex vHave = some x ∧
    x ∈ forkAtNine.pathTo 40 ∧ forkAtNine.height 39 - forkAtNine.height x ≤ 30 := by
  obtain ⟨s, hs, hchain⟩ := activeChain_correct forkAtNine (List.range 41) [some 13] 40 39
  have hknown := buildIndex_forkAtNine hs
  obtain ⟨c, hc, -, -, F, hfork, hfind, -, vHave, hlocator, -, x, hx, hactive, -, hnear, -⟩ :=
    hchain (by rw [hknown]; decide) (by rw [hknown]; decide)
  have honly : ∀ F ∈ forkAtNine.pathTo 40, F ∈ forkAtNine.pathTo 39 → 9 ∈ forkAtNine.pathTo F →
      F = 9 := by decide
  obtain rfl := honly F hfork.left hfork.right (hfork.highest 9 (by decide) (by decide))
  exact ⟨s, c, vHave, x, hs, hc, hfind, hlocator, hx, hactive, hnear⟩

end CChain

end MonetaryUnit
