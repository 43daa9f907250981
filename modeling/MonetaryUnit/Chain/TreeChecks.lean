/-
# MonetaryUnit.Chain.TreeChecks — `CheckBlockIndex` never fails

The invariant of a run implies every assertion of `CheckBlockIndex`, and `ActivateBestChain` never
fails one of its own. About one kind of block `CheckBlockIndex` asserts nothing, and rightly so: a
block that waits for the data of an ancestor stays in `mapBlocksUnlinked` when that ancestor fails
validation.
-/

import MonetaryUnit.Chain.BestChain

namespace MonetaryUnit

open Lib ParentTree Bool

/-- A skip pointer leads to a lower ancestor. -/
theorem BlockTree.pskip_lower {β : Type} [DecidableEq β] {T : BlockTree β} {b : β}
    (h : 2 ≤ T.height b) : ∃ a, T.pskip b = some a ∧ T.height a < T.height b := by
  have hne : b ≠ T.root := by
    rintro rfl
    rw [T.height_root] at h
    omega
  obtain ⟨p, hp⟩ := exists_parent hne
  have hlt := getSkipHeight_lt (show 0 < T.height b by omega)
  have hheight := T.height_parent b p hp
  obtain ⟨a, ha⟩ := exists_atHeight (show getSkipHeight (T.height b) ≤ T.height p by omega)
  refine ⟨a, ?_, ?_⟩
  · rw [pskip, hp, Option.bind_some, ha]
  · rw [(atHeight_eq_some_iff.mp ha).2]
    exact hlt

namespace IndexState

variable {β : Type} [DecidableEq β] {T : BlockTree β} {s s' : IndexState β} {a b p : β}
  {queue : List β}

omit [DecidableEq β] in
theorem Stored.known_of_mem_pathTo (h : s.Stored T queue) (hb : b ∈ s.mapBlockIndex)
    (ha : a ∈ T.pathTo b) : a ∈ s.mapBlockIndex :=
  of_mem_pathTo (fun b p hb => h.parent_known b hb p) hb ha

omit [DecidableEq β] in
/-- Whoever was connected has only ancestors that were. -/
theorem Levels.not_firstNotValid (h : s.Levels T) (hb : b ∈ s.mapBlockIndex) {nUpTo : Nat}
    (hlevel : BLOCK_VALID_CHAIN ≤ (s.entry b).nValid) (hupto : nUpTo ≤ BLOCK_VALID_SCRIPTS) :
    ¬ s.FirstNotValid T nUpTo b := by
  rintro ⟨a, ha, hparent, hlow⟩
  have hroot : a ≠ T.root := fun he => hparent (he ▸ parent_root)
  exact absurd (hupto.trans (h.scripts b hb hlevel a ha hroot)) (not_le.mpr hlow)

omit [DecidableEq β] in
theorem IndexInv.not_firstInvalid (h : s.IndexInv T [] s.tip) (hnone : ¬ s.FirstInvalid T b) :
    (s.entry b).failed = false := by
  by_contra hf
  exact hnone (h.marks b (not_eq_false _ ▸ hf))

theorem IndexInv.entryChecks (h : s.IndexInv T [] s.tip) (hb : b ∈ s.mapBlockIndex) :
    s.EntryChecks T b where
  genesis := fun hp => by
    rw [(T.parent_eq_none b).mp hp]
    exact ⟨rfl, decide_eq_true (root_mem_pathTo s.tip)⟩
  data_iff := h.stored.data_tx b
  transactions_iff := by
    rw [h.levels.transactions b hb, Nat.pos_iff_ne_zero, ne_eq, ← h.stored.data_tx b, not_eq_false]
  sequence := fun hzero => h.stored.seq_unlinked b fun hl => hl hzero
  missing_iff := h.stored.firstMissing_iff b
  height := length_pathTo b
  work := fun p hp => by
    rw [BlockTree.nChainWork_parent hp]
    exact Nat.le_add_left _ _
  skip := BlockTree.pskip_lower
  tree := by
    rintro ⟨a, ha, -, hlow⟩
    exact absurd (h.levels.tree a (h.stored.known_of_mem_pathTo hb ha)) (not_le.mpr hlow)
  chain := fun hlevel => h.levels.not_firstNotValid hb hlevel (by decide)
  scripts := fun hlevel => h.levels.not_firstNotValid hb (le_trans (by decide) hlevel) le_rfl
  failed := h.not_firstInvalid
  candidate := fun hless hmissing hnone =>
    h.candidates.complete b (fun hzero => hmissing ((h.stored.firstMissing_iff b).mpr hzero))
      (h.not_firstInvalid hnone) (workLess_eq_false_iff.mp hless)
  not_candidate := by
    rintro (hless | hmissing) hmem
    · exact absurd (h.candidates.above b hmem) (not_le.mpr ((s.workLess_iff b s.tip).mp hless))
    · exact h.candidates.linked b hmem ((h.stored.firstMissing_iff b).mp hmissing)
  unlinked := fun p hp hdata hmissing hnone => by
    have hzero := (h.stored.firstMissing_iff b).mp hmissing
    -- with a linked parent the data would have linked the block
    have hnl : ¬ s.Linked p := fun hl =>
      (h.stored.linked_child b p hdata hp hl).elim (fun hb => hb hzero) List.not_mem_nil
    refine (h.stored.unlinked_complete p b hdata hp hnl).resolve_right fun hfailed => hnone ?_
    exact (h.marks p hfailed.1).of_mem_pathTo (parent_mem_pathTo hp)
  not_unlinked := by
    rintro p hp (hdata | hfull) hmem
    · exact ne_true_of_eq_false hdata ((h.stored.unlinked_sound p b hmem).2.1)
    · have hlinked : s.Linked b := fun hzero => hfull ((h.stored.firstMissing_iff b).mpr hzero)
      exact (h.stored.unlinked_sound p b hmem).2.2 (h.stored.linked_parent b p hlinked hp)

theorem IndexInv.checkBlockIndex (h : s.IndexInv T [] s.tip) : s.CheckBlockIndex T :=
  ⟨h.stored.root_known, h.stored.parent_known, fun _ hb => h.entryChecks hb⟩

/-- **`checkBlockIndex_of_run`** — every assertion of `CheckBlockIndex` holds in every state of a
run, and from every state `ActivateBestChain` returns without a failed assertion. -/
theorem checkBlockIndex_of_run {addr : β ↪ Nat}
    (hrun : Relation.ReflTransGen (ArrivalStep T) (genesis T addr) s) :
    s.CheckBlockIndex T ∧ ∃ s', s.Activates T s' ∧ (∀ s'', s.Activates T s'' → s'' = s') ∧
      s'.CheckBlockIndex T := by
  have hs := runInv_of_run hrun
  obtain ⟨s', hact, -⟩ := hs.inv.activates
  exact ⟨hs.inv.checkBlockIndex, s', hact, fun s'' hact'' => hact''.unique hact,
    (hs.step (.activate hact)).inv.checkBlockIndex⟩

open ForkBlock in
/-- The data of a block arrives before that of its parent, which then turns out to be invalid. -/
theorem unlinked_below_failed :
    let T := treeWith (fun _ => true) rfl
    ∃ s, Relation.ReflTransGen (ArrivalStep T) (genesis T ForkBlock.addr) s ∧
      (left, leftTop) ∈ s.mapBlocksUnlinked ∧ s.FirstInvalid T leftTop := by
  intro T
  have hheader : (genesis T ForkBlock.addr).acceptBlockHeader T left =
      some ((genesis T ForkBlock.addr).addToBlockIndex left) := by rfl
  refine ⟨_, ((Relation.ReflTransGen.single (.header hheader)).tail
    (.block _ leftTop true)).tail (.block _ left false), by decide +kernel, left, by decide, ?_⟩
  decide +kernel

open ForkBlock in
/-- Of two blocks the first one is rejected when the best chain is activated, and then a block on
top of it arrives: the checks hold after each of these. -/
theorem checkBlockIndex_failed_block :
    let T := treeWith (fun b => decide (b ≠ left)) (by decide)
    ∃ s, (((genesis T ForkBlock.addr).acceptBlock T left true).acceptBlock T right true).Activates
        T s ∧ s.tip = right ∧ (s.entry left).failedValid = true ∧ s.CheckBlockIndex T ∧
      (s.acceptBlock T leftTop true).CheckBlockIndex T := by
  intro T
  have hrun : Relation.ReflTransGen (ArrivalStep T) (genesis T ForkBlock.addr) _ :=
    (Relation.ReflTransGen.single (.block _ left true)).tail (.block _ right true)
  have hcall : (activateBestChain T 3 (((genesis T ForkBlock.addr).acceptBlock T left
      true).acceptBlock T right true)).map (fun s => (s.tip, (s.entry left).failedValid)) =
      some (right, true) := by decide +kernel
  obtain ⟨s, hs, hfacts⟩ := Option.map_eq_some_iff.mp hcall
  obtain ⟨htip, hfailed⟩ := Prod.mk.inj hfacts
  have hact := hrun.tail (.activate ⟨3, hs⟩)
  exact ⟨s, ⟨3, hs⟩, htip, hfailed, (checkBlockIndex_of_run hact).1,
    (checkBlockIndex_of_run (hact.tail (.block _ leftTop true))).1⟩

end IndexState

end MonetaryUnit
