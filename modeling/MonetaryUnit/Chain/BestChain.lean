/-
# MonetaryUnit.Chain.BestChain — every run ends on a best chain

A run starts from the genesis block and takes headers, blocks and calls of `ActivateBestChain` in
any order. `RunInv` is what every state of a run satisfies: the invariant of the index with the
tip as its bound, and `Faults`, which says whom a failed validation can hit.

A block is good if it and all its ancestors are stored and would be connected. No good block is
ever marked, so after a call of `ActivateBestChain` no good block has more work than the tip. Two
nodes that have stored the same blocks end with tips of equal work.
-/

import MonetaryUnit.Chain.Activation

namespace MonetaryUnit

open Lib Bool

namespace IndexState

variable {β : Type} [DecidableEq β] {T : BlockTree β} {s s' : IndexState β} {b p : β}
  {queue : List β}

/-! ## Who fails -/

/-- A block that failed validation has no data or is one that `ConnectBlock` rejects. -/
def Faults (T : BlockTree β) (s : IndexState β) : Prop := ∀ x, (s.entry x).failedValid = true →
    (s.entry x).haveData = false ∨ T.connectBlock x = false

theorem nStatus_linkQueue (n : Nat) (queue : List β) (s : IndexState β) (x : β) :
    ((linkQueue T n queue s).entry x).nStatus = (s.entry x).nStatus := by
  induction n generalizing queue s with
  | zero => rfl
  | succ n ih =>
    rcases queue with _ | ⟨b, queue⟩
    · rfl
    · exact (ih _ _).trans (nStatus_linkStep x)

/-- Data arrives for one block, and no mark changes. -/
theorem status_receivedBlockTransactions (hl : s.Levels T) (hw : s.Awaited T b p) (x : β) :
    ((s.receivedBlockTransactions T b).entry x).failedValid = (s.entry x).failedValid ∧
      (((s.receivedBlockTransactions T b).entry x).haveData = true →
        (s.entry x).haveData = true ∨ x = b) := by
  have hstatus : ((s.receivedBlockTransactions T b).entry x).nStatus =
      ((s.storeData T b).entry x).nStatus := by
    rw [receivedBlockTransactions, hw.parent]
    dsimp only
    split_ifs
    · exact nStatus_linkQueue _ _ _ x
    · rfl
    · rfl
  simp only [IndexEntry.nStatus, Prod.mk.injEq] at hstatus
  rw [hstatus.2.1, hstatus.2.2.1]
  exact ⟨(failed_storeData hw hl x).1, (haveData_storeData hw hl).mp⟩

theorem faults_acceptBlockHeader (h : s.IndexInv T [] s.tip) (hf : s.Faults T)
    (hok : s.acceptBlockHeader T b = some s') : s'.Faults T := by
  rcases acceptBlockHeader_eq h.stored hok with ⟨-, -, rfl⟩ | ⟨hb, rfl, -⟩
  · exact hf
  · intro x hx
    rw [(failed_addToBlockIndex hb h.stored x).1] at hx
    rw [(sameData_addToBlockIndex hb h.stored).haveData]
    exact hf x hx

theorem faults_acceptBlock (h : s.IndexInv T [] s.tip) (hf : s.Faults T) (b : β)
    (checked : Bool) : (s.acceptBlock T b checked).Faults T := by
  rcases acceptBlock_cases h b checked with heq | ⟨s1, hok, hcases⟩
  · rwa [heq]
  obtain ⟨-, hinv, -, -⟩ := acceptBlockHeader_inv h hok
  have hf1 := faults_acceptBlockHeader h hf hok
  rcases hcases with heq | ⟨p, hw, heq | heq⟩ <;> rw [heq]
  · exact hf1
  · intro x hx
    obtain ⟨hvalid, hhave⟩ := status_receivedBlockTransactions hinv.levels hw x
    rw [hvalid] at hx
    refine (hf1 x hx).imp_left fun hnone => ?_
    -- the block that gets data is not marked
    rw [← not_eq_true]
    intro hnow
    rcases hhave hnow with hold | rfl
    · exact ne_true_of_eq_false hnone hold
    · exact false_ne_true ((failed_eq_false_iff.mp hw.unmarked).1.symm.trans hx)
  · intro x hx
    rw [entry_failValid] at hx ⊢
    by_cases hxb : x = b
    · rw [if_pos hxb, hxb]
      exact .inl hw.noData
    · rw [if_neg hxb] at hx ⊢
      exact hf1 x hx

omit [DecidableEq β] in
theorem Tried.faults (h : s.Tried T s') (hf : s.Faults T) : s'.Faults T := by
  intro x hx
  rcases h.rejected x hx with hx | hx
  · rw [h.grow.data.haveData]
    exact hf x hx
  · exact .inr hx

/-! ## Runs -/

/-- What every state of a run satisfies. -/
structure RunInv (T : BlockTree β) (s : IndexState β) : Prop where
  inv : s.IndexInv T [] s.tip
  faults : s.Faults T

theorem runInv_genesis (addr : β ↪ Nat) : (genesis T addr).RunInv T where
  inv := indexInv_genesis addr
  faults := fun x hx => by
    rw [(failed_eq_false_iff.mp (failed_genesis x)).1] at hx
    exact absurd hx false_ne_true

/-- A call has one outcome. -/
theorem activateBestChain_mono {n k : Nat} (hk : n ≤ k) (h : activateBestChain T n s = some s') :
    activateBestChain T k s = some s' := by
  induction hk with
  | refl => exact h
  | step _ ih => exact activateBestChain_succ ih

theorem Activates.unique {s'' : IndexState β} (h : s.Activates T s') (h' : s.Activates T s'') :
    s' = s'' := by
  obtain ⟨n, hn⟩ := h
  obtain ⟨k, hk⟩ := h'
  have hn' := activateBestChain_mono (le_max_left n k) hn
  have hk' := activateBestChain_mono (le_max_right n k) hk
  exact Option.some.inj (hn'.symm.trans hk')

theorem IndexInv.activates (h : s.IndexInv T [] s.tip) : ∃ s', s.Activates T s' ∧ Ended T s s' := by
  obtain ⟨n, s', hrun, hended⟩ := activateBestChain_spec h h.anchored.solid
  exact ⟨s', ⟨n, hrun⟩, hended⟩

theorem IndexInv.ended (h : s.IndexInv T [] s.tip) (hact : s.Activates T s') : Ended T s s' := by
  obtain ⟨s'', hact'', hended⟩ := h.activates
  exact hact.unique hact'' ▸ hended

theorem RunInv.step (h : s.RunInv T) (hstep : ArrivalStep T s s') : s'.RunInv T := by
  cases hstep with
  | header hok =>
    obtain ⟨-, hinv, -, -⟩ := acceptBlockHeader_inv h.inv hok
    exact ⟨hinv, faults_acceptBlockHeader h.inv h.faults hok⟩
  | block b checked =>
    obtain ⟨htip, hinv⟩ := acceptBlock_inv h.inv b checked
    exact ⟨htip.symm ▸ hinv, faults_acceptBlock h.inv h.faults b checked⟩
  | activate hact =>
    have hended := h.inv.ended hact
    exact ⟨hended.inv, hended.tried.faults h.faults⟩

theorem runInv_of_run {addr : β ↪ Nat}
    (hrun : Relation.ReflTransGen (ArrivalStep T) (genesis T addr) s) : s.RunInv T := by
  induction hrun with
  | refl => exact runInv_genesis addr
  | tail _ hstep ih => exact ih.step hstep

/-! ## The best chain -/

/-- The block and all its ancestors are stored and would be connected. -/
def Good (T : BlockTree β) (s : IndexState β) (b : β) : Prop :=
  ∀ a ∈ T.pathTo b, (s.entry a).haveData = true ∧ T.connectBlock a = true

omit [DecidableEq β] in
/-- A good block is linked and has no mark. -/
theorem RunInv.good (h : s.RunInv T) (hb : s.Good T b) :
    s.Linked b ∧ (s.entry b).failed = false := by
  constructor
  · intro hzero
    obtain ⟨a, ha, hnone⟩ := (h.inv.stored.firstMissing_iff b).mpr hzero
    exact ne_true_of_eq_false hnone ((hb a ha).1)
  · by_contra hmarked
    obtain ⟨a, ha, hfail⟩ := h.inv.marks b (not_eq_false _ ▸ hmarked)
    obtain ⟨hdata, hconnects⟩ := hb a ha
    rcases h.faults a hfail with hnone | hrejects
    · exact ne_true_of_eq_false hnone hdata
    · exact ne_true_of_eq_false hrejects hconnects

omit [DecidableEq β] in
theorem RunInv.good_tip (h : s.RunInv T) : s.Good T s.tip := fun a ha =>
  ⟨h.inv.stored.linked_data a (h.inv.stored.linked_of_mem_pathTo h.inv.anchored.solid.linked ha),
    h.inv.anchored.solid.connects a ha⟩

/-- **`activateBestChain_best`** — in every state of a run, `ActivateBestChain` ends; the chain it
leaves goes from the genesis block to a good block, and no good block has more work. A node that
has stored the same of the blocks that can be connected ends with a tip of the same work. -/
theorem activateBestChain_best {addr : β ↪ Nat}
    (hrun : Relation.ReflTransGen (ArrivalStep T) (genesis T addr) s) :
    ∃ s', s.Activates T s' ∧ (∀ s'', s.Activates T s'' → s'' = s') ∧ s'.Good T s'.tip ∧
      (∀ g, s'.Good T g → T.nChainWork g ≤ T.nChainWork s'.tip) ∧
      ∀ (addr2 : β ↪ Nat) (s2 s2' : IndexState β),
        Relation.ReflTransGen (ArrivalStep T) (genesis T addr2) s2 → s2.Activates T s2' →
        (∀ b, (∀ a ∈ T.pathTo b, T.connectBlock a = true) →
          ((s'.entry b).haveData = true ↔ (s2'.entry b).haveData = true)) →
        T.nChainWork s'.tip = T.nChainWork s2'.tip := by
  have hbest : ∀ {u u' : IndexState β}, u.RunInv T → u.Activates T u' →
      u'.RunInv T ∧ ∀ g, u'.Good T g → T.nChainWork g ≤ T.nChainWork u'.tip := by
    intro u u' hu hact
    have hu' : u'.RunInv T := hu.step (.activate hact)
    refine ⟨hu', fun g hg => ?_⟩
    obtain ⟨hlinked, hunmarked⟩ := hu'.good hg
    exact work_le_of_sortKey_le ((hu.inv.ended hact).best g hlinked hunmarked)
  have hs := runInv_of_run hrun
  obtain ⟨s', hact, -⟩ := hs.inv.activates
  obtain ⟨hs', hmax⟩ := hbest hs hact
  refine ⟨s', hact, fun s'' hact'' => hact''.unique hact, hs'.good_tip, hmax, ?_⟩
  intro addr2 s2 s2' hrun2 hact2 hsame
  obtain ⟨hs2', hmax2⟩ := hbest (runInv_of_run hrun2) hact2
  -- each tip is good at the other node as well
  have hconnects : ∀ {u : IndexState β} {b : β}, u.Good T b →
      ∀ a ∈ T.pathTo b, ∀ c ∈ T.pathTo a, T.connectBlock c = true :=
    fun hg a ha c hc => (hg c (ParentTree.pathTo_trans hc ha)).2
  refine le_antisymm (hmax2 _ fun a ha => ?_) (hmax _ fun a ha => ?_)
  · have hg := hs'.good_tip a ha
    exact ⟨(hsame a (hconnects hs'.good_tip a ha)).mp hg.1, hg.2⟩
  · have hg := hs2'.good_tip a ha
    exact ⟨(hsame a (hconnects hs2'.good_tip a ha)).mpr hg.1, hg.2⟩

open ForkBlock in
/-- Two nodes receive the same two blocks. The one that gets the child first drops it, since its
parent is unknown, and does not ask again: it ends with less work. -/
theorem childFirst_ends_lower :
    let T := treeWith (fun _ => true) rfl
    let s := ((genesis T ForkBlock.addr).acceptBlock T left true).acceptBlock T leftTop true
    let s2 := ((genesis T ForkBlock.addr).acceptBlock T leftTop true).acceptBlock T left true
    ∃ s' s2', s.Activates T s' ∧ s2.Activates T s2' ∧ s'.tip = leftTop ∧ s2'.tip = left ∧
      T.nChainWork s2'.tip < T.nChainWork s'.tip :=
  ⟨_, _, ⟨2, rfl⟩, ⟨2, rfl⟩, rfl, rfl, by decide⟩

open ForkBlock in
/-- Two blocks of equal work arrive, and the first one is rejected when it is connected. -/
theorem activateBestChain_two_blocks :
    let T := treeWith (fun b => decide (b ≠ left)) (by decide)
    let s := ((genesis T ForkBlock.addr).acceptBlock T left true).acceptBlock T right true
    ∃ s', s.Activates T s' ∧ s'.Good T s'.tip ∧
      ∀ g, s'.Good T g → T.nChainWork g ≤ T.nChainWork s'.tip := by
  intro T s
  have hrun : Relation.ReflTransGen (ArrivalStep T) (genesis T ForkBlock.addr) s :=
    (Relation.ReflTransGen.single (.block _ left true)).tail (.block _ right true)
  obtain ⟨s', hact, -, hgood, hmax, -⟩ := activateBestChain_best hrun
  exact ⟨s', hact, hgood, hmax⟩

end IndexState

end MonetaryUnit
