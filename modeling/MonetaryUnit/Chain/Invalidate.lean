/-
# MonetaryUnit.Chain.Invalidate — `InvalidateBlock` and `ReconsiderBlock`

Both edit the marks of the block index by hand. `InvalidateBlock` marks a block, disconnects the
active chain down to its parent and fills up the candidate set. `ReconsiderBlock` takes the marks
off a block, its descendants and its ancestors.

`InvalidateBlock` breaks the invariant of the index if the block is stored and waits for the data of
an ancestor: a child that arrives next is not put in `mapBlocksUnlinked`. After `ReconsiderBlock`
three things can be wrong: a mark on a side branch whose cause is gone, an ancestor that is valid
again and not in the candidate set, and a block that was not put in `mapBlocksUnlinked` while its
parent was marked. `checkBlockIndex_control` is about every run without these (`Control.Safe`).
-/

import MonetaryUnit.Chain.TreeChecks

namespace MonetaryUnit

open Lib List ParentTree IndexEntry Bool

namespace IndexEntry

/-- `nStatus &= ~BLOCK_FAILED_MASK`. -/
def clearFailed (e : IndexEntry) : IndexEntry :=
  { e with failedValid := false, failedChild := false }

variable {e : IndexEntry}

theorem clearFailed_of_unmarked (h : e.failed = false) : e.clearFailed = e := by
  rw [failed, or_eq_false_iff] at h
  rcases e with ⟨nValid, haveData, failedValid, failedChild, nTx, nChainTx, nSequenceId⟩
  obtain ⟨rfl, rfl⟩ := h
  rfl

end IndexEntry

namespace IndexState

variable {β : Type} [DecidableEq β]

/-! ## The two functions -/

section Model

variable (T : BlockTree β)

/-- One round of the loop of `InvalidateBlock`: the tip is marked and leaves the candidate set, and
`DisconnectTip` makes its parent `q` the tip. -/
def disconnectMarked (s : IndexState β) (q : β) : IndexState β :=
  { s.modify s.tip (fun e => { e with failedChild := true }) with
    setBlockIndexCandidates := s.setBlockIndexCandidates.filter fun c => decide (c ≠ s.tip)
    tip := q }

/-- The loop, for at most `n` tests of its condition. The chain would become empty only for the
genesis block. -/
def disconnectDown (p : β) : Nat → IndexState β → Option (IndexState β)
  | 0, _ => none
  | n + 1, s =>
    if s.contains T p then
      match T.parent s.tip with
      | none => none
      | some q => disconnectDown p n (s.disconnectMarked q)
    else some s

/-- The candidates as `InvalidateBlock` adds them again. -/
def readdCandidates (s : IndexState β) : IndexState β := { s with
    setBlockIndexCandidates := s.mapBlockIndex.foldl (fun cands b =>
        if (s.entry b).isValid BLOCK_VALID_TRANSACTIONS ∧ (s.entry b).nChainTx ≠ 0 ∧
            s.workLess T b s.tip = false then cands.insert b
        else cands)
      s.setBlockIndexCandidates }

def invalidateBlock (s : IndexState β) (pindex : β) : Option (IndexState β) :=
  (disconnectDown T pindex (T.height s.tip + 2) (s.failValid pindex
      (s.setBlockIndexCandidates.filter fun c => decide (c ≠ pindex)))).map
    (readdCandidates T)

/-- The test that puts a block whose marks were taken off in the candidate set. -/
def reofferCandidate (s : IndexState β) (b : β) : IndexState β :=
  if (s.entry b).isValid BLOCK_VALID_TRANSACTIONS ∧ (s.entry b).nChainTx ≠ 0 ∧
      s.workLess T s.tip b = true then
    { s with setBlockIndexCandidates := s.setBlockIndexCandidates.insert b }
  else s

/-- The body of the loop of `ReconsiderBlock` over the index. -/
def reconsiderEntry (pindex : β) (s : IndexState β) (b : β) : IndexState β :=
  if (s.entry b).isValid BLOCK_VALID_TRANSACTIONS = false ∧
      T.atHeight (T.height pindex) b = some pindex then
    (s.modify b IndexEntry.clearFailed).reofferCandidate T b
  else s

/-- The body of its loop over the ancestors. -/
def clearAncestor (s : IndexState β) (b : β) : IndexState β :=
  if (s.entry b).failed then s.modify b IndexEntry.clearFailed else s

def reconsiderBlock (s : IndexState β) (pindex : β) : IndexState β :=
  (T.pathTo pindex).foldl clearAncestor (s.mapBlockIndex.foldl (reconsiderEntry T pindex) s)

end Model

variable {T : BlockTree β} {s s' u w : IndexState β} {a b c p q x : β} {cands : List β}

/-! ## `InvalidateBlock` -/

/-- What the loop has done to `s` so far: the marks are on `p` and above it. -/
structure Cutting (T : BlockTree β) (s : IndexState β) (p : β) (u : IndexState β) : Prop where
  grow : MarksGrow s u
  tip : u.tip ∈ T.pathTo s.tip
  nValid : ∀ x, (u.entry x).nValid = (s.entry x).nValid
  self : (u.entry p).failedValid = true
  marked : ∀ x, (u.entry x).failed = true → (s.entry x).failed = true ∨ p ∈ T.pathTo x
  sub : ∀ x ∈ u.setBlockIndexCandidates, x ∈ s.setBlockIndexCandidates

theorem cutting_failValid (hp : p ∈ s.mapBlockIndex)
    (hdata : (s.entry p).failed = true ∨ s.Linked p ∨ (s.entry p).haveData = false)
    (hsub : ∀ x ∈ cands, x ∈ s.setBlockIndexCandidates) : Cutting T s p (s.failValid p cands) where
  grow := marksGrow_failValid hp hdata
  tip := self_mem_pathTo s.tip
  nValid := fun x => by
    rw [entry_failValid]
    split <;> rfl
  self := by rw [entry_failValid, if_pos rfl]
  marked := fun x hx => by
    rcases failed_failValid.mp hx with hx | rfl
    · exact .inl hx
    · exact .inr (self_mem_pathTo x)
  sub := hsub

theorem entry_disconnectMarked (x : β) : (u.disconnectMarked q).entry x =
    if x = u.tip then { u.entry x with failedChild := true } else u.entry x :=
  rfl

theorem failed_disconnectMarked : ((u.disconnectMarked q).entry x).failed = true ↔
    (u.entry x).failed = true ∨ x = u.tip :=
  failed_edit (P := (· = u.tip)) (f := fun e => { e with failedChild := true }) rfl
    fun _ => or_true _

theorem marksGrow_disconnectMarked (hst : u.Stored T []) (hlinked : u.Linked u.tip) :
    MarksGrow u (u.disconnectMarked q) :=
  marksGrow_edit (P := (· = u.tip)) (f := fun e => { e with failedChild := true })
    entry_disconnectMarked (fun _ => ⟨rfl, rfl, rfl, rfl, fun h => h, fun _ => or_true _⟩)
    (fun _ hx => hx ▸ ⟨hst.linked_known hlinked, fun _ => .inr (.inl hlinked)⟩)
    ⟨rfl, rfl, rfl, rfl⟩

theorem Cutting.disconnectMarked (h : Cutting T s p u) (hst : s.Stored T [])
    (htip : s.Linked s.tip) (hp : p ∈ T.pathTo u.tip) (hq : T.parent u.tip = some q) :
    Cutting T s p (u.disconnectMarked q) where
  grow := by
    have hlinked := h.grow.data.linked.mpr (hst.linked_of_mem_pathTo htip h.tip)
    exact h.grow.trans (marksGrow_disconnectMarked (hst.of_marksGrow h.grow) hlinked)
  tip := pathTo_trans (parent_mem_pathTo hq) h.tip
  nValid := fun x => by
    rw [entry_disconnectMarked, ← h.nValid x]
    split <;> rfl
  self := by
    rw [entry_disconnectMarked, ← h.self]
    split <;> rfl
  marked := fun x hx => by
    rcases failed_disconnectMarked.mp hx with hx | rfl
    · exact h.marked x hx
    · exact .inr hp
  sub := fun x hx => h.sub x (mem_of_mem_filter hx)

/-- The loop ends below `p`. -/
theorem disconnectDown_spec {n : Nat} (hst : s.Stored T []) (htip : s.Linked s.tip)
    (hroot : p ≠ T.root) (h : Cutting T s p u) (hn : T.height u.tip + 1 < n) :
    ∃ u', disconnectDown T p n u = some u' ∧ Cutting T s p u' ∧ p ∉ T.pathTo u'.tip := by
  induction n generalizing u with
  | zero => exact absurd hn (Nat.not_lt_zero _)
  | succ n ih =>
    rw [disconnectDown]
    by_cases hp : p ∈ T.pathTo u.tip
    · have hne : u.tip ≠ T.root := by
        intro he
        rw [he] at hp
        exact hroot (mem_pathTo_root.mp hp)
      obtain ⟨q, hq⟩ := exists_parent hne
      rw [if_pos (show u.contains T p = true from decide_eq_true hp), hq]
      refine ih (h.disconnectMarked hst htip hp hq) ?_
      have hheight := T.height_parent u.tip q hq
      show T.height q + 1 < n
      omega
    · rw [if_neg (show ¬ u.contains T p = true from fun hc => hp (of_decide_eq_true hc))]
      exact ⟨u, rfl, h, hp⟩

/-- A loop that inserts the blocks that pass a test. -/
theorem mem_foldl_insert {test : β → Prop} [DecidablePred test] {l : List β} :
    x ∈ l.foldl (fun cs b => if test b then cs.insert b else cs) cands ↔
      x ∈ cands ∨ x ∈ l ∧ test x := by
  induction l generalizing cands with
  | nil => simp
  | cons b l ih =>
    rw [foldl_cons, ih, mem_cons]
    by_cases hx : x = b
    · subst hx
      by_cases htest : test x <;> simp [htest]
    · by_cases htest : test b <;> simp [hx, htest]

theorem Cutting.indexInv (h : s.IndexInv T [] s.tip) (hc : Cutting T s p u)
    (hp : p ∉ T.pathTo u.tip) : (u.readdCandidates T).IndexInv T [] (u.readdCandidates T).tip := by
  have hgrow : MarksGrow s (u.readdCandidates T) :=
    hc.grow.trans (marksGrow_of_entry rfl rfl rfl rfl rfl)
  have hst := h.stored.of_marksGrow hgrow
  have hl : (u.readdCandidates T).Levels T := h.levels.congr hgrow.map hc.nValid hgrow.data.haveData
  have hmem : ∀ x, x ∈ (u.readdCandidates T).setBlockIndexCandidates ↔
      x ∈ u.setBlockIndexCandidates ∨ x ∈ u.mapBlockIndex ∧
        ((u.entry x).isValid BLOCK_VALID_TRANSACTIONS ∧ (u.entry x).nChainTx ≠ 0 ∧
          u.workLess T x u.tip = false) := fun x => mem_foldl_insert
  exact
    { stored := hst
      levels := hl
      marks := fun x hx => by
        rcases hc.marked x hx with hx | hx
        · exact (h.marks x hx).mono hgrow.failedValid
        · exact ⟨p, hx, hc.self⟩
      anchored :=
        { solid := by
            refine (h.anchored.solid.of_mem_pathTo h.stored hc.tip).of_grow hgrow fun a ha => ?_
            rw [← not_eq_true]
            intro hf
            rcases hc.marked a hf with hf | hpa
            · have ha' := pathTo_trans ha hc.tip
              exact ne_true_of_eq_false (h.anchored.solid.unmarked a ha') hf
            · exact hp (pathTo_trans hpa ha)
          scripts := fun a ha hne => by
            have ha' := pathTo_trans ha hc.tip
            exact (hc.nValid a).symm ▸ h.anchored.scripts a ha' hne }
      candidates :=
        { linked := fun x hx => by
            rcases (hmem x).mp hx with hx | hx
            · exact hgrow.data.linked.mpr (h.candidates.linked x (hc.sub x hx))
            · exact hx.2.2.1
          above := fun x hx => by
            rcases (hmem x).mp hx with hx | hx
            · rw [hgrow.data.sortKey, hgrow.data.sortKey]
              exact (sortKey_le_of_mem_pathTo hc.tip).trans (h.candidates.above x (hc.sub x hx))
            · exact workLess_eq_false_iff.mp hx.2.2.2
          complete := fun x hx hf hle => by
            have hknown := hst.linked_known hx
            have hlevel := (hl.transactions x hknown).mpr (hst.linked_data x hx)
            exact (hmem x).mpr (.inr ⟨hknown, isValid_iff.mpr ⟨hf, hlevel⟩, hx,
              workLess_eq_false_iff.mpr hle⟩) } }

/-- The loop ends, and the invariant holds. -/
theorem invalidateBlock_spec (h : s.IndexInv T [] s.tip) (hp : p ∈ s.mapBlockIndex)
    (hroot : p ≠ T.root)
    (hdata : (s.entry p).failed = true ∨ s.Linked p ∨ (s.entry p).haveData = false) :
    ∃ u, s.invalidateBlock T p = some u ∧ u.IndexInv T [] u.tip := by
  have hcut : Cutting T s p (s.failValid p
      (s.setBlockIndexCandidates.filter fun c => decide (c ≠ p))) :=
    cutting_failValid hp hdata fun x hx => mem_of_mem_filter hx
  obtain ⟨u, hdown, hcut', hout⟩ := disconnectDown_spec h.stored h.anchored.solid.linked hroot
    hcut (Nat.lt_succ_self (T.height s.tip + 1))
  exact ⟨_, by rw [invalidateBlock, hdown, Option.map_some], hcut'.indexInv h hout⟩

/-! ## `ReconsiderBlock` -/

/-- The marks taken off the blocks of a list, and other candidates. -/
def unmark (s : IndexState β) (cleared cands : List β) : IndexState β := { s with
    entry := fun x => if x ∈ cleared then (s.entry x).clearFailed else s.entry x
    setBlockIndexCandidates := cands }

variable {cleared seen : List β}

theorem entry_unmark (x : β) : (s.unmark cleared cands).entry x =
    if x ∈ cleared then (s.entry x).clearFailed else s.entry x :=
  rfl

theorem unmark_nil : s.unmark [] s.setBlockIndexCandidates = s :=
  congrArg (fun entry => { s with entry }) (funext fun _ => if_neg not_mem_nil)

theorem sameData_unmark : SameData s (s.unmark cleared cands) := by
  constructor <;> first
    | rfl
    | intro x
      rw [entry_unmark]
      split <;> rfl

theorem nValid_unmark (x : β) :
    ((s.unmark cleared cands).entry x).nValid = (s.entry x).nValid := by
  rw [entry_unmark]
  split <;> rfl

/-- The marks that stay are those of the other blocks. -/
theorem mark_unmark {mark : IndexEntry → Bool} (hclear : ∀ e, mark (clearFailed e) = false) :
    mark ((s.unmark cleared cands).entry x) = true ↔ mark (s.entry x) = true ∧ x ∉ cleared := by
  rw [entry_unmark]
  split
  case isTrue hx =>
    rw [hclear]
    exact iff_of_false false_ne_true fun hand => hand.2 hx
  case isFalse hx => exact (and_iff_left hx).symm

theorem failed_unmark : ((s.unmark cleared cands).entry x).failed = true ↔
    (s.entry x).failed = true ∧ x ∉ cleared :=
  mark_unmark fun _ => rfl

theorem modify_unmark : (s.unmark cleared cands).modify b clearFailed =
    s.unmark (b :: cleared) cands := by
  refine congrArg (fun entry => { s.unmark cleared cands with entry }) (funext fun x => ?_)
  rw [entry_unmark]
  by_cases hx : x = b
  · rw [if_pos hx, if_pos (mem_cons.mpr (.inl hx))]
    split <;> rfl
  · rw [if_neg hx]
    exact if_congr (by rw [mem_cons, or_iff_right hx]) rfl rfl

/-- The call puts `x` in the candidate set. -/
def Offered (T : BlockTree β) (s : IndexState β) (p x : β) : Prop :=
  (s.entry x).failed = true ∧ p ∈ T.pathTo x ∧ BLOCK_VALID_TRANSACTIONS ≤ (s.entry x).nValid ∧
    s.Linked x ∧ s.sortKey T s.tip < s.sortKey T x

/-- What the loop over the index has done once it has seen the blocks of `seen`. -/
structure Reconsidered (T : BlockTree β) (s : IndexState β) (p : β)
    (seen cleared cands : List β) : Prop where
  cleared : ∀ x, (s.entry x).failed = true → (x ∈ cleared ↔ x ∈ seen ∧ p ∈ T.pathTo x)
  candidates : ∀ x, x ∈ cands ↔ x ∈ s.setBlockIndexCandidates ∨ x ∈ seen ∧ s.Offered T p x

section

variable (h : Reconsidered T s p seen cleared cands)
include h

theorem Reconsidered.step (b : β) : ∃ cleared' cands',
    (s.unmark cleared cands).reconsiderEntry T p b = s.unmark cleared' cands' ∧
      Reconsidered T s p (seen ++ [b]) cleared' cands' := by
  rw [reconsiderEntry]
  by_cases hcond : ((s.unmark cleared cands).entry b).isValid BLOCK_VALID_TRANSACTIONS = false ∧
      T.atHeight (T.height p) b = some p
  · have hp := (atHeight_eq_some_iff.mp hcond.2).1
    rw [if_pos hcond, modify_unmark]
    let u := s.unmark (b :: cleared) cands
    obtain ⟨cands', heq, hmem⟩ : ∃ cands', u.reofferCandidate T b =
        s.unmark (b :: cleared) cands' ∧ ∀ x, x ∈ cands' ↔ x ∈ cands ∨ x = b ∧ _ :=
      insertCandidate_eq
    have hdata : SameData s u := sameData_unmark
    -- the test, in terms of the state before the call
    have htest : ((u.entry b).isValid BLOCK_VALID_TRANSACTIONS = true ∧ (u.entry b).nChainTx ≠ 0 ∧
        u.workLess T u.tip b = true) ↔ s.Offered T p b := by
      have htip : u.tip = s.tip := rfl
      rw [workLess_iff, htip, hdata.sortKey, hdata.sortKey, hdata.nChainTx, isValid_iff, nValid_unmark]
      constructor
      · rintro ⟨⟨-, hlevel⟩, hlinked, hlt⟩
        refine ⟨?_, hp, hlevel, hlinked, hlt⟩
        by_contra hf
        refine ne_true_of_eq_false hcond.1 (isValid_iff.mpr ⟨?_, (nValid_unmark b).symm ▸ hlevel⟩)
        exact eq_false_of_not_eq_true fun hm => hf (failed_unmark.mp hm).1
      · rintro ⟨-, -, hlevel, hlinked, hlt⟩
        exact ⟨⟨eq_false_of_not_eq_true fun hm => (failed_unmark.mp hm).2 mem_cons_self, hlevel⟩,
          hlinked, hlt⟩
    refine ⟨b :: cleared, cands', heq, fun x hx => ?_, fun x => ?_⟩
    · rw [mem_cons, h.cleared x hx, mem_append, mem_singleton, or_and_right, Or.comm]
      exact or_congr_right (and_iff_left_of_imp fun hxb => hxb ▸ hp).symm
    · rw [hmem, h.candidates, htest, mem_append, mem_singleton, or_and_right]
      refine or_assoc.trans (or_congr_right (or_congr_right (and_congr_right fun hx => ?_)))
      rw [hx]
  · rw [if_neg hcond]
    -- a descendant that is valid has lost its marks already
    have hseen : ∀ x, (s.entry x).failed = true → p ∈ T.pathTo x →
        (x ∈ seen ++ [b] ↔ x ∈ seen) := by
      intro x hf hp
      rw [mem_append, mem_singleton]
      refine or_iff_left_of_imp fun hxb => ?_
      subst hxb
      have hvalid := eq_true_of_not_eq_false fun hv =>
        hcond ⟨hv, atHeight_eq_some_iff.mpr ⟨hp, rfl⟩⟩
      by_contra hnot
      exact ne_true_of_eq_false (isValid_iff.mp hvalid).1
        (failed_unmark.mpr ⟨hf, fun hin => hnot ((h.cleared x hf).mp hin).1⟩)
    refine ⟨cleared, cands, rfl, fun x hx => ?_, fun x => ?_⟩
    · rw [h.cleared x hx]
      exact and_congr_left fun hp => (hseen x hx hp).symm
    · rw [h.candidates]
      exact or_congr_right (and_congr_left fun ho => (hseen x ho.1 ho.2.1).symm)

theorem reconsidered_foldl {rest : List β} : ∃ cleared' cands',
    rest.foldl (reconsiderEntry T p) (s.unmark cleared cands) = s.unmark cleared' cands' ∧
      Reconsidered T s p (seen ++ rest) cleared' cands' := by
  induction rest generalizing seen cleared cands with
  | nil => exact ⟨cleared, cands, rfl, by rwa [append_nil]⟩
  | cons b rest ih =>
    obtain ⟨cleared', cands', heq, hstep⟩ := h.step b
    rw [append_cons, foldl_cons, heq]
    exact ih hstep

end

theorem clearAncestor_unmark : (s.unmark cleared cands).clearAncestor b =
    s.unmark (b :: cleared) cands := by
  rw [clearAncestor, ← modify_unmark]
  split
  case isTrue => rfl
  case isFalse hf =>
    refine congrArg (fun entry => { s.unmark cleared cands with entry }) (funext fun x => ?_)
    by_cases hx : x = b
    · rw [if_pos hx]
      exact (clearFailed_of_unmarked (hx ▸ eq_false_of_not_eq_true hf)).symm
    · exact (if_neg hx).symm

theorem foldl_clearAncestor (l : List β) : l.foldl clearAncestor (s.unmark cleared cands) =
    s.unmark (l.reverse ++ cleared) cands := by
  induction l generalizing cleared with
  | nil => rfl
  | cons b l ih => rw [foldl_cons, clearAncestor_unmark, ih, reverse_cons, append_assoc, cons_append,
      nil_append]

/-- The call takes the marks off `x`. -/
def Clears (T : BlockTree β) (p x : β) : Prop := p ∈ T.pathTo x ∨ x ∈ T.pathTo p

/-- The whole call. -/
theorem reconsiderBlock_spec (hst : s.Stored T []) (p : β) : ∃ cleared cands,
    s.reconsiderBlock T p = s.unmark cleared cands ∧
      (∀ x, (s.entry x).failed = true → (x ∈ cleared ↔ Clears T p x)) ∧
      ∀ x, x ∈ cands ↔ x ∈ s.setBlockIndexCandidates ∨ s.Offered T p x := by
  have hnil : Reconsidered T s p [] [] s.setBlockIndexCandidates :=
    ⟨fun _ _ => by simp, fun _ => by simp⟩
  obtain ⟨cleared, cands, heq, h⟩ := @reconsidered_foldl _ _ _ _ _ _ _ _ hnil s.mapBlockIndex
  rw [unmark_nil] at heq
  refine ⟨(T.pathTo p).reverse ++ cleared, cands, ?_, fun x hx => ?_, fun x => ?_⟩
  · rw [reconsiderBlock, heq, foldl_clearAncestor]
  · -- a marked block is known
    have hknown : x ∈ s.mapBlockIndex := by
      by_contra hnot
      rw [hst.unknown x hnot] at hx
      exact false_ne_true hx
    rw [mem_append, mem_reverse, h.cleared x hx, nil_append, and_iff_right hknown, Or.comm, Clears]
  · rw [h.candidates, nil_append]
    exact or_congr_right (and_iff_right_of_imp fun ho => hst.linked_known ho.2.2.2.1)

/-- What `ReconsiderBlock` needs so that nothing is left over. -/
structure ReconsiderOk (T : BlockTree β) (s : IndexState β) (p : β) : Prop where
  /-- A marked block that keeps its mark is below a failed block that keeps its own. -/
  marks : ∀ x, (s.entry x).failed = true → ¬ Clears T p x →
    ∃ a ∈ T.pathTo x, (s.entry a).failedValid = true ∧ ¬ Clears T p a
  /-- No block was kept out of `mapBlocksUnlinked` by a mark that goes. -/
  waiting : ∀ q b, (s.entry b).haveData = true → T.parent b = some q →
    (s.entry q).failed = true → (s.entry q).haveData = false → Clears T p q →
    (q, b) ∈ s.mapBlocksUnlinked
  /-- Some block that can be connected sorts at least as good as the tip, and better than every
  ancestor of `p` that loses a mark and is not a candidate. -/
  listed : ∃ c, s.Linked c ∧
    (∀ a ∈ T.pathTo c, T.connectBlock a = true ∧ ((s.entry a).failed = true → Clears T p a)) ∧
    s.sortKey T s.tip ≤ s.sortKey T c ∧
    ∀ a ∈ T.pathTo p, a ≠ p → (s.entry a).failed = true → s.Linked a →
      a ∉ s.setBlockIndexCandidates → s.sortKey T a < s.sortKey T c

/-- From the block of `listed` on, the candidate set is complete. -/
theorem candidates_complete (h : s.IndexInv T [] s.tip)
    (hclears : ∀ x, (s.entry x).failed = true → (x ∈ cleared ↔ Clears T p x))
    (hcands : ∀ x, x ∈ cands ↔ x ∈ s.setBlockIndexCandidates ∨ s.Offered T p x)
    (htipc : s.sortKey T s.tip ≤ s.sortKey T c)
    (habove : ∀ a ∈ T.pathTo p, a ≠ p → (s.entry a).failed = true → s.Linked a →
      a ∉ s.setBlockIndexCandidates → s.sortKey T a < s.sortKey T c)
    (hx : s.Linked x) (hf : ((s.unmark cleared cands).entry x).failed = false)
    (hle : s.sortKey T c ≤ s.sortKey T x) : x ∈ cands := by
  rw [hcands]
  rcases hfs : (s.entry x).failed with _ | _
  · exact .inl (h.candidates.complete x hx hfs (htipc.trans hle))
  have hcleared : Clears T p x := by
    rw [← hclears x hfs]
    by_contra hc
    exact ne_true_of_eq_false hf (failed_unmark.mpr ⟨hfs, hc⟩)
  have hknown := h.stored.linked_known hx
  -- the tip has no mark, so it is another block
  have hlt : s.sortKey T s.tip < s.sortKey T x := by
    refine lt_of_le_of_ne (htipc.trans hle) fun he => ?_
    have htip := h.anchored.solid.unmarked s.tip (self_mem_pathTo _)
    rw [s.sortKey_injective he, hfs] at htip
    exact false_ne_true htip.symm
  have hoffered : p ∈ T.pathTo x → s.Offered T p x := fun hpx =>
    ⟨hfs, hpx, (h.levels.transactions x hknown).mpr (h.stored.linked_data x hx), hx, hlt⟩
  rcases hcleared with hpx | hxp
  · exact .inr (hoffered hpx)
  · by_cases hne : x = p
    · exact .inr (hoffered (hne ▸ self_mem_pathTo x))
    · by_contra hnot
      exact absurd hle (not_le.mpr (habove x hxp hne hfs hx fun hmem => hnot (.inl hmem)))

/-- The invariant holds again, from a block on that `ActivateBestChain`
will not fall below. -/
theorem reconsiderBlock_inv (h : s.IndexInv T [] s.tip) (hok : ReconsiderOk T s p) :
    ∃ c, (s.reconsiderBlock T p).IndexInv T [] c ∧ (s.reconsiderBlock T p).Solid T c := by
  obtain ⟨cleared, cands, heq, hclears, hcands⟩ := reconsiderBlock_spec h.stored p
  obtain ⟨c, hlinked, hpath, htipc, habove⟩ := hok.listed
  have hdata : SameData s (s.unmark cleared cands) := sameData_unmark
  have hmarks : ∀ x, ((s.unmark cleared cands).entry x).failed = true ↔
      (s.entry x).failed = true ∧ ¬ Clears T p x := fun x => by
    rw [failed_unmark]
    exact and_congr_right fun hf => not_congr (hclears x hf)
  have hunmarked : ∀ x, (s.entry x).failed = false →
      ((s.unmark cleared cands).entry x).failed = false := fun x hx => by
    rw [← not_eq_true] at hx ⊢
    exact fun hf => hx (failed_unmark.mp hf).1
  rw [heq]
  refine ⟨c, ?_, ⟨hdata.linked.mpr hlinked, fun a ha => (hpath a ha).1, fun a ha => ?_⟩⟩
  · exact
      { stored := by
          refine h.stored.of_sameData hdata rfl rfl rfl (fun x hx => ?_) (fun q x hx hq hf hnone => ?_)
            fun x hf hnl => h.stored.failed_unlinked x (failed_unmark.mp hf).1 hnl
          · rw [entry_unmark, h.stored.unknown x hx]
            split <;> rfl
          · by_cases hc : Clears T p q
            · exact .inl (hok.waiting q x hx hq hf hnone hc)
            · exact .inr ((hmarks q).mpr ⟨hf, hc⟩)
        levels := h.levels.congr rfl nValid_unmark hdata.haveData
        marks := fun x hx => by
          obtain ⟨hf, hc⟩ := (hmarks x).mp hx
          obtain ⟨a, ha, hfa, hca⟩ := hok.marks x hf hc
          have hfailed : (s.entry a).failed = true := by rw [failed, hfa, Bool.true_or]
          exact ⟨a, ha, (mark_unmark fun _ => rfl).mpr ⟨hfa, mt (hclears a hfailed).mp hca⟩⟩
        anchored := h.anchored.congr rfl hdata.linked.mpr (fun a _ => hunmarked a)
          fun a _ => nValid_unmark a
        candidates :=
          { linked := fun x hx => hdata.linked.mpr
              (((hcands x).mp hx).elim (h.candidates.linked x) fun ho => ho.2.2.2.1)
            above := fun x hx => by
              rw [hdata.sortKey, hdata.sortKey]
              exact ((hcands x).mp hx).elim (h.candidates.above x) fun ho => ho.2.2.2.2.le
            complete := fun x hx hf hle => by
              rw [hdata.sortKey, hdata.sortKey] at hle
              exact candidates_complete h hclears hcands htipc habove (hdata.linked.mp hx) hf hle } }
  · rw [← not_eq_true]
    intro hf
    obtain ⟨hf, hc⟩ := (hmarks a).mp hf
    exact hc ((hpath a ha).2 hf)

/-! ## Runs with calls by hand -/

/-- The two calls. -/
inductive Control (β : Type) where
  | invalidate (pindex : β)
  | reconsider (pindex : β)

namespace Control

def pindex : Control β → β
  | invalidate pindex => pindex
  | reconsider pindex => pindex

def apply (T : BlockTree β) (s : IndexState β) : Control β → Option (IndexState β)
  | invalidate pindex => s.invalidateBlock T pindex
  | reconsider pindex => some (s.reconsiderBlock T pindex)

/-- Nothing is left over by the call. -/
def Safe (T : BlockTree β) (s : IndexState β) : Control β → Prop
  | invalidate p => (s.entry p).failed = true ∨ s.Linked p ∨ (s.entry p).haveData = false
  | reconsider p => ReconsiderOk T s p

end Control

/-- The steps of a node whose operator invalidates and reconsiders blocks other than the genesis
block, each time followed by `ActivateBestChain`, and only where `guard` allows it. -/
inductive ControlStep (T : BlockTree β) (guard : IndexState β → Control β → Prop) :
    IndexState β → IndexState β → Prop
  | arrival {s s' : IndexState β} (h : ArrivalStep T s s') : ControlStep T guard s s'
  | control {s u s' : IndexState β} (call : Control β) (hknown : call.pindex ∈ s.mapBlockIndex)
      (hroot : call.pindex ≠ T.root) (hguard : guard s call) (hu : call.apply T s = some u)
      (hact : u.Activates T s') : ControlStep T guard s s'

theorem controlRun_of_arrivals {guard : IndexState β → Control β → Prop}
    (hrun : Relation.ReflTransGen (ArrivalStep T) s s') :
    Relation.ReflTransGen (ControlStep T guard) s s' :=
  hrun.lift id fun _ _ hstep => .arrival hstep

section

variable (h : s.IndexInv T [] s.tip) {call : Control β}
include h

theorem Control.apply_inv (hknown : call.pindex ∈ s.mapBlockIndex) (hroot : call.pindex ≠ T.root)
    (hsafe : call.Safe T s) : ∃ u c, call.apply T s = some u ∧ u.IndexInv T [] c ∧ u.Solid T c := by
  cases call with
  | invalidate p =>
    obtain ⟨u, hu, hinv⟩ := invalidateBlock_spec h hknown hroot hsafe
    exact ⟨u, u.tip, hu, hinv, hinv.anchored.solid⟩
  | reconsider p =>
    obtain ⟨c, hinv, hsolid⟩ := reconsiderBlock_inv h hsafe
    exact ⟨_, c, rfl, hinv, hsolid⟩

/-- A safe call with the call of `ActivateBestChain` after it. -/
theorem Control.activates (hknown : call.pindex ∈ s.mapBlockIndex) (hroot : call.pindex ≠ T.root)
    (hsafe : call.Safe T s) :
    ∃ u s', call.apply T s = some u ∧ u.Activates T s' ∧ s'.IndexInv T [] s'.tip := by
  obtain ⟨u, c, hu, hinv, hsolid⟩ := Control.apply_inv h hknown hroot hsafe
  obtain ⟨n, s', hact, hended⟩ := activateBestChain_spec hinv hsolid
  exact ⟨u, s', hu, ⟨n, hact⟩, hended.inv⟩

theorem arrivalStep_inv (hstep : ArrivalStep T s s') : s'.IndexInv T [] s'.tip := by
  cases hstep with
  | header hok => exact (acceptBlockHeader_inv h hok).2.1
  | block b checked =>
    obtain ⟨htip, hinv⟩ := acceptBlock_inv h b checked
    exact htip.symm ▸ hinv
  | activate hact => exact (h.ended hact).inv

theorem controlStep_inv (hstep : ControlStep T (fun s call => call.Safe T s) s s') :
    s'.IndexInv T [] s'.tip := by
  cases hstep with
  | arrival hstep => exact arrivalStep_inv h hstep
  | control call hknown hroot hsafe hu hact =>
    obtain ⟨u', s'', hu', hact', hinv⟩ := Control.activates h hknown hroot hsafe
    obtain rfl := Option.some.inj (hu.symm.trans hu')
    exact hact.unique hact' ▸ hinv

end

/-- **`checkBlockIndex_control`** — in every run whose calls of `InvalidateBlock` and
`ReconsiderBlock` are all safe, every assertion of `CheckBlockIndex` holds in every state, and a
safe call followed by `ActivateBestChain` returns. -/
theorem checkBlockIndex_control {addr : β ↪ Nat}
    (hrun : Relation.ReflTransGen (ControlStep T fun s call => call.Safe T s) (genesis T addr) s) :
    s.CheckBlockIndex T ∧ ∀ call : Control β, call.pindex ∈ s.mapBlockIndex →
      call.pindex ≠ T.root → call.Safe T s →
      ∃ u s', call.apply T s = some u ∧ u.Activates T s' ∧ s'.CheckBlockIndex T := by
  have hinv : s.IndexInv T [] s.tip := by
    induction hrun with
    | refl => exact indexInv_genesis addr
    | tail _ hstep ih => exact controlStep_inv ih hstep
  refine ⟨hinv.checkBlockIndex, fun call hknown hroot hsafe => ?_⟩
  obtain ⟨u, s', hu, hact, hinv'⟩ := Control.activates hinv hknown hroot hsafe
  exact ⟨u, s', hu, hact, hinv'.checkBlockIndex⟩

open ForkBlock in
/-- Two blocks stand on `left`, one of them the tip. After `InvalidateBlock` of `left` both are
marked, and after `ReconsiderBlock` of the other one the block that was the tip still is. -/
theorem left_invalidated :
    let T := treeWith (fun _ => true) rfl
    ∃ s s' s'', Relation.ReflTransGen (ArrivalStep T) (genesis T ForkBlock.addr) s ∧
      (Control.invalidate left).Safe T s ∧
      (∀ guard : IndexState ForkBlock → Control ForkBlock → Prop,
        guard s (.invalidate left) → ControlStep T guard s s') ∧
      (s.tip = leftTop ∧ s'.tip = T.root ∧ leftSide ∈ s'.mapBlockIndex) ∧
      (s'.reconsiderBlock T leftSide).Activates T s'' ∧ leftTop ∈ s''.mapBlockIndex ∧
      ¬ s''.FirstInvalid T leftTop ∧ (s''.entry leftTop).failed = true := by
  intro T
  let s1 := (genesis T ForkBlock.addr).acceptBlock T left true
  let s2 := s1.acceptBlock T leftTop true
  let s3 := s2.acceptBlock T leftSide true
  have heval : ((activateBestChain T 3 s3).bind fun s4 => (s4.invalidateBlock T left).bind fun u5 =>
      (activateBestChain T 3 u5).bind fun s5 =>
        (activateBestChain T 3 (s5.reconsiderBlock T leftSide)).map fun s6 =>
          ((decide (left ∈ s4.mapBlockIndex), (s4.entry left).nChainTx, s4.tip, s5.tip,
            decide (leftSide ∈ s5.mapBlockIndex)), decide (leftTop ∈ s6.mapBlockIndex),
            (T.pathTo leftTop).all (fun a => !(s6.entry a).failedValid),
            (s6.entry leftTop).failed)) =
      some ((true, 2, leftTop, T.root, true), true, true, true) := by
    decide +kernel
  obtain ⟨s4, hact4, heval⟩ := Option.bind_eq_some_iff.mp heval
  obtain ⟨u5, hinvalidate, heval⟩ := Option.bind_eq_some_iff.mp heval
  obtain ⟨s5, hact5, heval⟩ := Option.bind_eq_some_iff.mp heval
  obtain ⟨s6, hact6, heval⟩ := Option.map_eq_some_iff.mp heval
  simp only [Prod.mk.injEq, decide_eq_true_eq, all_eq_true, not_eq_true'] at heval
  obtain ⟨⟨hknown, hlinked, htips⟩, hknown6, hvalid, hfailed⟩ := heval
  refine ⟨s4, s5, s6, ?_, .inr (.inl (by simp [Linked, hlinked])), fun guard hguard => ?_,
    htips, ⟨3, hact6⟩, hknown6, ?_, hfailed⟩
  · exact (((Relation.ReflTransGen.single (.block _ left true)).tail (.block _ leftTop true)).tail
      (.block _ leftSide true)).tail (.activate ⟨3, hact4⟩)
  · exact .control (.invalidate left) hknown (by decide) hguard hinvalidate ⟨3, hact5⟩
  · rintro ⟨a, ha, hfa⟩
    exact ne_true_of_eq_false (hvalid a ha) hfa

open ForkBlock in
/-- `ReconsiderBlock` takes the mark off `left` and off the block itself, and the block that was
the tip keeps a mark without a cause. -/
theorem reconsiderBlock_leaves_mark :
    let T := treeWith (fun _ => true) rfl
    ∃ s s', Relation.ReflTransGen (ControlStep T fun _ _ => True) (genesis T ForkBlock.addr) s ∧
      s.CheckBlockIndex T ∧ ControlStep T (fun _ _ => True) s s' ∧
      leftTop ∈ s'.mapBlockIndex ∧ ¬ s'.FirstInvalid T leftTop ∧
      (s'.entry leftTop).failed = true ∧ ¬ s'.CheckBlockIndex T := by
  intro T
  obtain ⟨s, s', s'', hrun, hsafe, hstep, ⟨-, -, hknown⟩, hact, hknown', hnone, hfailed⟩ :=
    left_invalidated
  have hinv := controlStep_inv (runInv_of_run hrun).inv (hstep (fun s call => call.Safe T s) hsafe)
  refine ⟨s', s'', (controlRun_of_arrivals hrun).tail (hstep _ trivial), hinv.checkBlockIndex,
    .control (.reconsider leftSide) hknown (by decide) trivial rfl hact, hknown', hnone, hfailed,
    fun hcheck => ?_⟩
  have hunmarked := (hcheck.entries leftTop hknown').failed hnone
  exact ne_true_of_eq_false hunmarked hfailed

open ForkBlock in
/-- The active chain is cut down to the genesis block. -/
theorem checkBlockIndex_invalidated :
    let T := treeWith (fun _ => true) rfl
    ∃ s s', ControlStep T (fun s call => call.Safe T s) s s' ∧ s.tip = leftTop ∧
      s'.tip = T.root ∧ s'.CheckBlockIndex T := by
  intro T
  obtain ⟨s, s', -, hrun, hsafe, hstep, ⟨htip, htip', -⟩, -⟩ := left_invalidated
  have hsafeStep := hstep (fun s call => call.Safe T s) hsafe
  exact ⟨s, s', hsafeStep, htip, htip', (checkBlockIndex_control
    ((controlRun_of_arrivals hrun).tail hsafeStep)).1⟩

end IndexState

end MonetaryUnit
