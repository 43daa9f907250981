/-
# MonetaryUnit.Chain.Arrivals — headers and block data keep the invariant

`AcceptBlockHeader` adds an entry without data. `AcceptBlock` stores data: either the parent is
linked, and the queue of `ReceivedBlockTransactions` links the block and what waits below it, or
the block waits in `mapBlocksUnlinked` itself. A block that fails its checks is marked and keeps
no data.

A block whose parent is marked is stored without being put in `mapBlocksUnlinked`. This is the
exception in `Stored.unlinked_complete`: such a parent has no data, and gets none, because
`AcceptBlockHeader` refuses a marked block.
-/

import Mathlib.Data.List.Nodup
import MonetaryUnit.Chain.TreeInvariant

namespace MonetaryUnit

open Lib List ParentTree IndexEntry Nat
open Bool hiding or_assoc not_or

namespace IndexState

variable {β : Type} [DecidableEq β] {T : BlockTree β} {s s' : IndexState β} {a b c p x : β}
  {queue : List β}

omit [DecidableEq β] in
/-- One entry gets a level that is not that of a connected block, and had none. -/
theorem Levels.of_entry (hl : s.Levels T)
    (hmap : ∀ x ∈ s'.mapBlockIndex, x ≠ b → x ∈ s.mapBlockIndex)
    (hother : ∀ x, x ≠ b → s'.entry x = s.entry x) (htree : BLOCK_VALID_TREE ≤ (s'.entry b).nValid)
    (htransactions : BLOCK_VALID_TRANSACTIONS ≤ (s'.entry b).nValid ↔ (s'.entry b).haveData = true)
    (hchain : ¬ BLOCK_VALID_CHAIN ≤ (s'.entry b).nValid)
    (hold : ¬ BLOCK_VALID_SCRIPTS ≤ (s.entry b).nValid) : s'.Levels T := by
  refine ⟨fun x hx => ?_, fun x hx => ?_, fun x hx hlevel a ha hroot => ?_⟩
  · by_cases hxb : x = b
    · exact hxb ▸ htree
    · rw [hother x hxb]
      exact hl.tree x (hmap x hx hxb)
  · by_cases hxb : x = b
    · exact hxb ▸ htransactions
    · rw [hother x hxb]
      exact hl.transactions x (hmap x hx hxb)
  · have hxb : x ≠ b := fun he => hchain (he ▸ hlevel)
    rw [hother x hxb] at hlevel
    have hscripts := hl.scripts x (hmap x hx hxb) hlevel a ha hroot
    have hab : a ≠ b := fun he => hold (he ▸ hscripts)
    rwa [hother a hab]

/-! ## Headers -/

section Header

variable (hb : b ∉ s.mapBlockIndex)

include hb

/-- A new entry differs from no entry in its validity only. -/
theorem entry_addToBlockIndex (h : s.Stored T queue) (x : β) : (s.addToBlockIndex b).entry x =
      if x = b then { s.entry x with nValid := BLOCK_VALID_TREE } else s.entry x := by
  show (if x = b then _ else _) = _
  split
  case isTrue hx =>
      rw [hx, h.unknown b hb]
      rfl
  case isFalse => rfl

theorem sameData_addToBlockIndex (h : s.Stored T queue) : SameData s (s.addToBlockIndex b) := by
  constructor <;> first
    | rfl
    | intro x
      rw [entry_addToBlockIndex hb h]
      split <;> rfl

theorem failed_addToBlockIndex (h : s.Stored T queue) (x : β) :
    ((s.addToBlockIndex b).entry x).failedValid = (s.entry x).failedValid ∧
      ((s.addToBlockIndex b).entry x).failed = (s.entry x).failed := by
  rw [entry_addToBlockIndex hb h]
  split <;> exact ⟨rfl, rfl⟩

theorem stored_addToBlockIndex (h : s.Stored T []) (hp : T.parent b = some p)
    (hknown : p ∈ s.mapBlockIndex) : (s.addToBlockIndex b).Stored T [] := by
  have hdata := sameData_addToBlockIndex hb h
  have hfailed := fun x => (failed_addToBlockIndex hb h x).2
  refine h.transfer (mem_append_left _ h.root_known) (fun x hx q hq => ?_) (fun x hx => ?_)
    hdata.haveData hdata.nTx (fun _ => hdata.linked) (fun x => ?_) h.unlinked_sound
    (fun q x hx hq hnl => ?_) h.unlinked_nodup
    fun x hx => h.failed_unlinked x ((hfailed x).symm.trans hx)
  · rcases mem_append.mp hx with hx | hx
    · exact mem_append_left _ (h.parent_known x hx q hq)
    · rw [mem_singleton.mp hx, hp] at hq
      exact mem_append_left _ (Option.some.inj hq ▸ hknown)
  · have hne : x ≠ b := fun he => hx (mem_append_right _ (mem_singleton.mpr he))
    rw [entry_addToBlockIndex hb h, if_neg hne]
    exact h.unknown x fun hx' => hx (mem_append_left _ hx')
  · rw [hdata.nSequenceId]
    exact ⟨h.seq_unlinked x, h.seq_lt x⟩
  · rw [hfailed]
    exact h.unlinked_complete q x hx hq hnl

theorem levels_addToBlockIndex (h : s.Stored T []) (hl : s.Levels T) :
    (s.addToBlockIndex b).Levels T := by
  have hnew := entry_addToBlockIndex hb h b
  rw [if_pos rfl, h.unknown b hb] at hnew
  apply hl.of_entry
  · exact fun x hx hne => (mem_append.mp hx).resolve_right fun h' => hne (mem_singleton.mp h')
  · exact fun x hx => by rw [entry_addToBlockIndex hb h, if_neg hx]
  · rw [hnew]
  · rw [hnew]
    exact iff_of_false (by decide) false_ne_true
  · rw [hnew]
    decide
  · rw [h.unknown b hb]
    decide

end Header

theorem indexInv_addToBlockIndex (hb : b ∉ s.mapBlockIndex) (h : s.IndexInv T [] s.tip)
    (hp : T.parent b = some p) (hknown : p ∈ s.mapBlockIndex) :
    (s.addToBlockIndex b).IndexInv T [] s.tip := by
  have hdata := sameData_addToBlockIndex hb h.stored
  refine h.transfer (stored_addToBlockIndex hb h.stored hp hknown)
    (levels_addToBlockIndex hb h.stored h.levels) (fun _ => hdata.linked) hdata.sortKey
    (failed_addToBlockIndex hb h.stored) (fun x hx => ?_) rfl rfl
  have hlinked := h.stored.linked_of_mem_pathTo h.anchored.solid.linked hx
  have hne : x ≠ b := fun he => hb (he ▸ h.stored.linked_known hlinked)
  rw [entry_addToBlockIndex hb h.stored, if_neg hne]

/-- What a call of `AcceptBlockHeader` that succeeds did. -/
theorem acceptBlockHeader_eq (h : s.Stored T []) (hok : s.acceptBlockHeader T b = some s') :
    (b ∈ s.mapBlockIndex ∧ (s.entry b).failed = false ∧ s' = s) ∨
      (b ∉ s.mapBlockIndex ∧ s' = s.addToBlockIndex b ∧
        ∃ p, T.parent b = some p ∧ p ∈ s.mapBlockIndex ∧ (s.entry p).failed = false) := by
  rw [acceptBlockHeader] at hok
  by_cases hb : b ∈ s.mapBlockIndex
  · rw [if_pos hb] at hok
    split_ifs at hok with hf
    exact .inl ⟨hb, not_eq_true _ ▸ hf, (Option.some.inj hok).symm⟩
  · have hroot : b ≠ T.root := fun he => hb (he ▸ h.root_known)
    obtain ⟨p, hp⟩ := exists_parent hroot
    rw [hp] at hok
    dsimp only at hok
    split_ifs at hok with hknown hf
    exact .inr ⟨hb, (Option.some.inj hok).symm, p, hp, hknown, not_eq_true _ ▸ hf⟩

/-- After an accepted header the entry exists and is not marked. -/
theorem acceptBlockHeader_inv (h : s.IndexInv T [] s.tip)
    (hok : s.acceptBlockHeader T b = some s') :
    s'.tip = s.tip ∧ s'.IndexInv T [] s'.tip ∧ b ∈ s'.mapBlockIndex ∧
      (s'.entry b).failed = false := by
  rcases acceptBlockHeader_eq h.stored hok with ⟨hb, hf, rfl⟩ | ⟨hb, rfl, p, hp, hknown, -⟩
  · exact ⟨rfl, h, hb, hf⟩
  · refine ⟨rfl, indexInv_addToBlockIndex hb h hp hknown,
      mem_append_right _ (mem_singleton_self b), ?_⟩
    rw [(failed_addToBlockIndex hb h.stored b).2, h.stored.unknown b hb]
    rfl

/-! ## Block data -/

section Data

/-- The entry whose data is stored: it was known, unmarked and without data. -/
structure Awaited (T : BlockTree β) (s : IndexState β) (b p : β) : Prop where
  known : b ∈ s.mapBlockIndex
  unmarked : (s.entry b).failed = false
  noData : (s.entry b).haveData = false
  parent : T.parent b = some p

variable (hw : s.Awaited T b p) {unlinked : List (β × β)}

include hw

omit [DecidableEq β] in
theorem Awaited.not_linked (h : s.Stored T queue) : ¬ s.Linked b := fun hl =>
  ne_true_of_eq_false hw.noData (h.linked_data b hl)

theorem entry_storeData (hl : s.Levels T) (x : β) : (s.storeData T b).entry x =
    if x = b then { s.entry x with
      nTx := T.vtxSize b, nChainTx := 0, haveData := true, nValid := BLOCK_VALID_TRANSACTIONS }
    else s.entry x := by
  rw [storeData, entry_modify]
  split
  case isTrue hx =>
      rw [hx, raiseValidity]
      have hlevel : (s.entry b).nValid < BLOCK_VALID_TRANSACTIONS := by
        rw [← not_le, hl.transactions b hw.known, hw.noData]
        exact false_ne_true
      have hfail : ({ s.entry b with
          nTx := T.vtxSize b, nChainTx := 0, haveData := true } : IndexEntry).failed = false :=
        hw.unmarked
      rw [if_neg (not_eq_true _ ▸ hfail), if_pos hlevel]
  case isFalse => rfl

theorem haveData_storeData (hl : s.Levels T) :
    ((s.storeData T b).entry x).haveData = true ↔ (s.entry x).haveData = true ∨ x = b := by
  rw [entry_storeData hw hl]
  by_cases hx : x = b <;> simp [hx]

theorem linked_storeData (h : s.Stored T queue) (hl : s.Levels T) :
    (s.storeData T b).Linked x ↔ s.Linked x := by
  rw [Linked, entry_storeData hw hl]
  by_cases hx : x = b
  · rw [if_pos hx, hx]
    exact iff_of_false (fun hne => hne rfl) (hw.not_linked h)
  · rw [if_neg hx, Linked]

theorem failed_storeData (hl : s.Levels T) (x : β) :
    ((s.storeData T b).entry x).failedValid = (s.entry x).failedValid ∧
      ((s.storeData T b).entry x).failed = (s.entry x).failed := by
  rw [entry_storeData hw hl]
  split <;> exact ⟨rfl, rfl⟩

theorem nSequenceId_storeData (hl : s.Levels T) (x : β) :
    ((s.storeData T b).entry x).nSequenceId = (s.entry x).nSequenceId := by
  rw [entry_storeData hw hl]
  split <;> rfl

/-- Stored data, with the block in the queue if its parent is linked, and else among the
unlinked unless the parent is marked. -/
theorem stored_storeData (h : s.Stored T []) (hl : s.Levels T)
    (hsub : ∀ e ∈ s.mapBlocksUnlinked, e ∈ unlinked)
    (hnew : ∀ e ∈ unlinked, e ∈ s.mapBlocksUnlinked ∨ e = (p, b) ∧ ¬ s.Linked p)
    (hnodup : unlinked.Nodup) (hqueue : ∀ x ∈ queue, x = b ∧ s.Linked p) (hqnodup : queue.Nodup)
    (hlinked : s.Linked p → b ∈ queue)
    (hwaits : ¬ s.Linked p → (p, b) ∈ unlinked ∨ (s.entry p).failed = true) :
    ({ s.storeData T b with mapBlocksUnlinked := unlinked } : IndexState β).Stored T queue := by
  have hdata : ∀ x, ((s.storeData T b).entry x).haveData = true ↔
      (s.entry x).haveData = true ∨ x = b := fun x => haveData_storeData hw hl
  have hlink : ∀ x, Linked { s.storeData T b with mapBlocksUnlinked := unlinked } x ↔ s.Linked x :=
    fun x => linked_storeData hw h hl
  -- a marked block is not the one that arrives
  have hmarked : ∀ x, (s.entry x).failed = true → x ≠ b := by
    rintro x hf rfl
    exact ne_true_of_eq_false hw.unmarked hf
  exact
    { root_known := h.root_known
      parent_known := h.parent_known
      unknown := fun x hx => by
        have hne : x ≠ b := fun he => hx (he ▸ hw.known)
        rw [entry_storeData hw hl, if_neg hne]
        exact h.unknown x hx
      data_tx := fun x => by
        rw [entry_storeData hw hl]
        split
        · exact iff_of_false Bool.noConfusion (T.vtxSize_pos b).ne'
        · exact h.data_tx x
      root_linked := (hlink _).mpr h.root_linked
      linked_data := by
        simp only [hlink, hdata]
        exact fun x hx => .inl (h.linked_data x hx)
      linked_parent := by simpa only [hlink] using h.linked_parent
      linked_child := by
        simp only [hlink, hdata]
        rintro x q (hx | rfl) hq hlq
        · exact .inl ((h.linked_child x q hx hq hlq).resolve_right not_mem_nil)
        · rw [hw.parent] at hq
          exact .inr (hlinked (Option.some.inj hq ▸ hlq))
      seq_unlinked := by simpa only [hlink, nSequenceId_storeData hw hl] using h.seq_unlinked
      seq_lt := fun x => (nSequenceId_storeData hw hl x).trans_lt (h.seq_lt x)
      unlinked_sound := by
        simp only [hlink, hdata]
        intro q x hx
        rcases hnew (q, x) hx with hx | ⟨hx, hnl⟩
        · obtain ⟨hq, hxd, hnl⟩ := h.unlinked_sound q x hx
          exact ⟨hq, .inl hxd, hnl⟩
        · obtain ⟨rfl, rfl⟩ := Prod.mk.inj hx
          exact ⟨hw.parent, .inr rfl, hnl⟩
      unlinked_complete := by
        simp only [hlink, hdata, (failed_storeData hw hl _).2]
        rintro q x (hx | rfl) hq hnq
        · refine (h.unlinked_complete q x hx hq hnq).imp (hsub _) fun hand => ?_
          rwa [entry_storeData hw hl, if_neg (hmarked q hand.1)]
        · rw [hw.parent] at hq
          obtain rfl := Option.some.inj hq
          refine (hwaits hnq).imp_right fun hf => ⟨hf, ?_⟩
          rw [entry_storeData hw hl, if_neg (hmarked p hf)]
          exact h.failed_unlinked p hf hnq
      unlinked_nodup := hnodup
      failed_unlinked := by
        simp only [hlink, (failed_storeData hw hl _).2]
        intro x hf hnl
        rw [entry_storeData hw hl, if_neg (hmarked x hf)]
        exact h.failed_unlinked x hf hnl
      queued := by
        simp only [hlink, hdata]
        intro x hx
        obtain ⟨rfl, hlp⟩ := hqueue x hx
        exact ⟨.inr rfl, hw.not_linked h, p, hw.parent, hlp⟩
      queue_nodup := hqnodup }

theorem levels_storeData (hl : s.Levels T) : (s.storeData T b).Levels T := by
  have hnew := entry_storeData hw hl b
  rw [if_pos rfl] at hnew
  apply hl.of_entry
  · exact fun x hx _ => hx
  · exact fun x hx => by rw [entry_storeData hw hl, if_neg hx]
  · rw [hnew]
    show BLOCK_VALID_TREE ≤ BLOCK_VALID_TRANSACTIONS
    decide
  · rw [hnew]
    exact iff_of_true le_rfl rfl
  · rw [hnew]
    show ¬ BLOCK_VALID_CHAIN ≤ BLOCK_VALID_TRANSACTIONS
    decide
  · intro hscripts
    have htrans : BLOCK_VALID_TRANSACTIONS ≤ (s.entry b).nValid := le_trans (by decide) hscripts
    rw [hl.transactions b hw.known, hw.noData] at htrans
    exact false_ne_true htrans

/-- Stored data keeps the invariant, whichever way the block then
goes. -/
theorem indexInv_storeData (h : s.IndexInv T [] s.tip)
    (hst : ({ s.storeData T b with mapBlocksUnlinked := unlinked } : IndexState β).Stored T queue) :
    ({ s.storeData T b with mapBlocksUnlinked := unlinked } : IndexState β).IndexInv T queue
      s.tip := by
  have hl := h.levels
  refine h.transfer hst ((levels_storeData hw hl).congr rfl (fun _ => rfl) fun _ => rfl)
    (fun x => linked_storeData hw h.stored hl)
    (fun x => sortKey_congr (nSequenceId_storeData hw hl x) rfl) (failed_storeData hw hl)
    (fun a ha => ?_) rfl rfl
  have hne : a ≠ b := fun he => hw.not_linked h.stored
    (he ▸ h.stored.linked_of_mem_pathTo h.anchored.solid.linked ha)
  rw [entry_storeData hw hl, if_neg hne]

end Data

/-! ## The queue -/

/-- One round of the queue, but for the queue. -/
def linkStep (T : BlockTree β) (s : IndexState β) (b : β) : IndexState β :=
  (s.linkBlock T b).dropUnlinked b

/-- The state in which `linkBlock` offers `b` to the candidate set. -/
theorem linkStep_eq : ∃ cands : List β, s.linkStep T b = { s.modify b (fun e => { e with
        nChainTx := s.parentChainTx T b + e.nTx
        nSequenceId := s.nBlockSequenceId }) with
      nBlockSequenceId := s.nBlockSequenceId + 1
      mapBlocksUnlinked := s.mapBlocksUnlinked.filter fun e => decide (e.1 ≠ b)
      setBlockIndexCandidates := cands } := by
  rw [linkStep, linkBlock, offerCandidate]
  split
  · exact ⟨s.setBlockIndexCandidates, rfl⟩
  · exact ⟨s.setBlockIndexCandidates.insert b, rfl⟩

theorem entry_linkStep (x : β) : (s.linkStep T b).entry x =
    if x = b then { s.entry x with
      nChainTx := s.parentChainTx T b + (s.entry x).nTx, nSequenceId := s.nBlockSequenceId }
    else s.entry x := by
  obtain ⟨cands, heq⟩ := @linkStep_eq β _ T s b
  rw [heq]
  rfl

theorem nStatus_linkStep (x : β) : ((s.linkStep T b).entry x).nStatus = (s.entry x).nStatus := by
  rw [entry_linkStep]
  split <;> rfl

theorem haveData_linkStep (x : β) : ((s.linkStep T b).entry x).haveData = (s.entry x).haveData := by
  rw [entry_linkStep]
  split <;> rfl

theorem mem_unlinked_linkStep {e : β × β} :
    e ∈ (s.linkStep T b).mapBlocksUnlinked ↔ e ∈ s.mapBlocksUnlinked ∧ e.1 ≠ b := by
  obtain ⟨cands, heq⟩ := @linkStep_eq β _ T s b
  rw [heq]
  rw [mem_filter, decide_eq_true_eq]

theorem fields_linkStep : (s.linkStep T b).mapBlockIndex = s.mapBlockIndex ∧
    (s.linkStep T b).tip = s.tip ∧ (s.linkStep T b).addr = s.addr ∧
    (s.linkStep T b).nBlockSequenceId = s.nBlockSequenceId + 1 ∧
    (s.linkStep T b).mapBlocksUnlinked = s.mapBlocksUnlinked.filter fun e => decide (e.1 ≠ b) := by
  obtain ⟨cands, heq⟩ := @linkStep_eq β _ T s b
  rw [heq]
  exact ⟨rfl, rfl, rfl, rfl, rfl⟩

theorem mem_unlinkedOf : c ∈ s.unlinkedOf b ↔ (b, c) ∈ s.mapBlocksUnlinked := by
  simp [unlinkedOf]

theorem nodup_unlinkedOf (h : s.mapBlocksUnlinked.Nodup) : (s.unlinkedOf b).Nodup := by
  refine List.Nodup.map_on ?_ (h.filter _)
  rintro ⟨q, c⟩ hq ⟨r, d⟩ hr hcd
  rw [mem_filter, decide_eq_true_eq] at hq hr
  exact Prod.ext (hq.2.trans hr.2.symm) hcd

/-- A round moves entries from `mapBlocksUnlinked` to the queue. -/
theorem length_linkStep : (s.unlinkedOf b).length + (s.linkStep T b).mapBlocksUnlinked.length =
    s.mapBlocksUnlinked.length := by
  have hsplit := s.mapBlocksUnlinked.length_eq_length_filter_add fun e => decide (e.1 = b)
  simpa only [fields_linkStep.2.2.2.2, unlinkedOf, length_map, ne_eq, decide_not] using hsplit.symm

theorem sortKey_linkStep (hx : x ≠ b) : (s.linkStep T b).sortKey T x = s.sortKey T x := by
  refine sortKey_congr ?_ fields_linkStep.2.2.1
  rw [entry_linkStep, if_neg hx]

theorem mem_candidates_linkStep : x ∈ (s.linkStep T b).setBlockIndexCandidates ↔
    x ∈ s.setBlockIndexCandidates ∨
      x = b ∧ (s.linkStep T b).sortKey T s.tip ≤ (s.linkStep T b).sortKey T b := by
  rw [linkStep, linkBlock, offerCandidate]
  split
  case isTrue hless =>
    rw [workLess_iff] at hless
    exact (or_iff_left fun hand => absurd hand.2 (not_le.mpr hless)).symm
  case isFalse hless =>
    rw [not_eq_true, workLess_eq_false_iff] at hless
    exact mem_insert_iff.trans (Or.comm.trans (or_congr_right (and_iff_left hless).symm))

section Round

variable (h : s.Stored T (b :: queue))

include h

theorem linked_linkStep : (s.linkStep T b).Linked x ↔ s.Linked x ∨ x = b := by
  rw [Linked, entry_linkStep]
  by_cases hx : x = b
  · rw [if_pos hx, hx]
    refine iff_of_true (fun hzero => ?_) (.inr rfl)
    -- a block with data has transactions
    have htx : (s.entry b).nTx = 0 := (Nat.add_eq_zero_iff.mp hzero).2
    rw [← h.data_tx, (h.queued b mem_cons_self).1] at htx
    exact Bool.noConfusion htx
  · rw [if_neg hx]
    exact ⟨.inl, fun hor => hor.resolve_right hx⟩

theorem unlinkedOf_spec (hc : c ∈ s.unlinkedOf b) :
    T.parent c = some b ∧ (s.entry c).haveData = true ∧ ¬ s.Linked c := by
  obtain ⟨hp, hd, hnl⟩ := h.unlinked_sound b c (mem_unlinkedOf.mp hc)
  exact ⟨hp, hd, fun hlc => hnl (h.linked_parent c b hlc hp)⟩

theorem stored_linkStep : (s.linkStep T b).Stored T (queue ++ s.unlinkedOf b) := by
  obtain ⟨hmap, -, -, hcount, hunl⟩ := @fields_linkStep β _ T s b
  obtain ⟨hdb, hnlb, p, hp, hlp⟩ := h.queued b mem_cons_self
  have hlink : ∀ x, (s.linkStep T b).Linked x ↔ s.Linked x ∨ x = b := fun x => linked_linkStep h
  have hfail : ∀ x, ((s.linkStep T b).entry x).failed = (s.entry x).failed := fun x =>
    failed_of_nStatus (nStatus_linkStep x)
  exact
    { root_known := hmap ▸ h.root_known
      parent_known := hmap ▸ h.parent_known
      unknown := fun x hx => by
        rw [hmap] at hx
        have hne : x ≠ b := fun he => hx (he ▸ h.data_known hdb)
        rw [entry_linkStep, if_neg hne]
        exact h.unknown x hx
      data_tx := fun x => by
        rw [entry_linkStep]
        split <;> exact h.data_tx x
      root_linked := (hlink _).mpr (.inl h.root_linked)
      linked_data := by
        simp only [hlink, haveData_linkStep]
        rintro x (hx | rfl)
        · exact h.linked_data x hx
        · exact hdb
      linked_parent := by
        simp only [hlink]
        rintro x q (hx | rfl) hq
        · exact .inl (h.linked_parent x q hx hq)
        · rw [hp] at hq
          exact .inl (Option.some.inj hq ▸ hlp)
      linked_child := by
        simp only [hlink, haveData_linkStep, mem_append, mem_unlinkedOf]
        rintro x q hx hq (hlq | rfl)
        · have hchild := h.linked_child x q hx hq hlq
          rw [mem_cons, ← or_assoc] at hchild
          exact hchild.imp_right .inl
        · -- the children of `b` were waiting, since `b` has data
          rcases h.unlinked_complete q x hx hq hnlb with hmem | ⟨-, hnd⟩
          · exact .inr (.inr hmem)
          · exact absurd (hnd.symm.trans hdb) false_ne_true
      seq_unlinked := by
        simp only [hlink, not_or, entry_linkStep]
        rintro x ⟨hnl, hne⟩
        rw [if_neg hne]
        exact h.seq_unlinked x hnl
      seq_lt := fun x => by
        rw [hcount, entry_linkStep]
        split
        · exact lt_succ_self _
        · exact lt_succ_of_lt (h.seq_lt x)
      unlinked_sound := by
        simp only [hlink, not_or, haveData_linkStep, mem_unlinked_linkStep]
        rintro q x ⟨hmem, hqb⟩
        obtain ⟨hq, hxd, hnl⟩ := h.unlinked_sound q x hmem
        exact ⟨hq, hxd, hnl, hqb⟩
      unlinked_complete := by
        simp only [hlink, not_or, haveData_linkStep, hfail, mem_unlinked_linkStep]
        rintro q x hx hq ⟨hnq, hqb⟩
        exact (h.unlinked_complete q x hx hq hnq).imp_left (⟨·, hqb⟩)
      unlinked_nodup := hunl ▸ h.unlinked_nodup.filter _
      failed_unlinked := by
        simp only [hlink, not_or, haveData_linkStep, hfail]
        exact fun x hf hnl => h.failed_unlinked x hf hnl.1
      queued := by
        -- the members of the new queue are children of linked blocks, and not linked themselves
        simp only [hlink, not_or, haveData_linkStep, mem_append]
        rintro x (hx | hx)
        · obtain ⟨hxd, hxl, q, hq, hlq⟩ := h.queued x (mem_cons_of_mem b hx)
          exact ⟨hxd, ⟨hxl, fun he => (nodup_cons.mp h.queue_nodup).1 (he ▸ hx)⟩, q, hq, .inl hlq⟩
        · obtain ⟨hxp, hxd, hxl⟩ := unlinkedOf_spec h hx
          refine ⟨hxd, ⟨hxl, fun he => ?_⟩, b, hxp, .inr rfl⟩
          have hh := T.height_parent x b hxp
          rw [he] at hh
          omega
      queue_nodup := by
        refine List.Nodup.append (nodup_cons.mp h.queue_nodup).2
          (nodup_unlinkedOf h.unlinked_nodup) fun x hx hx' => ?_
        -- a child of `b` is not in the queue: its parent is not linked yet
        obtain ⟨-, -, q, hq, hlq⟩ := h.queued x (mem_cons_of_mem b hx)
        rw [(unlinkedOf_spec h hx').1] at hq
        exact hnlb (Option.some.inj hq ▸ hlq) }

end Round

/-- One round of the queue keeps the invariant. -/
theorem indexInv_linkStep (h : s.IndexInv T (b :: queue) s.tip) :
    (s.linkStep T b).IndexInv T (queue ++ s.unlinkedOf b) s.tip := by
  obtain ⟨hmap, htip, -, -, -⟩ := @fields_linkStep β _ T s b
  have hst := h.stored
  have hlink : ∀ x, (s.linkStep T b).Linked x ↔ s.Linked x ∨ x = b := fun x => linked_linkStep hst
  have hne : ∀ x, s.Linked x → x ≠ b := fun x hx he =>
    (hst.queued b mem_cons_self).2.1 (he ▸ hx)
  have hkey : ∀ x, s.Linked x → (s.linkStep T b).sortKey T x = s.sortKey T x := fun x hx =>
    sortKey_linkStep (hne x hx)
  have hfail : ∀ x, ((s.linkStep T b).entry x).failed = (s.entry x).failed := fun x =>
    failed_of_nStatus (nStatus_linkStep x)
  have hvalid : ∀ x, ((s.linkStep T b).entry x).nValid = (s.entry x).nValid := fun x => by
    rw [entry_linkStep]
    split <;> rfl
  have hltip := h.anchored.solid.linked
  exact
    { stored := stored_linkStep hst
      levels := h.levels.congr hmap hvalid haveData_linkStep
      marks := h.marks.congr nStatus_linkStep
      anchored := h.anchored.congr htip (fun hx => (hlink _).mpr (.inl hx))
        (fun a _ ha => (hfail a).trans ha) fun a _ => hvalid a
      candidates :=
        { linked := fun x hx => (hlink x).mpr
            ((mem_candidates_linkStep.mp hx).imp (h.candidates.linked x) And.left)
          above := fun x hx => by
            rw [htip]
            rcases mem_candidates_linkStep.mp hx with hx | ⟨rfl, hle⟩
            · rw [hkey _ hltip, hkey x (h.candidates.linked x hx)]
              exact h.candidates.above x hx
            · exact hle
          complete := fun x hx hf hle => by
            rw [hfail] at hf
            rcases (hlink x).mp hx with hx | rfl
            · rw [hkey _ hltip, hkey x hx] at hle
              exact mem_candidates_linkStep.mpr (.inl (h.candidates.complete x hx hf hle))
            · exact mem_candidates_linkStep.mpr (.inr ⟨rfl, hle⟩) } }

/-- With enough rounds the queue runs empty. -/
theorem indexInv_linkQueue {n : Nat} (hn : queue.length + s.mapBlocksUnlinked.length ≤ n)
    (h : s.IndexInv T queue s.tip) :
    (linkQueue T n queue s).tip = s.tip ∧ (linkQueue T n queue s).IndexInv T [] s.tip := by
  induction n generalizing queue s with
  | zero =>
    obtain rfl : queue = [] := length_eq_zero_iff.mp (by omega)
    exact ⟨rfl, h⟩
  | succ n ih =>
    rcases queue with _ | ⟨b, queue⟩
    · exact ⟨rfl, h⟩
    have htip : (s.linkStep T b).tip = s.tip := fields_linkStep.2.1
    have hsize : (queue ++ s.unlinkedOf b).length +
        (s.linkStep T b).mapBlocksUnlinked.length ≤ n := by
      have hmoved := @length_linkStep β _ T s b
      rw [length_cons] at hn
      rw [length_append]
      omega
    have hnext := ih hsize (htip.symm ▸ indexInv_linkStep h)
    rw [htip] at hnext
    exact hnext

/-! ## Whole calls -/

omit [DecidableEq β] in
theorem not_mem_unlinked (hst : s.Stored T queue) (hw : s.Awaited T b p) :
    (p, b) ∉ s.mapBlocksUnlinked := fun hmem =>
  ne_true_of_eq_false hw.noData ((hst.unlinked_sound p b hmem).2.1)

/-- Below a linked parent the block starts the queue. -/
theorem stored_storeData_linked (hst : s.Stored T []) (hl : s.Levels T) (hw : s.Awaited T b p)
    (hlp : s.Linked p) : (s.storeData T b).Stored T [b] :=
  @stored_storeData β _ T s b p [b] hw s.mapBlocksUnlinked hst hl (fun _ he => he)
    (fun _ he => .inl he) hst.unlinked_nodup (fun _ hx => ⟨mem_singleton.mp hx, hlp⟩)
    (nodup_singleton b) (fun _ => mem_singleton_self b) (fun hnl => absurd hlp hnl)

theorem receivedBlockTransactions_inv (h : s.IndexInv T [] s.tip) (hw : s.Awaited T b p) :
    (s.receivedBlockTransactions T b).tip = s.tip ∧
      (s.receivedBlockTransactions T b).IndexInv T [] s.tip := by
  have hst := h.stored
  rw [receivedBlockTransactions, hw.parent]
  dsimp only
  split_ifs with hlp hvalid
  · -- the parent is linked: the block starts the queue
    have hinv := indexInv_storeData hw h (stored_storeData_linked hst h.levels hw hlp)
    exact indexInv_linkQueue (by rw [length_singleton, add_comm]; rfl) hinv
  · -- the parent is not linked: the block waits for it
    have hnl : ¬ s.Linked p := hlp
    have hnodup : (s.mapBlocksUnlinked ++ [(p, b)]).Nodup := by
      rw [nodup_append]
      refine ⟨hst.unlinked_nodup, nodup_singleton _, fun e he e' he' heq => ?_⟩
      rw [heq, mem_singleton.mp he'] at he
      exact not_mem_unlinked hst hw he
    have hstored := @stored_storeData β _ T s b p [] hw (s.mapBlocksUnlinked ++ [(p, b)]) hst
      h.levels (fun e he => mem_append_left _ he)
      (fun e he => (mem_append.mp he).imp_right fun he => ⟨mem_singleton.mp he, hnl⟩)
      hnodup (fun x hx => absurd hx not_mem_nil) nodup_nil (fun hl => absurd hl hnl)
      (fun _ => .inl (mem_append_right _ (mem_singleton_self _)))
    exact ⟨rfl, indexInv_storeData hw h hstored⟩
  · -- the parent is marked: the block is stored only
    have hnl : ¬ s.Linked p := hlp
    have hknown := hst.parent_known b hw.known p hw.parent
    have hfailed : (s.entry p).failed = true := by
      by_contra hnf
      exact hvalid (isValid_iff.mpr ⟨not_eq_true _ ▸ hnf, h.levels.tree p hknown⟩)
    have hstored := @stored_storeData β _ T s b p [] hw s.mapBlocksUnlinked hst h.levels
      (fun e he => he) (fun e he => .inl he) hst.unlinked_nodup
      (fun x hx => absurd hx not_mem_nil) nodup_nil (fun hl => absurd hl hnl)
      (fun _ => .inr hfailed)
    exact ⟨rfl, indexInv_storeData hw h hstored⟩

omit [DecidableEq β] in
theorem Stored.exists_parent_of_noData (h : s.Stored T queue)
    (hdata : (s.entry b).haveData = false) : ∃ p, T.parent b = some p := by
  refine exists_parent fun he => ?_
  rw [he, h.linked_data _ h.root_linked] at hdata
  exact Bool.noConfusion hdata

/-- What `AcceptBlock` did, if anything: the header was accepted, and then the data was there
already, was stored, or was refused. -/
theorem acceptBlock_cases (h : s.IndexInv T [] s.tip) (b : β) (checked : Bool) :
    s.acceptBlock T b checked = s ∨ ∃ s1, s.acceptBlockHeader T b = some s1 ∧
      (s.acceptBlock T b checked = s1 ∨ ∃ p, s1.Awaited T b p ∧
        (s.acceptBlock T b checked = s1.receivedBlockTransactions T b ∨
          s.acceptBlock T b checked = s1.failValid b s1.setBlockIndexCandidates)) := by
  rw [acceptBlock]
  rcases hok : s.acceptBlockHeader T b with _ | s1
  · exact .inl rfl
  obtain ⟨-, hinv, hknown, hunmarked⟩ := acceptBlockHeader_inv h hok
  refine .inr ⟨s1, rfl, ?_⟩
  dsimp only
  split_ifs with hdata hchecked
  · exact .inl rfl
  all_goals
    rw [not_eq_true] at hdata
    obtain ⟨p, hp⟩ := hinv.stored.exists_parent_of_noData hdata
  · exact .inr ⟨p, ⟨hknown, hunmarked, hdata, hp⟩, .inl rfl⟩
  · exact .inr ⟨p, ⟨hknown, hunmarked, hdata, hp⟩, .inr rfl⟩

theorem acceptBlock_inv (h : s.IndexInv T [] s.tip) (b : β) (checked : Bool) :
    (s.acceptBlock T b checked).tip = s.tip ∧ (s.acceptBlock T b checked).IndexInv T [] s.tip := by
  rcases acceptBlock_cases h b checked with heq | ⟨s1, hok, hcases⟩
  · rw [heq]
    exact ⟨rfl, h⟩
  obtain ⟨htip, hinv, -, -⟩ := acceptBlockHeader_inv h hok
  rw [← htip]
  rcases hcases with heq | ⟨p, hw, heq | heq⟩ <;> rw [heq]
  · exact ⟨rfl, hinv⟩
  · exact receivedBlockTransactions_inv hinv hw
  · refine ⟨rfl, indexInv_failValid hinv hw.known (.inr hw.noData) (fun hb => ?_)
      (fun x hx => hx) fun x hx _ => hx⟩
    exact hw.not_linked hinv.stored
      (hinv.stored.linked_of_mem_pathTo hinv.anchored.solid.linked hb)

end IndexState

end MonetaryUnit
