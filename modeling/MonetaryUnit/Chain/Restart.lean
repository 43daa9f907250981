/-
# MonetaryUnit.Chain.Restart — the block index after a restart, and the first-seen rule

`LoadBlockIndexDB` rebuilds the index from the entries that the database has kept and the hash of
the best block. Totals, sequence numbers, the candidate set and `mapBlocksUnlinked` are computed
again, and the objects get new addresses. A `BLOCK_FAILED_CHILD` that `FindMostWorkChain` has set
may be lost, since it does not make the entry dirty.

The rebuilt index satisfies the invariant of the old one (`loadBlockIndexDB_spec`). What does not
survive is the order of arrival: all sequence numbers are 0, and the address decides between blocks
of equal work. `firstSeen_iff` says when a run keeps the rule that `ActivateBestChain` does not
replace the tip by another block of the same work: after every restart the tip has the lowest
address among the good blocks of its work, or a good block with more work is known.
-/

import Mathlib.Data.List.Sort
import MonetaryUnit.Chain.BestChain

namespace MonetaryUnit

open Lib List Option IndexEntry Nat

namespace IndexState

variable {β : Type} [DecidableEq β]

/-! ## `LoadBlockIndexDB` -/

section Load

variable (T : BlockTree β)

/-- `LoadBlockIndexGuts`: the stored entries in new objects. The marks of the blocks in `lost` were
not written. -/
def loadBlockIndexGuts (s : IndexState β) (lost : β → Bool) (addr : β ↪ Nat) : IndexState β where
  mapBlockIndex := s.mapBlockIndex
  entry := fun x => { s.entry x with
    failedChild := (s.entry x).failedChild && !lost x
    nChainTx := 0
    nSequenceId := 0 }
  setBlockIndexCandidates := []
  mapBlocksUnlinked := []
  tip := s.tip
  nBlockSequenceId := 1
  addr := addr

/-- The order of the pairs of height and address. -/
def HeightLe (s : IndexState β) (a b : β) : Prop :=
  T.height a < T.height b ∨ T.height a = T.height b ∧ s.addr a ≤ s.addr b

instance (s : IndexState β) : DecidableRel (s.HeightLe T) := fun a b =>
  inferInstanceAs (Decidable (T.height a < T.height b ∨ T.height a = T.height b ∧
    s.addr a ≤ s.addr b))

def vSortedByHeight (s : IndexState β) : List β := s.mapBlockIndex.insertionSort (s.HeightLe T)

/-- The total of one entry, or its place in `mapBlocksUnlinked`. -/
def loadChainTx (s : IndexState β) (b : β) : IndexState β :=
  if (s.entry b).haveData then
    match T.parent b with
    | some p =>
      if (s.entry p).nChainTx ≠ 0 then
        s.modify b fun e => { e with nChainTx := (s.entry p).nChainTx + e.nTx }
      else
        { s.modify b (fun e => { e with nChainTx := 0 }) with
          mapBlocksUnlinked := s.mapBlocksUnlinked ++ [(p, b)] }
    | none => s.modify b fun e => { e with nChainTx := e.nTx }
  else s

/-- The place of one entry in the candidate set. -/
def loadCandidate (s : IndexState β) (b : β) : IndexState β :=
  if (s.entry b).isValid BLOCK_VALID_TRANSACTIONS ∧
      ((s.entry b).nChainTx ≠ 0 ∨ T.parent b = none) then
    { s with setBlockIndexCandidates := s.setBlockIndexCandidates.insert b }
  else s

/-- The body of the loop over the entries. -/
def loadEntry (s : IndexState β) (b : β) : IndexState β := (s.loadChainTx T b).loadCandidate T b

def loadBlockIndexDB (s : IndexState β) (lost : β → Bool) (addr : β ↪ Nat) :
    Option (IndexState β) :=
  let loaded := s.loadBlockIndexGuts lost addr
  ((loaded.vSortedByHeight T).foldl (loadEntry T) loaded).pruneBlockIndexCandidates T

end Load

variable {T : BlockTree β} {s s' : IndexState β} {a b p x : β} {queue done : List β}

/-! ## The loop over the entries -/

/-- What the loop builds: the totals, the candidates and the pairs that wait. -/
structure Rebuilt (β : Type) where
  total : β → Nat
  candidates : List β
  unlinked : List (β × β)

/-- The state of the loop over the entries of `s`. -/
def Rebuilt.state (r : Rebuilt β) (s : IndexState β) (lost : β → Bool) (addr : β ↪ Nat) :
    IndexState β :=
  { s.loadBlockIndexGuts lost addr with
    entry := fun x => { (s.loadBlockIndexGuts lost addr).entry x with nChainTx := r.total x }
    setBlockIndexCandidates := r.candidates
    mapBlocksUnlinked := r.unlinked }

/-- What has been built once the blocks of `done` are loaded. -/
structure Loaded (T : BlockTree β) (s : IndexState β) (lost : β → Bool) (addr : β ↪ Nat)
    (done : List β) (r : Rebuilt β) : Prop where
  linked : ∀ x, r.total x ≠ 0 ↔ x ∈ done ∧ s.Linked x
  candidates : ∀ x, x ∈ r.candidates ↔
    x ∈ done ∧ s.Linked x ∧ ((s.loadBlockIndexGuts lost addr).entry x).failed = false
  unlinked : ∀ p x, (p, x) ∈ r.unlinked ↔
    x ∈ done ∧ T.parent x = some p ∧ (s.entry x).haveData = true ∧ ¬ s.Linked p
  nodup : r.unlinked.Nodup

variable {lost : β → Bool} {addr : β ↪ Nat} {r : Rebuilt β}

section Loop

omit [DecidableEq β] in
theorem loaded_nil : Loaded T s lost addr [] ⟨fun _ => 0, [], []⟩ where
  linked := by simp
  candidates := by simp
  unlinked := by simp
  nodup := nodup_nil

/-- A new total for `b`. -/
theorem modify_state (r : Rebuilt β) (total : IndexEntry → Nat) :
    (r.state s lost addr).modify b (fun e => { e with nChainTx := total e }) =
      { r with total := Function.update r.total b (total ((r.state s lost addr).entry b)) }.state s
        lost addr := by
  refine congrArg (fun entry => { r.state s lost addr with entry }) (funext fun x => ?_)
  by_cases hx : x = b <;> simp [hx, Rebuilt.state]

theorem loadChainTx_spec (hst : s.Stored T []) (h : Loaded T s lost addr done r) (hb : b ∉ done)
    (hparent : ∀ p, T.parent b = some p → p ∈ done) :
    ∃ n unlinked, (r.state s lost addr).loadChainTx T b =
        { r with total := Function.update r.total b n, unlinked }.state s lost addr ∧
      (n ≠ 0 ↔ s.Linked b) ∧ (∀ p x, (p, x) ∈ unlinked ↔ (p, x) ∈ r.unlinked ∨
        x = b ∧ T.parent x = some p ∧ (s.entry x).haveData = true ∧ ¬ s.Linked p) ∧
      unlinked.Nodup := by
  -- no pair is added when the block has no data or its parent is linked
  have hsame : (∀ p, T.parent b = some p → (s.entry b).haveData = true → s.Linked p) →
      ∀ p x, (p, x) ∈ r.unlinked ↔ (p, x) ∈ r.unlinked ∨
        x = b ∧ T.parent x = some p ∧ (s.entry x).haveData = true ∧ ¬ s.Linked p := by
    refine fun hnone p x => ⟨.inl, fun hor => hor.elim id ?_⟩
    rintro ⟨rfl, hp, hdata, hnl⟩
    exact absurd (hnone p hp hdata) hnl
  have hhave : ((r.state s lost addr).entry b).haveData = (s.entry b).haveData := rfl
  rw [loadChainTx, hhave]
  by_cases hdata : (s.entry b).haveData = true
  · rw [if_pos hdata]
    have htx : (s.entry b).nTx ≠ 0 := fun hzero =>
      Bool.false_ne_true (((hst.data_tx b).mpr hzero).symm.trans hdata)
    rcases hp : T.parent b with _ | p
    · -- the genesis block
      have hlinked : s.Linked b := (T.parent_eq_none b).mp hp ▸ hst.root_linked
      refine ⟨_, _, modify_state r nTx, iff_of_true htx hlinked, hsame fun p hp' => ?_, h.nodup⟩
      exact absurd (hp.symm.trans hp') (some_ne_none p).symm
    dsimp only
    have hlinkedp : ((r.state s lost addr).entry p).nChainTx ≠ 0 ↔ s.Linked p :=
      (h.linked p).trans (and_iff_right (hparent p hp))
    by_cases hlp : s.Linked p
    · rw [if_pos (hlinkedp.mpr hlp)]
      have hlinked := (hst.linked_child b p hdata hp hlp).resolve_right not_mem_nil
      refine ⟨_, _, modify_state r _, iff_of_true ?_ hlinked, hsame fun q hq _ => ?_, h.nodup⟩
      · exact fun hzero => htx (Nat.add_eq_zero_iff.mp hzero).2
      · exact some.inj (hp.symm.trans hq) ▸ hlp
    · rw [if_neg (fun hne => hlp (hlinkedp.mp hne)), modify_state]
      refine ⟨0, r.unlinked ++ [(p, b)], rfl,
        iff_of_false (fun hne => hne rfl) fun hl => hlp (hst.linked_parent b p hl hp),
        fun q x => ?_, ?_⟩
      · rw [mem_append, mem_singleton, Prod.mk.injEq]
        refine or_congr_right ⟨?_, ?_⟩
        · rintro ⟨rfl, rfl⟩
          exact ⟨rfl, hp, hdata, hlp⟩
        · rintro ⟨rfl, hq, -, -⟩
          exact ⟨some.inj (hq.symm.trans hp), rfl⟩
      · rw [nodup_append]
        refine ⟨h.nodup, nodup_singleton _, fun e he e' he' heq => ?_⟩
        rw [heq, mem_singleton.mp he'] at he
        exact hb ((h.unlinked p b).mp he).1
  · rw [if_neg hdata]
    have hnl : ¬ s.Linked b := fun hl => hdata (hst.linked_data b hl)
    refine ⟨r.total b, r.unlinked, ?_,
      iff_of_false (fun hne => hb ((h.linked b).mp hne).1) hnl,
      hsame fun _ _ hd => absurd hd hdata, h.nodup⟩
    rw [Function.update_eq_self]

section

variable (hst : s.Stored T []) (hl : s.Levels T) (h : Loaded T s lost addr done r)
include hst hl h

theorem loadEntry_spec (hb : b ∉ done) (hparent : ∀ p, T.parent b = some p → p ∈ done) :
    ∃ r', (r.state s lost addr).loadEntry T b = Rebuilt.state r' s lost addr ∧
      Loaded T s lost addr (done ++ [b]) r' := by
  obtain ⟨n, unlinked, heq, hn, hunlinked, hnodup⟩ := loadChainTx_spec hst h hb hparent
  let r1 : Rebuilt β := { r with total := Function.update r.total b n, unlinked }
  -- the test of the candidate set
  have htotal : ((r1.state s lost addr).entry b).nChainTx = n := by
    show Function.update r.total b n b = n
    rw [Function.update_self]
  have hvalid : ((r1.state s lost addr).entry b).isValid BLOCK_VALID_TRANSACTIONS = true ∧
      (((r1.state s lost addr).entry b).nChainTx ≠ 0 ∨ T.parent b = none) ↔
      s.Linked b ∧ ((s.loadBlockIndexGuts lost addr).entry b).failed = false := by
    have hor : n ≠ 0 ∨ T.parent b = none ↔ s.Linked b := by
      rw [hn]
      exact or_iff_left_of_imp fun hp => (T.parent_eq_none b).mp hp ▸ hst.root_linked
    rw [htotal, hor, and_comm, isValid_iff]
    refine and_congr_right fun hlb => and_iff_left ?_
    exact (hl.transactions b (hst.linked_known hlb)).mpr (hst.linked_data b hlb)
  obtain ⟨cands, hload, hmem⟩ : ∃ cands, (r1.state s lost addr).loadCandidate T b =
      { r1.state s lost addr with setBlockIndexCandidates := cands } ∧
      ∀ x, x ∈ cands ↔ x ∈ r.candidates ∨ x = b ∧ _ := insertCandidate_eq
  refine ⟨{ r1 with candidates := cands }, ?_, ?_⟩
  · rw [loadEntry, heq]
    exact hload
  exact
    { linked := fun x => by
        show Function.update r.total b n x ≠ 0 ↔ _
        rw [mem_append, mem_singleton]
        by_cases hx : x = b
        · rw [hx, Function.update_self, hn]
          exact (and_iff_right (.inr rfl)).symm
        · rw [Function.update_of_ne hx, or_iff_left hx]
          exact h.linked x
      candidates := fun x => by
        rw [hmem, hvalid, h.candidates, mem_append, mem_singleton, or_and_right]
        refine or_congr_right (and_congr_right fun hx => ?_)
        rw [hx]
      unlinked := fun q x => by
        rw [hunlinked, h.unlinked, mem_append, mem_singleton, or_and_right]
      nodup := hnodup }

/-- A list in which no block stands before its parent. -/
theorem loaded_foldl {rest : List β} (hnodup : (done ++ rest).Nodup)
    (hsorted : rest.Pairwise fun a b => T.height a ≤ T.height b)
    (hclosed : ∀ b ∈ rest, ∀ p, T.parent b = some p → p ∈ done ++ rest) :
    ∃ r', rest.foldl (loadEntry T) (r.state s lost addr) = Rebuilt.state r' s lost addr ∧
      Loaded T s lost addr (done ++ rest) r' := by
  induction rest generalizing done r with
  | nil => exact ⟨r, rfl, by rwa [append_nil]⟩
  | cons b rest ih =>
    have hb : b ∉ done := fun hmem =>
      (nodup_append.mp hnodup).2.2 b hmem b mem_cons_self rfl
    have hparent : ∀ p, T.parent b = some p → p ∈ done := by
      intro p hp
      have hlt : T.height p < T.height b := by
        rw [T.height_parent b p hp]
        exact lt_succ_self _
      rcases mem_append.mp (hclosed b mem_cons_self p hp) with hd | hr
      · exact hd
      · rcases mem_cons.mp hr with rfl | hr
        · exact absurd hlt (lt_irrefl _)
        · exact absurd hlt (not_lt.mpr ((pairwise_cons.mp hsorted).1 p hr))
    obtain ⟨r1, heq, hloaded⟩ := loadEntry_spec hst hl h hb hparent
    rw [append_cons] at hnodup hclosed ⊢
    rw [foldl_cons, heq]
    exact ih hloaded hnodup (pairwise_cons.mp hsorted).2
      fun c hc => hclosed c (mem_cons_of_mem b hc)

end

omit [DecidableEq β] in
theorem pairwise_vSortedByHeight (s : IndexState β) :
    (s.vSortedByHeight T).Pairwise fun a b => T.height a ≤ T.height b := by
  have htotal : Std.Total (s.HeightLe T) := ⟨fun a b => by
    rw [HeightLe, HeightLe]
    omega⟩
  have htrans : IsTrans β (s.HeightLe T) := ⟨fun a b c hab hbc => by
    rw [HeightLe] at hab hbc ⊢
    omega⟩
  exact (pairwise_insertionSort (s.HeightLe T) s.mapBlockIndex).imp fun hab =>
    hab.elim le_of_lt fun hab => hab.1.le

end Loop

/-! ## The rebuilt index -/

/-- What a restart keeps of `s`: everything but the sequence numbers, the addresses and some marks
of blocks below failed ones. -/
structure Restarted (s : IndexState β) (addr : β ↪ Nat) (s' : IndexState β) : Prop where
  map : s'.mapBlockIndex = s.mapBlockIndex
  tip : s'.tip = s.tip
  addr : s'.addr = addr
  nSequenceId : ∀ x, (s'.entry x).nSequenceId = 0
  haveData : ∀ x, (s'.entry x).haveData = (s.entry x).haveData
  nValid : ∀ x, (s'.entry x).nValid = (s.entry x).nValid
  nTx : ∀ x, (s'.entry x).nTx = (s.entry x).nTx
  linked : ∀ x, s'.Linked x ↔ s.Linked x
  failedValid : ∀ x, (s'.entry x).failedValid = (s.entry x).failedValid
  failed : ∀ x, (s'.entry x).failed = true → (s.entry x).failed = true

section Rebuilt

omit [DecidableEq β]

/-- The marks that were written. -/
theorem failed_loadBlockIndexGuts (h : ((s.loadBlockIndexGuts lost addr).entry x).failed = true) :
    (s.entry x).failed = true := by
  have hor : ((s.entry x).failedValid || ((s.entry x).failedChild && !lost x)) = true := h
  rw [Bool.or_eq_true, Bool.and_eq_true] at hor
  rw [failed, Bool.or_eq_true]
  exact hor.imp_right And.left

variable (hst : s.Stored T []) (h : Loaded T s lost addr done r)
  (hdone : ∀ x ∈ s.mapBlockIndex, x ∈ done)

include hst h hdone

theorem Loaded.restarted : Restarted s addr ((r.state s lost addr).pruned T) where
  map := rfl
  tip := rfl
  addr := rfl
  nSequenceId := fun _ => rfl
  haveData := fun _ => rfl
  nValid := fun _ => rfl
  nTx := fun _ => rfl
  linked := fun x =>
    (h.linked x).trans ⟨And.right, fun hl => ⟨hdone x (hst.linked_known hl), hl⟩⟩
  failedValid := fun _ => rfl
  failed := fun x => @failed_loadBlockIndexGuts β s x lost addr

theorem Loaded.stored : ((r.state s lost addr).pruned T).Stored T [] := by
  have hr := h.restarted hst hdone
  refine hst.transfer hst.root_known hst.parent_known (fun x hx => ?_) hr.haveData hr.nTx hr.linked
    (fun x => ⟨fun _ => rfl, zero_lt_one⟩) (fun q x hx => ((h.unlinked q x).mp hx).2)
    (fun q x hx hq hnl => ?_) h.nodup fun x hf => hst.failed_unlinked x (hr.failed x hf)
  · have hzero : r.total x = 0 := by
      by_contra hne
      exact hx (hst.linked_known ((hr.linked x).mp hne))
    show { (s.loadBlockIndexGuts lost addr).entry x with nChainTx := r.total x } = _
    rw [hzero, loadBlockIndexGuts]
    dsimp only
    rw [hst.unknown x hx]
    rfl
  · exact .inl ((h.unlinked q x).mpr ⟨hdone x (hst.data_known hx), hq, hx, hnl⟩)

theorem Loaded.indexInv (hinv : s.IndexInv T [] s.tip) :
    ((r.state s lost addr).pruned T).IndexInv T [] s.tip := by
  have hr := h.restarted hst hdone
  have hunmarked : ∀ x, (s.entry x).failed = false →
      (((r.state s lost addr).pruned T).entry x).failed = false := fun x hx => by
    rw [← Bool.not_eq_true] at hx ⊢
    exact fun hf => hx (hr.failed x hf)
  exact
    { stored := h.stored hst hdone
      levels := hinv.levels.congr hr.map hr.nValid hr.haveData
      marks := fun x hx => (hinv.marks x (hr.failed x hx)).mono fun a ha =>
        (hr.failedValid a).trans ha
      anchored := hinv.anchored.congr hr.tip (hr.linked _).mpr (fun a _ => hunmarked a)
        fun a _ => hr.nValid a
      candidates :=
        { linked := fun x hx =>
            (h.linked x).mpr (((h.candidates x).mp (mem_pruned.mp hx).1).imp_right And.left)
          above := fun x hx => (mem_pruned.mp hx).2
          complete := fun x hx hf hle => by
            have hxs := (hr.linked x).mp hx
            exact mem_pruned.mpr ⟨(h.candidates x).mpr
              ⟨hdone x (hst.linked_known hxs), hxs, hf⟩, hle⟩ } }

end Rebuilt

/-- The load returns, and the invariant holds again. -/
theorem loadBlockIndexDB_spec (hinv : s.IndexInv T [] s.tip) (hnodup : s.mapBlockIndex.Nodup)
    (lost : β → Bool) (addr : β ↪ Nat) :
    ∃ s', s.loadBlockIndexDB T lost addr = some s' ∧ Restarted s addr s' ∧
      s'.IndexInv T [] s'.tip := by
  have hst := hinv.stored
  let loaded := s.loadBlockIndexGuts lost addr
  have hperm : (loaded.vSortedByHeight T).Perm s.mapBlockIndex := perm_insertionSort _ _
  obtain ⟨r, hfold, hloop⟩ := loaded_foldl hst hinv.levels (@loaded_nil β T s lost addr)
    (hperm.nodup_iff.mpr hnodup) (pairwise_vSortedByHeight loaded) fun b hb p hp =>
      hperm.mem_iff.mpr (hst.parent_known b (hperm.mem_iff.mp hb) p hp)
  have hdone : ∀ x ∈ s.mapBlockIndex, x ∈ loaded.vSortedByHeight T := fun x hx =>
    hperm.mem_iff.mpr hx
  have hr := hloop.restarted hst hdone
  have hnew := hloop.indexInv hst hdone hinv
  -- the tip is a candidate, so the assertion holds
  have htip : s.tip ∈ ((r.state s lost addr).pruned T).setBlockIndexCandidates :=
    hnew.bound_mem (hr.tip ▸ hnew.anchored.solid)
  exact ⟨_, (congrArg (pruneBlockIndexCandidates T) hfold).trans (prune_eq (mem_pruned.mp htip)), hr,
    hnew⟩

omit [DecidableEq β] in
theorem Restarted.faults (h : Restarted s addr s') (hf : s.Faults T) : s'.Faults T := fun x hx => by
  rw [h.failedValid] at hx
  rw [h.haveData]
  exact hf x hx

/-! ## Sequence numbers -/

/-- What the arrival of headers and blocks does to the data and to the order: a block that gets
linked gets a number above all earlier ones. -/
structure Arrived (s s' : IndexState β) : Prop where
  tip : s'.tip = s.tip
  addr : s'.addr = s.addr
  nodup : s.mapBlockIndex.Nodup → s'.mapBlockIndex.Nodup
  counter : s.nBlockSequenceId ≤ s'.nBlockSequenceId
  haveData : ∀ x, (s.entry x).haveData = true → (s'.entry x).haveData = true
  linked : ∀ x, s.Linked x → s'.Linked x
  known : ∀ x, s.Linked x → (s'.entry x).nSequenceId = (s.entry x).nSequenceId
  fresh : ∀ x, ¬ s.Linked x → s'.Linked x → s.nBlockSequenceId ≤ (s'.entry x).nSequenceId

omit [DecidableEq β] in
theorem Arrived.refl (s : IndexState β) : Arrived s s :=
  ⟨rfl, rfl, id, le_rfl, fun _ => id, fun _ => id, fun _ _ => rfl, fun _ hn hl => absurd hl hn⟩

omit [DecidableEq β] in
theorem Arrived.trans {s'' : IndexState β} (h : Arrived s s') (h' : Arrived s' s'') :
    Arrived s s'' where
  tip := h'.tip.trans h.tip
  addr := h'.addr.trans h.addr
  nodup := fun hn => h'.nodup (h.nodup hn)
  counter := h.counter.trans h'.counter
  haveData := fun x hx => h'.haveData x (h.haveData x hx)
  linked := fun x hx => h'.linked x (h.linked x hx)
  known := fun x hx => (h'.known x (h.linked x hx)).trans (h.known x hx)
  fresh := fun x hn hl => by
    by_cases hmid : s'.Linked x
    · rw [h'.known x hmid]
      exact h.fresh x hn hmid
    · exact h.counter.trans (h'.fresh x hmid hl)

theorem arrived_linkStep (h : s.Stored T (b :: queue)) : Arrived s (s.linkStep T b) := by
  obtain ⟨hmap, htip, haddr, hcounter, -⟩ := @fields_linkStep β _ T s b
  have hne : ∀ x, s.Linked x → x ≠ b := by
    rintro x hx rfl
    exact (h.queued x mem_cons_self).2.1 hx
  exact
    { tip := htip
      addr := haddr
      nodup := fun hn => hmap ▸ hn
      counter := hcounter ▸ le_succ _
      haveData := fun x hx => (haveData_linkStep x).trans hx
      linked := fun x hx => (linked_linkStep h).mpr (.inl hx)
      known := fun x hx => by rw [entry_linkStep, if_neg (hne x hx)]
      fresh := fun x hn hl => by
        have hx := ((linked_linkStep h).mp hl).resolve_left hn
        rw [entry_linkStep, if_pos hx] }

theorem arrived_linkQueue {n : Nat} (h : s.Stored T queue) : Arrived s (linkQueue T n queue s) := by
  induction n generalizing queue s with
  | zero => exact .refl s
  | succ n ih =>
    rcases queue with _ | ⟨b, queue⟩
    · exact .refl s
    · exact (arrived_linkStep h).trans (ih (stored_linkStep h))

theorem arrived_storeData (hst : s.Stored T []) (hl : s.Levels T) (hw : s.Awaited T b p) :
    Arrived s (s.storeData T b) where
  tip := rfl
  addr := rfl
  nodup := id
  counter := le_rfl
  haveData := fun _ hx => (haveData_storeData hw hl).mpr (.inl hx)
  linked := fun _ => (linked_storeData hw hst hl).mpr
  known := fun x _ => nSequenceId_storeData hw hl x
  fresh := fun _ hn hlinked => absurd ((linked_storeData hw hst hl).mp hlinked) hn

theorem arrived_receivedBlockTransactions (hst : s.Stored T []) (hl : s.Levels T)
    (hw : s.Awaited T b p) : Arrived s (s.receivedBlockTransactions T b) := by
  have hstore := arrived_storeData hst hl hw
  rw [receivedBlockTransactions, hw.parent]
  dsimp only
  split_ifs with hlp
  · exact hstore.trans (arrived_linkQueue (stored_storeData_linked hst hl hw hlp))
  · exact { hstore with }
  · exact hstore

omit [DecidableEq β] in
/-- With the data and the order as before, nothing has arrived. -/
theorem SameData.arrived (h : SameData s s') (htip : s'.tip = s.tip)
    (hnodup : s.mapBlockIndex.Nodup → s'.mapBlockIndex.Nodup)
    (hcounter : s'.nBlockSequenceId = s.nBlockSequenceId) : Arrived s s' where
  tip := htip
  addr := h.addr
  nodup := hnodup
  counter := hcounter.ge
  haveData := fun x hx => (h.haveData x).trans hx
  linked := fun _ => h.linked.mpr
  known := fun x _ => h.nSequenceId x
  fresh := fun _ hn hl => absurd (h.linked.mp hl) hn

theorem arrived_acceptBlockHeader (hst : s.Stored T [])
    (hok : s.acceptBlockHeader T b = some s') : Arrived s s' := by
  rcases acceptBlockHeader_eq hst hok with ⟨-, -, rfl⟩ | ⟨hb, rfl, -⟩
  · exact .refl s'
  · refine (sameData_addToBlockIndex hb hst).arrived rfl (fun hn => ?_) rfl
    exact nodup_append.mpr ⟨hn, nodup_singleton b, fun x hx y hy hxy =>
      hb (mem_singleton.mp hy ▸ hxy ▸ hx)⟩

theorem arrived_acceptBlock (h : s.IndexInv T [] s.tip) (b : β) (checked : Bool) :
    Arrived s (s.acceptBlock T b checked) := by
  rcases acceptBlock_cases h b checked with heq | ⟨s1, hok, hcases⟩
  · rw [heq]
    exact .refl s
  obtain ⟨-, hinv, -, -⟩ := acceptBlockHeader_inv h hok
  have hheader := arrived_acceptBlockHeader h.stored hok
  rcases hcases with heq | ⟨p, hw, heq | heq⟩ <;> rw [heq]
  · exact hheader
  · exact hheader.trans (arrived_receivedBlockTransactions hinv.stored hinv.levels hw)
  · exact hheader.trans
      ((marksGrow_failValid hw.known (.inr (.inr hw.noData))).data.arrived rfl id rfl)

/-! ## The first-seen rule -/

/-- `ActivateBestChain` does not replace the tip by another block of the same work. -/
def KeepsTip (T : BlockTree β) (s : IndexState β) : Prop :=
  ∀ s', s.Activates T s' → T.nChainWork s'.tip = T.nChainWork s.tip → s'.tip = s.tip

/-- A good block with more work than the tip is known. -/
def BetterKnown (T : BlockTree β) (s : IndexState β) : Prop :=
  ∃ g, s.Good T g ∧ T.nChainWork s.tip < T.nChainWork g

/-- No good block with the work of the tip sorts above it. -/
def TipFirst (T : BlockTree β) (s : IndexState β) : Prop :=
  ∀ g, s.Good T g → T.nChainWork g = T.nChainWork s.tip → s.sortKey T g ≤ s.sortKey T s.tip

/-- No good block with the work of the tip has a lower address. -/
def TipLowest (T : BlockTree β) (s : IndexState β) : Prop :=
  ∀ g, s.Good T g → T.nChainWork g = T.nChainWork s.tip → s.addr s.tip ≤ s.addr g

omit [DecidableEq β] in
theorem Ended.good_iff {g : β} (h : Ended T s s') : s'.Good T g ↔ s.Good T g := by
  simp only [Good, h.tried.grow.data.haveData]

theorem RunInv.keepsTip_iff (h : s.RunInv T) : s.KeepsTip T ↔ s.BetterKnown T ∨ s.TipFirst T := by
  obtain ⟨s', hact, hended⟩ := h.inv.activates
  have hs' : s'.RunInv T := h.step (.activate hact)
  have hdata := hended.tried.grow.data
  -- the outcome is the good block that sorts highest
  have hbest : ∀ g, s.Good T g → s.sortKey T g ≤ s.sortKey T s'.tip := by
    intro g hg
    obtain ⟨hlinked, hunmarked⟩ := hs'.good (hended.good_iff.mpr hg)
    rw [← hdata.sortKey, ← hdata.sortKey]
    exact hended.best g hlinked hunmarked
  have hgood : s.Good T s'.tip := hended.good_iff.mp hs'.good_tip
  constructor
  · intro hkeeps
    by_cases hbetter : s.BetterKnown T
    · exact .inl hbetter
    · right
      have hle : T.nChainWork s'.tip ≤ T.nChainWork s.tip :=
        not_lt.mp fun hlt => hbetter ⟨_, hgood, hlt⟩
      have hge := work_le_of_sortKey_le (hbest s.tip h.good_tip)
      intro g hg _
      rw [← hkeeps s' hact (le_antisymm hle hge)]
      exact hbest g hg
  · intro hor s'' hact'' hwork
    obtain rfl := hact.unique hact''
    rcases hor with ⟨g, hg, hlt⟩ | hfirst
    · exact absurd (work_le_of_sortKey_le (hbest g hg)) (not_le.mpr (hwork.symm ▸ hlt))
    · exact s.sortKey_injective (le_antisymm (hfirst _ hgood hwork) (hbest s.tip h.good_tip))

omit [DecidableEq β] in
/-- Blocks that arrive later sort below the tip, unless they have more work. -/
theorem Arrived.tipFirst (h : Arrived s s') (hs : s.RunInv T) (hs' : s'.RunInv T)
    (hfirst : s.TipFirst T) : s'.TipFirst T := by
  have hlinked_tip := hs.inv.anchored.solid.linked
  intro g hg hwork
  rw [h.tip] at hwork ⊢
  by_cases hlinked : s.Linked g
  · -- the block was good before
    have hgood : s.Good T g := fun a ha =>
      ⟨hs.inv.stored.linked_data a (hs.inv.stored.linked_of_mem_pathTo hlinked ha), (hg a ha).2⟩
    rw [sortKey_congr (h.known g hlinked) h.addr, sortKey_congr (h.known _ hlinked_tip) h.addr]
    exact hfirst g hgood hwork
  · have hfresh := h.fresh g hlinked (hs'.good hg).1
    have hold := hs.inv.stored.seq_lt s.tip
    refine (sortKey_lt_iff.mpr (.inr ⟨hwork, .inl ?_⟩)).le
    rw [h.known _ hlinked_tip]
    exact hold.trans_le hfresh

omit [DecidableEq β] in
theorem Arrived.betterKnown (h : Arrived s s') (hbetter : s.BetterKnown T) : s'.BetterKnown T := by
  obtain ⟨g, hg, hlt⟩ := hbetter
  exact ⟨g, fun a ha => ⟨h.haveData a (hg a ha).1, (hg a ha).2⟩, h.tip.symm ▸ hlt⟩

theorem Arrived.keepsTip (h : Arrived s s') (hs : s.RunInv T) (hs' : s'.RunInv T)
    (hkeeps : s.KeepsTip T) : s'.KeepsTip T :=
  hs'.keepsTip_iff.mpr ((hs.keepsTip_iff.mp hkeeps).imp h.betterKnown (h.tipFirst hs hs'))

/-- After a call the tip sorts highest among the good blocks. -/
theorem RunInv.keepsTip_activates (h : s.RunInv T) (hact : s.Activates T s') : s'.KeepsTip T := by
  have hs' : s'.RunInv T := h.step (.activate hact)
  refine hs'.keepsTip_iff.mpr (.inr fun g hg _ => ?_)
  obtain ⟨hlinked, hunmarked⟩ := hs'.good hg
  exact (h.inv.ended hact).best g hlinked hunmarked

omit [DecidableEq β] in
/-- Without sequence numbers the addresses decide. -/
theorem Restarted.tipFirst_iff (h : Restarted s addr s') : s'.TipFirst T ↔ s'.TipLowest T := by
  refine forall_congr' fun g => forall_congr' fun _ => forall_congr' fun hwork => ?_
  rw [← not_lt, sortKey_lt_iff, h.nSequenceId, h.nSequenceId]
  omega

/-! ## Runs with restarts -/

/-- What a step of a node is: one of the steps of a running node, or a restart. -/
inductive NodeEvent where
  | running
  | restart
deriving DecidableEq

/-- The steps of a node. -/
inductive NodeStep (T : BlockTree β) : NodeEvent → IndexState β → IndexState β → Prop
  | running {s s' : IndexState β} (h : ArrivalStep T s s') : NodeStep T .running s s'
  | restart {s s' : IndexState β} (lost : β → Bool) (addr : β ↪ Nat)
      (h : s.loadBlockIndexDB T lost addr = some s') : NodeStep T .restart s s'

/-- A run from `s`, as the list of its steps with the states they lead to. -/
def NodeRun (T : BlockTree β) (s : IndexState β) : List (NodeEvent × IndexState β) → Prop
  | [] => True
  | (event, s') :: run => NodeStep T event s s' ∧ NodeRun T s' run

/-- What every state of a run with restarts satisfies. -/
structure NodeInv (T : BlockTree β) (s : IndexState β) : Prop where
  run : s.RunInv T
  nodup : s.mapBlockIndex.Nodup

theorem nodeInv_genesis (addr : β ↪ Nat) : (genesis T addr).NodeInv T :=
  ⟨runInv_genesis addr, nodup_singleton _⟩

/-- A step of a running node keeps the rule. -/
theorem NodeInv.arrivalStep (h : s.NodeInv T) (hstep : ArrivalStep T s s') :
    s'.NodeInv T ∧ (s.KeepsTip T → s'.KeepsTip T) := by
  have hs' := h.run.step hstep
  cases hstep with
  | header hok =>
    have harrived := arrived_acceptBlockHeader h.run.inv.stored hok
    exact ⟨⟨hs', harrived.nodup h.nodup⟩, harrived.keepsTip h.run hs'⟩
  | block b checked =>
    have harrived := arrived_acceptBlock h.run.inv b checked
    exact ⟨⟨hs', harrived.nodup h.nodup⟩, harrived.keepsTip h.run hs'⟩
  | activate hact =>
    have hmap := (h.run.inv.ended hact).tried.grow.map
    exact ⟨⟨hs', hmap ▸ h.nodup⟩, fun _ => h.run.keepsTip_activates hact⟩

/-- A restart keeps the rule exactly when the new addresses favour the tip. -/
theorem NodeInv.restart (h : s.NodeInv T) (hload : s.loadBlockIndexDB T lost addr = some s') :
    s'.NodeInv T ∧ (s'.KeepsTip T ↔ s'.BetterKnown T ∨ s'.TipLowest T) := by
  obtain ⟨s'', hload'', hr, hinv⟩ := loadBlockIndexDB_spec h.run.inv h.nodup lost addr
  obtain rfl := some.inj (hload.symm.trans hload'')
  have hs' : s'.RunInv T := ⟨hinv, hr.faults h.run.faults⟩
  exact ⟨⟨hs', hr.map ▸ h.nodup⟩, hs'.keepsTip_iff.trans (or_congr_right hr.tipFirst_iff)⟩

theorem keepsTip_run_iff {run : List (NodeEvent × IndexState β)} (h : s.NodeInv T)
    (hkeeps : s.KeepsTip T) (hrun : NodeRun T s run) :
    (∀ e ∈ run, e.2.KeepsTip T) ↔
      ∀ e ∈ run, e.1 = .restart → e.2.BetterKnown T ∨ e.2.TipLowest T := by
  induction run generalizing s with
  | nil => simp
  | cons e run ih =>
    obtain ⟨event, s'⟩ := e
    obtain ⟨hstep, hrest⟩ := hrun
    rw [forall_mem_cons, forall_mem_cons]
    cases hstep with
    | running hstep =>
      obtain ⟨hs', hnext⟩ := h.arrivalStep hstep
      rw [ih hs' (hnext hkeeps) hrest]
      exact and_congr_left' (iff_of_true (hnext hkeeps) fun h => NodeEvent.noConfusion h)
    | restart lost addr hload =>
      obtain ⟨hs', hiff⟩ := h.restart hload
      rw [hiff, forall_prop_of_true rfl]
      exact and_congr_right fun hor => ih hs' (hiff.mpr hor) hrest

/-- **`firstSeen_iff`** — a run keeps the first-seen rule in all its states exactly when after every
restart a good block with more work than the tip is known, or the tip has the lowest address among
the good blocks of its work. -/
theorem firstSeen_iff {addr : β ↪ Nat} {run : List (NodeEvent × IndexState β)}
    (hrun : NodeRun T (genesis T addr) run) :
    (∀ e ∈ run, e.2.KeepsTip T) ↔
      ∀ e ∈ run, e.1 = .restart → e.2.BetterKnown T ∨ e.2.TipLowest T := by
  have hinv := @nodeInv_genesis β _ T addr
  refine keepsTip_run_iff hinv (hinv.run.keepsTip_iff.mpr (.inr fun g hg hwork => ?_)) hrun
  -- the genesis block is the only one with data
  have hroot : g = T.root := haveData_genesis.mp (hg g (ParentTree.self_mem_pathTo g)).1
  rw [hroot]
  exact le_rfl

end IndexState

namespace ForkBlock

/-- Addresses against the order of the list. -/
def addrDown : ForkBlock ↪ Nat := ⟨fun b => 5 - index b, by
    intro a b h
    cases a <;> cases b <;> first | rfl | exact absurd h (by decide)⟩

end ForkBlock

namespace IndexState

open ForkBlock in
/-- Two blocks of equal work arrive and the first one becomes the tip. After a restart the second
one has the lower address, and the next call replaces the tip by it. -/
theorem restart_replaces_tip :
    let T := treeWith (fun _ => true) rfl
    ∃ run s s', NodeRun T (genesis T ForkBlock.addr) (run ++ [(.restart, s)]) ∧ s.tip = left ∧
      s.Activates T s' ∧ s'.tip = right ∧ T.nChainWork right = T.nChainWork left := by
  intro T
  let s1 := (genesis T ForkBlock.addr).acceptBlock T left true
  have htips : ((activateBestChain T 3 (s1.acceptBlock T right true)).bind fun s3 =>
      (s3.loadBlockIndexDB T (fun _ => false) addrDown).bind fun s4 =>
        (activateBestChain T 3 s4).map fun s5 => (s4.tip, s5.tip)) = some (left, right) := by
    decide +kernel
  obtain ⟨s3, hact, htips⟩ := bind_eq_some_iff.mp htips
  obtain ⟨s4, hload, htips⟩ := bind_eq_some_iff.mp htips
  obtain ⟨s5, hact', htips⟩ := map_eq_some_iff.mp htips
  obtain ⟨hleft, hright⟩ := Prod.mk.inj htips
  refine ⟨[(.running, s1), (.running, s1.acceptBlock T right true), (.running, s3)], s4, s5, ?_,
    hleft, ⟨3, hact'⟩, hright, by decide⟩
  exact ⟨.running (.block _ left true), .running (.block _ right true),
    .running (.activate ⟨3, hact⟩), .restart _ _ hload, trivial⟩

open ForkBlock in
/-- With the addresses in the order of arrival the first block stays. -/
theorem firstSeen_two_blocks :
    let T := treeWith (fun _ => true) rfl
    ∃ run s, NodeRun T (genesis T ForkBlock.addr) (run ++ [(.restart, s)]) ∧ s.tip = left ∧
      s.KeepsTip T := by
  intro T
  let s1 := (genesis T ForkBlock.addr).acceptBlock T left true
  have hload : ((activateBestChain T 3 (s1.acceptBlock T right true)).bind fun s3 =>
      (s3.loadBlockIndexDB T (fun _ => false) ForkBlock.addr).map fun s4 =>
        (s4.tip, s4.addr left, s4.addr right)) = some (left, 1, 4) := by
    decide +kernel
  obtain ⟨s3, hact, hload⟩ := bind_eq_some_iff.mp hload
  obtain ⟨s4, hload, hfields⟩ := map_eq_some_iff.mp hload
  obtain ⟨htip, hleft, hright⟩ : s4.tip = left ∧ s4.addr left = 1 ∧ s4.addr right = 4 := by
    simpa only [Prod.mk.injEq] using hfields
  have hlowest : s4.TipLowest T := by
    intro g _ hwork
    rw [htip] at hwork ⊢
    cases g with
    | left => exact le_rfl
    | right =>
      rw [hleft, hright]
      decide
    | genesis | leftTop | leftSide | rightTop => exact absurd hwork (by decide)
  have hrun : NodeRun T (genesis T ForkBlock.addr) [(.running, s1),
      (.running, s1.acceptBlock T right true), (.running, s3), (.restart, s4)] :=
    ⟨.running (.block _ left true), .running (.block _ right true),
      .running (.activate ⟨3, hact⟩), .restart _ _ hload, trivial⟩
  have hkeeps := (firstSeen_iff hrun).mpr (by
    simp only [forall_mem_cons, reduceCtorEq, false_implies, true_and, forall_const]
    exact ⟨.inr hlowest, fun e he => absurd he not_mem_nil⟩)
  exact ⟨[(.running, s1), (.running, s1.acceptBlock T right true), (.running, s3)], s4, hrun, htip,
    hkeeps (.restart, s4) (by simp)⟩

end IndexState

end MonetaryUnit
