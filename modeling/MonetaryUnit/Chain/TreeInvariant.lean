/-
# MonetaryUnit.Chain.TreeInvariant — what arrivals keep

The invariant of the block index in five parts, and its preservation by headers and block data.

* `Stored` says how the entries hang together: which blocks are linked (`nChainTx` is set), which
  wait in `mapBlocksUnlinked`. It is stated with the queue of `ReceivedBlockTransactions`, whose
  members are about to be linked; between calls the queue is empty.
* `Levels` and `Marks` are about the status: validity levels, and failure marks.
* `Anchored` is about the active chain.
* `Candidates` is about the candidate set. It is complete from a block on, its `bound`: between
  calls that block is the tip, inside `ActivateBestChain` it is not.

The order of the candidate set is that of the keys `sortKey` in a linear order.
-/

import MonetaryUnit.Chain.BlockTree

namespace MonetaryUnit

open Lib List ParentTree IndexEntry

/-! ## Work -/

namespace BlockTree

variable {β : Type} {T : BlockTree β} {a b p : β}

theorem nChainWork_parent (h : T.parent b = some p) :
    T.nChainWork b = T.getBlockProof b + T.nChainWork p := by
  rw [nChainWork, pathTo_of_parent h, map_cons, sum_cons, nChainWork]

theorem nChainWork_lt (h : a ∈ T.pathTo b) (hne : a ≠ b) : T.nChainWork a < T.nChainWork b := by
  induction b using T.induction with
  | hroot => exact absurd (mem_pathTo_root.mp h) hne
  | hstep b p hp ih =>
    have hwork := nChainWork_parent hp
    have hpos := T.getBlockProof_pos b
    by_cases ha : a = p
    · rw [ha]
      omega
    · have hlt := ih (mem_pathTo_parent hp h hne) ha
      omega

end BlockTree

/-- The fields that are bits of the source's `nStatus`. -/
def IndexEntry.nStatus (e : IndexEntry) : Nat × Bool × Bool × Bool :=
  (e.nValid, e.haveData, e.failedValid, e.failedChild)

namespace IndexState

/-! ## The order of the candidate set -/

section Order

variable {β : Type} {T : BlockTree β} {s s' : IndexState β} {a b : β}

/-- What the comparator compares. -/
def sortKey (T : BlockTree β) (s : IndexState β) (b : β) : ℕ ×ₗ (ℕᵒᵈ ×ₗ ℕᵒᵈ) :=
  toLex (T.nChainWork b,
    toLex (OrderDual.toDual (s.entry b).nSequenceId, OrderDual.toDual (s.addr b)))

theorem sortKey_lt_iff : s.sortKey T a < s.sortKey T b ↔
    T.nChainWork a < T.nChainWork b ∨ T.nChainWork a = T.nChainWork b ∧
      ((s.entry b).nSequenceId < (s.entry a).nSequenceId ∨
        (s.entry a).nSequenceId = (s.entry b).nSequenceId ∧ s.addr b < s.addr a) := by
  rw [sortKey, sortKey, Prod.Lex.toLex_lt_toLex, Prod.Lex.toLex_lt_toLex]
  simp only [OrderDual.toDual_lt_toDual, OrderDual.toDual_inj]

theorem sortKey_injective (s : IndexState β) : Function.Injective (s.sortKey T) := by
  intro a b h
  have h1 : ¬ s.sortKey T a < s.sortKey T b := h ▸ lt_irrefl _
  have h2 : ¬ s.sortKey T b < s.sortKey T a := h ▸ lt_irrefl _
  rw [sortKey_lt_iff] at h1 h2
  exact s.addr.injective (by omega)

theorem sortKey_congr (hseq : (s'.entry b).nSequenceId = (s.entry b).nSequenceId)
    (haddr : s'.addr = s.addr) : s'.sortKey T b = s.sortKey T b := by
  rw [sortKey, sortKey, hseq, haddr]

theorem sortKey_lt_of_work (h : T.nChainWork a < T.nChainWork b) : s.sortKey T a < s.sortKey T b :=
  sortKey_lt_iff.mpr (.inl h)

theorem work_le_of_sortKey_le (h : s.sortKey T a ≤ s.sortKey T b) :
    T.nChainWork a ≤ T.nChainWork b :=
  not_lt.mp fun hlt => absurd (sortKey_lt_of_work hlt) (not_lt.mpr h)

theorem sortKey_le_of_mem_pathTo (h : a ∈ T.pathTo b) : s.sortKey T a ≤ s.sortKey T b := by
  by_cases hne : a = b
  · rw [hne]
  · exact (sortKey_lt_of_work (BlockTree.nChainWork_lt h hne)).le

theorem workLess_iff (s : IndexState β) (a b : β) :
    s.workLess T a b = true ↔ s.sortKey T a < s.sortKey T b := by
  rw [sortKey_lt_iff, workLess]
  split_ifs <;> simp <;> omega

theorem workLess_eq_false_iff : s.workLess T a b = false ↔ s.sortKey T b ≤ s.sortKey T a := by
  rw [← not_lt, ← workLess_iff, Bool.not_eq_true]

end Order

/-! ## The invariant -/

section Invariant

variable {β : Type}

/-- `nChainTx` is set: the block and all its ancestors have data. -/
def Linked (s : IndexState β) (b : β) : Prop := (s.entry b).nChainTx ≠ 0

/-- The block and its ancestors can be connected and none of them is marked. -/
structure Solid (T : BlockTree β) (s : IndexState β) (b : β) : Prop where
  linked : s.Linked b
  connects : ∀ a ∈ T.pathTo b, T.connectBlock a = true
  unmarked : ∀ a ∈ T.pathTo b, (s.entry a).failed = false

/-- How the entries hang together, with the blocks in `queue` about to be linked. -/
structure Stored (T : BlockTree β) (queue : List β) (s : IndexState β) : Prop where
  root_known : T.root ∈ s.mapBlockIndex
  parent_known : ∀ b ∈ s.mapBlockIndex, ∀ p, T.parent b = some p → p ∈ s.mapBlockIndex
  unknown : ∀ b, b ∉ s.mapBlockIndex → s.entry b = {}
  data_tx : ∀ b, (s.entry b).haveData = false ↔ (s.entry b).nTx = 0
  root_linked : s.Linked T.root
  linked_data : ∀ b, s.Linked b → (s.entry b).haveData = true
  linked_parent : ∀ b p, s.Linked b → T.parent b = some p → s.Linked p
  linked_child : ∀ b p, (s.entry b).haveData = true → T.parent b = some p → s.Linked p →
    s.Linked b ∨ b ∈ queue
  seq_unlinked : ∀ b, ¬ s.Linked b → (s.entry b).nSequenceId = 0
  seq_lt : ∀ b, (s.entry b).nSequenceId < s.nBlockSequenceId
  unlinked_sound : ∀ p b, (p, b) ∈ s.mapBlocksUnlinked →
    T.parent b = some p ∧ (s.entry b).haveData = true ∧ ¬ s.Linked p
  unlinked_complete : ∀ p b, (s.entry b).haveData = true → T.parent b = some p → ¬ s.Linked p →
    (p, b) ∈ s.mapBlocksUnlinked ∨ (s.entry p).failed = true ∧ (s.entry p).haveData = false
  unlinked_nodup : s.mapBlocksUnlinked.Nodup
  failed_unlinked : ∀ b, (s.entry b).failed = true → ¬ s.Linked b → (s.entry b).haveData = false
  queued : ∀ b ∈ queue,
    (s.entry b).haveData = true ∧ ¬ s.Linked b ∧ ∃ p, T.parent b = some p ∧ s.Linked p
  queue_nodup : queue.Nodup

/-- Validity levels: data is `BLOCK_VALID_TRANSACTIONS`, and what is above it has been connected
with all its ancestors. -/
structure Levels (T : BlockTree β) (s : IndexState β) : Prop where
  tree : ∀ b ∈ s.mapBlockIndex, BLOCK_VALID_TREE ≤ (s.entry b).nValid
  transactions : ∀ b ∈ s.mapBlockIndex,
    (BLOCK_VALID_TRANSACTIONS ≤ (s.entry b).nValid ↔ (s.entry b).haveData = true)
  scripts : ∀ b ∈ s.mapBlockIndex, BLOCK_VALID_CHAIN ≤ (s.entry b).nValid →
    ∀ a ∈ T.pathTo b, a ≠ T.root → BLOCK_VALID_SCRIPTS ≤ (s.entry a).nValid

/-- A marked block has an ancestor, or is itself a block, that failed validation. -/
def Marks (T : BlockTree β) (s : IndexState β) : Prop :=
  ∀ b, (s.entry b).failed = true → s.FirstInvalid T b

/-- The active chain can be connected, and was. -/
structure Anchored (T : BlockTree β) (s : IndexState β) : Prop where
  solid : s.Solid T s.tip
  scripts : ∀ a ∈ T.pathTo s.tip, a ≠ T.root → BLOCK_VALID_SCRIPTS ≤ (s.entry a).nValid

/-- The candidates are linked and at least as good as the tip; from `bound` on, none is
missing. -/
structure Candidates (T : BlockTree β) (bound : β) (s : IndexState β) : Prop where
  linked : ∀ c ∈ s.setBlockIndexCandidates, s.Linked c
  above : ∀ c ∈ s.setBlockIndexCandidates, s.sortKey T s.tip ≤ s.sortKey T c
  complete : ∀ b, s.Linked b → (s.entry b).failed = false →
    s.sortKey T bound ≤ s.sortKey T b → b ∈ s.setBlockIndexCandidates

/-- The parts together. Between calls the queue is empty and the bound is the tip. -/
structure IndexInv (T : BlockTree β) (queue : List β) (bound : β) (s : IndexState β) : Prop where
  stored : s.Stored T queue
  levels : s.Levels T
  marks : s.Marks T
  anchored : s.Anchored T
  candidates : s.Candidates T bound

end Invariant

variable {β : Type} {T : BlockTree β} {s s' : IndexState β} {a b c p : β} {queue : List β}

theorem Stored.linked_of_mem_pathTo (h : s.Stored T queue) (hb : s.Linked b)
    (ha : a ∈ T.pathTo b) : s.Linked a :=
  of_mem_pathTo h.linked_parent hb ha

theorem Stored.data_known (h : s.Stored T queue) (hb : (s.entry b).haveData = true) :
    b ∈ s.mapBlockIndex := by
  by_contra hnot
  rw [h.unknown b hnot] at hb
  exact Bool.false_ne_true hb

theorem Stored.linked_known (h : s.Stored T queue) (hb : s.Linked b) : b ∈ s.mapBlockIndex :=
  h.data_known (h.linked_data b hb)

/-- With an empty queue, a block is linked exactly when no data is missing up to it. -/
theorem Stored.firstMissing_iff (h : s.Stored T []) (b : β) :
    s.FirstMissing T b ↔ (s.entry b).nChainTx = 0 := by
  constructor
  · rintro ⟨a, ha, hdata⟩
    by_contra hlinked
    rw [h.linked_data a (h.linked_of_mem_pathTo hlinked ha)] at hdata
    exact absurd hdata Bool.noConfusion
  intro hzero
  by_contra hnone
  have hdata : ∀ a ∈ T.pathTo b, (s.entry a).haveData = true := fun a ha =>
    Bool.not_eq_false _ ▸ fun hf => hnone ⟨a, ha, hf⟩
  -- the links follow the data upwards from the root
  have hlinked : ∀ a, a ∈ T.pathTo b → s.Linked a := by
    intro a
    induction a using T.induction with
    | hroot => exact fun _ => h.root_linked
    | hstep a p hp ih =>
      intro ha
      have hpa := ih (pathTo_trans (parent_mem_pathTo hp) ha)
      exact (h.linked_child a p (hdata a ha) hp hpa).resolve_right not_mem_nil
  exact hlinked b (self_mem_pathTo b) hzero

/-! ## What the parts of the invariant read -/

variable {x bound : β} {s'' : IndexState β}

/-- The data of the blocks is as before, and so is the order. -/
structure SameData (s s' : IndexState β) : Prop where
  haveData : ∀ b, (s'.entry b).haveData = (s.entry b).haveData
  nTx : ∀ b, (s'.entry b).nTx = (s.entry b).nTx
  nChainTx : ∀ b, (s'.entry b).nChainTx = (s.entry b).nChainTx
  nSequenceId : ∀ b, (s'.entry b).nSequenceId = (s.entry b).nSequenceId
  addr : s'.addr = s.addr

theorem SameData.refl (s : IndexState β) : SameData s s :=
  ⟨fun _ => rfl, fun _ => rfl, fun _ => rfl, fun _ => rfl, rfl⟩

theorem SameData.trans (h : SameData s s') (h' : SameData s' s'') : SameData s s'' where
  haveData := fun b => (h'.haveData b).trans (h.haveData b)
  nTx := fun b => (h'.nTx b).trans (h.nTx b)
  nChainTx := fun b => (h'.nChainTx b).trans (h.nChainTx b)
  nSequenceId := fun b => (h'.nSequenceId b).trans (h.nSequenceId b)
  addr := h'.addr.trans h.addr

theorem SameData.linked (h : SameData s s') : s'.Linked b ↔ s.Linked b := by
  rw [Linked, Linked, h.nChainTx]

theorem SameData.sortKey (h : SameData s s') (b : β) : s'.sortKey T b = s.sortKey T b :=
  sortKey_congr (h.nSequenceId b) h.addr

theorem failed_of_nStatus (h : (s'.entry b).nStatus = (s.entry b).nStatus) :
    (s'.entry b).failed = (s.entry b).failed := by
  simp only [nStatus, Prod.mk.injEq] at h
  rw [failed, failed, h.2.2.1, h.2.2.2]

theorem FirstInvalid.mono (hmono : ∀ a, (s.entry a).failedValid = true →
    (s'.entry a).failedValid = true) (h : s.FirstInvalid T b) : s'.FirstInvalid T b := by
  obtain ⟨a, ha, hfail⟩ := h
  exact ⟨a, ha, hmono a hfail⟩

theorem FirstInvalid.of_mem_pathTo (h : s.FirstInvalid T a) (ha : a ∈ T.pathTo b) :
    s.FirstInvalid T b := by
  obtain ⟨c, hc, hfail⟩ := h
  exact ⟨c, pathTo_trans hc ha, hfail⟩

theorem Marks.congr (h : s.Marks T) (hstatus : ∀ b, (s'.entry b).nStatus = (s.entry b).nStatus) :
    s'.Marks T := by
  intro b hb
  rw [failed_of_nStatus (hstatus b)] at hb
  refine (h b hb).mono fun a ha => ?_
  have hst := hstatus a
  simp only [nStatus, Prod.mk.injEq] at hst
  rwa [hst.2.2.1]

theorem Levels.congr (h : s.Levels T) (hmap : s'.mapBlockIndex = s.mapBlockIndex)
    (hvalid : ∀ b, (s'.entry b).nValid = (s.entry b).nValid)
    (hdata : ∀ b, (s'.entry b).haveData = (s.entry b).haveData) : s'.Levels T where
  tree := by simpa only [hmap, hvalid] using h.tree
  transactions := by simpa only [hmap, hvalid, hdata] using h.transactions
  scripts := by simpa only [hmap, hvalid] using h.scripts

/-- A block stays solid when its path stays linked and unmarked. -/
theorem Solid.of_unmarked (h : s.Solid T b) (hlinked : s.Linked b → s'.Linked b)
    (hmarks : ∀ a ∈ T.pathTo b, (s.entry a).failed = false → (s'.entry a).failed = false) :
    s'.Solid T b :=
  ⟨hlinked h.linked, h.connects, fun a ha => hmarks a ha (h.unmarked a ha)⟩

theorem Solid.of_mem_pathTo (hst : s.Stored T queue) (h : s.Solid T b) (ha : a ∈ T.pathTo b) :
    s.Solid T a :=
  ⟨hst.linked_of_mem_pathTo h.linked ha, fun c hc => h.connects c (pathTo_trans hc ha),
    fun c hc => h.unmarked c (pathTo_trans hc ha)⟩

variable {cands : List β} {addr : β ↪ Nat}

theorem Anchored.congr (h : s.Anchored T) (htip : s'.tip = s.tip)
    (hlinked : s.Linked s.tip → s'.Linked s.tip)
    (hmarks : ∀ a ∈ T.pathTo s.tip, (s.entry a).failed = false → (s'.entry a).failed = false)
    (hvalid : ∀ a ∈ T.pathTo s.tip, (s'.entry a).nValid = (s.entry a).nValid) : s'.Anchored T where
  solid := by
    rw [htip]
    exact h.solid.of_unmarked hlinked hmarks
  scripts := fun a ha hroot => by
    rw [htip] at ha
    rw [hvalid a ha]
    exact h.scripts a ha hroot

/-- The set may lose blocks that are marked. -/
theorem Candidates.congr (h : s.Candidates T bound) (htip : s'.tip = s.tip)
    (hlink : ∀ x, s'.Linked x ↔ s.Linked x) (hkey : ∀ x, s'.sortKey T x = s.sortKey T x)
    (hmarks : ∀ x, (s'.entry x).failed = false → (s.entry x).failed = false)
    (hsub : ∀ x ∈ s'.setBlockIndexCandidates, x ∈ s.setBlockIndexCandidates)
    (hsup : ∀ x ∈ s.setBlockIndexCandidates, (s'.entry x).failed = false →
      x ∈ s'.setBlockIndexCandidates) : s'.Candidates T bound where
  linked := fun x hx => (hlink x).mpr (h.linked x (hsub x hx))
  above := fun x hx => by
    rw [htip, hkey, hkey]
    exact h.above x (hsub x hx)
  complete := fun x hx hf hle => by
    rw [hkey, hkey] at hle
    exact hsup x (h.complete x ((hlink x).mp hx) (hmarks x hf) hle) hf

/-- The invariant carries over when the links, the order and the marks do. -/
theorem IndexInv.transfer (h : s.IndexInv T [] bound) (hst : s'.Stored T queue) (hl : s'.Levels T)
    (hlink : ∀ x, s'.Linked x ↔ s.Linked x) (hkey : ∀ x, s'.sortKey T x = s.sortKey T x)
    (hmarks : ∀ x, (s'.entry x).failedValid = (s.entry x).failedValid ∧
      (s'.entry x).failed = (s.entry x).failed)
    (hvalid : ∀ x ∈ T.pathTo s.tip, (s'.entry x).nValid = (s.entry x).nValid)
    (htip : s'.tip = s.tip) (hcand : s'.setBlockIndexCandidates = s.setBlockIndexCandidates) :
    s'.IndexInv T queue bound where
  stored := hst
  levels := hl
  marks := fun x hx => by
    rw [(hmarks x).2] at hx
    exact (h.marks x hx).mono fun a ha => (hmarks a).1.trans ha
  anchored := h.anchored.congr htip (hlink _).mpr (fun a _ ha => (hmarks a).2.trans ha) hvalid
  candidates := h.candidates.congr htip hlink hkey (fun x hx => (hmarks x).2.symm.trans hx)
    (fun _ hx => hcand ▸ hx) fun _ hx _ => hcand.symm ▸ hx

/-! ## Marks -/

/-- `s'` has the blocks and the data of `s`, and possibly more marks. A block that gets a mark is
linked or has no data. -/
structure MarksGrow (s s' : IndexState β) : Prop where
  data : SameData s s'
  map : s'.mapBlockIndex = s.mapBlockIndex
  unlinked : s'.mapBlocksUnlinked = s.mapBlocksUnlinked
  counter : s'.nBlockSequenceId = s.nBlockSequenceId
  unknown : ∀ x, x ∉ s.mapBlockIndex → s'.entry x = s.entry x
  failedValid : ∀ x, (s.entry x).failedValid = true → (s'.entry x).failedValid = true
  failed : ∀ x, (s.entry x).failed = true → (s'.entry x).failed = true
  fresh : ∀ x, (s'.entry x).failed = true →
    (s.entry x).failed = true ∨ s.Linked x ∨ (s.entry x).haveData = false

theorem MarksGrow.refl (s : IndexState β) : MarksGrow s s :=
  ⟨SameData.refl s, rfl, rfl, rfl, fun _ _ => rfl, fun _ h => h, fun _ h => h, fun _ h => .inl h⟩

theorem MarksGrow.trans (h : MarksGrow s s') (h' : MarksGrow s' s'') : MarksGrow s s'' where
  data := h.data.trans h'.data
  map := h'.map.trans h.map
  unlinked := h'.unlinked.trans h.unlinked
  counter := h'.counter.trans h.counter
  unknown := fun x hx => (h'.unknown x (h.map.symm ▸ hx)).trans (h.unknown x hx)
  failedValid := fun x hx => h'.failedValid x (h.failedValid x hx)
  failed := fun x hx => h'.failed x (h.failed x hx)
  fresh := fun x hx => by
    rcases h'.fresh x hx with hx | hx | hx
    · exact h.fresh x hx
    · exact .inr (.inl (h.data.linked.mp hx))
    · exact .inr (.inr ((h.data.haveData x).symm.trans hx))

theorem MarksGrow.unmarked (h : MarksGrow s s') (hx : (s'.entry x).failed = false) :
    (s.entry x).failed = false := by
  by_contra hf
  rw [h.failed x (Bool.not_eq_false _ ▸ hf)] at hx
  exact Bool.noConfusion hx

/-- What hangs together still does when the links and the data of the blocks are as before. -/
theorem Stored.transfer (h : s.Stored T []) (hroot : T.root ∈ s'.mapBlockIndex)
    (hparent : ∀ x ∈ s'.mapBlockIndex, ∀ q, T.parent x = some q → q ∈ s'.mapBlockIndex)
    (hunknown : ∀ x, x ∉ s'.mapBlockIndex → s'.entry x = {})
    (hdata : ∀ x, (s'.entry x).haveData = (s.entry x).haveData)
    (hnTx : ∀ x, (s'.entry x).nTx = (s.entry x).nTx) (hlink : ∀ x, s'.Linked x ↔ s.Linked x)
    (hseq : ∀ x, (¬ s.Linked x → (s'.entry x).nSequenceId = 0) ∧
      (s'.entry x).nSequenceId < s'.nBlockSequenceId)
    (hsound : ∀ q x, (q, x) ∈ s'.mapBlocksUnlinked →
      T.parent x = some q ∧ (s.entry x).haveData = true ∧ ¬ s.Linked q)
    (hcomplete : ∀ q x, (s.entry x).haveData = true → T.parent x = some q → ¬ s.Linked q →
      (q, x) ∈ s'.mapBlocksUnlinked ∨ (s'.entry q).failed = true ∧ (s.entry q).haveData = false)
    (hnodup : s'.mapBlocksUnlinked.Nodup)
    (hfailed : ∀ x, (s'.entry x).failed = true → ¬ s.Linked x → (s.entry x).haveData = false) :
    s'.Stored T [] where
  root_known := hroot
  parent_known := hparent
  unknown := hunknown
  data_tx := by simpa only [hdata, hnTx] using h.data_tx
  root_linked := (hlink _).mpr h.root_linked
  linked_data := by simpa only [hdata, hlink] using h.linked_data
  linked_parent := by simpa only [hlink] using h.linked_parent
  linked_child := by simpa only [hdata, hlink] using h.linked_child
  seq_unlinked := fun x hx => (hseq x).1 (mt (hlink x).mpr hx)
  seq_lt := fun x => (hseq x).2
  unlinked_sound := by simpa only [hdata, hlink] using hsound
  unlinked_complete := by simpa only [hdata, hlink] using hcomplete
  unlinked_nodup := hnodup
  failed_unlinked := by simpa only [hdata, hlink] using hfailed
  queued := by simp
  queue_nodup := nodup_nil

/-- Marks matter for blocks without data only. -/
theorem Stored.of_sameData (h : s.Stored T []) (hdata : SameData s s')
    (hmap : s'.mapBlockIndex = s.mapBlockIndex)
    (hunlinked : s'.mapBlocksUnlinked = s.mapBlocksUnlinked)
    (hcounter : s'.nBlockSequenceId = s.nBlockSequenceId)
    (hunknown : ∀ x, x ∉ s.mapBlockIndex → s'.entry x = s.entry x)
    (hcomplete : ∀ q x, (s.entry x).haveData = true → T.parent x = some q →
      (s.entry q).failed = true → (s.entry q).haveData = false →
      (q, x) ∈ s.mapBlocksUnlinked ∨ (s'.entry q).failed = true)
    (hfailed : ∀ x, (s'.entry x).failed = true → ¬ s.Linked x → (s.entry x).haveData = false) :
    s'.Stored T [] := by
  refine h.transfer (hmap ▸ h.root_known) (hmap ▸ h.parent_known) (fun x hx => ?_) hdata.haveData
    hdata.nTx (fun _ => hdata.linked) (fun x => ?_) (hunlinked ▸ h.unlinked_sound)
    (fun q x hx hq hnl => ?_) (hunlinked ▸ h.unlinked_nodup) hfailed
  · rw [hmap] at hx
    rw [hunknown x hx, h.unknown x hx]
  · rw [hdata.nSequenceId, hcounter]
    exact ⟨h.seq_unlinked x, h.seq_lt x⟩
  · rw [hunlinked]
    rcases h.unlinked_complete q x hx hq hnl with hmem | hf
    · exact .inl hmem
    · exact (hcomplete q x hx hq hf.1 hf.2).imp_right fun hf' => ⟨hf', hf.2⟩

theorem Stored.of_marksGrow (h : s.Stored T []) (hm : MarksGrow s s') : s'.Stored T [] :=
  h.of_sameData hm.data hm.map hm.unlinked hm.counter hm.unknown
    (fun q _ _ _ hf _ => .inr (hm.failed q hf)) fun x hf hnl => by
      rcases hm.fresh x hf with hf | hl | hd
      · exact h.failed_unlinked x hf hnl
      · exact absurd hl hnl
      · exact hd

/-- Marks outside the active chain, each below a block that failed,
keep the invariant. The marked blocks may leave the candidate set. -/
theorem IndexInv.of_marksGrow (h : s.IndexInv T [] bound) (hm : MarksGrow s s')
    (hvalid : ∀ x, (s'.entry x).nValid = (s.entry x).nValid) (htip : s'.tip = s.tip)
    (hmarks : ∀ x, (s'.entry x).failed = true → (s.entry x).failed = false → s'.FirstInvalid T x)
    (hchain : ∀ x ∈ T.pathTo s.tip, (s'.entry x).failed = false)
    (hsub : ∀ x ∈ s'.setBlockIndexCandidates, x ∈ s.setBlockIndexCandidates)
    (hsup : ∀ x ∈ s.setBlockIndexCandidates, (s'.entry x).failed = false →
      x ∈ s'.setBlockIndexCandidates) : s'.IndexInv T [] bound where
  stored := h.stored.of_marksGrow hm
  levels := h.levels.congr hm.map hvalid hm.data.haveData
  marks := fun x hx => by
    rcases hf : (s.entry x).failed with _ | _
    · exact hmarks x hx hf
    · exact (h.marks x hf).mono hm.failedValid
  anchored := h.anchored.congr htip hm.data.linked.mpr (fun a ha _ => hchain a ha)
    fun a _ => hvalid a
  candidates := h.candidates.congr htip (fun _ => hm.data.linked) hm.data.sortKey
    (fun _ => hm.unmarked) hsub hsup

variable {P : β → Prop} {f : IndexEntry → IndexEntry}

/-- Some known entries get marks. -/
theorem marksGrow_edit [DecidablePred P]
    (hentry : ∀ x, s'.entry x = if P x then f (s.entry x) else s.entry x)
    (hf : ∀ e, (f e).haveData = e.haveData ∧ (f e).nTx = e.nTx ∧ (f e).nChainTx = e.nChainTx ∧
      (f e).nSequenceId = e.nSequenceId ∧ (e.failedValid = true → (f e).failedValid = true) ∧
      (e.failed = true → (f e).failed = true))
    (hP : ∀ x, P x → x ∈ s.mapBlockIndex ∧ ((f (s.entry x)).failed = true →
      (s.entry x).failed = true ∨ s.Linked x ∨ (s.entry x).haveData = false))
    (hsame : s'.mapBlockIndex = s.mapBlockIndex ∧ s'.mapBlocksUnlinked = s.mapBlocksUnlinked ∧
      s'.nBlockSequenceId = s.nBlockSequenceId ∧ s'.addr = s.addr) : MarksGrow s s' := by
  have hedit : ∀ {γ : Type} (g : IndexEntry → γ), (∀ e, g (f e) = g e) →
      ∀ x, g (s'.entry x) = g (s.entry x) := fun g hg x => by
    rw [hentry]
    split
    · exact hg _
    · rfl
  refine ⟨⟨hedit _ fun e => (hf e).1, hedit _ fun e => (hf e).2.1, hedit _ fun e => (hf e).2.2.1,
    hedit _ fun e => (hf e).2.2.2.1, hsame.2.2.2⟩, hsame.1, hsame.2.1, hsame.2.2.1,
    fun x hx => ?_, fun x hx => ?_, fun x hx => ?_, fun x hx => ?_⟩
  · rw [hentry, if_neg fun h => hx (hP x h).1]
  · rw [hentry]
    split
    · exact (hf _).2.2.2.2.1 hx
    · exact hx
  · rw [hentry]
    split
    · exact (hf _).2.2.2.2.2 hx
    · exact hx
  · rw [hentry] at hx
    split at hx
    case isTrue h => exact (hP x h).2 hx
    case isFalse => exact .inl hx

theorem failed_edit [DecidablePred P] (hx : s'.entry x = if P x then f (s.entry x) else s.entry x)
    (hf : ∀ e, (f e).failed = true) :
    (s'.entry x).failed = true ↔ (s.entry x).failed = true ∨ P x := by
  rw [hx]
  by_cases h : P x
  · rw [if_pos h]
    exact iff_of_true (hf _) (.inr h)
  · rw [if_neg h, or_iff_left h]

variable [DecidableEq β]

theorem entry_modify (f : IndexEntry → IndexEntry) (x : β) :
    (s.modify b f).entry x = if x = b then f (s.entry x) else s.entry x :=
  rfl

theorem isValid_iff {e : IndexEntry} {n : Nat} :
    e.isValid n = true ↔ e.failed = false ∧ n ≤ e.nValid := by
  rw [isValid]
  rcases e.failed with _ | _ <;> simp

theorem failed_eq_false_iff {e : IndexEntry} :
    e.failed = false ↔ e.failedValid = false ∧ e.failedChild = false := by
  rw [failed, Bool.or_eq_false_iff]

/-- A block that enters the candidate set if it passes a test. -/
theorem insertCandidate_eq {test : Prop} [Decidable test] : ∃ cands,
    (if test then { s with setBlockIndexCandidates := s.setBlockIndexCandidates.insert b } else s) =
      { s with setBlockIndexCandidates := cands } ∧
    ∀ x, x ∈ cands ↔ x ∈ s.setBlockIndexCandidates ∨ x = b ∧ test := by
  split
  case isTrue htest =>
    refine ⟨_, rfl, fun x => ?_⟩
    rw [mem_insert_iff, and_iff_left htest, or_comm]
  case isFalse htest =>
    exact ⟨_, rfl, fun x => (or_iff_left fun h => htest h.2).symm⟩

/-- `BLOCK_FAILED_VALID` on one block, with `cands` as the candidates afterwards. -/
def failValid (s : IndexState β) (b : β) (cands : List β) : IndexState β :=
  { s.modify b (fun e => { e with failedValid := true }) with setBlockIndexCandidates := cands }

theorem entry_failValid (x : β) : (s.failValid b cands).entry x =
    if x = b then { s.entry x with failedValid := true } else s.entry x :=
  rfl

theorem failed_failValid :
    ((s.failValid b cands).entry x).failed = true ↔ (s.entry x).failed = true ∨ x = b :=
  failed_edit (P := (· = b)) (f := fun e => { e with failedValid := true }) rfl fun _ => rfl

theorem marksGrow_failValid (hknown : b ∈ s.mapBlockIndex)
    (hdata : (s.entry b).failed = true ∨ s.Linked b ∨ (s.entry b).haveData = false) :
    MarksGrow s (s.failValid b cands) :=
  marksGrow_edit (P := (· = b)) (f := fun e => { e with failedValid := true }) entry_failValid
    (fun _ => ⟨rfl, rfl, rfl, rfl, fun _ => rfl, fun _ => rfl⟩)
    (fun _ hx => hx ▸ ⟨hknown, fun _ => hdata⟩) ⟨rfl, rfl, rfl, rfl⟩

/-- A block outside the active chain fails. -/
theorem indexInv_failValid (h : s.IndexInv T [] bound) (hknown : b ∈ s.mapBlockIndex)
    (hdata : s.Linked b ∨ (s.entry b).haveData = false) (hchain : b ∉ T.pathTo s.tip)
    (hsub : ∀ x ∈ cands, x ∈ s.setBlockIndexCandidates)
    (hsup : ∀ x ∈ s.setBlockIndexCandidates, x ≠ b → x ∈ cands) :
    (s.failValid b cands).IndexInv T [] bound := by
  have hself : ((s.failValid b cands).entry b).failedValid = true := by
    rw [entry_failValid, if_pos rfl]
  refine h.of_marksGrow (marksGrow_failValid hknown (.inr hdata)) (fun x => ?_) rfl
    (fun x hx hf => ?_) (fun x hx => ?_) hsub fun x hx hf => hsup x hx ?_
  · rw [entry_failValid]
    split <;> rfl
  · rcases failed_failValid.mp hx with hx | rfl
    · exact absurd (hf.symm.trans hx) Bool.false_ne_true
    · exact ⟨x, self_mem_pathTo x, hself⟩
  · rw [← Bool.not_eq_true, failed_failValid, not_or, Bool.not_eq_true]
    exact ⟨h.anchored.solid.unmarked x hx, fun he => hchain (he ▸ hx)⟩
  · rintro rfl
    exact absurd (failed_failValid.mpr (.inr rfl)) (Bool.not_eq_true _ ▸ hf)

/-! ## The first state -/

theorem linked_genesis : (genesis T addr).Linked b ↔ b = T.root := by
  rw [Linked, genesis]
  by_cases hb : b = T.root
  · simp [hb, (T.vtxSize_pos T.root).ne']
  · simp [hb]

theorem entry_genesis_ne (hb : b ≠ T.root) : (genesis T addr).entry b = {} := if_neg hb

theorem entry_genesis_root : (genesis T addr).entry T.root =
    { nValid := BLOCK_VALID_TRANSACTIONS, haveData := true, nTx := T.vtxSize T.root,
      nChainTx := T.vtxSize T.root, nSequenceId := 1 } :=
  if_pos rfl

theorem haveData_genesis : ((genesis T addr).entry b).haveData = true ↔ b = T.root := by
  by_cases hb : b = T.root
  · rw [hb, entry_genesis_root]
    simp
  · rw [entry_genesis_ne hb]
    simp [hb]

theorem failed_genesis (b : β) : ((genesis T addr).entry b).failed = false := by
  by_cases hb : b = T.root
  · rw [hb, entry_genesis_root]
    rfl
  · rw [entry_genesis_ne hb]
    rfl

theorem stored_genesis (addr : β ↪ Nat) : (genesis T addr).Stored T [] where
  root_known := mem_singleton_self _
  parent_known := by
    intro b hb p hp
    exact absurd (mem_singleton.mp hb) (ne_root hp)
  unknown := fun b hb => entry_genesis_ne fun h => hb (mem_singleton.mpr h)
  data_tx := by
    intro b
    by_cases hb : b = T.root
    · rw [hb, entry_genesis_root]
      simp [(T.vtxSize_pos T.root).ne']
    · rw [entry_genesis_ne hb]
      simp
  root_linked := linked_genesis.mpr rfl
  linked_data := fun b hb => haveData_genesis.mpr (linked_genesis.mp hb)
  linked_parent := fun b p hb hp => absurd (linked_genesis.mp hb) (ne_root hp)
  linked_child := fun b p hb hp _ => absurd (haveData_genesis.mp hb) (ne_root hp)
  seq_unlinked := by
    intro b hb
    rw [entry_genesis_ne fun h => hb (linked_genesis.mpr h)]
  seq_lt := by
    intro b
    by_cases hb : b = T.root
    · rw [hb, entry_genesis_root]
      exact Nat.lt_succ_self 1
    · rw [entry_genesis_ne hb]
      exact Nat.zero_lt_two
  unlinked_sound := by simp [genesis]
  unlinked_complete := fun p b hb hp _ => absurd (haveData_genesis.mp hb) (ne_root hp)
  unlinked_nodup := nodup_nil
  failed_unlinked := by
    intro b hb
    rw [failed_genesis] at hb
    exact absurd hb Bool.false_ne_true
  queued := fun b h => absurd h not_mem_nil
  queue_nodup := nodup_nil

theorem levels_genesis (addr : β ↪ Nat) : (genesis T addr).Levels T where
  tree := by
    intro b hb
    rw [mem_singleton.mp hb, entry_genesis_root]
    show BLOCK_VALID_TREE ≤ BLOCK_VALID_TRANSACTIONS
    decide
  transactions := by
    intro b hb
    rw [mem_singleton.mp hb, entry_genesis_root]
    exact iff_of_true le_rfl rfl
  scripts := by
    intro b hb hlevel
    rw [mem_singleton.mp hb, entry_genesis_root] at hlevel
    have hnot : ¬ BLOCK_VALID_CHAIN ≤ BLOCK_VALID_TRANSACTIONS := by decide
    exact absurd hlevel hnot

theorem indexInv_genesis (addr : β ↪ Nat) : (genesis T addr).IndexInv T [] T.root where
  stored := stored_genesis addr
  levels := levels_genesis addr
  marks := by
    intro b hb
    rw [failed_genesis] at hb
    exact absurd hb Bool.false_ne_true
  anchored :=
    { solid :=
        { linked := linked_genesis.mpr rfl
          connects := fun a ha => mem_pathTo_root.mp ha ▸ T.connectBlock_root
          unmarked := fun a _ => failed_genesis a }
      scripts := fun a ha hne => absurd (mem_pathTo_root.mp ha) hne }
  candidates :=
    { linked := fun c hc => linked_genesis.mpr (mem_singleton.mp hc)
      above := fun c hc => (mem_singleton.mp hc).symm ▸ le_rfl
      complete := fun b hb _ _ => mem_singleton.mpr (linked_genesis.mp hb) }

end IndexState

end MonetaryUnit
