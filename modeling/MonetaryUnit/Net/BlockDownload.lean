/-
# MonetaryUnit.Net.BlockDownload — which blocks to ask a peer for

`FindNextBlocksToDownload` of `main.cpp`, with `ProcessBlockAvailability` and
`UpdateBlockAvailability`, over the block index of `Chain.BlockTree` and the active chain of
`Chain.ActiveChain`.

The walk goes from the last common block towards the best block that the peer is known to have, in
batches filled in backwards along `pprev`. The batches are invisible in the result
(`walkLoop_spec`): the loop is one scan of the blocks between the two heights, and what a scan adds
is a statement about lists (`scan_spec`).

Blocks stand for their hashes. `none` is a null pointer that is followed;
`findNextBlocksToDownload_correct` says that there is none.
-/

import MonetaryUnit.Chain.ActiveChain
import MonetaryUnit.Chain.Arrivals
import MonetaryUnit.Net.InFlight

namespace MonetaryUnit

open Lib List ParentTree Option Nat Bool

variable {β : Type}

def BLOCK_DOWNLOAD_WINDOW : Nat := 1024

/-! ## What is known of a peer's chain -/

/-- The fields of `CNodeState` about the blocks that a peer has. -/
structure PeerBlocks (β : Type) where
  hashLastUnknownBlock : Option β := none
  pindexBestKnownBlock : Option β := none
  pindexLastCommonBlock : Option β := none
deriving DecidableEq

namespace PeerBlocks

variable [DecidableEq β] (T : BlockTree β) (s : IndexState β)

/-- A block of the index replaces the best known one unless that has more work. -/
def noteBlock (peer : PeerBlocks β) (b : β) : PeerBlocks β :=
  if peer.pindexBestKnownBlock.all (fun best => decide (T.nChainWork best ≤ T.nChainWork b)) then
    { peer with pindexBestKnownBlock := some b }
  else peer

def processBlockAvailability (peer : PeerBlocks β) : PeerBlocks β :=
  match peer.hashLastUnknownBlock with
  | none => peer
  | some hash =>
    if hash ∈ s.mapBlockIndex ∧ 0 < T.nChainWork hash then
      { peer.noteBlock T hash with hashLastUnknownBlock := none }
    else peer

def updateBlockAvailability (peer : PeerBlocks β) (hash : β) : PeerBlocks β :=
  let peer := peer.processBlockAvailability T s
  if hash ∈ s.mapBlockIndex ∧ 0 < T.nChainWork hash then peer.noteBlock T hash
  else { peer with hashLastUnknownBlock := some hash }

end PeerBlocks

/-! ## The walk -/

/-- The variables of the walk. `returned` is set where the source returns from inside a loop. -/
structure DownloadWalk (β : Type) where
  pindexLastCommonBlock : β
  vBlocks : List β
  waitingfor : NodeId
  nodeStaller : NodeId
  returned : Bool

section Walk

variable [DecidableEq β] (T : BlockTree β) (pskip : β → Option β) (s : IndexState β)
variable (mapBlocksInFlight : β → Option NodeId)

/-- One block of a batch. -/
def scanBlock (nodeid : NodeId) (count nWindowEnd : Nat) (w : DownloadWalk β) (pindex : β) :
    DownloadWalk β :=
  if (s.entry pindex).isValid BLOCK_VALID_TREE = false then { w with returned := true }
  else if (s.entry pindex).haveData then
    if (s.entry pindex).nChainTx ≠ 0 then { w with pindexLastCommonBlock := pindex } else w
  else
    match mapBlocksInFlight pindex with
    | none =>
      if nWindowEnd < T.height pindex then
        -- Nothing can be asked for, but one block could be if the window were one larger.
        if w.vBlocks = [] ∧ w.waitingfor ≠ nodeid then
          { w with nodeStaller := w.waitingfor, returned := true }
        else { w with returned := true }
      else
        { w with
          vBlocks := w.vBlocks ++ [pindex]
          returned := decide (w.vBlocks.length + 1 = count) }
    | some node => if w.waitingfor = -1 then { w with waitingfor := node } else w

/-- The `BOOST_FOREACH` over a batch. -/
def scanBatch (nodeid : NodeId) (count nWindowEnd : Nat) (w : DownloadWalk β)
    (vToFetch : List β) : DownloadWalk β :=
  vToFetch.foldl (fun w b =>
    if w.returned then w else scanBlock T s mapBlocksInFlight nodeid count nWindowEnd w b) w

/-- The batch of `n` blocks that ends at a given one, filled in backwards. -/
def readBatch : Nat → Option β → Option (List β)
  | 0, _ => some []
  | _ + 1, none => none
  | n + 1, some b => (readBatch n (T.parent b)).map (· ++ [b])

/-- `nToFetch`. The difference of the counts is a `size_t` that is passed on as an `int`. -/
def batchSize (count size nMaxHeight heightWalk : Nat) : Int :=
  min ((nMaxHeight : Int) - heightWalk) (max (BitVec.ofInt 32 ((count : Int) - size)).toInt 128)

/-- The `while` loop. The fuel bounds the number of batches. -/
def walkLoop (nodeid : NodeId) (count nWindowEnd nMaxHeight : Nat) (best : β) :
    Nat → β → DownloadWalk β → Option (DownloadWalk β)
  | 0, _, _ => none
  | fuel + 1, pindexWalk, w =>
    if T.height pindexWalk < nMaxHeight then
      let nToFetch := batchSize count w.vBlocks.length nMaxHeight (T.height pindexWalk)
      (getAncestor T.toParentTree pskip best (T.height pindexWalk + nToFetch)).join.bind
        fun next => (readBatch T nToFetch.toNat (some next)).bind fun vToFetch =>
          let w := scanBatch T s mapBlocksInFlight nodeid count nWindowEnd w vToFetch
          if w.returned then some w
          else walkLoop nodeid count nWindowEnd nMaxHeight best fuel next w
    else some w

/-- The last common block on entry to the walk: the recorded one, or the block of the active
chain at the height of the peer's best, moved back to the fork with the peer's chain. -/
def commonOnEntry (chainActive : CChain β) (peer : PeerBlocks β) (best : β) : Option β :=
  (peer.pindexLastCommonBlock.or
    (chainActive.entryAt (min (T.height best : Int) chainActive.height))).bind
      fun start => (lastCommonAncestor T.toParentTree pskip start best).join

/-- `FindNextBlocksToDownload` with an empty `vBlocks`. -/
def findNextBlocksToDownload (chainActive : CChain β) (nodeid : NodeId) (count : UInt32)
    (peer : PeerBlocks β) (nodeStaller : NodeId) : Option (PeerBlocks β × List β × NodeId) :=
  if count = 0 then some (peer, [], nodeStaller)
  else
    let peer := peer.processBlockAvailability T s
    match peer.pindexBestKnownBlock with
    | none => some (peer, [], nodeStaller)
    | some best =>
      chainActive.tip.bind fun tip =>
        if T.nChainWork best < T.nChainWork tip then some (peer, [], nodeStaller)
        else
          (commonOnEntry T pskip chainActive peer best).bind fun common =>
            if common = best then
              some ({ peer with pindexLastCommonBlock := some common }, [], nodeStaller)
            else
              let nWindowEnd := T.height common + BLOCK_DOWNLOAD_WINDOW
              let nMaxHeight := min (T.height best) (nWindowEnd + 1)
              (walkLoop T pskip s mapBlocksInFlight nodeid count.toNat nWindowEnd nMaxHeight best
                (nMaxHeight + 1) common ⟨common, [], -1, nodeStaller, false⟩).map fun w =>
                  ({ peer with pindexLastCommonBlock := some w.pindexLastCommonBlock },
                    w.vBlocks, w.nodeStaller)

end Walk

/-! ## Batches -/

section Download

variable {T : BlockTree β} {pskip : β → Option β} {s : IndexState β} {active : CChain β}
variable {inFlight : β → Option NodeId} {nodeid : NodeId} {peer : PeerBlocks β}
variable {best common walk last a b : β} {start n count nEnd nMax : Nat}
variable {w : DownloadWalk β}

/-- The ancestors of `best` at the `n` heights from `start` on. -/
def blocksFrom (T : BlockTree β) (best : β) (start n : Nat) : List β :=
  (List.range' start n).filterMap fun k => T.atHeight k best

theorem blocksFrom_add (best : β) (start m n : Nat) : blocksFrom T best start (m + n) =
      blocksFrom T best start m ++ blocksFrom T best (start + m) n := by
  rw [blocksFrom, ← range'_append_1, filterMap_append]
  rfl

theorem blocksFrom_one (h : T.atHeight start best = some b) : blocksFrom T best start 1 = [b] := by
  rw [blocksFrom, range'_one]
  simp only [filterMap_cons, h, filterMap_nil]

theorem mem_blocksFrom : b ∈ blocksFrom T best start n ↔
    b ∈ T.pathTo best ∧ start ≤ T.height b ∧ T.height b < start + n := by
  rw [blocksFrom, mem_filterMap]
  simp only [atHeight_eq_some_iff, mem_range'_1]
  constructor
  · rintro ⟨k, hk, hb, rfl⟩
    exact ⟨hb, hk⟩
  · rintro ⟨hb, hk⟩
    exact ⟨T.height b, hk, hb, rfl⟩

theorem pairwise_blocksFrom (best : β) (start n : Nat) :
    (blocksFrom T best start n).Pairwise fun a b => T.height a < T.height b := by
  rw [blocksFrom, pairwise_filterMap]
  refine List.Pairwise.imp ?_ pairwise_lt_range'
  intro j k hjk a ha b hb
  rw [(atHeight_eq_some_iff.mp ha).2, (atHeight_eq_some_iff.mp hb).2]
  exact hjk

/-- Filling a batch backwards from its last block gives the ancestors in order. -/
theorem readBatch_eq (hlast : last ∈ T.pathTo best) (hheight : T.height last + 1 = start + n) :
    readBatch T n (some last) = some (blocksFrom T best start n) := by
  induction n generalizing last with
  | zero => rfl
  | succ n ih =>
    have hat : T.atHeight (start + n) best = some last := atHeight_eq_some_iff.mpr ⟨hlast, by omega⟩
    rw [readBatch, blocksFrom_add, blocksFrom_one hat]
    by_cases hroot : last = T.root
    · -- The root ends a batch of one block, whose parent is not read.
      have hn : n = 0 := by
        rw [hroot, T.height_root] at hheight
        omega
      rw [hn]
      rfl
    · obtain ⟨p, hp⟩ := exists_parent hroot
      have hh := T.height_parent last p hp
      rw [hp, ih (pathTo_trans (parent_mem_pathTo hp) hlast) (by omega)]
      rfl

/-- A batch has a block, and does not pass the end of the walk, whatever the counts are. -/
theorem batchSize_spec {count size nMax heightWalk : Nat} (h : heightWalk < nMax) :
    ∃ n : Nat, batchSize count size nMax heightWalk = n ∧ 0 < n ∧
      heightWalk + n ≤ nMax := by
  rw [batchSize]
  generalize (BitVec.ofInt 32 ((count : Int) - size)).toInt = k
  exact ⟨(min ((nMax : Int) - heightWalk) (max k 128)).toNat, by omega, by omega, by omega⟩

/-! ## The scan -/

/-- A block that is worth asking for: it has no data and was not asked for yet. -/
def Wanted (s : IndexState β) (mapBlocksInFlight : β → Option NodeId) (b : β) : Prop :=
  (s.entry b).haveData = false ∧ mapBlocksInFlight b = none

instance : DecidablePred (Wanted s mapBlocksInFlight) :=
  fun _ => inferInstanceAs (Decidable (_ ∧ _))

/-- What scanning the blocks `l` turns `w` into: the wanted blocks of some initial part of `l`
are added, all inside the window, and the last common block stays or becomes a linked one
of `l`. -/
structure Scanned (T : BlockTree β) (s : IndexState β) (mapBlocksInFlight : β → Option NodeId)
    (count nWindowEnd : Nat) (l : List β) (w w' : DownloadWalk β) : Prop where
  added : ∃ seen, seen <+: l ∧
    w'.vBlocks = w.vBlocks ++ seen.filter fun b => decide (Wanted s mapBlocksInFlight b)
  window : ∀ b ∈ w'.vBlocks, b ∈ w.vBlocks ∨ T.height b ≤ nWindowEnd
  room : w'.returned = false → w'.vBlocks.length < count
  bounded : w'.vBlocks.length ≤ count
  common : w'.pindexLastCommonBlock = w.pindexLastCommonBlock ∨
    w'.pindexLastCommonBlock ∈ l ∧ s.Linked w'.pindexLastCommonBlock

/-- The blocks that follow do not matter. -/
theorem Scanned.extend {l l' : List β} {w' : DownloadWalk β}
    (h : Scanned T s inFlight count nEnd l w w') (hpre : l <+: l') :
    Scanned T s inFlight count nEnd l' w w' :=
  { h with
    added := h.added.imp fun _ hseen => ⟨hseen.1.trans hpre, hseen.2⟩
    common := h.common.imp_right (.imp_left (hpre.subset ·)) }

theorem Scanned.refl (l : List β) (hroom : w.vBlocks.length < count) :
    Scanned T s inFlight count nEnd l w w where
  added := ⟨[], nil_prefix, (append_nil _).symm⟩
  window := fun _ hb => .inl hb
  room := fun _ => hroom
  bounded := hroom.le
  common := .inl rfl

/-- One block. Unless the scan returns there, the block has been added exactly if it is
wanted. -/
theorem scanBlock_spec (hroom : w.vBlocks.length < count) :
    let w' := scanBlock T s inFlight nodeid count nEnd w b
    Scanned T s inFlight count nEnd [b] w w' ∧ (w'.returned = false →
      w'.vBlocks = w.vBlocks ++ [b].filter fun b => decide (Wanted s inFlight b)) := by
  have hstay : ∀ w' : DownloadWalk β, w'.vBlocks = w.vBlocks →
      w'.pindexLastCommonBlock = w.pindexLastCommonBlock →
      Scanned T s inFlight count nEnd [b] w w' := by
    intro w' hv hc
    refine ⟨⟨[], nil_prefix, ?_⟩, fun x hx => .inl (hv ▸ hx), fun _ => hv ▸ hroom,
      hv ▸ hroom.le, .inl hc⟩
    rw [hv, filter_nil, append_nil]
  have hskip : ¬ Wanted s inFlight b →
      w.vBlocks = w.vBlocks ++ [b].filter fun b => decide (Wanted s inFlight b) := by
    intro hnot
    rw [filter_cons_of_neg (by simpa using hnot), filter_nil, append_nil]
  rw [scanBlock]
  by_cases hvalid : (s.entry b).isValid BLOCK_VALID_TREE = false
  · rw [if_pos hvalid]
    exact ⟨hstay _ rfl rfl, fun h => absurd h Bool.noConfusion⟩
  by_cases hdata : (s.entry b).haveData = true
  · have hnot : ¬ Wanted s inFlight b := fun h => ne_true_of_eq_false h.1 hdata
    split_ifs with hlinked
    · exact ⟨{ Scanned.refl [b] hroom with common := .inr ⟨mem_singleton_self b, hlinked⟩ },
        fun _ => hskip hnot⟩
    · exact ⟨hstay _ rfl rfl, fun _ => hskip hnot⟩
  rcases hflight : inFlight b with _ | node
  · have hone : [b].filter (fun b => decide (Wanted s inFlight b)) = [b] :=
      filter_cons_of_pos (decide_eq_true ⟨eq_false_iff.mpr hdata, hflight⟩)
    dsimp only
    split_ifs with hend hstall
    · exact ⟨hstay _ rfl rfl, fun h => h.elim⟩
    · exact ⟨hstay _ rfl rfl, fun h => h.elim⟩
    · refine ⟨⟨⟨[b], prefix_rfl, by rw [hone]⟩, fun x hx => ?_, fun hr => ?_, ?_,
        .inl rfl⟩, fun _ => by rw [hone]⟩
      · rcases mem_append.mp hx with hx | hx
        · exact .inl hx
        · exact .inr (mem_singleton.mp hx ▸ not_lt.mp hend)
      · have hne := of_decide_eq_false hr
        rw [length_append, length_singleton]
        omega
      · rw [length_append, length_singleton]
        omega
  · have hnot : ¬ Wanted s inFlight b := fun h => some_ne_none node (hflight.symm.trans h.2)
    dsimp only
    split_ifs <;> exact ⟨hstay _ rfl rfl, fun _ => hskip hnot⟩

theorem scanBatch_of_returned (h : w.returned = true) (l : List β) :
    scanBatch T s inFlight nodeid count nEnd w l = w := by
  induction l with
  | nil => rfl
  | cons b bs ih =>
    rw [scanBatch, foldl_cons, if_pos h]
    exact ih

theorem scanBatch_append (l l' : List β) :
    scanBatch T s inFlight nodeid count nEnd w (l ++ l') =
      scanBatch T s inFlight nodeid count nEnd
        (scanBatch T s inFlight nodeid count nEnd w l) l' :=
  foldl_append

/-- A whole scan. -/
theorem scan_spec (hroom : w.vBlocks.length < count) (l : List β) :
    Scanned T s inFlight count nEnd l w
      (scanBatch T s inFlight nodeid count nEnd w l) := by
  induction l generalizing w with
  | nil => exact Scanned.refl [] hroom
  | cons b bs ih =>
    by_cases hw : w.returned = true
    · rw [scanBatch_of_returned hw]
      exact Scanned.refl _ hroom
    obtain ⟨hone, hadd⟩ := @scanBlock_spec β T s inFlight nodeid b count nEnd w hroom
    have hstep : scanBatch T s inFlight nodeid count nEnd w (b :: bs) =
        scanBatch T s inFlight nodeid count nEnd
          (scanBlock T s inFlight nodeid count nEnd w b) bs := by
      rw [scanBatch, foldl_cons, if_neg hw]
      rfl
    rw [hstep]
    generalize scanBlock T s inFlight nodeid count nEnd w b = w1 at hone hadd ⊢
    have hpart := hone.extend (prefix_append [b] bs)
    rcases hret : w1.returned with _ | _
    · -- The block is dealt with, and the scan of the rest goes on from there.
      have hrest := ih (hone.room hret)
      obtain ⟨seen, hpre, hseen⟩ := hrest.added
      refine ⟨⟨b :: seen, (prefix_cons_inj b).mpr hpre, ?_⟩, fun x hx => ?_, hrest.room,
        hrest.bounded, ?_⟩
      · rw [hseen, hadd hret, append_assoc, ← filter_append, singleton_append]
      · rcases hrest.window x hx with hx | hx
        · exact hone.window x hx
        · exact .inr hx
      · rcases hrest.common with hc | ⟨hmem, hlinked⟩
        · exact hc ▸ hpart.common
        · exact .inr ⟨mem_cons_of_mem b hmem, hlinked⟩
    · rw [scanBatch_of_returned hret]
      exact hpart

/-! ## The loop -/

/-- The loop ends, and the batches it reads are together the blocks above
`walk` up to `nMaxHeight`, scanned once. -/
theorem walkLoop_spec (hskip : SkipsTo T.toParentTree pskip best)
    (hmax : nMax ≤ T.height best) {fuel : Nat} (hfuel : nMax - T.height walk < fuel)
    (hw : w.returned = false) :
    walkLoop T pskip s inFlight nodeid count nEnd nMax best fuel walk w =
      some (scanBatch T s inFlight nodeid count nEnd w
        (blocksFrom T best (T.height walk + 1) (nMax - T.height walk))) := by
  induction fuel generalizing walk w with
  | zero => exact absurd hfuel (not_lt_zero _)
  | succ fuel ih =>
    rw [walkLoop]
    split_ifs with hlt
    · obtain ⟨n, hn, hpos, hle⟩ := @batchSize_spec count w.vBlocks.length _ _ hlt
      obtain ⟨next, hnext⟩ := exists_atHeight (hle.trans hmax)
      obtain ⟨hmem, hheight⟩ := atHeight_eq_some_iff.mp hnext
      have hanc : getAncestor T.toParentTree pskip best
          ((T.height walk : Int) + (n : Int)) = some (some next) := by
        rw [getAncestor_eq hskip, if_neg (by omega), ← Int.natCast_add, Int.toNat_natCast, hnext]
      have hread : readBatch T n (some next) = some (blocksFrom T best (T.height walk + 1) n) :=
        readBatch_eq hmem (by omega)
      -- The rest of the blocks are those above the last one of this batch.
      have hsplit : blocksFrom T best (T.height walk + 1) (nMax - T.height walk) =
          blocksFrom T best (T.height walk + 1) n ++
            blocksFrom T best (T.height next + 1) (nMax - T.height next) := by
        rw [show nMax - T.height walk = n + (nMax - T.height next) by omega,
          blocksFrom_add, show T.height walk + 1 + n = T.height next + 1 by omega]
      rw [hn]
      dsimp only
      rw [hanc, join_some, bind_some, Int.toNat_natCast, hread, bind_some, hsplit, scanBatch_append]
      split_ifs with hret
      · rw [scanBatch_of_returned hret]
      · exact ih (by omega) (eq_false_iff.mpr hret)
    · rw [show nMax - T.height walk = 0 by omega]
      rfl

/-! ## The invariant -/

section Invariant

/-- What the block index, the active chain and the record of a peer satisfy: the skip pointers
are right, a linked block has data and a linked parent, `chainActive` is the path of the tip and
the tip is linked, the best known block is in the index and the last common block is linked. -/
structure DownloadInv (T : BlockTree β) (pskip : β → Option β) (s : IndexState β)
    (chainActive : CChain β) (peer : PeerBlocks β) : Prop where
  skips : ∀ b ∈ s.mapBlockIndex, SkipsTo T.toParentTree pskip b
  linked_known : ∀ b, s.Linked b → b ∈ s.mapBlockIndex
  linked_data : ∀ b, s.Linked b → (s.entry b).haveData = true
  linked_parent : ∀ b p, s.Linked b → T.parent b = some p → s.Linked p
  chain : CChain.Holds T.toParentTree chainActive s.tip
  tip_linked : s.Linked s.tip
  best_known : ∀ b, peer.pindexBestKnownBlock = some b → b ∈ s.mapBlockIndex
  common_linked : ∀ b, peer.pindexLastCommonBlock = some b → s.Linked b

/-- The invariant of the block index that arrivals keep has the parts about the index. -/
theorem DownloadInv.of_indexInv (h : s.IndexInv T [] s.tip)
    (hskips : ∀ b ∈ s.mapBlockIndex, SkipsTo T.toParentTree pskip b)
    (hchain : CChain.Holds T.toParentTree active s.tip)
    (hbest : ∀ b, peer.pindexBestKnownBlock = some b → b ∈ s.mapBlockIndex)
    (hcommon : ∀ b, peer.pindexLastCommonBlock = some b → s.Linked b) :
    DownloadInv T pskip s active peer where
  skips := hskips
  linked_known := fun _ hb => h.stored.linked_known hb
  linked_data := h.stored.linked_data
  linked_parent := h.stored.linked_parent
  chain := hchain
  tip_linked := h.anchored.solid.linked
  best_known := hbest
  common_linked := hcommon

theorem DownloadInv.linked_of_mem_pathTo (h : DownloadInv T pskip s active peer)
    (hb : s.Linked b) (ha : a ∈ T.pathTo b) : s.Linked a :=
  of_mem_pathTo h.linked_parent hb ha

/-- Another record of the peer. -/
theorem DownloadInv.of_peer {peer' : PeerBlocks β} (h : DownloadInv T pskip s active peer)
    (hbest : ∀ b, peer'.pindexBestKnownBlock = some b → b ∈ s.mapBlockIndex)
    (hcommon : ∀ b, peer'.pindexLastCommonBlock = some b → s.Linked b) :
    DownloadInv T pskip s active peer' :=
  { h with best_known := hbest, common_linked := hcommon }

theorem CChain.Holds.tip_eq {T : ParentTree β} {c : CChain β} {A : β} (h : CChain.Holds T c A) :
    c.tip = some A := by
  rw [CChain.tip, getLast?_eq_getElem?, h.length, Nat.add_sub_cancel, h.entries _ le_rfl,
    join_some, atHeight_self]

namespace PeerBlocks

theorem noteBlock_spec (peer : PeerBlocks β) (b : β) :
    (peer.noteBlock T b).pindexLastCommonBlock = peer.pindexLastCommonBlock ∧
      ((peer.noteBlock T b).pindexBestKnownBlock = some b ∨
        (peer.noteBlock T b).pindexBestKnownBlock = peer.pindexBestKnownBlock) := by
  rw [noteBlock]
  split_ifs
  · exact ⟨rfl, .inl rfl⟩
  · exact ⟨rfl, .inr rfl⟩

theorem noteBlock_inv (h : DownloadInv T pskip s active peer) (hb : b ∈ s.mapBlockIndex) :
    DownloadInv T pskip s active (peer.noteBlock T b) := by
  obtain ⟨hcommon, hbest⟩ := @noteBlock_spec β T peer b
  refine h.of_peer (fun x hx => ?_) (hcommon ▸ h.common_linked)
  rcases hbest with hbest | hbest
  · rw [hbest, some_inj] at hx
    exact hx ▸ hb
  · exact h.best_known x (hbest ▸ hx)

variable [DecidableEq β]

theorem processBlockAvailability_common (peer : PeerBlocks β) :
    (peer.processBlockAvailability T s).pindexLastCommonBlock = peer.pindexLastCommonBlock := by
  rw [processBlockAvailability]
  rcases peer.hashLastUnknownBlock with _ | hash
  · rfl
  · dsimp only
    split_ifs
    · exact (noteBlock_spec peer hash).1
    · rfl

theorem processBlockAvailability_inv (h : DownloadInv T pskip s active peer) :
    DownloadInv T pskip s active (peer.processBlockAvailability T s) := by
  rw [processBlockAvailability]
  rcases peer.hashLastUnknownBlock with _ | hash
  · exact h
  · dsimp only
    split_ifs with hknown
    · have hnote := noteBlock_inv h hknown.1
      exact hnote.of_peer hnote.best_known hnote.common_linked
    · exact h

/-- An announcement keeps the invariant too. -/
theorem updateBlockAvailability_inv (h : DownloadInv T pskip s active peer) (hash : β) :
    DownloadInv T pskip s active (peer.updateBlockAvailability T s hash) := by
  have hprocess := processBlockAvailability_inv h
  rw [updateBlockAvailability]
  split_ifs with hknown
  · exact noteBlock_inv hprocess hknown.1
  · exact hprocess.of_peer hprocess.best_known hprocess.common_linked

end PeerBlocks

variable [DecidableEq β]

/-- Whatever the record says, the walk starts at a linked ancestor of the best known block. -/
theorem commonOnEntry_spec (h : DownloadInv T pskip s active peer)
    (hbest : best ∈ s.mapBlockIndex) :
    ∃ common, commonOnEntry T pskip active peer best = some common ∧
      common ∈ T.pathTo best ∧ s.Linked common := by
  have hstart : ∃ start, s.Linked start ∧ peer.pindexLastCommonBlock.or
      (active.entryAt (min (T.height best : Int) active.height)) = some start := by
    rcases hc : peer.pindexLastCommonBlock with _ | c
    · -- The guess is a block of the active chain.
      obtain ⟨g, hg⟩ := exists_atHeight (min_le_right (T.height best) (T.height s.tip))
      refine ⟨g, h.linked_of_mem_pathTo h.tip_linked (atHeight_eq_some_iff.mp hg).1, ?_⟩
      have hmin : min (T.height best : Int) (T.height s.tip) =
          (min (T.height best) (T.height s.tip) : Nat) := by omega
      rw [none_or, h.chain.height_eq, hmin, h.chain.entryAt (min_le_right _ _), hg]
    · exact ⟨c, h.common_linked c hc, rfl⟩
  obtain ⟨start, hlinked, hsome⟩ := hstart
  obtain ⟨F, hfork⟩ := exists_isFork T.toParentTree start best
  refine ⟨F, ?_, hfork.right, h.linked_of_mem_pathTo hlinked hfork.left⟩
  rw [commonOnEntry, hsome, bind_some, lastCommonAncestor_spec
    (h.skips start (h.linked_known start hlinked)) (h.skips best hbest) hfork, join_some]

end Invariant

/-! ## The blocks that are asked for -/

/-- What is asked for when the walk goes from `common` to `best`: at most `count` wanted blocks
of the peer's chain inside the window, in the order of their heights, and with a block every
wanted one below it. -/
structure Requested (T : BlockTree β) (s : IndexState β) (mapBlocksInFlight : β → Option NodeId)
    (best common : β) (count : Nat) (vBlocks : List β) : Prop where
  length_le : vBlocks.length ≤ count
  ascending : vBlocks.Pairwise fun a b => T.height a < T.height b
  ancestor : ∀ b ∈ vBlocks, b ∈ T.pathTo best
  wanted : ∀ b ∈ vBlocks, Wanted s mapBlocksInFlight b
  window : ∀ b ∈ vBlocks, T.height b ≤ T.height common + BLOCK_DOWNLOAD_WINDOW
  complete : ∀ b ∈ vBlocks, ∀ a ∈ T.pathTo best, Wanted s mapBlocksInFlight a →
    T.height a < T.height b → a ∈ vBlocks

theorem Requested.nil (count : Nat) : Requested T s inFlight best common count [] where
  length_le := zero_le _
  ascending := List.Pairwise.nil
  ancestor := by simp
  wanted := by simp
  window := by simp
  complete := by simp

/-- In a list that ascends, an initial part with a block has everything below it. -/
theorem mem_of_prefix_of_height_lt {l seen : List β}
    (hl : l.Pairwise fun a b => T.height a < T.height b) (hpre : seen <+: l) (ha : a ∈ l)
    (hb : b ∈ seen) (hlt : T.height a < T.height b) : a ∈ seen := by
  obtain ⟨rest, rfl⟩ := hpre
  rcases mem_append.mp ha with ha | ha
  · exact ha
  · exact absurd ((pairwise_append.mp hl).2.2 b hb a ha) (by omega)

/-- A scan of the blocks above the common one asks for the right blocks and leaves the last common
block on the peer's chain. -/
theorem Scanned.requested (h : DownloadInv T pskip s active peer) {w w' : DownloadWalk β}
    (hcommon : common ∈ T.pathTo best) (hlinked : s.Linked common)
    (hw : w.pindexLastCommonBlock = common) (hv : w.vBlocks = [])
    (hscan : Scanned T s inFlight count (T.height common + BLOCK_DOWNLOAD_WINDOW)
      (blocksFrom T best (T.height common + 1) n) w w') :
    w'.pindexLastCommonBlock ∈ T.pathTo best ∧ s.Linked w'.pindexLastCommonBlock ∧
      Requested T s inFlight best common count w'.vBlocks := by
  have hkeep : w'.pindexLastCommonBlock ∈ T.pathTo best ∧ s.Linked w'.pindexLastCommonBlock := by
    rcases hscan.common with hc | ⟨hmem, hl⟩
    · rw [hc, hw]
      exact ⟨hcommon, hlinked⟩
    · exact ⟨(mem_blocksFrom.mp hmem).1, hl⟩
  obtain ⟨seen, hpre, hseen⟩ := hscan.added
  rw [hv, nil_append] at hseen
  have hsorted := pairwise_blocksFrom (T := T) best (T.height common + 1) n
  have hmem : ∀ b ∈ w'.vBlocks, b ∈ seen ∧ Wanted s inFlight b := by
    intro b hb
    rw [hseen, mem_filter, decide_eq_true_eq] at hb
    exact hb
  refine ⟨hkeep.1, hkeep.2, hscan.bounded, ?_, fun b hb => ?_, fun b hb => (hmem b hb).2,
    fun b hb => ?_, ?_⟩
  · rw [hseen]
    exact (hsorted.sublist hpre.sublist).filter _
  · exact (mem_blocksFrom.mp (hpre.subset (hmem b hb).1)).1
  · refine (hscan.window b hb).resolve_left ?_
    rw [hv]
    exact not_mem_nil
  · intro b hb a ha hwanted hlt
    have hbheight := (mem_blocksFrom.mp (hpre.subset (hmem b hb).1)).2
    -- Up to the common block everything has data.
    have hanew : T.height common < T.height a := by
      by_contra hle
      have hpath := mem_pathTo_of_height_le ha hcommon (not_lt.mp hle)
      have hdata := h.linked_data a (h.linked_of_mem_pathTo hlinked hpath)
      exact ne_true_of_eq_false hwanted.1 hdata
    have hal : a ∈ blocksFrom T best (T.height common + 1) n :=
      mem_blocksFrom.mpr ⟨ha, hanew, by omega⟩
    rw [hseen, mem_filter, decide_eq_true_eq]
    exact ⟨mem_of_prefix_of_height_lt hsorted hpre hal (hmem b hb).1 hlt, hwanted⟩

end Download

section Main

variable [DecidableEq β] {T : BlockTree β} {pskip : β → Option β} {s : IndexState β}
variable {chainActive : CChain β}
variable {mapBlocksInFlight : β → Option NodeId} {peer : PeerBlocks β} {best : β} {count : UInt32}

/-- The walk is reached: something may be asked for, and the peer's best block, which is `best`,
has at least the work of the tip. -/
def Walks (T : BlockTree β) (s : IndexState β) (peer : PeerBlocks β) (count : UInt32) (best : β) :
    Prop :=
  count ≠ 0 ∧ (peer.processBlockAvailability T s).pindexBestKnownBlock = some best ∧
    T.nChainWork s.tip ≤ T.nChainWork best

/-- A walk ends, asks for the right blocks and leaves the last common block on the peer's
chain. -/
theorem findNextBlocksToDownload_of_walks (h : DownloadInv T pskip s chainActive peer)
    (hwalks : Walks T s peer count best) (nodeid nodeStaller : NodeId) :
    ∃ common common' vBlocks staller,
      commonOnEntry T pskip chainActive (peer.processBlockAvailability T s) best = some common ∧
      findNextBlocksToDownload T pskip s mapBlocksInFlight chainActive nodeid count peer
        nodeStaller = some ({ peer.processBlockAvailability T s with
          pindexLastCommonBlock := some common' }, vBlocks, staller) ∧
      common' ∈ T.pathTo best ∧ s.Linked common' ∧
      Requested T s mapBlocksInFlight best common count.toNat vBlocks := by
  obtain ⟨hcount, hbest, hwork⟩ := hwalks
  have hprocess := PeerBlocks.processBlockAvailability_inv h
  have hknown := hprocess.best_known best hbest
  obtain ⟨common, hentry, hpath, hlinked⟩ := commonOnEntry_spec hprocess hknown
  simp only [findNextBlocksToDownload, if_neg hcount, hbest, h.chain.tip_eq, bind_some,
    if_neg (not_lt.mpr hwork), hentry]
  by_cases hsame : common = best
  · rw [if_pos hsame]
    exact ⟨common, common, [], nodeStaller, rfl, rfl, hpath, hlinked, Requested.nil _⟩
  rw [if_neg hsame, walkLoop_spec (hprocess.skips best hknown) (min_le_left _ _) (by omega) rfl]
  have hpos : 0 < count.toNat := by
    rw [Nat.pos_iff_ne_zero]
    exact fun h0 => hcount (UInt32.toNat_inj.mp h0)
  exact ⟨common, _, _, _, rfl, rfl, (scan_spec hpos _).requested hprocess hpath hlinked rfl rfl⟩

/-- Without a walk nothing is asked for, and the last common block stays what it was. -/
theorem findNextBlocksToDownload_of_not_walks (h : DownloadInv T pskip s chainActive peer)
    (hnot : ∀ best, ¬ Walks T s peer count best) (nodeid nodeStaller : NodeId) :
    ∃ peer', findNextBlocksToDownload T pskip s mapBlocksInFlight chainActive nodeid count peer
        nodeStaller = some (peer', [], nodeStaller) ∧
      (peer' = peer ∨ peer' = peer.processBlockAvailability T s) := by
  rw [findNextBlocksToDownload]
  by_cases hcount : count = 0
  · exact ⟨peer, if_pos hcount, .inl rfl⟩
  rw [if_neg hcount]
  dsimp only
  refine ⟨_, ?_, .inr rfl⟩
  rcases hbest : (peer.processBlockAvailability T s).pindexBestKnownBlock with _ | best
  · rfl
  · dsimp only
    have hless : T.nChainWork best < T.nChainWork s.tip :=
      not_le.mp fun hle => hnot best ⟨hcount, hbest, hle⟩
    rw [h.chain.tip_eq, bind_some, if_pos hless]

/-- **`findNextBlocksToDownload_correct`** — `FindNextBlocksToDownload` ends without following a
null pointer and keeps the invariant. If the peer's best block has at least the work of the tip,
and something may be asked for, it asks for the right blocks and leaves the last common block on
the peer's chain. If not, it asks for nothing and leaves the last common block alone. -/
theorem findNextBlocksToDownload_correct {count : UInt32}
    (h : DownloadInv T pskip s chainActive peer) (nodeid nodeStaller : NodeId) :
    ∃ peer' vBlocks staller,
      findNextBlocksToDownload T pskip s mapBlocksInFlight chainActive nodeid count peer
        nodeStaller = some (peer', vBlocks, staller) ∧
      DownloadInv T pskip s chainActive peer' ∧ vBlocks.Nodup ∧
      (∀ best, Walks T s peer count best → peer'.pindexBestKnownBlock = some best ∧
        ∃ common common',
          commonOnEntry T pskip chainActive (peer.processBlockAvailability T s) best = some common ∧
          Requested T s mapBlocksInFlight best common count.toNat vBlocks ∧
          peer'.pindexLastCommonBlock = some common' ∧ common' ∈ T.pathTo best) ∧
      ((∀ best, ¬ Walks T s peer count best) →
        vBlocks = [] ∧ peer'.pindexLastCommonBlock = peer.pindexLastCommonBlock) := by
  have hprocess := PeerBlocks.processBlockAvailability_inv h
  by_cases hw : ∃ best, Walks T s peer count best
  · obtain ⟨best, hwalks⟩ := hw
    obtain ⟨common, common', vBlocks, staller, hentry, heq, hpath, hlinked, hreq⟩ :=
      @findNextBlocksToDownload_of_walks β _ T pskip s chainActive mapBlocksInFlight peer best count
        h hwalks nodeid nodeStaller
    refine ⟨_, vBlocks, staller, heq, ?_, ?_, ?_, fun hnot => absurd hwalks (hnot best)⟩
    · refine hprocess.of_peer hprocess.best_known fun b hb => ?_
      exact some_inj.mp hb ▸ hlinked
    · refine hreq.ascending.imp fun {a b} hlt he => ?_
      rw [he] at hlt
      exact lt_irrefl _ hlt
    · intro best' hwalks'
      obtain rfl : best = best' := some_inj.mp (hwalks.2.1.symm.trans hwalks'.2.1)
      exact ⟨hwalks.2.1, common, common', hentry, hreq, rfl, hpath⟩
  · obtain ⟨peer', heq, hpeer⟩ := @findNextBlocksToDownload_of_not_walks β _ T pskip s chainActive
      mapBlocksInFlight peer count h (fun best hb => hw ⟨best, hb⟩) nodeid nodeStaller
    refine ⟨peer', [], nodeStaller, heq, ?_, nodup_nil, fun best hb => absurd ⟨best, hb⟩ hw,
      fun _ => ⟨rfl, ?_⟩⟩
    · rcases hpeer with rfl | rfl
      · exact h
      · exact hprocess
    · rcases hpeer with rfl | rfl
      · rfl
      · exact PeerBlocks.processBlockAvailability_common peer

end Main

/-! ## A peer that moved to another branch -/

namespace ForkBlock

def tree : BlockTree ForkBlock := treeWith (fun _ => true) rfl

/-- The entries when the left branch has been connected and of the other blocks only the headers
are known. -/
def entry : ForkBlock → IndexEntry
  | genesis => ⟨5, true, false, false, 1, 1, 0⟩
  | left => ⟨5, true, false, false, 1, 2, 1⟩
  | leftTop => ⟨5, true, false, false, 1, 3, 2⟩
  | leftSide => ⟨2, false, false, false, 0, 0, 0⟩
  | right => ⟨2, false, false, false, 0, 0, 0⟩
  | rightTop => ⟨2, false, false, false, 0, 0, 0⟩

def downloadIndex : IndexState ForkBlock where
  mapBlockIndex := [genesis, left, leftTop, leftSide, right, rightTop]
  entry := entry
  setBlockIndexCandidates := [leftTop]
  mapBlocksUnlinked := []
  tip := leftTop
  nBlockSequenceId := 3
  addr := addr

def chainActive : CChain ForkBlock :=
  (⟨[]⟩ : CChain ForkBlock).setTip tree.toParentTree (some leftTop)

/-- Every record of a peer is fine if its last common block is on the left branch. -/
theorem downloadInv {peer : PeerBlocks ForkBlock}
    (hcommon : ∀ b, peer.pindexLastCommonBlock = some b → downloadIndex.Linked b) :
    DownloadInv tree tree.pskip downloadIndex chainActive peer where
  skips := by
    intro b _ a _ hne
    cases a <;> first | exact absurd rfl hne | rfl
  linked_known := by
    intro b hb
    cases b <;> decide
  linked_data := by
    intro b hb
    cases b <;> first | rfl | exact absurd rfl hb
  linked_parent := by
    intro b p hb hp
    cases b <;> cases p <;> first
      | exact absurd rfl hb
      | exact absurd hp (by decide)
      | exact fun h => absurd h (by decide)
  chain := CChain.setTip_holds (.inl rfl) leftTop
  tip_linked := fun h => absurd h (by decide)
  best_known := by
    intro b _
    cases b <;> decide
  common_linked := hcommon

/-- The peer announced the left block first and then the right one. -/
def movedPeer : PeerBlocks ForkBlock :=
  { pindexBestKnownBlock := some right, pindexLastCommonBlock := some left }

def newPeer : PeerBlocks ForkBlock := { pindexBestKnownBlock := some rightTop }

end ForkBlock

open ForkBlock in
/-- A peer whose best block has less work than the tip is left alone, and its last common block
stays on a branch that the peer has left. -/
theorem movedPeer_keeps_common : DownloadInv tree tree.pskip downloadIndex chainActive movedPeer ∧
      findNextBlocksToDownload tree tree.pskip downloadIndex (fun _ => none) chainActive 0 16
        movedPeer 0 = some (movedPeer, [], 0) ∧
      movedPeer.pindexLastCommonBlock = some left ∧
      movedPeer.pindexBestKnownBlock = some right ∧ left ∉ tree.pathTo right := by
  refine ⟨ForkBlock.downloadInv fun b hb => ?_, by decide +kernel, rfl, rfl, by decide⟩
  rw [← some_inj.mp hb]
  exact fun h => absurd h (by decide)

open ForkBlock in
/-- From a new peer with the right branch both of its blocks are asked for. -/
theorem newPeer_is_asked : DownloadInv tree tree.pskip downloadIndex chainActive newPeer ∧
      Walks tree downloadIndex newPeer 16 rightTop ∧
      ∃ peer' vBlocks staller,
        findNextBlocksToDownload tree tree.pskip downloadIndex (fun _ => none) chainActive 0 16
          newPeer 0 = some (peer', vBlocks, staller) ∧ vBlocks = [right, rightTop] ∧
        ∃ common', peer'.pindexLastCommonBlock = some common' ∧ common' ∈ tree.pathTo rightTop := by
  have hinv : DownloadInv tree tree.pskip downloadIndex chainActive newPeer :=
    ForkBlock.downloadInv fun b hb => absurd hb (some_ne_none b).symm
  have hwalks : Walks tree downloadIndex newPeer 16 rightTop := ⟨by decide, by decide, by decide⟩
  obtain ⟨peer', vBlocks, staller, heq, -, -, hw, -⟩ :=
    @findNextBlocksToDownload_correct ForkBlock _ tree tree.pskip downloadIndex chainActive
      (fun _ => none) newPeer 16 hinv 0 0
  obtain ⟨-, common, common', -, -, hcommon', hpath⟩ := hw rightTop hwalks
  have hrun : (findNextBlocksToDownload tree tree.pskip downloadIndex (fun _ => none) chainActive 0
      16 newPeer 0).map (fun r => r.2.1) = some [right, rightTop] := by decide +kernel
  rw [heq, map_some, some_inj] at hrun
  exact ⟨hinv, hwalks, peer', vBlocks, staller, heq, hrun, common', hcommon', hpath⟩

end MonetaryUnit
