/-
# MonetaryUnit.Merkle.Extraction — what a received partial tree can make a node believe

The bits and hashes of a received `CPartialMerkleTree` are whatever the peer chose. Two things hold
all the same.

`ExtractMatches` comes to an end and stays inside its two arrays: written once more with reads that
fail outside the array and a loop that fails when it does not end, it is the same function
(`extractMatchesChecked_eq`).

If the root it returns is the root of a block, then what it reports is in the block. The walk is
compared with the tree of the block: the hash returned for a node is the hash of two nodes on both
sides, so both children agree, down to the reported leaf. Zero is what `ExtractMatches` returns for
a failure, so nothing is said about a block whose root is zero.
-/

import MonetaryUnit.Merkle.PartialTree

namespace MonetaryUnit

open Lib List CPartialMerkleTree Nat Bool

/-! ## Reads that can fail -/

/-- What `ExtractMatches` could do wrong on an array or in its loop. -/
inductive ExtractFault
  | bitsOutOfRange
  | hashesOutOfRange
  | heightUnbounded
deriving DecidableEq

section Checked

variable (hashPair : Uint256 → Uint256 → Uint256) (t : CPartialMerkleTree)

/-- `v[i]`. -/
def readAt {α : Type} (fault : ExtractFault) (v : List α) (i : Nat) : Except ExtractFault α :=
  match v[i]? with
  | some a => .ok a
  | none => .error fault

/-- The loop for the height, with an end of the fuel as a fault. -/
def treeHeightChecked (nTransactions : UInt32) : Nat → Nat → Except ExtractFault Nat
  | 0, _ => .error .heightUnbounded
  | fuel + 1, nHeight =>
    if calcTreeWidth nTransactions nHeight > 1 then
      treeHeightChecked nTransactions fuel (nHeight + 1)
    else .ok nHeight

/-- Use a stored hash and do not descend. -/
def useStoredHashChecked (matched : Bool) (s : ExtractState) :
    Except ExtractFault (Uint256 × ExtractState) :=
  if s.nHashUsed ≥ t.vHash.length then .ok (0, { s with fBad := true })
  else do
    let hash ← readAt .hashesOutOfRange t.vHash s.nHashUsed
    pure (hash, { s with
      nHashUsed := s.nHashUsed + 1
      vMatch := if matched then s.vMatch ++ [hash] else s.vMatch })

def traverseAndExtractChecked :
    Nat → Nat → ExtractState → Except ExtractFault (Uint256 × ExtractState)
  | 0, _, s =>
    if s.nBitsUsed ≥ t.vBits.length then .ok (0, { s with fBad := true })
    else do
      let fParentOfMatch ← readAt .bitsOutOfRange t.vBits s.nBitsUsed
      useStoredHashChecked t fParentOfMatch { s with nBitsUsed := s.nBitsUsed + 1 }
  | height + 1, pos, s =>
    if s.nBitsUsed ≥ t.vBits.length then .ok (0, { s with fBad := true })
    else do
      let fParentOfMatch ← readAt .bitsOutOfRange t.vBits s.nBitsUsed
      if fParentOfMatch then
        let l ← traverseAndExtractChecked height (pos * 2) { s with nBitsUsed := s.nBitsUsed + 1 }
        if pos * 2 + 1 < calcTreeWidth t.nTransactions height then
          let r ← traverseAndExtractChecked height (pos * 2 + 1) l.2
          pure (hashPair l.1 r.1, r.2)
        else pure (hashPair l.1 l.1, l.2)
      else useStoredHashChecked t false { s with nBitsUsed := s.nBitsUsed + 1 }

/-- `ExtractMatches` with every read and every round accounted for. -/
def CPartialMerkleTree.extractMatchesChecked :
    Except ExtractFault (Uint256 × List Uint256 × CPartialMerkleTree) :=
  if sizesPlausible t then do
    let nHeight ← treeHeightChecked t.nTransactions 32 0
    let (hashMerkleRoot, s) ← traverseAndExtractChecked hashPair t nHeight 0 ⟨0, 0, [], t.fBad⟩
    pure (if allConsumed t s then hashMerkleRoot else 0, s.vMatch, { t with fBad := s.fBad })
  else .ok (0, [], t)

end Checked

variable {hashPair : Uint256 → Uint256 → Uint256} {t : CPartialMerkleTree}

theorem readAt_of_lt {α : Type} {fault : ExtractFault} {v : List α} {i : Nat} (hi : i < v.length) :
    readAt fault v i = .ok v[i] := by
  rw [readAt, getElem?_eq_getElem hi]

theorem useStoredHashChecked_eq (matched : Bool) (s : ExtractState) :
    useStoredHashChecked t matched s = .ok (useStoredHash t matched s) := by
  rw [useStoredHashChecked, useStoredHash]
  rcases lt_or_ge s.nHashUsed t.vHash.length with hlt | hge
  · rw [if_neg (not_le.mpr hlt), readAt_of_lt hlt, getElem?_eq_getElem hlt]
    rfl
  · rw [if_pos hge, getElem?_eq_none hge]

/-- The check before every read of a bit or a hash covers the read. -/
theorem traverseAndExtractChecked_eq (height pos : Nat) (s : ExtractState) :
    traverseAndExtractChecked hashPair t height pos s =
      .ok (traverseAndExtract hashPair t height pos s) := by
  induction height generalizing pos s with
  | zero =>
    rw [traverseAndExtractChecked, traverseAndExtract]
    rcases lt_or_ge s.nBitsUsed t.vBits.length with hlt | hge
    · rw [if_neg (not_le.mpr hlt), readAt_of_lt hlt, getElem?_eq_getElem hlt]
      exact useStoredHashChecked_eq _ _
    · rw [if_pos hge, getElem?_eq_none hge]
  | succ height ih =>
    rw [traverseAndExtractChecked, traverseAndExtract]
    rcases lt_or_ge s.nBitsUsed t.vBits.length with hlt | hge
    · rw [if_neg (not_le.mpr hlt), readAt_of_lt hlt, getElem?_eq_getElem hlt]
      cases t.vBits[s.nBitsUsed] with
      | false => exact useStoredHashChecked_eq _ _
      | true =>
        by_cases hright : pos * 2 + 1 < calcTreeWidth t.nTransactions height
        · simp only [ih, hright, if_true]
          rfl
        · simp only [ih, hright, if_false]
          rfl
    · rw [if_pos hge, getElem?_eq_none hge]

/-- A round of the loop that was not cut off is a round of the checked one. -/
theorem treeHeightChecked_eq {n : UInt32} {fuel k : Nat} (hend : treeHeight n fuel k < k + fuel) :
    treeHeightChecked n fuel k = .ok (treeHeight n fuel k) := by
  induction fuel generalizing k with
  | zero =>
    rw [treeHeight] at hend
    omega
  | succ fuel ih =>
    rw [treeHeight] at hend ⊢
    rw [treeHeightChecked]
    split
    · next hwide =>
      rw [if_pos hwide] at hend
      exact ih (by omega)
    · rfl

/-- On any bits and hashes `ExtractMatches` ends, and every bit
and hash it reads is in its array. -/
theorem extractMatchesChecked_eq (hashPair : Uint256 → Uint256 → Uint256) (t : CPartialMerkleTree) :
    t.extractMatchesChecked hashPair = .ok (t.extractMatches hashPair) := by
  rw [extractMatchesChecked, extractMatches]
  split
  · next hsizes =>
    simp only [sizesPlausible, and_eq_true, decide_eq_true_eq] at hsizes
    have hmax : maxBlockSize / 60 = 83333 := rfl
    obtain ⟨hle, -, -⟩ := @treeHeight_of_le_two_pow t.nTransactions 17 (by omega) (by omega)
    rw [treeHeightChecked_eq (by omega)]
    show Except.bind (traverseAndExtractChecked hashPair t (treeHeight t.nTransactions 32 0) 0 _)
      _ = _
    rw [traverseAndExtractChecked_eq]
    rfl
  · rfl

/-! ## An accepted walk follows the tree of the block -/

section Pairs

variable (hashPair : Uint256 → Uint256 → Uint256) (t : CPartialMerkleTree)

/-- The pairs that the walk below a node hashes. -/
def traversedPairs : Nat → Nat → ExtractState → List (Uint256 × Uint256)
  | 0, _, _ => []
  | height + 1, pos, s =>
    if t.vBits[s.nBitsUsed]? = some true then
      let s' := { s with nBitsUsed := s.nBitsUsed + 1 }
      let l := traverseAndExtract hashPair t height (pos * 2) s'
      traversedPairs height (pos * 2) s' ++
        if pos * 2 + 1 < calcTreeWidth t.nTransactions height then
          (l.1, (traverseAndExtract hashPair t height (pos * 2 + 1) l.2).1) ::
            traversedPairs height (pos * 2 + 1) l.2
        else [(l.1, l.1)]
    else []

/-- The pairs that `ExtractMatches` hashes. -/
def CPartialMerkleTree.extractPairs : List (Uint256 × Uint256) :=
  if sizesPlausible t then
    traversedPairs hashPair t (treeHeight t.nTransactions 32 0) 0 ⟨0, 0, [], t.fBad⟩
  else []

end Pairs

/-- A stored hash that is used adds at most itself to the matches. -/
theorem mem_useStoredHash {matched : Bool} {s : ExtractState} {x : Uint256}
    (hx : x ∈ (useStoredHash t matched s).2.vMatch) :
    x ∈ s.vMatch ∨ (matched = true ∧ x = (useStoredHash t matched s).1) := by
  rw [useStoredHash] at hx ⊢
  cases hget : t.vHash[s.nHashUsed]? with
  | none =>
    rw [hget] at hx
    exact .inl hx
  | some hash =>
    rw [hget] at hx
    cases matched with
    | false => exact .inl hx
    | true =>
      have hx' : x ∈ s.vMatch ++ [hash] := hx
      rw [mem_append, mem_singleton] at hx'
      exact hx'.imp id fun heq => ⟨rfl, heq⟩

/-- A walk below a node that returns the hash of that node in the
tree of the block reports only transactions of the block. -/
theorem traverseAndExtract_mem {vTxid : List Uint256} {H height pos fuel : Nat} {s : ExtractState}
    (hn : t.nTransactions.toNat = vTxid.length) (hsmall : vTxid.length ≤ 2 ^ 31) (hH : H ≤ 31)
    (hfuel : H ≤ fuel) (hwide : ∀ k < H, 1 < ((hashLevel hashPair)^[k] vTxid).length)
    {received : List (Uint256 × Uint256)}
    (hfree : CollisionFree hashPair (treePairs hashPair fuel vTxid ++ received)) (hh : height ≤ H)
    (hpos : pos < ((hashLevel hashPair)^[height] vTxid).length)
    (hpairs : traversedPairs hashPair t height pos s ⊆ received)
    (hroot : (traverseAndExtract hashPair t height pos s).1 =
      ((hashLevel hashPair)^[height] vTxid).getD pos 0) :
    ∀ x ∈ (traverseAndExtract hashPair t height pos s).2.vMatch, x ∈ s.vMatch ∨ x ∈ vTxid := by
  induction height generalizing pos s with
  | zero =>
    intro x hx
    rw [traverseAndExtract] at hroot hx
    cases hbit : t.vBits[s.nBitsUsed]? with
    | none =>
      rw [hbit] at hx
      exact .inl hx
    | some fParentOfMatch =>
      rw [hbit] at hroot hx
      rcases mem_useStoredHash hx with hold | ⟨-, heq⟩
      · exact .inl hold
      · -- the reported hash is the returned one, which is leaf `pos` of the block
        right
        have hleaf : pos < vTxid.length := hpos
        rw [heq, hroot]
        show vTxid.getD pos 0 ∈ vTxid
        rw [getD_eq_getElem?_getD, getElem?_eq_getElem hleaf]
        exact getElem_mem hleaf
  | succ height ih =>
    rw [traverseAndExtract] at hroot ⊢
    rw [traversedPairs] at hpairs
    cases hbit : t.vBits[s.nBitsUsed]? with
    | none => exact fun x hx => .inl hx
    | some fParentOfMatch =>
      cases fParentOfMatch with
      | false =>
        intro x hx
        exact (mem_useStoredHash hx).imp id fun h => absurd h.1 (by decide)
      | true =>
        rw [hbit] at hroot hpairs
        have hleft : pos * 2 < ((hashLevel hashPair)^[height] vTxid).length := by
          have := child_lt hpos
          omega
        have hwidth := @calcTreeWidth_eq hashPair t.nTransactions vTxid height hn hsmall (by omega)
        -- the block's pair at this node
        have hnode := getElem?_pairUp (0 : Uint256)
          (show 2 * pos < ((hashLevel hashPair)^[height] vTxid).length by omega)
        have hblock := mem_append_left received
          (mem_treePairs_of_level (show height < fuel by omega)
            (fun k hk => hwide k (by omega)) (mem_of_getElem? hnode))
        have hvalue := @getD_hashLevel _ _ hashPair pos (0 : Uint256)
          (show 2 * pos < ((hashLevel hashPair)^[height] vTxid).length by omega)
        rw [Function.iterate_succ_apply', hvalue, mul_comm 2 pos, ← hwidth] at hroot
        rw [mul_comm 2 pos, ← hwidth] at hblock
        by_cases hright : pos * 2 + 1 < calcTreeWidth t.nTransactions height
        · simp only [hright, if_true] at hroot hpairs hblock ⊢
          obtain ⟨hpairsL, hpairsR⟩ := append_subset.mp hpairs
          obtain ⟨hpair, hpairsR⟩ := cons_subset.mp hpairsR
          have hsame := hfree _ (mem_append_right _ hpair) _ hblock hroot
          rw [Prod.mk.injEq] at hsame
          intro x hx
          rcases ih (by omega) (hwidth ▸ hright) hpairsR hsame.2 x hx with hx | hx
          · exact ih (by omega) hleft hpairsL hsame.1 x hx
          · exact .inr hx
        · -- no right child: the left hash is used twice on both sides
          simp only [hright, if_false] at hroot hpairs hblock ⊢
          obtain ⟨hpairsL, hpair⟩ := append_subset.mp hpairs
          have hsame := hfree _ (mem_append_right _ (hpair mem_cons_self)) _ hblock hroot
          rw [Prod.mk.injEq] at hsame
          exact ih (by omega) hleft hpairsL hsame.1

/-- **`partialMerkleTree_cannotLie`** — whatever bits and hashes a peer sends, `ExtractMatches`
ends and reads nothing outside its arrays; and if it returns the root of a block of as many
transactions as the tree says it has, and that root is not the zero of a failure, every
transaction it reports is in the block, unless two of the pairs hashed on the two sides
collide. -/
theorem partialMerkleTree_cannotLie (hashPair : Uint256 → Uint256 → Uint256)
    (t : CPartialMerkleTree) :
    t.extractMatchesChecked hashPair = .ok (t.extractMatches hashPair) ∧
    ∀ vtx : List CTransaction, t.nTransactions.toNat = vtx.length →
      CollisionFree hashPair (merklePairs hashPair vtx ++ t.extractPairs hashPair) →
      (t.extractMatches hashPair).1 = (buildMerkleTree hashPair vtx).1 →
      (buildMerkleTree hashPair vtx).1 ≠ 0 →
      ∀ txid ∈ (t.extractMatches hashPair).2.1, txid ∈ vtx.map CTransaction.getHash := by
  refine ⟨extractMatchesChecked_eq hashPair t, ?_⟩
  intro vtx hcount hfree hroot hzero txid hmem
  set vTxid := vtx.map CTransaction.getHash with hids
  have hlen : vTxid.length = vtx.length := length_map _
  rw [buildMerkleTree_root, ← hids, ← hlen] at hroot hzero
  rw [merklePairs, ← hlen] at hfree
  rw [← hlen] at hcount
  cases hsizes : sizesPlausible t with
  | false =>
    -- refused before the traversal: nothing is reported
    rw [extractMatches, hsizes] at hmem
    cases hmem
  | true =>
    simp only [extractMatches, extractPairs, hsizes, if_true] at hmem hfree hroot
    have hplausible := hsizes
    simp only [sizesPlausible, and_eq_true, decide_eq_true_eq] at hplausible
    have hmax : maxBlockSize / 60 = 83333 := rfl
    have hsmall : vTxid.length ≤ maxBlockSize / 60 := by omega
    obtain ⟨hn, hheight, htop⟩ := @top_of_treeHeight hashPair vTxid hsmall
    have hN : UInt32.ofNat vTxid.length = t.nTransactions := by
      rw [← hcount, UInt32.ofNat_toNat]
    rw [hN] at hheight htop
    have hconsumed : allConsumed t (traverseAndExtract hashPair t
        (treeHeight t.nTransactions 32 0) 0 ⟨0, 0, [], t.fBad⟩).2 = true := by
      by_contra hbad
      rw [if_neg hbad] at hroot
      exact hzero hroot.symm
    rw [if_pos hconsumed] at hroot
    have hne : vTxid ≠ [] := by
      rintro heq
      rw [heq] at hzero
      exact hzero rfl
    have hone := @length_treeTop _ vTxid vTxid.length hashPair hne (by omega)
    obtain ⟨-, -, hbelow⟩ := @treeHeight_of_le_two_pow t.nTransactions 17 (by omega) (by omega)
    have hwide : ∀ k < treeHeight t.nTransactions 32 0,
        1 < ((hashLevel hashPair)^[k] vTxid).length := by
      intro k hk
      rw [← calcTreeWidth_eq hcount (by omega) (by omega)]
      exact hbelow k hk
    have htopRoot : (treeTop hashPair vTxid.length vTxid).headD 0 =
        ((hashLevel hashPair)^[treeHeight t.nTransactions 32 0] vTxid).getD 0 0 := by
      rw [htop]
      cases treeTop hashPair vTxid.length vTxid <;> rfl
    have hmem' := traverseAndExtract_mem hcount (by omega) (by omega)
      (le_of_lt (levels_lt_length hne hwide)) hwide hfree (le_refl _)
      (by rw [htop]; omega) (List.Subset.refl _) (hroot.trans htopRoot) txid hmem
    exact hmem'.resolve_left (not_mem_nil)

/-- The tree of the second and third of three transactions, as it is built. -/
theorem partialMerkleTree_cannotLie_three :
    ∀ txid ∈ ((CPartialMerkleTree.ofMatches thousandHash [1, 2, 3]
        [false, true, true]).extractMatches thousandHash).2.1,
      txid ∈ [hashedTx 1, hashedTx 2, hashedTx 3].map CTransaction.getHash :=
  (partialMerkleTree_cannotLie thousandHash
      (ofMatches thousandHash [1, 2, 3] [false, true, true])).2
    [hashedTx 1, hashedTx 2, hashedTx 3] (by decide +kernel) (by decide +kernel)
    (by decide +kernel) (by decide +kernel)

/-- Two bytes of bits and a hash for one transaction: the second byte is left over. -/
def leftoverTree : CPartialMerkleTree :=
  { nTransactions := 1, vBits := true :: List.replicate 15 false, vHash := [5], fBad := false }

/-- The failure comes after the match: for a block whose only transaction hash is zero the
returned zero is the root, and the match that came with it is not in the block. No pair is
hashed on either side. -/
theorem leftoverTree_reports_foreign : leftoverTree.nTransactions.toNat = [hashedTx 0].length ∧
      merklePairs thousandHash [hashedTx 0] ++ leftoverTree.extractPairs thousandHash = [] ∧
      (leftoverTree.extractMatches thousandHash).1 = (buildMerkleTree thousandHash [hashedTx 0]).1 ∧
      5 ∈ (leftoverTree.extractMatches thousandHash).2.1 ∧
      5 ∉ [hashedTx 0].map CTransaction.getHash := by
  decide +kernel

end MonetaryUnit
