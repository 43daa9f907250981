/-
# MonetaryUnit.Merkle.Commitment — what a Merkle root says about the transactions

`CBlock::BuildMerkleTree` (`primitives/block.cpp`) pairs the odd last node of a level with itself,
so lists of different lengths can have one root; `CheckBlock` relies on a flag for two equal nodes
at the end of a level to tell them apart.

The tree is `Lib.PairTree` over 256-bit hashes. What is assumed is only that no collision is among
the pairs that the trees in question really hash.

The flag is coarser than the ambiguity: two equal nodes that make up a whole level are flagged as
well, although no shorter list has that root.
-/

import MonetaryUnit.Lib.PairTree
import MonetaryUnit.Validation.CheckBlock

namespace MonetaryUnit

open Lib List CTransaction

section Merkle

variable (hashPair : Uint256 → Uint256 → Uint256)

/-- The pairs of nodes that `BuildMerkleTree` hashes. -/
def merklePairs (vtx : List CTransaction) : List (Uint256 × Uint256) :=
  treePairs hashPair vtx.length (vtx.map CTransaction.getHash)

/-- A level of more than `w` nodes ends in two equal hashes, at an even width. -/
def MerkleTwins (w : Nat) (vtx : List CTransaction) : Prop :=
  HasTwins hashPair w vtx.length (vtx.map CTransaction.getHash)

/-- No two different pairs hashed for the two lists collide, and no transaction hash of theirs
is the hash of an inner node. -/
structure MerkleSound (vtx vtx' : List CTransaction) : Prop where
  injective : CollisionFree hashPair (merklePairs hashPair vtx ++ merklePairs hashPair vtx')
  apart : Apart hashPair (vtx.map CTransaction.getHash ++ vtx'.map CTransaction.getHash)
    (merklePairs hashPair vtx ++ merklePairs hashPair vtx')

instance (w : Nat) (vtx : List CTransaction) : Decidable (MerkleTwins hashPair w vtx) :=
  inferInstanceAs (Decidable (HasTwins hashPair w _ _))

end Merkle

variable {hashPair : Uint256 → Uint256 → Uint256} {fuel : Nat} {nodes : List Uint256}

/-! ## The loop computes the tree -/

theorem merkleLevel_fst (nodes : List Uint256) :
    (merkleLevel hashPair nodes).1 = hashLevel hashPair nodes := by
  induction nodes using pairUp.induct with
  | case1 => rfl
  | case2 a => rfl
  | case3 a b rest ih =>
    cases rest with
    | nil => rfl
    | cons c rest =>
      show hashPair a b :: (merkleLevel hashPair (c :: rest)).1 = _
      rw [ih]
      rfl

theorem merkleLevel_snd (nodes : List Uint256) :
    (merkleLevel hashPair nodes).2 = true ↔ EndsInTwins nodes := by
  induction nodes using pairUp.induct with
  | case1 => simp [merkleLevel, EndsInTwins]
  | case2 a => simp [merkleLevel, EndsInTwins]
  | case3 a b rest ih =>
    cases rest with
    | nil => simp [merkleLevel, EndsInTwins]
    | cons c rest =>
      show (merkleLevel hashPair (c :: rest)).2 = true ↔ _
      rw [ih]
      simp [EndsInTwins]

theorem merkleLoop_fst {mutated : Bool} :
    (merkleLoop hashPair fuel nodes mutated).1 = (treeTop hashPair fuel nodes).headD 0 := by
  induction fuel generalizing nodes mutated with
  | zero => rfl
  | succ fuel ih =>
    rw [merkleLoop, treeTop, ← merkleLevel_fst]
    split
    · exact ih
    · rfl

theorem merkleLoop_snd {mutated : Bool} :
    (merkleLoop hashPair fuel nodes mutated).2 = true ↔
      mutated = true ∨ HasTwins hashPair 1 fuel nodes := by
  induction fuel generalizing nodes mutated with
  | zero => simp [merkleLoop, HasTwins, hashedLevels]
  | succ fuel ih =>
    rw [merkleLoop]
    rcases Nat.lt_or_ge 1 nodes.length with hl | hl
    · rw [if_pos hl, hasTwins_succ hl, ← merkleLevel_fst, ← merkleLevel_snd]
      rw [ih, Bool.or_eq_true]
      tauto
    · rw [if_neg (by omega)]
      rw [or_iff_left (not_hasTwins_of_le_one hl)]

theorem buildMerkleTree_root (vtx : List CTransaction) : (buildMerkleTree hashPair vtx).1 =
      (treeTop hashPair vtx.length (vtx.map getHash)).headD 0 :=
  merkleLoop_fst

theorem buildMerkleTree_mutated (vtx : List CTransaction) :
    (buildMerkleTree hashPair vtx).2 = true ↔ MerkleTwins hashPair 1 vtx := by
  rw [buildMerkleTree, merkleLoop_snd, MerkleTwins]
  simp

/-! ## What the root determines -/

variable {vtx vtx' : List CTransaction}

theorem treeTop_eq_of_root_eq (hne : vtx ≠ []) (hne' : vtx' ≠ [])
    (hroot : (buildMerkleTree hashPair vtx).1 = (buildMerkleTree hashPair vtx').1) :
    treeTop hashPair vtx.length (vtx.map getHash) =
      treeTop hashPair vtx'.length (vtx'.map getHash) := by
  have hone : ∀ v : List CTransaction, v ≠ [] →
      (treeTop hashPair v.length (v.map getHash)).length = 1 := by
    intro v hv
    apply length_treeTop
    · simpa using hv
    · simp
  rw [buildMerkleTree_root, buildMerkleTree_root] at hroot
  obtain ⟨a, ha⟩ := length_eq_one_iff.mp (hone vtx hne)
  obtain ⟨b, hb⟩ := length_eq_one_iff.mp (hone vtx' hne')
  rw [ha, hb] at hroot ⊢
  exact congrArg (fun x => [x]) hroot

/-- Among the lists with one root, one without equal nodes at the end of a level of more than
two is the front of all the others. -/
theorem ids_isPrefix_of_root_eq (hne : vtx ≠ []) (hne' : vtx' ≠ [])
    (hsound : MerkleSound hashPair vtx vtx') (ht : ¬MerkleTwins hashPair 2 vtx)
    (hroot : (buildMerkleTree hashPair vtx).1 = (buildMerkleTree hashPair vtx').1) :
    vtx.map getHash <+: vtx'.map getHash := by
  refine leaves_isPrefix_of_treeTop_eq (by simpa using hne) (by simpa using hne')
    (by simp) (by simp) ht hsound.injective ?_ ?_ (treeTop_eq_of_root_eq hne hne' hroot)
  · exact fun t ht p hp => hsound.apart t (mem_append_left _ ht) p (mem_append_right _ hp)
  · exact fun t ht p hp => hsound.apart t (mem_append_right _ ht) p (mem_append_left _ hp)

theorem MerkleSound.symm (h : MerkleSound hashPair vtx vtx') : MerkleSound hashPair vtx' vtx where
  injective := h.injective.symm
  apart := by
    intro t ht p hp
    rw [mem_append, or_comm, ← mem_append] at ht hp
    exact h.apart t ht p hp

/-- More nodes than two are more than one. -/
theorem MerkleTwins.mutated (h : MerkleTwins hashPair 2 vtx) :
    (buildMerkleTree hashPair vtx).2 = true := by
  rw [buildMerkleTree_mutated]
  obtain ⟨level, hmem, hwide, htwins⟩ := h
  exact ⟨level, hmem, by omega, htwins⟩

theorem exists_shorter_of_merkleTwins (h : MerkleTwins hashPair 2 vtx) :
    ∃ vtx', vtx' ≠ [] ∧ vtx' <+: vtx ∧ vtx'.length < vtx.length ∧
      (buildMerkleTree hashPair vtx').1 = (buildMerkleTree hashPair vtx).1 := by
  obtain ⟨j, hj, hjlen, htop, -⟩ := exists_shorter_of_hasTwins h
  rw [length_map] at hjlen
  have hlen : (vtx.take j).length = j := length_take_of_le (by omega)
  refine ⟨vtx.take j, ne_nil_of_length_pos (by omega), take_prefix j vtx, by omega, ?_⟩
  -- the shorter list is built with less fuel, which is still enough
  have hfuel : treeTop hashPair j ((vtx.map getHash).take j) =
      treeTop hashPair vtx.length ((vtx.map getHash).take j) :=
    (tree_fuel (by simp) (by simp)).1
  rw [buildMerkleTree_root, buildMerkleTree_root, hlen, map_take, hfuel, htop]

/-- **`merkleRoot_commits`** — on non-empty lists the root commits to the transactions. Two
lists with one root and no flag are equal. The flag comes from two equal nodes at the end of a
level; if that level has more than two nodes, a proper front part of the list has the same
root, and if no such level has, no shorter non-empty list does. -/
theorem merkleRoot_commits (hashPair : Uint256 → Uint256 → Uint256) :
    (∀ vtx vtx' : List CTransaction, vtx ≠ [] → vtx' ≠ [] → MerkleSound hashPair vtx vtx' →
      (buildMerkleTree hashPair vtx).1 = (buildMerkleTree hashPair vtx').1 →
      (buildMerkleTree hashPair vtx).2 = false → (buildMerkleTree hashPair vtx').2 = false →
      vtx.map CTransaction.getHash = vtx'.map CTransaction.getHash) ∧
    (∀ vtx, (buildMerkleTree hashPair vtx).2 = true ↔ MerkleTwins hashPair 1 vtx) ∧
    (∀ vtx, MerkleTwins hashPair 2 vtx →
      ∃ vtx', vtx' ≠ [] ∧ vtx' <+: vtx ∧ vtx'.length < vtx.length ∧
        (buildMerkleTree hashPair vtx').1 = (buildMerkleTree hashPair vtx).1) ∧
    (∀ vtx vtx' : List CTransaction, vtx ≠ [] → vtx' ≠ [] → MerkleSound hashPair vtx vtx' →
      ¬MerkleTwins hashPair 2 vtx →
      (buildMerkleTree hashPair vtx).1 = (buildMerkleTree hashPair vtx').1 →
      vtx.length ≤ vtx'.length) := by
  have hwide : ∀ vtx, (buildMerkleTree hashPair vtx).2 = false → ¬MerkleTwins hashPair 2 vtx :=
    fun vtx hflag htwins => ne_true_of_eq_false hflag (htwins.mutated)
  refine ⟨?_, buildMerkleTree_mutated, fun vtx => exists_shorter_of_merkleTwins, ?_⟩
  · intro vtx vtx' hne hne' hsound hroot hflag hflag'
    -- each list is the front of the other
    have hpre := ids_isPrefix_of_root_eq hne hne' hsound (hwide vtx hflag) hroot
    have hpre' := ids_isPrefix_of_root_eq hne' hne hsound.symm (hwide vtx' hflag') hroot.symm
    exact hpre.eq_of_length (Nat.le_antisymm hpre.length_le hpre'.length_le)
  · intro vtx vtx' hne hne' hsound htwins hroot
    simpa using (ids_isPrefix_of_root_eq hne hne' hsound htwins hroot).length_le

/-! ## Concrete trees -/

/-- A transaction that stands for its hash. -/
def hashedTx (h : Uint256) : CTransaction := { CTransaction.default with hash := h }

/-- A hash of two nodes without collisions on small numbers. -/
def thousandHash (a b : Uint256) : Uint256 := 1000000 + 1000 * a + b

/-- Three transactions share their root only with a list of the same hashes; a copy of the third
does not change the root, and the flag shows it. -/
theorem merkleRoot_commits_three : [hashedTx 1, hashedTx 2, hashedTx 3].map CTransaction.getHash =
      [hashedTx 1, hashedTx 2, { hashedTx 3 with nLockTime := 7 }].map CTransaction.getHash ∧
    (∃ vtx', vtx' ≠ [] ∧ vtx' <+: [hashedTx 1, hashedTx 2, hashedTx 3, hashedTx 3] ∧
      vtx'.length < 4 ∧ (buildMerkleTree thousandHash vtx').1 =
        (buildMerkleTree thousandHash [hashedTx 1, hashedTx 2, hashedTx 3, hashedTx 3]).1) :=
  ⟨(merkleRoot_commits thousandHash).1 _ _ (by decide) (by decide)
      ⟨by decide +kernel, by decide +kernel⟩ rfl (by decide +kernel) (by decide +kernel),
    (merkleRoot_commits thousandHash).2.2.1 _ (by decide +kernel)⟩

/-- A list of two equal hashes is flagged although no shorter list has its root, and the empty
list has the root of a transaction whose hash is zero, without a flag on either. -/
theorem twoEqual_flagged_without_shorter :
    ((buildMerkleTree thousandHash [hashedTx 1, hashedTx 1]).2 = true ∧
      ∀ vtx', MerkleSound thousandHash [hashedTx 1, hashedTx 1] vtx' → vtx'.length < 2 →
        (buildMerkleTree thousandHash vtx').1 ≠
          (buildMerkleTree thousandHash [hashedTx 1, hashedTx 1]).1) ∧
    MerkleSound thousandHash [] [hashedTx 0] ∧
    buildMerkleTree thousandHash [] = (0, false) ∧
    buildMerkleTree thousandHash [hashedTx 0] = (0, false) := by
  refine ⟨⟨by decide +kernel, ?_⟩, ⟨by decide +kernel, by decide +kernel⟩, by decide +kernel,
    by decide +kernel⟩
  intro vtx' hsound hlen hroot
  match vtx', hlen with
  | [], _ => exact absurd hroot (by decide +kernel)
  | [tx], _ =>
    -- the root of a single transaction is its hash, which would be an inner node
    have hpair : (1, 1) ∈ merklePairs thousandHash [hashedTx 1, hashedTx 1] := by
      decide +kernel
    refine hsound.apart tx.getHash (by simp) (1, 1) (mem_append_left _ hpair) ?_
    exact hroot.trans (by decide +kernel)

end MonetaryUnit
