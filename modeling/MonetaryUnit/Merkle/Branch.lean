/-
# MonetaryUnit.Merkle.Branch — the branch of a transaction leads to the root

`BuildMerkleTree` keeps all nodes in one array, level after level, and `GetMerkleBranch` walks
the array again with its own offsets. Reads are checked here: `none` is an index out of range.
`CheckMerkleBranch` hashes its way up with the index of the transaction.
-/

import Mathlib.Data.Nat.Bitwise
import MonetaryUnit.Merkle.Commitment

namespace MonetaryUnit

open Lib List Nat

section Code

variable (hashPair : Uint256 → Uint256 → Uint256)

/-- The inner loop of `BuildMerkleTree` on the level of `nSize` nodes at `j`. -/
def pushLevel (j nSize : Nat) : Nat → Nat → List Uint256 → Option (List Uint256)
  | 0, _, vMerkleTree => some vMerkleTree
  | rounds + 1, i, vMerkleTree => do
    let left ← vMerkleTree[j + i]?
    let right ← vMerkleTree[j + min (i + 1) (nSize - 1)]?
    pushLevel j nSize rounds (i + 2) (vMerkleTree ++ [hashPair left right])

/-- Its outer loop; the first argument bounds the rounds. -/
def pushLevels : Nat → Nat → Nat → List Uint256 → Option (List Uint256)
  | 0, _, _, vMerkleTree => some vMerkleTree
  | fuel + 1, nSize, j, vMerkleTree =>
    if 1 < nSize then do
      let next ← pushLevel hashPair j nSize ((nSize + 1) / 2) 0 vMerkleTree
      pushLevels fuel ((nSize + 1) / 2) (j + nSize) next
    else some vMerkleTree

def vMerkleTree (vtx : List CTransaction) : Option (List Uint256) :=
  pushLevels hashPair vtx.length vtx.length 0 (vtx.map CTransaction.getHash)

def branchLoop (vMerkleTree : List Uint256) : Nat → Nat → Nat → Nat → Option (List Uint256)
  | 0, _, _, _ => some []
  | fuel + 1, nSize, j, nIndex =>
    if 1 < nSize then do
      let node ← vMerkleTree[j + min (nIndex ^^^ 1) (nSize - 1)]?
      let branch ← branchLoop vMerkleTree fuel ((nSize + 1) / 2) (j + nSize) (nIndex >>> 1)
      return node :: branch
    else some []

def getMerkleBranch (vtx : List CTransaction) (vMerkleTree : List Uint256) (nIndex : Nat) :
    Option (List Uint256) :=
  branchLoop vMerkleTree vtx.length vtx.length 0 nIndex

def branchRoot : Uint256 → List Uint256 → Int → Uint256
  | hash, [], _ => hash
  | hash, node :: branch, nIndex =>
    branchRoot (if nIndex % 2 = 1 then hashPair node hash else hashPair hash node) branch
      (nIndex / 2)

def checkMerkleBranch (hash : Uint256) (vMerkleBranch : List Uint256) (nIndex : Int) : Uint256 :=
  if nIndex = -1 then 0 else branchRoot hashPair hash vMerkleBranch nIndex

end Code

variable {hashPair : Uint256 → Uint256 → Uint256} {level pre : List Uint256} {fuel i : Nat}

/-- The nodes from a level up, in the order of the array. -/
def nodesAbove (hashPair : Uint256 → Uint256 → Uint256) (fuel : Nat) (level : List Uint256) :
    List Uint256 :=
  (hashedLevels hashPair fuel level).flatten ++ treeTop hashPair fuel level

theorem nodesAbove_of_le_one (hl : level.length ≤ 1) : nodesAbove hashPair fuel level = level := by
  rw [nodesAbove, hashedLevels_of_le_one hl, treeTop_of_le_one hl]
  rfl

theorem nodesAbove_succ (hl : 1 < level.length) : nodesAbove hashPair (fuel + 1) level =
    level ++ nodesAbove hashPair fuel (hashLevel hashPair level) := by
  rw [nodesAbove, hashedLevels_succ hl, treeTop_succ hl, flatten_cons, append_assoc, nodesAbove]

/-- The inner loop has pushed the pairs of `front` and goes on with `rest`. -/
theorem pushLevel_eq {nSize rounds : Nat} (front rest done : List Uint256)
    (hsize : nSize = front.length + rest.length) (hrounds : rounds = (rest.length + 1) / 2) :
    pushLevel hashPair pre.length nSize rounds front.length (pre ++ (front ++ (rest ++ done))) =
      some (pre ++ (front ++ (rest ++ (done ++ hashLevel hashPair rest)))) := by
  induction rest using pairUp.induct generalizing front done rounds with
  | case1 => simp [hrounds, pushLevel, hashLevel, pairUp]
  | case2 a => simp [hrounds, hsize, pushLevel, hashLevel, pairUp]
  | case3 a b rest ih =>
    simp only [length_cons] at hsize hrounds
    have hnext := @ih ((rest.length + 1) / 2) (front ++ [a, b]) (done ++ [hashPair a b])
      (by simp; omega) rfl
    rw [show rounds = (rest.length + 1) / 2 + 1 by omega, pushLevel,
      show min (front.length + 1) (nSize - 1) = front.length + 1 by omega]
    simpa [hashLevel, pairUp] using hnext

theorem pushLevels_eq (hf : level.length ≤ fuel + 1) :
    pushLevels hashPair fuel level.length pre.length (pre ++ level) =
      some (pre ++ nodesAbove hashPair fuel level) := by
  induction fuel generalizing level pre with
  | zero =>
    rfl
  | succ fuel ih =>
    rw [pushLevels]
    split_ifs with hl
    · have hpush := @pushLevel_eq hashPair pre _ _ [] level [] (zero_add _).symm rfl
      have hlen := length_hashLevel hashPair level
      have hnext := @ih (hashLevel hashPair level) (pre ++ level) (by omega)
      rw [hlen, length_append, append_assoc, append_assoc] at hnext
      simp only [nil_append, append_nil, length_nil] at hpush
      rw [hpush, nodesAbove_succ hl]
      exact hnext
    · rw [nodesAbove_of_le_one (Nat.le_of_not_lt hl)]

/-- The node above `i` hashes it with its sibling, on the side that the parity of `i` says. -/
theorem getD_hashLevel_half (hi : i < level.length) : (if (i : Int) % 2 = 1 then
      hashPair (level.getD (min (i ^^^ 1) (level.length - 1)) 0) (level.getD i 0)
    else hashPair (level.getD i 0) (level.getD (min (i ^^^ 1) (level.length - 1)) 0)) =
      (hashLevel hashPair level).getD (i / 2) 0 := by
  rw [getD_hashLevel 0 (by omega)]
  rcases even_or_odd i with heven | hodd
  · rw [xor_one_of_even heven]
    rw [even_iff] at heven
    rw [if_neg (by omega), show 2 * (i / 2) = i by omega]
    split_ifs
    · rw [min_eq_left (by omega)]
    · rw [show min (i + 1) (level.length - 1) = i by omega]
  · rw [xor_one_of_odd hodd]
    rw [odd_iff] at hodd
    rw [if_pos (by omega), show 2 * (i / 2) = i - 1 by omega, if_pos (by omega),
      min_eq_left (by omega), show i - 1 + 1 = i by omega]

/-- From a level up: the branch of every index is read within the array,
and hashes up to the top of the tree. -/
theorem branchLoop_root {v : List Uint256} {j : Nat} (hf : level.length ≤ fuel + 1)
    (hv : nodesAbove hashPair fuel level <+: v.drop j) (hi : i < level.length) :
    ∃ branch, branchLoop v fuel level.length j i = some branch ∧
      branchRoot hashPair (level.getD i 0) branch i = (treeTop hashPair fuel level).headD 0 := by
  induction fuel generalizing level j i with
  | zero =>
    obtain ⟨a, rfl⟩ := length_eq_one_iff.mp (show level.length = 1 by omega)
    obtain rfl : i = 0 := lt_one_iff.mp hi
    exact ⟨[], rfl, rfl⟩
  | succ fuel ih =>
    rw [branchLoop]
    split_ifs with hl
    · rw [nodesAbove_succ hl] at hv
      have hread : ∀ k < level.length, v[j + k]? = some (level.getD k 0) := fun k hk => by
        rw [← getElem?_drop, prefix_iff_getElem?.mp ((prefix_append _ _).trans hv) k hk,
          getD_eq_getElem _ _ hk]
      have habove : nodesAbove hashPair fuel (hashLevel hashPair level) <+:
          v.drop (j + level.length) := by
        obtain ⟨rest, hrest⟩ := hv
        exact ⟨rest, by rw [← drop_drop, ← hrest, append_assoc, drop_left]⟩
      have hlen := length_hashLevel hashPair level
      obtain ⟨branch, hloop, hroot⟩ := @ih _ (i / 2) _ (by omega) habove (by omega)
      rw [hlen] at hloop
      rw [hread _ (by omega), shiftRight_one, hloop, treeTop_succ hl, ← hroot,
        ← getD_hashLevel_half hi]
      exact ⟨_, rfl, rfl⟩
    · obtain ⟨a, rfl⟩ := length_eq_one_iff.mp (show level.length = 1 by omega)
      obtain rfl : i = 0 := lt_one_iff.mp hi
      exact ⟨[], rfl, rfl⟩

/-- **`checkMerkleBranch_getMerkleBranch`** — for every transaction of a block all reads of
`BuildMerkleTree` and `GetMerkleBranch` are within the array, and `CheckMerkleBranch` gives the
last node of the array, which is the root. -/
theorem checkMerkleBranch_getMerkleBranch (hashPair : Uint256 → Uint256 → Uint256)
    (vtx : List CTransaction) : ∃ v, vMerkleTree hashPair vtx = some v ∧
      v.getLastD 0 = (buildMerkleTree hashPair vtx).1 ∧
      ∀ i tx, vtx[i]? = some tx → ∃ branch, getMerkleBranch vtx v i = some branch ∧
        checkMerkleBranch hashPair tx.getHash branch i = v.getLastD 0 := by
  have hf : (vtx.map CTransaction.getHash).length ≤ vtx.length + 1 := by simp
  have htree := @pushLevels_eq hashPair _ [] _ hf
  rw [length_map] at htree
  have hlast : (nodesAbove hashPair vtx.length (vtx.map CTransaction.getHash)).getLastD 0 =
      (buildMerkleTree hashPair vtx).1 := by
    rw [buildMerkleTree_root]
    rcases vtx with _ | ⟨tx, vtx⟩
    · rfl
    · obtain ⟨top, htop⟩ := length_eq_one_iff.mp (@length_treeTop _ _ _ hashPair (by simp) hf)
      rw [nodesAbove, htop, getLastD_concat]
      rfl
  refine ⟨_, htree, hlast, fun i tx htx => ?_⟩
  obtain ⟨hi, -⟩ := List.getElem?_eq_some_iff.mp htx
  obtain ⟨branch, hloop, hroot⟩ := @branchLoop_root hashPair _ _ i _ 0 hf prefix_rfl
    (by rwa [length_map])
  rw [length_map] at hloop
  refine ⟨branch, hloop, ?_⟩
  show _ = (nodesAbove hashPair vtx.length _).getLastD 0
  rw [hlast, buildMerkleTree_root, ← hroot, getD_eq_getElem?_getD, getElem?_map, htx]
  rfl

end MonetaryUnit
