/-
# MonetaryUnit.Merkle.TreeSize — how large a partial Merkle tree gets on the wire

`merkleblock.h` promises a size: with `N` stored hashes, at most `2 N - 1` bits and
`10 + ceil(32.25 N)` bytes, where `N` is at most the number of transactions and at most one more
than the matches times the height.

The two bounds on `N` are right. The count of bits forgets the opened nodes with one child, which a
level of odd width gives (`traverseAndBuild_lengths`). The count of bytes takes the two lengths in
front of the vectors for at most three bytes each, which is wrong from 65536 hashes on; a block of
`MAX_BLOCK_SIZE` has room for more transactions than that. Away from these two cases the promise
holds (`partialMerkleTree_size_iff`).
-/

import MonetaryUnit.Merkle.PartialTree

namespace MonetaryUnit

open Lib List Writes CPartialMerkleTree Stored Nat

/-! ## Matches below a node -/

variable {n : UInt32} {vMatch : List Bool} {height pos : Nat}

theorem getElem?_of_getD {p : Nat} (hp : vMatch.getD p false = true) : vMatch[p]? = some true := by
  simpa [getD_eq_getElem?_getD, Option.getD_eq_iff] using hp

theorem lt_length_of_getD {p : Nat} (hp : vMatch.getD p false = true) : p < vMatch.length :=
  (List.getElem?_eq_some_iff.mp (getElem?_of_getD hp)).1

/-- A node is the parent of a match if one of the transactions below it is matched. -/
theorem isParentOfMatch_iff (hmask : vMatch.length = n.toNat) :
    isParentOfMatch n vMatch height pos = true ↔
      ∃ p, pos * 2 ^ height ≤ p ∧ p < (pos + 1) * 2 ^ height ∧ vMatch.getD p false = true := by
  rw [isParentOfMatch, any_eq_true]
  constructor
  · rintro ⟨p, hmem, hp⟩
    rw [mem_range'_1] at hmem
    exact ⟨p, hmem.1, by omega, hp⟩
  · rintro ⟨p, hfirst, hlast, hp⟩
    refine ⟨p, ?_, hp⟩
    have hin := lt_length_of_getD hp
    rw [mem_range'_1]
    omega

/-- The number of matches below a node. -/
def matchesBelow (vMatch : List Bool) (height pos : Nat) : Nat :=
  ((vMatch.drop (pos * 2 ^ height)).take (2 ^ height)).count true

theorem matchesBelow_succ (height pos : Nat) : matchesBelow vMatch (height + 1) pos =
      matchesBelow vMatch height (pos * 2) + matchesBelow vMatch height (pos * 2 + 1) := by
  obtain ⟨hleft, hright⟩ := first_children height pos
  rw [matchesBelow, matchesBelow, matchesBelow, hleft, hright, Nat.two_pow_succ, take_add,
    drop_drop, count_append]

theorem matchesBelow_pos (hmask : vMatch.length = n.toNat)
    (h : isParentOfMatch n vMatch height pos = true) : 0 < matchesBelow vMatch height pos := by
  obtain ⟨p, hfirst, hlast, hp⟩ := (isParentOfMatch_iff hmask).mp h
  rw [matchesBelow, count_pos_iff]
  have hget : ((vMatch.drop (pos * 2 ^ height)).take (2 ^ height))[p - pos * 2 ^ height]? =
      some true := by
    have hsplit : (pos + 1) * 2 ^ height = pos * 2 ^ height + 2 ^ height := by ring
    rw [getElem?_take_of_lt (by omega), getElem?_drop, Nat.add_sub_cancel' hfirst]
    exact getElem?_of_getD hp
  exact mem_of_getElem? hget

/-- The hashes stored for a node: one, and at most the height more for every match below. -/
theorem hashesStored_le (hmask : vMatch.length = n.toNat) (height pos : Nat) :
    hashesStored n (isParentOfMatch n vMatch) height pos ≤
      1 + matchesBelow vMatch height pos * height := by
  induction height generalizing pos with
  | zero => exact le_add_right 1 _
  | succ height ih =>
    rw [hashesStored]
    cases hparent : isParentOfMatch n vMatch (height + 1) pos with
    | false => exact le_add_right 1 _
    | true =>
      have hmatch := matchesBelow_pos hmask hparent
      have hleft := ih (pos * 2)
      have hright := ih (pos * 2 + 1)
      rw [matchesBelow_succ] at hmatch ⊢
      set l := matchesBelow vMatch height (pos * 2)
      set r := matchesBelow vMatch height (pos * 2 + 1)
      have hsum : (l + r) * (height + 1) = l * height + r * height + (l + r) := by ring
      simp only [if_true]
      split <;> omega

theorem matchesBelow_top (h : vMatch.length ≤ 2 ^ height) :
    matchesBelow vMatch height 0 = vMatch.count true := by
  rw [matchesBelow, zero_mul, drop_zero, take_of_length_le h]

/-! ## Opened nodes with one child -/

theorem calcTreeWidth_succ (hsmall : n.toNat ≤ 2 ^ 31) (hh : height + 1 ≤ 31) :
    calcTreeWidth n (height + 1) = (calcTreeWidth n height + 1) / 2 := by
  have hn : n.toNat = (replicate n.toNat (0 : Uint256)).length := by simp
  rw [@calcTreeWidth_eq (fun a _ => a) n _ (height + 1) hn (by omega) hh,
    @calcTreeWidth_eq (fun a _ => a) n _ height hn (by omega) (by omega),
    Function.iterate_succ_apply', length_hashLevel]

/-- A transaction below the last node of a level of odd width, under a given node, is matched. -/
def RaggedMatch (n : UInt32) (vMatch : List Bool) (height pos : Nat) : Prop :=
  ∃ k < height, calcTreeWidth n k % 2 = 1 ∧ ∃ p, (calcTreeWidth n k - 1) * 2 ^ k ≤ p ∧
    pos * 2 ^ height ≤ p ∧ p < (pos + 1) * 2 ^ height ∧ vMatch.getD p false = true

/-- No node with one child is opened exactly if nothing is
matched below the last node of a level of odd width. -/
theorem singlesOpened_eq_zero_iff (hmask : vMatch.length = n.toNat)
    (hsmall : n.toNat ≤ 2 ^ 31) (hh : height ≤ 31) (hpos : pos < calcTreeWidth n height) :
    singlesOpened n (isParentOfMatch n vMatch) height pos = 0 ↔
      ¬RaggedMatch n vMatch height pos := by
  induction height generalizing pos with
  | zero =>
    refine iff_of_true rfl ?_
    rintro ⟨k, hk, -⟩
    omega
  | succ height ih =>
    obtain ⟨hfirst, hmiddle⟩ := first_children height pos
    have hmiddle' : (pos * 2 + 1 + 1) * 2 ^ height =
      pos * 2 * 2 ^ height + 2 ^ height + 2 ^ height := by ring
    have hlast : (pos + 1) * 2 ^ (height + 1) =
      pos * 2 * 2 ^ height + 2 ^ height + 2 ^ height := by ring
    rw [calcTreeWidth_succ hsmall hh] at hpos
    rw [singlesOpened]
    cases hparent : isParentOfMatch n vMatch (height + 1) pos with
    | false =>
      refine iff_of_true rfl ?_
      rintro ⟨k, -, -, p, -, hlo, hhi, hp⟩
      have := (isParentOfMatch_iff hmask).mpr ⟨p, hlo, hhi, hp⟩
      rw [hparent] at this
      cases this
    | true =>
      simp only [if_true]
      by_cases hright : pos * 2 + 1 < calcTreeWidth n height
      · rw [if_pos hright, Nat.add_eq_zero_iff, ih (by omega) (by omega),
          ih (by omega) hright, ← not_or, not_iff_not]
        constructor
        · -- what is below a child is below the node
          rintro (⟨k, hk, hodd, p, hend, hlo, hhi, hp⟩ | ⟨k, hk, hodd, p, hend, hlo, hhi, hp⟩)
          · exact ⟨k, by omega, hodd, p, hend, by omega, by omega, hp⟩
          · exact ⟨k, by omega, hodd, p, hend, by omega, by omega, hp⟩
        rintro ⟨k, hk, hodd, p, hend, hlo, hhi, hp⟩
        have hbelow : k < height := by
          rcases lt_or_ge k height with hlt | hge
          · exact hlt
          · -- the last node of the level of the children is further right
            have hk' : k = height := by omega
            subst hk'
            have hfar : (pos * 2 + 1 + 1) * 2 ^ k ≤ (calcTreeWidth n k - 1) * 2 ^ k :=
              mul_le_mul_right _ (by omega)
            omega
        rcases lt_or_ge p ((pos * 2 + 1) * 2 ^ height) with hside | hside
        · exact .inl ⟨k, hbelow, hodd, p, hend, by omega, hside, hp⟩
        · exact .inr ⟨k, hbelow, hodd, p, hend, hside, by omega, hp⟩
      · -- one child: the node is the one that is counted
        rw [if_neg hright]
        refine iff_of_false (by omega) (not_not.mpr ?_)
        obtain ⟨p, hlo, hhi, hp⟩ := (isParentOfMatch_iff hmask).mp hparent
        have hwidth : calcTreeWidth n height = pos * 2 + 1 := by omega
        refine ⟨height, by omega, by omega, p, ?_, hlo, hhi, hp⟩
        rw [hwidth, Nat.add_sub_cancel, ← hfirst]
        exact hlo

/-! ## Bytes -/

theorem length_bytes (t : CPartialMerkleTree) :
    t.bytes.length = 4 + getSizeOfCompactSize t.vHash.length + 32 * t.vHash.length +
      getSizeOfCompactSize ((t.vBits.length + 7) / 8) + (t.vBits.length + 7) / 8 := by
  have hhashes : ∀ l : List Uint256,
      (bytes (l.flatMap serializeUint256)).length = 32 * l.length := by
    intro l
    induction l with
    | nil => rfl
    | cons x l ih =>
      rw [flatMap_cons, bytes_append]
      simp [serializeUint256]
      omega
  have hpacked : ∀ v : Bytes, (bytes (if v.isEmpty then [] else [v])).length = v.length := by
    intro v
    cases v with
    | nil => rfl
    | cons b v => simp
  rw [CPartialMerkleTree.bytes, CPartialMerkleTree.serialize, bytes_append,
    bytes_append, serializeVector, serializeBytes, bytes_append,
    bytes_append, length_append, length_append, length_append,
    length_append, ← getSizeOfCompactSize_eq, ← getSizeOfCompactSize_eq, hhashes, hpacked,
    length_packBits]
  simp [serializeUint32]
  omega

/-- The promise in numbers, for `N` hashes and `bits` bits of which `u` belong to nodes with one
child. -/
theorem size_promise_iff {N u bits : Nat} (hpos : 0 < N) (hmax : N ≤ 83333)
    (hbits : bits + 1 = 2 * N + u) :
    (4 + getSizeOfCompactSize N + 32 * N + getSizeOfCompactSize ((bits + 7) / 8) +
        (bits + 7) / 8 ≤ 10 + (129 * N + 3) / 4 ∧ bits ≤ 2 * N - 1) ↔ u = 0 ∧ N ≤ 65535 := by
  constructor
  · rintro ⟨hsize, hle⟩
    unfold getSizeOfCompactSize at hsize
    split_ifs at hsize <;> omega
  · rintro ⟨hu, hle⟩
    unfold getSizeOfCompactSize
    split_ifs <;> omega

/-- **`partialMerkleTree_size_iff`** — for any mask over the transactions of a block: the number
of stored hashes is what the mask needs, at most that of the transactions, and at most one more
than the matches times the height. The bounds on the bits and the bytes hold exactly if nothing
is matched below the last node of a level of odd width and there are fewer than 65536 hashes. -/
theorem partialMerkleTree_size_iff (hashPair : Uint256 → Uint256 → Uint256)
    (vTxid : List Uint256) (vMatch : List Bool) (hne : vTxid ≠ [])
    (hlen : vTxid.length ≤ maxBlockSize / 60) (hmask : vMatch.length = vTxid.length) :
    ∃ t N n height, t = CPartialMerkleTree.ofMatches hashPair vTxid vMatch ∧
      N = t.vHash.length ∧ n = UInt32.ofNat vTxid.length ∧ height = treeHeight n 32 0 ∧
      N = hashesStored n (isParentOfMatch n vMatch) height 0 ∧
      N ≤ vTxid.length ∧ N ≤ 1 + vMatch.count true * height ∧
      ((t.bytes.length ≤ 10 + (129 * N + 3) / 4 ∧ t.vBits.length ≤ 2 * N - 1) ↔
        (∀ k < height, calcTreeWidth n k % 2 = 1 →
          ∀ p, (calcTreeWidth n k - 1) * 2 ^ k ≤ p → vMatch.getD p false = false) ∧
        hashesStored n (isParentOfMatch n vMatch) height 0 ≤ 65535) := by
  refine ⟨_, _, _, _, rfl, rfl, rfl, rfl, ?_⟩
  have hmax : maxBlockSize / 60 = 83333 := rfl
  obtain ⟨hn, hheight, htop⟩ := @top_of_treeHeight hashPair vTxid hlen
  obtain ⟨-, hN, -⟩ := @ofMatches_sizes hashPair vTxid vMatch hne hlen
  obtain ⟨hhash, hbits⟩ := ofMatches_counts hashPair vTxid vMatch
  set t := ofMatches hashPair vTxid vMatch
  set n := UInt32.ofNat vTxid.length
  have hmask' : vMatch.length = n.toNat := hmask.trans hn.symm
  obtain ⟨-, hone, -⟩ := @treeHeight_of_le_two_pow n 17 (by omega) (by omega)
  set H := treeHeight n 32 0
  have hwidth : calcTreeWidth n H = 1 := by
    rw [@calcTreeWidth_eq hashPair n vTxid H hn (by omega) (by omega), htop]
    exact length_treeTop hne (by omega)
  -- all transactions are below the top
  have hcover : n.toNat ≤ 2 ^ H := by
    have hlt := (Nat.div_lt_iff_lt_mul (Nat.two_pow_pos H)).mp (hwidth ▸ Nat.one_lt_two)
    omega
  refine ⟨hhash, hN, ?_, ?_⟩
  · rw [hhash, ← matchesBelow_top (show vMatch.length ≤ 2 ^ H by omega)]
    exact hashesStored_le hmask' H 0
  rw [length_bytes, ← hhash]
  rw [← hhash] at hbits
  have hpos : 0 < t.vHash.length := by
    rw [hhash]
    exact hashesStored_pos H 0
  rw [size_promise_iff hpos (by omega) hbits,
    singlesOpened_eq_zero_iff hmask' (by omega) (by omega) (by omega)]
  refine and_congr_left fun _ => ?_
  constructor
  · intro hragged k hk hodd p hp
    by_contra hmatch
    have hmatch' : vMatch.getD p false = true := by simpa using hmatch
    have hin := lt_length_of_getD hmatch'
    exact hragged ⟨k, hk, hodd, p, hp, by omega, by omega, hmatch'⟩
  · rintro hclear ⟨k, hk, hodd, p, hp, -, -, hmatch⟩
    rw [hclear k hk hodd p hp] at hmatch
    cases hmatch

/-- The first of three transactions: the promise is kept. -/
theorem partialMerkleTree_size_iff_firstOfThree :
    ∃ t N n height, t = CPartialMerkleTree.ofMatches thousandHash [1, 2, 3] [true, false, false] ∧
      N = t.vHash.length ∧ n = UInt32.ofNat 3 ∧ height = treeHeight n 32 0 ∧
      N = hashesStored n (isParentOfMatch n [true, false, false]) height 0 ∧
      N ≤ 3 ∧ N ≤ 1 + [true, false, false].count true * height ∧
      ((t.bytes.length ≤ 10 + (129 * N + 3) / 4 ∧ t.vBits.length ≤ 2 * N - 1) ↔
        (∀ k < height, calcTreeWidth n k % 2 = 1 → ∀ p, (calcTreeWidth n k - 1) * 2 ^ k ≤ p →
          [true, false, false].getD p false = false) ∧
        hashesStored n (isParentOfMatch n [true, false, false]) height 0 ≤ 65535) :=
  partialMerkleTree_size_iff thousandHash [1, 2, 3] [true, false, false] (by decide) (by decide)
    (by decide)

/-- If all are matched, every node with a transaction below it is opened. -/
theorem isParentOfMatch_all (n : UInt32) : isParentOfMatch n (replicate n.toNat true) =
      fun height pos => decide (pos * 2 ^ height < n.toNat) := by
  funext height pos
  have hbit : ∀ p, (replicate n.toNat true).getD p false = true ↔ p < n.toNat := by
    intro p
    rw [getD_eq_getElem?_getD, getElem?_replicate]
    split <;> simp [*]
  have hpow : 0 < 2 ^ height := Nat.two_pow_pos height
  have hsplit : (pos + 1) * 2 ^ height = pos * 2 ^ height + 2 ^ height := by ring
  rw [Bool.eq_iff_iff, decide_eq_true_iff, isParentOfMatch_iff length_replicate]
  simp only [hbit]
  constructor
  · rintro ⟨p, hlo, -, hp⟩
    omega
  · intro hfirst
    exact ⟨pos * 2 ^ height, le_refl _, by omega, hfirst⟩

/-- All of 1025 transactions are matched: every level but the two on top has an odd width. -/
theorem ofMatches_allOf1025 {hashPair : Uint256 → Uint256 → Uint256} {vTxid : List Uint256}
    {t : CPartialMerkleTree} (hlen : vTxid.length = 1025)
    (ht : t = ofMatches hashPair vTxid (replicate 1025 true)) :
    t.vHash.length = 1025 ∧ t.vBits.length = 2059 ∧ t.bytes.length = 33068 := by
  obtain ⟨hhash, hbits⟩ := ofMatches_counts hashPair vTxid (replicate 1025 true)
  have hcount : UInt32.ofNat vTxid.length = 1025 := by
    rw [hlen]
    decide
  have hopened := isParentOfMatch_all 1025
  rw [show (1025 : UInt32).toNat = 1025 by decide] at hopened
  rw [← ht, hcount, hopened] at hhash hbits
  have hheight : treeHeight 1025 32 0 = 11 := by decide
  have hstored : hashesStored 1025 (fun height pos => decide (pos * 2 ^ height < 1025)) 11 0 =
      1025 := by
    decide +kernel
  have hsingles : singlesOpened 1025 (fun height pos => decide (pos * 2 ^ height < 1025)) 11 0 =
      10 := by
    decide +kernel
  rw [hheight] at hhash hbits
  have hbits' : t.vBits.length = 2059 := by omega
  rw [length_bytes, hhash, hbits']
  decide

/-- 1025 hashes and 2059 bits, ten of them for nodes with one child, make one byte more than
promised. -/
theorem allOf1025_exceeds_promise :
    ∃ t, t = CPartialMerkleTree.ofMatches thousandHash (List.replicate 1025 1)
        (List.replicate 1025 true) ∧
      t.vHash.length = 1025 ∧ ¬t.vBits.length ≤ 2 * 1025 - 1 ∧
      ¬t.bytes.length ≤ 10 + (129 * 1025 + 3) / 4 := by
  refine ⟨_, rfl, ?_⟩
  obtain ⟨hhash, hbits, hbytes⟩ := ofMatches_allOf1025 length_replicate
    (Eq.refl (ofMatches thousandHash (replicate 1025 1) (replicate 1025 true)))
  exact ⟨hhash, by rw [hbits]; decide, by rw [hbytes]; decide⟩

end MonetaryUnit
