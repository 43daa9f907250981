/-
# MonetaryUnit.Merkle.PartialTree — Merkle trees of which only a part is sent

`CPartialMerkleTree` of `merkleblock.h` and `merkleblock.cpp`: the depth-first traversal that
stores one bit per node and a hash where it stops, the wire format with the bits packed into
bytes, and the traversal that consumes them again.

The builder and the extractor are two recursions over one ragged tree. The invariant that ties
them is on prefixes: if what the builder has stored after a node is the front of what the
extractor is given, then the extractor, started where the builder stood before the node, stops
where the builder stood after it (`traverseAndExtract_of_built`).
-/

import MonetaryUnit.Serialize.Canonical
import MonetaryUnit.Merkle.Commitment

namespace MonetaryUnit

open Lib List Function Writes Nat Bool

/-! ## The tree -/

structure CPartialMerkleTree where
  nTransactions : UInt32
  vBits : List Bool
  vHash : List Uint256
  fBad : Bool
deriving DecidableEq

/-- The number of nodes at a height, in 32-bit arithmetic. -/
def calcTreeWidth (nTransactions : UInt32) (height : Nat) : Nat :=
  (nTransactions.toNat + 2 ^ height - 1) % 2 ^ 32 / 2 ^ height

/-- `while (CalcTreeWidth(nHeight) > 1) nHeight++;` No height above 32 is reached: the width of
a 32-bit number of transactions is 0 there. -/
def treeHeight (nTransactions : UInt32) : Nat → Nat → Nat
  | 0, nHeight => nHeight
  | fuel + 1, nHeight =>
    if calcTreeWidth nTransactions nHeight > 1 then treeHeight nTransactions fuel (nHeight + 1)
    else nHeight

section Build

variable (hashPair : Uint256 → Uint256 → Uint256) (nTransactions : UInt32)
variable (vTxid : List Uint256) (vMatch : List Bool)

/-- The hash of a node; a last node without partner is paired with itself. -/
def calcHash : Nat → Nat → Uint256
  | 0, pos => vTxid.getD pos 0
  | height + 1, pos =>
    let left := calcHash height (pos * 2)
    let right :=
      if pos * 2 + 1 < calcTreeWidth nTransactions height then calcHash height (pos * 2 + 1)
      else left
    hashPair left right

/-- Is one of the transactions below the node matched? -/
def isParentOfMatch (height pos : Nat) : Bool :=
  let first := pos * 2 ^ height
  let last := min ((pos + 1) * 2 ^ height) nTransactions.toNat
  (List.range' first (last - first)).any fun p => vMatch.getD p false

/-- The bits and hashes stored so far. -/
abbrev Stored := List Bool × List Uint256

def Stored.push (s : Stored) (bit : Bool) (hashes : List Uint256) : Stored :=
  (s.1 ++ [bit], s.2 ++ hashes)

/-- A flag for each node visited; hashes for leaves and where no match is below. -/
def traverseAndBuild : Nat → Nat → Stored → Stored
  | 0, pos, s =>
    s.push (isParentOfMatch nTransactions vMatch 0 pos)
      [calcHash hashPair nTransactions vTxid 0 pos]
  | height + 1, pos, s =>
    let fParentOfMatch := isParentOfMatch nTransactions vMatch (height + 1) pos
    if fParentOfMatch then
      -- no hash is stored here, but the subtrees are visited
      let s' := traverseAndBuild height (pos * 2) (s.push fParentOfMatch [])
      if pos * 2 + 1 < calcTreeWidth nTransactions height then
        traverseAndBuild height (pos * 2 + 1) s'
      else s'
    else s.push fParentOfMatch [calcHash hashPair nTransactions vTxid (height + 1) pos]

end Build

/-- `CPartialMerkleTree(vTxid, vMatch)`. -/
def CPartialMerkleTree.ofMatches (hashPair : Uint256 → Uint256 → Uint256) (vTxid : List Uint256)
    (vMatch : List Bool) : CPartialMerkleTree :=
  let nTransactions := UInt32.ofNat vTxid.length
  let s := traverseAndBuild hashPair nTransactions vTxid vMatch (treeHeight nTransactions 32 0) 0
    ([], [])
  { nTransactions, vBits := s.1, vHash := s.2, fBad := false }

/-! ## Extraction -/

/-- What `TraverseAndExtract` changes: its reference arguments and the flag of the tree. -/
structure ExtractState where
  nBitsUsed : Nat
  nHashUsed : Nat
  vMatch : List Uint256
  fBad : Bool
deriving DecidableEq

section Extract

variable (hashPair : Uint256 → Uint256 → Uint256) (t : CPartialMerkleTree)

/-- The branch that uses a stored hash, which at height 0 may be a matched one. -/
def useStoredHash (matched : Bool) (s : ExtractState) : Uint256 × ExtractState :=
  match t.vHash[s.nHashUsed]? with
  | none => (0, { s with fBad := true })
  | some hash =>
    (hash, { s with
      nHashUsed := s.nHashUsed + 1
      vMatch := if matched then s.vMatch ++ [hash] else s.vMatch })

/-- Read flags and hashes in the same order. -/
def traverseAndExtract : Nat → Nat → ExtractState → Uint256 × ExtractState
  | 0, _, s =>
    match t.vBits[s.nBitsUsed]? with
    | none => (0, { s with fBad := true })
    | some fParentOfMatch => useStoredHash t fParentOfMatch { s with nBitsUsed := s.nBitsUsed + 1 }
  | height + 1, pos, s =>
    match t.vBits[s.nBitsUsed]? with
    | none => (0, { s with fBad := true })
    | some false => useStoredHash t false { s with nBitsUsed := s.nBitsUsed + 1 }
    | some true =>
      let l := traverseAndExtract height (pos * 2) { s with nBitsUsed := s.nBitsUsed + 1 }
      if pos * 2 + 1 < calcTreeWidth t.nTransactions height then
        let r := traverseAndExtract height (pos * 2 + 1) l.2
        (hashPair l.1 r.1, r.2)
      else (hashPair l.1 l.1, l.2)

/-- The checks after the traversal: no overflow, all bits but the padding used, all hashes
used. -/
def allConsumed (s : ExtractState) : Bool :=
  !s.fBad && (s.nBitsUsed + 7) / 8 == (t.vBits.length + 7) / 8 && s.nHashUsed == t.vHash.length

/-- The checks before the traversal. -/
def sizesPlausible : Bool := t.nTransactions != 0 && t.nTransactions.toNat ≤ maxBlockSize / 60 &&
    t.vHash.length ≤ t.nTransactions.toNat && t.vHash.length ≤ t.vBits.length

/-- `ExtractMatches`: the root, the matched hashes and the tree, whose flag may have been set. -/
def CPartialMerkleTree.extractMatches : Uint256 × List Uint256 × CPartialMerkleTree :=
  if sizesPlausible t then
    let (hashMerkleRoot, s) :=
      traverseAndExtract hashPair t (treeHeight t.nTransactions 32 0) 0 ⟨0, 0, [], t.fBad⟩
    (if allConsumed t s then hashMerkleRoot else 0, s.vMatch, { t with fBad := s.fBad })
  else (0, [], t)

end Extract

/-! ## The wire format -/

/-- `b |= v << i`. -/
def orBit (b : UInt8) (v : Bool) (i : Nat) : UInt8 := UInt8.ofNat (b.toNat ||| v.toNat <<< i)

/-- Eight flags to a byte, the first in the lowest bit. -/
def packBits (vBits : List Bool) : Bytes := (List.range vBits.length).foldl
    (fun vBytes p => vBytes.modify (p / 8) fun b => orBit b (vBits.getD p false) (p % 8))
    (List.replicate ((vBits.length + 7) / 8) 0)

def unpackBits (vBytes : Bytes) : List Bool :=
  (List.range (vBytes.length * 8)).map fun p => (vBytes.getD (p / 8) 0).toNat.testBit (p % 8)

namespace CPartialMerkleTree

def serialize (t : CPartialMerkleTree) : Writes :=
  serializeUint32 t.nTransactions ++ serializeVector serializeUint256 t.vHash ++
    serializeBytes (packBits t.vBits)

def bytes (t : CPartialMerkleTree) : Bytes := t.serialize.bytes

end CPartialMerkleTree

/-- The flags come back padded to whole bytes. -/
def readPartialMerkleTree : Reader CPartialMerkleTree := do
  let nTransactions ← readUint32
  let vHash ← readVector 32 readUint256
  let vBytes ← readByteVector
  pure { nTransactions, vBits := unpackBits vBytes, vHash, fBad := false }

/-! ### Packing loses only the length -/

theorem testBit_orBit {b : UInt8} {v : Bool} {i j : Nat} (hi : i < 8) :
    (orBit b v j).toNat.testBit i = (b.toNat.testBit i || (decide (i = j) && v)) := by
  rw [orBit, UInt8.toNat_ofNat', testBit_mod_two_pow, testBit_or, testBit_shiftLeft,
    testBit_bool_toNat, decide_eq_true hi]
  rcases lt_trichotomy i j with hlt | heq | hgt
  · simp [not_le.mpr hlt, hlt.ne]
  · simp [heq]
  · simp [sub_ne_zero_of_lt hgt, hgt.ne']

theorem getD_modify {l : Bytes} {i j : Nat} {f : UInt8 → UInt8} (hj : j < l.length) :
    (l.modify i f).getD j 0 = if i = j then f (l.getD j 0) else l.getD j 0 := by
  rw [getD_eq_getElem?_getD, getD_eq_getElem?_getD, getElem?_modify, getElem?_eq_getElem hj]
  rfl

/-- The loop of `packBits` after `m` rounds: the bits before `m` are in place. -/
theorem packBits_loop (vBits : List Bool) {size m : Nat} (hm : m ≤ size * 8) :
    let vBytes := (range m).foldl
      (fun vBytes p => vBytes.modify (p / 8) fun b => orBit b (vBits.getD p false) (p % 8))
      (replicate size 0)
    vBytes.length = size ∧ ∀ q < size * 8,
      (vBytes.getD (q / 8) 0).toNat.testBit (q % 8) = (decide (q < m) && vBits.getD q false) := by
  induction m with
  | zero =>
    refine ⟨by simp, fun q hq => ?_⟩
    have hq8 : q / 8 < size := by omega
    simp [hq8]
  | succ m ih =>
    obtain ⟨hlen, hbits⟩ := ih (by omega)
    rw [range_succ, foldl_append, foldl_cons, foldl_nil]
    refine ⟨by rw [length_modify, hlen], fun q hq => ?_⟩
    have hold := hbits q hq
    rw [getD_modify (by omega)]
    by_cases hbyte : m / 8 = q / 8
    · -- the byte of bit `m`: only `q = m` changes
      have hqm : q % 8 = m % 8 ↔ q = m := by omega
      rw [if_pos hbyte, testBit_orBit (by omega), hold]
      by_cases heq : q = m
      · simp [heq]
      · have hq1 : q < m + 1 ↔ q < m := by omega
        simp [hqm, heq, hq1]
    · have hq1 : q < m + 1 ↔ q < m := by
        omega
      rw [if_neg hbyte, hold, decide_eq_decide.mpr hq1]

theorem length_packBits (vBits : List Bool) : (packBits vBits).length = (vBits.length + 7) / 8 :=
  (packBits_loop vBits (by omega)).1

/-- What comes back are the bits and the padding. -/
theorem unpackBits_packBits (vBits : List Bool) :
    ∃ padding, unpackBits (packBits vBits) = vBits ++ padding ∧
      (vBits ++ padding).length = (vBits.length + 7) / 8 * 8 := by
  refine ⟨replicate ((vBits.length + 7) / 8 * 8 - vBits.length) false, ?_, ?_⟩
  · apply ext_getElem?
    intro p
    have hbits := (@packBits_loop vBits ((vBits.length + 7) / 8) vBits.length (by omega)).2 p
    rw [unpackBits, length_packBits, getElem?_map]
    rcases lt_or_ge p ((vBits.length + 7) / 8 * 8) with hp | hp
    · rw [getElem?_range hp]
      show some (((packBits vBits).getD (p / 8) 0).toNat.testBit (p % 8)) = _
      rw [packBits, hbits hp]
      rcases lt_or_ge p vBits.length with hlt | hge
      · simp [hlt, getElem?_append_left hlt]
      · rw [getElem?_append_right hge, getElem?_replicate_of_lt (by omega)]
        simp [not_lt.mpr hge]
    · rw [getElem?_eq_none (by simpa using hp), getElem?_eq_none]
      · rfl
      · rw [length_append, length_replicate]
        omega
  · rw [length_append, length_replicate]
    omega

/-! ## Counting bits and hashes -/

section Count

variable (nTransactions : UInt32) (opened : Nat → Nat → Bool)

/-- The hashes stored for a node and what is below it, if the nodes `opened` are descended
into. -/
def hashesStored : Nat → Nat → Nat
  | 0, _ => 1
  | height + 1, pos =>
    if opened (height + 1) pos then
      hashesStored height (pos * 2) +
        if pos * 2 + 1 < calcTreeWidth nTransactions height then hashesStored height (pos * 2 + 1)
        else 0
    else 1

/-- The nodes with one child that are opened, from a node down. -/
def singlesOpened : Nat → Nat → Nat
  | 0, _ => 0
  | height + 1, pos =>
    if opened (height + 1) pos then
      singlesOpened height (pos * 2) +
        if pos * 2 + 1 < calcTreeWidth nTransactions height then singlesOpened height (pos * 2 + 1)
        else 1
    else 0

end Count

/-! ## Builder and extractor -/

/-- The matched transactions, in block order. -/
def matchedTxids (vTxid : List Uint256) (vMatch : List Bool) : List Uint256 :=
  ((vTxid.zip vMatch).filter Prod.snd).map Prod.fst

section Traversal

variable {hashPair : Uint256 → Uint256 → Uint256} {n : UInt32}
variable {vTxid : List Uint256} {vMatch : List Bool}

/-- The matched transactions below a node. -/
def matchedBelow (vTxid : List Uint256) (vMatch : List Bool) (height pos : Nat) : List Uint256 :=
  ((((vTxid.zip vMatch).drop (pos * 2 ^ height)).take (2 ^ height)).filter Prod.snd).map Prod.fst

/-- Where the transactions below the two children start. -/
theorem first_children (height pos : Nat) : pos * 2 ^ (height + 1) = pos * 2 * 2 ^ height ∧
    (pos * 2 + 1) * 2 ^ height = pos * 2 * 2 ^ height + 2 ^ height := by
  constructor <;> ring

theorem matchedBelow_succ (height pos : Nat) : matchedBelow vTxid vMatch (height + 1) pos =
      matchedBelow vTxid vMatch height (pos * 2) ++
        matchedBelow vTxid vMatch height (pos * 2 + 1) := by
  obtain ⟨hleft, hright⟩ := first_children height pos
  simp only [matchedBelow]
  rw [hleft, hright, Nat.two_pow_succ, take_add, drop_drop, filter_append, map_append]

variable {height pos : Nat} {s : Stored}

theorem matchedBelow_of_beyond (h : vTxid.length ≤ pos * 2 ^ height) :
    matchedBelow vTxid vMatch height pos = [] := by
  rw [matchedBelow, drop_eq_nil_of_le]
  · simp
  · rw [length_zip]
    omega

theorem matchedBelow_of_not_parent (hn : n.toNat = vTxid.length)
    (h : isParentOfMatch n vMatch height pos = false) :
    matchedBelow vTxid vMatch height pos = [] := by
  rw [matchedBelow, map_eq_nil_iff, filter_eq_nil_iff]
  intro x hx
  obtain ⟨i, hi, hget⟩ := mem_iff_getElem.mp hx
  rw [length_take, length_drop, length_zip] at hi
  rw [getElem_take, getElem_drop, getElem_zip] at hget
  -- the transaction is at `pos * 2 ^ height + i`, which the loop has visited
  have hmem : pos * 2 ^ height + i ∈ range' (pos * 2 ^ height)
      (min ((pos + 1) * 2 ^ height) n.toNat - pos * 2 ^ height) := by
    have hsplit : (pos + 1) * 2 ^ height = pos * 2 ^ height + 2 ^ height := by ring
    rw [mem_range'_1]
    omega
  have hfalse := (any_eq_false.mp h) _ hmem
  rw [getD_eq_getElem?_getD, getElem?_eq_getElem (by omega)] at hfalse
  rw [← hget]
  exact hfalse

theorem matchedBelow_zero (hn : n.toNat = vTxid.length) (hmask : vMatch.length = vTxid.length)
    (hpos : pos < vTxid.length) :
    matchedBelow vTxid vMatch 0 pos =
      if isParentOfMatch n vMatch 0 pos then [vTxid.getD pos 0] else [] := by
  have hzip : pos < (vTxid.zip vMatch).length := by
    rw [length_zip]
    omega
  have hbit : isParentOfMatch n vMatch 0 pos = vMatch.getD pos false := by
    have hone : min (pos + 1) n.toNat - pos = 1 := by omega
    simp [isParentOfMatch, hone]
  have hdrop : ((vTxid.zip vMatch).drop pos).take 1 =
      [(vTxid.getD pos 0, vMatch.getD pos false)] := by
    rw [drop_eq_getElem_cons hzip]
    simp [hpos, hmask]
  rw [matchedBelow, pow_zero, mul_one, hdrop, hbit]
  cases vMatch.getD pos false <;> rfl

/-- The left child of a node is a node, and the right child unless the level ends before. -/
theorem child_lt (hpos : pos < ((hashLevel hashPair)^[height + 1] vTxid).length) :
    2 * pos < ((hashLevel hashPair)^[height] vTxid).length := by
  rw [iterate_succ_apply', length_hashLevel] at hpos
  omega

theorem traverseAndBuild_isPrefix (height pos : Nat) (s : Stored) :
    s.1 <+: (traverseAndBuild hashPair n vTxid vMatch height pos s).1 ∧
      s.2 <+: (traverseAndBuild hashPair n vTxid vMatch height pos s).2 := by
  have hpush : ∀ (s : Stored) bit hashes, s.1 <+: (s.push bit hashes).1 ∧
      s.2 <+: (s.push bit hashes).2 :=
    fun s bit hashes => ⟨prefix_append _ _, prefix_append _ _⟩
  induction height generalizing pos s with
  | zero => exact hpush s _ _
  | succ height ih =>
    rw [traverseAndBuild]
    split
    · set s' := traverseAndBuild hashPair n vTxid vMatch height (pos * 2) _
      obtain ⟨hb, hh⟩ := hpush s (isParentOfMatch n vMatch (height + 1) pos) []
      obtain ⟨hb', hh'⟩ := ih (pos * 2) (s.push (isParentOfMatch n vMatch (height + 1) pos) [])
      split
      · obtain ⟨hb'', hh''⟩ := ih (pos * 2 + 1) s'
        exact ⟨(hb.trans hb').trans hb'', (hh.trans hh').trans hh''⟩
      · exact ⟨hb.trans hb', hh.trans hh'⟩
    · exact hpush s _ _

theorem getElem?_of_concat_isPrefix {α : Type} {l v : List α} {a : α} (h : l ++ [a] <+: v) :
    v[l.length]? = some a := by
  obtain ⟨rest, rfl⟩ := h
  simp

/-- The extractor at a node where the builder stored a hash. -/
theorem useStoredHash_of_push {t : CPartialMerkleTree} {bit matched : Bool} {hash : Uint256}
    {vm : List Uint256} (hhash : (s.push bit [hash]).2 <+: t.vHash) :
    useStoredHash t matched ⟨s.1.length + 1, s.2.length, vm, false⟩ =
      (hash, ⟨(s.push bit [hash]).1.length, (s.push bit [hash]).2.length,
        vm ++ (if matched then [hash] else []), false⟩) := by
  have hget : t.vHash[s.2.length]? = some hash := getElem?_of_concat_isPrefix hhash
  simp only [useStoredHash, hget, Stored.push, length_append, length_singleton]
  cases matched <;> simp

theorem first_lt_of_lt_width (hpos : pos < ((hashLevel hashPair)^[height] vTxid).length) :
    pos * 2 ^ height < vTxid.length := by
  have hpow : 0 < 2 ^ height := Nat.two_pow_pos height
  rw [length_iterate_hashLevel, lt_div_iff_mul_lt hpow] at hpos
  omega

/-- Below a node there is one bit less than twice the hashes,
and one more for every opened node with one child. -/
theorem traverseAndBuild_lengths (height pos : Nat) (s : Stored) :
    (traverseAndBuild hashPair n vTxid vMatch height pos s).2.length =
        s.2.length + hashesStored n (isParentOfMatch n vMatch) height pos ∧
      (traverseAndBuild hashPair n vTxid vMatch height pos s).1.length + 1 =
        s.1.length + 2 * hashesStored n (isParentOfMatch n vMatch) height pos +
          singlesOpened n (isParentOfMatch n vMatch) height pos := by
  have hstop : ∀ (s : Stored) (bit : Bool) (hash : Uint256),
      (s.push bit [hash]).2.length = s.2.length + 1 ∧
        (s.push bit [hash]).1.length + 1 = s.1.length + 2 * 1 + 0 := by
    intro s bit hash
    simp [Stored.push]
  induction height generalizing pos s with
  | zero => exact hstop s _ _
  | succ height ih =>
    rw [traverseAndBuild, hashesStored, singlesOpened]
    cases hparent : isParentOfMatch n vMatch (height + 1) pos with
    | false => exact hstop s _ _
    | true =>
      simp only [if_true]
      have hlen : (s.push true []).1.length = s.1.length + 1 ∧
          (s.push true []).2.length = s.2.length := by simp [Stored.push]
      obtain ⟨hl2, hl1⟩ := ih (pos * 2) (s.push true [])
      split
      · obtain ⟨hr2, hr1⟩ := ih (pos * 2 + 1)
          (traverseAndBuild hashPair n vTxid vMatch height (pos * 2) (s.push true []))
        omega
      · omega

theorem hashesStored_pos {opened : Nat → Nat → Bool} (height pos : Nat) :
    0 < hashesStored n opened height pos := by
  induction height generalizing pos with
  | zero => exact one_pos
  | succ height ih =>
    rw [hashesStored]
    have := ih (pos * 2)
    split <;> omega

variable (hn : n.toNat = vTxid.length) (hsmall : vTxid.length ≤ 2 ^ 31) (hh : height ≤ 31)
include hn hsmall hh

/-- Within 32 bits the width is that of the level. -/
theorem calcTreeWidth_eq :
    calcTreeWidth n height = ((hashLevel hashPair)^[height] vTxid).length := by
  have hpow : 2 ^ height ≤ 2 ^ 31 := Nat.pow_le_pow_right (by omega) hh
  rw [calcTreeWidth, length_iterate_hashLevel, hn, mod_eq_of_lt (by omega)]

theorem calcHash_eq (hpos : pos < ((hashLevel hashPair)^[height] vTxid).length) :
    calcHash hashPair n vTxid height pos = ((hashLevel hashPair)^[height] vTxid).getD pos 0 := by
  induction height generalizing pos with
  | zero => rfl
  | succ height ih =>
    have hleft := child_lt hpos
    rw [calcHash, iterate_succ_apply', getD_hashLevel 0 hleft, mul_comm pos 2,
      ih (by omega) hleft, @calcTreeWidth_eq hashPair n vTxid height hn hsmall (by omega)]
    split
    · next hright => rw [ih (by omega) hright]
    · rfl

/-- The extractor follows the builder through a node: it
returns the node's hash and the matched transactions below, and consumes exactly what the
builder stored. -/
theorem traverseAndExtract_of_built {t : CPartialMerkleTree} {vm : List Uint256}
    (hmask : vMatch.length = vTxid.length) (ht : t.nTransactions = n)
    (hpos : pos < ((hashLevel hashPair)^[height] vTxid).length)
    (hbits : (traverseAndBuild hashPair n vTxid vMatch height pos s).1 <+: t.vBits)
    (hhash : (traverseAndBuild hashPair n vTxid vMatch height pos s).2 <+: t.vHash) :
    traverseAndExtract hashPair t height pos ⟨s.1.length, s.2.length, vm, false⟩ =
      (((hashLevel hashPair)^[height] vTxid).getD pos 0,
        ⟨(traverseAndBuild hashPair n vTxid vMatch height pos s).1.length,
          (traverseAndBuild hashPair n vTxid vMatch height pos s).2.length,
          vm ++ matchedBelow vTxid vMatch height pos, false⟩) := by
  induction height generalizing pos s vm with
  | zero =>
    have hbit : t.vBits[s.1.length]? = some (isParentOfMatch n vMatch 0 pos) :=
      getElem?_of_concat_isPrefix hbits
    rw [matchedBelow_zero hn hmask hpos]
    simp only [traverseAndExtract, hbit]
    exact useStoredHash_of_push hhash
  | succ height ih =>
    rw [traverseAndBuild] at hbits hhash ⊢
    cases hparent : isParentOfMatch n vMatch (height + 1) pos with
    | false =>
      -- nothing matched below: the bit, the hash and no descent
      simp only [hparent, false_eq_true, if_false] at hbits hhash ⊢
      have hbit : t.vBits[s.1.length]? = some false := getElem?_of_concat_isPrefix hbits
      rw [matchedBelow_of_not_parent hn hparent, ← calcHash_eq hn hsmall hh hpos]
      simp only [traverseAndExtract, hbit]
      exact useStoredHash_of_push hhash
    | true =>
      simp only [hparent, if_true] at hbits hhash ⊢
      set l := traverseAndBuild hashPair n vTxid vMatch height (pos * 2) (s.push true [])
      have hleft := child_lt hpos
      have hwidth := @calcTreeWidth_eq hashPair n vTxid height hn hsmall (by omega)
      have hfront := @traverseAndBuild_isPrefix hashPair n vTxid vMatch height
      have hnode := @getD_hashLevel _ _ hashPair pos 0 hleft
      rw [← iterate_succ_apply' (hashLevel hashPair)] at hnode
      -- the left subtree, from the bit of this node on
      have hdown : l.1 <+: t.vBits → l.2 <+: t.vHash → t.vBits[s.1.length]? = some true ∧
          traverseAndExtract hashPair t height (pos * 2) ⟨s.1.length + 1, s.2.length, vm, false⟩ =
            (((hashLevel hashPair)^[height] vTxid).getD (2 * pos) 0, ⟨l.1.length, l.2.length,
              vm ++ matchedBelow vTxid vMatch height (pos * 2), false⟩) := by
        intro hb hh'
        have hbit := getElem?_of_concat_isPrefix ((hfront (pos * 2) (s.push true [])).1.trans hb)
        have hext := @ih (pos * 2) (s.push true []) (by omega) vm (by omega) hb hh'
        have hlen : (s.push true []).1.length = s.1.length + 1 ∧
            (s.push true []).2.length = s.2.length := by simp [Stored.push]
        rw [hlen.1, hlen.2] at hext
        rw [mul_comm 2 pos]
        exact ⟨hbit, hext⟩
      rw [matchedBelow_succ, ← append_assoc, hnode]
      by_cases hright : pos * 2 + 1 < calcTreeWidth n height
      · simp only [hright, if_true] at hbits hhash ⊢
        obtain ⟨hb, hh'⟩ := hfront (pos * 2 + 1) l
        obtain ⟨hbit, hext⟩ := hdown (hb.trans hbits) (hh'.trans hhash)
        have hlt : 2 * pos + 1 < ((hashLevel hashPair)^[height] vTxid).length := by omega
        simp only [traverseAndExtract, hbit, hext, ht, hright, hlt, if_true]
        rw [ih (by omega) (by omega) hbits hhash, mul_comm pos 2]
      · -- no right child: the left hash is used twice
        simp only [hright, if_false] at hbits hhash ⊢
        obtain ⟨hbit, hext⟩ := hdown hbits hhash
        have hnlt : ¬2 * pos + 1 < ((hashLevel hashPair)^[height] vTxid).length := by omega
        have hbeyond : vTxid.length ≤ (pos * 2 + 1) * 2 ^ height := by
          rw [length_iterate_hashLevel, not_lt, div_le_iff_le_mul_add_pred
            (Nat.two_pow_pos height), Nat.mul_comm] at hnlt
          rw [mul_comm pos 2]
          have := Nat.two_pow_pos height
          omega
        simp only [traverseAndExtract, hbit, hext, ht, hright, hnlt, if_false,
          matchedBelow_of_beyond hbeyond, append_nil]

/-- A stored hash has at least one transaction below it that no other stored hash is above. -/
theorem hashesStored_bounds (hpos : pos < ((hashLevel hashPair)^[height] vTxid).length)
    (opened : Nat → Nat → Bool) :
    hashesStored n opened height pos ≤ min (2 ^ height) (vTxid.length - pos * 2 ^ height) ∧
      2 * hashesStored n opened height pos + singlesOpened n opened height pos ≤
        2 ^ (height + 1) := by
  have hfirst := first_lt_of_lt_width hpos
  induction height generalizing pos with
  | zero =>
    rw [hashesStored, singlesOpened]
    omega
  | succ height ih =>
    have hleft := child_lt hpos
    have hwidth := @calcTreeWidth_eq hashPair n vTxid height hn hsmall (by omega)
    have hpow := Nat.two_pow_pos height
    obtain ⟨hchild, hchild'⟩ := first_children height pos
    obtain ⟨hc, hd⟩ := @ih (pos * 2) (by omega) (by omega) (by omega)
    rw [hashesStored, singlesOpened]
    split_ifs with hopened hright
    · obtain ⟨hc', hd'⟩ := @ih (pos * 2 + 1) (by omega) (hwidth ▸ hright)
        (first_lt_of_lt_width (hwidth ▸ hright))
      omega
    · omega
    · omega

end Traversal

/-! ## The height -/

theorem treeHeight_spec (n : UInt32) (fuel k : Nat) :
    (∀ j, k ≤ j → j < treeHeight n fuel k → 1 < calcTreeWidth n j) ∧
      (treeHeight n fuel k = k + fuel ∨ calcTreeWidth n (treeHeight n fuel k) ≤ 1) := by
  induction fuel generalizing k with
  | zero =>
    refine ⟨fun j hk hj => ?_, .inl rfl⟩
    rw [treeHeight] at hj
    omega
  | succ fuel ih =>
    rw [treeHeight]
    split
    · next hwide =>
      obtain ⟨hbelow, hend⟩ := ih (k + 1)
      refine ⟨fun j hk hj => ?_, ?_⟩
      · rcases eq_or_lt_of_le hk with rfl | hlt
        · exact hwide
        · exact hbelow j hlt hj
      · rwa [add_right_comm] at hend
    · exact ⟨fun j hk hj => by omega, .inr (by omega)⟩

/-- Up to `2 ^ k` transactions, `k ≤ 31`, give a height of at most `k`, where one node is left
and below which there are more. -/
theorem treeHeight_of_le_two_pow {n : UInt32} {k : Nat} (hk : k ≤ 31) (hn : n.toNat ≤ 2 ^ k) :
    treeHeight n 32 0 ≤ k ∧ calcTreeWidth n (treeHeight n 32 0) ≤ 1 ∧
      ∀ j < treeHeight n 32 0, 1 < calcTreeWidth n j := by
  obtain ⟨hbelow, hend⟩ := treeHeight_spec n 32 0
  have hone : calcTreeWidth n k ≤ 1 := by
    have hpow : 0 < 2 ^ k := Nat.two_pow_pos k
    rw [calcTreeWidth, ← Nat.lt_succ_iff, Nat.div_lt_iff_lt_mul hpow]
    omega
  have hle : treeHeight n 32 0 ≤ k := by
    by_contra hgt
    have := hbelow k (zero_le k) (by omega)
    omega
  refine ⟨hle, ?_, fun j => hbelow j (zero_le j)⟩
  rcases hend with hend | hend
  · omega
  · exact hend

/-! ## The round trip -/

section RoundTrip

variable {hashPair : Uint256 → Uint256 → Uint256} {vTxid : List Uint256} {vMatch : List Bool}

/-- The tree over up to `MAX_BLOCK_SIZE / 60` transactions has one node at its height, which is
where `BuildMerkleTree` ends. -/
theorem top_of_treeHeight (hlen : vTxid.length ≤ maxBlockSize / 60) :
    (UInt32.ofNat vTxid.length).toNat = vTxid.length ∧
      treeHeight (UInt32.ofNat vTxid.length) 32 0 ≤ 17 ∧
      (hashLevel hashPair)^[treeHeight (UInt32.ofNat vTxid.length) 32 0] vTxid =
        treeTop hashPair vTxid.length vTxid := by
  have hmax : maxBlockSize / 60 = 83333 := rfl
  have hn : (UInt32.ofNat vTxid.length).toNat = vTxid.length := by
    exact mod_eq_of_lt (by omega)
  obtain ⟨hle, hone, hbelow⟩ := @treeHeight_of_le_two_pow (UInt32.ofNat vTxid.length) 17 (by omega)
    (by rw [hn]; omega)
  set H := treeHeight (UInt32.ofNat vTxid.length) 32 0
  have hwidth : ∀ k ≤ 17, calcTreeWidth (UInt32.ofNat vTxid.length) k =
      ((hashLevel hashPair)^[k] vTxid).length :=
    fun k hk => calcTreeWidth_eq hn (by omega) (by omega)
  have htop : treeTop hashPair (vTxid.length + H) vTxid = (hashLevel hashPair)^[H] vTxid := by
    apply treeTop_eq_iterate (by omega)
    · rw [← hwidth H hle]
      exact hone
    · intro k hk
      rw [← hwidth k (by omega)]
      exact hbelow k hk
  refine ⟨hn, hle, ?_⟩
  rw [← htop]
  exact (tree_fuel (by omega) (by omega)).1

theorem matchedBelow_top {height : Nat} (h : vTxid.length ≤ 2 ^ height) :
    matchedBelow vTxid vMatch height 0 = matchedTxids vTxid vMatch := by
  rw [matchedBelow, zero_mul, drop_zero, take_of_length_le, matchedTxids]
  rw [length_zip]
  omega

/-- What is built, in numbers. -/
theorem ofMatches_counts (hashPair : Uint256 → Uint256 → Uint256) (vTxid : List Uint256)
    (vMatch : List Bool) :
    let n := UInt32.ofNat vTxid.length
    let t := CPartialMerkleTree.ofMatches hashPair vTxid vMatch
    let opened := isParentOfMatch n vMatch
    t.vHash.length = hashesStored n opened (treeHeight n 32 0) 0 ∧
      t.vBits.length + 1 = 2 * hashesStored n opened (treeHeight n 32 0) 0 +
        singlesOpened n opened (treeHeight n 32 0) 0 := by
  obtain ⟨hhash, hbits⟩ := @traverseAndBuild_lengths hashPair (UInt32.ofNat vTxid.length) vTxid
    vMatch (treeHeight (UInt32.ofNat vTxid.length) 32 0) 0 ([], [])
  simp only [length_nil, zero_add] at hhash hbits
  exact ⟨hhash, hbits⟩

/-- The sizes of what is built. -/
theorem ofMatches_sizes (hne : vTxid ≠ []) (hlen : vTxid.length ≤ maxBlockSize / 60) :
    let t := CPartialMerkleTree.ofMatches hashPair vTxid vMatch
    t.vHash.length ≤ t.vBits.length ∧ t.vHash.length ≤ vTxid.length ∧ t.vBits.length ≤ 2 ^ 18 := by
  intro t
  have hmax : maxBlockSize / 60 = 83333 := rfl
  obtain ⟨hn, hheight, htop⟩ := @top_of_treeHeight hashPair vTxid hlen
  have hroot := @length_treeTop _ vTxid vTxid.length hashPair hne (by omega)
  obtain ⟨hhash, hbits⟩ : t.vHash.length = _ ∧ t.vBits.length + 1 = _ :=
    ofMatches_counts hashPair vTxid vMatch
  obtain ⟨hc, hd⟩ := @hashesStored_bounds hashPair _ vTxid _ 0 hn (by omega)
    (hheight.trans (by decide)) (by rw [htop]; omega)
    (isParentOfMatch (UInt32.ofNat vTxid.length) vMatch)
  have hpow : 2 ^ (treeHeight (UInt32.ofNat vTxid.length) 32 0 + 1) ≤ 2 ^ 18 :=
    Nat.pow_le_pow_right (by omega) (by omega)
  rw [zero_mul] at hc
  omega

/-- Extraction from a tree that differs from the one built only by padding bits. -/
theorem extractMatches_of_padded (hne : vTxid ≠ []) (hlen : vTxid.length ≤ maxBlockSize / 60)
    (hmask : vMatch.length = vTxid.length) {t : CPartialMerkleTree} {padding : List Bool}
    (hcount : t.nTransactions = UInt32.ofNat vTxid.length) (hgood : t.fBad = false)
    (hhash : t.vHash = (CPartialMerkleTree.ofMatches hashPair vTxid vMatch).vHash)
    (hbits : t.vBits = (CPartialMerkleTree.ofMatches hashPair vTxid vMatch).vBits ++ padding)
    (hpad : t.vBits.length =
      ((CPartialMerkleTree.ofMatches hashPair vTxid vMatch).vBits.length + 7) / 8 * 8) :
    (t.extractMatches hashPair).1 = (treeTop hashPair vTxid.length vTxid).headD 0 ∧
      (t.extractMatches hashPair).2.1 = matchedTxids vTxid vMatch := by
  have hmax : maxBlockSize / 60 = 83333 := rfl
  obtain ⟨hn, hheight, htop⟩ := @top_of_treeHeight hashPair vTxid hlen
  obtain ⟨hb, hc, -⟩ := @ofMatches_sizes hashPair vTxid vMatch hne hlen
  have hroot := @length_treeTop _ vTxid vTxid.length hashPair hne (by omega)
  have hplausible : sizesPlausible t = true := by
    have hzero : t.nTransactions ≠ 0 := by
      rintro heq
      rw [hcount] at heq
      rw [heq] at hn
      exact absurd hn.symm (by simpa using hne)
    simp only [sizesPlausible, and_eq_true, bne_iff_ne, decide_eq_true_eq]
    rw [hcount, hn, hhash, hbits, length_append]
    refine ⟨⟨⟨?_, hlen⟩, hc⟩, by omega⟩
    rwa [← hcount]
  -- the traversal consumes what was built and leaves the padding
  have hext := @traverseAndExtract_of_built hashPair _ vTxid vMatch
    (treeHeight (UInt32.ofNat vTxid.length) 32 0) 0 ([], []) hn (by omega) (by omega) t [] hmask
    hcount (by rw [htop]; omega) (hbits ▸ prefix_append _ padding)
    (hhash ▸ prefix_refl _)
  have hbelow : vTxid.length ≤ 2 ^ treeHeight (UInt32.ofNat vTxid.length) 32 0 := by
    have hwidth := @length_iterate_hashLevel _ hashPair vTxid
      (treeHeight (UInt32.ofNat vTxid.length) 32 0)
    rw [htop, hroot] at hwidth
    have hlt := (Nat.div_lt_iff_lt_mul (Nat.two_pow_pos _)).mp (hwidth ▸ Nat.one_lt_two)
    omega
  rw [htop, matchedBelow_top hbelow] at hext
  have hhead : (treeTop hashPair vTxid.length vTxid).getD 0 0 =
      (treeTop hashPair vTxid.length vTxid).headD 0 := by
    cases treeTop hashPair vTxid.length vTxid <;> rfl
  rw [hhead] at hext
  let used : ExtractState := ⟨(CPartialMerkleTree.ofMatches hashPair vTxid vMatch).vBits.length,
      (CPartialMerkleTree.ofMatches hashPair vTxid vMatch).vHash.length,
      matchedTxids vTxid vMatch, false⟩
  have hconsumed : allConsumed t used = true := by
    simp only [allConsumed, used, and_eq_true, beq_iff_eq]
    exact ⟨⟨rfl, by omega⟩, by rw [hhash]⟩
  have hrun : traverseAndExtract hashPair t (treeHeight t.nTransactions 32 0) 0
      ⟨0, 0, [], t.fBad⟩ = ((treeTop hashPair vTxid.length vTxid).headD 0, used) := by
    rw [hcount, hgood]
    exact hext
  simp only [CPartialMerkleTree.extractMatches, hplausible, if_true, hrun]
  exact ⟨if_pos hconsumed, rfl⟩

theorem readPartialMerkleTree_bytes {t : CPartialMerkleTree} (hhash : t.vHash.length ≤ maxSize)
    (hbits : (packBits t.vBits).length ≤ maxSize) (rest : Bytes) :
    readPartialMerkleTree (t.bytes ++ rest) =
      .ok ({ t with vBits := unpackBits (packBits t.vBits), fBad := false }, rest) := by
  have hvector := @canonical_readVector _ _ _ _ canonical_readUint256 32 (by decide)
  have hread := @hvector.read_write t.vHash ((serializeBytes (packBits t.vBits)).bytes ++ rest)
    ⟨hhash, fun _ _ => trivial⟩
  rw [readPartialMerkleTree, CPartialMerkleTree.bytes, CPartialMerkleTree.serialize,
    bytes_append, bytes_append, append_assoc, append_assoc,
    canonical_readUint32.bind_eq trivial, Reader.bind_of_ok hread,
    canonical_readByteVector.bind_eq hbits]
  rfl

/-- **`partialMerkleTree_roundTrips`** — building a partial tree, sending it and extracting the
matches gives the root that `BuildMerkleTree` computes and exactly the matched transactions in
block order, for any mask over up to `MAX_BLOCK_SIZE / 60` transactions. -/
theorem partialMerkleTree_roundTrips (hashPair : Uint256 → Uint256 → Uint256)
    (vtx : List CTransaction) (vMatch : List Bool) (hne : vtx ≠ [])
    (hlen : vtx.length ≤ maxBlockSize / 60) (hmask : vMatch.length = vtx.length) (rest : Bytes) :
    ∃ t, readPartialMerkleTree
        ((CPartialMerkleTree.ofMatches hashPair (vtx.map CTransaction.getHash) vMatch).bytes ++
          rest) = .ok (t, rest) ∧
      (t.extractMatches hashPair).1 = (buildMerkleTree hashPair vtx).1 ∧
      (t.extractMatches hashPair).2.1 = matchedTxids (vtx.map CTransaction.getHash) vMatch := by
  set vTxid := vtx.map CTransaction.getHash with hids
  have hcount : vTxid.length = vtx.length := length_map _
  rw [← hcount] at hlen hmask
  have hne' : vTxid ≠ [] := by simpa [hids] using hne
  have hsize : maxSize = 33554432 := rfl
  obtain ⟨hb, hc, hd⟩ := @ofMatches_sizes hashPair vTxid vMatch hne' hlen
  set built := CPartialMerkleTree.ofMatches hashPair vTxid vMatch
  have hpacked : (packBits built.vBits).length ≤ maxSize := by
    rw [length_packBits]
    omega
  obtain ⟨padding, hunpack, hpad⟩ := unpackBits_packBits built.vBits
  refine ⟨_, readPartialMerkleTree_bytes (by omega) hpacked rest, ?_⟩
  rw [buildMerkleTree_root, ← hcount]
  exact extractMatches_of_padded hne' hlen hmask rfl rfl rfl hunpack (hunpack ▸ hpad)

end RoundTrip

/-- Two of three transactions. -/
theorem partialMerkleTree_roundTrips_three : ∃ t, readPartialMerkleTree
        ((CPartialMerkleTree.ofMatches thousandHash [1, 2, 3] [false, true, true]).bytes ++ []) =
          .ok (t, []) ∧
      (t.extractMatches thousandHash).1 =
        (buildMerkleTree thousandHash [hashedTx 1, hashedTx 2, hashedTx 3]).1 ∧
      (t.extractMatches thousandHash).2.1 = [2, 3] :=
  partialMerkleTree_roundTrips thousandHash [hashedTx 1, hashedTx 2, hashedTx 3]
    [false, true, true] (by decide) (by decide) (by decide) []

end MonetaryUnit
