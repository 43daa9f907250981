/-
# MonetaryUnit.Validation.CheckBlock — checks that need no context

`CheckTransaction`, `CheckBlockHeader`, `BuildMerkleTree` and `CheckBlock` of `main.cpp` and
`primitives/block.cpp`, in the order in which they fail and with the reasons they give.

`CheckedTx` and `CheckedBlock` say what a transaction or block that passes looks like; later
modules use these and do not look into the checks again.
-/

import MonetaryUnit.Script.SigOps
import MonetaryUnit.Serialize.Wire
import MonetaryUnit.Validation.State

namespace MonetaryUnit

open Lib List

def maxBlockSize : Nat := 5000000
def maxBlockSigOps : Nat := maxBlockSize / 50

/-! ## Transactions -/

/-- One round of the loop over the outputs. -/
def checkOutValue (nValueOut : CAmount) (txout : CTxOut) : Except Reject CAmount := do
  require (0 ≤ txout.nValue) (dos 100 "bad-txns-vout-negative")
  require (txout.nValue ≤ maxMoney) (dos 100 "bad-txns-vout-toolarge")
  let nValueOut := nValueOut + txout.nValue
  require (moneyRange nValueOut) (dos 100 "bad-txns-txouttotal-toolarge")
  pure nValueOut

/-- The loop that looks for a duplicate input, with the outpoints seen so far. -/
def duplicateInput : List COutPoint → List CTxIn → Bool
  | _, [] => false
  | vInOutPoints, txin :: rest =>
    if vInOutPoints.contains txin.prevout then true
    else duplicateInput (txin.prevout :: vInOutPoints) rest

def coinbaseScriptOk (tx : CTransaction) : Bool :=
  tx.vin.all fun txin => 2 ≤ txin.scriptSig.length && txin.scriptSig.length ≤ 100

/-- The checks of a transaction that need no coins. -/
def checkTransaction (tx : CTransaction) : Except Reject Unit := do
  require (!tx.vin.isEmpty) (dos 10 "bad-txns-vin-empty")
  require (!tx.vout.isEmpty) (dos 10 "bad-txns-vout-empty")
  require ((freeGetSerializeSize tx.getSerializeSize).toNat ≤ maxBlockSize)
    (dos 100 "bad-txns-oversize")
  let _ ← tx.vout.foldlM checkOutValue 0
  require (!duplicateInput [] tx.vin) (dos 100 "bad-txns-inputs-duplicate")
  if tx.isCoinBase then require (coinbaseScriptOk tx) (dos 100 "bad-cb-length")
  else require (tx.vin.all fun txin => !txin.prevout.isNull) (dos 10 "bad-txns-prevout-null")

/-! ## Blocks -/

/-- What the block checks take from elsewhere: the block hash, the hash of two tree nodes, the
proof-of-work test and the clock. -/
structure BlockEnv where
  getHash : CBlockHeader → Uint256
  hashPair : Uint256 → Uint256 → Uint256
  checkProofOfWork : Uint256 → UInt32 → Bool
  adjustedTime : Int

/-- One level of the Merkle tree from the level below, and whether its last two nodes are a
pair of equal hashes. An odd node is paired with itself. -/
def merkleLevel (hashPair : Uint256 → Uint256 → Uint256) : List Uint256 → List Uint256 × Bool
  | [] => ([], false)
  | [a] => ([hashPair a a], false)
  | [a, b] => ([hashPair a b], a == b)
  | a :: b :: rest =>
    let (level, mutated) := merkleLevel hashPair rest
    (hashPair a b :: level, mutated)

/-- The loop over the levels; each has about half the nodes of the one below. -/
def merkleLoop (hashPair : Uint256 → Uint256 → Uint256) : Nat → List Uint256 → Bool → Uint256 × Bool
  | 0, nodes, mutated => (nodes.headD 0, mutated)
  | fuel + 1, nodes, mutated =>
    if 1 < nodes.length then
      let (level, m) := merkleLevel hashPair nodes
      merkleLoop hashPair fuel level (mutated || m)
    else (nodes.headD 0, mutated)

/-- The root, and whether a level ends in two equal hashes. -/
def buildMerkleTree (hashPair : Uint256 → Uint256 → Uint256) (vtx : List CTransaction) :
    Uint256 × Bool :=
  merkleLoop hashPair vtx.length (vtx.map CTransaction.getHash) false

/-- Proof of work and a time at most two hours ahead. -/
def checkBlockHeader (E : BlockEnv) (block : CBlockHeader) (fCheckPOW : Bool) :
    Except Reject Unit := do
  require (!fCheckPOW || E.checkProofOfWork (E.getHash block) block.nBits) (dos 50 "high-hash")
  require ((block.nTime.toNat : Int) ≤ E.adjustedTime + 2 * 60 * 60)
    (invalid rejectInvalid "time-too-new")

def checkMerkleRoot (E : BlockEnv) (block : CBlock) (fCheckMerkleRoot : Bool) :
    Except Reject Unit := do
  let (root, mutated) := buildMerkleTree E.hashPair block.vtx
  require (!fCheckMerkleRoot || block.hashMerkleRoot == root) (dos 100 "bad-txnmrklroot" true)
  require (!fCheckMerkleRoot || !mutated) (dos 100 "bad-txns-duplicate" true)

/-- The size limits of `CheckBlock`: the number of transactions and the serialized size, as
the 32-bit `::GetSerializeSize` returns it. -/
def sizeLimitsOk (block : CBlock) : Bool := !block.vtx.isEmpty && block.vtx.length ≤ maxBlockSize &&
    (freeGetSerializeSize block.getSerializeSize).toNat ≤ maxBlockSize

def firstIsCoinBase (vtx : List CTransaction) : Bool :=
  match vtx with
  | [] => false
  | tx :: _ => tx.isCoinBase

/-- The checks of a block that need no context. -/
def checkBlock (E : BlockEnv) (block : CBlock) (fCheckPOW fCheckMerkleRoot : Bool) :
    Except Reject Unit := do
  checkBlockHeader E block.toCBlockHeader fCheckPOW
  checkMerkleRoot E block fCheckMerkleRoot
  require (sizeLimitsOk block) (dos 100 "bad-blk-length")
  require (firstIsCoinBase block.vtx) (dos 100 "bad-cb-missing")
  require (block.vtx.tail.all fun tx => !tx.isCoinBase) (dos 100 "bad-cb-multiple")
  block.vtx.forM checkTransaction
  require ((block.vtx.map getLegacySigOpCount).sum ≤ maxBlockSigOps) (dos 100 "bad-blk-sigops" true)

/-! ## What passes -/

theorem duplicateInput_eq_false_iff {seen : List COutPoint} {vin : List CTxIn} :
    duplicateInput seen vin = false ↔
      (vin.map CTxIn.prevout).Nodup ∧ ∀ txin ∈ vin, txin.prevout ∉ seen := by
  induction vin generalizing seen with
  | nil => simp [duplicateInput]
  | cons txin rest ih =>
    rw [duplicateInput]
    by_cases hseen : txin.prevout ∈ seen
    · simp [hseen]
    rw [if_neg (by simpa using hseen), ih]
    simp only [map_cons, nodup_cons, mem_map, not_exists, not_and,
      mem_cons, forall_eq_or_imp, not_or]
    constructor
    · rintro ⟨hnd, hrest⟩
      exact ⟨⟨fun x hx heq => (hrest x hx).1 heq, hnd⟩, hseen, fun x hx => (hrest x hx).2⟩
    · rintro ⟨⟨hne, hnd⟩, -, hrest⟩
      exact ⟨hnd, fun x hx => ⟨fun heq => hne x hx heq, hrest x hx⟩⟩

/-- A transaction that passed `CheckTransaction`. The running sums of its outputs are in
range, so they are exact. -/
structure CheckedTx (tx : CTransaction) : Prop where
  vin_ne_nil : tx.vin ≠ []
  inputs_nodup : (tx.vin.map CTxIn.prevout).Nodup
  valueOut : ∃ v, tx.vout.foldlM checkOutValue 0 = .ok v

theorem checkTransaction_checked {tx : CTransaction} (h : checkTransaction tx = .ok ()) :
    CheckedTx tx := by
  simp only [checkTransaction, bind_eq_ok] at h
  obtain ⟨_, hvin, _, -, _, -, v, hv, _, hdup, -⟩ := h
  have hvin := require_ok_iff.mp hvin
  have hdup := require_ok_iff.mp hdup
  have hnodup := duplicateInput_eq_false_iff.mp (by simpa using hdup)
  exact ⟨by simpa using hvin, hnodup.1, v, hv⟩

/-- A block that passed `CheckBlock`: a coinbase, then transactions that are none. -/
structure CheckedBlock (block : CBlock) : Prop where
  coinbase_first : ∃ cb rest, block.vtx = cb :: rest ∧ cb.isCoinBase = true ∧
    ∀ tx ∈ rest, tx.isCoinBase = false
  checked : ∀ tx ∈ block.vtx, CheckedTx tx

theorem forM_eq_ok {ε α : Type} {f : α → Except ε Unit} {l : List α}
    (h : l.forM f = .ok ()) : ∀ a ∈ l, f a = .ok () := by
  induction l with
  | nil => simp
  | cons a l ih =>
    rw [forM_eq_forM, forM_cons, bind_eq_ok] at h
    obtain ⟨u, ha, hl⟩ := h
    simpa using ⟨ha, ih hl⟩

variable {E : BlockEnv} {block : CBlock} {pow merkle : Bool}

theorem checkBlock_checked (h : checkBlock E block pow merkle = .ok ()) : CheckedBlock block := by
  simp only [checkBlock, bind_eq_ok] at h
  obtain ⟨_, -, _, -, _, -, _, hfirst, _, hrest, _, hall, -⟩ := h
  have hfirst := require_ok_iff.mp hfirst
  have hrest := require_ok_iff.mp hrest
  refine ⟨?_, fun tx htx => checkTransaction_checked (forM_eq_ok hall tx htx)⟩
  cases hvtx : block.vtx with
  | nil =>
    rw [hvtx] at hfirst
    cases hfirst
  | cons cb rest =>
    rw [hvtx] at hfirst hrest
    refine ⟨cb, rest, rfl, hfirst, ?_⟩
    intro tx htx
    simpa using all_eq_true.mp hrest tx htx

theorem checkBlock_sizeLimitsOk (h : checkBlock E block pow merkle = .ok ()) :
    sizeLimitsOk block = true := by
  simp only [checkBlock, bind_eq_ok] at h
  obtain ⟨_, -, _, -, _, hsize, -⟩ := h
  exact require_ok_iff.mp hsize

theorem checkBlock_proofOfWork (h : checkBlock E block true merkle = .ok ()) :
    E.checkProofOfWork (E.getHash block.toCBlockHeader) block.nBits = true := by
  simp only [checkBlock, bind_eq_ok] at h
  obtain ⟨_, hheader, -⟩ := h
  simp only [checkBlockHeader, bind_eq_ok] at hheader
  obtain ⟨_, hpow, -⟩ := hheader
  simpa using require_ok_iff.mp hpow

end MonetaryUnit
