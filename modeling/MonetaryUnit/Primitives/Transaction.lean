/-
# MonetaryUnit.Primitives.Transaction — amounts, transactions and blocks

The data the rest of the development is about, with the source's own field names
(`amount.h`, `primitives/transaction.h`, `primitives/block.h`, `undo.h`).

Fixed-width fields keep their width: amounts are `Int64`, versions and heights are
`Int32`, indices and times are `UInt32`. Signed arithmetic wraps, as it does on every
platform the code is built for. A `uint256` is a `BitVec 256`, a byte vector is a
list of bytes.

`CTransaction` keeps the cached `hash` as a field, because the code keeps it as one:
nothing in the type forces it to be the hash of the other fields.
-/

import Mathlib.Data.BitVec

namespace MonetaryUnit

abbrev Uint256 := BitVec 256
abbrev CScript := List UInt8
abbrev CAmount := Int64

/-! ## Amounts -/

def coin : CAmount := 100000

/-- The product `10^15 * COIN` is formed in `uint64_t`, where it wraps, and is then stored
in an `int64_t`. -/
def maxMoney : CAmount := ((1000000000000000 : UInt64) * coin.toUInt64).toInt64

def moneyRange (nValue : CAmount) : Bool := 0 ≤ nValue && nValue ≤ maxMoney

theorem maxMoney_toInt : maxMoney.toInt = 7766279631452241920 := by decide

theorem moneyRange_iff {v : CAmount} :
    moneyRange v = true ↔ 0 ≤ v.toInt ∧ v.toInt ≤ 7766279631452241920 := by
  simp [moneyRange, Int64.le_iff_toInt_le, maxMoney_toInt]

/-! ## Transactions -/

structure COutPoint where
  hash : Uint256
  n : UInt32
deriving DecidableEq, Repr

/-- `COutPoint::SetNull`: hash zero and index `(uint32_t) -1`. -/
def COutPoint.null : COutPoint := ⟨0, 0xFFFFFFFF⟩

def COutPoint.isNull (o : COutPoint) : Bool := o.hash == 0 && o.n == 0xFFFFFFFF

structure CTxIn where
  prevout : COutPoint
  scriptSig : CScript
  nSequence : UInt32
deriving DecidableEq, Repr

structure CTxOut where
  nValue : CAmount
  scriptPubKey : CScript
deriving DecidableEq, Repr

/-- The value `CTxOut::SetNull` leaves, also the default constructor's. -/
def CTxOut.null : CTxOut := ⟨-1, []⟩

/-- Only the value is looked at: an output with value `-1` is null whatever its script. -/
def CTxOut.isNull (o : CTxOut) : Bool := o.nValue == -1

@[simp]
theorem CTxOut.isNull_null : CTxOut.null.isNull = true := rfl

theorem CTxOut.isNull_eq_false_of_range {o : CTxOut} (h : moneyRange o.nValue = true) :
    o.isNull = false := by
  rw [CTxOut.isNull, beq_eq_false_iff_ne]
  intro hv
  rw [hv] at h
  exact absurd h (by decide)

structure CTransaction where
  /-- Memory only: the cached value that `GetHash` returns. -/
  hash : Uint256
  nVersion : Int32
  vin : List CTxIn
  vout : List CTxOut
  nLockTime : UInt32
  strTxComment : List UInt8
deriving DecidableEq, Repr

namespace CTransaction

def getHash (tx : CTransaction) : Uint256 := tx.hash

/-- One input, which spends nothing. -/
def isCoinBase (tx : CTransaction) : Bool :=
  match tx.vin with
  | [txin] => txin.prevout.isNull
  | _ => false

/-- One round of the loop of `GetValueOut`: the running sum is range-checked too. -/
def addValueOut (nValueOut : CAmount) (out : CTxOut) : Except String CAmount :=
  let nValueOut := nValueOut + out.nValue
  if !moneyRange out.nValue || !moneyRange nValueOut then
    .error "CTransaction::GetValueOut() : value out of range"
  else .ok nValueOut

/-- The sum of the outputs; leaving the money range throws. -/
def getValueOut (tx : CTransaction) : Except String CAmount := tx.vout.foldlM addValueOut 0

end CTransaction

/-! ## Blocks -/

structure CBlockHeader where
  nVersion : Int32
  hashPrevBlock : Uint256
  hashMerkleRoot : Uint256
  nTime : UInt32
  nBits : UInt32
  nNonce : UInt32
deriving DecidableEq, Repr

/-- The in-memory `vMerkleTree` is a scratch buffer of `BuildMerkleTree` and is left out. -/
structure CBlock extends CBlockHeader where
  vtx : List CTransaction
deriving DecidableEq, Repr

/-! ## Undo records -/

/-- A spent output; the metadata is set with the last of its transaction. -/
structure CTxInUndo where
  txout : CTxOut
  fCoinBase : Bool := false
  nHeight : UInt32 := 0
  nVersion : Int32 := 0
deriving DecidableEq, Repr

structure CTxUndo where
  vprevout : List CTxInUndo
deriving DecidableEq, Repr

structure CBlockUndo where
  vtxundo : List CTxUndo
deriving DecidableEq, Repr

end MonetaryUnit
