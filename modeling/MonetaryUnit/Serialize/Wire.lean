/-
# MonetaryUnit.Serialize.Wire — the wire format of transactions and blocks

`serialize.h` and the `SerializationOp`s of `primitives/transaction.h` and
`primitives/block.h`. One description of a type generates three passes:

* writing is a sequence of `write` calls on the stream, kept as the list of the byte blocks
  written (`Writes`); the bytes on the wire are their concatenation;
* `GetSerializeSize` runs the same sequence against a `CSizeComputer`, which only adds up
  the lengths;
* reading takes the bytes off the stream field by field, vectors in chunks, and can fail.

Integers are stored in memory order on a little-endian machine.
-/

import MonetaryUnit.Lib.Codec
import MonetaryUnit.Primitives.Transaction

namespace MonetaryUnit

open Lib

/-! ## Streams -/

/-- The blocks handed to the `write` calls of one serialization, in order. -/
abbrev Writes := List Bytes

/-- What a data stream holds after the writes. -/
def Writes.bytes (w : Writes) : Bytes := w.flatten

/-- `CSizeComputer`: every write adds its length to `nSize`. The count is a `size_t`, which
does not wrap on the size of an object that is in memory. -/
def Writes.computedSize (w : Writes) : Nat := w.foldl (fun nSize b => nSize + b.length) 0

/-- `::GetSerializeSize`, the free function around the member function, returns an
`unsigned int`. -/
def freeGetSerializeSize (size : Nat) : UInt32 := UInt32.ofNat size

def endOfData : String := "CDataStream::read() : end of data"

/-! ## Integers -/

def serializeUint32 (x : UInt32) : Writes := [leBytes 4 x.toNat]
def serializeInt32 (x : Int32) : Writes := [leBytes 4 x.toUInt32.toNat]
def serializeInt64 (x : Int64) : Writes := [leBytes 8 x.toUInt64.toNat]
def serializeUint256 (x : Uint256) : Writes := [leBytes 32 x.toNat]

def readUint32 : Reader UInt32 := UInt32.ofNat <$> readLE endOfData 4
def readInt32 : Reader Int32 := (fun v => (UInt32.ofNat v).toInt32) <$> readLE endOfData 4
def readInt64 : Reader Int64 := (fun v => (UInt64.ofNat v).toInt64) <$> readLE endOfData 8
def readUint256 : Reader Uint256 := BitVec.ofNat 256 <$> readLE endOfData 32

/-! ## Compact sizes -/

def maxSize : Nat := 0x02000000

def getSizeOfCompactSize (nSize : Nat) : Nat :=
  if nSize < 253 then 1 else if nSize ≤ 0xFFFF then 3 else if nSize ≤ 0xFFFFFFFF then 5 else 9

/-- One, three, five or nine bytes. -/
def writeCompactSize (nSize : Nat) : Writes :=
  if nSize < 253 then [leBytes 1 nSize]
  else if nSize ≤ 0xFFFF then [leBytes 1 253, leBytes 2 nSize]
  else if nSize ≤ 0xFFFFFFFF then [leBytes 1 254, leBytes 4 nSize]
  else [leBytes 1 255, leBytes 8 nSize]

/-- The long forms: the size in `width` bytes, refused when a shorter form would do. -/
def readLongSize (width least : Nat) : Reader Nat := do
  let xSize ← readLE endOfData width
  if xSize < least then throw "non-canonical ReadCompactSize()" else pure xSize

/-- The branches of `ReadCompactSize` on its first byte. -/
def readSizeAfter (chSize : Nat) : Reader Nat :=
  if chSize < 253 then pure chSize
  else if chSize = 253 then readLongSize 2 253
  else if chSize = 254 then readLongSize 4 0x10000
  else readLongSize 8 0x100000000

/-- A size of at most `MAX_SIZE`. -/
def readCompactSize : Reader Nat := do
  let chSize ← readLE endOfData 1
  let nSizeRet ← readSizeAfter chSize
  if nSizeRet > maxSize then throw "ReadCompactSize() : size too large" else pure nSizeRet

/-! ## Byte vectors, strings and vectors -/

/-- Scripts and strings: the length, then one write of all bytes unless there are none. -/
def serializeBytes (v : Bytes) : Writes :=
  writeCompactSize v.length ++ if v.isEmpty then [] else [v]

def serializeVector {α : Type} (serialize : α → Writes) (v : List α) : Writes :=
  writeCompactSize v.length ++ v.flatMap serialize

/-- The loop that reads a byte vector in blocks of at most `1 + 4999999` bytes. -/
def readBlocks (nSize : Nat) : Nat → Nat → Bytes → Reader Bytes
  | 0, _, v => pure v
  | fuel + 1, i, v =>
    if i < nSize then do
      let blk := min (nSize - i) 5000000
      let b ← readBytes endOfData blk
      readBlocks nSize fuel (i + blk) (v ++ b)
    else pure v

/-- Every round reads at least one byte, so `nSize` rounds are enough. -/
def readByteVector : Reader Bytes := do
  let nSize ← readCompactSize
  readBlocks nSize nSize 0 []

def readString : Reader Bytes := do
  let nSize ← readCompactSize
  if nSize ≠ 0 then readBytes endOfData nSize else pure []

/-- The loop that reads a vector of objects, `chunk` at a time. -/
def readChunks {α : Type} (unserialize : Reader α) (chunk nSize : Nat) :
    Nat → Nat → List α → Reader (List α)
  | 0, _, v => pure v
  | fuel + 1, nMid, v =>
    if nMid < nSize then do
      let nMid' := min (nMid + chunk) nSize
      let elems ← readMany unserialize (nMid' - nMid)
      readChunks unserialize chunk nSize fuel nMid' (v ++ elems)
    else pure v

/-- The elements come in chunks of five megabytes. -/
def readVector {α : Type} (sizeofT : Nat) (unserialize : Reader α) : Reader (List α) := do
  let nSize ← readCompactSize
  readChunks unserialize (5000000 / sizeofT) nSize nSize 0 []

/-- The sizes in memory of the types that are read in chunks, which the compiler chooses. A
chunk has at least one element. -/
structure Layout where
  sizeofCTxIn : Nat
  sizeofCTxOut : Nat
  sizeofCTransaction : Nat
  txIn_chunk : 0 < 5000000 / sizeofCTxIn
  txOut_chunk : 0 < 5000000 / sizeofCTxOut
  transaction_chunk : 0 < 5000000 / sizeofCTransaction

/-! ## Transactions -/

/-- `FLATDATA(*this)`: the 36 bytes of the object in one write. -/
def COutPoint.serialize (o : COutPoint) : Writes := [leBytes 32 o.hash.toNat ++ leBytes 4 o.n.toNat]

def readOutPoint : Reader COutPoint := do
  let b ← readBytes endOfData 36
  pure ⟨BitVec.ofNat 256 (leNat (b.take 32)), UInt32.ofNat (leNat (b.drop 32))⟩

def CTxIn.serialize (i : CTxIn) : Writes :=
  i.prevout.serialize ++ serializeBytes i.scriptSig ++ serializeUint32 i.nSequence

def readTxIn : Reader CTxIn := do
  let prevout ← readOutPoint
  let scriptSig ← readByteVector
  let nSequence ← readUint32
  pure ⟨prevout, scriptSig, nSequence⟩

def CTxOut.serialize (o : CTxOut) : Writes :=
  serializeInt64 o.nValue ++ serializeBytes o.scriptPubKey

def readTxOut : Reader CTxOut := do
  let nValue ← readInt64
  let scriptPubKey ← readByteVector
  pure ⟨nValue, scriptPubKey⟩

namespace CTransaction

/-- The comment is on the wire from version 2 on. -/
def serializeComment (nVersion : Int32) (strTxComment : Bytes) : Writes :=
  if 2 ≤ nVersion then serializeBytes strTxComment else []

def serialize (t : CTransaction) : Writes :=
  serializeInt32 t.nVersion ++ serializeVector CTxIn.serialize t.vin ++
    serializeVector CTxOut.serialize t.vout ++ serializeUint32 t.nLockTime ++
    serializeComment t.nVersion t.strTxComment

def bytes (t : CTransaction) : Bytes := t.serialize.bytes

def getSerializeSize (t : CTransaction) : Nat := t.serialize.computedSize

/-- The object `CTransaction()` constructs: its hash is zero, not the hash of its fields. -/
def default : CTransaction :=
  { hash := 0, nVersion := 1, vin := [], vout := [], nLockTime := 0, strTxComment := [] }

/-- `SerializeHash`: the double hash `hash256` of the bytes on the wire. -/
def serializeHash (hash256 : Bytes → Uint256) (t : CTransaction) : Uint256 := hash256 t.bytes

/-- `UpdateHash` caches the hash of the bytes. -/
def updateHash (hash256 : Bytes → Uint256) (t : CTransaction) : CTransaction :=
  { t with hash := t.serializeHash hash256 }

end CTransaction

/-- A transaction that can be changed: no comment, no cached hash. -/
structure CMutableTransaction where
  nVersion : Int32
  vin : List CTxIn
  vout : List CTxOut
  nLockTime : UInt32
deriving DecidableEq, Repr

namespace CMutableTransaction

/-- `CMutableTransaction(const CTransaction& tx)` -/
def ofTransaction (tx : CTransaction) : CMutableTransaction where
  nVersion := tx.nVersion
  vin := tx.vin
  vout := tx.vout
  nLockTime := tx.nLockTime

def serialize (m : CMutableTransaction) : Writes :=
  serializeInt32 m.nVersion ++ serializeVector CTxIn.serialize m.vin ++
    serializeVector CTxOut.serialize m.vout ++ serializeUint32 m.nLockTime

def bytes (m : CMutableTransaction) : Bytes := m.serialize.bytes

end CMutableTransaction

/-- The comment, or what the object held before when the version has none. -/
def readComment (nVersion : Int32) (old : Bytes) : Reader Bytes :=
  if 2 ≤ nVersion then readString else pure old

section Read

variable (hash256 : Bytes → Uint256) (L : Layout)

/-- Deserialization overwrites the object `t0`: every field but the comment, the comment from
version 2 on, and at the end the hash. -/
def readTransactionInto (t0 : CTransaction) : Reader CTransaction := do
  let nVersion ← readInt32
  let vin ← readVector L.sizeofCTxIn readTxIn
  let vout ← readVector L.sizeofCTxOut readTxOut
  let nLockTime ← readUint32
  let strTxComment ← readComment nVersion t0.strTxComment
  pure (CTransaction.updateHash hash256 { t0 with nVersion, vin, vout, nLockTime, strTxComment })

/-- Into a default-constructed object. -/
def readTransaction : Reader CTransaction := readTransactionInto hash256 L CTransaction.default

def readMutableTransaction : Reader CMutableTransaction := do
  let nVersion ← readInt32
  let vin ← readVector L.sizeofCTxIn readTxIn
  let vout ← readVector L.sizeofCTxOut readTxOut
  let nLockTime ← readUint32
  pure { nVersion, vin, vout, nLockTime }

/-! ## Blocks -/

def CBlockHeader.serialize (h : CBlockHeader) : Writes :=
  serializeInt32 h.nVersion ++ serializeUint256 h.hashPrevBlock ++
    serializeUint256 h.hashMerkleRoot ++ serializeUint32 h.nTime ++ serializeUint32 h.nBits ++
    serializeUint32 h.nNonce

def readBlockHeader : Reader CBlockHeader := do
  let nVersion ← readInt32
  let hashPrevBlock ← readUint256
  let hashMerkleRoot ← readUint256
  let nTime ← readUint32
  let nBits ← readUint32
  let nNonce ← readUint32
  pure { nVersion, hashPrevBlock, hashMerkleRoot, nTime, nBits, nNonce }

def CBlock.serialize (b : CBlock) : Writes :=
  b.toCBlockHeader.serialize ++ serializeVector CTransaction.serialize b.vtx

def CBlock.bytes (b : CBlock) : Bytes := b.serialize.bytes

def CBlock.getSerializeSize (b : CBlock) : Nat := b.serialize.computedSize

/-- The header, then the transactions. -/
def readBlock : Reader CBlock := do
  let header ← readBlockHeader
  let vtx ← readVector L.sizeofCTransaction (readTransaction hash256 L)
  pure { toCBlockHeader := header, vtx }

end Read

end MonetaryUnit
