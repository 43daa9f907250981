/-
# MonetaryUnit.Serialize.Canonical — one byte string for one transaction

Every reader of the wire format is canonical for its writer, from the four forms of a compact
size up to whole blocks. The loops that read vectors in chunks are first shown to read the
same elements as one pass; the rest is composition.

`wireFormat_canonical` collects the consequences: what is read re-serializes to the bytes
consumed, what is written is read back, `GetSerializeSize` counts the bytes, and a
transaction id is the hash of one byte string.
-/

import MonetaryUnit.Serialize.Wire

namespace MonetaryUnit

open Lib List CTransaction Reader Nat

/-! ## Streams -/

@[simp]
theorem Writes.bytes_append (a b : Writes) :
    Writes.bytes (a ++ b) = Writes.bytes a ++ Writes.bytes b := flatten_append

@[simp]
theorem Writes.bytes_singleton (b : Bytes) : Writes.bytes [b] = b := by
  simp [Writes.bytes]

theorem Writes.bytes_flatMap {α : Type} (f : α → Writes) (l : List α) :
    Writes.bytes (l.flatMap f) = l.flatMap (fun a => Writes.bytes (f a)) := by
  simp [Writes.bytes, flatMap_def, flatten_flatten, Function.comp_def]

/-- The size pass counts the bytes of the write pass. -/
theorem Writes.computedSize_eq (w : Writes) : w.computedSize = w.bytes.length := by
  rw [Writes.computedSize, Writes.bytes, length_flatten, sum_eq_foldl, foldl_map]

/-! ## Integers -/

theorem canonical_readUint32 :
    Canonical readUint32 (fun x => (serializeUint32 x).bytes) (fun _ => True) := by
  have h := (canonical_readLE endOfData 4).map UInt32.ofNat UInt32.toNat (fun v hv => by
      rw [UInt32.toNat_ofNat']
      omega)
    (fun x => ⟨x.toNat_lt, UInt32.ofNat_toNat⟩)
  simpa [serializeUint32, readUint32] using h

theorem canonical_readInt32 :
    Canonical readInt32 (fun x => (serializeInt32 x).bytes) (fun _ => True) := by
  have h := (canonical_readLE endOfData 4).map (fun v => (UInt32.ofNat v).toInt32)
    (fun x => x.toUInt32.toNat)
    (fun v hv => by
      simp only [UInt32.toUInt32_toInt32, UInt32.toNat_ofNat']
      omega)
    (fun x => ⟨x.toUInt32.toNat_lt, by simp⟩)
  simpa [serializeInt32, readInt32] using h

theorem canonical_readInt64 :
    Canonical readInt64 (fun x => (serializeInt64 x).bytes) (fun _ => True) := by
  have h := (canonical_readLE endOfData 8).map (fun v => (UInt64.ofNat v).toInt64)
    (fun x => x.toUInt64.toNat)
    (fun v hv => by
      simp only [UInt64.toUInt64_toInt64, UInt64.toNat_ofNat']
      omega)
    (fun x => ⟨x.toUInt64.toNat_lt, by simp⟩)
  simpa [serializeInt64, readInt64] using h

theorem canonical_readUint256 :
    Canonical readUint256 (fun x => (serializeUint256 x).bytes) (fun _ => True) := by
  have h := (canonical_readLE endOfData 32).map (BitVec.ofNat 256) BitVec.toNat (fun v hv => by
      exact mod_eq_of_lt (by simpa using hv))
    (fun x => ⟨by simpa using x.isLt, by simp⟩)
  simpa [serializeUint256, readUint256] using h

/-! ## Compact sizes -/

theorem getSizeOfCompactSize_eq (n : Nat) :
    getSizeOfCompactSize n = (writeCompactSize n).bytes.length := by
  unfold getSizeOfCompactSize writeCompactSize
  split
  · simp
  · split
    · simp [Writes.bytes]
    · split <;> simp [Writes.bytes]

theorem canonical_readLongSize (width least : Nat) :
    Canonical (readLongSize width least) (leBytes width)
      (fun v => v < 256 ^ width ∧ least ≤ v) where
  write_read := by
    intro s v rest h
    obtain ⟨x, s', hlt, rfl, h1⟩ := (canonical_readLE endOfData width).bind_ok h
    split at h1
    · cases h1
    · cases h1
      exact ⟨⟨hlt, by omega⟩, rfl⟩
  read_write := by
    rintro v rest ⟨hlt, hle⟩
    rw [readLongSize, bind_of_ok ((canonical_readLE endOfData width).read_write rest hlt),
      if_neg (by omega)]
    rfl

/-- Each first byte admits the sizes of its own form only. -/
theorem readSizeAfter_sound {ch n : Nat} {s rest : Bytes} (hch : ch < 256)
    (h : readSizeAfter ch s = .ok (n, rest)) :
    leBytes 1 ch ++ s = (writeCompactSize n).bytes ++ rest := by
  unfold readSizeAfter at h
  unfold writeCompactSize
  split at h
  · cases h
    rw [if_pos ‹_›]
    simp
  split at h
  · rename_i _ heq
    obtain ⟨⟨hlt, hle⟩, rfl⟩ := (canonical_readLongSize 2 253).write_read h
    rw [if_neg (by omega), if_pos (by omega), heq]
    simp [Writes.bytes]
  split at h
  · rename_i _ _ heq
    obtain ⟨⟨hlt, hle⟩, rfl⟩ := (canonical_readLongSize 4 0x10000).write_read h
    rw [if_neg (by omega), if_neg (by omega), if_pos (by omega), heq]
    simp [Writes.bytes]
  · obtain ⟨⟨hlt, hle⟩, rfl⟩ := (canonical_readLongSize 8 0x100000000).write_read h
    have heq : ch = 255 := by omega
    rw [if_neg (by omega), if_neg (by omega), if_neg (by omega), heq]
    simp [Writes.bytes]

theorem canonical_readCompactSize :
    Canonical readCompactSize (fun n => (writeCompactSize n).bytes) (fun n => n ≤ maxSize) where
  write_read := by
    intro s n rest h
    obtain ⟨ch, s1, hlt, rfl, h1⟩ := (canonical_readLE endOfData 1).bind_ok h
    obtain ⟨n', s2, hn, h2⟩ := bind_ok h1
    split at h2
    · cases h2
    · cases h2
      exact ⟨by omega, readSizeAfter_sound (by simpa using hlt) hn⟩
  read_write := by
    intro n rest hn
    have hbig : n < 256 ^ 4 := by
      unfold maxSize at hn
      omega
    -- the first byte, and the reader it selects, for each form the writer uses
    have hform : ∃ ch w, (writeCompactSize n).bytes = leBytes 1 ch ++ w ∧ ch < 256 ^ 1 ∧
        readSizeAfter ch (w ++ rest) = .ok (n, rest) := by
      unfold writeCompactSize
      split
      · rename_i hsmall
        refine ⟨n, [], by simp, by omega, ?_⟩
        simp only [readSizeAfter, if_pos hsmall]
        rfl
      · split
        · exact ⟨253, leBytes 2 n, by simp [Writes.bytes], by decide,
            (canonical_readLongSize 2 253).read_write rest ⟨by omega, by omega⟩⟩
        · rw [if_pos (by omega)]
          exact ⟨254, leBytes 4 n, by simp [Writes.bytes], by decide,
            (canonical_readLongSize 4 0x10000).read_write rest ⟨by omega, by omega⟩⟩
    obtain ⟨ch, w, hw, hch, hafter⟩ := hform
    rw [hw, append_assoc, readCompactSize, (canonical_readLE endOfData 1).bind_eq hch,
      bind_of_ok hafter, if_neg (by omega)]
    rfl

/-! ## Vectors, read in chunks -/

theorem readBytes_zero (msg : String) : readBytes msg 0 = pure [] := by
  funext s
  simp [readBytes, pure_apply]

/-- The block loop reads what one call would read. -/
theorem readBlocks_eq {nSize fuel i : Nat} (hfuel : nSize - i ≤ fuel) (v : Bytes) :
    readBlocks nSize fuel i v = (do
      let b ← readBytes endOfData (nSize - i)
      pure (v ++ b)) := by
  induction fuel generalizing i v with
  | zero =>
    have hzero : nSize - i = 0 := by omega
    simp [readBlocks, hzero, readBytes_zero]
  | succ fuel ih =>
    by_cases hi : i < nSize
    · set blk := min (nSize - i) 5000000 with hblk
      have hsplit : nSize - i = blk + (nSize - (i + blk)) := by omega
      have hrest : nSize - (i + blk) ≤ fuel := by omega
      rw [readBlocks, if_pos hi, ← hblk, hsplit, readBytes_add]
      simp [ih hrest]
    · have hzero : nSize - i = 0 := by omega
      simp [readBlocks, hi, hzero, readBytes_zero]

/-- The chunk loop reads what one pass over the elements would read. -/
theorem readChunks_eq {α : Type} (r : Reader α) {chunk nSize fuel i : Nat} (hchunk : 0 < chunk)
    (hfuel : nSize - i ≤ fuel) (v : List α) : readChunks r chunk nSize fuel i v = (do
      let elems ← readMany r (nSize - i)
      pure (v ++ elems)) := by
  induction fuel generalizing i v with
  | zero =>
    have hzero : nSize - i = 0 := by omega
    simp [readChunks, hzero, readMany]
  | succ fuel ih =>
    by_cases hi : i < nSize
    · set mid := min (i + chunk) nSize with hmid
      have hsplit : nSize - i = (mid - i) + (nSize - mid) := by omega
      have hrest : nSize - mid ≤ fuel := by omega
      rw [readChunks, if_pos hi, ← hmid, hsplit, readMany_add]
      simp [ih hrest]
    · have hzero : nSize - i = 0 := by omega
      simp [readChunks, hi, hzero, readMany]

theorem serializeBytes_bytes (v : Bytes) :
    (serializeBytes v).bytes = (writeCompactSize v.length).bytes ++ v := by
  cases v <;> simp [serializeBytes]

theorem readByteVector_eq : readByteVector = (do
      let nSize ← readCompactSize
      readBytes endOfData nSize) := by
  simp [readByteVector, readBlocks_eq]

theorem readString_eq : readString = (do
      let nSize ← readCompactSize
      readBytes endOfData nSize) := by
  unfold readString
  congr 1
  funext nSize
  split_ifs with hzero
  · rfl
  · rw [not_not.mp hzero, readBytes_zero]

/-- A compact size, then that many bytes: the format of scripts and of strings. -/
theorem canonical_sizedBytes : Canonical (do
      let nSize ← readCompactSize
      readBytes endOfData nSize)
    (fun v => (serializeBytes v).bytes) (fun v => v.length ≤ maxSize) where
  write_read := by
    intro s v rest h
    obtain ⟨n, s', hn, hv⟩ := bind_ok h
    obtain ⟨hle, rfl⟩ := canonical_readCompactSize.write_read hn
    obtain ⟨rfl, rfl⟩ := (canonical_readBytes endOfData n).write_read hv
    refine ⟨hle, ?_⟩
    rw [serializeBytes_bytes, append_assoc]
  read_write := by
    intro v rest hv
    rw [serializeBytes_bytes, append_assoc, canonical_readCompactSize.bind_eq hv]
    exact (canonical_readBytes endOfData v.length).read_write rest rfl

theorem canonical_readByteVector :
    Canonical readByteVector (fun v => (serializeBytes v).bytes) (fun v => v.length ≤ maxSize) :=
  readByteVector_eq ▸ canonical_sizedBytes

theorem canonical_readString :
    Canonical readString (fun v => (serializeBytes v).bytes) (fun v => v.length ≤ maxSize) :=
  readString_eq ▸ canonical_sizedBytes

theorem canonical_readVector {α : Type} {r : Reader α} {serialize : α → Writes}
    {F : α → Prop} (hr : Canonical r (fun a => (serialize a).bytes) F) {sizeofT : Nat}
    (hchunk : 0 < 5000000 / sizeofT) :
    Canonical (readVector sizeofT r) (fun v => (serializeVector serialize v).bytes)
      (fun v => v.length ≤ maxSize ∧ ∀ a ∈ v, F a) where
  write_read := by
    intro s v rest h
    obtain ⟨n, s', hn, hv⟩ := bind_ok h
    obtain ⟨hle, rfl⟩ := canonical_readCompactSize.write_read hn
    rw [readChunks_eq r hchunk (sub_le n 0)] at hv
    obtain ⟨elems, s2, helems, hv⟩ := bind_ok hv
    cases hv
    obtain ⟨⟨rfl, hall⟩, rfl⟩ := (hr.readMany n).write_read helems
    refine ⟨⟨hle, hall⟩, ?_⟩
    simp only [nil_append, serializeVector, Writes.bytes_append, Writes.bytes_flatMap, append_assoc]
  read_write := by
    rintro v rest ⟨hle, hall⟩
    have hmany := (hr.readMany v.length).read_write rest ⟨rfl, hall⟩
    simp only [serializeVector, Writes.bytes_append, Writes.bytes_flatMap, append_assoc]
    rw [readVector, canonical_readCompactSize.bind_eq hle,
      readChunks_eq r hchunk (Nat.sub_le v.length 0), Nat.sub_zero, bind_of_ok hmany]
    rfl

/-! ## Transactions -/

theorem canonical_readOutPoint :
    Canonical readOutPoint (fun o => o.serialize.bytes) (fun _ => True) where
  write_read := by
    intro s o rest h
    obtain ⟨b, s', hlen, rfl, h1⟩ := (canonical_readBytes endOfData 36).bind_ok h
    cases h1
    have htake : (b.take 32).length = 32 := by simp [hlen]
    have hdrop : (b.drop 32).length = 4 := by simp [hlen]
    have hlt1 : leNat (b.take 32) < 2 ^ 256 := by
      have := leNat_lt (b.take 32)
      rw [htake] at this
      simpa using this
    have hlt2 : leNat (b.drop 32) < 2 ^ 32 := by
      have := leNat_lt (b.drop 32)
      rw [hdrop] at this
      simpa using this
    refine ⟨trivial, ?_⟩
    simp only [COutPoint.serialize, Writes.bytes_singleton, BitVec.toNat_ofNat,
      mod_eq_of_lt hlt1, UInt32.toNat_ofNat', mod_eq_of_lt hlt2]
    have h1 := leBytes_leNat (b.take 32)
    have h2 := leBytes_leNat (b.drop 32)
    rw [htake] at h1
    rw [hdrop] at h2
    rw [h1, h2, take_append_drop]
  read_write := by
    intro o rest _
    have hlen : o.serialize.bytes.length = 36 := by simp [COutPoint.serialize]
    rw [readOutPoint, (canonical_readBytes endOfData 36).bind_eq hlen, pure_apply]
    have htake : o.serialize.bytes.take 32 = leBytes 32 o.hash.toNat := by
      exact take_left' (leBytes_length 32 _)
    have hdrop : o.serialize.bytes.drop 32 = leBytes 4 o.n.toNat := by
      exact drop_left' (leBytes_length 32 _)
    have hhash : o.hash.toNat < 256 ^ 32 := by simpa using o.hash.isLt
    rw [htake, hdrop, leNat_leBytes hhash, leNat_leBytes o.n.toNat_lt]
    simp

theorem canonical_readTxIn :
    Canonical readTxIn (fun i => i.serialize.bytes) (fun i => i.scriptSig.length ≤ maxSize) where
  write_read := by
    intro s i rest h
    obtain ⟨prevout, s1, -, rfl, h1⟩ := canonical_readOutPoint.bind_ok h
    obtain ⟨scriptSig, s2, hsig, rfl, h2⟩ := canonical_readByteVector.bind_ok h1
    obtain ⟨nSequence, s3, -, rfl, h3⟩ := canonical_readUint32.bind_ok h2
    cases h3
    exact ⟨hsig, by simp [CTxIn.serialize]⟩
  read_write := by
    intro i rest hsig
    simp only [CTxIn.serialize, Writes.bytes_append, append_assoc]
    rw [readTxIn, canonical_readOutPoint.bind_eq trivial, canonical_readByteVector.bind_eq hsig,
      canonical_readUint32.bind_eq trivial]
    rfl

theorem canonical_readTxOut : Canonical readTxOut (fun o => o.serialize.bytes)
      (fun o => o.scriptPubKey.length ≤ maxSize) where
  write_read := by
    intro s o rest h
    obtain ⟨nValue, s1, -, rfl, h1⟩ := canonical_readInt64.bind_ok h
    obtain ⟨scriptPubKey, s2, hkey, rfl, h2⟩ := canonical_readByteVector.bind_ok h1
    cases h2
    exact ⟨hkey, by simp [CTxOut.serialize]⟩
  read_write := by
    intro o rest hkey
    simp only [CTxOut.serialize, Writes.bytes_append, append_assoc]
    rw [readTxOut, canonical_readInt64.bind_eq trivial, canonical_readByteVector.bind_eq hkey]
    rfl

/-- Vectors, scripts and the comment have at most `MAX_SIZE` elements, and a transaction that
does not serialize its comment has none. -/
structure CTransaction.Fits (t : CTransaction) : Prop where
  vin : t.vin.length ≤ maxSize ∧ ∀ i ∈ t.vin, i.scriptSig.length ≤ maxSize
  vout : t.vout.length ≤ maxSize ∧ ∀ o ∈ t.vout, o.scriptPubKey.length ≤ maxSize
  comment : t.strTxComment.length ≤ maxSize
  noComment : t.nVersion < 2 → t.strTxComment = []

theorem canonical_readComment (nVersion : Int32) :
    Canonical (readComment nVersion default.strTxComment)
      (fun c => (serializeComment nVersion c).bytes)
      (fun c => c.length ≤ maxSize ∧ (nVersion < 2 → c = [])) := by
  unfold readComment serializeComment
  by_cases hv : 2 ≤ nVersion
  · simpa [hv] using canonical_readString
  have hlt : nVersion < 2 := Int32.not_le.mp hv
  simp only [hv, if_false, hlt, true_implies]
  refine ⟨?_, ?_⟩
  · intro s c rest h
    cases h
    exact ⟨⟨zero_le _, rfl⟩, rfl⟩
  · rintro c rest ⟨-, rfl⟩
    rfl

section Transactions

variable (hash256 : Bytes → Uint256) (L : Layout)

variable {t : CTransaction}

theorem CTransaction.updateHash_eq_self
    (h : t.hash = t.serializeHash hash256) : t.updateHash hash256 = t := by
  rw [updateHash, ← h]

/-- A transaction is its mutable view, with the comment behind it. -/
theorem CTransaction.bytes_eq_mutable (t : CTransaction) :
    t.bytes = (CMutableTransaction.ofTransaction t).bytes ++
      (serializeComment t.nVersion t.strTxComment).bytes := by
  simp only [bytes, serialize, CMutableTransaction.bytes,
    CMutableTransaction.serialize, CMutableTransaction.ofTransaction, Writes.bytes_append]

structure CMutableTransaction.Fits (m : CMutableTransaction) : Prop where
  vin : m.vin.length ≤ maxSize ∧ ∀ i ∈ m.vin, i.scriptSig.length ≤ maxSize
  vout : m.vout.length ≤ maxSize ∧ ∀ o ∈ m.vout, o.scriptPubKey.length ≤ maxSize

theorem canonical_readMutableTransaction :
    Canonical (readMutableTransaction L) CMutableTransaction.bytes CMutableTransaction.Fits where
  write_read := by
    intro s m rest h
    obtain ⟨nVersion, s1, -, rfl, h1⟩ := canonical_readInt32.bind_ok h
    obtain ⟨vin, s2, hvin, rfl, h2⟩ :=
      (canonical_readVector canonical_readTxIn L.txIn_chunk).bind_ok h1
    obtain ⟨vout, s3, hvout, rfl, h3⟩ :=
      (canonical_readVector canonical_readTxOut L.txOut_chunk).bind_ok h2
    obtain ⟨nLockTime, s4, -, rfl, h4⟩ := canonical_readUint32.bind_ok h3
    cases h4
    exact ⟨⟨hvin, hvout⟩, by simp [CMutableTransaction.bytes, CMutableTransaction.serialize]⟩
  read_write := by
    intro m rest hfit
    simp only [CMutableTransaction.bytes, CMutableTransaction.serialize, Writes.bytes_append,
      append_assoc]
    rw [readMutableTransaction, canonical_readInt32.bind_eq trivial,
      (canonical_readVector canonical_readTxIn L.txIn_chunk).bind_eq hfit.vin,
      (canonical_readVector canonical_readTxOut L.txOut_chunk).bind_eq hfit.vout,
      canonical_readUint32.bind_eq trivial]
    rfl

/-- A transaction is read as its mutable view, and then its comment. -/
theorem readTransaction_eq : readTransaction hash256 L = (do
      let m ← readMutableTransaction L
      let strTxComment ← readComment m.nVersion []
      pure (updateHash hash256
        { hash := 0, nVersion := m.nVersion, vin := m.vin, vout := m.vout, nLockTime := m.nLockTime,
          strTxComment })) := by
  simp only [readTransaction, readTransactionInto, readMutableTransaction, bind_assoc, pure_bind]
  rfl

/-- What is written for a transaction is read back as that transaction, with its hash
computed anew. -/
theorem readTransaction_bytes (hfit : t.Fits) (rest : Bytes) :
    readTransaction hash256 L (t.bytes ++ rest) = .ok (t.updateHash hash256, rest) := by
  rw [bytes_eq_mutable, append_assoc, readTransaction_eq,
    (canonical_readMutableTransaction L).bind_eq ⟨hfit.vin, hfit.vout⟩]
  exact (canonical_readComment t.nVersion).bind_eq ⟨hfit.comment, hfit.noComment⟩

theorem canonical_readTransaction : Canonical (readTransaction hash256 L) bytes
      (fun t => t.Fits ∧ t.hash = t.serializeHash hash256) where
  write_read := by
    intro s t rest h
    rw [readTransaction_eq] at h
    obtain ⟨m, s1, hm, rfl, h1⟩ := (canonical_readMutableTransaction L).bind_ok h
    obtain ⟨comment, s2, ⟨hcomment, hnone⟩, rfl, h2⟩ :=
      (canonical_readComment m.nVersion).bind_ok h1
    cases h2
    refine ⟨⟨⟨hm.vin, hm.vout, hcomment, hnone⟩, rfl⟩, ?_⟩
    rw [bytes_eq_mutable, append_assoc]
    rfl
  read_write := by
    rintro t rest ⟨hfit, hhash⟩
    rw [readTransaction_bytes hash256 L hfit, updateHash_eq_self hash256 hhash]

/-! ## Blocks -/

theorem canonical_readBlockHeader :
    Canonical readBlockHeader (fun h => h.serialize.bytes) (fun _ => True) where
  write_read := by
    intro s b rest h
    obtain ⟨nVersion, s1, -, rfl, h1⟩ := canonical_readInt32.bind_ok h
    obtain ⟨hashPrevBlock, s2, -, rfl, h2⟩ := canonical_readUint256.bind_ok h1
    obtain ⟨hashMerkleRoot, s3, -, rfl, h3⟩ := canonical_readUint256.bind_ok h2
    obtain ⟨nTime, s4, -, rfl, h4⟩ := canonical_readUint32.bind_ok h3
    obtain ⟨nBits, s5, -, rfl, h5⟩ := canonical_readUint32.bind_ok h4
    obtain ⟨nNonce, s6, -, rfl, h6⟩ := canonical_readUint32.bind_ok h5
    cases h6
    exact ⟨trivial, by simp [CBlockHeader.serialize]⟩
  read_write := by
    intro b rest _
    simp only [CBlockHeader.serialize, Writes.bytes_append, append_assoc]
    rw [readBlockHeader, canonical_readInt32.bind_eq trivial, canonical_readUint256.bind_eq trivial,
      canonical_readUint256.bind_eq trivial, canonical_readUint32.bind_eq trivial,
      canonical_readUint32.bind_eq trivial, canonical_readUint32.bind_eq trivial]
    rfl

structure CBlock.Fits (b : CBlock) : Prop where
  vtx : b.vtx.length ≤ maxSize
  each : ∀ t ∈ b.vtx, t.Fits

theorem canonical_readBlock : Canonical (readBlock hash256 L) CBlock.bytes
      (fun b => b.Fits ∧ ∀ t ∈ b.vtx, t.hash = t.serializeHash hash256) where
  write_read := by
    intro s b rest h
    obtain ⟨header, s1, -, rfl, h1⟩ := canonical_readBlockHeader.bind_ok h
    obtain ⟨vtx, s2, ⟨hlen, hall⟩, rfl, h2⟩ :=
      (canonical_readVector (canonical_readTransaction hash256 L) L.transaction_chunk).bind_ok h1
    cases h2
    refine ⟨⟨⟨hlen, fun t ht => (hall t ht).1⟩, fun t ht => (hall t ht).2⟩, ?_⟩
    simp [CBlock.bytes, CBlock.serialize]
  read_write := by
    rintro b rest ⟨hfit, hhash⟩
    have hvtx := (canonical_readVector (canonical_readTransaction hash256 L)
      L.transaction_chunk).read_write rest ⟨hfit.vtx, fun t ht => ⟨hfit.each t ht, hhash t ht⟩⟩
    simp only [CBlock.bytes, CBlock.serialize, Writes.bytes_append, append_assoc]
    rw [readBlock, canonical_readBlockHeader.bind_eq trivial, bind_of_ok hvtx]
    rfl

/-- The block with every cached transaction hash computed anew. -/
def CBlock.updateHashes (b : CBlock) : CBlock :=
  { b with vtx := b.vtx.map (CTransaction.updateHash hash256) }

theorem CTransaction.Fits.updateHash (h : t.Fits) :
    (t.updateHash hash256).Fits := { h with }

theorem CBlock.bytes_updateHashes (b : CBlock) : (b.updateHashes hash256).bytes = b.bytes := by
  simp only [CBlock.bytes, CBlock.serialize, CBlock.updateHashes, serializeVector,
    Writes.bytes_append, Writes.bytes_flatMap, length_map, flatMap_map]
  rfl

theorem readBlock_bytes {b : CBlock} (hfit : b.Fits) (rest : Bytes) :
    readBlock hash256 L (b.bytes ++ rest) = .ok (b.updateHashes hash256, rest) := by
  rw [← CBlock.bytes_updateHashes hash256 b]
  apply (canonical_readBlock hash256 L).read_write
  refine ⟨⟨by simpa [CBlock.updateHashes] using hfit.vtx, ?_⟩, ?_⟩
  · intro t ht
    obtain ⟨t', ht', rfl⟩ := mem_map.mp ht
    exact (hfit.each t' ht').updateHash hash256
  · intro t ht
    obtain ⟨t', -, rfl⟩ := mem_map.mp ht
    rfl

/-! ## The format as a whole -/

theorem freeGetSerializeSize_toNat {size : Nat} (h : size < 2 ^ 32) :
    (freeGetSerializeSize size).toNat = size := by
  rw [freeGetSerializeSize, UInt32.toNat_ofNat', mod_eq_of_lt h]

/-- **`wireFormat_canonical`** — the wire format of transactions and blocks, for every layout
of the chunked reads and every hash function:
* a transaction or block that is read re-serializes to exactly the bytes consumed;
* one that fits is read back from its serialization, all of it and nothing more, with the
  cached hashes computed anew;
* `GetSerializeSize` is the number of bytes, also through the 32-bit free function as long
  as there are fewer than `2 ^ 32`;
* two byte strings read as one transaction are equal, and the id of a transaction that is
  read is the hash of the bytes it was read from. -/
theorem wireFormat_canonical :
    (∀ s t rest, readTransaction hash256 L s = .ok (t, rest) → s = t.bytes ++ rest) ∧
    (∀ s b rest, readBlock hash256 L s = .ok (b, rest) → s = b.bytes ++ rest) ∧
    (∀ t : CTransaction, t.Fits → ∀ rest,
      readTransaction hash256 L (t.bytes ++ rest) = .ok (t.updateHash hash256, rest)) ∧
    (∀ b : CBlock, b.Fits → ∀ rest,
      readBlock hash256 L (b.bytes ++ rest) = .ok (b.updateHashes hash256, rest)) ∧
    (∀ t : CTransaction, t.getSerializeSize = t.bytes.length) ∧
    (∀ b : CBlock, b.getSerializeSize = b.bytes.length) ∧
    (∀ t : CTransaction, t.bytes.length < 2 ^ 32 →
      (freeGetSerializeSize t.getSerializeSize).toNat = t.bytes.length) ∧
    (∀ b : CBlock, b.bytes.length < 2 ^ 32 →
      (freeGetSerializeSize b.getSerializeSize).toNat = b.bytes.length) ∧
    (∀ s1 s2 t, readTransaction hash256 L s1 = .ok (t, []) →
      readTransaction hash256 L s2 = .ok (t, []) → s1 = s2) ∧
    (∀ s t, readTransaction hash256 L s = .ok (t, []) → t.getHash = hash256 s) := by
  have htx := canonical_readTransaction hash256 L
  have hblock := canonical_readBlock hash256 L
  have htxSize : ∀ t : CTransaction, t.getSerializeSize = t.bytes.length :=
    fun t => Writes.computedSize_eq t.serialize
  have hblockSize : ∀ b : CBlock, b.getSerializeSize = b.bytes.length :=
    fun b => Writes.computedSize_eq b.serialize
  refine ⟨?_, ?_, ?_, ?_, htxSize, hblockSize, ?_, ?_, ?_, ?_⟩
  · intro s t rest h
    exact (htx.write_read h).2
  · intro s b rest h
    exact (hblock.write_read h).2
  · intro t hfit rest
    exact readTransaction_bytes hash256 L hfit rest
  · intro b hfit rest
    exact readBlock_bytes hash256 L hfit rest
  · intro t ht
    rw [htxSize, freeGetSerializeSize_toNat ht]
  · intro b hb
    rw [hblockSize, freeGetSerializeSize_toNat hb]
  · intro s1 s2 t h1 h2
    exact htx.injective h1 h2
  · intro s t h
    obtain ⟨⟨-, hhash⟩, hs⟩ := htx.write_read h
    rw [append_nil] at hs
    rw [getHash, hhash, serializeHash, hs]

end Transactions

end MonetaryUnit
