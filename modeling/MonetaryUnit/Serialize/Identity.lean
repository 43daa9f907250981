/-
# MonetaryUnit.Serialize.Identity — the cached hash and the ways to copy a transaction

A `CTransaction` caches its hash. Constructors, `operator=` and deserialization all have to keep
`GetHash()` equal to `SerializeHash(*this)`.

`operator=` does not copy `strTxComment`, which is part of the serialization from version 2 on.
`assign_bytes_iff` says exactly when an assignment copies the bytes; `txIdentity_along_runs` gives
the invariant for all runs whose assignments do, and `assign_drops_comment` a run that loses a
comment.

Objects live in numbered slots. The object a default constructor leaves is null and has hash zero;
the program overwrites it at once. A deserialization that throws has overwritten some fields but not
the hash: the object is destroyed if the exception leaves its scope, and a caller that catches it,
such as `DecodeHexTx` or `ReadBlockFromDisk`, keeps it.
-/

import MonetaryUnit.Serialize.Canonical
import Mathlib.Data.List.AList

namespace MonetaryUnit

open Lib Function List CTransaction Reader Option

namespace CTransaction

/-- `CTransaction(const CMutableTransaction &tx)`: the comment starts out empty. -/
def ofMutable (hash256 : Bytes → Uint256) (tx : CMutableTransaction) : CTransaction :=
  updateHash hash256
    { hash := 0, nVersion := tx.nVersion, vin := tx.vin, vout := tx.vout,
      nLockTime := tx.nLockTime, strTxComment := [] }

/-- `operator=`: the object `a` after `a = tx`. Its comment stays what it was. -/
def assign (a tx : CTransaction) : CTransaction :=
  { a with nVersion := tx.nVersion, vin := tx.vin, vout := tx.vout, nLockTime := tx.nLockTime,
           hash := tx.hash }

/-- The comment of `tx`, if it is on the wire, is the one `a` already has. -/
def SameComment (a tx : CTransaction) : Prop := tx.nVersion < 2 ∨ a.strTxComment = tx.strTxComment

end CTransaction

/-! ## Exactly when an assignment copies the bytes -/

theorem getSizeOfCompactSize_mono {m n : Nat} (h : m ≤ n) :
    getSizeOfCompactSize m ≤ getSizeOfCompactSize n := by
  unfold getSizeOfCompactSize
  split_ifs <;> omega

/-- Longer strings have longer encodings, and strings of one length share the size prefix. -/
theorem serializeBytes_injective {v w : Bytes}
    (h : (serializeBytes v).bytes = (serializeBytes w).bytes) : v = w := by
  rw [serializeBytes_bytes, serializeBytes_bytes] at h
  have hlen := congrArg length h
  rw [length_append, length_append, ← getSizeOfCompactSize_eq, ← getSizeOfCompactSize_eq] at hlen
  have heq : v.length = w.length := by
    rcases Nat.lt_trichotomy v.length w.length with hlt | heq | hgt
    · have := getSizeOfCompactSize_mono hlt.le
      omega
    · exact heq
    · have := getSizeOfCompactSize_mono hgt.le
      omega
  rw [heq] at h
  exact append_cancel_left h

theorem CTransaction.assign_bytes_iff (a tx : CTransaction) :
    (a.assign tx).bytes = tx.bytes ↔ a.SameComment tx := by
  simp only [bytes, serialize, assign, Writes.bytes_append, append_cancel_left_eq, serializeComment,
    CTransaction.SameComment]
  by_cases hv : 2 ≤ tx.nVersion
  · have hnot : ¬ tx.nVersion < 2 := fun hlt => Int32.not_le.mpr hlt hv
    simp only [hv, if_true, hnot, false_or]
    constructor
    · intro h
      exact serializeBytes_injective h
    · intro h
      rw [h]
  · simp [hv, Int32.not_le.mp hv]

/-! ## Runs over the objects of a program -/

/-- The live objects, by slot. -/
abbrev TxHeap := Nat → Option CTransaction

inductive TxOp
  | constructDefault (dst : Nat)
  | constructFrom (dst : Nat) (tx : CMutableTransaction)
  | copyConstruct (dst src : Nat)
  | assign (dst src : Nat)
  /-- A default construction and an assignment, as `map[key] = value` does on a new key. -/
  | assignNew (dst src : Nat)
  /-- The object outlives an exception if there is a `torn` one, with what the field that could
  not be read was left with. -/
  | deserialize (dst : Nat) (s : Bytes) (torn : Option CTransaction)
  /-- A default construction and a deserialization into the new object. -/
  | deserializeNew (dst : Nat) (s : Bytes) (torn : Option CTransaction)

section Runs

variable (hash256 : Bytes → Uint256) (L : Layout)

/-- The object after a deserialization that throws: the fields before the one that could not be
read are those of `s`, the later ones and the hash are the old ones. An integer is read in one
piece, but a vector or a string may have been resized and filled in part. -/
def failedRead (t0 torn : CTransaction) (s : Bytes) : CTransaction :=
  match readInt32 s with
  | .error _ => t0
  | .ok (nVersion, s) =>
    match readVector L.sizeofCTxIn readTxIn s with
    | .error _ => { t0 with nVersion, vin := torn.vin }
    | .ok (vin, s) =>
      match readVector L.sizeofCTxOut readTxOut s with
      | .error _ => { t0 with nVersion, vin, vout := torn.vout }
      | .ok (vout, s) =>
        match readUint32 s with
        | .error _ => { t0 with nVersion, vin, vout }
        | .ok (nLockTime, _) =>
          { t0 with nVersion, vin, vout, nLockTime, strTxComment := torn.strTxComment }

/-- The object after a deserialization, if it is still there. -/
def readInto (t0 : CTransaction) (s : Bytes) (torn : Option CTransaction) : Option CTransaction :=
  match readTransactionInto hash256 L t0 s with
  | .ok (t, _) => some t
  | .error _ => torn.map fun torn => failedRead L t0 torn s

def TxHeap.step (h : TxHeap) : TxOp → TxHeap
  | .constructDefault dst => Function.update h dst (some CTransaction.default)
  | .constructFrom dst tx => Function.update h dst (some (CTransaction.ofMutable hash256 tx))
  | .copyConstruct dst src => Function.update h dst (h src)
  | .assign dst src =>
    match h dst, h src with
    | some a, some b => Function.update h dst (some (a.assign b))
    | _, _ => h
  | .assignNew dst src =>
    Function.update h dst ((h src).map CTransaction.default.assign)
  | .deserialize dst s torn =>
    Function.update h dst ((h dst).bind fun t0 => readInto hash256 L t0 s torn)
  | .deserializeNew dst s torn =>
    Function.update h dst (readInto hash256 L CTransaction.default s torn)

/-- The object is destroyed if the deserialization throws, or it does not throw. -/
def WholeOrGone (t0 : CTransaction) (s : Bytes) (torn : Option CTransaction) : Prop :=
  torn = none ∨ ∃ r, readTransactionInto hash256 L t0 s = .ok r

/-- The condition on a step: an assignment finds the comment it does not copy already in
place, no null object is left behind, and no object outlives a deserialization that throws. -/
def TxOp.Faithful (h : TxHeap) : TxOp → Prop
  | .constructDefault _ => False
  | .assign dst src => ∀ a b, h dst = some a → h src = some b → a.SameComment b
  | .assignNew _ src => ∀ b, h src = some b → CTransaction.default.SameComment b
  | .deserialize dst s torn => ∀ t0, h dst = some t0 → WholeOrGone hash256 L t0 s torn
  | .deserializeNew _ s torn => WholeOrGone hash256 L CTransaction.default s torn
  | _ => True

def TxHeap.FaithfulStep (h h' : TxHeap) : Prop :=
  ∃ op : TxOp, op.Faithful hash256 L h ∧ h' = h.step hash256 L op

/-- Every live object has the hash of its own serialization. -/
def TxHeap.Identified (h : TxHeap) : Prop :=
  ∀ i t, h i = some t → t.getHash = t.serializeHash hash256

theorem readTransactionInto_hash {t0 t : CTransaction} {s rest : Bytes}
    (h : readTransactionInto hash256 L t0 s = .ok (t, rest)) :
    t.getHash = t.serializeHash hash256 := by
  obtain ⟨_, _, -, h⟩ := bind_ok h
  obtain ⟨_, _, -, h⟩ := bind_ok h
  obtain ⟨_, _, -, h⟩ := bind_ok h
  obtain ⟨_, _, -, h⟩ := bind_ok h
  obtain ⟨_, _, -, h⟩ := bind_ok h
  cases h
  rfl

theorem readInto_hash {t0 t : CTransaction} {s : Bytes} {torn : Option CTransaction}
    (hwhole : WholeOrGone hash256 L t0 s torn)
    (h : readInto hash256 L t0 s torn = some t) : t.getHash = t.serializeHash hash256 := by
  unfold readInto at h
  cases hread : readTransactionInto hash256 L t0 s with
  | ok r =>
    rw [hread] at h
    cases h
    exact readTransactionInto_hash hash256 L hread
  | error e =>
    rcases hwhole with rfl | ⟨r, hr⟩
    · rw [hread] at h
      cases h
    · cases hread.symm.trans hr

theorem CTransaction.assign_hash {a b : CTransaction} (hsame : a.SameComment b)
    (hb : b.getHash = b.serializeHash hash256) :
    (a.assign b).getHash = (a.assign b).serializeHash hash256 := by
  rw [serializeHash, (assign_bytes_iff a b).mpr hsame]
  exact hb

/-- Writing one slot keeps the invariant if the object written has it. -/
theorem TxHeap.Identified.update {h : TxHeap} (hid : h.Identified hash256) {dst : Nat}
    {o : Option CTransaction} (ho : ∀ t, o = some t → t.getHash = t.serializeHash hash256) :
    TxHeap.Identified hash256 (update h dst o) := by
  intro i t hi
  by_cases hdst : i = dst
  · subst hdst
    rw [update_self] at hi
    exact ho t hi
  · rw [update_of_ne hdst] at hi
    exact hid i t hi

theorem TxHeap.step_identified {h : TxHeap} (hid : h.Identified hash256) {op : TxOp}
    (hop : op.Faithful hash256 L h) : TxHeap.Identified hash256 (h.step hash256 L op) := by
  cases op with
  | constructDefault dst => exact absurd hop not_false
  | constructFrom dst tx =>
    apply hid.update
    rintro t ⟨⟩
    rfl
  | copyConstruct dst src => exact hid.update hash256 (fun t ht => hid src t ht)
  | assign dst src =>
    simp only [TxHeap.step]
    split
    · rename_i a b ha hb
      apply hid.update
      rintro t ⟨⟩
      exact assign_hash hash256 (hop a b ha hb) (hid src b hb)
    · exact hid
  | assignNew dst src =>
    apply hid.update
    intro t ht
    obtain ⟨b, hb, rfl⟩ := map_eq_some_iff.mp ht
    exact assign_hash hash256 (hop b hb) (hid src b hb)
  | deserialize dst s torn =>
    apply hid.update
    intro t ht
    obtain ⟨t0, ht0, hread⟩ := bind_eq_some_iff.mp ht
    exact readInto_hash hash256 L (hop t0 ht0) hread
  | deserializeNew dst s torn =>
    exact hid.update hash256 (fun t ht => readInto_hash hash256 L hop ht)

end Runs

/-! ## Where the program keeps transactions -/

/-- The transactions of `mapTx`, or of `mapOrphanTransactions`; their other fields are left
out. -/
abbrev TxMap := AList (fun _ : Uint256 => CTransaction)

/-- `map[hash] = tx`: `operator[]` creates a null object on a new key, and the assignment
follows. -/
def TxMap.put (m : TxMap) (hash : Uint256) (tx : CTransaction) : TxMap :=
  m.insert hash (((m.lookup hash).getD CTransaction.default).assign tx)

/-- `CTxMemPool::addUnchecked` with the entry that `AcceptToMemoryPool` builds: the entry's
constructor copies the transaction, `mapTx[hash] = entry` assigns it. -/
def addUnchecked (mapTx : TxMap) (hash : Uint256) (tx : CTransaction) : TxMap := mapTx.put hash tx

/-- `CTxMemPool::lookup` assigns the stored transaction to the caller's object. -/
def lookup (mapTx : TxMap) (hash : Uint256) (result : CTransaction) : Option CTransaction :=
  (mapTx.lookup hash).map result.assign

/-- `AddOrphanTx`: nothing is stored twice, and nothing above 5000 bytes. -/
def addOrphanTx (mapOrphanTransactions : TxMap) (tx : CTransaction) : Bool × TxMap :=
  if (mapOrphanTransactions.lookup tx.getHash).isSome then (false, mapOrphanTransactions)
  else if tx.getSerializeSize > 5000 then (false, mapOrphanTransactions)
  else (true, mapOrphanTransactions.put tx.getHash tx)

/-- A transaction that is put under a new key and assigned to a null object comes back with
its bytes exactly when it has no comment on the wire. -/
theorem lookup_addUnchecked_bytes_iff {mapTx : TxMap} {hash : Uint256}
    (hnew : mapTx.lookup hash = none) (tx : CTransaction) :
    (∀ t, lookup (addUnchecked mapTx hash tx) hash default = some t →
      t.bytes = tx.bytes) ↔ default.SameComment tx := by
  have hcopy : lookup (addUnchecked mapTx hash tx) hash default = some (default.assign tx) := by
    simp [lookup, addUnchecked, TxMap.put, hnew]
    rfl
  rw [hcopy, ← assign_bytes_iff]
  simp

theorem addOrphanTx_bytes_iff {orphans orphans' : TxMap} {tx : CTransaction}
    (hadd : addOrphanTx orphans tx = (true, orphans')) :
    (∀ t, orphans'.lookup tx.getHash = some t → t.bytes = tx.bytes) ↔ default.SameComment tx := by
  unfold addOrphanTx at hadd
  split at hadd
  · cases hadd
  rename_i hnone
  split at hadd
  · cases hadd
  · cases hadd
    have hnew : orphans.lookup tx.getHash = none := by simpa using hnone
    have hstored : (orphans.put tx.getHash tx).lookup tx.getHash = some (default.assign tx) := by
      simp [TxMap.put, hnew]
    rw [hstored, ← assign_bytes_iff]
    simp

/-! ## The invariant along runs -/

section Main

variable (hash256 : Bytes → Uint256) (L : Layout)

/-- **`txIdentity_along_runs`** — in every run from no objects whose steps are faithful, every
live object has the hash of its own serialization, and every faithful assignment leaves the
bytes of its source. The mempool and the orphan pool give back the bytes that were put in
exactly for transactions without a comment on the wire. -/
theorem txIdentity_along_runs {h : TxHeap}
    (hrun : Relation.ReflTransGen (TxHeap.FaithfulStep hash256 L) (fun _ => none) h) :
    (∀ i t, h i = some t → t.getHash = t.serializeHash hash256) ∧
    (∀ dst src a b, (TxOp.assign dst src).Faithful hash256 L h → h dst = some a → h src = some b →
      ∀ a', h.step hash256 L (.assign dst src) dst = some a' → a'.bytes = b.bytes) ∧
    (∀ dst src b, (TxOp.assignNew dst src).Faithful hash256 L h → h src = some b →
      ∀ a', h.step hash256 L (.assignNew dst src) dst = some a' → a'.bytes = b.bytes) ∧
    (∀ (mapTx : TxMap) hash tx, mapTx.lookup hash = none →
      ((∀ t, lookup (addUnchecked mapTx hash tx) hash CTransaction.default = some t →
        t.bytes = tx.bytes) ↔ CTransaction.default.SameComment tx)) ∧
    (∀ (orphans orphans' : TxMap) tx, addOrphanTx orphans tx = (true, orphans') →
      ((∀ t, orphans'.lookup tx.getHash = some t → t.bytes = tx.bytes) ↔
        CTransaction.default.SameComment tx)) := by
  have hid : h.Identified hash256 := by
    induction hrun with
    | refl =>
      intro i t ht
      cases ht
    | tail _ hstep ih =>
      obtain ⟨op, hop, rfl⟩ := hstep
      exact TxHeap.step_identified hash256 L ih hop
  refine ⟨hid, ?_, ?_, ?_, ?_⟩
  · intro dst src a b hop ha hb a' ha'
    simp only [TxHeap.step, ha, hb, update_self, some.injEq] at ha'
    rw [← ha']
    exact (assign_bytes_iff a b).mpr (hop a b ha hb)
  · intro dst src b hop hb a' ha'
    simp only [TxHeap.step, hb, update_self, map_some, some.injEq] at ha'
    rw [← ha']
    exact (assign_bytes_iff _ b).mpr (hop b hb)
  · intro mapTx hash tx hnew
    exact lookup_addUnchecked_bytes_iff hnew tx
  · intro orphans orphans' tx hadd
    exact addOrphanTx_bytes_iff hadd

end Main

/-! ## A comment that is lost -/

/-- A stand-in for the double hash that tells short byte strings apart. -/
def numberHash (b : Bytes) : Uint256 := BitVec.ofNat 256 (leNat b + 256 ^ b.length)

def sampleLayout : Layout where
  sizeofCTxIn := 64
  sizeofCTxOut := 32
  sizeofCTransaction := 128
  txIn_chunk := by decide
  txOut_chunk := by decide
  transaction_chunk := by decide

/-- Version 2, no inputs, no outputs, lock time 0 and the comment "x", as bytes on the wire. -/
def commentedTxBytes : Bytes := [2, 0, 0, 0, 0, 0, 0, 0, 0, 0, 1, 0x78]

def heapAfter (ops : List TxOp) : TxHeap :=
  ops.foldl (fun h op => h.step numberHash sampleLayout op) (fun _ => none)

/-- A transaction is deserialized, and `map[key] = tx` stores it: the stored object has other
bytes, and a cached hash that is not its own. -/
theorem assign_drops_comment :
    ∃ tx stored, heapAfter [.deserializeNew 0 commentedTxBytes none, .assignNew 1 0] 0 = some tx ∧
      heapAfter [.deserializeNew 0 commentedTxBytes none, .assignNew 1 0] 1 = some stored ∧
      tx.bytes = commentedTxBytes ∧ stored.bytes ≠ tx.bytes ∧
      stored.getHash ≠ stored.serializeHash numberHash := by
  refine ⟨_, _, rfl, rfl, ?_, ?_, ?_⟩ <;> decide

/-- The same steps on a transaction of version 1 are faithful, also where the caller would keep
an object that could not be read. -/
theorem txIdentity_along_runs_version_one :
    let s : Bytes := [1, 0, 0, 0, 0, 0, 0, 0, 0, 0]
    let h := heapAfter [.deserializeNew 0 s (some CTransaction.default), .assignNew 1 0]
    (∃ t, h 1 = some t ∧ t.bytes = s) ∧
      ∀ i t, h i = some t → t.getHash = t.serializeHash numberHash := by
  intro s h
  refine ⟨⟨_, rfl, by decide⟩, ?_⟩
  refine (txIdentity_along_runs numberHash sampleLayout ?_).1
  refine Relation.ReflTransGen.tail (Relation.ReflTransGen.single
    ⟨.deserializeNew 0 s (some CTransaction.default), .inr ⟨_, rfl⟩, rfl⟩) ⟨.assignNew 1 0, ?_, rfl⟩
  intro b hb
  let h0 := heapAfter [.deserializeNew 0 s (some CTransaction.default)]
  have hversion : (h0 0).map nVersion = some 1 := by decide
  have hb' : h0 0 = some b := hb
  rw [hb', map_some, some.injEq] at hversion
  exact .inl (by rw [hversion]; decide)

end MonetaryUnit
