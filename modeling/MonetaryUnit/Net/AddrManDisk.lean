/-
# MonetaryUnit.Net.AddrManDisk — the address manager on disk

`Serialize` and `Unserialize` of `CAddrMan`, and the readers and writers of its entries as they
are on disk (`SER_DISK`). The two share little. Writing numbers the new entries in the order of
their ids, and writes for each bucket the numbers of the entries in it. Reading makes the entries
again under those numbers, the tried ones after them, and works out every place anew: where a
tried entry goes, and where in its bucket a new one does.

`nLastTry`, `nRefCount`, `fInTried` and `nRandomPos` are not stored. `Clear`, with which reading
starts, leaves `mapInfo` and `mapAddr` as they are.
-/

import MonetaryUnit.Serialize.Wire
import MonetaryUnit.Net.AddrMan

namespace MonetaryUnit

open Lib

/-! ## Entries -/

/-- A number in network byte order. -/
def beBytes (n v : Nat) : Bytes := (leBytes n v).reverse

def readBE (n : Nat) : Reader Nat := do
  let bs ← readBytes endOfData n
  pure (leNat bs.reverse)

def CNetAddr.serialize (a : CNetAddr) : Writes := [beBytes 16 a.ip.toNat]

def readNetAddr : Reader CNetAddr := do
  let ip ← readBE 16
  pure ⟨BitVec.ofNat 128 ip⟩

/-- The port goes through `htons`. -/
def CService.serialize (s : CService) : Writes := s.toCNetAddr.serialize ++ [beBytes 2 s.port.toNat]

def readService : Reader CService := do
  let a ← readNetAddr
  let port ← readBE 2
  pure ⟨a, UInt16.ofNat port⟩

def CAddress.serialize (nVersion : Int32) (a : CAddress) : Writes :=
  serializeInt32 nVersion ++ (serializeUint32 a.nTime ++ ([leBytes 8 a.nServices.toNat] ++
    a.toCService.serialize))

/-- Reading starts with `Init`, which forgets the last try. The version is read and not used. -/
def readAddress : Reader CAddress := do
  let _ ← readInt32
  let nTime ← readUint32
  let nServices ← readLE endOfData 8
  let s ← readService
  pure { s with nServices := UInt64.ofNat nServices, nTime }

def CAddrInfo.serialize (nVersion : Int32) (info : CAddrInfo) : Writes :=
  info.toCAddress.serialize nVersion ++ (info.source.serialize ++
    (serializeInt64 info.nLastSuccess ++ serializeInt32 info.nAttempts))

/-- An entry as read into one just made. -/
def readAddrInfo : Reader CAddrInfo := do
  let a ← readAddress
  let source ← readNetAddr
  let nLastSuccess ← readInt64
  let nAttempts ← readInt32
  pure { a with source, nLastSuccess, nAttempts }

/-- An entry read into one that is there keeps what is in memory only. -/
def CAddrInfo.readInto (old : Option CAddrInfo) (info : CAddrInfo) : CAddrInfo :=
  match old with
  | none => info
  | some old => { info with
      nRefCount := old.nRefCount, fInTried := old.fInTried, nRandomPos := old.nRandomPos }

namespace CAddrMan

/-! ## Writing -/

/-- The variables of the loop that writes the new entries. `mapUnkIds` is `0` for other ids. -/
structure NewPass where
  mapUnkIds : Nat → Nat
  nIds : Nat
  written : Writes

/-- A new entry is numbered as it is written. -/
def writeNew (m : CAddrMan) (nVersion : Int32) (pass : NewPass) (n : Nat) : Option NewPass :=
  (m.mapInfo n).elim (some pass) fun info =>
    let mapUnkIds := Function.update pass.mapUnkIds n pass.nIds
    if info.nRefCount ≠ 0 then
      -- "this means nNew was wrong, oh ow"
      if (pass.nIds : Int) = m.nNew then none
      else some ⟨mapUnkIds, pass.nIds + 1, pass.written ++ info.serialize nVersion⟩
    else some { pass with mapUnkIds }

/-- A tried entry is written without a number. -/
def writeTried (m : CAddrMan) (nVersion : Int32) (pass : Nat × Writes) (n : Nat) :
    Option (Nat × Writes) :=
  (m.mapInfo n).elim (some pass) fun info =>
    if info.fInTried then
      if (pass.1 : Int) = m.nTried then none
      else some (pass.1 + 1, pass.2 ++ info.serialize nVersion)
    else some pass

/-- The entries in a bucket, by position. -/
def bucketIds (m : CAddrMan) (bucket : Fin 1024) : List Nat :=
  (List.finRange 64).filterMap fun i => m.vvNew (bucket, i)

def writeBucket (nIndexes : List Int32) : Writes :=
  serializeInt32 (Int32.ofNat nIndexes.length) ++ nIndexes.flatMap serializeInt32

/-- `1 << 30`, which older readers take for a wrong number of buckets. -/
def bucketsMark : Int32 := (1 : Int32) <<< (30 : Int32)

def storedBuckets : Int32 := 1024 ^^^ bucketsMark

def writeHeader (m : CAddrMan) : Writes :=
  [[1], [32]] ++ (serializeUint256 m.nKey ++ (serializeInt32 (Int32.ofInt m.nNew) ++
    (serializeInt32 (Int32.ofInt m.nTried) ++ serializeInt32 storedBuckets)))

/-- `none` where an assertion fails. -/
def serialize (m : CAddrMan) (nVersion : Int32) : Option Writes :=
  (m.ids.foldlM (m.writeNew nVersion) ⟨fun _ => 0, 0, []⟩).bind fun news =>
    (m.ids.foldlM (m.writeTried nVersion) (0, [])).map fun tried =>
      m.writeHeader ++ (news.written ++ (tried.2 ++ (List.finRange 1024).flatMap fun bucket =>
        writeBucket ((m.bucketIds bucket).map fun nId => Int32.ofNat (news.mapUnkIds nId))))

/-! ## Reading -/

variable (env : AddrEnv)

/-- `Clear`, and the numbers read after it. -/
def cleared (m : CAddrMan) (nKey : Uint256) (nNew nTried : Int) : CAddrMan := { m with
    nKey, nNew, nTried
    nIdCount := 0
    vRandom := []
    vvTried := fun _ => none
    vvNew := fun _ => none }

/-- `nIdCount` is set after the loop over the new entries. -/
def withCount (m : CAddrMan) (n : Nat) : CAddrMan := { m with nIdCount := n }

/-- An entry of the new table under its number. Where the stored slots cannot be used, it is
given one by its source. -/
def loadNew (fUse : Bool) (n : Nat) (m : CAddrMan) (stored : CAddrInfo) : CAddrMan :=
  let info := (stored.readInto (m.mapInfo n)).setRandomPos m.vRandom.length
  let m1 := { m with
    mapInfo := Function.update m.mapInfo n (some info)
    mapAddr := Function.update m.mapAddr info.toCNetAddr (some n)
    vRandom := m.vRandom ++ [n] }
  let s := env.newSlot m.nKey info.toCService (env.getNewBucket m.nKey info.toCService info.source)
  if fUse = false ∧ m1.vvNew s = none then m1.link s n else m1

/-- An entry of the tried table, and the number of those lost. -/
def loadTried (p : CAddrMan × Nat) (info : CAddrInfo) : CAddrMan × Nat :=
  let k := env.triedSlot p.1.nKey info.toCService
  if p.1.vvTried k = none then
    ((p.1.insertInfo (info.setTried true)).setTriedSlot k (some p.1.nIdCount), p.2)
  else (p.1, p.2 + 1)

/-- A number stored for a bucket. Every number below `nNew` has an entry by now. -/
def loadSlot (fUse : Bool) (bucket : Nat) (m : CAddrMan) (nIndex : Int32) : CAddrMan :=
  if 0 ≤ nIndex.toInt ∧ nIndex.toInt < m.nNew then
    (m.mapInfo nIndex.toInt.toNat).elim m fun info =>
      if h : bucket < 1024 then
        let s := env.newSlot m.nKey info.toCService ⟨bucket, h⟩
        if fUse = true ∧ m.vvNew s = none ∧ info.nRefCount < 8 then m.link s nIndex.toInt.toNat
        else m
      else m
  else m

def readNewEntry (fUse : Bool) (n : Nat) (m : CAddrMan) : Reader CAddrMan := do
  let info ← readAddrInfo
  pure (m.loadNew env fUse n info)

def readTriedEntry (_n : Nat) (p : CAddrMan × Nat) : Reader (CAddrMan × Nat) := do
  let info ← readAddrInfo
  pure (loadTried env p info)

def readSlot (fUse : Bool) (bucket : Nat) (_n : Nat) (m : CAddrMan) : Reader CAddrMan := do
  let nIndex ← readInt32
  pure (m.loadSlot env fUse bucket nIndex)

/-- A count, then as many indexes. -/
def readBucket (fUse : Bool) (bucket : Nat) (m : CAddrMan) : Reader CAddrMan := do
  let nSize ← readInt32
  readLoop (readSlot env fUse bucket) nSize.toInt.toNat 0 m

/-- New entries that got no slot are deleted. -/
def pruneEntry (m : CAddrMan) (n : Nat) : Option CAddrMan := (m.mapInfo n).elim (some m) fun info =>
    if info.fInTried = false ∧ info.nRefCount = 0 then m.delete n else some m

/-- Delete what ended up in no bucket. -/
def prune (m : CAddrMan) : Option CAddrMan := m.ids.foldlM pruneEntry m

/-- The tables, after the numbers at the head of the file. -/
def readTables (nVersion : Nat) (nUBuckets : Int32) (m : CAddrMan) : Reader (Option CAddrMan) := do
  let fUse := decide (nVersion = 1 ∧ nUBuckets = 1024)
  let m ← readLoop (readNewEntry env fUse) m.nNew.toNat 0 m
  let p ← readLoop (readTriedEntry env) m.nTried.toNat 0 (m.withCount m.nNew.toNat, 0)
  let m ← readLoop (readBucket env fUse) nUBuckets.toInt.toNat 0 (p.1.addTried (-p.2))
  pure m.prune

/-- The result is `none` where an assertion of `Delete` fails. -/
def unserialize (m : CAddrMan) : Reader (Option CAddrMan) := do
  let nVersion ← readLE endOfData 1
  let nKeySize ← readLE endOfData 1
  if nKeySize ≠ 32 then throw "Incorrect keysize in addrman deserialization"
  else do
    let nKey ← readUint256
    let nNew ← readInt32
    let nTried ← readInt32
    let nUBuckets ← readInt32
    readTables env nVersion (if nVersion ≠ 0 then nUBuckets ^^^ bucketsMark else nUBuckets)
      (m.cleared nKey nNew.toInt nTried.toInt)

end CAddrMan

end MonetaryUnit
