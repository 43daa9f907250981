/-
# MonetaryUnit.Storage.BlockFiles — block files, undo files and the block index

How `main.cpp` puts blocks and undo data on the disk, from `FindBlockPos` and `FindUndoPos` up to
`AcceptBlock`, `ConnectTip`, `DisconnectTip` and `FlushStateToDisk`.

The blk and rev files lose what was not committed. The databases are maps; a call that writes to
them is a list of writes (`DbWrite`) of which an error or a crash leaves the first ones.

What the checks of a block say beyond `CheckBlock`, what the operating system does and how full the
coin cache is are inputs of an operation. The undo data is what `ConnectBlock` computes for the
block, with any format that reads back what it wrote. The best block of a coin view is `none` where
the source has `uint256(0)`.
-/

import MonetaryUnit.Chain.BlockIndex
import MonetaryUnit.Lib.DurableFile
import MonetaryUnit.Net.Message
import MonetaryUnit.Validation.CheckBlock

namespace MonetaryUnit

open Lib

/-! ## Block file information -/

def maxBlockfileSize : Nat := 0x8000000
def blockfileChunkSize : Nat := 0x1000000
def undofileChunkSize : Nat := 0x100000

/-- The sum of two `unsigned int`. -/
def add32 (a b : Nat) : Nat := (a + b) % 2 ^ 32

structure CBlockFileInfo where
  nBlocks : Nat := 0
  nSize : Nat := 0
  nUndoSize : Nat := 0
  nHeightFirst : Nat := 0
  nHeightLast : Nat := 0
  nTimeFirst : Nat := 0
  nTimeLast : Nat := 0
deriving DecidableEq, Repr

/-- Update the statistics; the sizes stay. -/
def CBlockFileInfo.addBlock (info : CBlockFileInfo) (nHeightIn nTimeIn : Nat) : CBlockFileInfo where
  nBlocks := add32 info.nBlocks 1
  nSize := info.nSize
  nUndoSize := info.nUndoSize
  nHeightFirst :=
    if info.nBlocks = 0 ∨ nHeightIn < info.nHeightFirst then nHeightIn else info.nHeightFirst
  nHeightLast := max info.nHeightLast nHeightIn
  nTimeFirst := if info.nBlocks = 0 ∨ nTimeIn < info.nTimeFirst then nTimeIn else info.nTimeFirst
  nTimeLast := max info.nTimeLast nTimeIn

structure CDiskBlockPos where
  nFile : Nat
  nPos : Nat
deriving DecidableEq, Repr

/-! ## Index entries -/

def blockValidTree : Nat := 2
def blockValidTransactions : Nat := 3
def blockValidScripts : Nat := 5

/-- `nStatus`, with the validity level as a number and the bits above it as flags. -/
structure BlockStatus where
  valid : Nat := 0
  haveData : Bool := false
  haveUndo : Bool := false
  failedValid : Bool := false
  failedChild : Bool := false
deriving DecidableEq, Repr

namespace BlockStatus

def failed (st : BlockStatus) : Bool := st.failedValid || st.failedChild

def isValid (st : BlockStatus) (nUpTo : Nat) : Bool := !st.failed && nUpTo ≤ st.valid

def raiseValidity (st : BlockStatus) (nUpTo : Nat) : BlockStatus :=
  if !st.failed && st.valid < nUpTo then { st with valid := nUpTo } else st

end BlockStatus

/-- An entry of `mapBlockIndex`, with the hash of its predecessor for the pointer to it; this is
also what the database stores. -/
structure CDiskBlockIndex extends CBlockIndex where
  pprev : Option Uint256
  nStatus : BlockStatus
  nFile : Nat := 0
  nDataPos : Nat := 0
  nUndoPos : Nat := 0
deriving DecidableEq, Repr

/-! ## The state -/

/-- The files, the databases, and what is in memory. -/
structure Storage where
  blk : Nat → DurableFile
  rev : Nat → DurableFile
  vinfoBlockFile : List CBlockFileInfo
  nLastBlockFile : Nat
  setDirtyFileInfo : List Nat
  mapBlockIndex : Uint256 → Option CDiskBlockIndex
  setDirtyBlockIndex : List Uint256
  /-- `chainActive.Tip()` -/
  tip : Option Uint256
  /-- `pcoinsTip->GetBestBlock()` -/
  coinsBest : Option Uint256
  dbBlockFileInfo : Nat → Option CBlockFileInfo
  dbLastBlockFile : Option Nat
  dbBlockIndex : Uint256 → Option CDiskBlockIndex
  /-- The best block of the coin database. -/
  dbBestBlock : Option Uint256

namespace Storage

/-- A data directory with block and undo files, if any, and nothing else. -/
def initial (blk rev : Nat → Bytes) : Storage where
  blk := fun n => .existing (blk n)
  rev := fun n => .existing (rev n)
  vinfoBlockFile := []
  nLastBlockFile := 0
  setDirtyFileInfo := []
  mapBlockIndex := fun _ => none
  setDirtyBlockIndex := []
  tip := none
  coinsBest := none
  dbBlockFileInfo := fun _ => none
  dbLastBlockFile := none
  dbBlockIndex := fun _ => none
  dbBestBlock := none

def infoAt (s : Storage) (n : Nat) : CBlockFileInfo := s.vinfoBlockFile.getD n {}

/-- Resize the vector if it is too short, and store. -/
def setInfo (s : Storage) (n : Nat) (info : CBlockFileInfo) : Storage := { s with
    vinfoBlockFile := (s.vinfoBlockFile ++
      List.replicate (n + 1 - s.vinfoBlockFile.length) ({} : CBlockFileInfo)).set n info }

/-- Make a file the last one, with one more block and a new size. -/
def extendFile (s : Storage) (nFile nHeight nTime nSize : Nat) : Storage :=
  { s with nLastBlockFile := nFile }.setInfo nFile
    { (s.infoAt nFile).addBlock nHeight nTime with nSize := nSize }

def markFileDirty (s : Storage) (n : Nat) : Storage :=
  { s with setDirtyFileInfo := s.setDirtyFileInfo.insert n }

/-- Change or add an entry of the index, and mark it dirty. -/
def setEntry (s : Storage) (hash : Uint256) (e : CDiskBlockIndex) : Storage := { s with
    mapBlockIndex := Function.update s.mapBlockIndex hash (some e)
    setDirtyBlockIndex := s.setDirtyBlockIndex.insert hash }

end Storage

/-! ## The disk -/

/-- What the operating system does during an operation: `CheckDiskSpace`, whether the files can
be opened in `FlushBlockFile`, for preallocation, and for the record to be written. A write
that fails leaves the file as it is. -/
structure DiskEnv where
  space : Bool := true
  openBlk : Bool := true
  openRev : Bool := true
  allocate : Bool := true
  write : Bool := true
deriving DecidableEq, Repr

def flushFile (f : DurableFile) (fFinalize : Bool) (size : Nat) : DurableFile :=
  (if fFinalize then f.truncate size else f).commit

/-- Files that cannot be opened are passed over. -/
def flushBlockFile (disk : DiskEnv) (fFinalize : Bool) (s : Storage) : Storage :=
  let n := s.nLastBlockFile
  let info := s.infoAt n
  { s with
    blk := if disk.openBlk then
      Function.update s.blk n (flushFile (s.blk n) fFinalize info.nSize) else s.blk
    rev := if disk.openRev then
      Function.update s.rev n (flushFile (s.rev n) fFinalize info.nUndoSize) else s.rev }

/-- The space of a file is allocated in chunks; `none` is "out of disk space". -/
def preallocate (disk : DiskEnv) (chunkSize nPos nNewSize : Nat) (f : DurableFile) :
    Option DurableFile :=
  let nOldChunks := add32 (chunkSize - 1) nPos / chunkSize
  let nNewChunks := add32 (chunkSize - 1) nNewSize / chunkSize
  if nOldChunks < nNewChunks then
    if disk.space then
      some (if disk.allocate then f.allocate (nNewChunks * chunkSize) else f)
    else none
  else some f

/-- The loop that leaves full block files. It flushes the last file, not the one it looks at. -/
def leaveLoop (disk : DiskEnv) (nAddSize : Nat) : Nat → Nat → Storage → Option (Nat × Storage)
  | 0, _, _ => none
  | fuel + 1, nFile, s =>
    if maxBlockfileSize ≤ add32 (s.infoAt nFile).nSize nAddSize then
      leaveLoop disk nAddSize fuel (nFile + 1) (flushBlockFile disk true s)
    else some (nFile, s)

/-- A place at the end of a file, or `none` when there is no space. -/
def placeBlock (disk : DiskEnv) (nAddSize nHeight nTime nFile : Nat) (s : Storage) :
    Option CDiskBlockPos × Storage :=
  let nPos := (s.infoAt nFile).nSize
  let nNewSize := add32 nPos nAddSize
  let s := s.extendFile nFile nHeight nTime nNewSize
  match preallocate disk blockfileChunkSize nPos nNewSize (s.blk nFile) with
  | none => (none, s)
  | some f =>
    (some ⟨nFile, nPos⟩, { s with blk := Function.update s.blk nFile f }.markFileDirty nFile)

/-- The position for a block. With `fKnown` it is given. Behind the end of `vinfoBlockFile` the
files are empty. -/
def findBlockPos (disk : DiskEnv) (known : Option CDiskBlockPos) (nAddSize nHeight nTime : Nat)
    (s : Storage) : Option (Option CDiskBlockPos × Storage) :=
  match known with
  | some pos =>
    let s := s.extendFile pos.nFile nHeight nTime
      (max (add32 pos.nPos nAddSize) (s.infoAt pos.nFile).nSize)
    some (some pos, s.markFileDirty pos.nFile)
  | none =>
    match leaveLoop disk nAddSize (s.vinfoBlockFile.length + 1) s.nLastBlockFile s with
    | none => none
    | some (nFile, s) => some (placeBlock disk nAddSize nHeight nTime nFile s)

/-- Room for the undo data behind what the file has. -/
def findUndoPos (disk : DiskEnv) (nFile nAddSize : Nat) (s : Storage) :
    Option CDiskBlockPos × Storage :=
  let info := s.infoAt nFile
  let pos : CDiskBlockPos := ⟨nFile, info.nUndoSize⟩
  let nNewSize := add32 info.nUndoSize nAddSize
  let s := (s.setInfo nFile { info with nUndoSize := nNewSize }).markFileDirty nFile
  match preallocate disk undofileChunkSize pos.nPos nNewSize (s.rev nFile) with
  | none => (none, s)
  | some f => (some pos, { s with rev := Function.update s.rev nFile f })

/-! ## Records -/

/-- What stays the same during a run. -/
structure StorageEnv (U : Type) where
  block : BlockEnv
  hashGenesisBlock : Uint256
  start : MessageStart
  hash256 : Bytes → Uint256
  layout : Layout
  serializeUndo : U → Bytes
  readUndo : Reader U
  readUndo_serialize : ∀ u rest, readUndo (serializeUndo u ++ rest) = .ok (u, rest)
  /-- The undo data that `ConnectBlock` computes for the block with this hash. -/
  blockundo : Uint256 → U

section Env

variable {U : Type} (E : StorageEnv U)

/-- The network's message start and the size in front of a record. -/
def recordHeader (size : Nat) : Bytes := E.start.1 ++ leBytes 4 (freeGetSerializeSize size).toNat

/-- The position returned is that of the block behind the header of its record. -/
def writeBlockToDisk (disk : DiskEnv) (block : CBlock) (pos : CDiskBlockPos) (s : Storage) :
    Option (CDiskBlockPos × Storage) :=
  if disk.write then
    let record := recordHeader E block.getSerializeSize ++ block.bytes
    let f := (s.blk pos.nFile).write pos.nPos record
    some (⟨pos.nFile, add32 pos.nPos 8⟩, { s with blk := Function.update s.blk pos.nFile f })
  else none

/-- Read a block and check its proof of work again. -/
def readBlockFromDisk (file : Bytes) (nPos : Nat) : Option CBlock :=
  match readBlock E.hash256 E.layout (file.drop nPos) with
  | .error _ => none
  | .ok (block, _) =>
    if E.block.checkProofOfWork (E.block.getHash block.toCBlockHeader) block.nBits then some block
    else none

/-- Read the block of an entry, and compare its hash with the entry's. -/
def readIndexedBlock (file : Nat → Bytes) (hash : Uint256) (e : CDiskBlockIndex) :
    Option CBlock :=
  if e.nStatus.haveData then
    match readBlockFromDisk E (file e.nFile) e.nDataPos with
    | none => none
    | some block => if E.block.getHash block.toCBlockHeader = hash then some block else none
  else none

/-- The checksum covers the hash of the previous block and the undo data. -/
def undoChecksum (hashBlock : Uint256) (u : U) : Uint256 :=
  E.hash256 (leBytes 32 hashBlock.toNat ++ E.serializeUndo u)

/-- The undo data and its checksum. -/
def undoData (hashBlock : Uint256) (u : U) : Bytes :=
  E.serializeUndo u ++ leBytes 32 (undoChecksum E hashBlock u).toNat

/-- `CBlockUndo::WriteToDisk` -/
def undoWriteToDisk (disk : DiskEnv) (u : U) (hashBlock : Uint256) (pos : CDiskBlockPos)
    (s : Storage) : Option (CDiskBlockPos × Storage) :=
  if disk.write then
    let record := recordHeader E (E.serializeUndo u).length ++ undoData E hashBlock u
    let f := (s.rev pos.nFile).write pos.nPos record
    some (⟨pos.nFile, add32 pos.nPos 8⟩, { s with rev := Function.update s.rev pos.nFile f })
  else none

/-- `CBlockUndo::ReadFromDisk` -/
def undoReadFromDisk (file : Bytes) (nPos : Nat) (hashBlock : Uint256) : Option U :=
  match E.readUndo (file.drop nPos) with
  | .error _ => none
  | .ok (u, rest) =>
    match readUint256 rest with
    | .error _ => none
    | .ok (hashChecksum, _) => if hashChecksum = undoChecksum E hashBlock u then some u else none

/-- The undo data of an entry, if it has any. -/
def readIndexedUndo (file : Nat → Bytes) (e : CDiskBlockIndex) : Option U :=
  if e.nStatus.haveUndo then
    match e.pprev with
    | none => none
    | some hashPrev => undoReadFromDisk E (file e.nFile) e.nUndoPos hashPrev
  else none

/-! ## Accepting blocks -/

/-- An entry for a header, without data yet. -/
def addToBlockIndex (block : CBlockHeader) (s : Storage) : Storage :=
  let hash := E.block.getHash block
  let entry : CDiskBlockIndex :=
    match s.mapBlockIndex block.hashPrevBlock with
    | some prev =>
      { CBlockIndex.ofHeader block hash (prev.nHeight + 1) with
        pprev := some block.hashPrevBlock, nStatus := { valid := blockValidTree } }
    | none =>
      { CBlockIndex.ofHeader block hash 0 with
        pprev := none, nStatus := { valid := blockValidTree } }
  s.setEntry hash entry

/-- The previous block is known and has not failed; the genesis block needs none. -/
def prevBlockOk (block : CBlockHeader) (s : Storage) : Bool :=
  E.block.getHash block == E.hashGenesisBlock ||
    match s.mapBlockIndex block.hashPrevBlock with
    | none => false
    | some prev => !prev.nStatus.failed

/-- `contextual` is the result of `ContextualCheckBlockHeader`, `now` the adjusted time. -/
def acceptBlockHeader (now : Int) (contextual : Except Reject Unit) (block : CBlockHeader)
    (s : Storage) : Bool × Storage :=
  match s.mapBlockIndex (E.block.getHash block) with
  | some pindex => (!pindex.nStatus.failed, s)
  | none =>
    if (checkBlockHeader { E.block with adjustedTime := now } block true).isOk &&
        prevBlockOk E block s && contextual.isOk then
      (true, addToBlockIndex E block s)
    else (false, s)

def CDiskBlockIndex.markFailed (e : CDiskBlockIndex) : CDiskBlockIndex :=
  { e with nStatus := { e.nStatus with failedValid := true } }

/-- A block that is invalid for good is marked; one whose data may be corrupt is not. -/
def blockFailed (hash : Uint256) (e : CDiskBlockIndex) (r : Reject) (s : Storage) : Storage :=
  if r.corruptionPossible then s else s.setEntry hash e.markFailed

/-- The entry's part of `ReceivedBlockTransactions`. -/
def CDiskBlockIndex.received (e : CDiskBlockIndex) (pos : CDiskBlockPos) : CDiskBlockIndex :=
  { e with
    nFile := pos.nFile, nDataPos := pos.nPos, nUndoPos := 0,
    nStatus := { e.nStatus with haveData := true }.raiseValidity blockValidTransactions }

/-- A block at a known position is in its file already. -/
def writeUnlessKnown (disk : DiskEnv) (block : CBlock) (dbp : Option CDiskBlockPos)
    (pos : CDiskBlockPos) (s : Storage) : Option (CDiskBlockPos × Storage) :=
  if dbp.isNone then writeBlockToDisk E disk block pos s else some (pos, s)

/-- The block is checked: find a place and store it. -/
def storeBlock (disk : DiskEnv) (block : CBlock) (dbp : Option CDiskBlockPos) (hash : Uint256)
    (e : CDiskBlockIndex) (s : Storage) : Option (Bool × Storage) :=
  let nBlockSize := (freeGetSerializeSize block.getSerializeSize).toNat
  match findBlockPos disk dbp (add32 nBlockSize 8) e.nHeight.toUInt32.toNat block.nTime.toNat s with
  | none => none
  | some (none, s) => some (false, s)
  | some (some pos, s) =>
    match writeUnlessKnown E disk block dbp pos s with
    | none => some (false, s)
    | some (pos, s) => some (true, s.setEntry hash (e.received pos))

/-- The inputs of one `AcceptBlock`. -/
structure AcceptEnv where
  now : Int
  contextualHeader : Except Reject Unit := .ok ()
  contextualBlock : Except Reject Unit := .ok ()
  disk : DiskEnv := {}

/-- Check a block and store it, unless it is stored. -/
def acceptBlock (env : AcceptEnv) (block : CBlock) (dbp : Option CDiskBlockPos) (s : Storage) :
    Option (Bool × Storage) :=
  let hash := E.block.getHash block.toCBlockHeader
  match acceptBlockHeader E env.now env.contextualHeader block.toCBlockHeader s with
  | (false, s) => some (false, s)
  | (true, s) =>
    match s.mapBlockIndex hash with
    | none => none
    | some e =>
      if e.nStatus.haveData then some (true, s)
      else
        match (do
            checkBlock { E.block with adjustedTime := env.now } block true true
            env.contextualBlock : Except Reject Unit) with
        | .error r => some (false, blockFailed hash e r s)
        | .ok () => storeBlock E env.disk block dbp hash e s

/-! ## Flushing -/

inductive FlushStateMode
  | ifNeeded
  | periodic
  | always
deriving DecidableEq, Repr

/-- The inputs of one `FlushStateToDisk`: the size of the coin cache, the time since the last
write, the disk, and how many database writes succeed. -/
structure FlushEnv where
  cacheFull : Bool := true
  intervalOver : Bool := true
  disk : DiskEnv := {}
  dbWrites : Nat

/-- When a flush writes. -/
def flushDue (mode : FlushStateMode) (env : FlushEnv) : Bool :=
  mode == .always || ((mode == .periodic || mode == .ifNeeded) && env.cacheFull) ||
    (mode == .periodic && env.intervalOver)

/-- A write to the block tree database or the coin database. -/
inductive DbWrite
  | blockFileInfo (n : Nat)
  | lastBlockFile
  | blockIndex (hash : Uint256)
  | coins

/-- What is written is the current value; it is then no longer dirty. -/
def DbWrite.apply (s : Storage) : DbWrite → Storage
  | .blockFileInfo n =>
    { s with
      dbBlockFileInfo := Function.update s.dbBlockFileInfo n (some (s.infoAt n))
      setDirtyFileInfo := s.setDirtyFileInfo.erase n }
  | .lastBlockFile => { s with dbLastBlockFile := some s.nLastBlockFile }
  | .blockIndex hash =>
    { s with
      dbBlockIndex := Function.update s.dbBlockIndex hash (s.mapBlockIndex hash)
      setDirtyBlockIndex := s.setDirtyBlockIndex.erase hash }
  | .coins => { s with dbBestBlock := s.coinsBest }

/-- The block tree writes of a flush. -/
def treeWrites (s : Storage) : List DbWrite := s.setDirtyFileInfo.map .blockFileInfo ++
    (if s.setDirtyFileInfo.isEmpty then [] else [.lastBlockFile]) ++
    s.setDirtyBlockIndex.map .blockIndex

/-- All writes of a flush: the coins come last. -/
def flushWrites (s : Storage) : List DbWrite := treeWrites s ++ [.coins]

/-- The files first, then the index, the coins last. -/
def flushStateToDisk (mode : FlushStateMode) (env : FlushEnv) (s : Storage) : Bool × Storage :=
  if flushDue mode env then
    if env.disk.space then
      let s := flushBlockFile env.disk false s
      (decide ((flushWrites s).length ≤ env.dbWrites),
        ((flushWrites s).take env.dbWrites).foldl DbWrite.apply s)
    else (false, s)
  else (true, s)

/-! ## The tip -/

inductive ConnectResult
  | ok
  | invalid (r : Reject)
  | error
deriving DecidableEq, Repr

/-- The inputs of one `ConnectTip`: the adjusted time, what `ConnectBlock` finds beyond
`CheckBlock`, the disk for the undo data, and the flush. -/
structure ConnectTipEnv where
  now : Int
  verdict : Except Reject Unit := .ok ()
  disk : DiskEnv := {}
  flush : FlushEnv

/-- Store the undo data of a block that has none yet; `none` if that fails. -/
def storeUndo (disk : DiskEnv) (hash hashPrev : Uint256) (e : CDiskBlockIndex) (s : Storage) :
    Option CDiskBlockIndex × Storage :=
  if e.nStatus.haveUndo then (some e, s)
  else
    let u := E.blockundo hash
    let nSize := (freeGetSerializeSize (E.serializeUndo u).length).toNat
    match findUndoPos disk e.nFile (add32 nSize 40) s with
    | (none, s) => (none, s)
    | (some pos, s) =>
      match undoWriteToDisk E disk u hashPrev pos s with
      | none => (none, s)
      | some (pos, s) =>
        (some { e with nUndoPos := pos.nPos, nStatus := { e.nStatus with haveUndo := true } }, s)

/-- The entry after its undo data is stored and its scripts have been checked. -/
def CDiskBlockIndex.connected (e : CDiskBlockIndex) : CDiskBlockIndex :=
  { e with nStatus := e.nStatus.raiseValidity blockValidScripts }

/-- Write the undo information, unless the block has it and is known to be valid. -/
def recordUndo (disk : DiskEnv) (hash hashPrev : Uint256) (e : CDiskBlockIndex) (s : Storage) :
    Bool × Storage :=
  if !e.nStatus.haveUndo || !e.nStatus.isValid blockValidScripts then
    match storeUndo E disk hash hashPrev e s with
    | (none, s) => (false, s)
    | (some e, s) => (true, s.setEntry hash e.connected)
  else (true, s)

/-- `ConnectBlock` as far as it stores something; `none` is a failed assertion. The coins go to
a view of their own, whose best block is returned. -/
def connectBlockTo (env : ConnectTipEnv) (block : CBlock) (hash : Uint256) (e : CDiskBlockIndex)
    (s : Storage) : Option (ConnectResult × Storage) :=
  match checkBlock { E.block with adjustedTime := env.now } block true true with
  | .error r => some (.invalid r, s)
  | .ok () =>
    if e.pprev = s.coinsBest then
      if E.block.getHash block.toCBlockHeader = E.hashGenesisBlock then some (.ok, s)
      else
        match env.verdict with
        | .error r => some (.invalid r, s)
        | .ok () =>
          match e.pprev with
          | none => none
          | some hashPrev =>
            match recordUndo E env.disk hash hashPrev e s with
            | (false, s) => some (.error, s)
            | (true, s) => some (.ok, s)
    else none

/-- `ActivateBestChain` hands over the block that has just arrived if it is the one to connect;
else the block is read from its file. -/
def blockToConnect (pblock : Option CBlock) (hash : Uint256) (e : CDiskBlockIndex) (s : Storage) :
    Option CBlock :=
  match pblock with
  | some block =>
    if E.block.getHash block.toCBlockHeader = hash then some block
    else readIndexedBlock E (fun n => (s.blk n).written) hash e
  | none => readIndexedBlock E (fun n => (s.blk n).written) hash e

/-- `FindMostWorkChain` asserts that the block has its data. -/
def connectTip (env : ConnectTipEnv) (hash : Uint256) (pblock : Option CBlock) (s : Storage) :
    Option (Bool × Storage) :=
  match s.mapBlockIndex hash with
  | none => none
  | some e =>
    if e.nStatus.haveData ∧ e.pprev = s.tip then
      match blockToConnect E pblock hash e s with
      | none => some (false, s)
      | some block =>
        match connectBlockTo E env block hash e s with
        | none => none
        | some (.invalid r, s) => some (false, blockFailed hash e r s)
        | some (.error, s) => some (false, s)
        | some (.ok, s) =>
          match flushStateToDisk .ifNeeded env.flush { s with coinsBest := some hash } with
          | (false, s) => some (false, s)
          | (true, s) => some (true, { s with tip := some hash })
    else none

/-- The inputs of one `DisconnectTip`: whether `DisconnectBlock` finds the coins as expected,
and the flush. -/
structure DisconnectTipEnv where
  clean : Bool := true
  flush : FlushEnv

/-- Undo the tip with what its undo file says. -/
def disconnectTip (env : DisconnectTipEnv) (s : Storage) : Option (Bool × Storage) :=
  match s.tip with
  | none => none
  | some hash =>
    match s.mapBlockIndex hash with
    | none => none
    | some e =>
      match readIndexedBlock E (fun n => (s.blk n).written) hash e with
      | none => some (false, s)
      | some _ =>
        if some hash = s.coinsBest then
          match readIndexedUndo E (fun n => (s.rev n).written) e with
          | none => some (false, s)
          | some _ =>
            if env.clean then
              match flushStateToDisk .ifNeeded env.flush { s with coinsBest := e.pprev } with
              | (false, s) => some (false, s)
              | (true, s) => some (true, { s with tip := e.pprev })
            else some (false, s)
        else none

/-! ## Runs -/

inductive StorageOp
  | acceptHeader (now : Int) (contextual : Except Reject Unit) (header : CBlockHeader)
  | acceptBlock (env : AcceptEnv) (block : CBlock) (dbp : Option CDiskBlockPos)
  | connectTip (env : ConnectTipEnv) (hash : Uint256) (pblock : Option CBlock)
  | disconnectTip (env : DisconnectTipEnv)
  | flushStateToDisk (mode : FlushStateMode) (env : FlushEnv)

/-- One operation, with the result it returns; `none` is a failed assertion. -/
def Storage.step (s : Storage) : StorageOp → Option (Bool × Storage)
  | .acceptHeader now contextual header => some (acceptBlockHeader E now contextual header s)
  | .acceptBlock env block dbp => acceptBlock E env block dbp s
  | .connectTip env hash pblock => connectTip E env hash pblock s
  | .disconnectTip env => disconnectTip E env s
  | .flushStateToDisk mode env => some (flushStateToDisk mode env s)

end Env

end MonetaryUnit
