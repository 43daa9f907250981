/-
# MonetaryUnit.Storage.FileSteps — what the block and undo files keep

`FlushBlockFile`, `FindBlockPos`, `FindUndoPos` and the writing of a record change the block and
undo files and their sizes, and nothing else. `FilesStep` says what all of them keep: a record
that lies within the used size of its file stays where it is, in the written and in the durable
content.

The specifications `storeBlock_spec` and `storeUndo_spec` say where a block or its undo data ends
up. `OnlyLastOpen`, that every file but the last one is committed, is kept as long as undo data
goes to the last file and a file is flushed when it is left.
-/

import MonetaryUnit.Serialize.Canonical
import MonetaryUnit.Storage.BlockFiles

namespace MonetaryUnit

open Lib Function List Prod Option Nat Bool

/-! ## File information -/

namespace Storage

variable (s : Storage) (n m : Nat) (info : CBlockFileInfo)

theorem infoAt_setInfo : (s.setInfo n info).infoAt m = if m = n then info else s.infoAt m := by
  simp only [infoAt, setInfo, getD_eq_getElem?_getD, getElem?_set, length_append, length_replicate]
  by_cases hm : m = n
  · subst hm
    rw [if_pos rfl, if_pos rfl, if_pos (by omega)]
    rfl
  · rw [if_neg (Ne.symm hm), getElem?_append]
    split_ifs with hlt
    · rfl
    · rw [getElem?_eq_none (Nat.le_of_not_lt hlt), getElem?_replicate]
      split_ifs <;> rfl

theorem nSize_extendFile (nHeight nTime nSize : Nat) :
    ((s.extendFile n nHeight nTime nSize).infoAt m).nSize =
      if m = n then nSize else (s.infoAt m).nSize := by
  rw [extendFile, infoAt_setInfo]
  split_ifs <;> rfl

end Storage

theorem add32_eq {a b : Nat} (h : a + b < 2 ^ 32) : add32 a b = a + b := mod_eq_of_lt h

/-! ## Growing files -/

/-- What happens to the block and undo files and their sizes, all else unchanged. -/
structure FilesStep (s s' : Storage) : Prop where
  index : s'.mapBlockIndex = s.mapBlockIndex
  dirty : s'.setDirtyBlockIndex = s.setDirtyBlockIndex
  tip : s'.tip = s.tip
  best : s'.coinsBest = s.coinsBest
  dbIndex : s'.dbBlockIndex = s.dbBlockIndex
  dbBest : s'.dbBestBlock = s.dbBestBlock
  nSize : ∀ n, (s.infoAt n).nSize ≤ (s'.infoAt n).nSize
  nUndoSize : ∀ n, (s.infoAt n).nUndoSize ≤ (s'.infoAt n).nUndoSize
  blk : ∀ n, (s.blk n).Keeps (s'.blk n) (s.infoAt n).nSize
  rev : ∀ n, (s.rev n).Keeps (s'.rev n) (s.infoAt n).nUndoSize

/-- The block and undo file with this number are on the disk as they are. -/
def Storage.CommittedAt (s : Storage) (n : Nat) : Prop := (s.blk n).Committed ∧ (s.rev n).Committed

variable {nSize size : Nat} {f : DurableFile}

section FilesStep

variable {s s' s'' : Storage}

theorem FilesStep.refl (s : Storage) : FilesStep s s :=
  ⟨rfl, rfl, rfl, rfl, rfl, rfl, fun _ => le_rfl, fun _ => le_rfl, fun _ => .refl _ _,
    fun _ => .refl _ _⟩

theorem FilesStep.trans (h : FilesStep s s') (h' : FilesStep s' s'') : FilesStep s s'' where
  index := h'.index.trans h.index
  dirty := h'.dirty.trans h.dirty
  tip := h'.tip.trans h.tip
  best := h'.best.trans h.best
  dbIndex := h'.dbIndex.trans h.dbIndex
  dbBest := h'.dbBest.trans h.dbBest
  nSize := fun n => (h.nSize n).trans (h'.nSize n)
  nUndoSize := fun n => (h.nUndoSize n).trans (h'.nUndoSize n)
  blk := fun n => (h.blk n).trans (h'.blk n) (h.nSize n)
  rev := fun n => (h.rev n).trans (h'.rev n) (h.nUndoSize n)

variable {n : Nat} {files : Nat → DurableFile}

theorem keeps_update {files' : Nat → DurableFile} {size : Nat → Nat}
    (hall : ∀ m, (files m).Keeps (files' m) (size m)) (h : (files' n).Keeps f (size n)) (m : Nat) :
    (files m).Keeps (update files' n f m) (size m) := by
  by_cases hm : m = n
  · subst hm
    rw [update_self]
    exact (hall m).trans h le_rfl
  · rw [update_of_ne hm]
    exact hall m

theorem committed_update {m : Nat} (hm : m ≠ n) (h : (files m).Committed) :
    (update files n f m).Committed := by
  rwa [update_of_ne hm]

/-- Enlarging the sizes of one file. -/
theorem FilesStep.setInfo {info : CBlockFileInfo} (hsize : (s.infoAt n).nSize ≤ info.nSize)
    (hundo : (s.infoAt n).nUndoSize ≤ info.nUndoSize) : FilesStep s (s.setInfo n info) := by
  refine { FilesStep.refl s with nSize := fun m => ?_, nUndoSize := fun m => ?_ }
  · rw [Storage.infoAt_setInfo]
    split_ifs with hm
    · exact hm ▸ hsize
    · exact le_rfl
  · rw [Storage.infoAt_setInfo]
    split_ifs with hm
    · exact hm ▸ hundo
    · exact le_rfl

/-- Giving one file more bytes, and making it the last one. -/
theorem FilesStep.extendFile {nFile nHeight nTime : Nat} (hsize : (s.infoAt nFile).nSize ≤ nSize) :
    FilesStep s (s.extendFile nFile nHeight nTime nSize) :=
  have hlast : FilesStep s { s with nLastBlockFile := nFile } := { FilesStep.refl s with }
  hlast.trans (.setInfo hsize le_rfl)

end FilesStep

/-! ## Flushing and finding positions -/

theorem keeps_flushFile {fFinalize : Bool} : f.Keeps (flushFile f fFinalize size) size := by
  cases fFinalize with
  | false => exact DurableFile.keeps_commit
  | true => exact (DurableFile.keeps_truncate le_rfl).trans DurableFile.keeps_commit le_rfl

theorem committed_flushFile (f : DurableFile) (fFinalize : Bool) (size : Nat) :
    (flushFile f fFinalize size).Committed := DurableFile.committed_commit _

section Flush

variable {s s' : Storage} {disk : DiskEnv}

/-- Both files could be opened. -/
def DiskEnv.Opens (disk : DiskEnv) : Prop := disk.openBlk = true ∧ disk.openRev = true

instance (disk : DiskEnv) : Decidable disk.Opens := inferInstanceAs (Decidable (_ ∧ _))

theorem flushBlockFile_filesStep (disk : DiskEnv) (fFinalize : Bool) (s : Storage) :
    FilesStep s (flushBlockFile disk fFinalize s) := by
  refine { FilesStep.refl s with blk := fun n => ?_, rev := fun n => ?_ }
  · show (s.blk n).Keeps ((if disk.openBlk then _ else _ : Nat → DurableFile) n) _
    split_ifs
    · exact keeps_update (FilesStep.refl s).blk keeps_flushFile n
    · exact .refl _ _
  · show (s.rev n).Keeps ((if disk.openRev then _ else _ : Nat → DurableFile) n) _
    split_ifs
    · exact keeps_update (FilesStep.refl s).rev keeps_flushFile n
    · exact .refl _ _

theorem flushBlockFile_committed_last (hopen : disk.Opens) (fFinalize : Bool) (s : Storage) :
    (flushBlockFile disk fFinalize s).CommittedAt s.nLastBlockFile := by
  simp only [Storage.CommittedAt, flushBlockFile, hopen.1, hopen.2, if_true, update_self]
  exact ⟨committed_flushFile _ _ _, committed_flushFile _ _ _⟩

theorem flushBlockFile_committed_other {n : Nat} (hn : n ≠ s.nLastBlockFile)
    (h : s.CommittedAt n) (fFinalize : Bool) : (flushBlockFile disk fFinalize s).CommittedAt n := by
  unfold Storage.CommittedAt flushBlockFile
  dsimp only
  constructor
  · split_ifs
    · exact committed_update hn h.1
    · exact h.1
  · split_ifs
    · exact committed_update hn h.2
    · exact h.2

/-- Only the last file can hold anything that is not committed. -/
def Storage.OnlyLastOpen (s : Storage) : Prop := ∀ n, n ≠ s.nLastBlockFile → s.CommittedAt n

theorem flushBlockFile_committed (hopen : disk.Opens) (fFinalize : Bool) (h : s.OnlyLastOpen)
    (n : Nat) : (flushBlockFile disk fFinalize s).CommittedAt n := by
  by_cases hn : n = s.nLastBlockFile
  · rw [hn]
    exact flushBlockFile_committed_last hopen fFinalize s
  · exact flushBlockFile_committed_other hn (h n hn) fFinalize

variable {nAddSize nFile nHeight nTime : Nat} {found : Option CDiskBlockPos}

/-- The loop ends at a file with room for the block, and all other files are committed. -/
theorem leaveLoop_spec (hopen : disk.Opens) {fuel nFile' : Nat} (hstart : s.OnlyLastOpen)
    (hfile : nFile = s.nLastBlockFile ∨ s.CommittedAt s.nLastBlockFile)
    (hrun : leaveLoop disk nAddSize fuel nFile s = some (nFile', s')) :
    FilesStep s s' ∧ s'.vinfoBlockFile = s.vinfoBlockFile ∧ (∀ n, n ≠ nFile' → s'.CommittedAt n) ∧
      add32 (s.infoAt nFile').nSize nAddSize < maxBlockfileSize := by
  induction fuel generalizing nFile s with
  | zero => cases hrun
  | succ fuel ih =>
    unfold leaveLoop at hrun
    split_ifs at hrun with hfull
    · have hall := flushBlockFile_committed hopen true hstart
      obtain ⟨hstep, hinfo, hother, hroom⟩ := ih (fun n _ => hall n) (.inr (hall _)) hrun
      exact ⟨(flushBlockFile_filesStep disk true s).trans hstep, hinfo, hother, hroom⟩
    rw [some.injEq, mk.injEq] at hrun
    obtain ⟨rfl, rfl⟩ := hrun
    refine ⟨.refl s, rfl, fun n hn => ?_, Nat.lt_of_not_le hfull⟩
    by_cases hlast : n = s.nLastBlockFile
    · rcases hfile with rfl | hcommitted
      · exact absurd hlast hn
      · exact hlast ▸ hcommitted
    · exact hstart n hlast

/-- There is always a file with room: behind the known ones all are empty. -/
theorem leaveLoop_isSome (disk : DiskEnv) (hadd : nAddSize < maxBlockfileSize) (fuel nFile : Nat)
    (s : Storage) (hfuel : s.vinfoBlockFile.length ≤ nFile + fuel) :
    (leaveLoop disk nAddSize (fuel + 1) nFile s).isSome := by
  induction fuel generalizing nFile s with
  | zero =>
    rw [add_zero] at hfuel
    have hempty : s.infoAt nFile = {} := by
      rw [Storage.infoAt, getD_eq_getElem?_getD, getElem?_eq_none hfuel]
      rfl
    have hroom : add32 0 nAddSize ≤ nAddSize := by
      rw [add32, zero_add]
      exact mod_le _ _
    rw [leaveLoop, hempty, if_neg (Nat.not_le_of_lt (hroom.trans_lt hadd))]
    rfl
  | succ fuel ih =>
    rw [leaveLoop]
    split_ifs
    · apply ih
      show s.vinfoBlockFile.length ≤ _
      omega
    · rfl

theorem keeps_preallocate {chunkSize nPos nNewSize : Nat} {f' : DurableFile}
    (h : preallocate disk chunkSize nPos nNewSize f = some f') : f.Keeps f' size := by
  unfold preallocate at h
  dsimp only at h
  split_ifs at h
  · cases h
    exact DurableFile.keeps_allocate _
  · cases h
    exact .refl _ _
  · cases h
    exact .refl _ _

/-- No block file is longer than 2 GiB, so the sizes do not wrap. -/
def Storage.Bounded (s : Storage) : Prop := ∀ n, (s.infoAt n).nSize ≤ 2 ^ 31

theorem Storage.Bounded.extendFile (h : s.Bounded) (hsize : nSize ≤ 2 ^ 31) :
    (s.extendFile nFile nHeight nTime nSize).Bounded := by
  intro m
  rw [Storage.nSize_extendFile]
  split_ifs
  · exact hsize
  · exact h m

/-- A step of the files that leaves only the last one open. -/
structure Grown (s s' : Storage) : Prop extends FilesStep s s' where
  lastOpen : s'.OnlyLastOpen
  bounded : s'.Bounded

/-- Replacing the last block file. -/
theorem Grown.setBlk (h : Grown s s')
    (hf : (s'.blk s'.nLastBlockFile).Keeps f (s.infoAt s'.nLastBlockFile).nSize) :
    Grown s { s' with blk := update s'.blk s'.nLastBlockFile f } :=
  { h with
    blk := keeps_update h.blk hf
    lastOpen := fun n hn => ⟨committed_update hn (h.lastOpen n hn).1, (h.lastOpen n hn).2⟩ }

/-- Replacing the last undo file. -/
theorem Grown.setRev (h : Grown s s')
    (hf : (s'.rev s'.nLastBlockFile).Keeps f (s.infoAt s'.nLastBlockFile).nUndoSize) :
    Grown s { s' with rev := update s'.rev s'.nLastBlockFile f } :=
  { h with
    rev := keeps_update h.rev hf
    lastOpen := fun n hn => ⟨(h.lastOpen n hn).1, committed_update hn (h.lastOpen n hn).2⟩ }

/-- The place is at the end of the file, and the file grows by the size asked for. -/
theorem placeBlock_spec (hother : ∀ n, n ≠ nFile → s.CommittedAt n) (hbound : s.Bounded)
    (hroom : (s.infoAt nFile).nSize + nAddSize ≤ 2 ^ 31)
    (hrun : placeBlock disk nAddSize nHeight nTime nFile s = (found, s')) :
    Grown s s' ∧ s'.nLastBlockFile = nFile ∧
      (s'.infoAt nFile).nSize = (s.infoAt nFile).nSize + nAddSize ∧
      ∀ pos, found = some pos → pos = ⟨nFile, (s.infoAt nFile).nSize⟩ := by
  have hwrap : add32 (s.infoAt nFile).nSize nAddSize = (s.infoAt nFile).nSize + nAddSize :=
    add32_eq (by omega)
  rw [placeBlock, hwrap] at hrun
  set nNewSize := (s.infoAt nFile).nSize + nAddSize with hnew
  set s1 := s.extendFile nFile nHeight nTime nNewSize with hs1
  have hgrow : Grown s s1 := ⟨.extendFile (le_add_right _ _), hother, hbound.extendFile hroom⟩
  have hsize : (s1.infoAt nFile).nSize = nNewSize :=
    (Storage.nSize_extendFile s nFile nFile nHeight nTime _).trans (if_pos rfl)
  cases hpre : preallocate disk blockfileChunkSize (s.infoAt nFile).nSize nNewSize
      (s1.blk nFile) with
  | none =>
    rw [hpre] at hrun
    obtain ⟨rfl, rfl⟩ := mk.inj hrun
    exact ⟨hgrow, rfl, hsize, nofun⟩
  | some f =>
    rw [hpre] at hrun
    cases hrun
    exact ⟨{ hgrow.setBlk (keeps_preallocate hpre) with }, rfl, hsize,
      fun pos hpos => (some.inj hpos).symm⟩

/-- A place at the end of the last file, for a record of `nAddSize` bytes. -/
theorem findBlockPos_unknown (hopen : disk.Opens) (hstart : s.OnlyLastOpen) (hbound : s.Bounded)
    (hadd : nAddSize ≤ maxBlockfileSize)
    (hrun : findBlockPos disk none nAddSize nHeight nTime s = some (found, s')) :
    Grown s s' ∧ (s'.infoAt s'.nLastBlockFile).nSize =
        (s.infoAt s'.nLastBlockFile).nSize + nAddSize ∧
      ∀ pos, found = some pos →
        pos = ⟨s'.nLastBlockFile, (s.infoAt s'.nLastBlockFile).nSize⟩ := by
  have hmax : maxBlockfileSize = 0x8000000 := rfl
  rw [findBlockPos] at hrun
  cases hloop : leaveLoop disk nAddSize (s.vinfoBlockFile.length + 1) s.nLastBlockFile s with
  | none =>
    rw [hloop] at hrun
    cases hrun
  | some found1 =>
    obtain ⟨nFile, s1⟩ := found1
    simp only [hloop, some.injEq] at hrun
    obtain ⟨hstep, hinfo, hother, hroom⟩ := leaveLoop_spec hopen hstart (.inl rfl) hloop
    have hinfoAt : ∀ n, s1.infoAt n = s.infoAt n := by
      intro n
      rw [Storage.infoAt, hinfo, Storage.infoAt]
    have hwrap := hbound nFile
    rw [add32_eq (by omega)] at hroom
    obtain ⟨hgrow, rfl, hsize, hpos⟩ := placeBlock_spec hother
      (fun n => by rw [hinfoAt]; exact hbound n) (by rw [hinfoAt]; omega) hrun
    rw [hinfoAt] at hsize hpos
    exact ⟨{ hgrow with toFilesStep := hstep.trans hgrow.toFilesStep }, hsize, hpos⟩

/-- At a known position only the sizes change, and the last file. -/
theorem findBlockPos_known {pos : CDiskBlockPos} (hstart : s.OnlyLastOpen) (hbound : s.Bounded)
    (hpos : pos.nPos + nAddSize ≤ 2 ^ 31)
    (hfile : pos.nFile = s.nLastBlockFile ∨ s.CommittedAt s.nLastBlockFile)
    (hrun : findBlockPos disk (some pos) nAddSize nHeight nTime s = some (found, s')) :
    found = some pos ∧ Grown s s' ∧ s'.blk = s.blk ∧
      pos.nPos + nAddSize ≤ (s'.infoAt pos.nFile).nSize := by
  have hwrap : add32 pos.nPos nAddSize = pos.nPos + nAddSize := add32_eq (by omega)
  unfold findBlockPos at hrun
  dsimp only at hrun
  rw [hwrap] at hrun
  cases hrun
  refine ⟨rfl, ⟨{ FilesStep.extendFile (le_max_right _ _) with }, ?_, ?_⟩, rfl, ?_⟩
  · intro n hn
    by_cases hlast : n = s.nLastBlockFile
    · rcases hfile with heq | hcommitted
      · exact absurd (hlast.trans heq.symm) hn
      · exact hlast ▸ hcommitted
    · exact hstart n hlast
  · exact hbound.extendFile (Nat.max_le.mpr ⟨hpos, hbound pos.nFile⟩)
  · have hsize := Storage.nSize_extendFile s pos.nFile pos.nFile nHeight nTime
      (max (pos.nPos + nAddSize) (s.infoAt pos.nFile).nSize)
    rw [if_pos rfl] at hsize
    exact (le_max_left _ _).trans_eq hsize.symm

end Flush

/-! ## Records -/

section Records

variable {U : Type} (E : StorageEnv U) {s s' : Storage} {disk : DiskEnv} {e : CDiskBlockIndex}
variable {hash : Uint256}

theorem length_recordHeader (size : Nat) : (recordHeader E size).length = 8 := by
  rw [recordHeader, length_append, E.start.2, leBytes_length]

theorem length_undoData (hashBlock : Uint256) (u : U) :
    (undoData E hashBlock u).length = (E.serializeUndo u).length + 32 := by
  rw [undoData, length_append, leBytes_length]

theorem holds_record {pos : Nat} {b : Bytes} :
    Holds (f.write pos (recordHeader E size ++ b)).written (pos + 8) b := by
  have h := (holds_writeAt f.written pos (recordHeader E size ++ b)).of_append
  rwa [length_recordHeader] at h

/-- What a block at a position, new or known, needs so that a flush of the last file covers it:
the file that is left can be opened and flushed, or nothing in it is lost. -/
def StoreCovered (disk : DiskEnv) (block : CBlock) (dbp : Option CDiskBlockPos) (s : Storage) :
    Prop :=
  match dbp with
  | none => disk.Opens
  | some pos => (pos.nFile = s.nLastBlockFile ∨ s.CommittedAt s.nLastBlockFile) ∧
      pos.nPos + (block.bytes.length + 8) ≤ 2 ^ 31

/-- A known position is where the block was read. -/
def AtPosition (block : CBlock) (dbp : Option CDiskBlockPos) (s : Storage) : Prop :=
  ∀ pos, dbp = some pos → Holds (s.blk pos.nFile).written pos.nPos block.bytes

/-- The files grow, and either the block is in one of them and its entry says where, or nothing
else has happened. -/
theorem storeBlock_spec {block : CBlock} {dbp : Option CDiskBlockPos} {ok : Bool}
    (hstart : s.OnlyLastOpen) (hbound : s.Bounded) (hlen : block.bytes.length ≤ maxBlockSize)
    (hcovered : StoreCovered disk block dbp s) (hat : AtPosition block dbp s)
    (hrun : storeBlock E disk block dbp hash e s = some (ok, s')) :
    ∃ s1, Grown s s1 ∧
      (s' = s1 ∨ ∃ pos, s' = s1.setEntry hash (e.received pos) ∧
        Holds (s1.blk pos.nFile).written pos.nPos block.bytes ∧
        pos.nPos + block.bytes.length ≤ (s1.infoAt pos.nFile).nSize) := by
  have hmax : maxBlockSize = 5000000 := rfl
  have hfile : maxBlockfileSize = 0x8000000 := rfl
  have hadd : add32 (freeGetSerializeSize block.getSerializeSize).toNat 8 =
      block.bytes.length + 8 := by
    rw [CBlock.getSerializeSize, Writes.computedSize_eq, ← CBlock.bytes,
      freeGetSerializeSize_toNat (by omega), add32_eq (by omega)]
  rw [storeBlock, hadd] at hrun
  cases hfind : findBlockPos disk dbp (block.bytes.length + 8) e.nHeight.toUInt32.toNat
      block.nTime.toNat s with
  | none =>
    rw [hfind] at hrun
    cases hrun
  | some result =>
    obtain ⟨found, s1⟩ := result
    rw [hfind] at hrun
    cases dbp with
    | some pos =>
      obtain ⟨rfl, hgrow, hblk, hsize⟩ :=
        findBlockPos_known hstart hbound hcovered.2 hcovered.1 hfind
      cases hrun
      refine ⟨s1, hgrow, .inr ⟨pos, rfl, ?_, by omega⟩⟩
      rw [hblk]
      exact hat pos rfl
    | none =>
      obtain ⟨hgrow, hsize, hpos⟩ := findBlockPos_unknown hcovered hstart hbound (by omega) hfind
      cases found with
      | none =>
        cases hrun
        exact ⟨s', hgrow, .inl rfl⟩
      | some pos =>
        obtain rfl := hpos pos rfl
        simp only [writeUnlessKnown, isNone_none, if_true, writeBlockToDisk] at hrun
        cases hwrite : disk.write with
        | false =>
          rw [hwrite] at hrun
          cases hrun
          exact ⟨s', hgrow, .inl rfl⟩
        | true =>
          have hwrap := hbound s1.nLastBlockFile
          simp only [hwrite, if_true, some.injEq, mk.injEq, add32_eq
            (a := (s.infoAt s1.nLastBlockFile).nSize) (b := 8) (by omega)] at hrun
          obtain ⟨-, rfl⟩ := hrun
          refine ⟨_, hgrow.setBlk (DurableFile.keeps_write le_rfl _), .inr ⟨_, rfl, ?_, ?_⟩⟩
          · show Holds (update s1.blk s1.nLastBlockFile _ _).written _ _
            rw [update_self]
            exact holds_record E
          · show _ + 8 + block.bytes.length ≤ (s1.infoAt s1.nLastBlockFile).nSize
            omega

/-- What undo data needs so that a flush of the last file covers it. -/
def UndoCovered (hash : Uint256) (e : CDiskBlockIndex) (s : Storage) : Prop :=
  e.nFile = s.nLastBlockFile ∧
    (s.infoAt e.nFile).nUndoSize + ((E.serializeUndo (E.blockundo hash)).length + 40) < 2 ^ 32

theorem findUndoPos_spec {nAddSize : Nat} {found : Option CDiskBlockPos} (hstart : s.OnlyLastOpen)
    (hbound : s.Bounded) (hroom : (s.infoAt s.nLastBlockFile).nUndoSize + nAddSize < 2 ^ 32)
    (hrun : findUndoPos disk s.nLastBlockFile nAddSize s = (found, s')) :
    Grown s s' ∧ s'.nLastBlockFile = s.nLastBlockFile ∧
      (s'.infoAt s.nLastBlockFile).nUndoSize =
        (s.infoAt s.nLastBlockFile).nUndoSize + nAddSize ∧
      ∀ pos, found = some pos →
        pos = ⟨s.nLastBlockFile, (s.infoAt s.nLastBlockFile).nUndoSize⟩ := by
  set n := s.nLastBlockFile with hn
  set info : CBlockFileInfo :=
    { s.infoAt n with nUndoSize := (s.infoAt n).nUndoSize + nAddSize } with hinfo
  set s1 := (s.setInfo n info).markFileDirty n with hs1
  rw [findUndoPos, add32_eq hroom] at hrun
  have hinfoAt : ∀ m, s1.infoAt m = if m = n then info else s.infoAt m :=
    fun m => Storage.infoAt_setInfo s n m info
  have hsize : (s1.infoAt n).nUndoSize = (s.infoAt n).nUndoSize + nAddSize := by
    rw [hinfoAt, if_pos rfl]
  have hstep : FilesStep s (s.setInfo n info) := .setInfo le_rfl (le_add_right _ _)
  have hgrow : Grown s s1 := by
    refine ⟨{ hstep with }, hstart, fun m => ?_⟩
    rw [hinfoAt]
    split_ifs
    · exact hbound n
    · exact hbound m
  cases hpre : preallocate disk undofileChunkSize (s.infoAt n).nUndoSize
      ((s.infoAt n).nUndoSize + nAddSize) (s1.rev n) with
  | none =>
    simp only [← hinfo, ← hs1, hpre] at hrun
    obtain ⟨rfl, rfl⟩ := mk.inj hrun
    exact ⟨hgrow, rfl, hsize, nofun⟩
  | some f =>
    simp only [← hinfo, ← hs1, hpre] at hrun
    cases hrun
    exact ⟨hgrow.setRev (keeps_preallocate hpre), rfl, hsize, fun pos hpos => (some.inj hpos).symm⟩

/-- The files grow, and if the undo data is stored the entry says where. -/
theorem storeUndo_spec {hashPrev : Uint256} {result : Option CDiskBlockIndex}
    (hstart : s.OnlyLastOpen) (hbound : s.Bounded) (hundo : e.nStatus.haveUndo = false)
    (hcovered : UndoCovered E hash e s) (hrun : storeUndo E disk hash hashPrev e s = (result, s')) :
    Grown s s' ∧ ∀ e', result = some e' → ∃ nUndoPos,
        e' = { e with nUndoPos := nUndoPos, nStatus := { e.nStatus with haveUndo := true } } ∧
        Holds (s'.rev e.nFile).written nUndoPos (undoData E hashPrev (E.blockundo hash)) ∧
        nUndoPos + (undoData E hashPrev (E.blockundo hash)).length ≤
          (s'.infoAt e.nFile).nUndoSize := by
  obtain ⟨hfile, hroom⟩ := hcovered
  set size := (E.serializeUndo (E.blockundo hash)).length with hsizeDef
  have hadd : add32 (freeGetSerializeSize size).toNat 40 = size + 40 := by
    rw [freeGetSerializeSize_toNat (by omega), add32_eq (by omega)]
  simp only [storeUndo, hundo, false_eq_true, if_false, ← hsizeDef, hadd] at hrun
  rw [hfile] at hrun hroom
  cases hfind : findUndoPos disk s.nLastBlockFile (size + 40) s with
  | mk found s1 =>
    obtain ⟨hgrow, hlast, hsize, hpos⟩ := findUndoPos_spec hstart hbound hroom hfind
    rw [← hlast] at hfile hroom hsize hpos
    cases found with
    | none =>
      rw [hfind] at hrun
      cases hrun
      exact ⟨hgrow, nofun⟩
    | some pos =>
      obtain rfl := hpos pos rfl
      simp only [hfind, undoWriteToDisk] at hrun
      cases hwrite : disk.write with
      | false =>
        rw [hwrite] at hrun
        cases hrun
        exact ⟨hgrow, nofun⟩
      | true =>
        simp only [hwrite, if_true, mk.injEq, add32_eq
          (a := (s.infoAt s1.nLastBlockFile).nUndoSize) (b := 8) (by omega)] at hrun
        obtain ⟨rfl, rfl⟩ := hrun
        refine ⟨hgrow.setRev (DurableFile.keeps_write le_rfl _), fun e' he' => ?_⟩
        obtain rfl := some.inj he'
        refine ⟨(s.infoAt s1.nLastBlockFile).nUndoSize + 8, by rw [hfile, hlast], ?_, ?_⟩
        · show Holds (update s1.rev s1.nLastBlockFile _ e.nFile).written _ _
          rw [hfile, update_self]
          exact holds_record E
        · show _ ≤ (s1.infoAt e.nFile).nUndoSize
          rw [hfile, length_undoData]
          omega

end Records

end MonetaryUnit
