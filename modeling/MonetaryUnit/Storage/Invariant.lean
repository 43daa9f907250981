/-
# MonetaryUnit.Storage.Invariant — what is on the disk, and what the databases say about it

The invariant of the storage model: the index entries are right about the files, the databases
hold earlier states of them, and every block that the coin database builds on is on the disk.

It is kept in three moves, and no operation does anything else: the files grow (`FilesStep`), an
entry of the index is changed and marked dirty (`setEntry`), and the databases are written
(`DbWrite`). The coins are written last, when everything they build on has been.
-/

import MonetaryUnit.Storage.FileSteps

namespace MonetaryUnit

open Lib List Function CBlock

/-! ## Blocks above a block -/

/-- The elements on the way from `b` to `stop`, without `stop`. -/
inductive Above {α : Type} (stop : α) (next : α → Option α) : α → α → Prop
  | here {b : α} : b ≠ stop → Above stop next b b
  | prev {b p h : α} : b ≠ stop → next b = some p → Above stop next p h → Above stop next b h

/-- A change of `next` off the way changes nothing. -/
theorem Above.congr {α : Type} {stop : α} {next next' : α → Option α} {b h : α}
    (habove : Above stop next' b h) (heq : ∀ y, Above stop next b y → next' y = next y) :
    Above stop next b h := by
  induction habove with
  | here hne => exact .here hne
  | prev hne hnext _ ih =>
    rw [heq _ (.here hne)] at hnext
    exact .prev hne hnext (ih fun y hy => heq y (.prev hne hnext hy))

def pprevIn (index : Uint256 → Option CDiskBlockIndex) (hash : Uint256) : Option Uint256 :=
  (index hash).bind CDiskBlockIndex.pprev

/-! ## The invariant -/

/-- A later state of an entry: what it says about the files stays. -/
structure CDiskBlockIndex.Later (d e : CDiskBlockIndex) : Prop where
  pprev : e.pprev = d.pprev
  data : d.nStatus.haveData = true →
    e.nStatus.haveData = true ∧ e.nFile = d.nFile ∧ e.nDataPos = d.nDataPos
  undo : d.nStatus.haveUndo = true →
    e.nStatus.haveUndo = true ∧ e.nFile = d.nFile ∧ e.nUndoPos = d.nUndoPos

theorem CDiskBlockIndex.Later.refl (e : CDiskBlockIndex) : e.Later e :=
  ⟨rfl, fun h => ⟨h, rfl, rfl⟩, fun h => ⟨h, rfl, rfl⟩⟩

theorem CDiskBlockIndex.Later.trans {d e f : CDiskBlockIndex} (h : d.Later e) (h' : e.Later f) :
    d.Later f where
  pprev := h'.pprev.trans h.pprev
  data := fun hd => by
    obtain ⟨he, hfile, hpos⟩ := h.data hd
    obtain ⟨hf, hfile', hpos'⟩ := h'.data he
    exact ⟨hf, hfile'.trans hfile, hpos'.trans hpos⟩
  undo := fun hd => by
    obtain ⟨he, hfile, hpos⟩ := h.undo hd
    obtain ⟨hf, hfile', hpos'⟩ := h'.undo he
    exact ⟨hf, hfile'.trans hfile, hpos'.trans hpos⟩

theorem BlockStatus.raiseValidity_haveData (st : BlockStatus) (n : Nat) :
    (st.raiseValidity n).haveData = st.haveData := by
  unfold raiseValidity
  split_ifs <;> rfl

theorem BlockStatus.raiseValidity_haveUndo (st : BlockStatus) (n : Nat) :
    (st.raiseValidity n).haveUndo = st.haveUndo := by
  unfold raiseValidity
  split_ifs <;> rfl

section Env

variable {U : Type} (E : StorageEnv U) {s s' : Storage}

/-- A block with this hash that the reader accepts. -/
structure IsBlock (hash : Uint256) (block : CBlock) : Prop where
  fits : block.Fits
  hash_eq : E.block.getHash block.toCBlockHeader = hash
  pow : E.block.checkProofOfWork hash block.nBits = true

/-- The block is the genesis block or has undo data, so it has been connected. -/
def Connected (s : Storage) (hash : Uint256) : Prop :=
  hash = E.hashGenesisBlock ∨ ∃ e, s.mapBlockIndex hash = some e ∧ e.nStatus.haveUndo = true

/-- Bytes within the used size of a file. -/
structure InFile (f : DurableFile) (size pos : Nat) (b : Bytes) : Prop where
  holds : Holds f.written pos b
  size_le : pos + b.length ≤ size

/-- What an entry says about the files is so. -/
structure IndexEntryOk (s : Storage) (hash : Uint256) (e : CDiskBlockIndex) : Prop where
  data : e.nStatus.haveData = true → ∃ block, IsBlock E hash block ∧
    InFile (s.blk e.nFile) (s.infoAt e.nFile).nSize e.nDataPos block.bytes
  undo : e.nStatus.haveUndo = true → e.nStatus.haveData = true ∧
    ∃ hashPrev, e.pprev = some hashPrev ∧ Connected E s hashPrev ∧
      InFile (s.rev e.nFile) (s.infoAt e.nFile).nUndoSize e.nUndoPos
        (undoData E hashPrev (E.blockundo hash))

/-- A block whose data and undo data a crash leaves, and the database says where. -/
structure DurableAt (s : Storage) (hash : Uint256) (d : CDiskBlockIndex) : Prop where
  index : s.dbBlockIndex hash = some d
  haveData : d.nStatus.haveData = true
  haveUndo : d.nStatus.haveUndo = true
  data : ∃ block, IsBlock E hash block ∧
    InFile (s.blk d.nFile) (s.infoAt d.nFile).nSize d.nDataPos block.bytes ∧
    Holds (s.blk d.nFile).durable d.nDataPos block.bytes
  undo : ∃ hashPrev, d.pprev = some hashPrev ∧
    InFile (s.rev d.nFile) (s.infoAt d.nFile).nUndoSize d.nUndoPos
      (undoData E hashPrev (E.blockundo hash)) ∧
    Holds (s.rev d.nFile).durable d.nUndoPos (undoData E hashPrev (E.blockundo hash))

structure StorageInv (s : Storage) : Prop where
  lastOpen : s.OnlyLastOpen
  bounded : s.Bounded
  entries : ∀ {hash e}, s.mapBlockIndex hash = some e → IndexEntryOk E s hash e
  clean : ∀ {hash e}, s.mapBlockIndex hash = some e →
    hash ∈ s.setDirtyBlockIndex ∨ s.dbBlockIndex hash = some e
  older : ∀ {hash d}, s.dbBlockIndex hash = some d → ∃ e, s.mapBlockIndex hash = some e ∧ d.Later e
  best : ∀ {b}, s.coinsBest = some b → Connected E s b
  durable : ∀ {b hash}, s.dbBestBlock = some b →
    Above E.hashGenesisBlock (pprevIn s.dbBlockIndex) b hash → ∃ d, DurableAt E s hash d

/-! ## The first move: files grow -/

variable {E}

theorem InFile.keeps {f f' : DurableFile} {size size' pos : Nat} {b : Bytes}
    (h : InFile f size pos b) (hkeeps : f.Keeps f' size) (hsize : size ≤ size') :
    InFile f' size' pos b :=
  ⟨hkeeps.written h.size_le h.holds, h.size_le.trans hsize⟩

variable {hash hash' : Uint256} {e : CDiskBlockIndex} {ok : Bool} {block : CBlock} {now : Int}
variable {ws : List DbWrite} {contextual : Except Reject Unit} {disk : DiskEnv}
variable {dbp : Option CDiskBlockPos} {env : ConnectTipEnv} {pblock : Option CBlock}

theorem Connected.of_index (h : Connected E s hash) (hindex : s'.mapBlockIndex = s.mapBlockIndex) :
    Connected E s' hash := by
  rcases h with h | ⟨e, he, hundo⟩
  · exact .inl h
  · exact .inr ⟨e, by rw [hindex]; exact he, hundo⟩

theorem IndexEntryOk.files (h : IndexEntryOk E s hash e) (hstep : FilesStep s s') :
    IndexEntryOk E s' hash e where
  data := fun hd => by
    obtain ⟨block, hblock, hin⟩ := h.data hd
    exact ⟨block, hblock, hin.keeps (hstep.blk _) (hstep.nSize _)⟩
  undo := fun hu => by
    obtain ⟨hdata, hashPrev, hprev, hconn, hin⟩ := h.undo hu
    exact ⟨hdata, hashPrev, hprev, hconn.of_index hstep.index,
      hin.keeps (hstep.rev _) (hstep.nUndoSize _)⟩

theorem DurableAt.files {d : CDiskBlockIndex} (h : DurableAt E s hash d) (hstep : FilesStep s s') :
    DurableAt E s' hash d where
  index := by rw [hstep.dbIndex]; exact h.index
  haveData := h.haveData
  haveUndo := h.haveUndo
  data := by
    obtain ⟨block, hblock, hin, hdur⟩ := h.data
    exact ⟨block, hblock, hin.keeps (hstep.blk _) (hstep.nSize _),
      (hstep.blk _).durable hin.size_le hin.holds hdur⟩
  undo := by
    obtain ⟨hashPrev, hprev, hin, hdur⟩ := h.undo
    exact ⟨hashPrev, hprev, hin.keeps (hstep.rev _) (hstep.nUndoSize _),
      (hstep.rev _).durable hin.size_le hin.holds hdur⟩

theorem StorageInv.files (h : StorageInv E s) (hstep : Grown s s') : StorageInv E s' where
  lastOpen := hstep.lastOpen
  bounded := hstep.bounded
  entries := fun he => (h.entries (by rwa [hstep.index] at he)).files hstep.toFilesStep
  clean := by simpa only [hstep.index, hstep.dirty, hstep.dbIndex] using @h.clean
  older := by simpa only [hstep.index, hstep.dbIndex] using @h.older
  best := fun hb => (h.best (by rwa [hstep.best] at hb)).of_index hstep.index
  durable := by
    rw [hstep.dbBest, hstep.dbIndex]
    intro b hash hb habove
    obtain ⟨d, hd⟩ := h.durable hb habove
    exact ⟨d, hd.files hstep.toFilesStep⟩

/-! ## The second move: an entry changes -/

theorem setEntry_index_self (s : Storage) (hash : Uint256) (e : CDiskBlockIndex) :
    (s.setEntry hash e).mapBlockIndex hash = some e := update_self _ _ _

theorem setEntry_index_other (hne : hash' ≠ hash) (s : Storage) (e : CDiskBlockIndex) :
    (s.setEntry hash e).mapBlockIndex hash' = s.mapBlockIndex hash' :=
  update_of_ne hne _ _

/-- The entry is new or a later state of the one before. -/
def Storage.Updates (s : Storage) (hash : Uint256) (e : CDiskBlockIndex) : Prop :=
  ∀ e0, s.mapBlockIndex hash = some e0 → e0.Later e

theorem updates_of_later {e' : CDiskBlockIndex} (he : s.mapBlockIndex hash = some e)
    (hlater : e.Later e') : s.Updates hash e' := by
  intro e0 he0
  obtain rfl := Option.some.inj (he.symm.trans he0)
  exact hlater

theorem Connected.setEntry (h : Connected E s hash') (hupd : s.Updates hash e) :
    Connected E (s.setEntry hash e) hash' := by
  rcases h with h | ⟨e0, he0, hundo⟩
  · exact .inl h
  · right
    by_cases heq : hash' = hash
    · subst heq
      exact ⟨e, setEntry_index_self _ _ _, ((hupd e0 he0).undo hundo).1⟩
    · exact ⟨e0, by rw [setEntry_index_other heq]; exact he0, hundo⟩

theorem IndexEntryOk.setEntry {e' : CDiskBlockIndex} (h : IndexEntryOk E s hash' e')
    (hupd : s.Updates hash e) : IndexEntryOk E (s.setEntry hash e) hash' e' where
  data := h.data
  undo := fun hu => by
    obtain ⟨hdata, hashPrev, hprev, hconn, hin⟩ := h.undo hu
    exact ⟨hdata, hashPrev, hprev, hconn.setEntry hupd, hin⟩

section

variable (h : StorageInv E s)
include h

theorem StorageInv.setEntry (hupd : s.Updates hash e) (hok : IndexEntryOk E s hash e) :
    StorageInv E (s.setEntry hash e) where
  lastOpen := h.lastOpen
  bounded := h.bounded
  entries := by
    intro hash' e' he'
    by_cases heq : hash' = hash
    · subst heq
      rw [setEntry_index_self] at he'
      obtain rfl := Option.some.inj he'
      exact hok.setEntry hupd
    · rw [setEntry_index_other heq] at he'
      exact (h.entries he').setEntry hupd
  clean := by
    intro hash' e' he'
    by_cases heq : hash' = hash
    · exact .inl (heq ▸ mem_insert_self)
    · rw [setEntry_index_other heq] at he'
      exact (h.clean he').imp_left mem_insert_of_mem
  older := by
    intro hash' d hd
    obtain ⟨e0, he0, hlater⟩ := h.older hd
    by_cases heq : hash' = hash
    · subst heq
      exact ⟨e, setEntry_index_self _ _ _, hlater.trans (hupd e0 he0)⟩
    · exact ⟨e0, by rw [setEntry_index_other heq]; exact he0, hlater⟩
  best := fun hb => (h.best hb).setEntry hupd
  durable := fun hb habove => by
    obtain ⟨d, hd⟩ := h.durable hb habove
    exact ⟨d, { hd with }⟩

/-! ## The third move: the databases are written -/

/-- An entry goes to the database. -/
theorem StorageInv.writeIndex (hash : Uint256) :
    StorageInv E (DbWrite.apply s (.blockIndex hash)) := by
  set s1 := DbWrite.apply s (.blockIndex hash) with hs1
  have hself : s1.dbBlockIndex hash = s.mapBlockIndex hash := update_self _ _ _
  have hother : ∀ {hash'}, hash' ≠ hash → s1.dbBlockIndex hash' = s.dbBlockIndex hash' :=
    fun hne => update_of_ne hne _ _
  refine ⟨h.lastOpen, h.bounded, fun he => ⟨(h.entries he).data, (h.entries he).undo⟩, ?_, ?_,
    h.best, ?_⟩
  · intro hash' e he
    by_cases heq : hash' = hash
    · subst heq
      exact .inr (hself.trans he)
    · exact (h.clean he).imp (mem_erase_of_ne heq).mpr (hother heq).trans
  · intro hash' d hd
    by_cases heq : hash' = hash
    · subst heq
      exact ⟨d, hself.symm.trans hd, .refl d⟩
    · exact h.older ((hother heq).symm.trans hd)
  · intro b hash' hb habove
    -- what is written is a later state of what was there, with the same predecessor
    have hold : Above E.hashGenesisBlock (pprevIn s.dbBlockIndex) b hash' := by
      apply habove.congr
      intro y hy
      obtain ⟨d, hd⟩ := h.durable hb hy
      by_cases heq : y = hash
      · subst heq
        obtain ⟨e, he, hlater⟩ := h.older hd.index
        rw [pprevIn, pprevIn, hself, he, hd.index]
        exact hlater.pprev
      · rw [pprevIn, pprevIn, hother heq]
    obtain ⟨d, hd⟩ := h.durable hb hold
    by_cases heq : hash' = hash
    · subst heq
      obtain ⟨e, he, hlater⟩ := h.older hd.index
      obtain ⟨hdata, hfile, hpos⟩ := hlater.data hd.haveData
      obtain ⟨hundo, -, hundoPos⟩ := hlater.undo hd.haveUndo
      refine ⟨e, hself.trans he, hdata, hundo, ?_, ?_⟩
      · rw [hfile, hpos]
        exact hd.data
      · rw [hfile, hundoPos, hlater.pprev]
        exact hd.undo
    · exact ⟨d, { hd with index := (hother heq).trans hd.index }⟩

theorem StorageInv.writeTree {w : DbWrite} (hw : w ≠ .coins) :
    StorageInv E (DbWrite.apply s w) := by
  cases w with
  | blockIndex hash => exact h.writeIndex hash
  | coins => exact absurd rfl hw
  | _ => exact h.files ⟨{ FilesStep.refl s with }, h.lastOpen, h.bounded⟩

/-- Everything is on the disk: the coins may follow. -/
theorem StorageInv.writeCoins (hcommitted : ∀ n, s.CommittedAt n)
    (hsync : ∀ hash e, s.mapBlockIndex hash = some e → s.dbBlockIndex hash = some e) :
    StorageInv E (DbWrite.apply s .coins) := by
  refine ⟨h.lastOpen, h.bounded, fun he => ?_, h.clean, h.older, h.best, ?_⟩
  · exact ⟨(h.entries he).data, (h.entries he).undo⟩
  intro b hash hb habove
  have hconn : Connected E s b := h.best hb
  clear hb
  induction habove with
  | here hne =>
    rcases hconn with heq | ⟨e, he, hundo⟩
    · exact absurd heq hne
    obtain ⟨hdata, hashPrev, hprev, -, hin⟩ := (h.entries he).undo hundo
    obtain ⟨block, hblock, hinBlk⟩ := (h.entries he).data hdata
    refine ⟨e, hsync _ e he, hdata, hundo, ⟨block, hblock, hinBlk, ?_⟩, hashPrev, hprev, hin, ?_⟩
    · show Holds (s.blk e.nFile).durable _ _
      rw [(hcommitted e.nFile).1]
      exact hinBlk.holds
    · show Holds (s.rev e.nFile).durable _ _
      rw [(hcommitted e.nFile).2]
      exact hin.holds
  | @prev b p _ hne hnext _ ih =>
    rcases hconn with heq | ⟨e, he, hundo⟩
    · exact absurd heq hne
    · obtain ⟨-, hashPrev, hprev, hconnPrev, -⟩ := (h.entries he).undo hundo
      have hnext' : pprevIn s.dbBlockIndex b = some p := hnext
      rw [pprevIn, hsync _ e he, Option.bind_some, hprev] at hnext'
      obtain rfl := Option.some.inj hnext'
      exact ih hconnPrev

end

/-! ## Flushing -/

/-- What database writes leave alone. -/
theorem foldl_apply_frame (ws : List DbWrite) (s : Storage) :
    (ws.foldl DbWrite.apply s).mapBlockIndex = s.mapBlockIndex ∧
    (ws.foldl DbWrite.apply s).blk = s.blk ∧ (ws.foldl DbWrite.apply s).rev = s.rev ∧
    (ws.foldl DbWrite.apply s).coinsBest = s.coinsBest := by
  induction ws generalizing s with
  | nil => exact ⟨rfl, rfl, rfl, rfl⟩
  | cons w ws ih =>
    obtain ⟨hindex, hblk, hrev, hbest⟩ := ih (DbWrite.apply s w)
    rw [foldl_cons, hindex, hblk, hrev, hbest]
    cases w <;> exact ⟨rfl, rfl, rfl, rfl⟩

/-- An entry that is written, or was up to date, is up to date. -/
theorem foldl_apply_dbIndex
    (h : s.dbBlockIndex hash = s.mapBlockIndex hash ∨ .blockIndex hash ∈ ws) :
    (ws.foldl DbWrite.apply s).dbBlockIndex hash = s.mapBlockIndex hash := by
  induction ws generalizing s with
  | nil =>
    rcases h with h | h
    · exact h
    · exact absurd h not_mem_nil
  | cons w ws ih =>
    have hindex : (DbWrite.apply s w).mapBlockIndex = s.mapBlockIndex := by
      cases w <;> rfl
    rw [← hindex]
    apply ih
    rw [hindex]
    cases w with
    | blockIndex hash' =>
      by_cases heq : hash = hash'
      · subst heq
        exact .inl (update_self _ _ _)
      · have hdb : (DbWrite.apply s (.blockIndex hash')).dbBlockIndex hash =
            s.dbBlockIndex hash := update_of_ne heq _ _
        rw [hdb]
        simpa [heq] using h
    | _ => simpa [DbWrite.apply] using h

theorem treeWrites_ne_coins {s : Storage} : ∀ w ∈ treeWrites s, w ≠ .coins := by
  rintro w hw rfl
  simp only [treeWrites, mem_append, mem_map] at hw
  rcases hw with (⟨n, -, hn⟩ | hlast) | ⟨hash, -, hhash⟩
  · cases hn
  · split_ifs at hlast
    · cases hlast
    · cases mem_singleton.mp hlast
  · cases hhash

section

variable (h : StorageInv E s)
include h

theorem StorageInv.writeTrees (hws : ∀ w ∈ ws, w ≠ .coins) :
    StorageInv E (ws.foldl DbWrite.apply s) := by
  induction ws generalizing s with
  | nil => exact h
  | cons w ws ih =>
    exact ih (h.writeTree (hws w mem_cons_self)) fun w' hw' =>
      hws w' (mem_cons_of_mem _ hw')

/-- All writes of a flush, after the last file is committed. -/
theorem StorageInv.writeAll (hcommitted : ∀ n, s.CommittedAt n) :
    StorageInv E ((flushWrites s).foldl DbWrite.apply s) := by
  rw [flushWrites, foldl_append]
  obtain ⟨hindex, hblk, hrev, -⟩ := foldl_apply_frame (treeWrites s) s
  refine (h.writeTrees treeWrites_ne_coins).writeCoins ?_ ?_
  · intro n
    rw [Storage.CommittedAt, hblk, hrev]
    exact hcommitted n
  · intro hash e he
    rw [hindex] at he
    rw [foldl_apply_dbIndex, he]
    rcases h.clean he with hdirty | hdb
    · exact .inr (mem_append_right _ (mem_map_of_mem hdirty))
    · exact .inl (hdb.trans he.symm)

theorem flushStateToDisk_inv {mode : FlushStateMode} {env : FlushEnv} (hopen : env.disk.Opens)
    (hrun : flushStateToDisk mode env s = (ok, s')) :
    StorageInv E s' ∧
      (ok = true → flushDue mode env = true → s'.dbBestBlock = s.coinsBest) := by
  unfold flushStateToDisk at hrun
  cases hdue : flushDue mode env with
  | false =>
    rw [hdue] at hrun
    cases hrun
    exact ⟨h, nofun⟩
  | true =>
    cases hspace : env.disk.space with
    | false =>
      rw [hdue, hspace] at hrun
      cases hrun
      exact ⟨h, nofun⟩
    | true =>
      simp only [hdue, hspace, if_true, Prod.mk.injEq] at hrun
      obtain ⟨hok, rfl⟩ := hrun
      set s1 := flushBlockFile env.disk false s with hs1
      have hcommitted : ∀ n, s1.CommittedAt n := flushBlockFile_committed hopen false h.lastOpen
      have hinv : StorageInv E s1 :=
        h.files ⟨flushBlockFile_filesStep env.disk false s, fun n _ => hcommitted n, h.bounded⟩
      refine ⟨?_, ?_⟩
      · by_cases hall : (flushWrites s1).length ≤ env.dbWrites
        · rw [take_of_length_le hall]
          exact hinv.writeAll hcommitted
        · apply hinv.writeTrees
          rw [flushWrites, length_append, length_singleton] at hall
          rw [flushWrites, take_append_of_le_length (by omega)]
          exact fun w hw => treeWrites_ne_coins w (mem_of_mem_take hw)
      · rintro rfl -
        rw [decide_eq_true_eq] at hok
        rw [take_of_length_le hok, flushWrites, foldl_append]
        exact (foldl_apply_frame (treeWrites s1) s1).2.2.2

/-! ## The operations -/

theorem StorageInv.setBest {best : Option Uint256} (hbest : ∀ b, best = some b → Connected E s b)
    (tip : Option Uint256) : StorageInv E { s with coinsBest := best, tip := tip } := by
  refine ⟨h.lastOpen, h.bounded, fun he => ?_, h.clean, h.older, fun hb => ?_, fun hb ha => ?_⟩
  · exact ⟨(h.entries he).data, (h.entries he).undo⟩
  · exact (hbest _ hb).of_index rfl
  · obtain ⟨d, hd⟩ := h.durable hb ha
    exact ⟨d, { hd with }⟩

theorem StorageInv.blockFailed (he : s.mapBlockIndex hash = some e) (r : Reject) :
    StorageInv E (blockFailed hash e r s) := by
  unfold MonetaryUnit.blockFailed
  split_ifs
  · exact h
  · refine h.setEntry (updates_of_later he ?_) ⟨(h.entries he).data, (h.entries he).undo⟩
    exact ⟨rfl, fun hd => ⟨hd, rfl, rfl⟩, fun hu => ⟨hu, rfl, rfl⟩⟩

end

/-- A header adds an entry without data, or nothing. -/
theorem acceptBlockHeader_cases {block : CBlockHeader}
    (hrun : acceptBlockHeader E now contextual block s = (ok, s')) :
    s' = s ∨ ∃ e : CDiskBlockIndex, s' = s.setEntry (E.block.getHash block) e ∧
      s.mapBlockIndex (E.block.getHash block) = none ∧
      e.nStatus.haveData = false ∧ e.nStatus.haveUndo = false := by
  unfold acceptBlockHeader at hrun
  split at hrun
  · cases hrun
    exact .inl rfl
  rename_i hnone
  split_ifs at hrun
  · cases hrun
    unfold addToBlockIndex
    right
    cases s.mapBlockIndex block.hashPrevBlock with
    | none => exact ⟨_, rfl, hnone, rfl, rfl⟩
    | some prev => exact ⟨_, rfl, hnone, rfl, rfl⟩
  · cases hrun
    exact .inl rfl

theorem acceptBlockHeader_inv {block : CBlockHeader} (h : StorageInv E s)
    (hrun : acceptBlockHeader E now contextual block s = (ok, s')) : StorageInv E s' := by
  rcases acceptBlockHeader_cases hrun with rfl | ⟨e, rfl, hnone, hdata, hundo⟩
  · exact h
  · refine h.setEntry (fun e0 he0 => ?_) ⟨fun hd => ?_, fun hu => ?_⟩
    · rw [hnone] at he0
      cases he0
    · rw [hdata] at hd
      cases hd
    · rw [hundo] at hu
      cases hu

/-- A block that has just been read or received. -/
def ArrivedAt (block : CBlock) (dbp : Option CDiskBlockPos) (s : Storage) : Prop :=
  block.Fits ∧ block.bytes.length < 2 ^ 32 ∧ AtPosition block dbp s

theorem sizeLimitsOk_length (h : sizeLimitsOk block = true) (hlen : block.bytes.length < 2 ^ 32) :
    block.bytes.length ≤ maxBlockSize := by
  simp only [sizeLimitsOk, Bool.and_eq_true, decide_eq_true_eq] at h
  have hsize := h.2
  rwa [getSerializeSize, Writes.computedSize_eq, ← bytes, freeGetSerializeSize_toNat hlen] at hsize

section

variable (h : StorageInv E s)
include h

theorem storeBlock_inv (he : s.mapBlockIndex hash = some e) (hdata : e.nStatus.haveData = false)
    (hblock : IsBlock E hash block) (hlen : block.bytes.length ≤ maxBlockSize)
    (hcovered : StoreCovered disk block dbp s) (hat : AtPosition block dbp s)
    (hrun : storeBlock E disk block dbp hash e s = some (ok, s')) : StorageInv E s' := by
  obtain ⟨s1, hstep, rfl | ⟨pos, rfl, hholds, hsize⟩⟩ :=
    storeBlock_spec E h.lastOpen h.bounded hlen hcovered hat hrun
  · exact h.files hstep
  have hundo : e.nStatus.haveUndo = false := by
    cases hu : e.nStatus.haveUndo with
    | false => rfl
    | true => exact absurd (((h.entries he).undo hu).1.symm.trans hdata) (by decide)
  have hundo' : (e.received pos).nStatus.haveUndo = false := by
    show (BlockStatus.raiseValidity _ _).haveUndo = false
    rw [BlockStatus.raiseValidity_haveUndo]
    exact hundo
  rw [← hstep.index] at he
  refine (h.files hstep).setEntry (updates_of_later he ?_)
    ⟨fun _ => ⟨block, hblock, hholds, hsize⟩, ?_⟩
  · refine ⟨rfl, fun hd => ?_, fun hu => ?_⟩
    · exact absurd (hd.symm.trans hdata) (by decide)
    · exact absurd (hu.symm.trans hundo) (by decide)
  · intro hu
    exact absurd (hu.symm.trans hundo') (by decide)

theorem acceptBlock_inv {env : AcceptEnv} (harrived : ArrivedAt block dbp s)
    (hcovered : StoreCovered env.disk block dbp s)
    (hrun : acceptBlock E env block dbp s = some (ok, s')) : StorageInv E s' := by
  obtain ⟨hfits, hlen, hat⟩ := harrived
  unfold acceptBlock at hrun
  cases hheader : acceptBlockHeader E env.now env.contextualHeader block.toCBlockHeader s with
  | mk known s1 =>
    have hinv := acceptBlockHeader_inv h hheader
    have hfiles : AtPosition block dbp s1 ∧ StoreCovered env.disk block dbp s1 := by
      rcases acceptBlockHeader_cases hheader with rfl | ⟨e, rfl, -⟩
      · exact ⟨hat, hcovered⟩
      · exact ⟨hat, hcovered⟩
    rw [hheader] at hrun
    cases known with
    | false =>
      cases hrun
      exact hinv
    | true =>
      dsimp only at hrun
      split at hrun
      · cases hrun
      rename_i e he
      split_ifs at hrun with hdata
      · cases hrun
        exact hinv
      split at hrun
      · cases hrun
        exact hinv.blockFailed he _
      · rename_i hcheck
        obtain ⟨_, hcheck, -⟩ := bind_eq_ok.mp hcheck
        have hpow := checkBlock_proofOfWork hcheck
        have hsize := sizeLimitsOk_length (checkBlock_sizeLimitsOk hcheck) hlen
        exact storeBlock_inv hinv he (by simpa using hdata) ⟨hfits, rfl, hpow⟩ hsize
          hfiles.2 hfiles.1 hrun

/-- Once its undo data is recorded, the block is connected. -/
theorem recordUndo_inv {hashPrev : Uint256} (he : s.mapBlockIndex hash = some e)
    (hdata : e.nStatus.haveData = true) (hprev : e.pprev = some hashPrev)
    (hconn : Connected E s hashPrev)
    (hcovered : e.nStatus.haveUndo = false → UndoCovered E hash e s)
    (hrun : recordUndo E disk hash hashPrev e s = (ok, s')) :
    StorageInv E s' ∧ (ok = true → Connected E s' hash) := by
  unfold recordUndo at hrun
  cases hundo : e.nStatus.haveUndo with
  | true =>
    have hentry := h.entries he
    simp only [hundo, storeUndo, if_true] at hrun
    split_ifs at hrun
    · cases hrun
      have hupd : s.Updates hash e.connected := by
        refine updates_of_later he ⟨rfl, fun hd => ⟨?_, rfl, rfl⟩, fun hu => ⟨?_, rfl, rfl⟩⟩
        · exact (BlockStatus.raiseValidity_haveData _ _).trans hd
        · exact (BlockStatus.raiseValidity_haveUndo _ _).trans hu
      refine ⟨h.setEntry hupd ⟨fun _ => hentry.data hdata, fun _ => ?_⟩, fun _ => ?_⟩
      · obtain ⟨-, hrest⟩ := hentry.undo hundo
        exact ⟨(BlockStatus.raiseValidity_haveData _ _).trans hdata, hrest⟩
      · exact .inr ⟨_, setEntry_index_self _ _ _,
          (BlockStatus.raiseValidity_haveUndo _ _).trans hundo⟩
    · cases hrun
      exact ⟨h, fun _ => .inr ⟨e, he, hundo⟩⟩
  | false =>
    simp only [hundo, Bool.not_false, Bool.true_or, if_true] at hrun
    cases hstore : storeUndo E disk hash hashPrev e s with
    | mk result s1 =>
      obtain ⟨hstep, hresult⟩ :=
        storeUndo_spec E h.lastOpen h.bounded hundo (hcovered hundo) hstore
      have hinv := h.files hstep
      rw [hstore] at hrun
      cases result with
      | none =>
        cases hrun
        exact ⟨hinv, fun hok => absurd hok (by decide)⟩
      | some e' =>
        cases hrun
        obtain ⟨nUndoPos, rfl, hholds, hsize⟩ := hresult e' rfl
        have he1 : s1.mapBlockIndex hash = some e := by rw [hstep.index]; exact he
        refine ⟨hinv.setEntry (updates_of_later he1 ?_)
          ⟨fun _ => (hinv.entries he1).data hdata, fun _ => ?_⟩, fun _ => ?_⟩
        · refine ⟨rfl, fun hd => ⟨?_, rfl, rfl⟩, fun hu => ?_⟩
          · exact (BlockStatus.raiseValidity_haveData _ _).trans hd
          · exact absurd (hu.symm.trans hundo) (by decide)
        · exact ⟨(BlockStatus.raiseValidity_haveData _ _).trans hdata, hashPrev, hprev,
            hconn.of_index hstep.index, hholds, hsize⟩
        · exact .inr ⟨_, setEntry_index_self _ _ _, BlockStatus.raiseValidity_haveUndo _ _⟩

/-- What a connection needs so that flushes of the last file cover its undo data. -/
def ConnectCovered (E : StorageEnv U) (hash : Uint256) (s : Storage) : Prop :=
  ∀ e, s.mapBlockIndex hash = some e → e.nStatus.haveUndo = false → hash ≠ E.hashGenesisBlock →
    UndoCovered E hash e s

theorem connectBlockTo_inv {result : ConnectResult} (he : s.mapBlockIndex hash = some e)
    (hdata : e.nStatus.haveData = true) (hhash : E.block.getHash block.toCBlockHeader = hash)
    (hcovered : ConnectCovered E hash s)
    (hrun : connectBlockTo E env block hash e s = some (result, s')) :
    StorageInv E s' ∧ (∀ r, result = .invalid r → s' = s) ∧
      (result = .ok → Connected E s' hash) := by
  unfold connectBlockTo at hrun
  split at hrun
  · cases hrun
    exact ⟨h, fun _ _ => rfl, nofun⟩
  split_ifs at hrun with hbest hgenesis
  · cases hrun
    exact ⟨h, fun _ _ => rfl, fun _ => .inl (hhash.symm.trans hgenesis)⟩
  split at hrun
  · cases hrun
    exact ⟨h, fun _ _ => rfl, nofun⟩
  split at hrun
  · cases hrun
  rename_i hashPrev hprev
  have hconn : Connected E s hashPrev := h.best (hbest.symm.trans hprev)
  rw [hhash] at hgenesis
  cases hrecord : recordUndo E env.disk hash hashPrev e s with
  | mk ok s1 =>
    obtain ⟨hinv, hok⟩ := recordUndo_inv h he hdata hprev hconn
      (fun hundo => hcovered e he hundo hgenesis) hrecord
    rw [hrecord] at hrun
    cases ok with
    | false =>
      cases hrun
      exact ⟨hinv, nofun, nofun⟩
    | true =>
      cases hrun
      exact ⟨hinv, nofun, fun _ => hok rfl⟩

end

theorem readIndexedBlock_hash {file : Nat → Bytes}
    (h : readIndexedBlock E file hash e = some block) :
    E.block.getHash block.toCBlockHeader = hash := by
  unfold readIndexedBlock at h
  split_ifs at h
  split at h
  · cases h
  · split_ifs at h with heq
    cases h
    exact heq

theorem blockToConnect_hash (h : blockToConnect E pblock hash e s = some block) :
    E.block.getHash block.toCBlockHeader = hash := by
  unfold blockToConnect at h
  split at h
  · split_ifs at h with heq
    · cases h
      exact heq
    · exact readIndexedBlock_hash h
  · exact readIndexedBlock_hash h

theorem connectTip_inv (h : StorageInv E s) (hopen : env.flush.disk.Opens)
    (hcovered : ConnectCovered E hash s) (hrun : connectTip E env hash pblock s = some (ok, s')) :
    StorageInv E s' := by
  unfold connectTip at hrun
  split at hrun
  · cases hrun
  rename_i e he
  split_ifs at hrun with hready
  split at hrun
  · cases hrun
    exact h
  rename_i block hblock
  split at hrun
  · cases hrun
  · rename_i r s1 hconnect
    obtain ⟨hinv, hsame, -⟩ := connectBlockTo_inv h he hready.1
      (blockToConnect_hash hblock) hcovered hconnect
    cases hrun
    obtain rfl := hsame r rfl
    exact hinv.blockFailed he r
  · rename_i s1 hconnect
    cases hrun
    exact (connectBlockTo_inv h he hready.1 (blockToConnect_hash hblock) hcovered hconnect).1
  · rename_i s1 hconnect
    obtain ⟨hinv, -, hok⟩ := connectBlockTo_inv h he hready.1
      (blockToConnect_hash hblock) hcovered hconnect
    have hset : StorageInv E { s1 with coinsBest := some hash } :=
      hinv.setBest (fun b hb => Option.some.inj hb ▸ hok rfl) s1.tip
    split at hrun
    · rename_i s2 hflush
      cases hrun
      exact (flushStateToDisk_inv hset hopen hflush).1
    · rename_i s2 hflush
      cases hrun
      have hinv2 := (flushStateToDisk_inv hset hopen hflush).1
      exact hinv2.setBest (fun b hb => hinv2.best hb) (some hash)

theorem disconnectTip_inv {env : DisconnectTipEnv} (h : StorageInv E s)
    (hopen : env.flush.disk.Opens) (hrun : disconnectTip E env s = some (ok, s')) :
    StorageInv E s' := by
  unfold disconnectTip at hrun
  split at hrun
  · cases hrun
  split at hrun
  · cases hrun
  rename_i e he
  split at hrun
  · cases hrun
    exact h
  split_ifs at hrun with hbest hclean
  · split at hrun
    · cases hrun
      exact h
    rename_i u hread
    have hundo : e.nStatus.haveUndo = true := by
      by_contra hno
      rw [readIndexedUndo, if_neg hno] at hread
      cases hread
    obtain ⟨-, hashPrev, hprev, hconn, -⟩ := (h.entries he).undo hundo
    have hset : StorageInv E { s with coinsBest := e.pprev } := by
      refine h.setBest (fun b hb => ?_) s.tip
      obtain rfl := Option.some.inj (hprev.symm.trans hb)
      exact hconn
    split at hrun
    · rename_i s2 hflush
      cases hrun
      exact (flushStateToDisk_inv hset hopen hflush).1
    · rename_i s2 hflush
      cases hrun
      have hinv2 := (flushStateToDisk_inv hset hopen hflush).1
      exact hinv2.setBest (fun b hb => hinv2.best hb) e.pprev
  · split at hrun
    · cases hrun
      exact h
    · cases hrun
      exact h

end Env

end MonetaryUnit
