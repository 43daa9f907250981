/-
# MonetaryUnit.Storage.Durability — what a crash leaves of the chain

The coin database names a best block. After a crash every block from height 1 up to it must be in
the block tree database, and its data and undo data must be on the disk (`Recoverable`).

`FlushStateToDisk` commits only the last block file and its undo file. That is enough as long as
nothing is written to the files before it: `recoverable_along_runs` has the conditions, and
`undo_behind_lost` is a run in which a block that was stored in an earlier file is connected, and
whose undo data is not on the disk when the coin database already builds on it.
-/

import MonetaryUnit.Serialize.Identity
import MonetaryUnit.Storage.Invariant

namespace MonetaryUnit

open Lib List Writes Option Storage

section Env

variable {U : Type} {E : StorageEnv U} {s s' : Storage} {file : Bytes} {pos : Nat}
variable {ops : List StorageOp}

/-! ## Runs -/

/-- What the callers see to: a block that arrives has been read from a message or a file, and a
known position is where it was read. -/
def StorageOp.Arrives (s : Storage) : StorageOp → Prop
  | .acceptBlock _ block dbp => ArrivedAt block dbp s
  | _ => True

/-- Nothing is written to a file that the next flush does not commit: undo data goes to the last
file, a file is left only after a flush, and the files can be opened for flushing. -/
def StorageOp.Covered (E : StorageEnv U) (s : Storage) : StorageOp → Prop
  | .acceptHeader _ _ _ => True
  | .acceptBlock env block dbp => StoreCovered env.disk block dbp s
  | .connectTip env hash _ => env.flush.disk.Opens ∧ ConnectCovered E hash s
  | .disconnectTip env => env.flush.disk.Opens
  | .flushStateToDisk _ env => env.disk.Opens

def Storage.CoveredStep (E : StorageEnv U) (s s' : Storage) : Prop :=
  ∃ op ok, op.Arrives s ∧ op.Covered E s ∧ s.step E op = some (ok, s')

theorem StorageInv.step (h : StorageInv E s) (hstep : s.CoveredStep E s') : StorageInv E s' := by
  obtain ⟨op, ok, harrives, hcovered, hrun⟩ := hstep
  cases op with
  | acceptHeader now contextual header =>
    exact acceptBlockHeader_inv h (some.inj hrun)
  | acceptBlock env block dbp => exact acceptBlock_inv h harrives hcovered hrun
  | connectTip env hash pblock => exact connectTip_inv h hcovered.1 hcovered.2 hrun
  | disconnectTip env => exact disconnectTip_inv h hcovered hrun
  | flushStateToDisk mode env => exact (flushStateToDisk_inv h hcovered (some.inj hrun)).1

theorem storageInv_initial (E : StorageEnv U) (blk rev : Nat → Bytes) :
    StorageInv E (initial blk rev) where
  lastOpen := fun _ _ => ⟨rfl, rfl⟩
  bounded := fun _ => Nat.zero_le _
  entries := nofun
  clean := nofun
  older := nofun
  best := nofun
  durable := nofun

/-! ## Reading back -/

theorem readBlockFromDisk_of_holds {hash : Uint256} {block : CBlock} (hblock : IsBlock E hash block)
    (h : Holds file pos block.bytes) :
    readBlockFromDisk E file pos = some (block.updateHashes E.hash256) := by
  obtain ⟨rest, hrest⟩ := h.drop_eq
  have hpow : E.block.checkProofOfWork
      (E.block.getHash (block.updateHashes E.hash256).toCBlockHeader)
      (block.updateHashes E.hash256).nBits = true := by
    show E.block.checkProofOfWork (E.block.getHash block.toCBlockHeader) block.nBits = true
    rw [hblock.hash_eq]
    exact hblock.pow
  rw [readBlockFromDisk, hrest, readBlock_bytes E.hash256 E.layout hblock.fits rest]
  exact if_pos hpow

theorem undoReadFromDisk_of_holds {hashBlock : Uint256} {u : U}
    (h : Holds file pos (undoData E hashBlock u)) :
    undoReadFromDisk E file pos hashBlock = some u := by
  obtain ⟨rest, hrest⟩ := h.drop_eq
  have hchecksum : readUint256 (leBytes 32 (undoChecksum E hashBlock u).toNat ++ rest) =
      .ok (undoChecksum E hashBlock u, rest) := by
    have := canonical_readUint256.read_write (a := undoChecksum E hashBlock u) rest trivial
    simpa [serializeUint256, bytes] using this
  rw [undoReadFromDisk, hrest, undoData, append_assoc, E.readUndo_serialize]
  dsimp only
  rw [hchecksum]
  exact if_pos rfl

/-- After a crash every block from height 1 up to the best block of the coin database is in the
block tree database, and its data and undo data can be read from what is on the disk. -/
def Recoverable (E : StorageEnv U) (s : Storage) : Prop := ∀ b, s.dbBestBlock = some b →
    ∀ hash, Above E.hashGenesisBlock (pprevIn s.dbBlockIndex) b hash →
      ∃ d, s.dbBlockIndex hash = some d ∧
        (∃ block, readIndexedBlock E (fun n => (s.blk n).durable) hash d = some block) ∧
        readIndexedUndo E (fun n => (s.rev n).durable) d = some (E.blockundo hash)

theorem StorageInv.recoverable (h : StorageInv E s) : Recoverable E s := by
  intro b hb hash habove
  obtain ⟨d, hd⟩ := h.durable hb habove
  obtain ⟨block, hblock, -, hdata⟩ := hd.data
  obtain ⟨hashPrev, hprev, -, hundo⟩ := hd.undo
  refine ⟨d, hd.index, ⟨block.updateHashes E.hash256, ?_⟩, ?_⟩
  · rw [readIndexedBlock, if_pos hd.haveData, readBlockFromDisk_of_holds hblock hdata]
    exact if_pos hblock.hash_eq
  · rw [readIndexedUndo, if_pos hd.haveUndo, hprev]
    exact undoReadFromDisk_of_holds hundo

/-- **`recoverable_along_runs`** — from a data directory with any block files, in every state
that covered steps reach, a crash leaves a chain state all of whose blocks can be read and
disconnected; and a flush that is due and succeeds makes the best block of the coin view the
best block of such a chain state. -/
theorem recoverable_along_runs (E : StorageEnv U) (blk rev : Nat → Bytes) {s : Storage}
    (hrun : Relation.ReflTransGen (Storage.CoveredStep E) (Storage.initial blk rev) s) :
    Recoverable E s ∧
    ∀ mode env s', env.disk.Opens → flushDue mode env = true →
      flushStateToDisk mode env s = (true, s') →
      s'.dbBestBlock = s.coinsBest ∧ Recoverable E s' := by
  have hinv : StorageInv E s := by
    induction hrun with
    | refl => exact storageInv_initial E blk rev
    | tail _ hstep ih => exact ih.step hstep
  refine ⟨hinv.recoverable, ?_⟩
  intro mode env s' hopen hdue hflush
  obtain ⟨hinv', hbest⟩ := flushStateToDisk_inv hinv hopen hflush
  exact ⟨hbest rfl hdue, hinv'.recoverable⟩

/-! ## Two runs -/

instance (hash : Uint256) (e : CDiskBlockIndex) (s : Storage) :
    Decidable (UndoCovered E hash e s) :=
  inferInstanceAs (Decidable (_ ∧ _))

instance (hash : Uint256) (s : Storage) : Decidable (ConnectCovered E hash s) :=
  decidable_of_iff ((s.mapBlockIndex hash).all (fun e =>
      e.nStatus.haveUndo || decide (hash = E.hashGenesisBlock) ||
        decide (UndoCovered E hash e s)) = true) <| by
    cases he : s.mapBlockIndex hash with
    | none => simp [ConnectCovered, he]
    | some e =>
      simp only [ConnectCovered, he, Option.all_some, Bool.or_eq_true, decide_eq_true_eq,
        Option.some.injEq, forall_eq']
      cases e.nStatus.haveUndo <;> simp [or_iff_not_imp_left]

instance (s : Storage) (n : Nat) : Decidable (s.CommittedAt n) :=
  inferInstanceAs (Decidable ((s.blk n).durable = (s.blk n).written ∧
    (s.rev n).durable = (s.rev n).written))

instance (disk : DiskEnv) (block : CBlock) (dbp : Option CDiskBlockPos) (s : Storage) :
    Decidable (StoreCovered disk block dbp s) :=
  match dbp with
  | none => inferInstanceAs (Decidable disk.Opens)
  | some _ => inferInstanceAs (Decidable (_ ∧ _))

instance (s : Storage) (op : StorageOp) : Decidable (op.Covered E s) :=
  match op with
  | .acceptHeader _ _ _ => inferInstanceAs (Decidable True)
  | .acceptBlock env block dbp => inferInstanceAs (Decidable (StoreCovered env.disk block dbp s))
  | .connectTip env hash _ =>
    inferInstanceAs (Decidable (env.flush.disk.Opens ∧ ConnectCovered E hash s))
  | .disconnectTip env => inferInstanceAs (Decidable env.flush.disk.Opens)
  | .flushStateToDisk _ env => inferInstanceAs (Decidable env.disk.Opens)

def Storage.Step (E : StorageEnv U) (s s' : Storage) : Prop :=
  ∃ op ok, op.Arrives s ∧ s.step E op = some (ok, s')

/-- Operations one after the other, as long as they succeed. -/
def Storage.run (E : StorageEnv U) (s : Storage) : List StorageOp → Option Storage
  | [] => some s
  | op :: ops =>
    match s.step E op with
    | some (true, s') => s'.run E ops
    | _ => none

/-- The same, as long as they are covered. -/
def Storage.runCovered (E : StorageEnv U) (s : Storage) : List StorageOp → Option Storage
  | [] => some s
  | op :: ops =>
    if op.Covered E s then
      match s.step E op with
      | some (true, s') => s'.runCovered E ops
      | _ => none
    else none

theorem Storage.run_reaches (harrives : ∀ op ∈ ops, ∀ s, op.Arrives s)
    (hrun : s.run E ops = some s') : Relation.ReflTransGen (Storage.Step E) s s' := by
  induction ops generalizing s with
  | nil =>
    cases hrun
    exact .refl
  | cons op ops ih =>
    rw [run] at hrun
    split at hrun
    · rename_i s1 hstep
      refine .head ⟨op, true, harrives op mem_cons_self s, hstep⟩ (ih ?_ hrun)
      exact fun op' hop' => harrives op' (mem_cons_of_mem _ hop')
    · cases hrun

theorem Storage.runCovered_reaches (harrives : ∀ op ∈ ops, ∀ s, op.Arrives s)
    (hrun : s.runCovered E ops = some s') : Relation.ReflTransGen (Storage.CoveredStep E) s s' := by
  induction ops generalizing s with
  | nil =>
    cases hrun
    exact .refl
  | cons op ops ih =>
    rw [runCovered] at hrun
    split_ifs at hrun with hcovered
    split at hrun
    · rename_i s1 hstep
      refine .head ⟨op, true, harrives op mem_cons_self s, hcovered, hstep⟩ (ih ?_ hrun)
      exact fun op' hop' => harrives op' (mem_cons_of_mem _ hop')
    · cases hrun

end Env

def numberedCoinbase (n : Nat) : CTransaction where
  hash := BitVec.ofNat 256 n
  nVersion := 1
  vin := [⟨COutPoint.null, [0, 0], 0⟩]
  vout := [⟨0, []⟩]
  nLockTime := 0
  strTxComment := []

def numberedBlock (n prev : Nat) : CBlock where
  nVersion := 1
  hashPrevBlock := BitVec.ofNat 256 prev
  hashMerkleRoot := BitVec.ofNat 256 n
  nTime := 0
  nBits := 0
  nNonce := UInt32.ofNat n
  vtx := [numberedCoinbase n]

/-- Blocks are known by their number, block 1 is the genesis block, and undo data is a byte. -/
def numberedEnv : StorageEnv UInt8 where
  block := ⟨fun h => BitVec.ofNat 256 h.nNonce.toNat, fun a _ => a, fun _ _ => true, 0⟩
  hashGenesisBlock := 1
  start := mainMessageStart
  hash256 := fun b => BitVec.ofNat 256 (leNat b)
  layout := sampleLayout
  serializeUndo := fun u => [u]
  readUndo := do
    let b ← readBytes endOfData 1
    pure (b.headD 0)
  readUndo_serialize := fun _ _ => rfl
  blockundo := fun _ => 7

theorem numberedBlock_arrives (env : AcceptEnv) (n prev : Nat) (s : Storage) :
    (StorageOp.acceptBlock env (numberedBlock n prev) none).Arrives s := by
  have hone : 1 ≤ maxSize := by decide
  refine ⟨⟨hone, fun t ht => ?_⟩, ?_, nofun⟩
  · obtain rfl := mem_singleton.mp ht
    refine ⟨⟨hone, ?_⟩, ⟨hone, ?_⟩, Nat.zero_le _, fun _ => rfl⟩
    · intro i hi
      obtain rfl := mem_singleton.mp hi
      decide
    · intro o ho
      obtain rfl := mem_singleton.mp ho
      decide
  · have hlen : (numberedBlock n prev).bytes.length = 143 := by
      simp [numberedBlock, numberedCoinbase, CBlock.bytes, CBlock.serialize, bytes,
        CBlockHeader.serialize, serializeVector, writeCompactSize, CTransaction.serialize,
        CTxIn.serialize, CTxOut.serialize, COutPoint.serialize, serializeBytes, serializeInt32,
        serializeUint32, serializeInt64, serializeUint256, CTransaction.serializeComment]
    rw [hlen]
    decide

/-- The cache is small and the last write recent. -/
def quietFlush : FlushEnv := { cacheFull := false, intervalOver := false, dbWrites := 0 }

/-- Blocks that arrive and are connected in order, and a flush. -/
def orderlyOps : List StorageOp := [.acceptBlock { now := 0 } (numberedBlock 1 0) none,
   .connectTip { now := 0, flush := quietFlush } 1 (some (numberedBlock 1 0)),
   .acceptBlock { now := 0 } (numberedBlock 2 1) none,
   .connectTip { now := 0, flush := quietFlush } 2 (some (numberedBlock 2 1)),
   .flushStateToDisk .always { dbWrites := 10 }]

theorem recoverable_along_runs_orderly :
    ∃ s, (Storage.initial (fun _ => []) fun _ => []).runCovered numberedEnv orderlyOps = some s ∧
      s.dbBestBlock = some 2 ∧ Recoverable numberedEnv s := by
  have hresult : ((initial (fun _ => []) fun _ => []).runCovered numberedEnv
      orderlyOps).map dbBestBlock = some (some 2) := by decide +kernel
  obtain ⟨s, hrun, hbest⟩ := map_eq_some_iff.mp hresult
  refine ⟨s, hrun, hbest, (recoverable_along_runs numberedEnv (fun _ => []) (fun _ => [])
    (runCovered_reaches ?_ hrun)).1⟩
  intro op hop s
  simp only [orderlyOps, mem_cons, not_mem_nil, or_false] at hop
  rcases hop with rfl | rfl | rfl | rfl | rfl
  · exact numberedBlock_arrives _ 1 0 s
  · trivial
  · exact numberedBlock_arrives _ 2 1 s
  · trivial
  · trivial

/-- A first block file with room for one more block: zeros, which a reindex skips, and the record
of the genesis block at its end. -/
def fullFile (n : Nat) : Bytes :=
  if n = 0 then
    List.replicate 134217320 0 ++ recordHeader numberedEnv 143 ++ (numberedBlock 1 0).bytes
  else []

/-- The genesis block is found in its file and connected. -/
def reindexOps : List StorageOp :=
  [.acceptBlock { now := 0 } (numberedBlock 1 0) (some ⟨0, 134217328⟩),
   .connectTip { now := 0, flush := quietFlush } 1 (some (numberedBlock 1 0))]

/-- The header of block 2 arrives, then block 3, which still goes to file 0, and then block 2,
which goes to file 1. Both are connected, and the state is flushed. -/
def lateOps : List StorageOp := [.acceptHeader 0 (.ok ()) (numberedBlock 2 1).toCBlockHeader,
   .acceptBlock { now := 0 } (numberedBlock 3 2) none,
   .acceptBlock { now := 0 } (numberedBlock 2 1) none,
   .connectTip { now := 0, flush := quietFlush } 2 (some (numberedBlock 2 1)),
   .connectTip { now := 0, flush := quietFlush } 3 (some (numberedBlock 3 2)),
   .flushStateToDisk .always { dbWrites := 10 }]

theorem fullFile_arrives :
    (StorageOp.acceptBlock { now := 0 } (numberedBlock 1 0) (some ⟨0, 134217328⟩)).Arrives
      (initial fullFile fun _ => []) := by
  obtain ⟨hfits, hlen, -⟩ := numberedBlock_arrives { now := 0 } 1 0 (initial fullFile fun _ => [])
  refine ⟨hfits, hlen, fun pos hpos => ?_⟩
  obtain rfl := some.inj hpos
  show (numberedBlock 1 0).bytes <+: (replicate 134217320 0 ++ recordHeader numberedEnv 143 ++
    (numberedBlock 1 0).bytes).drop 134217328
  rw [drop_left' (by rw [length_append, length_replicate]; rfl)]

/-- Every operation succeeds, the coin database builds on block 3, and the undo data of block 3
is in file 0, which was committed for the last time before block 3 was connected. -/
theorem undo_behind_lost :
    ∃ s, Relation.ReflTransGen (Storage.Step numberedEnv) (Storage.initial fullFile fun _ => []) s ∧
      (Storage.initial fullFile fun _ => []).run numberedEnv (reindexOps ++ lateOps) = some s ∧
      s.dbBestBlock = some 3 ∧
      (∃ d, s.dbBlockIndex 3 = some d ∧ d.nFile = 0 ∧ s.nLastBlockFile = 1 ∧
        readIndexedUndo numberedEnv (fun n => (s.rev n).durable) d = none) ∧
      ¬ Recoverable numberedEnv s := by
  have hresult : ((initial fullFile fun _ => []).run numberedEnv
      (reindexOps ++ lateOps)).map (fun s => (s.dbBestBlock, s.nLastBlockFile,
        (s.dbBlockIndex 3).map fun d =>
          (d.nFile, readIndexedUndo numberedEnv (fun n => (s.rev n).durable) d))) =
      some (some 3, 1, some (0, none)) := by decide +kernel
  obtain ⟨s, hrun, hs⟩ := map_eq_some_iff.mp hresult
  simp only [Prod.mk.injEq, map_eq_some_iff] at hs
  obtain ⟨hbest, hlast, d, hd, hfile, hundo⟩ := hs
  refine ⟨s, ?_, hrun, hbest, ⟨d, hd, hfile, hlast, hundo⟩, fun hrec => ?_⟩
  · rw [reindexOps, cons_append, run] at hrun
    split at hrun
    · rename_i s1 hstep
      refine .head ⟨_, true, fullFile_arrives, hstep⟩ (run_reaches ?_ hrun)
      intro op hop s
      simp only [lateOps, cons_append, nil_append, mem_cons, not_mem_nil, or_false] at hop
      rcases hop with rfl | rfl | rfl | rfl | rfl | rfl | rfl
      · trivial
      · trivial
      · exact numberedBlock_arrives _ 3 2 s
      · exact numberedBlock_arrives _ 2 1 s
      · trivial
      · trivial
      · trivial
    · cases hrun
  · obtain ⟨d', hd', -, hread⟩ := hrec 3 hbest 3 (.here (by decide))
    obtain rfl := some.inj (hd.symm.trans hd')
    rw [hundo] at hread
    cases hread

end MonetaryUnit
