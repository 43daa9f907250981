/-
# MonetaryUnit.Chain.BlockTree — the block index as a running state

`mapBlockIndex` with the status of every entry, `setBlockIndexCandidates`, `mapBlocksUnlinked` and
`chainActive`, and the functions of `main.cpp` that change them, up to `ActivateBestChain`.

What a block fixes by itself is in `BlockTree`: its parent and height, the work of its header, the
number of its transactions, and whether `ConnectBlock` accepts it in the state its ancestors leave.
What the node knows of it is in `IndexState`, with the memory addresses of the objects, which the
comparator of the candidate set reads.

The chain is modelled from the moment the genesis block is its tip. A failed `assert` ends a
function with `none`. Work, transaction totals and sequence numbers are natural numbers; the source
has 256 and 32 bits. `pindexBestInvalid`, `pindexBestHeader`, file positions and the set of dirty
entries are left out.
-/

import Mathlib.Data.Prod.Lex
import Mathlib.Algebra.BigOperators.Group.List.Basic
import Mathlib.Logic.Embedding.Basic
import Mathlib.Algebra.Ring.Nat
import MonetaryUnit.Chain.SkipList

namespace MonetaryUnit

open Lib

/-! ## Blocks -/

/-- The blocks, each with its parent. -/
structure BlockTree (β : Type) extends ParentTree β where
  /-- `GetBlockProof` of the header. `CheckBlockHeader` refuses a target that would make it 0. -/
  getBlockProof : β → Nat
  /-- `vtx.size()`. `CheckBlock` refuses a block without transactions. -/
  vtxSize : β → Nat
  /-- The verdict of `ConnectBlock` in the state that the ancestors leave. -/
  connectBlock : β → Bool
  getBlockProof_pos : ∀ b, 0 < getBlockProof b
  vtxSize_pos : ∀ b, 0 < vtxSize b
  connectBlock_root : connectBlock root = true

/-- `nChainWork`: the parent's value and the proof of the block, as `AddToBlockIndex` adds them
up. -/
def BlockTree.nChainWork {β : Type} (T : BlockTree β) (b : β) : Nat :=
  ((T.pathTo b).map T.getBlockProof).sum

/-! ## Index entries -/

def BLOCK_VALID_TREE : Nat := 2
def BLOCK_VALID_TRANSACTIONS : Nat := 3
def BLOCK_VALID_CHAIN : Nat := 4
def BLOCK_VALID_SCRIPTS : Nat := 5

/-- The fields of a `CBlockIndex` that change. `nValid` is the status under
`BLOCK_VALID_MASK`; the three flags are `BLOCK_HAVE_DATA`, `BLOCK_FAILED_VALID` and
`BLOCK_FAILED_CHILD`. -/
structure IndexEntry where
  nValid : Nat := 0
  haveData : Bool := false
  failedValid : Bool := false
  failedChild : Bool := false
  nTx : Nat := 0
  nChainTx : Nat := 0
  nSequenceId : Nat := 0
deriving DecidableEq

namespace IndexEntry

/-- The status has a bit of `BLOCK_FAILED_MASK`. -/
def failed (e : IndexEntry) : Bool := e.failedValid || e.failedChild

def isValid (e : IndexEntry) (nUpTo : Nat) : Bool :=
  if e.failed then false else decide (nUpTo ≤ e.nValid)

/-- A failed block is not raised. -/
def raiseValidity (e : IndexEntry) (nUpTo : Nat) : IndexEntry :=
  if e.failed then e else if e.nValid < nUpTo then { e with nValid := nUpTo } else e

end IndexEntry

/-- The block index with the structures built over it. -/
structure IndexState (β : Type) where
  /-- The blocks of `mapBlockIndex`, in the order in which they were added. -/
  mapBlockIndex : List β
  entry : β → IndexEntry
  setBlockIndexCandidates : List β
  /-- Parent and block, in the order of insertion. -/
  mapBlocksUnlinked : List (β × β)
  /-- `chainActive.Tip()`; the chain is the tip's path. -/
  tip : β
  nBlockSequenceId : Nat
  /-- The addresses of the `CBlockIndex` objects. -/
  addr : β ↪ Nat

variable {β : Type} [DecidableEq β]

namespace IndexState

/-- Changes one entry. -/
def modify (s : IndexState β) (b : β) (f : IndexEntry → IndexEntry) : IndexState β :=
  { s with entry := fun x => if x = b then f (s.entry x) else s.entry x }

variable (T : BlockTree β)

/-- `chainActive.Contains`. -/
def contains (s : IndexState β) (b : β) : Bool := decide (b ∈ T.pathTo s.tip)

/-- `CBlockIndexWorkComparator`: less work, then received later, then the higher address. -/
def workLess (s : IndexState β) (pa pb : β) : Bool :=
  if T.nChainWork pb < T.nChainWork pa then false
  else if T.nChainWork pa < T.nChainWork pb then true
  else if (s.entry pa).nSequenceId < (s.entry pb).nSequenceId then false
  else if (s.entry pb).nSequenceId < (s.entry pa).nSequenceId then true
  else if s.addr pa < s.addr pb then false
  else if s.addr pb < s.addr pa then true
  else false

/-! ## Headers and block data -/

/-- A header enters the index. -/
def addToBlockIndex (s : IndexState β) (b : β) : IndexState β := { s with
    mapBlockIndex := s.mapBlockIndex ++ [b]
    entry := fun x =>
      if x = b then IndexEntry.raiseValidity {} BLOCK_VALID_TREE else s.entry x }

/-- `none` when the header is refused. -/
def acceptBlockHeader (s : IndexState β) (b : β) : Option (IndexState β) :=
  if b ∈ s.mapBlockIndex then
    if (s.entry b).failed then none else some s
  else
    match T.parent b with
    | none => some (s.addToBlockIndex b)
    | some pindexPrev =>
      if pindexPrev ∈ s.mapBlockIndex then
        if (s.entry pindexPrev).failed then none else some (s.addToBlockIndex b)
      else none

/-- `setBlockIndexCandidates.insert`, unless the block sorts worse than the tip. -/
def offerCandidate (s : IndexState β) (b : β) : IndexState β :=
  if s.workLess T b s.tip then s
  else { s with setBlockIndexCandidates := s.setBlockIndexCandidates.insert b }

/-- The number of transactions up to the parent. -/
def parentChainTx (s : IndexState β) (b : β) : Nat :=
  (T.parent b).elim 0 fun p => (s.entry p).nChainTx

/-- One block from the queue of `ReceivedBlockTransactions`: its totals, its sequence number,
its place among the candidates. -/
def linkBlock (s : IndexState β) (b : β) : IndexState β := offerCandidate T
    { s.modify b (fun e => { e with
        nChainTx := s.parentChainTx T b + e.nTx
        nSequenceId := s.nBlockSequenceId }) with
      nBlockSequenceId := s.nBlockSequenceId + 1 } b

/-- The children of `b` that wait in `mapBlocksUnlinked`. -/
def unlinkedOf (s : IndexState β) (b : β) : List β :=
  (s.mapBlocksUnlinked.filter fun e => decide (e.1 = b)).map Prod.snd

def dropUnlinked (s : IndexState β) (b : β) : IndexState β :=
  { s with mapBlocksUnlinked := s.mapBlocksUnlinked.filter fun e => decide (e.1 ≠ b) }

/-- The queue of `ReceivedBlockTransactions`. Every round takes one block off the queue or off
`mapBlocksUnlinked`, whose sizes bound the number of rounds. -/
def linkQueue : Nat → List β → IndexState β → IndexState β
  | 0, _, s => s
  | _ + 1, [], s => s
  | n + 1, b :: queue, s =>
    linkQueue n (queue ++ s.unlinkedOf b) ((s.linkBlock T b).dropUnlinked b)

/-- The entry once its data is stored. -/
def storeData (s : IndexState β) (b : β) : IndexState β := s.modify b fun e =>
    IndexEntry.raiseValidity { e with nTx := T.vtxSize b, nChainTx := 0, haveData := true }
      BLOCK_VALID_TRANSACTIONS

/-- Link the block and those that waited for it, or let it wait. -/
def receivedBlockTransactions (s : IndexState β) (b : β) : IndexState β :=
  match T.parent b with
  | none => linkQueue T (s.mapBlocksUnlinked.length + 1) [b] (s.storeData T b)
  | some p =>
    if (s.entry p).nChainTx ≠ 0 then
      linkQueue T (s.mapBlocksUnlinked.length + 1) [b] (s.storeData T b)
    else if (s.entry p).isValid BLOCK_VALID_TREE then
      { s.storeData T b with mapBlocksUnlinked := s.mapBlocksUnlinked ++ [(p, b)] }
    else s.storeData T b

/-- `AcceptBlock`. `checked` is the outcome of `CheckBlock` and `ContextualCheckBlock`; a failure
is one without possible corruption. -/
def acceptBlock (s : IndexState β) (b : β) (checked : Bool) : IndexState β :=
  match s.acceptBlockHeader T b with
  | none => s
  | some s1 =>
    if (s1.entry b).haveData then s1
    else if checked then s1.receivedBlockTransactions T b
    else s1.modify b fun e => { e with failedValid := true }

/-! ## Choosing a chain -/

/-- What the inner loop of `FindMostWorkChain` finds on the way from a candidate to the active
chain. -/
inductive PathTest (β : Type) where
  | valid
  | invalidAncestor (above : List β) (pindexTest : β)
  | assertFails

/-- The inner loop of `FindMostWorkChain`. The first list holds the blocks passed so far. -/
def testPath (s : IndexState β) : List β → List β → PathTest β
  | _, [] => .valid
  | above, pindexTest :: rest =>
    if s.contains T pindexTest then .valid
    else if (s.entry pindexTest).haveData = false then .assertFails
    else if (s.entry pindexTest).nChainTx = 0 ∧ T.height pindexTest ≠ 0 then .assertFails
    else if (s.entry pindexTest).failed then .invalidAncestor above pindexTest
    else s.testPath (pindexTest :: above) rest

/-- A candidate with an invalid ancestor: the blocks above that ancestor are marked, and all of
them leave the set. -/
def dropInvalid (s : IndexState β) (above : List β) (pindexTest : β) : IndexState β := { s with
    entry := fun x => if x ∈ above then { s.entry x with failedChild := true } else s.entry x
    setBlockIndexCandidates :=
      s.setBlockIndexCandidates.filter fun c => decide (c ∉ above ∧ c ≠ pindexTest) }

/-- `FindMostWorkChain`. Every round but the last takes a block off the candidate set, whose
size bounds the number of rounds. -/
def findMostWorkChain : Nat → IndexState β → Option (Option β × IndexState β)
  | 0, _ => none
  | n + 1, s =>
    match pickBest (s.workLess T) s.setBlockIndexCandidates with
    | none => some (none, s)
    | some pindexNew =>
      match s.testPath T [] (T.pathTo pindexNew) with
      | .valid => some (some pindexNew, s)
      | .invalidAncestor above pindexTest => findMostWorkChain n (s.dropInvalid above pindexTest)
      | .assertFails => none

/-- Drop candidates worse than the tip; `none` is the assertion. -/
def pruneBlockIndexCandidates (s : IndexState β) : Option (IndexState β) :=
  match s.setBlockIndexCandidates.filter fun c => !s.workLess T c s.tip with
  | [] => none
  | c :: cs => some { s with setBlockIndexCandidates := c :: cs }

/-- The chain gets `b` as its tip; `ConnectBlock` raises the validity of the entry. -/
def connectTip (s : IndexState β) (b : β) : IndexState β :=
  { s.modify b (fun e => e.raiseValidity BLOCK_VALID_SCRIPTS) with tip := b }

/-- `InvalidBlockFound`, for a block rejected without possible corruption. -/
def invalidBlockFound (s : IndexState β) (b : β) : IndexState β :=
  { s.modify b (fun e => { e with failedValid := true }) with
    setBlockIndexCandidates := s.setBlockIndexCandidates.filter fun c => decide (c ≠ b) }

/-- The loop of `ActivateBestChainStep` over the blocks to connect, the oldest first. The source
collects them 32 heights at a time. -/
def connectBlocks (oldWork : Nat) : List β → IndexState β → Option (IndexState β)
  | [], s => some s
  | b :: bs, s =>
    if T.parent b ≠ some s.tip then none
    else if T.connectBlock b then
      match (s.connectTip b).pruneBlockIndexCandidates T with
      | none => none
      | some s1 => if oldWork < T.nChainWork s1.tip then some s1 else connectBlocks oldWork bs s1
    else some (s.invalidBlockFound b)

/-- `ActivateBestChainStep`: the blocks above the fork are disconnected, those on the way to
`pindexMostWork` connected. -/
def activateBestChainStep (s : IndexState β) (pindexMostWork : β) : Option (IndexState β) :=
  match T.meet (T.pathTo s.tip) pindexMostWork with
  | none => none
  | some pindexFork =>
    connectBlocks T (T.nChainWork s.tip) (T.above (T.pathTo s.tip) pindexMostWork)
      { s with tip := pindexFork }

/-- `ActivateBestChain`, for at most `n` rounds of its loop. -/
def activateBestChain : Nat → IndexState β → Option (IndexState β)
  | 0, _ => none
  | n + 1, s =>
    match findMostWorkChain T (s.setBlockIndexCandidates.length + 1) s with
    | none => none
    | some (none, s1) => some s1
    | some (some pindexMostWork, s1) =>
      if pindexMostWork = s1.tip then some s1
      else
        match s1.activateBestChainStep T pindexMostWork with
        | none => none
        | some s2 => if pindexMostWork = s2.tip then some s2 else activateBestChain n s2

/-- A call of `ActivateBestChain` in `s` returns and leaves `s'`. -/
def Activates (s s' : IndexState β) : Prop := ∃ n, activateBestChain T n s = some s'

/-! ## Runs -/

/-- The genesis block alone, received and connected. -/
def genesis (addr : β ↪ Nat) : IndexState β where
  mapBlockIndex := [T.root]
  entry := fun x =>
    if x = T.root then
      { nValid := BLOCK_VALID_TRANSACTIONS
        haveData := true
        nTx := T.vtxSize T.root
        nChainTx := T.vtxSize T.root
        nSequenceId := 1 }
    else {}
  setBlockIndexCandidates := [T.root]
  mapBlocksUnlinked := []
  tip := T.root
  nBlockSequenceId := 2
  addr := addr

/-- The steps of a node that receives headers and blocks. -/
inductive ArrivalStep : IndexState β → IndexState β → Prop
  | header {s s' : IndexState β} {b : β} (h : s.acceptBlockHeader T b = some s') :
      ArrivalStep s s'
  | block (s : IndexState β) (b : β) (checked : Bool) :
      ArrivalStep s (s.acceptBlock T b checked)
  | activate {s s' : IndexState β} (h : s.Activates T s') : ArrivalStep s s'

/-! ## What `CheckBlockIndex` asserts -/

/-- `pindexFirstInvalid` is set. -/
def FirstInvalid (s : IndexState β) (b : β) : Prop :=
  ∃ a ∈ T.pathTo b, (s.entry a).failedValid = true

/-- `pindexFirstMissing` is set. -/
def FirstMissing (s : IndexState β) (b : β) : Prop := ∃ a ∈ T.pathTo b, (s.entry a).haveData = false

/-- `pindexFirstNotTreeValid` and its two relatives are set. -/
def FirstNotValid (s : IndexState β) (nUpTo : Nat) (b : β) : Prop :=
  ∃ a ∈ T.pathTo b, T.parent a ≠ none ∧ (s.entry a).nValid < nUpTo

end IndexState

/-- `pskip`, as `BuildSkip` sets it: `GetAncestor` of the parent. -/
def BlockTree.pskip (T : BlockTree β) (b : β) : Option β :=
  (T.parent b).bind (T.atHeight (getSkipHeight (T.height b)))

namespace IndexState

/-- The assertions of `CheckBlockIndex` for one entry of the index. -/
structure EntryChecks (T : BlockTree β) (s : IndexState β) (b : β) : Prop where
  genesis : T.parent b = none → b = T.root ∧ s.contains T b = true
  data_iff : (s.entry b).haveData = false ↔ (s.entry b).nTx = 0
  transactions_iff : BLOCK_VALID_TRANSACTIONS ≤ (s.entry b).nValid ↔ 0 < (s.entry b).nTx
  sequence : (s.entry b).nChainTx = 0 → (s.entry b).nSequenceId = 0
  missing_iff : s.FirstMissing T b ↔ (s.entry b).nChainTx = 0
  height : (T.pathTo b).length = T.height b + 1
  work : ∀ p, T.parent b = some p → T.nChainWork p ≤ T.nChainWork b
  skip : 2 ≤ T.height b → ∃ a, T.pskip b = some a ∧ T.height a < T.height b
  tree : ¬ s.FirstNotValid T BLOCK_VALID_TREE b
  chain : BLOCK_VALID_CHAIN ≤ (s.entry b).nValid → ¬ s.FirstNotValid T BLOCK_VALID_CHAIN b
  scripts : BLOCK_VALID_SCRIPTS ≤ (s.entry b).nValid → ¬ s.FirstNotValid T BLOCK_VALID_SCRIPTS b
  failed : ¬ s.FirstInvalid T b → (s.entry b).failed = false
  candidate : s.workLess T b s.tip = false → ¬ s.FirstMissing T b → ¬ s.FirstInvalid T b →
    b ∈ s.setBlockIndexCandidates
  not_candidate : s.workLess T b s.tip = true ∨ s.FirstMissing T b → b ∉ s.setBlockIndexCandidates
  unlinked : ∀ p, T.parent b = some p → (s.entry b).haveData = true → s.FirstMissing T b →
    ¬ s.FirstInvalid T b → (p, b) ∈ s.mapBlocksUnlinked
  not_unlinked : ∀ p, T.parent b = some p →
    (s.entry b).haveData = false ∨ ¬ s.FirstMissing T b → (p, b) ∉ s.mapBlocksUnlinked

/-- `CheckBlockIndex`: there is one entry without a parent, the walk from it reaches every
entry, and the assertions hold at each. -/
structure CheckBlockIndex (T : BlockTree β) (s : IndexState β) : Prop where
  genesis : T.root ∈ s.mapBlockIndex
  reached : ∀ b ∈ s.mapBlockIndex, ∀ p, T.parent b = some p → p ∈ s.mapBlockIndex
  entries : ∀ b ∈ s.mapBlockIndex, s.EntryChecks T b

end IndexState

/-! ## Two branches -/

/-- A small tree: two branches of two blocks each, and a third block on the left. -/
inductive ForkBlock where
  | genesis
  | left
  | leftTop
  | leftSide
  | right
  | rightTop
deriving DecidableEq

namespace ForkBlock

def parent : ForkBlock → Option ForkBlock
  | genesis => none
  | left => some genesis
  | leftTop => some left
  | leftSide => some left
  | right => some genesis
  | rightTop => some right

def height : ForkBlock → Nat
  | genesis => 0
  | left => 1
  | leftTop => 2
  | leftSide => 2
  | right => 1
  | rightTop => 2

def index : ForkBlock → Nat
  | genesis => 0
  | left => 1
  | leftTop => 2
  | leftSide => 3
  | right => 4
  | rightTop => 5

theorem index_injective : Function.Injective index := by
  intro a b h
  cases a <;> cases b <;> first | rfl | exact absurd h (by decide)

/-- The tree, with a verdict of `ConnectBlock` on every block. -/
def treeWith (connects : ForkBlock → Bool) (hroot : connects genesis = true) :
    BlockTree ForkBlock where
  root := genesis
  parent := parent
  height := height
  parent_eq_none := by
    intro b
    cases b <;> decide
  height_root := rfl
  height_parent := by
    intro b p
    cases b <;> cases p <;> decide
  getBlockProof := fun _ => 1
  vtxSize := fun _ => 1
  connectBlock := connects
  getBlockProof_pos := fun _ => Nat.one_pos
  vtxSize_pos := fun _ => Nat.one_pos
  connectBlock_root := hroot

/-- Addresses in the order of the list. -/
def addr : ForkBlock ↪ Nat := ⟨index, index_injective⟩

end ForkBlock

end MonetaryUnit
