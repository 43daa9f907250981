/-
# MonetaryUnit.Validation.ConnectBlock — connecting and disconnecting blocks

`GetValueIn`, `CheckInputs`, `UpdateCoins`, `GetBlockValue`, `ConnectBlock` and
`DisconnectBlock` of `main.cpp` and `coins.cpp`, as programs on a coin view.

`connectBlock` returns the undo record it builds; writing it to a file, the transaction index
and the notifications are not part of it. Script evaluation is a parameter: a check passes or
fails with an error text. With worker threads the checks of all inputs are collected and run
at the end, without them each runs in its place.
-/

import MonetaryUnit.Chain.SoftFork
import MonetaryUnit.Validation.CheckBlock
import MonetaryUnit.Validation.View

namespace MonetaryUnit

open ViewM

def coinbaseMaturity : Int32 := 100
def rejectNonstandard : UInt8 := 0x40

/-- `MANDATORY_SCRIPT_VERIFY_FLAGS` is `SCRIPT_VERIFY_P2SH`; these are the standard flags
without it: DERSIG, STRICTENC, MINIMALDATA, NULLDUMMY, DISCOURAGE_UPGRADABLE_NOPS,
CHECKLOCKTIMEVERIFY and LOW_S. -/
def standardNotMandatoryVerifyFlags : UInt32 :=
  scriptVerifyDERSIG ||| 0x2 ||| 0x40 ||| 0x10 ||| 0x80 ||| scriptVerifyCHECKLOCKTIMEVERIFY ||| 0x8

/-- The check of one input: the script it spends, and where. -/
structure CScriptCheck where
  scriptPubKey : CScript
  ptxTo : CTransaction
  nIn : Nat
  nFlags : UInt32
deriving DecidableEq, Repr

/-- What connecting a block takes from elsewhere. `verifyScript` returns the text of the
script error, or nothing when the check passes. -/
structure ConnectEnv extends BlockEnv where
  params : ChainParams
  fCheckpointsEnabled : Bool
  nScriptCheckThreads : Nat
  mapBlockIndex : Uint256 → Option CBlockIndex
  verifyScript : CScriptCheck → Option String

/-! ## Subsidy -/

/-- The subsidy by height, and the fees. -/
def getBlockValue (nHeight : Int32) (nFees : CAmount) : CAmount :=
  if nHeight = 0 then 0
  else
    let nSubsidy :=
      if nHeight = 1 then 40000000 * coin
      else if nHeight ≤ 40000 then 2500
      else if nHeight ≤ 80000 then 1 * coin
      else if nHeight ≤ 120000 then 2 * coin
      else if nHeight ≤ 160000 then 4 * coin
      else if nHeight ≤ 200000 then 8 * coin
      else if nHeight ≤ 240000 then 10 * coin
      else if nHeight ≤ 280000 then 20 * coin
      else if nHeight ≤ 320000 then 30 * coin
      else 40 * coin
    nSubsidy + nFees

/-- `GetTotalBlocksEstimate`: the height of the last checkpoint. -/
def getTotalBlocksEstimate (P : ChainParams) (fEnabled : Bool) : Int32 :=
  if !fEnabled then 0 else ((P.mapCheckpoints.map Prod.fst).max?).getD 0

section Connect

variable {σ : Type} (V : CCoinsView σ) (s : σ) (E : ConnectEnv)

/-! ## Values -/

/-- `AccessCoins` followed by `assert(coins)`. -/
def accessKnownCoins (txid : Uint256) : ViewM CCoins := do
  match ← accessCoins V s txid with
  | some coins => pure coins
  | none => fail (.assertion .missingCoins)

/-- The output an input spends; it is asserted to be there. -/
def getOutputFor (input : CTxIn) : ViewM CTxOut := do
  match ← accessCoins V s input.prevout.hash with
  | none => fail (.assertion (.coins .outputUnavailable))
  | some coins =>
    if coins.isAvailable input.prevout.n then deref coins.vout[input.prevout.n.toNat]?
    else fail (.assertion (.coins .outputUnavailable))

/-- The loop of `GetValueIn`. -/
def valueInLoop : CAmount → List CTxIn → ViewM CAmount
  | nResult, [] => pure nResult
  | nResult, txin :: rest => do
    let out ← getOutputFor V s txin
    valueInLoop (nResult + out.nValue) rest

def getValueIn (tx : CTransaction) : ViewM CAmount :=
  if tx.isCoinBase then pure 0 else valueInLoop V s 0 tx.vin

def p2shSigOpLoop : Nat → List CTxIn → ViewM Nat
  | nSigOps, [] => pure nSigOps
  | nSigOps, txin :: rest => do
    let prevout ← getOutputFor V s txin
    p2shSigOpLoop (if isPayToScriptHash prevout.scriptPubKey then
        nSigOps + getSigOpCountFor prevout.scriptPubKey txin.scriptSig
      else nSigOps) rest

def getP2SHSigOpCount (tx : CTransaction) : ViewM Nat :=
  if tx.isCoinBase then pure 0 else p2shSigOpLoop V s 0 tx.vin

/-- The count is only taken for blocks after the switch to BIP16. -/
def p2shSigOps (pindex : CBlockIndex) (tx : CTransaction) : ViewM Nat :=
  if 1333238400 ≤ pindex.getBlockTime then getP2SHSigOpCount V s tx else pure 0

/-! ## CheckInputs -/

/-- One round of the loop over the inputs: maturity, and the range of the value and the sum. -/
def checkInput (nSpendHeight : Int32) (nValueIn : CAmount) (txin : CTxIn) : ViewM CAmount := do
  let coins ← accessKnownCoins V s txin.prevout.hash
  ensure (!coins.fCoinBase || coinbaseMaturity ≤ nSpendHeight - coins.nHeight)
    (.reject (invalid rejectInvalid "bad-txns-premature-spend-of-coinbase"))
  let out ← deref coins.vout[txin.prevout.n.toNat]?
  let nValueIn := nValueIn + out.nValue
  ensure (moneyRange out.nValue && moneyRange nValueIn)
    (.reject (dos 100 "bad-txns-inputvalues-outofrange"))
  pure nValueIn

/-- All inputs, summing up what they spend. -/
def checkInputLoop (nSpendHeight : Int32) : CAmount → List CTxIn → ViewM CAmount
  | nValueIn, [] => pure nValueIn
  | nValueIn, txin :: rest => do
    let nValueIn ← checkInput V s nSpendHeight nValueIn txin
    checkInputLoop nSpendHeight nValueIn rest

/-- Run one check in place. A failure of flags that are not mandatory is not punished. -/
def runCheck (check : CScriptCheck) : ViewM Unit :=
  match E.verifyScript check with
  | none => pure ()
  | some err =>
    if check.nFlags &&& standardNotMandatoryVerifyFlags ≠ 0 ∧ E.verifyScript
          { check with nFlags := check.nFlags &&& ~~~standardNotMandatoryVerifyFlags } = none then
      fail (.reject (invalid rejectNonstandard "non-mandatory-script-verify-flag (No error)"))
    else fail (.reject (dos 100 ("mandatory-script-verify-flag-failed (" ++ err ++ ")")))

/-- The loop over the scripts: with threads it collects the checks, else it runs them. -/
def scriptLoop (tx : CTransaction) (flags : UInt32) : Nat → List CTxIn → ViewM (List CScriptCheck)
  | _, [] => pure []
  | i, txin :: rest => do
    let coins ← accessKnownCoins V s txin.prevout.hash
    let out ← deref coins.vout[txin.prevout.n.toNat]?
    let check : CScriptCheck :=
      { scriptPubKey := out.scriptPubKey, ptxTo := tx, nIn := i, nFlags := flags }
    if E.nScriptCheckThreads ≠ 0 then do
      let vChecks ← scriptLoop tx flags (i + 1) rest
      pure (check :: vChecks)
    else do
      runCheck E check
      scriptLoop tx flags (i + 1) rest

/-- `CheckInputs`, returning the checks it leaves to the queue. -/
def checkInputs (tx : CTransaction) (fScriptChecks : Bool) (flags : UInt32) :
    ViewM (List CScriptCheck) :=
  if tx.isCoinBase then pure []
  else do
    let have_ ← viewHaveInputs V s tx
    ensure have_ (.reject { nDoS := 0 })
    let hashBest ← viewBestBlock V s
    let pindexPrev ← deref (E.mapBlockIndex hashBest)
    let nSpendHeight := pindexPrev.nHeight + 1
    let nValueIn ← checkInputLoop V s nSpendHeight 0 tx.vin
    let nValueOut ← throwing tx.getValueOut
    ensure (nValueOut ≤ nValueIn) (.reject (dos 100 "bad-txns-in-belowout"))
    let nTxFee := nValueIn - nValueOut
    ensure (0 ≤ nTxFee) (.reject (dos 100 "bad-txns-fee-negative"))
    ensure (moneyRange (0 + nTxFee)) (.reject (dos 100 "bad-txns-fee-outofrange"))
    if fScriptChecks then scriptLoop V s E tx flags 0 tx.vin else pure []

/-! ## UpdateCoins -/

/-- `Spend` as an edit: the undo record when it succeeds. -/
def spendEdit (out : COutPoint) (c : CCoins) : Option CTxInUndo × CCoins :=
  match c.spend out with
  | some (undo, c') => (some undo, c')
  | none => (none, c)

/-- Spend every input and keep the undo records. -/
def spendInputs : List CTxIn → ViewM (List CTxInUndo)
  | [] => pure []
  | txin :: rest => do
    match ← withCoins V s txin.prevout.hash (spendEdit txin.prevout) with
    | none => fail (.assertion .spendFailed)
    | some undo => do
      let undos ← spendInputs rest
      pure (undo :: undos)

/-- Spend the inputs and add the outputs. -/
def updateCoins (tx : CTransaction) (nHeight : Int32) : ViewM CTxUndo := do
  let vprevout ← spendInputs V s (if tx.isCoinBase then [] else tx.vin)
  withCoins V s tx.getHash fun _ => ((), CCoins.fromTx tx nHeight)
  pure ⟨vprevout⟩

/-! ## ConnectBlock -/

/-- The running totals of the loop over the transactions. -/
structure BlockTotals where
  nFees : CAmount := 0
  nSigOps : Nat := 0
  vtxundo : List CTxUndo := []
  vChecks : List CScriptCheck := []

/-- What is done for a transaction with inputs before it is applied. -/
def connectInputs (pindex : CBlockIndex) (flags : UInt32) (fScriptChecks : Bool)
    (tot : BlockTotals) (tx : CTransaction) : ViewM BlockTotals :=
  if tx.isCoinBase then pure tot
  else do
    let have_ ← viewHaveInputs V s tx
    ensure have_ (.reject (dos 100 "bad-txns-inputs-missingorspent"))
    let p2sh ← p2shSigOps V s pindex tx
    let nSigOps := tot.nSigOps + p2sh
    ensure (nSigOps ≤ maxBlockSigOps) (.reject (dos 100 "bad-blk-sigops"))
    let nValueIn ← getValueIn V s tx
    let nValueOut ← throwing tx.getValueOut
    let vChecks ← checkInputs V s E tx fScriptChecks flags
    pure { tot with
      nFees := tot.nFees + (nValueIn - nValueOut), nSigOps := nSigOps,
      vChecks := tot.vChecks ++ vChecks }

/-- One round of the loop, for the transaction with index `i`. -/
def connectTx (pindex : CBlockIndex) (flags : UInt32) (fScriptChecks : Bool) (i : Nat)
    (tot : BlockTotals) (tx : CTransaction) : ViewM BlockTotals := do
  let nSigOps := tot.nSigOps + getLegacySigOpCount tx
  ensure (nSigOps ≤ maxBlockSigOps) (.reject (dos 100 "bad-blk-sigops"))
  let tot ← connectInputs V s E pindex flags fScriptChecks { tot with nSigOps := nSigOps } tx
  let txundo ← updateCoins V s tx pindex.nHeight
  pure { tot with vtxundo := if i = 0 then tot.vtxundo else tot.vtxundo ++ [txundo] }

/-- All transactions, each on the coins the ones before left. -/
def connectTxs (pindex : CBlockIndex) (flags : UInt32) (fScriptChecks : Bool) :
    Nat → BlockTotals → List CTransaction → ViewM BlockTotals
  | _, tot, [] => pure tot
  | i, tot, tx :: rest => do
    let tot ← connectTx V s E pindex flags fScriptChecks i tot tx
    connectTxs pindex flags fScriptChecks (i + 1) tot rest

/-- The two blocks that are allowed to overwrite unspent transactions. -/
def bip30Exempt (pindex : CBlockIndex) : Bool := (pindex.nHeight == 91842 && pindex.phashBlock ==
      some 0x00000000000a4d0a398161ffc163c503763b1f4360639393e0e4c8e300e0caec) ||
    (pindex.nHeight == 91880 && pindex.phashBlock ==
      some 0x00000000000743f190a18c5577a3c2d2a1f610ae9601ac046a38084ccb7cd721)

/-- No transaction of the block overwrites one that is not completely spent. -/
def checkOverwrite : List CTransaction → ViewM Unit
  | [] => pure ()
  | tx :: rest => do
    let coins ← accessCoins V s tx.getHash
    ensure ((coins.bind CCoins.live).isNone) (.reject (dos 100 "bad-txns-BIP30"))
    checkOverwrite rest

/-- `hashPrevBlock`: the hash of `pprev`, or zero when there is none. -/
def prevBlockHash (pprev : List CBlockIndex) : ViewM Uint256 :=
  match pprev with
  | [] => pure 0
  | prev :: _ => deref prev.phashBlock

/-- The checks and the changes after the special case of the genesis block. -/
def connectBody (block : CBlock) (pindex : CBlockIndex) (pprev : List CBlockIndex)
    (fJustCheck : Bool) : ViewM CBlockUndo := do
  let fScriptChecks : Bool := getTotalBlocksEstimate E.params E.fCheckpointsEnabled ≤ pindex.nHeight
  checkOverwrite V s (if bip30Exempt pindex then [] else block.vtx)
  let flags := connectFlags E.params block.toCBlockHeader pindex pprev
  let tot ← connectTxs V s E pindex flags fScriptChecks 0 {} block.vtx
  let coinbase ← deref block.vtx.head?
  let nValueOut ← throwing coinbase.getValueOut
  ensure (nValueOut ≤ getBlockValue pindex.nHeight tot.nFees) (.reject (dos 100 "bad-cb-amount"))
  ensure (tot.vChecks.all fun check => (E.verifyScript check).isNone) (.reject { nDoS := 100 })
  if fJustCheck then pure ⟨tot.vtxundo⟩
  else do
    let hash ← deref pindex.phashBlock
    setBestBlock hash
    pure ⟨tot.vtxundo⟩

/-- Check the block and apply it to the view. -/
def connectBlock (block : CBlock) (pindex : CBlockIndex) (pprev : List CBlockIndex)
    (fJustCheck : Bool) : ViewM CBlockUndo := do
  check (checkBlock E.toBlockEnv block (!fJustCheck) (!fJustCheck))
  let hashPrevBlock ← prevBlockHash pprev
  let best ← viewBestBlock V s
  ensure (hashPrevBlock == best) (.assertion .bestBlock)
  if E.getHash block.toCBlockHeader = E.params.hashGenesisBlock then do
    let hash ← deref pindex.phashBlock
    setBestBlock hash
    pure ⟨[]⟩
  else connectBody V s E block pindex pprev fJustCheck

end Connect

/-! ## DisconnectBlock -/

/-- The comparison of the outputs in the view with those of the block; the outputs are then
removed. A negative version is taken over first, because it is not stored. -/
def removeOutputs (tx : CTransaction) (nHeight : Int32) (outs : CCoins) : Bool × CCoins :=
  let outs := outs.clearUnspendable
  let outsBlock := CCoins.fromTx tx nHeight
  let outs := if outsBlock.nVersion < 0 then { outs with nVersion := outsBlock.nVersion } else outs
  (outs.eqv outsBlock, CCoins.cleared)

/-- `vout.resize(out.n+1)` if that is longer, the sum being formed in 32 bits. -/
def resizeFor (n : UInt32) (vout : List CTxOut) : List CTxOut :=
  vout ++ List.replicate ((n + 1).toNat - vout.length) CTxOut.null

/-- One input is restored from its undo record; the flag says that everything was as expected.
There is no answer when the index is past the end of `vout`. -/
def restoreInput (out : COutPoint) (undo : CTxInUndo) (coins : CCoins) : Option Bool × CCoins :=
  let fClean := if undo.nHeight ≠ 0 then coins.isPruned else !coins.isPruned
  let coins :=
    if undo.nHeight ≠ 0 then
      { fCoinBase := undo.fCoinBase, vout := [], nHeight := undo.nHeight.toInt32,
        nVersion := undo.nVersion }
    else coins
  let fClean := fClean && !coins.isAvailable out.n
  let vout := resizeFor out.n coins.vout
  if out.n.toNat < vout.length then
    (some fClean, { coins with vout := vout.set out.n.toNat undo.txout })
  else (none, coins)

section Disconnect

variable {σ : Type} (V : CCoinsView σ) (s : σ)

/-- The loop over the inputs, given in the order in which it visits them. -/
def restoreInputs : List (CTxIn × CTxInUndo) → Bool → ViewM Bool
  | [], fClean => pure fClean
  | (txin, undo) :: rest, fClean => do
    match ← withCoins V s txin.prevout.hash (restoreInput txin.prevout undo) with
    | none => fail .invalidAccess
    | some clean => restoreInputs rest (fClean && clean)

/-- One transaction is undone; the coinbase comes without an undo record. -/
def disconnectTx (nHeight : Int32) (tx : CTransaction) (txundo : Option CTxUndo)
    (fClean : Bool) : ViewM Bool := do
  let clean ← withCoins V s tx.getHash (removeOutputs tx nHeight)
  match txundo with
  | none => pure (fClean && clean)
  | some txundo => do
    ensure (txundo.vprevout.length == tx.vin.length)
      (.error "DisconnectBlock() : transaction and undo data inconsistent")
    restoreInputs V s (tx.vin.zip txundo.vprevout).reverse (fClean && clean)

/-- The loop over the transactions, given in the order in which it visits them. -/
def disconnectTxs (nHeight : Int32) : List (CTransaction × Option CTxUndo) → Bool → ViewM Bool
  | [], fClean => pure fClean
  | (tx, txundo) :: rest, fClean => do
    let fClean ← disconnectTx V s nHeight tx txundo fClean
    disconnectTxs nHeight rest fClean

/-- `DisconnectBlock` with the undo record in hand; the answer is `fClean`. -/
def disconnectBlock (block : CBlock) (pindex : CBlockIndex) (pprev : List CBlockIndex)
    (blockUndo : CBlockUndo) : ViewM Bool := do
  let hash ← deref pindex.phashBlock
  let best ← viewBestBlock V s
  ensure (hash == best) (.assertion .bestBlock)
  ensure (blockUndo.vtxundo.length + 1 == block.vtx.length)
    (.error "DisconnectBlock() : block and undo data inconsistent")
  let fClean ← disconnectTxs V s pindex.nHeight
    (block.vtx.zip (none :: blockUndo.vtxundo.map some)).reverse true
  let prev ← deref pprev.head?
  let hashPrev ← deref prev.phashBlock
  setBestBlock hashPrev
  pure fClean

end Disconnect

end MonetaryUnit
