/-
# MonetaryUnit.Validation.Ledger — what connecting a block does to the coins

The abstract ledger: a transaction removes the coins it spends and then puts its own outputs
under its id (`FlatMap.applyTx`). `connectBlock` is taken apart once, into `BlockConnected`:
what an accepted block must have satisfied, and that the view shows the coins of the abstract
ledger afterwards.

Most of validation only reads the view. `ReadOnly` programs are closed under sequencing, so
that such a part keeps what the view shows whatever else it does.
-/

import MonetaryUnit.Validation.ConnectBlock

namespace MonetaryUnit

open ViewM Function List CCoins FlatMap Option

/-! ## The abstract ledger -/

/-- The inputs a transaction spends: a coinbase spends none. -/
def CTransaction.spends (tx : CTransaction) : List CTxIn := if tx.isCoinBase then [] else tx.vin

namespace FlatMap

/-- Remove the coin at an outpoint. -/
def spendOutput (m : FlatMap) (o : COutPoint) : FlatMap := m.edit o.hash fun c => c.nullAt o.n.toNat

def spendAll (m : FlatMap) (vin : List CTxIn) : FlatMap :=
  vin.foldl (fun m txin => m.spendOutput txin.prevout) m

def applyTx (m : FlatMap) (nHeight : Int32) (tx : CTransaction) : FlatMap :=
  Function.update (m.spendAll tx.spends) tx.getHash (CCoins.fromTx tx nHeight).live

/-- The value at an outpoint. -/
def valueAt (m : FlatMap) (o : COutPoint) : CAmount :=
  match m.coinAt o.hash o.n.toNat with
  | some coin => coin.txout.nValue
  | none => 0

/-- The sum `GetValueIn` and `CheckInputs` form, in 64 bits and starting from `n`. -/
def valueIn (m : FlatMap) (n : CAmount) (vin : List CTxIn) : CAmount :=
  vin.foldl (fun n txin => n + m.valueAt txin.prevout) n

theorem coinAt_spendOutput (m : FlatMap) (o : COutPoint) (t : Uint256) (n : Nat) :
    (m.spendOutput o).coinAt t n =
      if t = o.hash ∧ n = o.n.toNat then none else m.coinAt t n := by
  by_cases ht : t = o.hash
  · subst ht
    rw [spendOutput, edit, coinAt_of_live (update_self ..), coinAt_cleanup, coinAt_nullAt]
    simp only [true_and]
    unfold coinAt
    cases m o.hash <;> rfl
  · rw [if_neg (fun h => ht h.1), coinAt, spendOutput, edit, update_of_ne ht, coinAt]

theorem coinAt_spendAll (m : FlatMap) (vin : List CTxIn) (t : Uint256) (n : Nat) :
    (m.spendAll vin).coinAt t n =
      if ∃ txin ∈ vin, t = txin.prevout.hash ∧ n = txin.prevout.n.toNat then none
      else m.coinAt t n := by
  induction vin generalizing m with
  | nil => simp [spendAll]
  | cons txin rest ih =>
    have hcons : m.spendAll (txin :: rest) = (m.spendOutput txin.prevout).spendAll rest := rfl
    rw [hcons, ih, coinAt_spendOutput]
    by_cases hhead : t = txin.prevout.hash ∧ n = txin.prevout.n.toNat
    · simp [hhead]
    · simp only [mem_cons, exists_eq_or_imp, hhead, false_or, if_false]

theorem coinAt_applyTx (m : FlatMap) (nHeight : Int32) (tx : CTransaction) (t : Uint256)
    (n : Nat) : (m.applyTx nHeight tx).coinAt t n =
      if t = tx.getHash then (fromTx tx nHeight).coinAt n
      else (m.spendAll tx.spends).coinAt t n := by
  by_cases ht : t = tx.getHash
  · subst ht
    rw [if_pos rfl]
    exact coinAt_of_live (update_self ..) n
  · rw [if_neg ht, coinAt, applyTx, update_of_ne ht, coinAt]

end FlatMap

/-- The undo records of a list of spends, one by one. -/
inductive SpentAll : FlatMap → List CTxIn → List CTxInUndo → Prop
  | nil (m : FlatMap) : SpentAll m [] []
  | cons {m : FlatMap} {txin : CTxIn} {rest : List CTxIn} {undo : CTxInUndo}
      {undos : List CTxInUndo} {c c' : CCoins} (coins : m txin.prevout.hash = some c)
      (spent : c.Spent txin.prevout.n.toNat undo c')
      (tail : SpentAll (m.spendOutput txin.prevout) rest undos) :
      SpentAll m (txin :: rest) (undo :: undos)

/-- What was checked of a transaction before it was applied, and the fees after it. -/
structure InputsConnected (m : FlatMap) (tx : CTransaction) (nFees nFees' : CAmount) : Prop where
  coinbase : tx.isCoinBase = true → nFees' = nFees
  available : tx.isCoinBase = false → ∀ txin ∈ tx.vin, m.available txin.prevout = true
  fees : tx.isCoinBase = false → ∃ nValueOut, tx.getValueOut = .ok nValueOut ∧
    nValueOut ≤ m.valueIn 0 tx.vin ∧ nFees' = nFees + (m.valueIn 0 tx.vin - nValueOut)

/-- A run of the loop over the transactions, on the abstract ledger. -/
inductive TxsConnected (nHeight : Int32) :
    FlatMap → CAmount → List CTransaction → List CTxUndo → FlatMap → CAmount → Prop
  | nil (m : FlatMap) (nFees : CAmount) : TxsConnected nHeight m nFees [] [] m nFees
  | cons {m m' : FlatMap} {nFees nFees1 nFees' : CAmount} {tx : CTransaction}
      {rest : List CTransaction} {txundo : CTxUndo} {undos : List CTxUndo}
      (inputs : InputsConnected m tx nFees nFees1) (spent : SpentAll m tx.spends txundo.vprevout)
      (tail : TxsConnected nHeight (m.applyTx nHeight tx) nFees1 rest undos m' nFees') :
      TxsConnected nHeight m nFees (tx :: rest) (txundo :: undos) m' nFees'

/-- An accepted block, on the abstract ledger. -/
structure BlockConnected (m : FlatMap) (block : CBlock) (pindex : CBlockIndex)
    (blockundo : CBlockUndo) (m' : FlatMap) : Prop where
  checked : CheckedBlock block
  overwrites : bip30Exempt pindex = false → ∀ tx ∈ block.vtx, m tx.getHash = none
  txs : ∃ undos nFees, TxsConnected pindex.nHeight m 0 block.vtx undos m' nFees ∧
    blockundo.vtxundo = undos.tail ∧ ∃ coinbase nValueOut, block.vtx.head? = some coinbase ∧
      coinbase.getValueOut = .ok nValueOut ∧ nValueOut ≤ getBlockValue pindex.nHeight nFees

section Inversion

variable {σ : Type} {V : CCoinsView σ} {s : σ} {E : ConnectEnv}
variable {st st' : List CCoinsViewCache} {m : FlatMap} {best below : Uint256} {c : CCoins}

/-! ## Programs that only read -/

/-- Whatever the program returns, the view shows afterwards what it showed before. -/
def ReadOnly {α : Type} (V : CCoinsView σ) (s : σ) (x : ViewM α) : Prop :=
  ∀ ⦃st m best below a st'⦄, Shows V s st m best below → x st = .ok (a, st') →
    Shows V s st' m best below

namespace ReadOnly

variable {α β : Type} {x : ViewM α}

theorem bind {f : α → ViewM β} (hx : ReadOnly V s x) (hf : ∀ a, ReadOnly V s (f a)) :
    ReadOnly V s (x >>= f) := by
  intro st m best below b st' h hrun
  obtain ⟨a, st1, hxa, hfa⟩ := bind_ok_iff.mp hrun
  exact hf a (hx h hxa) hfa

/-- A program that leaves the caches alone. -/
theorem of_eq (hx : ∀ ⦃st a st'⦄, x st = .ok (a, st') → st = st') : ReadOnly V s x := by
  intro st m best below a st' h hrun
  rwa [← hx hrun]

theorem pure (a : α) : ReadOnly V s (Pure.pure a : ViewM α) :=
  of_eq fun _ _ _ h => (pure_ok_iff.mp h).2

theorem fail (f : Failure) : ReadOnly V s (ViewM.fail f : ViewM α) := of_eq nofun

theorem ensure (ok : Bool) (f : Failure) : ReadOnly V s (ViewM.ensure ok f) :=
  of_eq fun _ _ _ h => (ensure_ok_iff.mp h).2

theorem throwing (r : Except String α) : ReadOnly V s (ViewM.throwing r) :=
  of_eq fun _ _ _ h => (throwing_ok_iff.mp h).2

theorem deref (p : Option α) : ReadOnly V s (ViewM.deref p) :=
  of_eq fun _ _ _ h => (deref_ok_iff.mp h).2

/-- A primitive with a specification returns what the specification says. -/
theorem of_spec
    (hx : ∀ ⦃st m best below⦄, Shows V s st m best below →
      ∃ a st', x st = .ok (a, st') ∧ Shows V s st' m best below) : ReadOnly V s x := by
  intro st m best below a st' h hrun
  obtain ⟨a', st1, hok, hshows⟩ := hx h
  rw [hok] at hrun
  cases hrun
  exact hshows

theorem accessCoins (t : Uint256) : ReadOnly V s (accessCoins V s t) := of_spec fun _ _ _ _ h =>
    have ⟨r, st', hok, _, hshows⟩ := accessCoins_spec h t
    ⟨r, st', hok, hshows⟩

theorem viewHaveInputs (tx : CTransaction) : ReadOnly V s (viewHaveInputs V s tx) :=
  of_spec fun _ _ _ _ h => ⟨_, viewHaveInputs_spec h tx⟩

theorem viewBestBlock : ReadOnly V s (viewBestBlock V s) :=
  of_spec fun _ _ _ _ h => ⟨_, viewBestBlock_spec h⟩

theorem accessKnownCoins (t : Uint256) : ReadOnly V s (accessKnownCoins V s t) := by
  refine bind (accessCoins t) fun r => ?_
  cases r with
  | none => exact fail _
  | some c => exact pure c

theorem getOutputFor (txin : CTxIn) : ReadOnly V s (getOutputFor V s txin) := by
  refine bind (accessCoins _) fun r => ?_
  cases r with
  | none => exact fail _
  | some c =>
    show ReadOnly V s (if _ then _ else _)
    split
    · exact deref _
    · exact fail _

theorem p2shSigOpLoop (n : Nat) (vin : List CTxIn) : ReadOnly V s (p2shSigOpLoop V s n vin) := by
  induction vin generalizing n with
  | nil => exact pure n
  | cons txin rest ih => exact bind (getOutputFor txin) fun _ => ih _

theorem p2shSigOps (pindex : CBlockIndex) (tx : CTransaction) :
    ReadOnly V s (p2shSigOps V s pindex tx) := by
  unfold MonetaryUnit.p2shSigOps getP2SHSigOpCount
  split
  · split
    · exact pure 0
    · exact p2shSigOpLoop 0 tx.vin
  · exact pure 0

theorem checkInputLoop (nSpendHeight : Int32) (n : CAmount) (vin : List CTxIn) :
    ReadOnly V s (checkInputLoop V s nSpendHeight n vin) := by
  induction vin generalizing n with
  | nil => exact pure n
  | cons txin rest ih =>
    refine bind ?_ fun _ => ih _
    exact bind (accessKnownCoins _) fun _ => bind (ensure _ _) fun _ => bind (deref _) fun _ =>
      bind (ensure _ _) fun _ => pure _

theorem runCheck (check : CScriptCheck) : ReadOnly V s (runCheck E check) := by
  unfold MonetaryUnit.runCheck
  split
  · exact pure ()
  · split <;> exact fail _

theorem scriptLoop (tx : CTransaction) (flags : UInt32) (i : Nat) (vin : List CTxIn) :
    ReadOnly V s (scriptLoop V s E tx flags i vin) := by
  induction vin generalizing i with
  | nil => exact pure []
  | cons txin rest ih =>
    refine bind (accessKnownCoins _) fun c => bind (deref _) fun out => ?_
    split
    · exact bind (ih _) fun _ => pure _
    · exact bind (runCheck _) fun _ => ih _

theorem checkInputs (tx : CTransaction) (fScriptChecks : Bool) (flags : UInt32) :
    ReadOnly V s (checkInputs V s E tx fScriptChecks flags) := by
  unfold MonetaryUnit.checkInputs
  split
  · exact pure []
  · refine bind (viewHaveInputs tx) fun _ => bind (ensure _ _) fun _ => bind viewBestBlock fun _ =>
      bind (deref _) fun _ => bind (checkInputLoop _ _ _) fun _ => bind (throwing _) fun _ =>
      bind (ensure _ _) fun _ => bind (ensure _ _) fun _ => bind (ensure _ _) fun _ => ?_
    split
    · exact scriptLoop tx flags 0 tx.vin
    · exact pure []

theorem checkOverwrite (txs : List CTransaction) : ReadOnly V s (checkOverwrite V s txs) := by
  induction txs with
  | nil => exact pure ()
  | cons tx rest ih => exact bind (accessCoins _) fun _ => bind (ensure _ _) fun _ => ih

end ReadOnly

/-! ## Values -/

theorem FlatMap.exists_coin {o : COutPoint} (h : m.available o = true) :
    ∃ c out, m o.hash = some c ∧ c.vout[o.n.toNat]? = some out ∧
      m.coinAt o.hash o.n.toNat = some (c.withOutput out) ∧ m.valueAt o = out.nValue ∧
      c.isAvailable o.n = true := by
  rw [available_eq, isSome_iff_exists] at h
  obtain ⟨coin, hcoin⟩ := h
  obtain ⟨c, hm, hc⟩ := coinAt_eq_some_iff.mp hcoin
  obtain ⟨out, hout, -, rfl⟩ := CCoins.coinAt_eq_some_iff.mp hc
  refine ⟨c, out, hm, hout, hcoin, ?_, ?_⟩
  · rw [valueAt, hcoin]
    rfl
  · rw [isAvailable_eq, hc]
    rfl

/-- A read of coins that are not pruned returns what the map holds. -/
theorem eq_some_of_live {r : Option CCoins} (h : r.bind live = some c) : r = some c := by
  obtain ⟨c', rfl, hlive⟩ := bind_eq_some_iff.mp h
  rw [(live_eq_some_iff.mp hlive).2]

theorem getOutputFor_spec (h : Shows V s st m best below) {txin : CTxIn}
    (hav : m.available txin.prevout = true) :
    ∃ coin st', getOutputFor V s txin st = .ok (coin.txout, st') ∧
      m.coinAt txin.prevout.hash txin.prevout.n.toNat = some coin ∧ Shows V s st' m best below := by
  obtain ⟨c, out, hm, hout, hcoin, -, hcav⟩ := exists_coin hav
  obtain ⟨r, st', hacc, hr, hshows⟩ := accessCoins_spec h txin.prevout.hash
  rw [hm] at hr
  obtain rfl := eq_some_of_live hr
  refine ⟨c.withOutput out, st', ?_, hcoin, hshows⟩
  rw [getOutputFor, bind_of_ok hacc]
  simp only [hcav, if_true, hout]
  rfl

variable {vin : List CTxIn} {tx : CTransaction} {fScriptChecks : Bool} {flags : UInt32}
  {pindex : CBlockIndex} {pprev : List CBlockIndex} {txs : List CTransaction} {block : CBlock}
  {blockundo : CBlockUndo} {tot tot' : BlockTotals}

section

variable (h : Shows V s st m best below)
include h

theorem valueInLoop_spec (hav : ∀ txin ∈ vin, m.available txin.prevout = true) (n : CAmount) :
    ∃ st', valueInLoop V s n vin st = .ok (m.valueIn n vin, st') ∧ Shows V s st' m best below := by
  induction vin generalizing n st with
  | nil => exact ⟨st, rfl, h⟩
  | cons txin rest ih =>
    rw [forall_mem_cons] at hav
    obtain ⟨coin, st1, hout, hcoin, hshows⟩ := getOutputFor_spec h hav.1
    have hval : m.valueAt txin.prevout = coin.txout.nValue := by rw [valueAt, hcoin]
    obtain ⟨st', hrest, hshows'⟩ := ih hshows hav.2 (n + coin.txout.nValue)
    refine ⟨st', ?_, hshows'⟩
    rw [valueInLoop, bind_of_ok hout, hrest, ← hval]
    rfl

theorem accessKnownCoins_inv {t : Uint256} (hrun : accessKnownCoins V s t st = .ok (c, st')) :
    c.live = m t ∧ Shows V s st' m best below := by
  refine ⟨?_, ReadOnly.accessKnownCoins t h hrun⟩
  obtain ⟨r, st1, hacc, hr, -⟩ := accessCoins_spec h t
  rw [accessKnownCoins, bind_of_ok hacc] at hrun
  cases r with
  | none => cases hrun
  | some c' =>
    obtain ⟨rfl, -⟩ := pure_ok_iff.mp hrun
    exact hr

theorem checkInputLoop_inv (hav : ∀ txin ∈ vin, m.available txin.prevout = true)
    {nSpendHeight : Int32} {n v : CAmount}
    (hrun : checkInputLoop V s nSpendHeight n vin st = .ok (v, st')) : v = m.valueIn n vin := by
  induction vin generalizing n st with
  | nil => exact (pure_ok_iff.mp hrun).1.symm
  | cons txin rest ih =>
    rw [forall_mem_cons] at hav
    obtain ⟨n1, st1, hone, hrest⟩ := bind_ok_iff.mp hrun
    simp only [checkInput, bind_ok_iff, ensure_ok_iff, deref_ok_iff, pure_ok_iff] at hone
    obtain ⟨c, st2, hacc, _, _, ⟨-, rfl⟩, out, _, ⟨hget, rfl⟩, _, _, ⟨-, rfl⟩, rfl, rfl⟩ := hone
    obtain ⟨hlive, hshows⟩ := accessKnownCoins_inv h hacc
    -- the input is available, so what was read is the coin of the map
    obtain ⟨c', out', hm, hout', -, hval, -⟩ := exists_coin hav.1
    rw [hm, live_eq_some_iff] at hlive
    rw [hlive.2, hout'] at hget
    cases hget
    rw [ih hshows hav.2 hrest, ← hval]
    rfl

theorem checkInputs_inv (htx : tx.isCoinBase = false)
    (hav : ∀ txin ∈ tx.vin, m.available txin.prevout = true) {vChecks : List CScriptCheck}
    (hrun : checkInputs V s E tx fScriptChecks flags st = .ok (vChecks, st')) :
    ∃ nValueOut, tx.getValueOut = .ok nValueOut ∧ nValueOut ≤ m.valueIn 0 tx.vin := by
  rw [checkInputs, if_neg (by simp [htx])] at hrun
  simp only [bind_ok_iff, ensure_ok_iff, deref_ok_iff, throwing_ok_iff] at hrun
  obtain ⟨_, st1, hhave, _, _, ⟨-, rfl⟩, _, st3, hbest, _, _, ⟨-, rfl⟩, v, st5, hloop, out, _,
    ⟨hout, -⟩, _, _, ⟨hle, -⟩, -⟩ := hrun
  have h1 := ReadOnly.viewHaveInputs tx h hhave
  have h3 := ReadOnly.viewBestBlock h1 hbest
  obtain rfl := checkInputLoop_inv h3 hav hloop
  exact ⟨out, hout, by simpa using hle⟩

/-! ## Transactions and blocks -/

theorem connectInputs_inv
    (hrun : connectInputs V s E pindex flags fScriptChecks tot tx st = .ok (tot', st')) :
    InputsConnected m tx tot.nFees tot'.nFees ∧ tot'.vtxundo = tot.vtxundo ∧
      Shows V s st' m best below := by
  unfold connectInputs at hrun
  split at hrun
  · rename_i htx
    obtain ⟨rfl, rfl⟩ := pure_ok_iff.mp hrun
    refine ⟨⟨fun _ => rfl, ?_, ?_⟩, rfl, h⟩ <;> intro hf <;> rw [htx] at hf <;> cases hf
  rename_i htx
  rw [Bool.not_eq_true] at htx
  simp only [bind_ok_iff, ensure_ok_iff, throwing_ok_iff, pure_ok_iff] at hrun
  obtain ⟨b, st1, hhave, _, _, ⟨hall, rfl⟩, _, st3, hp2sh, _, _, ⟨-, rfl⟩, v, st5, hin, out, _,
    ⟨hvalue, rfl⟩, vChecks, st7, hcheck, rfl, rfl⟩ := hrun
  obtain ⟨st1', hhave', h1⟩ := viewHaveInputs_spec h tx
  rw [hhave'] at hhave
  cases hhave
  have hav : ∀ txin ∈ tx.vin, m.available txin.prevout = true := by
    simpa [htx] using hall
  have h3 := ReadOnly.p2shSigOps pindex tx h1 hp2sh
  obtain ⟨st5', hin', h5⟩ := valueInLoop_spec h3 hav 0
  rw [getValueIn, if_neg (by simp [htx]), hin'] at hin
  cases hin
  obtain ⟨out', hout', hle⟩ := checkInputs_inv h5 htx hav hcheck
  have h7 := ReadOnly.checkInputs tx _ _ h5 hcheck
  rw [hvalue] at hout'
  cases hout'
  refine ⟨⟨?_, fun _ => hav, fun _ => ⟨out, hvalue, hle, rfl⟩⟩, rfl, h7⟩
  intro hf
  rw [htx] at hf
  cases hf

theorem spendInputs_inv {undos : List CTxInUndo}
    (hrun : spendInputs V s vin st = .ok (undos, st')) :
    SpentAll m vin undos ∧ Shows V s st' (m.spendAll vin) best below := by
  induction vin generalizing undos m st with
  | nil =>
    obtain ⟨rfl, rfl⟩ := pure_ok_iff.mp hrun
    exact ⟨.nil m, h⟩
  | cons txin rest ih =>
    obtain ⟨r, st1, hedit, hmatch⟩ := bind_ok_iff.mp hrun
    obtain ⟨x, hlive, st1', hedit', hshows⟩ :=
      withCoins_spec h txin.prevout.hash (spendEdit txin.prevout)
    rw [hedit'] at hedit
    cases hedit
    cases hspend : x.spend txin.prevout with
    | none =>
      simp only [spendEdit, hspend] at hmatch
      cases hmatch
    | some p =>
      obtain ⟨undo, x'⟩ := p
      have hspent := spend_eq_some hspend
      simp only [spendEdit, hspend, bind_ok_iff] at hmatch
      obtain ⟨undos', st2, hrest, hpure⟩ := hmatch
      obtain ⟨rfl, rfl⟩ := pure_ok_iff.mp hpure
      -- the entry was not pruned, so it is the one of the map
      have hx : m txin.prevout.hash = some x := by
        rw [← hlive, live_of_not_pruned (isPruned_eq_false_of_coinAt hspent.coin)]
      have hm : update m txin.prevout.hash
          (spendEdit txin.prevout x).2.cleanup.live = m.spendOutput txin.prevout := by
        simp only [spendEdit, hspend, spendOutput, edit, hx, getD_some]
        rw [cleanup_of_clean hspent.clean, hspent.eq]
      rw [hm] at hshows
      obtain ⟨htail, hshows'⟩ := ih hshows hrest
      exact ⟨.cons hx hspent htail, hshows'⟩

theorem updateCoins_inv {nHeight : Int32} {txundo : CTxUndo}
    (hrun : updateCoins V s tx nHeight st = .ok (txundo, st')) :
    SpentAll m tx.spends txundo.vprevout ∧ Shows V s st' (m.applyTx nHeight tx) best below := by
  simp only [updateCoins, bind_ok_iff, pure_ok_iff] at hrun
  obtain ⟨vprevout, st1, hspend, _, st2, hedit, rfl, rfl⟩ := hrun
  obtain ⟨hspent, h1⟩ := spendInputs_inv h hspend
  obtain ⟨x, -, st2', hedit', h2⟩ :=
    withCoins_spec h1 tx.getHash fun _ => ((), fromTx tx nHeight)
  rw [hedit'] at hedit
  cases hedit
  rw [cleanup_of_clean (clean_fromTx tx nHeight)] at h2
  exact ⟨hspent, h2⟩

theorem connectTxs_inv {i : Nat}
    (hrun : connectTxs V s E pindex flags fScriptChecks i tot txs st = .ok (tot', st')) :
    ∃ undos m', TxsConnected pindex.nHeight m tot.nFees txs undos m' tot'.nFees ∧
      tot'.vtxundo = tot.vtxundo ++ (if i = 0 then undos.tail else undos) ∧
      Shows V s st' m' best below := by
  induction txs generalizing i tot st m with
  | nil =>
    obtain ⟨rfl, rfl⟩ := pure_ok_iff.mp hrun
    exact ⟨[], m, .nil m _, by simp, h⟩
  | cons tx rest ih =>
    obtain ⟨tot1, st1, hone, hrest⟩ := bind_ok_iff.mp hrun
    simp only [connectTx, bind_ok_iff, ensure_ok_iff, pure_ok_iff] at hone
    obtain ⟨_, _, ⟨-, rfl⟩, tot2, st3, hin, txundo, st4, hupd, rfl, rfl⟩ := hone
    obtain ⟨hinputs, hundo, h3⟩ := connectInputs_inv h hin
    obtain ⟨hspent, h4⟩ := updateCoins_inv h3 hupd
    obtain ⟨undos, m', htail, hvtx, h'⟩ := ih h4 hrest
    refine ⟨txundo :: undos, m', .cons hinputs hspent htail, ?_, h'⟩
    rw [hvtx, hundo]
    by_cases hi : i = 0 <;> simp [hi]

theorem checkOverwrite_inv {u : Unit} (hrun : checkOverwrite V s txs st = .ok (u, st')) :
    ∀ tx ∈ txs, m tx.getHash = none := by
  induction txs generalizing st with
  | nil => simp
  | cons tx rest ih =>
    simp only [checkOverwrite, bind_ok_iff, ensure_ok_iff] at hrun
    obtain ⟨r, st1, hacc, _, _, ⟨hnone, rfl⟩, hrest⟩ := hrun
    obtain ⟨r', st1', hacc', hr, h1⟩ := accessCoins_spec h tx.getHash
    rw [hacc'] at hacc
    cases hacc
    rw [forall_mem_cons]
    refine ⟨?_, ih h1 hrest⟩
    rw [← hr]
    simpa using hnone

theorem connectBody_inv (hchecked : CheckedBlock block)
    (hrun : connectBody V s E block pindex pprev false st = .ok (blockundo, st')) :
    ∃ m' hash, BlockConnected m block pindex blockundo m' ∧ pindex.phashBlock = some hash ∧
      Shows V s st' m' (if hash = 0 then below else hash) below := by
  simp only [connectBody, bind_ok_iff, ensure_ok_iff, deref_ok_iff, throwing_ok_iff, pure_ok_iff,
    Bool.false_eq_true, if_false] at hrun
  obtain ⟨_, st1, hover, tot, st2, htxs, cb, _, ⟨hfirst, rfl⟩, v, _, ⟨hvalue, rfl⟩, _, _,
    ⟨hlimit, rfl⟩, _, _, ⟨-, rfl⟩, hash, _, ⟨hsome, rfl⟩, _, st8, hset, rfl, rfl⟩ := hrun
  have h1 := ReadOnly.checkOverwrite _ h hover
  have hnone := checkOverwrite_inv h hover
  obtain ⟨undos, m', htxs, hundo, h2⟩ := connectTxs_inv h1 htxs
  obtain ⟨st8', hset', h8⟩ := setBestBlock_spec h2 hash
  rw [hset'] at hset
  cases hset
  refine ⟨m', hash, ⟨hchecked, ?_, undos, tot.nFees, htxs, ?_, cb, v, hfirst, hvalue, ?_⟩, hsome,
    h8⟩
  · intro hexempt
    simpa [hexempt] using hnone
  · simpa using hundo
  · simpa using hlimit

/-- An accepted block that is not the genesis block, in terms of the
abstract ledger. -/
theorem connectBlock_inv (hgenesis : E.getHash block.toCBlockHeader ≠ E.params.hashGenesisBlock)
    (hrun : connectBlock V s E block pindex pprev false st = .ok (blockundo, st')) :
    ∃ m' hash, BlockConnected m block pindex blockundo m' ∧ pindex.phashBlock = some hash ∧
      (∀ prev ∈ pprev.head?, prev.phashBlock = some best) ∧
      Shows V s st' m' (if hash = 0 then below else hash) below := by
  simp only [connectBlock, bind_ok_iff, check_ok_iff, ensure_ok_iff, beq_iff_eq] at hrun
  obtain ⟨_, _, ⟨hpass, rfl⟩, prev, st2, hprev, b, st3, hbest, _, _, ⟨rfl, rfl⟩, hrun⟩ := hrun
  have hst : st2 = st ∧ ∀ p ∈ pprev.head?, p.phashBlock = some prev := by
    cases pprev with
    | nil =>
      obtain ⟨-, rfl⟩ := pure_ok_iff.mp hprev
      simp
    | cons p rest =>
      obtain ⟨hp, rfl⟩ := deref_ok_iff.mp hprev
      simpa using hp
  obtain ⟨rfl, hprevs⟩ := hst
  obtain ⟨st3', hbest', h3⟩ := viewBestBlock_spec h
  rw [hbest'] at hbest
  cases hbest
  rw [if_neg hgenesis] at hrun
  obtain ⟨m', hash, hconn, hhash, h'⟩ := connectBody_inv h3 (checkBlock_checked hpass) hrun
  exact ⟨m', hash, hconn, hhash, hprevs, h'⟩

end

end Inversion

end MonetaryUnit
