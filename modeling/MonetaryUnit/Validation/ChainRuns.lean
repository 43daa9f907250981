/-
# MonetaryUnit.Validation.ChainRuns — the coins are those of the active chain

A reorganisation disconnects blocks from the tip and connects others. Each of them is handled in a
view of its own over `pcoinsTip`, which is flushed into it, and `pcoinsTip` is flushed into the
database now and then. Whatever happened, the coins of the view are what the blocks now in the
chain make of those it started with (`coins_of_chain`), and these blocks spend no output twice
(`no_double_spend`).

A restored view has the coins it had before but not the same entries. So each block of the chain
is kept with the ledger it was connected to (`Stacked`), and the view only mirrors these. That a
flush carries the best block down is taken from `flush_carries_iff`.
-/

import MonetaryUnit.Coins.BestBlock
import MonetaryUnit.Validation.Disconnect

namespace MonetaryUnit

open List CTransaction FlatMap ViewM

/-! ## Blocks in views of their own -/

/-- A call on a view over `pcoinsTip` that lives for this call and is flushed at its end. -/
def CoinsStack.inView {α : Type} (call : ViewM α) (st : CoinsStack CoinsDB) :
    Except Failure (α × CoinsStack CoinsDB) :=
  match call ({} :: st.caches) with
  | .error e => .error e
  | .ok (_, []) => .error .noCache
  | .ok (a, view :: below) =>
    match flush coinsViewDB st.base view below with
    | .error e => .error (.assertion (.coins e))
    | .ok st' => .ok (a, ⟨st'.caches.tail, st'.base⟩)

/-- What `ConnectTip` does to `pcoinsTip`. -/
def CoinsStack.connectTip (E : ConnectEnv) (block : CBlock) (pindex : CBlockIndex)
    (pprev : List CBlockIndex) (st : CoinsStack CoinsDB) :
    Except Failure (CBlockUndo × CoinsStack CoinsDB) :=
  st.inView (connectBlock coinsViewDB st.base E block pindex pprev false)

/-- What `DisconnectTip` does to `pcoinsTip`; a block that is not undone cleanly is an error. -/
def CoinsStack.disconnectTip (block : CBlock) (pindex : CBlockIndex) (pprev : List CBlockIndex)
    (blockundo : CBlockUndo) (st : CoinsStack CoinsDB) :
    Except Failure (Unit × CoinsStack CoinsDB) :=
  st.inView do
    let fClean ← disconnectBlock coinsViewDB st.base block pindex pprev blockundo
    ensure fClean (.error "DisconnectTip() : DisconnectBlock failed")

/-- A block of the active chain, with its place in the index and its undo record. -/
structure LinkedBlock where
  block : CBlock
  pindex : CBlockIndex
  prev : CBlockIndex
  pprev : List CBlockIndex
  blockundo : CBlockUndo

/-- The blocks that `DisconnectBlock` can undo: above the genesis block, with hashes that are not
null and not that of the parent, not allowed to overwrite, with one transaction to an id, and with
no input that refers to output number `2^32 - 1`. -/
structure LinkedBlock.Regular (b : LinkedBlock) : Prop where
  height : b.pindex.nHeight ≠ 0
  hash : b.pindex.phashBlock ≠ some 0
  prevHash : b.prev.phashBlock ≠ some 0
  hash_ne_prev : b.pindex.phashBlock ≠ b.prev.phashBlock
  notExempt : bip30Exempt b.pindex = false
  ids : ∀ x ∈ b.block.vtx, ∀ y ∈ b.block.vtx, x.getHash = y.getHash → x = y
  indexes : ∀ tx ∈ b.block.vtx, ∀ txin ∈ tx.spends, txin.prevout.n ≠ 0xFFFFFFFF

/-- The runs of `pcoinsTip` over the database from the coins `m0` on: the tip comes first in the
chain. -/
inductive ChainRun (m0 : FlatMap) : List LinkedBlock → CoinsStack CoinsDB → Prop
  | start {tip db} : Coherent coinsViewDB db [tip] → seen coinsViewDB db [tip] = m0 →
      HasHeights m0 → ChainRun m0 [] ⟨[tip], db⟩
  | connect {chain st st'} (E : ConnectEnv) (b : LinkedBlock) : ChainRun m0 chain st →
      b.Regular → E.getHash b.block.toCBlockHeader ≠ E.params.hashGenesisBlock →
      st.connectTip E b.block b.pindex (b.prev :: b.pprev) = .ok (b.blockundo, st') →
      ChainRun m0 (b :: chain) st'
  | disconnect {b chain st u st'} : ChainRun m0 (b :: chain) st →
      st.disconnectTip b.block b.pindex (b.prev :: b.pprev) b.blockundo = .ok (u, st') →
      ChainRun m0 chain st'
  | flush {chain tip db st} : ChainRun m0 chain ⟨[tip], db⟩ →
      flush coinsViewDB db tip [] = .ok st → ChainRun m0 chain st

/-- The transactions of a block, applied in order. -/
def applyTxs (nHeight : Int32) (m : FlatMap) (txs : List CTransaction) : FlatMap :=
  txs.foldl (fun m tx => m.applyTx nHeight tx) m

/-- The ledger that a chain makes of `m0`. -/
def ledgerOf (m0 : FlatMap) (chain : List LinkedBlock) : FlatMap :=
  chain.foldr (fun b m => applyTxs b.pindex.nHeight m b.block.vtx) m0

/-! ## Ledgers with the same coins -/

variable {db : CoinsDB} {st st' : CoinsStack CoinsDB} {caches : List CCoinsViewCache}
variable {best below : Uint256}
variable {m m' m0 : FlatMap} {nHeight : Int32} {pre txs : List CTransaction}
variable {undos : List CTxUndo} {nFees nFees' : CAmount}

theorem TxsConnected.eq_applyTxs (h : TxsConnected nHeight m nFees txs undos m' nFees') :
    m' = applyTxs nHeight m txs := by
  induction h with
  | nil => rfl
  | cons _ _ _ ih => exact ih

theorem coinAt_applyTxs (h : ∀ t n, m.coinAt t n = m'.coinAt t n) (t : Uint256) (n : Nat) :
    (applyTxs nHeight m txs).coinAt t n = (applyTxs nHeight m' txs).coinAt t n := by
  induction txs generalizing m m' with
  | nil => exact h t n
  | cons tx txs ih =>
    apply ih
    intro t n
    rw [coinAt_applyTx, coinAt_applyTx, coinAt_spendAll, coinAt_spendAll, h]

theorem HasHeights.applyTxs (h : HasHeights m) (hheight : nHeight ≠ 0) :
    HasHeights (applyTxs nHeight m txs) := by
  induction txs generalizing m with
  | nil => exact h
  | cons tx txs ih => exact ih (h.applyTx hheight tx)

/-! ## The chain under a view -/

/-- Each block was connected to a ledger that mirrors the one of the chain below it. -/
def Stacked (m0 : FlatMap) : List LinkedBlock → FlatMap → Uint256 → Prop
  | [], m, _ => Mirrors m m0
  | b :: chain, m, best => ∃ before after best',
      BlockConnected before b.block b.pindex b.blockundo after ∧ Mirrors m after ∧
      HasHeights before ∧ b.Regular ∧ b.pindex.phashBlock = some best ∧
      b.prev.phashBlock = some best' ∧ Stacked m0 chain before best'

variable {b : LinkedBlock} {chain : List LinkedBlock}

theorem Stacked.mirror (h : Stacked m0 chain m best) (hm : Mirrors m' m) :
    Stacked m0 chain m' best := by
  have htrans {x : FlatMap} (hx : Mirrors m x) : Mirrors m' x :=
    ⟨fun t n => (hm.coinAt t n).trans (hx.coinAt t n), fun t ht => hm.normal t (hx.normal t ht)⟩
  cases chain with
  | nil => exact htrans h
  | cons b chain =>
    obtain ⟨before, after, best', hconn, hafter, hrest⟩ := h
    exact ⟨before, after, best', hconn, htrans hafter, hrest⟩

theorem Stacked.coinAt (h : Stacked m0 chain m best) (t : Uint256) (n : Nat) :
    m.coinAt t n = (ledgerOf m0 chain).coinAt t n := by
  induction chain generalizing m best t n with
  | nil => exact Mirrors.coinAt h t n
  | cons b chain ih =>
    obtain ⟨before, after, best', hconn, hafter, -, -, -, -, hrest⟩ := h
    obtain ⟨undos, nFees, htxs, -⟩ := hconn.txs
    rw [hafter.coinAt, htxs.eq_applyTxs]
    exact coinAt_applyTxs (ih hrest) t n

/-! ## What a run shows -/

/-- `pcoinsTip` shows these coins and this best block. -/
structure TipShows (st : CoinsStack CoinsDB) (m : FlatMap) (best : Uint256) : Prop where
  coherent : Coherent coinsViewDB st.base st.caches
  seen_eq : seen coinsViewDB st.base st.caches = m
  best_eq : bestBlock coinsViewDB st.base st.caches = best

theorem TipShows.push (h : TipShows st m best) :
    Shows coinsViewDB st.base ({} :: st.caches) m best best where
  coherent := coherent_push h.coherent 0
  nonempty := cons_ne_nil _ _
  seen_eq := (funext (seen_push (c := {}))).trans h.seen_eq
  best_eq := h.best_eq
  below_eq := h.best_eq

/-- A flush that carries the best block leaves all that the stack showed to the levels below. -/
theorem flush_tipShows {c : CCoinsViewCache} (hc : Coherent coinsViewDB db (c :: caches))
    (hcarries : CarriesBest coinsViewDB db c caches) :
    ∃ rest db', flush coinsViewDB db c caches = .ok ⟨{ c with cacheCoins := ∅ } :: rest, db'⟩ ∧
      TipShows ⟨rest, db'⟩ (seen coinsViewDB db (c :: caches))
        (bestBlock coinsViewDB db (c :: caches)) := by
  obtain ⟨rest, db', hf, hfl⟩ := flush_spec hc
  exact ⟨rest, db', hf, hfl.coherent, funext hfl.seen_eq,
    (flush_carries_iff coinsViewDB_recordsBest hc hf).mpr hcarries⟩

/-- A call that sets another best block than that of `pcoinsTip`. -/
theorem inView_spec {α : Type} {k : ViewM α} {a : α}
    (hcall : k ({} :: st.caches) = .ok (a, caches))
    (h : Shows coinsViewDB st.base caches m best below) (hne : best ≠ below) :
    ∃ st', st.inView k = .ok (a, st') ∧ TipShows st' m best := by
  obtain ⟨view, rest, rfl⟩ := exists_cons_of_ne_nil h.nonempty
  have hset : view.hashBlock ≠ 0 := by
    intro hzero
    have hbest := h.best_eq
    rw [bestBlock, if_pos hzero] at hbest
    exact hne (hbest.symm.trans h.below_eq)
  have hcarries : CarriesBest coinsViewDB st.base view rest := by
    cases rest <;> exact .inl hset
  obtain ⟨rest', db', hf, hshows⟩ := flush_tipShows h.coherent hcarries
  rw [h.seen_eq, h.best_eq] at hshows
  exact ⟨⟨rest', db'⟩, by simp only [CoinsStack.inView, hcall, hf, tail_cons], hshows⟩

theorem inView_ok {α : Type} {call : ViewM α} {a : α} (h : st.inView call = .ok (a, st')) :
    ∃ caches, call ({} :: st.caches) = .ok (a, caches) := by
  unfold CoinsStack.inView at h
  split at h
  · cases h
  · cases h
  · split at h
    · cases h
    · cases h
      exact ⟨_, ‹_›⟩

/-- The tip is disconnected, and the view mirrors the chain below. -/
theorem Stacked.disconnect (h : Stacked m0 (b :: chain) m best) (hshows : TipShows st m best) :
    ∃ st' m' best', st.disconnectTip b.block b.pindex (b.prev :: b.pprev) b.blockundo =
        .ok ((), st') ∧ TipShows st' m' best' ∧ HasHeights m' ∧ Stacked m0 chain m' best' := by
  obtain ⟨before, after, best', hconn, hafter, hheights, hb, hhash, hprev, hrest⟩ := h
  obtain ⟨st1, hbest, h1⟩ := viewBestBlock_spec hshows.push
  obtain ⟨hlen, st2, m', hundo, h2, hm⟩ :=
    disconnectTxs_block hconn h1 hheights hb.height hb.notExempt hb.ids hb.indexes hafter
  obtain ⟨st3, hset, h3⟩ := setBestBlock_spec h2 best'
  rw [if_neg (by rintro rfl; exact hb.prevHash hprev)] at h3
  have hcall : disconnectBlock coinsViewDB st.base b.block b.pindex (b.prev :: b.pprev)
      b.blockundo ({} :: st.caches) = .ok (true, st3) := by
    unfold disconnectBlock
    rw [bind_of_ok (deref_ok_iff.mpr ⟨hhash, rfl⟩), bind_of_ok hbest,
      bind_of_ok (ensure_of_true (by simp) _), bind_of_ok (ensure_of_true (by simp [hlen]) _),
      bind_of_ok hundo, bind_of_ok (deref_ok_iff.mpr ⟨head?_cons, rfl⟩),
      bind_of_ok (deref_ok_iff.mpr ⟨hprev, rfl⟩), bind_of_ok hset]
    rfl
  have hne : best' ≠ best := by
    rintro rfl
    exact hb.hash_ne_prev (hhash.trans hprev.symm)
  obtain ⟨st', hrun, h'⟩ := inView_spec (k := do
    let fClean ← disconnectBlock coinsViewDB st.base b.block b.pindex (b.prev :: b.pprev) b.blockundo
    ensure fClean (.error "DisconnectTip() : DisconnectBlock failed")) (bind_of_ok hcall) h3 hne
  refine ⟨st', m', best', hrun, h', ?_, hrest.mirror hm⟩
  intro t n coin hcoin
  exact hheights t n coin (by rwa [← hm.coinAt])

/-- Each step keeps the chain under the view; `disconnect` takes the tip off it. -/
theorem ChainRun.stacked (run : ChainRun m0 chain st) :
    ∃ m best, TipShows st m best ∧ HasHeights m ∧ Stacked m0 chain m best := by
  induction run with
  | start hcoherent hcoins hheights =>
    exact ⟨m0, _, ⟨hcoherent, hcoins, rfl⟩, hheights, Mirrors.refl m0⟩
  | connect E b _ hb hgenesis haccepted ih =>
    obtain ⟨m, best, hshows, hheights, hstack⟩ := ih
    obtain ⟨caches, hcall⟩ := inView_ok haccepted
    obtain ⟨m', hash, hconn, hhash, hprev, h'⟩ := connectBlock_inv hshows.push hgenesis hcall
    rw [if_neg (by rintro rfl; exact hb.hash hhash)] at h'
    have hne : hash ≠ best := by
      rintro rfl
      exact hb.hash_ne_prev (hhash.trans (hprev b.prev rfl).symm)
    obtain ⟨st'', hrun, hshows'⟩ := inView_spec hcall h' hne
    obtain ⟨-, rfl⟩ := Prod.mk.inj (Except.ok.inj (hrun.symm.trans haccepted))
    obtain ⟨undos, nFees, htxs, -⟩ := hconn.txs
    refine ⟨m', hash, hshows', ?_, m, m', best, hconn, .refl m', hheights, hb, hhash,
      hprev b.prev rfl, hstack⟩
    rw [htxs.eq_applyTxs]
    exact hheights.applyTxs hb.height
  | disconnect _ hundone ih =>
    obtain ⟨m, best, hshows, -, hstack⟩ := ih
    obtain ⟨st', m', best', hrun, h'⟩ := hstack.disconnect hshows
    obtain ⟨-, rfl⟩ := Prod.mk.inj (Except.ok.inj (hrun.symm.trans hundone))
    exact ⟨m', best', h'⟩
  | @flush chain tip db st _ hflush ih =>
    obtain ⟨m, best, hshows, h'⟩ := ih
    -- the database leaves its best block alone for the null hash
    obtain ⟨rest, db', hf, hrest⟩ := flush_tipShows hshows.coherent (.inr rfl)
    obtain rfl := Except.ok.inj (hf.symm.trans hflush)
    have hbest := hshows.best_eq
    refine ⟨m, best, ⟨⟨hshows.coherent.1, by simp, hrest.coherent⟩, ?_, ?_⟩, h'⟩
    · exact (funext seen_push).trans (hrest.seen_eq.trans hshows.seen_eq)
    · rw [bestBlock, hrest.best_eq, hbest]
      rw [bestBlock] at hbest
      split_ifs at hbest ⊢
      · rfl
      · exact hbest

/-- The transactions of a chain, the last one first. -/
def history : List LinkedBlock → List CTransaction
  | [] => []
  | b :: chain => b.block.vtx.reverse ++ history chain

def spentBy (txs : List CTransaction) : List COutPoint :=
  txs.flatMap fun tx => tx.spends.map CTxIn.prevout

/-- `Progress`, where no output was spent twice. -/
structure SpentOnce (old : Uint256 → Nat → Prop) (pre : List CTransaction) (m : FlatMap) : Prop
    extends Progress old pre m where
  nodup : (spentBy pre).Nodup

section Spends

variable {old : Uint256 → Nat → Prop}

theorem SpentOnce.congr (h : SpentOnce old pre m) (hm : ∀ t n, m'.coinAt t n = m.coinAt t n) :
    SpentOnce old pre m' := by
  refine ⟨⟨fun t n coin hcoin => h.origin t n coin (by rwa [← hm]), ?_⟩, h.nodup⟩
  intro tx htx txin htxin
  rw [hm]
  exact h.spent tx htx txin htxin

/-- One transaction: its inputs are unspent, and those of the ones before are not. -/
theorem SpentOnce.apply {tx : CTransaction} (h : SpentOnce old pre m)
    (hin : InputsConnected m tx nFees nFees') (hchecked : CheckedTx tx)
    (hne : ∀ {t n}, OutputOf old pre t n → t ≠ tx.getHash) :
    SpentOnce old (tx :: pre) (m.applyTx nHeight tx) := by
  refine ⟨h.toProgress.apply hin hne, ?_⟩
  show (tx.spends.map CTxIn.prevout ++ spentBy pre).Nodup
  rw [nodup_append]
  refine ⟨?_, h.nodup, ?_⟩
  · unfold spends
    split
    · exact nodup_nil
    · exact hchecked.inputs_nodup
  · rintro o ho _ ho' rfl
    obtain ⟨txin, htxin, rfl⟩ := mem_map.mp ho
    obtain ⟨a, ha, ho'⟩ := mem_flatMap.mp ho'
    obtain ⟨txin', htxin', heq⟩ := mem_map.mp ho'
    obtain ⟨coin, hcoin⟩ := hin.coin htxin
    have hnone := (h.spent a ha txin' htxin').1
    rw [heq, hcoin] at hnone
    cases hnone

theorem SpentOnce.applyTxs (hrun : TxsConnected nHeight m nFees txs undos m' nFees')
    (h : SpentOnce old pre m) (hchecked : ∀ tx ∈ txs, CheckedTx tx)
    (hold : ∀ tx ∈ txs, ∀ n, ¬ old tx.getHash n) (hids : ((txs.reverse ++ pre).map getHash).Nodup) :
    SpentOnce old (txs.reverse ++ pre) m' := by
  induction hrun generalizing pre with
  | nil => exact h
  | @cons _ _ _ _ _ tx txs _ _ hin _ _ ih =>
    rw [reverse_cons, append_assoc] at hids ⊢
    rw [forall_mem_cons] at hchecked hold
    refine ih (h.apply hin hchecked.1 ?_) hchecked.2 hold.2 hids
    rw [map_append, nodup_append] at hids
    rintro _ n (hknown | ⟨a, ha, rfl, -⟩) heq
    · exact hold.1 n (heq ▸ hknown)
    · exact (nodup_cons.mp hids.2.1).1 (heq ▸ mem_map_of_mem ha)

theorem Stacked.spentOnce (h : Stacked m0 chain m best) (hids : ((history chain).map getHash).Nodup)
    (hnew : ∀ tx ∈ history chain, m0 tx.getHash = none) :
    SpentOnce (fun t n => m0.coinAt t n ≠ none) (history chain) m := by
  induction chain generalizing m best with
  | nil =>
    refine ⟨⟨fun t n coin hcoin => .inl ?_, by simp [history]⟩, nodup_nil⟩
    show m0.coinAt t n ≠ none
    rw [← Mirrors.coinAt h, hcoin]
    exact Option.some_ne_none coin
  | cons b chain ih =>
    obtain ⟨before, after, best', hconn, hafter, -, -, -, -, hrest⟩ := h
    obtain ⟨undos, nFees, htxs, -⟩ := hconn.txs
    have hbelow := hids
    rw [history, map_append, nodup_append] at hbelow
    have hbefore := ih hrest hbelow.2.1 fun tx htx => hnew tx (mem_append_right _ htx)
    refine (hbefore.applyTxs htxs hconn.checked.checked ?_ hids).congr hafter.coinAt
    intro tx htx n hold
    apply hold
    rw [FlatMap.coinAt, hnew tx (mem_append_left _ (mem_reverse.mpr htx))]
    rfl

end Spends

/-- **`no_double_spend`** — if the transactions of the active chain have ids of their own that were
unknown at the start, then no two of their inputs spend the same output, and every output they
spend was there at the start or is an output of one of them, and is gone from the view. -/
theorem no_double_spend (run : ChainRun m0 chain st) (hids : ((history chain).map getHash).Nodup)
    (hnew : ∀ tx ∈ history chain, m0 tx.getHash = none) :
    (spentBy (history chain)).Nodup ∧ ∀ o ∈ spentBy (history chain),
      FlatMap.coinAt (seen coinsViewDB st.base st.caches) o.hash o.n.toNat = none ∧
      (m0.coinAt o.hash o.n.toNat ≠ none ∨
        ∃ tx ∈ history chain, tx.getHash = o.hash ∧ o.n.toNat < tx.vout.length) := by
  obtain ⟨m, best, hshows, -, hstack⟩ := run.stacked
  have honce := hstack.spentOnce hids hnew
  refine ⟨honce.nodup, fun o ho => ?_⟩
  obtain ⟨tx, htx, ho⟩ := mem_flatMap.mp ho
  obtain ⟨txin, htxin, rfl⟩ := mem_map.mp ho
  rw [hshows.seen_eq]
  exact honce.spent tx htx txin htxin

/-! ## A reorganisation -/

/-- A block that spends both outputs of the older transaction at once. -/
def rivalBlock : CBlock :=
  plainBlock 9 [plainTx 1 [COutPoint.null] [2503], plainTx 4 [⟨5, 0⟩, ⟨5, 1⟩] [27]]

/-- `spendingBlock` is connected, gives way to `rivalBlock`, and `pcoinsTip` is flushed. -/
def reorganisation : Except Failure (CBlockUndo × CoinsStack CoinsDB) := do
  let (undo, st) ← CoinsStack.connectTip (plainEnv 8 3) spendingBlock (plainIndex 8 4)
    [plainIndex 7 3] ⟨[plainView 5 spentCoins], {}⟩
  let (_, st) ← st.disconnectTip spendingBlock (plainIndex 8 4) [plainIndex 7 3] undo
  let (undo, st) ← st.connectTip (plainEnv 9 3) rivalBlock (plainIndex 9 4) [plainIndex 7 3]
  match st.caches with
  | [tip] => .ok (undo, ⟨[{ tip with cacheCoins := ∅ }],
      coinsViewDB.batchWrite st.base tip.cacheCoins tip.hashBlock⟩)
  | _ => .error .noCache

/-- The block that the reorganisation ends with. -/
def rivalLinked (undo : CBlockUndo) : LinkedBlock :=
  ⟨rivalBlock, plainIndex 9 4, plainIndex 7 3, [], undo⟩

theorem reorganisation_run : ∃ undo st, reorganisation = .ok (undo, st) ∧
    ChainRun (seen coinsViewDB {} [plainView 5 spentCoins]) [rivalLinked undo] st := by
  have hok : reorganisation.toBool = true := by decide +kernel
  cases h : reorganisation with
  | error e =>
    rw [h] at hok
    cases hok
  | ok r =>
    refine ⟨r.1, r.2, rfl, ?_⟩
    obtain ⟨⟨undo, st1⟩, hconnect, h⟩ := bind_eq_ok.mp h
    obtain ⟨⟨_, st2⟩, hdisconnect, h⟩ := bind_eq_ok.mp h
    obtain ⟨⟨undo', st3⟩, hrival, h⟩ := bind_eq_ok.mp h
    have hheights : HasHeights (seen coinsViewDB {} [plainView 5 spentCoins]) := by
      intro t n coin hcoin
      obtain ⟨c, hc, hcoin⟩ := coinAt_eq_some_iff.mp hcoin
      obtain ⟨out, -, -, rfl⟩ := CCoins.coinAt_eq_some_iff.mp hcoin
      rw [plainView_seen hc]
      show spentCoins.nHeight ≠ 0
      decide
    have hstart := ChainRun.start (plainView_coherent 5 (by decide)) rfl hheights
    have hfirst := hstart.connect (plainEnv 8 3)
      ⟨spendingBlock, plainIndex 8 4, plainIndex 7 3, [], undo⟩
      (by constructor <;> dsimp only <;> decide)
      (show (plainEnv 8 3).getHash spendingBlock.toCBlockHeader ≠ _ by decide) hconnect
    have hsecond := (hfirst.disconnect hdisconnect).connect (plainEnv 9 3) (rivalLinked undo')
      (by constructor <;> dsimp only [rivalLinked] <;> decide)
      (show (plainEnv 9 3).getHash rivalBlock.toCBlockHeader ≠ _ by decide) hrival
    obtain ⟨caches, db⟩ := st3
    dsimp only at h
    split at h
    · obtain rfl := Except.ok.inj h
      exact hsecond.flush rfl
    · cases h

theorem no_double_spend_reorganisation : ∃ undo st, reorganisation = .ok (undo, st) ∧
    (spentBy (history [rivalLinked undo])).Nodup ∧
    FlatMap.coinAt (seen coinsViewDB st.base st.caches) 5 1 = none := by
  obtain ⟨undo, st, h, hrun⟩ := reorganisation_run
  have hhistory : history [rivalLinked undo] = rivalBlock.vtx.reverse := by
    simp [history, rivalLinked]
  have honce := no_double_spend hrun (by rw [hhistory]; decide) (by rw [hhistory]; decide)
  exact ⟨undo, st, h, honce.1, (honce.2 ⟨5, 1⟩ (by rw [hhistory]; decide)).1⟩

end MonetaryUnit
