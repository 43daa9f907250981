/-
# MonetaryUnit.Validation.Disconnect — DisconnectBlock undoes ConnectBlock

A block that was connected is disconnected with the undo record that connecting it produced. Inputs
and transactions are undone in exactly the reverse order, so the view mirrors, step by step
backwards, the abstract ledger that connecting went through (`Mirrors`).

The undo record keeps the height, version and coinbase flag of a transaction only with its last
output, so a restored output finds its metadata either in the record or in the outputs that are
still there. That the outputs of a transaction of the block are still exactly those of the block
needs that nothing was overwritten: `overwritesNothing` derives this from the check before the loop
and from the inputs being unspent. The two blocks exempt from that check do overwrite, and are not
undone: `exemptBlock_loses_coins`.
-/

import MonetaryUnit.Validation.Ledger

namespace MonetaryUnit

open List Function CCoins CTransaction AList

open ViewM

variable {σ : Type} {V : CCoinsView σ} {s : σ} {st : List CCoinsViewCache} {best below : Uint256}
variable {m m' : FlatMap} {c c' x : CCoins} {t t' : Uint256} {nHeight : Int32}
variable {tx : CTransaction} {rest txs : List CTransaction} {txin : CTxIn} {vin : List CTxIn}
variable {out : COutPoint} {undo : CTxInUndo} {undos : List CTxUndo} {nFees nFees' : CAmount}
variable {f f1 : Bool} {st1 : List CCoinsViewCache}

/-! ## Nothing is overwritten -/

section Overwrites

/-- The output `n` of `t` is from before (`old`) or is one of the transactions `pre`. -/
def OutputOf (old : Uint256 → Nat → Prop) (pre : List CTransaction) (t : Uint256) (n : Nat) :
    Prop :=
  old t n ∨ ∃ tx ∈ pre, tx.getHash = t ∧ n < tx.vout.length

/-- Where the coins come from while a block is connected: from before the block (`old`) or from
the transactions `pre` that were applied, none of whose inputs is unspent. -/
structure Progress (old : Uint256 → Nat → Prop) (pre : List CTransaction) (m : FlatMap) :
    Prop where
  origin : ∀ t n coin, m.coinAt t n = some coin → OutputOf old pre t n
  spent : ∀ tx ∈ pre, ∀ txin ∈ tx.spends, m.coinAt txin.prevout.hash txin.prevout.n.toNat = none ∧
      OutputOf old pre txin.prevout.hash txin.prevout.n.toNat

variable {old : Uint256 → Nat → Prop} {pre : List CTransaction} {n : Nat}

theorem InputsConnected.coin (hin : InputsConnected m tx nFees nFees') (h : txin ∈ tx.spends) :
    ∃ coin, m.coinAt txin.prevout.hash txin.prevout.n.toNat = some coin := by
  unfold spends at h
  split at h
  · simp at h
  · rename_i hcb
    have hav := hin.available (by simpa using hcb) txin h
    rwa [FlatMap.available_eq, Option.isSome_iff_exists] at hav

section

variable (hp : Progress old pre m) (hin : InputsConnected m tx nFees nFees')
include hp hin

/-- A transaction with inputs cannot be applied twice: its inputs are gone. -/
theorem Progress.not_mem (hchecked : CheckedTx tx) (hcb : tx ∈ pre → tx.isCoinBase = false) :
    tx ∉ pre := by
  intro hmem
  have hspends : tx.spends = tx.vin := by simp [spends, hcb hmem]
  obtain ⟨txin, rest, hvin⟩ := exists_cons_of_ne_nil hchecked.vin_ne_nil
  have htxin : txin ∈ tx.spends := by simp [hspends, hvin]
  obtain ⟨coin, hcoin⟩ := hin.coin htxin
  rw [(hp.spent tx hmem txin htxin).1] at hcoin
  cases hcoin

/-- The id of a transaction from before is not that of the next one. -/
theorem Progress.known_ne (hchecked : CheckedTx tx) (hcb : tx ∈ pre → tx.isCoinBase = false)
    (hold : ∀ n, ¬ old tx.getHash n) (hids : ∀ a ∈ pre, a.getHash = tx.getHash → a = tx)
    (ht : OutputOf old pre t n) : t ≠ tx.getHash := by
  rintro rfl
  rcases ht with h | ⟨a, ha, heq, -⟩
  · exact hold n h
  · exact hp.not_mem hin hchecked hcb (hids a ha heq ▸ ha)

theorem Progress.apply (hne : ∀ {t n}, OutputOf old pre t n → t ≠ tx.getHash) :
    Progress old (tx :: pre) (m.applyTx nHeight tx) := by
  have hlater : ∀ {t n}, OutputOf old pre t n → OutputOf old (tx :: pre) t n := by
    rintro t n (h | ⟨tx', hmem, heq⟩)
    · exact .inl h
    · exact .inr ⟨tx', mem_cons_of_mem _ hmem, heq⟩
  constructor
  · intro t n coin hcoin
    rw [FlatMap.coinAt_applyTx] at hcoin
    split at hcoin
    · rename_i ht
      rw [coinAt_fromTx] at hcoin
      split at hcoin
      · rename_i out hout
        exact .inr ⟨tx, mem_cons_self, ht.symm, (List.getElem?_eq_some_iff.mp hout).1⟩
      · cases hcoin
    · rw [FlatMap.coinAt_spendAll] at hcoin
      split at hcoin
      · cases hcoin
      · exact hlater (hp.origin _ _ _ hcoin)
  · intro a ha txin htxin
    -- an input that was unspent is not in the row the transaction writes
    obtain ⟨hknown, hnone⟩ : OutputOf old pre txin.prevout.hash txin.prevout.n.toNat ∧
        (m.spendAll tx.spends).coinAt txin.prevout.hash txin.prevout.n.toNat = none := by
      rw [FlatMap.coinAt_spendAll]
      rcases mem_cons.mp ha with rfl | ha
      · obtain ⟨coin, hcoin⟩ := hin.coin htxin
        exact ⟨hp.origin _ _ _ hcoin, if_pos ⟨txin, htxin, rfl, rfl⟩⟩
      · obtain ⟨hnone, hknown⟩ := hp.spent a ha txin htxin
        exact ⟨hknown, by rw [hnone, ite_self]⟩
    exact ⟨by rw [FlatMap.coinAt_applyTx, if_neg (hne hknown), hnone], hlater hknown⟩

end

/-- Each transaction is applied to a ledger without coins under its id. -/
def WritesFresh (nHeight : Int32) : FlatMap → List CTransaction → Prop
  | _, [] => True
  | m, tx :: rest =>
    (∀ n, m.coinAt tx.getHash n = none) ∧ WritesFresh nHeight (m.applyTx nHeight tx) rest

theorem overwritesNothing (hrun : TxsConnected nHeight m nFees rest undos m' nFees')
    (hp : Progress old pre m) (hchecked : ∀ tx ∈ rest, CheckedTx tx)
    (hcb : ∀ tx ∈ rest, tx ∈ pre → tx.isCoinBase = false)
    (htail : ∀ tx ∈ rest.tail, tx.isCoinBase = false) (hold : ∀ tx ∈ rest, ∀ n, ¬ old tx.getHash n)
    (hids : ∀ a ∈ pre ++ rest, ∀ b ∈ pre ++ rest, a.getHash = b.getHash → a = b) :
    WritesFresh nHeight m rest := by
  induction hrun generalizing pre with
  | nil => trivial
  | @cons m m' f f1 f' tx rest txundo undos hin hspent _ ih =>
    have hids' : ∀ a ∈ pre, a.getHash = tx.getHash → a = tx := fun a ha heq =>
      hids a (by simp [ha]) tx (by simp) heq
    have hcb' := hcb tx mem_cons_self
    have hold' := hold tx mem_cons_self
    have hchecked' := hchecked tx mem_cons_self
    have hne := fun {t n} => hp.known_ne hin hchecked' hcb' hold' hids' (t := t) (n := n)
    refine ⟨fun n => Option.eq_none_iff_forall_not_mem.mpr fun coin hcoin =>
      hne (hp.origin _ _ _ hcoin) rfl, ?_⟩
    apply ih (hp.apply hin hne)
    · exact fun a ha => hchecked a (mem_cons_of_mem _ ha)
    · exact fun a ha _ => htail a ha
    · exact fun a ha => htail a (mem_of_mem_tail ha)
    · exact fun a ha => hold a (mem_cons_of_mem _ ha)
    · exact fun a ha b hb =>
        hids a (perm_middle.mem_iff.mpr ha) b (perm_middle.mem_iff.mpr hb)

end Overwrites

/-! ## Restoring one output -/

/-- `vout[n] = txout` after the resize. -/
def CCoins.putAt (c : CCoins) (n : UInt32) (txout : CTxOut) : CCoins :=
  { c with vout := (resizeFor n c.vout).set n.toNat txout }

section PutAt

variable {n : UInt32} {txout : CTxOut}

theorem toNat_succ (hn : n ≠ 0xFFFFFFFF) : (n + 1).toNat = n.toNat + 1 := by
  have hlt : n.toNat < 4294967295 := by
    have h1 := n.toNat_lt
    have h2 : n.toNat ≠ 4294967295 := fun h => hn (UInt32.toNat_inj.mp h)
    omega
  show (n.toNat + 1) % 4294967296 = _
  omega

theorem length_resizeFor (hn : n ≠ 0xFFFFFFFF) (vout : List CTxOut) :
    n.toNat < (resizeFor n vout).length := by
  rw [resizeFor, length_append, length_replicate, toNat_succ hn]
  omega

theorem coinAt_resizeFor (c : CCoins) (n : UInt32) (k : Nat) :
    ({ c with vout := resizeFor n c.vout } : CCoins).coinAt k = c.coinAt k := by
  unfold coinAt resizeFor
  by_cases hk : k < c.vout.length
  · rw [getElem?_append_left hk]
    rfl
  · have hk' := Nat.not_lt.mp hk
    rw [getElem?_append_right hk', getElem?_eq_none hk']
    generalize (n + 1).toNat - c.vout.length = added
    by_cases hlt : k - c.vout.length < added <;> simp [hlt]

theorem CCoins.coinAt_putAt (hn : n ≠ 0xFFFFFFFF) (hout : txout.isNull = false) (k : Nat) :
    (c.putAt n txout).coinAt k = if k = n.toNat then some (c.withOutput txout) else c.coinAt k := by
  have hlen := length_resizeFor hn c.vout
  by_cases hk : k = n.toNat
  · subst hk
    rw [if_pos rfl, coinAt_eq_some_iff]
    refine ⟨txout, ?_, hout, rfl⟩
    show ((resizeFor n c.vout).set n.toNat txout)[n.toNat]? = _
    rw [getElem?_set_self hlen]
  · rw [if_neg hk, ← coinAt_resizeFor c n k]
    unfold coinAt putAt
    rw [getElem?_set_ne (Ne.symm hk)]
    rfl

theorem CCoins.putAt_null (hc : ∀ out ∈ c.vout, out.isNull = true → out = .null)
    (hout : txout.isNull = false) :
    ∀ out ∈ (c.putAt n txout).vout, out.isNull = true → out = .null := by
  intro out hmem hnull
  rcases mem_or_eq_of_mem_set hmem with hmem | rfl
  · rcases mem_append.mp hmem with hmem | hmem
    · exact hc out hmem hnull
    · exact eq_of_mem_replicate hmem
  · rw [hout] at hnull
    cases hnull

/-- The entry the output is put into: a new one when the record carries the metadata. -/
def restoreBase (undo : CTxInUndo) (coins : CCoins) : CCoins :=
  if undo.nHeight ≠ 0 then
    { fCoinBase := undo.fCoinBase, vout := [], nHeight := undo.nHeight.toInt32,
      nVersion := undo.nVersion }
  else coins

/-- Restoring into coins that are as expected puts the output there and finds nothing wrong. -/
theorem restoreInput_eq (hn : out.n ≠ 0xFFFFFFFF) (hpruned : c.isPruned = true ↔ undo.nHeight ≠ 0)
    (hfree : (restoreBase undo c).coinAt out.n.toNat = none) :
    restoreInput out undo c = (some true, (restoreBase undo c).putAt out.n undo.txout) := by
  have havail : (restoreBase undo c).isAvailable out.n = false := by
    rw [isAvailable_eq, hfree]
    rfl
  have hclean : (if undo.nHeight ≠ 0 then c.isPruned else !c.isPruned) = true := by
    split
    · rename_i h
      exact hpruned.mpr h
    · rename_i h
      simpa using mt hpruned.mp h
  unfold restoreInput
  rw [if_pos (length_resizeFor hn _)]
  show (some ((if undo.nHeight ≠ 0 then c.isPruned else !c.isPruned) &&
    !(restoreBase undo c).isAvailable out.n), _) = _
  rw [havail, hclean]
  rfl

end PutAt

/-! ## Going back -/

/-- Every entry under `t` is determined by its coins. -/
def NormalAt (m : FlatMap) (t : Uint256) : Prop := ∀ c, m t = some c → c.Normal

/-- `m'` has the coins of `m`, and its entries are normal where those of `m` are. -/
structure Mirrors (m' m : FlatMap) : Prop where
  coinAt : ∀ t n, m'.coinAt t n = m.coinAt t n
  normal : ∀ t, NormalAt m t → NormalAt m' t

theorem Mirrors.refl (m : FlatMap) : Mirrors m m := ⟨fun _ _ => rfl, fun _ h => h⟩

/-- An entry of the mirror has the coins of the entry it mirrors, and is normal if that is. -/
theorem Mirrors.entry (h : Mirrors m' m) (hc : m t = c.live) (hx : x.live = m' t) :
    (∀ k, x.coinAt k = c.coinAt k) ∧ (c.Normal → x.isPruned = false → x.Normal) := by
  refine ⟨fun k => ?_, fun hnormal hp => h.normal t (fun d hd => ?_) x ?_⟩
  · rw [← FlatMap.coinAt_of_live hx.symm k, h.coinAt, FlatMap.coinAt_of_live hc]
  · rw [hc, live_eq_some_iff] at hd
    exact hd.2 ▸ hnormal
  · rw [← hx, live_of_not_pruned hp]

/-- Writing one id of the mirror, to undo a write there. -/
theorem Mirrors.update {t0 : Uint256} {x y : Option CCoins} (h : Mirrors m' (update m t0 x))
    (hcoin : ∀ k, FlatMap.coinAt (update m' t0 y) t0 k = m.coinAt t0 k)
    (hnormal : NormalAt m t0 → ∀ c, y = some c → c.Normal) : Mirrors (update m' t0 y) m := by
  constructor
  · intro t k
    by_cases ht : t = t0
    · subst ht
      exact hcoin k
    · have := h.coinAt t k
      rwa [FlatMap.coinAt, FlatMap.coinAt, update_of_ne ht] at this ⊢
  · intro t hnorm c hc
    by_cases ht : t = t0
    · subst ht
      exact hnormal hnorm c (by rwa [update_self] at hc)
    · rw [update_of_ne ht] at hc
      exact h.normal t (fun c hc => hnorm c (by rwa [update_of_ne ht] at hc)) c hc

/-- All coins have a height, so that an undo record that carries one can be told. -/
def HasHeights (m : FlatMap) : Prop := ∀ t n coin, m.coinAt t n = some coin → coin.nHeight ≠ 0

theorem HasHeights.spendAll (h : HasHeights m) (vin : List CTxIn) :
    HasHeights (m.spendAll vin) := by
  intro t n coin hcoin
  rw [FlatMap.coinAt_spendAll] at hcoin
  split at hcoin
  · cases hcoin
  · exact h t n coin hcoin

theorem HasHeights.applyTx (h : HasHeights m) (hheight : nHeight ≠ 0) (tx : CTransaction) :
    HasHeights (m.applyTx nHeight tx) := by
  intro t n coin hcoin
  rw [FlatMap.coinAt_applyTx] at hcoin
  split at hcoin
  · rw [coinAt_fromTx] at hcoin
    split at hcoin
    · split at hcoin
      · cases hcoin
      · cases hcoin
        exact hheight
    · cases hcoin
  · exact h.spendAll tx.spends t n coin hcoin

section Restore


/-- What a restore finds in the entry, and what it leaves: `x` has the coins that were left
after the spend of `c`. -/
theorem restoreInput_spent (hn : out.n ≠ 0xFFFFFFFF) (hspent : c.Spent out.n.toNat undo c')
    (hheight : c.nHeight ≠ 0) (hx : ∀ k, x.coinAt k = c'.coinAt k) :
    ∃ r, restoreInput out undo x = (some true, r) ∧ (∀ k, r.coinAt k = c.coinAt k) ∧
      ((x.isPruned = false → x.Normal) → r.cleanup.Normal) := by
  have hout : undo.txout.isNull = false := by
    obtain ⟨o, -, hnull, heq⟩ := coinAt_eq_some_iff.mp hspent.coin
    have : undo.txout = o := congrArg Coin.txout heq
    rw [this, hnull]
  have hpruned : x.isPruned = c'.isPruned := by
    rw [Bool.eq_iff_iff, isPruned_iff_coinAt, isPruned_iff_coinAt]
    simp only [hx]
  -- the coins of `c` are those left over and the one that was spent
  have hcoins : ∀ k, (if k = out.n.toNat then some (c.withOutput undo.txout) else c'.coinAt k) =
      c.coinAt k := by
    intro k
    by_cases hk : k = out.n.toNat
    · rw [if_pos hk, hk, hspent.coin]
    · rw [if_neg hk, hspent.coinAt, if_neg hk]
  cases hp : c'.isPruned with
  | true =>
    have hundo := hspent.last hp
    have hne : undo.nHeight ≠ 0 := by
      rw [hundo]
      intro h
      apply hheight
      have := congrArg UInt32.toInt32 h
      simpa using this
    have hbase : restoreBase undo x =
        { fCoinBase := c.fCoinBase, vout := [],
          nHeight := c.nHeight, nVersion := c.nVersion } := by
      rw [restoreBase, if_pos hne, hundo]
      simp
    refine ⟨_, restoreInput_eq hn (by simp [hpruned, hp, hne]) (by simp [hbase, coinAt]), ?_, ?_⟩
    · intro k
      rw [coinAt_putAt hn hout, ← hcoins k, hbase, isPruned_iff_coinAt.mp hp k]
      rfl
    · intro _
      apply CCoins.Normal.cleanup
      apply putAt_null _ hout
      simp [hbase]
  | false =>
    have hundo := hspent.notLast hp
    have hzero : undo.nHeight = 0 := by rw [hundo]
    have hbase : restoreBase undo x = x := by simp [restoreBase, hzero]
    -- some output is left, and it carries the metadata
    have hmeta : x.withOutput = c.withOutput := by
      have hnot : ¬ ∀ k, c'.coinAt k = none := by
        rw [← isPruned_iff_coinAt, hp]
        simp
      obtain ⟨k, hk⟩ := not_forall.mp hnot
      obtain ⟨coin, hcoin⟩ := Option.ne_none_iff_exists'.mp hk
      obtain ⟨o, -, -, h1⟩ := coinAt_eq_some_iff.mp hcoin
      obtain ⟨o', -, -, h2⟩ := coinAt_eq_some_iff.mp ((hx k).trans hcoin)
      rw [h1, hspent.withOutput] at h2
      simp only [withOutput, Coin.mk.injEq] at h2
      funext txout
      simp only [withOutput, h2.2.1, h2.2.2.1, h2.2.2.2]
    have hfree : x.coinAt out.n.toNat = none := by
      rw [hx, hspent.coinAt, if_pos rfl]
    refine ⟨_, restoreInput_eq hn (by simp [hpruned, hp, hzero]) (by rw [hbase, hfree]), ?_, ?_⟩
    · intro k
      rw [coinAt_putAt hn hout, ← hcoins k, hbase, hmeta, hx]
    · intro hnormal
      apply CCoins.Normal.cleanup
      apply putAt_null _ hout
      rw [hbase]
      exact (hnormal (by rw [hpruned, hp])).null

theorem restoreInput_step (h : Shows V s st m' best below)
    (hm : Mirrors m' (m.spendOutput txin.prevout)) (hc : m txin.prevout.hash = some c)
    (hspent : c.Spent txin.prevout.n.toNat undo c') (hheights : HasHeights m)
    (hn : txin.prevout.n ≠ 0xFFFFFFFF) :
    ∃ st1 m1, withCoins V s txin.prevout.hash (restoreInput txin.prevout undo) st =
        .ok (some true, st1) ∧ Shows V s st1 m1 best below ∧ Mirrors m1 m := by
  obtain ⟨x, hlive, st1, hrun, hshows⟩ :=
    withCoins_spec h txin.prevout.hash (restoreInput txin.prevout undo)
  -- the view has at this id the coins that the spend left
  have hspend : m.spendOutput txin.prevout txin.prevout.hash = c'.live := by
    show update m _ _ _ = _
    rw [update_self, hc, Option.getD_some, hspent.eq]
  obtain ⟨hx, hxnormal⟩ := hm.entry hspend hlive
  have hheight : c.nHeight ≠ 0 := by
    have := hheights txin.prevout.hash txin.prevout.n.toNat (c.withOutput undo.txout)
      (by rw [FlatMap.coinAt_of_some hc, hspent.coin])
    exact this
  obtain ⟨r, hr, hcoins, hnormal⟩ := restoreInput_spent hn hspent hheight hx
  rw [hr] at hrun hshows
  refine ⟨st1, _, hrun, hshows, hm.update (fun k => ?_) fun hnorm d hd => ?_⟩
  · rw [FlatMap.coinAt_of_live (update_self ..), coinAt_cleanup, hcoins, FlatMap.coinAt_of_some hc]
  · rw [live_eq_some_iff] at hd
    exact hd.2 ▸ hnormal (hxnormal (hspent.normal (hnorm c hc)))

theorem restoreInputs_append {l1 l2 : List (CTxIn × CTxInUndo)}
    (h : restoreInputs V s l1 f st = .ok (f1, st1)) :
    restoreInputs V s (l1 ++ l2) f st = restoreInputs V s l2 f1 st1 := by
  induction l1 generalizing f st with
  | nil =>
    obtain ⟨rfl, rfl⟩ := pure_ok_iff.mp h
    rfl
  | cons p rest ih =>
    obtain ⟨r, st2, hedit, hmatch⟩ := bind_ok_iff.mp h
    show restoreInputs V s (p :: (rest ++ l2)) f st = _
    rw [restoreInputs, bind_of_ok hedit]
    cases r with
    | none => cases hmatch
    | some clean => exact ih hmatch

theorem restoreInputs_spent {undos : List CTxInUndo} (hspent : SpentAll m vin undos)
    (h : Shows V s st m' best below) (hm : Mirrors m' (m.spendAll vin)) (hheights : HasHeights m)
    (hn : ∀ txin ∈ vin, txin.prevout.n ≠ 0xFFFFFFFF) (f : Bool) :
    ∃ st1 m1, restoreInputs V s (vin.zip undos).reverse f st = .ok (f, st1) ∧
      Shows V s st1 m1 best below ∧ Mirrors m1 m := by
  induction hspent generalizing st m' with
  | nil m => exact ⟨st, m', rfl, h, hm⟩
  | @cons m txin rest undo undos c c' hc hone _ ih =>
    rw [forall_mem_cons] at hn
    have hheights' : HasHeights (m.spendOutput txin.prevout) := hheights.spendAll [txin]
    obtain ⟨st1, m1, hrest, h₁, hm1⟩ := ih h hm hheights' hn.2
    obtain ⟨st2, m2, hlast, h₂, hm2⟩ := restoreInput_step h₁ hm1 hc hone hheights hn.1
    refine ⟨st2, m2, ?_, h₂, hm2⟩
    rw [zip_cons_cons, reverse_cons, restoreInputs_append hrest, restoreInputs, bind_of_ok hlast]
    show restoreInputs V s [] (f && true) st2 = _
    rw [Bool.and_true]
    rfl

end Restore

/-! ## Removing the outputs of a transaction -/

theorem isPruned_clearUnspendable (h : x.isPruned = true) : x.clearUnspendable.isPruned = true := by
  rw [clearUnspendable, isPruned_cleanup, isPruned, all_eq_true]
  intro out hout
  simp only [nullUnspendable, mem_map] at hout
  obtain ⟨out', hmem, rfl⟩ := hout
  split
  · rfl
  · exact all_eq_true.mp h out' hmem

/-- What `FromTx` leaves has no unspendable outputs. -/
theorem clearUnspendable_fromTx (tx : CTransaction) (nHeight : Int32) :
    (fromTx tx nHeight).clearUnspendable = fromTx tx nHeight := by
  have hvout : nullUnspendable (fromTx tx nHeight).vout = (fromTx tx nHeight).vout := by
    conv_rhs => rw [← map_id (fromTx tx nHeight).vout]
    apply map_congr_left
    intro out hout
    have hmem : out ∈ nullUnspendable tx.vout := ( rdropWhile_prefix _ _).subset hout
    simp only [nullUnspendable, mem_map] at hmem
    obtain ⟨out', -, rfl⟩ := hmem
    split
    · rfl
    · rfl
  rw [clearUnspendable, hvout]
  exact cleanup_of_clean (clean_fromTx tx nHeight)

/-- Outputs with the coins of the block's transaction compare equal to it. -/
theorem removeOutputs_eq (hx : ∀ k, x.coinAt k = (fromTx tx nHeight).coinAt k)
    (hnormal : x.isPruned = false → x.Normal) (htx : (fromTx tx nHeight).Normal) :
    removeOutputs tx nHeight x = (true, cleared) := by
  suffices heqv : (removeOutputs tx nHeight x).1 = true by
    show ((removeOutputs tx nHeight x).1, cleared) = _
    rw [heqv]
  show eqv _ _ = true
  rw [eqv_iff_live]
  cases hp : x.isPruned with
  | true =>
    have hprunedTx : (fromTx tx nHeight).isPruned = true := by
      rw [isPruned_iff_coinAt] at hp ⊢
      intro k
      rw [← hx, hp]
    rw [live_of_pruned hprunedTx, live_of_pruned]
    -- the version plays no role in `IsPruned`
    split <;> exact isPruned_clearUnspendable hp
  | false =>
    have hlive := (hnormal hp).live_eq htx hx
    rw [live_of_not_pruned hp, eq_comm, live_eq_some_iff] at hlive
    rw [← hlive.2, clearUnspendable_fromTx]
    split <;> rfl

section Undo


theorem CheckedTx.outputs_not_null (h : CheckedTx tx) : ∀ out ∈ tx.vout, out.isNull = false := by
  obtain ⟨v, hv⟩ := h.valueOut
  generalize (0 : CAmount) = n at hv
  generalize tx.vout = vout at hv
  induction vout generalizing n with
  | nil => simp
  | cons out rest ih =>
    rw [foldlM_cons, bind_eq_ok] at hv
    obtain ⟨n', hone, hrest⟩ := hv
    simp only [checkOutValue, require_bind_eq_ok] at hone
    rw [forall_mem_cons]
    refine ⟨CTxOut.isNull_eq_false_of_range ?_, ih n' hrest⟩
    rw [moneyRange, hone.1, hone.2.1]
    rfl

/-- After the outputs are removed, the view mirrors the ledger with the inputs spent. -/
theorem removeOutputs_step (h : Shows V s st m' best below) (hm : Mirrors m' (m.applyTx nHeight tx))
    (hchecked : CheckedTx tx) (hfresh : ∀ n, m.coinAt tx.getHash n = none) :
    ∃ st1 m1, withCoins V s tx.getHash (removeOutputs tx nHeight) st = .ok (true, st1) ∧
      Shows V s st1 m1 best below ∧ Mirrors m1 (m.spendAll tx.spends) := by
  obtain ⟨x, hlive, st1, hrun, hshows⟩ := withCoins_spec h tx.getHash (removeOutputs tx nHeight)
  have htx := normal_fromTx hchecked.outputs_not_null nHeight
  have happly : m.applyTx nHeight tx tx.getHash = (fromTx tx nHeight).live := update_self ..
  obtain ⟨hx, hnormal⟩ := hm.entry happly hlive
  rw [removeOutputs_eq hx (hnormal htx) htx] at hrun hshows
  refine ⟨st1, _, hrun, hshows, hm.update (fun k => ?_) fun _ => nofun⟩
  -- the transaction wrote to an id without coins, and spending adds none
  rw [FlatMap.coinAt_spendAll, hfresh, ite_self, FlatMap.coinAt_of_live (update_self ..)]
  rfl

theorem SpentAll.length_eq {undos : List CTxInUndo} (h : SpentAll m vin undos) :
    undos.length = vin.length := by
  induction h with
  | nil => rfl
  | cons _ _ _ ih => simp [ih]

/-- One transaction is undone: the coinbase without a record, any other with its own. -/
theorem disconnectTx_step (h : Shows V s st m' best below) (hm : Mirrors m' (m.applyTx nHeight tx))
    (hchecked : CheckedTx tx) (hfresh : ∀ n, m.coinAt tx.getHash n = none) (hheights : HasHeights m)
    {txundo : CTxUndo} (hspent : SpentAll m tx.spends txundo.vprevout)
    (hn : ∀ txin ∈ tx.spends, txin.prevout.n ≠ 0xFFFFFFFF) (f : Bool) :
    ∃ st1 m1, disconnectTx V s nHeight tx (if tx.isCoinBase then none else some txundo) f st =
      .ok (f, st1) ∧ Shows V s st1 m1 best below ∧ Mirrors m1 m := by
  obtain ⟨st1, m1, hrun, h₁, hm1⟩ := removeOutputs_step h hm hchecked hfresh
  unfold disconnectTx
  rw [bind_of_ok hrun]
  cases hcb : tx.isCoinBase with
  | true =>
    have hnil : tx.spends = [] := by simp [spends, hcb]
    rw [hnil] at hm1
    exact ⟨st1, m1, by simp; rfl, h₁, hm1⟩
  | false =>
    have hvin : tx.spends = tx.vin := by simp [spends, hcb]
    rw [hvin] at hspent hm1 hn
    have hlen := hspent.length_eq
    obtain ⟨st2, m2, hrest, h₂, hm2⟩ := restoreInputs_spent hspent h₁ hm1 hheights hn f
    refine ⟨st2, m2, ?_, h₂, hm2⟩
    simp only [Bool.false_eq_true, if_false, hlen, beq_self_eq_true, Bool.and_true]
    exact hrest

theorem disconnectTxs_append {l1 l2 : List (CTransaction × Option CTxUndo)}
    (h : disconnectTxs V s nHeight l1 f st = .ok (f1, st1)) :
    disconnectTxs V s nHeight (l1 ++ l2) f st = disconnectTxs V s nHeight l2 f1 st1 := by
  induction l1 generalizing f st with
  | nil =>
    obtain ⟨rfl, rfl⟩ := pure_ok_iff.mp h
    rfl
  | cons p rest ih =>
    obtain ⟨f2, st2, hone, hrest⟩ := bind_ok_iff.mp h
    show disconnectTxs V s nHeight (p :: (rest ++ l2)) f st = _
    rw [disconnectTxs, bind_of_ok hone]
    exact ih hrest

/-- The records in the order of the transactions, with none for a coinbase. -/
def undoList (txs : List CTransaction) (undos : List CTxUndo) :
    List (CTransaction × Option CTxUndo) :=
  (txs.zip undos).map fun p => (p.1, if p.1.isCoinBase then none else some p.2)

variable {m2 : FlatMap}

/-- The run lemma: undoing a list of transactions goes back to the ledger it started from. -/
theorem disconnectTxs_connected (hrun : TxsConnected nHeight m nFees txs undos m2 nFees')
    (h : Shows V s st m' best below) (hm : Mirrors m' m2) (hchecked : ∀ tx ∈ txs, CheckedTx tx)
    (hfresh : WritesFresh nHeight m txs) (hheights : HasHeights m) (hheight : nHeight ≠ 0)
    (hn : ∀ tx ∈ txs, ∀ txin ∈ tx.spends, txin.prevout.n ≠ 0xFFFFFFFF) (f : Bool) :
    ∃ st1 m1, disconnectTxs V s nHeight (undoList txs undos).reverse f st = .ok (f, st1) ∧
      Shows V s st1 m1 best below ∧ Mirrors m1 m := by
  induction hrun generalizing st m' with
  | nil m nFees => exact ⟨st, m', rfl, h, hm⟩
  | @cons m m2 f0 f1 f2 tx rest txundo undos _ hspent _ ih =>
    rw [forall_mem_cons] at hchecked hn
    obtain ⟨st1, m1, hrest, h₁, hm1⟩ :=
      ih h hm hchecked.2 hfresh.2 (hheights.applyTx hheight tx) hn.2
    obtain ⟨st2, m2', hone, h₂, hm2⟩ :=
      disconnectTx_step h₁ hm1 hchecked.1 hfresh.1 hheights hspent hn.1 f
    refine ⟨st2, m2', ?_, h₂, hm2⟩
    show disconnectTxs V s nHeight (_ :: undoList rest undos).reverse f st = _
    rw [reverse_cons, disconnectTxs_append hrest, disconnectTxs, bind_of_ok hone]
    rfl

/-- The list `DisconnectBlock` walks through: only the first transaction is a coinbase. -/
theorem undoList_eq {coinbase : CTransaction} (hcb : coinbase.isCoinBase = true)
    (hrest : ∀ tx ∈ rest, tx.isCoinBase = false) (undo : CTxUndo) (undos : List CTxUndo) :
    undoList (coinbase :: rest) (undo :: undos) =
      (coinbase :: rest).zip (none :: undos.map some) := by
  have hlist : undoList rest undos = rest.zip (undos.map some) := by
    rw [zip_map_right]
    apply map_congr_left
    intro p hp
    rw [hrest p.1 (of_mem_zip hp).1]
    rfl
  show (coinbase, if coinbase.isCoinBase then none else some undo) :: undoList rest undos = _
  rw [hcb, hlist]
  rfl

theorem TxsConnected.length_eq (h : TxsConnected nHeight m nFees txs undos m' nFees') :
    undos.length = txs.length := by
  induction h with
  | nil => rfl
  | cons _ _ _ ih => simp [ih]

/-- With no best block at the top, the levels below have none either. -/
theorem Shows.below_of_best_zero (h : Shows V s st m 0 below) : below = 0 := by
  obtain ⟨c, rest, rfl⟩ := exists_cons_of_ne_nil h.nonempty
  have hbest := h.best_eq
  rw [← h.below_eq]
  unfold bestBlock at hbest
  split at hbest
  · exact hbest
  · rename_i hne
    exact absurd hbest hne

/-! ## Blocks -/

/-- The ledger-level round trip: a view that mirrors the ledger after an accepted block goes
back to one that mirrors the ledger before it. -/
theorem disconnectTxs_block {block : CBlock} {pindex : CBlockIndex} {blockundo : CBlockUndo}
    (hconn : BlockConnected m block pindex blockundo m2) (h : Shows V s st m' best below)
    (hheights : HasHeights m) (hheight : pindex.nHeight ≠ 0) (hexempt : bip30Exempt pindex = false)
    (hids : ∀ a ∈ block.vtx, ∀ b ∈ block.vtx, a.getHash = b.getHash → a = b)
    (hn : ∀ tx ∈ block.vtx, ∀ txin ∈ tx.spends, txin.prevout.n ≠ 0xFFFFFFFF)
    (hm : Mirrors m' m2 := by exact .refl _) :
    blockundo.vtxundo.length + 1 = block.vtx.length ∧ ∃ st1 m1, disconnectTxs V s pindex.nHeight
          (block.vtx.zip (none :: blockundo.vtxundo.map some)).reverse true st = .ok (true, st1) ∧
        Shows V s st1 m1 best below ∧ Mirrors m1 m := by
  obtain ⟨undos, nFees, htxs, hundo, -⟩ := hconn.txs
  obtain ⟨cb, rest, hvtx, hcb, hrest⟩ := hconn.checked.coinbase_first
  have hlen := htxs.length_eq
  rw [hvtx] at hlen
  obtain ⟨undo, undos, rfl⟩ := exists_cons_of_length_pos (l := undos) (by simp [hlen])
  simp only [length_cons, Nat.add_right_cancel_iff] at hlen
  have hold : ∀ tx ∈ block.vtx, ∀ n, ¬ (m.coinAt tx.getHash n ≠ none) := by
    intro tx htx n hne
    exact hne (by rw [FlatMap.coinAt, hconn.overwrites hexempt tx htx]; rfl)
  have hprogress : Progress (fun t n => m.coinAt t n ≠ none) [] m :=
    ⟨fun _ _ _ hcoin => .inl (by simp [hcoin]), by simp⟩
  have hfresh : WritesFresh pindex.nHeight m block.vtx := by
    apply overwritesNothing htxs hprogress hconn.checked.checked
    · exact fun tx _ hmem => absurd hmem (by simp)
    · rw [hvtx]
      exact hrest
    · exact hold
    · exact hids
  obtain ⟨st1, m1, hrun, h₁, hm1⟩ := disconnectTxs_connected htxs h hm
    hconn.checked.checked hfresh hheights hheight hn true
  refine ⟨by rw [hundo, hvtx]; simp [hlen], st1, m1, ?_, h₁, hm1⟩
  rw [hundo]
  rw [hvtx] at hrun ⊢
  rw [← undoList_eq hcb hrest undo]
  exact hrun

end Undo

/-- **`disconnectBlock_restores`** — a block that was connected to a view, other than the
genesis block and the two blocks that may overwrite, is disconnected cleanly with the undo
record it produced, and the view then has exactly the coins and the best block it had. The
hash zero is the code's null hash and is no block's; distinct transactions of the block have
distinct ids; and no input refers to output number `2^32 - 1`, for which the 32-bit size the
code resizes to would be zero. -/
theorem disconnectBlock_restores {σ : Type} (V : CCoinsView σ) (s : σ) (E : ConnectEnv)
    (view : CCoinsViewCache) (below : List CCoinsViewCache) (block : CBlock)
    (pindex prev : CBlockIndex) (pprev : List CBlockIndex) (blockundo : CBlockUndo)
    (st : List CCoinsViewCache) (hcoherent : Coherent V s (view :: below))
    (hheights : ∀ t c, seen V s (view :: below) t = some c → 1 ≤ c.nHeight)
    (hheight : 1 ≤ pindex.nHeight)
    (hgenesis : E.getHash block.toCBlockHeader ≠ E.params.hashGenesisBlock)
    (hexempt : bip30Exempt pindex = false) (hnull : pindex.phashBlock ≠ some 0)
    (hids : ∀ a ∈ block.vtx, ∀ b ∈ block.vtx, a.getHash = b.getHash → a = b)
    (hn : ∀ tx ∈ block.vtx, ∀ txin ∈ tx.spends, txin.prevout.n ≠ 0xFFFFFFFF)
    (hrun : connectBlock V s E block pindex (prev :: pprev) false (view :: below) =
      .ok (blockundo, st)) :
    ∃ st', disconnectBlock V s block pindex (prev :: pprev) blockundo st = .ok (true, st') ∧
      (∀ t n, FlatMap.coinAt (seen V s st') t n = FlatMap.coinAt (seen V s (view :: below)) t n) ∧
      bestBlock V s st' = bestBlock V s (view :: below) := by
  have hshows : Shows V s (view :: below) (seen V s (view :: below))
      (bestBlock V s (view :: below)) (bestBlock V s below) :=
    ⟨hcoherent, by simp, rfl, rfl, rfl⟩
  have hheights' : HasHeights (seen V s (view :: below)) := by
    intro t n coin hcoin hzero
    obtain ⟨c, hc, hcoin⟩ := FlatMap.coinAt_eq_some_iff.mp hcoin
    obtain ⟨out, -, -, rfl⟩ := coinAt_eq_some_iff.mp hcoin
    have hle := hheights t c hc
    rw [show c.nHeight = 0 from hzero] at hle
    exact absurd hle (by decide)
  have hheight' : pindex.nHeight ≠ 0 := by
    intro hzero
    rw [hzero] at hheight
    exact absurd hheight (by decide)
  obtain ⟨m', hash, hconn, hhash, hprev, h₁⟩ := connectBlock_inv hshows hgenesis hrun
  have hne : hash ≠ 0 := by
    rintro rfl
    exact hnull hhash
  rw [if_neg hne] at h₁
  have hprevHash : prev.phashBlock = some (bestBlock V s (view :: below)) := hprev prev rfl
  -- the assertion and the size check at the start
  obtain ⟨st2, hbest, h₂⟩ := viewBestBlock_spec h₁
  obtain ⟨hlen, st3, m3, hundo, h3, hm3⟩ :=
    disconnectTxs_block hconn h₂ hheights' hheight' hexempt hids hn
  obtain ⟨st4, hset, h4⟩ := setBestBlock_spec h3 (bestBlock V s (view :: below))
  refine ⟨st4, ?_, ?_, ?_⟩
  · unfold disconnectBlock
    rw [bind_of_ok (deref_ok_iff.mpr ⟨hhash, rfl⟩), bind_of_ok hbest,
      bind_of_ok (ensure_of_true (by simp) _), bind_of_ok (ensure_of_true (by simp [hlen]) _),
      bind_of_ok hundo,
      bind_of_ok (deref_ok_iff.mpr ⟨head?_cons, rfl⟩),
      bind_of_ok (deref_ok_iff.mpr ⟨hprevHash, rfl⟩),
      bind_of_ok hset]
    rfl
  · intro t n
    rw [h4.seen_eq, hm3.coinAt]
  · rw [h4.best_eq]
    split
    · rename_i hzero
      rw [hzero] at hshows ⊢
      exact hshows.below_of_best_zero
    · rfl

/-! ## Small blocks on a small view -/

/-- Inputs and outputs with trivial scripts. -/
def plainTx (hash : Uint256) (vin : List COutPoint) (values : List CAmount) : CTransaction where
  hash := hash
  nVersion := 1
  vin := vin.map fun prevout => ⟨prevout, [0, 0], 0⟩
  vout := values.map fun value => ⟨value, []⟩
  nLockTime := 0
  strTxComment := []

/-- A block on top of block 7. -/
def plainBlock (hashMerkleRoot : Uint256) (vtx : List CTransaction) : CBlock where
  nVersion := 1
  hashPrevBlock := 7
  hashMerkleRoot := hashMerkleRoot
  nTime := 0
  nBits := 0
  nNonce := 0
  vtx := vtx

def plainIndex (hash : Uint256) (nHeight : Int32) : CBlockIndex where
  phashBlock := some hash
  nHeight := nHeight
  nVersion := 1
  hashMerkleRoot := 0
  nTime := 0
  nBits := 0
  nNonce := 0

/-- The block at hand has the given hash; all scripts pass. -/
def plainEnv (hash : Uint256) (nHeight : Int32) : ConnectEnv where
  getHash := fun _ => hash
  hashPair := fun a b => a + 2 * b
  checkProofOfWork := fun _ _ => true
  adjustedTime := 0
  params := mainParams
  fCheckpointsEnabled := false
  nScriptCheckThreads := 0
  mapBlockIndex := fun h => if h = 7 then some (plainIndex 7 nHeight) else none
  verifyScript := fun _ => none

/-- A view at block 7 that holds one transaction, over an empty database. -/
def plainView (t : Uint256) (c : CCoins) : CCoinsViewCache where
  hashBlock := 7
  cacheCoins := (∅ : CCoinsMap).insert t { coins := c, dirty := true, fresh := true }

theorem plainView_lookup {e : CCoinsCacheEntry}
    (h : (plainView t c).cacheCoins.lookup t' = some e) :
    t' = t ∧ e = { coins := c, dirty := true, fresh := true } := by
  by_cases ht : t' = t
  · subst ht
    have hself : (plainView t' c).cacheCoins.lookup t' =
        some { coins := c, dirty := true, fresh := true } := lookup_insert _
    rw [hself] at h
    exact ⟨rfl, (Option.some.inj h).symm⟩
  · have hne : (plainView t c).cacheCoins.lookup t' = (∅ : CCoinsMap).lookup t' :=
      lookup_insert_ne ht
    rw [hne] at h
    simp at h

theorem plainView_coherent (t : Uint256) (hc : c.Clean) :
    Coherent coinsViewDB {} [plainView t c] := by
  refine ⟨rfl, ?_, trivial⟩
  intro t' e he
  obtain ⟨rfl, rfl⟩ := plainView_lookup he
  exact ⟨hc, fun _ => rfl, nofun, nofun⟩

theorem plainView_seen (h : seen coinsViewDB {} [plainView t c] t' = some c') : c' = c := by
  obtain ⟨x, hpeek, hlive⟩ := Option.bind_eq_some_iff.mp h
  cases hl : (plainView t c).cacheCoins.lookup t' with
  | none =>
    rw [peek_cons_none hl] at hpeek
    cases hpeek
  | some e =>
    rw [peek_cons_some hl] at hpeek
    obtain ⟨-, rfl⟩ := plainView_lookup hl
    cases hpeek
    exact (live_eq_some_iff.mp hlive).2.symm

/-- A block is connected to a view and disconnected again with its undo record. -/
def thereAndBack (E : ConnectEnv) (block : CBlock) (pindex prev : CBlockIndex)
    (view : CCoinsViewCache) : Option (Bool × List CCoinsViewCache) :=
  match connectBlock coinsViewDB {} E block pindex [prev] false [view] with
  | .error _ => none
  | .ok (blockundo, st) =>
    match disconnectBlock coinsViewDB {} block pindex [prev] blockundo st with
    | .error _ => none
    | .ok r => some r

/-- The hash of the first block that may overwrite. -/
def exemptHash : Uint256 := 0x00000000000a4d0a398161ffc163c503763b1f4360639393e0e4c8e300e0caec

def exemptBlock : CBlock := plainBlock 1 [plainTx 1 [COutPoint.null] [5]]

/-- An unspent coinbase with the id of the one in `exemptBlock`. -/
def overwrittenCoins : CCoins where
  fCoinBase := true
  vout := [⟨5, []⟩]
  nHeight := 6
  nVersion := 1

/-- The exempt block is accepted on a view in which its coinbase is already unspent, and is
disconnected without complaint; the coin it overwrote does not come back. -/
theorem exemptBlock_loses_coins : Coherent coinsViewDB {} [plainView 1 overwrittenCoins] ∧
      (∀ t c, seen coinsViewDB {} [plainView 1 overwrittenCoins] t = some c → 1 ≤ c.nHeight) ∧
      ∃ st', thereAndBack (plainEnv exemptHash 91841) exemptBlock (plainIndex exemptHash 91842)
          (plainIndex 7 91841) (plainView 1 overwrittenCoins) = some (true, st') ∧
        FlatMap.coinAt (seen coinsViewDB {} [plainView 1 overwrittenCoins]) 1 0 =
          some ⟨⟨5, []⟩, true, 6, 1⟩ ∧
        FlatMap.coinAt (seen coinsViewDB {} st') 1 0 = none := by
  refine ⟨plainView_coherent 1 (by decide), ?_, ?_⟩
  · intro t c hc
    rw [plainView_seen hc]
    decide
  have hrun : (thereAndBack (plainEnv exemptHash 91841) exemptBlock
      (plainIndex exemptHash 91842) (plainIndex 7 91841) (plainView 1 overwrittenCoins)).map
        (fun r => (r.1, FlatMap.coinAt (seen coinsViewDB {} r.2) 1 0)) = some (true, none) := by
    decide
  obtain ⟨⟨clean, st'⟩, hsome, heq⟩ := Option.map_eq_some_iff.mp hrun
  simp only [Prod.mk.injEq] at heq
  obtain ⟨rfl, hnone⟩ := heq
  exact ⟨st', hsome, by decide, hnone⟩

/-- Two outputs of one older transaction. -/
def spentCoins : CCoins where
  vout := [⟨10, []⟩, ⟨20, []⟩]
  nHeight := 2
  nVersion := 1

/-- The second transaction spends one output of the older transaction, the third one spends the
other and an output of the second. -/
def spendingBlock : CBlock :=
  plainBlock 23 [plainTx 1 [COutPoint.null] [2504], plainTx 2 [⟨5, 0⟩] [9, 1],
    plainTx 3 [⟨2, 1⟩, ⟨5, 1⟩] [17]]

theorem disconnectBlock_restores_spendingBlock : ∃ blockundo st st',
      connectBlock coinsViewDB {} (plainEnv 8 3) spendingBlock (plainIndex 8 4) [plainIndex 7 3]
        false [plainView 5 spentCoins] = .ok (blockundo, st) ∧
      disconnectBlock coinsViewDB {} spendingBlock (plainIndex 8 4) [plainIndex 7 3] blockundo st =
        .ok (true, st') ∧
      (∀ t n, FlatMap.coinAt (seen coinsViewDB {} st') t n =
        FlatMap.coinAt (seen coinsViewDB {} [plainView 5 spentCoins]) t n) ∧
      bestBlock coinsViewDB {} st' = 7 := by
  have hrun : (connectBlock coinsViewDB {} (plainEnv 8 3) spendingBlock (plainIndex 8 4)
      [plainIndex 7 3] false [plainView 5 spentCoins]).toOption.isSome = true := by decide
  cases h : connectBlock coinsViewDB {} (plainEnv 8 3) spendingBlock (plainIndex 8 4)
      [plainIndex 7 3] false [plainView 5 spentCoins] with
  | error e =>
    rw [h] at hrun
    cases hrun
  | ok r =>
    obtain ⟨blockundo, st⟩ := r
    obtain ⟨st', hundo, hcoins, hbest⟩ := disconnectBlock_restores coinsViewDB {} (plainEnv 8 3)
      (plainView 5 spentCoins) [] spendingBlock (plainIndex 8 4) (plainIndex 7 3) [] blockundo st
      (plainView_coherent 5 (by decide))
      (by
        intro t c hc
        rw [plainView_seen hc]
        decide)
      (by decide) (by decide) (by decide) (by decide) (by decide) (by decide) h
    exact ⟨blockundo, st, st', rfl, hundo, hcoins, hbest⟩

end MonetaryUnit
