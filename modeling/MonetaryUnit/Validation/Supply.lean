/-
# MonetaryUnit.Validation.Supply — no block creates more than its subsidy

The money in a map of coins is the sum of the values of its coins, as an integer. Applying a
transaction removes its inputs and adds at most its outputs. Along a block the money plus the fees
collected never exceeds the money before plus what the coinbase pays out, and the coinbase may pay
out the subsidy plus the fees.

The 64-bit sums that validation forms on the way are exact: the money of a chain is far below
`2^63`, even together with the largest coinbase that passes `CheckTransaction`, whose value is
compared with the fees only after the loop.
-/

import MonetaryUnit.Lib.ExactSum
import MonetaryUnit.Validation.Disconnect
import Mathlib.Algebra.Order.BigOperators.Group.Finset
import Mathlib.Data.FinEnum

namespace MonetaryUnit

open List Function CCoins CTransaction FlatMap

open ViewM Lib

/-! ## Money -/

/-- The value of an output slot: nothing when it is spent. -/
def CTxOut.money (out : CTxOut) : Int := if out.isNull then 0 else out.nValue.toInt

def CCoins.total (c : CCoins) : Int := (c.vout.map CTxOut.money).sum

/-- The values of the outputs of a transaction, as an integer. -/
def CTransaction.outputSum (tx : CTransaction) : Int :=
  (tx.vout.map fun out => out.nValue.toInt).sum

namespace FlatMap

/-- The money under one transaction id. -/
def row (m : FlatMap) (t : Uint256) : Int := ((m t).map CCoins.total).getD 0

def total (m : FlatMap) : Int := ∑ t : Uint256, m.row t

/-- The values of the coins at some inputs, as an integer. -/
def inputSum (m : FlatMap) (vin : List CTxIn) : Int :=
  (vin.map fun txin => (m.valueAt txin.prevout).toInt).sum

def fee (m : FlatMap) (tx : CTransaction) : Int :=
  if tx.isCoinBase then 0 else m.inputSum tx.vin - tx.outputSum

/-- The fees of a list of transactions, each taken on the ledger it is applied to. -/
def feesOf (nHeight : Int32) : FlatMap → List CTransaction → Int
  | _, [] => 0
  | m, tx :: rest => m.fee tx + feesOf nHeight (m.applyTx nHeight tx) rest

/-- No coin has a negative value. -/
def NonNegative (m : FlatMap) : Prop :=
  ∀ t n coin, m.coinAt t n = some coin → 0 ≤ coin.txout.nValue.toInt

end FlatMap

variable {m m' : FlatMap} {c : CCoins} {tx : CTransaction} {o : COutPoint} {block : CBlock}
variable {nHeight : Int32} {v nFees nFees' : CAmount} {undos : List CTxUndo}

namespace CCoins

@[simp]
theorem money_null : CTxOut.null.money = 0 := rfl

theorem total_cleanup (c : CCoins) : c.cleanup.total = c.total := by
  unfold total cleanup
  generalize c.vout = vout
  induction vout using reverseRecOn with
  | nil => rfl
  | append_singleton vout out ih =>
    by_cases hnull : out.isNull = true
    · rw [rdropWhile_concat_pos _ _ _ hnull, ih]
      simp [CTxOut.money, hnull]
    · rw [rdropWhile_concat_neg _ _ _ hnull]

theorem total_of_pruned (h : c.isPruned = true) : c.total = 0 := by
  apply sum_eq_zero
  intro v hv
  obtain ⟨out, hout, rfl⟩ := mem_map.mp hv
  rw [CTxOut.money, if_pos (all_eq_true.mp h out hout)]

theorem total_live (c : CCoins) : (c.live.map total).getD 0 = c.total := by
  cases hp : c.isPruned with
  | true =>
    rw [live_of_pruned hp, total_of_pruned hp]
    rfl
  | false =>
    rw [live_of_not_pruned hp]
    rfl

theorem total_nullAt {n : Nat} {out : CTxOut} (hout : c.vout[n]? = some out)
    (hnull : out.isNull = false) : (c.nullAt n).total = c.total - out.nValue.toInt := by
  obtain ⟨hlen, hget⟩ := List.getElem?_eq_some_iff.mp hout
  show ((c.vout.set n CTxOut.null).map CTxOut.money).sum = _
  rw [map_set, sum_set', money_null, dif_pos (by simpa using hlen)]
  simp only [getElem_map, hget, CTxOut.money, hnull, Bool.false_eq_true, if_false]
  unfold total
  omega

end CCoins

namespace FlatMap

theorem total_update (m : FlatMap) (t : Uint256) (c : CCoins) :
    total (update m t c.live) = m.total - m.row t + c.total := by
  have hrow : (fun t' => row (update m t c.live) t') = update m.row t c.total := by
    funext t'
    by_cases ht : t' = t
    · subst ht
      rw [update_self, row, update_self, total_live]
    · rw [update_of_ne ht, row, update_of_ne ht, row]
  have hnew := Finset.sum_update_of_mem (Finset.mem_univ t) m.row c.total
  -- the same identity for the row that is there already
  have hold := Finset.sum_update_of_mem (Finset.mem_univ t) m.row (m.row t)
  rw [update_eq_self] at hold
  show ∑ t', row (update m t c.live) t' = _
  rw [hrow, hnew, total]
  omega

theorem NonNegative.row (h : m.NonNegative) (t : Uint256) : 0 ≤ m.row t := by
  unfold FlatMap.row
  cases hc : m t with
  | none => rfl
  | some c =>
    apply sum_nonneg
    intro v hv
    obtain ⟨out, hout, rfl⟩ := mem_map.mp hv
    unfold CTxOut.money
    split
    · rfl
    · rename_i hnull
      obtain ⟨n, hn⟩ := getElem?_of_mem hout
      apply h t n (c.withOutput out)
      rw [coinAt_of_some hc, CCoins.coinAt_eq_some_iff]
      exact ⟨out, hn, by simpa using hnull, rfl⟩

theorem NonNegative.total (h : m.NonNegative) : 0 ≤ m.total := Finset.sum_nonneg fun t _ => h.row t

theorem NonNegative.spendAll (h : m.NonNegative) (vin : List CTxIn) :
    (m.spendAll vin).NonNegative := by
  intro t n coin hcoin
  rw [coinAt_spendAll] at hcoin
  split at hcoin
  · cases hcoin
  · exact h t n coin hcoin

/-! ## Spending -/

theorem coinAt_spendOutput_ne {o' : COutPoint} (hne : o' ≠ o) :
    (m.spendOutput o).coinAt o'.hash o'.n.toNat = m.coinAt o'.hash o'.n.toNat := by
  rw [coinAt_spendOutput, if_neg]
  rintro ⟨hhash, hn⟩
  apply hne
  cases o
  cases o'
  simp only [COutPoint.mk.injEq]
  exact ⟨hhash, UInt32.toNat_inj.mp hn⟩

theorem total_spendOutput (h : m.available o = true) :
    (m.spendOutput o).total = m.total - (m.valueAt o).toInt := by
  obtain ⟨c, out, hc, hout, -, hval, hav⟩ := exists_coin h
  have hnull : out.isNull = false := by
    simpa [isAvailable, hout] using hav
  rw [spendOutput, edit, total_update, hc, Option.getD_some, total_cleanup,
    total_nullAt hout hnull, hval, row, hc]
  simp

variable {vin : List CTxIn}

/-- Distinct inputs that are all there take exactly their values. -/
theorem total_spendAll (hnodup : (vin.map CTxIn.prevout).Nodup)
    (hav : ∀ txin ∈ vin, m.available txin.prevout = true) :
    (m.spendAll vin).total = m.total - m.inputSum vin := by
  induction vin generalizing m with
  | nil => simp [spendAll, inputSum]
  | cons txin rest ih =>
    rw [map_cons, nodup_cons] at hnodup
    rw [forall_mem_cons] at hav
    -- spending the first input leaves the others as they are
    have hsame : ∀ txin' ∈ rest, (m.spendOutput txin.prevout).coinAt txin'.prevout.hash
        txin'.prevout.n.toNat = m.coinAt txin'.prevout.hash txin'.prevout.n.toNat := by
      intro txin' hmem
      apply coinAt_spendOutput_ne
      intro heq
      exact hnodup.1 (heq ▸ mem_map_of_mem hmem)
    have hav' : ∀ txin' ∈ rest, (m.spendOutput txin.prevout).available txin'.prevout = true := by
      intro txin' hmem
      rw [available_eq, hsame txin' hmem, ← available_eq]
      exact hav.2 txin' hmem
    have hsum : (m.spendOutput txin.prevout).inputSum rest = m.inputSum rest := by
      unfold inputSum
      congr 1
      apply map_congr_left
      intro txin' hmem
      rw [valueAt, hsame txin' hmem, valueAt]
    have hcons : m.inputSum (txin :: rest) = (m.valueAt txin.prevout).toInt + m.inputSum rest := rfl
    show ((m.spendOutput txin.prevout).spendAll rest).total = _
    rw [ih hnodup.2 hav', total_spendOutput hav.1]
    omega

section

variable (h : m.NonNegative)
include h

theorem NonNegative.valueAt (o : COutPoint) : 0 ≤ (m.valueAt o).toInt := by
  unfold FlatMap.valueAt
  split
  · rename_i coin hcoin
    exact h _ _ coin hcoin
  · rfl

theorem NonNegative.inputSum (vin : List CTxIn) : 0 ≤ m.inputSum vin := by
  apply sum_nonneg
  intro v hv
  obtain ⟨txin, -, rfl⟩ := mem_map.mp hv
  exact h.valueAt txin.prevout

theorem NonNegative.inputSum_le (hnodup : (vin.map CTxIn.prevout).Nodup)
    (hav : ∀ txin ∈ vin, m.available txin.prevout = true) : m.inputSum vin ≤ m.total := by
  have hrest := (h.spendAll vin).total
  rw [total_spendAll hnodup hav] at hrest
  omega

/-- The 64-bit sum over any first part of the inputs is exact. -/
theorem valueIn_toInt (hfits : m.total < 2 ^ 63) {vin' : List CTxIn}
    (hnodup : (vin.map CTxIn.prevout).Nodup) (hav : ∀ txin ∈ vin, m.available txin.prevout = true)
    (hpre : vin' <+: vin) : (m.valueIn 0 vin').toInt = m.inputSum vin' := by
  have hmap : (vin'.map fun txin => m.valueAt txin.prevout).map Int64.toInt =
      vin'.map fun txin => (m.valueAt txin.prevout).toInt := by simp
  have hle := h.inputSum_le (hnodup.sublist (hpre.sublist.map _))
    (fun txin hmem => hav txin (hpre.subset hmem))
  have hzero : (0 : Int64).toInt = 0 := rfl
  have hfold : m.valueIn 0 vin' =
      (vin'.map fun txin => m.valueAt txin.prevout).foldl (· + ·) 0 := by
    rw [foldl_map]
    rfl
  rw [hfold, toInt_foldl_add (by decide), hmap, hzero, zero_add]
  · rfl
  · intro v hv
    obtain ⟨txin, -, rfl⟩ := mem_map.mp hv
    exact h.valueAt txin.prevout
  · rw [hmap, hzero, zero_add]
    exact lt_of_le_of_lt hle hfits

end

end FlatMap

/-! ## Checked transactions -/

theorem toInt_nonneg_of_range (h : moneyRange v = true) : 0 ≤ v.toInt :=
  (moneyRange_iff.mp h).1

/-- The loop of `CheckTransaction` over the outputs, and the loop of `GetValueOut`, which forms
the same sum. -/
theorem foldlM_checkOutValue {vout : List CTxOut} {n : CAmount} (hn : moneyRange n = true)
    (h : vout.foldlM checkOutValue n = .ok v) :
    moneyRange v = true ∧ v.toInt = n.toInt + (vout.map fun out => out.nValue.toInt).sum ∧
      (∀ out ∈ vout, moneyRange out.nValue = true) ∧
      vout.foldlM addValueOut n = .ok v := by
  induction vout generalizing n with
  | nil =>
    cases h
    exact ⟨hn, by simp, by simp, rfl⟩
  | cons out rest ih =>
    rw [foldlM_cons, bind_eq_ok] at h
    obtain ⟨n', hone, hrest⟩ := h
    simp only [checkOutValue, require_bind_eq_ok] at hone
    obtain ⟨hnonneg, hmax, hrange, hn'⟩ := hone
    cases hn'
    have hout : moneyRange out.nValue = true := by
      rw [moneyRange, hnonneg, hmax]
      rfl
    obtain ⟨hv, hsum, hall, hfold⟩ := ih hrange hrest
    refine ⟨hv, ?_, by simpa using ⟨hout, hall⟩, ?_⟩
    · rw [hsum, toInt_add_of_nonneg (toInt_nonneg_of_range hn) (toInt_nonneg_of_range hout)
        (toInt_nonneg_of_range hrange), map_cons, sum_cons]
      omega
    · rw [foldlM_cons, addValueOut]
      simp only [hout, hrange, Bool.not_true, Bool.or_self, Bool.false_eq_true, if_false]
      exact hfold

namespace CheckedTx

section

variable (h : CheckedTx tx)
include h

theorem getValueOut :
    ∃ v, tx.getValueOut = .ok v ∧ moneyRange v = true ∧ v.toInt = tx.outputSum := by
  obtain ⟨v, hv⟩ := h.valueOut
  obtain ⟨hrange, hsum, -, hfold⟩ := foldlM_checkOutValue (by decide) hv
  refine ⟨v, hfold, hrange, ?_⟩
  rw [hsum, outputSum]
  simp

theorem outputs_nonneg : ∀ out ∈ tx.vout, 0 ≤ out.nValue.toInt := by
  obtain ⟨v, hv⟩ := h.valueOut
  obtain ⟨-, -, hall, -⟩ := foldlM_checkOutValue (by decide) hv
  exact fun out hout => toInt_nonneg_of_range (hall out hout)

/-- At most the outputs become coins. -/
theorem total_fromTx_le (nHeight : Int32) : (fromTx tx nHeight).total ≤ tx.outputSum := by
  rw [fromTx, clearUnspendable, total_cleanup]
  show ((nullUnspendable tx.vout).map CTxOut.money).sum ≤ _
  rw [nullUnspendable, map_map]
  apply sum_le_sum
  intro out hout
  have hnonneg := h.outputs_nonneg out hout
  show CTxOut.money (if _ then _ else _) ≤ _
  split
  · exact hnonneg
  · unfold CTxOut.money
    split
    · exact hnonneg
    · exact le_rfl

theorem total_applyTx_le (hm : m.NonNegative) (nHeight : Int32) :
    (m.applyTx nHeight tx).total ≤ (m.spendAll tx.spends).total + tx.outputSum := by
  have hrow := (hm.spendAll tx.spends).row tx.getHash
  have hnew := h.total_fromTx_le nHeight
  rw [applyTx, total_update]
  omega

theorem nonNegative_applyTx (hm : m.NonNegative) (nHeight : Int32) :
    (m.applyTx nHeight tx).NonNegative := by
  intro t n coin hcoin
  rw [coinAt_applyTx] at hcoin
  split at hcoin
  · rw [coinAt_fromTx] at hcoin
    split at hcoin
    · rename_i out hout
      split at hcoin
      · cases hcoin
      · cases hcoin
        exact h.outputs_nonneg out (mem_of_getElem? hout)
    · cases hcoin
  · exact hm.spendAll tx.spends t n coin hcoin

end

end CheckedTx

/-! ## One block -/

/-- The money and the fees collected so far stay within a budget that fits 64 bits. -/
structure WithinBudget (budget : Int) (m : FlatMap) (nFees : CAmount) : Prop where
  nonneg : m.NonNegative
  fees_nonneg : 0 ≤ nFees.toInt
  bound : m.total + nFees.toInt ≤ budget
  fits : budget < 2 ^ 63

namespace WithinBudget

variable {budget : Int}

section

variable (h : WithinBudget budget m nFees)
include h

theorem total_lt : m.total < 2 ^ 63 := by
  have h1 := h.fees_nonneg
  have h2 := h.bound
  have h3 := h.fits
  omega

/-- The fee total after a transaction, exactly, also if its inputs are worth less than its
outputs and `CheckInputs` is about to reject it. -/
theorem add_fee (hchecked : CheckedTx tx) (hav : ∀ txin ∈ tx.vin, m.available txin.prevout = true)
    (hv : tx.getValueOut = .ok v) :
    (nFees + (m.valueIn 0 tx.vin - v)).toInt =
      nFees.toInt + (m.inputSum tx.vin - tx.outputSum) := by
  obtain ⟨v', hv', hrange, hsum⟩ := hchecked.getValueOut
  rw [hv] at hv'
  cases hv'
  have hin := valueIn_toInt h.nonneg h.total_lt hchecked.inputs_nodup hav (prefix_refl _)
  have hle := h.nonneg.inputSum_le hchecked.inputs_nodup hav
  have hnonneg := h.nonneg.inputSum tx.vin
  have hmoney := moneyRange_iff.mp hrange
  have h1 := h.fees_nonneg
  have h2 := h.bound
  have h3 := h.fits
  have hsub : (m.valueIn 0 tx.vin - v).toInt = m.inputSum tx.vin - tx.outputSum := by
    rw [toInt_sub_of_bounds] <;> omega
  rw [toInt_add_of_bounds] <;> omega

/-- A transaction with inputs moves money from the coins to the fees. -/
theorem step (hchecked : CheckedTx tx) (hcb : tx.isCoinBase = false)
    (hin : InputsConnected m tx nFees nFees') (nHeight : Int32) :
    WithinBudget budget (m.applyTx nHeight tx) nFees' ∧ nFees'.toInt = nFees.toInt + m.fee tx := by
  have hav := hin.available hcb
  obtain ⟨v, hv, hle, hfees⟩ := hin.fees hcb
  have hexact := h.add_fee hchecked hav hv
  rw [← hfees] at hexact
  -- `CheckInputs` compared the same two sums
  obtain ⟨v', hv', -, hsum⟩ := hchecked.getValueOut
  rw [hv] at hv'
  cases hv'
  have hcover : tx.outputSum ≤ m.inputSum tx.vin := by
    rw [← hsum, ← valueIn_toInt h.nonneg h.total_lt hchecked.inputs_nodup hav (prefix_refl _)]
    exact Int64.le_iff_toInt_le.mp hle
  have htotal := hchecked.total_applyTx_le h.nonneg nHeight
  have hspends : tx.spends = tx.vin := by simp [spends, hcb]
  rw [hspends, total_spendAll hchecked.inputs_nodup hav] at htotal
  have h1 := h.fees_nonneg
  have h2 := h.bound
  refine ⟨⟨hchecked.nonNegative_applyTx h.nonneg nHeight, by omega, by omega, h.fits⟩, ?_⟩
  rw [hexact, fee, if_neg (by simp [hcb])]

theorem run {txs : List CTransaction} (hrun : TxsConnected nHeight m nFees txs undos m' nFees')
    (hchecked : ∀ tx ∈ txs, CheckedTx tx) (hcb : ∀ tx ∈ txs, tx.isCoinBase = false) :
    WithinBudget budget m' nFees' ∧ nFees'.toInt = nFees.toInt + feesOf nHeight m txs := by
  induction hrun with
  | nil m nFees => exact ⟨h, by simp [feesOf]⟩
  | @cons m m' f f1 f' tx rest txundo undos hin _ _ ih =>
    rw [forall_mem_cons] at hchecked hcb
    obtain ⟨h₁, hfee⟩ := h.step hchecked.1 hcb.1 hin nHeight
    obtain ⟨h', hfees⟩ := ih h₁ hchecked.2 hcb.2
    refine ⟨h', ?_⟩
    rw [feesOf]
    omega

end

end WithinBudget

/-- The budget of a block: the money before it and what its coinbase pays out. -/
def blockBudget (m : FlatMap) (block : CBlock) : Int :=
  m.total + (block.vtx.head?.map CTransaction.outputSum).getD 0

/-- Any first part of the transactions of a checked block stays within the budget of the
block, and its fees are exact. -/
theorem blockPrefix_withinBudget (hblock : CheckedBlock block) (hm : m.NonNegative)
    (hfits : blockBudget m block < 2 ^ 63) {pre : List CTransaction} (hpre : pre <+: block.vtx)
    (hrun : TxsConnected nHeight m 0 pre undos m' nFees) :
    WithinBudget (blockBudget m block) m' nFees ∧ nFees.toInt = feesOf nHeight m pre := by
  obtain ⟨cb, rest, hvtx, hcb, hrest⟩ := hblock.coinbase_first
  have hchecked := hblock.checked cb (by simp [hvtx])
  obtain ⟨v, -, hrange, hsum⟩ := hchecked.getValueOut
  have hpay := toInt_nonneg_of_range hrange
  have hbudget : blockBudget m block = m.total + cb.outputSum := by
    rw [blockBudget, hvtx]
    rfl
  have hzero : (0 : CAmount).toInt = 0 := rfl
  cases hrun with
  | nil =>
    refine ⟨⟨hm, by decide, ?_, hfits⟩, rfl⟩
    omega
  | @cons _ _ _ f1 _ tx rest' txundo undos hin _ htail =>
    -- the first transaction is the coinbase: it collects nothing and pays out
    rw [hvtx, cons_prefix_cons] at hpre
    obtain ⟨rfl, hpre⟩ := hpre
    obtain rfl := hin.coinbase hcb
    have htotal := hchecked.total_applyTx_le hm nHeight
    have hspends : tx.spends = [] := by simp [spends, hcb]
    rw [hspends] at htotal
    have hstart : WithinBudget (blockBudget m block) (m.applyTx nHeight tx) 0 := by
      refine ⟨hchecked.nonNegative_applyTx hm nHeight, by decide, ?_, hfits⟩
      rw [hbudget]
      simpa [FlatMap.spendAll] using htotal
    obtain ⟨h', hfees⟩ := hstart.run htail
      (fun tx' hmem => hblock.checked tx' (by simp [hvtx, hpre.subset hmem]))
      (fun tx' hmem => hrest tx' (hpre.subset hmem))
    refine ⟨h', ?_⟩
    rw [hfees, feesOf, fee, if_pos hcb, hzero]

/-! ## Subsidies -/

theorem getBlockValue_eq (h : nHeight ≠ 0) (nFees : CAmount) :
    getBlockValue nHeight nFees = getBlockValue nHeight 0 + nFees := by
  simp only [getBlockValue, if_neg h, Int64.add_zero]

/-- Every subsidy is at most 40 coins, but for the first block's. -/
theorem subsidy_range (nHeight : Int32) :
    0 ≤ (getBlockValue nHeight 0).toInt ∧ (getBlockValue nHeight 0).toInt ≤ 4000000000000 ∧
      (nHeight ≠ 1 → (getBlockValue nHeight 0).toInt ≤ 4000000) := by
  unfold getBlockValue
  by_cases h0 : nHeight = 0
  · simp [h0]
  by_cases h1 : nHeight = 1
  · subst h1
    decide
  split_ifs <;> exact ⟨by decide, by decide, fun _ => by decide⟩

/-- The sum of the subsidies of the heights from 1 to `height`. -/
def supply (height : Nat) : Int :=
  ∑ i ∈ Finset.range height, (getBlockValue (Int32.ofInt (i + 1)) 0).toInt

theorem supply_le {height : Nat} (h : height < 2 ^ 31) :
    supply height ≤ 4000000000000 + 4000000 * height := by
  induction height with
  | zero => decide
  | succ k ih =>
    have hrange := subsidy_range (Int32.ofInt (k + 1))
    rw [supply, Finset.sum_range_succ, ← supply]
    rcases Nat.eq_zero_or_pos k with rfl | hpos
    · have hzero : supply 0 = 0 := rfl
      omega
    have hne : Int32.ofInt (k + 1) ≠ 1 := by
      intro heq
      have := congrArg Int32.toInt heq
      rw [Int32.toInt_ofInt_of_le (by omega) (by omega)] at this
      have hone : (1 : Int32).toInt = 1 := rfl
      omega
    have := hrange.2.2 hne
    omega

/-! ## Chains -/

/-- Coin views along a chain of blocks that starts with the genesis block, whose transactions
are not connected. Each further block is accepted by `ConnectBlock` on the view so far, at the
next height; between blocks the caches may be flushed, dropped, refilled and pushed in any way
that leaves a coherent stack showing the same coins. -/
inductive ConnectedChain {σ : Type} (V : CCoinsView σ) : Nat → σ → List CCoinsViewCache → Prop
  | genesis {s : σ} {st : List CCoinsViewCache} (coherent : Coherent V s st)
      (nonempty : st ≠ []) (empty : ∀ t, seen V s st t = none) : ConnectedChain V 0 s st
  | connect {height : Nat} {s : σ} {st st' : List CCoinsViewCache} (E : ConnectEnv)
      (block : CBlock) (pindex : CBlockIndex) (pprev : List CBlockIndex) (blockundo : CBlockUndo)
      (chain : ConnectedChain V height s st) (next : pindex.nHeight.toInt = height + 1)
      (notGenesis : E.getHash block.toCBlockHeader ≠ E.params.hashGenesisBlock)
      (accepted : connectBlock V s E block pindex pprev false st = .ok (blockundo, st')) :
      ConnectedChain V (height + 1) s st'
  | restack {height : Nat} {s s' : σ} {st st' : List CCoinsViewCache}
      (chain : ConnectedChain V height s st) (coherent : Coherent V s' st')
      (nonempty : st' ≠ []) (same : seen V s' st' = seen V s st) : ConnectedChain V height s' st'

section Chain

variable {σ : Type} {V : CCoinsView σ} {height : Nat} {s : σ} {st : List CCoinsViewCache}

/-- What the induction over a chain carries. -/
structure ChainOk (V : CCoinsView σ) (height : Nat) (s : σ) (st : List CCoinsViewCache) :
    Prop where
  coherent : Coherent V s st
  nonempty : st ≠ []
  height_lt : height < 2 ^ 31
  nonneg : FlatMap.NonNegative (seen V s st)
  total_le : FlatMap.total (seen V s st) ≤ supply height

theorem ChainOk.shows (h : ChainOk V height s st) :
    Shows V s st (seen V s st) (bestBlock V s st) (bestBlock V s st.tail) :=
  ⟨h.coherent, h.nonempty, rfl, rfl, rfl⟩

/-- The largest coinbase that passes `CheckTransaction` still leaves room for the subsidy below
`2^63`. -/
theorem ChainOk.budget_lt (h : ChainOk V height s st) (hblock : CheckedBlock block) :
    blockBudget (seen V s st) block < 2 ^ 63 - 4000000000000 := by
  obtain ⟨cb, rest, hvtx, -, -⟩ := hblock.coinbase_first
  obtain ⟨v, -, hrange, hsum⟩ := (hblock.checked cb (by simp [hvtx])).getValueOut
  have hmoney := moneyRange_iff.mp hrange
  have htotal := h.total_le
  have hsupply := supply_le h.height_lt
  have hlt := h.height_lt
  rw [blockBudget, hvtx]
  show FlatMap.total _ + cb.outputSum < _
  omega

theorem getBlockValue_toInt (hheight : nHeight.toInt = height + 1) (hlo : 0 ≤ nFees.toInt)
    (hhi : nFees.toInt < 2 ^ 63 - 4000000000000) :
    (getBlockValue nHeight nFees).toInt = (getBlockValue nHeight 0).toInt + nFees.toInt := by
  have hne : nHeight ≠ 0 := by
    rintro rfl
    have : (0 : Int32).toInt = 0 := rfl
    omega
  have hrange := subsidy_range nHeight
  rw [getBlockValue_eq hne, toInt_add_of_bounds] <;> omega

/-- Fees are paid out of the money of the chain and of the coinbase. -/
theorem ChainOk.fees_lt (h : ChainOk V height s st) (hblock : CheckedBlock block)
    (hb : WithinBudget (blockBudget (seen V s st) block) m nFees) :
    nFees.toInt < 2 ^ 63 - 4000000000000 := by
  have hlt := h.budget_lt hblock
  have hpos := hb.nonneg.total
  have hbound := hb.bound
  omega

theorem ChainOk.connect (h : ChainOk V height s st) {E : ConnectEnv} {pindex : CBlockIndex}
    {pprev : List CBlockIndex} {blockundo : CBlockUndo} {st' : List CCoinsViewCache}
    (next : pindex.nHeight.toInt = height + 1)
    (notGenesis : E.getHash block.toCBlockHeader ≠ E.params.hashGenesisBlock)
    (accepted : connectBlock V s E block pindex pprev false st = .ok (blockundo, st')) :
    ChainOk V (height + 1) s st' := by
  obtain ⟨m', hash, hconn, -, -, hshows⟩ := connectBlock_inv h.shows notGenesis accepted
  obtain ⟨undos, nFees, htxs, -, cb, v, hhead, hv, hle⟩ := hconn.txs
  obtain ⟨hb, -⟩ := blockPrefix_withinBudget hconn.checked h.nonneg
    ((h.budget_lt hconn.checked).trans (by decide)) (prefix_refl _) htxs
  have hpays : v.toInt = cb.outputSum := by
    obtain ⟨v', hv', -, hsum⟩ := (hconn.checked.checked cb (mem_of_mem_head? hhead)).getValueOut
    rw [hv] at hv'
    cases hv'
    exact hsum
  have hlimit := Int64.le_iff_toInt_le.mp hle
  rw [getBlockValue_toInt next hb.fees_nonneg (h.fees_lt hconn.checked hb)] at hlimit
  have hbound := hb.bound
  rw [blockBudget, hhead] at hbound
  simp only [Option.map_some, Option.getD_some] at hbound
  have hindex : Int32.ofInt (height + 1) = pindex.nHeight := by
    rw [← next, Int32.ofInt_toInt]
  have hsupply : supply (height + 1) = supply height + (getBlockValue pindex.nHeight 0).toInt := by
    rw [supply, Finset.sum_range_succ, ← supply, hindex]
  have htotal := h.total_le
  have hmax := pindex.nHeight.toInt_lt
  refine ⟨hshows.coherent, hshows.nonempty, by omega, ?_, ?_⟩
  · rw [hshows.seen_eq]
    exact hb.nonneg
  · rw [hshows.seen_eq]
    omega

theorem ConnectedChain.ok (chain : ConnectedChain V height s st) : ChainOk V height s st := by
  induction chain with
  | genesis coherent nonempty empty =>
    rename_i s st
    have hnone : seen V s st = fun _ => none := funext empty
    refine ⟨coherent, nonempty, by decide, ?_, ?_⟩
    · rw [hnone]
      intro t n coin hcoin
      cases hcoin
    · rw [hnone]
      apply le_of_eq
      exact Finset.sum_const_zero
  | connect E block pindex pprev blockundo _ next notGenesis accepted ih =>
    exact ih.connect next notGenesis accepted
  | restack _ coherent nonempty same ih =>
    exact ⟨coherent, nonempty, ih.height_lt, same ▸ ih.nonneg, same ▸ ih.total_le⟩

/-- **`supply_bounded`** — the coins of a chain are worth at most the subsidies of its blocks.
While a block that passed `CheckBlock` is validated on it, after any first part of its
transactions: the fee total is the integer sum of the fees, adding it to the subsidy is exact,
and for the next transaction with inputs, all of which are there, every partial sum of
`GetValueIn` and the new fee total are exact. -/
theorem supply_bounded (chain : ConnectedChain V height s st) :
    FlatMap.total (seen V s st) ≤ supply height ∧
    ∀ (E : ConnectEnv) (block : CBlock) (fCheckPOW fCheckMerkleRoot : Bool)
      (pindex : CBlockIndex) (flags : UInt32) (fScriptChecks : Bool) (tot : BlockTotals)
      (pre post : List CTransaction) (st1 : List CCoinsViewCache),
      checkBlock E.toBlockEnv block fCheckPOW fCheckMerkleRoot = .ok () →
      pindex.nHeight.toInt = height + 1 → block.vtx = pre ++ post →
      connectTxs V s E pindex flags fScriptChecks 0 {} pre st = .ok (tot, st1) →
      tot.nFees.toInt = FlatMap.feesOf pindex.nHeight (seen V s st) pre ∧
      (getBlockValue pindex.nHeight tot.nFees).toInt =
        (getBlockValue pindex.nHeight 0).toInt + tot.nFees.toInt ∧
      ∀ tx ∈ post.head?, tx.isCoinBase = false →
        (∀ txin ∈ tx.vin, FlatMap.available (seen V s st1) txin.prevout = true) →
        (∀ vin, vin <+: tx.vin → ∃ v st2, valueInLoop V s 0 vin st1 = .ok (v, st2) ∧
          v.toInt = FlatMap.inputSum (seen V s st1) vin) ∧
        ∃ v st2 nValueOut, getValueIn V s tx st1 = .ok (v, st2) ∧ tx.getValueOut = .ok nValueOut ∧
          (tot.nFees + (v - nValueOut)).toInt =
            tot.nFees.toInt + FlatMap.fee (seen V s st1) tx := by
  have hok := chain.ok
  refine ⟨hok.total_le, ?_⟩
  intro E block pow merkle pindex flags fScriptChecks tot pre post st1 hcheck hheight hvtx hrun
  have hblock := checkBlock_checked hcheck
  have hpre : pre <+: block.vtx := ⟨post, hvtx.symm⟩
  obtain ⟨undos, m', htxs, -, hshows⟩ := connectTxs_inv hok.shows hrun
  obtain ⟨hb, hfees⟩ := blockPrefix_withinBudget hblock hok.nonneg
    ((hok.budget_lt hblock).trans (by decide)) hpre htxs
  refine ⟨hfees, getBlockValue_toInt hheight hb.fees_nonneg (hok.fees_lt hblock hb), ?_⟩
  intro tx htx hcb hav
  have hchecked : CheckedTx tx := by
    apply hblock.checked
    rw [hvtx]
    exact mem_append_right _ (mem_of_mem_head? htx)
  rw [hshows.seen_eq] at hav ⊢
  constructor
  · intro vin hvin
    obtain ⟨st2, hloop, -⟩ :=
      valueInLoop_spec hshows (fun txin hmem => hav txin (hvin.subset hmem)) 0
    exact ⟨_, st2, hloop, valueIn_toInt hb.nonneg hb.total_lt hchecked.inputs_nodup hav hvin⟩
  · obtain ⟨st2, hloop, -⟩ := valueInLoop_spec hshows hav 0
    obtain ⟨v, hv, -, -⟩ := hchecked.getValueOut
    refine ⟨m'.valueIn 0 tx.vin, st2, v, ?_, hv, ?_⟩
    · rw [getValueIn, if_neg (by simp [hcb]), hloop]
    · rw [hb.add_fee hchecked hav hv, fee, if_neg (by simp [hcb])]

end Chain

/-! ## A chain with a spend and a fee -/

def emptyView : CCoinsViewCache where
  hashBlock := 7

def chainIndex (height : Nat) : CBlockIndex :=
  plainIndex (BitVec.ofNat 256 (7 + height)) (Int32.ofInt height)

/-- All blocks of the chain are known. -/
def chainEnv (height : Nat) : ConnectEnv :=
  { plainEnv (BitVec.ofNat 256 (7 + height)) 0 with
    mapBlockIndex := fun hash => some (chainIndex (hash.toNat - 7)) }

/-- A block with nothing but a coinbase, whose id is the height. -/
def coinbaseBlock (height : Nat) : CBlock :=
  { plainBlock (BitVec.ofNat 256 height)
      [plainTx (BitVec.ofNat 256 height) [COutPoint.null] [2500]] with
    hashPrevBlock := BitVec.ofNat 256 (6 + height) }

/-- The view after so many of these blocks. -/
def connectUpTo : Nat → Except Failure (List CCoinsViewCache)
  | 0 => .ok [emptyView]
  | height + 1 => do
    let st ← connectUpTo height
    let r ← connectBlock coinsViewDB {} (chainEnv (height + 1)) (coinbaseBlock (height + 1))
      (chainIndex (height + 1)) [chainIndex height] false st
    .ok r.2

/-- At height 101 the first coinbase is mature. It is spent with a fee of 10, which the coinbase
of the block takes. -/
def spendBlock : CBlock :=
  { plainBlock 701 [plainTx 101 [COutPoint.null] [2510], plainTx 300 [⟨1, 0⟩] [2490]] with
    hashPrevBlock := 107 }

/-- The views before and after `spendBlock`, and the totals of its transactions. -/
def spendRun : Except Failure (List CCoinsViewCache × BlockTotals × List CCoinsViewCache) := do
  let st ← connectUpTo 100
  let r ← connectTxs coinsViewDB {} (chainEnv 101) (chainIndex 101) 0 true 0 {} spendBlock.vtx st
  let r' ← connectBlock coinsViewDB {} (chainEnv 101) spendBlock (chainIndex 101)
    [chainIndex 100] false st
  .ok (st, r.1, r'.2)

theorem chainEnv_notGenesis {height : Nat} (h : height < 2 ^ 30) (block : CBlockHeader) :
    (chainEnv height).getHash block ≠ (chainEnv height).params.hashGenesisBlock := by
  have hbig : 2 ^ 40 < mainParams.hashGenesisBlock.toNat := by decide
  intro heq
  have hsmall : mainParams.hashGenesisBlock.toNat = (7 + height) % 2 ^ 256 :=
    (congrArg BitVec.toNat heq).symm
  omega

theorem connectUpTo_chain {height : Nat} {st : List CCoinsViewCache} (hlt : height < 2 ^ 30)
    (h : connectUpTo height = .ok st) : ConnectedChain coinsViewDB height {} st := by
  induction height generalizing st with
  | zero =>
    obtain rfl := Except.ok.inj h
    exact .genesis ⟨rfl, fun t e he => by simp [emptyView] at he, trivial⟩ (by simp) fun _ => rfl
  | succ height ih =>
    obtain ⟨st0, hst0, h⟩ := bind_eq_ok.mp h
    obtain ⟨r, hr, h⟩ := bind_eq_ok.mp h
    obtain rfl := Except.ok.inj h
    exact .connect _ _ _ _ r.1 (ih (by omega) hst0)
      (Int32.toInt_ofInt_of_le (by omega) (by omega)) (chainEnv_notGenesis hlt _) hr

theorem supply_bounded_spendRun : ∃ st tot st', spendRun = .ok (st, tot, st') ∧ tot.nFees = 10 ∧
      tot.nFees.toInt =
        FlatMap.feesOf (chainIndex 101).nHeight (seen coinsViewDB {} st) spendBlock.vtx ∧
      FlatMap.total (seen coinsViewDB {} st') ≤ supply 101 := by
  have hfees : spendRun.toOption.map (·.2.1.nFees) = some 10 := by decide +kernel
  cases h : spendRun with
  | error e =>
    rw [h] at hfees
    cases hfees
  | ok r =>
    rw [h] at hfees
    obtain ⟨st, hst, h⟩ := bind_eq_ok.mp h
    obtain ⟨⟨tot, st1⟩, htxs, h⟩ := bind_eq_ok.mp h
    obtain ⟨⟨undo, st'⟩, hblock, h⟩ := bind_eq_ok.mp h
    obtain rfl := Except.ok.inj h
    have hchain := connectUpTo_chain (by decide) hst
    refine ⟨st, tot, st', rfl, Option.some.inj hfees, ?_, ?_⟩
    · exact ((supply_bounded hchain).2 (chainEnv 101) spendBlock false false (chainIndex 101) 0 true
        tot spendBlock.vtx [] st1 (by decide) (by decide) (append_nil _).symm htxs).1
    · exact (supply_bounded (.connect (chainEnv 101) _ _ _ undo hchain (by decide)
        (chainEnv_notGenesis (by decide) _) hblock)).1

end MonetaryUnit
