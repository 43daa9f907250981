/-
# MonetaryUnit.Wallet.CoinSelection — which outputs to spend

`SelectCoinsMinConf` and `ApproximateBestSubset` of `wallet.cpp`.

The outputs are shuffled and those that may be spent are grouped: one of exactly the target is taken
alone, those below the target plus `CENT` are collected, and of the others the smallest is
remembered. If the collected ones are enough, two rounds of random trials look for a subset that
comes close to the target from above. A trial adds coins and takes the last one out again whenever
the target is reached; the flags of the best subset and its total stay together (`BestOf`) for all
random bits.

The shuffle, the order in which `std::sort` leaves equal values, and the random bits are parameters.
Amounts are `Int64`; as long as the values and their total are in range, nothing wraps.
-/

import MonetaryUnit.Lib.ExactSum
import MonetaryUnit.Lib.Flagged
import MonetaryUnit.Primitives.Transaction

namespace MonetaryUnit

open Lib List Bool

def CENT : CAmount := 1000

/-! ## Wallet outputs -/

/-- What the selection reads of a transaction. -/
structure CWalletTx where
  vout : List CTxOut
  /-- `IsFromMe(ISMINE_ALL)`. -/
  isFromMe : Bool

/-- An output of a wallet transaction that could be spent. -/
structure COutput (τ : Type) where
  tx : τ
  i : Nat
  nDepth : Int
  fSpendable : Bool

/-- `pair<CAmount, pair<const CWalletTx*, unsigned int> >`. -/
abbrev WalletCoin (τ : Type) := CAmount × (τ × Nat)

/-- What `random_shuffle` does: some permutation of every vector. -/
structure Shuffle (α : Type) where
  run : List α → List α
  perm : ∀ l, (run l).Perm l

/-- What `sort` does, from the back and by value: some permutation with the largest value
first. -/
structure CoinSort (τ : Type) where
  run : List (WalletCoin τ) → List (WalletCoin τ)
  perm : ∀ l, (run l).Perm l
  descending : ∀ l, (run l).Pairwise fun a b => b.1 ≤ a.1

/-- What the caller gets back. -/
structure Selection (τ : Type) where
  setCoinsRet : Finset (τ × Nat) := ∅
  nValueRet : CAmount := 0

section Source

variable {τ : Type} [DecidableEq τ]

def COutput.out (o : COutput τ) : τ × Nat := (o.tx, o.i)

def Selection.add (s : Selection τ) (coin : WalletCoin τ) : Selection τ where
  setCoinsRet := insert coin.2 s.setCoinsRet
  nValueRet := s.nValueRet + coin.1

/-! ## Random trials -/

/-- `vfBest` and `nBest`. -/
structure BestSubset where
  vfBest : List Bool
  nBest : CAmount

/-- The variables of one trial; `drawn` counts the random bits that have been used. -/
structure Trial where
  vfIncluded : List Bool
  nTotal : CAmount
  fReachedTarget : Bool
  best : BestSubset
  drawn : Nat

variable (rand : Nat → Bool) (vValue : List (WalletCoin τ)) (nTargetValue : CAmount)

/-- A coin is taken, and put back if the target is reached with it. -/
def Trial.takeCoin (t : Trial) (i : Nat) (value : CAmount) : Trial :=
  let nTotal := t.nTotal + value
  let vfIncluded := t.vfIncluded.set i true
  if nTargetValue ≤ nTotal then
    { t with
      fReachedTarget := true
      best := if nTotal < t.best.nBest then ⟨vfIncluded, nTotal⟩ else t.best
      nTotal := nTotal - value
      vfIncluded := vfIncluded.set i false }
  else { t with nTotal := nTotal, vfIncluded := vfIncluded }

/-- A coin is visited: in the first pass a random bit decides, in the second the coins that are
not included are taken. -/
def Trial.visit (nPass : Nat) (t : Trial) (c : WalletCoin τ × Nat) : Trial :=
  if nPass = 0 then
    let t' := { t with drawn := t.drawn + 1 }
    if rand t.drawn then t'.takeCoin nTargetValue c.2 c.1.1 else t'
  else if t.vfIncluded[c.2]? = some false then t.takeCoin nTargetValue c.2 c.1.1 else t

/-- One pass over all coins. -/
def Trial.pass (nPass : Nat) (t : Trial) : Trial :=
  vValue.zipIdx.foldl (Trial.visit rand nTargetValue nPass) t

/-- A random pass, then one over what it left out if it missed the target. -/
def runTrial (best : BestSubset) (drawn : Nat) : Trial :=
  let t := Trial.pass rand vValue nTargetValue 0
    ⟨List.replicate vValue.length false, 0, false, best, drawn⟩
  if t.fReachedTarget then t else t.pass rand vValue nTargetValue 1

/-- The loop over the trials, with the number of them that are left. -/
def trialLoop : Nat → BestSubset → Nat → BestSubset
  | 0, best, _ => best
  | n + 1, best, drawn =>
    if best.nBest = nTargetValue then best
    else
      let t := runTrial rand vValue nTargetValue best drawn
      trialLoop n t.best t.drawn

/-- The best sum over all trials, starting from the sum of all coins. -/
def approximateBestSubset (nTotalLower : CAmount) (iterations : Nat) : BestSubset :=
  trialLoop rand vValue nTargetValue iterations ⟨List.replicate vValue.length true, nTotalLower⟩ 0

/-- The two calls of `ApproximateBestSubset`. Each seeds the generator anew. -/
def bestSubset (bits : Nat → Nat → Bool) (vValue : List (WalletCoin τ))
    (nTotalLower nTargetValue : CAmount) : BestSubset :=
  let best := approximateBestSubset (bits 0) vValue nTargetValue nTotalLower 1000
  if best.nBest ≠ nTargetValue ∧ nTargetValue + CENT ≤ nTotalLower then
    approximateBestSubset (bits 1) vValue (nTargetValue + CENT) nTotalLower 1000
  else best

/-! ## The selection -/

variable (wallet : τ → CWalletTx)

/-- `vout[i].nValue`. -/
def outValue (p : τ × Nat) : CAmount := ((wallet p.1).vout[p.2]?.map CTxOut.nValue).getD 0

/-- Spendable and confirmed often enough. -/
def COutput.eligible (nConfMine nConfTheirs : Int) (o : COutput τ) : Bool := o.fSpendable &&
    !decide (o.nDepth < if (wallet o.tx).isFromMe then nConfMine else nConfTheirs)

/-- The variables of the first loop. -/
structure CoinGroups (τ : Type) where
  vValue : List (WalletCoin τ) := []
  nTotalLower : CAmount := 0
  coinLowestLarger : CAmount × Option (τ × Nat) := (Int64.maxValue, none)

/-- The first loop. It returns at a coin of exactly the target. -/
def groupCoins (nConfMine nConfTheirs : Int) :
    List (COutput τ) → CoinGroups τ → WalletCoin τ ⊕ CoinGroups τ
  | [], g => .inr g
  | output :: rest, g =>
    if output.eligible wallet nConfMine nConfTheirs = false then
      groupCoins nConfMine nConfTheirs rest g
    else
      let n := outValue wallet output.out
      if n = nTargetValue then .inl (n, output.out)
      else if n < nTargetValue + CENT then
        groupCoins nConfMine nConfTheirs rest
          { g with vValue := g.vValue ++ [(n, output.out)], nTotalLower := g.nTotalLower + n }
      else if n < g.coinLowestLarger.1 then
        groupCoins nConfMine nConfTheirs rest { g with coinLowestLarger := (n, some output.out) }
      else groupCoins nConfMine nConfTheirs rest g

/-- What is spent when the collected coins are more than the target: the best subset, or the
remembered larger coin if that is closer. -/
def spendClosest (nTargetValue : CAmount) (vValue : List (WalletCoin τ)) (best : BestSubset) :
    CAmount × Option (τ × Nat) → Selection τ
  | (_, none) => (flagged best.vfBest vValue).foldl Selection.add {}
  | (value, some larger) =>
    if best.nBest ≠ nTargetValue ∧ best.nBest < nTargetValue + CENT ∨ value ≤ best.nBest then
      ({} : Selection τ).add (value, larger)
    else (flagged best.vfBest vValue).foldl Selection.add {}

/-- The rest of the function, after the first loop. -/
def selectFromGroups (nTargetValue : CAmount) (sort : CoinSort τ) (bits : Nat → Nat → Bool)
    (g : CoinGroups τ) : Bool × Selection τ :=
  if g.nTotalLower = nTargetValue then (true, g.vValue.foldl Selection.add {})
  else if g.nTotalLower < nTargetValue then
    match g.coinLowestLarger.2 with
    | none => (false, {})
    | some larger => (true, ({} : Selection τ).add (g.coinLowestLarger.1, larger))
  else
    let vValue := sort.run g.vValue
    (true, spendClosest nTargetValue vValue
      (bestSubset bits vValue g.nTotalLower nTargetValue) g.coinLowestLarger)

/-- Group the shuffled coins; one of the exact value is enough alone. -/
def selectCoinsMinConf (nConfMine nConfTheirs : Int) (vCoins : List (COutput τ))
    (shuffle : Shuffle (COutput τ)) (sort : CoinSort τ) (bits : Nat → Nat → Bool) :
    Bool × Selection τ :=
  match groupCoins nTargetValue wallet nConfMine nConfTheirs (shuffle.run vCoins) {} with
  | .inl coin => (true, ({} : Selection τ).add coin)
  | .inr g => selectFromGroups nTargetValue sort bits g

end Source

/-! ## Sums of coins -/

section Sums

variable {τ : Type} {cs cs' : List (WalletCoin τ)}

def coinSum (cs : List (WalletCoin τ)) : Int := (cs.map fun c => c.1.toInt).sum

theorem coinSum_perm (h : cs.Perm cs') : coinSum cs = coinSum cs' := (h.map _).sum_eq

theorem coinSum_cons (c : WalletCoin τ) (cs : List (WalletCoin τ)) :
    coinSum (c :: cs) = c.1.toInt + coinSum cs := by
  rw [coinSum, map_cons, sum_cons, coinSum]

theorem coinSum_singleton (c : WalletCoin τ) : coinSum [c] = c.1.toInt := by
  rw [coinSum, map_singleton, sum_singleton]

theorem coinSum_append (cs cs' : List (WalletCoin τ)) :
    coinSum (cs ++ cs') = coinSum cs + coinSum cs' := by
  rw [coinSum, map_append, sum_append, coinSum, coinSum]

theorem coinSum_nonneg (h : ∀ c ∈ cs, 0 ≤ c.1.toInt) : 0 ≤ coinSum cs := by
  refine sum_nonneg fun n hn => ?_
  obtain ⟨c, hc, rfl⟩ := mem_map.mp hn
  exact h c hc

theorem coinSum_le_of_subperm (h : ∀ c ∈ cs', 0 ≤ c.1.toInt) (hsub : cs.Subperm cs') :
    coinSum cs ≤ coinSum cs' := by
  obtain ⟨l, hperm, hl⟩ := hsub
  rw [← coinSum_perm hperm]
  refine List.Sublist.sum_le_sum (hl.map _) fun n hn => ?_
  obtain ⟨c, hc, rfl⟩ := mem_map.mp hn
  exact h c hc

end Sums

/-! ## The trials -/

section Trials

variable {τ : Type} {vs : List (WalletCoin τ)} {target : CAmount} {t : Trial}
variable {rand : Nat → Bool} {suf : List (WalletCoin τ)} {c : WalletCoin τ} {i k : Nat}
variable {best : BestSubset}

/-- The flags and the total of the best subset belong together, and reach the target. -/
structure BestOf (vs : List (WalletCoin τ)) (nTargetValue : CAmount) (best : BestSubset) :
    Prop where
  value : best.nBest.toInt = coinSum (flagged best.vfBest vs)
  enough : nTargetValue.toInt ≤ best.nBest.toInt

/-- The same for the coins that are included, which stay below the target. -/
structure TrialInv (vs : List (WalletCoin τ)) (nTargetValue : CAmount) (t : Trial) : Prop where
  length : t.vfIncluded.length = vs.length
  total : t.nTotal.toInt = coinSum (flagged t.vfIncluded vs)
  below : t.nTotal.toInt < nTargetValue.toInt
  best : BestOf vs nTargetValue t.best

/-- Taking a coin that is not included. -/
theorem TrialInv.takeCoin (h : TrialInv vs target t) (hv : ∀ c ∈ vs, 0 ≤ c.1.toInt)
    (hsum : coinSum vs < 2 ^ 63) (hc : vs[i]? = some c) (hclear : t.vfIncluded[i]? = some false) :
    TrialInv vs target (t.takeCoin target i c.1) := by
  have hperm := flagged_set hclear hc
  have hnew : coinSum (flagged (t.vfIncluded.set i true) vs) = t.nTotal.toInt + c.1.toInt := by
    rw [coinSum_perm hperm, coinSum_cons, h.total]
    omega
  -- What is included is part of all the coins, so the new total does not wrap.
  have hle := coinSum_le_of_subperm hv (flagged_sublist (t.vfIncluded.set i true) vs).subperm
  have hnonneg : 0 ≤ t.nTotal.toInt := by
    rw [h.total]
    exact coinSum_nonneg fun x hx => hv x ((flagged_sublist _ _).subset hx)
  have hpos := hv c (mem_of_getElem? hc)
  have hadd : (t.nTotal + c.1).toInt = t.nTotal.toInt + c.1.toInt := by
    apply toInt_add_of_bounds <;> omega
  rw [Trial.takeCoin]
  by_cases hreached : target ≤ t.nTotal + c.1
  · have hbest : BestOf vs target (if t.nTotal + c.1 < t.best.nBest then
        ⟨t.vfIncluded.set i true, t.nTotal + c.1⟩ else t.best) := by
      split_ifs
      · exact ⟨by rw [hadd, hnew], Int64.le_iff_toInt_le.mp hreached⟩
      · exact h.best
    rw [if_pos hreached, set_set_of_clear hclear, Int64.add_sub_cancel]
    exact { h with best := hbest }
  · rw [if_neg hreached]
    refine ⟨length_set.trans h.length, by rw [hadd, hnew], ?_, h.best⟩
    rw [Int64.le_iff_toInt_le] at hreached
    exact not_le.mp hreached

theorem takeCoin_flags {j : Nat} {value : CAmount} (hclear : t.vfIncluded[i]? = some false)
    (hj : j ≠ i) : (t.takeCoin target i value).vfIncluded[j]? = t.vfIncluded[j]? := by
  rw [Trial.takeCoin]
  by_cases hreached : target ≤ t.nTotal + value
  · rw [if_pos hreached, set_set_of_clear hclear]
  · rw [if_neg hreached]
    exact getElem?_set_ne fun h => hj h.symm

theorem drop_succ_of_drop (h : vs.drop k = c :: suf) : vs[k]? = some c ∧ vs.drop (k + 1) = suf := by
  refine ⟨?_, by rw [← drop_drop, h]; rfl⟩
  rw [← Nat.add_zero k, ← getElem?_drop, h]
  rfl

section

variable (h : TrialInv vs target t) (hv : ∀ c ∈ vs, 0 ≤ c.1.toInt)
  (hsum : coinSum vs < 2 ^ 63)
include h hv hsum

/-- The first pass, from position `k` on, where no coin is included yet. -/
theorem TrialInv.firstPass (hsuf : vs.drop k = suf)
    (hclear : ∀ j, k ≤ j → j < vs.length → t.vfIncluded[j]? = some false) :
    TrialInv vs target ((suf.zipIdx k).foldl (.visit rand target 0) t) := by
  induction suf generalizing k t with
  | nil => exact h
  | cons c suf ih =>
    rw [zipIdx_cons, foldl_cons]
    obtain ⟨hc, hrest⟩ := drop_succ_of_drop hsuf
    have hk : t.vfIncluded[k]? = some false := hclear k le_rfl (List.getElem?_eq_some_iff.mp hc).1
    have hdrawn : TrialInv vs target { t with drawn := t.drawn + 1 } := { h with }
    rw [Trial.visit, if_pos rfl]
    split_ifs with hbit
    · refine ih (hdrawn.takeCoin hv hsum hc hk) hrest fun j hj hlen => ?_
      rw [@takeCoin_flags target { t with drawn := t.drawn + 1 } k j c.1 hk (by omega)]
      exact hclear j (by omega) hlen
    · exact ih hdrawn hrest fun j hj hlen => hclear j (by omega) hlen

/-- The second pass. -/
theorem TrialInv.secondPass (hsuf : vs.drop k = suf) :
    TrialInv vs target ((suf.zipIdx k).foldl (.visit rand target 1) t) := by
  induction suf generalizing k t with
  | nil => exact h
  | cons c suf ih =>
    rw [zipIdx_cons, foldl_cons, Trial.visit, if_neg Nat.one_ne_zero]
    obtain ⟨hc, hrest⟩ := drop_succ_of_drop hsuf
    split_ifs with hclear
    · exact ih (h.takeCoin hv hsum hc hclear) hrest
    · exact ih h hrest

end

section

variable (hv : ∀ c ∈ vs, 0 ≤ c.1.toInt) (hsum : coinSum vs < 2 ^ 63)
  (htarget : 0 < target.toInt)
include hv hsum htarget

theorem runTrial_best (hbest : BestOf vs target best) (drawn : Nat) :
    BestOf vs target (runTrial rand vs target best drawn).best := by
  have hstart : TrialInv vs target ⟨replicate vs.length false, 0, false, best, drawn⟩ := by
    refine ⟨length_replicate, ?_, htarget, hbest⟩
    rw [flagged_none]
    rfl
  have hfirst : TrialInv vs target (.pass rand vs target 0
      ⟨replicate vs.length false, 0, false, best, drawn⟩) := by
    refine hstart.firstPass hv hsum rfl fun j _ hj => ?_
    rw [getElem?_replicate, if_pos hj]
  rw [runTrial]
  split_ifs
  · exact hfirst.best
  · exact (hfirst.secondPass (k := 0) hv hsum rfl).best

theorem trialLoop_best {n drawn : Nat} (hbest : BestOf vs target best) :
    BestOf vs target (trialLoop rand vs target n best drawn) := by
  induction n generalizing best drawn with
  | zero => exact hbest
  | succ n ih =>
    rw [trialLoop]
    split_ifs
    · exact hbest
    · exact ih (runTrial_best hv hsum htarget hbest drawn)

/-- `ApproximateBestSubset` returns a subset with its total, for all random bits. -/
theorem approximateBestSubset_spec {nTotalLower : CAmount} {n : Nat}
    (htotal : nTotalLower.toInt = coinSum vs) (henough : target.toInt ≤ nTotalLower.toInt) :
    BestOf vs target (approximateBestSubset rand vs target nTotalLower n) := by
  refine trialLoop_best hv hsum htarget ⟨?_, henough⟩
  rw [flagged_all]
  exact htotal

end

end Trials

/-! ## The groups -/

section Groups

variable {τ : Type} {wallet : τ → CWalletTx} {target : CAmount} {nConfMine nConfTheirs : Int}
variable {es es' rest : List (COutput τ)} {o : COutput τ} {g : CoinGroups τ}

/-- The pair that the source makes of an output. -/
def COutput.coin (wallet : τ → CWalletTx) (o : COutput τ) : WalletCoin τ :=
  (outValue wallet o.out, o.out)

/-- Distinct outputs whose values are in range and add up without wrapping. -/
structure CoinSupply (wallet : τ → CWalletTx) (es : List (COutput τ)) : Prop where
  range : ∀ o ∈ es, 0 ≤ (outValue wallet o.out).toInt ∧
    (outValue wallet o.out).toInt ≤ maxMoney.toInt
  distinct : (es.map COutput.out).Nodup
  total : coinSum (es.map (COutput.coin wallet)) < 2 ^ 63

namespace CoinSupply

section

variable (h : CoinSupply wallet es)
include h

theorem nonneg : ∀ c ∈ es.map (COutput.coin wallet), 0 ≤ c.1.toInt := by
  intro c hc
  obtain ⟨o, ho, rfl⟩ := mem_map.mp hc
  exact (h.range o ho).1

theorem perm (hperm : es'.Perm es) : CoinSupply wallet es' where
  range := fun o ho => h.range o (hperm.subset ho)
  distinct := (hperm.map _).nodup_iff.mpr h.distinct
  total := by
    rw [coinSum_perm (hperm.map _)]
    exact h.total

theorem sublist (hsub : es'.Sublist es) : CoinSupply wallet es' where
  range := fun o ho => h.range o (hsub.subset ho)
  distinct := (hsub.map _).nodup h.distinct
  total := (coinSum_le_of_subperm h.nonneg (hsub.map _).subperm).trans_lt h.total

theorem value_le (ho : o ∈ es) :
    (outValue wallet o.out).toInt ≤ coinSum (es.map (COutput.coin wallet)) := by
  have hmem : o.coin wallet ∈ es.map (COutput.coin wallet) := mem_map_of_mem ho
  have hle := coinSum_le_of_subperm h.nonneg (singleton_subperm_iff.mpr hmem)
  rwa [coinSum_singleton] at hle

end

end CoinSupply

theorem toInt_add_CENT (h : target.toInt ≤ maxMoney.toInt) (hpos : 0 < target.toInt) :
    (target + CENT).toInt = target.toInt + 1000 := by
  have hcent : CENT.toInt = 1000 := by decide
  rw [maxMoney_toInt] at h
  rw [toInt_add_of_bounds] <;> omega

/-- The groups when the eligible outputs seen so far are `es`. -/
structure Grouped (wallet : τ → CWalletTx) (nTargetValue : CAmount) (es : List (COutput τ))
    (g : CoinGroups τ) : Prop where
  noExact : ∀ o ∈ es, outValue wallet o.out ≠ nTargetValue
  lower : g.vValue = (es.filter fun o =>
    decide (outValue wallet o.out < nTargetValue + CENT)).map (COutput.coin wallet)
  total : g.nTotalLower.toInt = coinSum g.vValue
  larger : g.coinLowestLarger = (Int64.maxValue, none) ∧
      (∀ o ∈ es, outValue wallet o.out < nTargetValue + CENT) ∨
    ∃ o ∈ es, g.coinLowestLarger = (outValue wallet o.out, some o.out) ∧
      nTargetValue + CENT ≤ outValue wallet o.out

/-- What the first loop returns when the eligible outputs are `es`. -/
inductive GroupsOf (wallet : τ → CWalletTx) (nTargetValue : CAmount) (es : List (COutput τ)) :
    WalletCoin τ ⊕ CoinGroups τ → Prop
  | coin {o : COutput τ} : o ∈ es → outValue wallet o.out = nTargetValue →
    GroupsOf wallet nTargetValue es (.inl (o.coin wallet))
  | groups {g : CoinGroups τ} : Grouped wallet nTargetValue es g →
    GroupsOf wallet nTargetValue es (.inr g)

theorem grouped_nil : Grouped wallet target [] ({} : CoinGroups τ) :=
  ⟨fun _ ho => absurd ho not_mem_nil, rfl, rfl,
    .inl ⟨rfl, fun _ ho => absurd ho not_mem_nil⟩⟩

section

variable (h : Grouped wallet target es g)
include h

theorem Grouped.subperm : g.vValue.Subperm (es.map (COutput.coin wallet)) := by
  rw [h.lower]
  exact (filter_sublist.map _).subperm

theorem Grouped.addLower (hne : outValue wallet o.out ≠ target)
    (hlower : outValue wallet o.out < target + CENT)
    (hadd : (g.nTotalLower + outValue wallet o.out).toInt =
      g.nTotalLower.toInt + (outValue wallet o.out).toInt) :
    Grouped wallet target (es ++ [o]) { g with
        vValue := g.vValue ++ [(outValue wallet o.out, o.out)]
        nTotalLower := g.nTotalLower + outValue wallet o.out } where
  noExact := forall_mem_append.mpr ⟨h.noExact, by simpa using hne⟩
  lower := by
    rw [filter_append, filter_cons_of_pos (by simpa using hlower), map_append, h.lower]
    rfl
  total := by
    rw [hadd, h.total, coinSum_append, coinSum_singleton]
  larger := by
    rcases h.larger with ⟨hnone, hall⟩ | ⟨x, hx, hlarge⟩
    · exact .inl ⟨hnone, forall_mem_append.mpr ⟨hall, by simpa using hlower⟩⟩
    · exact .inr ⟨x, mem_append_left _ hx, hlarge⟩

/-- An output at or above the target plus `CENT` is remembered if it is the smallest so far;
the first one always is. -/
theorem Grouped.addLarger (hne : outValue wallet o.out ≠ target)
    (hlarger : ¬ outValue wallet o.out < target + CENT) {larger : CAmount × Option (τ × Nat)}
    (hnew : larger = (outValue wallet o.out, some o.out) ∨
      larger = g.coinLowestLarger ∧ g.coinLowestLarger.2 ≠ none) :
    Grouped wallet target (es ++ [o]) { g with coinLowestLarger := larger } where
  noExact := forall_mem_append.mpr ⟨h.noExact, by simpa using hne⟩
  lower := by
    rw [filter_append, filter_cons_of_neg (by simpa using hlarger), filter_nil, append_nil]
    exact h.lower
  total := h.total
  larger := by
    refine .inr ?_
    rcases hnew with hnew | ⟨hnew, hsome⟩
    · exact ⟨o, mem_append_right _ (mem_singleton_self o), hnew, Int64.not_lt.mp hlarger⟩
    · rcases h.larger with ⟨hnone, -⟩ | ⟨x, hx, hlarge⟩
      · rw [hnone] at hsome
        exact absurd rfl hsome
      · exact ⟨x, mem_append_left _ hx, hnew.trans hlarge.1, hlarge.2⟩

/-- The first loop stops at an eligible coin of exactly the target, or
there is none and the eligible outputs are grouped. -/
theorem groupCoins_spec (hall : CoinSupply wallet (es ++ rest)) : GroupsOf wallet target
    (es ++ rest.filter (COutput.eligible wallet nConfMine nConfTheirs))
    (groupCoins target wallet nConfMine nConfTheirs rest g) := by
  induction rest generalizing es g with
  | nil =>
    rw [filter_nil, append_nil]
    exact .groups h
  | cons o rest ih =>
    have ho := hall.range o (mem_append_right _ mem_cons_self)
    rw [groupCoins]
    by_cases helig : o.eligible wallet nConfMine nConfTheirs = false
    · rw [if_pos helig, filter_cons_of_neg (by rw [helig]; exact false_ne_true)]
      exact ih h (hall.sublist ((sublist_cons_self o rest).append_left es))
    rw [if_neg helig, filter_cons_of_pos (not_eq_false _ ▸ helig)]
    by_cases hexact : outValue wallet o.out = target
    · rw [if_pos hexact]
      exact .coin (mem_append_right _ mem_cons_self) hexact
    rw [if_neg hexact]
    -- The rest of the loop starts from the outputs seen, and this one.
    have hnext : ∀ g1, Grouped wallet target (es ++ [o]) g1 → GroupsOf wallet target
        (es ++ o :: rest.filter (COutput.eligible wallet nConfMine nConfTheirs))
        (groupCoins target wallet nConfMine nConfTheirs rest g1) := by
      intro g1 hg1
      have hrest := ih hg1 (by rwa [append_assoc])
      rwa [append_assoc] at hrest
    by_cases hlower : outValue wallet o.out < target + CENT
    · rw [if_pos hlower]
      refine hnext _ (h.addLower hexact hlower ?_)
      have hnonneg := hall.nonneg
      have hsum := hall.total
      rw [map_append, forall_mem_append] at hnonneg
      rw [map_append, map_cons, coinSum_append, coinSum_cons] at hsum
      have hrest : 0 ≤ coinSum (rest.map (COutput.coin wallet)) :=
        coinSum_nonneg fun c hc => hnonneg.2 c (mem_cons_of_mem _ hc)
      have hle := coinSum_le_of_subperm hnonneg.1 h.subperm
      have hpos : 0 ≤ coinSum g.vValue :=
        coinSum_nonneg fun c hc => hnonneg.1 c (h.subperm.subset hc)
      have htotal := h.total
      have hval : (COutput.coin wallet o).1.toInt = (outValue wallet o.out).toInt := rfl
      apply toInt_add_of_bounds <;> omega
    rw [if_neg hlower]
    by_cases hsmallest : outValue wallet o.out < g.coinLowestLarger.1
    · rw [if_pos hsmallest]
      exact hnext _ (h.addLarger hexact hlower (.inl rfl))
    rw [if_neg hsmallest]
    refine hnext g (h.addLarger hexact hlower (.inr ⟨rfl, fun hnone => ?_⟩))
    -- A value in range is below the number that stands for no coin.
    rcases h.larger with ⟨hstart, -⟩ | ⟨x, -, hx, -⟩
    · rw [hstart] at hsmallest
      have hmax : maxMoney < Int64.maxValue := by decide
      exact hsmallest (Int64.lt_of_le_of_lt (Int64.le_iff_toInt_le.mpr ho.2) hmax)
    · rw [hx] at hnone
      exact Option.some_ne_none _ hnone

end

end Groups

/-! ## The result -/

section Result

variable {τ : Type} [DecidableEq τ] {wallet : τ → CWalletTx} {target : CAmount}
variable {es : List (COutput τ)} {cs : List (WalletCoin τ)}

theorem foldl_add_setCoinsRet (s : Selection τ) (cs : List (WalletCoin τ)) :
    (cs.foldl .add s).setCoinsRet = s.setCoinsRet ∪ (cs.map Prod.snd).toFinset := by
  induction cs generalizing s with
  | nil => simp
  | cons c cs ih =>
    rw [foldl_cons, ih, Selection.add, map_cons, toFinset_cons,
      Finset.insert_union, Finset.union_insert]

theorem foldl_add_nValueRet (s : Selection τ) (cs : List (WalletCoin τ)) :
    (cs.foldl .add s).nValueRet = (cs.map Prod.fst).foldl (· + ·) s.nValueRet := by
  induction cs generalizing s with
  | nil => rfl
  | cons c cs ih => exact ih (s.add c)

/-- What a successful call leaves: outputs of `es`, with the total of their values, which is
enough. -/
structure Pays (wallet : τ → CWalletTx) (nTargetValue : CAmount) (es : List (COutput τ))
    (r : Selection τ) : Prop where
  chosen : ∀ p ∈ r.setCoinsRet, ∃ o ∈ es, o.out = p
  value : r.nValueRet.toInt = ∑ p ∈ r.setCoinsRet, (outValue wallet p).toInt
  enough : nTargetValue.toInt ≤ r.nValueRet.toInt

omit [DecidableEq τ] in
theorem Pays.perm {es' : List (COutput τ)} {r : Selection τ} (h : Pays wallet target es r)
    (hperm : es.Perm es') : Pays wallet target es' r := by
  refine ⟨fun p hp => ?_, h.value, h.enough⟩
  obtain ⟨o, ho, hout⟩ := h.chosen p hp
  exact ⟨o, hperm.subset ho, hout⟩

/-- Distinct coins of `es` that are worth enough. -/
theorem pays_of_subperm (hes : CoinSupply wallet es)
    (hsub : cs.Subperm (es.map (COutput.coin wallet))) (henough : target.toInt ≤ coinSum cs) :
    Pays wallet target es (cs.foldl .add {}) := by
  have hcoin : ∀ c ∈ cs, ∃ o ∈ es, o.coin wallet = c := fun c hc =>
    mem_map.mp (hsub.subset hc)
  have htotal : coinSum cs < 2 ^ 63 := (coinSum_le_of_subperm hes.nonneg hsub).trans_lt hes.total
  have hvalue : (cs.foldl Selection.add {}).nValueRet.toInt = coinSum cs := by
    have hzero : (0 : Int) ≤ (({} : Selection τ).nValueRet).toInt := le_refl _
    rw [foldl_add_nValueRet, toInt_foldl_add hzero]
    · rw [map_map]
      exact zero_add _
    · intro v hv
      obtain ⟨c, hc, rfl⟩ := mem_map.mp hv
      exact hes.nonneg c (hsub.subset hc)
    · rw [map_map]
      exact (zero_add (coinSum cs)).trans_lt htotal
  have hset : (cs.foldl Selection.add {}).setCoinsRet = (cs.map Prod.snd).toFinset := by
    rw [foldl_add_setCoinsRet, Finset.empty_union]
  refine ⟨fun p hp => ?_, ?_, hvalue ▸ henough⟩
  · rw [hset, mem_toFinset, mem_map] at hp
    obtain ⟨c, hc, rfl⟩ := hp
    obtain ⟨o, ho, rfl⟩ := hcoin c hc
    exact ⟨o, ho, rfl⟩
  -- The pairs are distinct, so the set forgets nothing of the list.
  have hdistinct : (cs.map Prod.snd).Nodup := by
    obtain ⟨l, hperm, hl⟩ := hsub
    refine (hperm.map Prod.snd).nodup_iff.mp ((hl.map Prod.snd).nodup ?_)
    rw [map_map]
    exact hes.distinct
  rw [hvalue, hset, sum_toFinset _ hdistinct, map_map]
  refine congrArg sum (map_congr_left fun c hc => ?_)
  obtain ⟨o, -, rfl⟩ := hcoin c hc
  rfl

/-- A single coin. -/
theorem pays_of_mem (hes : CoinSupply wallet es) {o : COutput τ} (ho : o ∈ es)
    (henough : target.toInt ≤ (outValue wallet o.out).toInt) :
    Pays wallet target es (({} : Selection τ).add (o.coin wallet)) := by
  have hmem : o.coin wallet ∈ es.map (COutput.coin wallet) := mem_map_of_mem ho
  refine pays_of_subperm hes (singleton_subperm_iff.mpr hmem) ?_
  rw [coinSum_singleton]
  exact henough

omit [DecidableEq τ] in
/-- The subset that the trials find, on the collected coins. -/
theorem bestSubset_spec {bits : Nat → Nat → Bool} {vs : List (WalletCoin τ)} {nTotalLower : CAmount}
    (hv : ∀ c ∈ vs, 0 ≤ c.1.toInt) (hsum : coinSum vs < 2 ^ 63) (hpos : 0 < target.toInt)
    (hmax : target.toInt ≤ maxMoney.toInt) (htotal : nTotalLower.toInt = coinSum vs)
    (henough : target.toInt ≤ nTotalLower.toInt) :
    BestOf vs target (bestSubset bits vs nTotalLower target) := by
  have hcent := toInt_add_CENT hmax hpos
  rw [bestSubset]
  split_ifs with hagain
  · have hbest := @approximateBestSubset_spec τ vs (target + CENT) (bits 1) hv hsum
      (by omega) nTotalLower 1000 htotal (Int64.le_iff_toInt_le.mp hagain.2)
    exact ⟨hbest.value, by have := hbest.enough; omega⟩
  · exact approximateBestSubset_spec hv hsum hpos htotal henough

section

variable (hes : CoinSupply wallet es) (hpos : 0 < target.toInt)
  (hmax : target.toInt ≤ maxMoney.toInt) {g : CoinGroups τ}
include hes hpos hmax

/-- More than enough has been collected. -/
theorem spendClosest_pays {vs : List (WalletCoin τ)} {best : BestSubset}
    (hg : Grouped wallet target es g) (hvs : vs.Perm g.vValue) (hbest : BestOf vs target best) :
    Pays wallet target es (spendClosest target vs best g.coinLowestLarger) := by
  have hsubset : Pays wallet target es ((flagged best.vfBest vs).foldl .add {}) := by
    refine pays_of_subperm hes ?_ (hbest.value ▸ hbest.enough)
    exact ((flagged_sublist _ _).subperm.trans hvs.subperm).trans hg.subperm
  rcases hg.larger with ⟨hnone, -⟩ | ⟨o, ho, hsome, hlarge⟩
  · rw [hnone]
    exact hsubset
  · rw [hsome, spendClosest]
    split_ifs
    · refine pays_of_mem hes ho ?_
      have hcent := toInt_add_CENT hmax hpos
      have hge := Int64.le_iff_toInt_le.mp hlarge
      omega
    · exact hsubset

/-- From the groups on: success with enough coins, or failure because there are not enough. -/
theorem selectFromGroups_spec (hg : Grouped wallet target es g) (sort : CoinSort τ)
    (bits : Nat → Nat → Bool) :
    (∃ r, selectFromGroups target sort bits g = (true, r) ∧ Pays wallet target es r ∧
      target.toInt ≤ coinSum (es.map (COutput.coin wallet))) ∨
    selectFromGroups target sort bits g = (false, {}) ∧
      coinSum (es.map (COutput.coin wallet)) < target.toInt := by
  have hlower : coinSum g.vValue ≤ coinSum (es.map (COutput.coin wallet)) :=
    coinSum_le_of_subperm hes.nonneg hg.subperm
  have htotal := hg.total
  rw [selectFromGroups]
  by_cases hequal : g.nTotalLower = target
  · rw [if_pos hequal]
    refine .inl ⟨_, rfl, pays_of_subperm hes hg.subperm ?_, ?_⟩
    all_goals
      rw [← hequal]
      omega
  rw [if_neg hequal]
  by_cases hless : g.nTotalLower < target
  · rw [if_pos hless]
    rw [Int64.lt_iff_toInt_lt] at hless
    rcases hg.larger with ⟨hnone, hall⟩ | ⟨o, ho, hsome, hlarge⟩
    · -- Everything was collected, and it is not enough.
      rw [hnone]
      have hself : g.vValue = es.map (COutput.coin wallet) := by
        rw [hg.lower, filter_eq_self.mpr fun o ho => decide_eq_true (hall o ho)]
      rw [hself] at htotal
      exact .inr ⟨rfl, by omega⟩
    · rw [hsome]
      have hcent := toInt_add_CENT hmax hpos
      have hge := Int64.le_iff_toInt_le.mp hlarge
      have hle := hes.value_le ho
      exact .inl ⟨_, rfl, pays_of_mem hes ho (by omega), by omega⟩
  · rw [if_neg hless]
    have hge : target.toInt ≤ g.nTotalLower.toInt :=
      Int64.le_iff_toInt_le.mp (Int64.not_lt.mp hless)
    have hsort := sort.perm g.vValue
    have hsum := coinSum_perm hsort
    have hbest := @bestSubset_spec τ target bits (sort.run g.vValue) g.nTotalLower
      (fun c hc => hes.nonneg c (hg.subperm.subset (hsort.subset hc)))
      (by have := hes.total; omega) hpos hmax (by omega) hge
    exact .inl ⟨_, rfl, spendClosest_pays hes hpos hmax hg hsort hbest, by omega⟩

end

/-- **`selectCoinsMinConf_correct`** — `SelectCoinsMinConf` succeeds exactly if the eligible
outputs are worth the target. It then returns eligible outputs, with the total of their values,
which is at least the target; one that is worth exactly the target is returned alone. If it
fails it returns nothing. -/
theorem selectCoinsMinConf_correct (wallet : τ → CWalletTx) (nTargetValue : CAmount)
    (nConfMine nConfTheirs : Int) (vCoins : List (COutput τ)) (shuffle : Shuffle (COutput τ))
    (sort : CoinSort τ) (bits : Nat → Nat → Bool)
    (htarget : 1 ≤ nTargetValue.toInt ∧ nTargetValue.toInt ≤ maxMoney.toInt)
    (hnodup : (vCoins.map COutput.out).Nodup)
    (hvalue : ∀ o ∈ vCoins, 1 ≤ (outValue wallet o.out).toInt ∧
      (outValue wallet o.out).toInt ≤ maxMoney.toInt)
    (hsum : (vCoins.map fun o => (outValue wallet o.out).toInt).sum < 2 ^ 63) :
    let es := vCoins.filter (COutput.eligible wallet nConfMine nConfTheirs)
    let r := selectCoinsMinConf nTargetValue wallet nConfMine nConfTheirs vCoins shuffle sort bits
    (r.1 = true ↔ nTargetValue.toInt ≤ (es.map fun o => (outValue wallet o.out).toInt).sum) ∧
    (r.1 = true → Pays wallet nTargetValue es r.2) ∧
    ((∃ o ∈ es, outValue wallet o.out = nTargetValue) →
      ∃ o ∈ es, outValue wallet o.out = nTargetValue ∧ r = (true, ⟨{o.out}, nTargetValue⟩)) ∧
    (r.1 = false → r.2 = {}) := by
  intro es r
  have hsum' : coinSum (vCoins.map (COutput.coin wallet)) < 2 ^ 63 := by
    rw [coinSum, map_map]
    exact hsum
  have hall : CoinSupply wallet vCoins :=
    ⟨fun o ho => ⟨by have := (hvalue o ho).1; omega, (hvalue o ho).2⟩, hnodup, hsum'⟩
  -- The outputs in the order of the shuffle, and the eligible ones of them.
  have hshuffle := shuffle.perm vCoins
  have hrun := hall.perm hshuffle
  have hperm : ((shuffle.run vCoins).filter (COutput.eligible wallet nConfMine nConfTheirs)).Perm
      es := hshuffle.filter _
  have hfs := hrun.sublist (filter_sublist (p := COutput.eligible wallet nConfMine nConfTheirs))
  have hworth : (es.map fun o => (outValue wallet o.out).toInt).sum =
      coinSum (((shuffle.run vCoins).filter
        (COutput.eligible wallet nConfMine nConfTheirs)).map (COutput.coin wallet)) := by
    rw [coinSum_perm (hperm.map _), coinSum, map_map]
    rfl
  rw [hworth]
  have hr : r = selectCoinsMinConf nTargetValue wallet nConfMine nConfTheirs vCoins shuffle sort
      bits := rfl
  rw [selectCoinsMinConf] at hr
  have hgroups := @groupCoins_spec τ wallet nTargetValue nConfMine nConfTheirs [] _ {} grouped_nil
    hrun
  generalize groupCoins nTargetValue wallet nConfMine nConfTheirs (shuffle.run vCoins) {} = result
    at hgroups hr
  cases hgroups with
  | @coin o hofs hexact =>
    have hadd : ({} : Selection τ).add (o.coin wallet) = ⟨{o.out}, nTargetValue⟩ := by
      rw [Selection.add, COutput.coin, hexact, Int64.zero_add]
      rfl
    have hpays := pays_of_mem hfs hofs (le_refl _)
    rw [hexact, hadd] at hpays
    have hle := hfs.value_le hofs
    rw [hexact] at hle
    dsimp only at hr
    rw [hadd] at hr
    rw [hr]
    exact ⟨iff_of_true rfl hle, fun _ => hpays.perm hperm,
      fun _ => ⟨o, hperm.subset hofs, hexact, rfl⟩, fun h => absurd h Bool.noConfusion⟩
  | @groups g hg =>
    have hnoexact : ¬ ∃ o ∈ es, outValue wallet o.out = nTargetValue := by
      rintro ⟨o, ho, hexact⟩
      exact hg.noExact o (hperm.symm.subset ho) hexact
    dsimp only at hr
    rcases selectFromGroups_spec hfs (by omega) htarget.2 hg sort bits with
      ⟨s, hs, hpays, hle⟩ | ⟨hs, hlt⟩
    · rw [hr, hs]
      exact ⟨iff_of_true rfl hle, fun _ => hpays.perm hperm, fun h => absurd h hnoexact,
        fun h => absurd h Bool.noConfusion⟩
    · rw [hr, hs]
      exact ⟨iff_of_false Bool.false_ne_true (not_le.mpr hlt), fun h => absurd h Bool.noConfusion,
        fun h => absurd h hnoexact, fun _ => rfl⟩

/-! ## A selection by trials -/

/-- Equal values stay in their order. -/
def stableSort (τ : Type) : CoinSort τ where
  run := insertionSort fun a b => b.1 ≤ a.1
  perm := perm_insertionSort _
  descending :=
    have : Std.Total fun a b : WalletCoin τ => b.1 ≤ a.1 := ⟨fun a b => Int64.le_total b.1 a.1⟩
    have : IsTrans (WalletCoin τ) fun a b => b.1 ≤ a.1 :=
      ⟨fun _ _ _ hab hbc => Int64.le_trans hbc hab⟩
    pairwise_insertionSort _

def fourCoins : Unit → CWalletTx :=
  fun _ => ⟨[⟨50000, []⟩, ⟨3000, []⟩, ⟨2500, []⟩, ⟨4000, []⟩], true⟩

def fourOutputs : List (COutput Unit) :=
  [⟨(), 0, 3, false⟩, ⟨(), 1, 3, true⟩, ⟨(), 2, 3, true⟩, ⟨(), 3, 3, true⟩]

/-- What is selected for 5500 with random bits that alternate. -/
def fourSelection : Bool × Selection Unit :=
  selectCoinsMinConf 5500 fourCoins 1 6 fourOutputs ⟨id, fun _ => .refl _⟩ (stableSort Unit)
    fun repetition n => (n + repetition) % 2 == 0

/-- The large coin cannot be spent, and the others are worth 9500. The first trial finds two of
them worth 6500, the second one two worth 5500. -/
theorem fourOutputs_pay : fourSelection.1 = true ∧
    fourSelection.2.setCoinsRet = {((), 1), ((), 2)} ∧ fourSelection.2.nValueRet = 5500 ∧
    Pays fourCoins 5500 (fourOutputs.filter (COutput.eligible fourCoins 1 6)) fourSelection.2 := by
  have hcorrect := selectCoinsMinConf_correct fourCoins 5500 1 6 fourOutputs
    ⟨id, fun _ => .refl _⟩ (stableSort Unit) (fun repetition n => (n + repetition) % 2 == 0)
    (by decide) (by decide) (by decide) (by decide)
  have htrue : fourSelection.1 = true := hcorrect.1.mpr (by decide)
  exact ⟨htrue, by decide +kernel, by decide +kernel, hcorrect.2.1 htrue⟩

end Result

end MonetaryUnit
