/-
# MonetaryUnit.Coins.Database — the coin database as a base view

`CCoinsViewDB` of `txdb.cpp`, as a map of `CCoins` objects: `BatchWrite` visits the `DIRTY`
entries, erases the pruned ones and writes the others, and records the best block unless
it is zero. Reads end in `CCoins::Unserialize`, hence in `Cleanup`. The byte format of the
stored coins is not part of this module.
-/

import MonetaryUnit.Coins.Cache

namespace MonetaryUnit

open List AList

structure CoinsDB where
  coins : AList (fun _ : Uint256 => CCoins) := ∅
  hashBestChain : Uint256 := 0

namespace CoinsDB

def getCoins (db : CoinsDB) (txid : Uint256) : Option CCoins :=
  (db.coins.lookup txid).map CCoins.cleanup

/-- `BatchWriteCoins` on one entry of the map, skipped when the entry is not `DIRTY`. -/
def batchWriteCoins (coins : AList (fun _ : Uint256 => CCoins))
    (it : Sigma fun _ : Uint256 => CCoinsCacheEntry) : AList (fun _ : Uint256 => CCoins) :=
  if it.2.dirty then
    if it.2.coins.isPruned then coins.erase it.1 else coins.insert it.1 it.2.coins
  else coins

def batchWrite (db : CoinsDB) (mapCoins : CCoinsMap) (hashBlock : Uint256) : CoinsDB where
  coins := mapCoins.entries.foldl batchWriteCoins db.coins
  hashBestChain := if hashBlock ≠ 0 then hashBlock else db.hashBestChain

/-! ## What is stored after a batch -/

/-- What a dirty entry leaves in the database. -/
def stored (old : Option CCoins) (it : CCoinsCacheEntry) : Option CCoins :=
  if it.dirty then it.coins.live else old

theorem batchWriteCoins_self (coins : AList (fun _ : Uint256 => CCoins))
    (it : Sigma fun _ : Uint256 => CCoinsCacheEntry) :
    (batchWriteCoins coins it).lookup it.1 = stored (coins.lookup it.1) it.2 := by
  unfold batchWriteCoins stored CCoins.live
  split
  · split <;> simp
  · rfl

theorem batchWriteCoins_ne {coins : AList (fun _ : Uint256 => CCoins)}
    {it : Sigma fun _ : Uint256 => CCoinsCacheEntry} {t : Uint256} (ht : t ≠ it.1) :
    (batchWriteCoins coins it).lookup t = coins.lookup t := by
  unfold batchWriteCoins
  split
  · split
    · exact lookup_erase_ne ht
    · exact lookup_insert_ne ht
  · rfl

theorem batchWriteCoins_foldl {l : List (Sigma fun _ : Uint256 => CCoinsCacheEntry)}
    (hnd : l.NodupKeys) (coins : AList (fun _ : Uint256 => CCoins)) (t : Uint256) :
    (l.foldl batchWriteCoins coins).lookup t =
      match l.dlookup t with
      | some it => stored (coins.lookup t) it
      | none => coins.lookup t := by
  induction l generalizing coins with
  | nil => rfl
  | cons it l ih =>
    rw [nodupKeys_cons] at hnd
    rw [foldl_cons, ih hnd.2]
    by_cases ht : t = it.1
    · subst ht
      have hnone : l.dlookup it.1 = none := dlookup_eq_none.mpr hnd.1
      rw [hnone, dlookup_cons_eq]
      exact batchWriteCoins_self coins it
    · have hcons : dlookup t (it :: l) = dlookup t l := dlookup_cons_ne l it ht
      rw [hcons, batchWriteCoins_ne ht]

end CoinsDB

/-- The coin database keeps the contract of a base view. -/
def coinsViewDB : CCoinsView CoinsDB where
  getCoins := CoinsDB.getCoins
  getBestBlock := CoinsDB.hashBestChain
  batchWrite := CoinsDB.batchWrite
  getCoins_clean := by
    intro s t c h
    obtain ⟨x, -, rfl⟩ := Option.map_eq_some_iff.mp h
    exact CCoins.cleanup_clean x
  batchWrite_live := by
    intro s m h hw t
    have hlook := CoinsDB.batchWriteCoins_foldl m.nodupKeys s.coins t
    have hlook' : (s.batchWrite m h).coins.lookup t =
        match m.lookup t with
        | some it => CoinsDB.stored (s.coins.lookup t) it
        | none => s.coins.lookup t := hlook
    unfold CoinsDB.getCoins at hw ⊢
    rw [hlook']
    cases hm : m.lookup t with
    | none => rfl
    | some e =>
      obtain ⟨hclean, hcopy⟩ := hw t e hm
      cases hd : e.dirty with
      | false => simp [CoinsDB.stored, hd, hcopy hd]
      | true =>
        cases hp : e.coins.isPruned with
        | true => simp [CoinsDB.stored, hd, CCoins.live_of_pruned hp]
        | false =>
          simp [CoinsDB.stored, hd, CCoins.live_of_not_pruned hp, CCoins.cleanup_of_clean hclean]

end MonetaryUnit
