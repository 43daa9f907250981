/-
# MonetaryUnit.Coins.Cache — stacks of coin caches

`CCoinsViewCache` of `coins.cpp`. A stack of caches is a list with the top first, over the state of
a base view that is not a cache.

* Reads fill the cache at every level they pass (`fetchCoins`).
* `modifyCoins` hands out a reference to an entry, marked `DIRTY`; the destructor of the reference
  trims the entry and drops it when it is `FRESH` and pruned.
* `flush` writes the `DIRTY` entries of the top into the level below, with the shortcuts of
  `BatchWrite`.

An assertion of the source that fails is an `AssertFailure`. `cacheCoins` is a hash map, so an
association list with distinct keys in any order stands for it.
-/

import MonetaryUnit.Coins.CCoins
import Mathlib.Data.List.AList

namespace MonetaryUnit

/-! ## Cache entries and caches -/

/-- The flag byte is kept as its two bits. -/
structure CCoinsCacheEntry where
  coins : CCoins := {}
  dirty : Bool := false
  fresh : Bool := false
deriving DecidableEq, Repr

abbrev CCoinsMap := AList (fun _ : Uint256 => CCoinsCacheEntry)

structure CCoinsViewCache where
  hasModifier : Bool := false
  hashBlock : Uint256 := 0
  cacheCoins : CCoinsMap := ∅

/-- The assertions of `coins.cpp` that can stop the program. -/
inductive AssertFailure
  | hasModifier
  | missingNotFresh
  | outputUnavailable
deriving DecidableEq, Repr

/-! ## Base views -/

/-- What a map handed to `BatchWrite` may contain: trimmed entries, and under a clear
`DIRTY` flag nothing but what the receiver already has. -/
def Writable (has : Uint256 → Option CCoins) (m : CCoinsMap) : Prop :=
  ∀ t e, m.lookup t = some e → e.coins.Clean ∧ (e.dirty = false → has t = some e.coins)

/-- A coin view that is not a cache, such as the coin database. Its coins come out of
`CCoins::Unserialize`, which ends in `Cleanup`, and it stores what it is given; it may
keep or drop pruned entries. -/
structure CCoinsView (σ : Type) where
  getCoins : σ → Uint256 → Option CCoins
  getBestBlock : σ → Uint256
  batchWrite : σ → CCoinsMap → Uint256 → σ
  getCoins_clean : ∀ {s t c}, getCoins s t = some c → c.Clean
  batchWrite_live : ∀ {s m} (h : Uint256), Writable (getCoins s) m → ∀ t,
    (getCoins (batchWrite s m h) t).bind CCoins.live =
      match m.lookup t with
      | some e => e.coins.live
      | none => (getCoins s t).bind CCoins.live

/-- Caches above a base view. -/
structure CoinsStack (σ : Type) where
  caches : List CCoinsViewCache
  base : σ

section Operations

variable {σ : Type} (V : CCoinsView σ) (s : σ)

/-! ## Reads -/

/-- `FetchCoins` and `GetCoins` at every level: an entry found below is copied into each
cache it is read through, as `FRESH` when it is pruned. -/
def fetchCoins (txid : Uint256) : List CCoinsViewCache → Option CCoins × List CCoinsViewCache
  | [] => (V.getCoins s txid, [])
  | c :: below =>
    match c.cacheCoins.lookup txid with
    | some e => (some e.coins, c :: below)
    | none =>
      match fetchCoins txid below with
      | (none, below') => (none, c :: below')
      | (some tmp, below') =>
        (some tmp, { c with cacheCoins :=
              c.cacheCoins.insert txid { coins := tmp, fresh := tmp.isPruned } } :: below')

/-- `HaveCoins` looks at `vout.empty()`, not at `IsPruned()`. -/
def haveCoins (txid : Uint256) (caches : List CCoinsViewCache) : Bool × List CCoinsViewCache :=
  match fetchCoins V s txid caches with
  | (some c, caches') => (!c.vout.isEmpty, caches')
  | (none, caches') => (false, caches')

/-- The loop of `HaveInputs`, which stops at the first missing input. -/
def haveInputsLoop : List CTxIn → List CCoinsViewCache → Bool × List CCoinsViewCache
  | [], caches => (true, caches)
  | txin :: rest, caches =>
    match fetchCoins V s txin.prevout.hash caches with
    | (none, caches') => (false, caches')
    | (some c, caches') =>
      if c.isAvailable txin.prevout.n then haveInputsLoop rest caches' else (false, caches')

def haveInputs (tx : CTransaction) (caches : List CCoinsViewCache) : Bool × List CCoinsViewCache :=
  if tx.isCoinBase then (true, caches) else haveInputsLoop V s tx.vin caches

/-- The best block is cached by the first level that knows it, and in all levels above. -/
def getBestBlock : List CCoinsViewCache → Uint256 × List CCoinsViewCache
  | [] => (V.getBestBlock s, [])
  | c :: below =>
    if c.hashBlock = 0 then
      let (h, below') := getBestBlock below
      (h, { c with hashBlock := h } :: below')
    else (c.hashBlock, c :: below)

/-! ## Edits -/

/-- `ModifyCoins` on the cache `c` over `below`: the entry to edit, marked `DIRTY`, and the
caches with the modifier taken. -/
def modifyCoins (txid : Uint256) (c : CCoinsViewCache) (below : List CCoinsViewCache) :
    Except AssertFailure (CCoinsCacheEntry × CCoinsViewCache × List CCoinsViewCache) :=
  if c.hasModifier then .error .hasModifier
  else
    let (e, below') :=
      match c.cacheCoins.lookup txid with
      | some e => (e, below)
      | none =>
        match fetchCoins V s txid below with
        | (none, below') => ({ coins := CCoins.cleared, fresh := true }, below')
        | (some coins, below') => ({ coins := coins, fresh := coins.isPruned }, below')
    let e' := { e with dirty := true }
    .ok (e', { c with hasModifier := true, cacheCoins := c.cacheCoins.insert txid e' }, below')

/-- The destructor of `CCoinsModifier`, run on the entry as the edit left it. -/
def releaseModifier (txid : Uint256) (e : CCoinsCacheEntry) (c : CCoinsViewCache) :
    CCoinsViewCache :=
  let e' := { e with coins := e.coins.cleanup }
  if e'.fresh && e'.coins.isPruned then
    { c with hasModifier := false, cacheCoins := c.cacheCoins.erase txid }
  else { c with hasModifier := false, cacheCoins := c.cacheCoins.insert txid e' }

/-- `ModifyCoins`, an edit of the `CCoins` that also returns a value, and the destruction
of the modifier. -/
def editCoins {α : Type} (txid : Uint256) (edit : CCoins → α × CCoins)
    (c : CCoinsViewCache) (below : List CCoinsViewCache) :
    Except AssertFailure (α × CCoinsViewCache × List CCoinsViewCache) := do
  let (e, c', below') ← modifyCoins V s txid c below
  let (a, coins) := edit e.coins
  return (a, releaseModifier txid { e with coins := coins } c', below')

/-! ## Flush -/

/-- One round of the loop of `CCoinsViewCache::BatchWrite`. -/
def batchWriteEntry (us : CCoinsMap) (it : Sigma fun _ : Uint256 => CCoinsCacheEntry) :
    Except AssertFailure CCoinsMap :=
  if it.2.dirty then
    match us.lookup it.1 with
    | none =>
      if it.2.coins.isPruned then .ok us
      else if it.2.fresh then
        .ok (us.insert it.1 { coins := it.2.coins, dirty := true, fresh := true })
      else .error .missingNotFresh
    | some itUs =>
      if itUs.fresh && it.2.coins.isPruned then .ok (us.erase it.1)
      else .ok (us.insert it.1 { itUs with coins := it.2.coins, dirty := true })
  else .ok us

def CCoinsViewCache.batchWrite (c : CCoinsViewCache) (mapCoins : CCoinsMap)
    (hashBlockIn : Uint256) : Except AssertFailure CCoinsViewCache :=
  if c.hasModifier then .error .hasModifier
  else do
    let us ← mapCoins.entries.foldlM batchWriteEntry c.cacheCoins
    return { c with cacheCoins := us, hashBlock := hashBlockIn }

/-- `Flush` of the cache `c`: `BatchWrite` on the view below, then an empty `cacheCoins`. -/
def flush (c : CCoinsViewCache) : List CCoinsViewCache → Except AssertFailure (CoinsStack σ)
  | [] => .ok ⟨[{ c with cacheCoins := ∅ }], V.batchWrite s c.cacheCoins c.hashBlock⟩
  | parent :: below => do
    let parent' ← parent.batchWrite c.cacheCoins c.hashBlock
    return ⟨{ c with cacheCoins := ∅ } :: parent' :: below, s⟩

end Operations

end MonetaryUnit
