/-
# MonetaryUnit.Wallet.KeyPool — keys made in advance

The key pool of `wallet.cpp`: `setKeyPool` holds the indexes of unused keys, the wallet database the
key of each index, and a `CReserveKey` takes the oldest index out of the set and later keeps it (the
database entry goes) or returns it (the index goes back).

The index of a new key is one more than the largest in the set, or one. The set does not know which
indexes are reserved, so a new key can be written under an index that somebody holds
(`reservedIndex_reused`). As long as nobody holds one of the next indexes above the set when keys
are made (`NewIndex`), the pool is safe (`keyPool_safe_along_runs`).

Database calls succeed here. `GenerateNewKey` draws from a sequence of keys that does not repeat;
the time in a pool entry is not modelled. An exception leaves the wallet as it is at that point.
-/

import Mathlib.Data.Finset.Sort
import MonetaryUnit.Lib.AssocList

namespace MonetaryUnit

open Lib List AList Option Nat

/-! ## Data -/

/-- What a call can throw. -/
inductive KeyThrow
  | readFailed
  | unknownKey
  /-- `assert(vchPubKey.IsValid())` in `GetReservedKey`. -/
  | invalidKey
deriving DecidableEq, Repr

/-- What the outside sees of a key: it is handed out, or its holder returns it. -/
inductive KeyEvent (κ : Type)
  | out (vchPubKey : κ)
  | back (vchPubKey : κ)
deriving DecidableEq

/-- The wallet as far as the pool needs it. -/
structure KeyWallet (κ : Type) where
  setKeyPool : Finset Int := ∅
  /-- The `pool` records of the wallet database. -/
  pool : AList (fun _ : Int => κ) := ∅
  /-- The public keys in the key store. -/
  keys : List κ := []
  nGenerated : Nat := 0
  fLocked : Bool := false
  fFileBacked : Bool := true
  /-- The `CReserveKey` objects with `nIndex ≠ -1`: the index, and the key unless
  `vchPubKey` was left invalid. -/
  reserveKeys : AList (fun _ : Nat => Int × Option κ) := ∅
  /-- The events so far, the latest first. -/
  handed : List (KeyEvent κ) := []

/-- `setKeyPool.begin()`. -/
def oldestIndex (s : Finset Int) : Option Int := if h : s.Nonempty then some (s.min' h) else none

/-- `nEnd` of `TopUpKeyPool`. -/
def nextIndex (s : Finset Int) : Int := if h : s.Nonempty then s.max' h + 1 else 1

/-- How a reservation ends. -/
inductive ReserveResult (κ : Type)
  /-- The pool is empty: `nIndex` stays `-1`. -/
  | empty
  | reserved (nIndex : Int) (vchPubKey : κ)
  /-- An exception after `nIndex` was set and taken out of the set. -/
  | failed (nIndex : Int) (what : KeyThrow)

namespace KeyWallet

variable {κ : Type}

/-! ## Operations -/

section Operations

variable (gen : Nat → κ) (nKeypoolArg : Nat)

def generateNewKey (w : KeyWallet κ) : κ × KeyWallet κ := (gen w.nGenerated,
    { w with nGenerated := w.nGenerated + 1, keys := gen w.nGenerated :: w.keys })

/-- `WritePool(nIndex, CKeyPool(GenerateNewKey()))` and the insertion into the set. -/
def addPoolKey (nIndex : Int) (w : KeyWallet κ) : KeyWallet κ :=
  let (vchPubKey, w) := w.generateNewKey gen
  { w with
    pool := w.pool.insert nIndex vchPubKey
    setKeyPool := insert nIndex w.setKeyPool }

/-- The wallet after `ErasePool` for every index of the set and `setKeyPool.clear()`. -/
def clearPool (w : KeyWallet κ) : KeyWallet κ := { w with
    pool := (w.setKeyPool.sort (· ≤ ·)).foldl (fun pool nIndex => pool.erase nIndex) w.pool
    setKeyPool := ∅ }

/-- The loop of `NewKeyPool`. -/
def makeKeys (w : KeyWallet κ) : KeyWallet κ :=
  (List.range nKeypoolArg).foldl (fun w (i : Nat) => w.addPoolKey gen (i + 1)) w

/-- Throw the pool away and make `-keypool` new keys. -/
def newKeyPool (w : KeyWallet κ) : Bool × KeyWallet κ :=
  if w.clearPool.fLocked then (false, w.clearPool)
  else (true, w.clearPool.makeKeys gen nKeypoolArg)

/-- The loop of `TopUpKeyPool`, with a bound on its rounds. -/
def topUpLoop (nSize : Nat) : Nat → KeyWallet κ → KeyWallet κ
  | 0, w => w
  | fuel + 1, w =>
    if w.setKeyPool.card < nSize then
      topUpLoop nSize fuel (w.addPoolKey gen (nextIndex w.setKeyPool))
    else w

/-- `nTargetSize + 1`: the target is an `unsigned int`, and so is the target plus one. -/
def topUpSize (kpSize : UInt32) : Nat :=
  ((if 0 < kpSize then kpSize else UInt32.ofNat nKeypoolArg) + 1).toNat

/-- Make keys until the pool has one more than the target. -/
def topUpKeyPool (kpSize : UInt32) (w : KeyWallet κ) : Bool × KeyWallet κ :=
  if w.fLocked then (false, w)
  else
    let nSize := topUpSize nKeypoolArg kpSize
    (true, w.topUpLoop gen nSize (nSize - w.setKeyPool.card))

def topUpUnlessLocked (w : KeyWallet κ) : KeyWallet κ :=
  if w.fLocked then w else (w.topUpKeyPool gen nKeypoolArg 0).2

variable [DecidableEq κ]

/-- The index is taken out of the set before its record is read. -/
def takeIndex (nIndex : Int) (w : KeyWallet κ) : ReserveResult κ × KeyWallet κ :=
  let w := { w with setKeyPool := w.setKeyPool.erase nIndex }
  match w.pool.lookup nIndex with
  | none => (.failed nIndex .readFailed, w)
  | some vchPubKey =>
    if vchPubKey ∈ w.keys then (.reserved nIndex vchPubKey, w)
    else (.failed nIndex .unknownKey, w)

/-- Top up and take the oldest index. -/
def reserveKeyFromKeyPool (w : KeyWallet κ) : ReserveResult κ × KeyWallet κ :=
  let w := w.topUpUnlessLocked gen nKeypoolArg
  match oldestIndex w.setKeyPool with
  | none => (.empty, w)
  | some nIndex => w.takeIndex nIndex

/-- The record goes; the index left the set when it was reserved. -/
def keepKey (nIndex : Int) (w : KeyWallet κ) : KeyWallet κ :=
  if w.fFileBacked then { w with pool := w.pool.erase nIndex } else w

/-- The index is in the set again. -/
def returnKey (nIndex : Int) (w : KeyWallet κ) : KeyWallet κ :=
  { w with setKeyPool := insert nIndex w.setKeyPool }

def handOut (vchPubKey : κ) (w : KeyWallet κ) : KeyWallet κ :=
  { w with handed := .out vchPubKey :: w.handed }

/-- A key for good: from the pool, or a new one when it is empty. -/
def getKeyFromPool (w : KeyWallet κ) : KeyWallet κ × Option KeyThrow :=
  match w.reserveKeyFromKeyPool gen nKeypoolArg with
  | (.empty, w) =>
    if w.fLocked then (w, none)
    else
      let (result, w) := w.generateNewKey gen
      (w.handOut result, none)
  | (.reserved nIndex vchPubKey, w) => ((w.keepKey nIndex).handOut vchPubKey, none)
  | (.failed _ what, w) => (w, some what)

/-! ## `CReserveKey` -/

/-- A holder that has a key is given the same again. -/
def getReservedKey (holder : Nat) (w : KeyWallet κ) : KeyWallet κ × Option KeyThrow :=
  match w.reserveKeys.lookup holder with
  | some (_, some _) => (w, none)
  | some (_, none) => (w, some .invalidKey)
  | none =>
    match w.reserveKeyFromKeyPool gen nKeypoolArg with
    | (.empty, w) => (w, none)
    | (.reserved nIndex vchPubKey, w) =>
      ({ w with reserveKeys := w.reserveKeys.insert holder (nIndex, some vchPubKey) }.handOut
        vchPubKey, none)
    | (.failed nIndex what, w) =>
      ({ w with reserveKeys := w.reserveKeys.insert holder (nIndex, none) }, some what)

def keepReserved (holder : Nat) (w : KeyWallet κ) : KeyWallet κ :=
  match w.reserveKeys.lookup holder with
  | none => w
  | some (nIndex, _) =>
    { w.keepKey nIndex with reserveKeys := w.reserveKeys.erase holder }

def returnReserved (holder : Nat) (w : KeyWallet κ) : KeyWallet κ :=
  match w.reserveKeys.lookup holder with
  | none => w
  | some (nIndex, vchPubKey) =>
    { w.returnKey nIndex with
      reserveKeys := w.reserveKeys.erase holder
      handed := (vchPubKey.map KeyEvent.back).toList ++ w.handed }

end Operations

end KeyWallet

/-- What the node asks of the pool. -/
inductive KeyOp
  | getReservedKey (holder : Nat)
  | keepKey (holder : Nat)
  | returnKey (holder : Nat)
  | topUpKeyPool (kpSize : UInt32)
  | newKeyPool
  | getKeyFromPool
  | lock
  | unlock

namespace KeyWallet

variable {κ : Type} [DecidableEq κ] (gen : Nat → κ) (nKeypoolArg : Nat)

def step (w : KeyWallet κ) : KeyOp → KeyWallet κ × Option KeyThrow
  | .getReservedKey holder => w.getReservedKey gen nKeypoolArg holder
  | .keepKey holder => (w.keepReserved holder, none)
  | .returnKey holder => (w.returnReserved holder, none)
  | .topUpKeyPool kpSize => ((w.topUpKeyPool gen nKeypoolArg kpSize).2, none)
  | .newKeyPool => ((w.newKeyPool gen nKeypoolArg).2, none)
  | .getKeyFromPool => w.getKeyFromPool gen nKeypoolArg
  | .lock => ({ w with fLocked := true }, none)
  | .unlock => ({ w with fLocked := false }, none)

def run (ops : List KeyOp) (w : KeyWallet κ) : KeyWallet κ :=
  ops.foldl (fun w op => (w.step gen nKeypoolArg op).1) w

end KeyWallet

/-! ## Keys that are out -/

/-- The last thing that happened to the key is that it was handed out. -/
def Outstanding {κ : Type} (k : κ) : List (KeyEvent κ) → Prop
  | [] => False
  | .out k' :: older => k = k' ∨ Outstanding k older
  | .back k' :: older => k ≠ k' ∧ Outstanding k older

/-- Whenever a key was handed out it was not out already. -/
def Separated {κ : Type} : List (KeyEvent κ) → Prop
  | [] => True
  | .out k :: older => ¬ Outstanding k older ∧ Separated older
  | .back _ :: older => Separated older

section Events

variable {κ : Type} {k : κ} {newer older : List (KeyEvent κ)}

theorem outstanding_of_out (h : .back k ∉ newer) : Outstanding k (newer ++ .out k :: older) := by
  induction newer with
  | nil => exact .inl rfl
  | cons e newer ih =>
    rw [mem_cons, not_or] at h
    cases e with
    | out k' => exact .inr (ih h.2)
    | back k' => exact ⟨fun heq => h.1 (heq ▸ rfl), ih h.2⟩

theorem Outstanding.mem {events : List (KeyEvent κ)} (h : Outstanding k events) :
    .out k ∈ events := by
  induction events with
  | nil => exact h.elim
  | cons e events ih =>
    cases e with
    | out k' => exact mem_cons.mpr (h.imp (congrArg _) ih)
    | back k' => exact mem_cons_of_mem _ (ih h.2)

/-- Between two times a key is handed out it is returned. -/
theorem Separated.returned {mid : List (KeyEvent κ)}
    (h : Separated (newer ++ .out k :: mid ++ .out k :: older)) : .back k ∈ mid := by
  induction newer with
  | nil =>
    by_contra hnot
    exact h.1 (outstanding_of_out hnot)
  | cons e newer ih =>
    cases e with
    | out k' => exact ih h.2
    | back k' => exact ih h

end Events

/-! ## What holds of the pool -/

namespace KeyWallet

variable {κ : Type} {gen : Nat → κ} {nKeypoolArg : Nat} {w : KeyWallet κ}

/-- Somebody holds a reservation of the index. -/
def Held (w : KeyWallet κ) (i : Int) : Prop := ∃ holder v, w.reserveKeys.lookup holder = some (i, v)

/-- The indexes that topping up the pool gives to new keys: as many as are missing, from the next
one on. -/
def ToppedUp (nKeypoolArg : Nat) (w : KeyWallet κ) (kpSize : UInt32) (i : Int) : Prop :=
  w.fLocked = false ∧ nextIndex w.setKeyPool ≤ i ∧
    i < nextIndex w.setKeyPool + ↑(topUpSize nKeypoolArg kpSize - w.setKeyPool.card)

/-- The indexes that an operation gives to new keys. -/
def NewIndex (nKeypoolArg : Nat) (w : KeyWallet κ) (i : Int) : KeyOp → Prop
  | .getReservedKey holder => w.reserveKeys.lookup holder = none ∧ w.ToppedUp nKeypoolArg 0 i
  | .topUpKeyPool kpSize => w.ToppedUp nKeypoolArg kpSize i
  | .getKeyFromPool => w.ToppedUp nKeypoolArg 0 i
  | .newKeyPool => w.fLocked = false ∧ 1 ≤ i ∧ i ≤ nKeypoolArg
  | _ => False

/-- The operation makes no key under an index that somebody holds. -/
def Orderly (nKeypoolArg : Nat) (w : KeyWallet κ) (op : KeyOp) : Prop :=
  ∀ i, w.NewIndex nKeypoolArg i op → ¬ w.Held i

/-- An index that is in the set or held. -/
def Live (w : KeyWallet κ) (i : Int) : Prop := i ∈ w.setKeyPool ∨ w.Held i

/-- The keys of live indexes are different and known. -/
structure KeysOk (gen : Nat → κ) (w : KeyWallet κ) : Prop where
  distinct : ∀ {i j k}, w.Live i → w.Live j → w.pool.lookup i = some k →
    w.pool.lookup j = some k → i = j
  known : ∀ {i k}, w.Live i → w.pool.lookup i = some k → k ∈ w.keys
  generated : ∀ {i k}, w.Live i → w.pool.lookup i = some k → ∃ n < w.nGenerated, k = gen n

/-- Every index of the set has a record with a key that is not out; the holder of an index has
the key of its record. -/
structure Safe (gen : Nat → κ) (w : KeyWallet κ) : Prop extends KeysOk gen w where
  stored : ∀ {i}, i ∈ w.setKeyPool → ∃ k, w.pool.lookup i = some k
  heldKey : ∀ {holder i v}, w.reserveKeys.lookup holder = some (i, v) →
    ∃ k, v = some k ∧ w.pool.lookup i = some k
  heldOut : ∀ {i}, w.Held i → i ∉ w.setKeyPool
  heldOnce : ∀ {holder holder' i v v'}, w.reserveKeys.lookup holder = some (i, v) →
    w.reserveKeys.lookup holder' = some (i, v') → holder = holder'
  unused : ∀ {i k}, i ∈ w.setKeyPool → w.pool.lookup i = some k → ¬ Outstanding k w.handed
  logged : ∀ {k}, KeyEvent.out k ∈ w.handed → ∃ n < w.nGenerated, k = gen n
  separated : Separated w.handed

variable {w' : KeyWallet κ} {i : Int}

/-- No index becomes live, and the records of the live ones stay. -/
theorem KeysOk.mono (h : KeysOk gen w) (hkeys : w'.keys = w.keys)
    (hgen : w'.nGenerated = w.nGenerated)
    (hlive : ∀ {i}, w'.Live i → w.Live i ∧ w'.pool.lookup i = w.pool.lookup i) : KeysOk gen w' where
  distinct := by
    intro i j k hi hj hik hjk
    rw [(hlive hi).2] at hik
    rw [(hlive hj).2] at hjk
    exact h.distinct (hlive hi).1 (hlive hj).1 hik hjk
  known := by
    intro i k hi hik
    rw [(hlive hi).2] at hik
    rw [hkeys]
    exact h.known (hlive hi).1 hik
  generated := by
    intro i k hi hik
    rw [(hlive hi).2] at hik
    rw [hgen]
    exact h.generated (hlive hi).1 hik

/-- The set and the reservations may lose indexes; the records of those that stay do too. -/
theorem Safe.shrink (h : w.Safe gen) (hkeys : w'.keys = w.keys)
    (hgen : w'.nGenerated = w.nGenerated)
    (hset : ∀ {j}, j ∈ w'.setKeyPool → j ∈ w.setKeyPool ∧ w'.pool.lookup j = w.pool.lookup j)
    (hheld : ∀ {holder j v}, w'.reserveKeys.lookup holder = some (j, v) →
      w.reserveKeys.lookup holder = some (j, v) ∧ w'.pool.lookup j = w.pool.lookup j)
    (hhanded : (∀ {j k}, j ∈ w'.setKeyPool → w.pool.lookup j = some k → ¬ Outstanding k w'.handed) ∧
      (∀ {k}, .out k ∈ w'.handed → ∃ n < w.nGenerated, k = gen n) ∧
      Separated w'.handed) : w'.Safe gen where
  toKeysOk := h.mono hkeys hgen fun hj => by
    rcases hj with hj | ⟨holder, v, hv⟩
    · exact ⟨.inl (hset hj).1, (hset hj).2⟩
    · exact ⟨.inr ⟨holder, v, (hheld hv).1⟩, (hheld hv).2⟩
  stored := fun hj => by
    rw [(hset hj).2]
    exact h.stored (hset hj).1
  heldKey := fun hv => by
    rw [(hheld hv).2]
    exact h.heldKey (hheld hv).1
  heldOut := by
    rintro j ⟨holder, v, hv⟩ hj
    exact h.heldOut ⟨holder, v, (hheld hv).1⟩ (hset hj).1
  heldOnce := fun hv hv' => h.heldOnce (hheld hv).1 (hheld hv').1
  unused := fun hj hk => by
    rw [(hset hj).2] at hk
    exact hhanded.1 hj hk
  logged := fun hk => hgen.symm ▸ hhanded.2.1 hk
  separated := hhanded.2.2

theorem Safe.setLocked (h : w.Safe gen) (fLocked : Bool) : { w with fLocked }.Safe gen :=
  h.shrink rfl rfl (fun hj => ⟨hj, rfl⟩) (fun hv => ⟨hv, rfl⟩) ⟨h.unused, h.logged, h.separated⟩

/-- A key that was not generated before is new to the pool and was never handed out. -/
theorem Safe.fresh (h : w.Safe gen) (hgen : Function.Injective gen) :
    (∀ {i}, w.Live i → w.pool.lookup i ≠ some (gen w.nGenerated)) ∧
      ¬ Outstanding (gen w.nGenerated) w.handed := by
  constructor
  · intro i hlive hlook
    obtain ⟨n, hn, heq⟩ := h.generated hlive hlook
    exact absurd (hgen heq) (ne_of_gt hn)
  · intro hout
    obtain ⟨n, hn, heq⟩ := h.logged hout.mem
    exact absurd (hgen heq) (ne_of_gt hn)

theorem drawn_succ {m : Nat} {k : κ} (h : ∃ n < m, k = gen n) : ∃ n < m + 1, k = gen n := by
  obtain ⟨n, hn, heq⟩ := h
  exact ⟨n, lt_succ_of_lt hn, heq⟩

theorem safe_addPoolKey (h : w.Safe gen) (hgen : Function.Injective gen) (hfree : ¬ w.Held i) :
    (w.addPoolKey gen i).Safe gen := by
  obtain ⟨hnew, hnever⟩ := h.fresh hgen
  have hset : ∀ {j}, j ∈ (w.addPoolKey gen i).setKeyPool → j ≠ i → j ∈ w.setKeyPool :=
    fun hj hji => (Finset.mem_insert.mp hj).resolve_left hji
  have hlive : ∀ {j}, (w.addPoolKey gen i).Live j → j ≠ i → w.Live j := by
    rintro j (hj | hj) hji
    · exact .inl (hset hj hji)
    · exact .inr hj
  refine ⟨⟨?_, ?_, ?_⟩, ?_, ?_, ?_, h.heldOnce, ?_, fun hk => drawn_succ (h.logged hk), h.separated⟩
  · intro j j' k hj hj' hk hk'
    rcases lookup_insert_eq_some.mp hk with ⟨rfl, rfl⟩ | ⟨hji, hk⟩ <;>
      rcases lookup_insert_eq_some.mp hk' with ⟨hji', hk'⟩ | ⟨hji', hk'⟩
    · exact hji'.symm
    · exact absurd hk' (hnew (hlive hj' hji'))
    · exact absurd (hk' ▸ hk) (hnew (hlive hj hji))
    · exact h.distinct (hlive hj hji) (hlive hj' hji') hk hk'
  · intro j k hj hk
    rcases lookup_insert_eq_some.mp hk with ⟨-, rfl⟩ | ⟨hji, hk⟩
    · exact mem_cons_self
    · exact mem_cons_of_mem _ (h.known (hlive hj hji) hk)
  · intro j k hj hk
    rcases lookup_insert_eq_some.mp hk with ⟨-, rfl⟩ | ⟨hji, hk⟩
    · exact ⟨w.nGenerated, lt_succ_self _, rfl⟩
    · exact drawn_succ (h.generated (hlive hj hji) hk)
  · intro j hj
    by_cases hji : j = i
    · subst hji
      exact ⟨_, lookup_insert _⟩
    · obtain ⟨k, hk⟩ := h.stored (hset hj hji)
      exact ⟨k, (lookup_insert_ne hji).trans hk⟩
  · intro holder j v hlook
    obtain ⟨k, hv, hk⟩ := h.heldKey hlook
    refine ⟨k, hv, (lookup_insert_ne ?_).trans hk⟩
    rintro rfl
    exact hfree ⟨holder, v, hlook⟩
  · intro j hj hmem
    rcases Finset.mem_insert.mp hmem with rfl | hmem
    · exact hfree hj
    · exact h.heldOut hj hmem
  · intro j k hj hk
    rcases lookup_insert_eq_some.mp hk with ⟨-, rfl⟩ | ⟨hji, hk⟩
    · exact hnever
    · exact h.unused (hset hj hji) hk

/-- What making keys leaves alone, and that the pool is safe when no new index is held. -/
structure Made (gen : Nat → κ) (new : Int → Prop) (w w' : KeyWallet κ) : Prop where
  reserveKeys : w'.reserveKeys = w.reserveKeys
  safe : w.Safe gen → (∀ i, new i → ¬ w.Held i) → w'.Safe gen

variable {new : Int → Prop}

theorem Made.refl : Made gen new w w := ⟨rfl, fun h _ => h⟩

theorem Made.trans {w'' : KeyWallet κ} (h : Made gen new w w') (h' : Made gen new w' w'') :
    Made gen new w w'' where
  reserveKeys := h'.reserveKeys.trans h.reserveKeys
  safe := by
    intro hsafe hfree
    refine h'.safe (h.safe hsafe hfree) fun i hi => ?_
    rw [Held, h.reserveKeys]
    exact hfree i hi

theorem made_addPoolKey (hgen : Function.Injective gen) (hi : new i) :
    Made gen new w (w.addPoolKey gen i) where
  reserveKeys := rfl
  safe := fun h hfree => safe_addPoolKey h hgen (hfree i hi)

theorem lt_nextIndex {s : Finset Int} {i : Int} (h : i ∈ s) : i < nextIndex s := by
  have hne : s.Nonempty := ⟨i, h⟩
  have hle := s.le_max' i h
  rw [nextIndex, dif_pos hne]
  omega

/-- The index of a new key is the greatest then. -/
theorem nextIndex_insert (s : Finset Int) : nextIndex (insert (nextIndex s) s) = nextIndex s + 1 := by
  have hne : (insert (nextIndex s) s).Nonempty := Finset.insert_nonempty _ _
  rw [nextIndex, dif_pos hne]
  congr 1
  refine le_antisymm (Finset.max'_le _ hne _ fun i hi => ?_)
    (Finset.le_max' _ _ (Finset.mem_insert_self _ _))
  rcases Finset.mem_insert.mp hi with rfl | hi
  · exact le_rfl
  · exact (lt_nextIndex hi).le

theorem card_addPoolKey (w : KeyWallet κ) :
    (w.addPoolKey gen (nextIndex w.setKeyPool)).setKeyPool.card = w.setKeyPool.card + 1 :=
  Finset.card_insert_of_notMem fun hmem => absurd (lt_nextIndex hmem) (lt_irrefl _)

/-- Each round uses the next index, for one of the keys that are missing. -/
theorem made_topUpLoop (hgen : Function.Injective gen) {nSize : Nat} (fuel : Nat)
    (hnew : ∀ i, nextIndex w.setKeyPool ≤ i →
      i < nextIndex w.setKeyPool + ↑(nSize - w.setKeyPool.card) → new i) :
    Made gen new w (w.topUpLoop gen nSize fuel) := by
  induction fuel generalizing w with
  | zero => exact .refl
  | succ fuel ih =>
    rw [topUpLoop]
    split
    · have hadd := made_addPoolKey (w := w) hgen (hnew (nextIndex w.setKeyPool) le_rfl (by omega))
      refine hadd.trans (ih fun i hlo hhi => ?_)
      have hnext : nextIndex (w.addPoolKey gen (nextIndex w.setKeyPool)).setKeyPool =
          nextIndex w.setKeyPool + 1 := nextIndex_insert w.setKeyPool
      rw [hnext] at hlo
      rw [hnext, card_addPoolKey] at hhi
      exact hnew i (by omega) (by omega)
    · exact .refl

/-- Each round adds an index, so the bound on the rounds is enough for the loop to end. -/
theorem topUpLoop_card {nSize fuel : Nat} {w : KeyWallet κ}
    (hfuel : nSize - w.setKeyPool.card ≤ fuel) :
    nSize ≤ (w.topUpLoop gen nSize fuel).setKeyPool.card := by
  induction fuel generalizing w with
  | zero =>
    show nSize ≤ w.setKeyPool.card
    omega
  | succ fuel ih =>
    rw [topUpLoop]
    split
    · apply ih
      rw [card_addPoolKey]
      omega
    · omega

theorem made_topUpKeyPool (hgen : Function.Injective gen) (kpSize : UInt32) (w : KeyWallet κ) :
    Made gen (w.ToppedUp nKeypoolArg kpSize) w (w.topUpKeyPool gen nKeypoolArg kpSize).2 := by
  unfold topUpKeyPool
  split
  · exact .refl
  · rename_i hunlocked
    rw [Bool.not_eq_true] at hunlocked
    exact made_topUpLoop hgen _ fun i hlo hhi => ⟨hunlocked, hlo, hhi⟩

theorem made_topUpUnlessLocked (hgen : Function.Injective gen) (nKeypoolArg : Nat)
    (w : KeyWallet κ) :
    Made gen (w.ToppedUp nKeypoolArg 0) w (w.topUpUnlessLocked gen nKeypoolArg) := by
  unfold topUpUnlessLocked
  split
  · exact .refl
  · exact made_topUpKeyPool hgen 0 w

theorem lookup_eraseAll (l : List Int) (pool : AList (fun _ : Int => κ)) (i : Int) :
    (l.foldl (fun pool nIndex => pool.erase nIndex) pool).lookup i =
      if i ∈ l then none else pool.lookup i := by
  induction l generalizing pool with
  | nil => simp
  | cons j l ih =>
    rw [foldl_cons, ih]
    by_cases hij : i = j
    · subst hij
      simp
    · simp [hij]

/-- Only held indexes are left, and their records. -/
theorem made_clearPool (w : KeyWallet κ) : Made gen new w w.clearPool where
  reserveKeys := rfl
  safe := by
    intro h _
    refine h.shrink rfl rfl (fun hj => absurd hj (Finset.notMem_empty _)) (fun hv => ⟨hv, ?_⟩)
      ⟨fun hj => absurd hj (Finset.notMem_empty _), h.logged, h.separated⟩
    rw [clearPool, lookup_eraseAll, if_neg]
    rw [Finset.mem_sort]
    exact h.heldOut ⟨_, _, hv⟩

theorem made_addPoolKeys (hgen : Function.Injective gen) {l : List Nat}
    (hnew : ∀ i ∈ l, new (i + 1)) :
    Made gen new w (l.foldl (fun w (i : Nat) => w.addPoolKey gen (i + 1)) w) := by
  induction l generalizing w with
  | nil => exact .refl
  | cons i l ih =>
    rw [forall_mem_cons] at hnew
    exact (made_addPoolKey hgen hnew.1).trans (ih hnew.2)

theorem made_newKeyPool (hgen : Function.Injective gen) (w : KeyWallet κ) :
    Made gen (fun i => w.NewIndex nKeypoolArg i .newKeyPool) w
      (w.newKeyPool gen nKeypoolArg).2 := by
  unfold newKeyPool
  split
  · exact made_clearPool w
  · rename_i hunlocked
    refine (made_clearPool w).trans (made_addPoolKeys hgen fun i hi => ?_)
    rw [List.mem_range] at hi
    exact ⟨Bool.eq_false_iff.mpr hunlocked, by omega, by omega⟩

/-! ## Reservations -/

theorem keepKey_eq (i : Int) (w : KeyWallet κ) : ∃ pool, w.keepKey i = { w with pool := pool } ∧
      ∀ j, j ≠ i → pool.lookup j = w.pool.lookup j := by
  unfold keepKey
  split
  · exact ⟨_, rfl, fun j hj => lookup_erase_ne hj⟩
  · exact ⟨_, rfl, fun j _ => rfl⟩

section Take

variable {k : κ}

section

variable (h : w.Safe gen) (hi : i ∈ w.setKeyPool) (hk : w.pool.lookup i = some k)
include h hi hk

/-- When a key of the pool is handed out, the other keys of the pool stay unused. -/
theorem Safe.handed_out : (∀ {j k'}, j ∈ w.setKeyPool.erase i → w.pool.lookup j = some k' →
      ¬ Outstanding k' (.out k :: w.handed)) ∧
    (∀ {k'}, .out k' ∈ .out k :: w.handed → ∃ n < w.nGenerated, k' = gen n) ∧
    Separated (.out k :: w.handed) := by
  refine ⟨?_, ?_, h.unused hi hk, h.separated⟩
  · intro j k' hj hjk
    rw [Finset.mem_erase] at hj
    rintro (rfl | hout)
    · exact hj.1 (h.distinct (.inl hj.2) (.inl hi) hjk hk)
    · exact h.unused hj.2 hjk hout
  · intro k' hmem
    rcases mem_cons.mp hmem with heq | hmem
    · cases heq
      exact h.generated (.inl hi) hk
    · exact h.logged hmem

/-- A key of the pool is handed out and its record goes. -/
theorem safe_consume :
    (({ w with setKeyPool := w.setKeyPool.erase i }.keepKey i).handOut k).Safe gen := by
  obtain ⟨pool, heq, hpool⟩ := keepKey_eq i { w with setKeyPool := w.setKeyPool.erase i }
  rw [heq]
  refine h.shrink rfl rfl (fun hj => ?_) (fun hv => ⟨hv, hpool _ ?_⟩) (h.handed_out hi hk)
  · have hj' := Finset.mem_erase.mp hj
    exact ⟨hj'.2, hpool _ hj'.1⟩
  · rintro rfl
    exact h.heldOut ⟨_, _, hv⟩ hi

/-- A key of the pool is handed to a holder; its record stays. -/
theorem safe_reserve (holder : Nat) : ({ w with
        setKeyPool := w.setKeyPool.erase i
        reserveKeys := w.reserveKeys.insert holder (i, some k) }.handOut k).Safe gen := by
  obtain ⟨hunused, hlogged, hsep⟩ := h.handed_out hi hk
  have hold : ∀ {holder' j v}, w.reserveKeys.lookup holder' = some (j, v) → j ≠ i := by
    rintro holder' j v hv rfl
    exact h.heldOut ⟨holder', v, hv⟩ hi
  refine ⟨h.mono rfl rfl ?_, ?_, ?_, ?_, ?_, hunused, hlogged, hsep⟩
  · rintro j (hj | ⟨holder', v, hv⟩)
    · exact ⟨.inl (Finset.mem_erase.mp hj).2, rfl⟩
    · rcases lookup_insert_eq_some.mp hv with ⟨-, ⟨⟩⟩ | ⟨-, hv⟩
      · exact ⟨.inl hi, rfl⟩
      · exact ⟨.inr ⟨holder', v, hv⟩, rfl⟩
  · intro j hj
    exact h.stored (Finset.mem_erase.mp hj).2
  · intro holder' j v hv
    rcases lookup_insert_eq_some.mp hv with ⟨-, ⟨⟩⟩ | ⟨-, hv⟩
    · exact ⟨k, rfl, hk⟩
    · exact h.heldKey hv
  · rintro j ⟨holder', v, hv⟩ hmem
    rw [handOut, Finset.mem_erase] at hmem
    rcases lookup_insert_eq_some.mp hv with ⟨-, ⟨⟩⟩ | ⟨-, hv⟩
    · exact hmem.1 rfl
    · exact h.heldOut ⟨holder', v, hv⟩ hmem.2
  · intro holder1 holder2 j v1 v2 hv1 hv2
    rcases lookup_insert_eq_some.mp hv1 with ⟨hh1, hj1⟩ | ⟨-, hw1⟩ <;>
      rcases lookup_insert_eq_some.mp hv2 with ⟨hh2, hj2⟩ | ⟨-, hw2⟩
    · rw [hh1, hh2]
    · exact absurd (Prod.mk.inj hj1).1 (hold hw2)
    · exact absurd (Prod.mk.inj hj2).1 (hold hw1)
    · exact h.heldOnce hw1 hw2

end

end Take

/-- Without one of the reservations, the others are as before and hold other indexes. -/
theorem Safe.others (h : w.Safe gen) {holder : Nat} {v : Option κ}
    (hv : w.reserveKeys.lookup holder = some (i, v)) {holder' : Nat} {j : Int} {v' : Option κ}
    (hv' : (w.reserveKeys.erase holder).lookup holder' = some (j, v')) :
    w.reserveKeys.lookup holder' = some (j, v') ∧ j ≠ i := by
  obtain ⟨hne, hv'⟩ := lookup_erase_eq_some.mp hv'
  refine ⟨hv', ?_⟩
  rintro rfl
  exact hne (h.heldOnce hv' hv)

/-- The holder keeps the key: index and record are gone for good. -/
theorem safe_keepReserved (h : w.Safe gen) (holder : Nat) : (w.keepReserved holder).Safe gen := by
  rcases hv : w.reserveKeys.lookup holder with _ | ⟨i, v⟩
  · rw [keepReserved, hv]
    exact h
  have hkeep : w.keepReserved holder =
      { w.keepKey i with reserveKeys := w.reserveKeys.erase holder } := by
    rw [keepReserved, hv]
  obtain ⟨pool, heq, hpool⟩ := keepKey_eq i w
  rw [hkeep, heq]
  refine h.shrink rfl rfl (fun hj => ⟨hj, hpool _ ?_⟩) (fun hv' => ?_)
    ⟨h.unused, h.logged, h.separated⟩
  · rintro rfl
    exact h.heldOut ⟨holder, v, hv⟩ hj
  · obtain ⟨hv', hne⟩ := h.others hv hv'
    exact ⟨hv', hpool _ hne⟩

/-- The holder returns the key: the index is in the set again, with the same record. -/
theorem safe_returnReserved (h : w.Safe gen) (holder : Nat) :
    (w.returnReserved holder).Safe gen := by
  rcases hv : w.reserveKeys.lookup holder with _ | ⟨i, v⟩
  · rw [returnReserved, hv]
    exact h
  obtain ⟨k, rfl, hk⟩ := h.heldKey hv
  have hreturn : w.returnReserved holder = { w with
        setKeyPool := insert i w.setKeyPool
        reserveKeys := w.reserveKeys.erase holder
        handed := .back k :: w.handed } := by
    rw [returnReserved, hv]
    rfl
  rw [hreturn]
  have hi : w.Live i := .inr ⟨holder, _, hv⟩
  refine ⟨h.mono rfl rfl ?_, ?_, ?_, ?_, ?_, ?_, ?_, h.separated⟩
  · rintro j (hj | ⟨holder', v', hv'⟩)
    · rcases Finset.mem_insert.mp hj with rfl | hj
      · exact ⟨hi, rfl⟩
      · exact ⟨.inl hj, rfl⟩
    · exact ⟨.inr ⟨holder', v', (h.others hv hv').1⟩, rfl⟩
  · intro j hj
    rcases Finset.mem_insert.mp hj with rfl | hj
    · exact ⟨k, hk⟩
    · exact h.stored hj
  · intro holder' j v' hv'
    exact h.heldKey (h.others hv hv').1
  · rintro j ⟨holder', v', hv'⟩ hmem
    obtain ⟨hv', hne⟩ := h.others hv hv'
    rcases Finset.mem_insert.mp hmem with rfl | hmem
    · exact hne rfl
    · exact h.heldOut ⟨holder', v', hv'⟩ hmem
  · intro holder1 holder2 j v1 v2 hv1 hv2
    exact h.heldOnce (h.others hv hv1).1 (h.others hv hv2).1
  · intro j k' hj hjk hout
    rcases Finset.mem_insert.mp hj with rfl | hj
    · rw [show w.pool.lookup j = some k from hk, some.injEq] at hjk
      exact hout.1 hjk.symm
    · exact h.unused hj hjk hout.2
  · intro k' hmem
    rcases mem_cons.mp hmem with heq | hmem
    · cases heq
    · exact h.logged hmem

/-! ## Every operation -/

theorem safe_generate (h : w.Safe gen) (hgen : Function.Injective gen) :
    ((w.generateNewKey gen).2.handOut (w.generateNewKey gen).1).Safe gen := by
  obtain ⟨hnew, hnever⟩ := h.fresh hgen
  refine ⟨⟨h.distinct, fun hi hk => mem_cons_of_mem _ (h.known hi hk),
    fun hi hk => drawn_succ (h.generated hi hk)⟩, h.stored, h.heldKey, h.heldOut, h.heldOnce, ?_,
    ?_, hnever, h.separated⟩
  · rintro i k hi hk (rfl | hout)
    · exact hnew (.inl hi) hk
    · exact h.unused hi hk hout
  · intro k hmem
    rcases mem_cons.mp hmem with heq | hmem
    · cases heq
      exact ⟨w.nGenerated, lt_succ_self _, rfl⟩
    · exact drawn_succ (h.logged hmem)

section Step

variable [DecidableEq κ]

theorem mem_of_oldestIndex {s : Finset Int} (h : oldestIndex s = some i) : i ∈ s := by
  unfold oldestIndex at h
  split at h
  · rename_i hne
    cases h
    exact s.min'_mem hne
  · cases h

theorem takeIndex_eq (h : w.Safe gen) (hi : i ∈ w.setKeyPool) :
    ∃ k, w.pool.lookup i = some k ∧
      w.takeIndex i = (.reserved i k, { w with setKeyPool := w.setKeyPool.erase i }) := by
  obtain ⟨k, hk⟩ := h.stored hi
  refine ⟨k, hk, ?_⟩
  unfold takeIndex
  simp only [hk, if_pos (h.known (.inl hi) hk)]

section

variable (hgen : Function.Injective gen) (h : w.Safe gen)
include hgen h

/-- `ReserveKeyFromKeyPool` on a safe pool, whose top-up uses no held index, does not throw: it
finds the pool empty or takes an index with its key. -/
theorem reserveKeyFromKeyPool_cases (hfree : ∀ i, w.ToppedUp nKeypoolArg 0 i → ¬ w.Held i) :
    ∃ w1, w1.Safe gen ∧ (w.reserveKeyFromKeyPool gen nKeypoolArg = (.empty, w1) ∨
        ∃ i k, i ∈ w1.setKeyPool ∧ w1.pool.lookup i = some k ∧
          w.reserveKeyFromKeyPool gen nKeypoolArg =
            (.reserved i k, { w1 with setKeyPool := w1.setKeyPool.erase i })) := by
  have hsafe := (made_topUpUnlessLocked hgen nKeypoolArg w).safe h hfree
  refine ⟨_, hsafe, ?_⟩
  unfold reserveKeyFromKeyPool
  rcases hold : oldestIndex (w.topUpUnlessLocked gen nKeypoolArg).setKeyPool with _ | i
  · left
    simp only [hold]
  · right
    have hi := mem_of_oldestIndex hold
    obtain ⟨k, hk, htake⟩ := takeIndex_eq hsafe hi
    exact ⟨i, k, hi, hk, by simp only [hold, htake]⟩

theorem getKeyFromPool_safe (hfree : w.Orderly nKeypoolArg .getKeyFromPool) :
    (w.getKeyFromPool gen nKeypoolArg).1.Safe gen ∧
      (w.getKeyFromPool gen nKeypoolArg).2 = none := by
  obtain ⟨w1, hsafe, hres | ⟨i, k, hi, hk, hres⟩⟩ := reserveKeyFromKeyPool_cases hgen h hfree
  · unfold getKeyFromPool
    simp only [hres]
    split
    · exact ⟨hsafe, rfl⟩
    · exact ⟨safe_generate hsafe hgen, rfl⟩
  · unfold getKeyFromPool
    simp only [hres]
    exact ⟨safe_consume hsafe hi hk, trivial⟩

theorem getReservedKey_safe (holder : Nat) (hfree : w.Orderly nKeypoolArg (.getReservedKey holder)) :
    (w.getReservedKey gen nKeypoolArg holder).1.Safe gen ∧
      (w.getReservedKey gen nKeypoolArg holder).2 = none := by
  rcases hv : w.reserveKeys.lookup holder with _ | ⟨i, v⟩
  · obtain ⟨w1, hsafe, hres | ⟨i, k, hi, hk, hres⟩⟩ :=
      reserveKeyFromKeyPool_cases hgen h fun i hi => hfree i ⟨hv, hi⟩
    · unfold getReservedKey
      simp only [hv, hres]
      exact ⟨hsafe, trivial⟩
    · unfold getReservedKey
      simp only [hv, hres]
      exact ⟨safe_reserve hsafe hi hk holder, trivial⟩
  · -- the object has a reservation already
    obtain ⟨k, rfl, -⟩ := h.heldKey hv
    unfold getReservedKey
    simp only [hv]
    exact ⟨h, trivial⟩

/-- An orderly operation on a safe pool leaves a safe pool and does not throw. -/
theorem step_safe (op : KeyOp) (hfree : w.Orderly nKeypoolArg op) :
    (w.step gen nKeypoolArg op).1.Safe gen ∧ (w.step gen nKeypoolArg op).2 = none := by
  cases op with
  | getReservedKey holder => exact getReservedKey_safe hgen h holder hfree
  | keepKey holder => exact ⟨safe_keepReserved h holder, rfl⟩
  | returnKey holder => exact ⟨safe_returnReserved h holder, rfl⟩
  | topUpKeyPool kpSize => exact ⟨(made_topUpKeyPool hgen kpSize w).safe h hfree, rfl⟩
  | newKeyPool => exact ⟨(made_newKeyPool hgen w).safe h hfree, rfl⟩
  | getKeyFromPool => exact getKeyFromPool_safe hgen h hfree
  | lock => exact ⟨h.setLocked true, rfl⟩
  | unlock => exact ⟨h.setLocked false, rfl⟩

end

end Step

/-! ## Runs -/

/-- A wallet as it is loaded: nothing is reserved, and the indexes of the set have records with
different keys of the key store. -/
structure Loaded (gen : Nat → κ) (w : KeyWallet κ) : Prop extends KeysOk gen w where
  stored : ∀ {i}, i ∈ w.setKeyPool → ∃ k, w.pool.lookup i = some k
  unreserved : w.reserveKeys = ∅
  silent : w.handed = []

theorem Loaded.safe (h : Loaded gen w) : w.Safe gen where
  toKeysOk := h.toKeysOk
  stored := h.stored
  heldKey := by simp [h.unreserved]
  heldOut := by simp [Held, h.unreserved]
  heldOnce := by simp [h.unreserved]
  unused := by simp [h.silent, Outstanding]
  logged := by simp [h.silent]
  separated := by simp [h.silent, Separated]

section Runs

variable [DecidableEq κ]

/-- The wallets reached from a start by orderly operations. -/
inductive OrderlyRun (gen : Nat → κ) (nKeypoolArg : Nat) (w0 : KeyWallet κ) : KeyWallet κ → Prop
  | start : OrderlyRun gen nKeypoolArg w0 w0
  | step {w : KeyWallet κ} (op : KeyOp) (before : OrderlyRun gen nKeypoolArg w0 w)
      (free : w.Orderly nKeypoolArg op) :
      OrderlyRun gen nKeypoolArg w0 (w.step gen nKeypoolArg op).1

/-- **`keyPool_safe_along_runs`** — as long as no operation gives a reserved index to a new key,
every index of the set has a record, between two times a key is handed out it was returned,
and the next operation of that kind does not throw. -/
theorem keyPool_safe_along_runs {w0 : KeyWallet κ} (hgen : Function.Injective gen)
    (hload : Loaded gen w0) (hrun : OrderlyRun gen nKeypoolArg w0 w) :
    (∀ i ∈ w.setKeyPool, (w.pool.lookup i).isSome = true) ∧
      (∀ k newer mid older, w.handed = newer ++ .out k :: mid ++ .out k :: older →
        KeyEvent.back k ∈ mid) ∧
      ∀ op, w.Orderly nKeypoolArg op → (w.step gen nKeypoolArg op).2 = none := by
  have hsafe : w.Safe gen := by
    induction hrun with
    | start => exact hload.safe
    | step op before free ih => exact (step_safe hgen ih op free).1
  refine ⟨?_, ?_, fun op hfree => (step_safe hgen hsafe op hfree).2⟩
  · exact fun i hi => isSome_iff_exists.mpr (hsafe.stored hi)
  · intro k newer mid older heq
    have hsep := hsafe.separated
    rw [heq] at hsep
    exact hsep.returned

end Runs

/-! ## A reserved index is used again -/

/-- With `-keypool=0` the pool holds one key; two reservations at a time both get index one. The
first holder keeps its key, the second returns it. -/
def overlappingKeep : List KeyOp := [.getReservedKey 1, .getReservedKey 2, .keepKey 1, .returnKey 2]

/-- The first holder returns its key, which by then has the record of the second. -/
def overlappingReturn : List KeyOp :=
  [.getReservedKey 1, .getReservedKey 2, .returnKey 1, .getReservedKey 3]

theorem reservedIndex_reused :
    (∃ w, w = run id 0 overlappingKeep ({} : KeyWallet Nat) ∧ 1 ∈ w.setKeyPool ∧
        w.pool.lookup 1 = none ∧ (w.step id 0 (.getReservedKey 3)).2 = some .readFailed) ∧
      (run id 0 overlappingReturn ({} : KeyWallet Nat)).handed =
        [.out 1, .back 0, .out 1, .out 0] := by
  refine ⟨⟨_, rfl, ?_⟩, ?_⟩ <;> decide +kernel

theorem held_iff : w.Held i ↔ ∃ r ∈ w.reserveKeys.entries, r.2.1 = i := by
  constructor
  · rintro ⟨holder, v, hv⟩
    exact ⟨_, mem_lookup_iff.mp hv, rfl⟩
  · rintro ⟨⟨holder, i, v⟩, hr, rfl⟩
    exact ⟨holder, v, mem_lookup_iff.mpr hr⟩

/-- With `-keypool=1`, and so two keys in the pool, the same operations do not collide, and
neither does the next one. -/
theorem keyPool_safe_along_runs_reserve :
    ∃ w, w = run id 1 overlappingKeep ({} : KeyWallet Nat) ∧
      (∀ i ∈ w.setKeyPool, (w.pool.lookup i).isSome = true) ∧
      (w.step id 1 (.getReservedKey 3)).2 = none := by
  have hload : Loaded id ({} : KeyWallet Nat) :=
    ⟨⟨by simp, by simp, by simp⟩, by simp, rfl, rfl⟩
  -- the greatest held index is below the next one
  have hfree : ∀ {w : KeyWallet Nat} {holder : Nat},
      (∀ r ∈ w.reserveKeys.entries, r.2.1 < nextIndex w.setKeyPool) →
      w.Orderly 1 (.getReservedKey holder) := by
    intro w holder hbelow i hi hheld
    obtain ⟨r, hr, rfl⟩ := held_iff.mp hheld
    exact absurd (hbelow r hr) (not_lt_of_ge hi.2.2.1)
  have hrun : OrderlyRun id 1 ({} : KeyWallet Nat)
      (run id 1 overlappingKeep ({} : KeyWallet Nat)) := by
    refine .step (.returnKey 2) (.step (.keepKey 1) (.step (.getReservedKey 2)
      (.step (.getReservedKey 1) .start (hfree ?_)) (hfree ?_)) ?_) ?_
    · decide
    · decide +kernel
    · exact fun i hi => hi.elim
    · exact fun i hi => hi.elim
  have hsafe := keyPool_safe_along_runs Function.injective_id hload hrun
  exact ⟨_, rfl, hsafe.1, hsafe.2.2 _ (hfree (by decide +kernel))⟩

end KeyWallet

end MonetaryUnit
