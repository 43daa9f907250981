/-
# MonetaryUnit.Net.OrphanPool — transactions whose parents are missing

`mapOrphanTransactions` and `mapOrphanTransactionsByPrev` of `main.cpp`, with `AddOrphanTx`,
`EraseOrphanTx`, `EraseOrphansFor` and `LimitOrphanTxSize`.

The second map is the inverse index of the first (`Indexed`). Both are walked in the order of their
keys: the sweep over one peer's orphans takes the next position before it erases, and an eviction
starts at a random hash. A position that is no longer in the map when it is read, or the end of the
map, makes the model `none`; no run gets there (`orphanPool_correct`).
-/

import MonetaryUnit.Serialize.Wire
import MonetaryUnit.Net.InFlight

namespace MonetaryUnit

open Lib List Nat

/-! ## The two maps -/

structure COrphanTx where
  tx : CTransaction
  fromPeer : NodeId

abbrev PrevIndex := AList (fun _ : Uint256 => Finset Uint256)

/-- The orphans, and which of them spend outputs of a transaction. -/
structure OrphanPool where
  mapOrphanTransactions : AList (fun _ : Uint256 => COrphanTx) := ∅
  mapOrphanTransactionsByPrev : PrevIndex := ∅

/-- `mapOrphanTransactionsByPrev[prev].insert(hash)`. -/
def PrevIndex.insertUnder (hash : Uint256) (m : PrevIndex) (prev : Uint256) : PrevIndex :=
  m.insert prev (insert hash ((m.lookup prev).getD ∅))

/-- The body of the loop of `EraseOrphanTx`: a set that becomes empty goes with its key. -/
def PrevIndex.eraseUnder (hash : Uint256) (m : PrevIndex) (prev : Uint256) : PrevIndex :=
  match m.lookup prev with
  | none => m
  | some hashes =>
    if hashes.erase hash = ∅ then m.erase prev else m.insert prev (hashes.erase hash)

/-- The hashes that the inputs refer to, in the order of the inputs and with repetitions. -/
def CTransaction.prevHashes (tx : CTransaction) : List Uint256 :=
  tx.vin.map fun txin => txin.prevout.hash

namespace OrphanPool

def size (s : OrphanPool) : Nat := s.mapOrphanTransactions.entries.length

/-- Keep an orphan of at most 5000 bytes. -/
def addOrphanTx (tx : CTransaction) (peer : NodeId) (s : OrphanPool) : Bool × OrphanPool :=
  let hash := tx.getHash
  if hash ∈ s.mapOrphanTransactions then (false, s)
  else if 5000 < freeGetSerializeSize tx.getSerializeSize then (false, s)
  else
    (true,
      { mapOrphanTransactions := s.mapOrphanTransactions.insert hash ⟨tx, peer⟩
        mapOrphanTransactionsByPrev :=
          tx.prevHashes.foldl (PrevIndex.insertUnder hash) s.mapOrphanTransactionsByPrev })

/-- Remove an orphan from both maps. -/
def eraseOrphanTx (hash : Uint256) (s : OrphanPool) : OrphanPool :=
  match s.mapOrphanTransactions.lookup hash with
  | none => s
  | some orphan =>
    { mapOrphanTransactions := s.mapOrphanTransactions.erase hash
      mapOrphanTransactionsByPrev :=
        orphan.tx.prevHashes.foldl (PrevIndex.eraseUnder hash) s.mapOrphanTransactionsByPrev }

/-- The loop of `EraseOrphansFor`, at the position `iter`. -/
def eraseOrphansLoop (peer : NodeId) : Nat → Option Uint256 → OrphanPool → Option OrphanPool
  | _, none, s => some s
  | 0, some _, _ => none
  | n + 1, some iter, s =>
    let next := upperBound BitVec.toNat s.mapOrphanTransactions iter
    match s.mapOrphanTransactions.lookup iter with
    | none => none
    | some orphan =>
      eraseOrphansLoop peer n next
        (if orphan.fromPeer = peer then s.eraseOrphanTx orphan.tx.getHash else s)

/-- Remove all orphans of a peer. -/
def eraseOrphansFor (peer : NodeId) (s : OrphanPool) : Option OrphanPool :=
  eraseOrphansLoop peer s.size (firstKey BitVec.toNat s.mapOrphanTransactions) s

/-- The loop of `LimitOrphanTxSize`; `rand` is what `GetRandHash` returns from here on. -/
def limitLoop (nMaxOrphans : Nat) :
    Nat → (Nat → Uint256) → Nat → OrphanPool → Option (Nat × OrphanPool)
  | 0, _, _, _ => none
  | n + 1, rand, nEvicted, s =>
    if nMaxOrphans < s.size then
      match (lowerBound BitVec.toNat s.mapOrphanTransactions (rand 0)).or
          (firstKey BitVec.toNat s.mapOrphanTransactions) with
      | none => none
      | some key =>
        limitLoop nMaxOrphans n (fun i => rand (i + 1)) (nEvicted + 1) (s.eraseOrphanTx key)
    else some (nEvicted, s)

/-- Evict at random until the limit holds. -/
def limitOrphanTxSize (nMaxOrphans : Nat) (rand : Nat → Uint256) (s : OrphanPool) :
    Option (Nat × OrphanPool) :=
  limitLoop nMaxOrphans (s.size + 1) rand 0 s

end OrphanPool

/-! ## The index under insertions and erasures -/

namespace PrevIndex

variable {m : PrevIndex} {hash prev q : Uint256} {ps : List Uint256}

/-- The hashes under a key; none if the key is missing. -/
def under (m : PrevIndex) (prev : Uint256) : Finset Uint256 := (m.lookup prev).getD ∅

/-- No key has an empty set. -/
def NoEmpty (m : PrevIndex) : Prop := ∀ prev, m.lookup prev ≠ some ∅

/-- One key gets these hashes, or goes if there are none. -/
def Sets (m m' : PrevIndex) (prev : Uint256) (hashes : Finset Uint256) : Prop :=
  ∀ q, m'.lookup q = if q = prev then (if hashes = ∅ then none else some hashes) else m.lookup q

theorem insertUnder_sets : Sets m (m.insertUnder hash prev) prev (insert hash (m.under prev)) := by
  intro q
  rw [insertUnder, if_neg (Finset.insert_ne_empty _ _)]
  split_ifs with hq
  · rw [hq, AList.lookup_insert, under]
  · rw [AList.lookup_insert_ne hq]

theorem eraseUnder_sets : Sets m (m.eraseUnder hash prev) prev ((m.under prev).erase hash) := by
  intro q
  rw [eraseUnder, under]
  rcases hl : m.lookup prev with _ | hashes
  · -- An earlier input with the same parent has removed the key already.
    split_ifs with hq hempty
    · rw [hq, hl]
    · exact absurd (Finset.erase_empty hash) hempty
    · rfl
  · dsimp only [Option.getD_some]
    by_cases hq : q = prev
    · rw [if_pos hq, hq]
      split_ifs
      · exact AList.lookup_erase ..
      · exact AList.lookup_insert _
    · split_ifs
      · exact AList.lookup_erase_ne hq
      · exact AList.lookup_insert_ne hq

variable {m' : PrevIndex} {hashes : Finset Uint256} {x : Uint256}

theorem Sets.under_eq (h : Sets m m' prev hashes) :
    m'.under q = if q = prev then hashes else m.under q := by
  rw [under, h q]
  split_ifs with _ hempty
  · exact hempty.symm
  · rfl
  · rfl

theorem Sets.noEmpty (h : Sets m m' prev hashes) (hm : m.NoEmpty) : m'.NoEmpty := by
  intro q hq
  rw [h q] at hq
  split_ifs at hq with _ hempty
  · exact hempty (Option.some_inj.mp hq)
  · exact hm q hq

/-- All inputs of a stored transaction, whether or not a parent is repeated. -/
theorem mem_under_insertAll :
    x ∈ (ps.foldl (insertUnder hash) m).under q ↔ x = hash ∧ q ∈ ps ∨ x ∈ m.under q := by
  induction ps generalizing m with
  | nil => simp only [foldl_nil, not_mem_nil, and_false, false_or]
  | cons p ps ih =>
    rw [foldl_cons, ih, insertUnder_sets.under_eq, mem_cons]
    by_cases hq : q = p
    · rw [if_pos hq, Finset.mem_insert, hq]
      tauto
    · rw [if_neg hq]
      tauto

theorem mem_under_eraseAll :
    x ∈ (ps.foldl (eraseUnder hash) m).under q ↔ x ∈ m.under q ∧ ¬ (x = hash ∧ q ∈ ps) := by
  induction ps generalizing m with
  | nil => simp only [foldl_nil, not_mem_nil, and_false, not_false_eq_true, and_true]
  | cons p ps ih =>
    rw [foldl_cons, ih, eraseUnder_sets.under_eq, mem_cons]
    by_cases hq : q = p
    · rw [if_pos hq, Finset.mem_erase, hq]
      tauto
    · rw [if_neg hq]
      tauto

theorem NoEmpty.insertAll (h : m.NoEmpty) : (ps.foldl (insertUnder hash) m).NoEmpty :=
  foldlRecOn ps _ h fun _ hm _ _ => insertUnder_sets.noEmpty hm

theorem NoEmpty.eraseAll (h : m.NoEmpty) : (ps.foldl (eraseUnder hash) m).NoEmpty :=
  foldlRecOn ps _ h fun _ hm _ _ => eraseUnder_sets.noEmpty hm

end PrevIndex

/-! ## The invariant -/

namespace OrphanPool

variable {s : OrphanPool} {h : Uint256} {iter k : Uint256} {peer : NodeId} {s0 : OrphanPool}

/-- `mapOrphanTransactionsByPrev` is the inverse index of `mapOrphanTransactions`, and every orphan
is stored under its own hash. -/
structure Indexed (s : OrphanPool) : Prop where
  inverse : ∀ p h, h ∈ s.mapOrphanTransactionsByPrev.under p ↔
    ∃ orphan, s.mapOrphanTransactions.lookup h = some orphan ∧ p ∈ orphan.tx.prevHashes
  noEmpty : s.mapOrphanTransactionsByPrev.NoEmpty
  keyed : ∀ h orphan, s.mapOrphanTransactions.lookup h = some orphan → orphan.tx.getHash = h

theorem indexed_empty : Indexed {} where
  inverse := by simp [PrevIndex.under]
  noEmpty := by simp [PrevIndex.NoEmpty]
  keyed := by simp

theorem Indexed.addOrphanTx (hs : s.Indexed) (tx : CTransaction) (peer : NodeId) :
    (s.addOrphanTx tx peer).2.Indexed := by
  rw [OrphanPool.addOrphanTx]
  split_ifs with hknown hbig
  · exact hs
  · exact hs
  · have hnone : s.mapOrphanTransactions.lookup tx.getHash = none := AList.lookup_eq_none.mpr hknown
    refine ⟨fun p h => ?_, hs.noEmpty.insertAll, fun h orphan hl => ?_⟩
    · rw [PrevIndex.mem_under_insertAll, hs.inverse p h]
      by_cases hh : h = tx.getHash
      · subst hh
        simp [hnone]
      · simp [hh]
    · by_cases hh : h = tx.getHash
      · rw [hh, AList.lookup_insert, Option.some_inj] at hl
        rw [← hl, hh]
      · rw [AList.lookup_insert_ne hh] at hl
        exact hs.keyed h orphan hl

/-- What `EraseOrphanTx` does to the stored transactions. -/
theorem lookup_eraseOrphanTx (x : Uint256) : (s.eraseOrphanTx h).mapOrphanTransactions.lookup x =
      if x = h then none else s.mapOrphanTransactions.lookup x := by
  rw [eraseOrphanTx]
  rcases hl : s.mapOrphanTransactions.lookup h with _ | orphan
  · split_ifs with hx
    · rw [hx, hl]
    · rfl
  · split_ifs with hx
    · rw [hx, AList.lookup_erase]
    · rw [AList.lookup_erase_ne hx]

theorem Indexed.eraseOrphanTx (hs : s.Indexed) (h : Uint256) : (s.eraseOrphanTx h).Indexed := by
  have hlook := @lookup_eraseOrphanTx s h
  rw [OrphanPool.eraseOrphanTx] at hlook ⊢
  rcases hl : s.mapOrphanTransactions.lookup h with _ | orphan
  · exact hs
  rw [hl] at hlook
  refine ⟨fun p x => ?_, hs.noEmpty.eraseAll, fun x o hx => ?_⟩
  · rw [PrevIndex.mem_under_eraseAll, hs.inverse p x, hlook x]
    by_cases hx : x = h
    · -- The orphan is listed under the parents of its own inputs and nowhere else.
      subst hx
      simp [hl]
    · simp [hx]
  · rw [hlook x] at hx
    split_ifs at hx with hxh
    exact hs.keyed x o hx

theorem size_eraseOrphanTx (hmem : h ∈ s.mapOrphanTransactions) :
    (s.eraseOrphanTx h).size + 1 = s.size := by
  obtain ⟨orphan, hl⟩ := Option.isSome_iff_exists.mp (AList.lookup_isSome.mpr hmem)
  rw [eraseOrphanTx, hl]
  exact length_entries_erase hl

/-! ## The sweep over one peer's orphans -/

/-- The keys from a position of the sweep on. -/
def keysFrom (s : OrphanPool) (iter : Uint256) : Finset Uint256 :=
  s.mapOrphanTransactions.keys.toFinset.filter fun k => iter.toNat ≤ k.toNat

theorem mem_keysFrom :
    k ∈ s.keysFrom iter ↔ k ∈ s.mapOrphanTransactions ∧ iter.toNat ≤ k.toNat := by
  rw [keysFrom, Finset.mem_filter, mem_toFinset, AList.mem_keys]

theorem mem_iff_lookup : k ∈ s.mapOrphanTransactions ↔ s.mapOrphanTransactions.lookup k ≠ none := by
  rw [← AList.lookup_isSome, Option.isSome_iff_ne_none]

/-- The pool `s` when the sweep that began with `s0` is at `iter`: below that position the orphans
of the peer are gone, and everything else is as it was. -/
structure Swept (peer : NodeId) (s0 : OrphanPool) (iter : Option Uint256) (s : OrphanPool) :
    Prop where
  indexed : s.Indexed
  position : ∀ i, iter = some i → i ∈ s.mapOrphanTransactions
  behind : ∀ k, (∀ i, iter = some i → k.toNat < i.toNat) → s.mapOrphanTransactions.lookup k =
    (s0.mapOrphanTransactions.lookup k).filter fun orphan => decide (orphan.fromPeer ≠ peer)
  ahead : ∀ i, iter = some i → ∀ k, i.toNat ≤ k.toNat →
    s.mapOrphanTransactions.lookup k = s0.mapOrphanTransactions.lookup k

/-- One position: the orphan there is removed if it is the peer's, and the position after it is
still in the map. -/
theorem Swept.step {orphan : COrphanTx} (hw : Swept peer s0 (some iter) s)
    (horphan : s.mapOrphanTransactions.lookup iter = some orphan) :
    Swept peer s0 (upperBound BitVec.toNat s.mapOrphanTransactions iter)
      (if orphan.fromPeer = peer then s.eraseOrphanTx orphan.tx.getHash else s) := by
  have hkey : orphan.tx.getHash = iter := hw.indexed.keyed iter orphan horphan
  rw [hkey]
  have hlook : ∀ k,
      (if orphan.fromPeer = peer then s.eraseOrphanTx iter else s).mapOrphanTransactions.lookup k =
        if orphan.fromPeer = peer ∧ k = iter then none
        else s.mapOrphanTransactions.lookup k := by
    intro k
    by_cases hp : orphan.fromPeer = peer
    · rw [if_pos hp, lookup_eraseOrphanTx]
      simp only [hp, true_and]
    · rw [if_neg hp, if_neg fun h => hp h.1]
  have hafter : ∀ i, upperBound BitVec.toNat s.mapOrphanTransactions iter = some i →
      i ∈ s.mapOrphanTransactions ∧ iter.toNat < i.toNat := by
    intro i hi
    obtain ⟨hmem, hlt, -⟩ := leastKey_eq_some hi
    exact ⟨hmem, of_decide_eq_true hlt⟩
  refine ⟨?_, fun i hi => ?_, fun k hk => ?_, fun i hi k hk => ?_⟩
  · split_ifs
    · exact hw.indexed.eraseOrphanTx iter
    · exact hw.indexed
  · obtain ⟨hmem, hlt⟩ := hafter i hi
    rw [mem_iff_lookup, hlook i, if_neg fun h => (h.2 ▸ hlt).ne rfl, ← mem_iff_lookup]
    exact hmem
  · rw [hlook k]
    rcases lt_trichotomy k.toNat iter.toNat with hlt | heq | hgt
    · rw [if_neg fun h => (h.2 ▸ hlt).ne rfl]
      exact hw.behind k fun i hi => Option.some_inj.mp hi ▸ hlt
    · obtain rfl : k = iter := BitVec.eq_of_toNat_eq heq
      rw [← hw.ahead k rfl k le_rfl, horphan, Option.filter_some]
      by_cases hp : orphan.fromPeer = peer
      · rw [if_pos ⟨hp, rfl⟩, if_neg (by simpa using hp)]
      · rw [if_neg fun h => hp h.1, if_pos (by simpa using hp)]
    · -- Between this position and the next one there is no key.
      have hnone := AList.lookup_eq_none.mpr (notMem_of_lt_leastKey hk (decide_eq_true hgt))
      rw [if_neg fun h => (h.2 ▸ hgt).ne rfl, ← hw.ahead iter rfl k hgt.le, hnone,
        Option.filter_none]
  · obtain ⟨-, hlt⟩ := hafter i hi
    have hne : k ≠ iter := fun h => by
      rw [h] at hk
      omega
    rw [hlook k, if_neg fun h => hne h.2]
    exact hw.ahead iter rfl k (hlt.le.trans hk)

/-- The positions ahead get fewer with every step. -/
theorem card_keysFrom_lt {i : Uint256} {s' : OrphanPool} (hiter : iter ∈ s.mapOrphanTransactions)
    (hsub : ∀ k, k ∈ s'.mapOrphanTransactions → k ∈ s.mapOrphanTransactions)
    (hlt : iter.toNat < i.toNat) : (s'.keysFrom i).card < (s.keysFrom iter).card := by
  refine Finset.card_lt_card ((Finset.ssubset_iff_of_subset fun k hk => ?_).mpr
    ⟨iter, mem_keysFrom.mpr ⟨hiter, le_rfl⟩, fun h => ?_⟩)
  · obtain ⟨hmem, hle⟩ := mem_keysFrom.mp hk
    exact mem_keysFrom.mpr ⟨hsub k hmem, hlt.le.trans hle⟩
  · exact absurd (mem_keysFrom.mp h).2 (not_le.mpr hlt)

theorem eraseOrphansLoop_spec {n : Nat} {iter : Option Uint256} (hw : Swept peer s0 iter s)
    (hn : ∀ i, iter = some i → (s.keysFrom i).card ≤ n) :
    ∃ s', eraseOrphansLoop peer n iter s = some s' ∧ Swept peer s0 none s' := by
  induction n generalizing iter s with
  | zero =>
    rcases iter with _ | i
    · exact ⟨s, rfl, hw⟩
    · have hin := mem_keysFrom.mpr ⟨hw.position i rfl, le_rfl⟩
      have hpos := Finset.card_pos.mpr ⟨i, hin⟩
      have hzero := hn i rfl
      omega
  | succ n ih =>
    rcases iter with _ | i
    · exact ⟨s, rfl, hw⟩
    obtain ⟨orphan, horphan⟩ :=
      Option.isSome_iff_exists.mp (AList.lookup_isSome.mpr (hw.position i rfl))
    have hstep := hw.step horphan
    rw [eraseOrphansLoop]
    rw [horphan]
    refine ih hstep fun j hj => ?_
    have hlt : i.toNat < j.toNat := of_decide_eq_true (leastKey_eq_some hj).2.1
    have hsub : ∀ k, k ∈ (if orphan.fromPeer = peer then s.eraseOrphanTx orphan.tx.getHash
        else s).mapOrphanTransactions → k ∈ s.mapOrphanTransactions := by
      intro k hk
      split_ifs at hk
      · rw [mem_iff_lookup, lookup_eraseOrphanTx] at hk
        rw [mem_iff_lookup]
        exact fun hnone => hk (by rw [hnone, ite_self])
      · exact hk
    have hcard := card_keysFrom_lt (hw.position i rfl) hsub hlt
    have hle := hn i rfl
    omega

/-- The sweep ends, and what is left are exactly the orphans of the
other peers. -/
theorem eraseOrphansFor_spec (hs : s.Indexed) (peer : NodeId) :
    ∃ s', s.eraseOrphansFor peer = some s' ∧ s'.Indexed ∧
      ∀ h, s'.mapOrphanTransactions.lookup h = (s.mapOrphanTransactions.lookup h).filter
        fun orphan => decide (orphan.fromPeer ≠ peer) := by
  have hstart : Swept peer s (firstKey BitVec.toNat s.mapOrphanTransactions) s := by
    refine ⟨hs, fun i hi => (leastKey_eq_some hi).1, fun k hk => ?_, fun _ _ _ _ => rfl⟩
    rw [AList.lookup_eq_none.mpr (notMem_of_lt_leastKey hk rfl), Option.filter_none]
  have hfuel : ∀ i, firstKey BitVec.toNat s.mapOrphanTransactions = some i →
      (s.keysFrom i).card ≤ s.size := by
    intro i _
    refine (Finset.card_filter_le _ _).trans ((toFinset_card_le _).trans ?_)
    rw [AList.keys, keys, length_map, size]
  obtain ⟨s', heq, hw⟩ := eraseOrphansLoop_spec hstart hfuel
  exact ⟨s', heq, hw.indexed, fun h => hw.behind h (by simp)⟩

/-! ## Eviction -/

/-- One eviction removes one orphan, whatever the random hash is. -/
theorem limitLoop_spec {nMax n nEvicted : Nat} {rand : Nat → Uint256} (hs : s.Indexed)
    (hn : s.size < n) :
    ∃ k s', limitLoop nMax n rand nEvicted s = some (nEvicted + k, s') ∧ s'.Indexed ∧
      s'.size = min s.size nMax ∧ k + s'.size = s.size := by
  induction n generalizing s rand nEvicted with
  | zero => exact absurd hn (not_lt_zero _)
  | succ n ih =>
    rw [limitLoop]
    split_ifs with hbig
    · have hne : s.mapOrphanTransactions.entries ≠ [] := fun hnil => by
        rw [size, hnil] at hbig
        exact absurd hbig (not_lt_zero _)
      obtain ⟨key, hmem, hkey⟩ := @lowerBound_or_firstKey _ _ _ _ BitVec.toNat _ hne (rand 0)
      rw [hkey]
      dsimp only
      have hsize := size_eraseOrphanTx hmem
      obtain ⟨k, s', heq, hidx, hmin, hsum⟩ :=
        @ih _ (nEvicted + 1) (fun i => rand (i + 1)) (hs.eraseOrphanTx key) (by omega)
      refine ⟨k + 1, s', ?_, hidx, by omega, by omega⟩
      rw [heq, add_assoc, add_comm 1 k]
    · exact ⟨0, s, rfl, hs, by omega, by omega⟩

theorem limitOrphanTxSize_spec (hs : s.Indexed) (nMax : Nat) (rand : Nat → Uint256) :
    ∃ k s', s.limitOrphanTxSize nMax rand = some (k, s') ∧ s'.Indexed ∧
      s'.size = min s.size nMax ∧ k + s'.size = s.size := by
  have hrun := @limitLoop_spec s nMax (s.size + 1) 0 rand hs (lt_succ_self _)
  simpa only [limitOrphanTxSize, zero_add] using hrun

/-! ## Runs -/

inductive Call where
  | addOrphanTx (tx : CTransaction) (peer : NodeId)
  | eraseOrphanTx (hash : Uint256)
  | eraseOrphansFor (peer : NodeId)
  | limitOrphanTxSize (nMaxOrphans : Nat) (rand : Nat → Uint256)

def call (s : OrphanPool) : Call → Option OrphanPool
  | .addOrphanTx tx peer => some (s.addOrphanTx tx peer).2
  | .eraseOrphanTx hash => some (s.eraseOrphanTx hash)
  | .eraseOrphansFor peer => s.eraseOrphansFor peer
  | .limitOrphanTxSize nMaxOrphans rand => (s.limitOrphanTxSize nMaxOrphans rand).map Prod.snd

theorem Indexed.call (hs : s.Indexed) (c : Call) : ∃ s', s.call c = some s' ∧ s'.Indexed := by
  cases c with
  | addOrphanTx tx peer => exact ⟨_, rfl, hs.addOrphanTx tx peer⟩
  | eraseOrphanTx hash => exact ⟨_, rfl, hs.eraseOrphanTx hash⟩
  | eraseOrphansFor peer =>
    obtain ⟨s', heq, hidx, -⟩ := eraseOrphansFor_spec hs peer
    exact ⟨s', heq, hidx⟩
  | limitOrphanTxSize nMax rand =>
    obtain ⟨k, s', heq, hidx, -⟩ := limitOrphanTxSize_spec hs nMax rand
    refine ⟨s', ?_, hidx⟩
    rw [OrphanPool.call, heq, Option.map_some]

theorem indexed_run (calls : List Call) : ∀ {s : OrphanPool}, s.Indexed →
    ∃ s', calls.foldlM OrphanPool.call s = some s' ∧ s'.Indexed := by
  induction calls with
  | nil => exact fun {s} hs => ⟨s, rfl, hs⟩
  | cons c calls ih =>
    intro s hs
    obtain ⟨s1, hcall, hs1⟩ := hs.call c
    obtain ⟨s', hrun, hs'⟩ := ih hs1
    refine ⟨s', ?_, hs'⟩
    rw [foldlM_cons, hcall]
    exact hrun

/-- **`orphanPool_correct`** — after any calls, a hash is listed under a parent exactly if it is a
stored orphan with an input from that parent, no key has an empty set and every orphan is stored
under its own hash. From there `EraseOrphansFor` removes the orphans of the peer and no others,
and `LimitOrphanTxSize` ends with at most the given number and returns how many it removed. -/
theorem orphanPool_correct (calls : List Call) : ∃ s, calls.foldlM OrphanPool.call {} = some s ∧
      (∀ p h, (∃ hashes, s.mapOrphanTransactionsByPrev.lookup p = some hashes ∧ h ∈ hashes) ↔
        ∃ orphan, s.mapOrphanTransactions.lookup h = some orphan ∧
          ∃ txin ∈ orphan.tx.vin, txin.prevout.hash = p) ∧
      (∀ p, s.mapOrphanTransactionsByPrev.lookup p ≠ some ∅) ∧
      (∀ h orphan, s.mapOrphanTransactions.lookup h = some orphan → orphan.tx.getHash = h) ∧
      (∀ peer, ∃ s', s.eraseOrphansFor peer = some s' ∧ ∀ h orphan,
        s'.mapOrphanTransactions.lookup h = some orphan ↔
          s.mapOrphanTransactions.lookup h = some orphan ∧ orphan.fromPeer ≠ peer) ∧
      ∀ nMaxOrphans rand, ∃ nEvicted s',
        s.limitOrphanTxSize nMaxOrphans rand = some (nEvicted, s') ∧
        s'.size = min s.size nMaxOrphans ∧ nEvicted + s'.size = s.size := by
  obtain ⟨s, hrun, hs⟩ := indexed_run calls indexed_empty
  refine ⟨s, hrun, fun p h => ?_, hs.noEmpty, hs.keyed, fun peer => ?_, fun nMaxOrphans rand => ?_⟩
  · have hunder : (∃ hashes, s.mapOrphanTransactionsByPrev.lookup p = some hashes ∧ h ∈ hashes) ↔
        h ∈ s.mapOrphanTransactionsByPrev.under p := by
      rw [PrevIndex.under]
      rcases s.mapOrphanTransactionsByPrev.lookup p with _ | hashes
      · simp
      · simp
    rw [hunder, hs.inverse p h]
    simp only [CTransaction.prevHashes, mem_map]
  · obtain ⟨s', heq, -, hlook⟩ := eraseOrphansFor_spec hs peer
    refine ⟨s', heq, fun h orphan => ?_⟩
    rw [hlook h, Option.filter_eq_some_iff, decide_eq_true_eq]
  · obtain ⟨k, s', heq, -, hmin, hsum⟩ := limitOrphanTxSize_spec hs nMaxOrphans rand
    exact ⟨k, s', heq, hmin, hsum⟩

/-- A transaction with inputs from these parents. -/
def childOf (hash : Uint256) (parents : List Uint256) : CTransaction where
  hash := hash
  nVersion := 1
  vin := parents.map fun parent => ⟨⟨parent, 0⟩, [], 0⟩
  vout := []
  nLockTime := 0
  strTxComment := []

/-- The first orphan has two inputs from parent 1, and the second one shares it. Peer 7 goes, and
with it the first orphan. -/
theorem orphanPool_shared_parent : ∃ s s',
    [Call.addOrphanTx (childOf 20 [1, 1, 2]) 7, .addOrphanTx (childOf 21 [1]) 8].foldlM
      OrphanPool.call {} = some s ∧
    s.mapOrphanTransactionsByPrev.lookup 1 = some {20, 21} ∧ s.eraseOrphansFor 7 = some s' ∧
    s'.mapOrphanTransactions.lookup 20 = none := by
  obtain ⟨s, hs, -, -, -, herase, -⟩ := orphanPool_correct
    [.addOrphanTx (childOf 20 [1, 1, 2]) 7, .addOrphanTx (childOf 21 [1]) 8]
  obtain ⟨s', hs', hleft⟩ := herase 7
  cases hs
  refine ⟨_, s', rfl, by decide +kernel, hs', Option.eq_none_iff_forall_ne_some.mpr ?_⟩
  intro orphan horphan
  obtain ⟨hstored, hpeer⟩ := (hleft 20 orphan).mp horphan
  cases hstored
  exact hpeer rfl

end OrphanPool

end MonetaryUnit
