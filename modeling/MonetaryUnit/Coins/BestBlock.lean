/-
# MonetaryUnit.Coins.BestBlock — the best block of a stack of caches

Every level of a stack has a field for the best block, in which the null hash stands for "not
fetched yet", and `Flush` hands the raw field of a cache to the level below. The database leaves
its best block alone when it is handed the null hash. A cache stores it, and so forgets what was
set there: `flush_forgets_bestBlock`. The base of the stack is any view that records the best
blocks it is handed; the database is one.
-/

import MonetaryUnit.Validation.View

namespace MonetaryUnit

open List

section Runs

variable {σ : Type} (V : CCoinsView σ)

/-- The base records a best block that it is handed. The null hash is left to it: the database
keeps its best block then, the view of the unit tests stores the null hash. -/
def RecordsBest : Prop := ∀ s m h, h ≠ 0 → V.getBestBlock (V.batchWrite s m h) = h

/-- The cache that is flushed has a best block of its own, or the field that it resets is not
missed: a parent repeats what is below it or has not fetched it, a base ignores the null hash. -/
def CarriesBest (s : σ) (c : CCoinsViewCache) : List CCoinsViewCache → Prop
  | [] => c.hashBlock ≠ 0 ∨ V.getBestBlock (V.batchWrite s c.cacheCoins 0) = V.getBestBlock s
  | parent :: below =>
    c.hashBlock ≠ 0 ∨ parent.hashBlock = 0 ∨ parent.hashBlock = bestBlock V s below

/-- The stacks that runs over the base `s0` reach, each with the register they stand for:
`SetBestBlock` writes it and nothing else changes it. Flushes meet `Meets`. -/
inductive BestRun (Meets : σ → CCoinsViewCache → List CCoinsViewCache → Prop) (s0 : σ) :
    CoinsStack σ → Uint256 → Prop
  | start : BestRun Meets s0 ⟨[], s0⟩ (V.getBestBlock s0)
  | setBestBlock {c below s best} (hash : Uint256) : BestRun Meets s0 ⟨c :: below, s⟩ best →
      hash ≠ 0 → BestRun Meets s0 ⟨{ c with hashBlock := hash } :: below, s⟩ hash
  | getBestBlock {caches s best} : BestRun Meets s0 ⟨caches, s⟩ best →
      BestRun Meets s0 ⟨(getBestBlock V s caches).2, s⟩ best
  | edit {c below s best u c' below'} (txid : Uint256) (f : CCoins → Unit × CCoins) :
      BestRun Meets s0 ⟨c :: below, s⟩ best →
      editCoins V s txid f c below = .ok (u, c', below') →
      BestRun Meets s0 ⟨c' :: below', s⟩ best
  | push {caches s best} : BestRun Meets s0 ⟨caches, s⟩ best →
      BestRun Meets s0 ⟨{} :: caches, s⟩ best
  | flushPop {c below s best st} : BestRun Meets s0 ⟨c :: below, s⟩ best → Meets s c below →
      flush V s c below = .ok st →
      BestRun Meets s0 ⟨st.caches.tail, st.base⟩ best

variable {V} {s s0 : σ} {c : CCoinsViewCache} {below : List CCoinsViewCache}
  {st st' : CoinsStack σ} {best : Uint256}

/-- After a flush the levels below show what the stack showed, if and only if the flush carries
the best block. -/
theorem flush_carries_iff (hV : RecordsBest V) (hc : Coherent V s (c :: below))
    (hflush : flush V s c below = .ok st) :
    bestBlock V st.base st.caches.tail = bestBlock V s (c :: below) ↔ CarriesBest V s c below := by
  cases below with
  | nil =>
    obtain rfl := Except.ok.inj hflush
    rw [bestBlock, bestBlock]
    split_ifs with h0
    · exact ⟨fun h => .inr (h0 ▸ h), fun h => h0 ▸ h.resolve_left (absurd h0)⟩
    · exact iff_of_true (hV _ _ _ h0) (.inl h0)
  | cons parent below =>
    obtain ⟨parent', hw, hhash, -⟩ := batchWrite_spec hc c.hashBlock
    rw [flush, hw] at hflush
    obtain rfl := Except.ok.inj hflush
    rw [tail_cons, bestBlock, bestBlock, hhash]
    split_ifs with h0
    · rw [bestBlock]
      split_ifs with hp
      · exact iff_of_true rfl (.inr (.inl hp))
      · exact ⟨fun h => .inr (.inr h.symm),
          fun h => ((h.resolve_left (absurd h0)).resolve_left hp).symm⟩
    · exact iff_of_true rfl (.inl h0)

/-- The register is what the stack shows, as long as the flushes carry it. -/
theorem BestRun.shows (hV : RecordsBest V) (h : BestRun V (CarriesBest V) s0 st best) :
    Coherent V st.base st.caches ∧ bestBlock V st.base st.caches = best := by
  induction h with
  | start => exact ⟨trivial, rfl⟩
  | setBestBlock hash _ hne ih => exact ⟨ih.1, if_neg hne⟩
  | getBestBlock _ ih =>
    exact ⟨getBestBlock_coherent ih.1, (getBestBlock_spec _).2.1.trans ih.2⟩
  | edit txid f _ hedit ih =>
    obtain ⟨r, he, hr⟩ := editCoins_spec ih.1 txid f
    obtain rfl := Except.ok.inj (he.symm.trans hedit)
    exact ⟨hr.coherent, (bestBlock_congr hr.hashBlocks).trans ih.2⟩
  | push _ ih => exact ⟨coherent_push ih.1 0, ih.2⟩
  | flushPop _ hcarries hflush ih =>
    obtain ⟨rest, s', hf, hfl⟩ := flush_spec ih.1
    have hbest := (flush_carries_iff hV ih.1 hflush).mpr hcarries
    obtain rfl := Except.ok.inj (hf.symm.trans hflush)
    exact ⟨hfl.coherent, hbest.trans ih.2⟩

/-- **`bestBlock_follows_flushes`** — in every stack that a run reaches whose flushes carry the
best block, `GetBestBlock` returns the register; and the next flush keeps it exactly if it
carries it. -/
theorem bestBlock_follows_flushes (hV : RecordsBest V)
    (h : BestRun V (CarriesBest V) s0 st best) :
    (getBestBlock V st.base st.caches).1 = best ∧
      ∀ c below, st.caches = c :: below → ∃ st', flush V st.base c below = .ok st' ∧
        ((getBestBlock V st'.base st'.caches.tail).1 = best ↔ CarriesBest V st.base c below) := by
  obtain ⟨hc, hbest⟩ := h.shows hV
  refine ⟨(getBestBlock_spec _).1.trans hbest, fun c below hcaches => ?_⟩
  rw [hcaches] at hc hbest
  obtain ⟨rest, s', hf, -⟩ := flush_spec hc
  refine ⟨_, hf, ?_⟩
  rw [(getBestBlock_spec _).1, ← hbest]
  exact flush_carries_iff hV hc hf

end Runs

theorem coinsViewDB_recordsBest : RecordsBest coinsViewDB := fun _ _ _ h => if_pos h

/-- An edit that leaves one output. -/
def leaveOneOutput (c : CCoins) : Unit × CCoins := ((), { c with vout := [⟨1, []⟩] })

/-- A best block is set in a cache and fetched in its child, the child is edited and flushed, and
the cache still has its best block. -/
theorem bestBlock_follows_childFlush : ∃ child st,
    editCoins coinsViewDB { hashBestChain := 5 } 9 leaveOneOutput { hashBlock := 1 }
        [{ hashBlock := 1 }] = .ok ((), child, [{ hashBlock := 1 }]) ∧
      flush coinsViewDB { hashBestChain := 5 } child [{ hashBlock := 1 }] = .ok st ∧
      (getBestBlock coinsViewDB st.base st.caches.tail).1 = 1 := by
  refine ⟨_, _, rfl, rfl, ?_⟩
  have hset : BestRun coinsViewDB (CarriesBest coinsViewDB) { hashBestChain := 5 } _ 1 :=
    .setBestBlock 1 (.push .start) (by decide)
  exact (bestBlock_follows_flushes coinsViewDB_recordsBest
    (.flushPop (.edit 9 leaveOneOutput (.getBestBlock (.push hset)) rfl) (.inl (by decide)) rfl)).1

/-- A child on which neither `SetBestBlock` nor `GetBestBlock` was called is flushed, and its
parent is back at the best block of the database. -/
theorem flush_forgets_bestBlock : ∃ st,
    BestRun coinsViewDB (fun _ _ _ => True) { hashBestChain := 5 } st 1 ∧
    (getBestBlock coinsViewDB st.base st.caches).1 = 5 :=
  ⟨_, .flushPop (.push (.setBestBlock 1 (.push .start) (by decide))) trivial rfl, by decide⟩

end MonetaryUnit
