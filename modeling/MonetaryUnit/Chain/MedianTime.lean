/-
# MonetaryUnit.Chain.MedianTime — the median time past never goes back

A block has to be later than the median of the last eleven blocks before it. Its own time may
still be before that of its predecessor, and the window both grows, on a short chain, and loses
its oldest time, whatever that is. The median does not go back: the new time is above it, so no
more times than before are below it.
-/

import MonetaryUnit.Chain.BlockIndex
import MonetaryUnit.Lib.OrderStatistic

namespace MonetaryUnit

open Lib List

/-- `UpdateTime`; a time that does not fit is cut off to 32 bits. -/
def updateTime (fAllowMinDifficultyBlocks : Bool)
    (getNextWorkRequired : List CBlockIndex → CBlockHeader → UInt32) (getAdjustedTime : Int)
    (pblock : CBlockHeader) (pindexPrev : List CBlockIndex) : CBlockHeader :=
  let pblock := { pblock with
    nTime := UInt32.ofInt (max (getMedianTimePast pindexPrev + 1) getAdjustedTime) }
  if fAllowMinDifficultyBlocks then
    { pblock with nBits := getNextWorkRequired pindexPrev pblock }
  else pblock

/-- Every block behind the first passes the check for `time-too-old`. -/
def TimeRule (chain : List CBlockIndex) : Prop :=
  ∀ b prev, b :: prev <:+ chain → prev ≠ [] → getMedianTimePast prev < b.getBlockTime

section Window

variable {prev : List CBlockIndex} {b : CBlockIndex}

theorem le_getMedianTimePast_iff (h : prev ≠ []) (v : Int) : v ≤ getMedianTimePast prev ↔
      ((prev.take 11).map CBlockIndex.getBlockTime).countP (· < v) ≤ (prev.take 11).length / 2 := by
  have hpos := length_pos_iff.mpr h
  rw [getMedianTimePast, length_mergeSort, length_map]
  apply le_kth_iff
  rw [length_map, length_take]
  omega

theorem getMedianTimePast_le_cons (hprev : prev ≠ [])
    (h : getMedianTimePast prev < b.getBlockTime) :
    getMedianTimePast prev ≤ getMedianTimePast (b :: prev) := by
  have hbelow := (le_getMedianTimePast_iff hprev (getMedianTimePast prev)).mp le_rfl
  have hsub : prev.take 10 <+ prev.take 11 := (take_prefix_take_left (by decide)).sublist
  rw [le_getMedianTimePast_iff (cons_ne_nil b prev), take_succ_cons, map_cons,
    countP_cons_of_neg (by simpa using h.le)]
  apply ((hsub.map _).countP_le.trans hbelow).trans
  apply Nat.div_le_div_right
  simp only [length_cons, length_take]
  omega

end Window

/-- **`medianTimePast_monotone`** — along a chain that keeps the rule the median time past never
goes back, and `UpdateTime` gives a time that keeps the rule. -/
theorem medianTimePast_monotone :
    (∀ chain older newer, TimeRule chain → newer <:+ chain → older <:+ newer → older ≠ [] →
      getMedianTimePast older ≤ getMedianTimePast newer) ∧
    ∀ fAllowMinDifficultyBlocks getNextWorkRequired getAdjustedTime pblock tip,
      getMedianTimePast tip < 2 ^ 32 - 1 → getAdjustedTime ≤ 2 ^ 32 - 1 →
      getMedianTimePast tip < ((updateTime fAllowMinDifficultyBlocks getNextWorkRequired
        getAdjustedTime pblock tip).nTime.toNat : Int) := by
  constructor
  · intro chain older newer hrule hnewer holder hne
    induction newer with
    | nil => exact absurd (suffix_nil.mp holder) hne
    | cons b prev ih =>
      rcases suffix_cons_iff.mp holder with rfl | holder
      · exact le_rfl
      · have hprev : prev ≠ [] := by
          rintro rfl
          exact hne (suffix_nil.mp holder)
        exact (ih ((suffix_cons b prev).trans hnewer) holder).trans
          (getMedianTimePast_le_cons hprev (hrule b prev hnewer hprev))
  · intro fAllow getNextWorkRequired adjusted pblock tip hmedian hadjusted
    have htime : (updateTime fAllow getNextWorkRequired adjusted pblock tip).nTime.toNat =
        (max (getMedianTimePast tip + 1) adjusted % 2 ^ 32).toNat % 2 ^ 32 := by
      cases fAllow <;> rfl
    omega

/-- Fourteen blocks by their times, the newest first. Some are earlier than the block before
them. -/
def restlessChain : List CBlockIndex :=
  [25, 11, 22, 11, 19, 10, 16, 9, 13, 8, 10, 7, 6, 3].map fun nTime => ⟨none, 0, 1, 0, nTime, 0, 0⟩

theorem restlessChain_timeRule : TimeRule restlessChain := by
  have hlate : ∀ l ∈ restlessChain.tails, ∀ b ∈ l.head?, l.tail ≠ [] →
      ¬ ((l.tail.take 11).map CBlockIndex.getBlockTime).countP (· < b.getBlockTime) ≤
        (l.tail.take 11).length / 2 := by decide
  intro b prev h hne
  have hb := hlate (b :: prev) ((mem_tails _ _).mpr h) b rfl hne
  rwa [tail_cons, ← le_getMedianTimePast_iff hne, not_le] at hb

/-- The median of the first eleven blocks and that of the last eleven. -/
theorem medianTimePast_restlessChain :
    getMedianTimePast (restlessChain.drop 3) ≤ getMedianTimePast restlessChain :=
  medianTimePast_monotone.1 restlessChain _ _ restlessChain_timeRule (suffix_refl _)
    (drop_suffix 3 _) (by decide)

end MonetaryUnit
