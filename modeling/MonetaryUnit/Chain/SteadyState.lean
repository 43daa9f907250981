/-
# MonetaryUnit.Chain.SteadyState — what the rules do to a chain that is on time

If all blocks have one target and come exactly as far apart as they should, the target should
stay. It does not. Dark Gravity Wave sums the 23 gaps between the 24 blocks that it reads and
compares them with the time of 24 gaps; the interval rule measures 9 gaps against 10, and its
lower bound on the span, 363 seconds, is below the nominal 400 as well. So both lower the target
by a fraction at every step: `steadyChain_iff` says that only the target zero is kept, which no
block has.
-/

import MonetaryUnit.Chain.Retargeting
import Mathlib.Data.List.Chain

namespace MonetaryUnit

open List Option

/-- Neighbours are the given time apart. -/
def Spaced (spacing : Int) (chain : List CBlockIndex) : Prop :=
  chain.IsChain fun b b' => b.getBlockTime = b'.getBlockTime + spacing

/-- The block unpacks without a flag to the target. -/
def HasTarget (T : Nat) (nBits : UInt32) : Prop :=
  (setCompact nBits).fNegative = false ∧ (setCompact nBits).fOverflow = false ∧
    (setCompact nBits).value.toNat = T

/-! ## The formulas on such a chain -/

section Formulas

variable {spacing : Int} {b : CBlockIndex} {pprev : List CBlockIndex}

/-- The time from a block back to the one `n` blocks before it. -/
theorem Spaced.time_getElem {b' : CBlockIndex} {n : Nat} (h : Spaced spacing (b :: pprev))
    (hget : (b :: pprev)[n]? = some b') : b.getBlockTime - b'.getBlockTime = n * spacing := by
  induction n generalizing b pprev with
  | zero =>
    obtain rfl := some.inj hget
    simp
  | succ n ih =>
    rcases pprev with _ | ⟨c, pprev⟩
    · simp at hget
    · obtain ⟨htime, hrest⟩ := isChain_cons_cons.mp h
      have hback := ih hrest hget
      push_cast
      rw [add_mul, ← hback, htime]
      ring

/-- Every block adds one gap: a block with an older neighbour does not have the time zero, which
the loop takes for no time at all. -/
theorem Spaced.exactSpan_eq (hspacing : 0 < spacing) (h : Spaced spacing (b :: pprev)) :
    exactSpan (b :: pprev) = pprev.length * spacing := by
  induction pprev generalizing b with
  | nil => simp [exactSpan]
  | cons b' pprev ih =>
    obtain ⟨htime, hrest⟩ := isChain_cons_cons.mp h
    have hpos : 0 < b.getBlockTime := by
      have hnonneg : 0 ≤ b'.getBlockTime := Int.natCast_nonneg _
      omega
    rw [exactSpan, if_pos hpos, htime, ih hrest, length_cons]
    push_cast
    ring

theorem exactAverage_const {T k : Int} {bs : List CBlockIndex} (hk : 0 ≤ k)
    (h : ∀ p ∈ bs, blockTarget p = T) : exactAverage T k bs = T := by
  induction bs generalizing k with
  | nil => rfl
  | cons p bs ih =>
    rw [forall_mem_cons] at h
    rw [exactAverage, h.1, ← mul_add_one, Int.mul_ediv_cancel _ (by omega)]
    exact ih (by omega) h.2

end Formulas

/-! ## The result -/

section Steady

variable {net : Network} {T : Nat} {b : CBlockIndex} {pprev : List CBlockIndex}

theorem HasTarget.unpacks {nBits : UInt32} (h : HasTarget T nBits) (hT : (T : Int) ≤ powLimit) :
    Unpacks nBits :=
  ⟨h.1, h.2.1, Int.natCast_nonneg _, h.2.2 ▸ hT⟩

theorem HasTarget.blockTarget_eq {p : CBlockIndex} (h : HasTarget T p.nBits) : blockTarget p = T :=
  congrArg Nat.cast h.2.2

section

variable (hT : (T : Int) ≤ powLimit) (htargets : ∀ p ∈ b :: pprev, HasTarget T p.nBits)
  (hspaced : Spaced 40 (b :: pprev))
include hT htargets hspaced

/-- Dark Gravity Wave keeps 23 parts of 24. -/
theorem waveTarget_steady (hlong : 24 ≤ pprev.length) : waveTarget b pprev = T * 920 / 960 := by
  have haverage : exactAverage (blockTarget b) 2 (pprev.take 23) = T := by
    rw [(htargets b mem_cons_self).blockTarget_eq]
    exact exactAverage_const (by decide) fun p hp =>
      (htargets p (mem_cons_of_mem _ (mem_of_mem_take hp))).blockTarget_eq
  have hspan : exactSpan (b :: pprev.take 23) = 920 := by
    have hlen : (pprev.take 23).length = 23 := by
      rw [length_take]
      omega
    rw [Spaced.exactSpan_eq (by decide) (hspaced.take 24), hlen]
    decide
  rw [waveTarget, haverage, hspan, show max 320 (min 2880 (920 : Int)) = 920 by decide]
  omega

/-- The interval rule takes 360 seconds for 363, out of 400. -/
theorem spanTarget_steady {pindexFirst : CBlockIndex}
    (hfirst : (b :: pprev)[9]? = some pindexFirst) : spanTarget b pindexFirst = T * 363 / 400 := by
  rw [spanTarget, hspaced.time_getElem hfirst, (htargets b mem_cons_self).blockTarget_eq,
    show max 363 (min 800 ((9 : Nat) * 40 : Int)) = 363 by decide]
  omega

end

/-- **`steadyChain_iff`** — on a chain of one target that is on time, the next block is required
to have a target that is lower, unless the target is zero. -/
theorem steadyChain_iff (hnet : net = .main ∨ net = .testnet)
    (hheights : ConsistentHeights (b :: pprev))
    (hT : T ≤ (powParams words net).bnProofOfWorkLimit.toNat)
    (htargets : ∀ p ∈ b :: pprev, HasTarget T p.nBits)
    (hspaced : Spaced (powParams words net).nTargetSpacing (b :: pprev))
    (hstep : WaveStep net b ∨ IntervalStep net b) (pblock : CBlockHeader) :
    ∃ nBits, getNextWorkRequired words (powParams words net) (b :: pprev) pblock = some nBits ∧
      (HasTarget T nBits ↔ T = 0) := by
  have hlimit : ((powParams words net).bnProofOfWorkLimit.toNat : Int) = powLimit :=
    (sameParams hnet).limit
  have hle : (T : Int) ≤ powLimit := hlimit ▸ Int.ofNat_le.mpr hT
  rw [(sameParams hnet).spacing] at hspaced
  have hunpacks : ∀ p ∈ b :: pprev, Unpacks p.nBits := fun p hp => (htargets p hp).unpacks hle
  -- Either way the target that is packed is below `T`, or both are zero.
  obtain ⟨x, hx, hlow, hzero⟩ : ∃ x, nextWork integers (powParams integers net) (b :: pprev) pblock =
      some (.target x) ∧ x ≤ T ∧ (T ≠ 0 → x < T) := by
    rcases hstep with hstep | hstep
    · have hlong : 24 ≤ pprev.length := Int.ofNat_le.mp (hheights.1 ▸ hstep.2)
      obtain ⟨hx, -⟩ := waveStep_target hnet hheights hunpacks hstep pblock le_rfl le_rfl fun p hp =>
        (hunpacks p (mem_of_mem_take hp)).2.2
      rw [waveTarget_steady hle htargets hspaced hlong] at hx
      exact ⟨_, hx, by omega, fun _ => by omega⟩
    · obtain ⟨pindexFirst, hfirst, hx, -⟩ :=
        intervalStep_target hnet hheights hunpacks hstep pblock
      rw [spanTarget_steady hle htargets hspaced hfirst] at hx
      exact ⟨_, hx, by omega, fun _ => by omega⟩
  obtain ⟨work, exact, hwork, hexact, hsame⟩ :=
    nextWork_agrees (sameParams hnet) hheights hunpacks pblock
  obtain rfl := some.inj (hexact.symm.trans hx)
  obtain ⟨c, rfl, hrep⟩ := hsame.of_target
  obtain ⟨nBits, hn, -, ⟨hneg, hover, -⟩, hrounded⟩ := hrep.packed (hlow.trans hle)
  refine ⟨nBits, ?_, ?_, ?_⟩
  · rw [getNextWorkRequired, hwork]
    exact hn
  · rintro ⟨-, -, hval⟩
    omega
  · rintro rfl
    exact ⟨hneg, hover, by omega⟩

end Steady

/-- The greatest target with an exact compact form. -/
def leastDifficulty : Nat := 0x0fffff * 2 ^ 216

theorem hasTarget_leastDifficulty (start n : Nat) :
    ∀ p ∈ evenChain 0x1e0fffff start n, HasTarget leastDifficulty p.nBits := by
  have hbits : HasTarget leastDifficulty 0x1e0fffff := by
    refine ⟨by decide, by decide, ?_⟩
    decide
  intro p hp
  induction n with
  | zero =>
    obtain rfl := mem_singleton.mp hp
    exact hbits
  | succ n ih =>
    rcases mem_cons.mp hp with rfl | hp
    · exact hbits
    · exact ih hp

/-- Twenty-five blocks of the test network, at the least difficulty and on time. -/
theorem evenChain_kept_iff : ∃ nBits, getNextWorkRequired words (powParams words .testnet)
        (evenChain 0x1e0fffff 1444779876 24) emptyHeader = some nBits ∧
      (HasTarget leastDifficulty nBits ↔ leastDifficulty = 0) :=
  steadyChain_iff (.inr rfl)
    (show ConsistentHeights (evenChain 0x1e0fffff 1444779876 24) by decide +kernel)
    (by decide +kernel) (hasTarget_leastDifficulty 1444779876 24)
    (show List.IsChain _ (evenChain 0x1e0fffff 1444779876 24) by decide +kernel)
    (.inl ⟨by decide, by decide⟩) emptyHeader

/-- The next block of these chains is required to have a lower target: after 25 blocks of the test
network, and at the end of the first interval of the main network. -/
theorem evenChain_lowered :
    (∀ p ∈ evenChain 0x1e0fffff 1444779876 24, HasTarget leastDifficulty p.nBits) ∧
    getNextWorkRequired words (powParams words .testnet)
      (evenChain 0x1e0fffff 1444779876 24) emptyHeader = some 0x1e0f5554 ∧
    ¬ HasTarget leastDifficulty 0x1e0f5554 ∧
    getNextWorkRequired words (powParams words .main)
      (evenChain 0x1e0fffff 1444779876 9) emptyHeader = some 0x1e0e851d ∧
    ¬ HasTarget leastDifficulty 0x1e0e851d := by
  have hunpacks : ∀ n, ∀ p ∈ evenChain 0x1e0fffff 1444779876 n, Unpacks p.nBits := fun n p hp =>
    (hasTarget_leastDifficulty _ n p hp).unpacks (by decide)
  have hlower : ∀ n : UInt32, (setCompact n).fOverflow = false →
      compactTarget n ≠ leastDifficulty → ¬ HasTarget leastDifficulty n := fun n hover hne h =>
    hne ((setCompact_value hover).symm.trans h.2.2)
  refine ⟨hasTarget_leastDifficulty _ 24, ?_, hlower _ (by decide) (by decide), ?_,
    hlower _ (by decide) (by decide)⟩
  · obtain ⟨n, hn, hn', -⟩ := getNextWorkRequired_agrees (sameParams (.inr rfl))
      (show ConsistentHeights (evenChain 0x1e0fffff 1444779876 24) by decide +kernel)
      (hunpacks 24) emptyHeader
    exact hn.trans (hn'.symm.trans (by decide +kernel))
  · obtain ⟨n, hn, hn', -⟩ := getNextWorkRequired_agrees (sameParams (.inl rfl))
      (show ConsistentHeights (evenChain 0x1e0fffff 1444779876 9) by decide +kernel)
      (hunpacks 9) emptyHeader
    exact hn.trans (hn'.symm.trans (by decide +kernel))

end MonetaryUnit
