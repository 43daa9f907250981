/-
# MonetaryUnit.Chain.Pow — the required proof of work

`GetNextWorkRequired` and `DarkGravityWave` of `pow.cpp` choose the target of the next block from
those of the last blocks and the time that they took. The main network uses an adjustment once per
interval up to height 1130000 and Dark Gravity Wave from there on, the test network always the
latter.

The code calculates with `uint256`, where products and sums wrap around. Here it is written over any
`TargetArith`, so that one text has two readings: with `words`, the operations of the code, and with
`integers`, the unbounded ones. As long as the targets stay within the limit of the network the two
agree, and the bounds are proved about the integers.

A chain is a list with the last block first. Heights and times are `Int`: no `int64_t` of the code
leaves its range, and `nHeight + 1` is defined only where it fits an `int`.
-/

import MonetaryUnit.Chain.BlockIndex
import MonetaryUnit.Chain.Compact

namespace MonetaryUnit

/-! ## Arithmetic -/

/-- The operations that the rules use on targets. The other factor is an `int64_t`. -/
structure TargetArith (ν : Type) where
  zero : ν
  setCompact : UInt32 → ν
  getCompact : ν → Option UInt32
  add : ν → ν → ν
  mul : ν → Int → ν
  div : ν → Int → Option ν
  gt : ν → ν → Bool
  /-- `~uint256(0) >> shift`. -/
  onesShr : Nat → ν

/-- `uint256`: a product narrows its factor to a `uint32_t`, a quotient converts its divisor from
a `uint64_t`. -/
def words : TargetArith (BaseUint 8) where
  zero := BaseUint.zero 8
  setCompact nBits := (setCompact nBits).value
  getCompact a := a.getCompact false
  add := BaseUint.add
  mul a n := a.mul32 (UInt32.ofInt n)
  div a n := a.div (BaseUint.ofUInt64 (UInt64.ofInt n))
  gt a b := 0 < a.compareTo b
  onesShr shift := (BaseUint.zero 8).not.shr shift

/-- Unbounded integers. -/
def integers : TargetArith Int where
  zero := 0
  setCompact nBits := compactTarget nBits
  getCompact x := some (UInt32.ofNat ((compactForm x.toNat).2 + 2 ^ 24 * (compactForm x.toNat).1))
  add x y := x + y
  mul x n := x * n
  div x n := if n = 0 then none else some (x / n)
  gt x y := y < x
  onesShr shift := (2 ^ 256 - 1) / 2 ^ shift

/-! ## Parameters -/

inductive Network where
  | main
  | testnet
  | regtest
  | unittest
deriving DecidableEq, Repr

/-- The parameters of a network that the difficulty depends on. -/
structure PowParams (ν : Type) where
  networkID : Network
  bnProofOfWorkLimit : ν
  nTargetTimespan : Int
  nTargetSpacing : Int
  fAllowMinDifficultyBlocks : Bool

def PowParams.interval {ν : Type} (P : PowParams ν) : Int := P.nTargetTimespan.tdiv P.nTargetSpacing

section Rules

variable {ν : Type} (A : TargetArith ν)

def powParams : Network → PowParams ν
  | .main => ⟨.main, A.onesShr 20, 10 * 40, 40, false⟩
  | .testnet => ⟨.testnet, A.onesShr 20, 400, 40, true⟩
  | .regtest => ⟨.regtest, A.onesShr 1, 302400, 150, true⟩
  | .unittest => ⟨.unittest, A.onesShr 20, 10 * 40, 40, false⟩

variable (P : PowParams ν)

/-! ## Dark Gravity Wave -/

def pastBlocksMin : Int := 24

def pastBlocksMax : Int := 24

/-- The variables of the loop. -/
structure WaveState (ν : Type) where
  countBlocks : Int
  pastDifficultyAverage : ν
  pastDifficultyAveragePrev : ν
  nActualTimespan : Int
  lastBlockTime : Int

def WaveState.start : WaveState ν := ⟨0, A.zero, A.zero, 0, 0⟩

/-- The average after block number `count`. -/
def waveAverage (prev : ν) (count : Int) (nBits : UInt32) : Option ν :=
  if count = 1 then some (A.setCompact nBits)
  else A.div (A.add (A.mul prev count) (A.setCompact nBits)) (count + 1)

/-- The span after a block of the given time. -/
def waveTimespan (st : WaveState ν) (blockTime : Int) : Int :=
  if 0 < st.lastBlockTime then st.nActualTimespan + (st.lastBlockTime - blockTime)
  else st.nActualTimespan

/-- The body of the loop, after the tests that end it. -/
def waveRead (b : CBlockIndex) (st : WaveState ν) : Option (WaveState ν) :=
  let count := st.countBlocks + 1
  if count ≤ pastBlocksMin then
    (waveAverage A st.pastDifficultyAveragePrev count b.nBits).map fun average =>
      ⟨count, average, average, waveTimespan st b.getBlockTime, b.getBlockTime⟩
  else
    some ⟨count, st.pastDifficultyAverage, st.pastDifficultyAveragePrev,
      waveTimespan st b.getBlockTime, b.getBlockTime⟩

/-- The loop, in round `i`. -/
def waveLoop : List CBlockIndex → Int → WaveState ν → Option (WaveState ν)
  | [], _, st => some st
  | b :: pprev, i, st =>
    if 0 < b.nHeight.toInt then
      if 0 < pastBlocksMax ∧ pastBlocksMax < i then some st
      else (waveRead A b st).bind (waveLoop pprev (i + 1))
    else some st

/-- `n` brought between two bounds. -/
def boundTimespan (n lo hi : Int) : Int :=
  let n := if n < lo then lo else n
  if hi < n then hi else n

/-- The retargeting at the end of both rules. -/
def retarget (bn : ν) (nActualTimespan nTargetTimespan : Int) : Option ν :=
  (A.div (A.mul bn nActualTimespan) nTargetTimespan).map fun bnNew =>
    if A.gt bnNew P.bnProofOfWorkLimit then P.bnProofOfWorkLimit else bnNew

/-- `DarkGravityWave` up to the final `GetCompact`. -/
def darkGravityWave (pindexLast : List CBlockIndex) : Option ν :=
  match pindexLast with
  | [] => some P.bnProofOfWorkLimit
  | b :: _ =>
    if b.nHeight.toInt = 0 ∨ b.nHeight.toInt < pastBlocksMin then some P.bnProofOfWorkLimit
    else
      (waveLoop A pindexLast 1 (WaveState.start A)).bind fun st =>
        let nTargetTimespan := st.countBlocks * P.nTargetSpacing
        retarget A P st.pastDifficultyAverage
          (boundTimespan st.nActualTimespan (nTargetTimespan.tdiv 3) (nTargetTimespan * 3))
          nTargetTimespan

/-! ## The interval rule -/

/-- What a rule returns: an `nBits` that it copies, or a target that it packs. -/
inductive NextWork (ν : Type) where
  | nBits (n : UInt32)
  | target (bnNew : ν)

/-- The last block that does not have the least difficulty only because it came late. -/
def lastRegular (interval : Int) (nProofOfWorkLimit : UInt32) : List CBlockIndex → Option UInt32
  | [] => none
  | [b] => some b.nBits
  | b :: b' :: pprev =>
    if b.nHeight.toInt.tmod interval ≠ 0 ∧ b.nBits = nProofOfWorkLimit then
      lastRegular interval nProofOfWorkLimit (b' :: pprev)
    else some b.nBits

/-- The target at the end of an interval; `none` is the failed assertion that the interval is
there. -/
def intervalTarget (b : CBlockIndex) (pindexLast : List CBlockIndex) : Option ν :=
  match pindexLast.drop (P.interval - 1).toNat with
  | [] => none
  | pindexFirst :: _ =>
    let limUp := (P.nTargetTimespan * 100).tdiv 110
    let limDown := P.nTargetTimespan * 2
    retarget A P (A.setCompact b.nBits)
      (boundTimespan (b.getBlockTime - pindexFirst.getBlockTime) limUp limDown) P.nTargetTimespan

/-- The retarget every interval, from before Dark Gravity Wave. -/
def oldRule (b : CBlockIndex) (pindexLast : List CBlockIndex) (pblock : CBlockHeader) :
    Option (NextWork ν) :=
  (A.getCompact P.bnProofOfWorkLimit).bind fun nProofOfWorkLimit =>
    if (b.nHeight.toInt + 1).tmod P.interval ≠ 0 then
      if P.fAllowMinDifficultyBlocks then
        if b.getBlockTime + P.nTargetSpacing * 2 < pblock.nTime.toNat then
          some (.nBits nProofOfWorkLimit)
        else (lastRegular P.interval nProofOfWorkLimit pindexLast).map .nBits
      else some (.nBits b.nBits)
    else (intervalTarget A P b pindexLast).map .target

/-! ## The choice of the rule -/

inductive DiffMode where
  | DIFF_BTC
  | DIFF_DGW
deriving DecidableEq, Repr

/-- Dark Gravity Wave from block 1130000 on, on testnet from the first. -/
def diffMode (nHeight : Int) : DiffMode :=
  if P.networkID ≠ .testnet then
    if 1130000 ≤ nHeight + 1 then .DIFF_DGW else .DIFF_BTC
  else if 1 ≤ nHeight + 1 then .DIFF_DGW else .DIFF_BTC

/-- `GetNextWorkRequired` up to the final `GetCompact`; without a last block it reads through a
null pointer. -/
def nextWork (pindexLast : List CBlockIndex) (pblock : CBlockHeader) : Option (NextWork ν) :=
  match pindexLast with
  | [] => none
  | b :: _ =>
    match diffMode P b.nHeight.toInt with
    | .DIFF_BTC => oldRule A P b pindexLast pblock
    | .DIFF_DGW => (darkGravityWave A P pindexLast).map .target

def NextWork.getCompact : NextWork ν → Option UInt32
  | .nBits n => some n
  | .target bnNew => A.getCompact bnNew

/-- The target for the next block, compact. -/
def getNextWorkRequired (pindexLast : List CBlockIndex) (pblock : CBlockHeader) : Option UInt32 :=
  (nextWork A P pindexLast pblock).bind (NextWork.getCompact A)

end Rules

end MonetaryUnit
