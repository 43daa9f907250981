/-
# MonetaryUnit.Chain.Retargeting — the rules do not wrap around

The two readings of the rules of `Chain.Pow` agree on every chain whose targets are within the
limit of the network. The limit has 236 bits and every factor at most 12, so no product reaches
256 bits; the average of the targets stays between the least and the greatest of them, and the
time span is bounded before it becomes a factor, which also removes its sign.
-/

import MonetaryUnit.Chain.Pow
import Mathlib.Tactic.Linarith

namespace MonetaryUnit

open Lib List Option BaseUint Nat

/-! ## Words and integers -/

/-- The words hold the integer. -/
def Rep (a : BaseUint 8) (x : Int) : Prop := (a.toNat : Int) = x

variable {nBits : UInt32} {M m x : Int} {a : BaseUint 8} {b : CBlockIndex}

section

variable (ha : Rep a x) {b : BaseUint 8}
include ha

theorem Rep.add {y : Int} (hb : Rep b y) (h : x + y < 2 ^ 256) :
    Rep (words.add a b) (integers.add x y) := by
  subst ha hb
  show ((a.add b).toNat : Int) = a.toNat + b.toNat
  rw [toNat_add, mod_eq_of_lt (by exact_mod_cast h), cast_add]

theorem Rep.mul {n : Int} (hn : 0 ≤ n) (hlt : n < 2 ^ 32) (h : x * n < 2 ^ 256) :
    Rep (words.mul a n) (integers.mul x n) := by
  subst ha
  obtain ⟨k, rfl⟩ := Int.eq_ofNat_of_zero_le hn
  have hk : (UInt32.ofInt (k : Int)).toNat = k := by
    rw [UInt32.ofInt, UInt32.toNat_ofNat']
    omega
  show ((a.mul32 (UInt32.ofInt k)).toNat : Int) = a.toNat * k
  rw [toNat_mul32, hk, mod_eq_of_lt (by exact_mod_cast h), cast_mul]

theorem Rep.div {n : Int} (hn : 0 < n) (hlt : n < 2 ^ 64) :
    ∃ c, words.div a n = some c ∧ integers.div x n = some (x / n) ∧ Rep c (x / n) := by
  subst ha
  obtain ⟨k, rfl⟩ := Int.eq_ofNat_of_zero_le hn.le
  have hk : (ofUInt64 (UInt64.ofInt (k : Int)) : BaseUint 8).toNat = k := by
    rw [toNat_ofUInt64, UInt64.ofInt, UInt64.toNat_ofNat']
    omega
  obtain ⟨c, hc, hval⟩ := a.div_eq_some (b := ofUInt64 (UInt64.ofInt k)) (by omega)
  refine ⟨c, hc, if_neg hn.ne', ?_⟩
  rw [Rep, hval, hk, Int.natCast_ediv]

theorem Rep.gt {y : Int} (hb : Rep b y) : words.gt a b = integers.gt x y := by
  subst ha hb
  show decide (0 < a.compareTo b) = decide ((b.toNat : Int) < a.toNat)
  rw [decide_eq_decide, compareTo_pos_iff, cast_lt]

theorem Rep.getCompact : words.getCompact a = integers.getCompact x := by
  subst ha
  obtain ⟨n, hn, hnat⟩ := getCompact_spec a
  show a.getCompact false = some _
  rw [hn, Int.toNat_natCast, ← hnat, UInt32.ofNat_toNat]

end

/-- The limit of the main and the test network. -/
def powLimit : Int := 2 ^ 236 - 1

theorem rep_powLimit : Rep (words.onesShr 20) powLimit := by
  rfl

/-! ## The retargeting -/

theorem boundTimespan_eq {lo hi : Int} (h : lo ≤ hi) (n : Int) :
    boundTimespan n lo hi = max lo (min hi n) := by
  simp only [boundTimespan]
  split_ifs <;> omega

theorem boundTimespan_mem {lo hi : Int} (h : lo ≤ hi) (n : Int) :
    lo ≤ boundTimespan n lo hi ∧ boundTimespan n lo hi ≤ hi := by
  rw [boundTimespan_eq h]
  omega

/-- A target within the limit, a span of at most 12 bits: nothing wraps, and the result is the
exact one, capped. -/
theorem retarget_agrees {P : PowParams (BaseUint 8)} {Q : PowParams Int}
    {span nominal : Int} (hP : Rep P.bnProofOfWorkLimit powLimit)
    (hQ : Q.bnProofOfWorkLimit = powLimit) (ha : Rep a x) (hx : x ≤ powLimit)
    (hspan : 0 ≤ span) (hsmall : span ≤ 4096) (hnominal : 0 < nominal) (hfit : nominal < 2 ^ 64) :
    ∃ c, retarget words P a span nominal = some c ∧
      retarget integers Q x span nominal = some (min powLimit (x * span / nominal)) ∧
      Rep c (min powLimit (x * span / nominal)) := by
  have hprod : x * span < 2 ^ 256 := by
    have hle : x * span ≤ powLimit * 4096 := mul_le_mul hx hsmall hspan (by decide)
    have hlim : powLimit * 4096 < 2 ^ 256 := by decide
    omega
  obtain ⟨c, hwords, hints, hc⟩ := (ha.mul hspan (by omega) hprod).div hnominal hfit
  rw [show integers.mul x span = x * span from rfl] at hints hc
  rw [retarget, retarget, hwords, show integers.mul x span = x * span from rfl, hints,
    map_some, map_some, hQ, hc.gt hP]
  by_cases hcap : powLimit < x * span / nominal
  · have hgt : integers.gt (x * span / nominal) powLimit = true := decide_eq_true hcap
    rw [min_eq_left hcap.le, if_pos hgt, if_pos hgt]
    exact ⟨_, rfl, rfl, hP⟩
  · have hgt : ¬ integers.gt (x * span / nominal) powLimit = true := fun h =>
      hcap (of_decide_eq_true h)
    rw [min_eq_right (Int.not_lt.mp hcap), if_neg hgt, if_neg hgt]
    exact ⟨_, rfl, rfl, hc⟩

/-! ## The formulas -/

/-- The target of a block, as `SetCompact` unpacks it. -/
def blockTarget (p : CBlockIndex) : Int := (setCompact p.nBits).value.toNat

/-- The average after further blocks, the next of which is number `k`. -/
def exactAverage (average k : Int) : List CBlockIndex → Int
  | [] => average
  | b :: bs => exactAverage ((average * k + blockTarget b) / (k + 1)) (k + 1) bs

/-- The time between the first and the last block, leaving out where a block has time zero. -/
def exactSpan : List CBlockIndex → Int
  | b :: b' :: bs =>
    (if 0 < b.getBlockTime then b.getBlockTime - b'.getBlockTime else 0) + exactSpan (b' :: bs)
  | _ => 0

/-- Dark Gravity Wave: the average of 24 blocks, times their span over the nominal 24 * 40 seconds.
The span counts from a third to three times that, the result up to the limit. -/
def waveTarget (b : CBlockIndex) (pprev : List CBlockIndex) : Int :=
  min powLimit (exactAverage (blockTarget b) 2 (pprev.take 23) *
    max 320 (min 2880 (exactSpan (b :: pprev.take 23))) / 960)

/-- The interval rule: the target of the last block, times the span of the interval over the
nominal 400 seconds. The span counts from 100/110 to twice that. -/
def spanTarget (b pindexFirst : CBlockIndex) : Int :=
  min powLimit (blockTarget b *
    max 363 (min 800 (b.getBlockTime - pindexFirst.getBlockTime)) / 400)

/-! ## The averaging loop -/

/-- The `nBits` unpacks to a target between the bounds. -/
def TargetBetween (m M : Int) (nBits : UInt32) : Prop :=
  (setCompact nBits).fOverflow = false ∧ m ≤ (setCompact nBits).value.toNat ∧
    (setCompact nBits).value.toNat ≤ M

theorem integers_setCompact {p : CBlockIndex} (h : (setCompact p.nBits).fOverflow = false) :
    integers.setCompact p.nBits = blockTarget p :=
  congrArg Nat.cast (setCompact_value h).symm

/-- The weighted average of two numbers is between their bounds. -/
theorem average_between {t c : Int} (hc : 0 ≤ c) (hx : m ≤ x ∧ x ≤ M) (ht : m ≤ t ∧ t ≤ M) :
    m ≤ (x * c + t) / (c + 1) ∧ (x * c + t) / (c + 1) ≤ M := by
  have hlo : m * c ≤ x * c := mul_le_mul_of_nonneg_right hx.1 hc
  have hhi : x * c ≤ M * c := mul_le_mul_of_nonneg_right hx.2 hc
  constructor
  · apply Int.le_ediv_of_mul_le (by omega)
    rw [mul_add]
    omega
  · apply Int.ediv_le_of_le_mul (by omega)
    rw [mul_add]
    omega

/-- The average after block number `k`, which is not the first. -/
theorem waveAverage_agrees {p : CBlockIndex} {k : Int} (hM : M ≤ powLimit) (ha : Rep a x)
    (hx : m ≤ x ∧ x ≤ M) (hp : TargetBetween m M p.nBits) (hk : 2 ≤ k) (hmax : k ≤ 24) :
    ∃ c, waveAverage words a k p.nBits = some c ∧
      waveAverage integers x k p.nBits = some ((x * k + blockTarget p) / (k + 1)) ∧
      Rep c ((x * k + blockTarget p) / (k + 1)) := by
  have hle : blockTarget p ≤ M := hp.2.2
  have hbig : powLimit * 24 + powLimit < 2 ^ 256 := by decide
  have hprod : x * k ≤ powLimit * 24 := mul_le_mul (hx.2.trans hM) hmax (by omega) (by decide)
  have hmul := ha.mul (by omega : 0 ≤ k) (by omega) (by omega)
  have hadd := hmul.add (y := blockTarget p) rfl (show x * k + blockTarget p < _ by omega)
  obtain ⟨c, hwords, hints, hc⟩ := hadd.div (n := k + 1) (by omega) (by omega)
  rw [waveAverage, waveAverage, if_neg (by omega), if_neg (by omega), integers_setCompact hp.1]
  exact ⟨c, hwords, hints, hc⟩

theorem waveTimespan_eq {ν : Type} (c : Int) (average : ν) (span : Int) (b p : CBlockIndex) :
    waveTimespan ⟨c, average, average, span, b.getBlockTime⟩ p.getBlockTime =
      span + if 0 < b.getBlockTime then b.getBlockTime - p.getBlockTime else 0 := by
  rw [waveTimespan]
  split_ifs
  · rfl
  · exact (Int.add_zero _).symm

/-- The body of the loop on block after block. -/
def waveRun {ν : Type} (A : TargetArith ν) : List CBlockIndex → WaveState ν → Option (WaveState ν)
  | [], st => some st
  | b :: bs, st => (waveRead A b st).bind (waveRun A bs)

/-- After `c` blocks, both readings of the loop compute the formulas, and the average stays between
the bounds. -/
theorem waveRun_agrees (c span : Int) {bs : List CBlockIndex} (hM : M ≤ powLimit) (ha : Rep a x)
    (hx : m ≤ x ∧ x ≤ M) (hbs : ∀ p ∈ bs, TargetBetween m M p.nBits) (hc : 1 ≤ c)
    (hroom : c + bs.length ≤ 24) :
    ∃ a' y t, y = exactAverage x (c + 1) bs ∧ Rep a' y ∧ m ≤ y ∧ y ≤ M ∧
      waveRun words bs ⟨c, a, a, span, b.getBlockTime⟩ =
        some ⟨c + bs.length, a', a', span + exactSpan (b :: bs), t⟩ ∧
      waveRun integers bs ⟨c, x, x, span, b.getBlockTime⟩ =
        some ⟨c + bs.length, y, y, span + exactSpan (b :: bs), t⟩ := by
  induction bs generalizing b c a x span with
  | nil => exact ⟨a, x, b.getBlockTime, rfl, ha, hx.1, hx.2, by simp [waveRun, exactSpan]⟩
  | cons p bs ih =>
    rw [forall_mem_cons] at hbs
    rw [length_cons] at hroom
    have hmin : c + 1 ≤ pastBlocksMin := by
      rw [pastBlocksMin]
      omega
    obtain ⟨a1, hwords, hints, ha1⟩ := waveAverage_agrees hM ha hx hbs.1 (by omega) hmin
    simp only [waveRun, waveRead, if_pos hmin, hwords, hints, waveTimespan_eq, map_some, bind_some]
    obtain ⟨a2, y, t, hy, ha2, hlo, hhi, hrest⟩ := ih (b := p) (c + 1)
      (span + if 0 < b.getBlockTime then b.getBlockTime - p.getBlockTime else 0) ha1
      (average_between (by omega) hx hbs.1.2) hbs.2 (by omega) (by omega)
    have hcount : c + (p :: bs).length = c + 1 + bs.length := by
      rw [length_cons]
      omega
    rw [hcount, exactSpan, ← Int.add_assoc]
    exact ⟨a2, y, t, hy, ha2, hlo, hhi, hrest⟩

/-! ## What the loop reads -/

/-- The height of a block is the number of its ancestors. -/
def ConsistentHeights : List CBlockIndex → Prop
  | [] => True
  | b :: pprev => b.nHeight.toInt = pprev.length ∧ ConsistentHeights pprev

instance ConsistentHeights.decidable : (chain : List CBlockIndex) →
    Decidable (ConsistentHeights chain)
  | [] => isTrue trivial
  | _ :: pprev =>
    have := ConsistentHeights.decidable pprev
    inferInstanceAs (Decidable (_ ∧ _))

/-- The height is nine more than a multiple of ten, so the interval is there. -/
theorem ConsistentHeights.interval_le {pprev : List CBlockIndex}
    (h : ConsistentHeights (b :: pprev)) (hstep : (b.nHeight.toInt + 1).tmod 10 = 0) :
    9 ≤ pprev.length := by
  have hheight := h.1
  rw [Int.tmod_eq_emod_of_nonneg (by omega)] at hstep
  omega

/-- On a chain that is long enough, the loop reads blocks up to the number 24. -/
theorem waveLoop_eq {ν : Type} (A : TargetArith ν) {n : Nat} {i : Int} {chain : List CBlockIndex}
    (st : WaveState ν) (hheights : ConsistentHeights chain) (hlen : n < chain.length)
    (hi : i + n = 25) : waveLoop A chain i st = waveRun A (chain.take n) st := by
  induction n generalizing i chain st with
  | zero =>
    rcases chain with _ | ⟨b, pprev⟩
    · rfl
    · rw [waveLoop]
      split_ifs with hpos hend
      · rfl
      · exact absurd ⟨by decide, by rw [pastBlocksMax]; omega⟩ hend
      · rfl
  | succ n ih =>
    rcases chain with _ | ⟨b, pprev⟩
    · exact absurd hlen (not_lt_zero _)
    · obtain ⟨hheight, hrest⟩ := hheights
      rw [length_cons] at hlen
      have hpos : 0 < b.nHeight.toInt := by omega
      have hgo : ¬ (0 < pastBlocksMax ∧ pastBlocksMax < i) := by
        rw [pastBlocksMax]
        omega
      rw [waveLoop, if_pos hpos, if_neg hgo]
      congr 1
      funext st'
      exact ih st' hrest (by omega) (by omega)

/-! ## The two rules -/

/-- The parameters of the main or the test network, over words and over integers. -/
structure SameParams (P : PowParams (BaseUint 8)) (Q : PowParams Int) : Prop where
  limit : Rep P.bnProofOfWorkLimit powLimit
  exactLimit : Q.bnProofOfWorkLimit = powLimit
  timespan : P.nTargetTimespan = 400
  exactTimespan : Q.nTargetTimespan = 400
  spacing : P.nTargetSpacing = 40
  exactSpacing : Q.nTargetSpacing = 40
  network : P.networkID = Q.networkID
  allowMin : P.fAllowMinDifficultyBlocks = Q.fAllowMinDifficultyBlocks

theorem sameParams {net : Network} (hnet : net = .main ∨ net = .testnet) :
    SameParams (powParams words net) (powParams integers net) := by
  rcases hnet with rfl | rfl
  all_goals exact ⟨rep_powLimit, by decide, rfl, rfl, rfl, rfl, rfl, rfl⟩

section TwoRules

variable {P : PowParams (BaseUint 8)} {Q : PowParams Int} {pprev : List CBlockIndex}

theorem SameParams.interval (h : SameParams P Q) : P.interval = 10 ∧ Q.interval = 10 := by
  rw [PowParams.interval, PowParams.interval, h.timespan, h.exactTimespan, h.spacing,
    h.exactSpacing]
  exact ⟨by decide, by decide⟩

/-- From height 24 on, Dark Gravity Wave computes its formula. -/
theorem darkGravityWave_agrees (h : SameParams P Q) (hheights : ConsistentHeights (b :: pprev))
    (hlong : 24 ≤ b.nHeight.toInt) (hM : M ≤ powLimit)
    (htargets : ∀ p ∈ (b :: pprev).take 24, TargetBetween m M p.nBits) :
    ∃ c, darkGravityWave words P (b :: pprev) = some c ∧
      darkGravityWave integers Q (b :: pprev) = some (waveTarget b pprev) ∧
      Rep c (waveTarget b pprev) ∧ m ≤ exactAverage (blockTarget b) 2 (pprev.take 23) ∧
      exactAverage (blockTarget b) 2 (pprev.take 23) ≤ M := by
  have hheight := hheights.1
  have hlen : (pprev.take 23).length = 23 := by
    rw [length_take]
    omega
  obtain ⟨hb, hbs⟩ := forall_mem_cons.mp htargets
  obtain ⟨a, y, t, rfl, ha, hlo, hhi, hwords, hints⟩ := waveRun_agrees (b := b) 1 0 hM
    (show Rep (words.setCompact b.nBits) (blockTarget b) from rfl) hb.2 hbs le_rfl
    (by rw [hlen]; decide)
  obtain ⟨hspan, hspan'⟩ := boundTimespan_mem (show (320 : Int) ≤ 2880 by decide)
    (exactSpan (b :: pprev.take 23))
  obtain ⟨c, hc, hx, hrep⟩ := retarget_agrees h.limit h.exactLimit ha (hhi.trans hM)
    (le_trans (by decide) hspan) (hspan'.trans (by decide)) (show (0 : Int) < 960 by decide)
    (by decide)
  have hskip : ¬ (b.nHeight.toInt = 0 ∨ b.nHeight.toInt < pastBlocksMin) := by
    rw [pastBlocksMin]
    omega
  have hloop : ∀ {ν : Type} (A : TargetArith ν), waveLoop A (b :: pprev) 1 (.start A) =
      waveRun A (pprev.take 23) ⟨1, A.setCompact b.nBits, A.setCompact b.nBits, 0,
        b.getBlockTime⟩ := by
    intro ν A
    refine waveLoop_eq A (n := 24) _ hheights ?_ (by decide)
    rw [length_cons]
    omega
  rw [waveTarget, ← boundTimespan_eq (by decide)]
  refine ⟨c, ?_, ?_, hrep, hlo, hhi⟩
  · rw [darkGravityWave, if_neg hskip, hloop, hwords, bind_some, hlen, h.spacing,
      Int.zero_add]
    exact hc
  · rw [darkGravityWave, if_neg hskip, hloop, integers_setCompact hb.1, hints, bind_some, hlen,
      h.exactSpacing, Int.zero_add]
    exact hx

/-- With an interval of blocks before it, the interval rule computes its formula. -/
theorem intervalTarget_agrees (h : SameParams P Q) (hlong : 9 ≤ pprev.length)
    (htarget : TargetBetween 0 powLimit b.nBits) :
    ∃ pindexFirst c, (b :: pprev)[9]? = some pindexFirst ∧
      intervalTarget words P b (b :: pprev) = some c ∧
      intervalTarget integers Q b (b :: pprev) = some (spanTarget b pindexFirst) ∧
      Rep c (spanTarget b pindexFirst) := by
  obtain ⟨pindexFirst, older, hdrop⟩ : ∃ p ps, (b :: pprev).drop 9 = p :: ps := by
    rcases hd : (b :: pprev).drop 9 with _ | ⟨p, ps⟩
    · have hle := drop_eq_nil_iff.mp hd
      rw [length_cons] at hle
      omega
    · exact ⟨p, ps, rfl⟩
  obtain ⟨hspan, hspan'⟩ := boundTimespan_mem (show (363 : Int) ≤ 800 by decide)
    (b.getBlockTime - pindexFirst.getBlockTime)
  obtain ⟨c, hc, hx, hrep⟩ := retarget_agrees h.limit h.exactLimit
    (show Rep (words.setCompact b.nBits) (blockTarget b) from rfl) htarget.2.2
    (le_trans (by decide) hspan) (hspan'.trans (by decide)) (show (0 : Int) < 400 by decide)
    (by decide)
  have hback : ((10 : Int) - 1).toNat = 9 := by decide
  rw [← head?_drop, hdrop]
  refine ⟨pindexFirst, c, rfl, ?_⟩
  rw [spanTarget, ← boundTimespan_eq (by decide)]
  refine ⟨?_, ?_, hrep⟩
  · rw [intervalTarget, h.interval.1, hback, hdrop, h.timespan]
    exact hc
  · rw [intervalTarget, h.interval.2, hback, hdrop, h.exactTimespan, integers_setCompact htarget.1]
    exact hx

/-! ## The required work -/

/-- An `nBits` that unpacks without a flag to a target of at most the limit. -/
def Unpacks (nBits : UInt32) : Prop :=
  (setCompact nBits).fNegative = false ∧ TargetBetween 0 powLimit nBits

/-- A target within the limit is packed into such an `nBits`. -/
theorem Rep.packed {x : Int} (ha : Rep a x) (hx : x ≤ powLimit) :
    ∃ n, words.getCompact a = some n ∧ integers.getCompact x = some n ∧ Unpacks n ∧
      (setCompact n).value.toNat ≤ x := by
  obtain ⟨n, hn, -⟩ := getCompact_spec a
  obtain ⟨hneg, hover, hrounded⟩ := setCompact_getCompact hn
  have hcompact : (setCompact n).value.toNat ≤ x := by
    rw [← show (a.toNat : Int) = x from ha, setCompact_value hover]
    exact_mod_cast hrounded.trans_le (rounded_le _)
  exact ⟨n, hn, ha.getCompact ▸ hn, ⟨hneg, hover, Int.natCast_nonneg _, hcompact.trans hx⟩,
    hcompact⟩

/-- The two readings return the same. -/
def SameWork : NextWork (BaseUint 8) → NextWork Int → Prop
  | .nBits n, .nBits n' => n = n' ∧ Unpacks n
  | .target a, .target x => Rep a x ∧ x ≤ powLimit
  | _, _ => False

theorem SameWork.getCompact {work : NextWork (BaseUint 8)} {exact : NextWork Int}
    (h : SameWork work exact) :
    ∃ n, work.getCompact words = some n ∧ exact.getCompact integers = some n ∧ Unpacks n := by
  rcases work with n | a <;> rcases exact with n' | x
  · obtain ⟨rfl, hn⟩ := h
    exact ⟨n, rfl, rfl, hn⟩
  · exact h.elim
  · exact h.elim
  · obtain ⟨n, hwords, hints, hn, -⟩ := Rep.packed h.1 h.2
    exact ⟨n, hwords, hints, hn⟩

theorem SameWork.of_target {work : NextWork (BaseUint 8)} {x : Int}
    (h : SameWork work (.target x)) : ∃ c, work = .target c ∧ Rep c x := by
  rcases work with n | c
  · exact h.elim
  · exact ⟨c, rfl, h.1⟩

theorem lastRegular_mem (interval : Int) (nProofOfWorkLimit : UInt32) (b : CBlockIndex)
    (pprev : List CBlockIndex) :
    ∃ p ∈ b :: pprev, lastRegular interval nProofOfWorkLimit (b :: pprev) = some p.nBits := by
  induction pprev generalizing b with
  | nil => exact ⟨b, mem_cons_self, rfl⟩
  | cons b' pprev ih =>
    rw [lastRegular]
    split_ifs
    · obtain ⟨p, hp, heq⟩ := ih b'
      exact ⟨p, mem_cons_of_mem _ hp, heq⟩
    · exact ⟨b, mem_cons_self, rfl⟩

section

variable (h : SameParams P Q) (hheights : ConsistentHeights (b :: pprev))
  (htargets : ∀ p ∈ b :: pprev, Unpacks p.nBits)
include h hheights htargets

theorem oldRule_agrees (pblock : CBlockHeader) :
    ∃ work exact, oldRule words P b (b :: pprev) pblock = some work ∧
      oldRule integers Q b (b :: pprev) pblock = some exact ∧ SameWork work exact := by
  obtain ⟨n, hwords, hints, hn, -⟩ := Rep.packed h.limit (le_refl _)
  rw [oldRule, oldRule, hwords, h.exactLimit, hints, bind_some, bind_some,
    h.interval.1, h.interval.2, h.allowMin, h.spacing, h.exactSpacing]
  by_cases hstep : (b.nHeight.toInt + 1).tmod 10 ≠ 0
  · rw [if_pos hstep]
    split_ifs
    · exact ⟨_, _, rfl, rfl, rfl, hn⟩
    · obtain ⟨p, hp, heq⟩ := lastRegular_mem 10 n b pprev
      rw [heq]
      exact ⟨_, _, rfl, rfl, rfl, htargets p hp⟩
    · exact ⟨_, _, rfl, rfl, rfl, htargets b mem_cons_self⟩
  · have hlong := hheights.interval_le (not_not.mp hstep)
    obtain ⟨pindexFirst, c, -, hc, hx, hrep⟩ := intervalTarget_agrees h hlong
      (htargets b mem_cons_self).2
    rw [if_neg hstep, if_neg hstep, hc, hx]
    exact ⟨_, _, rfl, rfl, hrep, min_le_left _ _⟩

theorem darkGravityWave_sameWork : ∃ c x, darkGravityWave words P (b :: pprev) = some c ∧
      darkGravityWave integers Q (b :: pprev) = some x ∧ Rep c x ∧ x ≤ powLimit := by
  by_cases hlong : 24 ≤ b.nHeight.toInt
  · obtain ⟨c, hc, hx, hrep, -⟩ := darkGravityWave_agrees h hheights hlong
      (le_refl _) fun p hp => (htargets p (mem_of_mem_take hp)).2
    exact ⟨c, _, hc, hx, hrep, min_le_left _ _⟩
  · have hskip : b.nHeight.toInt = 0 ∨ b.nHeight.toInt < pastBlocksMin := by
      rw [pastBlocksMin]
      omega
    rw [darkGravityWave, darkGravityWave, if_pos hskip, if_pos hskip]
    exact ⟨_, _, rfl, rfl, h.exactLimit ▸ h.limit, h.exactLimit.le⟩

theorem nextWork_agrees (pblock : CBlockHeader) :
    ∃ work exact, nextWork words P (b :: pprev) pblock = some work ∧
      nextWork integers Q (b :: pprev) pblock = some exact ∧ SameWork work exact := by
  have hmode : diffMode P b.nHeight.toInt = diffMode Q b.nHeight.toInt := by
    rw [diffMode, diffMode, h.network]
  rw [nextWork, nextWork, hmode]
  rcases diffMode Q b.nHeight.toInt
  · exact oldRule_agrees h hheights htargets pblock
  · obtain ⟨c, x, hc, hx, hrep, hle⟩ := darkGravityWave_sameWork h hheights htargets
    exact ⟨.target c, .target x, by rw [hc]; rfl, by rw [hx]; rfl, hrep, hle⟩

theorem getNextWorkRequired_agrees (pblock : CBlockHeader) :
    ∃ n, getNextWorkRequired words P (b :: pprev) pblock = some n ∧
      getNextWorkRequired integers Q (b :: pprev) pblock = some n ∧ Unpacks n := by
  obtain ⟨work, exact, hwork, hexact, hsame⟩ := nextWork_agrees h hheights htargets pblock
  obtain ⟨n, hn, hn', hunpacks⟩ := hsame.getCompact
  refine ⟨n, ?_, ?_, hunpacks⟩
  · rw [getNextWorkRequired, hwork, bind_some, hn]
  · rw [getNextWorkRequired, hexact, bind_some, hn']

end

end TwoRules

/-! ## The result -/

/-- The `nBits` unpacks without a flag to a target from one to the limit of the network. -/
def ValidTarget (net : Network) (nBits : UInt32) : Prop :=
  (setCompact nBits).fNegative = false ∧ (setCompact nBits).fOverflow = false ∧
    1 ≤ (setCompact nBits).value.toNat ∧
    (setCompact nBits).value.toNat ≤ (powParams words net).bnProofOfWorkLimit.toNat

instance (net : Network) (nBits : UInt32) : Decidable (ValidTarget net nBits) :=
  inferInstanceAs (Decidable (_ ∧ _))

/-- A block at which Dark Gravity Wave retargets. -/
def WaveStep (net : Network) (b : CBlockIndex) : Prop :=
  diffMode (powParams words net) b.nHeight.toInt = .DIFF_DGW ∧ 24 ≤ b.nHeight.toInt

/-- A block at which the interval rule retargets. -/
def IntervalStep (net : Network) (b : CBlockIndex) : Prop :=
  diffMode (powParams words net) b.nHeight.toInt = .DIFF_BTC ∧
    (b.nHeight.toInt + 1).tmod (powParams words net).interval = 0

section Result

variable {net : Network} {b : CBlockIndex} {pprev : List CBlockIndex}

theorem ValidTarget.between (hnet : net = .main ∨ net = .testnet) (h : ValidTarget net nBits) :
    Unpacks nBits := by
  obtain ⟨hneg, hover, -, hle⟩ := h
  have hlimit : ((powParams words net).bnProofOfWorkLimit.toNat : Int) = powLimit :=
    (sameParams hnet).limit
  exact ⟨hneg, hover, Int.natCast_nonneg _, hlimit ▸ Int.ofNat_le.mpr hle⟩

/-- Both readings choose the same rule. -/
theorem diffMode_integers (hnet : net = .main ∨ net = .testnet) (nHeight : Int) :
    diffMode (powParams integers net) nHeight = diffMode (powParams words net) nHeight := by
  rw [diffMode, diffMode, (sameParams hnet).network]

section

variable (hnet : net = .main ∨ net = .testnet) (hheights : ConsistentHeights (b :: pprev))
  (htargets : ∀ p ∈ b :: pprev, Unpacks p.nBits)
include hnet hheights htargets

/-- What Dark Gravity Wave retargets to, over integers. -/
theorem waveStep_target (hstep : WaveStep net b) (pblock : CBlockHeader) (hm : 0 ≤ m)
    (hM : M ≤ powLimit)
    (hbetween : ∀ p ∈ (b :: pprev).take 24, m ≤ blockTarget p ∧ blockTarget p ≤ M) :
    nextWork integers (powParams integers net) (b :: pprev) pblock =
        some (.target (waveTarget b pprev)) ∧
      m / 3 ≤ waveTarget b pprev ∧ waveTarget b pprev ≤ 3 * M := by
  have hrange : ∀ p ∈ (b :: pprev).take 24, TargetBetween m M p.nBits := fun p hp =>
    ⟨(htargets p (mem_of_mem_take hp)).2.1, hbetween p hp⟩
  obtain ⟨c, -, hx, -, hlo, hhi⟩ :=
    darkGravityWave_agrees (sameParams hnet) hheights hstep.2 hM hrange
  constructor
  · rw [nextWork, diffMode_integers hnet, hstep.1, hx]
    rfl
  · have hnonneg := hm.trans hlo
    rw [waveTarget]
    -- The span is from a third to three times the nominal 960 seconds.
    generalize hs : max 320 (min 2880 (exactSpan (b :: pprev.take 23))) = span
    have hdown := mul_le_mul_of_nonneg_left (show 320 ≤ span by omega) hnonneg
    have hup := mul_le_mul_of_nonneg_left (show span ≤ 2880 by omega) hnonneg
    omega

/-- What the interval rule retargets to, over integers. -/
theorem intervalStep_target (hstep : IntervalStep net b) (pblock : CBlockHeader) :
    ∃ pindexFirst, (b :: pprev)[9]? = some pindexFirst ∧
      nextWork integers (powParams integers net) (b :: pprev) pblock =
        some (.target (spanTarget b pindexFirst)) ∧
      blockTarget b * (400 * 100 / 110) / 400 ≤ spanTarget b pindexFirst ∧
      spanTarget b pindexFirst ≤ 2 * blockTarget b := by
  have hparams := sameParams hnet
  obtain ⟨hmode, hheight⟩ := hstep
  rw [hparams.interval.1] at hheight
  obtain ⟨-, htarget⟩ := htargets b mem_cons_self
  obtain ⟨pindexFirst, c, hfirst, -, hx, -⟩ :=
    intervalTarget_agrees hparams (hheights.interval_le hheight) htarget
  obtain ⟨n, -, hlimit, -⟩ := Rep.packed rep_powLimit (le_refl _)
  refine ⟨pindexFirst, hfirst, ?_, ?_⟩
  · rw [nextWork, diffMode_integers hnet, hmode]
    rw [oldRule, hparams.exactLimit, hlimit, bind_some, hparams.interval.2,
      if_neg (not_not.mpr hheight), hx]
    rfl
  · have hnonneg : 0 ≤ blockTarget b := htarget.2.1
    have hle : blockTarget b ≤ powLimit := htarget.2.2
    rw [spanTarget]
    generalize hs : max 363 (min 800 (b.getBlockTime - pindexFirst.getBlockTime)) = span
    have hdown := mul_le_mul_of_nonneg_left (show 363 ≤ span by omega) hnonneg
    have hup := mul_le_mul_of_nonneg_left (show span ≤ 800 by omega) hnonneg
    omega

end

/-- Without a retargeting. The test network never uses the interval rule. -/
theorem noStep_work (hnet : net = .main ∨ net = .testnet) (hwave : ¬ WaveStep net b)
    (hinterval : ¬ IntervalStep net b) (hheight : 0 ≤ b.nHeight.toInt) (pblock : CBlockHeader) :
    nextWork integers (powParams integers net) (b :: pprev) pblock =
      some (if diffMode (powParams words net) b.nHeight.toInt = .DIFF_DGW then .target powLimit
        else .nBits b.nBits) := by
  have hparams := sameParams hnet
  rw [nextWork, diffMode_integers hnet]
  cases hmode : diffMode (powParams words net) b.nHeight.toInt with
  | DIFF_DGW =>
    have hskip : b.nHeight.toInt = 0 ∨ b.nHeight.toInt < pastBlocksMin :=
      .inr (Int.not_le.mp fun hle => hwave ⟨hmode, hle⟩)
    rw [darkGravityWave, if_pos hskip, hparams.exactLimit]
    rfl
  | DIFF_BTC =>
    obtain ⟨n, -, hlimit, -⟩ := Rep.packed rep_powLimit (le_refl _)
    have hmain : net = .main := by
      rcases hnet with rfl | rfl
      · rfl
      · rw [diffMode, if_neg (fun h => h rfl), if_pos (by omega)] at hmode
        cases hmode
    subst hmain
    rw [oldRule, hparams.exactLimit, hlimit, bind_some, hparams.interval.2,
      if_pos (hparams.interval.1 ▸ fun h => hinterval ⟨hmode, h⟩)]
    rfl

/-- **`getNextWorkRequired_correct`** — on every chain of the main or the test network whose
targets are valid, the required work is what the same rules give over unbounded integers. It
unpacks without a flag to a target within the limit. A retargeting computes the formula of its
rule, which moves the target, before it is packed, by a bounded factor; Dark Gravity Wave starts
with the limit, and between two intervals the target stays. -/
theorem getNextWorkRequired_correct (hnet : net = .main ∨ net = .testnet)
    (hheights : ConsistentHeights (b :: pprev))
    (hvalid : ∀ p ∈ b :: pprev, ValidTarget net p.nBits) (pblock : CBlockHeader) :
    ∃ work exactWork nBits, nextWork words (powParams words net) (b :: pprev) pblock = some work ∧
      nextWork integers (powParams integers net) (b :: pprev) pblock = some exactWork ∧
      SameWork work exactWork ∧
      getNextWorkRequired words (powParams words net) (b :: pprev) pblock = some nBits ∧
      getNextWorkRequired integers (powParams integers net) (b :: pprev) pblock = some nBits ∧
      (setCompact nBits).fNegative = false ∧ (setCompact nBits).fOverflow = false ∧
      (setCompact nBits).value.toNat ≤ (powParams words net).bnProofOfWorkLimit.toNat ∧
      (WaveStep net b → exactWork = .target (waveTarget b pprev) ∧
        ∀ m M, IsLeast {t | ∃ p ∈ (b :: pprev).take 24, t = blockTarget p} m →
          IsGreatest {t | ∃ p ∈ (b :: pprev).take 24, t = blockTarget p} M →
          m / 3 ≤ waveTarget b pprev ∧ waveTarget b pprev ≤ 3 * M) ∧
      (IntervalStep net b → ∃ pindexFirst, (b :: pprev)[9]? = some pindexFirst ∧
        exactWork = .target (spanTarget b pindexFirst) ∧
        blockTarget b * ((powParams words net).nTargetTimespan * 100 / 110) /
          (powParams words net).nTargetTimespan ≤ spanTarget b pindexFirst ∧
        spanTarget b pindexFirst ≤ 2 * blockTarget b) ∧
      (¬ WaveStep net b → ¬ IntervalStep net b →
        exactWork = if diffMode (powParams words net) b.nHeight.toInt = .DIFF_DGW then
          .target powLimit else .nBits b.nBits) := by
  have hparams := sameParams hnet
  have htargets : ∀ p ∈ b :: pprev, Unpacks p.nBits := fun p hp => (hvalid p hp).between hnet
  obtain ⟨work, exactWork, hwork, hexact, hsame⟩ := nextWork_agrees hparams hheights htargets pblock
  obtain ⟨n, hn, hn', hneg, hover, -, hle⟩ :=
    getNextWorkRequired_agrees hparams hheights htargets pblock
  refine ⟨work, exactWork, n, hwork, hexact, hsame, hn, hn', hneg, hover, ?_, ?_, ?_, ?_⟩
  · have hlimit : ((powParams words net).bnProofOfWorkLimit.toNat : Int) = powLimit := hparams.limit
    exact Int.ofNat_le.mp (hlimit ▸ hle)
  · intro hstep
    have hnonneg : ∀ p ∈ (b :: pprev).take 24, 0 ≤ blockTarget p ∧ blockTarget p ≤ powLimit :=
      fun p hp => (htargets p (mem_of_mem_take hp)).2.2
    obtain ⟨hx, -⟩ :=
      waveStep_target hnet hheights htargets hstep pblock (le_refl _) (le_refl _) hnonneg
    refine ⟨some.inj (hexact.symm.trans hx), ?_⟩
    rintro m M ⟨⟨p, hp, rfl⟩, hleast⟩ ⟨⟨q, hq, rfl⟩, hgreatest⟩
    exact (waveStep_target hnet hheights htargets hstep pblock (hnonneg p hp).1 (hnonneg q hq).2
      fun r hr => ⟨hleast ⟨r, hr, rfl⟩, hgreatest ⟨r, hr, rfl⟩⟩).2
  · intro hstep
    obtain ⟨pindexFirst, hfirst, hx, hbounds⟩ :=
      intervalStep_target hnet hheights htargets hstep pblock
    rw [hparams.timespan]
    exact ⟨pindexFirst, hfirst, some.inj (hexact.symm.trans hx), hbounds⟩
  · intro hwave hinterval
    exact some.inj (hexact.symm.trans (noStep_work hnet hwave hinterval
      (hheights.1 ▸ Int.natCast_nonneg _) pblock))

end Result

/-- A chain with the last block at the given height, all blocks with the same `nBits` and forty
seconds apart. -/
def evenChain (nBits : UInt32) (start : Nat) : Nat → List CBlockIndex
  | 0 => [⟨none, 0, 1, 0, UInt32.ofNat start, nBits, 0⟩]
  | n + 1 => ⟨none, Int32.ofNat (n + 1), 1, 0, UInt32.ofNat (start + 40 * (n + 1)), nBits, 0⟩ ::
      evenChain nBits start n

def emptyHeader : CBlockHeader := ⟨1, 0, 0, 0, 0, 0⟩

/-- The first 25 blocks of a test network at the least difficulty. -/
theorem evenChain_required : ∃ nBits, getNextWorkRequired words (powParams words .testnet)
        (evenChain 0x1e0fffff 1444779876 24) emptyHeader = some nBits ∧
      (setCompact nBits).fNegative = false ∧ (setCompact nBits).fOverflow = false := by
  have hvalid : ValidTarget .testnet 0x1e0fffff := by decide +kernel
  have hbits : ∀ p ∈ evenChain 0x1e0fffff 1444779876 24, p.nBits = 0x1e0fffff := by
    decide +kernel
  obtain ⟨-, -, nBits, -, -, -, hnBits, -, hneg, hover, -⟩ := getNextWorkRequired_correct (.inr rfl)
      (show ConsistentHeights (evenChain 0x1e0fffff 1444779876 24) by decide +kernel)
      (fun p hp => by rw [hbits p hp]; exact hvalid) emptyHeader
  exact ⟨nBits, hnBits, hneg, hover⟩

end MonetaryUnit
