/-
# MonetaryUnit.Chain.SoftFork — version rules and their lock-in

`ContextualCheckBlockHeader` and `ContextualCheckBlock` of `main.cpp`, the script flags that
`ConnectBlock` derives from the version majorities, and chains of headers accepted one after
the other.

A version rule is locked in at a block when 950 of the last 1000 blocks have the version. The
next header is then refused unless it has the version too, so the block that enters the window
is at least as good as the one that leaves it: lock-in is permanent on every continuation.
-/

import MonetaryUnit.Chain.BlockIndex
import MonetaryUnit.Validation.State
import MonetaryUnit.Script.Encoding

namespace MonetaryUnit

open Lib List Nat

/-! ## The checks on a header in its context -/

/-- What the header checks take from elsewhere: the block hash, the required work, and whether
checkpoints are enabled. -/
structure HeaderEnv where
  getHash : CBlockHeader → Uint256
  getNextWorkRequired : List CBlockIndex → CBlockHeader → UInt32
  fCheckpointsEnabled : Bool

inductive HeaderFailure
  | reject (r : Reject)
  /-- `assert(pindexPrev)`. -/
  | nullPrev
deriving DecidableEq

/-- `Checkpoints::CheckBlock`. -/
def checkpointsCheckBlock (P : ChainParams) (fEnabled : Bool) (nHeight : Int32)
    (hash : Uint256) : Bool :=
  if !fEnabled then true
  else
    match P.mapCheckpoints.lookup nHeight with
    | none => true
    | some h => hash == h

/-- The version of a rule is refused when the header is older and the majority is there. -/
def outdated (P : ChainParams) (version : Int32) (block : CBlockHeader)
    (pindexPrev : List CBlockIndex) : Bool :=
  block.nVersion < version && isSuperMajority P version pindexPrev P.nRejectBlockOutdatedMajority

/-- The checks that follow the assertion, for a header on top of `prev :: pprev`. The last
checkpoint in the block index is `pcheckpoint`. -/
def checkHeaderOn (P : ChainParams) (E : HeaderEnv) (pcheckpoint : Option CBlockIndex)
    (block : CBlockHeader) (prev : CBlockIndex) (pprev : List CBlockIndex) :
    Except Reject Unit := do
  let nHeight := prev.nHeight + 1
  require (P.fSkipProofOfWorkCheck || block.nBits == E.getNextWorkRequired (prev :: pprev) block)
    (dos 100 "bad-diffbits")
  require (getMedianTimePast (prev :: pprev) < (block.nTime.toNat : Int))
    (invalid rejectInvalid "time-too-old")
  require (checkpointsCheckBlock P E.fCheckpointsEnabled nHeight (E.getHash block))
    { nDoS := 100, chRejectCode := rejectCheckpoint, strRejectReason := "checkpoint mismatch" }
  require (pcheckpoint.all fun c => c.nHeight ≤ nHeight) { nDoS := 100 }
  require (!(600000 ≤ nHeight && outdated P 112 block (prev :: pprev)))
    (invalid rejectObsolete "bad-version")
  require (!(600000 ≤ nHeight && outdated P 113 block (prev :: pprev)))
    (invalid rejectObsolete "bad-version")
  require (!(1130000 ≤ nHeight && outdated P 115 block (prev :: pprev)))
    (invalid rejectObsolete "bad-version")
  require (!outdated P 116 block (prev :: pprev)) (invalid rejectObsolete "bad-version")

def contextualCheckBlockHeader (P : ChainParams) (E : HeaderEnv)
    (pcheckpoint : Option CBlockIndex) (block : CBlockHeader) (pindexPrev : List CBlockIndex) :
    Except HeaderFailure Unit :=
  if E.getHash block = P.hashGenesisBlock then .ok ()
  else
    match pindexPrev with
    | [] => .error .nullPrev
    | prev :: pprev => (checkHeaderOn P E pcheckpoint block prev pprev).mapError .reject

/-! ## The checks on a block in its context -/

/-- `IsFinalTx`. A height or time of zero stands for the current one. -/
def isFinalTx (tx : CTransaction) (nBlockHeight nBlockTime chainHeight adjustedTime : Int) :
    Bool :=
  let nBlockHeight := if nBlockHeight = 0 then chainHeight else nBlockHeight
  let nBlockTime := if nBlockTime = 0 then adjustedTime else nBlockTime
  if tx.nLockTime = 0 then true
  else if (tx.nLockTime.toNat : Int) <
      (if tx.nLockTime.toNat < 500000000 then nBlockHeight else nBlockTime) then true
  else tx.vin.all fun txin => txin.nSequence == 0xFFFFFFFF

/-- The `scriptSig` of the coinbase, `block.vtx[0].vin[0]`; `CheckBlock` has seen to it that
both exist. -/
def coinbaseScriptSig (block : CBlock) : CScript :=
  match block.vtx with
  | tx :: _ =>
    match tx.vin with
    | txin :: _ => txin.scriptSig
    | [] => []
  | [] => []

def contextualCheckBlock (P : ChainParams) (chainHeight adjustedTime : Int) (block : CBlock)
    (pindexPrev : List CBlockIndex) : Except Reject Unit := do
  let nHeight : Int32 :=
    match pindexPrev with
    | [] => 0
    | prev :: _ => prev.nHeight + 1
  require (block.vtx.all fun tx =>
      isFinalTx tx nHeight.toInt block.nTime.toNat chainHeight adjustedTime)
    (dos 10 "bad-txns-nonfinal")
  if 112 ≤ block.nVersion ∧
      isSuperMajority P 112 pindexPrev P.nEnforceBlockUpgradeMajority = true then
    require (pushInt64 nHeight.toInt <+: coinbaseScriptSig block) (dos 100 "bad-cb-height")
  else pure ()

/-! ## Script flags -/

/-- The flags `ConnectBlock` evaluates the scripts of a block with. -/
def connectFlags (P : ChainParams) (block : CBlockHeader) (pindex : CBlockIndex)
    (pprev : List CBlockIndex) : UInt32 :=
  let flags := if 1333238400 ≤ pindex.getBlockTime then scriptVerifyP2SH else scriptVerifyNone
  let flags :=
    if 114 ≤ block.nVersion && isSuperMajority P 114 pprev P.nEnforceBlockUpgradeMajority then
      flags ||| scriptVerifyDERSIG
    else flags
  if 116 ≤ block.nVersion && isSuperMajority P 116 pprev P.nEnforceBlockUpgradeMajority then
    flags ||| scriptVerifyCHECKLOCKTIMEVERIFY
  else flags

/-! ## Chains of accepted headers -/

/-- A chain of headers from the genesis block, each accepted on top of the one before. A
header that is already known is not checked again (`AcceptBlockHeader`), and heights are
`int`s that do not overflow. -/
inductive AcceptedChain (P : ChainParams) (E : HeaderEnv) : List CBlockIndex → Prop
  | genesis (block : CBlockHeader) (hash : E.getHash block = P.hashGenesisBlock) :
      AcceptedChain P E [CBlockIndex.ofHeader block P.hashGenesisBlock 0]
  | accept {prev : CBlockIndex} {pprev : List CBlockIndex} (block : CBlockHeader)
      (pcheckpoint : Option CBlockIndex) (chain : AcceptedChain P E (prev :: pprev))
      (unknown : ∀ b ∈ prev :: pprev, b.phashBlock ≠ some (E.getHash block))
      (height : prev.nHeight.toInt + 1 < 2 ^ 31)
      (ok : contextualCheckBlockHeader P E pcheckpoint block (prev :: pprev) = .ok ()) :
      AcceptedChain P E
        (CBlockIndex.ofHeader block (E.getHash block) (prev.nHeight + 1) :: prev :: pprev)

variable {P : ChainParams} {E : HeaderEnv} {chain : List CBlockIndex} {pindex : CBlockIndex}
variable {n : Nat}

/-- The genesis hash is in every chain, so no later header has it. -/
theorem AcceptedChain.genesis_mem (h : AcceptedChain P E chain) :
    ∃ b ∈ chain, b.phashBlock = some P.hashGenesisBlock := by
  induction h with
  | genesis block hash => exact ⟨_, mem_singleton.mpr rfl, rfl⟩
  | accept block pcheckpoint chain unknown height ok ih =>
    obtain ⟨b, hb, hhash⟩ := ih
    exact ⟨b, mem_cons_of_mem _ hb, hhash⟩

variable {b prev : CBlockIndex} {pprev : List CBlockIndex} {v : Int32} {block : CBlockHeader}

/-- What a chain owes to its last step: a chain below it, the next height, and a header that
passed the checks in that context. -/
theorem AcceptedChain.inv (h : AcceptedChain P E (b :: prev :: pprev)) :
    AcceptedChain P E (prev :: pprev) ∧ b.nHeight.toInt = prev.nHeight.toInt + 1 ∧
      ∃ block pcheckpoint, b.nVersion = block.nVersion ∧
        checkHeaderOn P E pcheckpoint block prev pprev = .ok () := by
  cases h with
  | accept block pcheckpoint chain unknown height ok =>
    have hne : E.getHash block ≠ P.hashGenesisBlock := by
      intro heq
      obtain ⟨g, hg, hhash⟩ := chain.genesis_mem
      exact unknown g hg (by rw [hhash, heq])
    have hcheck : checkHeaderOn P E pcheckpoint block prev pprev = .ok () := by
      simp only [contextualCheckBlockHeader, if_neg hne] at ok
      cases hres : checkHeaderOn P E pcheckpoint block prev pprev with
      | ok u => rfl
      | error r =>
        rw [hres] at ok
        cases ok
    refine ⟨chain, ?_, block, pcheckpoint, rfl, hcheck⟩
    show (prev.nHeight + 1).toInt = _
    rw [Int32.toInt_add]
    have hlow := prev.nHeight.le_toInt
    have hone : (1 : Int32).toInt = 1 := rfl
    rw [hone, Int.bmod_eq_of_le (by omega) (by omega)]

/-! ## Lock-in -/

/-- The heights of the next block from which each version rule is checked. -/
def RuleInRange (version : Int32) (nextHeight : Int) : Prop :=
  version = 116 ∨ (version = 115 ∧ 1130000 ≤ nextHeight) ∨
    ((version = 113 ∨ version = 112) ∧ 600000 ≤ nextHeight)

theorem RuleInRange.mono {m n : Int} (h : RuleInRange v m) (hmn : m ≤ n) : RuleInRange v n := by
  rcases h with h | ⟨h, hm⟩ | ⟨h, hm⟩
  · exact .inl h
  · exact .inr (.inl ⟨h, by omega⟩)
  · exact .inr (.inr ⟨h, by omega⟩)

/-- A header that passes is not outdated under any rule whose height has come. -/
theorem checkHeaderOn_not_outdated {pcheckpoint : Option CBlockIndex}
    (h : checkHeaderOn P E pcheckpoint block prev pprev = .ok ())
    (hv : RuleInRange v (prev.nHeight + 1).toInt) : outdated P v block (prev :: pprev) = false := by
  simp only [checkHeaderOn, require_bind_eq_ok, require_ok_iff] at h
  obtain ⟨-, -, -, -, h112, h113, h115, h116⟩ := h
  have hle : ∀ {g : Int32}, g.toInt ≤ (prev.nHeight + 1).toInt → g ≤ prev.nHeight + 1 :=
    fun hg => Int32.le_iff_toInt_le.mpr hg
  rcases hv with rfl | ⟨rfl, hg⟩ | ⟨rfl | rfl, hg⟩
  · simpa using h116
  · simpa [hle (g := 1130000) hg] using h115
  · simpa [hle (g := 600000) hg] using h113
  · simpa [hle (g := 600000) hg] using h112

theorem lockIn_step (h : AcceptedChain P E (b :: prev :: pprev))
    (hv : RuleInRange v b.nHeight.toInt)
    (hmaj : isSuperMajority P v (prev :: pprev) P.nRejectBlockOutdatedMajority = true) :
    v ≤ b.nVersion := by
  obtain ⟨-, hheight, block, pcheckpoint, hversion, hcheck⟩ := h.inv
  have hv' : RuleInRange v (prev.nHeight + 1).toInt := by
    cases h with
    | accept => exact hv
  have hold := checkHeaderOn_not_outdated hcheck hv'
  rw [outdated, hmaj, Bool.and_true, decide_eq_false_iff_not, Int32.not_lt] at hold
  rw [hversion]
  exact hold

/-- Lock-in lasts along every continuation `d` of the chain. -/
theorem lockIn_run {p : CBlockIndex} (hv : RuleInRange v (p.nHeight.toInt + 1))
    (hmaj : isSuperMajority P v (p :: pprev) P.nRejectBlockOutdatedMajority = true)
    {d : List CBlockIndex} (h : AcceptedChain P E (d ++ p :: pprev)) :
    (∀ b ∈ d, v ≤ b.nVersion) ∧
      isSuperMajority P v (d ++ p :: pprev) P.nRejectBlockOutdatedMajority = true ∧
      (∀ q rest, d ++ p :: pprev = q :: rest → p.nHeight.toInt ≤ q.nHeight.toInt) := by
  induction d with
  | nil =>
    refine ⟨by simp, hmaj, ?_⟩
    rintro q rest ⟨⟩
    exact le_refl _
  | cons b d ih =>
    obtain ⟨q, rest, hq⟩ := exists_cons_of_ne_nil (show d ++ p :: pprev ≠ [] by simp)
    rw [cons_append, hq] at h
    obtain ⟨hchain, hheight, -⟩ := h.inv
    rw [← hq] at hchain
    obtain ⟨hall, hwin, hge⟩ := ih hchain
    have hqp := hge q rest hq
    rw [hq] at hwin
    have hb : v ≤ b.nVersion := lockIn_step h (hv.mono (by omega)) hwin
    refine ⟨?_, ?_, ?_⟩
    · simpa using ⟨hb, hall⟩
    · rw [cons_append, hq]
      exact isSuperMajority_cons hb hwin
    · rintro q' rest' heq
      cases heq
      omega

/-! ## The main network -/

theorem connectFlags_upgraded (hv : 116 ≤ block.nVersion)
    (hmaj : ∀ v ≤ 116, isSuperMajority P v pprev P.nEnforceBlockUpgradeMajority = true) :
    connectFlags P block pindex pprev &&& scriptVerifyDERSIG = scriptVerifyDERSIG ∧
      connectFlags P block pindex pprev &&& scriptVerifyCHECKLOCKTIMEVERIFY =
        scriptVerifyCHECKLOCKTIMEVERIFY := by
  have hv' : 114 ≤ block.nVersion := Int32.le_trans (by decide) hv
  unfold connectFlags
  simp only [hv, hv', hmaj 114 (by decide), hmaj 116 (by decide), decide_true, Bool.and_self,
    if_true]
  split_ifs <;> decide

theorem contextualCheckBlock_coinbase {chainHeight adjustedTime : Int} {block : CBlock}
    (hv : 112 ≤ block.nVersion)
    (hmaj : isSuperMajority P 112 (prev :: pprev) P.nEnforceBlockUpgradeMajority = true)
    (h : contextualCheckBlock P chainHeight adjustedTime block (prev :: pprev) = .ok ()) :
    pushInt64 (prev.nHeight + 1).toInt <+: coinbaseScriptSig block := by
  simp only [contextualCheckBlock, require_bind_eq_ok] at h
  have hpush := h.2
  rw [if_pos ⟨hv, hmaj⟩, require_ok_iff] at hpush
  simpa using hpush

/-- **`softFork_lockIn_permanent`** — on the main network, from a block `p` at which the version
`v` has the reject majority and whose next height is in range of the rule, every descendant
has the version and the majority again. After 116 has locked in, every later block is
connected with both script flags, and passes its contextual check only with the height at the
start of its coinbase. -/
theorem softFork_lockIn_permanent (E : HeaderEnv) {v : Int32} {p : CBlockIndex}
    {pprev : List CBlockIndex} (hv : RuleInRange v (p.nHeight.toInt + 1))
    (hmaj : isSuperMajority mainParams v (p :: pprev)
      mainParams.nRejectBlockOutdatedMajority = true) :
    (∀ d, AcceptedChain mainParams E (d ++ p :: pprev) → (∀ b ∈ d, v ≤ b.nVersion) ∧
      isSuperMajority mainParams v (d ++ p :: pprev)
        mainParams.nRejectBlockOutdatedMajority = true) ∧
    (v = 116 → ∀ d b (block : CBlock), AcceptedChain mainParams E (b :: (d ++ p :: pprev)) →
      b.nVersion = block.nVersion →
      connectFlags mainParams block.toCBlockHeader b (d ++ p :: pprev) &&& scriptVerifyDERSIG =
        scriptVerifyDERSIG ∧
      connectFlags mainParams block.toCBlockHeader b (d ++ p :: pprev) &&&
        scriptVerifyCHECKLOCKTIMEVERIFY = scriptVerifyCHECKLOCKTIMEVERIFY ∧
      ∀ chainHeight adjustedTime,
        contextualCheckBlock mainParams chainHeight adjustedTime block (d ++ p :: pprev) =
          .ok () → pushInt64 b.nHeight.toInt <+: coinbaseScriptSig block) := by
  refine ⟨?_, ?_⟩
  · intro d hd
    obtain ⟨hall, hwin, -⟩ := lockIn_run hv hmaj hd
    exact ⟨hall, hwin⟩
  rintro rfl d b block hchain hversion
  obtain ⟨q, rest, hq⟩ := exists_cons_of_ne_nil (show d ++ p :: pprev ≠ [] by simp)
  have hlocked := lockIn_run (d := b :: d) hv hmaj hchain
  have hb : (116 : Int32) ≤ block.nVersion := by
    rw [← hversion]
    exact hlocked.1 b (by simp)
  rw [hq] at hchain ⊢
  obtain ⟨hprev, -, -⟩ := hchain.inv
  have hwin : isSuperMajority mainParams 116 (q :: rest)
      mainParams.nRejectBlockOutdatedMajority = true := by
    rw [← hq] at hprev ⊢
    exact (lockIn_run hv hmaj hprev).2.1
  -- 950 blocks of version 116 are 750 blocks of any smaller version
  have hsub : ∀ w ≤ 116, isSuperMajority mainParams w (q :: rest)
      mainParams.nEnforceBlockUpgradeMajority = true := fun w hw =>
    isSuperMajority_mono hw (by decide) hwin
  obtain ⟨hdersig, hlockTime⟩ := @connectFlags_upgraded mainParams b _ _ hb hsub
  refine ⟨hdersig, hlockTime, fun chainHeight adjustedTime hok => ?_⟩
  have hpush := contextualCheckBlock_coinbase (Int32.le_trans (by decide) hb)
    (hsub 112 (by decide)) hok
  cases hchain with
  | accept => exact hpush

/-! ## A chain that locks in -/

/-- Headers of version 116 with the nonce and the time counting up. -/
def rampHeader (n : Nat) : CBlockHeader where
  nVersion := 116
  hashPrevBlock := 0
  hashMerkleRoot := 0
  nTime := UInt32.ofNat n
  nBits := 0
  nNonce := UInt32.ofNat n

/-- The nonce is the hash, but for the genesis block. -/
def rampEnv : HeaderEnv where
  getHash h := if h.nNonce = 0 then mainParams.hashGenesisBlock else BitVec.ofNat 256 h.nNonce.toNat
  getNextWorkRequired _ _ := 0
  fCheckpointsEnabled := false

def rampChain : Nat → List CBlockIndex
  | 0 => [CBlockIndex.ofHeader (rampHeader 0) mainParams.hashGenesisBlock 0]
  | n + 1 =>
    CBlockIndex.ofHeader (rampHeader (n + 1)) (rampEnv.getHash (rampHeader (n + 1)))
      (Int32.ofNat n + 1) :: rampChain n

theorem rampEnv_getHash (hpos : 0 < n) (hn : n < 2 ^ 31) :
    rampEnv.getHash (rampHeader n) = BitVec.ofNat 256 n := by
  have hnat : (UInt32.ofNat n).toNat = n := by
    rw [UInt32.toNat_ofNat', mod_eq_of_lt (by omega)]
  have hne : UInt32.ofNat n ≠ 0 := by
    intro h
    rw [h] at hnat
    simp at hnat
    omega
  simp only [rampEnv, rampHeader, hne, if_false, hnat]

theorem rampChain_head (n : Nat) : ∃ prev pprev, rampChain n = prev :: pprev ∧
    (n < 2 ^ 31 → prev.nHeight = Int32.ofNat n) := by
  cases n with
  | zero => exact ⟨_, _, rfl, fun _ => rfl⟩
  | succ n =>
    refine ⟨_, _, rfl, ?_⟩
    intro hn
    exact (Int32.ofNat_add n 1).symm

/-- Every entry has version 116, a time up to `n`, and the genesis hash or a hash up to `n`. -/
theorem rampChain_mem (hn : n < 2 ^ 31) (hb : b ∈ rampChain n) :
    b.nVersion = 116 ∧ b.getBlockTime ≤ n ∧ (b.phashBlock = some mainParams.hashGenesisBlock ∨
      ∃ k, 0 < k ∧ k ≤ n ∧ b.phashBlock = some (BitVec.ofNat 256 k)) := by
  induction n with
  | zero =>
    rw [rampChain, mem_singleton] at hb
    subst hb
    exact ⟨rfl, le_refl _, .inl rfl⟩
  | succ n ih =>
    rw [rampChain, mem_cons] at hb
    rcases hb with rfl | hb
    · refine ⟨rfl, ?_, .inr ⟨n + 1, by omega, le_refl _, ?_⟩⟩
      · show ((UInt32.ofNat (n + 1)).toNat : Int) ≤ _
        rw [UInt32.toNat_ofNat', mod_eq_of_lt (by omega)]
      · show some (rampEnv.getHash _) = _
        rw [rampEnv_getHash (by omega) hn]
    · obtain ⟨hver, htime, hhash⟩ := ih (by omega) hb
      refine ⟨hver, by push_cast; omega, ?_⟩
      rcases hhash with h | ⟨k, hk, hkn, h⟩
      · exact .inl h
      · exact .inr ⟨k, hk, by omega, h⟩

theorem getMedianTimePast_le {bound : Int} (hpos : 0 ≤ bound)
    (h : ∀ b ∈ chain, b.getBlockTime ≤ bound) : getMedianTimePast chain ≤ bound := by
  unfold getMedianTimePast
  set times := ((chain.take 11).map CBlockIndex.getBlockTime).mergeSort (· ≤ ·) with htimes
  rw [getD_eq_getElem?_getD]
  cases hget : times[times.length / 2]? with
  | none => exact hpos
  | some t =>
    have hmem : t ∈ times := mem_of_getElem? hget
    rw [mem_mergeSort, mem_map] at hmem
    obtain ⟨b, hb, rfl⟩ := hmem
    exact h b (mem_of_mem_take hb)

theorem rampChain_accepted (hn : n < 2 ^ 31) : AcceptedChain mainParams rampEnv (rampChain n) := by
  induction n with
  | zero => exact .genesis (rampHeader 0) rfl
  | succ n ih =>
    have hprevs := ih (by omega)
    obtain ⟨prev, pprev, hchain, hheight⟩ := rampChain_head n
    have hheight := hheight (by omega)
    have hmem : ∀ b ∈ prev :: pprev, _ := fun b hb =>
      rampChain_mem (n := n) (by omega) (hchain ▸ hb)
    rw [rampChain, hchain, ← hheight]
    rw [hchain] at hprevs
    have hhash := rampEnv_getHash (n := n + 1) (by omega) hn
    have hbig : ∀ k, k < 2 ^ 32 → BitVec.ofNat 256 k ≠ mainParams.hashGenesisBlock := by
      intro k hk heq
      have := congrArg BitVec.toNat heq
      rw [BitVec.toNat_ofNat, mod_eq_of_lt (by omega)] at this
      rw [this] at hk
      exact absurd hk (by decide)
    have hlen : prev.nHeight.toInt = n := by
      rw [hheight, Int32.toInt_ofNat_of_lt (by omega)]
    refine .accept (rampHeader (n + 1)) none hprevs ?_ (by omega) ?_
    · intro b hb heq
      rw [hhash] at heq
      rcases (hmem b hb).2.2 with h | ⟨k, -, hkn, h⟩
      · rw [h, Option.some.injEq] at heq
        exact hbig (n + 1) (by omega) heq.symm
      · rw [h, Option.some.injEq] at heq
        have := congrArg BitVec.toNat heq
        rw [BitVec.toNat_ofNat, BitVec.toNat_ofNat] at this
        omega
    · have hmedian := getMedianTimePast_le (Int.natCast_nonneg n) fun b hb => (hmem b hb).2.1
      have htime : ((rampHeader (n + 1)).nTime.toNat : Int) = n + 1 := by
        show ((UInt32.ofNat (n + 1)).toNat : Int) = _
        rw [UInt32.toNat_ofNat', mod_eq_of_lt (by omega)]
        rfl
      have hnew : ∀ v : Int32, v ≤ 116 →
          outdated mainParams v (rampHeader (n + 1)) (prev :: pprev) = false := by
        intro v hv
        have : ¬ (116 : Int32) < v := Int32.not_lt.mpr hv
        simp [outdated, rampHeader, this]
      rw [contextualCheckBlockHeader, hhash, if_neg (hbig _ (by omega))]
      have hok : checkHeaderOn mainParams rampEnv none (rampHeader (n + 1)) prev pprev =
          .ok () := by
        simp only [checkHeaderOn, require_bind_eq_ok, require_ok_iff, hnew 112 (by decide),
          hnew 113 (by decide), hnew 115 (by decide), hnew 116 (by decide), htime]
        refine ⟨rfl, ?_, rfl, rfl, ?_⟩
        · rw [decide_eq_true_eq]
          omega
        · simp
      rw [hok]
      rfl

/-- On a chain of version 116 the rule locks in at height 1000 and stays locked in. -/
theorem softFork_lockIn_permanent_ramp : AcceptedChain mainParams rampEnv (rampChain 1001) ∧
    isSuperMajority mainParams 116 (rampChain 1001)
      mainParams.nRejectBlockOutdatedMajority = true := by
  have hchain : AcceptedChain mainParams rampEnv (rampChain 1001) := rampChain_accepted (by decide)
  refine ⟨hchain, ?_⟩
  obtain ⟨p, pprev, hp, -⟩ := rampChain_head 1000
  have hmaj : isSuperMajority mainParams 116 (p :: pprev)
      mainParams.nRejectBlockOutdatedMajority = true := by
    rw [isSuperMajority_iff, ← hp, versionCount, countP_eq_length.mpr]
    · have hlen : ∀ n, (rampChain n).length = n + 1 := by
        intro n
        induction n with
        | zero => rfl
        | succ n ih => rw [rampChain, length_cons, ih]
      rw [length_take, hlen]
      decide
    · intro b hb
      rw [(rampChain_mem (by decide) (mem_of_mem_take hb)).1]
      decide
  have hsplit : rampChain 1001 = [CBlockIndex.ofHeader (rampHeader 1001)
      (rampEnv.getHash (rampHeader 1001)) (Int32.ofNat 1000 + 1)] ++ p :: pprev := by
    rw [rampChain, hp]
    rfl
  rw [hsplit] at hchain ⊢
  exact ((softFork_lockIn_permanent rampEnv (.inl rfl) hmaj).1 _ hchain).2

end MonetaryUnit
