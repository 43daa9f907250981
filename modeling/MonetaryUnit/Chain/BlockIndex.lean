/-
# MonetaryUnit.Chain.BlockIndex — block index entries and network parameters

A block index entry of `chain.h` together with its ancestors is a list, the entry first and
the genesis block last; `pprev` is the tail and `NULL` the empty list. The parameters are
those of `CMainParams` in `chainparams.cpp` that the modelled checks read.

`IsSuperMajority` counts versions over a window of the last blocks and stops as soon as it
has found enough; `isSuperMajority_iff` removes the early exit.
-/

import MonetaryUnit.Primitives.Transaction

namespace MonetaryUnit

open List

/-! ## Entries -/

/-- The header fields, the height, and the hash if the entry has one: the entry that
`CreateNewBlock` checks a template with has none. -/
structure CBlockIndex where
  phashBlock : Option Uint256
  nHeight : Int32
  nVersion : Int32
  hashMerkleRoot : Uint256
  nTime : UInt32
  nBits : UInt32
  nNonce : UInt32
deriving DecidableEq, Repr

/-- `CBlockIndex(block)` with the hash and height that `AddToBlockIndex` gives it. -/
def CBlockIndex.ofHeader (h : CBlockHeader) (hash : Uint256) (nHeight : Int32) : CBlockIndex where
  phashBlock := some hash
  nHeight := nHeight
  nVersion := h.nVersion
  hashMerkleRoot := h.hashMerkleRoot
  nTime := h.nTime
  nBits := h.nBits
  nNonce := h.nNonce

/-- Timestamps are compared as `int64_t`, where every `uint32_t` fits. -/
def CBlockIndex.getBlockTime (b : CBlockIndex) : Int := b.nTime.toNat

/-- The median of the last eleven timestamps. -/
def getMedianTimePast (pindex : List CBlockIndex) : Int :=
  let times := ((pindex.take 11).map CBlockIndex.getBlockTime).mergeSort (· ≤ ·)
  times.getD (times.length / 2) 0

/-! ## Parameters -/

structure ChainParams where
  hashGenesisBlock : Uint256
  nEnforceBlockUpgradeMajority : Nat
  nRejectBlockOutdatedMajority : Nat
  nToCheckBlockUpgradeMajority : Nat
  fSkipProofOfWorkCheck : Bool
  mapCheckpoints : List (Int32 × Uint256)

/-- The main network. -/
def mainParams : ChainParams where
  hashGenesisBlock := 0x0000070e6b650e7a6f20e015031b74c1f7e2b25ed4e419d8825ab9cc7eccfa92
  nEnforceBlockUpgradeMajority := 750
  nRejectBlockOutdatedMajority := 950
  nToCheckBlockUpgradeMajority := 1000
  fSkipProofOfWorkCheck := false
  mapCheckpoints := [(0, 0x0000070e6b650e7a6f20e015031b74c1f7e2b25ed4e419d8825ab9cc7eccfa92),
     (1, 0x000008a6e7c1c9547c5b2e7bc1e30f813cc9684428e11e8bbc2f0f270943f318),
     (50000, 0x00000010be6026f1f993dc2d51654ffeab948269cc067ea0bd3760c87ecfc7d0),
     (100000, 0x000000380d10bb4bb67ff8ef4c193f9a83a9d390389138c8a690722fb1ee2094),
     (150000, 0x000000020ee690f42fb7937038de393a734c7b0094b0185491c8483038b54a79),
     (200000, 0x0000000089e209620a4819d46a7bdbba03924d3af1ae6f7668d8cc977d4e542c),
     (250000, 0x000000010f69e2769cdacd033779acf44c7dc1e862eb5314b7179088d1c38b1e),
     (281000, 0x00000000b1fb0f01e1eca91c8f6b869ec339f64210afeb793a5d75fc6c26b87b),
     (460000, 0x00000000add7d91ce6ee36330c6ac821da1bda24dfbdf534d56c74e7f87da395),
     (470000, 0x00000001a7e2ebc09c3e8df413180b800c0a61f26fe744e539ddd339f89a468f),
     (490000, 0x00000000dfba6baf869f8b5b43568b3008531046fef5a6caf83ca2082b264e21),
     (500000, 0x0000000041e7a379e70a0bd8e2fcb97e9badd40199df9d4232ede49c87706a88),
     (510000, 0x000000000249a0638e89196a806350de4c302687c8939486875dd26faf102838),
     (520000, 0x000000006f3915dd9fceb71a3bcd7db79f069a7a3f81f0292eb69422628bb7b5),
     (530000, 0x0000000028aa5e234f9923e3b600ed15faf597e9adea8c0a63cc407122fd5452),
     (540000, 0x0000000029695216538bc6f2ed706237a2a7fc120ab53f37a629d69735babde4),
     (550000, 0x00000000209dbf5cdabdee5c0d1c19ba9d531386cebe0958d0e8ddb83a6fc513),
     (600000, 0x000000000f10d6e637f485f504745d99b9b372ac55b68cdb1a91c9d8f69bfb08),
     (650000, 0x0000000026a04fea7e487f152114788eefd49cadbb9010897a26b43865183f93),
     (700000, 0x00000000260bb06e7ca785e93a09b515d88fb4a83afd4fdb7b4e900bb6905247),
     (750000, 0x00000000ce1b8f61a60a226f8012e4670e9349169062f91a3c4bc06c81ef2641),
     (800000, 0x00000000b6a1fe048f218cf5e7d9f82b55b116a824ff6b13b47a83212e9396dd),
     (850000, 0x00000000379bf14f72c598d749c0a006349287babb4c7207b0084840d3f62c4b),
     (900000, 0x000000007b8bbd5bcda8ec2060c9962392521aec0456268318b386b8cf0c9e87),
     (950000, 0x00000000e251898025e74013e802da3c3495fe1dafd45939201edd9800d40b43),
     (1050000, 0x000000004012b493615e64f2350ea80f565f123808620390410db57154e20d29),
     (1100000, 0x0000000002e262f10fbfb4a77267585cdd47c149df8a297f19334fa4cde5c557),
     (1150000, 0x00000000d2c8ff71189060a1d97f2672f4a38dcc0bd97826afdb6de39401804f),
     (1200000, 0x0000000011a0228ba4fbd7db486ec9c05dad9357cc93e6ffc2205870ef036dfd),
     (1250000, 0x00000000a162ace289fbdc4b117e3069efc760aca5d78e5c6acd6302aced9c96)]

/-! ## Version majorities -/

/-- The loop of `IsSuperMajority`, with `toCheck` rounds left. -/
def countVersions (minVersion : Int32) (nRequired : Nat) : Nat → Nat → List CBlockIndex → Nat
  | 0, nFound, _ => nFound
  | toCheck + 1, nFound, pstart =>
    if nFound < nRequired then
      match pstart with
      | [] => nFound
      | p :: pprev =>
        countVersions minVersion nRequired toCheck
          (if minVersion ≤ p.nVersion then nFound + 1 else nFound) pprev
    else nFound

def isSuperMajority (P : ChainParams) (minVersion : Int32) (pstart : List CBlockIndex)
    (nRequired : Nat) : Bool :=
  nRequired ≤ countVersions minVersion nRequired P.nToCheckBlockUpgradeMajority 0 pstart

/-- How many of the last `n` blocks have at least the version. -/
def versionCount (minVersion : Int32) (n : Nat) (pstart : List CBlockIndex) : Nat :=
  (pstart.take n).countP fun p => minVersion ≤ p.nVersion

theorem versionCount_cons (v : Int32) (n : Nat) (p : CBlockIndex) (pprev : List CBlockIndex) :
    versionCount v (n + 1) (p :: pprev) =
      versionCount v n pprev + if v ≤ p.nVersion then 1 else 0 := by
  simp [versionCount, countP_cons]

variable {v : Int32} {pstart : List CBlockIndex} {P : ChainParams} {need : Nat}

/-- Stopping early does not change whether enough are found. -/
theorem countVersions_ge_iff {n found : Nat} :
    need ≤ countVersions v need n found pstart ↔ need ≤ found + versionCount v n pstart := by
  induction n generalizing found pstart with
  | zero => simp [countVersions, versionCount]
  | succ n ih =>
    by_cases hfound : found < need
    · cases pstart with
      | nil => simp [countVersions, versionCount]
      | cons p pprev =>
        simp only [countVersions, hfound, if_true]
        rw [versionCount_cons, ih]
        by_cases hv : v ≤ p.nVersion
        · simp only [hv, if_true]
          omega
        · simp only [hv, if_false]
          omega
    · have hstop : countVersions v need (n + 1) found pstart = found := by
        cases pstart <;> simp [countVersions, hfound]
      omega

theorem isSuperMajority_iff : isSuperMajority P v pstart need = true ↔
      need ≤ versionCount v P.nToCheckBlockUpgradeMajority pstart := by
  simp [isSuperMajority, countVersions_ge_iff]

/-- Fewer blocks of a smaller version are easier to find. -/
theorem isSuperMajority_mono {w : Int32} {m n : Nat} (hv : v ≤ w) (hm : m ≤ n)
    (h : isSuperMajority P w pstart n = true) : isSuperMajority P v pstart m = true := by
  rw [isSuperMajority_iff] at h ⊢
  have hcount : versionCount w P.nToCheckBlockUpgradeMajority pstart ≤
      versionCount v P.nToCheckBlockUpgradeMajority pstart := by
    apply countP_mono_left
    intro p _ hp
    simp only [decide_eq_true_eq] at hp ⊢
    exact Int32.le_trans hv hp
  omega

/-- A window keeps its majority when a block of the version enters it. -/
theorem isSuperMajority_cons {p : CBlockIndex} {pprev : List CBlockIndex} (hp : v ≤ p.nVersion)
    (h : isSuperMajority P v pprev need = true) : isSuperMajority P v (p :: pprev) need = true := by
  rw [isSuperMajority_iff] at h ⊢
  cases hn : P.nToCheckBlockUpgradeMajority with
  | zero =>
    rw [hn] at h
    simpa [versionCount] using h
  | succ n =>
    rw [hn] at h
    rw [versionCount_cons, if_pos hp]
    -- at most the oldest block leaves the window
    have hdrop : versionCount v (n + 1) pprev ≤ versionCount v n pprev + 1 := by
      unfold versionCount
      rw [take_add_one, countP_append]
      have hlen : (pprev[n]?.toList).length ≤ 1 := by
        cases pprev[n]? <;> simp
      have hle := countP_le_length (p := fun q : CBlockIndex => decide (v ≤ q.nVersion))
        (l := pprev[n]?.toList)
      omega
    omega

end MonetaryUnit
