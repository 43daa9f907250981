/-
# MonetaryUnit.Net.AddrMan — the address manager

`CAddrMan` of `addrman.h` and `addrman.cpp`: entries under ids, an index from addresses to ids, a
shuffled list of all ids, and two tables of slots. An address that was only heard of is in up to
eight slots of the new table; one that was connected to is in one slot of the tried table. The hash
functions that choose the slots are a parameter (`AddrEnv`); the clock and the random numbers are
arguments of each call.

A slot is `none` for the `-1` of the code. An operation is `none` where an assertion of the code
fails, where `operator[]` would make an entry for an id that has none, and where the counter that
hands out the ids, an `int`, would overflow. The walk over `mapInfo` is one over the ids below it.
-/

import Mathlib.Data.List.AList
import Mathlib.Data.List.ProdSigma
import MonetaryUnit.Net.Address
import MonetaryUnit.Primitives.Transaction

namespace MonetaryUnit

/-! ## Entries -/

/-- `nRefCount`, `fInTried` and `nRandomPos` are in memory only. -/
structure CAddrInfo extends CAddress where
  source : CNetAddr
  nLastSuccess : Int64 := 0
  nAttempts : Int32 := 0
  nRefCount : Int := 0
  fInTried : Bool := false
  nRandomPos : Int := -1
deriving DecidableEq, Repr

/-- An `int64_t` assigned to the `unsigned int nTime`, kept from being negative. -/
def clampTime (nTime : Int64) : UInt32 := (max 0 nTime).toUInt64.toUInt32

/-- `nTime` in the arithmetic of `int64_t`. -/
def CAddress.time (addr : CAddress) : Int64 := addr.nTime.toUInt64.toInt64

namespace CAddrInfo

/-- `CAddrInfo(addrIn, addrSource)`: `Init` forgets the last try. -/
def ofAddress (addrIn : CAddress) (addrSource : CNetAddr) : CAddrInfo :=
  { addrIn with source := addrSource, nLastTry := 0 }

/-- Statistics so bad that the entry can be dropped. -/
def isTerrible (info : CAddrInfo) (nNow : Int64) : Bool :=
  if info.nLastTry ≠ 0 ∧ info.nLastTry ≥ nNow - 60 then false
  else if info.time > nNow + 10 * 60 then true
  else if info.nTime = 0 ∨ nNow - info.time > 30 * 24 * 60 * 60 then true
  else if info.nLastSuccess = 0 ∧ info.nAttempts ≥ 3 then true
  else if nNow - info.nLastSuccess > 7 * 24 * 60 * 60 ∧ info.nAttempts ≥ 10 then true
  else false

def addRef (n : Int) (info : CAddrInfo) : CAddrInfo := { info with nRefCount := info.nRefCount + n }

def setRef (n : Int) (info : CAddrInfo) : CAddrInfo := { info with nRefCount := n }

def setTried (b : Bool) (info : CAddrInfo) : CAddrInfo := { info with fInTried := b }

def setRandomPos (p : Int) (info : CAddrInfo) : CAddrInfo := { info with nRandomPos := p }

/-- `Add_` on an address that is known: a later `nTime`, and more services. -/
def refresh (addr : CAddress) (nTimePenalty nNow : Int64) (info : CAddrInfo) : CAddrInfo :=
  let fCurrentlyOnline := nNow - addr.time < 24 * 60 * 60
  let nUpdateInterval : Int64 := if fCurrentlyOnline then 60 * 60 else 24 * 60 * 60
  { info with
    nTime :=
      if addr.nTime ≠ 0 ∧ (info.nTime = 0 ∨
          info.time < addr.time - nUpdateInterval - nTimePenalty) then
        clampTime (addr.time - nTimePenalty)
      else info.nTime
    nServices := info.nServices ||| addr.nServices }

/-- `Add_` on an address that is new. -/
def penalize (nTimePenalty : Int64) (info : CAddrInfo) : CAddrInfo :=
  { info with nTime := clampTime (info.time - nTimePenalty) }

/-- Whether `Add_` looks for one more slot for a known entry: there is new information, it is
not tried, it has not the most references, and the stochastic test lets it pass. -/
def wantsSlot (info : CAddrInfo) (addr : CAddress) (rnd : Nat) : Bool :=
  let nFactor := 2 ^ info.nRefCount.toNat
  !(addr.nTime == 0 || (info.nTime != 0 && decide (addr.nTime ≤ info.nTime))) &&
    !info.fInTried && info.nRefCount != 8 && !(decide (nFactor > 1) && rnd % nFactor != 0)

/-- `Good_`; `nTime` is not updated. -/
def noteGood (nTime : Int64) (info : CAddrInfo) : CAddrInfo :=
  { info with nLastSuccess := nTime, nLastTry := nTime, nAttempts := 0 }

/-- `Attempt_`. -/
def noteAttempt (nTime : Int64) (info : CAddrInfo) : CAddrInfo :=
  { info with nLastTry := nTime, nAttempts := info.nAttempts + 1 }

/-- `Connected_`. -/
def noteConnected (nTime : Int64) (info : CAddrInfo) : CAddrInfo :=
  if nTime - info.time > 20 * 60 then { info with nTime := nTime.toUInt64.toUInt32 } else info

end CAddrInfo

/-! ## Slots -/

abbrev TriedSlot := Fin 256 × Fin 64
abbrev NewSlot := Fin 1024 × Fin 64

/-- The hashes behind bucket numbers and positions, and which addresses are routable. -/
structure AddrEnv where
  getTriedBucket : Uint256 → CService → Fin 256
  getNewBucket : Uint256 → CService → CNetAddr → Fin 1024
  getBucketPosition : Uint256 → Bool → Nat → CService → Fin 64
  isRoutable : CNetAddr → Bool

namespace AddrEnv

variable (env : AddrEnv) (nKey : Uint256)

/-- Where a new entry goes in a bucket. -/
def newSlot (addr : CService) (nUBucket : Fin 1024) : NewSlot :=
  (nUBucket, env.getBucketPosition nKey true nUBucket addr)

/-- Where a tried entry goes. -/
def triedSlot (addr : CService) : TriedSlot := (env.getTriedBucket nKey addr,
    env.getBucketPosition nKey false (env.getTriedBucket nKey addr) addr)

end AddrEnv

/-! ## The manager and its primitives -/

/-- The entries with their two indexes, and the two tables. -/
structure CAddrMan where
  nKey : Uint256
  nIdCount : Nat
  mapInfo : Nat → Option CAddrInfo
  mapAddr : CNetAddr → Option Nat
  vRandom : List Nat
  nTried : Int
  vvTried : TriedSlot → Option Nat
  nNew : Int
  vvNew : NewSlot → Option Nat

/-- An `int` passed as an `unsigned int`. -/
def asUnsigned (x : Int) : Nat := if x < 0 then (x + 2 ^ 32).toNat else x.toNat

namespace CAddrMan

/-- `Clear` on construction, for the key that `GetRandHash` returns. -/
def empty (nKey : Uint256) : CAddrMan where
  nKey
  nIdCount := 0
  mapInfo := fun _ => none
  mapAddr := fun _ => none
  vRandom := []
  nTried := 0
  vvTried := fun _ => none
  nNew := 0
  vvNew := fun _ => none

/-- Assignments to the fields of an entry. -/
def modifyInfo (m : CAddrMan) (nId : Nat) (f : CAddrInfo → CAddrInfo) : CAddrMan :=
  { m with mapInfo := Function.update m.mapInfo nId ((m.mapInfo nId).map f) }

def setNewSlot (m : CAddrMan) (s : NewSlot) (nId : Option Nat) : CAddrMan :=
  { m with vvNew := Function.update m.vvNew s nId }

def setTriedSlot (m : CAddrMan) (k : TriedSlot) (nId : Option Nat) : CAddrMan :=
  { m with vvTried := Function.update m.vvTried k nId }

def addNew (m : CAddrMan) (n : Int) : CAddrMan := { m with nNew := m.nNew + n }

def addTried (m : CAddrMan) (n : Int) : CAddrMan := { m with nTried := m.nTried + n }

def find (m : CAddrMan) (addr : CNetAddr) : Option (Nat × CAddrInfo) :=
  (m.mapAddr addr).bind fun nId => (m.mapInfo nId).map fun info => (nId, info)

/-- An entry under the next id, last in `vRandom`. -/
def insertInfo (m : CAddrMan) (info : CAddrInfo) : CAddrMan := { m with
    nIdCount := m.nIdCount + 1
    mapInfo := Function.update m.mapInfo m.nIdCount (some (info.setRandomPos m.vRandom.length))
    mapAddr := Function.update m.mapAddr info.toCNetAddr (some m.nIdCount)
    vRandom := m.vRandom ++ [m.nIdCount] }

/-- The id of the new entry is the counter before the call, `nIdCount++`. -/
def create (m : CAddrMan) (addr : CAddress) (addrSource : CNetAddr) : Option CAddrMan :=
  if m.nIdCount < 2 ^ 31 - 1 then some (m.insertInfo (CAddrInfo.ofAddress addr addrSource))
  else none

/-- The assignments of `SwapRandom`. -/
def exchange (m : CAddrMan) (nRndPos1 nRndPos2 nId1 nId2 : Nat) : CAddrMan :=
  let m1 := m.modifyInfo nId1 (CAddrInfo.setRandomPos nRndPos2)
  let m2 := m1.modifyInfo nId2 (CAddrInfo.setRandomPos nRndPos1)
  { m2 with vRandom := (m.vRandom.set nRndPos1 nId2).set nRndPos2 nId1 }

/-- Exchange two positions of the random order. -/
def swapRandom (m : CAddrMan) (nRndPos1 nRndPos2 : Nat) : Option CAddrMan :=
  if nRndPos1 = nRndPos2 then some m
  else
    match m.vRandom[nRndPos1]?, m.vRandom[nRndPos2]? with
    | some nId1, some nId2 =>
      if (m.mapInfo nId1).isSome && (m.mapInfo nId2).isSome then
        some (m.exchange nRndPos1 nRndPos2 nId1 nId2)
      else none
    | _, _ => none

/-- What `Delete` does once the entry is last in `vRandom`. -/
def dropLastEntry (m : CAddrMan) (nId : Nat) (addr : CNetAddr) : CAddrMan := { m with
    vRandom := m.vRandom.dropLast
    mapAddr := Function.update m.mapAddr addr none
    mapInfo := Function.update m.mapInfo nId none
    nNew := m.nNew - 1 }

/-- Remove an entry that is in neither table. -/
def delete (m : CAddrMan) (nId : Nat) : Option CAddrMan := (m.mapInfo nId).bind fun info =>
    if info.fInTried = false ∧ info.nRefCount = 0 then
      (m.swapRandom (asUnsigned info.nRandomPos) (asUnsigned (m.vRandom.length - 1))).map
        fun m => m.dropLastEntry nId info.toCNetAddr
    else none

/-- One reference less, and the slot free. -/
def unlink (m : CAddrMan) (s : NewSlot) (nId : Nat) : CAddrMan :=
  (m.modifyInfo nId (CAddrInfo.addRef (-1))).setNewSlot s none

/-- Empty a slot; an entry without references goes. -/
def clearNew (m : CAddrMan) (s : NewSlot) : Option CAddrMan :=
  match m.vvNew s with
  | none => some m
  | some nIdDelete =>
    (m.mapInfo nIdDelete).bind fun infoDelete =>
      if infoDelete.nRefCount > 0 then
        if infoDelete.nRefCount - 1 = 0 then (m.unlink s nIdDelete).delete nIdDelete
        else some (m.unlink s nIdDelete)
      else none

variable (env : AddrEnv)

/-- The body of the loop of `MakeTried` over the new buckets. -/
def unlinkBucket (addr : CService) (nId : Nat) (m : CAddrMan) (bucket : Fin 1024) : CAddrMan :=
  let s := env.newSlot m.nKey addr bucket
  if m.vvNew s = some nId then m.unlink s nId else m

/-- Take the entry out of every new bucket. -/
def unlinkAll (m : CAddrMan) (addr : CService) (nId : Nat) : CAddrMan :=
  (List.finRange 1024).foldl (unlinkBucket env addr nId) m

/-- Out of the tried table. -/
def leaveTried (m : CAddrMan) (k : TriedSlot) (nId : Nat) : CAddrMan :=
  ((m.modifyInfo nId (CAddrInfo.setTried false)).setTriedSlot k none).addTried (-1)

/-- Into the new table again, with one reference. -/
def reenterNew (m : CAddrMan) (s : NewSlot) (nId : Nat) : CAddrMan :=
  ((m.modifyInfo nId (CAddrInfo.setRef 1)).setNewSlot s (some nId)).addNew 1

/-- The tried entry in the way goes back to the new table, deleting whatever is there. -/
def evict (m : CAddrMan) (k : TriedSlot) : Option CAddrMan :=
  match m.vvTried k with
  | none => some m
  | some nIdEvict =>
    (m.mapInfo nIdEvict).bind fun infoOld =>
      let s := env.newSlot m.nKey infoOld.toCService
        (env.getNewBucket m.nKey infoOld.toCService infoOld.source)
      ((m.leaveTried k nIdEvict).clearNew s).bind fun m =>
        if m.vvNew s = none then some (m.reenterNew s nIdEvict) else none

/-- The last lines of `MakeTried`. -/
def enterTried (m : CAddrMan) (k : TriedSlot) (nId : Nat) : CAddrMan :=
  ((m.setTriedSlot k (some nId)).addTried 1).modifyInfo nId (CAddrInfo.setTried true)

/-- Move an entry to the tried table; who sits there goes back to new. -/
def makeTried (m : CAddrMan) (nId : Nat) : Option CAddrMan := (m.mapInfo nId).bind fun info =>
    let m1 := (m.unlinkAll env info.toCService nId).addNew (-1)
    let k := env.triedSlot m.nKey info.toCService
    if (m1.mapInfo nId).map CAddrInfo.nRefCount = some 0 then
      (m1.evict env k).bind fun m2 =>
        if m2.vvTried k = none then some (m2.enterTried k nId) else none
    else none

/-! ## The calls -/

/-- The entry a call about a service is for: same address and same port. -/
def findExact (m : CAddrMan) (addr : CService) : Option (Nat × CAddrInfo) :=
  (m.find addr.toCNetAddr).filter fun p => p.2.toCService = addr

/-- The bucket that `Good_` finds the entry in, looking from a random one on. -/
def findNewBucket (m : CAddrMan) (addr : CService) (nId nRnd : Nat) : Option (Fin 1024) :=
  ((List.range 1024).map fun n => Fin.ofNat 1024 (n + nRnd)).find? fun nB =>
    m.vvNew (env.newSlot m.nKey addr nB) = some nId

/-- A connection succeeded: the entry becomes tried. -/
def good_ (m : CAddrMan) (addr : CService) (nTime : Int64) (nRnd : Nat) : Option CAddrMan :=
  match m.findExact addr with
  | none => some m
  | some (nId, info) =>
    let m1 := m.modifyInfo nId (CAddrInfo.noteGood nTime)
    if info.fInTried then some m1
    else
      match m1.findNewBucket env addr nId nRnd with
      | none => some m1
      | some _ => m1.makeTried env nId

/-- Note a connection attempt. -/
def attempt_ (m : CAddrMan) (addr : CService) (nTime : Int64) : CAddrMan :=
  match m.findExact addr with
  | none => m
  | some (nId, _) => m.modifyInfo nId (CAddrInfo.noteAttempt nTime)

/-- Refresh the time, at most every twenty minutes. -/
def connected_ (m : CAddrMan) (addr : CService) (nTime : Int64) : CAddrMan :=
  match m.findExact addr with
  | none => m
  | some (nId, _) => m.modifyInfo nId (CAddrInfo.noteConnected nTime)

/-- `fInsert`: the slot is free, or what is there may be overwritten. -/
def mayInsert (m : CAddrMan) (s : NewSlot) (pinfo : CAddrInfo) (nNow : Int64) : Option Bool :=
  match m.vvNew s with
  | none => some true
  | some nIdExisting => (m.mapInfo nIdExisting).map fun infoExisting =>
    infoExisting.isTerrible nNow || (decide (infoExisting.nRefCount > 1) && pinfo.nRefCount == 0)

/-- One reference more, in a free slot. -/
def link (m : CAddrMan) (s : NewSlot) (nId : Nat) : CAddrMan :=
  (m.modifyInfo nId (CAddrInfo.addRef 1)).setNewSlot s (some nId)

/-- The second half of `Add_`: a slot for the entry, in the bucket for this source. -/
def place (m : CAddrMan) (nId : Nat) (source : CNetAddr) (nNow : Int64) : Option CAddrMan :=
  (m.mapInfo nId).bind fun pinfo =>
    let s := env.newSlot m.nKey pinfo.toCService (env.getNewBucket m.nKey pinfo.toCService source)
    if m.vvNew s = some nId then some m
    else
      (m.mayInsert s pinfo nNow).bind fun fInsert =>
        if fInsert then (m.clearNew s).map fun m => m.link s nId
        else if pinfo.nRefCount = 0 then m.delete nId
        else some m

/-- The result says whether the address was new; `rnd` is for the stochastic test. -/
def add_ (m : CAddrMan) (addr : CAddress) (source : CNetAddr) (nTimePenalty nNow : Int64)
    (rnd : Nat) : Option (Bool × CAddrMan) :=
  if env.isRoutable addr.toCNetAddr then
    match m.find addr.toCNetAddr with
    | some (nId, info) =>
      let m1 := m.modifyInfo nId (CAddrInfo.refresh addr nTimePenalty nNow)
      if (info.refresh addr nTimePenalty nNow).wantsSlot addr rnd then
        (m1.place env nId source nNow).map fun m => (false, m)
      else some (false, m1)
    | none =>
      (m.create addr source).bind fun m1 =>
        let m2 := (m1.modifyInfo m.nIdCount (CAddrInfo.penalize nTimePenalty)).addNew 1
        (m2.place env m.nIdCount source nNow).map fun m => (true, m)
  else some (false, m)

/-- The loop of `GetAddr_`, from position `n` on with `k` positions left. -/
def getAddrFrom (nNow : Int64) (rnd : Nat → Nat) (nNodes : Nat) :
    Nat → Nat → CAddrMan → List CAddress → Option (CAddrMan × List CAddress)
  | 0, _, m, vAddr => some (m, vAddr)
  | k + 1, n, m, vAddr =>
    if vAddr.length ≥ nNodes then some (m, vAddr)
    else
      (m.swapRandom n (rnd n % (m.vRandom.length - n) + n)).bind fun m =>
        (m.vRandom[n]?.bind m.mapInfo).bind fun ai =>
          getAddrFrom nNow rnd nNodes k (n + 1) m
            (if ai.isTerrible nNow then vAddr else vAddr ++ [ai.toCAddress])

/-- Draw at most 23 percent of the entries and 2500. -/
def getAddr_ (m : CAddrMan) (vAddr : List CAddress) (nNow : Int64) (rnd : Nat → Nat) :
    Option (CAddrMan × List CAddress) :=
  getAddrFrom nNow rnd (min (23 * m.vRandom.length / 100) 2500) m.vRandom.length 0 m vAddr

end CAddrMan

/-- A call with its arguments, the clock and the random numbers it draws. -/
inductive AddrCall where
  | add (addr : CAddress) (source : CNetAddr) (nTimePenalty nNow : Int64) (rnd : Nat)
  | good (addr : CService) (nTime : Int64) (nRnd : Nat)
  | attempt (addr : CService) (nTime : Int64)
  | connected (addr : CService) (nTime : Int64)
  | getAddr (vAddr : List CAddress) (nNow : Int64) (rnd : Nat → Nat)

namespace CAddrMan

variable (env : AddrEnv)

def call (m : CAddrMan) : AddrCall → Option CAddrMan
  | .add addr source nTimePenalty nNow rnd =>
    (m.add_ env addr source nTimePenalty nNow rnd).map Prod.snd
  | .good addr nTime nRnd => m.good_ env addr nTime nRnd
  | .attempt addr nTime => some (m.attempt_ addr nTime)
  | .connected addr nTime => some (m.connected_ addr nTime)
  | .getAddr vAddr nNow rnd => (m.getAddr_ vAddr nNow rnd).map Prod.fst

def run (m : CAddrMan) (calls : List AddrCall) : Option CAddrMan := calls.foldlM (call env) m

/-! ## `Check_` -/

/-- The entries in the order of the code's map. -/
def ids (m : CAddrMan) : List Nat := (List.range m.nIdCount).filter fun n => (m.mapInfo n).isSome

/-- `setTried` and `mapNew`. -/
structure CheckSets where
  setTried : Finset Nat
  mapNew : AList fun _ : Nat => Int

/-- The part of the entry loop that fills the sets. -/
def checkKind (sets : CheckSets) (n : Nat) (info : CAddrInfo) : Except Int CheckSets :=
  if info.fInTried then
    if info.nLastSuccess = 0 then .error (-1)
    else if info.nRefCount ≠ 0 then .error (-2)
    else .ok { sets with setTried := insert n sets.setTried }
  else
    if info.nRefCount < 0 ∨ info.nRefCount > 8 then .error (-3)
    else if info.nRefCount = 0 then .error (-4)
    else .ok { sets with mapNew := sets.mapNew.insert n info.nRefCount }

/-- The rest of the entry loop. `mapAddr[info]` is `0` for an address that is not there. -/
def checkIndexes (m : CAddrMan) (n : Nat) (info : CAddrInfo) : Except Int Unit :=
  if (m.mapAddr info.toCNetAddr).getD 0 ≠ n then .error (-5)
  else if info.nRandomPos < 0 ∨ m.vRandom[info.nRandomPos.toNat]? ≠ some n then .error (-14)
  else if info.nLastTry < 0 then .error (-6)
  else if info.nLastSuccess < 0 then .error (-8)
  else .ok ()

def checkEntry (m : CAddrMan) (sets : CheckSets) (n : Nat) : Except Int CheckSets :=
  match m.mapInfo n with
  | none => .ok sets
  | some info => (checkKind sets n info).bind fun sets => (m.checkIndexes n info).map fun _ => sets

def triedSlots : List TriedSlot := List.finRange 256 ×ˢ List.finRange 64

def newSlots : List NewSlot := List.finRange 1024 ×ˢ List.finRange 64

def checkTriedSlot (m : CAddrMan) (setTried : Finset Nat) (k : TriedSlot) :
    Except Int (Finset Nat) :=
  match m.vvTried k with
  | none => .ok setTried
  | some nId =>
    if nId ∉ setTried then .error (-11)
    else
      match m.mapInfo nId with
      | none => .error (-11)
      | some info =>
        if env.getTriedBucket m.nKey info.toCService ≠ k.1 then .error (-17)
        else if env.getBucketPosition m.nKey false k.1 info.toCService ≠ k.2 then .error (-18)
        else .ok (setTried.erase nId)

def checkNewSlot (m : CAddrMan) (mapNew : AList fun _ : Nat => Int) (s : NewSlot) :
    Except Int (AList fun _ : Nat => Int) :=
  match m.vvNew s with
  | none => .ok mapNew
  | some nId =>
    match mapNew.lookup nId, m.mapInfo nId with
    | some nLeft, some info =>
      if env.getBucketPosition m.nKey true s.1 info.toCService ≠ s.2 then .error (-19)
      else if nLeft - 1 = 0 then .ok (mapNew.erase nId)
      else .ok (mapNew.insert nId (nLeft - 1))
    | _, _ => .error (-12)

/-- The checks in the order of the code; the error is the code returned. -/
def checkAll (m : CAddrMan) : Except Int Unit :=
  if (m.vRandom.length : Int) ≠ m.nTried + m.nNew then .error (-7)
  else
    (m.ids.foldlM (m.checkEntry) ⟨∅, ∅⟩).bind fun sets =>
      if (sets.setTried.card : Int) ≠ m.nTried then .error (-9)
      else if (sets.mapNew.keys.length : Int) ≠ m.nNew then .error (-10)
      else
        (triedSlots.foldlM (m.checkTriedSlot env) sets.setTried).bind fun setTried =>
          (newSlots.foldlM (m.checkNewSlot env) sets.mapNew).bind fun mapNew =>
            if setTried.card ≠ 0 then .error (-13)
            else if mapNew.keys.length ≠ 0 then .error (-15)
            else if m.nKey = 0 then .error (-16)
            else .ok ()

/-- The consistency check: zero, or the number of the first failure. -/
def check_ (m : CAddrMan) : Int :=
  match m.checkAll env with
  | .error err => err
  | .ok _ => 0

end CAddrMan

end MonetaryUnit
