/-
# MonetaryUnit.Net.AddrManReload — the entries come back

What `Serialize` writes of the entries, and what `Unserialize` makes of it. Reading goes through
the new entries in the order of their ids and then through the tried ones; the ids it hands out
are places in that list. At every moment its entries are those of a part of the list (`Loaded`),
and each step on them is one of the primitive steps of the address manager, so its indexes agree
throughout. A tried entry finds its slot free because the table that was written had it there.
-/

import MonetaryUnit.Serialize.Canonical
import MonetaryUnit.Net.AddrManChecked
import MonetaryUnit.Net.AddrManDisk

namespace MonetaryUnit

open Lib List Function Writes Reader CAddrInfo Option

/-! ## Entries -/

theorem readBE_of {n v : Nat} (h : v < 256 ^ n) (rest : Bytes) :
    readBE n (beBytes n v ++ rest) = .ok (v, rest) := by
  have hlen : (beBytes n v).length = n := by rw [beBytes, length_reverse, leBytes_length]
  rw [readBE, (canonical_readBytes endOfData n).bind_eq hlen, beBytes, reverse_reverse,
    leNat_leBytes h]
  rfl

theorem readNetAddr_of (a : CNetAddr) (rest : Bytes) :
    readNetAddr (a.serialize.bytes ++ rest) = .ok (a, rest) := by
  have hip : a.ip.toNat < 256 ^ 16 := lt_of_lt_of_eq a.ip.isLt (by decide)
  rw [CNetAddr.serialize, bytes_singleton, readNetAddr,
    bind_of_ok (readBE_of hip rest), BitVec.ofNat_toNat]
  rfl

theorem readService_of (s : CService) (rest : Bytes) :
    readService (s.serialize.bytes ++ rest) = .ok (s, rest) := by
  have hport : s.port.toNat < 256 ^ 2 := s.port.toNat_lt
  rw [CService.serialize, bytes_append, append_assoc, bytes_singleton,
    readService, bind_of_ok (readNetAddr_of _ _), bind_of_ok (readBE_of hport rest),
    UInt16.ofNat_toNat]
  rfl

/-- What of an address is stored. -/
theorem readAddress_of (nVersion : Int32) (a : CAddress) (rest : Bytes) :
    readAddress ((a.serialize nVersion).bytes ++ rest) = .ok ({ a with nLastTry := 0 }, rest) := by
  have hservices : a.nServices.toNat < 256 ^ 8 := a.nServices.toNat_lt
  rw [CAddress.serialize]
  simp only [bytes_append, append_assoc]
  rw [readAddress, canonical_readInt32.bind_eq trivial, canonical_readUint32.bind_eq trivial,
    bytes_singleton, (canonical_readLE endOfData 8).bind_eq hservices,
    bind_of_ok (readService_of _ _), UInt64.ofNat_toNat]
  rfl

/-- What of an entry is stored. -/
def CAddrInfo.stored (info : CAddrInfo) : CAddrInfo :=
  { info with nLastTry := 0, nRefCount := 0, fInTried := false, nRandomPos := -1 }

theorem readAddrInfo_of (nVersion : Int32) (info : CAddrInfo) (rest : Bytes) :
    readAddrInfo ((info.serialize nVersion).bytes ++ rest) = .ok (info.stored, rest) := by
  rw [serialize]
  simp only [bytes_append, append_assoc]
  rw [readAddrInfo, bind_of_ok (readAddress_of nVersion _ _),
    bind_of_ok (readNetAddr_of _ _), canonical_readInt64.bind_eq trivial,
    canonical_readInt32.bind_eq trivial]
  rfl

namespace CAddrMan

variable {env : AddrEnv} {m : CAddrMan} {n : Nat}

/-! ## What is written -/

def isNew (m : CAddrMan) (n : Nat) : Bool := (m.mapInfo n).any fun info => !info.fInTried

def isTried (m : CAddrMan) (n : Nat) : Bool := (m.mapInfo n).any CAddrInfo.fInTried

def newIds (m : CAddrMan) : List Nat := m.ids.filter m.isNew

def triedIds (m : CAddrMan) : List Nat := m.ids.filter m.isTried

/-- The entries in the order in which they are stored. -/
def order (m : CAddrMan) : List Nat := m.newIds ++ m.triedIds

/-- The id that an entry has after reading. -/
def newId (m : CAddrMan) (n : Nat) : Nat := m.order.idxOf n

theorem writeNews_spec (nVersion : Int32) (l : List Nat) (hnodup : l.Nodup)
    (hrefs : ∀ n ∈ l, ∀ info, m.mapInfo n = some info →
      (info.nRefCount ≠ 0 ↔ info.fInTried = false)) (pass : NewPass)
    (hroom : (pass.nIds : Int) + (l.filter m.isNew).length ≤ m.nNew) :
    ∃ pass', l.foldlM (m.writeNew nVersion) pass = some pass' ∧ pass'.written = pass.written ++
        ((l.filter m.isNew).filterMap m.mapInfo).flatMap (CAddrInfo.serialize nVersion) ∧
      (∀ i n, (l.filter m.isNew)[i]? = some n → pass'.mapUnkIds n = pass.nIds + i) ∧
      ∀ n, n ∉ l → pass'.mapUnkIds n = pass.mapUnkIds n := by
  induction l generalizing pass with
  | nil => exact ⟨pass, rfl, by simp, by simp, by simp⟩
  | cons j l ih =>
    obtain ⟨hj, hl⟩ := nodup_cons.mp hnodup
    rw [forall_mem_cons] at hrefs
    rw [foldlM_cons]
    by_cases hkind : m.isNew j = true
    · obtain ⟨info, hinfo, hnot⟩ := (any_eq_true _ _).mp hkind
      rw [filter_cons_of_pos hkind] at hroom ⊢
      rw [length_cons] at hroom
      have hstep : m.writeNew nVersion pass j =
          some ⟨update pass.mapUnkIds j pass.nIds, pass.nIds + 1,
            pass.written ++ info.serialize nVersion⟩ := by
        simp only [writeNew, hinfo, Option.elim]
        rw [if_pos ((hrefs.1 info hinfo).mpr (by simpa using hnot)), if_neg (by omega)]
      obtain ⟨pass', hok, hwritten, hunk, hother⟩ := ih hl hrefs.2
        ⟨update pass.mapUnkIds j pass.nIds, pass.nIds + 1,
          pass.written ++ info.serialize nVersion⟩ (by push_cast; omega)
      refine ⟨pass', by rw [hstep]; exact hok, ?_, ?_, ?_⟩
      · rw [hwritten, filterMap_cons_some hinfo, flatMap_cons, append_assoc]
      · intro i n hi
        rcases i with _ | i
        · rw [getElem?_cons_zero, some.injEq] at hi
          subst hi
          rw [hother j hj]
          exact update_self ..
        · rw [hunk i n hi]
          show pass.nIds + 1 + i = pass.nIds + (i + 1)
          omega
      · intro n hn
        rw [mem_cons, not_or] at hn
        rw [hother n hn.2]
        exact update_of_ne hn.1 _ _
    · -- no entry under this id, or a tried one
      have hstep : ∃ unk, m.writeNew nVersion pass j = some { pass with mapUnkIds := unk } ∧
          ∀ n, n ≠ j → unk n = pass.mapUnkIds n := by
        rw [writeNew]
        rcases hinfo : m.mapInfo j with _ | info
        · exact ⟨_, rfl, fun _ _ => rfl⟩
        · refine ⟨_, if_neg fun hne => hkind ?_, fun n hn => update_of_ne hn _ _⟩
          rw [isNew, hinfo]
          simp [(hrefs.1 info hinfo).mp hne]
      obtain ⟨unk, hstep, hunk'⟩ := hstep
      rw [filter_cons_of_neg hkind] at hroom ⊢
      obtain ⟨pass', hok, hwritten, hunk, hother⟩ :=
        ih hl hrefs.2 { pass with mapUnkIds := unk } hroom
      refine ⟨pass', by rw [hstep]; exact hok, hwritten, hunk, fun n hn => ?_⟩
      rw [mem_cons, not_or] at hn
      exact (hother n hn.2).trans (hunk' n hn.1)

theorem writeTrieds_spec (nVersion : Int32) (l : List Nat) (pass : Nat × Writes)
    (hroom : (pass.1 : Int) + (l.filter m.isTried).length ≤ m.nTried) :
    ∃ nIds, l.foldlM (m.writeTried nVersion) pass = some (nIds, pass.2 ++
      ((l.filter m.isTried).filterMap m.mapInfo).flatMap (CAddrInfo.serialize nVersion)) := by
  induction l generalizing pass with
  | nil => exact ⟨pass.1, by simp⟩
  | cons j l ih =>
    rw [foldlM_cons]
    by_cases hkind : m.isTried j = true
    · obtain ⟨info, hinfo, htried⟩ := (any_eq_true _ _).mp hkind
      rw [filter_cons_of_pos hkind] at hroom ⊢
      rw [length_cons] at hroom
      have hstep : m.writeTried nVersion pass j =
          some (pass.1 + 1, pass.2 ++ info.serialize nVersion) := by
        simp only [writeTried, hinfo, Option.elim]
        rw [if_pos htried, if_neg (by omega)]
      obtain ⟨nIds, hok⟩ := ih (pass.1 + 1, pass.2 ++ info.serialize nVersion) (by push_cast; omega)
      refine ⟨nIds, ?_⟩
      rw [hstep, filterMap_cons_some hinfo, flatMap_cons, ← append_assoc]
      exact hok
    · have hstep : m.writeTried nVersion pass j = some pass := by
        rw [writeTried]
        rcases hinfo : m.mapInfo j with _ | info
        · rfl
        · rw [isTried, hinfo] at hkind
          exact if_neg hkind
      rw [filter_cons_of_neg hkind] at hroom ⊢
      rw [hstep]
      exact ih pass hroom

/-! ## Indexes without counters -/

structure Indexed (env : AddrEnv) (timely : Prop) (m : CAddrMan) : Prop
    extends Tables env timely m where
  shuffled : m.Shuffled

variable {timely : Prop} {e : CAddrInfo}

/-- The counters as they should be. -/
def recount (m : CAddrMan) : CAddrMan := { m with nNew := m.newCount, nTried := m.triedCount }

/-- The indexes do not depend on the counters. -/
theorem Sound.indexed {d nNew nTried : Int} (h : Sound env timely d { m with nNew, nTried }) :
    Indexed env timely m :=
  { h with }

section

variable (h : Indexed env timely m)
include h

theorem Indexed.sound : Sound env timely 0 m.recount :=
  { h with nNew := (Int.add_zero _).symm, nTried := rfl }

theorem Indexed.insertInfo {info : CAddrInfo} (haddr : m.mapAddr info.toCNetAddr = none)
    (hrefs : info.nRefCount = 0) (hnot : info.fInTried = false) (hstats : StatsOk timely info) :
    Indexed env timely (m.insertInfo info) :=
  (h.sound.insertInfo haddr hrefs hnot hstats).indexed

theorem Indexed.enterTried {k : TriedSlot} (he : m.entry n = some e) (hnot : e.fInTried = false)
    (hzero : e.nRefCount = 0) (hsuccess : e.nLastSuccess ≠ 0) (hk : m.vvTried k = none)
    (hslot : env.triedSlot m.nKey e.toCService = k) : Indexed env timely (m.enterTried k n) :=
  (h.sound.enterTried (m := m.recount) he hnot hzero hsuccess hk hslot).indexed

theorem Indexed.link {s : NewSlot} (he : m.entry n = some e) (hnot : e.fInTried = false)
    (hs : m.vvNew s = none) (hslot : env.newSlot m.nKey e.toCService s.1 = s) :
    Indexed env timely (m.link s n) :=
  (h.sound.link (m := m.recount) he hnot hs hslot).indexed

end

/-! ## Reading the entries -/

/-- An entry when it is back, before any slot of the new table is. -/
def reloaded (e : CAddrInfo) : CAddrInfo := { e with nLastTry := 0, nRefCount := 0 }

/-- The entries in `l` have been read, and the slots in `L` have been filled as they were. -/
structure Loaded (env : AddrEnv) (m : CAddrMan) (l : List Nat) (L : List NewSlot)
    (m' : CAddrMan) : Prop where
  indexed : Indexed env True m'
  nKey : m'.nKey = m.nKey
  nIdCount : m'.nIdCount = l.length
  entry : ∀ i, (m'.entry i).map (CAddrInfo.setRef 0) =
    l[i]?.bind fun n => (m.entry n).map reloaded
  vvNew : ∀ s, m'.vvNew s = if s ∈ L then (m.vvNew s).map m.newId else none
  nNew : m'.nNew = m.nNew
  nTried : m'.nTried = m.nTried

variable {m' : CAddrMan} {l : List Nat} {L : List NewSlot} {info : CAddrInfo}

/-- An entry after reading, and what it was. -/
theorem Loaded.entry_some (h : Loaded env m l L m') {i : Nat} {e' : CAddrInfo}
    (he : m'.entry i = some e') : ∃ n e, l[i]? = some n ∧ m.entry n = some e ∧
      e' = { e with nLastTry := 0, nRefCount := e'.nRefCount } := by
  have hat := h.entry i
  rw [he] at hat
  obtain ⟨n, hn, hx⟩ := bind_eq_some_iff.mp hat.symm
  obtain ⟨e, hentry, hsame⟩ := map_eq_some_iff.mp hx
  exact ⟨n, e, hn, hentry, congrArg (setRef e'.nRefCount) hsame.symm⟩

/-- An entry not read yet has an address that is not known yet. -/
theorem Loaded.addr_none (hm : Consistent env True m) (h : Loaded env m l L m')
    (hinfo : m.mapInfo n = some info) (hn : n ∉ l) : m'.mapAddr info.toCNetAddr = none := by
  rw [eq_none_iff_forall_ne_some]
  intro i hi
  obtain ⟨e', he', haddr⟩ := h.indexed.addr.mp hi
  obtain ⟨j, e, hj, he, hsame⟩ := h.entry_some he'
  rw [hsame] at haddr
  have hown : m.mapAddr info.toCNetAddr = some n :=
    hm.addr.mpr ⟨info.body, entry_of_mapInfo hinfo, rfl⟩
  have hsame := hm.addr.mpr ⟨e, he, haddr⟩
  rw [hown, some.injEq] at hsame
  exact hn (hsame ▸ mem_of_getElem? hj)

theorem stats_stored (hm : Consistent env True m) (hinfo : m.mapInfo n = some info) :
    StatsOk True info.stored :=
  ⟨fun htrue => absurd htrue Bool.false_ne_true, (hm.stats (entry_of_mapInfo hinfo)).successSign,
    fun _ => Int64.le_refl _⟩

/-- The entries with one more at the end. -/
theorem Loaded.entry_insert (h : Loaded env m l L m') {x : CAddrInfo}
    (hx : m.entry n = some e) (hbody : x.body = reloaded e) (i : Nat) :
    ((m'.insertInfo x).entry i).map (CAddrInfo.setRef 0) =
      (l ++ [n])[i]?.bind fun n => (m.entry n).map reloaded := by
  rw [entry_insertInfo, h.nIdCount]
  rcases eq_or_ne i l.length with rfl | hi
  · rw [update_self, getElem?_concat_length, bind_some, hx, map_some, map_some, hbody]
    rfl
  · rw [update_of_ne hi, h.entry i]
    rcases Nat.lt_or_gt_of_ne hi with hlt | hgt
    · rw [getElem?_append_left hlt]
    · rw [getElem?_eq_none (by omega), getElem?_eq_none (by simp; omega)]

theorem body_stored (info : CAddrInfo) :
    (info.stored.setTried info.fInTried).body = reloaded info.body := rfl

theorem Loaded.insertNew (hm : Consistent env True m) (h : Loaded env m l L m')
    (hinfo : m.mapInfo n = some info) (hnot : info.fInTried = false) (hn : n ∉ l) :
    Loaded env m (l ++ [n]) L (m'.insertInfo info.stored) where
  indexed := h.indexed.insertInfo
    (show m'.mapAddr info.toCNetAddr = none from h.addr_none hm hinfo hn) rfl rfl
    (stats_stored hm hinfo)
  nKey := h.nKey
  nIdCount := by
    show m'.nIdCount + 1 = _
    rw [h.nIdCount, length_append, length_singleton]
  entry := by
    apply h.entry_insert (entry_of_mapInfo hinfo)
    have hbody := body_stored info
    rw [hnot] at hbody
    exact hbody
  vvNew := h.vvNew
  nNew := h.nNew
  nTried := h.nTried

/-- An entry read as tried is one made as new and then entered. -/
theorem insertTried_eq (x : CAddrInfo) (k : TriedSlot) :
    (m'.insertInfo (x.setTried true)).setTriedSlot k (some m'.nIdCount) =
      ((m'.insertInfo x).enterTried k m'.nIdCount).addTried (-1) := by
  have hmap : (m'.insertInfo (x.setTried true)).mapInfo =
      ((m'.insertInfo x).modifyInfo m'.nIdCount (setTried true)).mapInfo := by
    show update m'.mapInfo m'.nIdCount _ = update (update m'.mapInfo m'.nIdCount _) m'.nIdCount
        ((update m'.mapInfo m'.nIdCount _ m'.nIdCount).map _)
    rw [update_idem, update_self]
    rfl
  have hcount : m'.nTried + 1 + -1 = m'.nTried := by omega
  rw [CAddrMan.mk.injEq]
  exact ⟨rfl, rfl, hmap, rfl, rfl, hcount.symm, rfl, rfl, rfl⟩

section

variable (hm : Consistent env True m) (h : Loaded env m l L m') (hinfo : m.mapInfo n = some info)
  (htried : info.fInTried = true) (hn : n ∉ l)
include hm h hinfo htried hn

theorem Loaded.tried_free : m'.vvTried (env.triedSlot m.nKey info.toCService) = none := by
  rw [eq_none_iff_forall_ne_some]
  intro i hi
  obtain ⟨e', he', htried', hslot⟩ := h.indexed.tried.mp hi
  obtain ⟨j, e, hj, he, hsame⟩ := h.entry_some he'
  rw [hsame, h.nKey] at hslot
  rw [hsame] at htried'
  -- both would be in this slot of the table that was written
  have hown : m.vvTried (env.triedSlot m.nKey info.toCService) = some n :=
    hm.tried.mpr ⟨info.body, entry_of_mapInfo hinfo, htried, rfl⟩
  have hsame := hm.tried.mpr ⟨e, he, htried', hslot⟩
  rw [hown, some.injEq] at hsame
  exact hn (hsame ▸ mem_of_getElem? hj)

theorem Loaded.loadTried : ∃ m'', CAddrMan.loadTried env (m', 0) info.stored = (m'', 0) ∧
      Loaded env m (l ++ [n]) L m'' := by
  have hfree := h.tried_free hm hinfo htried hn
  rw [← h.nKey] at hfree
  have haddr : m'.mapAddr info.toCNetAddr = none := h.addr_none hm hinfo hn
  have hmade := h.indexed.insertInfo (show m'.mapAddr info.stored.toCNetAddr = none from haddr)
    rfl rfl (stats_stored hm hinfo)
  have he : (m'.insertInfo info.stored).entry m'.nIdCount = some info.stored.body := by
    rw [entry_insertInfo, update_self]
  have hsuccess : info.nLastSuccess ≠ 0 := (hm.stats (entry_of_mapInfo hinfo)).success htried
  have hindexed := hmade.enterTried he rfl rfl hsuccess hfree rfl
  refine ⟨_, if_pos hfree, ?_⟩
  rw [insertTried_eq]
  refine ⟨Sound.indexed hindexed.sound, h.nKey, ?_, ?_, h.vvNew, h.nNew, ?_⟩
  · show m'.nIdCount + 1 = _
    rw [h.nIdCount, length_append, length_singleton]
  · rw [← insertTried_eq]
    apply h.entry_insert (entry_of_mapInfo hinfo)
    have hbody := body_stored info
    rw [htried] at hbody
    exact hbody
  · show m'.nTried + 1 + -1 = _
    rw [h.nTried]
    omega

end

theorem loadNew_withCount {m1 : CAddrMan} {i : Nat} (hnone : m1.mapInfo i = none) (x : CAddrInfo) :
    (m1.loadNew env true i x).withCount (i + 1) = (m1.withCount i).insertInfo x := by
  simp only [CAddrMan.loadNew, hnone, readInto, Bool.true_eq_false, false_and, if_false]
  rfl

theorem loadNews_spec (hm : Consistent env True m) (l' l : List Nat) (m1 : CAddrMan)
    (h : Loaded env m l L (m1.withCount l.length))
    (hkind : ∀ n ∈ l', m.isNew n = true) (hnodup : (l ++ l').Nodup) :
    Loaded env m (l ++ l') L ((((l'.filterMap m.mapInfo).zipIdx l.length).foldl
      (fun m p => m.loadNew env true p.2 p.1.stored) m1).withCount (l ++ l').length) := by
  induction l' generalizing l m1 with
  | nil =>
    rw [append_nil]
    exact h
  | cons n l' ih =>
    obtain ⟨info, hinfo, hnot⟩ := (any_eq_true _ _).mp (hkind n mem_cons_self)
    have hn : n ∉ l := (disjoint_of_nodup_append hnodup · mem_cons_self)
    have hnone : m1.mapInfo l.length = none := by
      apply entry_eq_none.mp
      have hlast := h.entry l.length
      rw [getElem?_eq_none (Nat.le_refl _)] at hlast
      exact map_eq_none_iff.mp hlast
    have hstep := h.insertNew hm hinfo (by simpa using hnot) hn
    rw [← loadNew_withCount hnone] at hstep
    rw [filterMap_cons_some hinfo]
    have hrest := ih (l ++ [n]) (m1.loadNew env true l.length info.stored)
      (by rwa [length_append, length_singleton])
      (fun i hi => hkind i (mem_cons_of_mem _ hi)) (by rwa [append_assoc])
    rw [append_assoc, length_append] at hrest
    exact hrest

theorem loadTrieds_spec (hm : Consistent env True m) (l' l : List Nat) (m1 : CAddrMan)
    (h : Loaded env m l L m1) (hkind : ∀ n ∈ l', m.isTried n = true) (hnodup : (l ++ l').Nodup) :
    ∃ m2, (l'.filterMap m.mapInfo).foldl (fun p x => CAddrMan.loadTried env p x.stored) (m1, 0) =
      (m2, 0) ∧ Loaded env m (l ++ l') L m2 := by
  induction l' generalizing l m1 with
  | nil => exact ⟨m1, rfl, by rwa [append_nil]⟩
  | cons n l' ih =>
    obtain ⟨info, hinfo, htried⟩ := (any_eq_true _ _).mp (hkind n mem_cons_self)
    have hn : n ∉ l := (disjoint_of_nodup_append hnodup · mem_cons_self)
    obtain ⟨m2, hstep, h2⟩ := h.loadTried hm hinfo htried hn
    obtain ⟨m3, hok, h3⟩ := ih (l ++ [n]) m2 h2
      (fun i hi => hkind i (mem_cons_of_mem _ hi)) (by rwa [append_assoc])
    refine ⟨m3, ?_, by rwa [append_assoc] at h3⟩
    rw [filterMap_cons_some hinfo, foldl_cons, hstep, hok]

end CAddrMan

end MonetaryUnit
