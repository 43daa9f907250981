/-
# MonetaryUnit.Net.AddrManRuns — every call keeps the indexes together

The calls of the address manager, step by step. `ClearNew` frees a slot, deleting an entry with
its last reference; `MakeTried` takes an entry out of every slot, moves the tried entry in its
way back to the new table, and by that may delete a third one. Between the steps an entry can be
new and in no slot; `Referenced` names those (`skip`), and a call ends with none.
-/

import MonetaryUnit.Net.AddrManInvariant

namespace MonetaryUnit

open Lib Function List CAddrInfo Option Bool

namespace CAddrMan

variable {env : AddrEnv} {timely : Prop} {m m' m'' : CAddrMan} {n : Nat} {e e' e'' : CAddrInfo}
  {ahead : Int} {skip skip' : Set Nat} {a : CNetAddr} {info : CAddrInfo}

/-! ## References through a step -/

theorem Referenced.change {o : Option CAddrInfo} (h : Referenced skip m)
    (hentry : m'.entry = update m.entry n o) (hskip : ∀ i, i ≠ n → i ∉ skip' → i ∉ skip)
    (hself : ∀ x, o = some x → x.fInTried = false →
      x.nRefCount ≤ 8 ∧ (n ∉ skip' → 1 ≤ x.nRefCount)) :
    Referenced skip' m' := by
  intro i x hx hnot
  rw [hentry] at hx
  rcases eq_or_ne i n with rfl | hi
  · exact hself x (update_self i o m.entry ▸ hx) hnot
  · rw [update_of_ne hi] at hx
    obtain ⟨hmax, hmin⟩ := h i x hx hnot
    exact ⟨hmax, fun hout => hmin (hskip i hi hout)⟩

theorem Referenced.touch (h : Referenced skip m) (ht : Touches m m' n e e')
    (hskip : ∀ i, i ≠ n → i ∉ skip' → i ∉ skip)
    (hself : e'.fInTried = false → e'.nRefCount ≤ 8 ∧ (n ∉ skip' → 1 ≤ e'.nRefCount)) :
    Referenced skip' m' :=
  h.change ht.after hskip fun _ hx => some.inj hx ▸ hself

theorem Referenced.drop (h : Referenced skip m) (hd : Drops m m' n)
    (hskip : ∀ i, i ≠ n → i ∉ skip' → i ∉ skip) : Referenced skip' m' :=
  h.change hd.entry hskip fun _ hx => absurd hx (some_ne_none _).symm

theorem Touches.trans (h : Touches m m' n e e') (h' : Touches m' m'' n e' e'') :
    Touches m m'' n e e'' where
  before := h.before
  after := by rw [h'.after, h.after, update_idem]
  nKey := h'.nKey.trans h.nKey
  addrOthers := fun a i hi => (h'.addrOthers a i hi).trans (h.addrOthers a i hi)
  newOthers := fun s i hi => (h'.newOthers s i hi).trans (h.newOthers s i hi)
  triedOthers := fun k i hi => (h'.triedOthers k i hi).trans (h.triedOthers k i hi)
  service := h'.service.trans h.service
  nIdCount := h'.nIdCount.trans h.nIdCount
  mapAddr := h'.mapAddr.trans h.mapAddr
  pos := h'.pos.trans h.pos
  vRandom := h'.vRandom.trans h.vRandom

/-- Its references are those that are there. -/
theorem Sound.touches_self (h : Sound env timely ahead m) (he : m.entry n = some e) :
    Touches m m n e (e.setRef (holders newSlots m.vvNew n)) := by
  rw [← h.refs he]
  show Touches m m n e e
  exact ⟨⟨he, by rw [← he, update_eq_self], rfl, fun _ _ _ => .rfl,
    fun _ _ _ => .rfl, fun _ _ _ => .rfl⟩, rfl, rfl, rfl, rfl, rfl⟩

/-- A slot counts as a reference. -/
theorem Tables.refs_pos (h : Tables env timely m) (he : m.entry n = some e) {s : NewSlot}
    (hs : m.vvNew s = some n) : 1 ≤ e.nRefCount := by
  have hheld : holders newSlots m.vvNew n ≠ 0 := by
    intro hzero
    exact (holders_eq_zero mem_newSlots).mp hzero s hs
  have href := h.refs he
  omega

theorem Tables.refs_nonneg (h : Tables env timely m) (he : m.entry n = some e) :
    0 ≤ e.nRefCount := by
  rw [h.refs he]
  exact Int.natCast_nonneg _

/-! ## `ClearNew` -/

/-- A slot is free; entries that were not in it are as before. -/
structure Cleared (m m' : CAddrMan) (s : NewSlot) : Prop where
  nKey : m'.nKey = m.nKey
  nIdCount : m'.nIdCount = m.nIdCount
  vvTried : m'.vvTried = m.vvTried
  free : m'.vvNew s = none
  kept : ∀ n, m.vvNew s ≠ some n → m'.entry n = m.entry n

theorem Sound.clearNew_spec (h : Sound env timely ahead m) (hr : Referenced skip m) (s : NewSlot) :
    ∃ m', m.clearNew s = some m' ∧ Sound env timely ahead m' ∧ Referenced skip m' ∧
      Cleared m m' s := by
  rcases hs : m.vvNew s with _ | n
  · exact ⟨m, by rw [clearNew, hs], h, hr, rfl, rfl, rfl, hs, fun _ _ => rfl⟩
  obtain ⟨e, he, hnot, -⟩ := h.fresh hs
  obtain ⟨info, hinfo, rfl⟩ := exists_mapInfo he
  have hpos : 1 ≤ info.body.nRefCount := h.refs_pos he hs
  change 1 ≤ info.nRefCount at hpos
  have ht := touches_unlink he hs
  have h1 := h.unlink he hs
  have hfree : (m.unlink s n).vvNew s = none := update_self ..
  have hne : ∀ i, m.vvNew s ≠ some i → i ≠ n := by
    rintro i hi rfl
    exact hi hs
  by_cases hlast : info.nRefCount - 1 = 0
  · -- the last reference goes, and the entry with it
    obtain ⟨m', hdel, h', hd⟩ := h1.delete_spec ht.entry_self hnot
      (show info.nRefCount + -1 = 0 by omega)
    refine ⟨m', ?_, h', ?_, hd.nKey, hd.nIdCount, hd.vvTried, ?_, ?_⟩
    · simp only [clearNew, hs, hinfo, bind_some]
      rw [if_pos (by omega), if_pos hlast, hdel]
    · apply hr.change (o := none)
      · rw [hd.entry, ht.after, update_idem]
      · exact fun i _ hi => hi
      · exact fun x hx => absurd hx (some_ne_none x).symm
    · rw [hd.vvNew, hfree]
    · intro i hi
      rw [hd.entry, update_of_ne (hne i hi), ht.entry_other (hne i hi)]
  · refine ⟨m.unlink s n, ?_, h1, ?_, rfl, rfl, rfl, hfree, fun i hi => ht.entry_other (hne i hi)⟩
    · simp only [clearNew, hs, hinfo, bind_some]
      rw [if_pos (by omega), if_neg hlast]
    · apply hr.touch ht
      · intro i _ hi
        exact hi
      · intro _
        have hmax : info.nRefCount ≤ 8 := (hr n _ he hnot).1
        show info.nRefCount + -1 ≤ 8 ∧ (n ∉ skip → 1 ≤ info.nRefCount + -1)
        exact ⟨by omega, fun _ => by omega⟩

/-! ## `MakeTried` -/

/-- Some references of one entry are gone, those in the buckets `bs` among them. -/
structure Unlinks (m m' : CAddrMan) (n : Nat) (e : CAddrInfo) (bs : List (Fin 1024)) : Prop where
  touches : Touches m m' n e (e.setRef (holders newSlots m'.vvNew n))
  left : ∀ s, m'.vvNew s = some n → m.vvNew s = some n ∧ s.1 ∉ bs

section Unlink

variable (h : Sound env timely ahead m) (he : m.entry n = some e)
include h he

theorem unlinkBucket_spec (b : Fin 1024) :
    Sound env timely ahead (unlinkBucket env e.toCService n m b) ∧
      Unlinks m (unlinkBucket env e.toCService n m b) n e [b] := by
  -- the only slot of the bucket that the entry can be in
  have honly : ∀ s, m.vvNew s = some n → s.1 = b → s = env.newSlot m.nKey e.toCService b := by
    rintro s hs rfl
    obtain ⟨x, hx, -, hslot⟩ := h.fresh hs
    cases he.symm.trans hx
    exact hslot.symm
  rw [unlinkBucket]
  by_cases hs : m.vvNew (env.newSlot m.nKey e.toCService b) = some n
  · rw [if_pos hs]
    have h1 := h.unlink he hs
    have ht := touches_unlink he hs
    have href : e.addRef (-1) =
        e.setRef (holders newSlots (m.unlink (env.newSlot m.nKey e.toCService b) n).vvNew n) := by
      rw [← h1.refs ht.entry_self]
      rfl
    refine ⟨h1, href ▸ ht, ?_⟩
    intro s hs'
    have hne : s ≠ env.newSlot m.nKey e.toCService b := by
      rintro rfl
      rw [show (m.unlink _ n).vvNew _ = none from update_self ..] at hs'
      cases hs'
    have hbefore : m.vvNew s = some n := (update_of_ne hne _ _).symm.trans hs'
    exact ⟨hbefore, fun hb => hne (honly s hbefore (mem_singleton.mp hb))⟩
  · rw [if_neg hs]
    refine ⟨h, h.touches_self he, fun s hs' => ⟨hs', fun hb => hs ?_⟩⟩
    rw [← honly s hs' (mem_singleton.mp hb)]
    exact hs'

theorem unlinkBuckets_spec (bs : List (Fin 1024)) :
    Sound env timely ahead (bs.foldl (unlinkBucket env e.toCService n) m) ∧
      Unlinks m (bs.foldl (unlinkBucket env e.toCService n) m) n e bs := by
  induction bs generalizing m e with
  | nil => exact ⟨h, h.touches_self he, fun s hs => ⟨hs, not_mem_nil⟩⟩
  | cons b bs ih =>
    obtain ⟨h1, hu1⟩ := unlinkBucket_spec h he b
    obtain ⟨h2, hu2⟩ := ih h1 hu1.touches.entry_self
    refine ⟨h2, hu1.touches.trans hu2.touches, ?_⟩
    intro s hs
    obtain ⟨hs1, hbs⟩ := hu2.left s hs
    obtain ⟨hs0, hb⟩ := hu1.left s hs1
    refine ⟨hs0, fun hmem => ?_⟩
    rcases mem_cons.mp hmem with heq | hmem
    · exact hb (mem_singleton.mpr heq)
    · exact hbs hmem

/-- After all buckets the entry is in no slot, and its count is zero. -/
theorem unlinkBuckets_all {bs : List (Fin 1024)} (hall : ∀ b, b ∈ bs) :
    Sound env timely ahead (bs.foldl (unlinkBucket env e.toCService n) m) ∧
      Touches m (bs.foldl (unlinkBucket env e.toCService n) m) n e (e.setRef 0) := by
  obtain ⟨h1, hu⟩ := unlinkBuckets_spec h he bs
  have hzero : holders newSlots (bs.foldl (unlinkBucket env e.toCService n) m).vvNew n = 0 := by
    rw [holders_eq_zero mem_newSlots]
    intro s hs
    exact (hu.left s hs).2 (hall s.1)
  have ht := hu.touches
  rw [hzero] at ht
  exact ⟨h1, ht⟩

end Unlink

theorem reenterNew_eq (he : m.entry n = some e) (hzero : e.nRefCount = 0) (s : NewSlot) :
    m.reenterNew s n = (m.link s n).addNew 1 := by
  obtain ⟨info, hinfo, rfl⟩ := exists_mapInfo he
  have hcount : info.setRef 1 = info.addRef 1 := by
    rw [addRef, show info.nRefCount = 0 from hzero]
    rfl
  rw [reenterNew, link, modifyInfo, modifyInfo, hinfo, map_some, map_some, hcount]

/-- The slot of the tried table is free, whatever was in it is new again, and
entries that are in no slot are left alone. -/
theorem Sound.evict_spec (h : Sound env timely ahead m) (hr : Referenced skip m) (k : TriedSlot) :
    ∃ m', m.evict env k = some m' ∧ Sound env timely ahead m' ∧ Referenced skip m' ∧
      m'.nKey = m.nKey ∧ m'.nIdCount = m.nIdCount ∧ m'.vvTried k = none ∧
      ∀ n e, m.entry n = some e → e.fInTried = false → e.nRefCount = 0 → m'.entry n = some e := by
  rcases hk : m.vvTried k with _ | old
  · exact ⟨m, by rw [evict, hk], h, hr, rfl, rfl, hk, fun _ _ he _ _ => he⟩
  obtain ⟨e, he, htried, -⟩ := h.tried.mp hk
  obtain ⟨info, hinfo, rfl⟩ := exists_mapInfo he
  have hzero := h.refs_tried he htried
  have ht1 := touches_leaveTried he hk
  have h1 := h.leaveTried he hk
  -- the evicted entry is new and in no slot
  have hr1 : Referenced (insert old skip) (m.leaveTried k old) := by
    apply hr.touch ht1
    · intro i _ hi hmem
      exact hi (Set.mem_insert_of_mem _ hmem)
    · intro _
      refine ⟨?_, fun hout => absurd (Set.mem_insert _ _) hout⟩
      show info.nRefCount ≤ 8
      rw [show info.nRefCount = 0 from hzero]
      decide
  obtain ⟨s, hs⟩ : ∃ s, s = env.newSlot m.nKey info.toCService
    (env.getNewBucket m.nKey info.toCService info.source) := ⟨_, rfl⟩
  obtain ⟨m2, hclear, h2, hr2, hc⟩ := h1.clearNew_spec hr1 s
  have hfree := h1.not_held ht1.entry_self hzero
  have he2 : m2.entry old = some (info.body.setTried false) := by
    rw [hc.kept old (hfree s), ht1.entry_self]
  have ht2 := touches_link he2 hc.free
  have hslot : env.newSlot m2.nKey (info.body.setTried false).toCService s.1 = s := by
    rw [hc.nKey, hs]
    rfl
  have h3 := (h2.link he2 rfl hc.free hslot).addNew 1
  rw [← reenterNew_eq he2 hzero, sub_add_cancel] at h3
  refine ⟨m2.reenterNew s old, ?_, h3, ?_, hc.nKey, hc.nIdCount, ?_, ?_⟩
  · simp only [evict, hk, hinfo, bind_some]
    rw [← hs, hclear, bind_some, if_pos hc.free]
  · rw [reenterNew_eq he2 hzero]
    have hlinked : Referenced skip (m2.link s old) := by
      apply hr2.touch ht2
      · intro i hi hout hmem
        rcases Set.mem_insert_iff.mp hmem with rfl | hmem
        · exact hi rfl
        · exact hout hmem
      · intro _
        show info.nRefCount + 1 ≤ 8 ∧ (_ → 1 ≤ info.nRefCount + 1)
        rw [show info.nRefCount = 0 from hzero]
        exact ⟨by decide, fun _ => by decide⟩
    exact hlinked
  · show m2.vvTried k = none
    rw [hc.vvTried]
    exact update_self ..
  · intro i x hx hnot hx0
    have hi : i ≠ old := by
      rintro rfl
      cases he.symm.trans hx
      rw [htried] at hnot
      cases hnot
    have hx1 : (m.leaveTried k old).entry i = some x := by rw [ht1.entry_other hi, hx]
    rw [reenterNew_eq he2 hzero]
    show (m2.link s old).entry i = some x
    rw [ht2.entry_other hi, hc.kept i (h1.not_held hx1 hx0 s), hx1]

/-- No assertion fails; the counters are right again at the end. -/
theorem Sound.makeTried_spec (h : Sound env timely 0 m) (hr : Referenced ∅ m)
    (he : m.entry n = some e) (hnot : e.fInTried = false) (hsuccess : e.nLastSuccess ≠ 0) :
    ∃ m', m.makeTried env n = some m' ∧ Sound env timely 0 m' ∧ Referenced ∅ m' ∧
      m'.nIdCount = m.nIdCount := by
  obtain ⟨info, hinfo, rfl⟩ := exists_mapInfo he
  obtain ⟨m1, hm1⟩ : ∃ m1, m1 = m.unlinkAll env info.toCService n := ⟨_, rfl⟩
  obtain ⟨h1, ht1⟩ : Sound env timely 0 m1 ∧ Touches m m1 n info.body (info.body.setRef 0) := by
    rw [hm1]
    exact unlinkBuckets_all h he mem_finRange
  have h2 := h1.addNew (-1)
  have he2 : (m1.addNew (-1)).entry n = some (info.body.setRef 0) := ht1.entry_self
  have hr2 : Referenced {n} m1 := by
    apply hr.touch ht1
    · intro i _ _ hmem
      exact hmem
    · intro _
      exact ⟨show (0 : Int) ≤ 8 by decide, fun hout => absurd rfl hout⟩
  obtain ⟨k, hk⟩ : ∃ k, k = env.triedSlot m.nKey info.toCService := ⟨_, rfl⟩
  obtain ⟨m3, hevict, h3, hr3, hkey, hcount, hfree, hkept⟩ :=
    h2.evict_spec (show Referenced {n} (m1.addNew (-1)) from hr2) k
  have he3 := hkept n _ he2 hnot rfl
  have ht4 := touches_enterTried he3 hfree
  have hslot : env.triedSlot m3.nKey (info.body.setRef 0).toCService = k := by
    rw [hkey, hk, show (m1.addNew (-1)).nKey = m.nKey from ht1.nKey]
    rfl
  have h4 := h3.enterTried he3 hnot rfl hsuccess hfree hslot
  refine ⟨m3.enterTried k n, ?_, h4, ?_, hcount.trans ht1.nIdCount⟩
  · obtain ⟨info2, hinfo2, hbody⟩ := exists_mapInfo he2
    have hcount : info2.nRefCount = 0 := congrArg nRefCount hbody
    simp only [makeTried, hinfo, bind_some]
    rw [← hm1, ← hk, hinfo2, map_some, hcount, if_pos rfl, hevict, bind_some, if_pos hfree]
  · apply hr3.touch ht4
    · intro i hi _ hmem
      exact hi hmem
    · intro hfalse
      cases hfalse

/-! ## `Add_` -/

theorem Sound.mayInsert_spec (h : Sound env timely ahead m) (s : NewSlot) (pinfo : CAddrInfo)
    (nNow : Int64) : ∃ fInsert, m.mayInsert s pinfo nNow = some fInsert := by
  rw [mayInsert]
  rcases hs : m.vvNew s with _ | i
  · exact ⟨true, rfl⟩
  · obtain ⟨x, hx, -⟩ := h.fresh hs
    obtain ⟨info, hinfo, -⟩ := exists_mapInfo hx
    dsimp only
    rw [hinfo]
    exact ⟨_, rfl⟩

/-- An entry that may have one more reference gets it, or is deleted if it has
none. -/
theorem Sound.place_spec (h : Sound env timely ahead m) (hr : Referenced {n} m)
    (he : m.entry n = some e) (hnot : e.fInTried = false) (hroom : e.nRefCount < 8)
    (source : CNetAddr) (nNow : Int64) :
    ∃ m', m.place env n source nNow = some m' ∧ Sound env timely ahead m' ∧ Referenced ∅ m' ∧
      m'.nIdCount = m.nIdCount := by
  obtain ⟨info, hinfo, rfl⟩ := exists_mapInfo he
  have hroom' : info.nRefCount < 8 := hroom
  have hothers : ∀ i, i ≠ n → i ∉ (∅ : Set Nat) → i ∉ ({n} : Set Nat) := fun i hi _ hmem => hi hmem
  -- nothing changes, and the entry has a reference
  have hstay : 1 ≤ info.nRefCount → Referenced ∅ m := by
    intro hpos i x hx hx'
    rcases eq_or_ne i n with rfl | hi
    · cases he.symm.trans hx
      exact ⟨hroom.le, fun _ => hpos⟩
    · exact ⟨(hr i x hx hx').1, fun _ => (hr i x hx hx').2 fun hmem => hi hmem⟩
  obtain ⟨s, hs⟩ : ∃ s, s = env.newSlot m.nKey info.toCService
    (env.getNewBucket m.nKey info.toCService source) := ⟨_, rfl⟩
  simp only [place, hinfo, bind_some]
  rw [← hs]
  by_cases hheld : m.vvNew s = some n
  · have hpos : 1 ≤ info.body.nRefCount := h.refs_pos he hheld
    rw [if_pos hheld]
    exact ⟨m, rfl, h, hstay hpos, rfl⟩
  rw [if_neg hheld]
  obtain ⟨fInsert, hmay⟩ := h.mayInsert_spec s info nNow
  rw [hmay]
  rcases fInsert with _ | _
  · by_cases hzero : info.nRefCount = 0
    · rw [if_pos hzero]
      obtain ⟨m', hdel, h', hd⟩ := h.delete_spec he hnot hzero
      exact ⟨m', hdel, h', hr.drop hd hothers, hd.nIdCount⟩
    · rw [if_neg hzero]
      have hnonneg : 0 ≤ info.body.nRefCount := h.refs_nonneg he
      change 0 ≤ info.nRefCount at hnonneg
      exact ⟨m, rfl, h, hstay (by omega), rfl⟩
  · obtain ⟨m1, hclear, h1, hr1, hc⟩ := h.clearNew_spec hr s
    have he1 : m1.entry n = some info.body := by rw [hc.kept n hheld, he]
    have hslot : env.newSlot m1.nKey info.body.toCService s.1 = s := by
      rw [hc.nKey, hs]
      rfl
    refine ⟨m1.link s n, by rw [hclear]; rfl, h1.link he1 hnot hc.free hslot, ?_, hc.nIdCount⟩
    apply hr1.touch (touches_link he1 hc.free) hothers
    intro _
    have hnonneg : 0 ≤ info.body.nRefCount := h.refs_nonneg he
    change 0 ≤ info.nRefCount at hnonneg
    show info.nRefCount + 1 ≤ 8 ∧ (_ → 1 ≤ info.nRefCount + 1)
    exact ⟨by omega, fun _ => by omega⟩

/-! ## The calls -/

theorem find_some (h : m.find a = some (n, info)) : m.mapInfo n = some info := by
  obtain ⟨i, -, hi⟩ := bind_eq_some_iff.mp h
  obtain ⟨x, hx, heq⟩ := map_eq_some_iff.mp hi
  cases heq
  exact hx

theorem Tables.find_none (h : Tables env timely m) (hfind : m.find a = none) :
    m.mapAddr a = none := by
  rcases ha : m.mapAddr a with _ | i
  · rfl
  · -- an indexed address has an entry
    obtain ⟨x, hx, -⟩ := h.addr.mp ha
    obtain ⟨info, hinfo, -⟩ := exists_mapInfo hx
    rw [find, ha, bind_some, hinfo] at hfind
    cases hfind

theorem findExact_some {addr : CService} (h : m.findExact addr = some (n, info)) :
    m.mapInfo n = some info ∧ info.toCService = addr := by
  obtain ⟨hfind, hsame⟩ := filter_eq_some_iff.mp h
  exact ⟨find_some hfind, of_decide_eq_true hsame⟩

end CAddrMan

namespace CAddrInfo

/-- Notes that leave the address, the references and the table of an entry alone. -/
structure OnlyNotes (f : CAddrInfo → CAddrInfo) : Prop extends KeepsPos f where
  service : ∀ info, (f info).toCService = info.toCService
  refs : ∀ info, (f info).nRefCount = info.nRefCount
  tried : ∀ info, (f info).fInTried = info.fInTried

theorem onlyNotes_refresh (addr : CAddress) (nPenalty nNow : Int64) :
    OnlyNotes (refresh addr nPenalty nNow) :=
  ⟨⟨fun _ => rfl, fun _ => rfl⟩, fun _ => rfl, fun _ => rfl, fun _ => rfl⟩

theorem onlyNotes_penalize (nPenalty : Int64) : OnlyNotes (penalize nPenalty) :=
  ⟨⟨fun _ => rfl, fun _ => rfl⟩, fun _ => rfl, fun _ => rfl, fun _ => rfl⟩

theorem onlyNotes_noteGood (nTime : Int64) : OnlyNotes (noteGood nTime) :=
  ⟨⟨fun _ => rfl, fun _ => rfl⟩, fun _ => rfl, fun _ => rfl, fun _ => rfl⟩

theorem onlyNotes_noteAttempt (nTime : Int64) : OnlyNotes (noteAttempt nTime) :=
  ⟨⟨fun _ => rfl, fun _ => rfl⟩, fun _ => rfl, fun _ => rfl, fun _ => rfl⟩

theorem noteConnected_eq (nTime : Int64) (info : CAddrInfo) : noteConnected nTime info = { info with
      nTime := if nTime - info.time > 20 * 60 then nTime.toUInt64.toUInt32 else info.nTime } := by
  rw [noteConnected]
  split <;> rfl

theorem onlyNotes_noteConnected (nTime : Int64) : OnlyNotes (noteConnected nTime) := by
  refine ⟨⟨?_, ?_⟩, ?_, ?_, ?_⟩ <;> intro info
  · rw [noteConnected_eq, noteConnected_eq]
    rfl
  all_goals rw [noteConnected_eq]

end CAddrInfo

namespace CAddrMan

/-- The state between two calls. -/
structure Consistent (env : AddrEnv) (timely : Prop) (m : CAddrMan) : Prop
    extends Sound env timely 0 m where
  referenced : Referenced ∅ m

variable {f : CAddrInfo → CAddrInfo}

/-- Notes keep what is between two calls, if the times in them are in order. -/
theorem Consistent.note (h : Consistent env timely m) (hf : CAddrInfo.OnlyNotes f)
    (he : m.entry n = some e) (hstats : StatsOk timely (f e)) :
    Consistent env timely (m.modifyInfo n f) := by
  refine ⟨h.modify hf.toKeepsPos he (hf.service e) (hf.refs e) (hf.tried e) hstats, ?_⟩
  apply h.referenced.touch (touches_modifyInfo hf.toKeepsPos he (hf.service e))
  · intro i _ hi
    exact hi
  · intro hnot
    rw [hf.tried] at hnot
    rw [hf.refs]
    exact h.referenced n e he hnot

theorem consistent_empty {nKey : Uint256} (hkey : timely → nKey ≠ 0) :
    Consistent env timely (empty nKey) := by
  refine ⟨⟨⟨nofun, ?_, ?_, nofun, nofun, nofun, hkey⟩, ?_, rfl, rfl⟩, nofun⟩
  · intro a i
    show none = some i ↔ ∃ x, none = some x ∧ _
    simp
  · intro k i
    show none = some i ↔ ∃ x, none = some x ∧ _ ∧ _
    simp
  · intro i p
    simp [empty, pos]

section

variable (h : Consistent env timely m) {nTime : Int64}
include h

theorem Consistent.add_spec (addr : CAddress) (source : CNetAddr) (nPenalty nNow : Int64)
    (rnd : Nat) (hcount : m.nIdCount < 2 ^ 31 - 1) :
    ∃ r, m.add_ env addr source nPenalty nNow rnd = some r ∧ Consistent env timely r.2 ∧
      r.2.nIdCount ≤ m.nIdCount + 1 := by
  rw [add_]
  by_cases hroutable : env.isRoutable addr.toCNetAddr = true
  swap
  · rw [if_neg hroutable]
    exact ⟨_, rfl, h, Nat.le_succ _⟩
  rw [if_pos hroutable]
  rcases hfind : m.find addr.toCNetAddr with _ | ⟨i, info⟩
  · -- an address that is new
    obtain ⟨m1, hm1⟩ : ∃ m1, m1 = m.insertInfo (ofAddress addr source) := ⟨_, rfl⟩
    have hmade : Sound env timely (0 - 1) m1 :=
      hm1 ▸
      h.toSound.insertInfo (show m.mapAddr (ofAddress addr source).toCNetAddr = none from
        h.find_none hfind) rfl rfl
        ⟨fun htrue => absurd htrue false_ne_true, Int64.le_refl _, fun _ => Int64.le_refl _⟩
    have he : m1.entry m.nIdCount = some (ofAddress addr source) := by
      rw [hm1, entry_insertInfo, update_self]
      rfl
    have hnotes := onlyNotes_penalize nPenalty
    have hsound :=
      (hmade.modify hnotes.toKeepsPos he rfl rfl rfl { hmade.stats he with }).addNew 1
    have ht := touches_modifyInfo hnotes.toKeepsPos he rfl
    have hcreated : Referenced {m.nIdCount} m1 :=
      h.referenced.change (hm1 ▸ entry_insertInfo _) (fun i _ _ => Set.notMem_empty i)
        fun x hx _ => some.inj hx ▸ ⟨show (0 : Int) ≤ 8 by decide, fun hout => absurd rfl hout⟩
    have hr : Referenced {m.nIdCount} (m1.modifyInfo m.nIdCount (penalize nPenalty)) :=
      hcreated.touch ht (fun _ _ hi => hi)
        fun _ => ⟨show (0 : Int) ≤ 8 by decide, fun hout => absurd rfl hout⟩
    obtain ⟨m', hplace, h', hr', hids⟩ := hsound.place_spec
      (show Referenced _ (CAddrMan.addNew _ 1) from hr) ht.entry_self rfl
      (show (0 : Int) < 8 by decide) source nNow
    refine ⟨(true, m'), ?_, ⟨h', hr'⟩, (hids.trans (hm1 ▸ rfl)).le⟩
    simp only [create, if_pos hcount, bind_some, ← hm1, hplace, map_some]
  · -- an address that is known
    have hinfo := find_some hfind
    have he := entry_of_mapInfo hinfo
    have hnotes := onlyNotes_refresh addr nPenalty nNow
    have hnoted := h.note hnotes he { h.stats he with }
    have ht := touches_modifyInfo hnotes.toKeepsPos he rfl
    dsimp only
    by_cases hwants : (info.refresh addr nPenalty nNow).wantsSlot addr rnd = true
    swap
    · rw [if_neg hwants]
      exact ⟨_, rfl, hnoted, Nat.le_succ _⟩
    rw [if_pos hwants]
    simp only [wantsSlot, and_eq_true, not_eq_true', bne_iff_ne] at hwants
    obtain ⟨⟨⟨-, hnot⟩, hfull⟩, -⟩ := hwants
    have hmax := (hnoted.referenced i _ ht.entry_self hnot).1
    have hroom : (info.body.refresh addr nPenalty nNow).nRefCount < 8 :=
      lt_of_le_of_ne hmax hfull
    have hr : Referenced {i} (m.modifyInfo i (refresh addr nPenalty nNow)) := by
      intro j x hx hx'
      obtain ⟨hmax, hmin⟩ := hnoted.referenced j x hx hx'
      exact ⟨hmax, fun _ => hmin (Set.notMem_empty j)⟩
    obtain ⟨m', hplace, h', hr', hids⟩ :=
      hnoted.toSound.place_spec hr ht.entry_self hnot hroom source nNow
    exact ⟨(false, m'), by rw [hplace]; rfl, ⟨h', hr'⟩, hids.trans_le (Nat.le_succ _)⟩

theorem Consistent.good_spec (addr : CService) (htime : 0 < nTime) (nRnd : Nat) :
    ∃ m', m.good_ env addr nTime nRnd = some m' ∧ Consistent env timely m' ∧
      m'.nIdCount = m.nIdCount := by
  rw [good_]
  rcases hfind : m.findExact addr with _ | ⟨i, info⟩
  · exact ⟨m, rfl, h, rfl⟩
  have he := entry_of_mapInfo (findExact_some hfind).1
  have hnotes := onlyNotes_noteGood nTime
  have hne : nTime ≠ 0 := (Int64.ne_of_lt htime).symm
  have hnoted := h.note hnotes he
    ⟨fun _ => hne, Int64.le_of_lt htime, fun _ => Int64.le_of_lt htime⟩
  have ht := touches_modifyInfo hnotes.toKeepsPos he rfl
  dsimp only
  by_cases htried : info.fInTried = true
  · rw [if_pos htried]
    exact ⟨_, rfl, hnoted, rfl⟩
  rw [if_neg htried]
  rcases hbucket : (m.modifyInfo i (noteGood nTime)).findNewBucket env addr i nRnd with _ | _
  · exact ⟨_, rfl, hnoted, rfl⟩
  · obtain ⟨m', hmake, h', hr', hids⟩ := hnoted.toSound.makeTried_spec hnoted.referenced ht.entry_self
      (eq_false_iff.mpr htried) hne
    exact ⟨m', hmake, ⟨h', hr'⟩, hids⟩

theorem Consistent.attempt_spec (addr : CService) (htime : timely → 0 ≤ nTime) :
    Consistent env timely (m.attempt_ addr nTime) ∧
      (m.attempt_ addr nTime).nIdCount = m.nIdCount := by
  rw [attempt_]
  rcases hfind : m.findExact addr with _ | ⟨i, info⟩
  · exact ⟨h, rfl⟩
  · have he := entry_of_mapInfo (findExact_some hfind).1
    exact ⟨h.note (onlyNotes_noteAttempt nTime) he { h.stats he with trySign := htime }, rfl⟩

theorem Consistent.connected_spec (addr : CService) (nTime : Int64) :
    Consistent env timely (m.connected_ addr nTime) ∧
      (m.connected_ addr nTime).nIdCount = m.nIdCount := by
  rw [connected_]
  rcases hfind : m.findExact addr with _ | ⟨i, info⟩
  · exact ⟨h, rfl⟩
  · have he := entry_of_mapInfo (findExact_some hfind).1
    refine ⟨h.note (onlyNotes_noteConnected nTime) he ?_, rfl⟩
    rw [noteConnected_eq]
    exact { h.stats he with }

theorem Consistent.reorder (hr : Reorders m m') (hs : m'.Shuffled) : Consistent env timely m' :=
  ⟨h.toSound.reorder hr hs, by rw [Referenced, hr.entry]; exact h.referenced⟩

end

theorem Consistent.getAddrFrom_spec (nNow : Int64) (rnd : Nat → Nat) (nNodes k i : Nat)
    (h : Consistent env timely m) (hk : i + k = m.vRandom.length) (vAddr : List CAddress) :
    ∃ r, getAddrFrom nNow rnd nNodes k i m vAddr = some r ∧ Consistent env timely r.1 ∧
      r.1.nIdCount = m.nIdCount := by
  induction k generalizing i m vAddr with
  | zero => exact ⟨_, rfl, h, rfl⟩
  | succ k ih =>
    rw [getAddrFrom]
    by_cases hfull : vAddr.length ≥ nNodes
    · rw [if_pos hfull]
      exact ⟨_, rfl, h, rfl⟩
    rw [if_neg hfull]
    -- the random place is one of those left
    have hrnd : rnd i % (m.vRandom.length - i) < m.vRandom.length - i := Nat.mod_lt _ (by omega)
    obtain ⟨m1, hswap, hr, hs, -, hi⟩ := swapRandom_spec h.shuffled
      (getElem?_eq_getElem (show i < m.vRandom.length by omega))
      (getElem?_eq_getElem (show rnd i % (m.vRandom.length - i) + i < m.vRandom.length by omega))
    obtain ⟨ai, hai, -⟩ := hs.entry hi
    rw [hswap, bind_some, hi, bind_some, hai, ← hr.nIdCount]
    apply ih (i + 1) (h.reorder hr hs)
    rw [hr.length]
    omega

end CAddrMan

end MonetaryUnit
