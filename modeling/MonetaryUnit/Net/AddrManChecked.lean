/-
# MonetaryUnit.Net.AddrManChecked — what `Check_` has checked

The other direction: a state for which `Check_` returns zero has all indexes in agreement. One
index is looked at from one side only. `Check_` asks that the address of every entry leads back
to it, and nothing of addresses without an entry, so the address index is replaced by the one
that the entries determine (`reindexed`).
-/

import MonetaryUnit.Net.AddrManCheck

namespace MonetaryUnit

open Lib List Option

namespace CAddrMan

variable {env : AddrEnv} {m : CAddrMan} {n : Nat}

/-! ## Errors are negative -/

/-- An error that the check ends with is negative. -/
def ErrorsNegative {α : Type} (x : Except Int α) : Prop := ∀ err, x = .error err → err < 0

namespace ErrorsNegative

variable {α σ : Type} {x : Except Int α} {c : Prop} [Decidable c] {err : Int}

theorem ok (a : α) : ErrorsNegative (.ok a) := by
  rintro _ ⟨⟩

theorem error (h : err < 0) : ErrorsNegative (.error err : Except Int α) := by
  rintro _ ⟨⟩
  exact h

theorem guard (h : err < 0) (hx : ErrorsNegative x) :
    ErrorsNegative (if c then .error err else x) := by
  split
  · exact error h
  · exact hx

theorem bind {f : α → Except Int σ} (hx : ErrorsNegative x) (hf : ∀ a, ErrorsNegative (f a)) :
    ErrorsNegative (x.bind f) := by
  cases x with
  | error err => exact error (hx err rfl)
  | ok a => exact hf a

theorem foldlM {f : σ → α → Except Int σ} (hf : ∀ s a, ErrorsNegative (f s a)) (l : List α)
    (s : σ) : ErrorsNegative (l.foldlM f s) := by
  induction l generalizing s with
  | nil => exact ok s
  | cons a l ih =>
    exact (hf s a).bind ih

end ErrorsNegative

theorem checkEntry_errors (sets : CheckSets) (n : Nat) : ErrorsNegative (m.checkEntry sets n) := by
  rw [checkEntry]
  rcases m.mapInfo n with _ | info
  · exact .ok _
  refine .bind ?_ fun sets => ?_
  · rw [checkKind]
    split
    · exact .guard (by decide) (.guard (by decide) (.ok _))
    · exact .guard (by decide) (.guard (by decide) (.ok _))
  · have hindexes : ErrorsNegative (m.checkIndexes n info) := .guard (by decide)
      (.guard (by decide) (.guard (by decide) (.guard (by decide) (.ok _))))
    exact hindexes.bind fun _ => .ok sets

theorem checkTriedSlot_errors (setTried : Finset Nat) (k : TriedSlot) :
    ErrorsNegative (m.checkTriedSlot env setTried k) := by
  rw [checkTriedSlot]
  split
  · exact .ok _
  · refine .guard (by decide) ?_
    split
    · exact .error (by decide)
    · exact .guard (by decide) (.guard (by decide) (.ok _))

theorem checkNewSlot_errors (mapNew : AList fun _ : Nat => Int) (s : NewSlot) :
    ErrorsNegative (m.checkNewSlot env mapNew s) := by
  rw [checkNewSlot]
  split
  · exact .ok _
  · split
    · refine .guard (by decide) ?_
      split
      · exact .ok _
      · exact .ok _
    · exact .error (by decide)

theorem checkAll_errors (m : CAddrMan) : ErrorsNegative (m.checkAll env) := by
  refine .guard (by decide) ((ErrorsNegative.foldlM checkEntry_errors _ _).bind fun sets => ?_)
  refine .guard (by decide) (.guard (by decide) ?_)
  refine (ErrorsNegative.foldlM checkTriedSlot_errors _ _).bind fun setTried => ?_
  refine (ErrorsNegative.foldlM checkNewSlot_errors _ _).bind fun mapNew => ?_
  exact .guard (by decide) (.guard (by decide) (.guard (by decide) (.ok _)))

/-! ## The whole check, read backwards -/

/-- What a `Check_` without objection has found. -/
structure Passed (env : AddrEnv) (m : CAddrMan) : Prop where
  length : (m.vRandom.length : Int) = m.nTried + m.nNew
  entries : ∀ n ∈ m.ids, ∀ info, m.mapInfo n = some info → KindFine info ∧ IndexFine m n info
  triedSize : (m.checkSets.setTried.card : Int) = m.nTried
  newSize : (m.checkSets.mapNew.keys.length : Int) = m.nNew
  triedSlots : ∀ k n, m.vvTried k = some n → n ∈ m.checkSets.setTried ∧
    ∃ info, m.mapInfo n = some info ∧ env.triedSlot m.nKey info.toCService = k
  triedAll : ∀ n ∈ m.checkSets.setTried, ∃ k, m.vvTried k = some n
  newSlots : ∀ s n, m.vvNew s = some n → (m.checkSets.mapNew.lookup n).isSome ∧
    ∃ info, m.mapInfo n = some info ∧ env.newSlot m.nKey info.toCService s.1 = s
  newCounts : ∀ n, countOf m.checkSets.mapNew n = holders CAddrMan.newSlots m.vvNew n
  key : m.nKey ≠ 0

theorem passed_of_checkAll (h : m.checkAll env = .ok ()) : Passed env m := by
  simp only [checkAll, guard_eq_ok, except_bind_eq_ok, not_not] at h
  obtain ⟨hlength, sets, hentries, htriedSize, hnewSize, setTried, htried, mapNew, hnew, hempty,
    hnothing, hkey, -⟩ := h
  obtain ⟨hfine, hsets⟩ := (checkEntries_iff _ _ _).mp hentries
  change sets = m.checkSets at hsets
  subst hsets
  obtain ⟨hslots, hset⟩ := (checkTriedSlots_iff triedSlots_nodup).mp htried
  obtain ⟨hnewSlots, hcounts⟩ := checkNewSlots_ok hnew
  rw [Finset.card_eq_zero] at hempty
  rw [length_eq_zero_iff] at hnothing
  refine ⟨hlength, hfine, htriedSize, hnewSize, fun k => hslots k (mem_triedSlots k), ?_,
    fun s => hnewSlots s (mem_newSlots s), ?_, hkey⟩
  · intro i hi
    by_contra hnone
    have hleft : i ∈ setTried := by
      rw [hset, mem_foldl_erase]
      exact ⟨hi, fun k _ hk => hnone ⟨k, hk⟩⟩
    rw [hempty] at hleft
    exact absurd hleft (Finset.notMem_empty i)
  intro i
  have hzero : countOf mapNew i = 0 := by
    have hnot : mapNew.lookup i = none := by
      apply AList.lookup_eq_none.mpr
      intro hin
      have hkeys := AList.mem_keys.mp hin
      rw [hnothing] at hkeys
      exact not_mem_nil hkeys
    rw [countOf, hnot]
    rfl
  rw [hcounts i, hzero, zero_add]

/-- The address index that the entries determine. -/
def reindexed (m : CAddrMan) : CAddrMan :=
  { m with mapAddr := fun a => m.ids.find? fun n =>
      (m.mapInfo n).any fun info => decide (info.toCNetAddr = a) }

section Passed

variable (hids : ∀ n info, m.mapInfo n = some info → n < m.nIdCount) (h : Passed env m)

include hids h in
theorem Passed.fine {info : CAddrInfo} (hn : m.mapInfo n = some info) :
    KindFine info ∧ IndexFine m n info :=
  h.entries n ((mem_ids hids).mpr ⟨info, hn⟩) info hn

include hids h in
theorem Passed.reindexed_iff {a : CNetAddr} :
    m.reindexed.mapAddr a = some n ↔ ∃ info, m.mapInfo n = some info ∧ info.toCNetAddr = a := by
  constructor
  · intro hfind
    have hsome := find?_some hfind
    obtain ⟨info, hinfo, haddr⟩ := (any_eq_true _ _).mp hsome
    exact ⟨info, hinfo, of_decide_eq_true haddr⟩
  rintro ⟨info, hinfo, rfl⟩
  have hmem := (mem_ids hids).mpr ⟨info, hinfo⟩
  rcases hfind : m.ids.find? fun i =>
      (m.mapInfo i).any fun x => decide (x.toCNetAddr = info.toCNetAddr) with _ | i
  · have hnone := find?_eq_none.mp hfind n hmem
    rw [hinfo] at hnone
    simp at hnone
  · -- two entries with one address would both be what the index says
    have hsome := find?_some hfind
    obtain ⟨x, hx, haddr⟩ := (any_eq_true _ _).mp hsome
    have hfirst := (h.fine hids hx).2.addr
    rw [of_decide_eq_true haddr, (h.fine hids hinfo).2.addr] at hfirst
    rw [hfirst]
    exact hfind

/-- As many places as entries, and each entry at its own: every place is taken. -/
theorem Passed.placed (hids : ∀ n info, m.mapInfo n = some info → n < m.nIdCount)
    (h : Passed env m) {i : Nat} (hi : m.vRandom[i]? = some n) :
    ∃ info, m.mapInfo n = some info ∧ info.nRandomPos = i := by
  have hlength : m.ids.length = m.vRandom.length := by
    have hf := filled_checkSets m
    have htried := h.triedSize
    have hnew := h.newSize
    have hsum := h.length
    rw [hf.triedSize, countP_ids] at htried
    rw [hf.newSize, countP_ids] at hnew
    rw [length_ids, triedCount, newCount]
    omega
  -- every entry is in `vRandom`, which has no room for anything else
  have hperm : m.ids.Perm m.vRandom := by
    refine (subperm_of_subset m.ids_nodup fun j hj => ?_).perm_of_length_le hlength.ge
    obtain ⟨info, hinfo⟩ := (mem_ids hids).mp hj
    exact mem_of_getElem? (h.fine hids hinfo).2.place.2
  obtain ⟨info, hinfo⟩ := (mem_ids hids).mp (hperm.mem_iff.mpr (mem_of_getElem? hi))
  obtain ⟨hnonneg, hat⟩ := (h.fine hids hinfo).2.place
  have hplace := (getElem?_inj (List.getElem?_eq_some_iff.mp hi).1
    (hperm.nodup_iff.mp m.ids_nodup)).mp (hi.trans hat.symm)
  exact ⟨info, hinfo, by omega⟩

include hids h in
theorem Passed.shuffled : m.Shuffled := by
  apply places_of_at
  · intro i p
    constructor
    · intro hp
      obtain ⟨info, hinfo, hpos⟩ := map_eq_some_iff.mp hp
      have hat := (h.fine hids hinfo).2.place.2
      rwa [hpos, Int.toNat_natCast] at hat
    · intro hi
      obtain ⟨info, hinfo, hpos⟩ := h.placed hids hi
      rw [pos, hinfo, map_some, hpos]
  · intro i p hp
    obtain ⟨info, hinfo, rfl⟩ := map_eq_some_iff.mp hp
    exact (h.fine hids hinfo).2.place.1

include hids h in
theorem Passed.consistent : Consistent env True m.reindexed := by
  have hf := filled_checkSets m
  have hmem : ∀ {i e}, m.entry i = some e → i ∈ m.ids := by
    intro i e he
    obtain ⟨info, hinfo, -⟩ := exists_mapInfo he
    exact (mem_ids hids).mpr ⟨info, hinfo⟩
  have hshuffled : m.Shuffled := h.shuffled hids
  refine ⟨⟨⟨?_, ?_, ?_, ?_, ?_, ?_, fun _ => h.key⟩, hshuffled, ?_, ?_⟩, ?_⟩
  · intro i e he
    obtain ⟨info, hinfo, -⟩ := exists_mapInfo he
    exact hids i info hinfo
  · intro a i
    rw [h.reindexed_iff hids]
    exact (exists_entry_iff (m := m) (P := (·.toCNetAddr = a))).symm
  · intro k i
    constructor
    · intro hk
      obtain ⟨hin, info, hinfo, hslot⟩ := h.triedSlots k i hk
      obtain ⟨-, e, he, htried⟩ := (hf.tried i).mp hin
      cases (entry_of_mapInfo hinfo).symm.trans he
      exact ⟨_, entry_of_mapInfo hinfo, htried, hslot⟩
    · rintro ⟨e, he, htried, rfl⟩
      -- the entry is in some slot, and that is the computed one
      obtain ⟨k, hk⟩ := h.triedAll i ((hf.tried i).mpr ⟨hmem he, e, he, htried⟩)
      obtain ⟨-, info, hinfo, hslot⟩ := h.triedSlots k i hk
      cases (entry_of_mapInfo hinfo).symm.trans he
      rw [show env.triedSlot m.reindexed.nKey info.body.toCService = k from hslot]
      exact hk
  · intro s i hs
    obtain ⟨hsome, info, hinfo, hslot⟩ := h.newSlots s i hs
    obtain ⟨c, hc⟩ := isSome_iff_exists.mp hsome
    obtain ⟨-, e, he, hnot, -⟩ := (hf.fresh i c).mp hc
    cases (entry_of_mapInfo hinfo).symm.trans he
    exact ⟨_, entry_of_mapInfo hinfo, hnot, hslot⟩
  · intro i e he
    obtain ⟨info, hinfo, rfl⟩ := exists_mapInfo he
    have hcount := h.newCounts i
    show info.nRefCount = (holders CAddrMan.newSlots m.vvNew i : Int)
    rw [← hcount, countOf]
    by_cases htried : info.fInTried = true
    · have hout : m.checkSets.mapNew.lookup i = none := by
        rw [eq_none_iff_forall_ne_some]
        intro c hc
        obtain ⟨-, e, he, hnot, -⟩ := (hf.fresh i c).mp hc
        cases (entry_of_mapInfo hinfo).symm.trans he
        exact absurd (htried.symm.trans hnot) (by decide)
      rw [hout, (h.fine hids hinfo).1.unreferenced htried]
      rfl
    · rw [(hf.fresh i info.nRefCount).mpr ⟨hmem he, _, entry_of_mapInfo hinfo,
        Bool.eq_false_iff.mpr htried, rfl⟩]
      rfl
  · intro i e he
    obtain ⟨info, hinfo, rfl⟩ := exists_mapInfo he
    obtain ⟨hkind, hindex⟩ := h.fine hids hinfo
    exact ⟨hkind.success, hindex.successSign, fun _ => hindex.trySign⟩
  · have hsize := h.newSize
    rw [hf.newSize, countP_ids] at hsize
    exact hsize.symm
  · have hsize := h.triedSize
    rw [hf.triedSize, countP_ids] at hsize
    exact hsize.symm
  · intro i e he hnot
    obtain ⟨info, hinfo, rfl⟩ := exists_mapInfo he
    obtain ⟨hmin, hmax⟩ := (h.fine hids hinfo).1.referenced hnot
    exact ⟨hmax, fun _ => hmin⟩

end Passed

/-- A state that `Check_` does not object to has its indexes in
agreement, up to addresses without an entry. -/
theorem consistent_of_check (hids : ∀ n info, m.mapInfo n = some info → n < m.nIdCount)
    (hcheck : m.check_ env = 0) : Consistent env True m.reindexed := by
  apply Passed.consistent hids
  apply passed_of_checkAll
  rw [check_] at hcheck
  rcases hall : m.checkAll env with err | _
  · have hneg := checkAll_errors m _ hall
    rw [hall] at hcheck
    exact absurd hcheck (Int.ne_of_lt hneg)
  · rfl

end CAddrMan

end MonetaryUnit
