/-
# MonetaryUnit.Net.AddrManCheck — `Check_` finds nothing wrong

What a run of calls on a fresh address manager keeps, in the words of `Check_`
(`CheckConditions`), and that `Check_` itself returns zero. The function asks for two things that
the calls do not promise: that no last try is negative, where `Attempt_` stores the time it is
given, and that the key is not null, which is up to `GetRandHash`.
-/

import MonetaryUnit.Net.AddrManRuns

namespace MonetaryUnit

open Lib List AList Option

/-! ## Checks that stop at the first objection -/

section Objections

variable {ε α β : Type} {c : Prop} [Decidable c] {err : ε} {x : Except ε α} {a : α}

theorem guard_eq_ok : (if c then .error err else x) = .ok a ↔ ¬ c ∧ x = .ok a := by
  split <;> simp [*]

theorem except_bind_eq_ok {f : α → Except ε β} {b : β} :
    x.bind f = .ok b ↔ ∃ a, x = .ok a ∧ f a = .ok b := by
  cases x <;> simp [Except.bind]

theorem foldlM_cons_eq_ok {f : β → α → Except ε β} {l : List α} {s t : β} :
    (a :: l).foldlM f s = .ok t ↔ ∃ s1, f s a = .ok s1 ∧ l.foldlM f s1 = .ok t := by
  exact except_bind_eq_ok

end Objections

/-- `Good_` is told a time after the epoch; where the times are in order, `Attempt_` is not told
one before it. -/
def AddrCall.Admissible (timely : Prop) : AddrCall → Prop
  | .good _ nTime _ => 0 < nTime
  | .attempt _ nTime => timely → 0 ≤ nTime
  | _ => True

/-- The calls that can make an entry. -/
def AddrCall.isAdd : AddrCall → Bool
  | .add .. => true
  | _ => false

namespace CAddrMan

variable {env : AddrEnv} {timely : Prop} {m : CAddrMan} {n : Nat}

/-! ## Runs -/

theorem Consistent.call_spec (h : Consistent env timely m) {c : AddrCall}
    (hc : c.Admissible timely) (hids : m.nIdCount + c.isAdd.toNat < 2 ^ 31) :
    ∃ m', m.call env c = some m' ∧ Consistent env timely m' ∧
      m'.nIdCount ≤ m.nIdCount + c.isAdd.toNat := by
  cases c with
  | add addr source nTimePenalty nNow rnd =>
    obtain ⟨r, hr, h'⟩ := h.add_spec addr source nTimePenalty nNow rnd (Nat.lt_sub_of_add_lt hids)
    exact ⟨r.2, by rw [call, hr]; rfl, h'⟩
  | good addr nTime nRnd =>
    obtain ⟨m', hm', h', heq⟩ := h.good_spec addr hc nRnd
    exact ⟨m', hm', h', heq.le⟩
  | attempt addr nTime => exact ⟨_, rfl, (h.attempt_spec addr hc).imp_right Eq.le⟩
  | connected addr nTime => exact ⟨_, rfl, (h.connected_spec addr nTime).imp_right Eq.le⟩
  | getAddr vAddr nNow rnd =>
    obtain ⟨r, hr, h', heq⟩ := h.getAddrFrom_spec nNow rnd (min (23 * m.vRandom.length / 100) 2500)
      m.vRandom.length 0 (Nat.zero_add _) vAddr
    exact ⟨r.1, by rw [call, getAddr_, hr]; rfl, h', heq.le⟩

/-- No assertion fails in a run, and the indexes agree after it. -/
theorem Consistent.run_spec (calls : List AddrCall) (h : Consistent env timely m)
    (hc : ∀ c ∈ calls, c.Admissible timely)
    (hids : m.nIdCount + calls.countP AddrCall.isAdd < 2 ^ 31) :
    ∃ m', m.run env calls = some m' ∧ Consistent env timely m' := by
  induction calls generalizing m with
  | nil => exact ⟨m, rfl, h⟩
  | cons c calls ih =>
    have hcons : (c :: calls).countP AddrCall.isAdd =
        calls.countP AddrCall.isAdd + c.isAdd.toNat := by
      rw [countP_cons]
      cases c.isAdd <;> rfl
    obtain ⟨m1, hcall, h1, hle⟩ := h.call_spec (hc c mem_cons_self) (by omega)
    obtain ⟨m', hrun, h'⟩ := ih h1 (fun c hmem => hc c (mem_cons_of_mem _ hmem)) (by omega)
    refine ⟨m', ?_, h'⟩
    rw [run, foldlM_cons, hcall]
    exact hrun

/-! ## The list of ids -/

theorem mem_ids (hids : ∀ n info, m.mapInfo n = some info → n < m.nIdCount) :
    n ∈ m.ids ↔ ∃ info, m.mapInfo n = some info := by
  rw [ids, mem_filter, mem_range, isSome_iff_exists]
  constructor
  · rintro ⟨-, hinfo⟩
    exact hinfo
  · rintro ⟨info, hinfo⟩
    exact ⟨hids n info hinfo, info, hinfo⟩

theorem Tables.mem_ids (h : Tables env timely m) : n ∈ m.ids ↔ ∃ info, m.mapInfo n = some info :=
  CAddrMan.mem_ids fun _ _ hinfo => h.ids (entry_of_mapInfo hinfo)

theorem ids_nodup (m : CAddrMan) : m.ids.Nodup := nodup_range.filter _

theorem countP_ids (m : CAddrMan) (kind : CAddrInfo → Bool) :
    m.ids.countP (fun n => (m.entry n).any kind) = tally m.nIdCount m.entry kind := by
  rw [ids, countP_filter]
  congr 1
  funext i
  rcases hi : m.mapInfo i with _ | info <;> simp [entry, hi]

/-- Every entry is tried or new. -/
theorem length_ids (m : CAddrMan) : m.ids.length = m.triedCount + m.newCount := by
  rw [length_eq_countP_add_countP (fun n => (m.entry n).any CAddrInfo.fInTried), triedCount,
    newCount, ← countP_ids, ← countP_ids]
  congr 1
  apply countP_congr
  intro i hi
  obtain ⟨info, hinfo⟩ := isSome_iff_exists.mp (mem_filter.mp hi).2
  simp [entry_of_mapInfo hinfo]

theorem vRandom_perm (h : Tables env timely m) (hs : m.Shuffled) : m.vRandom.Perm m.ids := by
  have hnodup : m.vRandom.Nodup := by
    rw [nodup_iff_getElem?_ne_getElem?]
    intro i j hij hj heq
    have hi := getElem?_eq_getElem (show i < m.vRandom.length by omega)
    exact absurd (Places.unique hs hi (heq ▸ hi)) (by omega)
  rw [perm_ext_iff_of_nodup hnodup m.ids_nodup]
  intro i
  rw [h.mem_ids, mem_iff_getElem?]
  constructor
  · rintro ⟨j, hj⟩
    obtain ⟨info, hinfo, -⟩ := hs.entry hj
    exact ⟨info, hinfo⟩
  · rintro ⟨info, hinfo⟩
    obtain ⟨j, -, hj⟩ := (hs i info.nRandomPos).mp (by rw [pos, hinfo]; rfl)
    exact ⟨j, hj⟩

/-! ## The loop over the entries -/

/-- What the entry loop asks of an entry by itself. -/
structure KindFine (info : CAddrInfo) : Prop where
  success : info.fInTried = true → info.nLastSuccess ≠ 0
  unreferenced : info.fInTried = true → info.nRefCount = 0
  referenced : info.fInTried = false → 1 ≤ info.nRefCount ∧ info.nRefCount ≤ 8

/-- What the entry loop asks of an entry and the indexes. -/
structure IndexFine (m : CAddrMan) (n : Nat) (info : CAddrInfo) : Prop where
  addr : (m.mapAddr info.toCNetAddr).getD 0 = n
  place : 0 ≤ info.nRandomPos ∧ m.vRandom[info.nRandomPos.toNat]? = some n
  trySign : 0 ≤ info.nLastTry
  successSign : 0 ≤ info.nLastSuccess

/-- An entry is noted in the set of its kind. -/
def CheckSets.note (sets : CheckSets) (n : Nat) (info : CAddrInfo) : CheckSets :=
  if info.fInTried then { sets with setTried := insert n sets.setTried }
  else { sets with mapNew := sets.mapNew.insert n info.nRefCount }

def noteEntry (m : CAddrMan) (sets : CheckSets) (n : Nat) : CheckSets :=
  (m.mapInfo n).elim sets (sets.note n)

variable {l : List Nat} {sets sets' : CheckSets} {info : CAddrInfo}

theorem checkKind_iff :
    checkKind sets n info = .ok sets' ↔ KindFine info ∧ sets' = sets.note n info := by
  rw [checkKind, CheckSets.note]
  by_cases htried : info.fInTried = true
  · simp only [if_pos htried, guard_eq_ok, not_not, Except.ok.injEq]
    constructor
    · rintro ⟨hsuccess, hrefs, rfl⟩
      refine ⟨⟨fun _ => hsuccess, fun _ => hrefs, fun hnot => ?_⟩, rfl⟩
      exact absurd (htried.symm.trans hnot) (by decide)
    · rintro ⟨hfine, rfl⟩
      exact ⟨hfine.success htried, hfine.unreferenced htried, rfl⟩
  · simp only [if_neg htried, guard_eq_ok, Except.ok.injEq]
    constructor
    · rintro ⟨hrange, hzero, rfl⟩
      exact ⟨⟨fun h => absurd h htried, fun h => absurd h htried, fun _ => by omega⟩, rfl⟩
    · rintro ⟨hfine, rfl⟩
      have hrange := hfine.referenced (Bool.eq_false_iff.mpr htried)
      exact ⟨by omega, by omega, rfl⟩

theorem checkIndexes_iff : m.checkIndexes n info = .ok () ↔ IndexFine m n info := by
  simp only [checkIndexes, guard_eq_ok, not_or, not_not, Int64.not_lt, and_true, not_lt]
  constructor
  · rintro ⟨haddr, hplace, htry, hsuccess⟩
    exact ⟨haddr, hplace, htry, hsuccess⟩
  · rintro ⟨haddr, hplace, htry, hsuccess⟩
    exact ⟨haddr, hplace, htry, hsuccess⟩

theorem checkEntry_iff : m.checkEntry sets n = .ok sets' ↔
      (∀ info, m.mapInfo n = some info → KindFine info ∧ IndexFine m n info) ∧
        sets' = m.noteEntry sets n := by
  rw [checkEntry, noteEntry]
  rcases m.mapInfo n with _ | info
  · simp [eq_comm]
  simp only [some.injEq, forall_eq', except_bind_eq_ok, checkKind_iff]
  constructor
  · rintro ⟨_, ⟨hkind, rfl⟩, hrest⟩
    rcases hindex : m.checkIndexes n info with err | _
    · rw [hindex] at hrest
      cases hrest
    · rw [hindex] at hrest
      cases hrest
      exact ⟨⟨hkind, checkIndexes_iff.mp hindex⟩, rfl⟩
  · rintro ⟨⟨hkind, hindex⟩, rfl⟩
    refine ⟨_, ⟨hkind, rfl⟩, ?_⟩
    rw [checkIndexes_iff.mpr hindex]
    rfl

theorem checkEntries_iff (l : List Nat) (sets sets' : CheckSets) :
    l.foldlM m.checkEntry sets = .ok sets' ↔
      (∀ n ∈ l, ∀ info, m.mapInfo n = some info → KindFine info ∧ IndexFine m n info) ∧
        sets' = l.foldl m.noteEntry sets := by
  induction l generalizing sets with
  | nil =>
    show Except.ok sets = _ ↔ _
    simp [eq_comm]
  | cons n l ih =>
    rw [foldlM_cons_eq_ok, forall_mem_cons]
    constructor
    · rintro ⟨_, hstep, hrest⟩
      obtain ⟨hfine, rfl⟩ := checkEntry_iff.mp hstep
      exact ⟨⟨hfine, ((ih _).mp hrest).1⟩, ((ih _).mp hrest).2⟩
    · rintro ⟨⟨hfine, hall⟩, hsets⟩
      exact ⟨_, checkEntry_iff.mpr ⟨hfine, rfl⟩, (ih _).mpr ⟨hall, hsets⟩⟩

/-- The sets of `Check_` after the entries in `l`. -/
structure Filled (m : CAddrMan) (l : List Nat) (sets : CheckSets) : Prop where
  tried : ∀ n, n ∈ sets.setTried ↔ n ∈ l ∧ ∃ e, m.entry n = some e ∧ e.fInTried = true
  fresh : ∀ n c, sets.mapNew.lookup n = some c ↔
    n ∈ l ∧ ∃ e, m.entry n = some e ∧ e.fInTried = false ∧ e.nRefCount = c
  triedSize : sets.setTried.card = l.countP fun n => (m.entry n).any CAddrInfo.fInTried
  newSize : sets.mapNew.keys.length = l.countP fun n => (m.entry n).any fun e => !e.fInTried

theorem Filled.empty (m : CAddrMan) : Filled m [] ⟨∅, ∅⟩ := by
  refine ⟨?_, ?_, rfl, rfl⟩
  · intro i
    simp
  · intro i c
    simp [lookup_empty]

theorem Filled.note (hf : Filled m l sets) (hn : m.mapInfo n = some info) (hnew : n ∉ l) :
    Filled m (l ++ [n]) (sets.note n info) := by
  have he := entry_of_mapInfo hn
  -- whatever is asked of the entries, this one is asked it too
  have hmem : ∀ (p : CAddrInfo → Prop) (i : Nat), (i ∈ l ++ [n] ∧ ∃ e, m.entry i = some e ∧ p e) ↔
      (i ∈ l ∧ ∃ e, m.entry i = some e ∧ p e) ∨ i = n ∧ p info.body := by
    intro p i
    rw [mem_append, mem_singleton, or_and_right]
    refine or_congr_right (and_congr_right ?_)
    rintro rfl
    simp [he]
  have hcount : ∀ kind : CAddrInfo → Bool, (l ++ [n]).countP (fun n => (m.entry n).any kind) =
      l.countP (fun n => (m.entry n).any kind) + if kind info.body then 1 else 0 := by
    intro kind
    rw [countP_append, countP_singleton, he]
    rfl
  rw [CheckSets.note]
  by_cases htried : info.fInTried = true
  · have hbody : info.body.fInTried = true := htried
    have hout : n ∉ sets.setTried := fun hin => hnew ((hf.tried n).mp hin).1
    rw [if_pos htried]
    refine ⟨fun i => ?_, fun i c => ?_, ?_, ?_⟩
    · rw [Finset.mem_insert, hf.tried, hmem]
      simp [hbody, or_comm]
    · rw [hf.fresh, hmem]
      simp [hbody]
    · simp [Finset.card_insert_of_notMem hout, hf.triedSize, hcount, hbody]
    · simp [hf.newSize, hcount, hbody]
  · have hbody : info.body.fInTried = false := Bool.eq_false_iff.mpr htried
    have hout : n ∉ sets.mapNew.keys := by
      intro hin
      obtain ⟨c, hc⟩ := isSome_iff_exists.mp (lookup_isSome.mpr (mem_keys.mpr hin))
      exact hnew ((hf.fresh n c).mp hc).1
    rw [if_neg htried]
    refine ⟨fun i => ?_, fun i c => ?_, ?_, ?_⟩
    · rw [hf.tried, hmem]
      simp [hbody]
    · rw [hmem]
      rcases eq_or_ne i n with rfl | hi
      · rw [lookup_insert, some.injEq]
        simp only [hnew, false_and, false_or, true_and, hbody]
        rfl
      · rw [lookup_insert_ne hi, hf.fresh]
        simp [hi]
    · simp [hf.triedSize, hcount, hbody]
    · simp [keys_insert, erase_of_not_mem hout, hf.newSize, hcount, hbody]

theorem filled_foldl (l' l : List Nat) (hf : Filled m l sets)
    (hn : ∀ n ∈ l', ∃ info, m.mapInfo n = some info) (hnodup : (l ++ l').Nodup) :
    Filled m (l ++ l') (l'.foldl m.noteEntry sets) := by
  induction l' generalizing l sets with
  | nil => rwa [append_nil]
  | cons n l' ih =>
    obtain ⟨info, hinfo⟩ := hn n mem_cons_self
    have hnew : n ∉ l := (disjoint_of_nodup_append hnodup · mem_cons_self)
    have hstep : m.noteEntry sets n = sets.note n info := by
      rw [noteEntry, hinfo]
      rfl
    have hrest := ih (l ++ [n]) (hf.note hinfo hnew)
      (fun i hi => hn i (mem_cons_of_mem _ hi)) (by rwa [append_assoc])
    rw [append_assoc] at hrest
    rw [foldl_cons, hstep]
    exact hrest

/-- The sets after the entry loop. -/
def checkSets (m : CAddrMan) : CheckSets := m.ids.foldl m.noteEntry ⟨∅, ∅⟩

theorem filled_checkSets (m : CAddrMan) : Filled m m.ids m.checkSets :=
  filled_foldl m.ids [] (Filled.empty m)
    (fun _ hi => isSome_iff_exists.mp (mem_filter.mp hi).2) m.ids_nodup

theorem Consistent.entries_fine (h : Consistent env True m) {n : Nat} {info : CAddrInfo}
    (hn : m.mapInfo n = some info) : KindFine info ∧ IndexFine m n info := by
  have he := entry_of_mapInfo hn
  have hstats := h.stats he
  have haddr : m.mapAddr info.toCNetAddr = some n := h.addr.mpr ⟨_, he, rfl⟩
  obtain ⟨i, hpos, hi⟩ := (h.shuffled n info.nRandomPos).mp (by rw [pos, hn]; rfl)
  refine ⟨⟨hstats.success, fun htried => ?_, fun hnot => ?_⟩, ?_, ⟨?_, ?_⟩,
    hstats.trySign trivial, hstats.successSign⟩
  · have hzero : info.body.nRefCount = 0 := h.refs_tried he htried
    exact hzero
  · obtain ⟨hmax, hmin⟩ := h.referenced n _ he hnot
    exact ⟨hmin (Set.notMem_empty n), hmax⟩
  · rw [haddr]
    rfl
  · omega
  · rw [hpos, Int.toNat_natCast, hi]

/-! ## The loops over the slots -/

section TriedSlots

variable {setTried setTried' : Finset Nat} {k : TriedSlot} {slots : List TriedSlot}

/-- A tried slot asks that its entry is still in the set and belongs into the slot. -/
theorem checkTriedSlot_iff : m.checkTriedSlot env setTried k = .ok setTried' ↔
    (∀ n, m.vvTried k = some n → n ∈ setTried ∧
      ∃ info, m.mapInfo n = some info ∧ env.triedSlot m.nKey info.toCService = k) ∧
    setTried' = (m.vvTried k).elim setTried setTried.erase := by
  rw [checkTriedSlot]
  rcases m.vvTried k with _ | i
  · simp [eq_comm]
  simp only [some.injEq, forall_eq', guard_eq_ok, not_not, elim_some]
  rcases m.mapInfo i with _ | info
  · simp
  simp only [guard_eq_ok, not_not, Except.ok.injEq, some.injEq, exists_eq_left',
    AddrEnv.triedSlot, Prod.ext_iff]
  constructor
  · rintro ⟨hmem, hbucket, hplace, rfl⟩
    exact ⟨⟨hmem, hbucket, hbucket ▸ hplace⟩, rfl⟩
  · rintro ⟨⟨hmem, hbucket, hplace⟩, rfl⟩
    exact ⟨hmem, hbucket, hbucket ▸ hplace, rfl⟩

/-- What is left in the set is in none of the slots. -/
theorem mem_foldl_erase : n ∈ slots.foldl (fun set k => (m.vvTried k).elim set set.erase) setTried ↔
    n ∈ setTried ∧ ∀ k ∈ slots, m.vvTried k ≠ some n := by
  induction slots generalizing setTried with
  | nil => simp
  | cons k slots ih =>
    rw [foldl_cons, ih, forall_mem_cons, ← and_assoc]
    refine and_congr_left fun _ => ?_
    rcases m.vvTried k with _ | i
    · simp
    · simp [and_comm, eq_comm]

/-- Each tried slot takes its own entry out of the set. -/
theorem checkTriedSlots_iff (hnodup : slots.Nodup) :
    slots.foldlM (m.checkTriedSlot env) setTried = .ok setTried' ↔
      (∀ k ∈ slots, ∀ n, m.vvTried k = some n → n ∈ setTried ∧
        ∃ info, m.mapInfo n = some info ∧ env.triedSlot m.nKey info.toCService = k) ∧
      setTried' = slots.foldl (fun set k => (m.vvTried k).elim set set.erase) setTried := by
  induction slots generalizing setTried with
  | nil =>
    show Except.ok setTried = _ ↔ _
    simp [eq_comm]
  | cons k slots ih =>
    obtain ⟨hk, hrest⟩ := nodup_cons.mp hnodup
    simp only [foldlM_cons_eq_ok, checkTriedSlot_iff, ih hrest, forall_mem_cons, foldl_cons]
    constructor
    · rintro ⟨_, ⟨hhead, rfl⟩, htail, rfl⟩
      refine ⟨⟨hhead, fun k' hk' i hi => ?_⟩, rfl⟩
      obtain ⟨hmem, hinfo⟩ := htail k' hk' i hi
      exact ⟨((@mem_foldl_erase m i setTried [k]).mp hmem).1, hinfo⟩
    · rintro ⟨⟨hhead, htail⟩, rfl⟩
      refine ⟨_, ⟨hhead, rfl⟩, fun k' hk' i hi => ?_, rfl⟩
      obtain ⟨hmem, info, hinfo, hslot⟩ := htail k' hk' i hi
      refine ⟨(@mem_foldl_erase m i setTried [k]).mpr ⟨hmem, ?_⟩, info, hinfo, hslot⟩
      -- an entry has one slot, so the slots left hold others
      intro k'' hk'' hheld
      obtain rfl := mem_singleton.mp hk''
      obtain ⟨-, x, hx, hslot'⟩ := hhead i hheld
      cases hinfo.symm.trans hx
      exact hk (hslot'.symm.trans hslot ▸ hk')

end TriedSlots

section NewSlots

variable {mapNew mapNew' : AList fun _ : Nat => Int} {s : NewSlot} {slots : List NewSlot}

/-- The count of an id in `mapNew`. -/
def countOf (mapNew : AList fun _ : Nat => Int) (n : Nat) : Int := (mapNew.lookup n).getD 0

/-- `mapNew` with one reference less for an id. -/
def countDown (mapNew : AList fun _ : Nat => Int) (n : Nat) : AList fun _ : Nat => Int :=
  if countOf mapNew n - 1 = 0 then mapNew.erase n else mapNew.insert n (countOf mapNew n - 1)

theorem lookup_countDown (i j : Nat) : (countDown mapNew i).lookup j =
    if j = i then (if countOf mapNew i - 1 = 0 then none else some (countOf mapNew i - 1))
    else mapNew.lookup j := by
  rw [countDown]
  rcases eq_or_ne j i with rfl | hj
  · rw [if_pos rfl]
    split_ifs
    · exact lookup_erase _ _
    · exact lookup_insert _
  · split_ifs
    · exact lookup_erase_ne hj
    · exact lookup_insert_ne hj

theorem countOf_countDown (i j : Nat) : countOf (countDown mapNew i) j =
    if j = i then countOf mapNew i - 1 else countOf mapNew j := by
  rw [countOf, lookup_countDown]
  split_ifs with _ hlast
  · exact hlast.symm
  · rfl
  · rfl

/-- A new slot asks that its entry is still counted and belongs into the slot. -/
theorem checkNewSlot_iff : m.checkNewSlot env mapNew s = .ok mapNew' ↔
    (∀ n, m.vvNew s = some n → (mapNew.lookup n).isSome ∧
      ∃ info, m.mapInfo n = some info ∧ env.newSlot m.nKey info.toCService s.1 = s) ∧
    mapNew' = (m.vvNew s).elim mapNew (countDown mapNew) := by
  rw [checkNewSlot]
  rcases m.vvNew s with _ | i
  · simp only [reduceCtorEq, false_implies, implies_true, true_and, elim_none, Except.ok.injEq]
    exact eq_comm
  rcases hlook : mapNew.lookup i with _ | c
  · simp [hlook]
  rcases hinfo : m.mapInfo i with _ | info
  · simp [hinfo]
  simp only [some.injEq, forall_eq', elim_some, countDown, countOf, hlook, hinfo,
    guard_eq_ok, not_not, exists_eq_left', AddrEnv.newSlot, Prod.ext_iff, isSome_some,
    true_and, getD_some, ← apply_ite Except.ok, Except.ok.injEq]
  exact and_congr_right fun _ => eq_comm

/-- What `mapNew` has of an entry that is in `c` slots still to come. -/
def slotsLeft (c : Nat) : Option Int := if c = 0 then none else some c

theorem holders_cons (s : NewSlot) (slots : List NewSlot) (t : NewSlot → Option Nat) (n : Nat) :
    holders (s :: slots) t n = holders slots t n + if t s = some n then 1 else 0 := by
  rw [holders, countP_cons, holders]
  simp

/-- Each new slot counts one reference down, to nothing at the end. -/
theorem checkNewSlots_spec (h : Tables env timely m) (slots : List NewSlot)
    (mapNew : AList fun _ : Nat => Int)
    (hleft : ∀ n, mapNew.lookup n = slotsLeft (holders slots m.vvNew n)) :
    ∃ mapNew', slots.foldlM (m.checkNewSlot env) mapNew = .ok mapNew' ∧
      ∀ n, mapNew'.lookup n = none := by
  induction slots generalizing mapNew with
  | nil => exact ⟨mapNew, rfl, hleft⟩
  | cons s slots ih =>
    have hstep : m.checkNewSlot env mapNew s =
        .ok ((m.vvNew s).elim mapNew (countDown mapNew)) := by
      refine checkNewSlot_iff.mpr ⟨fun i hi => ?_, rfl⟩
      obtain ⟨e, he, -, hslot⟩ := h.fresh hi
      obtain ⟨info, hinfo, rfl⟩ := exists_mapInfo he
      refine ⟨?_, info, hinfo, hslot⟩
      rw [hleft, holders_cons, if_pos hi]
      rfl
    obtain ⟨map', hok, hnone⟩ := ih ((m.vvNew s).elim mapNew (countDown mapNew)) (by
      intro j
      have hj := hleft j
      rw [holders_cons] at hj
      rcases hheld : m.vvNew s with _ | i
      · rw [hheld] at hj
        exact hj
      rw [hheld] at hj
      rw [elim_some, lookup_countDown]
      rcases eq_or_ne j i with rfl | hji
      · rw [if_pos rfl, slotsLeft, if_neg (Nat.succ_ne_zero _)] at hj
        have hcount : countOf mapNew j - 1 = holders slots m.vvNew j := by
          rw [countOf, hj, getD_some]
          omega
        rw [if_pos rfl, hcount, slotsLeft]
        simp only [Int.natCast_eq_zero]
      · rw [if_neg (by simpa using hji.symm)] at hj
        rw [if_neg hji]
        exact hj)
    exact ⟨map', foldlM_cons_eq_ok.mpr ⟨_, hstep, hok⟩, hnone⟩

theorem checkNewSlots_ok (h : slots.foldlM (m.checkNewSlot env) mapNew = .ok mapNew') :
    (∀ s ∈ slots, ∀ n, m.vvNew s = some n → (mapNew.lookup n).isSome ∧
      ∃ info, m.mapInfo n = some info ∧ env.newSlot m.nKey info.toCService s.1 = s) ∧
    ∀ n, countOf mapNew n = countOf mapNew' n + holders slots m.vvNew n := by
  induction slots generalizing mapNew with
  | nil =>
    cases h
    simp [holders]
  | cons s slots ih =>
    obtain ⟨_, hstep, h⟩ := foldlM_cons_eq_ok.mp h
    obtain ⟨hhead, rfl⟩ := checkNewSlot_iff.mp hstep
    obtain ⟨hin, hcount⟩ := ih h
    rcases hheld : m.vvNew s with _ | i
    · rw [hheld] at hin hcount
      refine ⟨forall_mem_cons.mpr ⟨hhead, hin⟩, fun j => ?_⟩
      rw [holders_cons, hheld]
      exact hcount j
    rw [hheld] at hin hcount
    refine ⟨forall_mem_cons.mpr ⟨hhead, fun s' hs' j hj => ?_⟩, fun j => ?_⟩
    · obtain ⟨hsome, hentry⟩ := hin s' hs' j hj
      refine ⟨?_, hentry⟩
      rcases eq_or_ne j i with rfl | hne
      · exact (hhead j hheld).1
      · rwa [elim_some, lookup_countDown, if_neg hne] at hsome
    · -- one reference less for this id, the same for all others
      have hrest := hcount j
      rw [elim_some, countOf_countDown] at hrest
      rw [holders_cons, hheld]
      rcases eq_or_ne j i with rfl | hji
      · rw [if_pos rfl] at hrest ⊢
        omega
      · rw [if_neg hji] at hrest
        rw [if_neg (by simpa using hji.symm)]
        exact hrest

end NewSlots

/-! ## `Check_` -/

theorem triedSlots_nodup : triedSlots.Nodup := (nodup_finRange _).product (nodup_finRange _)

theorem mem_triedSlots (k : TriedSlot) : k ∈ triedSlots :=
  mem_product.mpr ⟨mem_finRange _, mem_finRange _⟩

/-- The counts that `mapNew` starts with are the slots of each entry. -/
theorem Filled.slotsLeft (h : Consistent env timely m) (hf : Filled m m.ids sets) (n : Nat) :
    sets.mapNew.lookup n = CAddrMan.slotsLeft (holders newSlots m.vvNew n) := by
  rcases hlook : sets.mapNew.lookup n with _ | c
  · rw [CAddrMan.slotsLeft]
    split
    · rfl
    rename_i hheld
    -- an id in a slot is a new entry, and those are all in the map
    obtain ⟨s, hs⟩ : ∃ s, m.vvNew s = some n := by
      by_contra hnone
      exact hheld ((holders_eq_zero mem_newSlots).mpr fun s hs => hnone ⟨s, hs⟩)
    obtain ⟨e, he, hnot, -⟩ := h.fresh hs
    obtain ⟨info, hinfo, -⟩ := exists_mapInfo he
    have hin := (hf.fresh n e.nRefCount).mpr
      ⟨h.mem_ids.mpr ⟨info, hinfo⟩, e, he, hnot, rfl⟩
    rw [hlook] at hin
    cases hin
  · obtain ⟨-, e, he, hnot, rfl⟩ := (hf.fresh n c).mp hlook
    have hmin := (h.referenced n e he hnot).2 (Set.notMem_empty n)
    have href := h.refs he
    rw [CAddrMan.slotsLeft, if_neg (by omega), href]

/-- Between calls `Check_` returns zero, if the last tries are not negative
and the key is not null. -/
theorem Consistent.check_eq_zero (h : Consistent env True m) : m.check_ env = 0 := by
  have hf := filled_checkSets m
  have hentries : m.ids.foldlM m.checkEntry ⟨∅, ∅⟩ = .ok m.checkSets :=
    (checkEntries_iff _ _ _).mpr ⟨fun n _ info hn => h.entries_fine hn, rfl⟩
  obtain ⟨setTried, htried, hset⟩ : ∃ setTried,
      triedSlots.foldlM (m.checkTriedSlot env) m.checkSets.setTried = .ok setTried ∧
      ∀ n ∈ setTried, n ∈ m.checkSets.setTried ∧ ∀ k ∈ triedSlots, m.vvTried k ≠ some n := by
    refine ⟨_, (checkTriedSlots_iff triedSlots_nodup).mpr ⟨fun k _ i hi => ?_, rfl⟩,
      fun _ => mem_foldl_erase.mp⟩
    obtain ⟨e, he, hx, hslot⟩ := h.tried.mp hi
    obtain ⟨info, hinfo, rfl⟩ := exists_mapInfo he
    exact ⟨(hf.tried i).mpr ⟨h.mem_ids.mpr ⟨info, hinfo⟩, _, he, hx⟩, info, hinfo, hslot⟩
  obtain ⟨mapNew, hnew, hnone⟩ := checkNewSlots_spec h.toTables newSlots m.checkSets.mapNew
    (Filled.slotsLeft h hf)
  have hlength : (m.vRandom.length : Int) = m.nTried + m.nNew := by
    rw [(vRandom_perm h.toTables h.shuffled).length_eq, length_ids, h.nTried, h.nNew]
    omega
  have htriedSize : (m.checkSets.setTried.card : Int) = m.nTried := by
    rw [hf.triedSize, countP_ids, h.nTried]
    rfl
  have hnewSize : (m.checkSets.mapNew.keys.length : Int) = m.nNew := by
    rw [hf.newSize, countP_ids, h.nNew]
    rfl
  -- every tried entry is in its slot, so none is left in the set
  have hempty : setTried.card = 0 := by
    rw [Finset.card_eq_zero, Finset.eq_empty_iff_forall_notMem]
    intro i hi
    obtain ⟨hin, hout⟩ := hset i hi
    obtain ⟨-, e, he, hx⟩ := (hf.tried i).mp hin
    exact hout _ (mem_triedSlots _) (h.tried.mpr ⟨e, he, hx, rfl⟩)
  have hnothing : mapNew.keys.length = 0 := by
    rw [length_eq_zero_iff, eq_nil_iff_forall_not_mem]
    intro i hi
    have hsome := lookup_isSome.mpr (mem_keys.mpr hi)
    rw [hnone i] at hsome
    cases hsome
  have hall : m.checkAll env = .ok () := by
    simp only [checkAll, guard_eq_ok, except_bind_eq_ok, not_not]
    exact ⟨hlength, _, hentries, htriedSize, hnewSize, _, htried, _, hnew, hempty, hnothing,
      h.key trivial, trivial⟩
  rw [check_, hall]

/-! ## The conditions in full -/

/-- What `Check_` looks at, apart from the last tries and the key. -/
structure CheckConditions (env : AddrEnv) (m : CAddrMan) : Prop where
  nTried : m.nTried = m.ids.countP fun n => (m.mapInfo n).any CAddrInfo.fInTried
  nNew : m.nNew = m.ids.countP fun n => (m.mapInfo n).any fun info => !info.fInTried
  random : m.vRandom.Perm m.ids
  allIds : ∀ n info, m.mapInfo n = some info → n ∈ m.ids
  randomPos : ∀ n info, m.mapInfo n = some info →
    ∃ i : Nat, info.nRandomPos = i ∧ m.vRandom[i]? = some n
  addr : ∀ a n, m.mapAddr a = some n ↔ ∃ info, m.mapInfo n = some info ∧ info.toCNetAddr = a
  newRefs : ∀ n info, m.mapInfo n = some info → info.fInTried = false →
    1 ≤ info.nRefCount ∧ info.nRefCount ≤ 8 ∧ info.nRefCount = holders newSlots m.vvNew n
  newSlot : ∀ bucket i n, m.vvNew (bucket, i) = some n →
    ∃ info, m.mapInfo n = some info ∧ info.fInTried = false ∧
      env.getBucketPosition m.nKey true bucket info.toCService = i
  tried : ∀ n info, m.mapInfo n = some info → info.fInTried = true →
    info.nRefCount = 0 ∧ info.nLastSuccess ≠ 0 ∧
      ∀ k, m.vvTried k = some n ↔ k = env.triedSlot m.nKey info.toCService
  triedSlot : ∀ k n, m.vvTried k = some n → ∃ info, m.mapInfo n = some info ∧ info.fInTried = true
  success : ∀ n info, m.mapInfo n = some info → 0 ≤ info.nLastSuccess

theorem countP_mapInfo (m : CAddrMan) {kind : CAddrInfo → Bool}
    (hkind : ∀ info, kind info.body = kind info) :
    m.ids.countP (fun n => (m.mapInfo n).any kind) = tally m.nIdCount m.entry kind := by
  rw [← countP_ids]
  congr 1
  funext i
  rcases hi : m.mapInfo i with _ | info <;> simp [entry, hi, hkind]

theorem exists_entry_iff {i : Nat} {P : CAddrInfo → Prop} :
    (∃ e, m.entry i = some e ∧ P e) ↔ ∃ info, m.mapInfo i = some info ∧ P info.body := by
  simp only [entry, map_eq_some_iff, exists_exists_and_eq_and]

theorem Consistent.checkConditions (h : Consistent env timely m) : CheckConditions env m where
  nTried := by
    rw [countP_mapInfo m fun _ => rfl]
    exact h.nTried
  nNew := by
    rw [countP_mapInfo m fun _ => rfl, h.nNew]
    rfl
  random := vRandom_perm h.toTables h.shuffled
  allIds := fun n info hinfo => h.mem_ids.mpr ⟨info, hinfo⟩
  randomPos := fun n info hinfo => (h.shuffled n info.nRandomPos).mp (by rw [pos, hinfo]; rfl)
  addr := by
    intro a i
    rw [h.addr]
    exact exists_entry_iff
  newRefs := by
    intro i info hinfo hnot
    have he := entry_of_mapInfo hinfo
    have hrefs : info.body.nRefCount = holders newSlots m.vvNew i := h.refs he
    obtain ⟨hmax, hmin⟩ := h.referenced i _ he hnot
    exact ⟨hmin (Set.notMem_empty i), hmax, hrefs⟩
  newSlot := by
    intro bucket j i hs
    obtain ⟨e, he, hnot, hslot⟩ := h.fresh hs
    obtain ⟨info, hinfo, rfl⟩ := exists_mapInfo he
    exact ⟨info, hinfo, hnot, congrArg Prod.snd hslot⟩
  tried := by
    intro i info hinfo htried
    have he := entry_of_mapInfo hinfo
    have hzero : info.body.nRefCount = 0 := h.refs_tried he htried
    refine ⟨hzero, (h.stats he).success htried, ?_⟩
    intro k
    rw [h.tried]
    constructor
    · rintro ⟨x, hx, -, hk⟩
      cases he.symm.trans hx
      exact hk.symm
    · rintro rfl
      exact ⟨_, he, htried, rfl⟩
  triedSlot := by
    intro k i hk
    obtain ⟨e, he, htried, -⟩ := h.tried.mp hk
    obtain ⟨info, hinfo, rfl⟩ := exists_mapInfo he
    exact ⟨info, hinfo, htried⟩
  success := fun n info hinfo => (h.stats (entry_of_mapInfo hinfo)).successSign

end CAddrMan

open CAddrMan in
/-- **`addrMan_checked_along_runs`** — after any calls on a fresh address manager, with `Good_`
told times after the epoch and fewer than `2 ^ 31` calls of `Add_`, no assertion has failed, the
counter of the ids has not overflowed and every condition on the indexes holds. `Check_` returns
zero unless an `Attempt_` was told a negative time or the key is null. -/
theorem addrMan_checked_along_runs (env : AddrEnv) (nKey : Uint256) (calls : List AddrCall)
    (hgood : ∀ addr nTime nRnd, AddrCall.good addr nTime nRnd ∈ calls → 0 < nTime)
    (hids : calls.countP AddrCall.isAdd < 2 ^ 31) :
    ∃ m, (CAddrMan.empty nKey).run env calls = some m ∧ CheckConditions env m ∧
      (nKey ≠ 0 → (∀ addr nTime, AddrCall.attempt addr nTime ∈ calls → 0 ≤ nTime) →
        m.check_ env = 0) := by
  -- the conditions that only `Check_` needs are carried as one proposition
  obtain ⟨timely, htimely⟩ : ∃ timely : Prop, timely ↔ nKey ≠ 0 ∧
    ∀ addr nTime, AddrCall.attempt addr nTime ∈ calls → 0 ≤ nTime := ⟨_, Iff.rfl⟩
  have hadmissible : ∀ c ∈ calls, c.Admissible timely := by
    intro c hc
    cases c with
    | good addr nTime nRnd => exact hgood addr nTime nRnd hc
    | attempt addr nTime => exact fun ht => (htimely.mp ht).2 addr nTime hc
    | add | connected | getAddr => trivial
  obtain ⟨m, hrun, h⟩ := (consistent_empty fun ht => (htimely.mp ht).1).run_spec calls hadmissible
    ((Nat.zero_add _).trans_lt hids)
  refine ⟨m, hrun, h.checkConditions, ?_⟩
  intro hkey htimes
  rw [eq_true (htimely.mpr ⟨hkey, htimes⟩)] at h
  exact h.check_eq_zero

/-- All hashes are zero, so that entries share every slot; every address is routable. -/
def oneSlotEnv : AddrEnv where
  getTriedBucket := fun _ _ => ⟨0, by decide⟩
  getNewBucket := fun _ _ _ => ⟨0, by decide⟩
  getBucketPosition := fun _ _ _ _ => ⟨0, by decide⟩
  isRoutable := fun _ => true

/-- An address on the port of the network, heard of a second after the epoch. -/
def peerAddress (ip : BitVec 128) : CAddress := { ip, port := 29948, nServices := 1, nTime := 1 }

/-- Two addresses that share every slot: the second to connect evicts the first. -/
def evictingCalls : List AddrCall :=
  [.add (peerAddress 1) ⟨9⟩ 0 2 0, .good (peerAddress 1).toCService 3 0,
    .add (peerAddress 2) ⟨9⟩ 0 4 0, .good (peerAddress 2).toCService 5 0]

theorem evictingCalls_admissible : ∀ c ∈ evictingCalls, c.Admissible True := by
  simp only [evictingCalls, forall_mem_cons]
  refine ⟨trivial, ?_, trivial, ?_, fun _ h => absurd h not_mem_nil⟩
  · show (0 : Int64) < 3
    decide
  · show (0 : Int64) < 5
    decide

open CAddrMan in
theorem addrMan_checked_evicting : ∃ m, (CAddrMan.empty 1).run oneSlotEnv evictingCalls = some m ∧
      CheckConditions oneSlotEnv m ∧ m.check_ oneSlotEnv = 0 := by
  obtain ⟨m, hrun, hconditions, hcheck⟩ := addrMan_checked_along_runs oneSlotEnv 1 evictingCalls
    (fun _ _ _ hmem => evictingCalls_admissible _ hmem) (by decide)
  refine ⟨m, hrun, hconditions, hcheck (by decide) ?_⟩
  exact fun _ _ hmem => evictingCalls_admissible _ hmem trivial

/-- A negative time told to `Attempt_` is stored, and `Check_` objects to it. -/
theorem negativeAttempt_fails_check : ((CAddrMan.empty 1).run oneSlotEnv
      [.add (peerAddress 1) ⟨9⟩ 0 2 0, .attempt (peerAddress 1).toCService (-1)]).map
        (CAddrMan.check_ oneSlotEnv) = some (-6) := by
  decide +kernel

end MonetaryUnit
