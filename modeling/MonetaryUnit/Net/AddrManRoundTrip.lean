/-
# MonetaryUnit.Net.AddrManRoundTrip — nothing is lost on disk

Writing an address manager and reading the bytes into a fresh one gives the same entries in the
same slots, under other ids (`Renumbered`). After the entries, reading fills the slots of the new
table bucket by bucket. It only fills slots that were filled (`Loaded`), each at the position it
works out again, and so no slot is taken twice and no count passes eight. At the end every new
entry has its references back, and nothing is pruned.
-/

import MonetaryUnit.Net.AddrManReload

namespace MonetaryUnit

open Lib List Function Writes Reader CAddrInfo CAddrMan Nat Bool

namespace CAddrMan

variable {env : AddrEnv} {m m' : CAddrMan} {n : Nat} {e : CAddrInfo} {i : Nat} {e' : CAddrInfo}
variable {α σ : Type}

/-! ## The new ids -/

theorem order_perm (m : CAddrMan) : m.order.Perm m.ids := by
  have htried : m.triedIds = m.ids.filter fun n => !m.isNew n := by
    apply filter_congr
    intro i hi
    obtain ⟨info, hinfo⟩ := Option.isSome_iff_exists.mp (mem_filter.mp hi).2
    simp [isTried, isNew, hinfo]
  rw [order, htried]
  exact filter_append_perm _ _

theorem order_nodup (m : CAddrMan) : m.order.Nodup := m.order_perm.nodup_iff.mpr m.ids_nodup

theorem newId_of_order (hi : m.order[i]? = some n) : m.newId n = i := by
  obtain ⟨hlt, rfl⟩ := List.getElem?_eq_some_iff.mp hi
  exact m.order_nodup.idxOf_getElem i hlt

section

variable (h : Tables env True m)
include h

theorem mem_ids_kind {kind : CAddrInfo → Bool} (hkind : ∀ info, kind info.body = kind info) :
    n ∈ m.ids.filter (fun n => (m.mapInfo n).any kind) ↔
      ∃ e, m.entry n = some e ∧ kind e = true := by
  rw [mem_filter, h.mem_ids, Option.any_eq_true]
  constructor
  · rintro ⟨-, info, hinfo, hk⟩
    exact ⟨_, entry_of_mapInfo hinfo, (hkind info).trans hk⟩
  · rintro ⟨e, he, hk⟩
    obtain ⟨info, hinfo, rfl⟩ := exists_mapInfo he
    exact ⟨⟨info, hinfo⟩, info, hinfo, (hkind info).symm.trans hk⟩

theorem mem_newIds : n ∈ m.newIds ↔ ∃ e, m.entry n = some e ∧ e.fInTried = false :=
  (mem_ids_kind h fun _ => rfl).trans (by simp only [not_eq_true'])

theorem mem_triedIds : n ∈ m.triedIds ↔ ∃ e, m.entry n = some e ∧ e.fInTried = true :=
  mem_ids_kind h fun _ => rfl

theorem mem_order : n ∈ m.order ↔ ∃ e, m.entry n = some e := by
  rw [m.order_perm.mem_iff, h.mem_ids]
  constructor
  · rintro ⟨info, hinfo⟩
    exact ⟨_, entry_of_mapInfo hinfo⟩
  · rintro ⟨e, he⟩
    obtain ⟨info, hinfo, -⟩ := exists_mapInfo he
    exact ⟨info, hinfo⟩

theorem order_newId (he : m.entry n = some e) :
    m.order[m.newId n]? = some n := getElem?_idxOf ((mem_order h).mpr ⟨e, he⟩)

theorem newId_inj (he : m.entry n = some e) {n' : Nat} (heq : m.newId n = m.newId n') : n = n' :=
  (idxOf_inj ((mem_order h).mpr ⟨e, he⟩)).mp heq

/-- The number of a new entry is its place among the new ones. -/
theorem newIds_newId (he : m.entry n = some e) (hnot : e.fInTried = false) :
    m.newIds[m.newId n]? = some n := by
  have hmem := (mem_newIds h).mpr ⟨e, he, hnot⟩
  rw [newId, order, idxOf_append_of_mem hmem]
  exact getElem?_idxOf hmem

end

theorem length_newIds (m : CAddrMan) : m.newIds.length = m.newCount := by
  rw [newIds, ← countP_eq_length_filter]
  exact countP_mapInfo m fun _ => rfl

theorem length_triedIds (m : CAddrMan) : m.triedIds.length = m.triedCount := by
  rw [triedIds, ← countP_eq_length_filter]
  exact countP_mapInfo m fun _ => rfl

/-! ## Filling the slots -/

variable {L : List NewSlot} {s : NewSlot}

section

variable (hm : Consistent env True m)
include hm

theorem Loaded.entry_newId (h : Loaded env m m.order L m') (he : m.entry n = some e) :
    ∃ c, m'.entry (m.newId n) = some { e with nLastTry := 0, nRefCount := c } := by
  have hat := h.entry (m.newId n)
  rw [order_newId hm.toTables he, Option.bind_some, he] at hat
  obtain ⟨e', he', hsame⟩ := Option.map_eq_some_iff.mp hat
  refine ⟨e'.nRefCount, ?_⟩
  have hfull : e' = (e'.setRef 0).setRef e'.nRefCount := rfl
  rw [he', hfull, hsame]
  rfl

/-- The slots filled for an entry are slots it had. -/
theorem Loaded.holders_le (he : m.entry n = some e) {t : NewSlot → Option Nat}
    (ht : ∀ s, t s = some (m.newId n) → ∃ j, m.vvNew s = some j ∧ m.newId j = m.newId n) :
    (holders newSlots t (m.newId n) : Int) ≤ e.nRefCount := by
  rw [hm.refs he, Int.ofNat_le]
  apply countP_mono_left
  intro s _ hs
  obtain ⟨j, hj, heq⟩ := ht s (of_decide_eq_true hs)
  rw [decide_eq_true_eq, hj, newId_inj hm.toTables he heq.symm]

/-- The number stored for a slot finds it free, at the position it had. -/
theorem Loaded.loadSlot_spec (h : Loaded env m m.order L m') (hs : s ∉ L) (hheld : m.vvNew s = some n)
    (hsmall : m.newId n < 2 ^ 31) :
    Loaded env m m.order (L ++ [s]) (m'.loadSlot env true s.1 (Int32.ofNat (m.newId n))) := by
  obtain ⟨e, he, hnot, hslot⟩ := hm.fresh hheld
  obtain ⟨c, he'⟩ := h.entry_newId hm he
  obtain ⟨info', hinfo', hbody⟩ := exists_mapInfo he'
  have hindex : (Int32.ofNat (m.newId n)).toInt = m.newId n := Int32.toInt_ofNat_of_lt hsmall
  have hfree : m'.vvNew s = none := by rw [h.vvNew s, if_neg hs]
  have hservice : info'.toCService = e.toCService := congrArg (fun x => x.toCService) hbody
  have hplace : env.newSlot m'.nKey info'.toCService s.1 = s := by rw [hservice, h.nKey, hslot]
  have hnew : (m.newId n : Int) < m'.nNew := by
    have hlt := (List.getElem?_eq_some_iff.mp (newIds_newId hm.toTables he hnot)).1
    rw [h.nNew, hm.nNew, ← length_newIds]
    omega
  -- one more slot is still no more than the entry had
  have hroom : info'.nRefCount < 8 := by
    have hcount : info'.nRefCount = holders newSlots m'.vvNew (m.newId n) :=
      (congrArg nRefCount hbody).trans (h.indexed.refs he')
    have hmore := holders_update (t := m'.vvNew) newSlots_nodup mem_newSlots s
      (some (m.newId n)) (m.newId n)
    rw [hfree, if_neg (by simp), if_pos rfl] at hmore
    have hle := holders_le hm he (t := update m'.vvNew s (some (m.newId n))) (by
      intro s' hs'
      rcases eq_or_ne s' s with rfl | hne
      · exact ⟨n, hheld, rfl⟩
      · rw [update_of_ne hne, h.vvNew s'] at hs'
        split at hs'
        · exact Option.map_eq_some_iff.mp hs'
        · cases hs')
    have hmax := (hm.referenced n e he hnot).1
    omega
  have hload : m'.loadSlot env true s.1 (Int32.ofNat (m.newId n)) = m'.link s (m.newId n) := by
    rw [loadSlot, hindex, Int.toNat_natCast, if_pos ⟨Int.natCast_nonneg _, hnew⟩, hinfo']
    show (if h : s.1.val < 1024 then _ else m') = _
    rw [dif_pos s.1.isLt]
    rw [hplace, if_pos ⟨rfl, hfree, hroom⟩]
  rw [hload]
  have ht := touches_link he' hfree
  have hslot' : env.newSlot m'.nKey e.toCService s.1 = s := by rw [h.nKey, hslot]
  refine ⟨h.indexed.link he' hnot hfree hslot', h.nKey, h.nIdCount, ?_, ?_, h.nNew, h.nTried⟩
  · intro i
    rw [← h.entry i]
    rcases eq_or_ne i (m.newId n) with rfl | hi
    · rw [ht.entry_self, he']
      rfl
    · rw [ht.entry_other hi]
  · intro s'
    show update m'.vvNew s (some (m.newId n)) s' = _
    rcases eq_or_ne s' s with rfl | hne
    · rw [update_self, if_pos (by simp), hheld, Option.map_some]
    · rw [update_of_ne hne, h.vvNew s']
      simp [hne]

/-- The stored numbers, slot by slot. -/
def refill (env : AddrEnv) (m m' : CAddrMan) (s : NewSlot) : CAddrMan :=
  (m.vvNew s).elim m' fun n => m'.loadSlot env true s.1 (Int32.ofNat (m.newId n))

theorem Loaded.refill_spec (hsmall : ∀ n e, m.entry n = some e → m.newId n < 2 ^ 31)
    (L' L : List NewSlot) (h : Loaded env m m.order L m') (hnodup : (L ++ L').Nodup) :
    Loaded env m m.order (L ++ L') (L'.foldl (refill env m) m') := by
  induction L' generalizing L m' with
  | nil => rwa [append_nil]
  | cons s L' ih =>
    have hs : s ∉ L := fun hin =>
      (nodup_append.mp hnodup).2.2 s hin s mem_cons_self rfl
    have hstep : Loaded env m m.order (L ++ [s]) (refill env m m' s) := by
      rw [refill]
      rcases hheld : m.vvNew s with _ | j
      · -- a free slot stays free
        refine { h with vvNew := ?_ }
        intro s'
        rw [Option.elim_none, h.vvNew s']
        rcases eq_or_ne s' s with rfl | hne
        · simp [hs, hheld]
        · simp [hne]
      · obtain ⟨x, hx, -⟩ := hm.fresh hheld
        exact h.loadSlot_spec hm hs hheld (hsmall j x hx)
    have hrest := ih (L ++ [s]) hstep (by rwa [append_assoc])
    rw [append_assoc] at hrest
    exact hrest

end

/-! ## The bytes of the slots -/

theorem foldl_zipIdx (f : σ → α → σ) (as : List α) (k : Nat) (s : σ) :
    (as.zipIdx k).foldl (fun s p => f s p.1) s = as.foldl f s := by
  induction as generalizing k s with
  | nil => rfl
  | cons a as ih => rw [zipIdx_cons, foldl_cons, foldl_cons, ih]

theorem zipIdx_finRange (N : Nat) :
    (finRange N).zipIdx 0 = (finRange N).map fun b => (b, b.val) := by
  apply ext_getElem
  · simp
  · intro i h1 h2
    simp

theorem readBucket_of {nIndexes : List Int32} (hshort : nIndexes.length < 2 ^ 31) (bucket : Nat)
    (m' : CAddrMan) (rest : Bytes) :
    readBucket env true bucket m' ((writeBucket nIndexes).bytes ++ rest) =
      .ok (nIndexes.foldl (fun m x => m.loadSlot env true bucket x) m', rest) := by
  have hlength : (Int32.ofNat nIndexes.length).toInt.toNat = nIndexes.length := by
    rw [Int32.toInt_ofNat_of_lt hshort, Int.toNat_natCast]
  have hloop := @readLoop_of_writes _ _ (readSlot env true bucket)
    (fun x => (serializeInt32 x).bytes) (fun _ m x => m.loadSlot env true bucket x) nIndexes
    (by
      intro i m x _ rest
      rw [readSlot, canonical_readInt32.bind_eq trivial]
      rfl) 0 m' rest
  have hfold := foldl_zipIdx (fun m x => loadSlot env true bucket m x) nIndexes 0 m'
  rw [writeBucket, bytes_append, append_assoc, readBucket,
    canonical_readInt32.bind_eq trivial, hlength, bytes_flatMap]
  exact hloop.trans (congrArg (fun m => Except.ok (m, rest)) hfold)

theorem product_eq_flatMap {β : Type} (l1 : List α) (l2 : List β) :
    l1 ×ˢ l2 = l1.flatMap fun a => l2.map (Prod.mk a) := rfl

/-- Bucket by bucket is slot by slot. -/
theorem foldl_buckets (m : CAddrMan) (g : Nat → Int32)
    (hg : ∀ s n, m.vvNew s = some n → g n = Int32.ofNat (m.newId n)) (m' : CAddrMan) :
    (finRange 1024).foldl (fun m' b => ((m.bucketIds b).map g).foldl
      (fun m' x => m'.loadSlot env true b.val x) m') m' = newSlots.foldl (refill env m) m' := by
  rw [newSlots, product_eq_flatMap, foldl_flatMap]
  apply foldl_ext
  intro m1 b _
  rw [foldl_map, foldl_map, bucketIds, foldl_filterMap]
  apply foldl_ext
  intro m2 i _
  rw [refill]
  rcases hheld : m.vvNew (b, i) with _ | j
  · rfl
  · show m2.loadSlot env true b.val (g j) = m2.loadSlot env true b.val (Int32.ofNat (m.newId j))
    rw [hg _ j hheld]

/-! ## The state at the end -/

theorem Loaded.vvNew_all (h : Loaded env m m.order newSlots m') (s : NewSlot) :
    m'.vvNew s = (m.vvNew s).map m.newId := by
  rw [h.vvNew s, if_pos (mem_newSlots s)]

section

variable (hm : Consistent env True m) (h : Loaded env m m.order newSlots m')
include hm h

theorem Loaded.holders_eq (he : m.entry n = some e) :
    holders newSlots m'.vvNew (m.newId n) = holders newSlots m.vvNew n := by
  rw [holders]
  congr 1
  funext s
  apply decide_eq_decide.mpr
  rw [h.vvNew_all s]
  constructor
  · intro hs
    obtain ⟨j, hj, heq⟩ := Option.map_eq_some_iff.mp hs
    rw [hj, newId_inj hm.toTables he heq.symm]
  · intro hs
    rw [hs, Option.map_some]

/-- Every entry is back, with its references. -/
theorem Loaded.entry_full (he : m.entry n = some e) :
    m'.entry (m.newId n) = some { e with nLastTry := 0 } := by
  obtain ⟨c, he'⟩ := h.entry_newId hm he
  have hcount : c = e.nRefCount := by
    have hrefs : c = holders newSlots m'.vvNew (m.newId n) := h.indexed.refs he'
    rw [hrefs, h.holders_eq hm he, hm.refs he]
  rw [he', hcount]

theorem Loaded.entry_from (he : m'.entry i = some e') :
    ∃ n e, m.newId n = i ∧ m.entry n = some e ∧ e' = { e with nLastTry := 0 } := by
  obtain ⟨j, x, hj, hx, -⟩ := h.entry_some he
  have hid := newId_of_order hj
  refine ⟨j, x, hid, hx, ?_⟩
  have hfull := h.entry_full hm hx
  rw [hid, he, Option.some.injEq] at hfull
  exact hfull

end

theorem countP_range_getElem (l : List α) (p : α → Bool) :
    (range l.length).countP (fun i => l[i]?.any p) = l.countP p := by
  induction l with
  | nil => rfl
  | cons a l ih =>
    rw [length_cons, range_succ_eq_map, countP_cons, countP_map, countP_cons, ← ih]
    rfl

theorem Loaded.tally (h : Loaded env m m.order newSlots m') (kind : CAddrInfo → Bool)
    (hkind : ∀ x : CAddrInfo, kind (x.setRef 0) = kind x ∧ kind (reloaded x) = kind x) :
    Lib.tally m'.nIdCount m'.entry kind = Lib.tally m.nIdCount m.entry kind := by
  have hset : (fun x => kind (setRef 0 x)) = kind := funext fun x => (hkind x).1
  have hload : (fun x => kind (reloaded x)) = kind := funext fun x => (hkind x).2
  rw [← countP_ids m, ← m.order_perm.countP_eq, Lib.tally, h.nIdCount,
    ← countP_range_getElem m.order]
  congr 1
  funext i
  have hat := congrArg (Option.any kind) (h.entry i)
  rw [Option.any_map, hset] at hat
  rw [hat]
  rcases m.order[i]? with _ | j
  · rfl
  · show ((m.entry j).map reloaded).any kind = (m.entry j).any kind
    rw [Option.any_map, hload]

theorem Loaded.consistent (hm : Consistent env True m) (h : Loaded env m m.order newSlots m') :
    Consistent env True m' := by
  refine ⟨⟨h.indexed.toTables, h.indexed.shuffled, ?_, ?_⟩, ?_⟩
  · rw [h.nNew, hm.nNew]
    exact congrArg _ (h.tally _ fun _ => ⟨rfl, rfl⟩).symm
  · rw [h.nTried, hm.nTried]
    exact congrArg _ (h.tally _ fun _ => ⟨rfl, rfl⟩).symm
  · intro i e' he' hnot
    obtain ⟨j, x, -, hx, rfl⟩ := h.entry_from hm he'
    exact hm.referenced j x hx hnot

theorem foldlM_some {f : σ → α → Option σ} {s : σ} (l : List α) (hf : ∀ a ∈ l, f s a = some s) :
    l.foldlM f s = some s := by
  induction l with
  | nil => rfl
  | cons a l ih =>
    rw [foldlM_cons, hf a mem_cons_self]
    exact ih fun b hb => hf b (mem_cons_of_mem _ hb)

/-- Between calls there is nothing to prune. -/
theorem Consistent.prune_eq (h : Consistent env True m) : m.prune = some m := by
  apply foldlM_some
  intro i _
  rw [pruneEntry]
  rcases hinfo : m.mapInfo i with _ | info
  · rfl
  · apply if_neg
    rintro ⟨hnot, hzero⟩
    have hmin : 1 ≤ info.nRefCount :=
      (h.referenced i _ (entry_of_mapInfo hinfo) hnot).2 (Set.notMem_empty i)
    omega

/-! ## How many entries there can be -/

theorem length_newSlots : newSlots.length = 65536 := by
  rw [newSlots, length_product, length_finRange, length_finRange]

theorem length_triedSlots : triedSlots.length = 16384 := by
  rw [triedSlots, length_product, length_finRange, length_finRange]

/-- Entries that have slots are no more than the slots. -/
theorem length_le_slots {ids : List Nat} {slots : List α} {t : α → Option Nat} (hnodup : ids.Nodup)
    (hslot : ∀ i ∈ ids, ∃ s ∈ slots, t s = some i) : ids.length ≤ slots.length := by
  have hsub : ids ⊆ slots.filterMap t := fun i hi => mem_filterMap.mpr (hslot i hi)
  exact (subperm_of_subset hnodup hsub).length_le.trans (length_filterMap_le t slots)

section

variable (hm : Consistent env True m)
include hm

theorem length_newIds_le : m.newIds.length ≤ 65536 := by
  rw [← length_newSlots]
  refine length_le_slots (t := m.vvNew) (m.ids_nodup.filter _) fun i hi => ?_
  obtain ⟨x, hx, hnot⟩ := (mem_newIds hm.toTables).mp hi
  have hmin := (hm.referenced i x hx hnot).2 (Set.notMem_empty i)
  by_contra hnone
  have hzero : holders newSlots m.vvNew i = 0 := by
    rw [holders_eq_zero mem_newSlots]
    intro s hs
    exact hnone ⟨s, mem_newSlots s, hs⟩
  rw [hm.refs hx, hzero] at hmin
  exact absurd hmin (by decide)

theorem length_triedIds_le : m.triedIds.length ≤ 16384 := by
  rw [← length_triedSlots]
  refine length_le_slots (t := m.vvTried) (m.ids_nodup.filter _) fun i hi => ?_
  obtain ⟨x, hx, htried⟩ := (mem_triedIds hm.toTables).mp hi
  exact ⟨_, mem_triedSlots _, hm.tried.mpr ⟨x, hx, htried, rfl⟩⟩

theorem newId_small (he : m.entry n = some e) : m.newId n < 2 ^ 31 := by
  have hlt := (List.getElem?_eq_some_iff.mp (order_newId hm.toTables he)).1
  have hnew := length_newIds_le hm
  have htried := length_triedIds_le hm
  rw [order, length_append] at hlt
  omega

end

/-! ## The whole file -/

/-- The numbers that are stored for a bucket. -/
def bucketNumbers (m : CAddrMan) (b : Fin 1024) : List Int32 :=
  (m.bucketIds b).map fun n => Int32.ofNat (m.newId n)

def newInfos (m : CAddrMan) : List CAddrInfo := m.newIds.filterMap m.mapInfo

def triedInfos (m : CAddrMan) : List CAddrInfo := m.triedIds.filterMap m.mapInfo

theorem length_infos (m : CAddrMan) (p : Nat → Bool) :
    ((m.ids.filter p).filterMap m.mapInfo).length = (m.ids.filter p).length := by
  rw [filterMap_length_eq_length]
  intro i hi
  exact (mem_filter.mp (mem_filter.mp hi).1).2

theorem length_newInfos (m : CAddrMan) : m.newInfos.length = m.newIds.length := m.length_infos _

theorem length_triedInfos (m : CAddrMan) : m.triedInfos.length = m.triedIds.length :=
  m.length_infos _

section

variable (hm : Consistent env True m)
include hm

/-- No assertion fails, and this is what is written. -/
theorem Consistent.serialize_eq (nVersion : Int32) : m.serialize nVersion = some (m.writeHeader ++
      (m.newInfos.flatMap (CAddrInfo.serialize nVersion) ++
        (m.triedInfos.flatMap (CAddrInfo.serialize nVersion) ++
          (finRange 1024).flatMap fun b => writeBucket (m.bucketNumbers b)))) := by
  obtain ⟨pass, hnews, hwritten, hunk, -⟩ := writeNews_spec (m := m) nVersion m.ids m.ids_nodup (by
      intro i _ info hinfo
      have he := entry_of_mapInfo hinfo
      constructor
      · intro hne
        by_contra htried
        have hzero : info.body.nRefCount = 0 := hm.refs_tried he (eq_true_of_not_eq_false htried)
        exact hne hzero
      · intro hnot hzero
        have hmin : 1 ≤ info.nRefCount := (hm.referenced i _ he hnot).2 (Set.notMem_empty i)
        omega)
    ⟨fun _ => 0, 0, []⟩ (by
      show ((0 : Nat) : Int) + (m.newIds.length : Int) ≤ m.nNew
      rw [length_newIds, hm.nNew]
      omega)
  obtain ⟨nIds, htrieds⟩ := writeTrieds_spec (m := m) nVersion m.ids (0, []) (by
    show ((0 : Nat) : Int) + (m.triedIds.length : Int) ≤ m.nTried
    rw [length_triedIds, hm.nTried]
    omega)
  have hbuckets : ∀ b, (m.bucketIds b).map (fun n => Int32.ofNat (pass.mapUnkIds n)) =
      m.bucketNumbers b := by
    intro b
    apply map_congr_left
    intro i hi
    obtain ⟨j, -, hj⟩ := mem_filterMap.mp hi
    obtain ⟨x, hx, hnot, -⟩ := hm.fresh hj
    rw [hunk _ i (newIds_newId hm.toTables hx hnot), zero_add]
  rw [serialize, hnews, Option.bind_some, htrieds]
  simp only [hbuckets, hwritten]
  rfl

/-- Reading starts with no entry. -/
theorem loaded_cleared (key : Uint256) :
    Loaded env m [] [] ((cleared (empty key) m.nKey m.nNew m.nTried).withCount 0) := by
  have h : Consistent env True (empty m.nKey) := consistent_empty fun _ => hm.key trivial
  refine ⟨{ h with stats := ?_ }, rfl, rfl, fun _ => rfl, fun _ => rfl, rfl, rfl⟩
  intro i x hx
  cases hx

theorem Consistent.readNews_eq (nVersion : Int32) (key : Uint256) (rest : Bytes) :
    ∃ m1, readLoop (readNewEntry env true) m.nNew.toNat 0
        (cleared (empty key) m.nKey m.nNew m.nTried)
        (m.newInfos.flatMap (fun x => (x.serialize nVersion).bytes) ++ rest) = .ok (m1, rest) ∧
      Loaded env m m.newIds [] (m1.withCount m.newIds.length) := by
  have hlength : m.nNew.toNat = m.newInfos.length := by
    rw [length_newInfos, length_newIds, hm.nNew]
    omega
  have hloop := @readLoop_of_writes _ _ (readNewEntry env true)
    (fun x => (x.serialize nVersion).bytes) (fun n m x => m.loadNew env true n x.stored) m.newInfos
    (by
      intro n m x _ rest
      rw [readNewEntry, bind_of_ok (readAddrInfo_of nVersion x rest)]
      rfl) 0 (cleared (empty key) m.nKey m.nNew m.nTried) rest
  rw [← hlength] at hloop
  refine ⟨_, hloop, ?_⟩
  exact loadNews_spec hm m.newIds [] _ (loaded_cleared hm key)
    (fun i hi => (mem_filter.mp hi).2) (m.ids_nodup.filter _)

theorem Consistent.readTrieds_eq (nVersion : Int32) {m1 : CAddrMan} (h : Loaded env m m.newIds [] m1)
    (rest : Bytes) :
    ∃ m2, readLoop (readTriedEntry env) m.nTried.toNat 0 (m1, 0)
        (m.triedInfos.flatMap (fun x => (x.serialize nVersion).bytes) ++ rest) =
          .ok ((m2, 0), rest) ∧ Loaded env m m.order [] m2 := by
  have hlength : m.nTried.toNat = m.triedInfos.length := by
    rw [length_triedInfos, length_triedIds, hm.nTried]
    omega
  have hloop := @readLoop_of_writes _ _ (readTriedEntry env)
    (fun x => (x.serialize nVersion).bytes) (fun _ p x => loadTried env p x.stored) m.triedInfos
    (by
      intro n p x _ rest
      rw [readTriedEntry, bind_of_ok (readAddrInfo_of nVersion x rest)]
      rfl) 0 (m1, 0) rest
  have hfold := foldl_zipIdx (fun p (x : CAddrInfo) => loadTried env p x.stored) m.triedInfos 0
    (m1, 0)
  obtain ⟨m2, hok, h2⟩ := loadTrieds_spec hm m.triedIds m.newIds m1 h
    (fun i hi => (mem_filter.mp hi).2) m.order_nodup
  refine ⟨m2, ?_, h2⟩
  rw [hlength]
  exact hloop.trans (congrArg (fun p => Except.ok (p, rest)) (hfold.trans hok))

end

theorem length_bucketNumbers (m : CAddrMan) (b : Fin 1024) :
    (m.bucketNumbers b).length < 2 ^ 31 := by
  have hle := length_filterMap_le (fun i => m.vvNew (b, i)) (finRange 64)
  rw [length_finRange] at hle
  rw [bucketNumbers, length_map, bucketIds]
  omega

section

variable (hm : Consistent env True m)
include hm

theorem Consistent.readBuckets_eq {m2 : CAddrMan} (h : Loaded env m m.order [] m2) (rest : Bytes) :
    ∃ m3, readLoop (readBucket env true) 1024 0 m2
        ((finRange 1024).flatMap (fun b => (writeBucket (m.bucketNumbers b)).bytes) ++ rest) =
          .ok (m3, rest) ∧ Loaded env m m.order newSlots m3 := by
  have hloop := @readLoop_of_writes _ _ (readBucket env true) (fun x => (writeBucket x).bytes)
    (fun n m x => x.foldl (fun m y => m.loadSlot env true n y) m)
    ((finRange 1024).map m.bucketNumbers)
    (by
      intro n m' x hx rest
      obtain ⟨b, -, rfl⟩ := mem_map.mp hx
      exact readBucket_of (m.length_bucketNumbers b) n m' rest) 0 m2 rest
  rw [length_map, length_finRange, flatMap_map, zipIdx_map, zipIdx_finRange,
    map_map, foldl_map] at hloop
  have hslots := @foldl_buckets env m (fun n => Int32.ofNat (m.newId n)) (fun _ _ _ => rfl) m2
  refine ⟨newSlots.foldl (refill env m) m2, ?_, ?_⟩
  · rw [← hslots]
    -- the buckets as a variable, so that nothing is computed from their list
    rw [hloop]
    rfl
  · have hlinked := h.refill_spec hm (fun i x hx => newId_small hm hx) newSlots []
      (by rw [nil_append]; exact newSlots_nodup)
    rw [nil_append] at hlinked
    exact hlinked

theorem Consistent.readTables_eq (nVersion : Int32) (key : Uint256) (rest : Bytes) :
    ∃ m', readTables env 1 1024 (cleared (empty key) m.nKey m.nNew m.nTried)
        (m.newInfos.flatMap (fun x => (x.serialize nVersion).bytes) ++
          (m.triedInfos.flatMap (fun x => (x.serialize nVersion).bytes) ++
            ((finRange 1024).flatMap (fun b => (writeBucket (m.bucketNumbers b)).bytes) ++
              rest))) = .ok (some m', rest) ∧ Loaded env m m.order newSlots m' := by
  obtain ⟨m1, hread1, h1⟩ := hm.readNews_eq nVersion key
    (m.triedInfos.flatMap (fun x => (x.serialize nVersion).bytes) ++
      ((finRange 1024).flatMap (fun b => (writeBucket (m.bucketNumbers b)).bytes) ++ rest))
  have hnew : m1.nNew = m.nNew := h1.nNew
  have htried : m1.nTried = m.nTried := h1.nTried
  have hcount : m1.nNew.toNat = m.newIds.length := by
    rw [hnew, length_newIds, hm.nNew]
    omega
  obtain ⟨m2, hread2, h2⟩ := hm.readTrieds_eq nVersion h1
    ((finRange 1024).flatMap (fun b => (writeBucket (m.bucketNumbers b)).bytes) ++ rest)
  obtain ⟨m3, hread3, h3⟩ := hm.readBuckets_eq h2 rest
  have hlost : m2.addTried (-((0 : Nat) : Int)) = m2 := by simp [addTried]
  refine ⟨m3, ?_, h3⟩
  have huse : decide (1 = 1 ∧ (1024 : Int32) = 1024) = true := by decide
  have hbuckets : (1024 : Int32).toInt.toNat = 1024 := by decide
  have hstart : (cleared (empty key) m.nKey m.nNew m.nTried).nNew = m.nNew := rfl
  rw [readTables, huse, hstart, bind_of_ok hread1, htried, hcount,
    bind_of_ok hread2, hlost, hbuckets, bind_of_ok hread3,
    (h3.consistent hm).prune_eq]
  rfl

/-- The file of a state between calls, read into a fresh object. -/
theorem Consistent.unserialize_serialize (nVersion : Int32) :
    ∃ w, m.serialize nVersion = some w ∧ ∀ key rest, ∃ m',
      unserialize env (empty key) (w.bytes ++ rest) = .ok (some m', rest) ∧
        Loaded env m m.order newSlots m' := by
  refine ⟨_, hm.serialize_eq nVersion, ?_⟩
  intro key rest
  obtain ⟨m', hread, h⟩ := hm.readTables_eq nVersion key rest
  refine ⟨m', ?_, h⟩
  have hnew : (Int32.ofInt m.nNew).toInt = m.nNew := by
    have hle := length_newIds_le hm
    have hcount := hm.nNew
    rw [length_newIds] at hle
    exact Int32.toInt_ofInt_of_le (by omega) (by omega)
  have htried : (Int32.ofInt m.nTried).toInt = m.nTried := by
    have hle := length_triedIds_le hm
    have hcount := hm.nTried
    rw [length_triedIds] at hle
    exact Int32.toInt_ofInt_of_le (by omega) (by omega)
  have hone : ∀ rest : Bytes, readLE endOfData 1 ([1] ++ rest) = .ok (1, rest) :=
    fun rest => (canonical_readLE endOfData 1).read_write rest (by decide)
  have hsize : ∀ rest : Bytes, readLE endOfData 1 ([32] ++ rest) = .ok (32, rest) :=
    fun rest => (canonical_readLE endOfData 1).read_write rest (by decide)
  rw [writeHeader]
  simp only [bytes_append, append_assoc, bytes_flatMap]
  rw [show bytes [[1], [32]] = [1] ++ [32] from rfl, append_assoc, unserialize,
    bind_of_ok (hone _), bind_of_ok (hsize _), if_neg (by decide),
    canonical_readUint256.bind_eq trivial, canonical_readInt32.bind_eq trivial,
    canonical_readInt32.bind_eq trivial, canonical_readInt32.bind_eq trivial, hnew, htried]
  exact hread

/-! ## The same state under other ids -/

/-- The two states have the same entries in the same slots. `newId` says which id of the second
is which of the first; what is only in memory about the last try is gone. -/
structure Renumbered (m m' : CAddrMan) (newId : Nat → Nat) : Prop where
  nKey : m'.nKey = m.nKey
  nNew : m'.nNew = m.nNew
  nTried : m'.nTried = m.nTried
  injective : ∀ n n' info info', m.mapInfo n = some info → m.mapInfo n' = some info' →
    newId n = newId n' → n = n'
  entry : ∀ n info, m.mapInfo n = some info → ∃ nRandomPos,
    m'.mapInfo (newId n) = some { info with nLastTry := 0, nRandomPos }
  onto : ∀ i info', m'.mapInfo i = some info' → ∃ n info, m.mapInfo n = some info ∧ newId n = i
  vvTried : ∀ k, m'.vvTried k = (m.vvTried k).map newId
  vvNew : ∀ s, m'.vvNew s = (m.vvNew s).map newId

theorem Loaded.renumbered (h : Loaded env m m.order newSlots m') : Renumbered m m' m.newId where
  __ := h
  injective := fun n n' info info' hinfo _ heq =>
    newId_inj hm.toTables (entry_of_mapInfo hinfo) heq
  entry := by
    intro i info hinfo
    obtain ⟨info', hinfo', hbody⟩ := exists_mapInfo (h.entry_full hm (entry_of_mapInfo hinfo))
    refine ⟨info'.nRandomPos, ?_⟩
    have hfull : info' = info'.body.setRandomPos info'.nRandomPos := rfl
    rw [hinfo', hfull, hbody]
    rfl
  onto := by
    intro i info' hinfo'
    obtain ⟨j, x, hid, hx, -⟩ := h.entry_from hm (entry_of_mapInfo hinfo')
    obtain ⟨info, hinfo, -⟩ := exists_mapInfo hx
    exact ⟨j, info, hinfo, hid⟩
  vvTried := by
    intro k
    rcases hk : m.vvTried k with _ | j
    · rw [Option.map_none, Option.eq_none_iff_forall_ne_some]
      intro i hi
      obtain ⟨e', he', htried, hslot⟩ := h.indexed.tried.mp hi
      obtain ⟨j, x, -, hx, rfl⟩ := h.entry_from hm he'
      rw [h.nKey] at hslot
      rw [hm.tried.mpr ⟨x, hx, htried, hslot⟩] at hk
      cases hk
    · obtain ⟨x, hx, htried, hslot⟩ := hm.tried.mp hk
      rw [← h.nKey] at hslot
      exact h.indexed.tried.mpr ⟨_, h.entry_full hm hx, htried, hslot⟩
  vvNew := h.vvNew_all

end

end CAddrMan

open CAddrMan in
/-- **`addrMan_survives_disk`** — a state that `Check_` does not object to is written without a
failed assertion, and read into a fresh object, whatever follows in the stream, gives a state
that `Check_` does not object to, with the same entries in the same slots under other ids. -/
theorem addrMan_survives_disk (env : AddrEnv) (m : CAddrMan) (nVersion : Int32)
    (hids : ∀ n info, m.mapInfo n = some info → n < m.nIdCount) (hcheck : m.check_ env = 0) :
    ∃ w, m.serialize nVersion = some w ∧ ∀ key rest, ∃ m',
      unserialize env (CAddrMan.empty key) (w.bytes ++ rest) = .ok (some m', rest) ∧
        m'.check_ env = 0 ∧ ∃ newId, Renumbered m m' newId := by
  have hm := consistent_of_check hids hcheck
  obtain ⟨w, hwrite, hread⟩ := hm.unserialize_serialize nVersion
  -- the address index is not written
  refine ⟨w, hwrite, ?_⟩
  intro key rest
  obtain ⟨m', hok, hlinked⟩ := hread key rest
  have hsame := hlinked.renumbered hm
  refine ⟨m', hok, (hlinked.consistent hm).check_eq_zero, m.reindexed.newId, ?_⟩
  exact { hsame with }

theorem evictingCalls_counts :
    ((empty 1).run oneSlotEnv evictingCalls).map (fun m => (m.nNew, m.nTried)) = some (1, 1) := by
  decide +kernel

open CAddrMan in
/-- With one new and one tried entry. -/
theorem addrMan_survives_disk_evicted :
    ∃ m, (CAddrMan.empty 1).run oneSlotEnv evictingCalls = some m ∧ m.nNew = 1 ∧ m.nTried = 1 ∧
      ∃ w, m.serialize 100000 = some w ∧ ∀ key rest, ∃ m',
        unserialize oneSlotEnv (CAddrMan.empty key) (w.bytes ++ rest) = .ok (some m', rest) ∧
          m'.check_ oneSlotEnv = 0 ∧ ∃ newId, Renumbered m m' newId := by
  have hempty : Consistent oneSlotEnv True (empty 1) := consistent_empty fun _ => by decide
  obtain ⟨m, hrun, h⟩ := hempty.run_spec evictingCalls evictingCalls_admissible (by decide)
  have hcounts := evictingCalls_counts
  rw [hrun, Option.map_some, Option.some.injEq, Prod.mk.injEq] at hcounts
  refine ⟨m, hrun, hcounts.1, hcounts.2, ?_⟩
  exact addrMan_survives_disk oneSlotEnv m 100000
    (fun n info hinfo => h.ids (entry_of_mapInfo hinfo)) h.check_eq_zero

end MonetaryUnit
