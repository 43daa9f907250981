/-
# MonetaryUnit.Net.AddrManInvariant — the indexes of the address manager agree

Six indexes describe one set of entries. The place of an entry in `vRandom` changes on its own,
so an entry is looked at without it (`entry`), and its place apart (`pos`). `Tables` says how the
address index and the two slot tables describe the entries, `Shuffled` that `vRandom` lists each
id once at the place its entry names, and `Sound` adds the counters.

The counters are moved at other moments than the entries: `MakeTried` counts a new entry out
before it is tried, and an evicted one in after it left. `Sound` therefore carries the distance of
each counter from what it counts, and every primitive step says how it moves that distance. A call
starts and ends at distance zero.
-/

import MonetaryUnit.Lib.SlotTable
import MonetaryUnit.Net.AddrMan

namespace MonetaryUnit

open Lib Function List CAddrInfo Option Places Nat

/-! ## Entries without their place -/

def CAddrInfo.body (info : CAddrInfo) : CAddrInfo := info.setRandomPos (-1)

/-- An assignment to other fields than the place in `vRandom`. -/
structure CAddrInfo.KeepsPos (f : CAddrInfo → CAddrInfo) : Prop where
  body : ∀ info, (f info).body = f info.body
  pos : ∀ info, (f info).nRandomPos = info.nRandomPos

variable {info : CAddrInfo}

namespace CAddrMan

def entry (m : CAddrMan) (n : Nat) : Option CAddrInfo := (m.mapInfo n).map CAddrInfo.body

def pos (m : CAddrMan) (n : Nat) : Option Int := (m.mapInfo n).map CAddrInfo.nRandomPos

section Views

variable {m : CAddrMan} {n : Nat} {f : CAddrInfo → CAddrInfo}

theorem entry_of_mapInfo (h : m.mapInfo n = some info) : m.entry n = some info.body := by
  rw [entry, h]
  rfl

theorem exists_mapInfo {e : CAddrInfo} (h : m.entry n = some e) :
    ∃ info, m.mapInfo n = some info ∧ info.body = e := map_eq_some_iff.mp h

theorem entry_eq_none : m.entry n = none ↔ m.mapInfo n = none := map_eq_none_iff

theorem pos_eq_none : m.pos n = none ↔ m.entry n = none := by
  rw [entry_eq_none, pos, map_eq_none_iff]

/-- What is read off the entries follows an assignment to one of them. -/
theorem map_update {β : Type} (g : CAddrInfo → β) (t : Nat → Option CAddrInfo) (n : Nat)
    (x : Option CAddrInfo) : (fun i => (update t n x i).map g) =
      update (fun i => (t i).map g) n (x.map g) :=
  comp_update (Option.map g) t n x

theorem entry_modifyInfo (hf : CAddrInfo.KeepsPos f) :
    (m.modifyInfo n f).entry = update m.entry n ((m.entry n).map f) := by
  refine (map_update _ _ _ _).trans ?_
  rw [entry, Option.map_map, Option.map_map, show body ∘ f = f ∘ body from
    funext hf.body]
  rfl

theorem pos_modifyInfo (hf : CAddrInfo.KeepsPos f) : (m.modifyInfo n f).pos = m.pos := by
  refine (map_update _ _ _ _).trans ?_
  rw [Option.map_map, show nRandomPos ∘ f = nRandomPos from funext hf.pos]
  exact update_eq_self n m.pos

theorem entry_setRandomPos (p : Int) : (m.modifyInfo n (setRandomPos p)).entry = m.entry := by
  refine (map_update _ _ _ _).trans ?_
  rw [Option.map_map]
  exact update_eq_self n m.entry

theorem pos_setRandomPos (p : Int) : (m.modifyInfo n (setRandomPos p)).pos =
      update m.pos n ((m.pos n).map fun _ => p) := by
  refine (map_update _ _ _ _).trans ?_
  rw [pos, Option.map_map, Option.map_map]
  rfl

end Views

end CAddrMan

namespace CAddrInfo

theorem keepsPos_addRef (n : Int) : KeepsPos (addRef n) := ⟨fun _ => rfl, fun _ => rfl⟩

theorem keepsPos_setTried (b : Bool) : KeepsPos (setTried b) := ⟨fun _ => rfl, fun _ => rfl⟩

end CAddrInfo

/-! ## The invariant -/

namespace CAddrMan

/-- What `Check_` asks of the times of an entry. The last try is whatever `Attempt_` was told, so
it is only promised where the caller promises it (`timely`). -/
structure StatsOk (timely : Prop) (e : CAddrInfo) : Prop where
  success : e.fInTried = true → e.nLastSuccess ≠ 0
  successSign : 0 ≤ e.nLastSuccess
  trySign : timely → 0 ≤ e.nLastTry

structure Tables (env : AddrEnv) (timely : Prop) (m : CAddrMan) : Prop where
  ids : ∀ {n e}, m.entry n = some e → n < m.nIdCount
  addr : ∀ {a n}, m.mapAddr a = some n ↔ ∃ e, m.entry n = some e ∧ e.toCNetAddr = a
  tried : ∀ {k n}, m.vvTried k = some n ↔
    ∃ e, m.entry n = some e ∧ e.fInTried = true ∧ env.triedSlot m.nKey e.toCService = k
  fresh : ∀ {s n}, m.vvNew s = some n →
    ∃ e, m.entry n = some e ∧ e.fInTried = false ∧ env.newSlot m.nKey e.toCService s.1 = s
  refs : ∀ {n e}, m.entry n = some e → e.nRefCount = holders newSlots m.vvNew n
  stats : ∀ {n e}, m.entry n = some e → StatsOk timely e
  key : timely → m.nKey ≠ 0

/-- Each id is in `vRandom` once, at the place its entry names. -/
def Shuffled (m : CAddrMan) : Prop := Places m.vRandom m.pos

/-- The number of new, and of tried, entries. -/
def newCount (m : CAddrMan) : Nat := tally m.nIdCount m.entry fun e => !e.fInTried

def triedCount (m : CAddrMan) : Nat := tally m.nIdCount m.entry CAddrInfo.fInTried

structure Sound (env : AddrEnv) (timely : Prop) (ahead : Int) (m : CAddrMan) : Prop
    extends Tables env timely m where
  shuffled : m.Shuffled
  nNew : m.nNew = m.newCount + ahead
  nTried : m.nTried = m.triedCount

/-- Every new entry outside `skip` is in a slot, and none is in more than eight. -/
def Referenced (skip : Set Nat) (m : CAddrMan) : Prop :=
  ∀ n e, m.entry n = some e → e.fInTried = false → e.nRefCount ≤ 8 ∧ (n ∉ skip → 1 ≤ e.nRefCount)

theorem newSlots_nodup : newSlots.Nodup := (nodup_finRange _).product (nodup_finRange _)

theorem mem_newSlots (s : NewSlot) : s ∈ newSlots :=
  mem_product.mpr ⟨mem_finRange _, mem_finRange _⟩

variable {env : AddrEnv} {timely : Prop} {m m' : CAddrMan} {n : Nat} {e e' : CAddrInfo}
  {ahead ahead' : Int} {f : CAddrInfo → CAddrInfo}

/-- The tried slots of an entry that is there. -/
theorem Tables.tried_self (h : Tables env timely m) (he : m.entry n = some e) {k : TriedSlot} :
    m.vvTried k = some n ↔ e.fInTried = true ∧ env.triedSlot m.nKey e.toCService = k := by
  simp only [h.tried, he, some.injEq, exists_eq_left']

theorem Tables.fresh_self (h : Tables env timely m) (he : m.entry n = some e) {s : NewSlot}
    (hs : m.vvNew s = some n) : e.fInTried = false ∧ env.newSlot m.nKey e.toCService s.1 = s := by
  obtain ⟨x, hx, hown⟩ := h.fresh hs
  cases he.symm.trans hx
  exact hown

/-! ## Steps on one entry -/

/-- One id changes its entry; what the address index and the slots say of others stays. -/
structure Changes (m m' : CAddrMan) (n : Nat) (e e' : Option CAddrInfo) : Prop where
  before : m.entry n = e
  after : m'.entry = Function.update m.entry n e'
  nKey : m'.nKey = m.nKey
  addrOthers : ∀ a i, i ≠ n → (m'.mapAddr a = some i ↔ m.mapAddr a = some i)
  newOthers : ∀ s i, i ≠ n → (m'.vvNew s = some i ↔ m.vvNew s = some i)
  triedOthers : ∀ k i, i ≠ n → (m'.vvTried k = some i ↔ m.vvTried k = some i)

section Change

variable {e e' : Option CAddrInfo}

theorem Changes.entry_self (h : Changes m m' n e e') : m'.entry n = e' := by
  rw [h.after, update_self]

theorem Changes.entry_other (h : Changes m m' n e e') {i : Nat} (hi : i ≠ n) :
    m'.entry i = m.entry i := by
  rw [h.after, update_of_ne hi]

theorem Changes.tally (hc : Changes m m' n e e') (h : Sound env timely ahead m)
    (hle : m.nIdCount ≤ m'.nIdCount) (hn : n < m'.nIdCount) (kind : CAddrInfo → Bool) :
    Lib.tally m'.nIdCount m'.entry kind + (e.any kind).toNat =
      Lib.tally m.nIdCount m.entry kind + (e'.any kind).toNat := by
  have hbeyond : ∀ i, m.nIdCount ≤ i → m.entry i = none := by
    intro i hi
    rw [eq_none_iff_forall_ne_some]
    exact fun x hx => absurd (h.ids hx) (not_lt.mpr hi)
  rw [← @tally_mono _ _ m.entry kind _ hle hbeyond, hc.after, ← hc.before]
  exact tally_update hn e'

/-- **The rule of one id.** What its own entry, address, slots and the counters must be after the
step. -/
theorem Sound.change (h : Sound env timely ahead m) (hc : Changes m m' n e e')
    (hle : m.nIdCount ≤ m'.nIdCount) (hn : n < m'.nIdCount) (hshuffled : m'.Shuffled)
    (haddr : ∀ a, m'.mapAddr a = some n ↔ ∃ x, e' = some x ∧ x.toCNetAddr = a)
    (htried : ∀ k, m'.vvTried k = some n ↔
      ∃ x, e' = some x ∧ x.fInTried = true ∧ env.triedSlot m.nKey x.toCService = k)
    (hfresh : ∀ s, m'.vvNew s = some n →
      ∃ x, e' = some x ∧ x.fInTried = false ∧ env.newSlot m.nKey x.toCService s.1 = s)
    (hown : ∀ x, e' = some x → x.nRefCount = holders newSlots m'.vvNew n ∧ StatsOk timely x)
    (hnew : m'.nNew + (e.any fun x => !x.fInTried).toNat + ahead =
      m.nNew + (e'.any fun x => !x.fInTried).toNat + ahead')
    (hcount : m'.nTried + (e.any fInTried).toNat = m.nTried + (e'.any fInTried).toNat) :
    Sound env timely ahead' m' := by
  refine ⟨⟨?_, ?_, ?_, ?_, ?_, ?_, hc.nKey ▸ h.key⟩, hshuffled, ?_, ?_⟩
  · intro i x hx
    rcases eq_or_ne i n with rfl | hi
    · exact hn
    · exact (h.ids (hc.entry_other hi ▸ hx)).trans_le hle
  · intro a i
    rcases eq_or_ne i n with rfl | hi
    · rw [haddr, hc.entry_self]
    · rw [hc.addrOthers a i hi, h.addr, hc.entry_other hi]
  · intro k i
    rcases eq_or_ne i n with rfl | hi
    · rw [htried, hc.entry_self, hc.nKey]
    · rw [hc.triedOthers k i hi, h.tried, hc.entry_other hi, hc.nKey]
  · intro s i hs
    rw [hc.nKey]
    rcases eq_or_ne i n with rfl | hi
    · exact hc.entry_self.symm ▸ hfresh s hs
    · exact hc.entry_other hi ▸ h.fresh ((hc.newOthers s i hi).mp hs)
  · intro i x hx
    rcases eq_or_ne i n with rfl | hi
    · exact (hown x (hc.entry_self ▸ hx)).1
    · rw [h.refs (hc.entry_other hi ▸ hx), holders]
      congr 2
      funext s
      exact decide_eq_decide.mpr (hc.newOthers s i hi).symm
  · intro i x hx
    rcases eq_or_ne i n with rfl | hi
    · exact (hown x (hc.entry_self ▸ hx)).2
    · exact h.stats (hc.entry_other hi ▸ hx)
  · have htally := hc.tally h hle hn fun x => !x.fInTried
    have hbefore := h.nNew
    simp only [newCount] at hbefore ⊢
    omega
  · have htally := hc.tally h hle hn fInTried
    have hbefore := h.nTried
    simp only [triedCount] at hbefore ⊢
    omega

end Change

/-- An entry stays under its id and keeps its service and its place. -/
structure Touches (m m' : CAddrMan) (n : Nat) (e e' : CAddrInfo) : Prop
    extends Changes m m' n (some e) (some e') where
  service : e'.toCService = e.toCService
  nIdCount : m'.nIdCount = m.nIdCount
  mapAddr : m'.mapAddr = m.mapAddr
  pos : m'.pos = m.pos
  vRandom : m'.vRandom = m.vRandom

/-- The rule of one entry. -/
theorem Sound.touch (h : Sound env timely ahead m) (ht : Touches m m' n e e')
    (hstats : StatsOk timely e')
    (htried : ∀ k, m'.vvTried k = some n ↔
      e'.fInTried = true ∧ env.triedSlot m.nKey e.toCService = k)
    (hfresh : ∀ s, m'.vvNew s = some n →
      e'.fInTried = false ∧ env.newSlot m.nKey e.toCService s.1 = s)
    (hrefs : e'.nRefCount = holders newSlots m'.vvNew n) {ahead' : Int}
    (hnew : m'.nNew + (!e.fInTried).toNat + ahead = m.nNew + (!e'.fInTried).toNat + ahead')
    (hcount : m'.nTried + e.fInTried.toNat = m.nTried + e'.fInTried.toNat) :
    Sound env timely ahead' m' := by
  rw [← ht.service] at htried hfresh
  apply h.change ht.toChanges ht.nIdCount.ge (ht.nIdCount ▸ h.ids ht.before)
  · rw [Shuffled, ht.pos, ht.vRandom]
    exact h.shuffled
  · intro a
    rw [ht.mapAddr, h.addr, ht.before]
    simp only [some.injEq, exists_eq_left', ht.service]
  · simpa only [some.injEq, exists_eq_left'] using htried
  · simpa only [some.injEq, exists_eq_left'] using hfresh
  · rintro x ⟨⟩
    exact ⟨hrefs, hstats⟩
  · exact hnew
  · exact hcount

/-- An assignment to an entry touches no slot. -/
theorem touches_modifyInfo (hf : CAddrInfo.KeepsPos f) (he : m.entry n = some e)
    (hservice : (f e).toCService = e.toCService) : Touches m (m.modifyInfo n f) n e (f e) where
  before := he
  after := by rw [entry_modifyInfo hf, he]; rfl
  nKey := rfl
  addrOthers := fun _ _ _ => .rfl
  newOthers := fun _ _ _ => .rfl
  triedOthers := fun _ _ _ => .rfl
  service := hservice
  nIdCount := rfl
  mapAddr := rfl
  pos := pos_modifyInfo hf
  vRandom := rfl

variable {x : Option Nat} {s : NewSlot} {k : TriedSlot}

theorem update_others {σ : Type} [DecidableEq σ] {t : σ → Option Nat} {s : σ}
    (hold : t s = some n ∨ t s = none) (hnew : x = some n ∨ x = none) (s' : σ) (i : Nat)
    (hi : i ≠ n) : update t s x s' = some i ↔ t s' = some i := by
  have hother : ∀ {y : Option Nat}, y = some n ∨ y = none → y ≠ some i := by
    rintro y (rfl | rfl) <;> simp [hi.symm]
  rcases eq_or_ne s' s with rfl | hne
  · rw [update_self]
    exact iff_of_false (hother hnew) (hother hold)
  · rw [update_of_ne hne]

/-- A slot of the new table that held at most this entry now holds at most this entry. -/
theorem Touches.setNewSlot (h : Touches m m' n e e') (hold : m.vvNew s = some n ∨ m.vvNew s = none)
    (hnew : x = some n ∨ x = none) (hsame : m'.vvNew = m.vvNew) :
    Touches m (m'.setNewSlot s x) n e e' :=
  { h with
    newOthers := by
      show ∀ s' i, i ≠ n → (update m'.vvNew s x s' = some i ↔ _)
      rw [hsame]
      exact update_others hold hnew }

theorem Touches.setTriedSlot (h : Touches m m' n e e')
    (hold : m.vvTried k = some n ∨ m.vvTried k = none) (hnew : x = some n ∨ x = none)
    (hsame : m'.vvTried = m.vvTried) : Touches m (m'.setTriedSlot k x) n e e' :=
  { h with
    triedOthers := by
      show ∀ k' i, i ≠ n → (update m'.vvTried k x k' = some i ↔ _)
      rw [hsame]
      exact update_others hold hnew }

theorem Touches.addTried (h : Touches m m' n e e') (x : Int) : Touches m (m'.addTried x) n e e' :=
  { h with }

theorem Sound.addNew (h : Sound env timely ahead m) (x : Int) :
    Sound env timely (ahead + x) (m.addNew x) :=
  { h with
    nNew := by
      have hbefore := h.nNew
      show m.nNew + x = (m.newCount : Int) + (ahead + x)
      omega }

/-! ## The primitive steps -/

/-- Notes about an entry that is where it was. -/
theorem Sound.modify (h : Sound env timely ahead m) (hf : CAddrInfo.KeepsPos f)
    (he : m.entry n = some e) (hservice : (f e).toCService = e.toCService)
    (hrefs : (f e).nRefCount = e.nRefCount) (htried : (f e).fInTried = e.fInTried)
    (hstats : StatsOk timely (f e)) : Sound env timely ahead (m.modifyInfo n f) := by
  apply h.touch (touches_modifyInfo hf he hservice) hstats
  · intro k
    rw [htried]
    exact h.tried_self he
  · intro s hs
    obtain ⟨hnot, hslot⟩ := h.fresh_self he hs
    exact ⟨htried.trans hnot, hslot⟩
  · exact hrefs.trans (h.refs he)
  · rw [htried]
    rfl
  · rw [htried]
    rfl

section Entry

variable (he : m.entry n = some e)
include he

theorem touches_unlink (hs : m.vvNew s = some n) : Touches m (m.unlink s n) n e (e.addRef (-1)) :=
  (touches_modifyInfo (keepsPos_addRef (-1)) he rfl).setNewSlot (.inl hs) (.inr rfl) rfl

theorem Sound.unlink (h : Sound env timely ahead m) (hs : m.vvNew s = some n) :
    Sound env timely ahead (m.unlink s n) := by
  apply h.touch (touches_unlink he hs) { h.stats he with }
  · intro k
    exact h.tried_self he
  · intro s' hs'
    -- what is left of the table was there before
    have hbefore : m.vvNew s' = some n := by
      rcases eq_or_ne s' s with rfl | hne
      · exact hs
      · exact (update_of_ne hne _ _).symm.trans hs'
    exact h.fresh_self he hbefore
  · have hcount := holders_update (t := m.vvNew) newSlots_nodup mem_newSlots s none n
    rw [if_pos hs, if_neg (by simp)] at hcount
    have href := h.refs he
    show e.nRefCount + -1 = (holders newSlots (update m.vvNew s none) n : Int)
    omega
  · rfl
  · rfl

theorem touches_link (hs : m.vvNew s = none) : Touches m (m.link s n) n e (e.addRef 1) :=
  (touches_modifyInfo (keepsPos_addRef 1) he rfl).setNewSlot (.inr hs) (.inl rfl) rfl

theorem Sound.link (h : Sound env timely ahead m) (hnot : e.fInTried = false)
    (hs : m.vvNew s = none) (hslot : env.newSlot m.nKey e.toCService s.1 = s) :
    Sound env timely ahead (m.link s n) := by
  apply h.touch (touches_link he hs) { h.stats he with }
  · intro k
    exact h.tried_self he
  · intro s' hs'
    rcases eq_or_ne s' s with rfl | hne
    · exact ⟨hnot, hslot⟩
    · exact h.fresh_self he ((update_of_ne hne _ _).symm.trans hs')
  · have hcount := holders_update (t := m.vvNew) newSlots_nodup mem_newSlots s (some n) n
    rw [if_neg (by simp [hs]), if_pos rfl] at hcount
    have href := h.refs he
    show e.nRefCount + 1 = (holders newSlots (update m.vvNew s (some n)) n : Int)
    omega
  · rfl
  · rfl

/-- An entry that is not in the new table has no reference. -/
theorem Tables.not_held (h : Tables env timely m) (hzero : e.nRefCount = 0) (s : NewSlot) :
    m.vvNew s ≠ some n := by
  have href := h.refs he
  exact (holders_eq_zero mem_newSlots).mp (by omega) s

theorem Tables.refs_tried (h : Tables env timely m) (htried : e.fInTried = true) :
    e.nRefCount = 0 := by
  rw [h.refs he, Int.natCast_eq_zero, holders_eq_zero mem_newSlots]
  intro s hs
  exact absurd (htried.symm.trans (h.fresh_self he hs).1) (by decide)

theorem touches_leaveTried (hk : m.vvTried k = some n) :
    Touches m (m.leaveTried k n) n e (e.setTried false) := by
  apply Touches.addTried
  exact (touches_modifyInfo (keepsPos_setTried false) he rfl).setTriedSlot (.inl hk) (.inr rfl) rfl

/-- The entry is new and in no slot; it is not counted as new yet. -/
theorem Sound.leaveTried (h : Sound env timely ahead m) (hk : m.vvTried k = some n) :
    Sound env timely (ahead - 1) (m.leaveTried k n) := by
  obtain ⟨htried, hslot⟩ := (h.tried_self he).mp hk
  have hzero := h.refs_tried he htried
  apply h.touch (touches_leaveTried he hk)
    { h.stats he with success := fun htrue => absurd htrue Bool.false_ne_true }
  · intro k'
    show update m.vvTried k none k' = some n ↔ false = true ∧ _
    rcases eq_or_ne k' k with rfl | hne
    · simp
    · rw [update_of_ne hne, h.tried_self he]
      refine iff_of_false (fun hk' => hne (hk'.2.symm.trans hslot)) (by simp)
  · intro s hs
    exact absurd hs (h.not_held he hzero s)
  · show e.nRefCount = _
    exact h.refs he
  · show m.nNew + (!e.fInTried).toNat + ahead = m.nNew + (!false).toNat + (ahead - 1)
    rw [htried]
    simp
  · show m.nTried + -1 + e.fInTried.toNat = m.nTried + false.toNat
    rw [htried]
    simp

theorem touches_enterTried (hk : m.vvTried k = none) :
    Touches m (m.enterTried k n) n e (e.setTried true) := by
  have hset := (touches_modifyInfo (keepsPos_setTried true) he rfl).setTriedSlot
    (.inr hk) (.inl rfl) rfl
  exact hset.addTried 1

/-- An entry out of every slot of the new table, and counted out, becomes tried. -/
theorem Sound.enterTried (h : Sound env timely ahead m) (hnot : e.fInTried = false)
    (hzero : e.nRefCount = 0) (hsuccess : e.nLastSuccess ≠ 0) (hk : m.vvTried k = none)
    (hslot : env.triedSlot m.nKey e.toCService = k) :
    Sound env timely (ahead + 1) (m.enterTried k n) := by
  apply h.touch (touches_enterTried he hk) { h.stats he with success := fun _ => hsuccess }
  · intro k'
    show update m.vvTried k (some n) k' = some n ↔ true = true ∧ _
    rcases eq_or_ne k' k with rfl | hne
    · simp [hslot]
    · rw [update_of_ne hne, h.tried_self he, hnot]
      exact iff_of_false (by simp) fun hk' => hne (hk'.2.symm.trans hslot)
  · intro s hs
    exact absurd hs (h.not_held he hzero s)
  · show e.nRefCount = _
    exact h.refs he
  · show m.nNew + (!e.fInTried).toNat + ahead = m.nNew + (!true).toNat + (ahead + 1)
    rw [hnot]
    simp only [Bool.not_false, Bool.not_true, Bool.toNat_true, Bool.toNat_false]
    omega
  · show m.nTried + 1 + e.fInTried.toNat = m.nTried + true.toNat
    rw [hnot]
    simp

end Entry

/-! ## Making and deleting entries -/

/-- Only places in `vRandom` change. -/
structure Reorders (m m' : CAddrMan) : Prop where
  entry : m'.entry = m.entry
  nKey : m'.nKey = m.nKey
  nIdCount : m'.nIdCount = m.nIdCount
  mapAddr : m'.mapAddr = m.mapAddr
  nTried : m'.nTried = m.nTried
  vvTried : m'.vvTried = m.vvTried
  nNew : m'.nNew = m.nNew
  vvNew : m'.vvNew = m.vvNew
  length : m'.vRandom.length = m.vRandom.length

theorem Reorders.refl (m : CAddrMan) : Reorders m m := ⟨rfl, rfl, rfl, rfl, rfl, rfl, rfl, rfl, rfl⟩

theorem Sound.reorder (h : Sound env timely ahead m) (hr : Reorders m m') (hs : m'.Shuffled) :
    Sound env timely ahead m' where
  ids := by rw [hr.entry, hr.nIdCount]; exact h.ids
  addr := by rw [hr.entry, hr.mapAddr]; exact h.addr
  tried := by rw [hr.entry, hr.vvTried, hr.nKey]; exact h.tried
  fresh := by rw [hr.entry, hr.vvNew, hr.nKey]; exact h.fresh
  refs := by rw [hr.entry, hr.vvNew]; exact h.refs
  stats := by rw [hr.entry]; exact h.stats
  key := by rw [hr.nKey]; exact h.key
  shuffled := hs
  nNew := by rw [newCount, hr.entry, hr.nIdCount, hr.nNew]; exact h.nNew
  nTried := by rw [triedCount, hr.entry, hr.nIdCount, hr.nTried]; exact h.nTried

/-- The member at a place has an entry. -/
theorem Shuffled.entry (h : m.Shuffled) {i : Nat} (hi : m.vRandom[i]? = some n) :
    ∃ info, m.mapInfo n = some info ∧ info.nRandomPos = i :=
  map_eq_some_iff.mp (h.at_iff.mpr hi)

/-- Between places that exist, no assertion fails; the two places have
changed members. -/
theorem swapRandom_spec (h : m.Shuffled) {p1 p2 n1 n2 : Nat} (h1 : m.vRandom[p1]? = some n1)
    (h2 : m.vRandom[p2]? = some n2) :
    ∃ m', m.swapRandom p1 p2 = some m' ∧ Reorders m m' ∧ m'.Shuffled ∧
      m'.vRandom[p2]? = some n1 ∧ m'.vRandom[p1]? = some n2 := by
  rcases eq_or_ne p1 p2 with rfl | hne
  · exact ⟨m, if_pos rfl, Reorders.refl m, h, h1, h2⟩
  obtain ⟨info1, hinfo1, -⟩ := h.entry h1
  obtain ⟨info2, hinfo2, -⟩ := h.entry h2
  have hn : n1 ≠ n2 := by
    rintro rfl
    exact hne (unique h h1 h2)
  refine ⟨m.exchange p1 p2 n1 n2, by simp [swapRandom, hne, h1, h2, hinfo1, hinfo2], ?_, ?_, ?_, ?_⟩
  · refine ⟨?_, rfl, rfl, rfl, rfl, rfl, rfl, rfl, ?_⟩
    · show ((m.modifyInfo n1 _).modifyInfo n2 _).entry = _
      rw [entry_setRandomPos, entry_setRandomPos]
    · show ((m.vRandom.set p1 n2).set p2 n1).length = _
      rw [length_set, length_set]
  · have hplaces := swap h h1 h2
    show Places _ ((m.modifyInfo n1 _).modifyInfo n2 _).pos
    rw [pos_setRandomPos, pos_setRandomPos, update_of_ne hn.symm,
      (at_iff h).mpr h1, (at_iff h).mpr h2]
    exact hplaces
  · have hlt := (List.getElem?_eq_some_iff.mp h2).1
    show ((m.vRandom.set p1 n2).set p2 n1)[p2]? = _
    rw [getElem?_set_self (by rwa [length_set])]
  · have hlt := (List.getElem?_eq_some_iff.mp h1).1
    show ((m.vRandom.set p1 n2).set p2 n1)[p1]? = _
    rw [getElem?_set_ne hne.symm, getElem?_set_self hlt]

theorem asUnsigned_natCast (i : Nat) : asUnsigned i = i := by
  rw [asUnsigned, if_neg (by omega), Int.toNat_natCast]

/-- An entry is gone and nothing else changed but places. -/
structure Drops (m m' : CAddrMan) (n : Nat) : Prop where
  entry : m'.entry = Function.update m.entry n none
  nKey : m'.nKey = m.nKey
  nIdCount : m'.nIdCount = m.nIdCount
  vvTried : m'.vvTried = m.vvTried
  vvNew : m'.vvNew = m.vvNew

theorem entry_dropLastEntry (addr : CNetAddr) :
    (m.dropLastEntry n addr).entry = update m.entry n none :=
  map_update _ _ _ _

theorem pos_dropLastEntry (addr : CNetAddr) : (m.dropLastEntry n addr).pos = update m.pos n none :=
  map_update _ _ _ _

section

variable (h : Sound env timely ahead m) (he : m.entry n = some e) (hnot : e.fInTried = false)
  (hzero : e.nRefCount = 0)
include h he hnot hzero

theorem Sound.dropLastEntry (hend : m.vRandom[m.vRandom.length - 1]? = some n) :
    Sound env timely ahead (m.dropLastEntry n e.toCNetAddr) := by
  have hindexed : m.mapAddr e.toCNetAddr = some n := h.addr.mpr ⟨e, he, rfl⟩
  have hc : Changes m (m.dropLastEntry n e.toCNetAddr) n (some e) none :=
    ⟨he, entry_dropLastEntry _, rfl, update_others (.inl hindexed) (.inr rfl),
      fun _ _ _ => .rfl, fun _ _ _ => .rfl⟩
  apply h.change hc le_rfl (h.ids he)
  · rw [Shuffled, pos_dropLastEntry]
    exact pop h.shuffled hend
  · intro a
    show update m.mapAddr e.toCNetAddr none a = some n ↔ _
    rcases eq_or_ne a e.toCNetAddr with rfl | ha
    · simp
    · rw [update_of_ne ha, h.addr, he]
      simp [ha.symm]
  · intro k
    show m.vvTried k = some n ↔ _
    simp [h.tried_self he, hnot]
  · intro s hs
    exact absurd hs (h.not_held he hzero s)
  · intro x hx
    cases hx
  · show m.nNew - 1 + (!e.fInTried).toNat + ahead = m.nNew + 0 + ahead
    rw [hnot, Bool.not_false, Bool.toNat_true]
    omega
  · show m.nTried + e.fInTried.toNat = m.nTried + 0
    rw [hnot]
    rfl

/-- A new entry in no slot can be deleted: no assertion fails. -/
theorem Sound.delete_spec :
    ∃ m', m.delete n = some m' ∧ Sound env timely ahead m' ∧ Drops m m' n := by
  obtain ⟨info, hinfo, rfl⟩ := exists_mapInfo he
  obtain ⟨i, hpos, hi⟩ := (h.shuffled n info.nRandomPos).mp (by rw [pos, hinfo]; rfl)
  have hlt := (List.getElem?_eq_some_iff.mp hi).1
  have hplace : asUnsigned (m.vRandom.length - 1) = m.vRandom.length - 1 := by
    rw [show (m.vRandom.length : Int) - 1 = ((m.vRandom.length - 1 : Nat) : Int) by omega]
    exact asUnsigned_natCast _
  -- the entry goes to the last place
  obtain ⟨m1, hswap, hr, hs1, hend, -⟩ := swapRandom_spec h.shuffled hi
    (getElem?_eq_getElem (show m.vRandom.length - 1 < m.vRandom.length by omega))
  have he1 : m1.entry n = some info.body := by rw [hr.entry, he]
  refine ⟨m1.dropLastEntry n info.toCNetAddr, ?_, ?_, ?_⟩
  · rw [delete, hinfo, bind_some, if_pos ⟨hnot, hzero⟩, hpos, asUnsigned_natCast, hplace, hswap]
    rfl
  · apply (h.reorder hr hs1).dropLastEntry he1 hnot hzero
    rw [hr.length]
    exact hend
  · exact ⟨by rw [entry_dropLastEntry, hr.entry], hr.nKey, hr.nIdCount, hr.vvTried, hr.vvNew⟩

end

theorem entry_insertInfo (info : CAddrInfo) :
    (m.insertInfo info).entry = update m.entry m.nIdCount (some info.body) :=
  map_update _ _ _ _

theorem pos_insertInfo (info : CAddrInfo) :
    (m.insertInfo info).pos = update m.pos m.nIdCount (some m.vRandom.length) :=
  map_update _ _ _ _

theorem Tables.entry_nIdCount (h : Tables env timely m) : m.entry m.nIdCount = none := by
  rw [eq_none_iff_forall_ne_some]
  intro x hx
  exact absurd (h.ids hx) (lt_irrefl _)

/-- An entry of an address that had none, in no slot. It is not counted yet. -/
theorem Sound.insertInfo (h : Sound env timely ahead m) (haddr : m.mapAddr info.toCNetAddr = none)
    (hrefs : info.nRefCount = 0) (hnot : info.fInTried = false) (hstats : StatsOk timely info) :
    Sound env timely (ahead - 1) (m.insertInfo info) := by
  have hnone := h.entry_nIdCount
  have hfree : ∀ s, m.vvNew s ≠ some m.nIdCount := by
    intro s hs
    obtain ⟨x, hx, -⟩ := h.fresh hs
    cases hnone.symm.trans hx
  have hc : Changes m (m.insertInfo info) m.nIdCount none (some info.body) :=
    ⟨hnone, entry_insertInfo _, rfl, update_others (.inr haddr) (.inl rfl),
      fun _ _ _ => .rfl, fun _ _ _ => .rfl⟩
  apply h.change hc (le_succ _) (lt_succ_self _)
  · rw [Shuffled, pos_insertInfo]
    exact push h.shuffled (pos_eq_none.mpr hnone)
  · intro a
    show update m.mapAddr info.toCNetAddr (some m.nIdCount) a = some m.nIdCount ↔
      ∃ x, some info.body = some x ∧ _
    simp only [some.injEq, exists_eq_left']
    rcases eq_or_ne a info.toCNetAddr with rfl | ha
    · rw [update_self]
      exact iff_of_true rfl rfl
    · rw [update_of_ne ha, h.addr, hnone]
      exact iff_of_false (by simp) ha.symm
  · intro k
    show m.vvTried k = some m.nIdCount ↔ _
    rw [h.tried, hnone]
    simp [show info.body.fInTried = false from hnot]
  · intro s hs
    exact absurd hs (hfree s)
  · rintro x ⟨⟩
    refine ⟨?_, hstats.success, hstats.successSign, hstats.trySign⟩
    show info.nRefCount = (holders newSlots m.vvNew m.nIdCount : Int)
    rw [hrefs, (holders_eq_zero mem_newSlots).mpr hfree]
    rfl
  · show m.nNew + 0 + ahead = m.nNew + (!info.fInTried).toNat + (ahead - 1)
    rw [hnot, Bool.not_false, Bool.toNat_true]
    omega
  · show m.nTried + 0 = m.nTried + info.fInTried.toNat
    rw [hnot]
    rfl

end CAddrMan

end MonetaryUnit
