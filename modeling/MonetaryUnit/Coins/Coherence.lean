/-
# MonetaryUnit.Coins.Coherence — what the flags of a cache stack promise

The two flags of an entry are statements about everything below the cache that holds it:

* `FRESH` promises that the levels below show nothing unspent for this transaction;
* an entry without `DIRTY` promises to be a copy of what the levels below show;
* an entry without `FRESH` was read through the level below, which therefore holds an
  entry of its own.

`Coherent` states these at every level. Each operation of the cache keeps it, no assertion
fails under it, and `seen` says what the operation does to the unspent outputs that show
through the top.
-/

import MonetaryUnit.Coins.Cache

namespace MonetaryUnit

open List CCoins AList CCoinsViewCache Bool

section Seen

variable {σ : Type} (V : CCoinsView σ) (s : σ)

/-- What a read at the top of the stack returns, without the filling of caches. -/
def peek : List CCoinsViewCache → Uint256 → Option CCoins
  | [], t => V.getCoins s t
  | c :: below, t =>
    match c.cacheCoins.lookup t with
    | some e => some e.coins
    | none => peek below t

/-- The unspent outputs seen through the top, absent and pruned entries identified. -/
def seen (caches : List CCoinsViewCache) (t : Uint256) : Option CCoins :=
  (peek V s caches t).bind CCoins.live

/-- The level the stack starts with holds an entry of its own for `t`. -/
def Held : List CCoinsViewCache → Uint256 → Prop
  | [], _ => True
  | c :: _, t => (c.cacheCoins.lookup t).isSome = true

/-- What the flags of an entry for `t` promise about the levels below it. -/
structure EntryOk (below : List CCoinsViewCache) (t : Uint256) (e : CCoinsCacheEntry) :
    Prop where
  clean : e.coins.Clean
  unseen : e.fresh = true → seen V s below t = none
  held : e.fresh = false → Held below t
  copied : e.dirty = false → peek V s below t = some e.coins

/-- Every level keeps its promises and no modifier is alive. -/
def Coherent : List CCoinsViewCache → Prop
  | [] => True
  | c :: below =>
    c.hasModifier = false ∧
      (∀ t e, c.cacheCoins.lookup t = some e → EntryOk V s below t e) ∧ Coherent below

end Seen

section Specs

variable {σ : Type} {V : CCoinsView σ} {s : σ}

/-! ## Basic facts -/

variable {c parent : CCoinsViewCache} {below caches : List CCoinsViewCache} {t : Uint256}
  {e : CCoinsCacheEntry} {us : CCoinsMap}

theorem peek_cons_some (h : c.cacheCoins.lookup t = some e) :
    peek V s (c :: below) t = some e.coins := by
  simp [peek, h]

theorem peek_cons_none (h : c.cacheCoins.lookup t = none) :
    peek V s (c :: below) t = peek V s below t := by
  simp [peek, h]

/-- All coins that show through a coherent stack are trimmed. -/
theorem peek_clean (hc : Coherent V s caches) {x : CCoins} (h : peek V s caches t = some x) :
    x.Clean := by
  induction caches with
  | nil => exact V.getCoins_clean h
  | cons c below ih =>
    obtain ⟨-, hentries, hbelow⟩ := hc
    cases hl : c.cacheCoins.lookup t with
    | none =>
      rw [peek_cons_none hl] at h
      exact ih hbelow h
    | some e =>
      rw [peek_cons_some hl] at h
      cases h
      exact (hentries t e hl).clean

/-- A level below that shows the same coins and holds at least the same entries serves
the entries above it equally well. -/
theorem EntryOk.of_peek_eq {below' : List CCoinsViewCache} (h : EntryOk V s below t e)
    (hpeek : peek V s below' t = peek V s below t) (hheld : Held below t → Held below' t) :
    EntryOk V s below' t e where
  clean := h.clean
  unseen := by
    intro hf
    have := h.unseen hf
    rwa [seen, ← hpeek] at this
  held := fun hf => hheld (h.held hf)
  copied := by
    intro hd
    rw [hpeek]
    exact h.copied hd

/-- The assertion of `BatchWrite`: an entry that the level below lacks is `FRESH`. -/
theorem EntryOk.fresh_of_missing (h : EntryOk V s (parent :: below) t e)
    (hl : parent.cacheCoins.lookup t = none) : e.fresh = true := by
  cases hf : e.fresh with
  | true => rfl
  | false =>
    have hheld := h.held hf
    simp [Held, hl] at hheld

/-! ## Reads -/

/-- A stack that shows the same coins everywhere but may hold more copies. -/
structure Refilled (V : CCoinsView σ) (s : σ) (caches caches' : List CCoinsViewCache) : Prop where
  coherent : Coherent V s caches'
  peek_eq : ∀ t, peek V s caches' t = peek V s caches t
  held_mono : ∀ t, Held caches t → Held caches' t
  hashBlocks : caches'.map CCoinsViewCache.hashBlock = caches.map CCoinsViewCache.hashBlock

theorem Refilled.refl (hc : Coherent V s caches) : Refilled V s caches caches :=
  ⟨hc, fun _ => rfl, fun _ h => h, rfl⟩

/-- The entry for `t` of the top cache changes, over refilled levels. -/
theorem Coherent.replace {below' : List CCoinsViewCache} (hc : Coherent V s (c :: below))
    (hb : Refilled V s below below') (c' : CCoinsViewCache) (hmod : c'.hasModifier = false)
    (t : Uint256) (hne : ∀ t', t' ≠ t → c'.cacheCoins.lookup t' = c.cacheCoins.lookup t')
    (hself : ∀ e, c'.cacheCoins.lookup t = some e → EntryOk V s below' t e) :
    Coherent V s (c' :: below') ∧
      ∀ t', t' ≠ t → peek V s (c' :: below') t' = peek V s (c :: below) t' := by
  refine ⟨⟨hmod, fun t' e he => ?_, hb.coherent⟩, fun t' ht => ?_⟩
  · by_cases ht : t' = t
    · subst ht
      exact hself e he
    · rw [hne t' ht] at he
      exact (hc.2.1 t' e he).of_peek_eq (hb.peek_eq t') (hb.held_mono t')
  · simp only [peek, hne t' ht, hb.peek_eq t']

/-- The outcome of reading `t` through `caches`: the coins that show, and the stack refilled. -/
structure Fetched (V : CCoinsView σ) (s : σ) (t : Uint256) (caches : List CCoinsViewCache)
    (r : Option CCoins × List CCoinsViewCache) : Prop extends Refilled V s caches r.2 where
  result : r.1 = peek V s caches t
  held : r.1.isSome = true → Held r.2 t

theorem fetchCoins_fetched (hc : Coherent V s caches) (t : Uint256) :
    Fetched V s t caches (fetchCoins V s t caches) := by
  induction caches with
  | nil => exact ⟨.refl trivial, rfl, fun _ => trivial⟩
  | cons c below ih =>
    have hb := ih hc.2.2
    cases hl : c.cacheCoins.lookup t with
    | some e =>
      have hf : fetchCoins V s t (c :: below) = (some e.coins, c :: below) := by
        simp [fetchCoins, hl]
      rw [hf]
      refine ⟨.refl hc, (peek_cons_some hl).symm, ?_⟩
      intro _
      simp [Held, hl]
    | none =>
      cases hr : fetchCoins V s t below with
      | mk r below' =>
        rw [hr] at hb
        have hpeek := hb.result
        cases r with
        | none =>
          have hf : fetchCoins V s t (c :: below) = (none, c :: below') := by
            simp [fetchCoins, hl, hr]
          rw [hf]
          obtain ⟨hcoh, -⟩ := hc.replace hb.toRefilled c hc.1 t (fun _ _ => rfl) (by simp [hl])
          refine ⟨⟨hcoh, ?_, fun _ h => h, by simpa using hb.hashBlocks⟩, ?_, nofun⟩
          · intro t'
            simp only [peek, hb.peek_eq t']
          · rw [peek_cons_none hl]
            exact hpeek
        | some tmp =>
          have hf : fetchCoins V s t (c :: below) = (some tmp,
              { c with cacheCoins := c.cacheCoins.insert t { coins := tmp, fresh := tmp.isPruned } }
                :: below') := by
            simp [fetchCoins, hl, hr]
          rw [hf]
          have hpeek' : peek V s below' t = some tmp := by
            rw [hb.peek_eq t]
            exact hpeek.symm
          have hcopy : EntryOk V s below' t { coins := tmp, fresh := tmp.isPruned } := by
            refine ⟨peek_clean hb.coherent hpeek', ?_, fun _ => hb.held rfl, fun _ => hpeek'⟩
            intro hp
            rw [seen, hpeek']
            exact live_of_pruned hp
          obtain ⟨hcoh, hpeek_ne⟩ := hc.replace hb.toRefilled { c with
              cacheCoins := c.cacheCoins.insert t { coins := tmp, fresh := tmp.isPruned } }
            hc.1 t (fun _ ht => lookup_insert_ne ht) (by simpa using hcopy)
          refine ⟨⟨hcoh, ?_, ?_, by simpa using hb.hashBlocks⟩, ?_, ?_⟩
          · intro t'
            by_cases ht : t' = t
            · subst ht
              rw [peek_cons_none hl, peek_cons_some (lookup_insert _)]
              exact hpeek
            · exact hpeek_ne t' ht
          · intro t' h'
            by_cases ht : t' = t
            · subst ht
              simp [Held]
            · simpa [Held, lookup_insert_ne ht] using h'
          · rw [peek_cons_none hl]
            exact hpeek
          · intro _
            simp [Held]

/-! ## Edits -/

/-- The outcome of an edit of `t`: only `t` changes, and it changes as the edit says on the
coins that showed, or on cleared coins when none did. -/
structure Edited {α : Type} (V : CCoinsView σ) (s : σ) (t : Uint256)
    (edit : CCoins → α × CCoins) (c : CCoinsViewCache) (below : List CCoinsViewCache)
    (r : α × CCoinsViewCache × List CCoinsViewCache) : Prop where
  coherent : Coherent V s (r.2.1 :: r.2.2)
  value : r.1 = (edit ((peek V s (c :: below) t).getD CCoins.cleared)).1
  seen_self : seen V s (r.2.1 :: r.2.2) t =
    (edit ((peek V s (c :: below) t).getD CCoins.cleared)).2.cleanup.live
  peek_ne : ∀ t', t' ≠ t → peek V s (r.2.1 :: r.2.2) t' = peek V s (c :: below) t'
  hashBlocks : (r.2.1 :: r.2.2).map CCoinsViewCache.hashBlock =
    (c :: below).map CCoinsViewCache.hashBlock

/-- `ModifyCoins` marks an entry for the coins that show, whose flags are right for whatever the
edit leaves in it. The cache differs from `c` at `t` only. -/
theorem modifyCoins_spec (hc : Coherent V s (c :: below)) (t : Uint256) :
    ∃ e below', modifyCoins V s t c below =
        .ok (e, { c with hasModifier := true, cacheCoins := c.cacheCoins.insert t e }, below') ∧
      e.coins = (peek V s (c :: below) t).getD cleared ∧
      (∀ x : CCoins, x.Clean → EntryOk V s below' t { e with coins := x }) ∧
      Refilled V s below below' := by
  obtain ⟨hmod, hentries, hbelow⟩ := hc
  cases hl : c.cacheCoins.lookup t with
  | some e =>
    have he := hentries t e hl
    refine ⟨{ e with dirty := true }, below, ?_, ?_,
      fun x hx => ⟨hx, he.unseen, he.held, nofun⟩, .refl hbelow⟩
    · simp [modifyCoins, hmod, hl]
    · simp [peek_cons_some hl]
  | none =>
    have hb := fetchCoins_fetched hbelow t
    cases hr : fetchCoins V s t below with
    | mk r below' =>
      rw [hr] at hb
      have hpeek : peek V s below t = r := hb.result.symm
      cases r with
      | none =>
        refine ⟨{ coins := cleared, dirty := true, fresh := true }, below', ?_, ?_,
          fun x hx => ⟨hx, fun _ => ?_, nofun, nofun⟩, hb.toRefilled⟩
        · simp [modifyCoins, hmod, hl, hr]
        · simp [peek_cons_none hl, hpeek]
        · simp [seen, hb.peek_eq t, hpeek]
      | some y =>
        refine ⟨{ coins := y, dirty := true, fresh := y.isPruned }, below', ?_, ?_,
          fun x hx => ⟨hx, fun hp => ?_, fun _ => hb.held rfl, nofun⟩, hb.toRefilled⟩
        · simp [modifyCoins, hmod, hl, hr]
        · simp [peek_cons_none hl, hpeek]
        · rw [seen, hb.peek_eq t, hpeek]
          exact live_of_pruned hp

theorem editCoins_spec {α : Type} (hc : Coherent V s (c :: below)) (t : Uint256)
    (edit : CCoins → α × CCoins) :
    ∃ r, editCoins V s t edit c below = .ok r ∧ Edited V s t edit c below r := by
  obtain ⟨e, below', hm, hcoins, hok, hb⟩ := modifyCoins_spec hc t
  refine ⟨_, by rw [editCoins, hm]; rfl, ?_⟩
  set x := (edit e.coins).2.cleanup with hx
  have hentry : EntryOk V s below' t { e with coins := x } := hok x (cleanup_clean _)
  have hhash : ∀ m : CCoinsMap, ({ c with hasModifier := false, cacheCoins := m } :: below').map
      hashBlock = (c :: below).map hashBlock := fun m => congrArg (c.hashBlock :: ·) hb.hashBlocks
  unfold releaseModifier
  simp only [← hx]
  by_cases hdrop : (e.fresh && x.isPruned) = true
  · -- the entry is dropped, and the levels below show nothing either
    obtain ⟨hfresh, hpruned⟩ := (and_eq_true _ _).mp hdrop
    simp only [hdrop, if_true]
    obtain ⟨hcoh, hpeek_ne⟩ := hc.replace hb { c with
        hasModifier := false, cacheCoins := (c.cacheCoins.insert t e).erase t } rfl t
      (fun t' ht => by rw [lookup_erase_ne ht, lookup_insert_ne ht]) (by simp)
    refine ⟨hcoh, by rw [← hcoins], ?_, hpeek_ne, hhash _⟩
    rw [seen, peek_cons_none (by simp), ← hcoins, live_of_pruned hpruned]
    exact hentry.unseen hfresh
  · simp only [hdrop]
    obtain ⟨hcoh, hpeek_ne⟩ := hc.replace hb { c with
        hasModifier := false
        cacheCoins := (c.cacheCoins.insert t e).insert t { e with coins := x } } rfl t
      (fun t' ht => by rw [lookup_insert_ne ht, lookup_insert_ne ht]) (by simpa using hentry)
    refine ⟨hcoh, by rw [← hcoins], ?_, hpeek_ne, hhash _⟩
    rw [← hcoins, seen, peek_cons_some (e := { e with coins := x }) (by simp)]
    rfl

/-! ## Flush -/

/-- What one dirty entry of the child leaves in the parent. -/
def mergedEntry (us : Option CCoinsCacheEntry) (it : CCoinsCacheEntry) :
    Option CCoinsCacheEntry :=
  if it.dirty then
    match us with
    | none =>
      if it.coins.isPruned then none
      else some { coins := it.coins, dirty := true, fresh := true }
    | some itUs =>
      if itUs.fresh && it.coins.isPruned then none
      else some { itUs with coins := it.coins, dirty := true }
  else us

/-- The side condition of the assertion in `BatchWrite`. -/
def Mergeable (us : Option CCoinsCacheEntry) (it : CCoinsCacheEntry) : Prop :=
  it.dirty = true → us = none → it.coins.isPruned = true ∨ it.fresh = true

theorem batchWriteEntry_ok {it : Sigma fun _ : Uint256 => CCoinsCacheEntry}
    (h : Mergeable (us.lookup it.1) it.2) :
    ∃ us', batchWriteEntry us it = .ok us' ∧ us'.lookup it.1 = mergedEntry (us.lookup it.1) it.2 ∧
      ∀ t, t ≠ it.1 → us'.lookup t = us.lookup t := by
  unfold batchWriteEntry mergedEntry
  cases hd : it.2.dirty with
  | false => exact ⟨us, by simp, by simp, fun _ _ => rfl⟩
  | true =>
    cases hl : us.lookup it.1 with
    | none =>
      cases hp : it.2.coins.isPruned with
      | true => exact ⟨us, by simp, by simp [hl], fun _ _ => rfl⟩
      | false =>
        have hf : it.2.fresh = true := by
          rcases h hd hl with h' | h'
          · rw [hp] at h'
            cases h'
          · exact h'
        refine ⟨us.insert it.1 { coins := it.2.coins, dirty := true, fresh := true },
          by simp [hf], by simp, ?_⟩
        intro t ht
        exact lookup_insert_ne ht
    | some itUs =>
      cases hdrop : itUs.fresh && it.2.coins.isPruned with
      | true =>
        refine ⟨us.erase it.1, by simp only [hdrop, if_true],
          by simp only [hdrop, if_true, lookup_erase], ?_⟩
        intro t ht
        exact lookup_erase_ne ht
      | false =>
        refine ⟨us.insert it.1 { itUs with coins := it.2.coins, dirty := true },
          by simp only [hdrop, if_true, false_eq_true, if_false],
          by simp only [hdrop, if_true, false_eq_true, if_false, lookup_insert], ?_⟩
        intro t ht
        exact lookup_insert_ne ht

/-- The loop of `BatchWrite` treats every key on its own, so the order of the child's
entries does not matter. -/
theorem batchWriteEntries_ok {l : List (Sigma fun _ : Uint256 => CCoinsCacheEntry)}
    (hnd : l.NodupKeys) (h : ∀ it ∈ l, Mergeable (us.lookup it.1) it.2) :
    ∃ us', l.foldlM batchWriteEntry us = .ok us' ∧ ∀ t, us'.lookup t =
      match l.dlookup t with
      | some it => mergedEntry (us.lookup t) it
      | none => us.lookup t := by
  induction l generalizing us with
  | nil => exact ⟨us, rfl, fun _ => rfl⟩
  | cons it l ih =>
    rw [nodupKeys_cons] at hnd
    obtain ⟨hnotin, hnd⟩ := hnd
    obtain ⟨us1, hstep, hself, hother⟩ := batchWriteEntry_ok (h it (by simp))
    have hrest : ∀ it' ∈ l, Mergeable (us1.lookup it'.1) it'.2 := by
      intro it' hit'
      have hne : it'.1 ≠ it.1 := by
        intro heq
        exact hnotin (heq ▸ mem_keys_of_mem hit')
      rw [hother _ hne]
      exact h it' (by simp [hit'])
    obtain ⟨us', hfold, hlook⟩ := ih hnd hrest
    refine ⟨us', by rw [foldlM_cons, hstep]; exact hfold, ?_⟩
    intro t
    rw [hlook t]
    by_cases ht : t = it.1
    · subst ht
      have hnone : l.dlookup it.1 = none := dlookup_eq_none.mpr hnotin
      rw [hnone, dlookup_cons_eq, hself]
    · have hcons : dlookup t (it :: l) = dlookup t l := dlookup_cons_ne l it ht
      rw [hcons, hother t ht]

section

variable (hparent : ∀ e, parent.cacheCoins.lookup t = some e → EntryOk V s below t e)
variable {it : CCoinsCacheEntry}
include hparent

/-- Merging a good child entry into the parent keeps the parent's promises. -/
theorem mergedEntry_ok (hit : EntryOk V s (parent :: below) t it)
    (he : mergedEntry (parent.cacheCoins.lookup t) it = some e) : EntryOk V s below t e := by
  unfold mergedEntry at he
  cases hd : it.dirty with
  | false =>
    simp only [hd, false_eq_true, if_false] at he
    exact hparent e he
  | true =>
    simp only [hd, if_true] at he
    cases hl : parent.cacheCoins.lookup t with
    | none =>
      simp only [hl] at he
      split at he
      · cases he
      · cases he
        -- the parent lacks the entry, so the child's `FRESH` speaks about the grandparent
        have hfresh := hit.fresh_of_missing hl
        refine ⟨hit.clean, ?_, nofun, nofun⟩
        intro _
        have := hit.unseen hfresh
        rwa [seen, peek_cons_none hl] at this
    | some itUs =>
      simp only [hl] at he
      split at he
      · cases he
      · cases he
        exact ⟨hit.clean, (hparent itUs hl).unseen, (hparent itUs hl).held, nofun⟩

/-- After the merge the parent shows what the child showed. -/
theorem mergedEntry_seen (hit : EntryOk V s (parent :: below) t it) {parent' : CCoinsViewCache}
    (hlook : parent'.cacheCoins.lookup t = mergedEntry (parent.cacheCoins.lookup t) it) :
    seen V s (parent' :: below) t = it.coins.live := by
  unfold mergedEntry at hlook
  cases hd : it.dirty with
  | false =>
    simp only [hd, false_eq_true, if_false] at hlook
    have hcopy := hit.copied hd
    have hsame : peek V s (parent' :: below) t = peek V s (parent :: below) t := by
      simp only [peek, hlook]
    rw [seen, hsame, hcopy]
    rfl
  | true =>
    simp only [hd, if_true] at hlook
    cases hl : parent.cacheCoins.lookup t with
    | none =>
      simp only [hl] at hlook
      cases hp : it.coins.isPruned with
      | true =>
        simp only [hp, if_true] at hlook
        have hun := hit.unseen (hit.fresh_of_missing hl)
        rw [seen, peek_cons_none hl] at hun
        rw [seen, peek_cons_none hlook, hun, live_of_pruned hp]
      | false =>
        simp only [hp, false_eq_true, if_false] at hlook
        rw [seen, peek_cons_some hlook]
        rfl
    | some itUs =>
      simp only [hl] at hlook
      cases hdrop : itUs.fresh && it.coins.isPruned with
      | true =>
        simp only [hdrop, if_true] at hlook
        obtain ⟨hfresh, hp⟩ := (and_eq_true _ _).mp hdrop
        rw [seen, peek_cons_none hlook, live_of_pruned hp]
        exact (hparent itUs hl).unseen hfresh
      | false =>
        simp only [hdrop, false_eq_true, if_false] at hlook
        rw [seen, peek_cons_some hlook]
        rfl

end

/-- `BatchWrite` of a child's coins into its parent raises no assertion, keeps the parent's
promises, and leaves the parent showing what the child showed. -/
theorem batchWrite_spec (hc : Coherent V s (c :: parent :: below)) (h : Uint256) :
    ∃ parent', parent.batchWrite c.cacheCoins h = .ok parent' ∧ parent'.hashBlock = h ∧
      Coherent V s (parent' :: below) ∧
      ∀ t, seen V s (parent' :: below) t = seen V s (c :: parent :: below) t := by
  obtain ⟨-, hchild, hmod, hparent, hbelow⟩ := hc
  have hmerge : ∀ it ∈ c.cacheCoins.entries, Mergeable (parent.cacheCoins.lookup it.1) it.2 := by
    intro it hit _ hnone
    have hlook : c.cacheCoins.lookup it.1 = some it.2 := mem_lookup_iff.mpr hit
    exact .inr ((hchild it.1 it.2 hlook).fresh_of_missing hnone)
  obtain ⟨us', hfold, hlook⟩ := batchWriteEntries_ok c.cacheCoins.nodupKeys hmerge
  have hlook' : ∀ t, us'.lookup t =
      match c.cacheCoins.lookup t with
      | some it => mergedEntry (parent.cacheCoins.lookup t) it
      | none => parent.cacheCoins.lookup t := hlook
  refine ⟨{ parent with cacheCoins := us', hashBlock := h }, ?_, rfl, ⟨hmod, ?_, hbelow⟩, ?_⟩
  · simp only [batchWrite, hmod, false_eq_true, if_false, hfold]
    rfl
  · intro t e he
    rw [hlook' t] at he
    cases hl : c.cacheCoins.lookup t with
    | none =>
      rw [hl] at he
      exact hparent t e he
    | some it =>
      rw [hl] at he
      exact mergedEntry_ok (hparent t) (hchild t it hl) he
  · intro t
    have ht := hlook' t
    cases hl : c.cacheCoins.lookup t with
    | none =>
      rw [hl] at ht
      simp only [seen, peek_cons_none hl]
      simp only [peek, ht]
    | some it =>
      rw [hl] at ht
      rw [mergedEntry_seen (hparent t) (hchild t it hl) ht, seen, peek_cons_some hl]
      rfl

/-- The outcome of a flush: the top is empty, and the rest shows what the whole stack
showed. -/
structure Flushed (V : CCoinsView σ) (s : σ) (c : CCoinsViewCache)
    (below : List CCoinsViewCache) (rest : List CCoinsViewCache) (s' : σ) : Prop where
  coherent : Coherent V s' rest
  seen_eq : ∀ t, seen V s' rest t = seen V s (c :: below) t
  length_eq : rest.length = below.length

theorem flush_spec (hc : Coherent V s (c :: below)) :
    ∃ rest s', flush V s c below = .ok ⟨{ c with cacheCoins := ∅ } :: rest, s'⟩ ∧
      Flushed V s c below rest s' := by
  cases below with
  | nil =>
    refine ⟨[], V.batchWrite s c.cacheCoins c.hashBlock, rfl, trivial, ?_, rfl⟩
    intro t
    have hw : Writable (V.getCoins s) c.cacheCoins := by
      intro t' e he
      have hok := hc.2.1 t' e he
      exact ⟨hok.clean, hok.copied⟩
    have hlive := V.batchWrite_live c.hashBlock hw t
    rw [seen, peek, hlive, seen]
    cases hl : c.cacheCoins.lookup t with
    | none =>
      rw [peek_cons_none hl]
      rfl
    | some e =>
      rw [peek_cons_some hl]
      rfl
  | cons parent below =>
    obtain ⟨parent', hw, -, hcoh, hseen⟩ := batchWrite_spec hc c.hashBlock
    refine ⟨parent' :: below, s, ?_, hcoh, hseen, rfl⟩
    simp only [flush, hw]
    rfl

/-- An empty cache on top is coherent and shows what is below it. -/
theorem coherent_push (hc : Coherent V s caches) (h : Uint256) :
    Coherent V s ({ hasModifier := false, hashBlock := h, cacheCoins := ∅ } :: caches) := by
  refine ⟨rfl, ?_, hc⟩
  intro t e he
  simp at he

theorem seen_push (t : Uint256) :
    seen V s ({ c with cacheCoins := ∅ } :: caches) t = seen V s caches t := by
  rw [seen, peek_cons_none (by simp), seen]

end Specs

end MonetaryUnit
