/-
# MonetaryUnit.Validation.View — programs that run on a coin view

Block validation reads and edits a `CCoinsViewCache`. A validation function is a computation
over the stack of caches, the view at its top, that may stop in one of the ways the source
can: it rejects, returns an error, throws, fails an assertion, or follows a pointer that is
not there.

`Shows` says what a stack means to such a program: a flat map of coins and a best block. Each
primitive has one specification in these terms, and the programs built from the primitives
are reasoned about through them only.
-/

import MonetaryUnit.Coins.Utxo
import MonetaryUnit.Validation.State

namespace MonetaryUnit

open Function List CCoins CCoinsViewCache

/-! ## Failures -/

/-- The assertions of `main.cpp` on the way through a block, and those of `coins.cpp`. -/
inductive ViewAssert
  | bestBlock
  | missingCoins
  | spendFailed
  | coins (a : AssertFailure)
deriving DecidableEq, Repr

/-- How validation can stop. -/
inductive Failure
  /-- `state.DoS` or `state.Invalid`. -/
  | reject (r : Reject)
  /-- `return error(…)`. -/
  | error (message : String)
  /-- A `std::runtime_error`. -/
  | exception (what : String)
  | assertion (a : ViewAssert)
  /-- A null pointer, an end iterator or an index past the end is dereferenced. -/
  | invalidAccess
  /-- There is no cache to run on; the source has one by its types. -/
  | noCache
deriving DecidableEq, Repr

/-- On a stack of coin caches, with failure. -/
abbrev ViewM := StateT (List CCoinsViewCache) (Except Failure)

namespace ViewM

def fail {α : Type} (f : Failure) : ViewM α := fun _ => .error f

/-- Go on when the condition holds, else stop as given. -/
def ensure (ok : Bool) (f : Failure) : ViewM Unit := if ok then pure () else fail f

/-- A check that does not look at the view. -/
def check {α : Type} (r : Except Reject α) : ViewM α := fun st =>
  match r with
  | .ok a => .ok (a, st)
  | .error e => .error (.reject e)

def throwing {α : Type} (r : Except String α) : ViewM α := fun st =>
  match r with
  | .ok a => .ok (a, st)
  | .error e => .error (.exception e)

def deref {α : Type} (p : Option α) : ViewM α := fun st =>
  match p with
  | some a => .ok (a, st)
  | none => .error .invalidAccess

section Inversion

variable {α β : Type} {st st' : List CCoinsViewCache} {x : ViewM α} {f : α → ViewM β} {b : β}

theorem bind_ok_iff :
    (x >>= f) st = .ok (b, st') ↔ ∃ a st1, x st = .ok (a, st1) ∧ f a st1 = .ok (b, st') := by
  show (x st >>= fun p => f p.1 p.2) = .ok (b, st') ↔ _
  rw [bind_eq_ok]
  constructor
  · rintro ⟨⟨a, st1⟩, hx, hf⟩
    exact ⟨a, st1, hx, hf⟩
  · rintro ⟨a, st1, hx, hf⟩
    exact ⟨(a, st1), hx, hf⟩

variable {a : α}

theorem bind_of_ok {st1 : List CCoinsViewCache} (h : x st = .ok (a, st1)) :
    (x >>= f) st = f a st1 := by
  show (x st >>= fun p => f p.1 p.2) = _
  rw [h]
  rfl

theorem pure_ok_iff {b : α} : (pure a : ViewM α) st = .ok (b, st') ↔ a = b ∧ st = st' := by
  show Except.ok (a, st) = .ok (b, st') ↔ _
  simp

theorem ensure_ok_iff {ok : Bool} {f : Failure} {u : Unit} :
    ensure ok f st = .ok (u, st') ↔ ok = true ∧ st = st' := by
  cases ok with
  | true => exact pure_ok_iff.trans (by simp)
  | false => exact ⟨nofun, fun h => nomatch h.1⟩

theorem ensure_of_true {ok : Bool} (h : ok = true) (f : Failure) : ensure ok f st = .ok ((), st) :=
  ensure_ok_iff.mpr ⟨h, rfl⟩

theorem check_ok_iff {r : Except Reject α} : check r st = .ok (a, st') ↔ r = .ok a ∧ st = st' := by
  unfold check
  cases r <;> simp

theorem throwing_ok_iff {r : Except String α} :
    throwing r st = .ok (a, st') ↔ r = .ok a ∧ st = st' := by
  unfold throwing
  cases r <;> simp

theorem deref_ok_iff {p : Option α} : deref p st = .ok (a, st') ↔ p = some a ∧ st = st' := by
  unfold deref
  cases p <;> simp

end Inversion

end ViewM

/-! ## Primitives -/

section Primitives

variable {σ : Type} (V : CCoinsView σ) (s : σ)

def accessCoins (txid : Uint256) : ViewM (Option CCoins) := fun st =>
  .ok (fetchCoins V s txid st)

def viewHaveInputs (tx : CTransaction) : ViewM Bool := fun st => .ok (haveInputs V s tx st)

def viewBestBlock : ViewM Uint256 := fun st => .ok (getBestBlock V s st)

def setBestBlock (hashBlock : Uint256) : ViewM Unit := fun st =>
  match st with
  | [] => .error .noCache
  | c :: below => .ok ((), { c with hashBlock := hashBlock } :: below)

/-- `ModifyCoins`, the edit, and the end of the modifier. -/
def withCoins {α : Type} (txid : Uint256) (edit : CCoins → α × CCoins) : ViewM α := fun st =>
  match st with
  | [] => .error .noCache
  | c :: below =>
    match editCoins V s txid edit c below with
    | .ok (a, c', below') => .ok (a, c' :: below')
    | .error e => .error (.assertion (.coins e))

end Primitives

/-! ## What a stack shows -/

/-- The best block without the caching. -/
def bestBlock {σ : Type} (V : CCoinsView σ) (s : σ) : List CCoinsViewCache → Uint256
  | [] => V.getBestBlock s
  | c :: below => if c.hashBlock = 0 then bestBlock V s below else c.hashBlock

/-- The stack is coherent, has a cache at its top, and shows these coins and these best
blocks, the last one being that of the levels below the top. -/
structure Shows {σ : Type} (V : CCoinsView σ) (s : σ) (st : List CCoinsViewCache) (m : FlatMap)
    (best below : Uint256) : Prop where
  coherent : Coherent V s st
  nonempty : st ≠ []
  seen_eq : seen V s st = m
  best_eq : bestBlock V s st = best
  below_eq : bestBlock V s st.tail = below

section Specs

variable {σ : Type} {V : CCoinsView σ} {s : σ}

variable {st st' : List CCoinsViewCache} {m : FlatMap} {best below : Uint256}

theorem bestBlock_congr (h : st'.map hashBlock = st.map hashBlock) :
    bestBlock V s st' = bestBlock V s st := by
  induction st generalizing st' with
  | nil =>
    rw [map_nil, map_eq_nil_iff] at h
    rw [h]
  | cons c below ih =>
    cases st' with
    | nil => simp at h
    | cons c' below' =>
      simp only [map_cons, cons.injEq] at h
      simp only [bestBlock, h.1, ih h.2]

section

variable (h : Shows V s st m best below)
include h

theorem Shows.of_hashBlocks {m' : FlatMap} (hc : Coherent V s st') (hm : seen V s st' = m')
    (hh : st'.map hashBlock = st.map hashBlock) : Shows V s st' m' best below where
  coherent := hc
  nonempty := by
    intro hnil
    rw [hnil, map_nil, eq_comm, map_eq_nil_iff] at hh
    exact h.nonempty hh
  seen_eq := hm
  best_eq := (bestBlock_congr hh).trans h.best_eq
  below_eq := by
    rw [← h.below_eq]
    apply bestBlock_congr
    rw [map_tail, map_tail, hh]

theorem Shows.of_refilled (hr : Refilled V s st st') : Shows V s st' m best below :=
  h.of_hashBlocks hr.coherent (hr.seen_eq.trans h.seen_eq) hr.hashBlocks

theorem accessCoins_spec (t : Uint256) :
    ∃ r st', accessCoins V s t st = .ok (r, st') ∧ r.bind live = m t ∧ Shows V s st' m best below :=
  ⟨_, _, rfl, (fetchCoins_live h.coherent t).trans (congrFun h.seen_eq t),
    h.of_refilled (fetchCoins_fetched h.coherent t).toRefilled⟩

theorem viewHaveInputs_spec (tx : CTransaction) : ∃ st', viewHaveInputs V s tx st =
        .ok (tx.isCoinBase || tx.vin.all fun txin => m.available txin.prevout, st') ∧
      Shows V s st' m best below := by
  obtain ⟨hval, hr⟩ := haveInputs_spec tx h.coherent
  rw [h.seen_eq] at hval
  refine ⟨(haveInputs V s tx st).2, ?_, h.of_refilled hr⟩
  rw [← hval]
  rfl

end

/-- Caching the best block changes neither the coins nor the best block at any level. -/
theorem getBestBlock_spec (st : List CCoinsViewCache) : (getBestBlock V s st).1 = bestBlock V s st ∧
      bestBlock V s (getBestBlock V s st).2 = bestBlock V s st ∧
      (∀ t, peek V s (getBestBlock V s st).2 t = peek V s st t) ∧
      (∀ t, Held (getBestBlock V s st).2 t ↔ Held st t) := by
  induction st with
  | nil => exact ⟨rfl, rfl, fun _ => rfl, fun _ => .rfl⟩
  | cons c below ih =>
    obtain ⟨hval, hbest, hpeek, hheld⟩ := ih
    by_cases h0 : c.hashBlock = 0
    · simp only [getBestBlock, h0, if_true, bestBlock]
      refine ⟨hval, ?_, ?_, fun _ => .rfl⟩
      · split
        · exact hbest
        · exact hval
      · intro t
        simp only [peek, hpeek t]
    · simp only [getBestBlock, h0, if_false]
      exact ⟨(if_neg h0).symm, trivial, fun _ => trivial, fun _ => trivial⟩

theorem getBestBlock_coherent (h : Coherent V s st) : Coherent V s (getBestBlock V s st).2 := by
  induction st with
  | nil => trivial
  | cons c below ih =>
    obtain ⟨hmod, hentries, hbelow⟩ := h
    obtain ⟨-, -, hpeek, hheld⟩ := getBestBlock_spec (V := V) (s := s) below
    by_cases h0 : c.hashBlock = 0
    · simp only [getBestBlock, h0, if_true]
      refine ⟨hmod, fun t e he => ?_, ih hbelow⟩
      exact (hentries t e he).of_peek_eq (hpeek t) (hheld t).mpr
    · simp only [getBestBlock, h0, if_false]
      exact ⟨hmod, hentries, hbelow⟩

section

variable (h : Shows V s st m best below)
include h

theorem viewBestBlock_spec :
    ∃ st', viewBestBlock V s st = .ok (best, st') ∧ Shows V s st' m best below := by
  obtain ⟨hval, hbest, hpeek, -⟩ := getBestBlock_spec (V := V) (s := s) st
  refine ⟨(getBestBlock V s st).2, ?_, getBestBlock_coherent h.coherent, ?_, ?_,
    hbest.trans h.best_eq, ?_⟩
  · rw [← h.best_eq, ← hval]
    rfl
  · obtain ⟨c, rest, rfl⟩ := exists_cons_of_ne_nil h.nonempty
    simp only [getBestBlock]
    split <;> simp
  · rw [← h.seen_eq]
    funext t
    rw [seen, hpeek t, seen]
  · obtain ⟨c, rest, rfl⟩ := exists_cons_of_ne_nil h.nonempty
    rw [← h.below_eq]
    simp only [getBestBlock]
    split
    · exact (getBestBlock_spec rest).2.1
    · rfl

/-- Setting the best block at the top; the null hash uncovers the levels below. -/
theorem setBestBlock_spec (hash : Uint256) :
    ∃ st', setBestBlock hash st = .ok ((), st') ∧
      Shows V s st' m (if hash = 0 then below else hash) below := by
  obtain ⟨c, rest, rfl⟩ := exists_cons_of_ne_nil h.nonempty
  refine ⟨_, rfl, ⟨h.coherent.1, h.coherent.2.1, h.coherent.2.2⟩, by simp, ?_, ?_, h.below_eq⟩
  · rw [← h.seen_eq]
    rfl
  · rw [← h.below_eq]
    rfl

/-- An edit of one entry. It sees coins that are equal, in the sense of `operator==`, to those
the map holds, and leaves in the map what it makes of them. -/
theorem withCoins_spec {α : Type} (t : Uint256) (edit : CCoins → α × CCoins) :
    ∃ x : CCoins, x.live = m t ∧ ∃ st', withCoins V s t edit st = .ok ((edit x).1, st') ∧
      Shows V s st' (update m t (edit x).2.cleanup.live) best below := by
  obtain ⟨c, rest, rfl⟩ := exists_cons_of_ne_nil h.nonempty
  obtain ⟨⟨a, c', rest'⟩, he, hedit⟩ := editCoins_spec h.coherent t edit
  refine ⟨(peek V s (c :: rest) t).getD cleared, ?_, c' :: rest', ?_, ?_⟩
  · rw [← h.seen_eq, seen]
    cases peek V s (c :: rest) t <;> rfl
  · simp only [withCoins, he]
    rw [← hedit.value]
  · refine h.of_hashBlocks hedit.coherent ?_ hedit.hashBlocks
    funext t'
    by_cases ht : t' = t
    · subst ht
      rw [update_self, hedit.seen_self]
    · rw [update_of_ne ht, seen, hedit.peek_ne t' ht, ← h.seen_eq, seen]

end

end Specs

end MonetaryUnit
