/-
# MonetaryUnit.Coins.Refinement — a cache stack is one flat map of coins

The abstract machine is a map from transaction ids to `CCoins` in which absent and pruned
entries are one thing. Reads return what the map holds, an edit changes one entry, and
pushing, flushing and popping caches do nothing.

`cacheStack_refines_flatMap` runs any sequence of operations on the stack and on the map: no
assertion fails, every answer agrees, and at the end the same outputs are unspent. An edit
has to respect `operator==`, under which all pruned entries are equal: a pruned entry may
keep the height and version it had or lose them, depending on which shortcut it went
through, and `prunedMetadata_observable` exhibits an edit that can tell.
-/

import MonetaryUnit.Coins.Coherence
import MonetaryUnit.Coins.Database

namespace MonetaryUnit

open List CCoins

/-! ## Operations at the top of the stack -/

/-- The calls on a stack of caches. -/
inductive CoinsOp
  /-- `GetCoins`, and `AccessCoins`, which returns a pointer to the same coins. -/
  | getCoins (txid : Uint256)
  | haveCoins (txid : Uint256)
  | haveInputs (tx : CTransaction)
  /-- `ModifyCoins`, an edit, and the destruction of the modifier. -/
  | modifyCoins (txid : Uint256) (edit : CCoins → CCoins)
  | push
  | flush
  | flushPop

/-- What a call returns. -/
inductive CoinsAnswer
  | coins (c : Option CCoins)
  | bool (b : Bool)
  | done
deriving DecidableEq

/-- Identify absent and pruned coins in an answer. -/
def CoinsAnswer.live : CoinsAnswer → CoinsAnswer
  | .coins c => .coins (c.bind CCoins.live)
  | a => a

/-- Why a run stops: an assertion of the source, or an operation without a cache to run on. -/
inductive StackHalt
  | assertion (a : AssertFailure)
  | noCache
deriving DecidableEq

section Run

variable {σ : Type} (V : CCoinsView σ)

def liftAssert {α : Type} : Except AssertFailure α → Except StackHalt α
  | .ok a => .ok a
  | .error e => .error (.assertion e)

/-- One call on the cache on top. -/
def stepOp (op : CoinsOp) (st : CoinsStack σ) : Except StackHalt (CoinsAnswer × CoinsStack σ) :=
  match op, st.caches with
  | .push, caches => .ok (.done, { st with caches := {} :: caches })
  | _, [] => .error .noCache
  | .getCoins txid, caches =>
    let (r, caches') := fetchCoins V st.base txid caches
    .ok (.coins r, { st with caches := caches' })
  | .haveCoins txid, caches =>
    let (b, caches') := haveCoins V st.base txid caches
    .ok (.bool b, { st with caches := caches' })
  | .haveInputs tx, caches =>
    let (b, caches') := haveInputs V st.base tx caches
    .ok (.bool b, { st with caches := caches' })
  | .modifyCoins txid edit, c :: below => do
    let (_, c', below') ← liftAssert (editCoins V st.base txid (fun x => ((), edit x)) c below)
    return (.done, { st with caches := c' :: below' })
  | .flush, c :: below => do
    let st' ← liftAssert (flush V st.base c below)
    return (.done, st')
  | .flushPop, c :: below => do
    let st' ← liftAssert (flush V st.base c below)
    return (.done, { st' with caches := st'.caches.tail })

/-- The calls one after the other. -/
def runOps : List CoinsOp → CoinsStack σ → Except StackHalt (List CoinsAnswer × CoinsStack σ)
  | [], st => .ok ([], st)
  | op :: ops, st => do
    let (a, st') ← stepOp V op st
    let (as, st'') ← runOps ops st'
    return (a :: as, st'')

end Run

/-- The number of caches an operation leaves. -/
def CoinsOp.depthAfter : CoinsOp → Nat → Nat
  | .push, depth => depth + 1
  | .flushPop, depth => depth - 1
  | _, depth => depth

def CoinsOp.needsCache : CoinsOp → Bool
  | .push => false
  | _ => true

/-- Every operation but `push` finds a cache to run on, starting with `depth` caches. -/
def fits : Nat → List CoinsOp → Bool
  | _, [] => true
  | depth, op :: ops => (!op.needsCache || 0 < depth) && fits (op.depthAfter depth) ops

/-! ## The flat map -/

/-- A map of coins in which a pruned entry is an absent one. -/
abbrev FlatMap := Uint256 → Option CCoins

namespace FlatMap

def edit (m : FlatMap) (txid : Uint256) (f : CCoins → CCoins) : FlatMap :=
  Function.update m txid (f ((m txid).getD CCoins.cleared)).cleanup.live

def available (m : FlatMap) (o : COutPoint) : Bool :=
  match m o.hash with
  | some c => c.isAvailable o.n
  | none => false

/-- The same call on a flat map. -/
def step (op : CoinsOp) (m : FlatMap) : CoinsAnswer × FlatMap :=
  match op with
  | .getCoins txid => (.coins (m txid), m)
  | .haveCoins txid => (.bool (m txid).isSome, m)
  | .haveInputs tx =>
    (.bool (tx.isCoinBase || tx.vin.all fun txin => m.available txin.prevout), m)
  | .modifyCoins txid f => (.done, m.edit txid f)
  | .push | .flush | .flushPop => (.done, m)

def run : List CoinsOp → FlatMap → List CoinsAnswer × FlatMap
  | [], m => ([], m)
  | op :: ops, m =>
    let (a, m') := step op m
    let (as, m'') := run ops m'
    (a :: as, m'')

end FlatMap

/-- The edit respects the code's equality of coins: on equal coins it leaves, after the
`Cleanup` of the modifier, equal coins. -/
def RespectsEq (f : CCoins → CCoins) : Prop :=
  ∀ a b : CCoins, a.eqv b = true → (f a).cleanup.eqv (f b).cleanup = true

def CoinsOp.Respectful : CoinsOp → Prop
  | .modifyCoins _ f => RespectsEq f
  | _ => True

theorem RespectsEq.live_getD {f : CCoins → CCoins} (hf : RespectsEq f) (x : Option CCoins) :
    (f (x.getD cleared)).cleanup.live = (f ((x.bind live).getD cleared)).cleanup.live := by
  cases x with
  | none => rfl
  | some c =>
    apply eqv_iff_live.mp
    apply hf
    rw [eqv_iff_live]
    cases hp : c.isPruned with
    | true => simp [live_of_pruned hp]
    | false => simp [live_of_not_pruned hp]

section Refine

variable {σ : Type} {V : CCoinsView σ} {s : σ}

/-! ## Reads through the stack -/

variable {caches : List CCoinsViewCache} {caches' : List CCoinsViewCache} {st : CoinsStack σ}

theorem Refilled.trans {c1 c2 c3 : List CCoinsViewCache} (h : Refilled V s c1 c2)
    (h' : Refilled V s c2 c3) : Refilled V s c1 c3 where
  coherent := h'.coherent
  peek_eq := fun t => (h'.peek_eq t).trans (h.peek_eq t)
  held_mono := fun t hheld => h'.held_mono t (h.held_mono t hheld)
  hashBlocks := h'.hashBlocks.trans h.hashBlocks

theorem Refilled.length_eq (h : Refilled V s caches caches') : caches'.length = caches.length := by
  simpa using congrArg length h.hashBlocks

theorem Refilled.seen_eq (h : Refilled V s caches caches') :
    seen V s caches' = seen V s caches := by
  funext t
  rw [seen, h.peek_eq t, seen]

theorem fetchCoins_live (hc : Coherent V s caches) (t : Uint256) :
    (fetchCoins V s t caches).1.bind live = seen V s caches t := by
  rw [(fetchCoins_fetched hc t).result, seen]

theorem haveCoins_spec (hc : Coherent V s caches) (t : Uint256) :
    (haveCoins V s t caches).1 = (seen V s caches t).isSome ∧
      Refilled V s caches (haveCoins V s t caches).2 := by
  have hf := fetchCoins_fetched hc t
  have hr := hf.toRefilled
  unfold haveCoins
  cases hfetch : fetchCoins V s t caches with
  | mk r caches' =>
    rw [hfetch] at hf hr
    have hpeek : peek V s caches t = r := hf.result.symm
    cases r with
    | none => exact ⟨by simp [seen, hpeek], hr⟩
    | some c =>
      refine ⟨?_, hr⟩
      simp only [seen, hpeek, (peek_clean hc hpeek).isEmpty_eq, Option.bind_some]
      cases hp : c.isPruned with
      | true => simp [live_of_pruned hp]
      | false => simp [live_of_not_pruned hp]

/-- Whether a read through the stack finds the output is a question about `seen`. -/
theorem available_of_peek (caches : List CCoinsViewCache) (o : COutPoint) :
    FlatMap.available (seen V s caches) o =
      match peek V s caches o.hash with
      | some c => c.isAvailable o.n
      | none => false := by
  unfold FlatMap.available seen
  cases peek V s caches o.hash with
  | none => rfl
  | some c =>
    cases hp : c.isPruned with
    | true => simp [live_of_pruned hp, isAvailable_of_pruned hp]
    | false => simp [live_of_not_pruned hp]

theorem haveInputsLoop_spec (vin : List CTxIn) (hc : Coherent V s caches) :
    (haveInputsLoop V s vin caches).1 =
        vin.all (fun txin => FlatMap.available (seen V s caches) txin.prevout) ∧
      Refilled V s caches (haveInputsLoop V s vin caches).2 := by
  induction vin generalizing caches with
  | nil => exact ⟨rfl, Refilled.refl hc⟩
  | cons txin rest ih =>
    have hf := fetchCoins_fetched hc txin.prevout.hash
    have hr := hf.toRefilled
    have hav := available_of_peek (V := V) (s := s) caches txin.prevout
    simp only [haveInputsLoop, all_cons]
    cases hfetch : fetchCoins V s txin.prevout.hash caches with
    | mk r caches' =>
      rw [hfetch] at hf hr
      rw [← hf.result] at hav
      cases r with
      | none => exact ⟨by simp [hav], hr⟩
      | some c =>
        simp only at hav ⊢
        cases ha : c.isAvailable txin.prevout.n with
        | false => exact ⟨by simp [hav, ha], hr⟩
        | true =>
          obtain ⟨hloop, hrest⟩ := ih hr.coherent
          rw [if_pos rfl]
          refine ⟨?_, hr.trans hrest⟩
          rw [hloop, hr.seen_eq, hav, ha, Bool.true_and]

theorem haveInputs_spec (tx : CTransaction) (hc : Coherent V s caches) :
    (haveInputs V s tx caches).1 = (tx.isCoinBase ||
        tx.vin.all (fun txin => FlatMap.available (seen V s caches) txin.prevout)) ∧
      Refilled V s caches (haveInputs V s tx caches).2 := by
  unfold haveInputs
  cases htx : tx.isCoinBase with
  | true => exact ⟨rfl, Refilled.refl hc⟩
  | false => simpa using haveInputsLoop_spec tx.vin hc

/-! ## One operation and whole runs -/

theorem stepOp_push (V : CCoinsView σ) (st : CoinsStack σ) :
    stepOp V .push st = .ok (.done, { st with caches := {} :: st.caches }) := by
  cases st with
  | mk caches base => cases caches <;> rfl

/-- One operation on a coherent stack that has the cache it needs: it runs, and the stack
answers and changes as the flat map does. -/
theorem stepOp_refines (op : CoinsOp) (hop : op.Respectful) (hc : Coherent V st.base st.caches)
    (hfit : op.needsCache = true → 0 < st.caches.length) :
    ∃ a st', stepOp V op st = .ok (a, st') ∧ Coherent V st'.base st'.caches ∧
      a.live = (FlatMap.step op (seen V st.base st.caches)).1 ∧
      seen V st'.base st'.caches = (FlatMap.step op (seen V st.base st.caches)).2 ∧
      st'.caches.length = op.depthAfter st.caches.length := by
  obtain ⟨caches, s⟩ := st
  by_cases hpush : op.needsCache = false
  · cases op with
    | push =>
      refine ⟨_, _, stepOp_push V _, coherent_push hc 0, rfl, ?_, rfl⟩
      funext t
      exact seen_push (c := {}) t
    | _ => cases hpush
  · obtain ⟨c, below, rfl⟩ : ∃ c below, caches = c :: below :=
      exists_cons_of_length_pos (hfit (by simpa using hpush))
    cases op with
    | push => exact absurd rfl hpush
    | getCoins txid =>
      have hr := (fetchCoins_fetched hc txid).toRefilled
      refine ⟨_, _, rfl, hr.coherent, ?_, hr.seen_eq, hr.length_eq⟩
      exact congrArg CoinsAnswer.coins (fetchCoins_live hc txid)
    | haveCoins txid =>
      obtain ⟨hb, hr⟩ := haveCoins_spec hc txid
      exact ⟨_, _, rfl, hr.coherent, congrArg CoinsAnswer.bool hb, hr.seen_eq, hr.length_eq⟩
    | haveInputs tx =>
      obtain ⟨hb, hr⟩ := haveInputs_spec tx hc
      exact ⟨_, _, rfl, hr.coherent, congrArg CoinsAnswer.bool hb, hr.seen_eq, hr.length_eq⟩
    | modifyCoins txid f =>
      obtain ⟨⟨u, c', below'⟩, he, hedit⟩ := editCoins_spec hc txid (fun x => ((), f x))
      refine ⟨.done, ⟨c' :: below', s⟩, ?_, hedit.coherent, rfl, ?_, ?_⟩
      · simp only [stepOp, he, liftAssert]
        rfl
      · funext t
        simp only [FlatMap.step, FlatMap.edit]
        by_cases ht : t = txid
        · subst ht
          rw [Function.update_self, hedit.seen_self]
          exact RespectsEq.live_getD hop _
        · rw [Function.update_of_ne ht, seen, hedit.peek_ne t ht, seen]
      · simpa [CoinsOp.depthAfter] using congrArg length hedit.hashBlocks
    | flush =>
      obtain ⟨rest, s', hf, hfl⟩ := flush_spec hc
      have hmod : c.hasModifier = false := hc.1
      refine ⟨.done, ⟨{ c with cacheCoins := ∅ } :: rest, s'⟩, ?_, ?_, rfl, ?_, ?_⟩
      · simp only [stepOp, hf, liftAssert]
        rfl
      · rw [hmod]
        exact coherent_push hfl.coherent c.hashBlock
      · funext t
        simp only [FlatMap.step]
        rw [seen_push t, hfl.seen_eq t]
      · simp [CoinsOp.depthAfter, hfl.length_eq]
    | flushPop =>
      obtain ⟨rest, s', hf, hfl⟩ := flush_spec hc
      refine ⟨.done, ⟨rest, s'⟩, ?_, hfl.coherent, rfl, funext hfl.seen_eq, ?_⟩
      · simp only [stepOp, hf, liftAssert]
        rfl
      · simp [CoinsOp.depthAfter, hfl.length_eq]

theorem runOps_refines (ops : List CoinsOp) (hops : ∀ op ∈ ops, op.Respectful)
    (hc : Coherent V st.base st.caches) (hfit : fits st.caches.length ops = true) :
    ∃ answers st', runOps V ops st = .ok (answers, st') ∧ Coherent V st'.base st'.caches ∧
      answers.map .live = (FlatMap.run ops (seen V st.base st.caches)).1 ∧
      seen V st'.base st'.caches = (FlatMap.run ops (seen V st.base st.caches)).2 := by
  induction ops generalizing st with
  | nil => exact ⟨[], st, rfl, hc, rfl, rfl⟩
  | cons op ops ih =>
    simp only [fits, Bool.and_eq_true, Bool.or_eq_true, Bool.not_eq_true',
      decide_eq_true_eq] at hfit
    obtain ⟨hneed, hrest⟩ := hfit
    have hcache : op.needsCache = true → 0 < st.caches.length := by
      intro hn
      rcases hneed with h | h
      · rw [hn] at h
        cases h
      · exact h
    obtain ⟨a, st1, hstep, hc1, ha, hseen1, hlen⟩ := stepOp_refines op (hops op (by simp)) hc hcache
    have hfit1 : fits st1.caches.length ops = true := by
      rw [hlen]
      exact hrest
    obtain ⟨as, st', hrun, hc', has, hseen⟩ := ih (fun op' h => hops op' (by simp [h])) hc1 hfit1
    rw [hseen1] at has hseen
    refine ⟨a :: as, st', ?_, hc', ?_, hseen⟩
    · rw [runOps, hstep]
      simp only [bind, Except.bind, hrun]
      rfl
    · rw [map_cons, ha, has]
      rfl

/-- **`cacheStack_refines_flatMap`** — from a base view in any state, every sequence of
operations that finds its caches and whose edits respect `operator==` runs without a failed
assertion; its answers, and the outputs unspent at the end, are those of the flat map. -/
theorem cacheStack_refines_flatMap (V : CCoinsView σ) (s : σ) (ops : List CoinsOp)
    (hfit : fits 0 ops = true) (hops : ∀ op ∈ ops, op.Respectful) :
    ∃ answers st, runOps V ops ⟨[], s⟩ = .ok (answers, st) ∧
      answers.map CoinsAnswer.live = (FlatMap.run ops (seen V s [])).1 ∧
      ∀ t, seen V st.base st.caches t = (FlatMap.run ops (seen V s [])).2 t := by
  have hempty : Coherent V (CoinsStack.mk [] s).base [] := trivial
  obtain ⟨answers, st, hrun, -, hanswers, hseen⟩ := runOps_refines (V := V) ops hops hempty hfit
  exact ⟨answers, st, hrun, hanswers, fun t => congrFun hseen t⟩

end Refine

/-! ## Why an edit must respect equality -/

/-- The flat map in the reading that keeps pruned entries with all their fields. -/
def FlatMap.runKept : List CoinsOp → FlatMap → FlatMap
  | [], m => m
  | .modifyCoins txid f :: ops, m =>
    runKept ops (Function.update m txid (some (f ((m txid).getD CCoins.cleared)).cleanup))
  | _ :: ops, m => runKept ops m

/-- What is seen for `t` after a run over an empty coin database. -/
def seenAfter (ops : List CoinsOp) (t : Uint256) : Option CCoins :=
  match runOps coinsViewDB ops ⟨[], {}⟩ with
  | .ok (_, st) => seen coinsViewDB st.base st.caches t
  | .error _ => none

theorem seenAfter_of_ok {ops : List CoinsOp} {answers : List CoinsAnswer}
    {st : CoinsStack CoinsDB} (h : runOps coinsViewDB ops ⟨[], {}⟩ = .ok (answers, st))
    (t : Uint256) : seenAfter ops t = seen coinsViewDB st.base st.caches t := by
  rw [seenAfter, h]

def createAtFive (_ : CCoins) : CCoins := { vout := [⟨7, []⟩], nHeight := 5, nVersion := 1 }
def spendAll (c : CCoins) : CCoins := { c with vout := [] }

/-- Sets an output and leaves the other fields as they are. -/
def reviveOutput (c : CCoins) : CCoins := { c with vout := [⟨7, []⟩] }

/-- The spent entry is still in the cache, with its height, when the output is set again. -/
def reviveInCache : List CoinsOp :=
  [.push, .modifyCoins 1 createAtFive, .flush, .modifyCoins 1 spendAll,
    .modifyCoins 1 reviveOutput]

/-- The spent entry was flushed, hence erased from the database, before. -/
def reviveAfterFlush : List CoinsOp :=
  [.push, .modifyCoins 1 createAtFive, .flush, .modifyCoins 1 spendAll, .flush,
    .modifyCoins 1 reviveOutput]

/-- An edit that reads the height of a pruned entry tells the stack from a flat map, both
from the map that forgets pruned entries and from the one that keeps them. -/
theorem prunedMetadata_observable : (¬ ∀ ops, fits 0 ops = true → ∃ answers st,
      runOps coinsViewDB ops ⟨[], {}⟩ = .ok (answers, st) ∧
      ∀ t, seen coinsViewDB st.base st.caches t = (FlatMap.run ops (seen coinsViewDB {} [])).2 t) ∧
    ¬ ∀ ops, fits 0 ops = true → ∃ answers st, runOps coinsViewDB ops ⟨[], {}⟩ = .ok (answers, st) ∧
      ∀ t, seen coinsViewDB st.base st.caches t =
        (FlatMap.runKept ops (coinsViewDB.getCoins {}) t).bind CCoins.live := by
  constructor
  · intro h
    obtain ⟨answers, st, hrun, hseen⟩ := h reviveInCache rfl
    exact absurd ((seenAfter_of_ok hrun 1).trans (hseen 1)) (by decide)
  · intro h
    obtain ⟨answers, st, hrun, hseen⟩ := h reviveAfterFlush rfl
    exact absurd ((seenAfter_of_ok hrun 1).trans (hseen 1)) (by decide)

/-- The refinement at work: coins created in one cache, seen and spent in a second one, and
flushed through both into the database. -/
theorem cacheStack_refines_flatMap_spend :
    let ops : List CoinsOp := [.push, .modifyCoins 1 createAtFive, .push, .haveCoins 1,
      .modifyCoins 1 spendAll, .flushPop, .flushPop]
    ∃ answers st, runOps coinsViewDB ops ⟨[], {}⟩ = .ok (answers, st) ∧
      answers.map CoinsAnswer.live = (FlatMap.run ops (seen coinsViewDB {} [])).1 ∧
      ∀ t, seen coinsViewDB st.base st.caches t =
        (FlatMap.run ops (seen coinsViewDB {} [])).2 t := by
  apply cacheStack_refines_flatMap
  · rfl
  · simp only [mem_cons, not_mem_nil, or_false, forall_eq_or_imp, forall_eq]
    refine ⟨trivial, ?_, trivial, trivial, ?_, trivial, trivial⟩
    · intro a b _
      exact eqv_iff_live.mpr rfl
    · intro a b _
      rw [eqv_iff_live, live_of_pruned rfl, live_of_pruned rfl]

end MonetaryUnit
