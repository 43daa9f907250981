/-
# MonetaryUnit.Coins.Utxo — the unspent outputs, one by one

What a `CCoins` is for: at each output index there is a coin or there is none. A coin is the
output together with the height, version and coinbase flag of its transaction. `coinAt` reads
it off; trailing and inner null outputs, and with them everything `Cleanup` does, are no
longer visible.

Each edit of a `CCoins` that validation makes is described by its effect on `coinAt`: `Spend`
removes one coin, `FromTx` replaces them all. A `Normal` entry is determined by its coins, so
that for such entries `operator==` is a comparison of coins.
-/

import MonetaryUnit.Coins.Refinement

namespace MonetaryUnit

open List CCoins

structure Coin where
  txout : CTxOut
  fCoinBase : Bool
  nHeight : Int32
  nVersion : Int32
deriving DecidableEq, Repr

variable {coin : Coin}

namespace CCoins

/-- The coin these coins would lend an output that sits in `vout`. -/
def withOutput (c : CCoins) (out : CTxOut) : Coin := ⟨out, c.fCoinBase, c.nHeight, c.nVersion⟩

def coinAt (c : CCoins) (n : Nat) : Option Coin :=
  match c.vout[n]? with
  | some out => if out.isNull then none else some (c.withOutput out)
  | none => none

variable {c : CCoins} {n : Nat} {α : Type} {a b : CCoins} {out : CTxOut}

theorem coinAt_eq_some_iff : c.coinAt n = some coin ↔
      ∃ out, c.vout[n]? = some out ∧ out.isNull = false ∧ coin = c.withOutput out := by
  unfold coinAt
  cases hn : c.vout[n]? with
  | none => simp
  | some out =>
    cases hnull : out.isNull <;> simp [hnull, @eq_comm _ coin]

theorem coinAt_eq_none_iff :
    c.coinAt n = none ↔ ∀ out, c.vout[n]? = some out → out.isNull = true := by
  unfold coinAt
  cases hn : c.vout[n]? with
  | none => simp
  | some out => cases hnull : out.isNull <;> simp [hnull]

theorem isAvailable_eq (c : CCoins) (n : UInt32) : c.isAvailable n = (c.coinAt n.toNat).isSome := by
  unfold isAvailable coinAt
  cases c.vout[n.toNat]? with
  | none => rfl
  | some out => cases hnull : out.isNull <;> simp [hnull]

theorem isPruned_iff_coinAt : c.isPruned = true ↔ ∀ n, c.coinAt n = none := by
  simp only [isPruned, all_eq_true, coinAt_eq_none_iff]
  constructor
  · intro h n out hn
    exact h out (mem_of_getElem? hn)
  · intro h out hout
    obtain ⟨n, hn⟩ := getElem?_of_mem hout
    exact h n out hn

theorem isPruned_eq_false_of_coinAt (h : c.coinAt n = some coin) : c.isPruned = false := by
  rw [← Bool.not_eq_true, isPruned_iff_coinAt]
  intro hall
  rw [hall n] at h
  cases h

/-! ## Cleanup is invisible -/

theorem getElem?_of_rdropWhile {p : α → Bool} {l : List α} {a : α}
    (h : (l.rdropWhile p)[n]? = some a) : l[n]? = some a := by
  obtain ⟨rest, hrest⟩ := rdropWhile_prefix p l
  rw [← hrest, List.getElem?_append_left (List.getElem?_eq_some_iff.mp h).1]
  exact h

theorem getElem?_rdropWhile {p : α → Bool} {l : List α} {a : α} (h : l[n]? = some a)
    (ha : p a = false) : (l.rdropWhile p)[n]? = some a := by
  induction l using reverseRecOn with
  | nil => simp at h
  | append_singleton l b ih =>
    by_cases hb : p b = true
    · rw [rdropWhile_concat_pos _ _ _ hb]
      rcases Nat.lt_trichotomy n l.length with hlt | heq | hgt
      · rw [getElem?_append_left hlt] at h
        exact ih h
      · subst heq
        simp only [getElem?_concat_length, Option.some.injEq] at h
        rw [h, ha] at hb
        cases hb
      · rw [getElem?_eq_none (by simp; omega)] at h
        cases h
    · rw [rdropWhile_concat_neg _ _ _ hb]
      exact h

@[simp]
theorem coinAt_cleanup (c : CCoins) (n : Nat) : c.cleanup.coinAt n = c.coinAt n := by
  cases hc : c.coinAt n with
  | none =>
    rw [coinAt_eq_none_iff] at hc ⊢
    intro out hout
    exact hc out (getElem?_of_rdropWhile hout)
  | some coin =>
    rw [coinAt_eq_some_iff] at hc ⊢
    obtain ⟨out, hn, hnull, rfl⟩ := hc
    exact ⟨out, getElem?_rdropWhile hn hnull, hnull, rfl⟩

/-! ## Entries determined by their coins -/

/-- Trimmed, and spent outputs are exactly what `SetNull` leaves. -/
structure Normal (c : CCoins) : Prop where
  clean : c.Clean
  null : ∀ out ∈ c.vout, out.isNull = true → out = CTxOut.null

theorem Normal.cleanup (h : ∀ out ∈ c.vout, out.isNull = true → out = .null) :
    c.cleanup.Normal where
  clean := cleanup_clean c
  null := fun out hout => h out (( rdropWhile_prefix _ _).subset hout)

/-- Every output slot of a normal entry shows up in a normal entry with the same coins. -/
theorem Normal.getElem?_eq (ha : a.Normal) (hb : b.Normal) (h : ∀ n, a.coinAt n = b.coinAt n)
    (hn : a.vout[n]? = some out) : b.vout[n]? = some out := by
  -- the last slot of `a` is a coin, so `b` is at least as long
  have hlast : ∃ last, a.vout[a.vout.length - 1]? = some last ∧ last.isNull = false := by
    have hne : a.vout ≠ [] := ne_nil_of_mem (mem_of_getElem? hn)
    refine ⟨a.vout.getLast hne, ?_, ha.clean _ (getLast?_eq_some_getLast hne)⟩
    rw [← getLast?_eq_getElem?, getLast?_eq_some_getLast hne]
  obtain ⟨last, hget, hlive⟩ := hlast
  have hcoin := (coinAt_eq_some_iff (c := a)).mpr ⟨last, hget, hlive, rfl⟩
  rw [h, coinAt_eq_some_iff] at hcoin
  obtain ⟨last', hget', -, -⟩ := hcoin
  have hlen : n < b.vout.length := by
    have h1 : n < a.vout.length := (List.getElem?_eq_some_iff.mp hn).1
    have h2 : a.vout.length - 1 < b.vout.length := (List.getElem?_eq_some_iff.mp hget').1
    omega
  have hb' : b.vout[n]? = some b.vout[n] := getElem?_eq_getElem hlen
  cases hnull : out.isNull with
  | false =>
    have hout := (coinAt_eq_some_iff (c := a)).mpr ⟨out, hn, hnull, rfl⟩
    rw [h, coinAt_eq_some_iff] at hout
    obtain ⟨out', hn', -, heq⟩ := hout
    rw [hn']
    exact congrArg (fun coin : Coin => some coin.txout) heq.symm
  | true =>
    have hnone : b.coinAt n = none := by
      rw [← h, coinAt_eq_none_iff]
      intro out' hout'
      rw [hn] at hout'
      cases hout'
      exact hnull
    rw [hb', ha.null out (mem_of_getElem? hn) hnull]
    exact congrArg some (hb.null _ (getElem_mem hlen) (coinAt_eq_none_iff.mp hnone _ hb'))

theorem Normal.live_eq (ha : a.Normal) (hb : b.Normal) (h : ∀ n, a.coinAt n = b.coinAt n) :
    a.live = b.live := by
  cases hp : a.isPruned with
  | true =>
    rw [live_of_pruned hp, live_of_pruned]
    rw [isPruned_iff_coinAt] at hp ⊢
    intro n
    rw [← h, hp]
  | false =>
    have hvout : a.vout = b.vout := by
      apply ext_getElem?
      intro n
      cases hn : a.vout[n]? with
      | some out => exact (ha.getElem?_eq hb h hn).symm
      | none =>
        cases hn' : b.vout[n]? with
        | none => rfl
        | some out =>
          rw [hb.getElem?_eq ha (fun k => (h k).symm) hn'] at hn
          cases hn
    obtain ⟨out, hout, hnull⟩ : ∃ out ∈ a.vout, ¬ out.isNull = true := by
      simpa [isPruned] using hp
    obtain ⟨n, hn⟩ := getElem?_of_mem hout
    have ha' := (coinAt_eq_some_iff (c := a)).mpr ⟨out, hn, by simpa using hnull, rfl⟩
    obtain ⟨out', hn', -, heq⟩ := coinAt_eq_some_iff.mp (h n ▸ ha')
    cases a
    simp only [withOutput, Coin.mk.injEq] at heq hvout
    obtain ⟨-, rfl, rfl, rfl⟩ := heq
    rw [hvout]

/-! ## Spend and FromTx -/

/-- The entry with one output set to null. -/
def nullAt (c : CCoins) (n : Nat) : CCoins := { c with vout := c.vout.set n CTxOut.null }

/-- The effect of a successful `Spend` of the output `n`. -/
structure Spent (c : CCoins) (n : Nat) (undo : CTxInUndo) (c' : CCoins) : Prop where
  coin : c.coinAt n = some (c.withOutput undo.txout)
  eq : c' = (c.nullAt n).cleanup
  withOutput : c'.withOutput = c.withOutput
  coinAt : ∀ k, c'.coinAt k = if k = n then none else c.coinAt k
  clean : c'.Clean
  normal : c.Normal → c'.Normal
  last : c'.isPruned = true → undo =
    { txout := undo.txout, fCoinBase := c.fCoinBase, nHeight := c.nHeight.toUInt32,
      nVersion := c.nVersion }
  notLast : c'.isPruned = false → undo = { txout := undo.txout }

theorem coinAt_nullAt (c : CCoins) (n k : Nat) :
    (c.nullAt n).coinAt k = if k = n then none else c.coinAt k := by
  unfold coinAt nullAt
  rw [getElem?_set]
  by_cases hk : n = k
  · subst hk
    by_cases hlen : n < c.vout.length <;> simp [hlen]
  · rw [if_neg hk, if_neg (Ne.symm hk)]
    rfl

theorem mem_nullAt (h : out ∈ (c.nullAt n).vout) : out ∈ c.vout ∨ out = .null :=
  mem_or_eq_of_mem_set h

theorem spend_eq_some {out : COutPoint} {undo : CTxInUndo} {c' : CCoins}
    (h : c.spend out = some (undo, c')) : Spent c out.n.toNat undo c' := by
  cases hget : c.vout[out.n.toNat]? with
  | none => simp [spend, hget] at h
  | some prev =>
    cases hnull : prev.isNull with
    | true => simp [spend, hget, hnull] at h
    | false =>
      simp only [spend, hget, hnull, Bool.false_eq_true, if_false] at h
      -- what holds of the trimmed entry whether or not it is now empty
      have hc' : c' = (c.nullAt out.n.toNat).cleanup := by
        split at h <;> cases h <;> rfl
      have htx : undo.txout = prev := by
        split at h <;> cases h <;> rfl
      have hempty : c'.vout.length = 0 ↔ c'.isPruned = true := by
        rw [← (hc' ▸ cleanup_clean _ : c'.Clean).isEmpty_eq]
        simp
      refine
        { coin := coinAt_eq_some_iff.mpr ⟨prev, hget, hnull, by rw [htx]⟩
          eq := hc'
          withOutput := by rw [hc']; rfl
          coinAt := fun k => by rw [hc', coinAt_cleanup, coinAt_nullAt]
          clean := hc' ▸ cleanup_clean _
          normal := ?_
          last := ?_
          notLast := ?_ }
      · intro hn
        rw [hc']
        apply Normal.cleanup
        intro o ho hnull'
        rcases mem_nullAt ho with hmem | rfl
        · exact hn.null o hmem hnull'
        · rfl
      · intro hp
        split at h
        · cases h
          rfl
        · cases h
          exact absurd (hempty.mpr hp) (by assumption)
      · intro hp
        split at h
        · cases h
          rw [hempty.mp (by assumption)] at hp
          cases hp
        · cases h
          rfl

theorem coinAt_fromTx (tx : CTransaction) (nHeight : Int32) (n : Nat) :
    (fromTx tx nHeight).coinAt n =
      match tx.vout[n]? with
      | some out =>
        if out.isNull || isUnspendable out.scriptPubKey then none
        else some ⟨out, tx.isCoinBase, nHeight, tx.nVersion⟩
      | none => none := by
  rw [fromTx, clearUnspendable, coinAt_cleanup, coinAt]
  simp only [nullUnspendable, getElem?_map]
  cases tx.vout[n]? with
  | none => rfl
  | some out =>
    cases hu : isUnspendable out.scriptPubKey <;> cases hn : out.isNull <;>
      simp [hu, hn, withOutput]

theorem normal_fromTx {tx : CTransaction} (h : ∀ out ∈ tx.vout, out.isNull = false)
    (nHeight : Int32) : (fromTx tx nHeight).Normal := by
  apply Normal.cleanup
  intro out hout hnull
  simp only [nullUnspendable, mem_map] at hout
  obtain ⟨out', hmem, rfl⟩ := hout
  split at hnull
  · rw [if_pos (by assumption)]
  · rw [h out' hmem] at hnull
    cases hnull

theorem clean_fromTx (tx : CTransaction) (nHeight : Int32) : (fromTx tx nHeight).Clean :=
  cleanup_clean _

end CCoins

/-! ## The whole set -/

namespace FlatMap

/-- The coin at output `n` of the transaction `t`. -/
def coinAt (m : FlatMap) (t : Uint256) (n : Nat) : Option Coin := (m t).bind fun c => c.coinAt n

variable {m : FlatMap} {t : Uint256} {c : CCoins}

theorem coinAt_eq_some_iff {n : Nat} :
    m.coinAt t n = some coin ↔ ∃ c, m t = some c ∧ c.coinAt n = some coin := by
  simp [coinAt, Option.bind_eq_some_iff]

theorem coinAt_of_some (h : m t = some c) (n : Nat) : m.coinAt t n = c.coinAt n := by
  rw [coinAt, h, Option.bind_some]

theorem coinAt_of_live (h : m t = c.live) (n : Nat) : m.coinAt t n = c.coinAt n := by
  cases hp : c.isPruned with
  | true =>
    rw [coinAt, h, live_of_pruned hp, isPruned_iff_coinAt.mp hp n]
    rfl
  | false =>
    rw [live_of_not_pruned hp] at h
    exact coinAt_of_some h n

theorem available_eq (m : FlatMap) (o : COutPoint) :
    m.available o = (m.coinAt o.hash o.n.toNat).isSome := by
  unfold available coinAt
  cases m o.hash with
  | none => rfl
  | some c => exact c.isAvailable_eq o.n

end FlatMap

end MonetaryUnit
