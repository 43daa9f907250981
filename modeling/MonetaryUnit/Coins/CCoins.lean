/-
# MonetaryUnit.Coins.CCoins — the unspent outputs of one transaction

`CCoins` of `coins.h`: the outputs of a transaction that are still unspent, with the
transaction's height, version and coinbase flag. A spent output stays in `vout` as a
null output until everything after it is spent too; `Cleanup` then drops the tail.

`operator==` identifies all pruned entries, whatever their other fields hold. `live`
makes that identification computable: a pruned entry becomes `none`.
-/

import MonetaryUnit.Primitives.Transaction
import Mathlib.Data.List.DropRight

namespace MonetaryUnit

open List

/-- `OP_RETURN`, the opcode that makes an output provably unspendable. -/
def opReturn : UInt8 := 0x6a

/-- `CScript::IsUnspendable`: the script is not empty and starts with `OP_RETURN`. -/
def isUnspendable : CScript → Bool
  | [] => false
  | b :: _ => b == opReturn

structure CCoins where
  fCoinBase : Bool := false
  vout : List CTxOut := []
  nHeight : Int32 := 0
  nVersion : Int32 := 0
deriving DecidableEq, Repr

namespace CCoins

/-- `CCoins::Clear` and the empty constructor leave the same object. -/
def cleared : CCoins := {}

/-- Nothing is left to spend. -/
def isPruned (c : CCoins) : Bool := c.vout.all CTxOut.isNull

/-- Drop spent outputs at the end. -/
def cleanup (c : CCoins) : CCoins := { c with vout := c.vout.rdropWhile CTxOut.isNull }

def isAvailable (c : CCoins) (nPos : UInt32) : Bool :=
  match c.vout[nPos.toNat]? with
  | some out => !out.isNull
  | none => false

/-- The loop of `ClearUnspendable`, without its final `Cleanup`. -/
def nullUnspendable (vout : List CTxOut) : List CTxOut :=
  vout.map fun out => if isUnspendable out.scriptPubKey then CTxOut.null else out

def clearUnspendable (c : CCoins) : CCoins := cleanup { c with vout := nullUnspendable c.vout }

def fromTx (tx : CTransaction) (nHeightIn : Int32) : CCoins := clearUnspendable
    { fCoinBase := tx.isCoinBase, vout := tx.vout, nHeight := nHeightIn, nVersion := tx.nVersion }

/-- `CCoins::Spend`: `none` where the code returns false. The undo record carries the
metadata only when this was the last unspent output. -/
def spend (c : CCoins) (out : COutPoint) : Option (CTxInUndo × CCoins) :=
  match c.vout[out.n.toNat]? with
  | none => none
  | some prev =>
    if prev.isNull then none
    else
      let c' := cleanup { c with vout := c.vout.set out.n.toNat CTxOut.null }
      let undo : CTxInUndo := { txout := prev }
      if c'.vout.length = 0 then
        some ({ undo with
          nHeight := c'.nHeight.toUInt32, fCoinBase := c'.fCoinBase, nVersion := c'.nVersion }, c')
      else some (undo, c')

/-- `operator==`: empty objects are always equal, other objects are compared field by field. -/
def eqv (a b : CCoins) : Bool :=
  if a.isPruned && b.isPruned then true
  else a.fCoinBase == b.fCoinBase && a.nHeight == b.nHeight && a.nVersion == b.nVersion &&
    a.vout == b.vout

/-! ## The identification of pruned entries -/

/-- The entry with all pruned entries sent to `none`. -/
def live (c : CCoins) : Option CCoins := if c.isPruned then none else some c

variable {c : CCoins}

theorem live_of_pruned (h : c.isPruned = true) : c.live = none := by
  simp [live, h]

theorem live_of_not_pruned (h : c.isPruned = false) : c.live = some c := by
  simp [live, h]

@[simp] theorem live_cleared : cleared.live = none := rfl

theorem live_eq_some_iff {d : CCoins} : c.live = some d ↔ c.isPruned = false ∧ c = d := by
  unfold live
  split <;> simp_all

/-- `live` has exactly the equality of the code's `operator==`. -/
theorem eqv_iff_live {a b : CCoins} : a.eqv b = true ↔ a.live = b.live := by
  have hne : a.isPruned ≠ b.isPruned → a.vout ≠ b.vout := by
    intro hp h
    exact hp (by rw [isPruned, h, isPruned])
  unfold eqv live
  cases ha : a.isPruned <;> cases hb : b.isPruned <;> rw [ha, hb] at hne
  · simp only [Bool.and_self, Bool.false_eq_true, if_false, Bool.and_eq_true, beq_iff_eq,
      Option.some.injEq]
    constructor
    · rintro ⟨⟨⟨h1, h2⟩, h3⟩, h4⟩
      cases a
      simp_all
    · rintro rfl
      simp
  · simp [hne (by decide)]
  · simp [hne (by decide)]
  · simp

/-! ## Cleanup -/

/-- The invariant `Cleanup` establishes: no null output at the end. -/
def Clean (c : CCoins) : Prop := ∀ o, c.vout.getLast? = some o → o.isNull = false

instance (c : CCoins) : Decidable c.Clean :=
  match h : c.vout.getLast? with
  | none => isTrue (by intro o ho; rw [h] at ho; cases ho)
  | some o => decidable_of_iff (o.isNull = false) (by simp [Clean, h])

theorem cleanup_clean (c : CCoins) : c.cleanup.Clean := by
  intro o ho
  have hne : c.vout.rdropWhile CTxOut.isNull ≠ [] := by
    intro h
    simp [cleanup, h] at ho
  have hlast := rdropWhile_last_not CTxOut.isNull c.vout hne
  have : o = (c.vout.rdropWhile CTxOut.isNull).getLast hne := by
    have ho' : (c.vout.rdropWhile CTxOut.isNull).getLast? = some o := ho
    rw [getLast?_eq_some_getLast hne] at ho'
    exact (Option.some.inj ho').symm
  rw [this]
  simpa using hlast

theorem cleanup_of_clean (h : c.Clean) : c.cleanup = c := by
  have hlist : c.vout.rdropWhile CTxOut.isNull = c.vout := by
    rw [rdropWhile_eq_self_iff]
    intro hne
    have hlast := h _ (getLast?_eq_some_getLast hne)
    simp [hlast]
  cases c
  simpa [cleanup] using hlist

/-- On trimmed coins `vout.empty()` and `IsPruned()` agree. -/
theorem Clean.isEmpty_eq (h : c.Clean) : c.vout.isEmpty = c.isPruned := by
  cases hl : c.vout.getLast? with
  | none =>
    rw [getLast?_eq_none_iff] at hl
    simp [isPruned, hl]
  | some o =>
    have hnull := h o hl
    have hmem : o ∈ c.vout := mem_of_getLast? hl
    have hne : c.vout ≠ [] := ne_nil_of_mem hmem
    have hp : c.isPruned = false := by
      rw [isPruned, all_eq_false]
      exact ⟨o, hmem, by simp [hnull]⟩
    rw [hp]
    simpa using hne

theorem isAvailable_of_pruned (h : c.isPruned = true) (n : UInt32) : c.isAvailable n = false := by
  unfold isAvailable
  cases ho : c.vout[n.toNat]? with
  | none => rfl
  | some o =>
    have hnull : o.isNull = true := all_eq_true.mp h o (mem_of_getElem? ho)
    simp [hnull]

theorem isPruned_cleanup (c : CCoins) : c.cleanup.isPruned = c.isPruned := by
  have key : ∀ l : List CTxOut, (l.rdropWhile CTxOut.isNull).all CTxOut.isNull
      = l.all CTxOut.isNull := by
    intro l
    induction l using reverseRecOn with
    | nil => rfl
    | append_singleton l o ih =>
      by_cases ho : o.isNull = true
      · rw [rdropWhile_concat_pos _ _ _ ho, ih]
        simp [ho]
      · rw [rdropWhile_concat_neg _ _ _ ho]
  exact key c.vout

end CCoins

end MonetaryUnit
