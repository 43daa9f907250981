/-
# MonetaryUnit.Validation.State — how a check fails

`CValidationState` of `main.h`, as the value a failing check leaves in it: the misbehaviour
score, the reject code and reason sent to the peer, and whether the block data may merely be
corrupt. A check of the source is a function into `Except Reject`.
-/

import MonetaryUnit.Primitives.Transaction

namespace MonetaryUnit

structure Reject where
  nDoS : Nat
  chRejectCode : UInt8 := 0
  strRejectReason : String := ""
  corruptionPossible : Bool := false
deriving DecidableEq, Repr

def rejectInvalid : UInt8 := 0x10
def rejectObsolete : UInt8 := 0x11
def rejectCheckpoint : UInt8 := 0x43

/-- `state.DoS(level, …, REJECT_INVALID, reason, corruption)`. -/
def dos (level : Nat) (reason : String) (corruption : Bool := false) : Reject :=
  { nDoS := level, chRejectCode := rejectInvalid, strRejectReason := reason,
    corruptionPossible := corruption }

/-- `state.Invalid(…, code, reason)`: rejected without a misbehaviour score. -/
def invalid (code : UInt8) (reason : String) : Reject :=
  { nDoS := 0, chRejectCode := code, strRejectReason := reason }

/-- Pass when the condition holds, else fail as given. -/
def require (ok : Bool) (r : Reject) : Except Reject Unit := if ok then .ok () else .error r

theorem require_ok_iff {ok : Bool} {r : Reject} : require ok r = .ok () ↔ ok = true := by
  unfold require
  cases ok <;> simp

/-- A check that passes in a sequence of checks, and the rest of the sequence. -/
theorem bind_eq_ok {ε α β : Type} {x : Except ε α} {f : α → Except ε β} {b : β} :
    (x >>= f) = .ok b ↔ ∃ a, x = .ok a ∧ f a = .ok b := by
  cases x with
  | error e => exact ⟨nofun, fun ⟨_, h, _⟩ => nomatch h⟩
  | ok a =>
    constructor
    · intro h
      exact ⟨a, rfl, h⟩
    · rintro ⟨a', h, h'⟩
      cases h
      exact h'

theorem require_bind_eq_ok {β : Type} {ok : Bool} {r : Reject} {f : Unit → Except Reject β}
    {b : β} : (require ok r >>= f) = .ok b ↔ ok = true ∧ f () = .ok b := by
  rw [bind_eq_ok]
  constructor
  · rintro ⟨⟨⟩, h, hf⟩
    exact ⟨require_ok_iff.mp h, hf⟩
  · rintro ⟨h, hf⟩
    exact ⟨(), require_ok_iff.mpr h, hf⟩

end MonetaryUnit
