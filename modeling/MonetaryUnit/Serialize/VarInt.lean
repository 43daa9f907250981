/-
# MonetaryUnit.Serialize.VarInt — variable-length integers are a bijection

`WriteVarInt` against the formula in the comment above it: the numbers of a width and the byte
strings of that form whose value fits the width correspond to each other. In `Lib.VarInt` the loops
stop where the buffer ends; here they do not, and `none` is a digit outside the buffer.
-/

import MonetaryUnit.Serialize.Compressor
import Mathlib.Algebra.BigOperators.Intervals
import Mathlib.Algebra.BigOperators.Ring.Finset
import Mathlib.Data.List.GetD

namespace MonetaryUnit

open Lib List

/-- The rounds of the loop in `GetSizeOfVarInt`. -/
def varIntRounds (n : Nat) : Nat :=
  if n ≤ 0x7F then 1 else varIntRounds (n / 128 - 1) + 1
termination_by n
decreasing_by omega

/-- The room that is left in `tmp`, whether digits have been written, and the number. -/
def checkedVarInt : Nat → Bool → Nat → Option Bytes
  | 0, _, _ => none
  | room + 1, more, n =>
    let digit := UInt8.ofNat (n % 128 + if more then 0x80 else 0)
    if n ≤ 0x7F then some [digit] else (checkedVarInt room true (n / 128 - 1)).map (· ++ [digit])

/-- The documented value. -/
def varIntValue (a : Bytes) : Nat := (a.getD (a.length - 1) 0).toNat % 128 +
    ∑ i ∈ Finset.Ico 1 a.length, 128 ^ i * ((a.getD (a.length - i - 1) 0).toNat % 128 + 1)

theorem checkedVarInt_eq {room n : Nat} (more : Bool) (hn : n < 128 ^ (room + 1)) :
    checkedVarInt (room + 1) more n = some (varInt (room + 1) more n) ∧
      varIntSize (room + 1) n = varIntRounds n ∧ varIntRounds n ≤ room + 1 := by
  induction room generalizing more n with
  | zero =>
    have hsmall : n ≤ 127 := by omega
    rw [checkedVarInt, varInt, varIntSize, varIntRounds]
    exact ⟨by simp only [if_pos hsmall], by simp only [if_pos hsmall], (if_pos hsmall).le⟩
  | succ room ih =>
    rw [checkedVarInt, varInt, varIntSize, varIntRounds]
    by_cases hsmall : n ≤ 127
    · simp only [if_pos hsmall, true_and]
      exact Nat.le_add_left _ _
    · obtain ⟨hwrite, hsize, hle⟩ := @ih (n / 128 - 1) true (by omega)
      simp only [if_neg hsmall, hwrite, hsize, Option.map_some, true_and]
      exact Nat.succ_le_succ hle

variable {a : Bytes} {b : UInt8}

/-- One more digit. -/
theorem varIntValue_concat (ha : a ≠ []) (b : UInt8) :
    varIntValue (a ++ [b]) = b.toNat % 128 + 128 * (varIntValue a + 1) := by
  have hpos := length_pos_iff.mpr ha
  have hdigit : ∀ i ∈ Finset.range a.length,
      128 ^ (1 + i) * (((a ++ [b]).getD (a.length + 1 - (1 + i) - 1) 0).toNat % 128 + 1) =
        128 * (128 ^ i * ((a.getD (a.length - i - 1) 0).toNat % 128 + 1)) := by
    intro i hi
    rw [getD_append _ _ _ _ (by omega), show a.length + 1 - (1 + i) - 1 = a.length - i - 1 by omega]
    ring
  rw [varIntValue, varIntValue, length_append, length_singleton, Nat.add_sub_cancel,
    getD_append_right _ _ _ _ le_rfl, Nat.sub_self, Finset.sum_Ico_eq_sum_range,
    Nat.add_sub_cancel, Finset.sum_congr rfl hdigit, ← Finset.mul_sum, Finset.range_eq_Ico,
    Finset.sum_eq_sum_Ico_succ_bot hpos]
  simp only [getD_cons_zero, pow_zero, one_mul, Nat.sub_zero]
  ring

/-- A byte is its digit and its high bit. -/
theorem ofNat_digit {more : Bool} (h : 128 ≤ b.toNat ↔ more = true) :
    UInt8.ofNat (b.toNat % 128 + if more then 0x80 else 0) = b := by
  have hb := b.toNat_lt
  apply UInt8.toNat_inj.mp
  rw [UInt8.toNat_ofNat']
  split_ifs with hmore
  · have hhigh := h.mpr hmore
    omega
  · have hlow := mt h.mp hmore
    omega

/-- The encoder finds the byte string again from its value. -/
theorem checkedVarInt_value {more : Bool} {room : Nat} (ha : ∀ x ∈ a, 128 ≤ x.toNat)
    (hb : 128 ≤ b.toNat ↔ more = true) (hfit : varIntValue (a ++ [b]) < 128 ^ (room + 1)) :
    checkedVarInt (room + 1) more (varIntValue (a ++ [b])) = some (a ++ [b]) := by
  induction a using List.reverseRecOn generalizing b more room with
  | nil =>
    have hvalue : varIntValue ([] ++ [b]) = b.toNat % 128 := by simp [varIntValue]
    rw [hvalue, checkedVarInt, Nat.mod_mod, ofNat_digit hb]
    exact if_pos (by omega)
  | append_singleton a c ih =>
    have hvalue := varIntValue_concat (concat_ne_nil c a) b
    have hlow := Nat.mod_lt b.toNat (show 128 > 0 by decide)
    rw [hvalue] at hfit ⊢
    -- the digits in front have a buffer of their own
    obtain ⟨room, rfl⟩ : ∃ k, room = k + 1 := by
      refine Nat.exists_eq_succ_of_ne_zero fun hzero => ?_
      rw [hzero] at hfit
      omega
    have hfront := @ih c true room (fun x hx => ha x (mem_append_left _ hx))
      (iff_of_true (ha c (mem_append_right _ (mem_singleton_self c))) rfl) (by omega)
    rw [checkedVarInt, Nat.add_mul_mod_self_left, Nat.mod_mod, ofNat_digit hb,
      Nat.add_mul_div_left _ _ (by decide), Nat.div_eq_of_lt hlow, Nat.zero_add,
      Nat.add_sub_cancel, hfront]
    exact if_neg (by omega)

/-- The functions for an unsigned type of `sizeof` bytes. -/
def VarIntCode (sizeof : Nat) : Prop := (∀ n < 2 ^ (8 * sizeof),
    checkedVarInt ((sizeof * 8 + 6) / 7) false n = some (writeVarInt sizeof n).bytes ∧
    (writeVarInt sizeof n).bytes.length = getSizeOfVarInt sizeof n ∧
    getSizeOfVarInt sizeof n = varIntRounds n ∧ varIntRounds n ≤ (sizeof * 8 + 6) / 7 ∧
    ∀ msg rest, readVarInt msg (2 ^ (8 * sizeof)) ((writeVarInt sizeof n).bytes ++ rest) =
      .ok (n, rest)) ∧
  ∀ (front : Bytes) (last : UInt8), (∀ b ∈ front, 128 ≤ b.toNat) → last.toNat < 128 →
    varIntValue (front ++ [last]) < 2 ^ (8 * sizeof) → ∃ n < 2 ^ (8 * sizeof),
      (∀ msg, readVarInt msg (2 ^ (8 * sizeof)) (front ++ [last]) = .ok (n, [])) ∧
      (writeVarInt sizeof n).bytes = front ++ [last]

theorem varIntCode_of {sizeof room : Nat} (hroom : (sizeof * 8 + 6) / 7 = room + 1)
    (hw : 2 ^ (8 * sizeof) ≤ 128 ^ (room + 1)) : VarIntCode sizeof := by
  simp only [VarIntCode, bytes_writeVarInt, getSizeOfVarInt, hroom]
  constructor
  · intro n hn
    obtain ⟨hwrite, hsize, hle⟩ := checkedVarInt_eq false (hn.trans_le hw)
    exact ⟨hwrite, length_varInt _ _ _, hsize, hle,
      fun _ _ => readVarInt_varInt (hn.trans_le hw) hn⟩
  · intro front last hfront hlast hfit
    have hwrite := @checkedVarInt_value _ _ false _ hfront
      (iff_of_false (not_le.mpr hlast) Bool.false_ne_true) (hfit.trans_le hw)
    rw [(checkedVarInt_eq false (hfit.trans_le hw)).1, Option.some_inj] at hwrite
    refine ⟨_, hfit, fun msg => ?_, hwrite⟩
    have hread := @readVarInt_varInt msg _ room _ [] (hfit.trans_le hw) hfit
    rwa [hwrite, append_nil] at hread

/-- **`varInt_bijection`** — of 32 and of 64 bits. -/
theorem varInt_bijection : VarIntCode 4 ∧ VarIntCode 8 :=
  ⟨@varIntCode_of 4 4 rfl (by decide), @varIntCode_of 8 9 rfl (by decide)⟩

end MonetaryUnit
