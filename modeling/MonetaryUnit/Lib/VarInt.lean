/-
# MonetaryUnit.Lib.VarInt — numbers in base 128 with a continuation bit

Most significant digit first; every byte but the last has its high bit set, and for each such
byte one is added after its digit is shifted in. Without that addition a leading zero digit
would give a second encoding; with it the encoding is a bijection.

The writer fills a buffer of a given number of bytes from the end, and the reader works modulo a
power of two, so both sides carry a bound: `readVarInt_varInt` is for numbers that fit both.
-/

import MonetaryUnit.Lib.Codec
import Mathlib.Tactic.Ring

namespace MonetaryUnit.Lib

open List Reader Nat

/-- The digits of `n`, the last one with the continuation bit if `more`. The first argument is
the size of the buffer. -/
def varInt : Nat → Bool → Nat → Bytes
  | 0, _, _ => []
  | size + 1, more, n =>
    let digit := UInt8.ofNat (n % 128 + if more then 128 else 0)
    if n ≤ 127 then [digit] else varInt size true (n / 128 - 1) ++ [digit]

/-- The number of digits. -/
def varIntSize : Nat → Nat → Nat
  | 0, _ => 0
  | size + 1, n => if n ≤ 127 then 1 else varIntSize size (n / 128 - 1) + 1

/-- One digit after the other, modulo `modulus`. -/
def readVarIntLoop (msg : String) (modulus : Nat) : Nat → Nat → Reader Nat
  | 0, _ => throw msg
  | fuel + 1, n => do
    let chData ← readLE msg 1
    let n' := (n * 128 + chData % 128) % modulus
    if chData ≥ 128 then readVarIntLoop msg modulus fuel ((n' + 1) % modulus) else pure n'

/-- Every round takes a byte, so a round for every byte and one for the end are enough. -/
def readVarInt (msg : String) (modulus : Nat) : Reader Nat := fun s =>
  readVarIntLoop msg modulus (s.length + 1) 0 s

theorem length_varInt (size : Nat) (more : Bool) (n : Nat) :
    (varInt size more n).length = varIntSize size n := by
  induction size generalizing more n with
  | zero => rfl
  | succ size ih =>
    rw [varInt, varIntSize]
    split
    · rfl
    · rw [length_append, ih, length_singleton]

variable {msg : String} {modulus size fuel n : Nat} {rest : Bytes}

/-- One round of the loop on a digit. -/
theorem readVarIntLoop_digit {d : Nat} (more : Bool) (hd : d < 128) (hfit : n * 128 + d < modulus) :
    readVarIntLoop msg modulus (fuel + 1) n ([UInt8.ofNat (d + if more then 128 else 0)] ++ rest) =
      if more then readVarIntLoop msg modulus fuel ((n * 128 + d + 1) % modulus) rest
      else .ok (n * 128 + d, rest) := by
  have hread : ∀ b < 256, readLE msg 1 ([UInt8.ofNat b] ++ rest) = .ok (b, rest) :=
    fun b hb => (canonical_readLE msg 1).read_write rest hb
  rw [readVarIntLoop]
  cases more with
  | true =>
    have hdigit : (d + 128) % 128 = d := by omega
    simp only [if_true]
    rw [bind_of_ok (hread _ (by omega)), hdigit, mod_eq_of_lt hfit,
      if_pos (show d + 128 ≥ 128 by omega)]
  | false =>
    have hdigit : d % 128 = d := by omega
    simp only [Bool.false_eq_true, if_false, add_zero]
    rw [bind_of_ok (hread _ (by omega)), hdigit, mod_eq_of_lt hfit, if_neg (show ¬d ≥ 128 by omega)]
    rfl

/-- The loop over all digits of a number: after the last one it goes on with the next number, or
ends with this one. -/
theorem readVarIntLoop_varInt (more : Bool) (hsize : n < 128 ^ (size + 1)) (hfit : n < modulus) :
    readVarIntLoop msg modulus (fuel + varIntSize (size + 1) n) 0
        (varInt (size + 1) more n ++ rest) =
      if more then readVarIntLoop msg modulus fuel ((n + 1) % modulus) rest
      else .ok (n, rest) := by
  induction size generalizing fuel n more rest with
  | zero =>
    have hsmall : n ≤ 127 := by omega
    have hdigit : n % 128 = n := by omega
    have hround := @readVarIntLoop_digit msg modulus fuel 0 rest n more (by omega) (by omega)
    rw [Nat.zero_add] at hround
    rw [varInt, varIntSize, if_pos hsmall, if_pos hsmall, hdigit]
    exact hround
  | succ size ih =>
    rw [varInt, varIntSize]
    rcases lt_or_ge 127 n with hlarge | hsmall
    · -- the digits in front stand for `n / 128 - 1`, and lead to `n / 128`
      have hfront := @ih (fuel + 1) (n / 128 - 1)
        ([UInt8.ofNat (n % 128 + if more then 128 else 0)] ++ rest) true (by omega) (by omega)
      have hlast := @readVarIntLoop_digit msg modulus fuel (n / 128) rest (n % 128) more
        (by omega) (by omega)
      have hnext : (n / 128 - 1 + 1) % modulus = n / 128 := by
        rw [mod_eq_of_lt (by omega)]
        omega
      have hwhole : n / 128 * 128 + n % 128 = n := by omega
      rw [hnext] at hfront
      rw [hwhole] at hlast
      rw [if_neg (not_le.mpr hlarge), if_neg (not_le.mpr hlarge), append_assoc,
        add_comm _ 1, ← add_assoc, hfront]
      exact hlast
    · have hdigit : n % 128 = n := by omega
      have hround := @readVarIntLoop_digit msg modulus fuel 0 rest n more (by omega) (by omega)
      rw [Nat.zero_add] at hround
      rw [if_pos hsmall, if_pos hsmall, hdigit]
      exact hround

/-- A number that fits the buffer and the modulus is read back, in
front of any bytes. -/
theorem readVarInt_varInt (hsize : n < 128 ^ (size + 1)) (hfit : n < modulus) :
    readVarInt msg modulus (varInt (size + 1) false n ++ rest) = .ok (n, rest) := by
  have hloop := @readVarIntLoop_varInt msg modulus size (rest.length + 1) n rest false hsize hfit
  have hfuel : (varInt (size + 1) false n ++ rest).length + 1 =
      rest.length + 1 + varIntSize (size + 1) n := by
    rw [length_append, length_varInt]
    omega
  rw [readVarInt, hfuel]
  exact hloop

end MonetaryUnit.Lib
