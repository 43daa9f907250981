/-
# MonetaryUnit.Lib.Limbs — numbers as lists of 32-bit words

A list of 32-bit words, the least significant first, stands for a number in base `2 ^ 32`.
Loops that go through the words with a carry are followed by `mod_limb`, which splits a remainder
modulo a product; operations that move bits are followed by `testBit_limbVal`, which finds a bit
of the number in its word.
-/

import Mathlib.Data.Nat.Bitwise
import Mathlib.Data.Nat.Size
import Mathlib.Tactic.Ring

namespace MonetaryUnit.Lib

open List Nat

def limbVal : List UInt32 → Nat
  | [] => 0
  | d :: ds => d.toNat + 2 ^ 32 * limbVal ds

theorem limbVal_lt (ds : List UInt32) : limbVal ds < 2 ^ (32 * ds.length) := by
  induction ds with
  | nil => exact one_pos
  | cons d ds ih =>
    have hd := d.toNat_lt
    rw [limbVal, length_cons, mul_add, add_comm, pow_add, mul_comm (2 ^ (32 * ds.length))]
    calc 2 ^ 32 * limbVal ds + d.toNat < 2 ^ 32 * limbVal ds + 2 ^ 32 := by omega
      _ = 2 ^ 32 * (limbVal ds + 1) := by ring
      _ ≤ 2 ^ 32 * 2 ^ (32 * ds.length) := mul_le_mul_left _ ih

theorem limbVal_append (ds es : List UInt32) :
    limbVal (ds ++ es) = limbVal ds + 2 ^ (32 * ds.length) * limbVal es := by
  induction ds with
  | nil => simp [limbVal]
  | cons d ds ih =>
    rw [cons_append, limbVal, limbVal, ih, length_cons]
    ring

theorem limbVal_replicate_zero (n : Nat) : limbVal (replicate n 0) = 0 := by
  induction n with
  | zero => rfl
  | succ n ih =>
    rw [replicate_succ, limbVal, ih]
    rfl

/-- One step of a loop with a carry: the word and the carry that a column leaves. -/
theorem mod_limb (n rest m : Nat) : (n + 2 ^ 32 * rest) % 2 ^ (32 * (m + 1)) =
      n % 2 ^ 32 + 2 ^ 32 * ((n / 2 ^ 32 + rest) % 2 ^ (32 * m)) := by
  rw [mul_add, add_comm (32 * m), pow_add, mod_mul,
    add_mul_mod_self_left, add_mul_div_left _ _ (by decide)]

/-- A bit of the number is a bit of the word that it falls into. -/
theorem testBit_limbVal (ds : List UInt32) (p : Nat) :
    (limbVal ds).testBit p = (ds[p / 32]?.getD 0).toNat.testBit (p % 32) := by
  induction ds generalizing p with
  | nil => simp [limbVal]
  | cons d ds ih =>
    rw [limbVal, add_comm, testBit_two_pow_mul_add _ d.toNat_lt]
    split_ifs with hp
    · rw [div_eq_of_lt hp, mod_eq_of_lt hp]
      rfl
    · rw [ih, show p / 32 = (p - 32) / 32 + 1 by omega, show p % 32 = (p - 32) % 32 by omega,
        getElem?_cons_succ]

/-- The size of a number that continues above position `n`. -/
theorem size_add_two_pow_mul {n low x : Nat} (hlow : low < 2 ^ n) (hx : x ≠ 0) :
    (low + 2 ^ n * x).size = n + x.size := by
  obtain ⟨k, hk⟩ : ∃ k, x.size = k + 1 :=
    exists_eq_succ_of_ne_zero (size_pos.mpr (pos_of_ne_zero hx)).ne'
  have hlt : x + 1 ≤ 2 ^ x.size := lt_size_self x
  have hge : 2 ^ k ≤ x := lt_size.mp (hk ▸ lt_succ_self k)
  apply le_antisymm
  · rw [size_le]
    calc low + 2 ^ n * x < 2 ^ n + 2 ^ n * x := Nat.add_lt_add_right hlow _
      _ = 2 ^ n * (x + 1) := by ring
      _ ≤ 2 ^ n * 2 ^ x.size := mul_le_mul_left _ hlt
      _ = 2 ^ (n + x.size) := (pow_add ..).symm
  · have hpow : 2 ^ (n + k) ≤ low + 2 ^ n * x := by
      rw [pow_add]
      exact (mul_le_mul_left _ hge).trans (le_add_left _ _)
    rw [hk]
    exact lt_size.mpr hpow

end MonetaryUnit.Lib
