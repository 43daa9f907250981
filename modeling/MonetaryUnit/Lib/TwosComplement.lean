/-
# MonetaryUnit.Lib.TwosComplement — shortest big-endian two's-complement encodings

A non-empty byte string stands for an integer: its first byte carries the sign. A natural number has
many encodings, with zero bytes in front, and among them exactly one that is shortest. `Unpadded` is
the test on the first two bytes that picks it (`isShortest_iff`, `IsShortest.unique`).
-/

import MonetaryUnit.Lib.LittleEndian
import Mathlib.Tactic.Ring

namespace MonetaryUnit.Lib

open List Nat

/-! ## Big-endian numbers -/

def beNat : Bytes → Nat
  | [] => 0
  | b :: rest => b.toNat * 256 ^ rest.length + beNat rest

theorem beNat_eq (bs : Bytes) : beNat bs = leNat bs.reverse := by
  induction bs with
  | nil => rfl
  | cons b rest ih =>
    rw [beNat, ih, reverse_cons, leNat_append, length_reverse]
    simp only [leNat]
    ring

theorem beNat_lt (bs : Bytes) : beNat bs < 256 ^ bs.length := by
  simpa only [beNat_eq, length_reverse] using leNat_lt bs.reverse

variable {bs : Bytes} {bs' : Bytes} {b : UInt8}

/-- The bytes of a given number are determined by how many they are. -/
theorem beNat_injective (hlen : bs.length = bs'.length) (h : beNat bs = beNat bs') : bs = bs' := by
  rw [beNat_eq, beNat_eq] at h
  have hrev : bs.reverse = bs'.reverse := by
    rw [← leBytes_leNat bs.reverse, ← leBytes_leNat bs'.reverse, h, length_reverse, length_reverse,
      hlen]
  exact reverse_injective hrev

/-! ## Signed numbers -/

/-- The integer of a byte string: the top bit of the first byte has negative weight. -/
def twosComplement : Bytes → Int
  | [] => 0
  | b :: rest => (beNat (b :: rest) : Int) - if 128 ≤ b.toNat then 256 ^ (rest.length + 1) else 0

theorem twosComplement_nonneg {rest : Bytes} (h : b.toNat < 128) :
    twosComplement (b :: rest) = beNat (b :: rest) := by
  rw [twosComplement, if_neg (by omega), sub_zero]

theorem twosComplement_neg (rest : Bytes) (h : 128 ≤ b.toNat) : twosComplement (b :: rest) < 0 := by
  have hlt := beNat_lt (b :: rest)
  rw [twosComplement, if_pos h]
  exact sub_neg_of_lt (by exact_mod_cast hlt)

/-- The string encodes the number, and no shorter one does. -/
structure IsShortest (n : Nat) (bs : Bytes) : Prop where
  ne_nil : bs ≠ []
  value : twosComplement bs = n
  least : ∀ bs', bs' ≠ [] → twosComplement bs' = n → bs.length ≤ bs'.length

/-- The number is not negative, and a zero in front is there to keep the sign. -/
def Unpadded : Bytes → Prop
  | [] => False
  | [b] => b.toNat < 128
  | b :: c :: _ => b.toNat < 128 ∧ (b = 0 → 128 ≤ c.toNat)

theorem Unpadded.ne_nil (h : Unpadded bs) : bs ≠ [] := by
  rintro rfl
  exact h

theorem Unpadded.value (h : Unpadded bs) : twosComplement bs = beNat bs := by
  rcases bs with _ | ⟨b, _ | ⟨c, rest⟩⟩
  · exact absurd rfl h.ne_nil
  · exact twosComplement_nonneg h
  · exact twosComplement_nonneg h.1

/-- A string without padding is longer than a byte only if its number needs it. -/
theorem Unpadded.le_beNat (h : Unpadded bs) (hlen : 2 ≤ bs.length) :
    128 * 256 ^ (bs.length - 2) ≤ beNat bs := by
  rcases bs with _ | ⟨b, _ | ⟨c, rest⟩⟩
  · simp at hlen
  · simp at hlen
  · have hsub : (b :: c :: rest).length - 2 = rest.length := rfl
    rw [hsub, beNat, beNat, length_cons, pow_succ]
    by_cases hb : b = 0
    · have hc := mul_le_mul_right (256 ^ rest.length) (h.2 hb)
      omega
    · have hb' : 1 ≤ b.toNat := one_le_iff_ne_zero.mpr fun h0 => hb (UInt8.toNat_inj.mp h0)
      have hmul := mul_le_mul_right (256 ^ rest.length * 256) hb'
      omega

theorem beNat_lt_of_top (rest : Bytes) (h : b.toNat < 128) :
    beNat (b :: rest) < 128 * 256 ^ rest.length := by
  have hlt := beNat_lt rest
  have hmul := mul_le_mul_right (256 ^ rest.length) h
  rw [succ_mul] at hmul
  rw [beNat]
  omega

theorem Unpadded.isShortest (h : Unpadded bs) : IsShortest (beNat bs) bs where
  ne_nil := h.ne_nil
  value := h.value
  least := fun bs' hne hval => by
    obtain ⟨b, rest, rfl⟩ := exists_cons_of_ne_nil hne
    have hb : b.toNat < 128 := by
      by_contra hge
      have hneg := twosComplement_neg rest (Nat.le_of_not_lt hge)
      omega
    rw [twosComplement_nonneg hb] at hval
    have hlt := beNat_lt_of_top rest hb
    by_contra hlong
    rw [length_cons] at hlong
    have hle := h.le_beNat (by omega)
    have hmono : 256 ^ rest.length ≤ 256 ^ (bs.length - 2) :=
      Nat.pow_le_pow_right (by decide) (by omega)
    omega

/-- The test on the first two bytes finds the shortest encodings. -/
theorem isShortest_iff {n : Nat} : IsShortest n bs ↔ Unpadded bs ∧ twosComplement bs = n := by
  constructor
  · intro h
    refine ⟨?_, h.value⟩
    have htop : ∀ {b : UInt8} {rest : Bytes}, bs = b :: rest → b.toNat < 128 := by
      intro b rest heq
      by_contra hge
      have hneg := twosComplement_neg rest (Nat.le_of_not_lt hge)
      rw [← heq, h.value] at hneg
      omega
    rcases bs with _ | ⟨b, _ | ⟨c, rest⟩⟩
    · exact absurd rfl h.ne_nil
    · exact htop rfl
    · have hb : b.toNat < 128 := htop rfl
      refine ⟨hb, fun hzero => ?_⟩
      by_contra hc
      -- without the zero the string has the same value
      have hvalue := h.value
      rw [twosComplement_nonneg hb, beNat, hzero] at hvalue
      have hshort := h.least (c :: rest) (cons_ne_nil c rest) (by
        rw [twosComplement_nonneg (Nat.lt_of_not_le hc), ← hvalue]
        simp)
      simp at hshort
  · rintro ⟨h, hval⟩
    have hn : beNat bs = n := by
      rw [h.value] at hval
      exact_mod_cast hval
    exact hn ▸ h.isShortest

/-- A number has one shortest encoding. -/
theorem IsShortest.unique {n : Nat} (h : IsShortest n bs) (h' : IsShortest n bs') : bs = bs' := by
  obtain ⟨hu, hval⟩ := isShortest_iff.mp h
  obtain ⟨hu', hval'⟩ := isShortest_iff.mp h'
  rw [hu.value, Int.natCast_inj] at hval
  rw [hu'.value, Int.natCast_inj] at hval'
  have hlen : bs.length = bs'.length := le_antisymm (h.least bs' h'.ne_nil h'.value)
    (h'.least bs h.ne_nil h.value)
  exact beNat_injective hlen (hval.trans hval'.symm)

end MonetaryUnit.Lib
