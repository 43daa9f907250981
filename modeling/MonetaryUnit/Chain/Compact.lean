/-
# MonetaryUnit.Chain.Compact — the compact form of a target

`nBits` holds a target as a floating-point number in base 256: the high byte is the size in
bytes, the low 23 bits are the leading bytes, and bit 23 is a sign. `SetCompact` and `GetCompact`
of `uint256.cpp` convert between it and a 256-bit number.

`expand` says what a size and a leading word stand for and `compactForm` which pair stands for a
number, both without a bound. `getCompact_spec` and `setCompact_value` connect the two functions
to them: packing a number rounds it down, and what it gives unpacks without a flag.
-/

import MonetaryUnit.Primitives.BaseUint

namespace MonetaryUnit

open Lib BaseUint Nat

/-! ## The code -/

/-- What `SetCompact` stores and the two flags that it reports. -/
structure SetCompact where
  value : BaseUint 8
  fNegative : Bool
  fOverflow : Bool

def setCompact (nCompact : UInt32) : SetCompact :=
  let nSize := (nCompact >>> 24).toNat
  let nWord := nCompact &&& 0x007fffff
  let nWord := if nSize ≤ 3 then nWord >>> UInt32.ofNat (8 * (3 - nSize)) else nWord
  { value :=
      if nSize ≤ 3 then BaseUint.ofUInt64 nWord.toUInt64
      else (BaseUint.ofUInt64 nWord.toUInt64 : BaseUint 8).shl (8 * (nSize - 3))
    fNegative := nWord ≠ 0 ∧ nCompact &&& 0x00800000 ≠ 0
    fOverflow := nWord ≠ 0 ∧
      (34 < nSize ∨ (0xff < nWord ∧ 33 < nSize) ∨ (0xffff < nWord ∧ 32 < nSize)) }

/-- The leading bytes of a number of `nSize` bytes. -/
def BaseUint.leadingWord (a : BaseUint 8) (nSize : Nat) : UInt32 :=
  if nSize ≤ 3 then (a.getLow64 <<< UInt64.ofNat (8 * (3 - nSize))).toUInt32
  else (BaseUint.getLow64 (a.shr (8 * (nSize - 3)))).toUInt32

/-- The end of `GetCompact`, after the word has been freed of the sign bit. -/
def packCompact (nCompact : UInt32) (nSize : Nat) (fNegative : Bool) : Option UInt32 :=
  if nCompact &&& ~~~0x007fffff = 0 ∧ nSize < 256 then
    let nCompact := nCompact ||| UInt32.ofNat nSize <<< 24
    some (nCompact ||| if fNegative ∧ nCompact &&& 0x007fffff ≠ 0 then 0x00800000 else 0)
  else none

/-- `GetCompact`; `none` is a failed assertion. -/
def BaseUint.getCompact (a : BaseUint 8) (fNegative : Bool) : Option UInt32 :=
  let nSize := (a.bits + 7) / 8
  let nCompact := a.leadingWord nSize
  if nCompact &&& 0x00800000 ≠ 0 then packCompact (nCompact >>> 8) (nSize + 1) fNegative
  else packCompact nCompact nSize fNegative

/-! ## What the form stands for -/

/-- The number that a size and a leading word stand for. -/
def expand (size word : Nat) : Nat :=
  if size ≤ 3 then word / 2 ^ (8 * (3 - size)) else word * 2 ^ (8 * (size - 3))

/-- The target that a value of `nBits` stands for. -/
def compactTarget (nCompact : UInt32) : Nat :=
  expand (nCompact.toNat / 2 ^ 24) (nCompact.toNat % 2 ^ 23)

/-- The three leading bytes of a number of `size` bytes. -/
def leading (x size : Nat) : Nat :=
  if size ≤ 3 then x * 2 ^ (8 * (3 - size)) else x / 2 ^ (8 * (size - 3))

/-- The size and the leading word that stand for a number; the word has 23 bits. -/
def compactForm (x : Nat) : Nat × Nat :=
  let size := (x.size + 7) / 8
  if leading x size < 2 ^ 23 then (size, leading x size) else (size + 1, leading x size / 256)

theorem lt_pow_size (x : Nat) : x < 2 ^ (8 * ((x.size + 7) / 8)) := size_le.mp (by omega)

variable {size x nSize : Nat} {a : BaseUint 8} {n : UInt32}

theorem leading_lt (h : x < 2 ^ (8 * size)) : leading x size < 2 ^ 24 := by
  rw [leading]
  split_ifs with hsize
  · calc x * 2 ^ (8 * (3 - size)) < 2 ^ (8 * size) * 2 ^ (8 * (3 - size)) :=
          Nat.mul_lt_mul_of_pos_right h (Nat.two_pow_pos _)
      _ = 2 ^ 24 := by
          rw [← pow_add]
          congr 1
          omega
  · rw [Nat.div_lt_iff_lt_mul (Nat.two_pow_pos _), ← Nat.pow_add]
    refine h.trans_le (Nat.pow_le_pow_right (by decide) ?_)
    omega

theorem compactForm_snd_lt (x : Nat) : (compactForm x).2 < 2 ^ 23 := by
  have hlt := leading_lt (lt_pow_size x)
  rw [compactForm]
  split_ifs with hword
  · exact hword
  · omega

theorem leading_succ (x size : Nat) : leading x (size + 1) = leading x size / 256 := by
  rw [leading, leading, show (256 : Nat) = 2 ^ 8 from rfl]
  split_ifs with hsucc hsize hsize
  · rw [show 8 * (3 - size) = 8 * (3 - (size + 1)) + 8 by omega, pow_add, ← mul_assoc,
      Nat.mul_div_cancel _ (by decide)]
  · omega
  · obtain rfl : size = 3 := by omega
    simp
  · rw [Nat.div_div_eq_div_mul, ← Nat.pow_add,
      show 8 * (size - 3) + 8 = 8 * (size + 1 - 3) by omega]

theorem two_pow_le_leading_iff (hsize : 1 ≤ size) :
    2 ^ 23 ≤ leading x size ↔ 2 ^ (8 * size - 1) ≤ x := by
  rw [leading]
  split_ifs with hle
  · rw [show 23 = 8 * size - 1 + 8 * (3 - size) by omega, pow_add,
      Nat.mul_le_mul_right_iff (Nat.two_pow_pos _)]
  · rw [Nat.le_div_iff_mul_le (Nat.two_pow_pos _), ← Nat.pow_add,
      show 23 + 8 * (size - 3) = 8 * size - 1 by omega]

/-- The bytes of a number that leave room for a sign. -/
def signedBytes (x : Nat) : Nat :=
  if x = 0 then 0 else x.size / 8 + 1

theorem compactForm_eq (x : Nat) : compactForm x = (signedBytes x, leading x (signedBytes x)) := by
  rw [compactForm, signedBytes]
  split_ifs with hword hzero hzero
  · rw [hzero]
    rfl
  · have hpos := size_pos.mpr (pos_of_ne_zero hzero)
    rw [← not_le, two_pow_le_leading_iff (by omega), ← lt_size] at hword
    rw [show (x.size + 7) / 8 = x.size / 8 + 1 by omega]
  · exact absurd (hzero ▸ by decide) hword
  · have hpos := size_pos.mpr (pos_of_ne_zero hzero)
    rw [not_lt, two_pow_le_leading_iff (by omega), ← lt_size] at hword
    rw [← leading_succ, show (x.size + 7) / 8 = x.size / 8 by omega]

/-- A packed number loses the digits below its leading bytes. -/
def lostBits (x : Nat) : Nat := 8 * (x.size / 8 - 2)

def rounded (x : Nat) : Nat := x / 2 ^ lostBits x * 2 ^ lostBits x

theorem lostBits_eq (x : Nat) : 8 * (signedBytes x - 3) = lostBits x := by
  rw [signedBytes, lostBits]
  split_ifs with hzero
  · rw [hzero]
    rfl
  · omega

theorem rounded_le (x : Nat) : rounded x ≤ x := div_mul_le_self _ _

theorem rounded_of_bytes (h : signedBytes x ≤ 3) : rounded x = x := by
  rw [rounded, ← lostBits_eq, Nat.sub_eq_zero_of_le h]
  omega

/-- Packing a number rounds it down. -/
theorem expand_compactForm (x : Nat) : expand (compactForm x).1 (compactForm x).2 = rounded x := by
  rw [compactForm_eq, expand, leading, lostBits_eq]
  split_ifs with hsize
  · rw [rounded_of_bytes hsize, Nat.mul_div_cancel _ (Nat.two_pow_pos _)]
  · rfl

/-- The rounded number is as long as the number. -/
theorem size_rounded (x : Nat) : (rounded x).size = x.size := by
  apply le_antisymm (size_le_size (rounded_le x))
  rcases Nat.eq_zero_or_pos x with rfl | hx
  · decide
  have hpos := size_pos.mpr hx
  have hle : lostBits x ≤ x.size - 1 := by
    rw [lostBits]
    omega
  have hfirst : 2 ^ (x.size - 1) ≤ x := lt_size.mp (by omega)
  have hdiv := Nat.div_le_div_right (c := 2 ^ lostBits x) hfirst
  rw [Nat.pow_div hle (by decide)] at hdiv
  have hmul := mul_le_mul_right (2 ^ lostBits x) hdiv
  rw [← pow_add, ← rounded, ← lt_size] at hmul
  omega

theorem rounded_eq_zero_iff (x : Nat) : rounded x = 0 ↔ x = 0 := by
  rw [← size_eq_zero, size_rounded, size_eq_zero]

theorem rounded_mono {x1 x2 : Nat} (h : x1 ≤ x2) : rounded x1 ≤ rounded x2 := by
  by_cases heq : lostBits x1 = lostBits x2
  · rw [rounded, heq]
    exact Nat.mul_le_mul_right _ (Nat.div_le_div_right h)
  · -- a longer number is still longer when it has been rounded
    have hsize : x1.size < (rounded x2).size := by
      have hle := size_le_size h
      rw [lostBits, lostBits] at heq
      rw [size_rounded]
      omega
    exact (rounded_le x1).trans ((lt_size_self x1).le.trans (lt_size.mp hsize))

theorem sub_rounded_lt (x : Nat) : x - rounded x < 2 ^ (8 * ((x.size + 7) / 8 - 2)) := by
  have hdiv : rounded x + x % 2 ^ lostBits x = x := div_add_mod' x (2 ^ lostBits x)
  have hle : 2 ^ lostBits x ≤ 2 ^ (8 * ((x.size + 7) / 8 - 2)) :=
    Nat.pow_le_pow_right (by decide) (by rw [lostBits]; omega)
  omega

/-- The rounded number packs to the same. -/
theorem compactForm_rounded (x : Nat) : compactForm (rounded x) = compactForm x := by
  have hbytes : signedBytes (rounded x) = signedBytes x := by
    simp only [signedBytes, rounded_eq_zero_iff, size_rounded]
  rw [compactForm_eq, compactForm_eq, hbytes, leading, leading, lostBits_eq]
  split_ifs with hsize
  · rw [rounded_of_bytes hsize]
  · rw [rounded, Nat.mul_div_cancel _ (Nat.two_pow_pos _)]

/-! ## Words -/

theorem and_mul_two_pow_eq_zero {k : Nat} (h : x < 2 ^ k) (j : Nat) : x &&& 2 ^ k * j = 0 := by
  refine eq_of_testBit_eq fun i => ?_
  rw [testBit_and, zero_testBit, mul_comm, testBit_mul_two_pow]
  by_cases hi : k ≤ i
  · rw [Nat.testBit_lt_two_pow (h.trans_le (Nat.pow_le_pow_right (by decide) hi)), Bool.false_and]
  · rw [decide_eq_false hi, Bool.false_and, Bool.and_false]

theorem signBit_ne_zero_iff (n : UInt32) : n &&& 0x00800000 ≠ 0 ↔ n.toNat / 2 ^ 23 % 2 = 1 := by
  have hbit := and_bit_ne_zero_iff n (show 23 < 32 by decide)
  rw [show (1 <<< UInt32.ofNat 23 : UInt32) = 0x00800000 from rfl] at hbit
  rw [hbit, testBit_eq_decide_div_mod_eq, decide_eq_true_eq]

namespace BaseUint

theorem toNat_leadingWord (h : a.toNat < 2 ^ (8 * nSize)) :
    (a.leadingWord nSize).toNat = leading a.toNat nSize := by
  have hlt := leading_lt h
  rw [leading] at hlt
  rw [leadingWord, leading]
  split_ifs at hlt ⊢ with hsize
  · have hshift : (UInt64.ofNat (8 * (3 - nSize))).toNat % 64 = 8 * (3 - nSize) := by
      rw [UInt64.toNat_ofNat']
      omega
    have ha : a.toNat < 2 ^ 64 := h.trans_le (Nat.pow_le_pow_right (by decide) (by omega))
    rw [UInt64.toNat_toUInt32, UInt64.toNat_shiftLeft, hshift, toNat_getLow64,
      mod_eq_of_lt ha, shiftLeft_eq, mod_mod_of_dvd _ (by decide),
      mod_eq_of_lt (by omega)]
  · rw [UInt64.toNat_toUInt32, toNat_getLow64, toNat_shr, mod_mod_of_dvd _ (by decide),
      mod_eq_of_lt (by omega)]

end BaseUint

theorem packCompact_eq {nCompact : UInt32} (hword : nCompact.toNat < 2 ^ 23) (hsize : nSize < 256) :
    ∃ n, packCompact nCompact nSize false = some n ∧ n.toNat = nCompact.toNat + 2 ^ 24 * nSize := by
  have hclear : nCompact &&& ~~~0x007fffff = 0 := by
    rw [← UInt32.toNat_inj]
    exact and_mul_two_pow_eq_zero hword 511
  have hshift : (UInt32.ofNat nSize <<< 24).toNat = 2 ^ 24 * nSize := by
    rw [UInt32.toNat_shiftLeft, UInt32.toNat_ofNat',
      show (24 : UInt32).toNat % 32 = 24 from rfl]
    omega
  refine ⟨nCompact ||| UInt32.ofNat nSize <<< 24, ?_, ?_⟩
  · rw [packCompact, if_pos ⟨hclear, hsize⟩]
    simp
  · rw [UInt32.toNat_or, hshift, Nat.or_comm, Nat.add_comm, two_pow_add_eq_or_of_lt (by omega)]

/-- The assertions of `GetCompact` hold, and it packs the compact form. -/
theorem getCompact_spec (a : BaseUint 8) : ∃ n, a.getCompact false = some n ∧
      n.toNat = (compactForm a.toNat).2 + 2 ^ 24 * (compactForm a.toNat).1 := by
  have hsize : a.toNat.size ≤ 256 := size_le.mpr a.toNat_lt
  have hlt := leading_lt (lt_pow_size a.toNat)
  have hword := toNat_leadingWord (lt_pow_size a.toNat)
  rw [getCompact, a.bits_eq, compactForm]
  simp only [signBit_ne_zero_iff, hword]
  split_ifs with hsign hfree hfree
  · omega
  · have hshift : (a.leadingWord ((a.toNat.size + 7) / 8) >>> 8).toNat =
        leading a.toNat ((a.toNat.size + 7) / 8) / 256 := by
      rw [UInt32.toNat_shiftRight, hword]
      exact shiftRight_eq_div_pow _ _
    rw [← hshift]
    exact packCompact_eq (by omega) (by omega)
  · rw [← hword]
    exact packCompact_eq (by omega) (by omega)
  · omega

theorem toNat_sizeByte (n : UInt32) : (n >>> 24).toNat = n.toNat / 2 ^ 24 := by
  exact shiftRight_eq_div_pow _ _

theorem toNat_wordBits (n : UInt32) : (n &&& 0x007fffff).toNat = n.toNat % 2 ^ 23 := by
  exact and_two_pow_sub_one_eq_mod _ 23

/-- When nothing is shifted out at the bottom, the overflow flag is about the word itself. -/
theorem fOverflow_eq_false_iff (hsize : 3 < n.toNat / 2 ^ 24) :
    (setCompact n).fOverflow = false ↔ n.toNat % 2 ^ 23 = 0 ∨ n.toNat / 2 ^ 24 ≤ 32 ∨
      n.toNat / 2 ^ 24 = 33 ∧ n.toNat % 2 ^ 23 < 2 ^ 16 ∨
      n.toNat / 2 ^ 24 = 34 ∧ n.toNat % 2 ^ 23 < 2 ^ 8 := by
  rw [setCompact]
  simp only [toNat_sizeByte, if_neg (not_le.mpr hsize), decide_eq_false_iff_not, ne_eq,
    ← UInt32.toNat_inj, UInt32.lt_iff_toNat_lt, toNat_wordBits]
  simp only [UInt32.toNat_zero, show (0xff : UInt32).toNat = 255 from rfl,
    show (0xffff : UInt32).toNat = 65535 from rfl]
  omega

/-- Unless it reports an overflow, `SetCompact` stores the target. -/
theorem setCompact_value (h : (setCompact n).fOverflow = false) :
    (setCompact n).value.toNat = compactTarget n := by
  by_cases hsize : n.toNat / 2 ^ 24 ≤ 3
  · have hshift : (UInt32.ofNat (8 * (3 - n.toNat / 2 ^ 24))).toNat % 32 =
        8 * (3 - n.toNat / 2 ^ 24) := by
      rw [UInt32.toNat_ofNat']
      omega
    rw [setCompact, compactTarget, expand]
    simp only [toNat_sizeByte, if_pos hsize, toNat_ofUInt64, UInt32.toNat_toUInt64]
    rw [UInt32.toNat_shiftRight, hshift, toNat_wordBits, shiftRight_eq_div_pow]
  · have hfit : n.toNat % 2 ^ 23 * 2 ^ (8 * (n.toNat / 2 ^ 24 - 3)) < 2 ^ (32 * 8) := by
      have hmul : ∀ {e k : Nat}, n.toNat % 2 ^ 23 < 2 ^ k → n.toNat / 2 ^ 24 ≤ e →
          k + 8 * (e - 3) ≤ 256 →
          n.toNat % 2 ^ 23 * 2 ^ (8 * (n.toNat / 2 ^ 24 - 3)) < 2 ^ (32 * 8) := by
        intro e k hk he hbound
        calc n.toNat % 2 ^ 23 * 2 ^ (8 * (n.toNat / 2 ^ 24 - 3))
            < 2 ^ k * 2 ^ (8 * (n.toNat / 2 ^ 24 - 3)) :=
              Nat.mul_lt_mul_of_pos_right hk (Nat.two_pow_pos _)
          _ = 2 ^ (k + 8 * (n.toNat / 2 ^ 24 - 3)) := (pow_add ..).symm
          _ ≤ 2 ^ (32 * 8) := Nat.pow_le_pow_right (by decide) (by omega)
      rcases (fOverflow_eq_false_iff (Nat.lt_of_not_le hsize)).mp h with
        hzero | hle | ⟨heq, hk⟩ | ⟨heq, hk⟩
      · rw [hzero, zero_mul]
        exact Nat.two_pow_pos _
      · exact hmul (Nat.mod_lt _ (Nat.two_pow_pos 23)) hle (by decide)
      · exact hmul hk heq.le (by decide)
      · exact hmul hk heq.le (by decide)
    rw [setCompact, compactTarget, expand]
    simp only [toNat_sizeByte, if_neg hsize]
    rw [toNat_shl, toNat_ofUInt64, UInt32.toNat_toUInt64, toNat_wordBits, mod_eq_of_lt hfit]

/-- A 256-bit number has at most 32 bytes, one more if its first bit would be the sign. -/
theorem compactForm_bound (hx : x < 2 ^ 256) :
    (compactForm x).1 ≤ 32 ∨ (compactForm x).1 = 33 ∧ (compactForm x).2 < 2 ^ 16 := by
  have hsize : x.size ≤ 256 := size_le.mpr hx
  have hlt := leading_lt (lt_pow_size x)
  rw [compactForm]
  split_ifs
  · exact .inl (by simp only; omega)
  · omega

/-- A packed number unpacks without a flag, rounded down. -/
theorem setCompact_getCompact (h : a.getCompact false = some n) :
    (setCompact n).fNegative = false ∧ (setCompact n).fOverflow = false ∧
      compactTarget n = rounded a.toNat := by
  obtain ⟨n', hn', hnat⟩ := getCompact_spec a
  obtain rfl : n = n' := Option.some.inj (h.symm.trans hn')
  have hword := compactForm_snd_lt a.toNat
  have hbound := compactForm_bound a.toNat_lt
  have hS : n.toNat / 2 ^ 24 = (compactForm a.toNat).1 := by omega
  have hW : n.toNat % 2 ^ 23 = (compactForm a.toNat).2 := by omega
  refine ⟨?_, ?_, ?_⟩
  · rw [setCompact]
    simp only [signBit_ne_zero_iff, decide_eq_false_iff_not, not_and]
    intro _
    omega
  · by_cases hsize : n.toNat / 2 ^ 24 ≤ 3
    · rw [setCompact]
      simp only [toNat_sizeByte, decide_eq_false_iff_not]
      omega
    · rw [fOverflow_eq_false_iff (Nat.lt_of_not_le hsize)]
      omega
  · rw [compactTarget, hS, hW]
    exact expand_compactForm a.toNat

/-- **`compact_roundTrip`** — the assertions of `GetCompact` hold; what it packs unpacks without a
flag to the number without its last bytes, which packs to the same, and the order is kept. Without
a flag `SetCompact` stores the word times 256 to the exponent, with nothing cut off at the top. -/
theorem compact_roundTrip :
    (∀ x : BaseUint 8, ∃ c, x.getCompact false = some c ∧ (setCompact c).fNegative = false ∧
      (setCompact c).fOverflow = false ∧ (setCompact c).value.toNat ≤ x.toNat ∧
      x.toNat - (setCompact c).value.toNat < 2 ^ (8 * ((x.bits + 7) / 8 - 2)) ∧
      ((setCompact c).value.toNat = 0 ↔ x.toNat = 0) ∧
      (setCompact c).value.getCompact false = some c) ∧
    (∀ (x1 x2 : BaseUint 8) (c1 c2 : UInt32), x1.getCompact false = some c1 →
      x2.getCompact false = some c2 → x1.toNat ≤ x2.toNat →
      (setCompact c1).value.toNat ≤ (setCompact c2).value.toNat) ∧
    ∀ c : UInt32, (setCompact c).fNegative = false → (setCompact c).fOverflow = false →
      (setCompact c).value.toNat = compactTarget c := by
  refine ⟨fun x => ?_, fun x1 x2 c1 c2 h1 h2 hle => ?_, fun c _ hover => setCompact_value hover⟩
  · obtain ⟨c, hc, hnat⟩ := getCompact_spec x
    obtain ⟨hneg, hover, htarget⟩ := setCompact_getCompact hc
    have hvalue := (setCompact_value hover).trans htarget
    obtain ⟨c', hc', hnat'⟩ := getCompact_spec (setCompact c).value
    rw [hvalue, compactForm_rounded, ← hnat, UInt32.toNat_inj] at hnat'
    refine ⟨c, hc, hneg, hover, ?_, ?_, ?_, hnat' ▸ hc'⟩
    · rw [hvalue]
      exact rounded_le x.toNat
    · rw [hvalue, x.bits_eq]
      exact sub_rounded_lt x.toNat
    · rw [hvalue, rounded_eq_zero_iff]
  · obtain ⟨-, hover1, htarget1⟩ := setCompact_getCompact h1
    obtain ⟨-, hover2, htarget2⟩ := setCompact_getCompact h2
    rw [setCompact_value hover1, setCompact_value hover2, htarget1, htarget2]
    exact rounded_mono hle

end MonetaryUnit
