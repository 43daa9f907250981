/-
# MonetaryUnit.Primitives.BaseUint — unsigned numbers of many words

The class template `base_uint` of `uint256.h` and `uint256.cpp`: a number is an array of 32-bit
words, the least significant first, and every operation is a loop over the words. Each one is
followed by its meaning on natural numbers, `toNat_…`; after that no proof looks at the words
again. `uint256` adds the compact format, which is in `Chain.Compact`.

An operator that takes a `uint32_t` is preferred over one that takes a `base_uint` when the
argument is a built-in integer, so a product with a 64-bit integer uses its low 32 bits; a
quotient converts it to a `base_uint`.
-/

import MonetaryUnit.Lib.Limbs

namespace MonetaryUnit

open Lib List Nat

/-- Limbs of 32 bits, the low one first. -/
structure BaseUint (WIDTH : Nat) where
  pn : List UInt32
  width : pn.length = WIDTH

variable {w bit : Nat} {carry : UInt64} {as bs ps pn xs ys : List UInt32} {aj x y : UInt32}
variable {step : List UInt32 → Nat → List UInt32}

namespace BaseUint

def toNat (a : BaseUint w) : Nat := limbVal a.pn

theorem toNat_lt (a : BaseUint w) : a.toNat < 2 ^ (32 * w) := by
  have h := limbVal_lt a.pn
  rwa [a.width] at h

/-! ## Assignment and reading -/

def zero (w : Nat) : BaseUint w := ⟨List.replicate w 0, List.length_replicate⟩

/-- `operator=(uint64_t)`. -/
def ofUInt64 (b : UInt64) : BaseUint (w + 2) :=
  ⟨b.toUInt32 :: (b >>> 32).toUInt32 :: List.replicate w 0, by simp⟩

def getLow64 (a : BaseUint (w + 2)) : UInt64 :=
  (a.pn[0]?.getD 0).toUInt64 ||| ((a.pn[1]?.getD 0).toUInt64 <<< (32 : UInt64))

/-! ## Loops with a carry -/

/-- The loop of `operator+=`. -/
def addLoop : UInt64 → List UInt32 → List UInt32 → List UInt32
  | carry, a :: as, b :: bs =>
    let n := carry + a.toUInt64 + b.toUInt64
    (n &&& 0xffffffff).toUInt32 :: addLoop (n >>> 32) as bs
  | _, _, _ => []

/-- The loop of `operator*=(uint32_t)`. -/
def mulLoop (b32 : UInt32) : UInt64 → List UInt32 → List UInt32
  | _, [] => []
  | carry, a :: as =>
    let n := carry + b32.toUInt64 * a.toUInt64
    (n &&& 0xffffffff).toUInt32 :: mulLoop b32 (n >>> 32) as

/-- The inner loop of `operator*=(const base_uint&)`, on the words of the product from `pn[j]`. -/
def rowLoop (aj : UInt32) : UInt64 → List UInt32 → List UInt32 → List UInt32
  | carry, p :: ps, b :: bs =>
    let n := carry + p.toUInt64 + aj.toUInt64 * b.toUInt64
    (n &&& 0xffffffff).toUInt32 :: rowLoop aj (n >>> 32) ps bs
  | _, _, _ => []

/-- A sum is a row with the factor one. -/
theorem addLoop_eq_rowLoop (carry : UInt64) (as bs : List UInt32) :
    addLoop carry as bs = rowLoop 1 carry as bs := by
  induction as generalizing carry bs with
  | nil => rfl
  | cons a as ih =>
    rcases bs with _ | ⟨b, bs⟩
    · rfl
    · rw [addLoop, rowLoop, ih, show UInt32.toUInt64 1 = 1 from rfl, UInt64.one_mul]

/-- A product with one word is a row on top of zeros. -/
theorem mulLoop_eq_rowLoop (b32 : UInt32) (carry : UInt64) (as : List UInt32) :
    mulLoop b32 carry as = rowLoop b32 carry (replicate as.length 0) as := by
  induction as generalizing carry with
  | nil => rfl
  | cons a as ih =>
    rw [mulLoop, length_cons, replicate_succ, rowLoop, ih, show UInt32.toUInt64 0 = 0 from rfl,
      UInt64.add_zero]

theorem length_rowLoop (h : ps.length ≤ bs.length) :
    (rowLoop aj carry ps bs).length = ps.length := by
  induction ps generalizing carry bs with
  | nil => rfl
  | cons p ps ih =>
    rcases bs with _ | ⟨b, bs⟩
    · exact absurd h (not_succ_le_zero _)
    · rw [rowLoop, length_cons, ih (le_of_succ_le_succ h), length_cons]

/-! ## Sums -/

/-- The carry goes from limb to limb. -/
def add (a b : BaseUint w) : BaseUint w :=
  ⟨addLoop 0 a.pn b.pn, by
    rw [addLoop_eq_rowLoop, length_rowLoop (a.width.trans b.width.symm).le, a.width]⟩

/-- `operator~`. -/
def not (a : BaseUint w) : BaseUint w := ⟨a.pn.map (~~~ ·), by rw [List.length_map, a.width]⟩

/-- The loop of `operator++`: go on while the word becomes zero, except at the last one. -/
def incLoop : List UInt32 → List UInt32
  | [] => []
  | d :: ds => if d + 1 = 0 ∧ ds ≠ [] then (d + 1) :: incLoop ds else (d + 1) :: ds

theorem length_incLoop (ds : List UInt32) : (incLoop ds).length = ds.length := by
  induction ds with
  | nil => rfl
  | cons d ds ih =>
    rw [incLoop]
    split_ifs
    · rw [length_cons, ih, length_cons]
    · rfl

/-- The unary `operator-`. -/
def neg (a : BaseUint w) : BaseUint w := ⟨incLoop a.not.pn, by rw [length_incLoop, a.not.width]⟩

/-- `operator-=`. -/
def sub (a b : BaseUint w) : BaseUint w := a.add b.neg

/-! ## Products -/

def mul32 (a : BaseUint w) (b32 : UInt32) : BaseUint w :=
  ⟨mulLoop b32 0 a.pn, by
    rw [mulLoop_eq_rowLoop, length_rowLoop length_replicate.le, length_replicate, a.width]⟩

/-- The outer loop: after row `j` the word `pn[j]` is not touched again. -/
def mulRows (b : List UInt32) : List UInt32 → List UInt32 → List UInt32
  | aj :: as, pn =>
    match rowLoop aj 0 pn b with
    | [] => []
    | p :: ps => p :: mulRows b as ps
  | [], pn => pn

theorem length_mulRows {b : List UInt32} (h : pn.length ≤ b.length) :
    (mulRows b as pn).length = pn.length := by
  induction as generalizing pn with
  | nil => rfl
  | cons aj as ih =>
    have hrow : (rowLoop aj 0 pn b).length = pn.length := length_rowLoop h
    rw [mulRows]
    rcases hr : rowLoop aj 0 pn b with _ | ⟨p, ps⟩
    · rw [← hrow, hr]
    · rw [hr, length_cons] at hrow
      rw [length_cons, ih (by omega), hrow]

/-- `operator*=(const base_uint&)`. -/
def mul (a b : BaseUint w) : BaseUint w := ⟨mulRows b.pn a.pn (List.replicate w 0), by
    rw [length_mulRows (by rw [b.width, List.length_replicate]), List.length_replicate]⟩

/-! ## Shifts -/

/-- `pn[i] |= v`. -/
def orAt (pn : List UInt32) (i : Nat) (v : UInt32) : List UInt32 := pn.modify i (· ||| v)

/-- One round of the loop of `operator<<=`, with `k = shift / 32` and the rest of the shift. -/
def shlStep (a : List UInt32) (k shift : Nat) (pn : List UInt32) (i : Nat) : List UInt32 :=
  let x := a[i]?.getD 0
  let pn :=
    if i + k + 1 < a.length ∧ shift ≠ 0 then orAt pn (i + k + 1) (x >>> UInt32.ofNat (32 - shift))
    else pn
  if i + k < a.length then orAt pn (i + k) (x <<< UInt32.ofNat shift) else pn

/-- One round of the loop of `operator>>=`. -/
def shrStep (a : List UInt32) (k shift : Nat) (pn : List UInt32) (i : Nat) : List UInt32 :=
  let x := a[i]?.getD 0
  let pn :=
    if k + 1 ≤ i ∧ shift ≠ 0 then orAt pn (i - k - 1) (x <<< UInt32.ofNat (32 - shift)) else pn
  if k ≤ i then orAt pn (i - k) (x >>> UInt32.ofNat shift) else pn

theorem length_orAt (pn : List UInt32) (i : Nat) (v : UInt32) : (orAt pn i v).length = pn.length :=
  length_modify ..

theorem length_shlStep (a : List UInt32) (k shift : Nat) (pn : List UInt32) (i : Nat) :
    (shlStep a k shift pn i).length = pn.length := by
  rw [shlStep]
  split_ifs
  all_goals simp only [length_orAt]

theorem length_shrStep (a : List UInt32) (k shift : Nat) (pn : List UInt32) (i : Nat) :
    (shrStep a k shift pn i).length = pn.length := by
  rw [shrStep]
  split_ifs
  all_goals simp only [length_orAt]

theorem length_foldl_step (h : ∀ pn i, (step pn i).length = pn.length) (l : List Nat)
    (pn : List UInt32) : (l.foldl step pn).length = pn.length := by
  induction l generalizing pn with
  | nil => rfl
  | cons i l ih => rw [foldl_cons, ih, h]

def shl (a : BaseUint w) (shift : Nat) : BaseUint w :=
  ⟨(List.range w).foldl (shlStep a.pn (shift / 32) (shift % 32)) (List.replicate w 0), by
    rw [length_foldl_step (length_shlStep _ _ _), List.length_replicate]⟩

def shr (a : BaseUint w) (shift : Nat) : BaseUint w :=
  ⟨(List.range w).foldl (shrStep a.pn (shift / 32) (shift % 32)) (List.replicate w 0), by
    rw [length_foldl_step (length_shrStep _ _ _), List.length_replicate]⟩

/-! ## Comparison and size -/

/-- The loop of `CompareTo`, on the words from the top. -/
def compareLoop : List UInt32 → List UInt32 → Int
  | a :: as, b :: bs => if a < b then -1 else if b < a then 1 else compareLoop as bs
  | _, _ => 0

/-- From the high limb down. -/
def compareTo (a b : BaseUint w) : Int := compareLoop a.pn.reverse b.pn.reverse

/-- The loop of `bits` in one word, from the given bit down. -/
def highBit (x : UInt32) : Nat → Nat
  | 0 => 1
  | bit + 1 => if x &&& 1 <<< UInt32.ofNat (bit + 1) ≠ 0 then bit + 2 else highBit x bit

/-- The loop of `bits` over the words from the top. -/
def bitsLoop : List UInt32 → Nat
  | [] => 0
  | x :: xs => if x ≠ 0 then 32 * xs.length + highBit x 31 else bitsLoop xs

/-- The position of the highest bit that is set, plus one. -/
def bits (a : BaseUint w) : Nat := bitsLoop a.pn.reverse

/-! ## Quotients -/

/-- `pn[shift / 32] |= (1 << (shift & 31))`. -/
def setBit (a : BaseUint w) (shift : Nat) : BaseUint w :=
  ⟨orAt a.pn (shift / 32) (1 <<< UInt32.ofNat (shift % 32)), by rw [length_orAt, a.width]⟩

/-- The loop of `operator/=`; the first argument is `shift + 1`. The result is the quotient, with
what is left in `num`. -/
def divLoop : Nat → BaseUint w → BaseUint w → BaseUint w → BaseUint w × BaseUint w
  | 0, num, _, quotient => (quotient, num)
  | shift + 1, num, div, quotient =>
    if 0 ≤ num.compareTo div then
      divLoop shift (num.sub div) (div.shr 1) (quotient.setBit shift)
    else divLoop shift num (div.shr 1) quotient

/-- `operator/=`; `none` is the exception "Division by zero". -/
def div (a b : BaseUint w) : Option (BaseUint w) :=
  if b.bits = 0 then none
  else if a.bits < b.bits then some (zero w)
  else some (divLoop (a.bits - b.bits + 1) a (b.shl (a.bits - b.bits)) (zero w)).1

/-- What `operator/=` has in `num` when it returns. -/
def divNum (a b : BaseUint w) : BaseUint w :=
  if a.bits < b.bits then a
  else (divLoop (a.bits - b.bits + 1) a (b.shl (a.bits - b.bits)) (zero w)).2

end BaseUint

/-! ## What the loops compute -/

namespace BaseUint

variable {a b : BaseUint w}

theorem toNat_zero (w : Nat) : (zero w).toNat = 0 := limbVal_replicate_zero w

theorem toNat_low32 (n : UInt64) : (n &&& 0xffffffff).toUInt32.toNat = n.toNat % 2 ^ 32 := by
  show (n.toNat &&& (2 ^ 32 - 1)) % 2 ^ 32 = _
  rw [and_two_pow_sub_one_eq_mod, mod_mod]

theorem toNat_high32 (n : UInt64) : (n >>> 32).toNat = n.toNat / 2 ^ 32 := by
  exact shiftRight_eq_div_pow _ _

theorem toNat_ofUInt64 (b : UInt64) : (ofUInt64 b : BaseUint (w + 2)).toNat = b.toNat := by
  have hb := b.toNat_lt
  rw [toNat, ofUInt64, limbVal, limbVal, limbVal_replicate_zero, UInt64.toNat_toUInt32,
    UInt64.toNat_toUInt32, toNat_high32]
  omega

theorem toNat_getLow64 (a : BaseUint (w + 2)) : a.getLow64.toNat = a.toNat % 2 ^ 64 := by
  obtain ⟨low, tail, hpn⟩ := exists_cons_of_length_eq_add_one a.width
  obtain ⟨high, rest, rfl⟩ := exists_cons_of_length_eq_add_one (succ.inj (hpn ▸ a.width))
  have hlow := low.toNat_lt
  have hhigh := high.toNat_lt
  have hor : high.toNat * 2 ^ 32 ||| low.toNat = high.toNat * 2 ^ 32 + low.toNat := by
    rw [mul_comm, two_pow_add_eq_or_of_lt hlow]
  rw [getLow64, toNat, hpn, limbVal, limbVal]
  show (low.toUInt64 ||| high.toUInt64 <<< (32 : UInt64)).toNat = _
  rw [UInt64.toNat_or, UInt64.toNat_shiftLeft, UInt32.toNat_toUInt64, UInt32.toNat_toUInt64,
    shiftLeft_eq, show (32 : UInt64).toNat % 64 = 32 from rfl, mod_eq_of_lt (by omega),
    Nat.or_comm]
  omega

/-- One column of a loop with a carry: the word that stays, under the words that follow. -/
theorem limbVal_column {n : UInt64} {rest : List UInt32} {s m : Nat}
    (h : limbVal rest = ((n >>> 32).toNat + s) % 2 ^ (32 * m)) :
    limbVal ((n &&& 0xffffffff).toUInt32 :: rest) =
      (n.toNat + 2 ^ 32 * s) % 2 ^ (32 * (m + 1)) := by
  rw [limbVal, toNat_low32, h, toNat_high32, mod_limb]

theorem toNat_rowLoop (hcarry : carry.toNat < 2 ^ 32) (h : ps.length ≤ bs.length) :
    limbVal (rowLoop aj carry ps bs) =
      (carry.toNat + (limbVal ps + aj.toNat * limbVal bs)) % 2 ^ (32 * ps.length) := by
  induction ps generalizing carry bs with
  | nil => rw [rowLoop.eq_def, limbVal, length_nil, mul_zero, pow_zero, mod_one]
  | cons p ps ih =>
    rcases bs with _ | ⟨b, bs⟩
    · exact absurd h (not_succ_le_zero _)
    have hp := p.toNat_lt
    have haj := aj.toNat_lt
    have hb := b.toNat_lt
    -- A carry and a word still fit above the largest product of two words.
    have hprod : aj.toNat * b.toNat ≤ (2 ^ 32 - 1) * (2 ^ 32 - 1) :=
      Nat.mul_le_mul (by omega) (by omega)
    have hn : (carry + p.toUInt64 + aj.toUInt64 * b.toUInt64).toNat =
        carry.toNat + p.toNat + aj.toNat * b.toNat := by
      simp only [UInt64.toNat_add, UInt64.toNat_mul, UInt32.toNat_toUInt64]
      omega
    rw [rowLoop, limbVal_column (ih (by rw [toNat_high32, hn]; omega) (le_of_succ_le_succ h)),
      hn, limbVal, limbVal]
    congr 1
    ring

theorem toNat_add (a b : BaseUint w) : (a.add b).toNat = (a.toNat + b.toNat) % 2 ^ (32 * w) := by
  show limbVal (addLoop 0 a.pn b.pn) = _
  rw [addLoop_eq_rowLoop, toNat_rowLoop (by decide) (a.width.trans b.width.symm).le, a.width,
    UInt64.toNat_zero, zero_add, UInt32.toNat_one, one_mul]
  rfl

theorem limbVal_not (ds : List UInt32) :
    limbVal (ds.map (~~~ ·)) + limbVal ds + 1 = 2 ^ (32 * ds.length) := by
  induction ds with
  | nil => rfl
  | cons d ds ih =>
    have hd : (~~~ d).toNat + d.toNat + 1 = 2 ^ 32 := by
      have hlt := d.toNat_lt
      rw [UInt32.toNat_not, UInt32.size]
      omega
    have hpow : (2 : Nat) ^ (32 * (ds.length + 1)) = 2 ^ 32 * 2 ^ (32 * ds.length) := by
      rw [mul_add, pow_add, mul_comm]
    rw [length_cons, hpow, ← ih]
    calc (~~~ d).toNat + 2 ^ 32 * limbVal (ds.map (~~~ ·)) + (d.toNat + 2 ^ 32 * limbVal ds) + 1
        = ((~~~ d).toNat + d.toNat + 1) +
            2 ^ 32 * (limbVal (ds.map (~~~ ·)) + limbVal ds) := by ring
      _ = 2 ^ 32 * (limbVal (ds.map (~~~ ·)) + limbVal ds + 1) := by rw [hd]; ring

theorem toNat_not (a : BaseUint w) : a.not.toNat = 2 ^ (32 * w) - 1 - a.toNat := by
  have h := limbVal_not a.pn
  rw [a.width] at h
  show limbVal (a.pn.map (~~~ ·)) = 2 ^ (32 * w) - 1 - limbVal a.pn
  omega

theorem toNat_incLoop (ds : List UInt32) :
    limbVal (incLoop ds) = (limbVal ds + 1) % 2 ^ (32 * ds.length) := by
  induction ds with
  | nil => rfl
  | cons d ds ih =>
    have hd := d.toNat_lt
    have hsucc : (d + 1).toNat = (d.toNat + 1) % 2 ^ 32 := UInt32.toNat_add d 1
    have hsplit : limbVal (d :: ds) + 1 = (d.toNat + 1) + 2 ^ 32 * limbVal ds := by
      rw [limbVal]
      ring
    rw [length_cons, hsplit, mod_limb, incLoop]
    split_ifs with hgo
    · have hzero : (d.toNat + 1) % 2 ^ 32 = 0 := by rw [← hsucc, hgo.1]; rfl
      rw [limbVal, ih, hsucc, show (d.toNat + 1) / 2 ^ 32 = 1 by omega, add_comm 1]
    by_cases hzero : d + 1 = 0
    · -- The last word: the carry is lost.
      obtain rfl : ds = [] := by
        by_contra hne
        exact hgo ⟨hzero, hne⟩
      rw [length_nil, pow_zero, mod_one]
      rfl
    · have hne : (d.toNat + 1) % 2 ^ 32 ≠ 0 := fun h =>
        hzero (UInt32.toNat_inj.mp (hsucc.trans h))
      have hsmall : d.toNat + 1 < 2 ^ 32 := by omega
      rw [limbVal, hsucc, div_eq_of_lt hsmall, zero_add, mod_eq_of_lt (limbVal_lt ds)]

theorem toNat_sub_mod (a b : BaseUint w) :
    (a.sub b).toNat = (a.toNat + (2 ^ (32 * w) - b.toNat)) % 2 ^ (32 * w) := by
  have hneg : b.neg.toNat = (2 ^ (32 * w) - b.toNat) % 2 ^ (32 * w) := by
    have hlen : b.not.pn.length = w := b.not.width
    have hnot := b.toNat_not
    have hb := b.toNat_lt
    rw [toNat, neg, toNat_incLoop, hlen]
    congr 1
    show b.not.toNat + 1 = _
    omega
  rw [sub, toNat_add, hneg, add_mod_mod]

theorem toNat_sub (h : b.toNat ≤ a.toNat) : (a.sub b).toNat = a.toNat - b.toNat := by
  have ha := a.toNat_lt
  rw [toNat_sub_mod, show a.toNat + (2 ^ (32 * w) - b.toNat) =
    a.toNat - b.toNat + 2 ^ (32 * w) by omega, add_mod_right, mod_eq_of_lt (by omega)]

theorem toNat_mul32 (a : BaseUint w) (b32 : UInt32) :
    (a.mul32 b32).toNat = a.toNat * b32.toNat % 2 ^ (32 * w) := by
  show limbVal (mulLoop b32 0 a.pn) = _
  rw [mulLoop_eq_rowLoop, toNat_rowLoop (by decide) length_replicate.le,
    limbVal_replicate_zero, length_replicate, a.width, UInt64.toNat_zero, zero_add, zero_add,
    mul_comm]
  rfl

theorem toNat_mulRows {b : List UInt32} (has : as.length = pn.length) (h : pn.length ≤ b.length) :
    limbVal (mulRows b as pn) = (limbVal as * limbVal b + limbVal pn) % 2 ^ (32 * pn.length) := by
  induction as generalizing pn with
  | nil =>
    obtain rfl : pn = [] := eq_nil_of_length_eq_zero has.symm
    rw [mulRows, limbVal, length_nil, pow_zero, mod_one]
  | cons aj as ih =>
    have hlen : (rowLoop aj 0 pn b).length = pn.length := length_rowLoop h
    have hrow := @toNat_rowLoop 0 b pn aj (by decide) h
    rw [mulRows]
    rcases hr : rowLoop aj 0 pn b with _ | ⟨p, ps⟩
    · rw [hr, ← has] at hlen
      exact absurd hlen (succ_ne_zero _).symm
    rw [hr, length_cons] at hlen
    rw [hr, UInt64.toNat_zero, zero_add, limbVal, ← hlen] at hrow
    have hps : as.length = ps.length := succ.inj (has.trans hlen.symm)
    -- The finished word is below the others, so the remainder can be taken of the whole.
    have hword := mod_limb p.toNat (limbVal as * limbVal b + limbVal ps) ps.length
    rw [mod_eq_of_lt p.toNat_lt, div_eq_of_lt p.toNat_lt, zero_add] at hword
    show limbVal (p :: mulRows b as ps) = _
    rw [limbVal, ih hps (by omega), ← hword, ← hlen, limbVal]
    calc (p.toNat + 2 ^ 32 * (limbVal as * limbVal b + limbVal ps)) % 2 ^ (32 * (ps.length + 1))
        = (2 ^ 32 * (limbVal as * limbVal b) + (p.toNat + 2 ^ 32 * limbVal ps)) %
            2 ^ (32 * (ps.length + 1)) := by congr 1; ring
      _ = (2 ^ 32 * (limbVal as * limbVal b) + (limbVal pn + aj.toNat * limbVal b)) %
            2 ^ (32 * (ps.length + 1)) := by rw [hrow, add_mod_mod]
      _ = _ := by congr 1; ring

theorem toNat_mul (a b : BaseUint w) : (a.mul b).toNat = a.toNat * b.toNat % 2 ^ (32 * w) := by
  rw [toNat, mul, toNat_mulRows (by rw [a.width, length_replicate])
    (by rw [b.width, length_replicate]), limbVal_replicate_zero, length_replicate]
  rfl

/-! ## Bits -/

/-- A bit of the number, found in its word. -/
def bitAt (pn : List UInt32) (p : Nat) : Bool := (pn[p / 32]?.getD 0).toNat.testBit (p % 32)

variable {i r p : Nat}

theorem bitAt_orAt (v : UInt32) (hi : i < pn.length) (p : Nat) :
    bitAt (orAt pn i v) p = (bitAt pn p || decide (p / 32 = i) && v.toNat.testBit (p % 32)) := by
  rw [bitAt, bitAt, orAt, getElem?_modify]
  by_cases hp : p / 32 = i
  · rw [hp, getElem?_eq_getElem hi]
    simp [UInt32.toNat_or]
  · simp [hp, Ne.symm hp]

/-- A word has no bits past its own. -/
theorem lt_of_testBit_word {j : Nat} (h : x.toNat.testBit j = true) : j < 32 :=
  (Nat.pow_lt_pow_iff_right (by decide)).mp ((ge_two_pow_of_testBit h).trans_lt x.toNat_lt)

theorem testBit_shiftLeft_word (x : UInt32) {j : Nat} (hr : r < 32) (hj : j < 32) :
    (x <<< UInt32.ofNat r).toNat.testBit j = (decide (r ≤ j) && x.toNat.testBit (j - r)) := by
  rw [UInt32.toNat_shiftLeft, UInt32.toNat_ofNat', testBit_mod_two_pow, testBit_shiftLeft,
    decide_eq_true hj, Bool.true_and, mod_eq_of_lt (by omega : r < 2 ^ 32),
    mod_eq_of_lt hr]

theorem testBit_shiftRight_word (x : UInt32) (hr : r < 32) (j : Nat) :
    (x >>> UInt32.ofNat r).toNat.testBit j = x.toNat.testBit (r + j) := by
  rw [UInt32.toNat_shiftRight, UInt32.toNat_ofNat', testBit_shiftRight,
    mod_eq_of_lt (by omega : r < 2 ^ 32), mod_eq_of_lt hr]

theorem bitAt_orAt_ite {c : Prop} [Decidable c] (v : UInt32) (hc : c → i < pn.length) (p : Nat) :
    bitAt (if c then orAt pn i v else pn) p = true ↔
      bitAt pn p = true ∨ (c ∧ p / 32 = i) ∧ v.toNat.testBit (p % 32) = true := by
  split_ifs with h
  · rw [bitAt_orAt v (hc h), Bool.or_eq_true, Bool.and_eq_true, decide_eq_true_eq]
    simp only [h, true_and]
  · simp only [h, false_and, or_false]

/-- Bit `q` of the number is set and in word `i`. -/
def FromWord (a : List UInt32) (q i : Nat) : Prop :=
  (32 * i ≤ q ∧ q < 32 * i + 32) ∧ (a[i]?.getD 0).toNat.testBit (q - 32 * i) = true

theorem exists_fromWord (a : List UInt32) (q : Nat) :
    (∃ i < a.length, FromWord a q i) ↔ bitAt a q = true := by
  constructor
  · rintro ⟨i, -, ⟨hlo, hhi⟩, hbit⟩
    rwa [bitAt, show q / 32 = i by omega, show q % 32 = q - 32 * i by omega]
  · intro hbit
    refine ⟨q / 32, ?_, ⟨by omega, by omega⟩, ?_⟩
    · by_contra hge
      rw [bitAt, getElem?_eq_none (Nat.le_of_not_lt hge)] at hbit
      simp at hbit
    · rwa [show q - 32 * (q / 32) = q % 32 by omega]

/-- Word `i` lands `32 * k + r` bits higher. -/
theorem bitAt_shlStep {a : List UInt32} {k : Nat} (i : Nat) (hr : r < 32)
    (hlen : pn.length = a.length) (hp : p < 32 * a.length) :
    bitAt (shlStep a k r pn i) p = true ↔
      bitAt pn p = true ∨ 32 * k + r ≤ p ∧ FromWord a (p - (32 * k + r)) i := by
  have hmod : p % 32 < 32 := mod_lt _ (by decide)
  rw [shlStep, bitAt_orAt_ite _ (by intro h; split_ifs <;> simpa only [length_orAt, hlen]),
    bitAt_orAt_ite _ (by intro h; rw [hlen]; exact h.1), testBit_shiftLeft_word _ hr hmod,
    or_assoc, Bool.and_eq_true, decide_eq_true_eq]
  refine or_congr_right ⟨?_, ?_⟩
  · rintro (⟨⟨⟨hik, hne⟩, hword⟩, hbit⟩ | ⟨⟨hik, hword⟩, hle, hbit⟩)
    · rw [testBit_shiftRight_word _ (by omega)] at hbit
      have hlow := lt_of_testBit_word hbit
      exact ⟨by omega, by omega, by
        rwa [show p - (32 * k + r) - 32 * i = 32 - r + p % 32 by omega]⟩
    · exact ⟨by omega, by omega, by rwa [show p - (32 * k + r) - 32 * i = p % 32 - r by omega]⟩
  · rintro ⟨hshift, ⟨hlo, hhi⟩, hbit⟩
    by_cases hword : p / 32 = i + k
    · refine .inr ⟨⟨by omega, hword⟩, by omega, ?_⟩
      rwa [show p % 32 - r = p - (32 * k + r) - 32 * i by omega]
    · refine .inl ⟨⟨⟨by omega, by omega⟩, by omega⟩, ?_⟩
      rwa [testBit_shiftRight_word _ (by omega),
        show 32 - r + p % 32 = p - (32 * k + r) - 32 * i by omega]

/-- Word `i` lands `32 * k + r` bits lower. -/
theorem bitAt_shrStep {a : List UInt32} {k : Nat} (hr : r < 32)
    (hlen : pn.length = a.length) (hi : i < a.length) :
    bitAt (shrStep a k r pn i) p = true ↔ bitAt pn p = true ∨ FromWord a (p + (32 * k + r)) i := by
  have hmod : p % 32 < 32 := mod_lt _ (by decide)
  rw [shrStep, bitAt_orAt_ite _ (by intro h; split_ifs <;> simp only [length_orAt, hlen] <;> omega),
    bitAt_orAt_ite _ (by intro h; omega), testBit_shiftRight_word _ hr, or_assoc]
  refine or_congr_right ⟨?_, ?_⟩
  · rintro (⟨⟨⟨hik, hne⟩, hword⟩, hbit⟩ | ⟨⟨hik, hword⟩, hbit⟩)
    · rw [testBit_shiftLeft_word _ (by omega) hmod, Bool.and_eq_true, decide_eq_true_eq] at hbit
      obtain ⟨hle, hbit⟩ := hbit
      exact ⟨by omega, by rwa [show p + (32 * k + r) - 32 * i = p % 32 - (32 - r) by omega]⟩
    · have hlow := lt_of_testBit_word hbit
      exact ⟨by omega, by rwa [show p + (32 * k + r) - 32 * i = r + p % 32 by omega]⟩
  · rintro ⟨⟨hlo, hhi⟩, hbit⟩
    by_cases hword : k + p / 32 = i
    · refine .inr ⟨⟨by omega, by omega⟩, ?_⟩
      rwa [show r + p % 32 = p + (32 * k + r) - 32 * i by omega]
    · refine .inl ⟨⟨⟨by omega, by omega⟩, by omega⟩, ?_⟩
      rw [testBit_shiftLeft_word _ (by omega) hmod, Bool.and_eq_true, decide_eq_true_eq]
      exact ⟨by omega, by rwa [show p % 32 - (32 - r) = p + (32 * k + r) - 32 * i by omega]⟩

/-- A loop that puts bits into an empty array leaves those that some round puts there. -/
theorem bitAt_foldl {src : Nat → Prop} {n w : Nat} (hlen : ∀ pn i, (step pn i).length = pn.length)
    (hstep : ∀ pn i, i < n → pn.length = w →
      (bitAt (step pn i) p = true ↔ bitAt pn p = true ∨ src i)) :
    bitAt ((range n).foldl step (replicate w 0)) p = true ↔ ∃ i < n, src i := by
  induction n with
  | zero =>
    have hempty : bitAt (replicate w 0) p = false := by
      rw [bitAt, ← testBit_limbVal, limbVal_replicate_zero, zero_testBit]
    simp [hempty]
  | succ n ih =>
    rw [range_succ, foldl_append, foldl_cons, foldl_nil,
      hstep _ n (lt_succ_self n) (by rw [length_foldl_step hlen, length_replicate]),
      ih fun pn i hi => hstep pn i (hi.trans n.lt_succ_self), exists_lt_succ_right]

theorem testBit_toNat (a : BaseUint w) (p : Nat) : a.toNat.testBit p = bitAt a.pn p :=
  testBit_limbVal a.pn p

theorem toNat_shl (a : BaseUint w) (shift : Nat) :
    (a.shl shift).toNat = a.toNat * 2 ^ shift % 2 ^ (32 * w) := by
  have hshift : 32 * (shift / 32) + shift % 32 = shift := div_add_mod _ _
  refine eq_of_testBit_eq fun p => Bool.eq_iff_iff.mpr ?_
  rw [testBit_mod_two_pow, testBit_mul_two_pow, Bool.and_eq_true, Bool.and_eq_true,
    decide_eq_true_eq, decide_eq_true_eq]
  by_cases hp : p < 32 * w
  · rw [testBit_toNat, testBit_toNat, shl, bitAt_foldl (length_shlStep _ _ _)
      fun pn i _ hpn => bitAt_shlStep i (mod_lt _ (by decide)) (hpn.trans a.width.symm)
        (a.width.symm ▸ hp), hshift, ← exists_fromWord, a.width]
    simp only [hp, true_and]
    exact ⟨fun ⟨i, hi, hle, hfrom⟩ => ⟨hle, i, hi, hfrom⟩,
      fun ⟨hle, i, hi, hfrom⟩ => ⟨i, hi, hle, hfrom⟩⟩
  · rw [testBit_lt_two_pow ((toNat_lt _).trans_le
      (Nat.pow_le_pow_right (by decide) (Nat.le_of_not_lt hp)))]
    simp [hp]

theorem toNat_shr (a : BaseUint w) (shift : Nat) : (a.shr shift).toNat = a.toNat / 2 ^ shift := by
  have hshift : 32 * (shift / 32) + shift % 32 = shift := div_add_mod _ _
  refine eq_of_testBit_eq fun p => Bool.eq_iff_iff.mpr ?_
  rw [testBit_div_two_pow, testBit_toNat, testBit_toNat, shr,
    bitAt_foldl (length_shrStep _ _ _) fun pn i hi hpn => bitAt_shrStep
      (mod_lt _ (by decide)) (hpn.trans a.width.symm) (a.width.symm ▸ hi), hshift,
    ← exists_fromWord, a.width]

/-! ## Comparison and size -/

theorem limbVal_reverse_cons (x : UInt32) (xs : List UInt32) :
    limbVal (x :: xs).reverse = limbVal xs.reverse + 2 ^ (32 * xs.length) * x.toNat := by
  rw [reverse_cons, limbVal_append, length_reverse]
  rfl

/-- The words below the top one are worth less than one of it. -/
theorem limbVal_reverse_lt (hlen : xs.length = ys.length) (h : x < y) :
    limbVal (x :: xs).reverse < limbVal (y :: ys).reverse := by
  have hxs := limbVal_lt xs.reverse
  rw [length_reverse] at hxs
  have hxy : x.toNat + 1 ≤ y.toNat := h
  rw [limbVal_reverse_cons, limbVal_reverse_cons, ← hlen]
  calc limbVal xs.reverse + 2 ^ (32 * xs.length) * x.toNat
      < 2 ^ (32 * xs.length) + 2 ^ (32 * xs.length) * x.toNat := Nat.add_lt_add_right hxs _
    _ = 2 ^ (32 * xs.length) * (x.toNat + 1) := by ring
    _ ≤ 2 ^ (32 * xs.length) * y.toNat := mul_le_mul_left _ hxy
    _ ≤ _ := le_add_left _ _

theorem compareLoop_neg_iff (hlen : xs.length = ys.length) :
    compareLoop xs ys < 0 ↔ limbVal xs.reverse < limbVal ys.reverse := by
  induction xs generalizing ys with
  | nil =>
    obtain rfl : ys = [] := eq_nil_of_length_eq_zero hlen.symm
    decide
  | cons x xs ih =>
    rcases ys with _ | ⟨y, ys⟩
    · exact absurd hlen (succ_ne_zero _)
    have hlen' := succ.inj hlen
    rw [compareLoop]
    split_ifs with hlt hgt
    · exact iff_of_true (by decide) (limbVal_reverse_lt hlen' hlt)
    · exact iff_of_false (by decide) (limbVal_reverse_lt hlen'.symm hgt).asymm
    · obtain rfl : x = y := UInt32.le_antisymm (UInt32.not_lt.mp hgt) (UInt32.not_lt.mp hlt)
      rw [ih hlen', limbVal_reverse_cons, limbVal_reverse_cons, hlen', add_lt_add_iff_right]

theorem compareLoop_swap (xs ys : List UInt32) : compareLoop xs ys = -compareLoop ys xs := by
  induction xs generalizing ys with
  | nil => rcases ys with _ | ⟨y, ys⟩ <;> rfl
  | cons x xs ih =>
    rcases ys with _ | ⟨y, ys⟩
    · rfl
    · rw [compareLoop, compareLoop, ih]
      by_cases hlt : x < y
      · rw [if_pos hlt, if_neg (UInt32.lt_asymm hlt), if_pos hlt]
      · split_ifs
        · rfl
        · rfl

theorem compareTo_neg_iff : a.compareTo b < 0 ↔ a.toNat < b.toNat := by
  rw [compareTo, compareLoop_neg_iff (by simp [a.width, b.width]), reverse_reverse, reverse_reverse]
  rfl

theorem compareTo_nonneg_iff : 0 ≤ a.compareTo b ↔ b.toNat ≤ a.toNat := by
  rw [← Int.not_lt, compareTo_neg_iff, not_lt]

theorem compareTo_pos_iff : 0 < a.compareTo b ↔ b.toNat < a.toNat := by
  rw [← compareTo_neg_iff, compareTo, compareTo, compareLoop_swap, Int.neg_pos]

theorem and_bit_ne_zero_iff (x : UInt32) (hbit : bit < 32) :
    x &&& 1 <<< UInt32.ofNat bit ≠ 0 ↔ x.toNat.testBit bit = true := by
  have hpow : (1 <<< UInt32.ofNat bit : UInt32).toNat = 2 ^ bit := by
    rw [UInt32.toNat_shiftLeft, UInt32.toNat_ofNat', mod_eq_of_lt (by omega : bit < 2 ^ 32),
      mod_eq_of_lt hbit, UInt32.toNat_one, one_shiftLeft,
      Nat.mod_eq_of_lt (Nat.pow_lt_pow_right (by decide) hbit)]
  rw [ne_eq, ← UInt32.toNat_inj, UInt32.toNat_and, hpow, and_two_pow]
  rcases x.toNat.testBit bit <;> simp

theorem highBit_eq (hbit : bit < 32) (hlt : x.toNat < 2 ^ (bit + 1)) (hx : x ≠ 0) :
    highBit x bit = x.toNat.size := by
  induction bit with
  | zero =>
    have hpos : x.toNat ≠ 0 := fun h => hx (UInt32.toNat_inj.mp h)
    rw [show x.toNat = 1 by omega]
    rfl
  | succ bit ih =>
    rw [highBit]
    split_ifs with hset
    · rw [and_bit_ne_zero_iff x hbit] at hset
      exact le_antisymm (lt_size.mpr (ge_two_pow_of_testBit hset)) (size_le.mpr hlt)
    · rw [and_bit_ne_zero_iff x hbit, Bool.not_eq_true] at hset
      apply ih (lt_of_succ_lt hbit)
      apply lt_pow_two_of_testBit
      intro j hj
      rcases hj.eq_or_lt with rfl | hj
      · exact hset
      · exact Nat.testBit_lt_two_pow (hlt.trans_le (Nat.pow_le_pow_right (by decide) hj))

theorem bitsLoop_eq (xs : List UInt32) : bitsLoop xs = (limbVal xs.reverse).size := by
  induction xs with
  | nil => rfl
  | cons x xs ih =>
    rw [bitsLoop, limbVal_reverse_cons]
    split_ifs with hx
    · have hlow := limbVal_lt xs.reverse
      rw [length_reverse] at hlow
      rw [size_add_two_pow_mul hlow fun h => hx (UInt32.toNat_inj.mp h),
        highBit_eq (by decide) x.toNat_lt hx]
    · rw [ih, not_not.mp hx, UInt32.toNat_zero, mul_zero, add_zero]

theorem bits_eq (a : BaseUint w) : a.bits = a.toNat.size := by
  rw [bits, bitsLoop_eq, reverse_reverse]
  rfl

/-! ## Quotients -/

theorem toNat_setBit {shift q : Nat} (hshift : shift < 32 * w)
    (hclear : a.toNat = 2 ^ (shift + 1) * q) : (a.setBit shift).toNat = a.toNat + 2 ^ shift := by
  have hpow : 2 ^ shift < 2 ^ (shift + 1) := Nat.pow_lt_pow_right (by decide) (Nat.lt_succ_self _)
  rw [hclear, two_pow_add_eq_or_of_lt hpow, ← hclear]
  refine eq_of_testBit_eq fun p => ?_
  rw [testBit_or, testBit_two_pow, testBit_toNat, testBit_toNat, setBit,
    bitAt_orAt _ (by rw [a.width]; omega), testBit_shiftLeft_word _ (mod_lt _ (by decide))
      (mod_lt _ (by decide)), UInt32.toNat_one]
  congr 1
  rw [Bool.eq_iff_iff]
  simp only [Bool.and_eq_true, decide_eq_true_eq, testBit_one_eq_true_iff_self_eq_zero]
  omega

/-- With `n` rounds to go, the divisor has been moved up `n - 1` places and
the quotient has no bit below `n`; each round keeps `quotient * D + num`. -/
theorem divLoop_spec {D q n : Nat} {num div quotient : BaseUint w}
    (hdiv : div.toNat = D * 2 ^ n / 2) (hnum : num.toNat < D * 2 ^ n)
    (hquot : quotient.toNat = 2 ^ n * q) (hn : n ≤ 32 * w) :
    (divLoop n num div quotient).2.toNat < D ∧
      (divLoop n num div quotient).1.toNat * D + (divLoop n num div quotient).2.toNat =
        quotient.toNat * D + num.toNat := by
  induction n generalizing num div quotient q with
  | zero =>
    rw [pow_zero, mul_one] at hnum
    exact ⟨hnum, rfl⟩
  | succ n ih =>
    have hdiv' : div.toNat = D * 2 ^ n := by
      rw [hdiv, Nat.pow_succ, ← Nat.mul_assoc, Nat.mul_div_cancel _ (by decide)]
    have hnext : (div.shr 1).toNat = D * 2 ^ n / 2 := by rw [toNat_shr, hdiv', pow_one]
    have hdouble : D * 2 ^ (n + 1) = D * 2 ^ n + D * 2 ^ n := by ring
    rw [divLoop]
    split_ifs with hge
    · rw [compareTo_nonneg_iff] at hge
      have hsub := toNat_sub hge
      have hset := toNat_setBit hn hquot
      obtain ⟨hlt, heq⟩ := ih hnext (show (num.sub div).toNat < D * 2 ^ n by omega)
        (q := 2 * q + 1) (by rw [hset, hquot]; ring) (le_of_succ_le hn)
      have hexpand : (quotient.toNat + 2 ^ n) * D = quotient.toNat * D + D * 2 ^ n := by ring
      refine ⟨hlt, heq.trans ?_⟩
      rw [hset]
      omega
    · rw [compareTo_nonneg_iff] at hge
      exact ih hnext (by omega) (q := 2 * q) (by rw [hquot]; ring) (le_of_succ_le hn)

/-- `operator/=` is the quotient of the numbers and leaves the remainder in `num`. -/
theorem div_spec (a : BaseUint w) (hb : b.toNat ≠ 0) :
    ∃ c, a.div b = some c ∧ c.toNat = a.toNat / b.toNat ∧
      (a.divNum b).toNat = a.toNat % b.toNat := by
  have hbpos : 0 < b.toNat.size := size_pos.mpr (pos_of_ne_zero hb)
  rw [div, divNum, bits_eq, bits_eq, if_neg hbpos.ne']
  split_ifs with hlt
  · have hsmall : a.toNat < b.toNat := (lt_size_self _).trans_le (lt_size.mp hlt)
    exact ⟨_, rfl, by rw [toNat_zero, div_eq_of_lt hsmall], (mod_eq_of_lt hsmall).symm⟩
  obtain ⟨s, hs⟩ := Nat.exists_eq_add_of_le (Nat.le_of_not_lt hlt)
  have hwidth : a.toNat.size ≤ 32 * w := size_le.mpr a.toNat_lt
  -- The divisor is moved up until its highest bit stands under that of the numerator.
  have hfit : b.toNat * 2 ^ s < 2 ^ a.toNat.size := by
    rw [hs, pow_add]
    exact Nat.mul_lt_mul_of_pos_right (Nat.lt_size_self _) (Nat.two_pow_pos s)
  have hmove : (b.shl s).toNat = b.toNat * 2 ^ (s + 1) / 2 := by
    rw [toNat_shl, Nat.mod_eq_of_lt (hfit.trans_le (Nat.pow_le_pow_right (by decide) hwidth)),
      Nat.pow_succ, ← Nat.mul_assoc, Nat.mul_div_cancel _ (by decide)]
  have hnum : a.toNat < b.toNat * 2 ^ (s + 1) := by
    have htop : 2 ^ (b.toNat.size - 1) ≤ b.toNat := lt_size.mp (by omega)
    calc a.toNat < 2 ^ a.toNat.size := lt_size_self _
      _ = 2 ^ (b.toNat.size - 1) * 2 ^ (s + 1) := by
          rw [← pow_add]
          congr 1
          omega
      _ ≤ b.toNat * 2 ^ (s + 1) := mul_le_mul_right _ htop
  obtain ⟨hrem, heq⟩ := divLoop_spec hmove hnum (q := 0) (toNat_zero w) (by omega)
  rw [toNat_zero, zero_mul, zero_add, mul_comm, add_comm] at heq
  rw [hs, Nat.add_sub_cancel_left]
  obtain ⟨hquot, hmod⟩ := (Nat.div_mod_unique (Nat.pos_of_ne_zero hb)).mpr ⟨heq, hrem⟩
  exact ⟨_, rfl, hquot.symm, hmod.symm⟩

theorem div_eq_some (a : BaseUint w) (hb : b.toNat ≠ 0) :
    ∃ c, a.div b = some c ∧ c.toNat = a.toNat / b.toNat := by
  obtain ⟨c, hc, hquot, -⟩ := div_spec a hb
  exact ⟨c, hc, hquot⟩

/-- **`baseUint_arithmetic`** — the operators of a `base_uint` of `w` words are arithmetic modulo
`2 ^ (32 * w)`, `bits` is the length in bits, and a quotient leaves the remainder behind. -/
theorem baseUint_arithmetic (a b : BaseUint w) (b32 : UInt32) (s : Nat) :
    (a.mul32 b32).toNat = a.toNat * b32.toNat % 2 ^ (32 * w) ∧
    (a.mul b).toNat = a.toNat * b.toNat % 2 ^ (32 * w) ∧
    (a.shl s).toNat = a.toNat * 2 ^ s % 2 ^ (32 * w) ∧
    (a.shr s).toNat = a.toNat / 2 ^ s ∧
    (a.add b).toNat = (a.toNat + b.toNat) % 2 ^ (32 * w) ∧
    ((a.sub b).toNat : Int) = ((a.toNat : Int) - b.toNat) % 2 ^ (32 * w) ∧
    a.bits = a.toNat.size ∧
    (b.toNat ≠ 0 → ∃ c, a.div b = some c ∧ c.toNat = a.toNat / b.toNat ∧
      (a.divNum b).toNat = a.toNat % b.toNat) := by
  refine ⟨toNat_mul32 a b32, toNat_mul a b, toNat_shl a s, toNat_shr a s, toNat_add a b, ?_,
    bits_eq a, div_spec a⟩
  have hb : b.toNat ≤ 2 ^ (32 * w) := b.toNat_lt.le
  rw [toNat_sub_mod, Int.natCast_mod, cast_add, cast_sub hb]
  push_cast
  rw [show (a.toNat : Int) + (2 ^ (32 * w) - b.toNat) = a.toNat - b.toNat + 2 ^ (32 * w) by ring,
    Int.add_emod_right]

end BaseUint

end MonetaryUnit
