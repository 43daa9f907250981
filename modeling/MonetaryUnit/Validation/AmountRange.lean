/-
# MonetaryUnit.Validation.AmountRange — what the wrapped `MAX_MONEY` admits

`MAX_MONEY` is formed in `uint64_t`, where the product wraps to 7766279631452241920. That is more
than four fifths of the signed 64-bit range, and two places of the code were written for a
smaller bound.

* `CheckTransaction` adds an output to the running total before it tests the total. Two admitted
  amounts can leave the range.
* `CompressAmount` multiplies an amount without trailing zeros by nine. The product leaves the
  unsigned range above 2049638230412172402, and what is stored then is the short form of another
  amount.

Both results are exact: they say for which transactions, and for which amounts, the code is right.
-/

import MonetaryUnit.Serialize.Compressor
import MonetaryUnit.Validation.Supply

namespace MonetaryUnit

open Lib List Nat

/-! ## The running total of `CheckTransaction` -/

/-- `CheckTransaction` comes to its loop over the outputs. -/
def reachesOutputs (tx : CTransaction) : Bool := !tx.vin.isEmpty && !tx.vout.isEmpty &&
    decide ((freeGetSerializeSize tx.getSerializeSize).toNat ≤ maxBlockSize)

/-- The loop adds `txout`, output number `k`, to the total `nValueOut`: it went through the
outputs before, and the value passes the two tests made on it first. -/
structure AddsOutput (tx : CTransaction) (k : Nat) (nValueOut : CAmount) (txout : CTxOut) :
    Prop where
  reached : reachesOutputs tx = true
  before : (tx.vout.take k).foldlM checkOutValue 0 = .ok nValueOut
  output : tx.vout[k]? = some txout
  nonneg : 0 ≤ txout.nValue
  le : txout.nValue ≤ maxMoney

/-- The exact total of some outputs. -/
def exactTotal (vout : List CTxOut) : Int := (vout.map fun txout => txout.nValue.toInt).sum

variable {vout : List CTxOut} {txout : CTxOut} {n : Nat}

theorem exactTotal_cons : exactTotal (txout :: vout) = txout.nValue.toInt + exactTotal vout := by
  rw [exactTotal, map_cons, sum_cons, exactTotal]

theorem exactTotal_take_succ {k : Nat} (h : vout[k]? = some txout) :
    exactTotal (vout.take (k + 1)) = exactTotal (vout.take k) + txout.nValue.toInt := by
  rw [take_add_one, h, exactTotal, exactTotal]
  simp

theorem exactTotal_nonneg
    (h : ∀ txout ∈ vout, moneyRange txout.nValue = true) : 0 ≤ exactTotal vout := by
  apply sum_nonneg
  intro x hx
  obtain ⟨txout, hout, rfl⟩ := mem_map.mp hx
  exact toInt_nonneg_of_range (h txout hout)

/-- Outputs in range with a total in range go through the loop. -/
theorem foldlM_checkOutValue_ok {n : CAmount} (hn : moneyRange n = true)
    (hall : ∀ txout ∈ vout, moneyRange txout.nValue = true)
    (hsum : n.toInt + exactTotal vout ≤ maxMoney.toInt) :
    ∃ v, vout.foldlM checkOutValue n = .ok v := by
  induction vout generalizing n with
  | nil => exact ⟨n, rfl⟩
  | cons txout rest ih =>
    rw [forall_mem_cons] at hall
    rw [exactTotal_cons] at hsum
    have hrest := exactTotal_nonneg hall.2
    have hn' := moneyRange_iff.mp hn
    have hout := moneyRange_iff.mp hall.1
    rw [maxMoney_toInt] at hsum
    have hadd : (n + txout.nValue).toInt = n.toInt + txout.nValue.toInt := by
      apply toInt_add_of_bounds <;> omega
    have hrange : moneyRange (n + txout.nValue) = true := by
      rw [moneyRange_iff]
      omega
    obtain ⟨v, hv⟩ := ih hrange hall.2 (by rw [hadd, maxMoney_toInt]; omega)
    have hparts := hall.1
    rw [moneyRange, Bool.and_eq_true] at hparts
    refine ⟨v, ?_⟩
    rw [foldlM_cons, bind_eq_ok]
    refine ⟨n + txout.nValue, ?_, hv⟩
    simp only [checkOutValue, require_bind_eq_ok]
    exact ⟨hparts.1, hparts.2, hrange, rfl⟩

theorem foldlM_checkOutValue_zero {n : CAmount} (h : vout.foldlM checkOutValue 0 = .ok n) :
    moneyRange n = true ∧ n.toInt = exactTotal vout ∧
      ∀ txout ∈ vout, moneyRange txout.nValue = true := by
  obtain ⟨hrange, hsum, hall, -⟩ := foldlM_checkOutValue (by decide) h
  exact ⟨hrange, by simpa [exactTotal] using hsum, hall⟩

theorem range_take_succ {k : Nat} (h : vout[k]? = some txout) :
    (∀ o ∈ vout.take (k + 1), moneyRange o.nValue = true) ↔
      (∀ o ∈ vout.take k, moneyRange o.nValue = true) ∧ moneyRange txout.nValue = true := by
  rw [take_add_one, h, forall_mem_append]
  simp

/-- **`checkTransaction_adds_exactly_iff`** — the additions of the loop stay in the signed 64-bit
range exactly when the total that first exceeds `MAX_MONEY` does. -/
theorem checkTransaction_adds_exactly_iff (tx : CTransaction) :
    (∀ k nValueOut txout, AddsOutput tx k nValueOut txout →
        nValueOut.toInt + txout.nValue.toInt < 2 ^ 63) ↔
      (reachesOutputs tx = true → ∀ k,
        (∀ txout ∈ tx.vout.take (k + 1), moneyRange txout.nValue = true) →
        exactTotal (tx.vout.take k) ≤ maxMoney.toInt →
        exactTotal (tx.vout.take (k + 1)) < 2 ^ 63) := by
  constructor
  · intro hadds hreached k hall hle
    rcases hout : tx.vout[k]? with _ | txout
    · -- past the last output nothing is added
      rw [take_add_one, hout, Option.toList_none, append_nil]
      rw [maxMoney_toInt] at hle
      omega
    obtain ⟨hbefore, hrange⟩ := (range_take_succ hout).mp hall
    obtain ⟨v, hv⟩ := foldlM_checkOutValue_ok (show moneyRange 0 = true by decide) hbefore
      (by simpa using hle)
    rw [moneyRange, Bool.and_eq_true, decide_eq_true_eq, decide_eq_true_eq] at hrange
    obtain ⟨-, htotal, -⟩ := foldlM_checkOutValue_zero hv
    rw [exactTotal_take_succ hout, ← htotal]
    exact hadds k v txout ⟨hreached, hv, hout, hrange.1, hrange.2⟩
  · intro hcond k nValueOut txout h
    obtain ⟨hrange, htotal, hall⟩ := foldlM_checkOutValue_zero h.before
    have hout : moneyRange txout.nValue = true := by
      rw [moneyRange, Bool.and_eq_true, decide_eq_true_eq, decide_eq_true_eq]
      exact ⟨h.nonneg, h.le⟩
    have hfits := hcond h.reached k ((range_take_succ h.output).mpr ⟨hall, hout⟩)
      (htotal ▸ (moneyRange_iff.mp hrange).2)
    rwa [exactTotal_take_succ h.output, ← htotal] at hfits

/-- A transaction with one input and two outputs of `MAX_MONEY`. -/
def twiceMaxMoney : CTransaction where
  hash := 0
  nVersion := 1
  vin := [⟨⟨1, 0⟩, [], 0xFFFFFFFF⟩]
  vout := [⟨maxMoney, []⟩, ⟨maxMoney, []⟩]
  nLockTime := 0
  strTxComment := []

/-- Its second output is added, and the total leaves the range. -/
theorem twiceMaxMoney_overflows : AddsOutput twiceMaxMoney 1 maxMoney ⟨maxMoney, []⟩ ∧
      2 ^ 63 ≤ maxMoney.toInt + maxMoney.toInt := by
  refine ⟨⟨by decide +kernel, by decide +kernel, rfl, by decide, by decide⟩, ?_⟩
  decide

/-! ## The short form of an amount -/

/-- Scaling wraps only in its result. -/
theorem scaleUp_mod (e : Nat) (hn : n < 2 ^ 64) : scaleUp e n = n * 10 ^ e % 2 ^ 64 := by
  induction e generalizing n with
  | zero => rw [scaleUp, pow_zero, mul_one, mod_eq_of_lt hn]
  | succ e ih =>
    have hpow : n * 10 ^ (e + 1) = n * 10 * 10 ^ e := by ring
    rw [scaleUp, ih (mod_lt _ (by decide)), hpow, mod_mul_mod]

/-- An equation `m * c = m + d` modulo `M` has one solution when `c - 1` has an inverse. -/
theorem eq_of_mul_mod_eq_add {M c inv m d : Nat} (hc : 0 < c) (hinv : inv * (c - 1) % M = 1)
    (hm : m < M) (h : m * c % M = m + d) : m = inv * d % M := by
  have hmod : m + (c - 1) * m ≡ m + d [MOD M] := by
    have hsplit : m + (c - 1) * m = m * c := by
      obtain ⟨c, rfl⟩ : ∃ c', c = c' + 1 := ⟨c - 1, by omega⟩
      rw [Nat.add_sub_cancel]
      ring
    rw [hsplit, ← h]
    exact (mod_modEq _ _).symm
  have hcancel : (c - 1) * m ≡ d [MOD M] := Nat.ModEq.add_left_cancel' m hmod
  have hunit : inv * (c - 1) ≡ 1 [MOD M] := by
    rcases lt_or_ge 1 M with h1 | h1
    · rw [Nat.ModEq, hinv, mod_eq_of_lt h1]
    · have hM : M = 1 := by omega
      rw [hM]
      exact modEq_one
  have hchain : m ≡ inv * d [MOD M] := by
    calc m = 1 * m := (one_mul m).symm
      _ ≡ inv * (c - 1) * m [MOD M] := (hunit.mul_right m).symm
      _ = inv * ((c - 1) * m) := mul_assoc _ _ _
      _ ≡ inv * d [MOD M] := hcancel.mul_left inv
  rw [← mod_eq_of_lt hm]
  exact hchain

/-- A wrapped short form names another amount: `front` is the number in front of the digit, `e`
the digit it ends in, and `d` what the amount lost. -/
theorem scaleUp_wrapped_ne {e inv front d : Nat} (hn : n ≤ 7766279631452241920)
    (hback : front + d = n) (hinv : inv * (10 ^ e - 1) % 2 ^ 64 = 1)
    (hfar : 7766279631452241920 < inv * d % 2 ^ 64 + d) : scaleUp e (front % 2 ^ 64) ≠ n := by
  have hfront : front < 2 ^ 64 := by omega
  rw [mod_eq_of_lt hfront, scaleUp_mod e hfront]
  intro heq
  rw [← hback] at heq
  have hsolved := eq_of_mul_mod_eq_add (Nat.pow_pos (by decide)) hinv hfront heq
  omega

/-- The number in front of the digit, when `c` was taken from it by the wrap. What the amount
loses is one of two numbers, as its last digit falls. -/
theorem decompressAmount_wrapped_ne {y c e d inv : Nat} (hn : n ≤ 7766279631452241920) (he : e < 9)
    (hinv : inv * (10 ^ e - 1) % 2 ^ 64 = 1)
    (hlost : y / 9 * 10 + (y % 9 + 1) + d = n ∨ y / 9 * 10 + (y % 9 + 1) + (d + 1) = n)
    (hfar : 7766279631452241920 < inv * d % 2 ^ 64 + d)
    (hfar' : 7766279631452241920 < inv * (d + 1) % 2 ^ 64 + (d + 1)) (hx : c = 1 + y * 10 + e) :
    decompressAmount c ≠ n := by
  rw [hx, decompressAmount_eq (by omega), if_pos he]
  rcases hlost with hback | hback
  · exact scaleUp_wrapped_ne hn hback hinv hfar
  · exact scaleUp_wrapped_ne hn hback hinv hfar'

/-- Above the bound an amount without trailing zeros does not come back. The three cases are how
often `2 ^ 64` is dropped from its short form. -/
theorem decompressAmount_compressAmount_ne (hn : n ≤ 7766279631452241920) (hdigit : n % 10 ≠ 0)
    (hlarge : 2049638230412172402 < n) : decompressAmount (compressAmount n) ≠ n := by
  have hstrip : stripZeros 9 n 0 = (n, 0) := by rw [stripZeros, if_neg hdigit]
  rw [compressAmount_eq (by omega) hstrip, if_pos (by decide)]
  rcases lt_or_ge (1 + (n / 10 * 9 + (n % 10 - 1)) * 10) (2 * 2 ^ 64) with h1 | h1
  · refine @decompressAmount_wrapped_ne n (n / 10 * 9 + (n % 10 - 1) - 1844674407370955162)
      _ 4 2049638230412172402 13458245626333751279 hn (by decide) (by decide) ?_ (by decide)
      (by decide) ?_ <;> omega
  · rcases lt_or_ge (1 + (n / 10 * 9 + (n % 10 - 1)) * 10) (3 * 2 ^ 64) with h2 | h2
    · refine @decompressAmount_wrapped_ne n (n / 10 * 9 + (n % 10 - 1) - 3689348814741910324)
        _ 8 4099276460824344804 300153063250403071 hn (by decide) (by decide) ?_ (by decide)
        (by decide) ?_ <;> omega
    · refine @decompressAmount_wrapped_ne n (n / 10 * 9 + (n % 10 - 1) - 5534023222112865485)
        _ 2 6148914691236517205 12670490878911611211 hn (by decide) (by decide) ?_ (by decide)
        (by decide) ?_ <;> omega

/-- An amount with a trailing zero, or one up to the bound, comes back. -/
theorem decompressAmount_compressAmount_of_le (hn : n ≤ 7766279631452241920)
    (h : n % 10 = 0 ∨ n ≤ 2049638230412172402) : decompressAmount (compressAmount n) = n := by
  rcases Nat.eq_zero_or_pos n with rfl | hpos
  · rfl
  obtain ⟨m, k, heq, hm, hk, hdigit⟩ := stripZeros_spec 9 n 0
  rw [zero_add] at heq
  refine (decompressAmount_of_fits hpos (by omega) heq hm hk hdigit ?_).1
  rcases k with _ | k
  · -- no zero was stripped, so the second alternative holds
    rw [if_pos (by decide)]
    omega
  · have hten : m * 10 ≤ n := by
      rw [hm, pow_succ, mul_comm (10 ^ k), ← mul_assoc]
      exact Nat.le_mul_of_pos_right _ (Nat.pow_pos (by decide))
    split <;> omega

/-- **`amount_survives_compression_iff`** — an amount in the range comes back from its short form
exactly when it ends in a zero or is at most 2049638230412172402. -/
theorem amount_survives_compression_iff {v : CAmount} (h : moneyRange v = true) :
    decompressAmount (compressAmount v.toUInt64.toNat) = v.toUInt64.toNat ↔
      v.toUInt64.toNat % 10 = 0 ∨ v.toUInt64.toNat ≤ 2049638230412172402 := by
  have hrange := moneyRange_iff.mp h
  have hnat := toNat_toUInt64 hrange.1
  have hle : v.toUInt64.toNat ≤ 7766279631452241920 := by omega
  constructor
  · intro hback
    by_contra hnot
    rw [not_or, not_le] at hnot
    exact decompressAmount_compressAmount_ne hle hnot.1 hnot.2 hback
  · exact decompressAmount_compressAmount_of_le hle

/-- The largest amount below the bound comes back. -/
theorem amount_survives_compression_at_bound : moneyRange 2049638230412172402 = true ∧
      decompressAmount (compressAmount (2049638230412172402 : CAmount).toUInt64.toNat) =
        (2049638230412172402 : CAmount).toUInt64.toNat :=
  ⟨by decide, (amount_survives_compression_iff (by decide)).mpr (.inr (by decide))⟩

/-- The next amount is stored as 5, the short form of 10000. -/
theorem amount_above_bound_lost : moneyRange 2049638230412172403 = true ∧
      compressAmount (2049638230412172403 : CAmount).toUInt64.toNat = 5 ∧
      decompressAmount (compressAmount (2049638230412172403 : CAmount).toUInt64.toNat) = 10000 ∧
      (2049638230412172403 : CAmount).toUInt64.toNat ≠ 10000 := by
  decide +kernel

end MonetaryUnit
