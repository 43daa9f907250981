/-
# MonetaryUnit.Script.ScriptNum — numbers of the script language as byte strings

`CScriptNum` writes a number as its magnitude, lowest byte first, with the sign in the top bit of
the last byte. A magnitude has one list of bytes without a zero at its end (`IsMagnitude`), and
`withSign` is the step of `serialize` that adds the sign to it. Every byte string that passes the
minimality test of the constructor comes from that step, so that serializing is a bijection from the
numbers onto these strings. The results of the arithmetic opcodes fit in five bytes.
-/

import Mathlib.Tactic.Ring
import MonetaryUnit.Script.Safety

namespace MonetaryUnit

open Lib List Option Nat

/-! ## Magnitudes -/

/-- The bytes of a magnitude: the last one is not zero. -/
def IsMagnitude (r : Bytes) : Prop := ∀ back ∈ r.getLast?, back ≠ 0

theorem isMagnitude_nil : IsMagnitude [] := by simp [IsMagnitude]

variable {l r : Bytes} {b : UInt8} {fuel : Nat} {vch : Bytes} {value : Int}

theorem isMagnitude_concat : IsMagnitude (l ++ [b]) ↔ b ≠ 0 := by
  simp [IsMagnitude]

theorem leNat_concat (l : Bytes) (b : UInt8) :
    leNat (l ++ [b]) = leNat l + b.toNat * 256 ^ l.length := by
  induction l with
  | nil => simp [leNat]
  | cons a l ih =>
    rw [cons_append, leNat, leNat, ih, length_cons]
    ring

theorem toNat_pos (h : b ≠ 0) : 0 < b.toNat := by
  rw [pos_iff_ne_zero]
  intro hzero
  exact h (UInt8.toNat_inj.mp hzero)

/-- The last byte counts. -/
theorem IsMagnitude.leNat_pos (h : IsMagnitude r) (hne : r ≠ []) : 0 < leNat r := by
  obtain rfl | ⟨l, b, rfl⟩ := eq_nil_or_concat' r
  · exact absurd rfl hne
  · rw [leNat_concat]
    have hb := mul_pos (toNat_pos (isMagnitude_concat.mp h)) (pow_pos (n := l.length)
      (show 0 < 256 by decide))
    omega

theorem IsMagnitude.tail {a : UInt8} (h : IsMagnitude (a :: l)) : IsMagnitude l := by
  obtain rfl | ⟨l, b, rfl⟩ := eq_nil_or_concat' l
  · exact isMagnitude_nil
  · rw [← cons_append] at h
    exact isMagnitude_concat.mpr (isMagnitude_concat.mp h)

/-- A magnitude has one list of bytes. -/
theorem IsMagnitude.eq_of_leNat {r' : Bytes} (h : IsMagnitude r) (h' : IsMagnitude r')
    (heq : leNat r = leNat r') : r = r' := by
  induction r generalizing r' with
  | nil =>
    by_contra hne
    have hpos := h'.leNat_pos (Ne.symm hne)
    rw [← heq] at hpos
    exact absurd hpos (lt_irrefl 0)
  | cons a l ih =>
    cases r' with
    | nil =>
      have hpos := h.leNat_pos (cons_ne_nil a l)
      rw [heq] at hpos
      exact absurd hpos (lt_irrefl 0)
    | cons a' l' =>
      have ha := a.toNat_lt
      have ha' := a'.toNat_lt
      simp only [leNat] at heq
      have hhead : a = a' := UInt8.toNat_inj.mp (by omega)
      rw [hhead, ih h.tail h'.tail (by omega)]

/-- The loop of `serialize`. -/
theorem magnitudeBytes_spec {n : Nat} (h : n < 256 ^ fuel) :
    leNat (magnitudeBytes fuel n) = n ∧ IsMagnitude (magnitudeBytes fuel n) := by
  induction fuel generalizing n with
  | zero =>
    obtain rfl : n = 0 := by simpa using h
    exact ⟨rfl, isMagnitude_nil⟩
  | succ fuel ih =>
    rw [magnitudeBytes]
    by_cases hn : n = 0
    · rw [hn]
      exact ⟨rfl, isMagnitude_nil⟩
    rw [if_neg hn]
    have hdiv : n / 256 < 256 ^ fuel := by
      rw [div_lt_iff_lt_mul (by decide)]
      exact h
    obtain ⟨hval, hmag⟩ := ih hdiv
    refine ⟨?_, ?_⟩
    · rw [leNat, UInt8.toNat_ofNat']
      omega
    obtain hnil | ⟨l, b, hconcat⟩ := eq_nil_or_concat' (magnitudeBytes fuel (n / 256))
    · -- a single byte, which is the number itself
      rw [hnil] at hval ⊢
      rw [← nil_append [UInt8.ofNat n], isMagnitude_concat]
      intro hzero
      have hlow := congrArg UInt8.toNat hzero
      simp only [leNat] at hval
      simp at hlow
      omega
    · rw [hconcat] at hmag ⊢
      rw [← cons_append, isMagnitude_concat]
      exact isMagnitude_concat.mp hmag

theorem magnitudeBytes_leNat (h : IsMagnitude r) (hlen : r.length ≤ fuel) :
    magnitudeBytes fuel (leNat r) = r := by
  have hlt : leNat r < 256 ^ fuel := (leNat_lt r).trans_le (Nat.pow_le_pow_right (by decide) hlen)
  obtain ⟨hval, hmag⟩ := magnitudeBytes_spec hlt
  exact hmag.eq_of_leNat h hval

/-! ## The sign -/

/-- The end of `serialize`: the sign goes into the last byte when its top bit is free, and into a
byte of its own otherwise. -/
def withSign (neg : Bool) (r : Bytes) : Bytes :=
  match r.getLast? with
  | none => []
  | some back =>
    if back &&& 0x80 ≠ 0 then r ++ [if neg then 0x80 else 0]
    else if neg then r.dropLast ++ [back ||| 0x80]
    else r

theorem scriptNumSerialize_eq (value : Int) :
    scriptNumSerialize value = withSign (decide (value < 0)) (magnitudeBytes 8 value.natAbs) :=
  rfl

theorem signBit_iff (b : UInt8) : b &&& 0x80 ≠ 0 ↔ 128 ≤ b.toNat := by
  obtain ⟨b⟩ := b
  revert b
  decide +kernel

theorem toNat_setSign (h : b.toNat < 128) : (b ||| 0x80).toNat = b.toNat + 128 := by
  obtain ⟨b⟩ := b
  revert b
  decide +kernel

theorem toNat_clearSign (b : UInt8) : (b &&& 0x7f).toNat = b.toNat % 128 := by
  obtain ⟨b⟩ := b
  revert b
  decide +kernel

theorem withSign_wide (h : 128 ≤ b.toNat) (neg : Bool) :
    withSign neg (l ++ [b]) = l ++ [b] ++ [if neg then 0x80 else 0] := by
  simp [withSign, (signBit_iff b).mpr h]

theorem signBit_eq_zero (h : b.toNat < 128) : b &&& 0x80 = 0 :=
  of_not_not fun hbit => absurd ((signBit_iff b).mp hbit) (not_le.mpr h)

theorem withSign_narrow (h : b.toNat < 128) (neg : Bool) :
    withSign neg (l ++ [b]) = l ++ [if neg then b ||| 0x80 else b] := by
  cases neg <;> simp [withSign, signBit_eq_zero h]

theorem setVch_concat_positive (h : b.toNat < 128) :
    setVch (l ++ [b]) = (leNat l + b.toNat * 256 ^ l.length : Nat) := by
  simp [setVch, signBit_eq_zero h, leNat_concat]

theorem setVch_concat_negative (h : 128 ≤ b.toNat) :
    setVch (l ++ [b]) = -((leNat l + (b.toNat - 128) * 256 ^ l.length : Nat) : Int) := by
  have hsplit : b.toNat * 256 ^ l.length =
      (b.toNat - 128) * 256 ^ l.length + 128 * 256 ^ l.length := by
    rw [← Nat.add_mul, Nat.sub_add_cancel h]
  have hlen : (l ++ [b]).length - 1 = l.length := by simp
  simp only [setVch, getLast?_append, getLast?_singleton, some_or,
    if_pos ((signBit_iff b).mpr h), leNat_concat, hlen, hsplit]
  omega

theorem setVch_withSign (h : IsMagnitude r) (neg : Bool) :
    setVch (withSign neg r) = if neg then -(leNat r : Int) else leNat r := by
  obtain rfl | ⟨l, b, rfl⟩ := eq_nil_or_concat' r
  · cases neg <;> rfl
  by_cases hb : 128 ≤ b.toNat
  · rw [withSign_wide hb]
    cases neg with
    | true =>
      have hsign : (128 : UInt8).toNat = 128 := rfl
      rw [setVch_concat_negative (hsign ▸ le_rfl)]
      simp
    | false =>
      rw [setVch_concat_positive (by decide)]
      simp
  · have hlow : b.toNat < 128 := Nat.lt_of_not_le hb
    rw [withSign_narrow hlow, leNat_concat]
    cases neg with
    | true =>
      have hset := toNat_setSign hlow
      rw [if_pos rfl, if_pos rfl, setVch_concat_negative (by omega), hset, Nat.add_sub_cancel]
    | false => exact setVch_concat_positive hlow

/-! ## Minimal strings -/

theorem minimallyEncoded_concat (l : Bytes) (back : UInt8) : minimallyEncoded (l ++ [back]) = true ↔
      back.toNat % 128 ≠ 0 ∨ ∃ l' next, l = l' ++ [next] ∧ 128 ≤ next.toNat := by
  have hback : back &&& 0x7f ≠ 0 ↔ back.toNat % 128 ≠ 0 := by
    rw [← toNat_clearSign, not_iff_not, ← UInt8.toNat_inj]
    rfl
  rw [minimallyEncoded, reverse_append, reverse_singleton, singleton_append]
  obtain rfl | ⟨l', next, rfl⟩ := eq_nil_or_concat' l
  · simp only [reverse_nil, bne_iff_ne, hback]
    simp
  · simp only [reverse_append, reverse_singleton, singleton_append,
      Bool.or_eq_true, bne_iff_ne, hback, signBit_iff]
    simp

theorem minimallyEncoded_withSign (h : IsMagnitude r) (neg : Bool) :
    minimallyEncoded (withSign neg r) = true := by
  obtain rfl | ⟨l, b, rfl⟩ := eq_nil_or_concat' r
  · rfl
  by_cases hb : 128 ≤ b.toNat
  · rw [withSign_wide hb, minimallyEncoded_concat]
    exact .inr ⟨l, b, rfl, hb⟩
  have hlow : b.toNat < 128 := Nat.lt_of_not_le hb
  have hpos := toNat_pos (isMagnitude_concat.mp h)
  have hset := toNat_setSign hlow
  rw [withSign_narrow hlow, minimallyEncoded_concat]
  left
  split <;> omega

/-- A byte is its seven low bits and its sign. -/
theorem sign_cases (b : UInt8) :
    (b.toNat < 128 ∧ b &&& 0x7f = b) ∨ (128 ≤ b.toNat ∧ (b &&& 0x7f) ||| 0x80 = b) := by
  obtain ⟨b⟩ := b
  revert b
  decide +kernel

/-- Every minimal string is a magnitude with a sign. -/
theorem exists_withSign (h : minimallyEncoded vch = true) :
    ∃ neg r, IsMagnitude r ∧ vch = withSign neg r ∧ r.length ≤ vch.length := by
  obtain rfl | ⟨l, back, rfl⟩ := eq_nil_or_concat' vch
  · exact ⟨false, [], isMagnitude_nil, rfl, le_rfl⟩
  have hlow := toNat_clearSign back
  by_cases hback : back.toNat % 128 = 0
  · -- the top byte holds only the sign
    obtain hne | ⟨l', next, rfl, hnext⟩ := (minimallyEncoded_concat l back).mp h
    · exact absurd hback hne
    have hmag : IsMagnitude (l' ++ [next]) := by
      rw [isMagnitude_concat]
      rintro rfl
      exact absurd hnext (by decide)
    have hsign : back = if decide (128 ≤ back.toNat) then 0x80 else 0 := by
      have hlt := back.toNat_lt
      by_cases hbig : 128 ≤ back.toNat
      · rw [if_pos (by simpa using hbig)]
        exact UInt8.toNat_inj.mp (show back.toNat = 128 by omega)
      · rw [if_neg (by simpa using hbig)]
        exact UInt8.toNat_inj.mp (show back.toNat = 0 by omega)
    refine ⟨decide (128 ≤ back.toNat), l' ++ [next], hmag, ?_, by simp⟩
    rw [withSign_wide hnext, ← hsign]
  · have hne : back &&& 0x7f ≠ 0 := by
      intro hzero
      rw [hzero] at hlow
      exact hback hlow.symm
    have hfree : (back &&& 0x7f).toNat < 128 := by omega
    refine ⟨decide (128 ≤ back.toNat), l ++ [back &&& 0x7f], isMagnitude_concat.mpr hne, ?_,
      by simp⟩
    rcases sign_cases back with ⟨hsmall, heq⟩ | ⟨hbig, heq⟩
    · rw [decide_eq_false (by omega), withSign_narrow hfree, heq]
      rfl
    · rw [decide_eq_true hbig, withSign_narrow hfree, if_pos rfl, heq]

/-! ## Both directions -/

theorem setVch_scriptNumSerialize (h : value.natAbs < 256 ^ 8) :
    setVch (scriptNumSerialize value) = value := by
  obtain ⟨hval, hmag⟩ := magnitudeBytes_spec h
  rw [scriptNumSerialize_eq, setVch_withSign hmag]
  by_cases hneg : value < 0
  · rw [if_pos (by simpa using hneg)]
    omega
  · rw [if_neg (by simpa using hneg)]
    omega

theorem scriptNumSerialize_setVch (hmin : minimallyEncoded vch = true) (hlen : vch.length ≤ 8) :
    scriptNumSerialize (setVch vch) = vch := by
  obtain ⟨neg, r, hmag, rfl, hr⟩ := exists_withSign hmin
  rw [scriptNumSerialize_eq, setVch_withSign hmag]
  by_cases hnil : r = []
  · rw [hnil]
    cases neg <;> rfl
  have hpos := hmag.leNat_pos hnil
  cases neg with
  | true =>
    rw [if_pos rfl, Int.natAbs_neg, Int.natAbs_natCast, magnitudeBytes_leNat hmag (by omega),
      decide_eq_true (by omega)]
  | false =>
    rw [if_neg Bool.false_ne_true, Int.natAbs_natCast, magnitudeBytes_leNat hmag (by omega),
      decide_eq_false (by omega)]

/-- A minimal string is as long as its number needs. -/
theorem length_scriptNumSerialize_le {k : Nat} (hk : k < 8) (h : value.natAbs < 128 * 256 ^ k) :
    (scriptNumSerialize value).length ≤ k + 1 := by
  have hpow : 256 ^ (k + 1) ≤ 256 ^ 8 := Nat.pow_le_pow_right (by decide) hk
  have hbound : value.natAbs < 256 ^ 8 := by
    omega
  obtain ⟨hval, hmag⟩ := magnitudeBytes_spec hbound
  rw [scriptNumSerialize_eq]
  generalize magnitudeBytes 8 value.natAbs = r at hval hmag
  obtain rfl | ⟨l, b, rfl⟩ := eq_nil_or_concat' r
  · exact zero_le _
  rw [leNat_concat] at hval
  have hb := toNat_pos (isMagnitude_concat.mp hmag)
  by_cases hwide : 128 ≤ b.toNat
  · -- the sign takes a byte of its own, so the magnitude is shorter
    have hl : l.length < k := by
      by_contra hge
      have hmono := mul_le_mul hwide
        (Nat.pow_le_pow_right (show 0 < 256 by decide) (Nat.le_of_not_lt hge))
      omega
    rw [withSign_wide hwide, length_append, length_append, length_singleton, length_singleton]
    omega
  · have hl : l.length ≤ k := by
      by_contra hgt
      have hmono := Nat.mul_le_mul hb
        (Nat.pow_le_pow_right (show 0 < 256 by decide) (Nat.lt_of_not_le hgt))
      omega
    rw [withSign_narrow (Nat.lt_of_not_le hwide), length_append, length_singleton]
    omega

/-! ## Arithmetic -/

/-- The operation succeeds and its result is small. -/
def SmallResult (x : StackM Int) : Prop :=
  ∀ stack, ∃ n, x stack = (.ok n, stack) ∧ n.natAbs < 128 * 256 ^ 4

theorem SmallResult.pure {n : Int} (h : n.natAbs < 128 * 256 ^ 4) :
    SmallResult (Pure.pure n) := fun _ => ⟨n, rfl, h⟩

theorem SmallResult.require {ok : Prop} [Decidable ok] {e : ScriptStop} {n : Int} (hok : ok)
    (h : n.natAbs < 128 * 256 ^ 4) :
    SmallResult (do Command.require (decide ok) e; Pure.pure n) := by
  intro stack
  refine ⟨n, ?_, h⟩
  rw [decide_eq_true hok]
  rfl

theorem SmallResult.ofBool (b : Bool) : SmallResult (Pure.pure (ofBool b)) :=
  .pure (by cases b <;> decide)

theorem applyUnary_small (op : UnaryOp) {bn : Int} (h : bn.natAbs < 256 ^ 4) :
    SmallResult (applyUnary op bn) := by
  have hmin : int64Min = -2 ^ 63 := rfl
  have hmax : int64Max = 2 ^ 63 - 1 := rfl
  cases op with
  | add1 => exact .require (by omega) (by omega)
  | sub1 => exact .require (by omega) (by omega)
  | negate => exact .require (by omega) (by omega)
  | abs =>
    rw [applyUnary]
    split
    · exact .require (by omega) (by omega)
    · exact .pure (by omega)
  | not => exact .ofBool _
  | notEqual0 => exact .ofBool _

theorem applyBinary_small (op : BinaryOp) {bn1 bn2 : Int} (h1 : bn1.natAbs < 256 ^ 4)
    (h2 : bn2.natAbs < 256 ^ 4) : SmallResult (applyBinary op bn1 bn2) := by
  have hmin : int64Min = -2 ^ 63 := rfl
  have hmax : int64Max = 2 ^ 63 - 1 := rfl
  cases op with
  | add => exact .require (by omega) (by omega)
  | sub => exact .require (by omega) (by omega)
  | min =>
    refine .pure ?_
    split <;> omega
  | max =>
    refine .pure ?_
    split <;> omega
  | _ => exact .ofBool _

theorem SmallResult.length_le {x : StackM Int} (h : SmallResult x) (stack : List Bytes) :
    ∃ n, x stack = (.ok n, stack) ∧ (scriptNumSerialize n).length ≤ 5 := by
  obtain ⟨n, hrun, hn⟩ := h stack
  exact ⟨n, hrun, length_scriptNumSerialize_le (by decide) hn⟩

/-- **`scriptNum_bijection`** — numbers and minimal strings correspond: a number of 64 bits other
than the least one is written in at most eight bytes and read back from them; the constructor
accepts a string as minimal exactly when it is what its number is written as; and the arithmetic
opcodes, on operands the constructor accepts, compute numbers that are written in at most five
bytes. -/
theorem scriptNum_bijection : (∀ value : Int, int64Min < value → value ≤ int64Max →
      (scriptNumSerialize value).length ≤ 8 ∧ setVch (scriptNumSerialize value) = value) ∧
    (∀ (vch : Bytes) (nMaxNumSize : Nat), nMaxNumSize ≤ 8 → vch.length ≤ nMaxNumSize →
      (scriptNum vch true nMaxNumSize = .ok (setVch vch) ∨
        scriptNum vch true nMaxNumSize = .error "non-minimally encoded script number") ∧
      (scriptNum vch true nMaxNumSize = .ok (setVch vch) ↔ scriptNumSerialize (setVch vch) = vch)) ∧
    (∀ (vch1 vch2 : Bytes) (fRequireMinimal : Bool) (bn1 bn2 : Int) (stack : List Bytes),
      scriptNum vch1 fRequireMinimal nDefaultMaxNumSize = .ok bn1 →
      scriptNum vch2 fRequireMinimal nDefaultMaxNumSize = .ok bn2 →
      (∀ op, ∃ n, applyUnary op bn1 stack = (.ok n, stack) ∧ (scriptNumSerialize n).length ≤ 5) ∧
      (∀ op, ∃ n, applyBinary op bn1 bn2 stack = (.ok n, stack) ∧
        (scriptNumSerialize n).length ≤ 5)) := by
  have hmin : int64Min = -2 ^ 63 := rfl
  have hmax : int64Max = 2 ^ 63 - 1 := rfl
  refine ⟨fun value hlo hhi => ⟨?_, ?_⟩, fun vch nMaxNumSize hsize hlen => ?_,
    fun vch1 vch2 fRequireMinimal bn1 bn2 stack h1 h2 => ⟨fun op => ?_, fun op => ?_⟩⟩
  · exact length_scriptNumSerialize_le (k := 7) (by decide) (by omega)
  · exact setVch_scriptNumSerialize (by omega)
  · have hfit : ¬nMaxNumSize < vch.length := Nat.not_lt_of_le hlen
    by_cases hminimal : minimallyEncoded vch = true
    · have hok : scriptNum vch true nMaxNumSize = .ok (setVch vch) := by
        simp [scriptNum, hfit, hminimal]
      exact ⟨.inl hok, iff_of_true hok (scriptNumSerialize_setVch hminimal (by omega))⟩
    have herr : scriptNum vch true nMaxNumSize =
        .error "non-minimally encoded script number" := by
      simp [scriptNum, hfit, hminimal]
    refine ⟨.inr herr, iff_of_false (by simp [herr]) fun hsame => hminimal ?_⟩
    -- what is written passes the test
    have hbound : (setVch vch).natAbs < 256 ^ 8 := (natAbs_setVch_lt vch).trans_le
      (Nat.pow_le_pow_right (by decide) (by omega))
    rw [← hsame]
    exact minimallyEncoded_withSign (magnitudeBytes_spec hbound).2 _
  · exact (applyUnary_small op (scriptNum_bound h1)).length_le stack
  · exact (applyBinary_small op (scriptNum_bound h1) (scriptNum_bound h2)).length_le stack

end MonetaryUnit
