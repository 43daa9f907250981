/-
# MonetaryUnit.Script.DerSignature — the grammar of signature encodings

`IsValidSignatureEncoding` reads lengths from a byte string and indexes with them. The strings it
accepts are those of the grammar `30 len 02 |R| R 02 |S| S hashtype` in which `R` and `S` are the
shortest encodings of two natural numbers. The parser is first evaluated on strings of the right
shape (`derFrame`); every string whose lengths fit has that shape.

`isValidSignatureEncodingChecked` and `isLowDERSignatureChecked` are the same functions with reads
that fail outside the string, in the order of the source. They never fail.
-/

import MonetaryUnit.Lib.TwosComplement
import MonetaryUnit.Script.ScriptNum

namespace MonetaryUnit

open Lib Option Nat

/-! ## The grammar -/

/-- Two elements with their tags and lengths, and the byte of the hash type. -/
def derFrame (tag len tagR lenR : UInt8) (R : Bytes) (tagS lenS : UInt8) (S : Bytes)
    (hashtype : UInt8) : Bytes :=
  tag :: len :: tagR :: lenR :: (R ++ tagS :: lenS :: (S ++ [hashtype]))

/-- `0x30 [total-length] 0x02 [R-length] [R] 0x02 [S-length] [S] [sighash]`. -/
def derSignature (R S : Bytes) (hashtype : UInt8) : Bytes :=
  derFrame 0x30 (UInt8.ofNat (4 + R.length + S.length)) 0x02 (UInt8.ofNat R.length) R
    0x02 (UInt8.ofNat S.length) S hashtype

/-- The string is the encoding of two numbers and a hash type, of at most 73 bytes. -/
def EncodesSignature (r s : Nat) (hashtype : UInt8) (sig : Bytes) : Prop :=
  ∃ R S, IsShortest r R ∧ IsShortest s S ∧ sig = derSignature R S hashtype ∧ sig.length ≤ 73

section Frame

variable {tag len tagR lenR tagS lenS hashtype : UInt8} {R S : Bytes}

theorem length_derFrame : (derFrame tag len tagR lenR R tagS lenS S hashtype).length =
    R.length + S.length + 7 := by
  simp only [derFrame, List.length_cons, List.length_append, List.length_nil]
  omega

theorem getD_append_length (l l' : Bytes) (k : Nat) :
    (l ++ l').getD (l.length + k) 0 = l'.getD k 0 := by
  rw [List.getD_eq_getElem?_getD, List.getElem?_append_right (le_add_right _ _),
    Nat.add_sub_cancel_left, List.getD_eq_getElem?_getD]

/-- A read behind the first element. -/
theorem getD_derFrame (k : Nat) : (derFrame tag len tagR lenR R tagS lenS S hashtype).getD
    (R.length + 4 + k) 0 = (tagS :: lenS :: (S ++ [hashtype])).getD k 0 := by
  rw [add_right_comm]
  exact getD_append_length R _ k

/-- A string whose lengths fit has the shape. -/
theorem exists_derFrame {sig : Bytes} {nR nS : Nat} (h : nR + nS + 7 = sig.length) :
    ∃ tag len tagR lenR R tagS lenS S hashtype,
      sig = derFrame tag len tagR lenR R tagS lenS S hashtype ∧ R.length = nR ∧ S.length = nS := by
  have hcons : ∀ {n : Nat} {l : Bytes}, l.length = n + 1 → ∃ b t, l = b :: t ∧ t.length = n := by
    rintro n (_ | ⟨b, t⟩) h
    · cases h
    · exact ⟨b, t, rfl, succ.inj h⟩
  obtain ⟨tag, _, rfl, h₁⟩ := hcons h.symm
  obtain ⟨len, _, rfl, h₂⟩ := hcons h₁
  obtain ⟨tagR, _, rfl, h₃⟩ := hcons h₂
  obtain ⟨lenR, sig, rfl, h₄⟩ := hcons h₃
  -- the first element, then the tag and the length of the second
  have hR : (sig.take nR).length = nR := by
    rw [List.length_take]
    omega
  have hdrop : (sig.drop nR).length = nS + 3 := by
    rw [List.length_drop]
    omega
  have hsplit := (List.take_append_drop nR sig).symm
  generalize sig.take nR = R at hR hsplit
  generalize sig.drop nR = rest at hdrop hsplit
  obtain ⟨tagS, _, rfl, hdrop1⟩ := hcons hdrop
  obtain ⟨lenS, rest, rfl, hdrop2⟩ := hcons hdrop1
  obtain hnil | ⟨S, hashtype, rfl⟩ := List.eq_nil_or_concat' rest
  · rw [hnil] at hdrop2
    simp at hdrop2
  · refine ⟨tag, len, tagR, lenR, R, tagS, lenS, S, hashtype, by rw [hsplit]; rfl, hR, ?_⟩
    rw [List.length_append, List.length_singleton] at hdrop2
    omega

end Frame

/-! ## The parser on strings of the right shape -/

/-- What the parser asks of an element, from its length and its first two bytes. -/
def ElementOk (n : Nat) (b0 b1 : UInt8) : Prop :=
  ¬n = 0 ∧ ¬(b0 &&& 0x80 ≠ 0) ∧ ¬(n > 1 ∧ b0 = 0x00 ∧ b1 &&& 0x80 = 0)

theorem elementOk_iff (R rest : Bytes) :
    ElementOk R.length ((R ++ rest).getD 0 0) ((R ++ rest).getD 1 0) ↔ Unpadded R := by
  have hbit : ∀ b : UInt8, ¬(b &&& 0x80 ≠ 0) ↔ b.toNat < 128 := fun b => by
    rw [signBit_iff, not_le]
  rcases R with _ | ⟨b, _ | ⟨c, R⟩⟩
  · simp [ElementOk, Unpadded]
  · simp only [ElementOk, Unpadded, hbit]
    simp
  · have hc : c &&& 0x80 = 0 ↔ ¬128 ≤ c.toNat := by rw [← signBit_iff, not_not]
    simp only [ElementOk, Unpadded, hbit, List.cons_append, List.getD_cons_zero,
      List.getD_cons_succ, hc]
    simp

theorem if_false_eq_true {c : Prop} [Decidable c] {x : Bool} :
    (if c then false else x) = true ↔ ¬c ∧ x = true := by
  split <;> simp [*]

theorem toNat_ofNat_lt {n : Nat} (h : n < 256) : (UInt8.ofNat n).toNat = n := by
  rw [UInt8.toNat_ofNat']
  omega

variable {sig : Bytes} {hashtype : UInt8} {R S : Bytes} {hashtype' : UInt8} {i : Nat}

/-- The lengths found in an accepted string fit. -/
theorem lengths_of_valid (h : isValidSignatureEncoding sig = true) :
    (sig.getD 3 0).toNat + (sig.getD (5 + (sig.getD 3 0).toNat) 0).toNat + 7 = sig.length := by
  simp only [isValidSignatureEncoding, if_false_eq_true, not_not] at h
  exact h.2.2.2.2.2.1

theorem isValidSignatureEncoding_derFrame {tag len tagR lenR tagS lenS : UInt8}
    (hR : lenR.toNat = R.length) (hS : lenS.toNat = S.length) :
    isValidSignatureEncoding (derFrame tag len tagR lenR R tagS lenS S hashtype) = true ↔
      R.length + S.length + 7 ≤ 73 ∧ tag = 0x30 ∧ len.toNat = 4 + R.length + S.length ∧
        tagR = 0x02 ∧ tagS = 0x02 ∧ Unpadded R ∧ Unpadded S := by
  generalize hsig : derFrame tag len tagR lenR R tagS lenS S hashtype = sig
  have hbehind : ∀ k, sig.getD (R.length + 4 + k) 0 =
      (tagS :: lenS :: (S ++ [hashtype])).getD k 0 := fun k => hsig ▸ getD_derFrame k
  have hlength : sig.length = R.length + S.length + 7 := hsig ▸ length_derFrame
  have h0 : sig.getD 0 0 = tag := by rw [← hsig]; rfl
  have h1 : sig.getD 1 0 = len := by rw [← hsig]; rfl
  have h2 : sig.getD 2 0 = tagR := by rw [← hsig]; rfl
  have h3 : (sig.getD 3 0).toNat = R.length := by rw [← hR, ← hsig]; rfl
  have h4 : sig.getD 4 0 = (R ++ tagS :: lenS :: (S ++ [hashtype])).getD 0 0 := by
    rw [← hsig]
    rfl
  have h5 : sig.getD 5 0 = (R ++ tagS :: lenS :: (S ++ [hashtype])).getD 1 0 := by
    rw [← hsig]
    rfl
  have hS' : (sig.getD (5 + R.length) 0).toNat = S.length := by
    rw [add_comm, hbehind 1, ← hS]
    rfl
  have helemR := elementOk_iff R (tagS :: lenS :: (S ++ [hashtype]))
  have helemS := elementOk_iff S [hashtype]
  have h6 : sig.getD (R.length + 6) 0 = (S ++ [hashtype]).getD 0 0 := hbehind 2
  have h7 : sig.getD (R.length + 7) 0 = (S ++ [hashtype]).getD 1 0 := hbehind 3
  have htagS : sig.getD (R.length + 4) 0 = tagS := hbehind 0
  rw [← h4, ← h5] at helemR
  rw [← h6, ← h7] at helemS
  rw [← helemR, ← helemS]
  simp only [isValidSignatureEncoding, if_false_eq_true, not_not, h0, h1, h2, h3, hS', hlength,
    htagS, ElementOk]
  constructor
  · rintro ⟨-, hmax, htag, hlen, -, -, htagR, hR0, hR1, hR2, htagS, hS0, hS1, hS2, -⟩
    exact ⟨by omega, htag, by omega, htagR, htagS, ⟨hR0, hR1, hR2⟩, hS0, hS1, hS2⟩
  · rintro ⟨hmax, htag, hlen, htagR, htagS, ⟨hR0, hR1, hR2⟩, hS0, hS1, hS2⟩
    exact ⟨by omega, by omega, htag, by omega, by omega, trivial, htagR, hR0, hR1, hR2, htagS, hS0,
      hS1, hS2, trivial⟩

/-- The strings that are accepted, in terms of the elements. -/
theorem isValidSignatureEncoding_iff_unpadded :
    isValidSignatureEncoding sig = true ↔ ∃ R S hashtype, Unpadded R ∧ Unpadded S ∧
      sig = derSignature R S hashtype ∧ sig.length ≤ 73 := by
  constructor
  · intro h
    obtain ⟨tag, len, tagR, lenR, R, tagS, lenS, S, hashtype, rfl, hR, hS⟩ :=
      exists_derFrame (lengths_of_valid h)
    -- the lengths the parser found are the bytes of the frame
    have hlenR : lenR.toNat = R.length := hR.symm
    have hlenS : lenS.toNat = S.length := by
      rw [hS, ← hR, add_comm]
      exact congrArg UInt8.toNat (getD_derFrame 1).symm
    obtain ⟨hmax, rfl, hlen, rfl, rfl, huR, huS⟩ :=
      (isValidSignatureEncoding_derFrame hlenR hlenS).mp h
    have hbyte : ∀ {b : UInt8} {n : Nat}, b.toNat = n → b = UInt8.ofNat n := by
      rintro b n rfl
      exact UInt8.ofNat_toNat.symm
    refine ⟨R, S, hashtype, huR, huS, ?_, by rw [length_derFrame]; exact hmax⟩
    rw [derSignature, ← hbyte hlen, ← hbyte hlenR, ← hbyte hlenS]
  · rintro ⟨R, S, hashtype, huR, huS, rfl, hmax⟩
    rw [derSignature, length_derFrame] at hmax
    rw [derSignature, isValidSignatureEncoding_derFrame (toNat_ofNat_lt (by omega))
      (toNat_ofNat_lt (by omega))]
    exact ⟨hmax, rfl, toNat_ofNat_lt (by omega), rfl, rfl, huR, huS⟩

theorem isValidSignatureEncoding_iff :
    isValidSignatureEncoding sig = true ↔ ∃ r s hashtype, EncodesSignature r s hashtype sig := by
  rw [isValidSignatureEncoding_iff_unpadded]
  constructor
  · rintro ⟨R, S, hashtype, hR, hS, hsig, hmax⟩
    exact ⟨beNat R, beNat S, hashtype, R, S, hR.isShortest, hS.isShortest, hsig, hmax⟩
  · rintro ⟨r, s, hashtype, R, S, hR, hS, hsig, hmax⟩
    exact ⟨R, S, hashtype, (isShortest_iff.mp hR).1, (isShortest_iff.mp hS).1, hsig, hmax⟩

/-! ## Uniqueness -/

theorem derSignature_injective {R' S' : Bytes}
    (h : derSignature R S hashtype = derSignature R' S' hashtype')
    (hmax : (derSignature R S hashtype).length ≤ 73) : R = R' ∧ S = S' ∧ hashtype = hashtype' := by
  have hmax' := hmax
  rw [h] at hmax'
  rw [derSignature, length_derFrame] at hmax hmax'
  simp only [derSignature, derFrame, List.cons.injEq] at h
  obtain ⟨-, -, -, hlenR, hrest⟩ := h
  have hR : R.length = R'.length := by
    rw [← toNat_ofNat_lt (n := R.length) (by omega), hlenR, toNat_ofNat_lt (by omega)]
  obtain ⟨hR, hrest⟩ := List.append_inj hrest hR
  simp only [List.cons.injEq] at hrest
  obtain ⟨-, -, hrest⟩ := hrest
  have hS : S.length = S'.length := by
    have hlen := congrArg List.length hrest
    simpa using hlen
  obtain ⟨hS, htype⟩ := List.append_inj hrest hS
  exact ⟨hR, hS, (List.cons.inj htype).1⟩

theorem EncodesSignature.numbers_unique {r s r' s' : Nat} (h : EncodesSignature r s hashtype sig)
    (h' : EncodesSignature r' s' hashtype' sig) : r = r' ∧ s = s' ∧ hashtype = hashtype' := by
  obtain ⟨R, S, hR, hS, rfl, hmax⟩ := h
  obtain ⟨R', S', hR', hS', hsig, -⟩ := h'
  obtain ⟨rfl, rfl, rfl⟩ := derSignature_injective hsig hmax
  have hr := hR.value.symm.trans hR'.value
  have hs := hS.value.symm.trans hS'.value
  exact ⟨by exact_mod_cast hr, by exact_mod_cast hs, rfl⟩

theorem EncodesSignature.encoding_unique {r s : Nat} {sig' : Bytes}
    (h : EncodesSignature r s hashtype sig) (h' : EncodesSignature r s hashtype sig') :
    sig = sig' := by
  obtain ⟨R, S, hR, hS, rfl, -⟩ := h
  obtain ⟨R', S', hR', hS', rfl, -⟩ := h'
  rw [hR.unique hR', hS.unique hS']

/-! ## Reads inside the string -/

/-- `len > 1 && sig[i] == 0x00 && !(sig[i + 1] & 0x80)`, with the reads as far as they are made. -/
def paddedChecked (sig : Bytes) (len i : Nat) : Option Bool :=
  if len > 1 then
    sig[i]?.bind fun b => if b = 0x00 then sig[i + 1]?.map fun c => c &&& 0x80 == 0 else some false
  else some false

def isValidSignatureEncodingChecked (sig : Bytes) : Option Bool :=
  if sig.length < 9 then some false
  else if sig.length > 73 then some false
  else sig[0]?.bind fun b0 =>
    if b0 ≠ 0x30 then some false
    else sig[1]?.bind fun b1 =>
      if b1.toNat ≠ sig.length - 3 then some false
      else sig[3]?.bind fun lenR =>
        if 5 + lenR.toNat ≥ sig.length then some false
        else sig[5 + lenR.toNat]?.bind fun lenS =>
          if lenR.toNat + lenS.toNat + 7 ≠ sig.length then some false
          else sig[2]?.bind fun b2 =>
            if b2 ≠ 0x02 then some false
            else if lenR.toNat = 0 then some false
            else sig[4]?.bind fun b4 =>
              if b4 &&& 0x80 ≠ 0 then some false
              else (paddedChecked sig lenR.toNat 4).bind fun padded =>
                if padded then some false
                else sig[lenR.toNat + 4]?.bind fun tagS =>
                  if tagS ≠ 0x02 then some false
                  else if lenS.toNat = 0 then some false
                  else sig[lenR.toNat + 6]?.bind fun b6 =>
                    if b6 &&& 0x80 ≠ 0 then some false
                    else (paddedChecked sig lenS.toNat (lenR.toNat + 6)).bind fun padded =>
                      if padded then some false else some true

/-- The `n` bytes that start at an index. -/
def readWindow (sig : Bytes) (i n : Nat) : Option Bytes :=
  if i + n ≤ sig.length then some ((sig.drop i).take n) else none

def isLowDERSignatureChecked (vchSig : Bytes) : Option (Except ScriptError Unit) :=
  (isValidSignatureEncodingChecked vchSig).bind fun valid =>
    if !valid then some (.error .sigDer)
    else vchSig[3]?.bind fun nLenR =>
      vchSig[5 + nLenR.toNat]?.bind fun nLenS =>
        vchSig[6 + nLenR.toNat]?.bind fun _ =>
          (readWindow vchSig (6 + nLenR.toNat) nLenS.toNat).map fun S =>
            if !checkSignatureElement S true then .error .sigHighS else .ok ()

theorem getElem?_eq_some_getD (h : i < sig.length) : sig[i]? = some (sig.getD i 0) := by
  rw [List.getD_eq_getElem?_getD, List.getElem?_eq_getElem h]
  rfl

theorem read_bind {α : Type} (h : i < sig.length) (f : UInt8 → Option α) :
    sig[i]?.bind f = f (sig.getD i 0) := by
  rw [getElem?_eq_some_getD h]
  rfl

theorem paddedChecked_eq {len : Nat} (h : len > 1 → i + 1 < sig.length) :
    paddedChecked sig len i =
      some (decide (len > 1 ∧ sig.getD i 0 = 0x00 ∧ sig.getD (i + 1) 0 &&& 0x80 = 0)) := by
  unfold paddedChecked
  by_cases hlen : len > 1
  · have hi := h hlen
    rw [if_pos hlen, read_bind (by omega)]
    by_cases hzero : sig.getD i 0 = 0x00
    · rw [if_pos hzero, getElem?_eq_some_getD hi, map_some, beq_eq_decide]
      simp only [hlen, hzero, true_and]
    · rw [if_neg hzero, decide_eq_false fun hpad => hzero hpad.2.1]
  · rw [if_neg hlen, decide_eq_false fun hpad => hlen hpad.1]

theorem isValidSignatureEncodingChecked_eq (sig : Bytes) :
    isValidSignatureEncodingChecked sig = some (isValidSignatureEncoding sig) := by
  have hstep : ∀ {c : Prop} [Decidable c] {x : Option Bool} {y : Bool}, (¬c → x = some y) →
      (if c then some false else x) = some (if c then false else y) := by
    intro c _ x y h
    by_cases hc : c
    · rw [if_pos hc, if_pos hc]
    · rw [if_neg hc, if_neg hc, h hc]
  refine hstep fun hmin => hstep fun hmax => ?_
  rw [read_bind (by omega)]
  refine hstep fun htag => ?_
  rw [read_bind (by omega)]
  refine hstep fun hlen => ?_
  rw [read_bind (by omega)]
  refine hstep fun hlenR => ?_
  rw [read_bind (by omega)]
  refine hstep fun hsum => ?_
  rw [read_bind (by omega)]
  refine hstep fun htagR => hstep fun hR => ?_
  rw [read_bind (by omega)]
  refine hstep fun hsignR => ?_
  rw [paddedChecked_eq (by omega), bind_some]
  simp only [decide_eq_true_eq]
  refine hstep fun hpadR => ?_
  rw [read_bind (by omega)]
  refine hstep fun htagS => hstep fun hS => ?_
  rw [read_bind (by omega)]
  refine hstep fun hsignS => ?_
  rw [paddedChecked_eq (by omega), bind_some]
  simp only [decide_eq_true_eq]
  exact hstep fun _ => rfl

theorem isLowDERSignatureChecked_eq (vchSig : Bytes) :
    isLowDERSignatureChecked vchSig = some (isLowDERSignature vchSig) := by
  unfold isLowDERSignatureChecked isLowDERSignature
  rw [isValidSignatureEncodingChecked_eq]
  cases hvalid : isValidSignatureEncoding vchSig with
  | false => rfl
  | true =>
    have hlen := lengths_of_valid hvalid
    rw [read_bind (by omega), read_bind (by omega), read_bind (by omega),
      readWindow, if_pos (by omega)]
    rfl

/-- **`signatureEncoding_exact`** — a string is accepted exactly when it is the encoding of two
natural numbers and a hash type; the string determines them and they determine the string; and
neither the parser nor the test for a low `S` reads outside the string. -/
theorem signatureEncoding_exact : (∀ sig, isValidSignatureEncoding sig = true ↔
      ∃ r s hashtype, EncodesSignature r s hashtype sig) ∧
    (∀ r s hashtype r' s' hashtype' sig, EncodesSignature r s hashtype sig →
      EncodesSignature r' s' hashtype' sig → r = r' ∧ s = s' ∧ hashtype = hashtype') ∧
    (∀ r s hashtype sig sig', EncodesSignature r s hashtype sig →
      EncodesSignature r s hashtype sig' → sig = sig') ∧
    (∀ sig, isValidSignatureEncodingChecked sig = some (isValidSignatureEncoding sig)) ∧
    (∀ vchSig, isLowDERSignatureChecked vchSig = some (isLowDERSignature vchSig)) :=
  ⟨fun _ => isValidSignatureEncoding_iff, fun _ _ _ _ _ _ _ h h' => h.numbers_unique h',
    fun _ _ _ _ _ h h' => h.encoding_unique h', isValidSignatureEncodingChecked_eq,
    isLowDERSignatureChecked_eq⟩

end MonetaryUnit
