/-
# MonetaryUnit.Coins.Stored — coins as they are stored

`CCoins::Serialize`, `Unserialize` and `GetSerializeSize` of `coins.h`: the version, a code, a mask
of the outputs from the third on, the outputs that are not spent, the height. The code holds the
coinbase flag, the first two bits of the mask and the number of *non-zero* mask bytes, less one if
the first two outputs are spent; the reader takes mask bytes until it has seen that many.

What comes back are the coins with every spent output in its null form (`storedCoins_roundTrip`).
The sizes are `unsigned int`s: beyond four gibibytes the format is not what it is below
(`hugeScript_reads_back_short`).
-/

import MonetaryUnit.Coins.CCoins
import MonetaryUnit.Serialize.Compressor

namespace MonetaryUnit

open Lib List Function CCoins Writes Reader Nat

/-! ## Writing -/

namespace CCoins

/-- `i < vout.size() && !vout[i].IsNull()`. -/
def unspentAt (vout : List CTxOut) (i : Nat) : Bool :=
  match vout[i]? with
  | some out => !out.isNull
  | none => false

/-- `fZero` is false: a mask byte has a bit to set. -/
def maskByteUsed (vout : List CTxOut) (b : Nat) : Bool :=
  (List.range 8).any fun i => unspentAt vout (2 + b * 8 + i)

/-- One round of the loop of `CalcMaskSize` over `nLastUsedByte` and `nNonzeroBytes`. -/
def maskStep (vout : List CTxOut) (sizes : Nat × Nat) (b : Nat) : Nat × Nat :=
  if maskByteUsed vout b then (b + 1, sizes.2 + 1) else sizes

/-- The bytes of the mask and how many of them are not zero. The loop runs while
`2 + b * 8 < vout.size()`. -/
def calcMaskSize (c : CCoins) : Nat × Nat :=
  (List.range ((c.vout.length + 5) / 8)).foldl (maskStep c.vout) (0, 0)

/-- `chAvail` of one byte of the mask. -/
def maskByte (vout : List CTxOut) (b : Nat) : Nat := (List.range 8).foldl
    (fun chAvail i => if unspentAt vout (2 + b * 8 + i) then chAvail ||| 1 <<< i else chAvail) 0

/-- `nCode`, an `unsigned int`; `none` where the assertion before it fails. -/
def headerCode (c : CCoins) : Option Nat :=
  let nMaskCode := c.calcMaskSize.2
  let fFirst := unspentAt c.vout 0
  let fSecond := unspentAt c.vout 1
  if fFirst || fSecond || nMaskCode != 0 then
    some ((8 * (nMaskCode - if fFirst || fSecond then 0 else 1) + c.fCoinBase.toNat +
      (if fFirst then 2 else 0) + if fSecond then 4 else 0) % 2 ^ 32)
  else none

/-- The outputs that are written. -/
def unspentOutputs (vout : List CTxOut) : List CTxOut := vout.filter fun out => !out.isNull

section Serialize

variable (lib : CurveLib)

def serialize (c : CCoins) : Option Writes := c.headerCode.map fun nCode =>
    writeVarInt 4 (varIntOfInt c.nVersion) ++ (writeVarInt 4 nCode ++
      ((List.range c.calcMaskSize.1).map (fun b => [UInt8.ofNat (maskByte c.vout b)]) ++
        ((unspentOutputs c.vout).flatMap (serializeCompressedTxOut lib) ++
          writeVarInt 4 (varIntOfInt c.nHeight))))

/-- `GetSerializeSize`: sizes added up as `unsigned int`s. -/
def getSerializeSize (c : CCoins) : Option UInt32 := c.headerCode.map fun nCode =>
    let nSize := freeGetSerializeSize (getSizeOfVarInt 4 (varIntOfInt c.nVersion))
    let nSize := nSize + freeGetSerializeSize (getSizeOfVarInt 4 nCode)
    let nSize := nSize + UInt32.ofNat c.calcMaskSize.1
    let nSize := c.vout.foldl (fun nSize out => if out.isNull then nSize else
      nSize + freeGetSerializeSize (serializeCompressedTxOut lib out).computedSize) nSize
    nSize + freeGetSerializeSize (getSizeOfVarInt 4 (varIntOfInt c.nHeight))

end Serialize

end CCoins

/-! ## Reading -/

/-- `while (nMaskCode > 0)`: eight bits for each byte, and only the bytes that are not zero are
counted. -/
def readMask : Nat → Nat → List Bool → Reader (List Bool)
  | _, 0, vAvail => pure vAvail
  | 0, _ + 1, _ => throw endOfData
  | fuel + 1, nMaskCode + 1, vAvail => do
    let chAvail ← readLE endOfData 1
    readMask fuel (if chAvail ≠ 0 then nMaskCode else nMaskCode + 1)
      (vAvail ++ (List.range 8).map chAvail.testBit)

/-- Every round takes a byte, so a round for every byte and one for the end are enough. -/
def readMaskBytes (nMaskCode : Nat) (vAvail : List Bool) : Reader (List Bool) := fun s =>
  readMask (s.length + 1) nMaskCode vAvail s

section Unserialize

variable (lib : CurveLib)

/-- The outputs that are available, null outputs in the other places. -/
def readOutputs : List Bool → Reader (List CTxOut)
  | [] => pure []
  | false :: vAvail => do
    let vout ← readOutputs vAvail
    pure (CTxOut.null :: vout)
  | true :: vAvail => do
    let out ← readCompressedTxOut lib
    let vout ← readOutputs vAvail
    pure (out :: vout)

/-- `CCoins::Unserialize`. -/
def readCoins : Reader CCoins := do
  let nVersion ← readVarInt endOfData (2 ^ 32)
  let nCode ← readVarInt endOfData (2 ^ 32)
  let nMaskCode := nCode / 8 + if nCode &&& 6 ≠ 0 then 0 else 1
  let vAvail ← readMaskBytes nMaskCode [nCode &&& 2 != 0, nCode &&& 4 != 0]
  let vout ← readOutputs lib vAvail
  let nHeight ← readVarInt endOfData (2 ^ 32)
  pure (CCoins.cleanup
    { fCoinBase := nCode &&& 1 != 0
      vout
      nHeight := (UInt32.ofNat nHeight).toInt32
      nVersion := (UInt32.ofNat nVersion).toInt32 })

end Unserialize

/-! ## The mask -/

variable {c : CCoins}

section Mask

variable {vout : List CTxOut}

theorem testBit_foldl_or (avail : Nat → Bool) (m j : Nat) :
    ((range m).foldl (fun ch i => if avail i then ch ||| 1 <<< i else ch) 0).testBit j =
      (decide (j < m) && avail j) := by
  induction m with
  | zero => simp
  | succ m ih =>
    rw [range_succ, foldl_append, foldl_cons, foldl_nil]
    have hbit : (1 <<< m).testBit j = decide (m = j) := by
      rw [one_shiftLeft, testBit_two_pow]
    have hlt : decide (j < m + 1) = (decide (j < m) || decide (m = j)) := by
      rw [Bool.eq_iff_iff, Bool.or_eq_true, decide_eq_true_iff, decide_eq_true_iff,
        decide_eq_true_iff]
      omega
    split
    · next hset =>
      rw [testBit_or, ih, hbit, hlt]
      by_cases hj : m = j
      · simp [← hj, hset]
      · simp [hj]
    · next hclear =>
      rw [ih, hlt]
      by_cases hj : m = j
      · simp [← hj, hclear]
      · simp [hj]

theorem testBit_maskByte (vout : List CTxOut) (b i : Nat) :
    (maskByte vout b).testBit i = (decide (i < 8) && unspentAt vout (2 + b * 8 + i)) :=
  testBit_foldl_or (fun i => unspentAt vout (2 + b * 8 + i)) 8 i

theorem maskByte_lt (b : Nat) : maskByte vout b < 256 := by
  apply @lt_pow_two_of_testBit 8
  intro i hi
  rw [testBit_maskByte, decide_eq_false (by omega), Bool.false_and]

/-- `CalcMaskSize` and the writer agree on which bytes are zero. -/
theorem maskByte_ne_zero_iff (b : Nat) : maskByte vout b ≠ 0 ↔ maskByteUsed vout b = true := by
  rw [maskByteUsed, any_eq_true]
  constructor
  · intro hne
    obtain ⟨i, hi⟩ := exists_testBit_of_ne_zero hne
    rw [testBit_maskByte, Bool.and_eq_true, decide_eq_true_eq] at hi
    exact ⟨i, mem_range.mpr hi.1, hi.2⟩
  · rintro ⟨i, hmem, hset⟩ hzero
    have hbit := testBit_maskByte vout b i
    rw [hzero, zero_testBit, decide_eq_true (mem_range.mp hmem), hset] at hbit
    cases hbit

/-- What the loop of `CalcMaskSize` knows after `m` rounds. -/
structure MaskSizes (vout : List CTxOut) (m : Nat) (sizes : Nat × Nat) : Prop where
  le : sizes.1 ≤ m
  count : sizes.2 = (List.range sizes.1).countP (CCoins.maskByteUsed vout)
  last : ∀ b, sizes.1 = b + 1 → CCoins.maskByteUsed vout b = true
  beyond : ∀ b, sizes.1 ≤ b → b < m → CCoins.maskByteUsed vout b = false

theorem countP_range_of_unused {p : Nat → Bool} {k m : Nat} (hle : k ≤ m)
    (h : ∀ b, k ≤ b → b < m → p b = false) : (range m).countP p = (range k).countP p := by
  induction m with
  | zero => rw [le_zero.mp hle]
  | succ m ih =>
    rcases eq_or_lt_of_le hle with heq | hlt
    · rw [heq]
    · have hm : p m = false := h m (by omega) (by omega)
      rw [range_succ, countP_append, ih (by omega) fun b hk hb => h b hk (by omega)]
      simp [hm]

theorem maskSizes_loop (vout : List CTxOut) (m : Nat) :
    MaskSizes vout m ((range m).foldl (maskStep vout) (0, 0)) := by
  induction m with
  | zero =>
    refine ⟨le_refl 0, rfl, ?_, fun b _ h => absurd h (not_lt_zero b)⟩
    intro b h
    cases h
  | succ m ih =>
    rw [range_succ, foldl_append, foldl_cons, foldl_nil]
    rw [maskStep]
    split
    · next hused =>
      refine ⟨le_refl _, ?_, ?_, fun b hb hlt => absurd hlt (by omega)⟩
      · have hcount := countP_range_of_unused ih.le ih.beyond
        rw [range_succ, countP_append, hcount, ih.count]
        simp [hused]
      · intro b hb
        have hbm : m = b := succ.inj hb
        rw [← hbm]
        exact hused
    · next hunused =>
      refine ⟨le_succ_of_le ih.le, ih.count, ih.last, fun b hb hlt => ?_⟩
      rcases eq_or_lt_of_le (le_of_lt_succ hlt) with heq | hlt'
      · rw [heq]
        simpa using hunused
      · exact ih.beyond b hb hlt'

theorem calcMaskSize_spec (c : CCoins) :
    MaskSizes c.vout ((c.vout.length + 5) / 8) c.calcMaskSize :=
  maskSizes_loop c.vout _

/-- The bytes of the mask. -/
def maskBytes (c : CCoins) : List Nat := (List.range c.calcMaskSize.1).map (CCoins.maskByte c.vout)

theorem maskBytes_count (c : CCoins) :
    (maskBytes c).countP (fun ch => ch != 0) = c.calcMaskSize.2 := by
  have hsizes := calcMaskSize_spec c
  rw [maskBytes, countP_map, hsizes.count]
  congr 1
  funext b
  rw [comp_apply, Bool.eq_iff_iff, bne_iff_ne, maskByte_ne_zero_iff]

theorem maskBytes_last (c : CCoins) (ch : Nat) (h : (maskBytes c).getLast? = some ch) : ch ≠ 0 := by
  have hsizes := calcMaskSize_spec c
  rw [maskBytes] at h
  cases hk : c.calcMaskSize.1 with
  | zero =>
    rw [hk] at h
    cases h
  | succ k =>
    rw [hk, range_succ, map_append, map_singleton, getLast?_concat] at h
    cases h
    exact (maskByte_ne_zero_iff k).mpr (hsizes.last k hk)

/-- No output of clean coins lies beyond the mask. -/
theorem length_le_mask (hclean : c.Clean) : c.vout.length ≤ 2 + c.calcMaskSize.1 * 8 := by
  have hsizes := calcMaskSize_spec c
  by_contra hlong
  -- the last output is not null, in a byte that the loop has seen and not counted
  set k := c.calcMaskSize.1 with hk
  have hlast : unspentAt c.vout (c.vout.length - 1) = true := by
    have hlt : c.vout.length - 1 < c.vout.length := by omega
    have hget : c.vout.getLast? = some c.vout[c.vout.length - 1] := by
      rw [getLast?_eq_getElem?, getElem?_eq_getElem hlt]
    rw [unspentAt, getElem?_eq_getElem hlt]
    simp [hclean _ hget]
  have hunused := hsizes.beyond ((c.vout.length - 3) / 8)
    (show k ≤ (c.vout.length - 3) / 8 by omega) (by omega)
  rw [maskByteUsed, any_eq_false] at hunused
  have hclear := hunused ((c.vout.length - 3) % 8) (mem_range.mpr (by omega))
  have hindex : 2 + (c.vout.length - 3) / 8 * 8 + (c.vout.length - 3) % 8 =
      c.vout.length - 1 := by omega
  rw [hindex] at hclear
  exact hclear hlast

theorem readMask_bytes {mask : List Nat} (hbyte : ∀ ch ∈ mask, ch < 256)
    (hlast : ∀ ch, mask.getLast? = some ch → ch ≠ 0) {fuel : Nat} (hfuel : mask.length ≤ fuel)
    (vAvail : List Bool) (rest : Bytes) :
    readMask fuel (mask.countP fun ch => ch != 0) vAvail (mask.map UInt8.ofNat ++ rest) =
      .ok (vAvail ++ mask.flatMap (fun ch => (range 8).map ch.testBit), rest) := by
  induction mask generalizing fuel vAvail with
  | nil =>
    rw [flatMap_nil, append_nil]
    cases fuel <;> rfl
  | cons ch mask ih =>
    obtain ⟨f, rfl⟩ : ∃ f, fuel = f + 1 := ⟨fuel - 1, by rw [length_cons] at hfuel; omega⟩
    -- there is a byte to come that is not zero
    have hpos : 0 < (ch :: mask).countP fun ch => ch != 0 := by
      rw [countP_pos_iff]
      have hne : (ch :: mask) ≠ [] := cons_ne_nil ch mask
      refine ⟨(ch :: mask).getLast hne, getLast_mem hne, ?_⟩
      rw [bne_iff_ne]
      exact hlast _ (getLast?_eq_some_getLast hne)
    obtain ⟨n, hn⟩ : ∃ n, ((ch :: mask).countP fun ch => ch != 0) = n + 1 :=
      ⟨_, (succ_pred_eq_of_pos hpos).symm⟩
    have hnext : (if ch ≠ 0 then n else n + 1) = mask.countP fun ch => ch != 0 := by
      rw [countP_cons] at hn
      split
      · next hne =>
        rw [if_pos (bne_iff_ne.mpr hne)] at hn
        omega
      · next heq =>
        rw [if_neg (by simpa using heq)] at hn
        omega
    have hread : readLE endOfData 1 (UInt8.ofNat ch :: (mask.map UInt8.ofNat ++ rest)) =
        .ok (ch, mask.map UInt8.ofNat ++ rest) :=
      (canonical_readLE endOfData 1).read_write _ (hbyte ch mem_cons_self)
    rw [hn, readMask, map_cons, cons_append, bind_of_ok hread, hnext, flatMap_cons, ← append_assoc]
    apply ih
    · exact fun x hx => hbyte x (mem_cons_of_mem _ hx)
    · intro x hx
      apply hlast
      rw [getLast?_cons, hx]
      rfl
    · rw [length_cons] at hfuel
      omega

/-- The bits read are those of the outputs in order. -/
theorem maskBits_eq (vout : List CTxOut) (k : Nat) : [unspentAt vout 0, unspentAt vout 1] ++
        ((range k).map (maskByte vout)).flatMap (fun ch => (range 8).map ch.testBit) =
      (range (2 + k * 8)).map (unspentAt vout) := by
  induction k with
  | zero => rfl
  | succ k ih =>
    have hsplit : 2 + (k + 1) * 8 = 2 + k * 8 + 8 := by omega
    rw [@range_succ k, map_append, flatMap_append, ← append_assoc, hsplit,
      @range_add (2 + k * 8) 8, map_append, map_map]
    congr 1
    rw [map_singleton, flatMap_singleton]
    apply map_congr_left
    intro i hi
    rw [testBit_maskByte, decide_eq_true (mem_range.mp hi), Bool.true_and, comp_apply]

end Mask

/-! ## The outputs -/

/-- An output as it is read back: a spent one has lost what was left of its script. -/
def CTxOut.stored (out : CTxOut) : CTxOut := if out.isNull then CTxOut.null else out

theorem CTxOut.isNull_stored (out : CTxOut) : out.stored.isNull = out.isNull := by
  rw [CTxOut.stored]
  split
  · next hnull => rw [hnull, CTxOut.isNull_null]
  · rfl

/-- The outputs that can be stored: an amount in the range of the short form, and a script whose
length does not wrap. -/
structure CTxOut.Storable (out : CTxOut) : Prop where
  value : 0 ≤ out.nValue.toInt ∧ out.nValue.toInt ≤ 10 ^ 18
  script : out.scriptPubKey.length + nSpecialScripts < 2 ^ 32

instance (out : CTxOut) : Decidable out.Storable :=
  decidable_of_iff ((0 ≤ out.nValue.toInt ∧ out.nValue.toInt ≤ 10 ^ 18) ∧
    out.scriptPubKey.length + nSpecialScripts < 2 ^ 32) ⟨fun h => ⟨h.1, h.2⟩, fun h => ⟨h.1, h.2⟩⟩

section Outputs

variable {lib : CurveLib}

theorem readOutputs_bytes (hlib : lib.Sound) {slots : List CTxOut}
    (hslots : ∀ out ∈ slots, out.isNull = false → out.Storable) (rest : Bytes) :
    readOutputs lib (slots.map fun out => !out.isNull)
        (bytes ((unspentOutputs slots).flatMap (serializeCompressedTxOut lib)) ++ rest) =
      .ok (slots.map .stored, rest) := by
  induction slots with
  | nil => rfl
  | cons out slots ih =>
    have htail := ih fun o ho => hslots o (mem_cons_of_mem _ ho)
    rw [map_cons, map_cons, CTxOut.stored]
    cases hnull : out.isNull with
    | true =>
      have hskip : unspentOutputs (out :: slots) = unspentOutputs slots := by
        simp [unspentOutputs, hnull]
      rw [Bool.not_true, readOutputs, hskip, bind_of_ok htail]
      rfl
    | false =>
      have hkeep : unspentOutputs (out :: slots) = out :: unspentOutputs slots := by
        simp [unspentOutputs, hnull]
      have hout := hslots out mem_cons_self hnull
      rw [Bool.not_false, readOutputs, hkeep, flatMap_cons, bytes_append, append_assoc,
        bind_of_ok (readCompressedTxOut_bytes hlib hout.value hout.script _),
        bind_of_ok htail]
      rfl

/-- Beyond the outputs there are null outputs. -/
theorem map_unspentAt (vout : List CTxOut) (p : Nat) :
    (range (vout.length + p)).map (unspentAt vout) =
      (vout ++ replicate p CTxOut.null).map fun out => !out.isNull := by
  apply ext_getElem?
  intro i
  rw [getElem?_map, getElem?_map]
  rcases lt_or_ge i vout.length with hi | hi
  · rw [getElem?_range (by omega), getElem?_append_left hi]
    simp [unspentAt, hi]
  · rw [getElem?_append_right hi]
    rcases lt_or_ge i (vout.length + p) with hi' | hi'
    · rw [getElem?_range hi', getElem?_replicate_of_lt (by omega)]
      simp [unspentAt, getElem?_eq_none hi]
    · rw [getElem?_eq_none (by simpa using hi'), getElem?_eq_none (by rw [length_replicate]; omega)]
      rfl

theorem unspentOutputs_padded (vout : List CTxOut) (p : Nat) :
    unspentOutputs (vout ++ replicate p .null) =
      unspentOutputs vout := by
  rw [unspentOutputs, filter_append, filter_replicate, if_neg (by simp), append_nil, unspentOutputs]

theorem rdropWhile_padded (vout : List CTxOut) (p : Nat) :
    (vout ++ replicate p CTxOut.null).rdropWhile CTxOut.isNull = vout.rdropWhile CTxOut.isNull := by
  induction p with
  | zero => rw [replicate_zero, append_nil]
  | succ p ih =>
    rw [replicate_succ', ← append_assoc, rdropWhile_concat_pos _ _ _ CTxOut.isNull_null, ih]

/-- `Cleanup` takes the padding away again, and nothing else from clean coins. -/
theorem cleanup_padded (hclean : c.Clean) (p : Nat) : cleanup
        { c with vout := (c.vout ++ replicate p CTxOut.null).map CTxOut.stored } =
      { c with vout := c.vout.map CTxOut.stored } := by
  have hmap : (c.vout ++ replicate p CTxOut.null).map CTxOut.stored =
      c.vout.map CTxOut.stored ++ replicate p CTxOut.null := by
    rw [map_append, map_replicate]
    rfl
  have hstored : CCoins.Clean { c with vout := c.vout.map .stored } := by
    intro out hlast
    rw [getLast?_map] at hlast
    obtain ⟨o, ho, rfl⟩ := Option.map_eq_some_iff.mp hlast
    rw [CTxOut.isNull_stored]
    exact hclean o ho
  have hclean' := cleanup_of_clean hstored
  rw [cleanup] at hclean' ⊢
  rw [hmap, rdropWhile_padded]
  exact hclean'

end Outputs

/-! ## The code -/

/-- Bits below the eighth are those of the remainder. -/
theorem and_eq_mod_and {n m : Nat} (hm : m < 8) : n &&& m = n % 8 &&& m := by
  have hsmall : n &&& m < 8 := lt_of_le_of_lt and_le_right hm
  have hmod := @and_mod_two_pow n m 3
  rw [mod_eq_of_lt hsmall, mod_eq_of_lt hm] at hmod
  exact hmod

/-- The three flags in the low bits. -/
theorem lowBits_spec (base first second : Bool) :
    ∃ r, r = base.toNat + (if first then 2 else 0) + (if second then 4 else 0) ∧ r < 8 ∧
      (r &&& 1 != 0) = base ∧ (r &&& 2 != 0) = first ∧ (r &&& 4 != 0) = second ∧
      (r &&& 6 != 0) = (first || second) := by
  refine ⟨_, rfl, ?_⟩
  revert base first second
  decide

/-- What `Unserialize` finds in the code that `Serialize` has put there. -/
theorem headerCode_spec {nCode : Nat} (hfew : c.vout.length + 5 < 2 ^ 32)
    (h : c.headerCode = some nCode) :
    nCode < 2 ^ 32 ∧ (nCode &&& 1 != 0) = c.fCoinBase ∧ (nCode &&& 2 != 0) = unspentAt c.vout 0 ∧
      (nCode &&& 4 != 0) = unspentAt c.vout 1 ∧
      (nCode / 8 + if nCode &&& 6 ≠ 0 then 0 else 1) = c.calcMaskSize.2 := by
  have hsizes := calcMaskSize_spec c
  have hcount : c.calcMaskSize.2 ≤ (c.vout.length + 5) / 8 := by
    have hnum := @countP_le_length _ (maskByteUsed c.vout) (range c.calcMaskSize.1)
    rw [length_range] at hnum
    exact le_trans (le_trans (le_of_eq hsizes.count) hnum) hsizes.le
  obtain ⟨r, hr, hlt, hbase, hfirst, hsecond, hboth⟩ := lowBits_spec c.fCoinBase
    (unspentAt c.vout 0) (unspentAt c.vout 1)
  rw [headerCode] at h
  split at h
  · next hsome =>
    have hcode := Option.some.inj h
    set n := c.calcMaskSize.2
    set d := if unspentAt c.vout 0 || unspentAt c.vout 1 then 0 else 1 with hd
    -- the flags are the remainder, the mask bytes the quotient
    have hmod : nCode % 8 = r := by omega
    have hdiv : nCode / 8 = n - d := by omega
    have hlow : ∀ m < 8, nCode &&& m = r &&& m := by
      intro m hm
      rw [and_eq_mod_and hm, hmod]
    rw [hlow 1 (by decide), hlow 2 (by decide), hlow 4 (by decide), hlow 6 (by decide), hdiv]
    refine ⟨by omega, hbase, hfirst, hsecond, ?_⟩
    cases hor : unspentAt c.vout 0 || unspentAt c.vout 1 with
    | true =>
      rw [hor] at hboth
      rw [if_pos (bne_iff_ne.mp hboth), hd, hor]
      rfl
    | false =>
      rw [hor] at hboth
      rw [hor, Bool.false_or, bne_iff_ne] at hsome
      rw [if_neg (by simpa using hboth), hd, hor]
      show n - 1 + 1 = n
      omega
  · cases h

/-- The assertion holds of coins that are not pruned. -/
theorem headerCode_isSome (hlive : c.isPruned = false) (hclean : c.Clean) :
    ∃ nCode, c.headerCode = some nCode := by
  have hsizes := calcMaskSize_spec c
  have hsome : (unspentAt c.vout 0 || unspentAt c.vout 1 || c.calcMaskSize.2 != 0) = true := by
    by_contra hnone
    rw [Bool.not_eq_true, Bool.or_eq_false_iff, Bool.or_eq_false_iff, bne_eq_false_iff_eq] at hnone
    obtain ⟨⟨hfirst, hsecond⟩, hzero⟩ := hnone
    -- no mask byte is used, so there are at most two outputs, both null
    have hbytes : c.calcMaskSize.1 = 0 := by
      rcases Nat.eq_zero_or_pos c.calcMaskSize.1 with h | h
      · exact h
      · have hlast := hsizes.last (c.calcMaskSize.1 - 1) (show c.calcMaskSize.1 = _ by omega)
        have hpos : 0 < (range c.calcMaskSize.1).countP (maskByteUsed c.vout) := by
          rw [countP_pos_iff]
          exact ⟨c.calcMaskSize.1 - 1, mem_range.mpr (by omega), hlast⟩
        have := hsizes.count.symm.trans hzero
        omega
    have hshort := length_le_mask hclean
    have hpruned : c.isPruned = true := by
      rw [isPruned, all_eq_true]
      intro out hmem
      obtain ⟨i, hi, rfl⟩ := mem_iff_getElem.mp hmem
      have hnull : unspentAt c.vout i = false := by
        rcases (show i = 0 ∨ i = 1 by omega) with rfl | rfl
        · exact hfirst
        · exact hsecond
      rw [unspentAt, getElem?_eq_getElem hi] at hnull
      simpa using hnull
    rw [hlive] at hpruned
    cases hpruned
  exact ⟨_, if_pos hsome⟩

/-! ## The round trip -/

section RoundTrip

variable {lib : CurveLib}

/-- The coins that are stored as they are: outputs and sizes in the range of the format. -/
structure CCoins.Storable (c : CCoins) : Prop where
  live : c.isPruned = false
  clean : c.Clean
  version : 0 ≤ c.nVersion
  height : 0 ≤ c.nHeight
  outputs : ∀ out ∈ c.vout, out.isNull = false → out.Storable
  few : c.vout.length + 5 < 2 ^ 32

theorem bytes_maskWrites (c : CCoins) : bytes ((range c.calcMaskSize.1).map
        fun b => [UInt8.ofNat (maskByte c.vout b)]) =
      (maskBytes c).map UInt8.ofNat := by
  have hsingle : ∀ l : List Nat, bytes (l.map fun b => [UInt8.ofNat (maskByte c.vout b)]) =
        (l.map (maskByte c.vout)).map UInt8.ofNat := by
    intro l
    induction l with
    | nil => rfl
    | cons b l ih => exact congrArg (_ :: ·) ih
  exact hsingle _

theorem readVarInt_int32 {n : Int32} {rest : Bytes} (hn : 0 ≤ n) :
    readVarInt endOfData (2 ^ 32) ((writeVarInt 4 (varIntOfInt n)).bytes ++ rest) =
      .ok (n.toUInt32.toNat, rest) := by
  rw [varIntOfInt, if_neg (Int32.not_lt.mpr hn)]
  exact readVarInt_uint32 n.toUInt32.toNat_lt

theorem readMaskBytes_serialize (c : CCoins) (rest : Bytes) :
    readMaskBytes c.calcMaskSize.2 [unspentAt c.vout 0, unspentAt c.vout 1]
        ((maskBytes c).map UInt8.ofNat ++ rest) =
      .ok ((range (2 + c.calcMaskSize.1 * 8)).map (unspentAt c.vout), rest) := by
  have hbyte : ∀ ch ∈ maskBytes c, ch < 256 := by
    intro ch hmem
    obtain ⟨b, -, rfl⟩ := mem_map.mp hmem
    exact maskByte_lt b
  rw [readMaskBytes, ← maskBytes_count c, readMask_bytes hbyte (maskBytes_last c)
    (by rw [length_append, length_map]; omega), maskBytes, maskBits_eq]

/-- Reading takes back what was written, byte for byte. -/
theorem readCoins_bytes (hlib : lib.Sound) (hc : c.Storable) {w : Writes}
    (hw : c.serialize lib = some w) (rest : Bytes) :
    readCoins lib (w.bytes ++ rest) =
      .ok ({ c with vout := c.vout.map .stored }, rest) := by
  obtain ⟨nCode, hcode, rfl⟩ := Option.map_eq_some_iff.mp hw
  obtain ⟨hfits, hbase, hfirst, hsecond, hmask⟩ := headerCode_spec hc.few hcode
  -- the mask covers the outputs, with null outputs behind them
  obtain ⟨p, hp⟩ : ∃ p, 2 + c.calcMaskSize.1 * 8 = c.vout.length + p :=
    ⟨_, (Nat.add_sub_cancel' (length_le_mask hc.clean)).symm⟩
  have hslots : ∀ out ∈ c.vout ++ replicate p .null, out.isNull = false → out.Storable := by
    intro out hmem hnull
    rcases mem_append.mp hmem with hmem | hmem
    · exact hc.outputs out hmem hnull
    · rw [eq_of_mem_replicate hmem] at hnull
      cases hnull
  have houtputs := @readOutputs_bytes lib hlib _ hslots
  rw [unspentOutputs_padded] at houtputs
  rw [bytes_append, bytes_append, bytes_append, bytes_append,
    bytes_maskWrites, append_assoc, append_assoc, append_assoc, append_assoc,
    readCoins, bind_of_ok (readVarInt_int32 hc.version),
    bind_of_ok (readVarInt_uint32 hfits)]
  rw [hmask, hfirst, hsecond, hbase, bind_of_ok (readMaskBytes_serialize c _), hp,
    map_unspentAt, bind_of_ok (houtputs _), bind_of_ok (readVarInt_int32 hc.height)]
  have hversion : (UInt32.ofNat c.nVersion.toUInt32.toNat).toInt32 = c.nVersion := by simp
  have hheight : (UInt32.ofNat c.nHeight.toUInt32.toNat).toInt32 = c.nHeight := by simp
  rw [hversion, hheight]
  show Except.ok (cleanup
    { c with vout := (c.vout ++ replicate p CTxOut.null).map CTxOut.stored }, rest) = _
  rw [cleanup_padded hc.clean]

/-- The sizes of the outputs add up to that of what is written for them. -/
theorem foldl_outputSizes (vout : List CTxOut) (nSize : UInt32) :
    vout.foldl (fun nSize out => if out.isNull then nSize else
        nSize + freeGetSerializeSize (serializeCompressedTxOut lib out).computedSize) nSize =
      nSize + UInt32.ofNat (bytes
        ((unspentOutputs vout).flatMap (serializeCompressedTxOut lib))).length := by
  induction vout generalizing nSize with
  | nil => exact (UInt32.add_zero nSize).symm
  | cons out vout ih =>
    rw [foldl_cons, ih]
    cases hnull : out.isNull with
    | true => simp [unspentOutputs, hnull]
    | false =>
      have hkeep : unspentOutputs (out :: vout) = out :: unspentOutputs vout := by
        simp [unspentOutputs, hnull]
      rw [hkeep, flatMap_cons, bytes_append, length_append,
        UInt32.ofNat_add, ← UInt32.add_assoc, computedSize_eq]
      rfl

/-- `GetSerializeSize` is the number of bytes written, as an `unsigned int`. -/
theorem getSerializeSize_eq (c : CCoins) :
    c.getSerializeSize lib = (c.serialize lib).map fun w => UInt32.ofNat w.bytes.length := by
  rw [getSerializeSize, serialize, Option.map_map]
  congr 1
  funext nCode
  have hmask : (bytes ((range c.calcMaskSize.1).map
      fun b => [UInt8.ofNat (maskByte c.vout b)])).length = c.calcMaskSize.1 := by
    rw [bytes_maskWrites, length_map, maskBytes, length_map, length_range]
  rw [comp_apply]
  dsimp only
  rw [foldl_outputSizes]
  simp only [freeGetSerializeSize, bytes_append, length_append, UInt32.ofNat_add,
    length_writeVarInt, hmask, UInt32.add_assoc]

/-- **`storedCoins_roundTrip`** — coins that are not pruned, with their trailing null outputs
dropped, a version and height that are not negative, amounts from zero to `10 ^ 18` and sizes
below the range of `unsigned int`, are read back field by field, with every spent output null, from
exactly the bytes written; and `GetSerializeSize` is the number of these bytes modulo `2 ^ 32`. -/
theorem storedCoins_roundTrip (lib : CurveLib) (hlib : lib.Sound) (c : CCoins) (hc : c.Storable)
    (rest : Bytes) :
    ∃ w, c.serialize lib = some w ∧ readCoins lib (w.bytes ++ rest) =
        .ok ({ c with vout := c.vout.map CTxOut.stored }, rest) ∧
      (c.getSerializeSize lib).map UInt32.toNat = some (w.bytes.length % 2 ^ 32) := by
  obtain ⟨nCode, hcode⟩ := headerCode_isSome hc.live hc.clean
  obtain ⟨w, hw⟩ : ∃ w, c.serialize lib = some w := ⟨_, by rw [serialize, hcode]; rfl⟩
  refine ⟨w, hw, readCoins_bytes hlib hc hw rest, ?_⟩
  rw [getSerializeSize_eq, hw]
  rfl

end RoundTrip

/-! ## Concrete coins -/

/-- A library that knows no key. -/
def noCurve : CurveLib := ⟨fun _ => false, fun _ => none⟩

theorem noCurve_sound : noCurve.Sound := fun _ _ _ _ h => nomatch h

/-- A coinbase at height 120891 of whose outputs the fifth is left, to a public key hash, and in
front of it a spent one. -/
def fifthOutput : CCoins :=
  { fCoinBase := true
    vout := [CTxOut.null, CTxOut.null, CTxOut.null, CTxOut.null,
      ⟨234925952, [0x76, 0xa9, 20] ++ List.replicate 20 7 ++ [0x88, 0xac]⟩]
    nHeight := 120891
    nVersion := 1 }

theorem fifthOutput_storable : fifthOutput.Storable where
  live := by decide
  clean := by decide
  version := by decide
  height := by decide
  few := by decide
  outputs := by decide

theorem storedCoins_roundTrip_fifthOutput : ∃ w, fifthOutput.serialize noCurve = some w ∧
      readCoins noCurve (w.bytes ++ [1, 2]) =
        .ok ({ fifthOutput with vout := fifthOutput.vout.map CTxOut.stored }, [1, 2]) ∧
      (fifthOutput.getSerializeSize noCurve).map UInt32.toNat = some (w.bytes.length % 2 ^ 32) :=
  storedCoins_roundTrip noCurve noCurve_sound fifthOutput fifthOutput_storable [1, 2]

/-- Coins of one output with the given script, of version 1. -/
def oneScript (script : CScript) : CCoins := { vout := [⟨0, script⟩], nVersion := 1 }

theorem serialize_oneScript (script : CScript) :
    (oneScript script).serialize noCurve = some ([[1], [2], [0]] ++
      (serializeCompressedScript noCurve script ++ [[0]])) := by
  have hmask : (oneScript script).calcMaskSize = (0, 0) := by
    have hlen : (oneScript script).vout.length = 1 := rfl
    rw [calcMaskSize, hlen]
    rfl
  have hcode : (oneScript script).headerCode = some 2 := by
    rw [headerCode, hmask]
    rfl
  rw [serialize, hmask, hcode]
  show some ([[1], [2]] ++ ([] ++ ([[0]] ++ serializeCompressedScript noCurve script ++ [] ++
    [[0]]))) = _
  rw [append_nil]
  rfl

/-- A script whose length plus six is `2 ^ 32` is written with the length zero. -/
theorem serialize_wrapped {script : CScript} (hlen : script.length + 6 = 2 ^ 32) :
    (serializeCompressedScript noCurve script).bytes = [0] ++ script := by
  have hcompr : compressScript noCurve script = none := by
    have hkey : isToKeyID script = none := if_neg (by omega)
    have hid : isToScriptID script = none := if_neg (by omega)
    have hpub : isToPubKey noCurve script = none := by
      rw [isToPubKey, if_neg (by omega), if_neg (by omega)]
    rw [compressScript, hkey, hid, hpub]
    rfl
  rw [serializeCompressedScript, hcompr, nSpecialScripts, hlen]
  rw [bytes_append, bytes_singleton]
  rfl

/-- Four gibibytes less six bytes, all zero. -/
def hugeScript : CScript := List.replicate (2 ^ 32 - 6) 0

/-- The zeros are twenty for a hash, one for a height and what is left over. -/
theorem hugeScript_split : hugeScript.length + 6 = 2 ^ 32 ∧
      ∃ zeros, hugeScript = replicate 20 0 ++ ([0] ++ zeros) := by
  refine ⟨by rw [hugeScript, length_replicate]; norm_num, replicate 4294967269 0, ?_⟩
  have hcount : 2 ^ 32 - 6 = 20 + (1 + 4294967269) := by norm_num
  have hone : [(0 : UInt8)] = replicate 1 0 := rfl
  rw [hugeScript, hcount, hone, replicate_append_replicate, replicate_append_replicate]

/-- A pay-to-public-key-hash script for the hash zero. -/
def zeroHashScript : CScript := [0x76, 0xa9, 20] ++ List.replicate 20 0 ++ [0x88, 0xac]

theorem zeroHashScript_storable : (oneScript zeroHashScript).Storable where
  live := by decide
  clean := by decide
  version := by decide
  height := by decide
  few := by decide
  outputs := by decide

/-- The huge script is written with the length zero, and what is read back is a script of
twenty-five bytes, with bytes left over. -/
theorem hugeScript_reads_back_short :
    (oneScript hugeScript).isPruned = false ∧ (oneScript hugeScript).Clean ∧
      0 ≤ (oneScript hugeScript).nVersion ∧ 0 ≤ (oneScript hugeScript).nHeight ∧
      (∀ out ∈ (oneScript hugeScript).vout, out.nValue = 0) ∧ noCurve.Sound ∧
      ∃ w c rest, (oneScript hugeScript).serialize noCurve = some w ∧
        readCoins noCurve w.bytes = .ok (c, rest) ∧
        c.vout ≠ (oneScript hugeScript).vout.map CTxOut.stored ∧ rest ≠ [] := by
  obtain ⟨hlen, zeros, hsplit⟩ := hugeScript_split
  generalize hugeScript = script at hlen hsplit ⊢
  have hread := readCoins_bytes noCurve_sound zeroHashScript_storable
    (serialize_oneScript zeroHashScript) (zeros ++ [0])
  have hbytes : bytes ([[1], [2], [0]] ++ (serializeCompressedScript noCurve script ++ [[0]])) =
        bytes ([[1], [2], [0]] ++ ([0 :: replicate 20 0] ++ [[0]])) ++ (zeros ++ [0]) := by
    rw [bytes_append, bytes_append _ [[0]], serialize_wrapped hlen, hsplit]
    rfl
  refine ⟨rfl, ?_, show (0 : Int32) ≤ 1 by decide, show (0 : Int32) ≤ 0 by decide, ?_,
    noCurve_sound, _, _, _, serialize_oneScript script, hbytes ▸ hread, ?_,
    append_ne_nil_of_right_ne_nil _ (cons_ne_nil _ _)⟩
  · intro out hlast
    cases hlast
    rfl
  · intro out hmem
    rw [mem_singleton.mp hmem]
  · intro heq
    have hscript : zeroHashScript = script := (CTxOut.mk.inj (cons.inj heq).1).2
    have hcontra : zeroHashScript.length + 6 = 2 ^ 32 := hscript ▸ hlen
    exact absurd hcontra (by decide)

end MonetaryUnit
