/-
# MonetaryUnit.Serialize.Compressor — amounts and scripts in short form

`compressor.h` and `compressor.cpp`: an output is stored with its trailing decimal zeros counted
instead of written, and with one byte for the opcodes of the common scripts. Both are undone on
reading.

A script that is none of the six special ones is stored with its length plus six, in an
`unsigned int`; the sum wraps for a script of four gibibytes less six bytes, which then reads
back as something else. The results here are for shorter scripts.

What the elliptic-curve library does with a key is a parameter (`CurveLib`).
-/

import MonetaryUnit.Lib.VarInt
import MonetaryUnit.Serialize.Canonical

namespace MonetaryUnit

open Lib List Writes Reader Nat

/-! ## Variable-length integers -/

/-- `WriteVarInt` of an unsigned type of the given number of bytes: one `write` for each digit. -/
def writeVarInt (sizeof n : Nat) : Writes :=
  (varInt ((sizeof * 8 + 6) / 7) false n).map fun digit => [digit]

/-- `GetSizeOfVarInt`. -/
def getSizeOfVarInt (sizeof n : Nat) : Nat := varIntSize ((sizeof * 8 + 6) / 7) n

/-- A negative `int` is at most `0x7F`, so its low digit is all that is written. -/
def varIntOfInt (n : Int32) : Nat :=
  if n < 0 then n.toUInt32.toNat % 128 else n.toUInt32.toNat

theorem bytes_writeVarInt (sizeof n : Nat) :
    (writeVarInt sizeof n).bytes = varInt ((sizeof * 8 + 6) / 7) false n := by
  simp [writeVarInt, bytes, ← flatMap_def]

theorem length_writeVarInt (sizeof n : Nat) :
    (writeVarInt sizeof n).bytes.length = getSizeOfVarInt sizeof n := by
  rw [bytes_writeVarInt, length_varInt, getSizeOfVarInt]

variable {n e : Nat}

/-- A 32-bit number fits the buffer of five digits. -/
theorem readVarInt_uint32 {rest : Bytes} (hn : n < 2 ^ 32) :
    readVarInt endOfData (2 ^ 32) ((writeVarInt 4 n).bytes ++ rest) = .ok (n, rest) := by
  rw [bytes_writeVarInt]
  exact readVarInt_varInt (lt_trans hn (by decide)) hn

/-- A 64-bit number fits the buffer of ten digits. -/
theorem readVarInt_uint64 {rest : Bytes} (hn : n < 2 ^ 64) :
    readVarInt endOfData (2 ^ 64) ((writeVarInt 8 n).bytes ++ rest) = .ok (n, rest) := by
  rw [bytes_writeVarInt]
  exact readVarInt_varInt (lt_trans hn (by decide)) hn

/-! ## Amounts -/

/-- `while (((n % 10) == 0) && e < 9)`: the number left and the zeros counted. -/
def stripZeros : Nat → Nat → Nat → Nat × Nat
  | 0, n, e => (n, e)
  | fuel + 1, n, e => if n % 10 = 0 then stripZeros fuel (n / 10) (e + 1) else (n, e)

def compressAmount (n : Nat) : Nat :=
  if n = 0 then 0
  else
    let (n, e) := stripZeros 9 n 0
    if e < 9 then
      let d := n % 10
      (1 + (n / 10 * 9 + d - 1) * 10 + e) % 2 ^ 64
    else (1 + (n - 1) * 10 + 9) % 2 ^ 64

/-- `while (e) { n *= 10; e--; }`. -/
def scaleUp : Nat → Nat → Nat
  | 0, n => n
  | e + 1, n => scaleUp e (n * 10 % 2 ^ 64)

def decompressAmount (x : Nat) : Nat :=
  if x = 0 then 0
  else
    let x := x - 1
    let e := x % 10
    let x := x / 10
    let n := if e < 9 then x / 9 * 10 + (x % 9 + 1) else x + 1
    scaleUp e (n % 2 ^ 64)

/-- The loop divides by a power of ten, as large as it can get up to the ninth. -/
theorem stripZeros_spec (fuel n e : Nat) :
    ∃ m k, stripZeros fuel n e = (m, e + k) ∧ n = m * 10 ^ k ∧ k ≤ fuel ∧
      (k < fuel → m % 10 ≠ 0) := by
  induction fuel generalizing n e with
  | zero => exact ⟨n, 0, rfl, by simp, le_refl 0, fun h => absurd h (lt_irrefl 0)⟩
  | succ fuel ih =>
    rw [stripZeros]
    split
    · next hzero =>
      obtain ⟨m, k, heq, hn, hk, hlast⟩ := ih (n / 10) (e + 1)
      refine ⟨m, k + 1, ?_, ?_, by omega, fun h => hlast (by omega)⟩
      · rw [heq, add_right_comm, add_assoc]
      · rw [pow_succ, ← mul_assoc]
        omega
    · next hdigit => exact ⟨n, 0, rfl, by simp, zero_le _, fun _ => hdigit⟩

theorem scaleUp_eq (h : n * 10 ^ e < 2 ^ 64) : scaleUp e n = n * 10 ^ e := by
  induction e generalizing n with
  | zero => simp [scaleUp]
  | succ e ih =>
    have hpow : n * 10 ^ (e + 1) = n * 10 * 10 ^ e := by ring
    rw [hpow] at h ⊢
    have hten : n * 10 < 2 ^ 64 :=
      Nat.lt_of_le_of_lt (Nat.le_mul_of_pos_right _ (Nat.pow_pos (by decide))) h
    rw [scaleUp, mod_eq_of_lt hten]
    exact ih h

/-- The short form is a digit for the zeros and a number in front of it. -/
theorem decompressAmount_eq {x : Nat} (he : e < 10) : decompressAmount (1 + x * 10 + e) =
      scaleUp e ((if e < 9 then x / 9 * 10 + (x % 9 + 1) else x + 1) % 2 ^ 64) := by
  have hdigit : (1 + x * 10 + e - 1) % 10 = e := by omega
  have hfront : (1 + x * 10 + e - 1) / 10 = x := by omega
  rw [decompressAmount, if_neg (by omega)]
  dsimp only
  rw [hdigit, hfront]

theorem compressAmount_eq {m : Nat} (hn : 0 < n) (h : stripZeros 9 n 0 = (m, e)) :
    compressAmount n = if e < 9 then (1 + (m / 10 * 9 + m % 10 - 1) * 10 + e) % 2 ^ 64
      else (1 + (m - 1) * 10 + 9) % 2 ^ 64 := by
  rw [compressAmount, if_neg (by omega), h]

/-- An amount comes back whenever the number in front of the digit for the zeros fits. -/
theorem decompressAmount_of_fits {m k : Nat} (hpos : 0 < n) (hn : n < 2 ^ 64)
    (heq : stripZeros 9 n 0 = (m, k)) (hm : n = m * 10 ^ k) (hk : k ≤ 9)
    (hdigit : k < 9 → m % 10 ≠ 0)
    (hfits : 1 + (if k < 9 then m / 10 * 9 + (m % 10 - 1) else m - 1) * 10 + k < 2 ^ 64) :
    decompressAmount (compressAmount n) = n ∧ compressAmount n < 2 ^ 64 := by
  have hmle : m ≤ n := by
    rw [hm]
    exact Nat.le_mul_of_pos_right _ (Nat.pow_pos (by decide))
  have hmpos : 0 < m := by
    rcases Nat.eq_zero_or_pos m with rfl | h
    · omega
    · exact h
  have hscale : scaleUp k (m % 2 ^ 64) = n := by
    rw [mod_eq_of_lt (by omega), scaleUp_eq (by omega), hm]
  rw [compressAmount_eq hpos heq]
  rcases lt_or_ge k 9 with hlt | hge
  · -- the last digit is not zero, so nine values are enough for it
    have hx : m / 10 * 9 + m % 10 - 1 = m / 10 * 9 + (m % 10 - 1) := by omega
    have hback : (m / 10 * 9 + (m % 10 - 1)) / 9 * 10 + ((m / 10 * 9 + (m % 10 - 1)) % 9 + 1) =
        m := by omega
    rw [if_pos hlt] at hfits
    rw [if_pos hlt, hx, mod_eq_of_lt hfits, decompressAmount_eq (by omega), if_pos hlt, hback]
    exact ⟨hscale, hfits⟩
  · have hk9 : k = 9 := by omega
    subst hk9
    rw [if_neg (lt_irrefl 9)] at hfits
    rw [if_neg (Nat.lt_irrefl 9), mod_eq_of_lt hfits, decompressAmount_eq (by decide),
      Nat.sub_add_cancel hmpos]
    exact ⟨hscale, hfits⟩

/-- An amount up to `10 ^ 18` comes back, and its short
form is a 64-bit number. -/
theorem decompressAmount_compressAmount (hn : n ≤ 10 ^ 18) :
    decompressAmount (compressAmount n) = n ∧ compressAmount n < 2 ^ 64 := by
  rcases Nat.eq_zero_or_pos n with rfl | hpos
  · exact ⟨rfl, by decide⟩
  obtain ⟨m, k, heq, hm, hk, hdigit⟩ := stripZeros_spec 9 n 0
  rw [zero_add] at heq
  have hmle : m ≤ n := by
    rw [hm]
    exact Nat.le_mul_of_pos_right _ (Nat.pow_pos (by decide))
  refine decompressAmount_of_fits hpos (by omega) heq hm hk hdigit ?_
  split <;> omega

/-! ## Scripts -/

/-- What `CPubKey` asks the elliptic-curve library: `IsFullyValid` of a key and `Decompress` of
a compressed one. -/
structure CurveLib where
  isFullyValid : Bytes → Bool
  decompress : Bytes → Option Bytes

/-- For a valid uncompressed key, its first coordinate and the parity of its second give the key
back. -/
def CurveLib.Sound (lib : CurveLib) : Prop :=
  ∀ x y : Bytes, x.length = 32 → y.length = 32 → lib.isFullyValid (4 :: (x ++ y)) = true →
    lib.decompress (UInt8.ofNat (2 + (y.getD 31 0).toNat % 2) :: x) = some (4 :: (x ++ y))

section Scripts

variable (lib : CurveLib)

def nSpecialScripts : Nat := 6

def isToKeyID (script : CScript) : Option Bytes :=
  if script.length = 25 ∧ script[0]? = some 0x76 ∧ script[1]? = some 0xa9 ∧
      script[2]? = some 20 ∧ script[23]? = some 0x88 ∧ script[24]? = some 0xac then
    some ((script.drop 3).take 20)
  else none

def isToScriptID (script : CScript) : Option Bytes :=
  if script.length = 23 ∧ script[0]? = some 0xa9 ∧ script[1]? = some 20 ∧
      script[22]? = some 0x87 then
    some ((script.drop 2).take 20)
  else none

/-- The bytes of the key; an uncompressed one that is not fully valid is not a case for the short
form. -/
def isToPubKey (script : CScript) : Option Bytes :=
  if script.length = 35 ∧ script[0]? = some 33 ∧ script[34]? = some 0xac ∧
      (script[1]? = some 2 ∨ script[1]? = some 3) then
    some ((script.drop 1).take 33)
  else if script.length = 67 ∧ script[0]? = some 65 ∧ script[66]? = some 0xac ∧
      script[1]? = some 4 then
    if lib.isFullyValid ((script.drop 1).take 65) then some ((script.drop 1).take 65) else none
  else none

/-- The short form of a key: its header, with the parity of the second coordinate if that is
dropped, and the first coordinate. -/
def compressPubKey (pubkey : Bytes) : Option Bytes :=
  let header := pubkey.getD 0 0
  if header = 2 ∨ header = 3 then some (header :: (pubkey.drop 1).take 32)
  else if header = 4 then
    some (UInt8.ofNat (4 + (pubkey.getD 64 0).toNat % 2) :: (pubkey.drop 1).take 32)
  else none

def compressScript (script : CScript) : Option Bytes :=
  match isToKeyID script with
  | some hash => some (0 :: hash)
  | none =>
    match isToScriptID script with
    | some hash => some (1 :: hash)
    | none => (isToPubKey lib script).bind compressPubKey

def getSpecialSize (nSize : Nat) : Nat :=
  if nSize = 0 ∨ nSize = 1 then 20
  else if nSize = 2 ∨ nSize = 3 ∨ nSize = 4 ∨ nSize = 5 then 32
  else 0

/-- The script that a short form stands for; `none` where the code returns false and leaves the
script alone. -/
def decompressScript (nSize : Nat) (input : Bytes) : Except String (Option CScript) :=
  match nSize with
  | 0 => .ok (some ([0x76, 0xa9, 20] ++ input.take 20 ++ [0x88, 0xac]))
  | 1 => .ok (some ([0xa9, 20] ++ input.take 20 ++ [0x87]))
  | 2 => .ok (some ([33, 2] ++ input.take 32 ++ [0xac]))
  | 3 => .ok (some ([33, 3] ++ input.take 32 ++ [0xac]))
  | 4 | 5 =>
    match lib.decompress (UInt8.ofNat (nSize - 2) :: input.take 32) with
    | none => .ok none
    | some pubkey =>
      if pubkey.length = 65 then .ok (some ([65] ++ pubkey ++ [0xac]))
      else .error "assert(pubkey.size() == 65)"
  | _ => .ok none

/-- `CScriptCompressor::Serialize`. -/
def serializeCompressedScript (script : CScript) : Writes :=
  match compressScript lib script with
  | some compr => [compr]
  | none =>
    let nSize := (script.length + nSpecialScripts) % 2 ^ 32
    writeVarInt 4 nSize ++ [script]

/-- `CScriptCompressor::Unserialize` into an empty script. -/
def readCompressedScript : Reader CScript := do
  let nSize ← readVarInt endOfData (2 ^ 32)
  if nSize < nSpecialScripts then
    let vch ← readBytes endOfData (getSpecialSize nSize)
    match decompressScript lib nSize vch with
    | .ok script => pure (script.getD [])
    | .error e => throw e
  else readBytes endOfData (nSize - nSpecialScripts)

/-- `CTxOutCompressor`, writing. -/
def serializeCompressedTxOut (out : CTxOut) : Writes :=
  writeVarInt 8 (compressAmount out.nValue.toUInt64.toNat) ++
    serializeCompressedScript lib out.scriptPubKey

/-- `CTxOutCompressor`, reading into a null output. -/
def readCompressedTxOut : Reader CTxOut := do
  let nVal ← readVarInt endOfData (2 ^ 64)
  let scriptPubKey ← readCompressedScript lib
  pure { nValue := (UInt64.ofNat (decompressAmount nVal)).toInt64, scriptPubKey }

end Scripts

/-! ### The special scripts come back -/

/-- A script that begins and ends with given bytes is these bytes around its middle. -/
theorem eq_framed {script front back : Bytes} {m : Nat}
    (hlen : script.length = front.length + m + back.length)
    (hfront : ∀ i < front.length, script[i]? = front[i]?)
    (hback : ∀ i < back.length, script[front.length + m + i]? = back[i]?) :
    ((script.drop front.length).take m).length = m ∧
      script = front ++ (script.drop front.length).take m ++ back := by
  have htake : script.take front.length = front := by
    refine ext_getElem?' fun i hi => ?_
    rw [length_take, min_eq_left (by omega), max_self] at hi
    rw [getElem?_take_of_lt hi, hfront i hi]
  have hdrop : script.drop (front.length + m) = back := by
    refine ext_getElem?' fun i hi => ?_
    rw [length_drop, show script.length - (front.length + m) = back.length by omega, max_self] at hi
    rw [getElem?_drop, hback i hi]
  refine ⟨by rw [length_take, length_drop]; omega, ?_⟩
  have hall := take_append_drop front.length script
  rw [htake, ← take_append_drop m (script.drop front.length), drop_drop, hdrop] at hall
  rw [append_assoc, hall]

variable {lib : CurveLib} {script : CScript}

theorem isToKeyID_eq {hash : Bytes} (h : isToKeyID script = some hash) :
    hash.length = 20 ∧ script = [0x76, 0xa9, 20] ++ hash ++ [0x88, 0xac] := by
  rw [isToKeyID] at h
  split at h
  · next hscript =>
    obtain ⟨hlen, h0, h1, h2, h23, h24⟩ := hscript
    cases h
    apply @eq_framed script [0x76, 0xa9, 20] [0x88, 0xac] 20 hlen
    · intro i hi
      match i, hi with
      | 0, _ => exact h0
      | 1, _ => exact h1
      | 2, _ => exact h2
    · intro i hi
      match i, hi with
      | 0, _ => exact h23
      | 1, _ => exact h24
  · cases h

theorem isToScriptID_eq {hash : Bytes} (h : isToScriptID script = some hash) :
    hash.length = 20 ∧ script = [0xa9, 20] ++ hash ++ [0x87] := by
  rw [isToScriptID] at h
  split at h
  · next hscript =>
    obtain ⟨hlen, h0, h1, h22⟩ := hscript
    cases h
    apply @eq_framed script [0xa9, 20] [0x87] 20 hlen
    · intro i hi
      match i, hi with
      | 0, _ => exact h0
      | 1, _ => exact h1
    · intro i hi
      match i, hi with
      | 0, _ => exact h22
  · cases h

/-- The middle of a script that pushes a key of `m + 1` bytes starts with the key's header. -/
theorem pushedKey_eq {m : Nat} {push header : UInt8} (hlen : script.length = m + 3)
    (h0 : script[0]? = some push) (h1 : script[1]? = some header)
    (hend : script[m + 2]? = some 0xac) :
    ∃ key, key.length = m ∧ (script.drop 1).take (m + 1) = header :: key ∧
      script = [push] ++ (header :: key) ++ [0xac] := by
  have hframe := @eq_framed script [push, header] [0xac] m (by simp; omega) (by
      intro i hi
      match i, hi with
      | 0, _ => exact h0
      | 1, _ => exact h1)
    (by
      intro i hi
      match i, hi with
      | 0, _ =>
        rw [add_comm m 2] at hend
        exact hend)
  obtain ⟨hkey, hscript⟩ := hframe
  set key := (script.drop [push, header].length).take m
  refine ⟨key, hkey, ?_, hscript⟩
  rw [hscript]
  show take (m + 1) (header :: (key ++ [0xac])) = _
  rw [take_succ_cons, take_left' hkey]

theorem isToPubKey_eq {pubkey : Bytes} (h : isToPubKey lib script = some pubkey) :
    (∃ x, x.length = 32 ∧ (pubkey = 2 :: x ∨ pubkey = 3 :: x) ∧ script = [33] ++ pubkey ++ [0xac]) ∨
      (∃ x y, x.length = 32 ∧ y.length = 32 ∧ pubkey = 4 :: (x ++ y) ∧
        script = [65] ++ pubkey ++ [0xac] ∧ lib.isFullyValid pubkey = true) := by
  rw [isToPubKey] at h
  split at h
  · next hscript =>
    obtain ⟨hlen, h0, hend, h1⟩ := hscript
    cases h
    left
    rcases h1 with h1 | h1
    · obtain ⟨x, hx, hkey, hscript⟩ := @pushedKey_eq script 32 33 2 hlen h0 h1 hend
      exact ⟨x, hx, .inl hkey, by rw [hkey]; exact hscript⟩
    · obtain ⟨x, hx, hkey, hscript⟩ := @pushedKey_eq script 32 33 3 hlen h0 h1 hend
      exact ⟨x, hx, .inr hkey, by rw [hkey]; exact hscript⟩
  · split at h
    · next hscript =>
      obtain ⟨hlen, h0, hend, h1⟩ := hscript
      split at h
      · next hvalid =>
        cases h
        right
        obtain ⟨key, hkeyLen, hkey, hscript⟩ := @pushedKey_eq script 64 65 4 hlen h0 h1 hend
        refine ⟨key.take 32, key.drop 32, ?_, ?_, ?_, ?_, hvalid⟩
        · rw [length_take]
          omega
        · rw [length_drop]
          omega
        · rw [take_append_drop]
          exact hkey
        · rw [hkey]
          exact hscript
      · cases h
    · cases h

/-- The short form is one of six numbers and as many bytes
as that number announces, and stands for the script. -/
theorem decompressScript_compressScript (hlib : lib.Sound) {out : Bytes}
    (h : compressScript lib script = some out) :
    ∃ b payload, out = UInt8.ofNat b :: payload ∧ b < nSpecialScripts ∧
      payload.length = getSpecialSize b ∧
      decompressScript lib b payload = .ok (some script) := by
  rw [compressScript] at h
  cases hkey : isToKeyID script with
  | some hash =>
    rw [hkey] at h
    cases h
    obtain ⟨hlen, hscript⟩ := isToKeyID_eq hkey
    refine ⟨0, hash, rfl, by decide, hlen, ?_⟩
    rw [decompressScript, take_of_length_le (le_of_eq hlen), ← hscript]
  | none =>
    rw [hkey] at h
    cases hid : isToScriptID script with
    | some hash =>
      rw [hid] at h
      cases h
      obtain ⟨hlen, hscript⟩ := isToScriptID_eq hid
      refine ⟨1, hash, rfl, by decide, hlen, ?_⟩
      rw [decompressScript, take_of_length_le (le_of_eq hlen), ← hscript]
    | none =>
      rw [hid] at h
      obtain ⟨pubkey, hpub, hcompr⟩ := Option.bind_eq_some_iff.mp h
      rcases isToPubKey_eq hpub with ⟨x, hx, rfl | rfl, hscript⟩ |
        ⟨x, y, hx, hy, rfl, hscript, hvalid⟩
      · cases hcompr
        rw [take_of_length_le (by simp [hx])]
        refine ⟨2, x, rfl, by decide, hx, ?_⟩
        rw [decompressScript, take_of_length_le (le_of_eq hx), hscript]
        rfl
      · cases hcompr
        rw [take_of_length_le (by simp [hx])]
        refine ⟨3, x, rfl, by decide, hx, ?_⟩
        rw [decompressScript, take_of_length_le (le_of_eq hx), hscript]
        rfl
      · -- the parity is that of the last byte of the second coordinate
        have hparity : (4 :: (x ++ y)).getD 64 0 = y.getD 31 0 := by
          show (x ++ y).getD 63 0 = y.getD 31 0
          rw [getD_eq_getElem?_getD, getElem?_append_right (by omega), hx, getD_eq_getElem?_getD]
        have hx' : ((4 :: (x ++ y)).drop 1).take 32 = x := take_left' hx
        have hkey := hlib x y hx hy hvalid
        have hsize : (4 :: (x ++ y)).length = 65 := by
          rw [length_cons, length_append]
          omega
        have hout : compressPubKey (4 :: (x ++ y)) =
            some (UInt8.ofNat (4 + (y.getD 31 0).toNat % 2) :: x) := by
          rw [← hparity]
          exact congrArg (fun l => some (_ :: l)) hx'
        rw [hout] at hcompr
        cases hcompr
        rcases mod_two_eq_zero_or_one (y.getD 31 0).toNat with heven | hodd
        · rw [heven] at hkey ⊢
          refine ⟨4, x, rfl, by decide, hx, ?_⟩
          rw [decompressScript, take_of_length_le (le_of_eq hx)]
          simp only [hkey, hsize, if_true]
          rw [hscript]
        · rw [hodd] at hkey ⊢
          refine ⟨5, x, rfl, by decide, hx, ?_⟩
          rw [decompressScript, take_of_length_le (le_of_eq hx)]
          simp only [hkey, hsize, if_true]
          rw [hscript]

/-! ## Reading what was written -/

theorem readCompressedScript_bytes (hlib : lib.Sound)
    (hlen : script.length + nSpecialScripts < 2 ^ 32) (rest : Bytes) :
    readCompressedScript lib ((serializeCompressedScript lib script).bytes ++ rest) =
      .ok (script, rest) := by
  rw [readCompressedScript, serializeCompressedScript]
  cases hcompr : compressScript lib script with
  | some compr =>
    obtain ⟨b, payload, rfl, hb, hsize, hback⟩ := decompressScript_compressScript hlib hcompr
    -- a number below six is one digit
    have hdigit : (writeVarInt 4 b).bytes = [UInt8.ofNat b] := by
      have hsmall : b < 6 := hb
      rw [bytes_writeVarInt]
      show (if b ≤ 127 then _ else _) = _
      rw [if_pos (by omega), mod_eq_of_lt (by omega)]
      rfl
    have hnum := @readVarInt_uint32 b (payload ++ rest) (lt_trans hb (by decide))
    rw [hdigit, singleton_append] at hnum
    have hread : readBytes endOfData (getSpecialSize b) (payload ++ rest) = .ok (payload, rest) :=
      (canonical_readBytes endOfData (getSpecialSize b)).read_write rest hsize
    rw [bytes_singleton, cons_append, bind_of_ok hnum, if_pos hb, bind_of_ok hread, hback]
    rfl
  | none =>
    have hnum := @readVarInt_uint32 (script.length + nSpecialScripts) (script ++ rest) hlen
    have hread := (canonical_readBytes endOfData script.length).read_write rest rfl
    rw [mod_eq_of_lt hlen, bytes_append, bytes_singleton, append_assoc, bind_of_ok hnum]
    exact hread

/-- A value that is not negative is its own bit pattern. -/
theorem toNat_toUInt64 {v : CAmount} (h : 0 ≤ v.toInt) : (v.toUInt64.toNat : Int) = v.toInt := by
  have hsigned := BitVec.toInt_eq_toNat_cond v.toBitVec
  have hlt := v.toBitVec.isLt
  rw [Int64.toInt_toBitVec, Int64.toNat_toBitVec] at hsigned
  rw [Int64.toNat_toBitVec] at hlt
  split at hsigned <;> omega

theorem readCompressedTxOut_bytes (hlib : lib.Sound) {out : CTxOut}
    (hvalue : 0 ≤ out.nValue.toInt ∧ out.nValue.toInt ≤ 10 ^ 18)
    (hlen : out.scriptPubKey.length + nSpecialScripts < 2 ^ 32) (rest : Bytes) :
    readCompressedTxOut lib ((serializeCompressedTxOut lib out).bytes ++ rest) =
      .ok (out, rest) := by
  have hnat : out.nValue.toUInt64.toNat ≤ 10 ^ 18 := by
    have := toNat_toUInt64 hvalue.1
    omega
  obtain ⟨hback, hfits⟩ := decompressAmount_compressAmount hnat
  rw [readCompressedTxOut, serializeCompressedTxOut, bytes_append, append_assoc,
    bind_of_ok (readVarInt_uint64 hfits),
    bind_of_ok (readCompressedScript_bytes hlib hlen rest), hback]
  have hsame : (UInt64.ofNat out.nValue.toUInt64.toNat).toInt64 = out.nValue := by simp
  rw [hsame]
  rfl

end MonetaryUnit
