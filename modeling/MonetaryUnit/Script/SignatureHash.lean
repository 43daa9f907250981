/-
# MonetaryUnit.Script.SignatureHash — what a signature covers

`CTransactionSignatureSerializer` and `SignatureHash` of `interpreter.cpp`, and the procedure they
replace: copy the transaction, change the copy, serialize it. The serializer never builds the copy:
it announces the length of the script without its separators, writes the pieces in between, and
blanks fields by index while it goes.

The two produce the same bytes for every script code that parses to its end. On one that does not
the serializer announces more bytes than it writes, but such a script cannot verify: the machine
reaches the place where the parse stops, or fails before it.
-/

import MonetaryUnit.Script.Instructions
import MonetaryUnit.Script.Safety
import MonetaryUnit.Serialize.Canonical

namespace MonetaryUnit

open Lib Lib.Command List CTransaction Keeps Within Machine Nat

/-! ## The streaming serializer -/

/-- Where a `GetOp` that returns false leaves the iterator: behind the opcode, and behind the
size if that could be read. -/
def getOpStop : CScript → CScript
  | [] => []
  | opcode :: pc =>
    if opcode = 0x4c then (if pc.length < 1 then pc else pc.drop 1)
    else if opcode = 0x4d then (if pc.length < 2 then pc else pc.drop 2)
    else if opcode = 0x4e then (if pc.length < 4 then pc else pc.drop 4)
    else pc

/-- The first loop of `SerializeScriptCode`. -/
def countCodeSeparators : Nat → CScript → Nat
  | 0, _ => 0
  | fuel + 1, it =>
    match getOp it with
    | none => 0
    | some (opcode, _, rest) => (if opcode = 0xab then 1 else 0) + countCodeSeparators fuel rest

/-- The second loop: `it` and `itBegin` are what is left of the script from them on. -/
def writeSegments : Nat → CScript → CScript → Writes
  | 0, _, _ => []
  | fuel + 1, it, itBegin =>
    match getOp it with
    | none =>
      if itBegin.isEmpty then []
      else [itBegin.take (itBegin.length - (getOpStop it).length)]
    | some (opcode, _, rest) =>
      if opcode = 0xab then
        itBegin.take (itBegin.length - rest.length - 1) :: writeSegments fuel rest rest
      else writeSegments fuel rest itBegin

/-- `SerializeScriptCode`. A loop ends with the first instruction that is not there. -/
def serializeScriptCode (scriptCode : CScript) : Writes :=
  writeCompactSize (scriptCode.length - countCodeSeparators scriptCode.length scriptCode) ++
    writeSegments (scriptCode.length + 1) scriptCode scriptCode

def fAnyoneCanPay (nHashType : Int32) : Bool := nHashType &&& 0x80 != 0
def fHashSingle (nHashType : Int32) : Bool := nHashType &&& 0x1f == 3
def fHashNone (nHashType : Int32) : Bool := nHashType &&& 0x1f == 2

section Message

variable (scriptCode : CScript) (txTo : CTransaction) (nIn : Nat) (nHashType : Int32)

/-- `SerializeInput`. The index is in range whenever it is called. -/
def serializeInput (nInput : Nat) : Writes :=
  let nInput := if fAnyoneCanPay nHashType then nIn else nInput
  match txTo.vin[nInput]? with
  | none => []
  | some txin =>
    txin.prevout.serialize ++
      (if nInput ≠ nIn then serializeBytes [] else serializeScriptCode scriptCode) ++
      if nInput ≠ nIn ∧ (fHashSingle nHashType ∨ fHashNone nHashType) then serializeInt32 0
      else serializeUint32 txin.nSequence

/-- `SerializeOutput`. -/
def serializeOutput (nOutput : Nat) : Writes :=
  if fHashSingle nHashType ∧ nOutput ≠ nIn then CTxOut.null.serialize
  else
    match txTo.vout[nOutput]? with
    | none => []
    | some txout => txout.serialize

/-- `CTransactionSignatureSerializer::Serialize`. -/
def serializeForSignature : Writes :=
  let nInputs := if fAnyoneCanPay nHashType then 1 else txTo.vin.length
  let nOutputs :=
    if fHashNone nHashType then 0
    else if fHashSingle nHashType then nIn + 1 else txTo.vout.length
  serializeInt32 txTo.nVersion ++ (writeCompactSize nInputs ++
      (List.range nInputs).flatMap (serializeInput scriptCode txTo nIn nHashType)) ++
    (writeCompactSize nOutputs ++
      (List.range nOutputs).flatMap (serializeOutput txTo nIn nHashType)) ++
    serializeUint32 txTo.nLockTime ++
    CTransaction.serializeComment txTo.nVersion txTo.strTxComment

/-- The bytes `SignatureHash` hashes, or `none` where it returns 1 instead. -/
def signatureMessage : Option Bytes :=
  if txTo.vin.length ≤ nIn then none
  else if fHashSingle nHashType ∧ txTo.vout.length ≤ nIn then none
  else
    some ((serializeForSignature scriptCode txTo nIn nHashType).bytes ++
      (serializeInt32 nHashType).bytes)

/-- `SignatureHash`. -/
def signatureHash (hash256 : Bytes → Uint256) : Uint256 :=
  match signatureMessage scriptCode txTo nIn nHashType with
  | none => 1
  | some message => hash256 message

end Message

/-! ## The procedure on a copy -/

section Reference

variable (nIn : Nat) (nHashType : Int32)

def blankSignatures (scriptCode : CScript) (txTmp : CTransaction) : CTransaction := { txTmp with
    vin := (txTmp.vin.map fun txin => { txin with scriptSig := [] }).modify nIn fun txin =>
      { txin with scriptSig := scriptCode } }

/-- Let the others update at will. -/
def zeroOtherSequences (txTmp : CTransaction) : CTransaction := { txTmp with
    vin := txTmp.vin.mapIdx fun i txin => if i ≠ nIn then { txin with nSequence := 0 } else txin }

/-- `vout.resize(nIn + 1)`, and all outputs before the last are blanked. -/
def keepOneOutput (txTmp : CTransaction) : CTransaction := { txTmp with
    vout := (txTmp.vout.take (nIn + 1)).mapIdx fun i txout =>
      if i < nIn then CTxOut.null else txout }

/-- The outputs for the hash type, or `none` where there is no output for the input. -/
def blankOutputs (txTmp : CTransaction) : Option CTransaction :=
  if fHashNone nHashType then some (zeroOtherSequences nIn { txTmp with vout := [] })
  else if fHashSingle nHashType then
    if txTmp.vout.length ≤ nIn then none
    else some (zeroOtherSequences nIn (keepOneOutput nIn txTmp))
  else some txTmp

/-- `vin[0] = vin[nIn]; vin.resize(1)` for `SIGHASH_ANYONECANPAY`. -/
def blankInputs (txTmp : CTransaction) : CTransaction :=
  if fAnyoneCanPay nHashType then { txTmp with vin := txTmp.vin[nIn]?.toList }
  else txTmp

/-- The message of the procedure that changes a copy of the transaction. -/
def referenceMessage (scriptCode : CScript) (txTo : CTransaction) : Option Bytes :=
  if txTo.vin.length ≤ nIn then none
  else
    let txTmp := blankSignatures nIn (findAndDelete scriptCode [0xab]) txTo
    match blankOutputs nIn nHashType txTmp with
    | none => none
    | some txTmp =>
      some ((blankInputs nIn nHashType txTmp).bytes ++ (serializeInt32 nHashType).bytes)

def referenceHash (scriptCode : CScript) (txTo : CTransaction) (hash256 : Bytes → Uint256) :
    Uint256 :=
  match referenceMessage nIn nHashType scriptCode txTo with
  | none => 1
  | some message => hash256 message

end Reference

/-! ## The script code -/

theorem separator_ne_nil : ([0xab] : CScript) ≠ [] := cons_ne_nil _ _

variable {pc rest it code : CScript} {v : Bytes} {fuel : Nat}

theorem separator_isPrefix_iff {opcode : UInt8} (h : getOp pc = some (opcode, v, rest)) :
    [0xab] <+: pc ↔ opcode = 0xab := by
  obtain ⟨size, -, rfl⟩ := getOp_eq_some_iff.mp h
  rw [cons_prefix_cons]
  exact ⟨fun hpre => hpre.1.symm, fun heq => ⟨heq.symm, nil_prefix⟩⟩

theorem getOp_separator (h : getOp pc = some (0xab, v, rest)) : pc = [0xab] ++ rest := by
  obtain ⟨size, hins, rfl⟩ := getOp_eq_some_iff.mp h
  cases hins with
  | push hlt _ => exact absurd hlt (by decide)
  | other _ => rfl

/-- The separators that are counted are the bytes that deletion takes away. -/
theorem countCodeSeparators_add (h : ParsesFully it) (hfuel : it.length ≤ fuel) :
    countCodeSeparators fuel it + (findAndDelete it [0xab]).length = it.length := by
  induction h generalizing fuel with
  | nil =>
    cases fuel <;> rfl
  | @step opcode v pc rest hop hrest ih =>
    have hlt := getOp_length_lt hop
    obtain ⟨fuel, rfl⟩ : ∃ k, fuel = k + 1 := ⟨fuel - 1, by omega⟩
    have hih := @ih fuel (by omega)
    rw [countCodeSeparators, hop]
    dsimp only
    by_cases hsep : opcode = 0xab
    · subst hsep
      obtain rfl := getOp_separator hop
      rw [findAndDelete_append separator_ne_nil, if_pos rfl, length_append, length_singleton]
      omega
    · obtain ⟨ins, rfl, -⟩ := getOp_stable hop
      rw [findAndDelete_step separator_ne_nil hop (by rwa [separator_isPrefix_iff hop]),
        if_neg hsep, length_append, length_append]
      omega

/-- The pieces between the separators, with what has been read since the last one in front. -/
theorem writeSegments_flatten (h : ParsesFully it) (hfuel : it.length < fuel) (seg : CScript) :
    (writeSegments fuel it (seg ++ it)).bytes = seg ++ findAndDelete it [0xab] := by
  induction h generalizing fuel seg with
  | nil =>
    obtain ⟨fuel, rfl⟩ : ∃ k, fuel = k + 1 := ⟨fuel - 1, by omega⟩
    rw [findAndDelete_nil separator_ne_nil, append_nil]
    show (if seg.isEmpty then [] else [seg.take seg.length]).flatten = seg
    rcases seg with _ | ⟨x, seg⟩
    · rfl
    · rw [take_length, isEmpty_cons, if_neg Bool.false_ne_true, flatten_singleton]
  | @step opcode v pc rest hop hrest ih =>
    have hlt := getOp_length_lt hop
    obtain ⟨fuel, rfl⟩ : ∃ k, fuel = k + 1 := ⟨fuel - 1, by omega⟩
    rw [writeSegments, hop]
    dsimp only
    by_cases hsep : opcode = 0xab
    · subst hsep
      obtain rfl := getOp_separator hop
      have hih := @ih fuel (by omega) []
      rw [nil_append] at hih
      rw [findAndDelete_append separator_ne_nil]
      show (seg ++ ([0xab] ++ rest)).take _ ++ Writes.bytes _ = _
      rw [hih, nil_append]
      rw [length_append, length_append, length_singleton,
        show seg.length + (1 + rest.length) - rest.length - 1 = seg.length by omega,
        take_left]
    · obtain ⟨ins, rfl, -⟩ := getOp_stable hop
      have hih := @ih fuel (by omega) (seg ++ ins)
      rw [findAndDelete_step separator_ne_nil hop (by rwa [separator_isPrefix_iff hop]),
        if_neg hsep, ← append_assoc, hih, append_assoc]

/-- The script without its separators, as a byte vector. -/
theorem serializeScriptCode_bytes {scriptCode : CScript} (h : ParsesFully scriptCode) :
    (serializeScriptCode scriptCode).bytes =
      (serializeBytes (findAndDelete scriptCode [0xab])).bytes := by
  have hcount := countCodeSeparators_add h le_rfl
  have hsegments := writeSegments_flatten h (lt_succ_self _) []
  rw [nil_append, nil_append] at hsegments
  rw [serializeScriptCode, Writes.bytes_append, hsegments, serializeBytes_bytes,
    show scriptCode.length - countCodeSeparators scriptCode.length scriptCode =
      (findAndDelete scriptCode [0xab]).length by omega]

/-! ## The message -/

/-- A loop over the indices of a list writes what the list writes. -/
theorem bytes_range_flatMap {α : Type} (l : List α) (serialize : α → Writes) (h : Nat → Writes)
    (heq : ∀ i a, l[i]? = some a → (h i).bytes = (serialize a).bytes) :
    Writes.bytes ((range l.length).flatMap h) = Writes.bytes (l.flatMap serialize) := by
  rw [Writes.bytes_flatMap, Writes.bytes_flatMap, flatMap_def]
  congr 1
  refine ext_getElem (by simp) fun i h1 h2 => ?_
  have hi : i < l.length := by simpa using h2
  simp only [getElem_map, getElem_range]
  exact heq i _ (getElem?_eq_getElem hi)

section Equality

variable {scriptCode : CScript} (txTo : CTransaction) (nIn : Nat) (nHashType : Int32)

/-- The input with index `i` as the signature sees it. -/
def signedInput (code : CScript) (i : Nat) (txin : CTxIn) : CTxIn where
  prevout := txin.prevout
  scriptSig := if i ≠ nIn then [] else code
  nSequence :=
    if i ≠ nIn ∧ (fHashSingle nHashType ∨ fHashNone nHashType) then 0 else txin.nSequence

/-- The outputs as the signature sees them. -/
def signedOutputs : List CTxOut :=
  if fHashNone nHashType then []
  else if fHashSingle nHashType then
    (txTo.vout.take (nIn + 1)).mapIdx fun i txout => if i < nIn then CTxOut.null else txout
  else txTo.vout

theorem vin_blankSignatures (code : CScript) : (blankSignatures nIn code txTo).vin =
      txTo.vin.mapIdx fun i txin => { txin with scriptSig := if i ≠ nIn then [] else code } := by
  refine ext_getElem? fun i => ?_
  simp only [blankSignatures, getElem?_modify, getElem?_map, getElem?_mapIdx]
  rcases txTo.vin[i]? with _ | txin
  · rfl
  · by_cases hi : i = nIn
    · simp [hi]
    · simp [hi, Ne.symm hi]

theorem vin_zeroOtherSequences (txTmp : CTransaction) :
    (zeroOtherSequences nIn txTmp).vin = txTmp.vin.mapIdx fun i txin =>
      { txin with nSequence := if i ≠ nIn then 0 else txin.nSequence } := by
  refine ext_getElem? fun i => ?_
  simp only [zeroOtherSequences, getElem?_mapIdx]
  split_ifs <;> rfl

/-- The copy after all outputs are blanked. -/
theorem blankOutputs_eq (code : CScript) :
    blankOutputs nIn nHashType (blankSignatures nIn code txTo) =
      if fHashNone nHashType = false ∧ fHashSingle nHashType ∧ txTo.vout.length ≤ nIn then none
      else
        some { txTo with
          vin := txTo.vin.mapIdx (signedInput nIn nHashType code),
          vout := signedOutputs txTo nIn nHashType } := by
  have hzero (txTmp : CTransaction) (hvin : txTmp.vin = (blankSignatures nIn code txTo).vin)
      (hmode : fHashSingle nHashType = true ∨ fHashNone nHashType = true) :
      (zeroOtherSequences nIn txTmp).vin = txTo.vin.mapIdx (signedInput nIn nHashType code) := by
    rw [vin_zeroOtherSequences, hvin, vin_blankSignatures, mapIdx_mapIdx]
    refine congrArg (mapIdx · txTo.vin) (funext fun i => funext fun txin => ?_)
    simp only [signedInput, Function.comp_apply, hmode, and_true]
  unfold blankOutputs signedOutputs
  by_cases hnone : fHashNone nHashType = true
  · have hvin := hzero { blankSignatures nIn code txTo with vout := [] } rfl (.inr hnone)
    rw [if_pos hnone, if_neg fun h => absurd (h.1.symm.trans hnone) (by decide), if_pos hnone,
      ← hvin]
    rfl
  rw [if_neg hnone, if_neg hnone]
  by_cases hsingle : fHashSingle nHashType = true
  · have hvin := hzero (keepOneOutput nIn (blankSignatures nIn code txTo)) rfl (.inl hsingle)
    rw [if_pos hsingle, if_pos hsingle]
    by_cases hlen : txTo.vout.length ≤ nIn
    · exact (if_pos hlen).trans (if_pos ⟨by simpa using hnone, hsingle, hlen⟩).symm
    · refine (if_neg hlen).trans (.trans ?_ (if_neg fun h => hlen h.2.2).symm)
      rw [← hvin]
      rfl
  · rw [if_neg hsingle, if_neg hsingle, if_neg fun h => hsingle h.2.1]
    have hvin : (blankSignatures nIn code txTo).vin =
        txTo.vin.mapIdx (signedInput nIn nHashType code) := by
      rw [vin_blankSignatures]
      refine congrArg (mapIdx · txTo.vin) (funext fun i => funext fun txin => ?_)
      simp only [signedInput, hsingle, hnone, or_self, Bool.false_eq_true, and_false, if_false]
    rw [← hvin]
    rfl

theorem serializeInput_bytes (h : ParsesFully scriptCode) {nInput : Nat} {txin : CTxIn}
    (hin : txTo.vin[nInput]? = some txin) (hone : fAnyoneCanPay nHashType = true → nInput = nIn)
    (i : Nat) (hi : fAnyoneCanPay nHashType = false → i = nInput) :
    (serializeInput scriptCode txTo nIn nHashType i).bytes =
      (signedInput nIn nHashType (findAndDelete scriptCode [0xab]) nInput
        txin).serialize.bytes := by
  have hidx : (if fAnyoneCanPay nHashType then nIn else i) = nInput := by
    cases hany : fAnyoneCanPay nHashType with
    | true => exact (hone hany).symm
    | false => exact hi hany
  rw [serializeInput, hidx, hin]
  simp only [CTxIn.serialize, Writes.bytes_append, signedInput]
  congr 1
  · by_cases hne : nInput ≠ nIn
    · rw [if_pos hne, if_pos hne]
    · rw [if_neg hne, if_neg hne, serializeScriptCode_bytes h]
  · split_ifs
    · rfl
    · rfl

theorem signedOutputs_bytes (hlen : fHashSingle nHashType = true → nIn < txTo.vout.length) :
    let nOutputs :=
      if fHashNone nHashType then 0
      else if fHashSingle nHashType then nIn + 1 else txTo.vout.length
    (writeCompactSize nOutputs ++
        (range nOutputs).flatMap (serializeOutput txTo nIn nHashType)).bytes =
      (serializeVector CTxOut.serialize (signedOutputs txTo nIn nHashType)).bytes := by
  have hcount : (signedOutputs txTo nIn nHashType).length =
      if fHashNone nHashType then 0
      else if fHashSingle nHashType then nIn + 1 else txTo.vout.length := by
    unfold signedOutputs
    split_ifs with hnone hsingle
    · rfl
    · rw [length_mapIdx, length_take, min_eq_left (hlen hsingle)]
    · rfl
  dsimp only
  rw [← hcount, serializeVector, Writes.bytes_append, Writes.bytes_append]
  congr 1
  refine bytes_range_flatMap _ _ _ fun i txout hi => ?_
  unfold signedOutputs at hi
  unfold serializeOutput
  split_ifs at hi with hnone hsingle
  · cases hi
  · -- all outputs but the last are blank
    rw [getElem?_mapIdx, Option.map_eq_some_iff] at hi
    obtain ⟨o, ho, rfl⟩ := hi
    have hlt : i < nIn + 1 := by
      have := (List.getElem?_eq_some_iff.mp ho).1
      rw [length_take] at this
      omega
    rw [getElem?_take_of_lt hlt] at ho
    by_cases hlast : i = nIn
    · rw [if_neg fun h => h.2 hlast, if_neg (by omega), ho]
    · rw [if_pos ⟨hsingle, hlast⟩, if_pos (by omega)]
  · rw [if_neg fun h => hsingle h.1, hi]

theorem signedInputs_bytes (h : ParsesFully scriptCode) (hin : nIn < txTo.vin.length) :
    let nInputs := if fAnyoneCanPay nHashType then 1 else txTo.vin.length
    let vin := txTo.vin.mapIdx (signedInput nIn nHashType (findAndDelete scriptCode [0xab]))
    (writeCompactSize nInputs ++
        (range nInputs).flatMap (serializeInput scriptCode txTo nIn nHashType)).bytes =
      (serializeVector CTxIn.serialize
        (if fAnyoneCanPay nHashType then vin[nIn]?.toList else vin)).bytes := by
  intro nInputs vin
  have hget : txTo.vin[nIn]? = some txTo.vin[nIn] := getElem?_eq_getElem hin
  have hone : vin[nIn]? = some (signedInput nIn nHashType (findAndDelete scriptCode [0xab]) nIn
      txTo.vin[nIn]) := by
    rw [getElem?_mapIdx, hget, Option.map_some]
  have hcount : (if fAnyoneCanPay nHashType then vin[nIn]?.toList else vin).length = nInputs := by
    show _ = if fAnyoneCanPay nHashType then 1 else txTo.vin.length
    split_ifs
    · rw [hone, Option.toList_some, length_singleton]
    · exact length_mapIdx
  rw [← hcount, serializeVector, Writes.bytes_append, Writes.bytes_append]
  congr 1
  refine bytes_range_flatMap _ _ _ fun i txin hi => ?_
  by_cases hany : fAnyoneCanPay nHashType = true
  · -- the only input is the one that is signed
    rw [if_pos hany, hone, Option.toList_some] at hi
    obtain rfl : i = 0 := by
      have hlt := (List.getElem?_eq_some_iff.mp hi).1
      rw [length_singleton] at hlt
      omega
    obtain rfl := Option.some.inj hi
    exact serializeInput_bytes txTo nIn nHashType h hget (fun _ => rfl) 0
      fun hno => absurd (hno.symm.trans hany) (by decide)
  · rw [if_neg hany, getElem?_mapIdx, Option.map_eq_some_iff] at hi
    obtain ⟨old, hold, rfl⟩ := hi
    exact serializeInput_bytes txTo nIn nHashType h hold (fun hyes => absurd hyes hany) i
      fun _ => rfl

theorem fHashNone_of_single (h : fHashSingle nHashType = true) : fHashNone nHashType = false := by
  unfold fHashNone
  rw [beq_iff_eq.mp h]
  rfl

/-- The serializer and the copy hash the same bytes. -/
theorem signatureMessage_eq_reference (h : ParsesFully scriptCode) :
    signatureMessage scriptCode txTo nIn nHashType =
      referenceMessage nIn nHashType scriptCode txTo := by
  unfold signatureMessage referenceMessage
  by_cases hin : txTo.vin.length ≤ nIn
  · rw [if_pos hin, if_pos hin]
  rw [if_neg hin, if_neg hin]
  dsimp only
  rw [blankOutputs_eq]
  by_cases hsingle : fHashSingle nHashType = true ∧ txTo.vout.length ≤ nIn
  · rw [if_pos hsingle, if_pos ⟨fHashNone_of_single nHashType hsingle.1, hsingle⟩]
  rw [if_neg hsingle, if_neg fun hno => hsingle hno.2]
  have hinputs := signedInputs_bytes txTo nIn nHashType h (Nat.lt_of_not_le hin)
  have houtputs := signedOutputs_bytes txTo nIn nHashType fun hs =>
    Nat.lt_of_not_le fun hle => hsingle ⟨hs, hle⟩
  dsimp only at hinputs houtputs ⊢
  rw [serializeForSignature, Writes.bytes_append, Writes.bytes_append, Writes.bytes_append,
    Writes.bytes_append, hinputs, houtputs, blankInputs, bytes]
  split_ifs <;>
    simp only [serialize, Writes.bytes_append]

end Equality

/-! ## Two checkers that agree on whole scripts -/

structure Agree (c d : SignatureChecker) : Prop where
  checkSig : ∀ vchSig vchPubKey code, ParsesFully code →
    c.checkSig vchSig vchPubKey code = d.checkSig vchSig vchPubKey code
  checkLockTime : ∀ n, c.checkLockTime n = d.checkLockTime n

theorem Agree.symm {c d : SignatureChecker} (h : Agree c d) : Agree d c :=
  ⟨fun vchSig vchPubKey code hp => (h.checkSig vchSig vchPubKey code hp).symm,
    fun n => (h.checkLockTime n).symm⟩

/-- The machine, with a code to sign that parses. -/
def CodeAt (k : Nat) (m : Machine) : Prop := MachineAt k m ∧ ParsesFully m.pbegincodehash

/-- Started there the two commands do the same. -/
def SameAt {α : Type} (c d : MachineM α) (j : Nat) : Prop := ∀ m, CodeAt j m → c m = d m

section Same

variable {α β : Type} {j k : Nat} {Q : α → Prop} {c : MachineM α} {e : α → MachineM β}
variable {d : MachineM α}

theorem Safe.withCode (hc : Safe MachineAt c j Q k)
    (hkeeps : Keeps pbegincodehash c) : Safe CodeAt c j Q k := by
  intro m hm
  have hsafe := hc m hm.1
  have hcode := hkeeps m
  rcases hrun : c m with ⟨e | a, m'⟩ <;> rw [hrun] at hsafe hcode
  · exact hsafe
  · exact ⟨hsafe.1, hsafe.2, hcode ▸ hm.2⟩

theorem SameAt.refl (c : MachineM α) : SameAt c c j := fun _ _ => rfl

theorem SameAt.bind {f : α → MachineM β} (hc : Safe CodeAt c j Q k)
    (hef : ∀ a, Q a → SameAt (e a) (f a) k) : SameAt (c >>= e) (c >>= f) j := by
  intro m hm
  have hsafe := hc m hm
  rcases hrun : c m with ⟨e | a, m'⟩ <;> rw [hrun] at hsafe
  · rw [bind_of_error hrun, bind_of_error hrun]
  · rw [bind_of_ok hrun, bind_of_ok hrun]
    exact hef a hsafe.1 m' hsafe.2

theorem SameAt.bind_left (h : SameAt c d j) : SameAt (c >>= e) (d >>= e) j := by
  intro m hm
  rw [bind_apply, bind_apply, h m hm]

theorem SameAt.ite {p : Prop} [Decidable p] {c' d' : MachineM α} (hc : SameAt c d j)
    (hd : SameAt c' d' j) : SameAt (if p then c else c') (if p then d else d') j := by
  split
  · exact hc
  · exact hd

theorem keeps_code_onStack (c : StackM α) : Keeps pbegincodehash (onStack c) :=
  onStack_keeps (fun _ _ => rfl) c

theorem onStack_withCode {c : StackM α} (hc : Safe StackAt c j Q k) :
    Safe CodeAt (onStack c) j Q k :=
  (onStack_safe hc).withCode (keeps_code_onStack c)

theorem codeFromSeparator_parses : Safe CodeAt codeFromSeparator k ParsesFully k :=
  fun _ hm => ⟨hm.2, hm⟩

/-- A signature is short enough that its push is one instruction. -/
theorem parsesFully_dropSignature (h : ParsesFully code) {vchSig : Bytes}
    (hlen : vchSig.length ≤ maxScriptElementSize) :
    ParsesFully (findAndDelete code (pushBytes vchSig)) := by
  have hsmall : vchSig.length < 2 ^ 32 := lt_of_le_of_lt hlen (by decide)
  obtain ⟨opcode, hop⟩ := getOp_pushBytes hsmall
  have hne : pushBytes vchSig ≠ [] := by
    intro hnil
    have hop' := hop []
    rw [hnil] at hop'
    cases hop'
  exact h.findAndDelete hne hop

theorem dropSignatures_parses {n isig : Nat} (h : ParsesFully code) (hi : 1 ≤ isig)
    (hk : isig + n ≤ k + 1) : Safe StackAt (dropSignatures n isig code) k ParsesFully k := by
  induction n generalizing isig code with
  | zero => exact .pure h
  | succ n ih =>
    refine (stacktop_safe_of_le hi (by omega)).bind fun vchSig hlen => ?_
    exact ih (parsesFully_dropSignature h hlen) (by omega) (by omega)

end Same

section Checkers

variable {c d : SignatureChecker} (h : Agree c d) (flags : UInt32)

include h

theorem callCheckSig_same (vchSig vchPubKey : Bytes) (hcode : ParsesFully code) :
    callCheckSig c vchSig vchPubKey code = callCheckSig d vchSig vchPubKey code := by
  unfold callCheckSig
  rw [h.checkSig vchSig vchPubKey code hcode]

theorem multiSigLoop_same (hcode : ParsesFully code) (nKeys isig ikey nSigs : Nat) :
    multiSigLoop c flags code nKeys isig ikey nSigs =
      multiSigLoop d flags code nKeys isig ikey nSigs := by
  induction nKeys generalizing isig ikey nSigs with
  | zero => rfl
  | succ nKeys ih => simp only [multiSigLoop, callCheckSig_same h _ _ hcode, ih]

theorem opCheckSig_same (fVerify : Bool) :
    SameAt (opCheckSig c flags fVerify) (opCheckSig d flags fVerify) 0 := by
  refine .bind (onStack_withCode (needs_safe 2)) fun _ _ => ?_
  refine .bind (onStack_withCode stacktop_safe) fun vchSig hlen => ?_
  refine .bind (onStack_withCode stacktop_safe) fun vchPubKey _ => ?_
  refine SameAt.bind codeFromSeparator_parses fun code hcode => ?_
  refine .bind ((checkEncodings_safe flags vchSig vchPubKey).withCode
    (checkEncodings_keeps flags vchSig vchPubKey)) fun _ _ => ?_
  rw [callCheckSig_same h vchSig vchPubKey (parsesFully_dropSignature hcode hlen)]
  exact .refl _

theorem opCheckMultiSig_same (fVerify : Bool) :
    SameAt (opCheckMultiSig c flags fVerify) (opCheckMultiSig d flags fVerify) 0 := by
  refine .bind ((readKeysCount_safe flags).withCode
    (readKeysCount_keeps flags fun _ _ => rfl)) fun nKeys _ => ?_
  refine .bind ((countOps_safe nKeys).withCode
    (countOps_keeps (fun _ _ => rfl) nKeys)) fun _ _ => ?_
  refine .bind (onStack_withCode (readSigsCount_safe flags nKeys)) fun nSigs hsigs => ?_
  refine .bind (onStack_withCode (needs_safe (3 + nKeys + nSigs))) fun _ _ => ?_
  refine SameAt.bind codeFromSeparator_parses fun code hcode => ?_
  refine .bind (onStack_withCode (dropSignatures_parses hcode (by omega) (by omega)))
    fun scriptCode hparses => ?_
  rw [multiSigLoop_same h flags hparses]
  exact .refl _

variable (H : ScriptHashes)

theorem evalOp_same (fExec : Bool) (op : Op) :
    SameAt (evalOp H c flags fExec op) (evalOp H d flags fExec op) 0 := by
  cases op with
  | checkLockTimeVerify =>
    have hlock : opCheckLockTimeVerify c flags = opCheckLockTimeVerify d flags := by
      simp only [opCheckLockTimeVerify, h.checkLockTime]
    show SameAt (onStack (opCheckLockTimeVerify c flags)) _ 0
    rw [hlock]
    exact .refl _
  | checkSig fVerify => exact opCheckSig_same h flags fVerify
  | checkMultiSig fVerify => exact opCheckMultiSig_same h flags fVerify
  | _ => exact .refl _

theorem evalInstruction_same (fExec : Bool) (opcode : UInt8) (v : Bytes) :
    SameAt (evalInstruction H c flags fExec opcode v) (evalInstruction H d flags fExec opcode v)
      0 := by
  have hdispatch : SameAt (dispatch H c flags fExec opcode v) (dispatch H d flags fExec opcode v)
      0 := by
    exact .ite (.refl _) (.ite (evalOp_same h flags H fExec _) (.refl _))
  have hcount : Keeps pbegincodehash (countOpcode opcode) :=
    ite (countOps_keeps (fun _ _ => rfl) 1) (pure _)
  refine .bind (Safe.demand.withCode require) fun _ _ => ?_
  refine .bind ((countOpcode_safe opcode).withCode hcount) fun _ _ => ?_
  refine .bind (Safe.demand.withCode require) fun _ _ => ?_
  exact hdispatch.bind_left

theorem evalStep_same : SameAt (evalStep H c flags) (evalStep H d flags) 0 := by
  intro m hm
  unfold evalStep
  rcases getOp m.pc with _ | ⟨opcode, v, rest⟩
  · rfl
  · exact evalInstruction_same h flags H m.fExec opcode v { m with pc := rest } hm

end Checkers

/-! ## The code to sign along a run -/

section Run

variable (H : ScriptHashes) (c : SignatureChecker) (flags : UInt32) {m m' : Machine}

/-- An instruction leaves the start of the code or moves it to the program counter. -/
theorem evalOp_code (fExec : Bool) (op : Op) (m : Machine) :
    (evalOp H c flags fExec op m).2.pbegincodehash = m.pbegincodehash ∨
      (evalOp H c flags fExec op m).2.pbegincodehash = m.pc := by
  have hoff : OffStacks pbegincodehash := ⟨fun _ _ => rfl, fun _ _ => rfl, fun _ _ => rfl⟩
  cases hsign : op.signing with
  | false => exact .inl (evalOp_keeps_of_not_signing hoff H c flags fExec hsign m)
  | true =>
    cases op with
    | codeSeparator => exact .inr rfl
    | checkSig fVerify =>
      exact .inl (opCheckSig_keeps c flags hoff.stack (fun _ _ => rfl) fVerify m)
    | checkMultiSig fVerify =>
      exact .inl (opCheckMultiSig_keeps c flags hoff.stack (fun _ _ => rfl) (fun _ _ => rfl)
        fVerify m)
    | _ => cases hsign

theorem evalStep_code (hrun : evalStep H c flags m = (.ok (), m')) :
    m'.pbegincodehash = m.pbegincodehash ∨ m'.pbegincodehash = m'.pc := by
  obtain ⟨opcode, v, hop⟩ := evalStep_getOp H c flags hrun
  rw [evalStep, hop] at hrun
  obtain ⟨m1, hcount, hdispatch⟩ := evalInstruction_eq_ok H c flags hrun
  have hcode : Keeps pbegincodehash (countOpcode opcode) :=
    ite (countOps_keeps (fun _ _ => rfl) 1) (pure _)
  have hcpc : Keeps pc (countOpcode opcode) := ite (countOps_keeps (fun _ _ => rfl) 1) (pure _)
  have hcode1 := hcode { m with pc := m'.pc }
  have hpc1 := hcpc { m with pc := m'.pc }
  rw [hcount] at hcode1 hpc1
  have hout : (dispatch H c flags m.fExec opcode v m1).2.pbegincodehash = m1.pbegincodehash ∨
      (dispatch H c flags m.fExec opcode v m1).2.pbegincodehash = m1.pc := by
    unfold dispatch
    split_ifs
    · exact .inl (keeps_code_onStack _ m1)
    · exact evalOp_code H c flags m.fExec _ m1
    · exact .inl rfl
  rw [hdispatch] at hout
  rcases hout with hsame | hmoved
  · exact .inl (hsame.trans hcode1)
  · exact .inr (hmoved.trans hpc1)

/-- A run that gets to the end of the script has parsed it. -/
theorem evalLoop_parses (fuel : Nat) (hrun : evalLoop H c flags fuel m = (.ok (), m')) :
    ParsesFully m.pc := by
  induction fuel generalizing m with
  | zero =>
    unfold evalLoop at hrun
    split_ifs at hrun with hpc
    · rw [isEmpty_iff.mp hpc]
      exact .nil
    · cases hrun
  | succ fuel ih =>
    by_cases hpc : m.pc = []
    · rw [hpc]
      exact .nil
    rw [evalLoop_round H c flags fuel hpc] at hrun
    obtain ⟨⟨⟩, m1, hstep, hrest⟩ := bind_eq_ok hrun
    obtain ⟨_, _, hop⟩ := evalStep_getOp H c flags hstep
    exact .step hop (ih hrest)

variable {c} {d : SignatureChecker} (h : Agree c d)

include h

theorem evalLoop_same (fuel : Nat) (hm : CodeAt 0 m) (hpc : ParsesFully m.pc) :
    evalLoop H c flags fuel m = evalLoop H d flags fuel m := by
  induction fuel generalizing m with
  | zero => rfl
  | succ fuel ih =>
    by_cases hend : m.pc = []
    · rw [evalLoop_done H c flags _ hend, evalLoop_done H d flags _ hend]
    rw [evalLoop_round H c flags fuel hend, evalLoop_round H d flags fuel hend]
    have hsame := evalStep_same h flags H m hm
    rcases hrun : evalStep H c flags m with ⟨e | ⟨⟩, m'⟩
    · rw [bind_of_error hrun, bind_of_error (hsame ▸ hrun)]
    rw [bind_of_ok hrun, bind_of_ok (hsame ▸ hrun)]
    have hsafe := evalStep_safe H c flags m hm.1
    rw [hrun] at hsafe
    -- the next instruction starts where the last one ended, and so may the code to sign
    obtain ⟨_, _, hop⟩ := evalStep_getOp H c flags hrun
    have hpc' := hpc.rest hop
    refine ih ⟨⟨⟨zero_le _, hsafe.stackFits⟩, hsafe.altstackFits⟩, ?_⟩ hpc'
    rcases evalStep_code H c flags hrun with hkept | hmoved
    · exact hkept ▸ hm.2
    · exact hmoved ▸ hpc'

/-- What one checker accepts the other accepts, with the same stack. -/
theorem evalScript_same {stack stack' : List Bytes} (hfits : StackFits stack) {script : CScript}
    {calls calls' : Nat} (hrun : evalScript H c flags stack script calls = (.ok stack', calls')) :
    evalScript H d flags stack script calls = (.ok stack', calls') := by
  unfold evalScript at hrun ⊢
  split_ifs at hrun ⊢
  · cases hrun
  rcases hbody : evalBody H c flags script (start script stack calls) with ⟨e | ⟨⟩, m⟩
  · rw [hbody] at hrun
    cases hrun
  rw [hbody] at hrun
  obtain ⟨⟨⟩, m1, hloop, hend⟩ := bind_eq_ok hbody
  have hparses : ParsesFully script := evalLoop_parses H c flags script.length hloop
  have hstart : CodeAt 0 (start script stack calls) :=
    ⟨⟨⟨zero_le _, hfits⟩, fun _ hv => absurd hv not_mem_nil⟩, hparses⟩
  rw [evalLoop_same H flags h script.length hstart hparses] at hloop
  have hbody' : evalBody H d flags script (start script stack calls) = (.ok (), m) :=
    (bind_of_ok hloop).trans hend
  rw [hbody']
  exact hrun

theorem verifyP2SH_same {stackCopy : List Bytes} (hfits : StackFits stackCopy)
    (scriptSig : CScript) :
    Within (verifyP2SH H c flags scriptSig stackCopy)
      (verifyP2SH H d flags scriptSig stackCopy) := by
  refine after fun _ => ?_
  rcases stackCopy with _ | ⟨pubKeySerialized, rest⟩
  · exact refl _
  · have hrest : StackFits rest := fun v hv => hfits v (mem_cons_of_mem _ hv)
    have hsame : Within (evalScript H c flags rest pubKeySerialized)
        (evalScript H d flags rest pubKeySerialized) :=
      fun _ _ _ hrun => evalScript_same H flags h hrest hrun
    exact hsame.before

theorem verifyScript_same (scriptSig scriptPubKey : CScript) :
    Within (verifyScript H c flags scriptSig scriptPubKey)
      (verifyScript H d flags scriptSig scriptPubKey) := by
  have hnil : StackFits [] := fun _ hv => absurd hv not_mem_nil
  refine after fun _ calls u calls' hrun => ?_
  obtain ⟨stackCopy, n1, hsig, hrun⟩ := bind_eq_ok hrun
  have hfits := evalScript_safe H c flags scriptSig hnil calls trivial
  rw [hsig] at hfits
  rw [bind_of_ok (evalScript_same H flags h hnil hsig)]
  have hpub : Within (evalScript H c flags stackCopy scriptPubKey)
      (evalScript H d flags stackCopy scriptPubKey) :=
    fun _ _ _ hrun => evalScript_same H flags h hfits hrun
  refine bind hpub (fun stack => after fun _ => ?_) n1 u calls' hrun
  exact ite (fun _ => verifyP2SH_same H flags h hfits scriptSig) fun _ => refl _

/-- The verdict does not depend on which of the two checkers is asked. -/
theorem verifies_same (scriptSig scriptPubKey : CScript) :
    verifies H c flags scriptSig scriptPubKey = verifies H d flags scriptSig scriptPubKey := by
  have hboth {a b : SignatureChecker} (hab : Agree a b)
      (hyes : verifies H a flags scriptSig scriptPubKey = true) :
      verifies H b flags scriptSig scriptPubKey = true := by
    obtain ⟨n, hn⟩ := (verifies_iff H a flags).mp hyes
    exact (verifies_iff H b flags).mpr
      ⟨n, verifyScript_same H flags hab scriptSig scriptPubKey _ _ _ hn⟩
  exact Bool.eq_iff_iff.mpr ⟨hboth h, hboth h.symm⟩

end Run

/-! ## The checker of a transaction -/

/-- `CPubKey::GetLen`. -/
def pubKeyGetLen (chHeader : UInt8) : Nat :=
  if chHeader = 2 ∨ chHeader = 3 then 33
  else if chHeader = 4 ∨ chHeader = 6 ∨ chHeader = 7 then 65
  else 0

/-- `CPubKey(vchPubKey).IsValid()`. -/
def pubKeyIsValid (vchPubKey : Bytes) : Bool :=
  match vchPubKey with
  | [] => false
  | chHeader :: _ =>
    pubKeyGetLen chHeader != 0 && pubKeyGetLen chHeader == vchPubKey.length

def locktimeThreshold : UInt32 := 500000000

section Checker

variable (verifySignature : Bytes → Uint256 → Bytes → Bool)

/-- `TransactionSignatureChecker`, for a way to compute the hash that is signed. -/
def transactionSignatureChecker (sighash : CScript → Int32 → Uint256) (txTo : CTransaction)
    (nIn : Nat) : SignatureChecker where
  checkSig vchSigIn vchPubKey scriptCode :=
    if !pubKeyIsValid vchPubKey then false
    else
      match vchSigIn.getLast? with
      | none => false
      | some nHashType =>
        verifySignature vchPubKey (sighash scriptCode (Int32.ofNat nHashType.toNat))
          vchSigIn.dropLast
  checkLockTime nLockTime :=
    if !((txTo.nLockTime < locktimeThreshold && nLockTime < locktimeThreshold.toNat) ||
        (locktimeThreshold ≤ txTo.nLockTime && locktimeThreshold.toNat ≤ nLockTime)) then false
    else if (txTo.nLockTime.toNat : Int) < nLockTime then false
    else if txTo.vin[nIn]?.any fun txin => txin.nSequence == 0xffffffff then false
    else true

variable (hash256 : Bytes → Uint256) (txTo : CTransaction) (nIn : Nat)

theorem checkers_agree : Agree (transactionSignatureChecker verifySignature
        (fun scriptCode nHashType => signatureHash scriptCode txTo nIn nHashType hash256) txTo nIn)
      (transactionSignatureChecker verifySignature
        (fun scriptCode nHashType => referenceHash nIn nHashType scriptCode txTo hash256) txTo
        nIn) := by
  refine ⟨fun vchSig vchPubKey code hcode => ?_, fun _ => rfl⟩
  have hhash (nHashType : Int32) : signatureHash code txTo nIn nHashType hash256 =
      referenceHash nIn nHashType code txTo hash256 := by
    rw [signatureHash, referenceHash, signatureMessage_eq_reference txTo nIn nHashType hcode]
  simp only [transactionSignatureChecker, hhash]

/-- **`signatureHash_refines_copy`** — for a script code that parses to its end the serializer
hashes the bytes of the changed copy, and returns 1 in the same cases; and the verdict on every
pair of scripts is the same with either. -/
theorem signatureHash_refines_copy (H : ScriptHashes) (flags : UInt32) :
    (∀ scriptCode nHashType, ParsesFully scriptCode →
      signatureMessage scriptCode txTo nIn nHashType =
        referenceMessage nIn nHashType scriptCode txTo) ∧
    ∀ scriptSig scriptPubKey, verifies H (transactionSignatureChecker verifySignature
            (fun scriptCode nHashType => signatureHash scriptCode txTo nIn nHashType hash256)
            txTo nIn) flags scriptSig scriptPubKey =
        verifies H (transactionSignatureChecker verifySignature
            (fun scriptCode nHashType => referenceHash nIn nHashType scriptCode txTo hash256)
            txTo nIn) flags scriptSig scriptPubKey :=
  ⟨fun _ nHashType hcode => signatureMessage_eq_reference txTo nIn nHashType hcode,
    verifies_same H flags (checkers_agree verifySignature hash256 txTo nIn)⟩

end Checker

/-- One input and one output, with a comment. -/
def commented : CTransaction where
  hash := 1
  nVersion := 2
  vin := [⟨⟨7, 0⟩, [0x51], 5⟩]
  vout := [⟨3, [0x51]⟩]
  nLockTime := 0
  strTxComment := [0x68, 0x69]

/-- A separator in front of `OP_1`. -/
theorem signatureHash_refines_copy_separator : ParsesFully [0xab, 0x51] ∧
      signatureMessage [0xab, 0x51] commented 0 1 =
        referenceMessage 0 1 [0xab, 0x51] commented := by
  have hcode : ParsesFully [0xab, 0x51] := .step rfl (.step rfl .nil)
  exact ⟨hcode, (signatureHash_refines_copy (fun _ _ _ => true) (fun _ => 0) commented 0 zeroHashes
    0).1 [0xab, 0x51] 1 hcode⟩

end MonetaryUnit
