/-
# MonetaryUnit.Script.Encoding — numbers, pushes, flags and encodings

The data formats of scripts and the checks on them: `CScriptNum`, the push of a byte vector and
`FindAndDelete` of `script.h`, the verification flags of `interpreter.h`, and the encoding
checks of `interpreter.cpp` and `eccryptoverify.cpp` that the flags switch on.

Byte vectors are read at indices that the sizes checked before make valid; an index past the
end would read as zero.
-/

import MonetaryUnit.Script.SigOps

namespace MonetaryUnit

open Lib

/-! ## Errors and flags -/

/-- `ScriptError`, without the value for success. -/
inductive ScriptError
  | unknownError
  | evalFalse
  | opReturn
  | scriptSize
  | pushSize
  | opCount
  | stackSize
  | sigCount
  | pubkeyCount
  | verify
  | equalVerify
  | checkMultiSigVerify
  | checkSigVerify
  | numEqualVerify
  | badOpcode
  | disabledOpcode
  | invalidStackOperation
  | invalidAltstackOperation
  | unbalancedConditional
  | negativeLocktime
  | unsatisfiedLocktime
  | sigHashtype
  | sigDer
  | minimalData
  | sigPushOnly
  | sigHighS
  | sigNullDummy
  | pubkeyType
  | discourageUpgradableNops
deriving DecidableEq, Repr

def scriptVerifyNone : UInt32 := 0
def scriptVerifyP2SH : UInt32 := 0x1
def scriptVerifySTRICTENC : UInt32 := 0x2
def scriptVerifyDERSIG : UInt32 := 0x4
def scriptVerifyLOW_S : UInt32 := 0x8
def scriptVerifyNULLDUMMY : UInt32 := 0x10
def scriptVerifySIGPUSHONLY : UInt32 := 0x20
def scriptVerifyMINIMALDATA : UInt32 := 0x40
def scriptVerifyDISCOURAGE_UPGRADABLE_NOPS : UInt32 := 0x80
def scriptVerifyCHECKLOCKTIMEVERIFY : UInt32 := 0x200

/-- `(flags & mask) != 0`. -/
def hasFlag (flags mask : UInt32) : Bool := flags &&& mask != 0

/-- `MANDATORY_SCRIPT_VERIFY_FLAGS`. -/
def mandatoryScriptVerifyFlags : UInt32 := scriptVerifyP2SH

/-- `STANDARD_SCRIPT_VERIFY_FLAGS`. -/
def standardScriptVerifyFlags : UInt32 :=
  mandatoryScriptVerifyFlags ||| scriptVerifyDERSIG ||| scriptVerifySTRICTENC |||
    scriptVerifyMINIMALDATA ||| scriptVerifyNULLDUMMY |||
    scriptVerifyDISCOURAGE_UPGRADABLE_NOPS ||| scriptVerifyCHECKLOCKTIMEVERIFY |||
    scriptVerifyLOW_S

/-! ## Numbers -/

/-- The loop of `CScriptNum::serialize`: the bytes of the magnitude, lowest first. -/
def magnitudeBytes : Nat → Nat → Bytes
  | 0, _ => []
  | fuel + 1, absvalue =>
    if absvalue = 0 then [] else UInt8.ofNat absvalue :: magnitudeBytes fuel (absvalue / 256)

/-- `CScriptNum::serialize` of an `int64_t`, which has at most eight bytes. -/
def scriptNumSerialize (value : Int) : Bytes :=
  let neg : Bool := value < 0
  let result := magnitudeBytes 8 value.natAbs
  match result.getLast? with
  | none => []
  | some back =>
    if back &&& 0x80 ≠ 0 then result ++ [if neg then 0x80 else 0]
    else if neg then result.dropLast ++ [back ||| 0x80]
    else result

/-- `CScriptNum::set_vch`: a sign and a magnitude, lowest byte first. -/
def setVch (vch : Bytes) : Int :=
  match vch.getLast? with
  | none => 0
  | some back =>
    if back &&& 0x80 ≠ 0 then -((leNat vch - 0x80 * 256 ^ (vch.length - 1) : Nat) : Int)
    else leNat vch

/-- The top byte is needed: for its value, or because the one below would show its sign. -/
def minimallyEncoded (vch : Bytes) : Bool :=
  match vch.reverse with
  | [] => true
  | [back] => back &&& 0x7f != 0
  | back :: next :: _ => back &&& 0x7f != 0 || next &&& 0x80 != 0

/-- `CScriptNum(vch, fRequireMinimal, nMaxNumSize)`, which throws a `scriptnum_error`. -/
def scriptNum (vch : Bytes) (fRequireMinimal : Bool) (nMaxNumSize : Nat) : Except String Int :=
  if nMaxNumSize < vch.length then .error "script number overflow"
  else if fRequireMinimal && !minimallyEncoded vch then
    .error "non-minimally encoded script number"
  else .ok (setVch vch)

def nDefaultMaxNumSize : Nat := 4

/-- `CScriptNum::getint` saturates. -/
def getint (value : Int) : Int := max (-2 ^ 31) (min value (2 ^ 31 - 1))

/-! ## Pushes -/

/-- `CScript() << vch`: a push of the bytes with the shortest length form. -/
def pushBytes (b : Bytes) : CScript :=
  if b.length < 0x4c then leBytes 1 b.length ++ b
  else if b.length ≤ 0xff then 0x4c :: leBytes 1 b.length ++ b
  else if b.length ≤ 0xffff then 0x4d :: leBytes 2 b.length ++ b
  else 0x4e :: leBytes 4 b.length ++ b

/-- `CScript() << n`. -/
def pushInt64 (n : Int) : CScript :=
  if n = -1 ∨ (1 ≤ n ∧ n ≤ 16) then [UInt8.ofNat (n + 0x50).toNat]
  else if n = 0 then [0x00]
  else pushBytes (scriptNumSerialize n)

/-- The loop of `FindAndDelete`: occurrences of `b` at instruction boundaries are erased. Every
round consumes at least one byte. -/
def findAndDeleteLoop (b : CScript) : Nat → CScript → CScript
  | 0, pc => pc
  | fuel + 1, pc =>
    if b.isPrefixOf pc then findAndDeleteLoop b fuel (pc.drop b.length)
    else
      match getOp pc with
      | none => pc
      | some (_, _, rest) =>
        pc.take (pc.length - rest.length) ++ findAndDeleteLoop b fuel rest

/-- Remove a pattern wherever an opcode starts. -/
def findAndDelete (script b : CScript) : CScript :=
  if b.isEmpty then script else findAndDeleteLoop b script.length script

def isPushOnlyLoop : Nat → CScript → Bool
  | 0, _ => true
  | fuel + 1, pc =>
    if pc.isEmpty then true
    else
      match getOp pc with
      | none => false
      | some (opcode, _, rest) => if 0x60 < opcode then false else isPushOnlyLoop fuel rest

/-- Nothing but pushes, all of them complete. -/
def isPushOnly (script : CScript) : Bool := isPushOnlyLoop script.length script

/-- The shortest way to push the data was used. -/
def checkMinimalPush (data : Bytes) (opcode : UInt8) : Bool :=
  if data.length = 0 then opcode == 0x00
  else if data.length = 1 ∧ 1 ≤ data.getD 0 0 ∧ data.getD 0 0 ≤ 16 then
    opcode == 0x51 + (data.getD 0 0 - 1)
  else if data.length = 1 ∧ data.getD 0 0 = 0x81 then opcode == 0x4f
  else if data.length ≤ 75 then opcode.toNat == data.length
  else if data.length ≤ 255 then opcode == 0x4c
  else if data.length ≤ 65535 then opcode == 0x4d
  else true

/-- Any byte but a final `0x80`, the sign of a negative zero, makes the value true. -/
def castToBool : Bytes → Bool
  | [] => false
  | [b] => b != 0 && b != 0x80
  | b :: rest => if b != 0 then true else castToBool rest

/-! ## Public keys and signatures -/

def isCompressedOrUncompressedPubKey (vchPubKey : Bytes) : Bool :=
  if vchPubKey.length < 33 then false
  else if vchPubKey.getD 0 0 = 0x04 then vchPubKey.length == 65
  else if vchPubKey.getD 0 0 = 0x02 ∨ vchPubKey.getD 0 0 = 0x03 then vchPubKey.length == 33
  else false

/-- `0x30 [total] 0x02 [lenR] [R] 0x02 [lenS] [S] [sighash]` with `R` and `S` positive and not
padded. -/
def isValidSignatureEncoding (sig : Bytes) : Bool :=
  let at' (i : Nat) : UInt8 := sig.getD i 0
  let lenR := (at' 3).toNat
  let lenS := (at' (5 + lenR)).toNat
  if sig.length < 9 then false
  else if sig.length > 73 then false
  else if at' 0 ≠ 0x30 then false
  else if (at' 1).toNat ≠ sig.length - 3 then false
  else if 5 + lenR ≥ sig.length then false
  else if lenR + lenS + 7 ≠ sig.length then false
  else if at' 2 ≠ 0x02 then false
  else if lenR = 0 then false
  else if at' 4 &&& 0x80 ≠ 0 then false
  else if lenR > 1 ∧ at' 4 = 0x00 ∧ at' 5 &&& 0x80 = 0 then false
  else if at' (lenR + 4) ≠ 0x02 then false
  else if lenS = 0 then false
  else if at' (lenR + 6) &&& 0x80 ≠ 0 then false
  else if lenS > 1 ∧ at' (lenR + 6) = 0x00 ∧ at' (lenR + 7) &&& 0x80 = 0 then false
  else true

def compareSameLength : Bytes → Bytes → Int
  | a :: c1, b :: c2 => if b < a then 1 else if a < b then -1 else compareSameLength c1 c2
  | _, _ => 0

/-- `CompareBigEndian`: the bytes by which one number is longer decide unless they are zero. -/
def compareBigEndian (c1 c2 : Bytes) : Int :=
  if (c1.take (c1.length - c2.length)).any (· != 0) then 1
  else if (c2.take (c2.length - c1.length)).any (· != 0) then -1
  else compareSameLength (c1.drop (c1.length - c2.length)) (c2.drop (c2.length - c1.length))

/-- The order of secp256k1's generator minus 1. -/
def vchMaxModOrder : Bytes :=
  [0xFF, 0xFF, 0xFF, 0xFF, 0xFF, 0xFF, 0xFF, 0xFF, 0xFF, 0xFF, 0xFF, 0xFF, 0xFF, 0xFF, 0xFF, 0xFE,
    0xBA, 0xAE, 0xDC, 0xE6, 0xAF, 0x48, 0xA0, 0x3B, 0xBF, 0xD2, 0x5E, 0x8C, 0xD0, 0x36, 0x41, 0x40]

/-- Half of the order of secp256k1's generator minus 1. -/
def vchMaxModHalfOrder : Bytes :=
  [0x7F, 0xFF, 0xFF, 0xFF, 0xFF, 0xFF, 0xFF, 0xFF, 0xFF, 0xFF, 0xFF, 0xFF, 0xFF, 0xFF, 0xFF, 0xFF,
    0x5D, 0x57, 0x6E, 0x73, 0x57, 0xA4, 0x50, 0x1D, 0xDF, 0xE9, 0x2F, 0x46, 0x68, 0x1B, 0x20, 0xA0]

def checkSignatureElement (vch : Bytes) (half : Bool) : Bool := 0 < compareBigEndian vch [] &&
    compareBigEndian vch (if half then vchMaxModHalfOrder else vchMaxModOrder) ≤ 0

def isLowDERSignature (vchSig : Bytes) : Except ScriptError Unit :=
  let nLenR := (vchSig.getD 3 0).toNat
  let nLenS := (vchSig.getD (5 + nLenR) 0).toNat
  if !isValidSignatureEncoding vchSig then .error .sigDer
  else if !checkSignatureElement ((vchSig.drop (6 + nLenR)).take nLenS) true then .error .sigHighS
  else .ok ()

/-- The last byte is a hash type, with or without `ANYONECANPAY`. -/
def isDefinedHashtypeSignature (vchSig : Bytes) : Bool :=
  match vchSig.getLast? with
  | none => false
  | some back => 1 ≤ back &&& 0x7f && back &&& 0x7f ≤ 3

/-- An empty signature is allowed as a compact way to give an invalid one. -/
def checkSignatureEncoding (vchSig : Bytes) (flags : UInt32) : Except ScriptError Unit :=
  if vchSig.length = 0 then .ok ()
  else if hasFlag flags (scriptVerifyDERSIG ||| scriptVerifyLOW_S ||| scriptVerifySTRICTENC) &&
      !isValidSignatureEncoding vchSig then .error .sigDer
  else do
    if hasFlag flags scriptVerifyLOW_S then isLowDERSignature vchSig else .ok ()
    if hasFlag flags scriptVerifySTRICTENC && !isDefinedHashtypeSignature vchSig then
      .error .sigHashtype
    else .ok ()

def checkPubKeyEncoding (vchPubKey : Bytes) (flags : UInt32) : Except ScriptError Unit :=
  if hasFlag flags scriptVerifySTRICTENC && !isCompressedOrUncompressedPubKey vchPubKey then
    .error .pubkeyType
  else .ok ()

end MonetaryUnit
