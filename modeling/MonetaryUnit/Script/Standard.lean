/-
# MonetaryUnit.Script.Standard — the standard kinds of output scripts

`Solver` and `ScriptSigArgsExpected` of `script/standard.cpp`. A script is compared with a list
of templates, instruction by instruction; some opcodes of a template stand for a key, a key
hash, a run of keys, a small number or a small push. What they stood for is the solution.

The templates have no pushes of their own, so the instructions of a template are its bytes.
Whether data outputs are standard, and how large they may be, is set on the command line
(`StandardPolicy`).
-/

import MonetaryUnit.Script.SigOps

namespace MonetaryUnit

open Lib

/-- `txnouttype`. -/
inductive TxnOutType
  | nonstandard
  | pubkey
  | pubkeyhash
  | scripthash
  | multisig
  | nullData
deriving DecidableEq, Repr

/-- `-datacarrier` and `-datacarriersize`. -/
structure StandardPolicy where
  datacarrier : Bool := true
  nMaxDatacarrierBytes : Nat := 40

/-! ## Templates -/

def opSmallData : UInt8 := 0xf9
def opSmallInteger : UInt8 := 0xfa
def opPubkeys : UInt8 := 0xfb
def opPubkeyHash : UInt8 := 0xfd
def opPubkey : UInt8 := 0xfe
def opInvalidOpcode : UInt8 := 0xff

/-- `mTemplates`, in the order of the types. -/
def templates (P : StandardPolicy) : List (TxnOutType × CScript) := [(.pubkey, [opPubkey, 0xac]),
    (.pubkeyhash, [0x76, 0xa9, opPubkeyHash, 0x88, 0xac]),
    (.multisig, [opSmallInteger, opPubkeys, opSmallInteger, 0xae])] ++
  (if P.datacarrier then [(.nullData, [0x6a, opSmallData])] else []) ++
  [(.nullData, [0x6a])]

/-- `DecodeOP_N`. -/
def decodeOpN (opcode : UInt8) : UInt8 :=
  if opcode = 0 then 0 else opcode - 0x50

/-- One instruction of the script against one opcode of a template: `none` if they do not match,
or the solutions with what the opcode stands for. -/
def matchOp (P : StandardPolicy) (opcode2 opcode1 : UInt8) (vch1 : Bytes)
    (vSolutions : List Bytes) : Option (List Bytes) :=
  if opcode2 = opPubkey then
    if vch1.length < 33 ∨ 65 < vch1.length then none else some (vSolutions ++ [vch1])
  else if opcode2 = opPubkeyHash then
    if vch1.length ≠ 20 then none else some (vSolutions ++ [vch1])
  else if opcode2 = opSmallInteger then
    if opcode1 = 0 ∨ 0x51 ≤ opcode1 ∧ opcode1 ≤ 0x60 then
      some (vSolutions ++ [[decodeOpN opcode1]])
    else none
  else if opcode2 = opSmallData then
    if P.nMaxDatacarrierBytes < vch1.length then none else some vSolutions
  else if opcode1 ≠ opcode2 ∨ vch1 ≠ [] then none
  else some vSolutions

/-- The loop for `OP_PUBKEYS`: pushes of the size of a key are taken, and the instruction after
them is the current one. -/
def takePubkeys : Nat → UInt8 × Bytes × CScript → List Bytes →
    (UInt8 × Bytes × CScript) × List Bytes
  | 0, current, vSolutions => (current, vSolutions)
  | fuel + 1, (opcode1, vch1, pc1), vSolutions =>
    if 33 ≤ vch1.length ∧ vch1.length ≤ 65 then
      match getOp pc1 with
      | none => ((opInvalidOpcode, [], pc1), vSolutions ++ [vch1])
      | some next => takePubkeys fuel next (vSolutions ++ [vch1])
    else ((opcode1, vch1, pc1), vSolutions)

/-- The comparison with one template. -/
def matchTemplate (P : StandardPolicy) : CScript → CScript → List Bytes → Option (List Bytes)
  | [], pc1, vSolutions => if pc1 = [] then some vSolutions else none
  | opcode2 :: pc2, pc1, vSolutions =>
    match getOp pc1 with
    | none => none
    | some (opcode1, vch1, pc1) =>
      if opcode2 = opPubkeys then
        match pc2 with
        | [] => none
        | opcode2' :: pc2' =>
          let r := takePubkeys (pc1.length + 1) (opcode1, vch1, pc1) vSolutions
          (matchOp P opcode2' r.1.1 r.1.2.1 r.2).bind (matchTemplate P pc2' r.1.2.2)
      else (matchOp P opcode2 opcode1 vch1 vSolutions).bind (matchTemplate P pc2 pc1)

/-! ## Solver -/

/-- The first byte of an entry of the solutions. -/
def firstByte (vch : Option Bytes) : UInt8 := (vch.bind List.head?).getD 0

/-- The checks on the numbers of a multisig script. -/
def multisigCounts (vSolutions : List Bytes) : Bool :=
  let m := firstByte vSolutions.head?
  let n := firstByte vSolutions.getLast?
  !(decide (m < 1) || decide (n < 1) || decide (n < m) || decide (vSolutions.length - 2 ≠ n.toNat))

def scanTemplates (P : StandardPolicy) (script : CScript) :
    List (TxnOutType × CScript) → Bool × TxnOutType × List Bytes
  | [] => (false, .nonstandard, [])
  | (typeRet, tplate) :: rest =>
    match matchTemplate P tplate script [] with
    | none => scanTemplates P script rest
    | some vSolutions =>
      if typeRet = .multisig then (multisigCounts vSolutions, .multisig, vSolutions)
      else (true, typeRet, vSolutions)

/-- `Solver`: whether the script is standard, its type and the solutions. -/
def solver (P : StandardPolicy) (scriptPubKey : CScript) : Bool × TxnOutType × List Bytes :=
  if isPayToScriptHash scriptPubKey then
    (true, .scripthash, [(scriptPubKey.drop 2).take 20])
  else scanTemplates P scriptPubKey (templates P)

def scriptSigArgsExpected : TxnOutType → List Bytes → Int
  | .nonstandard, _ => -1
  | .nullData, _ => -1
  | .pubkey, _ => 1
  | .pubkeyhash, _ => 2
  | .multisig, vSolutions =>
    match vSolutions.head?.bind List.head? with
    | none => -1
    | some m => (m.toNat : Int) + 1
  | .scripthash, _ => 1

end MonetaryUnit
