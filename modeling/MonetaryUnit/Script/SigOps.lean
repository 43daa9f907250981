/-
# MonetaryUnit.Script.SigOps — instructions and signature-operation counts

`CScript::GetOp2`, which cuts the next instruction off a script, and the two counts of
signature operations built on it (`script.h`, `script.cpp`). A script that does not parse is
counted up to the point where it stops parsing.
-/

import MonetaryUnit.Lib.LittleEndian
import MonetaryUnit.Primitives.Transaction

namespace MonetaryUnit

open Lib List

/-- A push of `nSize` bytes off the rest of the script. -/
def takePush (opcode : UInt8) (nSize : Nat) (pc : CScript) : Option (UInt8 × Bytes × CScript) :=
  if pc.length < nSize then none else some (opcode, pc.take nSize, pc.drop nSize)

/-- A push whose size is stored in `width` bytes after the opcode. -/
def takeSizedPush (opcode : UInt8) (width : Nat) (pc : CScript) :
    Option (UInt8 × Bytes × CScript) :=
  if pc.length < width then none else takePush opcode (leNat (pc.take width)) (pc.drop width)

/-- `GetOp2`: the opcode, the pushed data and the rest, or `none` where it returns false. -/
def getOp : CScript → Option (UInt8 × Bytes × CScript)
  | [] => none
  | opcode :: pc =>
    if opcode < 0x4c then takePush opcode opcode.toNat pc
    else if opcode = 0x4c then takeSizedPush opcode 1 pc
    else if opcode = 0x4d then takeSizedPush opcode 2 pc
    else if opcode = 0x4e then takeSizedPush opcode 4 pc
    else some (opcode, [], pc)

variable {opcode : UInt8} {pc rest : CScript} {v : Bytes} {op : UInt8}

theorem takePush_split {nSize : Nat} (h : takePush opcode nSize pc = some (op, v, rest)) :
    op = opcode ∧ pc = v ++ rest ∧ v.length = nSize := by
  unfold takePush at h
  split at h
  · cases h
  · next hlen =>
      obtain ⟨rfl, rfl, rfl⟩ : opcode = op ∧ pc.take nSize = v ∧ pc.drop nSize = rest := by
        simpa using h
      exact ⟨rfl, (take_append_drop nSize pc).symm, length_take_of_le (by omega)⟩

theorem takeSizedPush_split {width : Nat} (h : takeSizedPush opcode width pc = some (op, v, rest)) :
    op = opcode ∧ ∃ size : Bytes, size.length = width ∧ v.length = leNat size ∧
      pc = size ++ v ++ rest := by
  unfold takeSizedPush at h
  split at h
  · cases h
  · next hlen =>
      obtain ⟨hop, hpc, hv⟩ := takePush_split h
      refine ⟨hop, pc.take width, length_take_of_le (by omega), hv, ?_⟩
      rw [append_assoc, ← hpc, take_append_drop]

/-- An instruction is cut off the front: its opcode, its size bytes and its data. -/
theorem getOp_split (h : getOp pc = some (opcode, v, rest)) :
    ∃ size : Bytes, pc = opcode :: (size ++ v ++ rest) := by
  rcases pc with _ | ⟨op, pc⟩
  · cases h
  -- the four widths of a push, and the instructions that push nothing
  rw [getOp] at h
  split_ifs at h
  · obtain ⟨rfl, hpc, -⟩ := takePush_split h
    exact ⟨[], by rw [nil_append, ← hpc]⟩
  iterate 3
    obtain ⟨rfl, size, -, -, hpc⟩ := takeSizedPush_split h
    exact ⟨size, by rw [← hpc]⟩
  · obtain ⟨rfl, rfl, rfl⟩ : op = opcode ∧ [] = v ∧ pc = rest := by simpa using h
    exact ⟨[], rfl⟩

theorem getOp_length_lt (h : getOp pc = some (opcode, v, rest)) : rest.length < pc.length := by
  obtain ⟨size, rfl⟩ := getOp_split h
  simp only [length_cons, length_append]
  omega

/-- What one instruction adds to the count; `OP_1` to `OP_16` before a multisig announce the
number of keys when the count is accurate. -/
def sigOpsOf (fAccurate : Bool) (lastOpcode opcode : UInt8) : Nat :=
  if opcode = 0xac ∨ opcode = 0xad then 1
  else if opcode = 0xae ∨ opcode = 0xaf then
    if fAccurate ∧ 0x51 ≤ lastOpcode ∧ lastOpcode ≤ 0x60 then lastOpcode.toNat - 0x50 else 20
  else 0

/-- Every instruction is at least one byte long, so the length of the script is enough fuel. -/
def sigOpLoop (fAccurate : Bool) : Nat → CScript → UInt8 → Nat → Nat
  | 0, _, _, n => n
  | fuel + 1, pc, lastOpcode, n =>
    match getOp pc with
    | none => n
    | some (opcode, _, rest) =>
      sigOpLoop fAccurate fuel rest opcode (n + sigOpsOf fAccurate lastOpcode opcode)

/-- Signature checks counted ahead of execution. -/
def getSigOpCount (script : CScript) (fAccurate : Bool) : Nat :=
  sigOpLoop fAccurate script.length script 0xff 0

/-- `OP_HASH160`, a push of 20 bytes, `OP_EQUAL`. -/
def isPayToScriptHash (script : CScript) : Bool :=
  script.length == 23 && script[0]? == some 0xa9 && script[1]? == some 0x14 &&
    script[22]? == some 0x87

/-- The last item pushed by a `scriptSig` that only pushes; `none` where the code returns 0. -/
def lastPush : Nat → CScript → Bytes → Option Bytes
  | 0, _, data => some data
  | fuel + 1, pc, data =>
    if pc.isEmpty then some data
    else
      match getOp pc with
      | none => none
      | some (opcode, data', rest) => if 0x60 < opcode then none else lastPush fuel rest data'

/-- The count for an output that is spent by `scriptSig`. -/
def getSigOpCountFor (scriptPubKey scriptSig : CScript) : Nat :=
  if !isPayToScriptHash scriptPubKey then getSigOpCount scriptPubKey true
  else
    match lastPush (scriptSig.length + 1) scriptSig [] with
    | none => 0
    | some subscript => getSigOpCount subscript true

def getLegacySigOpCount (tx : CTransaction) : Nat :=
  (tx.vin.map fun txin => getSigOpCount txin.scriptSig false).sum +
    (tx.vout.map fun txout => getSigOpCount txout.scriptPubKey false).sum

end MonetaryUnit
