/-
# MonetaryUnit.Script.Interpreter — the script machine

`EvalScript` and `VerifyScript` of `interpreter.cpp`, instruction by instruction.

An instruction is a command on the machine that can stop in every way the C++ can: it returns an
error, it throws (a number that does not decode, a stack index out of range, a pop of an empty
stack), or it fails an assertion. The guards of the source are commands of their own, so that their
sufficiency is something to prove.

Stacks have their top in front: `stacktop i` is `stacktop(-i)`. The program counter is the rest of
the script, and so is the start of the code that a signature covers. The calls to `checker.CheckSig`
are counted; the source has no such counter.
-/

import MonetaryUnit.Lib.Command
import MonetaryUnit.Script.Encoding

namespace MonetaryUnit

open Lib Lib.Command

/-! ## Ways to stop -/

/-- How a script ends early. -/
inductive ScriptStop
  /-- `return set_error(serror, e)`. -/
  | error (e : ScriptError)
  /-- A `scriptnum_error` is thrown. -/
  | scriptnumError (what : String)
  /-- `vector::at` throws `std::out_of_range`, or an iterator is outside of the stack. -/
  | outOfRange
  /-- `popstack` throws on an empty stack. -/
  | popstackEmpty
  /-- An `assert` fails, which ends the process. -/
  | assertFailed
  /-- An `int64_t` sum or difference leaves the range; the source does not test for it. -/
  | overflow
  /-- The bound on the number of rounds was too small. -/
  | outOfFuel
deriving DecidableEq, Repr

def setError {σ α : Type} (e : ScriptError) : Command σ ScriptStop α := stop (.error e)

/-- Fail with the error unless the condition holds. -/
def demand {σ : Type} (ok : Bool) (e : ScriptError) : Command σ ScriptStop Unit :=
  Command.require ok (.error e)

/-- A check that says itself which error it found. -/
def checked {σ : Type} (r : Except ScriptError Unit) : Command σ ScriptStop Unit :=
  match r with
  | .ok _ => pure ()
  | .error e => setError e

/-! ## The stack -/

abbrev StackM := Command (List Bytes) ScriptStop

/-- `if (stack.size() < n) return set_error(serror, SCRIPT_ERR_INVALID_STACK_OPERATION);` -/
def needs (n : Nat) : StackM Unit := fun s => demand (n ≤ s.length) .invalidStackOperation s

/-- `stacktop(-i)`, which is `stack.at`. -/
def stacktop (i : Nat) : StackM Bytes := fun s =>
  match s[i - 1]? with
  | some v => (.ok v, s)
  | none => (.error .outOfRange, s)

/-- `popstack` throws on an empty stack. -/
def popstack : StackM Unit := fun s =>
  match s with
  | _ :: rest => (.ok (), rest)
  | [] => (.error .popstackEmpty, s)

def pushStack (v : Bytes) : StackM Unit := update (v :: ·)

def stackSize : StackM Nat := fun s => (.ok s.length, s)

/-- `swap(stacktop(-i), stacktop(-j))`. -/
def swapTop (i j : Nat) : StackM Unit := do
  let a ← stacktop i
  let b ← stacktop j
  update fun s => (s.set (i - 1) b).set (j - 1) a

/-- `stack.erase(stack.end()-i, stack.end()-j)`, on a stack that reaches down to the first. -/
def eraseTop (i j : Nat) : StackM Unit := fun s =>
  if i ≤ s.length then (.ok (), s.take j ++ s.drop i) else (.error .outOfRange, s)

/-- `stack.insert(stack.end()-i, vch)`. -/
def insertTop (i : Nat) (vch : Bytes) : StackM Unit := fun s =>
  if i ≤ s.length then (.ok (), s.take i ++ vch :: s.drop i) else (.error .outOfRange, s)

/-- `CScriptNum(stacktop(-i), fRequireMinimal, nMaxNumSize)`. -/
def scriptNumAt (i : Nat) (fRequireMinimal : Bool) (nMaxNumSize : Nat) : StackM Int := do
  let vch ← stacktop i
  match scriptNum vch fRequireMinimal nMaxNumSize with
  | .ok n => pure n
  | .error what => stop (.scriptnumError what)

def vchFalse : Bytes := []
def vchTrue : Bytes := [1]

def pushNumber (n : Int) : StackM Unit := pushStack (scriptNumSerialize n)

def pushBool (b : Bool) : StackM Unit := pushStack (if b then vchTrue else vchFalse)

/-- The end of an instruction with a `VERIFY` form: the result is popped if it is true. -/
def finishVerify (fVerify fSuccess : Bool) (e : ScriptError) : StackM Unit :=
  if fVerify then (if fSuccess then popstack else setError e) else pure ()

/-! ## Arithmetic -/

inductive UnaryOp
  | add1 | sub1 | negate | abs | not | notEqual0
deriving DecidableEq, Repr

inductive BinaryOp
  | add | sub | boolAnd | boolOr | numEqual | numEqualVerify | numNotEqual | lessThan
  | greaterThan | lessThanOrEqual | greaterThanOrEqual | min | max
deriving DecidableEq, Repr

def int64Min : Int := -2 ^ 63
def int64Max : Int := 2 ^ 63 - 1

def assertThat (ok : Bool) : StackM Unit := Command.require ok .assertFailed

/-- `CScriptNum::operator+=`. -/
def addAssign (value rhs : Int) : StackM Int := do
  assertThat (rhs = 0 ∨ (0 < rhs ∧ value ≤ int64Max - rhs) ∨ (rhs < 0 ∧ int64Min - rhs ≤ value))
  pure (value + rhs)

/-- `CScriptNum::operator-=`. -/
def subAssign (value rhs : Int) : StackM Int := do
  assertThat (rhs = 0 ∨ (0 < rhs ∧ int64Min + rhs ≤ value) ∨ (rhs < 0 ∧ value ≤ int64Max + rhs))
  pure (value - rhs)

/-- The unary `CScriptNum::operator-`. -/
def negateNum (value : Int) : StackM Int := do
  assertThat (value ≠ int64Min)
  pure (-value)

/-- An `int64_t` result that the source does not check. -/
def inInt64 (value : Int) : StackM Int := do
  Command.require (int64Min ≤ value ∧ value ≤ int64Max) .overflow
  pure value

def ofBool (b : Bool) : Int := if b then 1 else 0

def applyUnary : UnaryOp → Int → StackM Int
  | .add1, bn => addAssign bn 1
  | .sub1, bn => subAssign bn 1
  | .negate, bn => negateNum bn
  | .abs, bn => if bn < 0 then negateNum bn else pure bn
  | .not, bn => pure (ofBool (bn = 0))
  | .notEqual0, bn => pure (ofBool (bn ≠ 0))

def applyBinary : BinaryOp → Int → Int → StackM Int
  | .add, bn1, bn2 => inInt64 (bn1 + bn2)
  | .sub, bn1, bn2 => inInt64 (bn1 - bn2)
  | .boolAnd, bn1, bn2 => pure (ofBool (bn1 ≠ 0 ∧ bn2 ≠ 0))
  | .boolOr, bn1, bn2 => pure (ofBool (bn1 ≠ 0 ∨ bn2 ≠ 0))
  | .numEqual, bn1, bn2 => pure (ofBool (bn1 = bn2))
  | .numEqualVerify, bn1, bn2 => pure (ofBool (bn1 = bn2))
  | .numNotEqual, bn1, bn2 => pure (ofBool (bn1 ≠ bn2))
  | .lessThan, bn1, bn2 => pure (ofBool (bn1 < bn2))
  | .greaterThan, bn1, bn2 => pure (ofBool (bn1 > bn2))
  | .lessThanOrEqual, bn1, bn2 => pure (ofBool (bn1 ≤ bn2))
  | .greaterThanOrEqual, bn1, bn2 => pure (ofBool (bn1 ≥ bn2))
  | .min, bn1, bn2 => pure (if bn1 < bn2 then bn1 else bn2)
  | .max, bn1, bn2 => pure (if bn1 > bn2 then bn1 else bn2)

/-! ## What the machine takes from elsewhere -/

/-- `BaseSignatureChecker`. -/
structure SignatureChecker where
  checkSig : Bytes → Bytes → CScript → Bool
  checkLockTime : Int → Bool

inductive HashOp
  | ripemd160 | sha1 | sha256 | hash160 | hash256
deriving DecidableEq, Repr

/-- The size of the vector that takes the hash. -/
def HashOp.size : HashOp → Nat
  | .ripemd160 | .sha1 | .hash160 => 20
  | .sha256 | .hash256 => 32

/-- The hash functions, each with a result of its size. -/
structure ScriptHashes where
  hash : HashOp → Bytes → Bytes
  length_hash : ∀ op vch, (hash op vch).length = op.size

/-! ## Instructions on the stack -/

/-- `OP_VERIFY` leaves a false value where it is. -/
def opVerify : StackM Unit := do
  needs 1
  let vch ← stacktop 1
  if castToBool vch then popstack else setError .verify

/-- `OP_2DROP`: (x1 x2 -- ) -/
def op2Drop : StackM Unit := do
  needs 2
  popstack
  popstack

/-- `OP_2DUP`: (x1 x2 -- x1 x2 x1 x2) -/
def op2Dup : StackM Unit := do
  needs 2
  let vch1 ← stacktop 2
  let vch2 ← stacktop 1
  pushStack vch1
  pushStack vch2

/-- `OP_3DUP`: (x1 x2 x3 -- x1 x2 x3 x1 x2 x3) -/
def op3Dup : StackM Unit := do
  needs 3
  let vch1 ← stacktop 3
  let vch2 ← stacktop 2
  let vch3 ← stacktop 1
  pushStack vch1
  pushStack vch2
  pushStack vch3

/-- `OP_2OVER`: (x1 x2 x3 x4 -- x1 x2 x3 x4 x1 x2) -/
def op2Over : StackM Unit := do
  needs 4
  let vch1 ← stacktop 4
  let vch2 ← stacktop 3
  pushStack vch1
  pushStack vch2

/-- `OP_2ROT`: (x1 x2 x3 x4 x5 x6 -- x3 x4 x5 x6 x1 x2) -/
def op2Rot : StackM Unit := do
  needs 6
  let vch1 ← stacktop 6
  let vch2 ← stacktop 5
  eraseTop 6 4
  pushStack vch1
  pushStack vch2

/-- `OP_2SWAP`: (x1 x2 x3 x4 -- x3 x4 x1 x2) -/
def op2Swap : StackM Unit := do
  needs 4
  swapTop 4 2
  swapTop 3 1

/-- `OP_IFDUP`: (x -- x | x x) -/
def opIfDup : StackM Unit := do
  needs 1
  let vch ← stacktop 1
  if castToBool vch then pushStack vch else pure ()

/-- `OP_DEPTH`: ( -- stacksize) -/
def opDepth : StackM Unit := do
  let size ← stackSize
  pushNumber size

/-- `OP_DROP`: (x -- ) -/
def opDrop : StackM Unit := do
  needs 1
  popstack

/-- `OP_DUP`: (x -- x x) -/
def opDup : StackM Unit := do
  needs 1
  let vch ← stacktop 1
  pushStack vch

/-- `OP_NIP`: (x1 x2 -- x2) -/
def opNip : StackM Unit := do
  needs 2
  eraseTop 2 1

/-- `OP_OVER`: (x1 x2 -- x1 x2 x1) -/
def opOver : StackM Unit := do
  needs 2
  let vch ← stacktop 2
  pushStack vch

/-- `OP_PICK` and `OP_ROLL`. -/
def opPick (fRequireMinimal roll : Bool) : StackM Unit := do
  needs 2
  let bn ← scriptNumAt 1 fRequireMinimal nDefaultMaxNumSize
  let n := getint bn
  popstack
  let size ← stackSize
  demand (!(n < 0 || (size : Int) ≤ n)) .invalidStackOperation
  let vch ← stacktop (n.toNat + 1)
  (if roll then eraseTop (n.toNat + 1) n.toNat else pure ())
  pushStack vch

/-- `OP_ROT`: (x1 x2 x3 -- x2 x3 x1) -/
def opRot : StackM Unit := do
  needs 3
  swapTop 3 2
  swapTop 2 1

/-- `OP_SWAP`: (x1 x2 -- x2 x1) -/
def opSwap : StackM Unit := do
  needs 2
  swapTop 2 1

/-- `OP_TUCK`: (x1 x2 -- x2 x1 x2) -/
def opTuck : StackM Unit := do
  needs 2
  let vch ← stacktop 1
  insertTop 2 vch

/-- `OP_SIZE`: (in -- in size) -/
def opSize : StackM Unit := do
  needs 1
  let vch ← stacktop 1
  pushNumber vch.length

/-- `OP_EQUAL` and `OP_EQUALVERIFY`: (x1 x2 - bool) -/
def opEqual (fVerify : Bool) : StackM Unit := do
  needs 2
  let vch1 ← stacktop 2
  let vch2 ← stacktop 1
  popstack
  popstack
  pushBool (vch1 == vch2)
  finishVerify fVerify (vch1 == vch2) .equalVerify

/-- Numeric operators: (in -- out) -/
def opUnary (fRequireMinimal : Bool) (op : UnaryOp) : StackM Unit := do
  needs 1
  let bn ← scriptNumAt 1 fRequireMinimal nDefaultMaxNumSize
  let bn ← applyUnary op bn
  popstack
  pushNumber bn

/-- The end of `OP_NUMEQUALVERIFY`, which looks at the number it has pushed. -/
def finishNumEqual (op : BinaryOp) : StackM Unit :=
  if op = .numEqualVerify then do
    let vch ← stacktop 1
    finishVerify true (castToBool vch) .numEqualVerify
  else pure ()

/-- Numeric operators: (x1 x2 -- out) -/
def opBinary (fRequireMinimal : Bool) (op : BinaryOp) : StackM Unit := do
  needs 2
  let bn1 ← scriptNumAt 2 fRequireMinimal nDefaultMaxNumSize
  let bn2 ← scriptNumAt 1 fRequireMinimal nDefaultMaxNumSize
  let bn ← applyBinary op bn1 bn2
  popstack
  popstack
  pushNumber bn
  finishNumEqual op

/-- `OP_WITHIN`: (x min max -- out) -/
def opWithin (fRequireMinimal : Bool) : StackM Unit := do
  needs 3
  let bn1 ← scriptNumAt 3 fRequireMinimal nDefaultMaxNumSize
  let bn2 ← scriptNumAt 2 fRequireMinimal nDefaultMaxNumSize
  let bn3 ← scriptNumAt 1 fRequireMinimal nDefaultMaxNumSize
  popstack
  popstack
  popstack
  pushBool (bn2 ≤ bn1 && bn1 < bn3)

/-- The hash opcodes: (in -- hash) -/
def opHash (H : ScriptHashes) (op : HashOp) : StackM Unit := do
  needs 1
  let vch ← stacktop 1
  popstack
  pushStack (H.hash op vch)

/-- `OP_CHECKLOCKTIMEVERIFY`, a discouraged no-operation while it is not enabled. -/
def opCheckLockTimeVerify (checker : SignatureChecker) (flags : UInt32) : StackM Unit :=
  if hasFlag flags scriptVerifyCHECKLOCKTIMEVERIFY then do
    needs 1
    let nLockTime ← scriptNumAt 1 (hasFlag flags scriptVerifyMINIMALDATA) 5
    demand (0 ≤ nLockTime) .negativeLocktime
    demand (checker.checkLockTime nLockTime) .unsatisfiedLocktime
  else
    demand (!hasFlag flags scriptVerifyDISCOURAGE_UPGRADABLE_NOPS) .discourageUpgradableNops

/-- The condition of `OP_IF` and `OP_NOTIF`. -/
def popCondition (negated : Bool) : StackM Bool := do
  let size ← stackSize
  demand (1 ≤ size) .unbalancedConditional
  let vch ← stacktop 1
  popstack
  pure (if negated then !castToBool vch else castToBool vch)

/-! ## The machine -/

/-- The variables of `EvalScript`. -/
structure Machine where
  pc : CScript
  pbegincodehash : CScript
  stack : List Bytes
  altstack : List Bytes
  /-- The innermost conditional is in front. -/
  vfExec : List Bool
  nOpCount : Nat
  checkSigCalls : Nat
deriving DecidableEq, Repr

abbrev MachineM := Command Machine ScriptStop

def onStack {α : Type} : StackM α → MachineM α :=
  onPart Machine.stack fun s m => { m with stack := s }

/-- `fValue`: false in a branch that is not executed. -/
def branchValue (fExec negated : Bool) : MachineM Bool :=
  if fExec then onStack (popCondition negated) else pure false

/-- `OP_IF` and `OP_NOTIF` open a branch, executed or not. -/
def opIf (fExec negated : Bool) : MachineM Unit := do
  let fValue ← branchValue fExec negated
  update fun m => { m with vfExec := fValue :: m.vfExec }

/-- `OP_ELSE` turns the innermost branch over. -/
def opElse : MachineM Unit := fun m =>
  match m.vfExec with
  | [] => setError .unbalancedConditional m
  | f :: rest => (.ok (), { m with vfExec := (!f) :: rest })

/-- `OP_ENDIF` closes it. -/
def opEndIf : MachineM Unit := fun m =>
  match m.vfExec with
  | [] => setError .unbalancedConditional m
  | _ :: rest => (.ok (), { m with vfExec := rest })

def pushAlt (vch : Bytes) : MachineM Unit :=
  update fun m => { m with altstack := vch :: m.altstack }

def opToAltStack : MachineM Unit := do
  onStack (needs 1)
  let vch ← onStack (stacktop 1)
  pushAlt vch
  onStack popstack

/-- Stack commands on the alternative stack. -/
def onAltstack {α : Type} : StackM α → MachineM α :=
  onPart Machine.altstack fun s m => { m with altstack := s }

def opFromAltStack : MachineM Unit := do
  let size ← onAltstack stackSize
  demand (1 ≤ size) .invalidAltstackOperation
  let vch ← onAltstack (stacktop 1)
  onStack (pushStack vch)
  onAltstack popstack

/-- Signatures cover the code from here on. -/
def opCodeSeparator : MachineM Unit := update fun m => { m with pbegincodehash := m.pc }

/-! ## Signatures -/

section Signatures

variable (checker : SignatureChecker) (flags : UInt32)

def callCheckSig (vchSig vchPubKey : Bytes) (scriptCode : CScript) : MachineM Bool := fun m =>
  (.ok (checker.checkSig vchSig vchPubKey scriptCode),
    { m with checkSigCalls := m.checkSigCalls + 1 })

/-- `CheckSignatureEncoding(…) && CheckPubKeyEncoding(…)`. -/
def checkEncodings (vchSig vchPubKey : Bytes) : MachineM Unit := do
  checked (checkSignatureEncoding vchSig flags)
  checked (checkPubKeyEncoding vchPubKey flags)

/-- The code from the last separator on. -/
def codeFromSeparator : MachineM CScript := fun m => (.ok m.pbegincodehash, m)

def finishCheckSig (fVerify fSuccess : Bool) : StackM Unit := do
  popstack
  popstack
  pushBool fSuccess
  finishVerify fVerify fSuccess .checkSigVerify

/-- Check a signature over the code since the last separator. -/
def opCheckSig (fVerify : Bool) : MachineM Unit := do
  onStack (needs 2)
  let vchSig ← onStack (stacktop 2)
  let vchPubKey ← onStack (stacktop 1)
  let code ← codeFromSeparator
  let scriptCode := findAndDelete code (pushBytes vchSig)
  checkEncodings flags vchSig vchPubKey
  let fSuccess ← callCheckSig checker vchSig vchPubKey scriptCode
  onStack (finishCheckSig fVerify fSuccess)

/-- `n` signatures from depth `isig` on are dropped from the code. -/
def dropSignatures : Nat → Nat → CScript → StackM CScript
  | 0, _, scriptCode => pure scriptCode
  | n + 1, isig, scriptCode => do
    let vchSig ← stacktop isig
    dropSignatures n (isig + 1) (findAndDelete scriptCode (pushBytes vchSig))

/-- The loop that matches signatures to keys. Each round uses up a key, and the loop ends when
there are more signatures left than keys. -/
def multiSigLoop (scriptCode : CScript) : Nat → Nat → Nat → Nat → MachineM Bool
  | 0, _, _, nSigsCount => if nSigsCount = 0 then pure true else stop .outOfFuel
  | nKeysCount + 1, isig, ikey, nSigsCount =>
    if nSigsCount = 0 then pure true
    else do
      let vchSig ← onStack (stacktop isig)
      let vchPubKey ← onStack (stacktop ikey)
      checkEncodings flags vchSig vchPubKey
      let fOk ← callCheckSig checker vchSig vchPubKey scriptCode
      let isig := if fOk then isig + 1 else isig
      let nSigsCount := if fOk then nSigsCount - 1 else nSigsCount
      if nKeysCount < nSigsCount then pure false
      else multiSigLoop scriptCode nKeysCount isig (ikey + 1) nSigsCount

def popMany : Nat → StackM Unit
  | 0 => pure ()
  | n + 1 => do
    popstack
    popMany n

/-- The extra argument that `CHECKMULTISIG` consumes may be required to be empty. -/
def checkDummy : StackM Unit := do
  let vch ← stacktop 1
  demand (!(hasFlag flags scriptVerifyNULLDUMMY && vch.length != 0)) .sigNullDummy

def finishMultiSig (nArgs : Nat) (fVerify fSuccess : Bool) : StackM Unit := do
  popMany nArgs
  needs 1
  checkDummy flags
  popstack
  pushBool fSuccess
  finishVerify fVerify fSuccess .checkMultiSigVerify

/-- `nOpCount += n; if (nOpCount > 201) return set_error(serror, SCRIPT_ERR_OP_COUNT);` -/
def countOps (n : Nat) : MachineM Unit := do
  update fun m => { m with nOpCount := m.nOpCount + n }
  fun m => demand (m.nOpCount ≤ 201) .opCount m

/-- The number of keys, on top of the stack. -/
def readKeysCount : MachineM Nat := do
  onStack (needs 1)
  let bn ← onStack (scriptNumAt 1 (hasFlag flags scriptVerifyMINIMALDATA) nDefaultMaxNumSize)
  demand (!(getint bn < 0 || 20 < getint bn)) .pubkeyCount
  pure (getint bn).toNat

/-- The number of signatures, below the keys. -/
def readSigsCount (nKeysCount : Nat) : StackM Nat := do
  needs (2 + nKeysCount)
  let bn ← scriptNumAt (2 + nKeysCount) (hasFlag flags scriptVerifyMINIMALDATA) nDefaultMaxNumSize
  demand (!(getint bn < 0 || (nKeysCount : Int) < getint bn)) .sigCount
  pure (getint bn).toNat

/-- Both counts, the keys and signatures in order, one value too many. -/
def opCheckMultiSig (fVerify : Bool) : MachineM Unit := do
  let nKeysCount ← readKeysCount flags
  countOps nKeysCount
  let nSigsCount ← onStack (readSigsCount flags nKeysCount)
  onStack (needs (3 + nKeysCount + nSigsCount))
  let code ← codeFromSeparator
  let scriptCode ← onStack (dropSignatures nSigsCount (3 + nKeysCount) code)
  let fSuccess ← multiSigLoop checker flags scriptCode nKeysCount (3 + nKeysCount) 2 nSigsCount
  onStack (finishMultiSig flags (2 + nKeysCount + nSigsCount) fVerify fSuccess)

end Signatures

/-! ## Instructions -/

/-- The instructions of the switch in `EvalScript`. -/
inductive Op
  | pushNumber (n : Int)
  | nop
  | checkLockTimeVerify
  | upgradableNop
  | cond (negated : Bool)
  | else_
  | endIf
  | verify
  | return_
  | toAltStack
  | fromAltStack
  | drop2
  | dup2
  | dup3
  | over2
  | rot2
  | swap2
  | ifDup
  | depth
  | drop
  | dup
  | nip
  | over_
  | pick (roll : Bool)
  | rot
  | swap
  | tuck
  | size
  | equal (fVerify : Bool)
  | unary (op : UnaryOp)
  | binary (op : BinaryOp)
  | within
  | hash (op : HashOp)
  | codeSeparator
  | checkSig (fVerify : Bool)
  | checkMultiSig (fVerify : Bool)
  /-- The `default` of the switch. -/
  | bad
deriving DecidableEq, Repr

/-- The opcodes that have a case of their own, in the order of `opcodetype`. -/
def opTable : List (UInt8 × Op) :=
  [(0x61, .nop), (0x63, .cond false), (0x64, .cond true), (0x67, .else_), (0x68, .endIf),
    (0x69, .verify), (0x6a, .return_),
    (0x6b, .toAltStack), (0x6c, .fromAltStack), (0x6d, .drop2), (0x6e, .dup2), (0x6f, .dup3),
    (0x70, .over2), (0x71, .rot2), (0x72, .swap2), (0x73, .ifDup), (0x74, .depth),
    (0x75, .drop), (0x76, .dup), (0x77, .nip), (0x78, .over_), (0x79, .pick false),
    (0x7a, .pick true), (0x7b, .rot), (0x7c, .swap), (0x7d, .tuck), (0x82, .size),
    (0x87, .equal false), (0x88, .equal true),
    (0x8b, .unary .add1), (0x8c, .unary .sub1), (0x8f, .unary .negate), (0x90, .unary .abs),
    (0x91, .unary .not), (0x92, .unary .notEqual0),
    (0x93, .binary .add), (0x94, .binary .sub), (0x9a, .binary .boolAnd),
    (0x9b, .binary .boolOr), (0x9c, .binary .numEqual), (0x9d, .binary .numEqualVerify),
    (0x9e, .binary .numNotEqual), (0x9f, .binary .lessThan), (0xa0, .binary .greaterThan),
    (0xa1, .binary .lessThanOrEqual), (0xa2, .binary .greaterThanOrEqual), (0xa3, .binary .min),
    (0xa4, .binary .max), (0xa5, .within),
    (0xa6, .hash .ripemd160), (0xa7, .hash .sha1), (0xa8, .hash .sha256), (0xa9, .hash .hash160),
    (0xaa, .hash .hash256), (0xab, .codeSeparator), (0xac, .checkSig false),
    (0xad, .checkSig true), (0xae, .checkMultiSig false), (0xaf, .checkMultiSig true),
    (0xb0, .upgradableNop), (0xb1, .checkLockTimeVerify), (0xb2, .upgradableNop),
    (0xb3, .upgradableNop), (0xb4, .upgradableNop), (0xb5, .upgradableNop),
    (0xb6, .upgradableNop), (0xb7, .upgradableNop), (0xb8, .upgradableNop),
    (0xb9, .upgradableNop)]

/-- `OP_1NEGATE` and `OP_1` to `OP_16` push a number. -/
def decodeOp (opcode : UInt8) : Op :=
  if opcode = 0x4f ∨ (0x51 ≤ opcode ∧ opcode ≤ 0x60) then
    .pushNumber ((opcode.toNat : Int) - 0x50)
  else (opTable.lookup opcode).getD .bad

/-- The disabled opcodes end a script even where they are not executed. -/
def isDisabled (opcode : UInt8) : Bool :=
  [0x7e, 0x7f, 0x80, 0x81, 0x83, 0x84, 0x85, 0x86, 0x8d, 0x8e, 0x95, 0x96, 0x97, 0x98,
    0x99].contains opcode

section Eval

variable (H : ScriptHashes) (checker : SignatureChecker) (flags : UInt32) {m : Machine}

/-- The switch over the opcodes. -/
def evalOp (fExec : Bool) : Op → MachineM Unit
  | .pushNumber n => onStack (pushNumber n)
  | .nop => pure ()
  | .checkLockTimeVerify => onStack (opCheckLockTimeVerify checker flags)
  | .upgradableNop =>
    demand (!hasFlag flags scriptVerifyDISCOURAGE_UPGRADABLE_NOPS) .discourageUpgradableNops
  | .cond negated => opIf fExec negated
  | .else_ => opElse
  | .endIf => opEndIf
  | .verify => onStack opVerify
  | .return_ => setError .opReturn
  | .toAltStack => opToAltStack
  | .fromAltStack => opFromAltStack
  | .drop2 => onStack op2Drop
  | .dup2 => onStack op2Dup
  | .dup3 => onStack op3Dup
  | .over2 => onStack op2Over
  | .rot2 => onStack op2Rot
  | .swap2 => onStack op2Swap
  | .ifDup => onStack opIfDup
  | .depth => onStack opDepth
  | .drop => onStack opDrop
  | .dup => onStack opDup
  | .nip => onStack opNip
  | .over_ => onStack opOver
  | .pick roll => onStack (opPick (hasFlag flags scriptVerifyMINIMALDATA) roll)
  | .rot => onStack opRot
  | .swap => onStack opSwap
  | .tuck => onStack opTuck
  | .size => onStack opSize
  | .equal fVerify => onStack (opEqual fVerify)
  | .unary op => onStack (opUnary (hasFlag flags scriptVerifyMINIMALDATA) op)
  | .binary op => onStack (opBinary (hasFlag flags scriptVerifyMINIMALDATA) op)
  | .within => onStack (opWithin (hasFlag flags scriptVerifyMINIMALDATA))
  | .hash op => onStack (opHash H op)
  | .codeSeparator => opCodeSeparator
  | .checkSig fVerify => opCheckSig checker flags fVerify
  | .checkMultiSig fVerify => opCheckMultiSig checker flags fVerify
  | .bad => setError .badOpcode

def maxScriptElementSize : Nat := 520

/-- A push instruction that is executed. -/
def opPushData (opcode : UInt8) (vchPushValue : Bytes) : StackM Unit := do
  demand (!(hasFlag flags scriptVerifyMINIMALDATA && !checkMinimalPush vchPushValue opcode))
    .minimalData
  pushStack vchPushValue

/-- The instruction itself. Where `fExec` is false only the conditionals are looked at. -/
def dispatch (fExec : Bool) (opcode : UInt8) (vchPushValue : Bytes) : MachineM Unit :=
  if fExec && opcode ≤ 0x4e then onStack (opPushData flags opcode vchPushValue)
  else if fExec || (0x63 ≤ opcode && opcode ≤ 0x68) then
    evalOp H checker flags fExec (decodeOp opcode)
  else pure ()

/-- Opcodes above `OP_16` are counted. -/
def countOpcode (opcode : UInt8) : MachineM Unit :=
  if 0x60 < opcode then countOps 1 else pure ()

def checkStackSize : MachineM Unit := fun m =>
  demand (m.stack.length + m.altstack.length ≤ 1000) .stackSize m

/-- `fExec`: no enclosing conditional is in its other branch. -/
def Machine.fExec (m : Machine) : Bool := !m.vfExec.contains false

/-- One round of the loop, after the instruction has been read. -/
def evalInstruction (fExec : Bool) (opcode : UInt8) (vchPushValue : Bytes) : MachineM Unit := do
  demand (vchPushValue.length ≤ maxScriptElementSize) .pushSize
  countOpcode opcode
  demand (!isDisabled opcode) .disabledOpcode
  dispatch H checker flags fExec opcode vchPushValue
  checkStackSize

/-- An instruction that runs to its end was short enough and counted, and then carried out. -/
theorem evalInstruction_eq_ok {fExec : Bool} {opcode : UInt8} {vchPushValue : Bytes} {m' : Machine}
    (h : evalInstruction H checker flags fExec opcode vchPushValue m = (.ok (), m')) :
    ∃ m1, countOpcode opcode m = (.ok (), m1) ∧
      dispatch H checker flags fExec opcode vchPushValue m1 = (.ok (), m') := by
  obtain ⟨⟨⟩, t1, hlen, h⟩ := bind_eq_ok h
  obtain ⟨⟨⟩, m1, hcount, h⟩ := bind_eq_ok h
  obtain ⟨⟨⟩, t2, hdisabled, h⟩ := bind_eq_ok h
  obtain ⟨⟨⟩, t3, hdispatch, hsize⟩ := bind_eq_ok h
  obtain ⟨-, rfl⟩ := require_eq_ok hlen
  obtain ⟨-, rfl⟩ := require_eq_ok hdisabled
  obtain ⟨-, rfl⟩ := require_eq_ok hsize
  exact ⟨_, hcount, hdispatch⟩

/-- One round of the loop. -/
def evalStep : MachineM Unit := fun m =>
  match getOp m.pc with
  | none => setError .badOpcode m
  | some (opcode, vchPushValue, rest) =>
    evalInstruction H checker flags m.fExec opcode vchPushValue { m with pc := rest }

/-- `while (pc < pend)`. Every instruction is at least one byte long. -/
def evalLoop : Nat → MachineM Unit
  | 0 => fun m => if m.pc.isEmpty then (.ok (), m) else (.error .outOfFuel, m)
  | fuel + 1 => fun m =>
    if m.pc.isEmpty then (.ok (), m)
    else (do evalStep H checker flags; evalLoop fuel) m

theorem evalLoop_done (fuel : Nat) (h : m.pc = []) :
    evalLoop H checker flags fuel m = (.ok (), m) := by
  cases fuel <;> exact if_pos (by rw [h]; rfl)

theorem evalLoop_round (fuel : Nat) (h : m.pc ≠ []) :
    evalLoop H checker flags (fuel + 1) m =
      (do evalStep H checker flags; evalLoop H checker flags fuel : MachineM Unit) m :=
  if_neg (by simpa using h)

def checkBalanced : MachineM Unit := fun m => demand m.vfExec.isEmpty .unbalancedConditional m

/-- The machine at the start of a script. -/
def Machine.start (script : CScript) (stack : List Bytes) (calls : Nat) : Machine where
  pc := script
  pbegincodehash := script
  stack := stack
  altstack := []
  vfExec := []
  nOpCount := 0
  checkSigCalls := calls

/-- The body of `EvalScript`. -/
def evalBody (script : CScript) : MachineM Unit := do
  evalLoop H checker flags script.length
  checkBalanced

/-- `catch (...) { return set_error(serror, SCRIPT_ERR_UNKNOWN_ERROR); }` -/
def ScriptStop.caught : ScriptStop → ScriptStop
  | .scriptnumError _ => .error .unknownError
  | .outOfRange => .error .unknownError
  | .popstackEmpty => .error .unknownError
  | e => e

/-- `EvalScript`: the stack it leaves. The state is the number of signature checks so far. -/
def evalScript (stack : List Bytes) (script : CScript) : Command Nat ScriptStop (List Bytes) :=
  fun calls =>
    if 10000 < script.length then (.error (.error .scriptSize), calls)
    else
      match evalBody H checker flags script (Machine.start script stack calls) with
      | (.ok _, m) => (.ok m.stack, m.checkSigCalls)
      | (.error e, m) => (.error e.caught, m.checkSigCalls)

/-- The value a script leaves on top is its verdict. -/
def checkVerdict (stack : List Bytes) : Command Nat ScriptStop Unit :=
  match stack with
  | [] => setError .evalFalse
  | back :: _ => demand (castToBool back) .evalFalse

/-- The serialized script on top of the stack is evaluated on the rest. -/
def verifyP2SH (scriptSig : CScript) (stackCopy : List Bytes) : Command Nat ScriptStop Unit := do
  demand (isPushOnly scriptSig) .sigPushOnly
  match stackCopy with
  | [] => stop .assertFailed
  | pubKeySerialized :: rest => do
    let stack ← evalScript H checker flags rest pubKeySerialized
    checkVerdict stack

/-- Both scripts on one stack; for P2SH also the script that was pushed. -/
def verifyScript (scriptSig scriptPubKey : CScript) : Command Nat ScriptStop Unit := do
  demand (!(hasFlag flags scriptVerifySIGPUSHONLY && !isPushOnly scriptSig)) .sigPushOnly
  let stackCopy ← evalScript H checker flags [] scriptSig
  let stack ← evalScript H checker flags stackCopy scriptPubKey
  checkVerdict stack
  if hasFlag flags scriptVerifyP2SH && isPayToScriptHash scriptPubKey then
    verifyP2SH H checker flags scriptSig stackCopy
  else pure ()

/-- The `bool` that `VerifyScript` returns. -/
def verifies (scriptSig scriptPubKey : CScript) : Bool :=
  match (verifyScript H checker flags scriptSig scriptPubKey 0).1 with
  | .ok _ => true
  | .error _ => false

theorem verifies_iff {scriptSig scriptPubKey : CScript} :
    verifies H checker flags scriptSig scriptPubKey = true ↔
      ∃ n, verifyScript H checker flags scriptSig scriptPubKey 0 = (.ok (), n) := by
  unfold verifies
  rcases verifyScript H checker flags scriptSig scriptPubKey 0 with ⟨e | ⟨⟩, n⟩ <;> simp

end Eval

end MonetaryUnit
