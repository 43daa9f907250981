/-
# MonetaryUnit.Script.FlagMonotone — more flags, fewer scripts

A verification flag can only make a script fail. Under a smaller set of flags every command of
the machine is the more permissive one: where the stricter command returns, it returns the same
value and leaves the same machine. So nothing a flag forbids can turn up as a different value in
a later condition, and the whole run of `EvalScript` is carried over step by step.

The exception is the flag that discourages upgradable no-operations: it is consulted only while
`OP_CHECKLOCKTIMEVERIFY` is not enabled, so a set that has it may reject what a larger set
accepts.
-/

import MonetaryUnit.Chain.SoftFork
import MonetaryUnit.Script.Safety

namespace MonetaryUnit

open Lib Lib.Command

/-! ## Flags -/

/-- A subset of the flags, without the one that discourages upgradable no-operations. -/
structure Milder (F G : UInt32) : Prop where
  subset : F &&& G = F
  upgradable : hasFlag F scriptVerifyDISCOURAGE_UPGRADABLE_NOPS = false

theorem Milder.hasFlag {F G : UInt32} (h : Milder F G) {mask : UInt32}
    (hF : hasFlag F mask = true) : hasFlag G mask = true := by
  simp only [MonetaryUnit.hasFlag, bne_iff_ne, ne_eq] at hF ⊢
  intro hG
  apply hF
  rw [← h.subset, UInt32.and_assoc, hG, UInt32.and_zero]

/-! ## Encodings -/

/-- Which checks the flags switch on for a signature that is not empty. -/
theorem checkSignatureEncoding_ok_iff (vchSig : Bytes) (flags : UInt32) :
    checkSignatureEncoding vchSig flags = .ok () ↔ vchSig.length = 0 ∨
        ((hasFlag flags (scriptVerifyDERSIG ||| scriptVerifyLOW_S ||| scriptVerifySTRICTENC) =
            true → isValidSignatureEncoding vchSig = true) ∧
        (hasFlag flags scriptVerifyLOW_S = true → isLowDERSignature vchSig = .ok ()) ∧
        (hasFlag flags scriptVerifySTRICTENC = true →
          isDefinedHashtypeSignature vchSig = true)) := by
  unfold checkSignatureEncoding
  by_cases hlen : vchSig.length = 0
  · simp only [hlen, if_true, true_or]
  -- five conditions and one result, of which only the truth values matter
  generalize hasFlag flags (_ ||| _) = fDer
  generalize hasFlag flags scriptVerifyLOW_S = fLow
  generalize hasFlag flags scriptVerifySTRICTENC = fStrict
  generalize isValidSignatureEncoding vchSig = valid
  generalize isDefinedHashtypeSignature vchSig = defined
  rcases isLowDERSignature vchSig with e | ⟨⟩ <;>
    cases fDer <;> cases fLow <;> cases fStrict <;> cases valid <;> cases defined <;>
    simp [bind, Except.bind]

theorem checkPubKeyEncoding_ok_iff (vchPubKey : Bytes) (flags : UInt32) :
    checkPubKeyEncoding vchPubKey flags = .ok () ↔ (hasFlag flags scriptVerifySTRICTENC = true →
        isCompressedOrUncompressedPubKey vchPubKey = true) := by
  unfold checkPubKeyEncoding
  generalize hasFlag flags scriptVerifySTRICTENC = fStrict
  generalize isCompressedOrUncompressedPubKey vchPubKey = ok
  cases fStrict <;> cases ok <;> simp

theorem needs_keeps (n : Nat) : Keeps id (needs n) := fun _ => Keeps.require _

theorem stacktop_keeps (i : Nat) : Keeps id (stacktop i) := by
  intro s
  rw [stacktop]
  cases s[i - 1]? <;> rfl

theorem scriptNumAt_keeps (i : Nat) (fRequireMinimal : Bool) (nMaxNumSize : Nat) :
    Keeps id (scriptNumAt i fRequireMinimal nMaxNumSize) := by
  refine (stacktop_keeps i).bind fun vch => ?_
  rcases scriptNum vch fRequireMinimal nMaxNumSize with what | n
  · exact .stop _
  · exact .pure n

section Commands

variable {F G : UInt32} (h : Milder F G) {σ : Type}

theorem Within.checked {r r' : Except ScriptError Unit} (hr : r = .ok () → r' = .ok ()) :
    Within (checked r : Command σ ScriptStop Unit) (checked r') := by
  rcases r with e | ⟨⟩
  · exact .stop _
  · rw [hr rfl]
    exact .refl _

theorem onStack_within {α : Type} {c d : StackM α} (hcd : Within c d) :
    Within (onStack c) (onStack d) :=
  .onPart hcd

/-- A check behind a flag. -/
theorem Within.flagged {fF fG bad : Bool} {e : ScriptError} (hf : fF = true → fG = true) :
    Within (demand (!(fG && bad)) e : Command σ ScriptStop Unit) (demand (!(fF && bad)) e) := by
  refine .require fun hok => ?_
  cases fF with
  | false => rfl
  | true =>
    rw [hf rfl] at hok
    exact hok

include h

theorem checkSignatureEncoding_milder {vchSig : Bytes}
    (hG : checkSignatureEncoding vchSig G = .ok ()) : checkSignatureEncoding vchSig F = .ok () := by
  rw [checkSignatureEncoding_ok_iff] at hG ⊢
  rcases hG with hlen | ⟨hder, hlow, hstrict⟩
  · exact .inl hlen
  · refine .inr ⟨fun hF => hder ?_, fun hF => hlow (h.hasFlag hF), fun hF => hstrict (h.hasFlag hF)⟩
    exact h.hasFlag hF

theorem checkEncodings_milder (vchSig vchPubKey : Bytes) :
    Within (checkEncodings G vchSig vchPubKey) (checkEncodings F vchSig vchPubKey) := by
  refine (Within.checked (checkSignatureEncoding_milder h)).bind fun _ => Within.checked ?_
  rw [checkPubKeyEncoding_ok_iff, checkPubKeyEncoding_ok_iff]
  exact fun hG hF => hG (h.hasFlag hF)

/-! ## Instructions on the stack -/

theorem scriptNumAt_milder (i nMaxNumSize : Nat) :
    Within (scriptNumAt i (hasFlag G scriptVerifyMINIMALDATA) nMaxNumSize)
      (scriptNumAt i (hasFlag F scriptVerifyMINIMALDATA) nMaxNumSize) := by
  refine .after fun vch => ?_
  unfold scriptNum
  split_ifs with hsize hG hF hF
  · exact .refl _
  · exact .refl _
  · exact .stop _
  · -- the number is minimal, or nobody asks
    rw [Bool.and_eq_true] at hF
    exact absurd (Bool.and_eq_true _ _ ▸ ⟨h.hasFlag hF.1, hF.2⟩) hG
  · exact .refl _

theorem opPick_milder (roll : Bool) : Within (opPick (hasFlag G scriptVerifyMINIMALDATA) roll)
      (opPick (hasFlag F scriptVerifyMINIMALDATA) roll) := by
  refine .after fun _ => ?_
  exact (scriptNumAt_milder h _ _).before

theorem opUnary_milder (op : UnaryOp) : Within (opUnary (hasFlag G scriptVerifyMINIMALDATA) op)
      (opUnary (hasFlag F scriptVerifyMINIMALDATA) op) := by
  refine .after fun _ => ?_
  exact (scriptNumAt_milder h _ _).before

theorem opBinary_milder (op : BinaryOp) : Within (opBinary (hasFlag G scriptVerifyMINIMALDATA) op)
      (opBinary (hasFlag F scriptVerifyMINIMALDATA) op) := by
  refine .after fun _ => ?_
  refine (scriptNumAt_milder h _ _).bind fun bn1 => ?_
  exact (scriptNumAt_milder h _ _).before

theorem opWithin_milder : Within (opWithin (hasFlag G scriptVerifyMINIMALDATA))
      (opWithin (hasFlag F scriptVerifyMINIMALDATA)) := by
  refine .after fun _ => ?_
  refine (scriptNumAt_milder h _ _).bind fun bn1 => ?_
  refine (scriptNumAt_milder h _ _).bind fun bn2 => ?_
  exact (scriptNumAt_milder h _ _).before

/-- Without the flag that discourages it, a no-operation is more permissive than any check. -/
theorem upgradableNop_milder {c : Command σ ScriptStop Unit} (hc : Keeps id c) :
    Within c (demand (!hasFlag F scriptVerifyDISCOURAGE_UPGRADABLE_NOPS)
      .discourageUpgradableNops) := by
  rw [h.upgradable]
  exact .of_keeps hc

theorem opCheckLockTimeVerify_milder (checker : SignatureChecker) :
    Within (opCheckLockTimeVerify checker G) (opCheckLockTimeVerify checker F) := by
  by_cases hF : hasFlag F scriptVerifyCHECKLOCKTIMEVERIFY = true
  · rw [opCheckLockTimeVerify, opCheckLockTimeVerify, if_pos hF, if_pos (h.hasFlag hF)]
    refine .after fun _ => ?_
    exact (scriptNumAt_milder h _ _).before
  -- the stricter instruction looks at the stack but leaves it as it is
  have hkeeps : Keeps id (opCheckLockTimeVerify checker G) := by
    refine .ite ?_ .require
    refine .bind (needs_keeps 1) fun _ => ?_
    refine .bind (scriptNumAt_keeps _ _ _) fun nLockTime => ?_
    exact Keeps.require.bind fun _ => Keeps.require
  have hmild := upgradableNop_milder h hkeeps
  rw [opCheckLockTimeVerify.eq_def checker F, if_neg hF]
  exact hmild

theorem opPushData_milder (opcode : UInt8) (value : Bytes) :
    Within (opPushData G opcode value) (opPushData F opcode value) :=
  (Within.flagged h.hasFlag).before

/-! ## Signatures -/

variable (checker : SignatureChecker)

theorem opCheckSig_milder (fVerify : Bool) :
    Within (opCheckSig checker G fVerify) (opCheckSig checker F fVerify) := by
  refine .after fun _ => ?_
  refine .after fun vchSig => ?_
  refine .after fun vchPubKey => ?_
  refine .after fun code => ?_
  exact (checkEncodings_milder h vchSig vchPubKey).before

theorem multiSigLoop_milder (scriptCode : CScript) (nKeys isig ikey nSigs : Nat) :
    Within (multiSigLoop checker G scriptCode nKeys isig ikey nSigs)
      (multiSigLoop checker F scriptCode nKeys isig ikey nSigs) := by
  induction nKeys generalizing isig ikey nSigs with
  | zero => exact .refl _
  | succ nKeys ih =>
    refine .ite (fun _ => .refl _) fun _ => ?_
    refine .after fun vchSig => ?_
    refine .after fun vchPubKey => ?_
    refine (checkEncodings_milder h vchSig vchPubKey).bind fun _ => ?_
    refine .after fun fOk => ?_
    exact .ite (fun _ => .refl _) fun _ => ih _ _ _

theorem finishMultiSig_milder (nArgs : Nat) (fVerify fSuccess : Bool) :
    Within (finishMultiSig G nArgs fVerify fSuccess) (finishMultiSig F nArgs fVerify fSuccess) := by
  refine .after fun _ => ?_
  refine .after fun _ => ?_
  have hdummy : Within (checkDummy G) (checkDummy F) :=
    Within.after fun vch => Within.flagged h.hasFlag
  exact hdummy.before

theorem readKeysCount_milder : Within (readKeysCount G) (readKeysCount F) := by
  refine .after fun _ => ?_
  exact (onStack_within (scriptNumAt_milder h _ _)).before

theorem readSigsCount_milder (nKeys : Nat) :
    Within (readSigsCount G nKeys) (readSigsCount F nKeys) := by
  refine .after fun _ => ?_
  exact (scriptNumAt_milder h _ _).before

theorem opCheckMultiSig_milder (fVerify : Bool) :
    Within (opCheckMultiSig checker G fVerify) (opCheckMultiSig checker F fVerify) := by
  refine (readKeysCount_milder h).bind fun nKeys => ?_
  refine .after fun _ => ?_
  refine (onStack_within (readSigsCount_milder h nKeys)).bind fun nSigs => ?_
  refine .after fun _ => ?_
  refine .after fun code => ?_
  refine .after fun scriptCode => ?_
  refine (multiSigLoop_milder h checker scriptCode _ _ _ _).bind fun fSuccess => ?_
  exact onStack_within (finishMultiSig_milder h _ _ _)

/-! ## Scripts -/

variable (H : ScriptHashes)

theorem evalOp_milder (fExec : Bool) (op : Op) :
    Within (evalOp H checker G fExec op) (evalOp H checker F fExec op) := by
  cases op with
  | checkLockTimeVerify => exact onStack_within (opCheckLockTimeVerify_milder h checker)
  | upgradableNop => exact upgradableNop_milder h .require
  | pick roll => exact onStack_within (opPick_milder h roll)
  | unary op => exact onStack_within (opUnary_milder h op)
  | binary op => exact onStack_within (opBinary_milder h op)
  | within => exact onStack_within (opWithin_milder h)
  | checkSig fVerify => exact opCheckSig_milder h checker fVerify
  | checkMultiSig fVerify => exact opCheckMultiSig_milder h checker fVerify
  | _ => exact .refl _

theorem evalInstruction_milder (fExec : Bool) (opcode : UInt8) (value : Bytes) :
    Within (evalInstruction H checker G fExec opcode value)
      (evalInstruction H checker F fExec opcode value) := by
  have hdispatch : Within (dispatch H checker G fExec opcode value)
      (dispatch H checker F fExec opcode value) := by
    refine .ite (fun _ => onStack_within (opPushData_milder h _ _)) fun _ => ?_
    exact .ite (fun _ => evalOp_milder h checker H fExec _) fun _ => .refl _
  refine .after fun _ => ?_
  refine .after fun _ => ?_
  refine .after fun _ => ?_
  exact hdispatch.before

theorem evalStep_milder : Within (evalStep H checker G) (evalStep H checker F) := by
  intro m a m'
  unfold evalStep
  rcases getOp m.pc with _ | ⟨opcode, value, rest⟩
  · exact id
  · exact evalInstruction_milder h checker H _ _ _ _ _ _

theorem evalLoop_milder (fuel : Nat) :
    Within (evalLoop H checker G fuel) (evalLoop H checker F fuel) := by
  induction fuel with
  | zero => exact .refl _
  | succ fuel ih =>
    intro m a m' hrun
    by_cases hpc : m.pc = []
    · rw [evalLoop_done H checker G _ hpc] at hrun
      rw [evalLoop_done H checker F _ hpc]
      exact hrun
    · rw [evalLoop_round H checker G fuel hpc] at hrun
      rw [evalLoop_round H checker F fuel hpc]
      exact (evalStep_milder h checker H).bind (fun _ => ih) _ _ _ hrun

theorem evalScript_milder (stack : List Bytes) (script : CScript) :
    Within (evalScript H checker G stack script) (evalScript H checker F stack script) := by
  intro calls stack' calls' hrun
  have hbody : Within (evalBody H checker G script) (evalBody H checker F script) :=
    (evalLoop_milder h checker H _).before
  unfold evalScript at hrun ⊢
  split_ifs at hrun ⊢ with hsize
  · exact hrun
  rcases hG : evalBody H checker G script (Machine.start script stack calls) with ⟨e | u, m⟩
  · rw [hG] at hrun
    cases hrun
  · rw [hG] at hrun
    rw [hbody _ _ _ hG]
    exact hrun

theorem verifyP2SH_milder (scriptSig : CScript) (stackCopy : List Bytes) :
    Within (verifyP2SH H checker G scriptSig stackCopy)
      (verifyP2SH H checker F scriptSig stackCopy) := by
  refine .after fun _ => ?_
  rcases stackCopy with _ | ⟨pubKeySerialized, rest⟩
  · exact .refl _
  · exact (evalScript_milder h checker H _ _).before

/-- The script of a script hash is looked at only under the flag for it. -/
theorem verifyScript_milder {scriptSig scriptPubKey : CScript} {calls calls' : Nat}
    (hG : verifyScript H checker G scriptSig scriptPubKey calls = (.ok (), calls')) :
    ∃ n, verifyScript H checker F scriptSig scriptPubKey calls = (.ok (), n) := by
  obtain ⟨⟨⟩, n1, hpush, hG⟩ := Command.bind_eq_ok hG
  obtain ⟨stackCopy, n2, hsig, hG⟩ := Command.bind_eq_ok hG
  obtain ⟨stack, n3, hpub, hG⟩ := Command.bind_eq_ok hG
  obtain ⟨⟨⟩, n4, hverdict, hG⟩ := Command.bind_eq_ok hG
  have hpushF : demand (!(hasFlag F scriptVerifySIGPUSHONLY && !isPushOnly scriptSig))
      .sigPushOnly calls = (.ok (), n1) := Within.flagged h.hasFlag _ _ _ hpush
  unfold verifyScript
  rw [bind_of_ok hpushF, bind_of_ok (evalScript_milder h checker H _ _ _ _ _ hsig),
    bind_of_ok (evalScript_milder h checker H _ _ _ _ _ hpub), bind_of_ok hverdict]
  by_cases hp2sh : (hasFlag F scriptVerifyP2SH && isPayToScriptHash scriptPubKey) = true
  · have hp2shG : (hasFlag G scriptVerifyP2SH && isPayToScriptHash scriptPubKey) = true := by
      rw [Bool.and_eq_true] at hp2sh ⊢
      exact ⟨h.hasFlag hp2sh.1, hp2sh.2⟩
    rw [if_pos hp2shG] at hG
    rw [if_pos hp2sh]
    exact ⟨_, verifyP2SH_milder h checker H _ _ _ _ _ hG⟩
  · rw [if_neg hp2sh]
    exact ⟨_, rfl⟩

end Commands

/-! ## The flag sets in use -/

theorem mandatory_milder : Milder mandatoryScriptVerifyFlags standardScriptVerifyFlags :=
  ⟨by decide, by decide⟩

theorem connectFlags_milder (P : ChainParams) (block : CBlockHeader) (pindex : CBlockIndex)
    (pprev : List CBlockIndex) :
    Milder (connectFlags P block pindex pprev) standardScriptVerifyFlags := by
  unfold connectFlags
  split_ifs <;> exact ⟨by decide, by decide⟩

/-- **`verifyScript_monotone`** — whatever passes under more flags passes under fewer. What is
accepted under the standard flags is accepted under the mandatory ones and under those of every
block. -/
theorem verifyScript_monotone (H : ScriptHashes) (checker : SignatureChecker)
    (scriptSig scriptPubKey : CScript) :
    (∀ F G : UInt32, F &&& G = F → hasFlag F scriptVerifyDISCOURAGE_UPGRADABLE_NOPS = false →
      verifies H checker G scriptSig scriptPubKey = true →
      verifies H checker F scriptSig scriptPubKey = true) ∧
    (verifies H checker standardScriptVerifyFlags scriptSig scriptPubKey = true →
      verifies H checker mandatoryScriptVerifyFlags scriptSig scriptPubKey = true ∧
      ∀ P block pindex pprev,
        verifies H checker (connectFlags P block pindex pprev) scriptSig scriptPubKey = true) := by
  have hmono {F G : UInt32} (h : Milder F G)
      (hG : verifies H checker G scriptSig scriptPubKey = true) :
      verifies H checker F scriptSig scriptPubKey = true := by
    obtain ⟨n, hn⟩ := (verifies_iff H checker _).mp hG
    exact (verifies_iff H checker _).mpr (verifyScript_milder h checker H hn)
  refine ⟨fun F G hsub hnops => hmono ⟨hsub, hnops⟩, fun hstd => ⟨hmono mandatory_milder hstd, ?_⟩⟩
  exact fun P block pindex pprev => hmono (connectFlags_milder P block pindex pprev) hstd

/-- No signature is good, and every lock time is reached. -/
def anyTime : SignatureChecker := ⟨fun _ _ _ => false, fun _ => true⟩

/-- The script `OP_1 OP_CHECKLOCKTIMEVERIFY`, pushed for its hash. The standard flags look at the
pushes, at the script behind the hash and at its lock time; the mandatory ones at the script only,
and without any flag the hash is enough. -/
theorem verifyScript_monotone_lockTime :
    let scriptPubKey := [0xa9, 0x14] ++ List.replicate 20 0 ++ [0x87]
    verifies zeroHashes anyTime standardScriptVerifyFlags [0x02, 0x51, 0xb1] scriptPubKey = true ∧
      verifies zeroHashes anyTime scriptVerifyNone [0x02, 0x51, 0xb1] scriptPubKey = true ∧
      verifies zeroHashes anyTime mandatoryScriptVerifyFlags [0x02, 0x51, 0xb1] scriptPubKey =
        true := by
  intro scriptPubKey
  have hstd : verifies zeroHashes anyTime standardScriptVerifyFlags [0x02, 0x51, 0xb1]
      scriptPubKey = true := by decide +kernel
  have hmono := verifyScript_monotone zeroHashes anyTime [0x02, 0x51, 0xb1] scriptPubKey
  exact ⟨hstd, hmono.1 scriptVerifyNone _ (by decide) (by decide) hstd, (hmono.2 hstd).1⟩

/-- The flag left out above: the larger set enables the instruction that it discourages. -/
example :
    verifies zeroHashes anyTime (scriptVerifyDISCOURAGE_UPGRADABLE_NOPS |||
        scriptVerifyCHECKLOCKTIMEVERIFY) [] [0x51, 0xb1] = true ∧
      verifies zeroHashes anyTime scriptVerifyDISCOURAGE_UPGRADABLE_NOPS [] [0x51, 0xb1] =
        false := by
  decide

end MonetaryUnit
