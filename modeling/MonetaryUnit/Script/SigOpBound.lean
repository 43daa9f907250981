/-
# MonetaryUnit.Script.SigOpBound — the static count bounds the signature checks

`GetSigOpCount` looks at a script once, from the front, and never runs it. A run makes no more calls
to `CheckSig` than the count announces: the program counter goes over the same instructions, and
where the count trusts the number in front of a `CHECKMULTISIG` that number is on top of the stack
when the instruction is reached.

The scripts of the outputs a transaction spends are counted where the outputs are created, so its
checks are bounded by the two counts together and not by its own.
-/

import MonetaryUnit.Script.Safety
import MonetaryUnit.Validation.CheckBlock

namespace MonetaryUnit

open Lib Lib.Command List Machine Prod Nat

/-! ## The count of the rest of a script -/

/-- What is counted from `pc` on, after `lastOpcode`. -/
def sigOpsFrom (fAccurate : Bool) (pc : CScript) (lastOpcode : UInt8) : Nat :=
  sigOpLoop fAccurate pc.length pc lastOpcode 0

theorem sigOpLoop_add (fAccurate : Bool) (fuel : Nat) (pc : CScript) (last : UInt8) (n : Nat) :
    sigOpLoop fAccurate fuel pc last n = n + sigOpLoop fAccurate fuel pc last 0 := by
  induction fuel generalizing pc last n with
  | zero => rfl
  | succ fuel ih =>
    unfold sigOpLoop
    rcases getOp pc with _ | ⟨opcode, v, rest⟩
    · rfl
    · show sigOpLoop fAccurate fuel rest opcode _ = n + sigOpLoop fAccurate fuel rest opcode _
      rw [ih, ih rest opcode (0 + _)]
      omega

theorem sigOpLoop_fuel (fAccurate : Bool) {fuel fuel' : Nat} {pc : CScript} (last : UInt8)
    (n : Nat) (h : pc.length ≤ fuel) (h' : pc.length ≤ fuel') :
    sigOpLoop fAccurate fuel pc last n = sigOpLoop fAccurate fuel' pc last n := by
  induction fuel generalizing fuel' pc last n with
  | zero =>
    obtain rfl := length_eq_zero_iff.mp (le_zero.mp h)
    cases fuel' <;> rfl
  | succ fuel ih =>
    cases fuel' with
    | zero =>
      obtain rfl := length_eq_zero_iff.mp (le_zero.mp h')
      rfl
    | succ fuel' =>
      unfold sigOpLoop
      rcases hop : getOp pc with _ | ⟨opcode, v, rest⟩
      · rfl
      · have hlt := getOp_length_lt hop
        exact ih opcode _ (by omega) (by omega)

theorem sigOpsFrom_step {fAccurate : Bool} {pc rest : CScript} {opcode last : UInt8} {v : Bytes}
    (h : getOp pc = some (opcode, v, rest)) :
    sigOpsFrom fAccurate pc last =
      sigOpsOf fAccurate last opcode + sigOpsFrom fAccurate rest opcode := by
  have hlt := getOp_length_lt h
  obtain ⟨k, hk⟩ : ∃ k, pc.length = k + 1 := ⟨pc.length - 1, by omega⟩
  rw [sigOpsFrom, hk, sigOpLoop, h]
  show sigOpLoop fAccurate k rest opcode _ = _
  rw [sigOpLoop_add, zero_add, sigOpsFrom,
    sigOpLoop_fuel fAccurate opcode 0 (show rest.length ≤ k by omega) le_rfl]

theorem sigOpsOf_accurate_le (last opcode : UInt8) :
    sigOpsOf true last opcode ≤ sigOpsOf false last opcode := by
  unfold sigOpsOf
  by_cases hone : opcode = 0xac ∨ opcode = 0xad
  · rw [if_pos hone, if_pos hone]
  by_cases hmulti : opcode = 0xae ∨ opcode = 0xaf
  · simp only [Bool.false_eq_true, false_and, if_false]
    split_ifs with hnum
    · have hle : last.toNat ≤ 0x60 := UInt8.le_iff_toNat_le.mp hnum.2.2
      omega
    · exact le_rfl
  · rw [if_neg hmulti, if_neg hmulti]

theorem sigOpLoop_accurate_le (fuel : Nat) (pc : CScript) (last : UInt8) {n n' : Nat}
    (h : n ≤ n') : sigOpLoop true fuel pc last n ≤ sigOpLoop false fuel pc last n' := by
  induction fuel generalizing pc last n n' with
  | zero => exact h
  | succ fuel ih =>
    unfold sigOpLoop
    rcases getOp pc with _ | ⟨opcode, v, rest⟩
    · exact h
    · exact ih rest opcode (Nat.add_le_add h (sigOpsOf_accurate_le last opcode))

theorem getSigOpCount_accurate_le (script : CScript) :
    getSigOpCount script true ≤ getSigOpCount script false :=
  sigOpLoop_accurate_le _ _ _ le_rfl

/-! ## One instruction -/

section Instruction

variable (H : ScriptHashes) (checker : SignatureChecker) (flags : UInt32)

theorem offStacks_checkSigCalls : OffStacks checkSigCalls :=
  ⟨fun _ _ => rfl, fun _ _ => rfl, fun _ _ => rfl⟩

theorem onStack_calls {α : Type} (c : StackM α) : Keeps checkSigCalls (onStack c) :=
  onStack_keeps offStacks_checkSigCalls.stack c

theorem callCheckSig_grows (vchSig vchPubKey : Bytes) (scriptCode : CScript) :
    Grows checkSigCalls (callCheckSig checker vchSig vchPubKey scriptCode) 1 :=
  fun _ => le_rfl

theorem opCheckSig_grows (fVerify : Bool) :
    Grows checkSigCalls (opCheckSig checker flags fVerify) 1 := by
  refine (onStack_calls _).bind_grows fun _ => ?_
  refine (onStack_calls _).bind_grows fun vchSig => ?_
  refine (onStack_calls _).bind_grows fun vchPubKey => ?_
  refine Keeps.bind_grows (fun _ => rfl) fun code => ?_
  refine (checkEncodings_keeps flags _ _).bind_grows fun _ => ?_
  exact (callCheckSig_grows checker _ _ _).bind_keeps fun fSuccess => onStack_calls _

/-- A round of the loop uses up a key. -/
theorem multiSigLoop_grows (scriptCode : CScript) (nKeys isig ikey nSigs : Nat) :
    Grows checkSigCalls (multiSigLoop checker flags scriptCode nKeys isig ikey nSigs)
      nKeys := by
  induction nKeys generalizing isig ikey nSigs with
  | zero => exact (Keeps.ite (Keeps.pure _) (Keeps.stop _)).grows
  | succ nKeys ih =>
    refine Grows.ite (Keeps.pure _).grows ?_
    refine (onStack_calls _).bind_grows fun vchSig => ?_
    refine (onStack_calls _).bind_grows fun vchPubKey => ?_
    refine (checkEncodings_keeps flags _ _).bind_grows fun _ => ?_
    rw [add_comm nKeys 1]
    refine (callCheckSig_grows checker _ _ _).bind fun fOk => ?_
    exact Grows.ite (Keeps.pure _).grows (ih _ _ _)

variable {m m' : Machine} {last opcode : UInt8} {v rest : Bytes}

/-- The number of keys bounds the calls of a `CHECKMULTISIG`. -/
theorem opCheckMultiSig_calls (fVerify : Bool) {bound : Nat}
    (h : ∀ n m', readKeysCount flags m = (.ok n, m') → n ≤ bound) :
    (opCheckMultiSig checker flags fVerify m).2.checkSigCalls ≤ m.checkSigCalls + bound := by
  have hkeeps := readKeysCount_keeps flags offStacks_checkSigCalls.stack m
  rcases hrun : readKeysCount flags m with ⟨e | nKeys, m'⟩
  · rw [opCheckMultiSig, bind_of_error hrun]
    rw [hrun] at hkeeps
    exact hkeeps.le.trans (le_add_right _ _)
  rw [opCheckMultiSig, bind_of_ok hrun]
  rw [hrun] at hkeeps
  have hle : m'.checkSigCalls + nKeys ≤ m.checkSigCalls + bound :=
    Nat.add_le_add hkeeps.le (h nKeys m' hrun)
  refine le_trans ((?_ : Grows checkSigCalls _ nKeys) m') hle
  refine (countOps_keeps (fun _ _ => rfl) nKeys).bind_grows fun _ => ?_
  refine (onStack_calls _).bind_grows fun nSigs => ?_
  refine (onStack_calls _).bind_grows fun _ => ?_
  refine Keeps.bind_grows (fun _ => rfl) fun code => ?_
  refine (onStack_calls _).bind_grows fun scriptCode => ?_
  exact (multiSigLoop_grows checker flags _ _ _ _ _).bind_keeps fun fSuccess => onStack_calls _

/-! ## The announced number of keys -/

/-- After `OP_1` to `OP_16` the number is on top of the stack, if the script is executing. -/
def Announced (last : UInt8) (m : Machine) : Prop := 0x51 ≤ last → last ≤ 0x60 → m.fExec = true →
    ∃ rest, m.stack = scriptNumSerialize ((last.toNat : Int) - 0x50) :: rest

/-- The small numbers decode to themselves. -/
theorem scriptNum_announced (hlow : 0x51 ≤ last) (hhigh : last ≤ 0x60) (fRequireMinimal : Bool) :
    scriptNum (scriptNumSerialize ((last.toNat : Int) - 0x50)) fRequireMinimal
      nDefaultMaxNumSize = .ok ((last.toNat : Int) - 0x50) := by
  have hall : ∀ n ∈ range 16, ∀ fMinimal : Bool,
      scriptNum (scriptNumSerialize ((n + 0x51 : Nat) - 0x50)) fMinimal nDefaultMaxNumSize =
        .ok ((n + 0x51 : Nat) - 0x50) := by decide
  have hl : 0x51 ≤ last.toNat := UInt8.le_iff_toNat_le.mp hlow
  have hh : last.toNat ≤ 0x60 := UInt8.le_iff_toNat_le.mp hhigh
  obtain ⟨n, hn⟩ : ∃ n, last.toNat = n + 0x51 := ⟨last.toNat - 0x51, by omega⟩
  rw [hn]
  exact hall n (mem_range.mpr (by omega)) fRequireMinimal

theorem scriptNumAt_eq_ok {i nMaxNumSize : Nat} {fRequireMinimal : Bool} {s s' : List Bytes}
    {bn : Int} (h : scriptNumAt i fRequireMinimal nMaxNumSize s = (.ok bn, s')) :
    ∃ vch, s[i - 1]? = some vch ∧ scriptNum vch fRequireMinimal nMaxNumSize = .ok bn := by
  obtain ⟨vch, t, htop, h⟩ := Command.bind_eq_ok h
  refine ⟨vch, ?_, ?_⟩
  · rw [stacktop] at htop
    rcases hget : s[i - 1]? with _ | w <;> rw [hget] at htop
    · cases htop
    · exact congrArg some (by simpa using (mk.inj htop).1)
  · rcases hnum : scriptNum vch fRequireMinimal nMaxNumSize with what | n <;> rw [hnum] at h
    · cases h
    · exact congrArg Except.ok (by simpa using (mk.inj h).1)

theorem readKeysCount_eq_ok {n : Nat} (h : readKeysCount flags m = (.ok n, m')) :
    n ≤ 20 ∧ ∃ top bn, m.stack.head? = some top ∧ n = (getint bn).toNat ∧
      scriptNum top (hasFlag flags scriptVerifyMINIMALDATA) nDefaultMaxNumSize = .ok bn := by
  obtain ⟨⟨⟩, m1, hneeds, h⟩ := Command.bind_eq_ok h
  obtain ⟨bn, m2, hnum, h⟩ := Command.bind_eq_ok h
  obtain ⟨⟨⟩, m3, hrange, hret⟩ := Command.bind_eq_ok h
  obtain ⟨hrange, -⟩ := require_eq_ok hrange
  obtain rfl : (getint bn).toNat = n := by simpa using (mk.inj hret).1
  simp only [Bool.not_eq_true', Bool.or_eq_false_iff, decide_eq_false_iff_not] at hrange
  obtain ⟨s1, hsize, rfl⟩ := onPart_eq hneeds
  obtain ⟨-, rfl⟩ := require_eq_ok hsize
  obtain ⟨s2, hdecode, -⟩ := onPart_eq hnum
  obtain ⟨top, htop, hdecode⟩ := scriptNumAt_eq_ok hdecode
  exact ⟨by omega, top, bn, head?_eq_getElem? ▸ htop, rfl, hdecode⟩

/-- A `CHECKMULTISIG` that is executed makes no more calls than it was counted with. -/
theorem opCheckMultiSig_counted (fVerify : Bool) (hop : opcode = 0xae ∨ opcode = 0xaf)
    (hexec : m.fExec = true) (hlast : Announced last m) :
    (opCheckMultiSig checker flags fVerify m).2.checkSigCalls ≤
      m.checkSigCalls + sigOpsOf true last opcode := by
  refine opCheckMultiSig_calls checker flags fVerify fun n m' hread => ?_
  obtain ⟨hle, top, bn, htop, rfl, hnum⟩ := readKeysCount_eq_ok flags hread
  rw [sigOpsOf, if_neg (by rcases hop with rfl | rfl <;> decide)]
  split_ifs with hannounced
  · obtain ⟨-, hlow, hhigh⟩ := hannounced
    obtain ⟨rest, hstack⟩ := hlast hlow hhigh hexec
    rw [hstack, head?_cons, Option.some.injEq] at htop
    rw [← htop, scriptNum_announced hlow hhigh, Except.ok.injEq] at hnum
    rw [getint]
    omega
  · exact hle

/-! ## Opcodes -/

theorem mem_opTable_of_signing (h : (decodeOp opcode).signing = true) :
    (opcode, decodeOp opcode) ∈ opTable := by
  unfold decodeOp at h ⊢
  split_ifs at h ⊢ with hnum
  · cases h
  · rcases hlook : opTable.lookup opcode with _ | op
    · rw [hlook] at h
      cases h
    · obtain ⟨front, back, htable, -⟩ := lookup_eq_some_iff.mp hlook
      rw [htable]
      exact mem_append_right _ mem_cons_self

theorem signing_opcode (h : (decodeOp opcode).signing = true) : 0xab ≤ opcode := by
  have hall : ∀ p ∈ opTable, p.2.signing = true → 0xab ≤ p.1 := by decide
  exact hall _ (mem_opTable_of_signing h) h

theorem opcode_of_checkSig {fVerify : Bool} (h : decodeOp opcode = .checkSig fVerify) :
    opcode = 0xac ∨ opcode = 0xad := by
  have hall : ∀ p ∈ opTable, ∀ f, p.2 = .checkSig f → p.1 = 0xac ∨ p.1 = 0xad := by decide
  exact hall _ (mem_opTable_of_signing (by rw [h]; rfl)) fVerify h

theorem opcode_of_checkMultiSig {fVerify : Bool} (h : decodeOp opcode = .checkMultiSig fVerify) :
    opcode = 0xae ∨ opcode = 0xaf := by
  have hall : ∀ p ∈ opTable, ∀ f, p.2 = .checkMultiSig f → p.1 = 0xae ∨ p.1 = 0xaf := by decide
  exact hall _ (mem_opTable_of_signing (by rw [h]; rfl)) fVerify h

theorem evalOp_counted (hexec : m.fExec = true) (hlast : Announced last m) :
    (evalOp H checker flags true (decodeOp opcode) m).2.checkSigCalls ≤
      m.checkSigCalls + sigOpsOf true last opcode := by
  cases hsign : (decodeOp opcode).signing with
  | false =>
    have hkeeps := evalOp_keeps_of_not_signing offStacks_checkSigCalls H checker flags true hsign
    exact hkeeps.grows m
  | true =>
    cases hop : decodeOp opcode with
    | codeSeparator => exact le_add_right _ _
    | checkSig fVerify =>
      rw [sigOpsOf, if_pos (opcode_of_checkSig hop)]
      exact opCheckSig_grows checker flags fVerify m
    | checkMultiSig fVerify =>
      exact opCheckMultiSig_counted checker flags fVerify (opcode_of_checkMultiSig hop) hexec hlast
    | _ =>
      rw [hop] at hsign
      cases hsign

theorem dispatch_counted (v : Bytes) (hlast : Announced last m) :
    (dispatch H checker flags m.fExec opcode v m).2.checkSigCalls ≤
      m.checkSigCalls + sigOpsOf true last opcode := by
  cases hexec : m.fExec with
  | true =>
    unfold dispatch
    split_ifs with hpush
    · exact (onStack_calls _).grows m
    · exact evalOp_counted H checker flags hexec hlast
    · exact le_add_right _ _
  | false =>
    -- of the instructions that are not executed only the conditionals are looked at
    unfold dispatch
    simp only [Bool.false_and, Bool.false_or, Bool.false_eq_true, if_false]
    split_ifs with hcond
    · have hsign : (decodeOp opcode).signing = false := by
        rw [Bool.eq_false_iff]
        intro hsign
        have hlow := UInt8.le_iff_toNat_le.mp (signing_opcode hsign)
        rw [Bool.and_eq_true, decide_eq_true_iff, decide_eq_true_iff] at hcond
        have hhigh := UInt8.le_iff_toNat_le.mp hcond.2
        have : (0xab : UInt8).toNat ≤ (0x68 : UInt8).toNat := hlow.trans hhigh
        exact absurd this (by decide)
      have hkeeps := evalOp_keeps_of_not_signing offStacks_checkSigCalls H checker flags false hsign
      exact hkeeps.grows m
    · exact le_add_right _ _

/-- What the steps before an instruction do not touch. -/
structure Ready (fExec : Bool) (last : UInt8) (calls : Nat) (m : Machine) : Prop where
  fExec_eq : m.fExec = fExec
  announced : Announced last m
  calls_eq : m.checkSigCalls = calls

theorem evalInstruction_counted {fExec : Bool} {calls : Nat} (v : Bytes) :
    Ensures (evalInstruction H checker flags fExec opcode v) (Ready fExec last calls)
      (fun _ m => m.checkSigCalls ≤ calls + sigOpsOf true last opcode)
      fun _ m => m.checkSigCalls ≤ calls + sigOpsOf true last opcode := by
  have hdemand {ok : Bool} {e : ScriptError} : Ensures (demand ok e : MachineM Unit)
      (Ready fExec last calls) (fun _ => Ready fExec last calls)
      fun _ m => m.checkSigCalls ≤ calls + sigOpsOf true last opcode :=
    .require (fun _ _ hm => hm) fun _ m hm => hm.calls_eq.le.trans (le_add_right _ _)
  have hcount : Ensures (countOpcode opcode) (Ready fExec last calls)
      (fun _ => Ready fExec last calls)
      fun _ m => m.checkSigCalls ≤ calls + sigOpsOf true last opcode := by
    refine .ite (fun _ => ?_) fun _ => .pure fun _ hm => hm
    refine .bind (.update fun m hm => ?_) fun _ m hm => hdemand m hm
    exact { hm with }
  refine hdemand.bind fun _ => hcount.bind fun _ => hdemand.bind fun _ => ?_
  refine .bind (Q := fun _ m => m.checkSigCalls ≤ calls + sigOpsOf true last opcode)
    (fun m hm => Result.of_state ?_) fun _ m hm => ?_
  · have hle := @dispatch_counted H checker flags m last opcode v hm.announced
    rw [hm.fExec_eq, hm.calls_eq] at hle
    exact hle
  · exact Result.of_state ((Keeps.require (f := checkSigCalls) m).le.trans hm)

/-- One round makes no more calls than its instruction counts. -/
theorem evalStep_counted (hop : getOp m.pc = some (opcode, v, rest)) (hlast : Announced last m) :
    (evalStep H checker flags m).2.checkSigCalls ≤ m.checkSigCalls + sigOpsOf true last opcode := by
  rw [evalStep, hop]
  exact (evalInstruction_counted H checker flags v { m with pc := rest } ⟨rfl, hlast, rfl⟩).state

/-- The opcodes that push a number of their own. -/
def PushesNumber (opcode : UInt8) : Prop := opcode = 0x4f ∨ (0x51 ≤ opcode ∧ opcode ≤ 0x60)

theorem PushesNumber.range (h : PushesNumber opcode) :
    0x4f ≤ opcode.toNat ∧ opcode.toNat ≤ 0x60 := by
  rcases h with rfl | ⟨hlow, hhigh⟩
  · decide
  · have hl : 0x51 ≤ opcode.toNat := UInt8.le_iff_toNat_le.mp hlow
    have hh : opcode.toNat ≤ 0x60 := UInt8.le_iff_toNat_le.mp hhigh
    omega

theorem dispatch_number (h : PushesNumber opcode) (v : Bytes) :
    dispatch H checker flags true opcode v =
      onStack (pushNumber ((opcode.toNat : Int) - 0x50)) := by
  have hpush : ¬(opcode ≤ 0x4e) := by
    exact Nat.not_le.mpr h.range.1
  have hdecode : decodeOp opcode = .pushNumber ((opcode.toNat : Int) - 0x50) := if_pos h
  rw [dispatch, decide_eq_false hpush, hdecode]
  rfl

theorem dispatch_push (h : opcode ≤ 0x4e) (v : Bytes) :
    dispatch H checker flags true opcode v = onStack (opPushData flags opcode v) :=
  if_pos (decide_eq_true h)

theorem dispatch_number_skipped (h : PushesNumber opcode) (v : Bytes) :
    dispatch H checker flags false opcode v = pure () := by
  have hcond : ¬(0x63 ≤ opcode) := by
    exact not_le.mpr (lt_of_le_of_lt h.range.2 (by decide))
  rw [dispatch, Bool.false_and, if_neg (by decide), decide_eq_false hcond, Bool.false_and,
    if_neg (by decide)]

theorem countOpcode_number (h : opcode.toNat ≤ 0x60) : countOpcode opcode = pure () := by
  rw [countOpcode, if_neg]
  exact not_lt.mpr h

/-- The number a small opcode pushes is where the count expects it. -/
theorem evalStep_announced (hop : getOp m.pc = some (opcode, v, rest))
    (hrun : evalStep H checker flags m = (.ok (), m')) : Announced opcode m' := by
  intro hlow hhigh hexec'
  have hnum : PushesNumber opcode := .inr ⟨hlow, hhigh⟩
  rw [evalStep, hop] at hrun
  obtain ⟨m1, hcount, hdispatch⟩ := evalInstruction_eq_ok H checker flags hrun
  rw [countOpcode_number hnum.range.2] at hcount
  obtain rfl := (mk.inj hcount).2
  cases hexec : m.fExec with
  | true =>
    rw [hexec, dispatch_number H checker flags hnum] at hdispatch
    obtain ⟨s', hpush, rfl⟩ := onPart_eq hdispatch
    exact ⟨m.stack, (mk.inj hpush).2.symm⟩
  | false =>
    rw [hexec, dispatch_number_skipped H checker flags hnum] at hdispatch
    obtain rfl := (mk.inj hdispatch).2
    rw [show fExec { m with pc := rest } = m.fExec from rfl, hexec] at hexec'
    cases hexec'

/-! ## Whole scripts -/

theorem evalLoop_counted (fuel : Nat) (hlast : Announced last m) :
    (evalLoop H checker flags fuel m).2.checkSigCalls ≤
      m.checkSigCalls + sigOpsFrom true m.pc last := by
  induction fuel generalizing last m with
  | zero =>
    unfold evalLoop
    split_ifs <;> exact le_add_right _ _
  | succ fuel ih =>
    by_cases hpc : m.pc = []
    · rw [evalLoop_done H checker flags _ hpc]
      exact le_add_right _ _
    rw [evalLoop_round H checker flags fuel hpc]
    rcases hop : getOp m.pc with _ | ⟨opcode, v, rest⟩
    · have hfail : evalStep H checker flags m = (.error (.error .badOpcode), m) := by
        rw [evalStep, hop]
        rfl
      rw [bind_of_error hfail]
      exact le_add_right _ _
    have hstep := evalStep_counted H checker flags hop hlast
    have hnext := evalStep_pc H checker flags hop
    rw [sigOpsFrom_step hop]
    rcases hrun : evalStep H checker flags m with ⟨e | ⟨⟩, m'⟩ <;> rw [hrun] at hstep hnext
    · rw [bind_of_error hrun]
      exact hstep.trans (by omega)
    · rw [bind_of_ok hrun]
      have hrest := ih (evalStep_announced H checker flags hop hrun)
      have hpc' : m'.pc = rest := hnext
      rw [hpc'] at hrest
      dsimp only at hstep
      omega

/-- A script makes at most as many calls as it counts. -/
theorem evalScript_counted (stack : List Bytes) (script : CScript) :
    Grows id (evalScript H checker flags stack script) (getSigOpCount script true) := by
  intro calls
  unfold evalScript
  split_ifs
  · exact le_add_right _ _
  have hloop := evalLoop_counted H checker flags script.length
    (show Announced 0xff (start script stack calls) from
      fun _ hhigh => absurd hhigh (by decide))
  have hkeeps : Keeps checkSigCalls checkBalanced := fun _ => Keeps.require _
  have hbody : (evalBody H checker flags script (start script stack calls)).2.checkSigCalls ≤
        calls + getSigOpCount script true := by
    rw [evalBody, bind_apply]
    rcases hrun : evalLoop H checker flags script.length (start script stack calls) with
      ⟨e | ⟨⟩, m⟩ <;> rw [hrun] at hloop
    · exact hloop
    · exact (hkeeps m).le.trans hloop
  rcases hrun : evalBody H checker flags script (start script stack calls) with
    ⟨e | ⟨⟩, m⟩ <;> rw [hrun] at hbody <;> exact hbody

/-! ## The script of a script hash -/

/-- What is on top of the stack counts no more than the last item that was pushed. -/
def TopCounted (stack : List Bytes) (data : Bytes) : Prop :=
  ∀ top rest, stack = top :: rest → getSigOpCount top true ≤ getSigOpCount data true

/-- A number is no script with signature checks. -/
theorem getSigOpCount_number (h : PushesNumber opcode) :
    getSigOpCount (scriptNumSerialize ((opcode.toNat : Int) - 0x50)) true = 0 := by
  have hall : ∀ n ∈ range 18,
      getSigOpCount (scriptNumSerialize ((n + 0x4f : Nat) - 0x50)) true = 0 := by decide
  obtain ⟨hl, hh⟩ := h.range
  obtain ⟨n, hn⟩ : ∃ n, opcode.toNat = n + 0x4f := ⟨opcode.toNat - 0x4f, by omega⟩
  rw [hn]
  exact hall n (mem_range.mpr (by omega))

theorem pushOpcode_cases (h : ¬(0x60 < opcode)) :
    opcode ≤ 0x4e ∨ opcode = 0x50 ∨ PushesNumber opcode := by
  have hh : opcode.toNat ≤ 0x60 := not_lt.mp fun hlt => h (UInt8.lt_iff_toNat_lt.mpr hlt)
  rcases lt_or_ge opcode.toNat 0x4f with hlt | hge
  · exact .inl (UInt8.le_iff_toNat_le.mpr (le_of_lt_succ hlt))
  rcases lt_or_ge opcode.toNat 0x51 with hlt | hge'
  · rcases (by omega : opcode.toNat = 0x4f ∨ opcode.toNat = 0x50) with heq | heq
    · exact .inr (.inr (.inl (UInt8.toNat_inj.mp heq)))
    · exact .inr (.inl (UInt8.toNat_inj.mp heq))
  · exact .inr (.inr (.inr ⟨UInt8.le_iff_toNat_le.mpr hge', UInt8.le_iff_toNat_le.mpr hh⟩))

/-- A push puts its data on the stack, a small number something that counts for nothing. -/
theorem evalStep_push (hop : getOp m.pc = some (opcode, v, rest)) (hpush : ¬(0x60 < opcode))
    (hvf : m.vfExec = []) (hrun : evalStep H checker flags m = (.ok (), m')) :
    m'.pc = rest ∧ m'.vfExec = [] ∧ TopCounted m'.stack v := by
  have hexec : m.fExec = true := by
    rw [fExec, hvf]
    rfl
  rw [evalStep, hop] at hrun
  obtain ⟨m1, hcount, hdispatch⟩ := evalInstruction_eq_ok H checker flags hrun
  rw [countOpcode, if_neg hpush] at hcount
  obtain rfl := (mk.inj hcount).2
  rw [hexec] at hdispatch
  rcases pushOpcode_cases hpush with hdata | rfl | hnum
  · rw [dispatch_push H checker flags hdata] at hdispatch
    obtain ⟨s', hdata, rfl⟩ := onPart_eq hdispatch
    obtain ⟨⟨⟩, s1, hmin, hdata⟩ := Command.bind_eq_ok hdata
    obtain ⟨-, rfl⟩ := require_eq_ok hmin
    obtain rfl := (mk.inj hdata).2
    refine ⟨rfl, hvf, fun top rest' htop => ?_⟩
    rw [(cons.inj htop).1]
  · cases hdispatch
  · rw [dispatch_number H checker flags hnum] at hdispatch
    obtain ⟨s', hnumber, rfl⟩ := onPart_eq hdispatch
    obtain rfl := (mk.inj hnumber).2
    refine ⟨rfl, hvf, fun top rest' htop => ?_⟩
    rw [← (cons.inj htop).1, getSigOpCount_number hnum]
    exact zero_le _

/-- The scan for the last push and the run go over the same instructions. -/
theorem evalLoop_pushes (fuel : Nat) {data : Bytes} (hlen : m.pc.length ≤ fuel)
    (hpush : isPushOnlyLoop fuel m.pc = true) (hvf : m.vfExec = []) (htop : TopCounted m.stack data)
    (hrun : evalLoop H checker flags fuel m = (.ok (), m')) :
    ∃ data', lastPush (fuel + 1) m.pc data = some data' ∧ TopCounted m'.stack data' := by
  induction fuel generalizing m data with
  | zero =>
    have hpc : m.pc = [] := length_eq_zero_iff.mp (le_zero.mp hlen)
    rw [evalLoop_done H checker flags _ hpc] at hrun
    obtain rfl := (mk.inj hrun).2
    exact ⟨data, by rw [hpc]; rfl, htop⟩
  | succ fuel ih =>
    by_cases hpc : m.pc = []
    · rw [evalLoop_done H checker flags _ hpc] at hrun
      obtain rfl := (mk.inj hrun).2
      exact ⟨data, by rw [hpc]; rfl, htop⟩
    have hne : ¬(m.pc.isEmpty = true) := by simpa using hpc
    rw [isPushOnlyLoop, if_neg hne] at hpush
    rw [lastPush]
    rcases hop : getOp m.pc with _ | ⟨opcode, v, rest⟩ <;> rw [hop] at hpush
    · cases hpush
    · dsimp only at hpush ⊢
      split_ifs at hpush ⊢ with hhigh
      rw [evalLoop_round H checker flags fuel hpc] at hrun
      obtain ⟨⟨⟩, m1, hstep, hrest⟩ := Command.bind_eq_ok hrun
      obtain ⟨rfl, hvf', htop'⟩ := evalStep_push H checker flags hop hhigh hvf hstep
      have hlt := getOp_length_lt hop
      exact ih (by omega) hpush hvf' htop' hrest

theorem evalScript_pushes {sig : CScript} {stack : List Bytes} {calls calls' : Nat}
    (hpush : isPushOnly sig = true)
    (hrun : evalScript H checker flags [] sig calls = (.ok stack, calls')) :
    ∃ data, lastPush (sig.length + 1) sig [] = some data ∧ TopCounted stack data := by
  unfold evalScript at hrun
  split_ifs at hrun
  · cases hrun
  rcases hbody : evalBody H checker flags sig (start sig [] calls) with
    ⟨e | ⟨⟩, m⟩ <;> rw [hbody] at hrun
  · cases hrun
  obtain ⟨⟨⟩, m1, hloop, hend⟩ := Command.bind_eq_ok hbody
  obtain ⟨-, rfl⟩ := require_eq_ok hend
  have hstack : m.stack = stack := by simpa using (mk.inj hrun).1
  rw [← hstack]
  have htop : TopCounted (start sig [] calls).stack [] := by
    rintro top rest ⟨⟩
  exact @evalLoop_pushes H checker flags (start sig [] calls) _ _ _ le_rfl hpush
    rfl htop hloop

theorem checkVerdict_keeps (stack : List Bytes) : Keeps id (checkVerdict stack) := by
  rcases stack with _ | ⟨back, rest⟩
  · exact .stop _
  · exact .require

theorem verifyP2SH_counted {sig script : CScript} {stackCopy : List Bytes}
    (hp2sh : isPayToScriptHash script = true)
    (htop : isPushOnly sig = true → ∃ data, lastPush (sig.length + 1) sig [] = some data ∧
      TopCounted stackCopy data) :
    Grows id (verifyP2SH H checker flags sig stackCopy) (getSigOpCountFor script sig) := by
  unfold verifyP2SH
  cases hpush : isPushOnly sig with
  | false => exact (Keeps.stop _).grows
  | true =>
    rcases stackCopy with _ | ⟨pubKeySerialized, rest⟩
    · exact (Keeps.stop _).grows
    · obtain ⟨data, hdata, hcount⟩ := htop hpush
      have hle : getSigOpCount pubKeySerialized true ≤ getSigOpCountFor script sig := by
        rw [getSigOpCountFor, hp2sh, hdata]
        exact hcount _ _ rfl
      have hrun := evalScript_counted H checker flags rest pubKeySerialized
      exact (hrun.bind_keeps checkVerdict_keeps).mono hle

/-- What `VerifyScript` adds to the counts of the two scripts under the flag for script hashes. -/
def p2shSigOpsOf (scriptSig scriptPubKey : CScript) : Nat :=
  if hasFlag flags scriptVerifyP2SH && isPayToScriptHash scriptPubKey then
    getSigOpCountFor scriptPubKey scriptSig
  else 0

/-- The calls of `VerifyScript` are within the static counts. -/
theorem verifyScript_counted (sig script : CScript) :
    Grows id (verifyScript H checker flags sig script)
      (getSigOpCount sig true + getSigOpCount script true + p2shSigOpsOf flags sig script) := by
  refine Keeps.require.bind_grows fun _ calls => ?_
  have hsig := evalScript_counted H checker flags [] sig calls
  rcases hrun : evalScript H checker flags [] sig calls with ⟨e | stackCopy, n⟩ <;>
    rw [hrun] at hsig
  · rw [bind_of_error hrun]
    exact hsig.trans (by simp only [id_eq]; omega)
  rw [bind_of_ok hrun]
  -- from here on the stack the first script has left is fixed
  have hp2sh : Grows id (if hasFlag flags scriptVerifyP2SH && isPayToScriptHash script then
      verifyP2SH H checker flags sig stackCopy else pure ()) (p2shSigOpsOf flags sig script) := by
    unfold p2shSigOpsOf
    split_ifs with hcond
    · rw [Bool.and_eq_true] at hcond
      exact verifyP2SH_counted H checker flags hcond.2 fun hpush =>
        evalScript_pushes H checker flags hpush hrun
    · exact (Keeps.pure ()).grows
  have hrest := (evalScript_counted H checker flags stackCopy script).bind fun stack =>
    (checkVerdict_keeps stack).bind_grows fun _ => hp2sh
  refine (hrest n).trans ?_
  simp only [id_eq] at hsig ⊢
  omega

end Instruction

/-! ## Transactions and blocks -/

section Transactions

variable (H : ScriptHashes) (flags : UInt32) (getOutputOf : CTxIn → CTxOut)

/-- The calls to `CheckSig` when the inputs of a transaction are verified, each with the checker
of its index. -/
def signatureChecks (checker : Nat → SignatureChecker) (tx : CTransaction) : Nat :=
  if tx.isCoinBase then 0
  else
    (tx.vin.zipIdx.map fun p =>
      (verifyScript H (checker p.2) flags p.1.scriptSig (getOutputOf p.1).scriptPubKey 0).2).sum

/-- The counts of the scripts that a transaction spends. They are taken where the outputs are
created, and nowhere for the transaction that spends them. -/
def spentSigOps (tx : CTransaction) : Nat :=
  (tx.vin.map fun txin => getSigOpCount (getOutputOf txin).scriptPubKey true).sum

/-- `GetP2SHSigOpCount` with the outputs at hand. -/
def spentP2SHSigOps (tx : CTransaction) : Nat :=
  if tx.isCoinBase then 0
  else
    (tx.vin.map fun txin =>
      if isPayToScriptHash (getOutputOf txin).scriptPubKey then
        getSigOpCountFor (getOutputOf txin).scriptPubKey txin.scriptSig
      else 0).sum

theorem inputChecks_le (checker : SignatureChecker) (sig script : CScript) :
    (verifyScript H checker flags sig script 0).2 ≤
      getSigOpCount sig false + getSigOpCount script true +
        if isPayToScriptHash script then getSigOpCountFor script sig else 0 := by
  have hcalls := verifyScript_counted H checker flags sig script 0
  have hsig := getSigOpCount_accurate_le sig
  simp only [id_eq, p2shSigOpsOf, Bool.and_eq_true] at hcalls
  split_ifs at hcalls ⊢ with hp2sh hboth hboth
  · omega
  · omega
  · exact absurd hboth.2 hp2sh
  · omega

theorem inputsChecks_le (checker : Nat → SignatureChecker) (vin : List CTxIn) (n : Nat) :
    ((vin.zipIdx n).map fun p =>
      (verifyScript H (checker p.2) flags p.1.scriptSig (getOutputOf p.1).scriptPubKey 0).2).sum ≤
      (vin.map fun txin => getSigOpCount txin.scriptSig false).sum +
        (vin.map fun txin => getSigOpCount (getOutputOf txin).scriptPubKey true).sum +
        (vin.map fun txin =>
          if isPayToScriptHash (getOutputOf txin).scriptPubKey then
            getSigOpCountFor (getOutputOf txin).scriptPubKey txin.scriptSig
          else 0).sum := by
  induction vin generalizing n with
  | nil => exact zero_le _
  | cons txin vin ih =>
    have hhead := inputChecks_le H flags (checker n) txin.scriptSig
      (getOutputOf txin).scriptPubKey
    have htail := ih (n + 1)
    simp only [zipIdx_cons, map_cons, sum_cons]
    omega

theorem signatureChecks_le (checker : Nat → SignatureChecker) (tx : CTransaction) :
    signatureChecks H flags getOutputOf checker tx ≤
      getLegacySigOpCount tx + spentSigOps getOutputOf tx + spentP2SHSigOps getOutputOf tx := by
  unfold signatureChecks spentP2SHSigOps
  split_ifs
  · exact zero_le _
  · have hinputs := inputsChecks_le H flags getOutputOf checker tx.vin 0
    rw [getLegacySigOpCount, spentSigOps]
    omega

/-- **`signatureChecks_bounded`** — the static counts bound the calls of `VerifyScript`, the
inaccurate count bounds the accurate one, and the checks of a block are bounded by what the
block counts for itself together with the counts of the scripts it spends. -/
theorem signatureChecks_bounded : (∀ checker scriptSig scriptPubKey,
      (verifyScript H checker flags scriptSig scriptPubKey 0).2 ≤
        getSigOpCount scriptSig true + getSigOpCount scriptPubKey true +
          if hasFlag flags scriptVerifyP2SH && isPayToScriptHash scriptPubKey then
            getSigOpCountFor scriptPubKey scriptSig
          else 0) ∧
    (∀ script, getSigOpCount script true ≤ getSigOpCount script false) ∧
    ∀ (checker : CTransaction → Nat → SignatureChecker) (vtx : List CTransaction),
      (vtx.map fun tx => signatureChecks H flags getOutputOf (checker tx) tx).sum ≤
        (vtx.map getLegacySigOpCount).sum + (vtx.map (spentP2SHSigOps getOutputOf)).sum +
          (vtx.map (spentSigOps getOutputOf)).sum := by
  refine ⟨fun checker scriptSig scriptPubKey => ?_, getSigOpCount_accurate_le,
    fun checker vtx => ?_⟩
  · have hcalls := verifyScript_counted H checker flags scriptSig scriptPubKey 0
    rwa [id_eq, id_eq, zero_add] at hcalls
  · induction vtx with
    | nil => exact le_rfl
    | cons tx vtx ih =>
      have hhead := signatureChecks_le H flags getOutputOf (checker tx) tx
      simp only [map_cons, sum_cons]
      omega

end Transactions

/-! ## Spending what others have counted -/

/-- `MAX_TX_SIGOPS`. -/
def maxTxSigOps : Nat := maxBlockSigOps / 5

def acceptAll : SignatureChecker where
  checkSig _ _ _ := true
  checkLockTime _ := true

/-- `OP_2DUP OP_CHECKSIGVERIFY` 99 times, then `OP_CHECKSIG`: one signature, checked 100 times
with 199 operations. -/
def hundredChecks : CScript := (List.replicate 99 [0x6e, 0xad]).flatten ++ [0xac]

/-- A signature and a key, a byte each. -/
def sigAndKey : CScript := [0x01, 0x30, 0x01, 0x02]

/-- A transaction with `n` different inputs and one output that anyone can spend. -/
def spendMany (n : Nat) : CTransaction where
  hash := 1
  nVersion := 1
  vin := (List.range n).map fun i => ⟨⟨7, UInt32.ofNat i⟩, sigAndKey, 0xffffffff⟩
  vout := [⟨0, [0x51]⟩]
  nLockTime := 0
  strTxComment := []

theorem hundredChecks_calls :
    (verifyScript zeroHashes acceptAll scriptVerifyP2SH sigAndKey hundredChecks 0).2 = 100 := by
  decide +kernel

theorem sum_of_forall_eq {l : List Nat} {c : Nat} (h : ∀ n ∈ l, n = c) : l.sum = l.length * c := by
  rw [eq_replicate_iff.mpr ⟨rfl, h⟩, sum_replicate_nat, length_replicate]

theorem spendMany_vin {n : Nat} {txin : CTxIn} (h : txin ∈ (spendMany n).vin) :
    txin.scriptSig = sigAndKey := by
  obtain ⟨i, -, rfl⟩ := mem_map.mp h
  rfl

theorem isCoinBase_spendMany (n : Nat) : (spendMany (n + 2)).isCoinBase = false := by
  rw [spendMany, range_succ_eq_map, range_succ_eq_map]
  rfl

theorem spendMany_counts (n : Nat) : getLegacySigOpCount (spendMany n) = 0 ∧
      spentP2SHSigOps (fun _ => ⟨1, hundredChecks⟩) (spendMany n) = 0 := by
  have hnone : getSigOpCount sigAndKey false = 0 := by decide
  have hkey : isPayToScriptHash hundredChecks = false := by decide +kernel
  constructor
  · rw [getLegacySigOpCount, sum_of_forall_eq (c := 0)]
    · rfl
    · intro k hk
      obtain ⟨txin, hmem, rfl⟩ := mem_map.mp hk
      rw [spendMany_vin hmem, hnone]
  · rw [spentP2SHSigOps, sum_of_forall_eq (c := 0), mul_zero, ite_self]
    intro k hk
    obtain ⟨txin, -, rfl⟩ := mem_map.mp hk
    simp only [hkey, Bool.false_eq_true, if_false]

theorem spendMany_checks (n : Nat) :
    signatureChecks zeroHashes scriptVerifyP2SH (fun _ => ⟨1, hundredChecks⟩)
      (fun _ => acceptAll) (spendMany (n + 2)) = (n + 2) * 100 := by
  rw [signatureChecks, isCoinBase_spendMany, if_neg (by decide), sum_of_forall_eq (c := 100)]
  · rw [length_map, length_zipIdx, spendMany, length_map, length_range]
  · intro k hk
    obtain ⟨p, hmem, rfl⟩ := mem_map.mp hk
    rw [spendMany_vin (fst_mem_of_mem_zipIdx hmem)]
    exact hundredChecks_calls

/-- The limits look at a transaction's own scripts. This one counts for nothing under both and
every input is accepted, with more checks than either limit. -/
theorem spendMany_beyond_limits : getLegacySigOpCount (spendMany 1001) +
        spentP2SHSigOps (fun _ => ⟨1, hundredChecks⟩) (spendMany 1001) = 0 ∧
      (∀ txin ∈ (spendMany 1001).vin,
        verifies zeroHashes acceptAll scriptVerifyP2SH txin.scriptSig hundredChecks = true) ∧
      max maxTxSigOps maxBlockSigOps < signatureChecks zeroHashes scriptVerifyP2SH
        (fun _ => ⟨1, hundredChecks⟩) (fun _ => acceptAll) (spendMany 1001) := by
  obtain ⟨hlegacy, hp2sh⟩ := spendMany_counts 1001
  refine ⟨by rw [hlegacy, hp2sh], fun txin hmem => ?_, ?_⟩
  · rw [spendMany_vin hmem]
    decide +kernel
  · rw [spendMany_checks 999]
    decide

end MonetaryUnit
