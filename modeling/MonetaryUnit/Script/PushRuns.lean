/-
# MonetaryUnit.Script.PushRuns — running pushes, and spending a multisig output

The loop of `EvalScript` takes its instructions one at a time (`RunsTo.of_step`), and runs compose.
A sequence of pushes puts its data on the stack, last on top. With that, a `scriptSig` that pushes
an empty element and the signatures is run against a multisig script up to the verdict of
`OP_CHECKMULTISIG` (`verifies_multisig`).
-/

import MonetaryUnit.Script.MultiSig
import MonetaryUnit.Script.Templates

namespace MonetaryUnit

open Lib Lib.Command List Machine Nat

/-! ## Scripts of pushes -/

/-- Pushes of these elements, in order. -/
inductive Pushes : CScript → List Bytes → Prop
  | nil : Pushes [] []
  | cons {ins rest : CScript} {v : Bytes} {vs : List Bytes} : IsPush ins v → Pushes rest vs →
      Pushes (ins ++ rest) (v :: vs)

variable {ins rest : CScript} {v : Bytes} {vs keys : List Bytes}

theorem KeyPushes.pushes (h : KeyPushes ins keys) : Pushes ins keys := by
  induction h with
  | nil => exact .nil
  | cons hins _ _ _ ih => exact .cons hins ih

theorem isPush_pushBytes (h : v.length < 2 ^ 32) : IsPush (pushBytes v) v := by
  rcases Nat.eq_zero_or_pos v.length with hnil | hpos
  · obtain rfl := length_eq_zero_iff.mp hnil
    exact ⟨0, [], by decide, .push (by decide) rfl, rfl⟩
  · obtain ⟨opcode, hop⟩ := getOp_pushBytes h
    obtain ⟨ins, hins, heq⟩ := (getOp_operand_iff hpos).mp ⟨opcode, hop []⟩
    rw [append_nil, append_nil] at heq
    exact heq ▸ hins

theorem pushes_pushBytes (h : ∀ v ∈ vs, v.length < 2 ^ 32) :
    Pushes (vs.map pushBytes).flatten vs := by
  induction vs with
  | nil => exact .nil
  | cons v vs ih =>
    exact .cons (isPush_pushBytes (h v mem_cons_self)) (ih fun w hw => h w (mem_cons_of_mem _ hw))

theorem Pushes.isPushOnlyLoop (h : Pushes ins vs) (fuel : Nat) :
    MonetaryUnit.isPushOnlyLoop fuel ins = true := by
  induction h generalizing fuel with
  | nil => cases fuel <;> rfl
  | @cons first rest _ _ hfirst _ ih =>
    cases fuel with
    | zero => rfl
    | succ fuel =>
      obtain ⟨opcode, hle, hop⟩ := getOp_isPush_iff.mpr ⟨first, hfirst, (rfl : _ = first ++ rest)⟩
      have hne : ¬(first ++ rest).isEmpty = true := by
        intro hempty
        rw [isEmpty_iff.mp hempty] at hop
        cases hop
      have hsmall : ¬0x60 < opcode := UInt8.not_lt.mpr (UInt8.le_trans hle (by decide))
      rw [MonetaryUnit.isPushOnlyLoop, if_neg hne, hop]
      dsimp only
      rw [if_neg hsmall]
      exact ih fuel

/-- Every push of the script is the shortest one. -/
inductive MinimalPushes : CScript → Prop
  | nil : MinimalPushes []
  | step {opcode : UInt8} {v : Bytes} {pc rest : CScript} : getOp pc = some (opcode, v, rest) →
      (opcode ≤ 0x4e → checkMinimalPush v opcode = true) → MinimalPushes rest → MinimalPushes pc

theorem MinimalPushes.cut {opcode : UInt8} {pc : CScript} (h : MinimalPushes pc)
    (hop : getOp pc = some (opcode, v, rest)) :
    (opcode ≤ 0x4e → checkMinimalPush v opcode = true) ∧ MinimalPushes rest := by
  cases h with
  | nil => cases hop
  | step hop' hmin hrest =>
    rw [hop] at hop'
    obtain ⟨rfl, rfl, rfl⟩ := hop'
    exact ⟨hmin, hrest⟩

/-! ## Runs -/

section Run

variable (H : ScriptHashes) (checker : SignatureChecker) (flags : UInt32)

/-- The rest of the run from `m` is the run from `m'`, with enough fuel for both. -/
def RunsTo (m m' : Machine) : Prop := ∀ fuel, m.pc.length ≤ fuel → ∃ fuel', m'.pc.length ≤ fuel' ∧
    evalLoop H checker flags fuel m = evalLoop H checker flags fuel' m'

variable {H checker flags} {m m1 m' : Machine}

theorem RunsTo.refl (m : Machine) : RunsTo H checker flags m m :=
  fun fuel hfuel => ⟨fuel, hfuel, rfl⟩

theorem RunsTo.trans (h : RunsTo H checker flags m m1) (h' : RunsTo H checker flags m1 m') :
    RunsTo H checker flags m m' := by
  intro fuel hfuel
  obtain ⟨fuel1, hfuel1, heq⟩ := h fuel hfuel
  obtain ⟨fuel', hfuel', heq'⟩ := h' fuel1 hfuel1
  exact ⟨fuel', hfuel', heq.trans heq'⟩

variable {opcode : UInt8}

theorem RunsTo.of_step (hop : getOp m.pc = some (opcode, v, rest))
    (hlen : v.length ≤ maxScriptElementSize)
    (hcount : countOpcode opcode { m with pc := rest } = (.ok (), m1))
    (henabled : isDisabled opcode = false)
    (hrun : dispatch H checker flags m.fExec opcode v m1 = (.ok (), m'))
    (hsize : m'.stack.length + m'.altstack.length ≤ 1000) (hpc : m'.pc = rest) :
    RunsTo H checker flags m m' := by
  intro fuel hfuel
  have hlt := getOp_length_lt hop
  have hne : m.pc ≠ [] := by
    intro hnil
    rw [hnil] at hop
    cases hop
  obtain ⟨fuel, rfl⟩ : ∃ k, fuel = k + 1 := ⟨fuel - 1, by omega⟩
  have hstep : evalStep H checker flags m = (.ok (), m') := by
    rw [evalStep, hop]
    dsimp only
    rw [evalInstruction, bind_of_ok (demand_of_true (decide_eq_true hlen) _), bind_of_ok hcount,
      bind_of_ok (demand_of_true (by rw [henabled]; rfl) _), bind_of_ok hrun]
    exact demand_of_true (decide_eq_true hsize) _
  refine ⟨fuel, by rw [hpc]; omega, ?_⟩
  rw [evalLoop_round H checker flags fuel hne, bind_of_ok hstep]

theorem isDisabled_push (h : opcode ≤ 0x4e) : isDisabled opcode = false := by
  obtain ⟨b⟩ := opcode
  revert b
  decide +kernel

theorem countOpcode_of_le (h : opcode ≤ 0x60) (m : Machine) :
    countOpcode opcode m = (.ok (), m) := by
  rw [countOpcode, if_neg (UInt8.not_lt.mpr h)]
  rfl

theorem dispatch_op (h : ¬opcode ≤ 0x4e) :
    dispatch H checker flags true opcode v = evalOp H checker flags true (decodeOp opcode) := by
  rw [dispatch, if_neg (by simpa using h), Bool.true_or, if_pos rfl]

theorem fExec_of_empty (hexec : m.vfExec = []) : m.fExec = true := by
  rw [fExec, hexec]
  rfl

/-- One push. -/
theorem RunsTo.push (hop : getOp m.pc = some (opcode, v, rest)) (hle : opcode ≤ 0x4e)
    (hlen : v.length ≤ maxScriptElementSize)
    (hmin : hasFlag flags scriptVerifyMINIMALDATA = true → checkMinimalPush v opcode = true)
    (hexec : m.vfExec = []) (hsize : m.stack.length + m.altstack.length < 1000) :
    RunsTo H checker flags m { m with pc := rest, stack := v :: m.stack } := by
  have hminimal : (!(hasFlag flags scriptVerifyMINIMALDATA && !checkMinimalPush v opcode)) =
      true := by
    cases hflag : hasFlag flags scriptVerifyMINIMALDATA with
    | false => rfl
    | true =>
      rw [hmin hflag]
      rfl
  refine .of_step hop hlen (countOpcode_of_le (UInt8.le_trans hle (by decide)) _)
    (isDisabled_push hle) ?_ (by simp only [length_cons]; omega) rfl
  rw [dispatch, fExec_of_empty hexec, if_pos (by rw [decide_eq_true hle]; rfl)]
  refine onStack_of_ok (m := { m with pc := rest }) ?_
  rw [opPushData, bind_of_ok (demand_of_true hminimal _)]
  rfl

/-- Pushes put their data on the stack, the last one on top. -/
theorem RunsTo.pushes (h : Pushes ins vs) (hfits : StackFits vs) (hpc : m.pc = ins ++ rest)
    (hmin : hasFlag flags scriptVerifyMINIMALDATA = true → MinimalPushes (ins ++ rest))
    (hexec : m.vfExec = []) (hsize : m.stack.length + m.altstack.length + vs.length ≤ 1000) :
    RunsTo H checker flags m { m with pc := rest, stack := vs.reverse ++ m.stack } := by
  induction h generalizing m with
  | nil =>
    have hsame : m = { m with pc := rest, stack := [].reverse ++ m.stack } := by
      rw [nil_append] at hpc
      rw [← hpc]
      rfl
    exact hsame ▸ .refl m
  | @cons first ins v vs hfirst _ ih =>
    obtain ⟨opcode, hle, hop⟩ := getOp_isPush_iff.mpr ⟨first, hfirst, append_assoc first ins rest⟩
    rw [length_cons] at hsize
    have hstep : RunsTo H checker flags m { m with pc := ins ++ rest, stack := v :: m.stack } :=
      .push (hpc ▸ hop) hle (hfits v mem_cons_self)
        (fun hflag => ((hmin hflag).cut hop).1 hle) hexec (by omega)
    have hrun := ih (m := { m with pc := ins ++ rest, stack := v :: m.stack })
      (fun w hw => hfits w (mem_cons_of_mem _ hw)) rfl
      (fun hflag => ((hmin hflag).cut hop).2) hexec
      (by simp only [length_cons]; omega)
    refine hstep.trans ?_
    rw [reverse_cons, append_assoc]
    exact hrun

/-- `OP_1` to `OP_16`. -/
theorem RunsTo.smallInteger {k : Nat} (hpos : 1 ≤ k) (hle : k ≤ 16)
    (hpc : m.pc = encodeOpN k :: rest) (hexec : m.vfExec = [])
    (hsize : m.stack.length + m.altstack.length < 1000) :
    RunsTo H checker flags m { m with pc := rest, stack := scriptNumSerialize k :: m.stack } := by
  have hop : getOp m.pc = some (encodeOpN k, [], rest) := by
    rw [hpc]
    exact (getOp_bare_iff (encodeOpN_bare hle)).mpr ⟨rfl, rfl⟩
  have hcode : encodeOpN k ≤ 0x60 ∧ isDisabled (encodeOpN k) = false ∧ ¬encodeOpN k ≤ 0x4e ∧
      decodeOp (encodeOpN k) = .pushNumber k := by
    interval_cases k <;> decide
  obtain ⟨hsmall, henabled, hpush, hdecode⟩ := hcode
  refine .of_step hop (by decide) (countOpcode_of_le hsmall _) henabled ?_
    (by simp only [length_cons]; omega) rfl
  rw [fExec_of_empty hexec, dispatch_op hpush, hdecode]
  exact onStack_of_ok (m := { m with pc := rest }) rfl

/-- `OP_CHECKMULTISIG`. -/
theorem RunsTo.checkMultiSig {sigs below : List Bytes} (hpc : m.pc = 0xae :: rest)
    (hexec : m.vfExec = []) (hargs : MultiSigArgs flags m.stack keys sigs below)
    (henc : Encoded flags sigs keys) (hops : m.nOpCount + 1 + keys.length ≤ 201)
    (hsize : below.length + m.altstack.length < 1000) :
    ∃ calls, RunsTo H checker flags m { m with
      pc := rest
      stack := (if greedyMatch (fun sig key =>
          checker.checkSig sig key (codeWithout sigs m.pbegincodehash)) sigs keys
        then vchTrue else vchFalse) :: below
      nOpCount := m.nOpCount + 1 + keys.length
      checkSigCalls := m.checkSigCalls + calls } := by
  have hop : getOp m.pc = some (0xae, [], rest) := by rw [hpc]; rfl
  have hcount : countOpcode 0xae { m with pc := rest } =
      (.ok (), { m with pc := rest, nOpCount := m.nOpCount + 1 }) := by
    exact demand_of_true (decide_eq_true (show m.nOpCount + 1 ≤ 201 by omega)) _
  obtain ⟨calls, -, hrun⟩ := opCheckMultiSig_run checker
    (m := { m with pc := rest, nOpCount := m.nOpCount + 1 }) hargs henc hops
  refine ⟨calls, .of_step hop (by decide) hcount (by decide) ?_
    (by simp only [length_cons]; omega) rfl⟩
  rw [fExec_of_empty hexec]
  exact hrun

/-- A run to the end of the script. -/
theorem evalScript_of_runsTo {script : CScript} {stack : List Bytes} {calls : Nat}
    (hlen : script.length ≤ 10000) (h : RunsTo H checker flags (start script stack calls) m)
    (hpc : m.pc = []) (hexec : m.vfExec = []) :
    evalScript H checker flags stack script calls = (.ok m.stack, m.checkSigCalls) := by
  obtain ⟨fuel, -, heq⟩ := h script.length le_rfl
  have hloop : evalLoop H checker flags script.length (start script stack calls) = (.ok (), m) := by
    rw [heq]
    exact evalLoop_done H checker flags fuel hpc
  have hbody : evalBody H checker flags script (start script stack calls) = (.ok (), m) := by
    rw [evalBody, bind_of_ok hloop]
    exact demand_of_true (by rw [hexec]; rfl) _
  rw [evalScript, if_neg (not_lt.mpr hlen), hbody]

/-! ## Spending a multisig output -/

theorem IsPush.length_le (h : IsPush ins v) : ins.length ≤ v.length + 5 := by
  obtain ⟨opcode, size, -, hins, rfl⟩ := h
  have hsize : size.length ≤ 4 := by
    cases hins with
    | push _ _ => exact zero_le 4
    | pushData1 hlen _ => omega
    | pushData2 hlen _ => omega
    | pushData4 hlen _ => omega
    | other _ => exact zero_le 4
  simp only [length_cons, length_append]
  omega

theorem Pushes.length_le (h : Pushes ins vs) (bound : Nat) (hle : ∀ v ∈ vs, v.length ≤ bound) :
    ins.length ≤ vs.length * (bound + 5) := by
  induction h with
  | nil => exact zero_le _
  | cons hins _ ih =>
    have hfirst := hins.length_le
    have hv := hle _ mem_cons_self
    have hrest := ih fun v hv => hle v (mem_cons_of_mem _ hv)
    rw [length_append, length_cons, succ_mul]
    omega

theorem KeyPushes.key_length (h : KeyPushes ins keys) : ∀ key ∈ keys, key.length ≤ 65 := by
  induction h with
  | nil => simp
  | cons _ _ hle _ ih =>
    intro key hkey
    rcases mem_cons.mp hkey with rfl | hkey
    · exact hle
    · exact ih key hkey

theorem scriptNum_smallInteger {k : Nat} (h : k ≤ 16) (fRequireMinimal : Bool) :
    scriptNum (scriptNumSerialize k) fRequireMinimal nDefaultMaxNumSize = .ok (k : Int) := by
  cases fRequireMinimal <;> interval_cases k <;> decide

/-- The script of an output that `m` of the keys can spend. -/
def multisigScript (m n : Nat) (ins : CScript) : CScript :=
  encodeOpN m :: (ins ++ [encodeOpN n, 0xae])

/-- The script that spends it. -/
def multisigScriptSig (sigs : List Bytes) : CScript := 0x00 :: (sigs.map pushBytes).flatten

section Multisig

variable {m n : Nat} {ins : CScript} {keys sigs : List Bytes}

theorem StackFits.cons_nil (hfits : StackFits sigs) : StackFits ([] :: sigs) := by
  intro v hv
  rcases mem_cons.mp hv with rfl | hv
  · exact zero_le _
  · exact hfits v hv

theorem pushes_multisigScriptSig (hfits : StackFits sigs) :
    Pushes (multisigScriptSig sigs) ([] :: sigs) := by
  refine @pushes_pushBytes ([] :: sigs) fun v hv => ?_
  have hle := hfits.cons_nil v hv
  rw [maxScriptElementSize] at hle
  omega

theorem evalScript_multisigScriptSig (hlen : sigs.length ≤ 16) (hfits : StackFits sigs)
    (hmin : hasFlag flags scriptVerifyMINIMALDATA = true → MinimalPushes (multisigScriptSig sigs))
    (calls : Nat) :
    evalScript H checker flags [] (multisigScriptSig sigs) calls =
      (.ok (sigs.reverse ++ [[]]), calls) := by
  have hpushes := pushes_multisigScriptSig hfits
  have hsize : (multisigScriptSig sigs).length ≤ 10000 := by
    have hle := hpushes.length_le 520 hfits.cons_nil
    rw [length_cons] at hle
    omega
  have hrun := @RunsTo.pushes _ [] _ H checker flags
    (start (multisigScriptSig sigs) [] calls) hpushes hfits.cons_nil
    (append_nil _).symm (by rwa [append_nil]) rfl
    (by simp only [start, length_nil, length_cons]; omega)
  rw [evalScript_of_runsTo hsize hrun rfl rfl]
  simp [start]

theorem evalScript_multisigScript (hm : 1 ≤ m) (hmn : m ≤ n) (hn : n ≤ 16)
    (hkeys : KeyPushes ins keys) (hkeysLen : keys.length = n) (hsigsLen : sigs.length = m)
    (henc : Encoded flags sigs keys)
    (hmin : hasFlag flags scriptVerifyMINIMALDATA = true → MinimalPushes (multisigScript m n ins))
    (calls : Nat) :
    ∃ calls', evalScript H checker flags (sigs.reverse ++ [[]]) (multisigScript m n ins) calls =
      (.ok [if greedyMatch (fun sig key => checker.checkSig sig key
          (codeWithout sigs.reverse (multisigScript m n ins))) sigs.reverse keys.reverse
        then vchTrue else vchFalse], calls') := by
  have hbound := hkeys.key_length
  have hfits : StackFits keys := by
    intro key hkey
    have hle := hbound key hkey
    rw [maxScriptElementSize]
    omega
  have hsize : (multisigScript m n ins).length ≤ 10000 := by
    have hle := hkeys.pushes.length_le 65 hbound
    simp only [multisigScript, length_cons, length_append, length_nil]
    omega
  have hmin' (hflag : hasFlag flags scriptVerifyMINIMALDATA = true) :
      MinimalPushes (ins ++ [encodeOpN n, 0xae]) :=
    ((hmin hflag).cut ((getOp_bare_iff (encodeOpN_bare (hmn.trans hn))).mpr ⟨rfl, rfl⟩)).2
  -- the number of signatures, the keys and their number
  have hlen : (sigs.reverse ++ [[]]).length = m + 1 := by
    rw [length_append, length_reverse, hsigsLen, length_singleton]
  have hfirst : RunsTo H checker flags
      (start (multisigScript m n ins) (sigs.reverse ++ [[]]) calls) _ :=
    .smallInteger hm (hmn.trans hn) rfl rfl (by simp only [start, hlen, length_nil]; omega)
  have hpushed := @RunsTo.pushes _ _ _ H checker flags
    { start (multisigScript m n ins) (sigs.reverse ++ [[]]) calls with
      pc := ins ++ [encodeOpN n, 0xae]
      stack := scriptNumSerialize m :: (sigs.reverse ++ [[]]) }
    hkeys.pushes hfits rfl hmin' rfl (by simp only [start, hlen, length_cons, length_nil]; omega)
  have hlast : RunsTo H checker flags _ _ :=
    .smallInteger (m := { start (multisigScript m n ins) (sigs.reverse ++ [[]]) calls with
      pc := [encodeOpN n, 0xae]
      stack := keys.reverse ++ scriptNumSerialize m :: (sigs.reverse ++ [[]]) })
      (hm.trans hmn) hn rfl rfl
      (by simp only [start, hlen, length_append, length_reverse, length_cons, length_nil]; omega)
  -- their arguments are on the stack, in the order in which the instruction visits them
  have hargs : MultiSigArgs flags (scriptNumSerialize n :: (keys.reverse ++
      scriptNumSerialize m :: (sigs.reverse ++ [[]]))) keys.reverse sigs.reverse [] := by
    refine ⟨⟨_, _, _, rfl, ?_, ?_, fun _ => rfl⟩, ?_, ?_⟩
    · rw [length_reverse, hkeysLen]
      exact scriptNum_smallInteger hn _
    · rw [length_reverse, hsigsLen]
      exact scriptNum_smallInteger (hmn.trans hn) _
    · rw [length_reverse]
      omega
    · rw [length_reverse, length_reverse]
      omega
  obtain ⟨used, hcheck⟩ := @RunsTo.checkMultiSig _ _ H checker flags
    { start (multisigScript m n ins) (sigs.reverse ++ [[]]) calls with
      pc := [0xae]
      stack := scriptNumSerialize n :: (keys.reverse ++
        scriptNumSerialize m :: (sigs.reverse ++ [[]])) } _ _
    rfl rfl hargs ⟨fun sig hsig => henc.sigs sig (mem_reverse.mp hsig),
      fun key hkey => henc.keys key (mem_reverse.mp hkey)⟩
    (by simp only [start, length_reverse]; omega)
    (by simp only [start, length_nil]; omega)
  exact ⟨_, evalScript_of_runsTo hsize (hfirst.trans (hpushed.trans (hlast.trans hcheck))) rfl rfl⟩

theorem not_isPayToScriptHash_multisig (hm : m ≤ 16) :
    isPayToScriptHash (multisigScript m n ins) = false := by
  rw [Bool.eq_false_iff]
  intro h
  obtain ⟨hash, -, heq⟩ := isPayToScriptHash_iff.mp h
  have htype := typeOfFirst_encodeOpN hm
  rw [(cons.inj heq).1] at htype
  exact absurd htype (by decide)

/-- Signatures that can be assigned to keys in order spend the output. -/
theorem verifies_multisig (hm : 1 ≤ m) (hmn : m ≤ n) (hn : n ≤ 16) (hkeys : KeyPushes ins keys)
    (hkeysLen : keys.length = n) (hsigsLen : sigs.length = m) (hfits : StackFits sigs)
    (henc : Encoded flags sigs keys)
    (hmin : hasFlag flags scriptVerifyMINIMALDATA = true →
      MinimalPushes (multisigScriptSig sigs) ∧ MinimalPushes (multisigScript m n ins))
    (hmatch : OrderedMatch (fun sig key => checker.checkSig sig key
      (codeWithout sigs.reverse (multisigScript m n ins))) sigs.reverse keys.reverse) :
    verifies H checker flags (multisigScriptSig sigs) (multisigScript m n ins) = true := by
  have hpushOnly : isPushOnly (multisigScriptSig sigs) = true :=
    (pushes_multisigScriptSig hfits).isPushOnlyLoop _
  obtain ⟨calls, hscript⟩ := @evalScript_multisigScript H checker _ _ _ _ _ _ hm hmn hn
    hkeys hkeysLen hsigsLen henc (fun hflag => (hmin hflag).2) 0
  rw [greedyMatch_iff.mpr hmatch] at hscript
  rw [verifies_iff]
  refine ⟨calls, ?_⟩
  rw [verifyScript, hpushOnly, bind_of_ok (demand_of_true (by simp) _),
    bind_of_ok (evalScript_multisigScriptSig (by omega) hfits (fun hflag => (hmin hflag).1) 0),
    bind_of_ok hscript,
    not_isPayToScriptHash_multisig (hmn.trans hn), Bool.and_false]
  rfl

end Multisig

end Run

end MonetaryUnit
