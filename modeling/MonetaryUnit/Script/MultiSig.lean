/-
# MonetaryUnit.Script.MultiSig — `OP_CHECKMULTISIG` decides ordered matching

The instruction finds its keys and signatures on the stack, counted from the top, and walks through
both with two indices. The walk is the greedy matching of `Lib.GreedyMatch`, in the order in which
it visits them (`multiSigLoop_run`), and so the instruction pushes true exactly when the signatures
can be assigned to keys in that order. It asks the checker at most once for each key, and consumes
its arguments and the element below them.
-/

import MonetaryUnit.Lib.GreedyMatch
import MonetaryUnit.Script.Safety

namespace MonetaryUnit

open Lib Lib.Command List Nat

/-! ## Reading the stack -/

variable {s l : List Bytes} {i : Nat} {v : Bytes} {m : Machine} {sigs : List Bytes}

theorem stacktop_of_top (h : (v :: l) <+: s.drop i) : stacktop (i + 1) s = (.ok v, s) := by
  obtain ⟨tail, htail⟩ := h
  have hread : s[i]? = some v := by
    rw [← add_zero i, ← getElem?_drop, ← htail]
    rfl
  rw [stacktop, Nat.add_sub_cancel, hread]

theorem prefix_drop_succ (h : (v :: l) <+: s.drop i) : l <+: s.drop (i + 1) := by
  obtain ⟨tail, htail⟩ := h
  refine ⟨tail, ?_⟩
  rw [← drop_drop, ← htail]
  rfl

theorem onStack_of_ok {α : Type} {c : StackM α} {a : α} (h : c m.stack = (.ok a, s)) :
    onStack c m = (.ok a, { m with stack := s }) := by
  rw [onStack, onPart, h]

/-- The code that is signed: the signatures are dropped from it. -/
def codeWithout (sigs : List Bytes) (code : CScript) : CScript :=
  sigs.foldl (fun scriptCode vchSig => findAndDelete scriptCode (pushBytes vchSig)) code

theorem dropSignatures_run (h : sigs <+: s.drop i) (code : CScript) :
    dropSignatures sigs.length (i + 1) code s = (.ok (codeWithout sigs code), s) := by
  induction sigs generalizing i code with
  | nil => rfl
  | cons vchSig sigs ih =>
    rw [length_cons, dropSignatures, bind_of_ok (stacktop_of_top h)]
    exact ih (prefix_drop_succ h) _

/-! ## The loop -/

section Loop

variable {flags : UInt32} {keys : List Bytes}

/-- No encoding check aborts. -/
structure Encoded (flags : UInt32) (sigs keys : List Bytes) : Prop where
  sigs : ∀ vchSig ∈ sigs, checkSignatureEncoding vchSig flags = .ok ()
  keys : ∀ vchPubKey ∈ keys, checkPubKeyEncoding vchPubKey flags = .ok ()

theorem checkEncodings_run (h : Encoded flags sigs keys) {vchSig vchPubKey : Bytes}
    (hsig : vchSig ∈ sigs) (hkey : vchPubKey ∈ keys) (m : Machine) :
    checkEncodings flags vchSig vchPubKey m = (.ok (), m) := by
  rw [checkEncodings, h.sigs vchSig hsig, h.keys vchPubKey hkey]
  rfl

/-- The loop is the greedy matching of the signatures to the keys. -/
theorem multiSigLoop_run (checker : SignatureChecker) (code : CScript) {i j : Nat}
    (hsigs : sigs <+: m.stack.drop i) (hkeys : keys <+: m.stack.drop j)
    (hle : sigs.length ≤ keys.length) (henc : Encoded flags sigs keys) :
    ∃ calls ≤ keys.length,
      multiSigLoop checker flags code keys.length (i + 1) (j + 1) sigs.length m =
        (.ok (greedyMatch (fun sig key => checker.checkSig sig key code) sigs keys),
          { m with checkSigCalls := m.checkSigCalls + calls }) := by
  induction keys generalizing sigs i j m with
  | nil =>
    obtain rfl : sigs = [] := length_eq_zero_iff.mp (le_zero.mp hle)
    exact ⟨0, le_rfl, rfl⟩
  | cons key keys ih =>
    cases sigs with
    | nil => exact ⟨0, zero_le _, rfl⟩
    | cons sig sigs =>
      simp only [length_cons] at hle ⊢
      rw [multiSigLoop, if_neg (succ_ne_zero _), bind_of_ok (onStack_of_ok (stacktop_of_top hsigs)),
        bind_of_ok (onStack_of_ok (stacktop_of_top hkeys)),
        bind_of_ok (checkEncodings_run henc mem_cons_self mem_cons_self m)]
      rw [bind_of_ok (show callCheckSig checker sig key code m =
        (.ok (checker.checkSig sig key code),
          { m with checkSigCalls := m.checkSigCalls + 1 }) from rfl), greedyMatch]
      by_cases hok : checker.checkSig sig key code = true
      · -- the key accepts: both indices move on
        obtain ⟨calls, hcalls, hrun⟩ := ih
          (m := { m with checkSigCalls := m.checkSigCalls + 1 }) (prefix_drop_succ hsigs)
          (prefix_drop_succ hkeys) (Nat.le_of_succ_le_succ hle)
          ⟨fun s hs => henc.sigs s (mem_cons_of_mem _ hs),
            fun k hk => henc.keys k (mem_cons_of_mem _ hk)⟩
        refine ⟨calls + 1, Nat.succ_le_succ hcalls, ?_⟩
        simp only [hok, if_true, Nat.add_sub_cancel]
        rw [if_neg (by omega), hrun, Nat.add_assoc, Nat.add_comm 1 calls]
      · -- it does not: the key is passed over
        simp only [hok, Bool.false_eq_true, if_false]
        by_cases hfew : keys.length < sigs.length + 1
        · refine ⟨1, by omega, ?_⟩
          rw [if_pos hfew, greedyMatch_of_length_lt (by simpa using hfew)]
          rfl
        · obtain ⟨calls, hcalls, hrun⟩ := ih
            (m := { m with checkSigCalls := m.checkSigCalls + 1 }) hsigs
            (prefix_drop_succ hkeys) (Nat.le_of_not_lt hfew)
            ⟨henc.sigs, fun k hk => henc.keys k (mem_cons_of_mem _ hk)⟩
          refine ⟨calls + 1, succ_le_succ hcalls, ?_⟩
          rw [length_cons] at hrun
          rw [if_neg hfew, hrun, add_assoc, add_comm 1 calls]

end Loop

/-! ## The instruction -/

theorem popMany_run (l rest : List Bytes) : popMany l.length (l ++ rest) = (.ok (), rest) := by
  induction l with
  | nil => rfl
  | cons v l ih =>
    exact ih

theorem scriptNumAt_of_top {minimal : Bool} {n : Int} (h : (v :: l) <+: s.drop i)
    (hnum : scriptNum v minimal nDefaultMaxNumSize = .ok n) :
    scriptNumAt (i + 1) minimal nDefaultMaxNumSize s = (.ok n, s) := by
  rw [scriptNumAt, bind_of_ok (stacktop_of_top h), hnum]
  rfl

theorem demand_of_true {σ : Type} {ok : Bool} {e : ScriptError} (h : ok = true) (s : σ) :
    demand ok e s = (.ok (), s) := by
  rw [h]
  rfl

theorem getint_natCast {n : Nat} (h : n ≤ 20) : getint (n : Int) = n := by
  unfold getint
  omega

/-- The arguments of the instruction, from the top of the stack: the number of keys, the keys, the
number of signatures, the signatures, and the element that is consumed for no reason. -/
structure MultiSigArgs (flags : UInt32) (stack keys sigs rest : List Bytes) : Prop where
  layout : ∃ vchKeys vchSigs vchDummy,
    stack = vchKeys :: (keys ++ vchSigs :: (sigs ++ vchDummy :: rest)) ∧
    scriptNum vchKeys (hasFlag flags scriptVerifyMINIMALDATA) nDefaultMaxNumSize =
      .ok keys.length ∧
    scriptNum vchSigs (hasFlag flags scriptVerifyMINIMALDATA) nDefaultMaxNumSize =
      .ok sigs.length ∧
    (hasFlag flags scriptVerifyNULLDUMMY = true → vchDummy = [])
  keys_le : keys.length ≤ 20
  sigs_le : sigs.length ≤ keys.length

section Instruction

variable {flags : UInt32} {keys sigs rest : List Bytes} {m : Machine}

section

variable (hargs : MultiSigArgs flags m.stack keys sigs rest)
include hargs

theorem readKeysCount_run : readKeysCount flags m = (.ok keys.length, m) := by
  obtain ⟨vchKeys, vchSigs, vchDummy, hstack, hkeys, -, -⟩ := hargs.layout
  have htop : (vchKeys :: (keys ++ vchSigs :: (sigs ++ vchDummy :: rest))) <+: m.stack.drop 0 :=
    ⟨[], by rw [append_nil, hstack]; rfl⟩
  have hneeds : needs 1 m.stack = (.ok (), m.stack) := demand_of_true (by simp [hstack]) _
  have hint := getint_natCast hargs.keys_le
  have hrange : (!(decide (getint (keys.length : Int) < 0) ||
      decide (20 < getint (keys.length : Int)))) = true := by
    have hle := hargs.keys_le
    simp
    omega
  rw [readKeysCount, bind_of_ok (onStack_of_ok hneeds),
    bind_of_ok (onStack_of_ok (scriptNumAt_of_top htop hkeys)),
    bind_of_ok (demand_of_true hrange _), hint]
  rfl

theorem readSigsCount_run :
    readSigsCount flags keys.length m.stack = (.ok sigs.length, m.stack) := by
  obtain ⟨vchKeys, vchSigs, vchDummy, hstack, -, hsigs, -⟩ := hargs.layout
  have htop : (vchSigs :: (sigs ++ vchDummy :: rest)) <+: m.stack.drop (1 + keys.length) :=
    ⟨[], by rw [append_nil, hstack, add_comm, drop_succ_cons, drop_left]⟩
  have hneeds : needs (2 + keys.length) m.stack = (.ok (), m.stack) := demand_of_true (by
      simp only [hstack, length_cons, length_append, decide_eq_true_eq]
      omega) _
  have hint := getint_natCast (hargs.sigs_le.trans hargs.keys_le)
  have hrange : (!(decide (getint (sigs.length : Int) < 0) ||
      decide ((keys.length : Int) < getint (sigs.length : Int)))) = true := by
    have hle := hargs.sigs_le
    simp
    omega
  have hindex : 2 + keys.length = 1 + keys.length + 1 := by omega
  rw [readSigsCount, bind_of_ok hneeds]
  rw [hindex, bind_of_ok (scriptNumAt_of_top htop hsigs), bind_of_ok (demand_of_true hrange _),
    hint]
  rfl

theorem finishMultiSig_run (fSuccess : Bool) :
    finishMultiSig flags (2 + keys.length + sigs.length) false fSuccess m.stack =
      (.ok (), (if fSuccess then vchTrue else vchFalse) :: rest) := by
  obtain ⟨vchKeys, vchSigs, vchDummy, hstack, -, -, hdummy⟩ := hargs.layout
  have hsplit : m.stack = (vchKeys :: (keys ++ vchSigs :: sigs)) ++ (vchDummy :: rest) := by
    rw [hstack, cons_append, append_assoc, cons_append]
  have hlen : 2 + keys.length + sigs.length = (vchKeys :: (keys ++ vchSigs :: sigs)).length := by
    simp only [length_cons, length_append]
    omega
  have hnull : (!(hasFlag flags scriptVerifyNULLDUMMY && vchDummy.length != 0)) = true := by
    cases hflag : hasFlag flags scriptVerifyNULLDUMMY with
    | false => rfl
    | true =>
      rw [hdummy hflag]
      rfl
  have hcheck : checkDummy flags (vchDummy :: rest) = (.ok (), vchDummy :: rest) := by
    exact demand_of_true hnull _
  rw [finishMultiSig, hlen, hsplit, bind_of_ok (popMany_run _ _),
    bind_of_ok (show needs 1 (vchDummy :: rest) = (.ok (), vchDummy :: rest) from rfl),
    bind_of_ok hcheck]
  cases fSuccess <;> rfl

end

/-- The instruction in terms of the greedy matching. -/
theorem opCheckMultiSig_run (checker : SignatureChecker)
    (hargs : MultiSigArgs flags m.stack keys sigs rest)
    (henc : Encoded flags sigs keys) (hops : m.nOpCount + keys.length ≤ 201) :
    ∃ calls ≤ keys.length, opCheckMultiSig checker flags false m = (.ok (), { m with
          stack := (if greedyMatch (fun sig key =>
              checker.checkSig sig key (codeWithout sigs m.pbegincodehash)) sigs keys
            then vchTrue else vchFalse) :: rest
          nOpCount := m.nOpCount + keys.length
          checkSigCalls := m.checkSigCalls + calls }) := by
  obtain ⟨vchKeys, vchSigs, vchDummy, hstack, -, -, -⟩ := hargs.layout
  have hkeysAt : keys <+: m.stack.drop 1 := ⟨vchSigs :: (sigs ++ vchDummy :: rest), by
    rw [hstack]
    rfl⟩
  have hsigsAt : sigs <+: m.stack.drop (2 + keys.length) := ⟨vchDummy :: rest, by
    rw [hstack, add_comm, drop_succ_cons, ← drop_drop, drop_left]
    rfl⟩
  have hindex : 3 + keys.length = 2 + keys.length + 1 := by omega
  have hneeds : needs (3 + keys.length + sigs.length) m.stack = (.ok (), m.stack) :=
    demand_of_true (by
      simp only [hstack, length_cons, length_append, decide_eq_true_eq]
      omega) _
  have hcount : countOps keys.length m =
      (.ok (), { m with nOpCount := m.nOpCount + keys.length }) :=
    demand_of_true (decide_eq_true hops) _
  -- from here on only the operation count differs from `m`
  obtain ⟨counted, hcounted⟩ :
      ∃ counted : Machine, counted = { m with nOpCount := m.nOpCount + keys.length } := ⟨_, rfl⟩
  have hsame : counted.stack = m.stack := by rw [hcounted]
  have hcode : codeFromSeparator counted = (.ok m.pbegincodehash, counted) := by
    rw [hcounted]
    rfl
  have hargsTop := hargs
  rw [← hcounted] at hcount
  rw [← hsame] at hargs hkeysAt hsigsAt hneeds
  obtain ⟨calls, hcalls, hloop⟩ := multiSigLoop_run checker
    (codeWithout sigs m.pbegincodehash) hsigsAt hkeysAt hargs.sigs_le henc
  refine ⟨calls, hcalls, ?_⟩
  have hfinish := finishMultiSig_run (m := counted) hargs
    (greedyMatch (fun sig key => checker.checkSig sig key (codeWithout sigs m.pbegincodehash))
      sigs keys)
  rw [opCheckMultiSig, bind_of_ok (readKeysCount_run hargsTop), bind_of_ok hcount,
    bind_of_ok (onStack_of_ok (readSigsCount_run hargs)), bind_of_ok (onStack_of_ok hneeds),
    bind_of_ok hcode, hindex, bind_of_ok (onStack_of_ok (dropSignatures_run hsigsAt _)),
    bind_of_ok hloop,
    onStack_of_ok (m := { counted with checkSigCalls := counted.checkSigCalls + calls }) hfinish,
    hcounted]

/-- **`opCheckMultiSig_matches`** — with as many keys and signatures on the stack as their numbers
say, and no encoding check that aborts, `OP_CHECKMULTISIG` pushes true exactly when the signatures,
in the order the loop visits them, can be assigned to keys in strictly increasing order such that
the checker accepts every assigned pair. It asks the checker at most once for each key and leaves
the stack below its arguments as it was. -/
theorem opCheckMultiSig_matches (checker : SignatureChecker)
    (hargs : MultiSigArgs flags m.stack keys sigs rest)
    (henc : Encoded flags sigs keys) (hops : m.nOpCount + keys.length ≤ 201) :
    ∃ (fSuccess : Bool) (calls : Nat), opCheckMultiSig checker flags false m = (.ok (), { m with
          stack := (if fSuccess then vchTrue else vchFalse) :: rest
          nOpCount := m.nOpCount + keys.length
          checkSigCalls := m.checkSigCalls + calls }) ∧
      (fSuccess = true ↔ OrderedMatch
        (fun sig key => checker.checkSig sig key (codeWithout sigs m.pbegincodehash)) sigs keys) ∧
      calls ≤ keys.length := by
  obtain ⟨calls, hcalls, hrun⟩ := opCheckMultiSig_run checker hargs henc hops
  exact ⟨_, calls, hrun, greedyMatch_iff, hcalls⟩

end Instruction

/-- A signature of the second of two keys, on top of an element that is not the instruction's. -/
def oneOfTwo : Machine where
  pc := []
  pbegincodehash := []
  stack := [[2], [7], [9], [1], [9], [], [5]]
  altstack := []
  vfExec := []
  nOpCount := 0
  checkSigCalls := 0

theorem oneOfTwo_args : MultiSigArgs 0 oneOfTwo.stack [[7], [9]] [[9]] [[5]] where
  layout := ⟨[2], [1], [], by decide⟩
  keys_le := by decide
  sigs_le := by decide

theorem opCheckMultiSig_oneOfTwo : ∃ (fSuccess : Bool) (calls : Nat),
      opCheckMultiSig ⟨fun sig key _ => sig == key, fun _ => false⟩ 0 false oneOfTwo =
        (.ok (), { oneOfTwo with
          stack := (if fSuccess then vchTrue else vchFalse) :: [[5]]
          nOpCount := oneOfTwo.nOpCount + 2
          checkSigCalls := oneOfTwo.checkSigCalls + calls }) ∧
      (fSuccess = true ↔ OrderedMatch (fun (sig key : Bytes) => sig == key) [[9]] [[7], [9]]) ∧
      calls ≤ 2 :=
  opCheckMultiSig_matches _ oneOfTwo_args ⟨by decide, by decide⟩ (by decide)

end MonetaryUnit
