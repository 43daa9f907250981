/-
# MonetaryUnit.Validation.StandardInputs — which inputs are relayed

`AreInputsStandard` of `main.cpp`, as a program on a coin view.

The loop body looks at one input and has three ways to end: the input is refused, the loop goes
on, or, at a P2SH input whose redeem script is of no standard kind, the function returns whether
that script has few signature operations. That last `return` is for the whole transaction: the
inputs after it are not looked at. `areInputsStandard_iff` says when it matters.
-/

import MonetaryUnit.Script.Safety
import MonetaryUnit.Script.Standard
import MonetaryUnit.Validation.Disconnect

namespace MonetaryUnit

open Lib ViewM List CCoins CTransaction FlatMap Prod Bool

def maxP2SHSigOps : Nat := 15

/-- `BaseSignatureChecker`, which accepts nothing. -/
def baseSignatureChecker : SignatureChecker where
  checkSig := fun _ _ _ => false
  checkLockTime := fun _ => false

/-! ## The loop -/

/-- How the body of the loop ends: `return false`, the next input, or
`return (sigops <= MAX_P2SH_SIGOPS)`. -/
inductive InputVerdict
  | refuse
  | next
  | answer (few : Bool)
deriving DecidableEq, Repr

section Source

variable (H : ScriptHashes) (P : StandardPolicy)

/-- `EvalScript(stack, scriptSig, false, BaseSignatureChecker())`. -/
def pushedStack (scriptSig : CScript) : Option (List Bytes) :=
  (evalScript H baseSignatureChecker scriptVerifyNone [] scriptSig 0).1.toOption

/-- `if (stack.size() != (unsigned int)nArgsExpected) return false;` -/
def checkArgs (stack : List Bytes) (nArgsExpected : Int) : InputVerdict :=
  if (stack.length : Int) ≠ nArgsExpected then .refuse else .next

/-- The part for `TX_SCRIPTHASH`. -/
def judgeRedeemScript (nArgsExpected : Int) : List Bytes → InputVerdict
  | [] => .refuse
  | subscript :: rest =>
    match solver P subscript with
    | (true, whichType2, vSolutions2) =>
      let tmpExpected := scriptSigArgsExpected whichType2 vSolutions2
      if tmpExpected < 0 then .refuse
      else checkArgs (subscript :: rest) (nArgsExpected + tmpExpected)
    | (false, _, _) => .answer (decide (getSigOpCount subscript true ≤ maxP2SHSigOps))

/-- The body of the loop, for the previous output's script and the script of the input. -/
def judgeInput (prevScript scriptSig : CScript) : InputVerdict :=
  match solver P prevScript with
  | (false, _, _) => .refuse
  | (true, whichType, vSolutions) =>
    let nArgsExpected := scriptSigArgsExpected whichType vSolutions
    if nArgsExpected < 0 then .refuse
    else
      match pushedStack H scriptSig with
      | none => .refuse
      | some stack =>
        if whichType = .scripthash then judgeRedeemScript P nArgsExpected stack
        else checkArgs stack nArgsExpected

variable {σ : Type} (V : CCoinsView σ) (s : σ)

/-- All inputs must be standard; the first that is not decides. -/
def standardLoop : List CTxIn → ViewM Bool
  | [] => pure true
  | txin :: rest => do
    let prev ← getOutputFor V s txin
    match judgeInput H P prev.scriptPubKey txin.scriptSig with
    | .refuse => pure false
    | .answer few => pure few
    | .next => standardLoop rest

/-- A coinbase has no outputs to look at. -/
def areInputsStandard (tx : CTransaction) : ViewM Bool :=
  if tx.isCoinBase then pure true else standardLoop H P V s tx.vin

end Source

/-! ## The rule for one input -/

section Rule

variable {H : ScriptHashes} {P : StandardPolicy} {prevScript scriptSig : CScript}

/-- What the body asks of an input: the previous script is of a standard kind that takes
arguments and the pushes evaluate. For P2SH the last push is a redeem script, which is either of
such a kind too and there are as many pushes as both take, or of none and has few signature
operations. Otherwise there are as many pushes as the script takes. -/
def InputRule (H : ScriptHashes) (P : StandardPolicy) (prevScript scriptSig : CScript) : Prop :=
  ∃ whichType vSolutions stack, solver P prevScript = (true, whichType, vSolutions) ∧
    0 ≤ scriptSigArgsExpected whichType vSolutions ∧ pushedStack H scriptSig = some stack ∧
    (whichType ≠ .scripthash ∧ (stack.length : Int) = scriptSigArgsExpected whichType vSolutions ∨
      whichType = .scripthash ∧ ∃ subscript rest, stack = subscript :: rest ∧
        ((∃ whichType2 vSolutions2, solver P subscript = (true, whichType2, vSolutions2) ∧
            0 ≤ scriptSigArgsExpected whichType2 vSolutions2 ∧
            (stack.length : Int) = scriptSigArgsExpected whichType vSolutions +
              scriptSigArgsExpected whichType2 vSolutions2) ∨
          (solver P subscript).1 = false ∧ getSigOpCount subscript true ≤ maxP2SHSigOps))

/-- The body does not refuse the input. -/
def InputVerdict.ok : InputVerdict → Bool
  | .refuse => false
  | .next => true
  | .answer few => few

theorem checkArgs_ok {stack : List Bytes} {n : Int} :
    (checkArgs stack n).ok = true ↔ (stack.length : Int) = n := by
  rw [checkArgs]
  split_ifs with hne
  · exact iff_of_false false_ne_true hne
  · exact iff_of_true rfl (not_not.mp hne)

theorem judgeRedeemScript_ok {n : Int} {stack : List Bytes} :
    (judgeRedeemScript P n stack).ok = true ↔ ∃ subscript rest, stack = subscript :: rest ∧
      ((∃ whichType2 vSolutions2, solver P subscript = (true, whichType2, vSolutions2) ∧
          0 ≤ scriptSigArgsExpected whichType2 vSolutions2 ∧
          (stack.length : Int) = n + scriptSigArgsExpected whichType2 vSolutions2) ∨
        (solver P subscript).1 = false ∧ getSigOpCount subscript true ≤ maxP2SHSigOps) := by
  rcases stack with _ | ⟨subscript, rest⟩
  · simp [judgeRedeemScript, InputVerdict.ok]
  rcases hsolver : solver P subscript with ⟨_ | _, t2, sols2⟩
  · simp [judgeRedeemScript, InputVerdict.ok, hsolver]
  · by_cases hneg : scriptSigArgsExpected t2 sols2 < 0
    · simp [judgeRedeemScript, InputVerdict.ok, hsolver, hneg]
    · simp [judgeRedeemScript, hsolver, hneg, not_lt.mp hneg, checkArgs_ok]

/-- The verdict on an input that is not refused is the rule. -/
theorem judgeInput_ok : (judgeInput H P prevScript scriptSig).ok = true ↔
    InputRule H P prevScript scriptSig := by
  rw [InputRule]
  rcases hsolver : solver P prevScript with ⟨_ | _, t, sols⟩
  · simp [judgeInput, InputVerdict.ok, hsolver]
  by_cases hneg : scriptSigArgsExpected t sols < 0
  · simp [judgeInput, InputVerdict.ok, hsolver, hneg]
  rcases hstack : pushedStack H scriptSig with _ | stack
  · simp [judgeInput, InputVerdict.ok, hsolver, hstack]
  by_cases htype : t = .scripthash
  · subst htype
    simp [judgeInput, hsolver, hneg, not_lt.mp hneg, hstack, judgeRedeemScript_ok]
  · simp [judgeInput, hsolver, hneg, not_lt.mp hneg, hstack, htype, checkArgs_ok]

/-- The input spends a P2SH output with a redeem script of no standard kind and few signature
operations. -/
def StrangeRedeem (H : ScriptHashes) (P : StandardPolicy) (prevScript scriptSig : CScript) : Prop :=
  ∃ vSolutions subscript rest, solver P prevScript = (true, .scripthash, vSolutions) ∧
    pushedStack H scriptSig = some (subscript :: rest) ∧ (solver P subscript).1 = false ∧
    getSigOpCount subscript true ≤ maxP2SHSigOps

theorem checkArgs_ne_answer {stack : List Bytes} {n : Int} {few : Bool} :
    checkArgs stack n ≠ .answer few := by
  rw [checkArgs]
  split_ifs <;> exact InputVerdict.noConfusion

theorem judgeRedeemScript_answer {n : Int} {stack : List Bytes} :
    judgeRedeemScript P n stack = .answer true ↔ ∃ subscript rest, stack = subscript :: rest ∧
      (solver P subscript).1 = false ∧ getSigOpCount subscript true ≤ maxP2SHSigOps := by
  rcases stack with _ | ⟨subscript, rest⟩
  · simp [judgeRedeemScript]
  rcases hsolver : solver P subscript with ⟨_ | _, t2, sols2⟩
  · simp [judgeRedeemScript, hsolver]
  · by_cases hneg : scriptSigArgsExpected t2 sols2 < 0
    · simp [judgeRedeemScript, hsolver, hneg]
    · simp [judgeRedeemScript, hsolver, hneg, checkArgs_ne_answer]

/-- These are the inputs at which the function returns early with success. -/
theorem judgeInput_answer : judgeInput H P prevScript scriptSig = .answer true ↔
    StrangeRedeem H P prevScript scriptSig := by
  rw [StrangeRedeem]
  rcases hsolver : solver P prevScript with ⟨_ | _, t, sols⟩
  · simp [judgeInput, hsolver]
  rcases hstack : pushedStack H scriptSig with _ | stack
  · simp [judgeInput, hsolver, hstack]
  by_cases htype : t = .scripthash
  · subst htype
    have hargs : ¬ scriptSigArgsExpected .scripthash sols < 0 := show ¬ (1 : Int) < 0 by decide
    simp [judgeInput, hsolver, hargs, hstack, judgeRedeemScript_answer]
  · by_cases hneg : scriptSigArgsExpected t sols < 0
    · simp [judgeInput, hsolver, htype, hneg]
    · simp [judgeInput, hsolver, hstack, htype, hneg, checkArgs_ne_answer]

end Rule

/-! ## The loop on the verdicts -/

section Verdicts

variable {vs vs' : List InputVerdict}

/-- The result of the loop: the first verdict that ends it decides. -/
def firstAnswer : List InputVerdict → Bool
  | [] => true
  | .refuse :: _ => false
  | .answer few :: _ => few
  | .next :: vs => firstAnswer vs

section

variable (h : InputVerdict.answer true ∈ vs → ∀ v ∈ vs, v.ok = true)
include h

/-- Unless the function both ends early with success at some input and refuses another, it is
the conjunction of the verdicts. -/
theorem firstAnswer_iff : firstAnswer vs = true ↔ ∀ v ∈ vs, v.ok = true := by
  induction vs with
  | nil => exact iff_of_true rfl fun _ hv => absurd hv not_mem_nil
  | cons v vs ih =>
    rw [forall_mem_cons]
    rcases v with _ | _ | _ | _
    · exact iff_of_false false_ne_true fun hall => false_ne_true hall.1
    · rw [firstAnswer, ih fun hmem => (forall_mem_cons.mp (h (mem_cons_of_mem _ hmem))).2]
      exact ⟨fun hall => ⟨rfl, hall⟩, fun hall => hall.2⟩
    · exact iff_of_false false_ne_true fun hall => false_ne_true hall.1
    · exact iff_of_true rfl (forall_mem_cons.mp (h mem_cons_self))

theorem firstAnswer_perm (hperm : vs'.Perm vs) : firstAnswer vs' = firstAnswer vs := by
  have h' : .answer true ∈ vs' → ∀ v ∈ vs', v.ok = true := fun hmem v hv =>
    h (hperm.subset hmem) v (hperm.subset hv)
  rw [Bool.eq_iff_iff, firstAnswer_iff h, firstAnswer_iff h']
  exact ⟨fun hall v hv => hall v (hperm.symm.subset hv), fun hall v hv => hall v (hperm.subset hv)⟩

end

/-- A refused input in front makes the function fail. -/
theorem firstAnswer_cons_bad {v : InputVerdict} (h : v.ok = false) :
    firstAnswer (v :: vs) = false := by
  rcases v with _ | _ | _ | _
  · rfl
  · exact absurd h.symm false_ne_true
  · rfl
  · exact absurd h.symm false_ne_true

end Verdicts

/-! ## On a coin view -/

section View

variable {σ : Type} {V : CCoinsView σ} {s : σ} {st : List CCoinsViewCache} {m : FlatMap}
variable {best below : Uint256} {H : ScriptHashes} {P : StandardPolicy} {tx : CTransaction}

/-- The script of an output that the map holds. -/
def FlatMap.scriptAt (m : FlatMap) (o : COutPoint) : CScript :=
  ((m.coinAt o.hash o.n.toNat).map fun coin => coin.txout.scriptPubKey).getD []

/-- The verdict on an input whose previous output is in the map. -/
def verdictOn (H : ScriptHashes) (P : StandardPolicy) (m : FlatMap) (txin : CTxIn) :
    InputVerdict :=
  judgeInput H P (m.scriptAt txin.prevout) txin.scriptSig

theorem standardLoop_spec (h : Shows V s st m best below) {vin : List CTxIn}
    (hav : ∀ txin ∈ vin, m.available txin.prevout = true) :
    ∃ st', standardLoop H P V s vin st = .ok (firstAnswer (vin.map (verdictOn H P m)), st') := by
  induction vin generalizing st with
  | nil => exact ⟨st, rfl⟩
  | cons txin rest ih =>
    rw [forall_mem_cons] at hav
    obtain ⟨coin, st1, hout, hcoin, hshows⟩ := getOutputFor_spec h hav.1
    have hverdict : verdictOn H P m txin =
        judgeInput H P coin.txout.scriptPubKey txin.scriptSig := by
      rw [verdictOn, scriptAt, hcoin]
      rfl
    rw [standardLoop, bind_of_ok hout, ← hverdict, map_cons]
    rcases verdictOn H P m txin with _ | _ | few
    · exact ⟨st1, rfl⟩
    · exact ih hshows hav.2
    · exact ⟨st1, rfl⟩

/-- `AreInputsStandard` returns `b`. -/
def Answers (H : ScriptHashes) (P : StandardPolicy) (V : CCoinsView σ) (s : σ)
    (st : List CCoinsViewCache) (tx : CTransaction) (b : Bool) : Prop :=
  ∃ st', areInputsStandard H P V s tx st = .ok (b, st')

theorem answers_iff (h : Shows V s st m best below) (hcoinbase : tx.isCoinBase = false)
    (hav : ∀ txin ∈ tx.vin, m.available txin.prevout = true) (b : Bool) :
    Answers H P V s st tx b ↔ firstAnswer (tx.vin.map (verdictOn H P m)) = b := by
  obtain ⟨st', hrun⟩ := @standardLoop_spec σ V s st m best below H P h tx.vin hav
  rw [Answers, areInputsStandard, hcoinbase, if_neg Bool.false_ne_true, hrun]
  constructor
  · rintro ⟨st1, heq⟩
    exact (mk.inj (Except.ok.inj heq)).1
  · rintro rfl
    exact ⟨st', rfl⟩

theorem isCoinBase_perm {vin' : List CTxIn} (hperm : vin'.Perm tx.vin) :
    ({ tx with vin := vin' } : CTransaction).isCoinBase = tx.isCoinBase := by
  rw [isCoinBase, isCoinBase]
  rcases htx : tx.vin with _ | ⟨a, _ | ⟨b, rest⟩⟩
  · rw [htx] at hperm
    rw [hperm.eq_nil]
  · rw [htx] at hperm
    rw [perm_singleton.mp hperm]
  · rw [htx] at hperm
    have hlen := hperm.length_eq
    rcases vin' with _ | ⟨c, _ | ⟨d, rest'⟩⟩
    · simp at hlen
    · simp at hlen
    · rfl

/-- **`areInputsStandard_iff`** — the inputs of a transaction are judged one by one, in whatever
order they stand, exactly if it does not have both a P2SH input with a redeem script of no standard
kind and few signature operations and an input that breaks the rule. -/
theorem areInputsStandard_iff (H : ScriptHashes) (P : StandardPolicy) (V : CCoinsView σ) (s : σ)
    (st : List CCoinsViewCache) (tx : CTransaction) (hcoherent : Coherent V s st) (hne : st ≠ [])
    (hcoinbase : tx.isCoinBase = false)
    (hav : ∀ txin ∈ tx.vin, FlatMap.available (seen V s st) txin.prevout = true) :
    ((Answers H P V s st tx true ↔ ∀ txin ∈ tx.vin,
        InputRule H P (FlatMap.scriptAt (seen V s st) txin.prevout) txin.scriptSig) ∧
      ∀ vin' : List CTxIn, vin'.Perm tx.vin → ∀ b,
        (Answers H P V s st { tx with vin := vin' } b ↔ Answers H P V s st tx b)) ↔
    ¬ ((∃ txin ∈ tx.vin,
        StrangeRedeem H P (FlatMap.scriptAt (seen V s st) txin.prevout) txin.scriptSig) ∧
      ∃ txin ∈ tx.vin,
        ¬ InputRule H P (FlatMap.scriptAt (seen V s st) txin.prevout) txin.scriptSig) := by
  have h : Shows V s st (seen V s st) (bestBlock V s st) (bestBlock V s st.tail) :=
    ⟨hcoherent, hne, rfl, rfl, rfl⟩
  obtain ⟨m, hm⟩ : ∃ m : FlatMap, seen V s st = m := ⟨_, rfl⟩
  rw [hm] at h hav ⊢
  have hrule : ∀ txin, InputRule H P (m.scriptAt txin.prevout) txin.scriptSig ↔
      (verdictOn H P m txin).ok = true := fun txin => judgeInput_ok.symm
  have hanswer : ∀ txin, StrangeRedeem H P (m.scriptAt txin.prevout) txin.scriptSig ↔
      verdictOn H P m txin = .answer true := fun txin => judgeInput_answer.symm
  have hanswers : ∀ vin' : List CTxIn, vin'.Perm tx.vin → ∀ b,
      Answers H P V s st { tx with vin := vin' } b ↔
        firstAnswer (vin'.map (verdictOn H P m)) = b := fun vin' hperm b =>
    answers_iff h ((isCoinBase_perm hperm).trans hcoinbase)
      (fun txin hin => hav txin (hperm.subset hin)) b
  have hself := answers_iff (H := H) (P := P) h hcoinbase hav
  simp only [hrule, hanswer]
  constructor
  · -- The early success in front gives true, the bad input in front gives false.
    rintro ⟨-, hperm⟩ ⟨⟨good, hgood, hearly⟩, bad, hbad, hbroken⟩
    have hfirst := perm_cons_erase hgood
    have hsecond := perm_cons_erase hbad
    have htrue : Answers H P V s st { tx with vin := good :: tx.vin.erase good } true := by
      rw [hanswers _ hfirst.symm, map_cons, hearly]
      rfl
    have hfalse : Answers H P V s st { tx with vin := bad :: tx.vin.erase bad } false := by
      rw [hanswers _ hsecond.symm]
      exact firstAnswer_cons_bad (eq_false_iff.mpr hbroken)
    have hyes := (hself true).mp ((hperm _ hfirst.symm true).mp htrue)
    have hno := (hself false).mp ((hperm _ hsecond.symm false).mp hfalse)
    exact ne_true_of_eq_false hno hyes
  · intro hnot
    have hind : InputVerdict.answer true ∈ tx.vin.map (verdictOn H P m) →
        ∀ v ∈ tx.vin.map (verdictOn H P m), v.ok = true := by
      intro hmem v hv
      obtain ⟨good, hgood, hearly⟩ := mem_map.mp hmem
      obtain ⟨txin, hin, rfl⟩ := mem_map.mp hv
      by_contra hbroken
      exact hnot ⟨⟨good, hgood, hearly⟩, txin, hin, hbroken⟩
    refine ⟨?_, fun vin' hperm b => ?_⟩
    · rw [hself, firstAnswer_iff hind, forall_mem_map]
    · rw [hanswers vin' hperm, hself, firstAnswer_perm hind (hperm.map _)]

/-! ## A transaction with two inputs -/

/-- Outputs: a P2SH script, a script of no standard kind, a pay-to-pubkey-hash script. -/
def mixedCoins : CCoins where
  vout := [⟨10, [0xa9, 0x14] ++ List.replicate 20 0 ++ [0x87]⟩, ⟨10, [0x61]⟩,
    ⟨10, [0x76, 0xa9, 0x14] ++ List.replicate 20 0 ++ [0x88, 0xac]⟩]
  nHeight := 2
  nVersion := 1

/-- A spend of the P2SH output, with the redeem script `OP_NOP`. -/
def redeemNop : CTxIn := ⟨⟨5, 0⟩, [0x01, 0x61], 0⟩

def spendStrange : CTxIn := ⟨⟨5, 1⟩, [0x00], 0⟩

def spendKeyHash : CTxIn := ⟨⟨5, 2⟩, [0x00, 0x00], 0⟩

def spendTwo (first second : CTxIn) : CTransaction where
  hash := 9
  nVersion := 1
  vin := [first, second]
  vout := [⟨10, []⟩]
  nLockTime := 0
  strTxComment := []

/-- The verdict, or nothing if the function does not return. -/
def answerOn (tx : CTransaction) : Option Bool :=
  (areInputsStandard zeroHashes {} coinsViewDB {} tx [plainView 5 mixedCoins]).toOption.map Prod.fst

/-- The second input spends a script of no standard kind, which is only noticed if it comes
first. -/
theorem redeemNop_hides_spendStrange : Coherent coinsViewDB {} [plainView 5 mixedCoins] ∧
      (spendTwo redeemNop spendStrange).isCoinBase = false ∧
      (∀ txin ∈ (spendTwo redeemNop spendStrange).vin,
        FlatMap.available (seen coinsViewDB {} [plainView 5 mixedCoins]) txin.prevout = true) ∧
      answerOn (spendTwo redeemNop spendStrange) = some true ∧
      answerOn (spendTwo spendStrange redeemNop) = some false ∧
      ¬ InputRule zeroHashes {} (FlatMap.scriptAt (seen coinsViewDB {} [plainView 5 mixedCoins])
        spendStrange.prevout) spendStrange.scriptSig := by
  refine ⟨plainView_coherent 5 (by decide), by decide, by decide, by decide +kernel,
    by decide +kernel, ?_⟩
  rw [← judgeInput_ok]
  decide +kernel

/-- Two inputs that keep the rule. -/
theorem redeemNop_with_spendKeyHash : Answers zeroHashes {} coinsViewDB {} [plainView 5 mixedCoins]
        (spendTwo redeemNop spendKeyHash) true ↔
      ∀ txin ∈ (spendTwo redeemNop spendKeyHash).vin, InputRule zeroHashes {}
        (FlatMap.scriptAt (seen coinsViewDB {} [plainView 5 mixedCoins]) txin.prevout)
        txin.scriptSig := by
  refine ((areInputsStandard_iff zeroHashes {} coinsViewDB {} [plainView 5 mixedCoins]
    (spendTwo redeemNop spendKeyHash) (plainView_coherent 5 (by decide))
    (cons_ne_nil _ _) (by decide) (by decide)).mpr ?_).1
  rintro ⟨-, txin, hin, hbroken⟩
  rw [← judgeInput_ok] at hbroken
  have hall : ∀ txin ∈ (spendTwo redeemNop spendKeyHash).vin,
      (judgeInput zeroHashes {} (scriptAt (seen coinsViewDB {} [plainView 5 mixedCoins])
        txin.prevout) txin.scriptSig).ok = true := by decide +kernel
  exact hbroken (hall txin hin)

end View

end MonetaryUnit
