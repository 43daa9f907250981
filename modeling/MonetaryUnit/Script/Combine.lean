/-
# MonetaryUnit.Script.Combine — merging the signatures of two partly signed inputs

`CombineMultisig` of `script/sign.cpp`. The signatures of both stacks go through a set, each is
given to the first key without one that accepts it, and the result pushes the signatures in the
order of the keys, as many as the script asks for, with empty elements for those that are missing.

If no signature is accepted by two of the keys, the greedy assignment finds a signature for every
key that has one in either stack (`matchSigs_covers`), and the order of the keys is the order in
which `OP_CHECKMULTISIG` looks for them.
-/

import MonetaryUnit.Script.PushRuns
import MonetaryUnit.Script.SignatureHash

namespace MonetaryUnit

open Lib Function Option Nat

/-! ## Model -/

/-- `set<valtype>::insert`, in the order of the bytes. -/
def setInsert (v : Bytes) : List Bytes → List Bytes
  | [] => [v]
  | w :: set => if v < w then v :: w :: set else if v = w then w :: set else w :: setInsert v set

/-- The elements that are not empty are added to the set. -/
def insertSigs (sigs allsigs : List Bytes) : List Bytes :=
  sigs.foldl (fun allsigs v => if v.isEmpty then allsigs else setInsert v allsigs) allsigs

section Model

variable (checker : SignatureChecker) (scriptPubKey : CScript)

/-- The inner loop: the first key without a signature that accepts this one gets it. -/
def assignSig (sig : Bytes) : List Bytes → (Bytes → Option Bytes) → Bytes → Option Bytes
  | [], sigs => sigs
  | pubkey :: pubkeys, sigs =>
    if (sigs pubkey).isSome then assignSig sig pubkeys sigs
    else if checker.checkSig sig pubkey scriptPubKey then
      Function.update sigs pubkey (some sig)
    else assignSig sig pubkeys sigs

/-- The map from keys to signatures. -/
def matchSigs (pubkeys allsigs : List Bytes) : Bytes → Option Bytes :=
  allsigs.foldl (fun sigs sig => assignSig checker scriptPubKey sig pubkeys sigs) fun _ => none

/-- The loop over the keys: `nSigsHave` and the merged script. -/
def mergeSigs (sigs : Bytes → Option Bytes) (nSigsRequired : Nat) :
    List Bytes → Nat → CScript → Nat × CScript
  | [], nSigsHave, result => (nSigsHave, result)
  | pubkey :: pubkeys, nSigsHave, result =>
    if nSigsHave < nSigsRequired then
      match sigs pubkey with
      | some sig => mergeSigs sigs nSigsRequired pubkeys (nSigsHave + 1) (result ++ pushBytes sig)
      | none => mergeSigs sigs nSigsRequired pubkeys nSigsHave result
    else (nSigsHave, result)

/-- The keys between the two numbers. -/
def solutionKeys (vSolutions : List Bytes) : List Bytes :=
  (vSolutions.drop 1).take (vSolutions.length - 2)

/-- `nSigsRequired`. -/
def solutionSigsRequired (vSolutions : List Bytes) : Nat := (firstByte vSolutions.head?).toNat

/-- `CombineMultisig`; `none` where the assertion fails. -/
def combineMultisig (vSolutions sigs1 sigs2 : List Bytes) : Option CScript :=
  if vSolutions.length ≤ 1 then none
  else
    let allsigs := insertSigs sigs2 (insertSigs sigs1 [])
    let sigs := matchSigs checker scriptPubKey (solutionKeys vSolutions) allsigs
    let nSigsRequired := solutionSigsRequired vSolutions
    let merged := mergeSigs sigs nSigsRequired (solutionKeys vSolutions) 0 [0x00]
    some (merged.2 ++ List.replicate (nSigsRequired - merged.1) 0x00)

end Model

/-! ## The set of signatures -/

variable {v : Bytes} {set sigs allsigs : List Bytes}

theorem mem_setInsert {w : Bytes} : w ∈ setInsert v set ↔ w = v ∨ w ∈ set := by
  induction set with
  | nil => simp [setInsert]
  | cons u set ih =>
    rw [setInsert]
    split_ifs with hlt heq
    · exact List.mem_cons
    · rw [heq, List.mem_cons]
      tauto
    · rw [List.mem_cons, List.mem_cons]
      tauto

theorem pairwise_setInsert (h : set.Pairwise (· < ·)) : (setInsert v set).Pairwise (· < ·) := by
  induction h with
  | nil => exact List.pairwise_singleton _ _
  | @cons w set hw hset ih =>
    rw [setInsert]
    split_ifs with hlt heq
    · refine List.pairwise_cons.mpr ⟨fun u hu => ?_, List.pairwise_cons.mpr ⟨hw, hset⟩⟩
      rcases List.mem_cons.mp hu with rfl | hu
      · exact hlt
      · exact List.lt_trans hlt (hw u hu)
    · exact List.pairwise_cons.mpr ⟨hw, hset⟩
    · refine List.pairwise_cons.mpr ⟨fun u hu => ?_, ih⟩
      rcases mem_setInsert.mp hu with rfl | hu
      · exact Std.lt_of_le_of_ne hlt (Ne.symm heq)
      · exact hw u hu

theorem mem_insertSigs : v ∈ insertSigs sigs allsigs ↔ v ∈ allsigs ∨ v ∈ sigs ∧ v ≠ [] := by
  induction sigs generalizing allsigs with
  | nil => simp [insertSigs]
  | cons w sigs ih =>
    have hstep : insertSigs (w :: sigs) allsigs =
        insertSigs sigs (if w.isEmpty then allsigs else setInsert w allsigs) := rfl
    rw [hstep, ih, List.mem_cons]
    split_ifs with hempty
    · rw [List.isEmpty_iff] at hempty
      subst hempty
      tauto
    · rw [List.isEmpty_iff] at hempty
      rw [mem_setInsert]
      by_cases hv : v = w <;> simp [hv, hempty]

theorem pairwise_insertSigs (h : allsigs.Pairwise (· < ·)) :
    (insertSigs sigs allsigs).Pairwise (· < ·) := by
  refine List.foldlRecOn sigs _ h fun allsigs hall v _ => ?_
  split_ifs
  · exact hall
  · exact pairwise_setInsert hall

/-- The order of the two stacks does not show in the set. -/
theorem insertSigs_comm (sigs1 sigs2 : List Bytes) :
    insertSigs sigs2 (insertSigs sigs1 []) = insertSigs sigs1 (insertSigs sigs2 []) := by
  have hsorted (a b : List Bytes) : (insertSigs b (insertSigs a [])).Pairwise (· < ·) :=
    pairwise_insertSigs (pairwise_insertSigs List.Pairwise.nil)
  refine (hsorted _ _).eq_of_mem_iff (hsorted _ _) fun v => ?_
  simp only [mem_insertSigs]
  tauto

/-! ## The assignment -/

section Assignment

variable {checker : SignatureChecker} {code : CScript} {pubkeys : List Bytes}
  {sigs : Bytes → Option Bytes} {sig : Bytes}

variable {pubkey s : Bytes}

theorem assignSig_keeps (h : sigs pubkey = some s) :
    assignSig checker code sig pubkeys sigs pubkey = some s := by
  induction pubkeys with
  | nil => exact h
  | cons first pubkeys ih =>
    rw [assignSig]
    split_ifs with htaken hok
    · exact ih
    · rw [update_of_ne, h]
      rintro rfl
      exact htaken (by rw [h]; rfl)
    · exact ih

theorem assignSig_sound (h : assignSig checker code sig pubkeys sigs pubkey = some s) :
    sigs pubkey = some s ∨ s = sig ∧ checker.checkSig sig pubkey code = true := by
  induction pubkeys with
  | nil => exact .inl h
  | cons first pubkeys ih =>
    rw [assignSig] at h
    split_ifs at h with htaken hok
    · exact ih h
    · by_cases heq : pubkey = first
      · subst heq
        rw [update_self, some.injEq] at h
        exact .inr ⟨h.symm, hok⟩
      · rw [update_of_ne heq] at h
        exact .inl h
    · exact ih h

/-- A signature that one key accepts leaves that key with a signature. -/
theorem assignSig_covers (hmem : pubkey ∈ pubkeys) (hok : checker.checkSig sig pubkey code = true)
    (hone : ∀ other ∈ pubkeys, checker.checkSig sig other code = true → other = pubkey) :
    (assignSig checker code sig pubkeys sigs pubkey).isSome = true := by
  induction pubkeys with
  | nil => cases hmem
  | cons first pubkeys ih =>
    have hone' : ∀ other ∈ pubkeys, checker.checkSig sig other code = true →
        other = pubkey := fun other hother => hone other (List.mem_cons_of_mem _ hother)
    rw [assignSig]
    split_ifs with htaken hfirst
    · rcases List.mem_cons.mp hmem with rfl | hmem
      · obtain ⟨s, hs⟩ := isSome_iff_exists.mp htaken
        rw [assignSig_keeps hs]
        rfl
      · exact ih hmem hone'
    · rw [hone first List.mem_cons_self hfirst, update_self]
      rfl
    · rcases List.mem_cons.mp hmem with rfl | hmem
      · exact absurd hok hfirst
      · exact ih hmem hone'

theorem matchSigs_concat (allsigs : List Bytes) :
    matchSigs checker code pubkeys (allsigs ++ [sig]) =
      assignSig checker code sig pubkeys
        (matchSigs checker code pubkeys allsigs) := by
  rw [matchSigs, List.foldl_concat]
  rfl

/-- Every signature of the map is one of the set that its key accepts. -/
theorem matchSigs_sound (h : matchSigs checker code pubkeys allsigs pubkey = some s) :
    s ∈ allsigs ∧ checker.checkSig s pubkey code = true := by
  induction allsigs using List.reverseRecOn with
  | nil => cases h
  | append_singleton allsigs sig ih =>
    rw [matchSigs_concat] at h
    rcases assignSig_sound h with hold | ⟨rfl, hok⟩
    · exact ⟨List.mem_append_left _ (ih hold).1, (ih hold).2⟩
    · exact ⟨List.mem_append_right _ List.mem_cons_self, hok⟩

/-- A key that accepts a signature of the set has one in the map. -/
theorem matchSigs_covers
    (hone : ∀ s ∈ allsigs, ∀ key ∈ pubkeys, ∀ other ∈ pubkeys,
      checker.checkSig s key code = true → checker.checkSig s other code = true →
      other = key) (hkey : pubkey ∈ pubkeys) (hs : s ∈ allsigs)
    (hok : checker.checkSig s pubkey code = true) :
    (matchSigs checker code pubkeys allsigs pubkey).isSome = true := by
  induction allsigs using List.reverseRecOn with
  | nil => cases hs
  | append_singleton allsigs sig ih =>
    rw [matchSigs_concat]
    rcases List.mem_append.mp hs with hold | hnew
    · obtain ⟨t, ht⟩ := isSome_iff_exists.mp
        (ih (fun u hu => hone u (List.mem_append_left _ hu)) hold)
      rw [assignSig_keeps ht]
      rfl
    · obtain rfl := List.mem_singleton.mp hnew
      exact assignSig_covers hkey hok fun other hother hother' =>
        hone s hs pubkey hkey other hother hok hother'

end Assignment

/-! ## The merged script -/

theorem mergeSigs_eq (sigs : Bytes → Option Bytes) (nSigsRequired : Nat) (pubkeys : List Bytes)
    (nSigsHave : Nat) (result : CScript) :
    mergeSigs sigs nSigsRequired pubkeys nSigsHave result =
      (nSigsHave + ((pubkeys.filterMap sigs).take (nSigsRequired - nSigsHave)).length,
        result ++ (((pubkeys.filterMap sigs).take (nSigsRequired - nSigsHave)).map
          pushBytes).flatten) := by
  induction pubkeys generalizing nSigsHave result with
  | nil => simp [mergeSigs]
  | cons pubkey pubkeys ih =>
    rw [mergeSigs]
    split_ifs with hmore
    · rcases hsig : sigs pubkey with _ | sig
      · rw [ih, List.filterMap_cons_none hsig]
      · dsimp only
        have hneed : nSigsRequired - nSigsHave = (nSigsRequired - (nSigsHave + 1)) + 1 := by omega
        rw [ih, List.filterMap_cons_some hsig, hneed, List.take_succ_cons, List.length_cons,
          List.map_cons, List.flatten_cons, List.append_assoc, add_assoc,
          add_comm 1]
    · have hnone : nSigsRequired - nSigsHave = 0 := by omega
      simp [hnone]

/-- Keys with a signature, and their signatures. -/
theorem forall₂_filterMap {sigs : Bytes → Option Bytes} {covered : Bytes → Bool}
    {R : Bytes → Bytes → Prop} {pubkeys : List Bytes}
    (hcovered : ∀ key ∈ pubkeys, covered key = (sigs key).isSome)
    (hsound : ∀ key s, sigs key = some s → R key s) :
    List.Forall₂ R (pubkeys.filter covered) (pubkeys.filterMap sigs) := by
  induction pubkeys with
  | nil => exact .nil
  | cons key pubkeys ih =>
    have hrest := ih fun other hother => hcovered other (List.mem_cons_of_mem _ hother)
    have hkey := hcovered key List.mem_cons_self
    rcases hsig : sigs key with _ | s
    · rw [hsig] at hkey
      rw [List.filterMap_cons_none hsig, List.filter_cons_of_neg (by rw [hkey]; simp)]
      exact hrest
    · rw [hsig] at hkey
      rw [List.filterMap_cons_some hsig, List.filter_cons_of_pos (by rw [hkey]; rfl)]
      exact .cons (hsound key s hsig) hrest

/-! ## The result -/

theorem multisig_of_solver {P : StandardPolicy} {script : CScript} {vSolutions : List Bytes}
    (h : solver P script = (true, .multisig, vSolutions)) :
    ∃ n ins, 1 ≤ solutionSigsRequired vSolutions ∧ solutionSigsRequired vSolutions ≤ n ∧ n ≤ 16 ∧
      KeyPushes ins (solutionKeys vSolutions) ∧ (solutionKeys vSolutions).length = n ∧
      script = multisigScript (solutionSigsRequired vSolutions) n ins ∧ 1 < vSolutions.length := by
  rcases solver_iff.mp h with hform | ⟨-, hnull, -⟩
  · cases hform with
    | @multisig m n ins keys hm hmn hn hkeys hlen =>
      have hrequired : solutionSigsRequired ([UInt8.ofNat m] :: (keys ++ [[UInt8.ofNat n]])) =
          m := by
        simp only [solutionSigsRequired, firstByte, List.head?_cons, bind_some, getD_some]
        rw [UInt8.toNat_ofNat', mod_eq_of_lt (by omega)]
      have hsame : solutionKeys ([UInt8.ofNat m] :: (keys ++ [[UInt8.ofNat n]])) = keys := by
        simp [solutionKeys]
      rw [hrequired, hsame]
      exact ⟨n, ins, hm, hmn, hn, hkeys, hlen, rfl, by simp⟩
  · cases hnull

theorem codeWithout_of_absent {code : CScript}
    (h : ∀ sig ∈ sigs, findAndDelete code (pushBytes sig) = code) :
    codeWithout sigs code = code := by
  induction sigs with
  | nil => rfl
  | cons sig sigs ih =>
    rw [codeWithout, List.foldl_cons, h sig List.mem_cons_self]
    exact ih fun s hs => h s (List.mem_cons_of_mem _ hs)

section Result

variable {checker : SignatureChecker} {scriptPubKey : CScript} {vSolutions sigs1 sigs2 : List Bytes}

/-- A key for which one of the stacks holds a valid signature. -/
def covered (checker : SignatureChecker) (scriptPubKey : CScript) (sigs1 sigs2 : List Bytes)
    (key : Bytes) : Bool :=
  (sigs1 ++ sigs2).any fun sig => checker.checkSig sig key scriptPubKey

/-- The keys whose signatures are pushed. -/
def servedKeys (checker : SignatureChecker) (scriptPubKey : CScript)
    (vSolutions sigs1 sigs2 : List Bytes) : List Bytes :=
  ((solutionKeys vSolutions).filter (covered checker scriptPubKey sigs1 sigs2)).take
    (solutionSigsRequired vSolutions)

/-- The script pushes one signature for each of the keys that are served, and empty elements. -/
theorem combineMultisig_pushes (hlen : 1 < vSolutions.length)
    (hempty : ∀ key, checker.checkSig [] key scriptPubKey = false)
    (hone : ∀ sig ∈ sigs1 ++ sigs2, ∀ key ∈ solutionKeys vSolutions,
      ∀ other ∈ solutionKeys vSolutions, checker.checkSig sig key scriptPubKey = true →
      checker.checkSig sig other scriptPubKey = true → other = key) :
    ∃ chosen : List Bytes, List.Forall₂ (fun key sig => (sig ∈ sigs1 ++ sigs2 ∧ sig ≠ []) ∧
        checker.checkSig sig key scriptPubKey = true)
        (servedKeys checker scriptPubKey vSolutions sigs1 sigs2) chosen ∧
      combineMultisig checker scriptPubKey vSolutions sigs1 sigs2 = some (multisigScriptSig
          (chosen ++ List.replicate (solutionSigsRequired vSolutions - chosen.length) [])) := by
  obtain ⟨allsigs, hall⟩ : ∃ allsigs, allsigs = insertSigs sigs2 (insertSigs sigs1 []) := ⟨_, rfl⟩
  obtain ⟨sigs, hsigs⟩ : ∃ sigs, sigs =
    matchSigs checker scriptPubKey (solutionKeys vSolutions) allsigs := ⟨_, rfl⟩
  have hmem (s : Bytes) : s ∈ allsigs ↔ s ∈ sigs1 ++ sigs2 ∧ s ≠ [] := by
    rw [hall, mem_insertSigs, mem_insertSigs, List.mem_append]
    tauto
  have hsound (key s : Bytes) (h : sigs key = some s) : (s ∈ sigs1 ++ sigs2 ∧ s ≠ []) ∧
      checker.checkSig s key scriptPubKey = true := by
    rw [hsigs] at h
    obtain ⟨hs, hok⟩ := matchSigs_sound h
    exact ⟨(hmem s).mp hs, hok⟩
  have hcovered : ∀ key ∈ solutionKeys vSolutions,
      covered checker scriptPubKey sigs1 sigs2 key = (sigs key).isSome := by
    intro key hkey
    rw [Bool.eq_iff_iff, covered, List.any_eq_true]
    constructor
    · rintro ⟨s, hs, hok⟩
      have hne : s ≠ [] := by
        rintro rfl
        rw [hempty] at hok
        cases hok
      rw [hsigs]
      exact matchSigs_covers (fun t ht => hone t ((hmem t).mp ht).1) hkey
        ((hmem s).mpr ⟨hs, hne⟩) hok
    · intro hsome
      obtain ⟨s, hs⟩ := isSome_iff_exists.mp hsome
      exact ⟨s, (hsound key s hs).1.1, (hsound key s hs).2⟩
  refine ⟨((solutionKeys vSolutions).filterMap sigs).take (solutionSigsRequired vSolutions),
    List.forall₂_take _ (forall₂_filterMap hcovered hsound), ?_⟩
  rw [combineMultisig, if_neg (not_le.mpr hlen)]
  simp only [← hall, ← hsigs, mergeSigs_eq, zero_add]
  rw [multisigScriptSig]
  simp [pushBytes, leBytes]

/-- Signatures in the order of their keys can be assigned in the order of the instruction. -/
theorem orderedMatch_reverse {ok : Bytes → Bytes → Bool} {keys served chosen : List Bytes}
    (hsub : served.Sublist keys)
    (h : List.Forall₂ (fun key sig => ok sig key = true) served chosen) :
    OrderedMatch ok chosen.reverse keys.reverse :=
  orderedMatch_iff_sublist.mpr ⟨served.reverse, hsub.reverse, List.forall₂_reverse_iff.mpr h.flip⟩

theorem combineMultisig_comm : combineMultisig checker scriptPubKey vSolutions sigs2 sigs1 =
      combineMultisig checker scriptPubKey vSolutions sigs1 sigs2 := by
  rw [combineMultisig, combineMultisig, insertSigs_comm sigs2 sigs1]

end Result

/-- The checker for an input of a transaction. -/
def inputChecker (verifySignature : Bytes → Uint256 → Bytes → Bool) (hash256 : Bytes → Uint256)
    (txTo : CTransaction) (nIn : Nat) : SignatureChecker :=
  transactionSignatureChecker verifySignature
    (fun scriptCode nHashType => signatureHash scriptCode txTo nIn nHashType hash256) txTo nIn

/-- **`combineMultisig_complete`** — for a multisig script, and stacks in which no signature is
valid for two of its keys, the merged script pushes an empty element and then exactly as many
elements as the script asks for: one valid signature out of the stacks for each of the first keys
that have one, in the order of the keys, and then empty elements. It does not depend on the order of
the stacks. If enough keys have a signature, and no push of one stands in the script, the merged
script spends the output, under all flags whose encoding checks it passes. The keys need not be
distinct. -/
theorem combineMultisig_complete (verifySignature : Bytes → Uint256 → Bytes → Bool)
    (hash256 : Bytes → Uint256) (txTo : CTransaction) (nIn : Nat) (sigs1 sigs2 : List Bytes)
    {P : StandardPolicy} {scriptPubKey : CScript} {vSolutions : List Bytes}
    (hsolver : solver P scriptPubKey = (true, .multisig, vSolutions))
    (hone : ∀ sig ∈ sigs1 ++ sigs2, ∀ key ∈ solutionKeys vSolutions,
      ∀ other ∈ solutionKeys vSolutions,
      (inputChecker verifySignature hash256 txTo nIn).checkSig sig key scriptPubKey = true →
      (inputChecker verifySignature hash256 txTo nIn).checkSig sig other scriptPubKey = true →
      other = key) :
    ∃ chosen : List Bytes, List.Forall₂ (fun key sig => sig ∈ sigs1 ++ sigs2 ∧
          (inputChecker verifySignature hash256 txTo nIn).checkSig sig key scriptPubKey = true)
        (servedKeys (inputChecker verifySignature hash256 txTo nIn) scriptPubKey vSolutions
          sigs1 sigs2) chosen ∧
      combineMultisig (inputChecker verifySignature hash256 txTo nIn) scriptPubKey vSolutions
          sigs1 sigs2 =
        some (multisigScriptSig
          (chosen ++ List.replicate (solutionSigsRequired vSolutions - chosen.length) [])) ∧
      combineMultisig (inputChecker verifySignature hash256 txTo nIn) scriptPubKey vSolutions
          sigs2 sigs1 =
        combineMultisig (inputChecker verifySignature hash256 txTo nIn) scriptPubKey vSolutions
          sigs1 sigs2 ∧
      (solutionSigsRequired vSolutions ≤ ((solutionKeys vSolutions).filter
          (covered (inputChecker verifySignature hash256 txTo nIn) scriptPubKey sigs1
            sigs2)).length →
        StackFits (sigs1 ++ sigs2) →
        (∀ sig ∈ sigs1 ++ sigs2, sig ≠ [] →
          findAndDelete scriptPubKey (pushBytes sig) = scriptPubKey) →
        chosen.length = solutionSigsRequired vSolutions ∧
        ∀ (H : ScriptHashes) (flags : UInt32), Encoded flags chosen (solutionKeys vSolutions) →
          (hasFlag flags scriptVerifyMINIMALDATA = true →
            MinimalPushes (multisigScriptSig chosen) ∧ MinimalPushes scriptPubKey) →
          verifies H (inputChecker verifySignature hash256 txTo nIn) flags
            (multisigScriptSig chosen) scriptPubKey = true) := by
  obtain ⟨n, ins, hm, hmn, hn, hkeys, hkeysLen, rfl, hlen⟩ := multisig_of_solver hsolver
  have hempty (key : Bytes) : (inputChecker verifySignature hash256 txTo nIn).checkSig [] key
      (multisigScript (solutionSigsRequired vSolutions) n ins) = false := by
    simp [inputChecker, transactionSignatureChecker]
  obtain ⟨chosen, hserved, hresult⟩ := combineMultisig_pushes hlen hempty hone
  refine ⟨chosen, hserved.imp fun _ _ h => ⟨h.1.1, h.2⟩, hresult, combineMultisig_comm, ?_⟩
  intro henough hfits habsent
  have hchosen : chosen.length = solutionSigsRequired vSolutions := by
    rw [← hserved.length_eq, servedKeys, List.length_take, min_eq_left henough]
  refine ⟨hchosen, fun H flags henc hmin => ?_⟩
  have hmem : ∀ sig ∈ chosen, sig ∈ sigs1 ++ sigs2 ∧ sig ≠ [] := by
    intro sig hsig
    obtain ⟨i, hi, rfl⟩ := List.mem_iff_getElem.mp hsig
    exact ((List.forall₂_iff_get.mp hserved).2 i (hserved.length_eq ▸ hi) hi).1
  have hcode : codeWithout chosen.reverse _ = _ := codeWithout_of_absent fun sig hsig =>
    habsent sig (hmem sig (List.mem_reverse.mp hsig)).1 (hmem sig (List.mem_reverse.mp hsig)).2
  refine verifies_multisig hm hmn hn hkeys hkeysLen hchosen
    (fun sig hsig => hfits sig (hmem sig hsig).1) henc hmin ?_
  rw [hcode]
  exact orderedMatch_reverse ((List.take_sublist _ _).trans List.filter_sublist)
    (hserved.imp fun _ _ h => h.2)

/-- Two keys, told apart by their last bytes. -/
def lastByteKey (last : UInt8) : Bytes := 2 :: (List.replicate 31 0 ++ [last])

/-- A key accepts the signatures that start with its last byte. -/
def lastByteVerify (vchPubKey : Bytes) (_ : Uint256) (vchSig : Bytes) : Bool :=
  vchSig.head? == vchPubKey.getLast?

/-- One of the two keys. -/
def oneOfTwoScript : CScript :=
  multisigScript 1 2 (pushBytes (lastByteKey 7) ++ pushBytes (lastByteKey 9))

theorem solver_oneOfTwoScript : solver {} oneOfTwoScript =
    (true, .multisig, [[1], lastByteKey 7, lastByteKey 9, [2]]) := by
  decide

/-- The stacks hold an invalid signature, and one of the second key, which is chosen and spends the
output. -/
theorem combineMultisig_oneOfTwo :
    combineMultisig (inputChecker lastByteVerify (fun _ => 0) commented 0) oneOfTwoScript
        [[1], lastByteKey 7, lastByteKey 9, [2]] [[5, 1]] [[9, 1], []] =
      some (multisigScriptSig [[9, 1]]) ∧
    verifies zeroHashes (inputChecker lastByteVerify (fun _ => 0) commented 0) 0
      (multisigScriptSig [[9, 1]]) oneOfTwoScript = true := by
  obtain ⟨chosen, hserved, hmerged, -, hspends⟩ := combineMultisig_complete lastByteVerify
    (fun _ => 0) commented 0 [[5, 1]] [[9, 1], []] solver_oneOfTwoScript (by decide)
  have hkeys : servedKeys (inputChecker lastByteVerify (fun _ => 0) commented 0) oneOfTwoScript
      [[1], lastByteKey 7, lastByteKey 9, [2]] [[5, 1]] [[9, 1], []] = [lastByteKey 9] := by decide
  rw [hkeys, List.forall₂_cons_left_iff] at hserved
  obtain ⟨sig, rest, ⟨hmem, hvalid⟩, hrest, rfl⟩ := hserved
  rw [List.forall₂_nil_left_iff] at hrest
  subst hrest
  have honly : ∀ sig ∈ [[5, 1], [9, 1], []], (inputChecker lastByteVerify (fun _ => 0) commented
      0).checkSig sig (lastByteKey 9) oneOfTwoScript = true → sig = [9, 1] := by decide
  obtain rfl := honly sig hmem hvalid
  obtain ⟨-, hspends⟩ := hspends (by decide) (by unfold StackFits; decide) (by decide)
  exact ⟨hmerged, hspends zeroHashes 0 ⟨by decide, by decide⟩ fun h => absurd h (by decide)⟩

end MonetaryUnit
