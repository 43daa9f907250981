/-
# MonetaryUnit.Script.Templates — the scripts that `Solver` recognises

`StandardForm` writes down the scripts that the templates of `Solver` stand for, as sequences of
bytes. Every template is read off the loop that compares two scripts (`matchTemplate`), one lemma
for each kind of template opcode, and the kinds of template differ in the first byte they accept, so
it does not matter in which order they are tried.

The opcode for the data of an `OP_RETURN` output tests the size of the operand and not that the
instruction is a push. Every opcode that has no operand passes the test, and those are the only
scripts on which `Solver` and `StandardForm` differ (`solver_standardForm_iff`).
-/

import Mathlib.Tactic.IntervalCases
import MonetaryUnit.Script.Instructions
import MonetaryUnit.Script.Standard

namespace MonetaryUnit

open Lib List Prod Option Nat

/-! ## The forms -/

/-- One push of `v`, in any of its encodings. -/
def IsPush (ins : CScript) (v : Bytes) : Prop :=
  ∃ opcode size, opcode ≤ 0x4e ∧ Instruction opcode size v ∧ ins = opcode :: (size ++ v)

/-- Pushes of data of the size of a key. -/
inductive KeyPushes : CScript → List Bytes → Prop
  | nil : KeyPushes [] []
  | cons {ins rest : CScript} {key : Bytes} {keys : List Bytes} : IsPush ins key →
      33 ≤ key.length → key.length ≤ 65 → KeyPushes rest keys →
      KeyPushes (ins ++ rest) (key :: keys)

/-- `EncodeOP_N`. -/
def encodeOpN (n : Nat) : UInt8 :=
  if n = 0 then 0 else 0x50 + UInt8.ofNat n

/-- The standard scripts, with their type and their solutions. -/
inductive StandardForm (P : StandardPolicy) : CScript → TxnOutType → List Bytes → Prop
  | scripthash {hash : Bytes} : hash.length = 20 →
      StandardForm P (0xa9 :: 0x14 :: (hash ++ [0x87])) .scripthash [hash]
  | pubkey {ins : CScript} {key : Bytes} : IsPush ins key → 33 ≤ key.length → key.length ≤ 65 →
      StandardForm P (ins ++ [0xac]) .pubkey [key]
  | pubkeyhash {ins : CScript} {hash : Bytes} : IsPush ins hash → hash.length = 20 →
      StandardForm P (0x76 :: 0xa9 :: (ins ++ [0x88, 0xac])) .pubkeyhash [hash]
  | multisig {m n : Nat} {ins : CScript} {keys : List Bytes} : 1 ≤ m → m ≤ n → n ≤ 16 →
      KeyPushes ins keys → keys.length = n →
      StandardForm P (encodeOpN m :: (ins ++ [encodeOpN n, 0xae])) .multisig
        ([UInt8.ofNat m] :: (keys ++ [[UInt8.ofNat n]]))
  | prunable : StandardForm P [0x6a] .nullData []
  | data {ins : CScript} {v : Bytes} : P.datacarrier = true → IsPush ins v →
      v.length ≤ P.nMaxDatacarrierBytes → StandardForm P (0x6a :: ins) .nullData []

/-! ## Instructions of a script -/

variable {opcode : UInt8} {v : Bytes} {pc rest : CScript} {k : Nat}

/-- An empty push and the opcodes above the pushes are one byte. -/
theorem Instruction.bare {size : Bytes} (h : Instruction opcode size v)
    (hop : opcode = 0 ∨ 0x4e < opcode) : size = [] ∧ v = [] := by
  cases h with
  | push hlt hv =>
    rcases hop with rfl | hgt
    · exact ⟨rfl, length_eq_zero_iff.mp hv⟩
    · exact absurd hlt (above_pushes_iff.mpr hgt).1
  | pushData1 _ _ => exact absurd hop (by decide)
  | pushData2 _ _ => exact absurd hop (by decide)
  | pushData4 _ _ => exact absurd hop (by decide)
  | other _ => exact ⟨rfl, rfl⟩

theorem getOp_bare_iff (hop : opcode = 0 ∨ 0x4e < opcode) :
    getOp pc = some (opcode, v, rest) ↔ v = [] ∧ pc = opcode :: rest := by
  rw [getOp_eq_some_iff]
  constructor
  · rintro ⟨size, hins, rfl⟩
    obtain ⟨rfl, rfl⟩ := hins.bare hop
    exact ⟨rfl, rfl⟩
  · rintro ⟨rfl, rfl⟩
    rcases hop with rfl | hgt
    · exact ⟨[], .push (by decide) rfl, rfl⟩
    · exact ⟨[], .other hgt, rfl⟩

theorem getOp_isPush_iff : (∃ opcode ≤ 0x4e, getOp pc = some (opcode, v, rest)) ↔
      ∃ ins, IsPush ins v ∧ pc = ins ++ rest := by
  constructor
  · rintro ⟨opcode, hle, hop⟩
    obtain ⟨size, hins, rfl⟩ := getOp_eq_some_iff.mp hop
    exact ⟨_, ⟨opcode, size, hle, hins, rfl⟩, rfl⟩
  · rintro ⟨_, ⟨opcode, size, hle, hins, rfl⟩, rfl⟩
    exact ⟨opcode, hle, getOp_eq_some_iff.mpr ⟨size, hins, rfl⟩⟩

/-- Only a push has an operand. -/
theorem getOp_operand_iff (hv : 0 < v.length) :
    (∃ opcode, getOp pc = some (opcode, v, rest)) ↔ ∃ ins, IsPush ins v ∧ pc = ins ++ rest := by
  rw [← getOp_isPush_iff]
  constructor
  · rintro ⟨opcode, hop⟩
    refine ⟨opcode, ?_, hop⟩
    by_contra hgt
    obtain ⟨rfl, -⟩ := (getOp_bare_iff (.inr (UInt8.not_le.mp hgt))).mp hop
    exact lt_irrefl 0 hv
  · rintro ⟨opcode, -, hop⟩
    exact ⟨opcode, hop⟩

theorem smallInteger_iff :
    (opcode = 0 ∨ 0x51 ≤ opcode ∧ opcode ≤ 0x60) ↔ ∃ k ≤ 16, opcode = encodeOpN k := by
  obtain ⟨b⟩ := opcode
  revert b
  decide +kernel

theorem decodeOpN_encodeOpN (h : k ≤ 16) : decodeOpN (encodeOpN k) = UInt8.ofNat k := by
  interval_cases k <;> decide

theorem encodeOpN_bare (h : k ≤ 16) : encodeOpN k = 0 ∨ 0x4e < encodeOpN k := by
  interval_cases k <;> decide

/-! ## One opcode of a template -/

section Match

variable {P : StandardPolicy} {pc2 pc1 : CScript} {acc sols : List Bytes} {opcode2 : UInt8}

theorem matchTemplate_nil_iff : matchTemplate P [] pc1 acc = some sols ↔ pc1 = [] ∧ sols = acc := by
  rw [matchTemplate]
  split_ifs with h <;> simp [h, eq_comm]

theorem matchTemplate_cons_iff (hop : opcode2 ≠ opPubkeys) :
    matchTemplate P (opcode2 :: pc2) pc1 acc = some sols ↔
      ∃ opcode1 v rest acc', getOp pc1 = some (opcode1, v, rest) ∧
        matchOp P opcode2 opcode1 v acc = some acc' ∧
        matchTemplate P pc2 rest acc' = some sols := by
  rw [matchTemplate]
  rcases getOp pc1 with _ | ⟨opcode1, v, rest⟩
  · simp
  · simp [hop, bind_eq_some_iff]

/-- An opcode that stands for itself. -/
theorem matchTemplate_opcode_iff (opcode2 : UInt8) (hpush : 0x4e < opcode2)
    (hwild : opcode2 < 0xf9) :
    matchTemplate P (opcode2 :: pc2) pc1 acc = some sols ↔
      ∃ rest, pc1 = opcode2 :: rest ∧ matchTemplate P pc2 rest acc = some sols := by
  have hne (x : UInt8) (hx : 0xf9 ≤ x) : opcode2 ≠ x := by
    rintro rfl
    exact absurd hwild (UInt8.not_lt.mpr hx)
  have hmatch (opcode1 : UInt8) (v : Bytes) (acc' : List Bytes) :
      matchOp P opcode2 opcode1 v acc = some acc' ↔ (opcode1 = opcode2 ∧ v = []) ∧ acc' = acc := by
    rw [matchOp, if_neg (hne _ (by decide)), if_neg (hne _ (by decide)),
      if_neg (hne _ (by decide)), if_neg (hne _ (by decide))]
    simp [@eq_comm _ acc']
  rw [matchTemplate_cons_iff (hne _ (by decide))]
  constructor
  · rintro ⟨opcode1, v, rest, acc', hop, hm, hrest⟩
    obtain ⟨⟨rfl, -⟩, rfl⟩ := (hmatch _ _ _).mp hm
    exact ⟨rest, ((getOp_bare_iff (.inr hpush)).mp hop).2, hrest⟩
  · rintro ⟨rest, rfl, hrest⟩
    exact ⟨opcode2, [], rest, acc, (getOp_bare_iff (.inr hpush)).mpr ⟨rfl, rfl⟩,
      (hmatch _ _ _).mpr ⟨⟨rfl, rfl⟩, rfl⟩, hrest⟩

/-- An opcode that stands for the operand of a push: `ok` is the size that it tests. -/
theorem matchTemplate_operand_iff (ok : Nat → Prop) (hne : opcode2 ≠ opPubkeys)
    (hpos : ∀ n, ok n → 0 < n)
    (hmatch : ∀ opcode1 v acc', matchOp P opcode2 opcode1 v acc = some acc' ↔
      ok v.length ∧ acc' = acc ++ [v]) :
    matchTemplate P (opcode2 :: pc2) pc1 acc = some sols ↔
      ∃ ins v rest, IsPush ins v ∧ ok v.length ∧ pc1 = ins ++ rest ∧
        matchTemplate P pc2 rest (acc ++ [v]) = some sols := by
  rw [matchTemplate_cons_iff hne]
  constructor
  · rintro ⟨opcode1, v, rest, acc', hop, hm, hrest⟩
    obtain ⟨hok, rfl⟩ := (hmatch _ _ _).mp hm
    obtain ⟨ins, hins, rfl⟩ := (getOp_operand_iff (hpos _ hok)).mp ⟨opcode1, hop⟩
    exact ⟨ins, v, rest, hins, hok, rfl, hrest⟩
  · rintro ⟨ins, v, rest, hins, hok, rfl, hrest⟩
    obtain ⟨opcode1, hop⟩ := (getOp_operand_iff (hpos _ hok)).mpr ⟨ins, hins, rfl⟩
    exact ⟨opcode1, v, rest, _, hop, (hmatch _ _ _).mpr ⟨hok, rfl⟩, hrest⟩

theorem matchOp_smallInteger_iff {opcode1 : UInt8} {v : Bytes} {acc' : List Bytes} :
    matchOp P opSmallInteger opcode1 v acc = some acc' ↔
      ∃ k ≤ 16, opcode1 = encodeOpN k ∧ acc' = acc ++ [[UInt8.ofNat k]] := by
  rw [matchOp, if_neg (by decide), if_neg (by decide), if_pos rfl]
  split_ifs with h
  · obtain ⟨k, hk, rfl⟩ := smallInteger_iff.mp h
    rw [decodeOpN_encodeOpN hk]
    constructor
    · intro heq
      exact ⟨k, hk, rfl, (some.inj heq).symm⟩
    · rintro ⟨j, hj, heq, rfl⟩
      rw [← decodeOpN_encodeOpN hk, heq, decodeOpN_encodeOpN hj]
  · refine iff_of_false (by simp) ?_
    rintro ⟨k, hk, heq, -⟩
    exact h (smallInteger_iff.mpr ⟨k, hk, heq⟩)

theorem matchTemplate_smallInteger_iff :
    matchTemplate P (opSmallInteger :: pc2) pc1 acc = some sols ↔
      ∃ k ≤ 16, ∃ rest, pc1 = encodeOpN k :: rest ∧
        matchTemplate P pc2 rest (acc ++ [[UInt8.ofNat k]]) = some sols := by
  rw [matchTemplate_cons_iff (by decide)]
  constructor
  · rintro ⟨opcode1, v, rest, acc', hop, hm, hrest⟩
    obtain ⟨k, hk, rfl, rfl⟩ := matchOp_smallInteger_iff.mp hm
    exact ⟨k, hk, rest, ((getOp_bare_iff (encodeOpN_bare hk)).mp hop).2, hrest⟩
  · rintro ⟨k, hk, rest, rfl, hrest⟩
    exact ⟨_, [], rest, _, (getOp_bare_iff (encodeOpN_bare hk)).mpr ⟨rfl, rfl⟩,
      matchOp_smallInteger_iff.mpr ⟨k, hk, rfl, rfl⟩, hrest⟩

/-! ## The run of keys -/

variable {ins pc' rest' : CScript} {keys : List Bytes} {opcode' : UInt8}
variable {v' : Bytes} {fuel : Nat}

/-- The loop stops at an instruction of the script, after pushes of keys, or with the opcode that
`GetOp` leaves when it fails. -/
theorem takePubkeys_stops (hop : getOp pc = some (opcode, v, rest)) (hfuel : rest.length < fuel)
    (h : takePubkeys fuel (opcode, v, rest) acc = ((opcode', v', rest'), sols))
    (hvalid : opcode' ≠ opInvalidOpcode) :
    ∃ ins keys pc', KeyPushes ins keys ∧ pc = ins ++ pc' ∧
      getOp pc' = some (opcode', v', rest') ∧ sols = acc ++ keys := by
  induction fuel generalizing pc rest opcode v acc with
  | zero => exact absurd hfuel (not_lt_zero _)
  | succ fuel ih =>
    rw [takePubkeys] at h
    split_ifs at h with hsize
    · rcases hnext : getOp rest with _ | ⟨opcode₂, v2, rest2⟩
      · rw [hnext] at h
        simp only [mk.injEq] at h
        exact absurd h.1.1.symm hvalid
      · rw [hnext] at h
        have hlt := getOp_length_lt hnext
        obtain ⟨ins, keys, pc', hkeys, rfl, hpc', rfl⟩ := ih hnext (by omega) h
        obtain ⟨first, hfirst, rfl⟩ :=
          (getOp_operand_iff (by omega : 0 < v.length)).mp ⟨opcode, hop⟩
        exact ⟨first ++ ins, v :: keys, pc', .cons hfirst hsize.1 hsize.2 hkeys,
          by rw [append_assoc], hpc', by rw [append_assoc, singleton_append]⟩
    · obtain ⟨⟨rfl, rfl, rfl⟩, rfl⟩ := h
      exact ⟨[], [], pc, .nil, rfl, hop, (append_nil _).symm⟩

/-- What follows is the next key or the instruction at which the loop stops. -/
theorem KeyPushes.getOp {stop : UInt8 × Bytes × CScript} (hkeys : KeyPushes ins keys)
    (hstop : MonetaryUnit.getOp pc' = some stop) :
    ∃ next, MonetaryUnit.getOp (ins ++ pc') = some next := by
  cases hkeys with
  | nil => exact ⟨_, hstop⟩
  | cons hins _ _ _ =>
    obtain ⟨opcode, -, hop⟩ := getOp_isPush_iff.mpr ⟨_, hins, append_assoc _ _ pc'⟩
    exact ⟨_, hop⟩

/-- The loop takes all the keys before an instruction that is not a key. -/
theorem takePubkeys_run (hkeys : KeyPushes ins keys) (hstop : getOp pc' = some (opcode', v', rest'))
    (hsize : ¬(33 ≤ v'.length ∧ v'.length ≤ 65)) (hop : getOp (ins ++ pc') = some (opcode, v, rest))
    (hfuel : rest.length < fuel) :
    takePubkeys fuel (opcode, v, rest) acc = ((opcode', v', rest'), acc ++ keys) := by
  induction hkeys generalizing fuel opcode v rest acc with
  | nil =>
    rw [nil_append, hstop] at hop
    obtain ⟨rfl, rfl, rfl⟩ := hop
    cases fuel with
    | zero => exact absurd hfuel (not_lt_zero _)
    | succ fuel => rw [takePubkeys, if_neg hsize, append_nil]
  | @cons first ins key keys hfirst hlow hhigh hkeys ih =>
    obtain ⟨op, -, hfirstOp⟩ := getOp_isPush_iff.mpr ⟨first, hfirst, append_assoc first ins pc'⟩
    rw [hop] at hfirstOp
    obtain ⟨-, rfl, rfl⟩ := hfirstOp
    cases fuel with
    | zero => exact absurd hfuel (not_lt_zero _)
    | succ fuel =>
      obtain ⟨next, hnext⟩ := hkeys.getOp hstop
      have hlt := getOp_length_lt hnext
      rw [takePubkeys, if_pos ⟨hlow, hhigh⟩, hnext]
      dsimp only
      rw [ih hnext (by omega), append_assoc, singleton_append]

theorem matchTemplate_pubkeys_iff :
    matchTemplate P (opPubkeys :: opSmallInteger :: pc2) pc1 acc = some sols ↔
      ∃ ins keys, KeyPushes ins keys ∧ ∃ k ≤ 16, ∃ rest, pc1 = ins ++ encodeOpN k :: rest ∧
        matchTemplate P pc2 rest (acc ++ keys ++ [[UInt8.ofNat k]]) = some sols := by
  constructor
  · intro h
    rw [matchTemplate] at h
    rcases hop : getOp pc1 with _ | ⟨opcode1, v, rest⟩
    · rw [hop] at h
      cases h
    rcases htake : takePubkeys (rest.length + 1) (opcode1, v, rest) acc with
      ⟨⟨opcode', v', rest'⟩, acc'⟩
    simp only [hop, htake, if_pos, bind_eq_some_iff] at h
    obtain ⟨acc'', hm, hrest⟩ := h
    obtain ⟨k, hk, rfl, rfl⟩ := matchOp_smallInteger_iff.mp hm
    have hvalid : encodeOpN k ≠ opInvalidOpcode := by interval_cases k <;> decide
    obtain ⟨ins, keys, pc', hkeys, rfl, hpc', rfl⟩ :=
      takePubkeys_stops hop (lt_succ_self _) htake hvalid
    obtain ⟨-, rfl⟩ := (getOp_bare_iff (encodeOpN_bare hk)).mp hpc'
    exact ⟨ins, keys, hkeys, k, hk, rest', rfl, hrest⟩
  · rintro ⟨ins, keys, hkeys, k, hk, rest, rfl, hrest⟩
    have hstop : getOp (encodeOpN k :: rest) = some (encodeOpN k, [], rest) :=
      (getOp_bare_iff (encodeOpN_bare hk)).mpr ⟨rfl, rfl⟩
    obtain ⟨⟨opcode1, v, rest1⟩, hop⟩ := hkeys.getOp hstop
    have htake : takePubkeys (rest1.length + 1) (opcode1, v, rest1) acc = _ :=
      takePubkeys_run hkeys hstop (by simp) hop (lt_succ_self _)
    have hm : matchOp P opSmallInteger (encodeOpN k) [] (acc ++ keys) =
        some (acc ++ keys ++ [[UInt8.ofNat k]]) := matchOp_smallInteger_iff.mpr ⟨k, hk, rfl, rfl⟩
    rw [matchTemplate, hop]
    simp only [if_pos, htake, hm, bind_some]
    exact hrest

/-! ## The templates -/

variable {script : CScript}

theorem pubkeyTemplate_iff : matchTemplate P [opPubkey, 0xac] script [] = some sols ↔
      ∃ ins key, IsPush ins key ∧ (33 ≤ key.length ∧ key.length ≤ 65) ∧
        script = ins ++ [0xac] ∧ sols = [key] := by
  rw [matchTemplate_operand_iff (fun n => 33 ≤ n ∧ n ≤ 65) (by decide) (fun n hn => by omega)]
  · simp only [matchTemplate_opcode_iff 0xac (by decide) (by decide),
      matchTemplate_nil_iff, nil_append]
    simp
  · intro opcode1 v acc'
    simp [matchOp, @eq_comm _ acc']

theorem pubkeyHashTemplate_iff :
    matchTemplate P [0x76, 0xa9, opPubkeyHash, 0x88, 0xac] script [] = some sols ↔
      ∃ ins hash, IsPush ins hash ∧ hash.length = 20 ∧
        script = 0x76 :: 0xa9 :: (ins ++ [0x88, 0xac]) ∧ sols = [hash] := by
  rw [matchTemplate_opcode_iff _ (by decide) (by decide)]
  simp only [matchTemplate_opcode_iff 0xa9 (by decide) (by decide)]
  have hmatch (opcode1 : UInt8) (v : Bytes) (acc' : List Bytes) :
      matchOp P opPubkeyHash opcode1 v [] = some acc' ↔ v.length = 20 ∧ acc' = [] ++ [v] := by
    simp [matchOp, show opPubkeyHash ≠ opPubkey by decide, @eq_comm _ acc']
  simp only [matchTemplate_operand_iff (fun n => n = 20)
    (show opPubkeyHash ≠ opPubkeys by decide) (fun n hn => by omega) hmatch, nil_append,
    matchTemplate_opcode_iff 0x88 (by decide) (by decide),
    matchTemplate_opcode_iff 0xac (by decide) (by decide), matchTemplate_nil_iff]
  constructor
  · rintro ⟨_, rfl, _, rfl, ins, hash, _, hins, hsize, rfl, _, rfl, _, rfl, rfl, rfl⟩
    exact ⟨ins, hash, hins, hsize, rfl, rfl⟩
  · rintro ⟨ins, hash, hins, hsize, rfl, rfl⟩
    exact ⟨_, rfl, _, rfl, ins, hash, _, hins, hsize, rfl, _, rfl, _, rfl, rfl, rfl⟩

theorem multisigTemplate_iff :
    matchTemplate P [opSmallInteger, opPubkeys, opSmallInteger, 0xae] script [] = some sols ↔
      ∃ m ≤ 16, ∃ ins keys, KeyPushes ins keys ∧ ∃ n ≤ 16,
        script = encodeOpN m :: (ins ++ [encodeOpN n, 0xae]) ∧
        sols = [UInt8.ofNat m] :: (keys ++ [[UInt8.ofNat n]]) := by
  simp only [matchTemplate_smallInteger_iff, matchTemplate_pubkeys_iff,
    matchTemplate_opcode_iff 0xae (by decide) (by decide), matchTemplate_nil_iff]
  constructor
  · rintro ⟨m, hm, _, rfl, ins, keys, hkeys, n, hn, _, rfl, _, rfl, rfl, rfl⟩
    exact ⟨m, hm, ins, keys, hkeys, n, hn, rfl, by simp⟩
  · rintro ⟨m, hm, ins, keys, hkeys, n, hn, rfl, rfl⟩
    exact ⟨m, hm, _, rfl, ins, keys, hkeys, n, hn, _, rfl, _, rfl, rfl, by simp⟩

/-- The opcode for the data stands for every instruction with a small or no operand. -/
theorem smallDataTemplate_iff : matchTemplate P [0x6a, opSmallData] script [] = some sols ↔
      (∃ opcode v, v.length ≤ P.nMaxDatacarrierBytes ∧
        ∃ pc, script = 0x6a :: pc ∧ getOp pc = some (opcode, v, [])) ∧ sols = [] := by
  rw [matchTemplate_opcode_iff _ (by decide) (by decide)]
  simp only [matchTemplate_cons_iff (show opSmallData ≠ opPubkeys by decide), matchTemplate_nil_iff]
  have hmatch (opcode1 : UInt8) (v : Bytes) (acc' : List Bytes) :
      matchOp P opSmallData opcode1 v [] = some acc' ↔
        v.length ≤ P.nMaxDatacarrierBytes ∧ acc' = [] := by
    rw [matchOp, if_neg (by decide), if_neg (by decide), if_neg (by decide), if_pos rfl]
    simp
  simp only [hmatch]
  constructor
  · rintro ⟨pc, rfl, opcode, v, _, _, hop, ⟨hle, rfl⟩, rfl, rfl⟩
    exact ⟨⟨opcode, v, hle, pc, rfl, hop⟩, rfl⟩
  · rintro ⟨⟨opcode, v, hle, pc, rfl, hop⟩, rfl⟩
    exact ⟨pc, rfl, opcode, v, _, _, hop, ⟨hle, rfl⟩, rfl, rfl⟩

theorem returnTemplate_iff :
    matchTemplate P [0x6a] script [] = some sols ↔ script = [0x6a] ∧ sols = [] := by
  simp [matchTemplate_opcode_iff 0x6a (by decide) (by decide), matchTemplate_nil_iff]

end Match

/-! ## The order of the templates -/

/-- The type of the templates that accept a script that starts with this opcode. -/
def typeOfFirst (opcode : UInt8) : TxnOutType :=
  if opcode = 0x76 then .pubkeyhash
  else if opcode = 0x6a then .nullData
  else if opcode = 0 ∨ 0x51 ≤ opcode ∧ opcode ≤ 0x60 then .multisig
  else if opcode ≤ 0x4e then .pubkey
  else .nonstandard

theorem typeOfFirst_encodeOpN (h : k ≤ 16) : typeOfFirst (encodeOpN k) = .multisig := by
  interval_cases k <;> decide

theorem typeOfFirst_push (hpos : opcode ≠ 0) (hle : opcode ≤ 0x4e) :
    typeOfFirst opcode = .pubkey := by
  obtain ⟨b⟩ := opcode
  revert b
  decide +kernel

section Scan

variable {P : StandardPolicy} {script : CScript} {sols sols' : List Bytes}

variable {a : TxnOutType × CScript} {t : TxnOutType}

theorem mem_templates_iff : a ∈ templates P ↔ a = (.pubkey, [opPubkey, 0xac]) ∨
      a = (.pubkeyhash, [0x76, 0xa9, opPubkeyHash, 0x88, 0xac]) ∨
      a = (.multisig, [opSmallInteger, opPubkeys, opSmallInteger, 0xae]) ∨
      (P.datacarrier = true ∧ a = (.nullData, [0x6a, opSmallData])) ∨ a = (.nullData, [0x6a]) := by
  unfold templates
  cases P.datacarrier <;> simp

section

variable (ha : a ∈ templates P) {b : TxnOutType × CScript}
include ha

theorem template_unique (hb : b ∈ templates P) (htypes : a.1 = b.1) (hdata : a.1 ≠ .nullData) :
    a = b := by
  rcases mem_templates_iff.mp ha with rfl | rfl | rfl | ⟨-, rfl⟩ | rfl <;>
    rcases mem_templates_iff.mp hb with rfl | rfl | rfl | ⟨-, rfl⟩ | rfl <;> simp_all

theorem template_type : a.1 ≠ .nonstandard := by
  rcases mem_templates_iff.mp ha with rfl | rfl | rfl | ⟨-, rfl⟩ | rfl <;> simp

theorem typeOfFirst_of_match (h : matchTemplate P a.2 script [] = some sols) :
    ∃ opcode rest, script = opcode :: rest ∧ typeOfFirst opcode = a.1 := by
  rcases mem_templates_iff.mp ha with rfl | rfl | rfl | ⟨-, rfl⟩ | rfl
  · obtain ⟨_, key, ⟨opcode, size, hle, hins, rfl⟩, hsize, rfl, -⟩ := pubkeyTemplate_iff.mp h
    refine ⟨opcode, _, rfl, typeOfFirst_push ?_ hle⟩
    rintro rfl
    obtain ⟨-, rfl⟩ := hins.bare (.inl rfl)
    exact absurd hsize.1 (by decide)
  · obtain ⟨_, _, _, _, rfl, -⟩ := pubkeyHashTemplate_iff.mp h
    exact ⟨_, _, rfl, rfl⟩
  · obtain ⟨m, hm, _, _, _, _, _, rfl, -⟩ := multisigTemplate_iff.mp h
    exact ⟨_, _, rfl, typeOfFirst_encodeOpN hm⟩
  · obtain ⟨⟨_, _, _, pc, rfl, _⟩, -⟩ := smallDataTemplate_iff.mp h
    exact ⟨_, _, rfl, rfl⟩
  · obtain ⟨rfl, -⟩ := returnTemplate_iff.mp h
    exact ⟨_, _, rfl, rfl⟩

/-- Two templates that match a script give it the same type and the same solutions. -/
theorem templates_agree (hb : b ∈ templates P) (hma : matchTemplate P a.2 script [] = some sols)
    (hmb : matchTemplate P b.2 script [] = some sols') : a.1 = b.1 ∧ sols = sols' := by
  obtain ⟨opcode, rest, rfl, htype⟩ := typeOfFirst_of_match ha hma
  obtain ⟨_, _, heq, htype'⟩ := typeOfFirst_of_match hb hmb
  obtain ⟨rfl, rfl⟩ := cons.inj heq
  refine ⟨htype.symm.trans htype', ?_⟩
  have hnull {c : TxnOutType × CScript} {s : List Bytes} (hc : c ∈ templates P)
      (hmc : matchTemplate P c.2 (opcode :: rest) [] = some s) (ht : c.1 = .nullData) : s = [] := by
    rcases mem_templates_iff.mp hc with rfl | rfl | rfl | ⟨-, rfl⟩ | rfl
    · cases ht
    · cases ht
    · cases ht
    · exact (smallDataTemplate_iff.mp hmc).2
    · exact (returnTemplate_iff.mp hmc).2
  by_cases hdata : a.1 = .nullData
  · rw [hnull ha hma hdata, hnull hb hmb (htype'.symm.trans (htype.trans hdata))]
  · -- the other types have one template
    rw [template_unique ha hb (htype.symm.trans htype') hdata, hmb] at hma
    exact (some.inj hma).symm

end

theorem scanTemplates_iff {ts : List (TxnOutType × CScript)} (hts : ∀ a ∈ ts, a ∈ templates P) :
    scanTemplates P script ts = (true, t, sols) ↔
      ∃ a ∈ ts, a.1 = t ∧ matchTemplate P a.2 script [] = some sols ∧
        (t = .multisig → multisigCounts sols = true) := by
  induction ts with
  | nil => simp [scanTemplates]
  | cons a ts ih =>
    obtain ⟨u, tplate⟩ := a
    rw [scanTemplates]
    rcases hmatch : matchTemplate P tplate script [] with _ | sols0
    · rw [ih fun a ha => hts a (mem_cons_of_mem _ ha), exists_mem_cons_iff]
      simp [hmatch]
    · -- the first template that matches decides, and the others agree with it
      have hfirst : (∃ a ∈ (u, tplate) :: ts, a.1 = t ∧ matchTemplate P a.2 script [] = some sols ∧
          (t = .multisig → multisigCounts sols = true)) ↔
            u = t ∧ sols0 = sols ∧ (t = .multisig → multisigCounts sols = true) := by
        constructor
        · rintro ⟨a, hmem, rfl, hm, hcounts⟩
          obtain ⟨ht, hs⟩ := templates_agree (hts _ mem_cons_self) (hts _ hmem) hmatch hm
          exact ⟨ht, hs, hcounts⟩
        · rintro ⟨rfl, rfl, hcounts⟩
          exact ⟨(u, tplate), mem_cons_self, rfl, hmatch, hcounts⟩
      rw [hfirst]
      split_ifs with hmulti
      · simp only [mk.injEq]
        constructor
        · rintro ⟨hcounts, rfl, rfl⟩
          exact ⟨hmulti, rfl, fun _ => hcounts⟩
        · rintro ⟨rfl, rfl, hcounts⟩
          exact ⟨hcounts hmulti, hmulti.symm, rfl⟩
      · simp only [mk.injEq, true_and]
        constructor
        · rintro ⟨rfl, rfl⟩
          exact ⟨rfl, rfl, fun h => absurd h hmulti⟩
        · rintro ⟨rfl, rfl, -⟩
          exact ⟨rfl, rfl⟩

/-! ## Solver -/

theorem isPayToScriptHash_iff : isPayToScriptHash script = true ↔
      ∃ hash : Bytes, hash.length = 20 ∧ script = 0xa9 :: 0x14 :: (hash ++ [0x87]) := by
  constructor
  · intro h
    rcases script with _ | ⟨a, _ | ⟨b, rest⟩⟩
    · simp [isPayToScriptHash] at h
    · simp [isPayToScriptHash] at h
    · simp only [isPayToScriptHash, length_cons, getElem?_cons_zero,
        getElem?_cons_succ, Bool.and_eq_true, beq_iff_eq, some.injEq] at h
      obtain ⟨⟨⟨hlen, rfl⟩, rfl⟩, hlast⟩ := h
      refine ⟨rest.take 20, by rw [length_take]; omega, ?_⟩
      have hdrop : rest.drop 20 = [0x87] := by
        rw [drop_eq_getElem_cons (by omega), drop_eq_nil_of_le (by omega)]
        rw [getElem?_eq_getElem (by omega)] at hlast
        rw [some.inj hlast]
      rw [← hdrop, take_append_drop]
  · rintro ⟨hash, hlen, rfl⟩
    simp [isPayToScriptHash, hlen]

theorem multisigCounts_iff {m n : Nat} (hm : m ≤ 16) (hn : n ≤ 16) {keys : List Bytes} :
    multisigCounts ([UInt8.ofNat m] :: (keys ++ [[UInt8.ofNat n]])) = true ↔
      1 ≤ m ∧ m ≤ n ∧ keys.length = n := by
  have hm' : (UInt8.ofNat m).toNat = m := by
    rw [UInt8.toNat_ofNat', mod_eq_of_lt (by omega)]
  have hn' : (UInt8.ofNat n).toNat = n := by
    rw [UInt8.toNat_ofNat', mod_eq_of_lt (by omega)]
  have hlast : ([UInt8.ofNat m] :: (keys ++ [[UInt8.ofNat n]])).getLast? =
      some [UInt8.ofNat n] := by
    rw [← cons_append, getLast?_concat]
  simp only [multisigCounts, hlast, firstByte, head?_cons, bind_some, getD_some,
    UInt8.lt_iff_toNat_lt, hm', hn', UInt8.reduceToNat, length_cons, length_append,
    Bool.not_eq_true', Bool.or_eq_false_iff, decide_eq_false_iff_not, length_nil]
  omega

/-- The scripts that `Solver` accepts: the standard ones, and `OP_RETURN` with
one instruction that is not a push. -/
theorem solver_iff : solver P script = (true, t, sols) ↔ StandardForm P script t sols ∨
      (P.datacarrier = true ∧ ∃ opcode, 0x4e < opcode ∧ script = [0x6a, opcode]) ∧
        t = .nullData ∧ sols = [] := by
  constructor
  · intro h
    rw [solver] at h
    split_ifs at h with hp2sh
    · obtain ⟨hash, hlen, rfl⟩ := isPayToScriptHash_iff.mp hp2sh
      simp only [mk.injEq, true_and, drop_succ_cons, drop_zero] at h
      obtain ⟨rfl, rfl⟩ := h
      rw [take_left' hlen]
      exact .inl (.scripthash hlen)
    obtain ⟨a, hmem, rfl, hm, hcounts⟩ := (scanTemplates_iff fun a ha => ha).mp h
    rcases mem_templates_iff.mp hmem with rfl | rfl | rfl | ⟨hcarrier, rfl⟩ | rfl
    · obtain ⟨ins, key, hins, hsize, rfl, rfl⟩ := pubkeyTemplate_iff.mp hm
      exact .inl (.pubkey hins hsize.1 hsize.2)
    · obtain ⟨ins, hash, hins, hsize, rfl, rfl⟩ := pubkeyHashTemplate_iff.mp hm
      exact .inl (.pubkeyhash hins hsize)
    · obtain ⟨m, hm16, ins, keys, hkeys, n, hn16, rfl, rfl⟩ := multisigTemplate_iff.mp hm
      obtain ⟨hpos, hle, hlen⟩ := (multisigCounts_iff hm16 hn16).mp (hcounts rfl)
      exact .inl (.multisig hpos hle hn16 hkeys hlen)
    · obtain ⟨⟨opcode, v, hsize, pc, rfl, hop⟩, rfl⟩ := smallDataTemplate_iff.mp hm
      by_cases hpush : opcode ≤ 0x4e
      · obtain ⟨ins, hins, rfl⟩ := getOp_isPush_iff.mp ⟨opcode, hpush, hop⟩
        rw [append_nil]
        exact .inl (.data hcarrier hins hsize)
      · obtain ⟨-, rfl⟩ := (getOp_bare_iff (.inr (UInt8.not_le.mp hpush))).mp hop
        exact .inr ⟨⟨hcarrier, opcode, UInt8.not_le.mp hpush, rfl⟩, rfl, rfl⟩
    · obtain ⟨rfl, rfl⟩ := returnTemplate_iff.mp hm
      exact .inl .prunable
  · intro h
    -- a template that matches gives the result, unless the script pays to a script hash
    have hscan {a : TxnOutType × CScript} (hmem : a ∈ templates P)
        (hm : matchTemplate P a.2 script [] = some sols)
        (hcounts : a.1 = .multisig → multisigCounts sols = true) :
        solver P script = (true, a.1, sols) := by
      have hnot : ¬isPayToScriptHash script = true := by
        intro hp2sh
        obtain ⟨hash, -, rfl⟩ := isPayToScriptHash_iff.mp hp2sh
        obtain ⟨_, _, heq, htype⟩ := typeOfFirst_of_match hmem hm
        obtain ⟨rfl, -⟩ := cons.inj heq
        exact template_type hmem (htype.symm.trans (by decide))
      rw [solver, if_neg hnot]
      exact (scanTemplates_iff fun a ha => ha).mpr ⟨a, hmem, rfl, hm, hcounts⟩
    rcases h with h | ⟨⟨hcarrier, opcode, hgt, rfl⟩, rfl, rfl⟩
    · cases h with
      | scripthash hlen =>
        rw [solver, if_pos (isPayToScriptHash_iff.mpr ⟨_, hlen, rfl⟩)]
        simp only [drop_succ_cons, drop_zero, take_left' hlen]
      | pubkey hins hlow hhigh =>
        exact hscan (mem_templates_iff.mpr (.inl rfl))
          (pubkeyTemplate_iff.mpr ⟨_, _, hins, ⟨hlow, hhigh⟩, rfl, rfl⟩) (by simp)
      | pubkeyhash hins hsize =>
        exact hscan (mem_templates_iff.mpr (.inr (.inl rfl)))
          (pubkeyHashTemplate_iff.mpr ⟨_, _, hins, hsize, rfl, rfl⟩) (by simp)
      | multisig hpos hle hn hkeys hlen =>
        exact hscan (mem_templates_iff.mpr (.inr (.inr (.inl rfl))))
          (multisigTemplate_iff.mpr ⟨_, hle.trans hn, _, _, hkeys, _, hn, rfl, rfl⟩)
          fun _ => (multisigCounts_iff (hle.trans hn) hn).mpr ⟨hpos, hle, hlen⟩
      | prunable =>
        exact hscan (mem_templates_iff.mpr (.inr (.inr (.inr (.inr rfl)))))
          (returnTemplate_iff.mpr ⟨rfl, rfl⟩) (by simp)
      | data hcarrier hins hsize =>
        obtain ⟨opcode, -, hop⟩ := getOp_isPush_iff.mpr ⟨_, hins, (append_nil _).symm⟩
        exact hscan (mem_templates_iff.mpr (.inr (.inr (.inr (.inl ⟨hcarrier, rfl⟩)))))
          (smallDataTemplate_iff.mpr ⟨⟨opcode, _, hsize, _, rfl, hop⟩, rfl⟩) (by simp)
    · exact hscan (mem_templates_iff.mpr (.inr (.inr (.inr (.inl ⟨hcarrier, rfl⟩)))))
        (smallDataTemplate_iff.mpr ⟨⟨opcode, [], zero_le _, _, rfl,
          (getOp_bare_iff (.inr hgt)).mpr ⟨rfl, rfl⟩⟩, rfl⟩) (by simp)

theorem not_standardForm_of_opcode {opcode : UInt8} (hgt : 0x4e < opcode) :
    ¬StandardForm P [0x6a, opcode] t sols := by
  intro h
  generalize hscript : [0x6a, opcode] = script at h
  cases h with
  | scripthash _ => simp at hscript
  | pubkey hins _ _ =>
    obtain ⟨first, size, hle, -, rfl⟩ := hins
    obtain ⟨rfl, -⟩ := cons.inj hscript
    exact absurd hle (by decide)
  | pubkeyhash _ _ => simp at hscript
  | @multisig m n _ _ _ hle hn _ _ =>
    have htype := typeOfFirst_encodeOpN (hle.trans hn)
    rw [← (cons.inj hscript).1] at htype
    exact absurd htype (by decide)
  | prunable => simp at hscript
  | data _ hins _ =>
    obtain ⟨first, size, hle, -, rfl⟩ := hins
    obtain ⟨rfl, -⟩ := cons.inj (cons.inj hscript).2
    exact UInt8.not_le.mpr hgt hle

/-- **`solver_standardForm_iff`** — on one script, `Solver` returns true exactly with the type and
the solutions of its standard form, unless data outputs are enabled and the script is `OP_RETURN`
followed by one opcode that is not a push. -/
theorem solver_standardForm_iff (P : StandardPolicy) (script : CScript) :
    (∀ t sols, solver P script = (true, t, sols) ↔ StandardForm P script t sols) ↔
      ¬(P.datacarrier = true ∧ ∃ opcode, 0x4e < opcode ∧ script = [0x6a, opcode]) := by
  constructor
  · rintro h ⟨hcarrier, opcode, hgt, rfl⟩
    exact not_standardForm_of_opcode hgt
      ((h _ _).mp (solver_iff.mpr (.inr ⟨⟨hcarrier, opcode, hgt, rfl⟩, rfl, rfl⟩)))
  · intro hnot t sols
    rw [solver_iff]
    exact or_iff_left fun h => hnot h.1

/-- `OP_RETURN OP_DUP` passes as a data output. -/
theorem solver_return_dup : solver {} [0x6a, 0x76] = (true, .nullData, []) ∧
    ¬StandardForm {} [0x6a, 0x76] .nullData [] :=
  ⟨by decide, not_standardForm_of_opcode (by decide)⟩

end Scan

end MonetaryUnit
