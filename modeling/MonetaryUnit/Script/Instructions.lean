/-
# MonetaryUnit.Script.Instructions — scripts that parse to their end

`GetOp` cuts one instruction off a script, and what it finds does not depend on what follows.
So a script that parses to its end can lose whole instructions and still parse: that is what
`FindAndDelete` does with a signature, whose push is an instruction of its own.
-/

import MonetaryUnit.Script.Encoding

namespace MonetaryUnit

open Lib List Prod Option Nat

/-! ## Instructions -/

/-- An opcode, the bytes that give the size of its data, and the data. -/
inductive Instruction : UInt8 → Bytes → Bytes → Prop
  | push {opcode : UInt8} {v : Bytes} : opcode < 0x4c → v.length = opcode.toNat →
      Instruction opcode [] v
  | pushData1 {size v : Bytes} : size.length = 1 → v.length = leNat size → Instruction 0x4c size v
  | pushData2 {size v : Bytes} : size.length = 2 → v.length = leNat size → Instruction 0x4d size v
  | pushData4 {size v : Bytes} : size.length = 4 → v.length = leNat size → Instruction 0x4e size v
  | other {opcode : UInt8} : 0x4e < opcode → Instruction opcode [] []

theorem takePush_append (opcode : UInt8) (v rest : Bytes) :
    takePush opcode v.length (v ++ rest) = some (opcode, v, rest) := by
  rw [takePush, if_neg (by rw [length_append]; omega), take_left, drop_left]

theorem takeSizedPush_append (opcode : UInt8) {size v : Bytes} (h : v.length = leNat size)
    (rest : Bytes) :
    takeSizedPush opcode size.length (size ++ v ++ rest) = some (opcode, v, rest) := by
  rw [takeSizedPush, if_neg (by simp only [length_append]; omega), append_assoc,
    take_left, drop_left, ← h, takePush_append]

variable {opcode : UInt8} {v : Bytes} {pc : CScript}

theorem above_pushes_iff :
    (¬opcode < 0x4c ∧ opcode ≠ 0x4c ∧ opcode ≠ 0x4d ∧ opcode ≠ 0x4e) ↔ 0x4e < opcode := by
  simp only [UInt8.lt_iff_toNat_lt, ne_eq, ← UInt8.toNat_inj, UInt8.reduceToNat]
  omega

/-- What `GetOp` accepts: one instruction and any rest. -/
theorem getOp_eq_some_iff {rest : CScript} : getOp pc = some (opcode, v, rest) ↔
      ∃ size, Instruction opcode size v ∧ pc = opcode :: (size ++ v ++ rest) := by
  constructor
  · intro h
    rcases pc with _ | ⟨op, pc⟩
    · cases h
    rw [getOp] at h
    split_ifs at h with hpush h1 h2 h4
    · obtain ⟨rfl, hpc, hv⟩ := takePush_split h
      exact ⟨[], .push hpush hv, by rw [nil_append, ← hpc]⟩
    · obtain ⟨rfl, size, hsize, hv, hpc⟩ := takeSizedPush_split h
      exact ⟨size, h1 ▸ .pushData1 hsize hv, by rw [← hpc]⟩
    · obtain ⟨rfl, size, hsize, hv, hpc⟩ := takeSizedPush_split h
      exact ⟨size, h2 ▸ .pushData2 hsize hv, by rw [← hpc]⟩
    · obtain ⟨rfl, size, hsize, hv, hpc⟩ := takeSizedPush_split h
      exact ⟨size, h4 ▸ .pushData4 hsize hv, by rw [← hpc]⟩
    · obtain ⟨rfl, rfl, rfl⟩ : op = opcode ∧ [] = v ∧ pc = rest := by simpa using h
      exact ⟨[], .other (above_pushes_iff.mp ⟨hpush, h1, h2, h4⟩), rfl⟩
  · rintro ⟨size, hins, rfl⟩
    rw [getOp]
    cases hins with
    | push hlt hv => rw [if_pos hlt, ← hv, nil_append, takePush_append]
    | pushData1 hsize hv => exact hsize ▸ takeSizedPush_append 0x4c hv rest
    | pushData2 hsize hv => exact hsize ▸ takeSizedPush_append 0x4d hv rest
    | pushData4 hsize hv => exact hsize ▸ takeSizedPush_append 0x4e hv rest
    | other hgt =>
      obtain ⟨hpush, h1, h2, h4⟩ := above_pushes_iff.mpr hgt
      rw [if_neg hpush, if_neg h1, if_neg h2, if_neg h4]
      rfl

/-- What is cut off does not depend on what follows. -/
theorem getOp_stable {rest : CScript} (h : getOp pc = some (opcode, v, rest)) :
    ∃ ins, pc = ins ++ rest ∧ ∀ rest', getOp (ins ++ rest') = some (opcode, v, rest') := by
  obtain ⟨size, hins, rfl⟩ := getOp_eq_some_iff.mp h
  exact ⟨opcode :: (size ++ v), rfl, fun rest' => getOp_eq_some_iff.mpr ⟨size, hins, rfl⟩⟩

/-- The script is a sequence of whole instructions. -/
inductive ParsesFully : CScript → Prop
  | nil : ParsesFully []
  | step {opcode : UInt8} {v : Bytes} {pc rest : CScript} :
      getOp pc = some (opcode, v, rest) → ParsesFully rest → ParsesFully pc

theorem ParsesFully.rest {rest : CScript} (h : ParsesFully pc)
    (hop : getOp pc = some (opcode, v, rest)) : ParsesFully rest := by
  cases h with
  | nil => cases hop
  | step hop' hrest =>
    rw [hop, some.injEq, mk.injEq, mk.injEq] at hop'
    rw [hop'.2.2]
    exact hrest

/-! ## Deletion -/

section Deletion

variable {b : CScript} (hb : b ≠ [])

include hb

theorem findAndDeleteLoop_fuel {fuel fuel' : Nat} (h : pc.length ≤ fuel) (h' : pc.length ≤ fuel') :
    findAndDeleteLoop b fuel pc = findAndDeleteLoop b fuel' pc := by
  have hpos : 0 < b.length := length_pos_iff.mpr hb
  have hnil (fuel : Nat) : findAndDeleteLoop b fuel [] = [] := by
    cases fuel with
    | zero => rfl
    | succ fuel =>
      rcases b with _ | ⟨x, b⟩
      · exact absurd rfl hb
      · rfl
  induction fuel generalizing fuel' pc with
  | zero =>
    obtain rfl := length_eq_zero_iff.mp (le_zero.mp h)
    rw [hnil, hnil]
  | succ fuel ih =>
    cases fuel' with
    | zero =>
      obtain rfl := length_eq_zero_iff.mp (le_zero.mp h')
      rw [hnil, hnil]
    | succ fuel' =>
      unfold findAndDeleteLoop
      split_ifs
      · exact ih (by rw [length_drop]; omega) (by rw [length_drop]; omega)
      · rcases hop : getOp pc with _ | ⟨opcode, v, rest⟩
        · rfl
        · have hlt := getOp_length_lt hop
          have hrest : findAndDeleteLoop b fuel rest = findAndDeleteLoop b fuel' rest :=
            ih (by omega) (by omega)
          dsimp only
          rw [hrest]

theorem findAndDelete_eq_loop (fuel : Nat) (h : pc.length ≤ fuel) :
    findAndDelete pc b = findAndDeleteLoop b fuel pc := by
  rw [findAndDelete, if_neg (by simpa using hb)]
  exact findAndDeleteLoop_fuel hb le_rfl h

theorem findAndDelete_nil : findAndDelete [] b = [] := (findAndDelete_eq_loop hb 0 le_rfl).trans rfl

theorem findAndDelete_append (rest : CScript) :
    findAndDelete (b ++ rest) b = findAndDelete rest b := by
  rw [findAndDelete_eq_loop hb ((b ++ rest).length + 1) (by omega), findAndDeleteLoop,
    if_pos ( isPrefixOf_iff_prefix.mpr (prefix_append b rest)), drop_left]
  exact (findAndDelete_eq_loop hb _ (by rw [length_append]; omega)).symm

theorem findAndDelete_step {ins rest : CScript} (hop : getOp (ins ++ rest) = some (opcode, v, rest))
    (hno : ¬b <+: ins ++ rest) : findAndDelete (ins ++ rest) b = ins ++ findAndDelete rest b := by
  rw [findAndDelete_eq_loop hb ((ins ++ rest).length + 1) (by omega), findAndDeleteLoop,
    if_neg (by rwa [ isPrefixOf_iff_prefix]), hop]
  dsimp only
  rw [length_append, Nat.add_sub_cancel, take_left, ← findAndDelete_eq_loop hb _ (by omega)]

/-- Deleting an instruction leaves instructions. -/
theorem ParsesFully.findAndDelete (hins : ∀ rest, getOp (b ++ rest) = some (opcode, v, rest))
    {code : CScript} (h : ParsesFully code) : ParsesFully (findAndDelete code b) := by
  induction h with
  | nil =>
    rw [findAndDelete_nil hb]
    exact .nil
  | @step op' v' pc rest hop hrest ih =>
    by_cases hpre : b <+: pc
    · obtain ⟨r, rfl⟩ := hpre
      obtain rfl : r = rest := by
        have heq := (hins r).symm.trans hop
        simp only [some.injEq, mk.injEq] at heq
        exact heq.2.2
      rw [findAndDelete_append hb]
      exact ih
    · obtain ⟨ins, rfl, hstable⟩ := getOp_stable hop
      rw [findAndDelete_step hb hop hpre]
      exact .step (hstable _) ih

end Deletion

/-- The push of a byte vector is one instruction. -/
theorem getOp_pushBytes {b : Bytes} (h : b.length < 2 ^ 32) :
    ∃ opcode, ∀ rest, getOp (pushBytes b ++ rest) = some (opcode, b, rest) := by
  simp only [getOp_eq_some_iff]
  have hsize {width : Nat} (hlt : b.length < 256 ^ width) :
      b.length = leNat (leBytes width b.length) := (leNat_leBytes hlt).symm
  unfold pushBytes
  split_ifs with h1 h2 h3
  · have hnat : (UInt8.ofNat b.length).toNat = b.length := by
      rw [UInt8.toNat_ofNat', mod_eq_of_lt (by omega)]
    refine ⟨UInt8.ofNat b.length, fun rest => ⟨[], .push ?_ hnat.symm, rfl⟩⟩
    rw [UInt8.lt_iff_toNat_lt, hnat]
    exact h1
  · exact ⟨0x4c, fun _ => ⟨_, .pushData1 (leBytes_length 1 _) (hsize (by omega)), rfl⟩⟩
  · exact ⟨0x4d, fun _ => ⟨_, .pushData2 (leBytes_length 2 _) (hsize (by omega)), rfl⟩⟩
  · exact ⟨0x4e, fun _ => ⟨_, .pushData4 (leBytes_length 4 _) (hsize (by omega)), rfl⟩⟩

end MonetaryUnit
