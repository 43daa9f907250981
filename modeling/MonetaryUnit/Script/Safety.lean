/-
# MonetaryUnit.Script.Safety — no script breaks the machine

Every script, on every stack of elements of at most 520 bytes, under all flags and with every
signature checker: `EvalScript` ends, the only exception it can meet is a number that does not
decode, no assertion fails, and the limits on the stacks hold after every instruction.

`Safe` is the judgement the proofs are made in. It counts the elements that are known to be on
the stack: a guard raises the number, a pop lowers it, and an access below it needs no further
argument. The machine's instructions are proved safe one by one along their commands.
-/

import MonetaryUnit.Script.Interpreter

namespace MonetaryUnit

open Lib Lib.Command List Machine Nat Bool

/-! ## The judgement -/

/-- The ways to stop that `EvalScript` turns into `false`: its own errors and numbers that do
not decode. -/
def ScriptStop.Benign : ScriptStop → Prop
  | .error _ => True
  | .scriptnumError _ => True
  | _ => False

def StackFits (s : List Bytes) : Prop := ∀ v ∈ s, v.length ≤ maxScriptElementSize

/-- At least `k` elements, none of them too long. -/
def StackAt (k : Nat) (s : List Bytes) : Prop := k ≤ s.length ∧ StackFits s

def MachineAt (k : Nat) (m : Machine) : Prop := StackAt k m.stack ∧ StackFits m.altstack

/-- Started with `j` elements, `c` stops in a benign way or returns a value in `Q` and leaves
`k` elements. -/
def Safe {σ α : Type} (At : Nat → σ → Prop) (c : Command σ ScriptStop α) (j : Nat)
    (Q : α → Prop) (k : Nat) : Prop :=
  Ensures c (At j) (fun a s => Q a ∧ At k s) fun e _ => e.Benign

/-- No condition on the value. -/
def Any {α : Type} : α → Prop := fun _ => True

variable {σ α β : Type} {Q : α → Prop} {j k l : Nat} {ok minimal : Bool} {v : Bytes} {size : Nat}
variable {m : Machine} {stack : List Bytes}

section Rules

variable {At : Nat → σ → Prop} {R : β → Prop} {c : Command σ ScriptStop α}
variable {d : α → Command σ ScriptStop β} {e : ScriptError}

theorem Safe.andThen {S : β → σ → Prop} {E : ScriptStop → σ → Prop} (hc : Safe At c j Q k)
    (hE : ∀ e s, e.Benign → E e s) (hd : ∀ a, Q a → Ensures (d a) (At k) S E) :
    Ensures (c >>= d) (At j) S E :=
  .bind (hc.mono (fun _ hs => hs) (fun _ _ hs => hs) hE) fun a s hs => hd a hs.1 s hs.2

theorem Safe.bind (hc : Safe At c j Q k) (hd : ∀ a, Q a → Safe At (d a) k R l) :
    Safe At (c >>= d) j R l :=
  hc.andThen (fun _ _ he => he) hd

/-- The value of the first command is not used. -/
theorem Safe.seq {d : Command σ ScriptStop β} (hc : Safe At c j Q k) (hd : Safe At d k R l) :
    Safe At (c >>= fun _ => d) j R l :=
  hc.bind fun _ _ => hd

theorem Safe.pure {a : α} (ha : Q a) : Safe At (pure a) k Q k := Ensures.pure fun _ hs => ⟨ha, hs⟩

theorem Safe.setError : Safe At (setError e : Command σ ScriptStop α) j Q k :=
  .stop fun _ _ => trivial

theorem Safe.demand : Safe At (demand ok e : Command σ ScriptStop Unit) k (fun _ => ok = true) k :=
  .require (fun hok _ hs => ⟨hok, hs⟩) fun _ _ _ => trivial

theorem Safe.checked {r : Except ScriptError Unit} :
    Safe At (checked r : Command σ ScriptStop Unit) k Any k := by
  cases r with
  | ok _ => exact .pure trivial
  | error e => exact .setError

theorem Safe.ite {p : Prop} [Decidable p] {d : Command σ ScriptStop α} (hc : p → Safe At c j Q k)
    (hd : ¬p → Safe At d j Q k) : Safe At (if p then c else d) j Q k :=
  Ensures.ite hc hd

end Rules

theorem StackAt.mono {s : List Bytes} (h : StackAt k s) (hjk : j ≤ k) : StackAt j s :=
  ⟨hjk.trans h.1, h.2⟩

section Stack

variable {c : StackM α} {i : Nat}

theorem Safe.weaken (hc : Safe StackAt c j Q k) (hl : l ≤ k) : Safe StackAt c j Any l :=
  hc.mono (fun _ hs => hs) (fun _ _ hs => ⟨trivial, hs.2.mono hl⟩) fun _ _ he => he

theorem Safe.done (hc : Safe StackAt c j Q k) : Safe StackAt c j Any 0 :=
  hc.weaken (zero_le k)

theorem needs_safe (n : Nat) : Safe StackAt (needs n) j Any n := by
  intro s hs
  rcases lt_or_ge s.length n with hlt | hge
  · have hno : decide (n ≤ s.length) = false := decide_eq_false (by omega)
    simp only [needs, demand, require, hno]
    exact trivial
  · have hyes : decide (n ≤ s.length) = true := decide_eq_true hge
    simp only [needs, demand, require, hyes]
    exact ⟨trivial, hge, hs.2⟩

theorem stacktop_safe_of_le (hi : 1 ≤ i) (hik : i ≤ k) :
    Safe StackAt (stacktop i) k (fun v => v.length ≤ maxScriptElementSize) k := by
  intro s hs
  have hlt : i - 1 < s.length := by have := hs.1; omega
  rw [stacktop, getElem?_eq_getElem hlt]
  exact ⟨hs.2 _ (getElem_mem hlt), hs⟩

theorem stacktop_safe : Safe StackAt (stacktop (i + 1)) (k + (i + 1))
    (fun v => v.length ≤ maxScriptElementSize) (k + (i + 1)) :=
  stacktop_safe_of_le (le_add_left 1 i) (le_add_left _ k)

theorem popstack_safe : Safe StackAt popstack (k + 1) Any k := by
  rintro (_ | ⟨v, rest⟩) hs
  · exact absurd hs.1 (by simp)
  · refine ⟨trivial, ?_, fun w hw => hs.2 w (mem_cons_of_mem v hw)⟩
    have := hs.1
    rw [length_cons] at this
    omega

theorem pushStack_safe (hv : v.length ≤ maxScriptElementSize) :
    Safe StackAt (pushStack v) k Any (k + 1) := by
  intro s hs
  refine ⟨trivial, ?_, ?_⟩
  · have := hs.1
    rw [length_cons]
    omega
  · intro w hw
    rcases mem_cons.mp hw with rfl | hw
    · exact hv
    · exact hs.2 w hw

theorem stackSize_safe : Safe StackAt stackSize k Any k := fun _ hs => ⟨trivial, hs⟩

/-- An erasure that starts within the elements that are known to be there. -/
theorem eraseTop_safe (i' : Nat) (hik : i ≤ k) : Safe StackAt (eraseTop i i') k Any 0 := by
  intro s hs
  rw [eraseTop, if_pos (hik.trans hs.1)]
  refine ⟨trivial, zero_le _, fun v hv => ?_⟩
  rcases mem_append.mp hv with hv | hv
  · exact hs.2 v (mem_of_mem_take hv)
  · exact hs.2 v (mem_of_mem_drop hv)

theorem insertTop_safe (hik : i ≤ k) (hv : v.length ≤ maxScriptElementSize) :
    Safe StackAt (insertTop i v) k Any 0 := by
  intro s hs
  rw [insertTop, if_pos (hik.trans hs.1)]
  refine ⟨trivial, zero_le _, fun w hw => ?_⟩
  rcases mem_append.mp hw with hw | hw
  · exact hs.2 w (mem_of_mem_take hw)
  · rcases mem_cons.mp hw with rfl | hw
    · exact hv
    · exact hs.2 w (mem_of_mem_drop hw)

theorem swapTop_safe {i' : Nat} (h : (1 ≤ i ∧ i ≤ k) ∧ 1 ≤ i' ∧ i' ≤ k) :
    Safe StackAt (swapTop i i') k Any k := by
  refine (stacktop_safe_of_le h.1.1 h.1.2).bind fun a ha => ?_
  refine (stacktop_safe_of_le h.2.1 h.2.2).bind fun b hb => ?_
  refine .update fun s hs => ⟨trivial, ?_, fun v hv => ?_⟩
  · rw [length_set, length_set]
    exact hs.1
  · rcases mem_or_eq_of_mem_set hv with hv | rfl
    · rcases mem_or_eq_of_mem_set hv with hv | rfl
      · exact hs.2 v hv
      · exact hb
    · exact ha

end Stack

/-! ## Numbers -/

theorem length_magnitudeBytes (fuel n : Nat) : (magnitudeBytes fuel n).length ≤ fuel := by
  induction fuel generalizing n with
  | zero => simp [magnitudeBytes]
  | succ fuel ih =>
    rw [magnitudeBytes]
    split
    · simp
    · exact succ_le_succ (ih _)

theorem length_scriptNumSerialize (n : Int) :
    (scriptNumSerialize n).length ≤ maxScriptElementSize := by
  have hlen := length_magnitudeBytes 8 n.natAbs
  rw [scriptNumSerialize, maxScriptElementSize]
  split
  · simp
  -- at most one byte is added for the sign
  have hadd : ∀ (l : Bytes) (b : UInt8), (l ++ [b]).length = l.length + 1 :=
    fun l b => length_append
  split_ifs
  · rw [hadd]
    omega
  · rw [hadd]
    omega
  · rw [hadd, length_dropLast]
    omega
  · omega

/-- A number is at most its bytes read without a sign. -/
theorem natAbs_setVch_lt (vch : Bytes) : (setVch vch).natAbs < 256 ^ vch.length := by
  have hlt := leNat_lt vch
  rw [setVch]
  split
  · exact Nat.pow_pos (by decide)
  · split_ifs
    · omega
    · rwa [Int.natAbs_natCast]

theorem scriptNum_bound {vch : Bytes} {n : Int} (h : scriptNum vch minimal size = .ok n) :
    n.natAbs < 256 ^ size := by
  rw [scriptNum] at h
  split_ifs at h with hlong
  obtain rfl := Except.ok.inj h
  exact (natAbs_setVch_lt vch).trans_le (Nat.pow_le_pow_right (by decide) (by omega))

theorem scriptNumAt_safe {i : Nat} (hi : 1 ≤ i) (hik : i ≤ k) :
    Safe StackAt (scriptNumAt i minimal size) k (fun n => n.natAbs < 256 ^ size) k := by
  refine (stacktop_safe_of_le hi hik).bind fun vch _ => ?_
  cases hnum : scriptNum vch minimal size with
  | ok n => exact .pure (scriptNum_bound hnum)
  | error what => exact .stop fun _ _ => trivial

theorem pushNumber_safe (n : Int) : Safe StackAt (pushNumber n) k Any (k + 1) :=
  pushStack_safe (length_scriptNumSerialize n)

theorem pushBool_safe (b : Bool) : Safe StackAt (pushBool b) k Any (k + 1) :=
  pushStack_safe (by cases b <;> decide)

theorem finishVerify_safe (fVerify fSuccess : Bool) (e : ScriptError) :
    Safe StackAt (finishVerify fVerify fSuccess e) (k + 1) Any k := by
  refine .ite (fun _ => .ite (fun _ => popstack_safe) fun _ => .setError) fun _ => ?_
  exact (Safe.pure (Q := Any) trivial).weaken (le_succ k)

theorem assertThat_safe (hok : ok = true) : Safe StackAt (assertThat ok) k Any k := by
  rw [hok]
  exact .pure trivial

variable {value : Int}

section

variable (hv : value.natAbs < 256 ^ 4) {rhs : Int}
include hv

theorem addAssign_safe (hr : rhs.natAbs ≤ 1) : Safe StackAt (addAssign value rhs) k Any k := by
  refine (assertThat_safe ?_).bind fun _ _ => .pure trivial
  rw [decide_eq_true_eq, int64Max, int64Min]
  omega

theorem subAssign_safe (hr : rhs.natAbs ≤ 1) : Safe StackAt (subAssign value rhs) k Any k := by
  refine (assertThat_safe ?_).bind fun _ _ => .pure trivial
  rw [decide_eq_true_eq, int64Max, int64Min]
  omega

theorem negateNum_safe : Safe StackAt (negateNum value) k Any k := by
  refine (assertThat_safe ?_).bind fun _ _ => .pure trivial
  rw [decide_eq_true_eq, int64Min]
  omega

end

theorem inInt64_safe (hv : value.natAbs < 2 * 256 ^ 4) : Safe StackAt (inInt64 value) k Any k := by
  have hok : decide (int64Min ≤ value ∧ value ≤ int64Max) = true := by
    rw [decide_eq_true_eq, int64Max, int64Min]
    omega
  rw [inInt64, hok]
  exact .bind (.pure (Q := Any) trivial) fun _ _ => .pure trivial

/-- Operands of four bytes are far from the ends of the 64-bit range. -/
theorem applyUnary_safe (op : UnaryOp) {bn : Int} (hbn : bn.natAbs < 256 ^ 4) :
    Safe StackAt (applyUnary op bn) k Any k := by
  cases op with
  | add1 => exact addAssign_safe hbn (by decide)
  | sub1 => exact subAssign_safe hbn (by decide)
  | negate => exact negateNum_safe hbn
  | abs => exact .ite (fun _ => negateNum_safe hbn) fun _ => .pure trivial
  | _ => exact .pure trivial

theorem applyBinary_safe (op : BinaryOp) {bn1 bn2 : Int} (h1 : bn1.natAbs < 256 ^ 4)
    (h2 : bn2.natAbs < 256 ^ 4) : Safe StackAt (applyBinary op bn1 bn2) k Any k := by
  cases op with
  | add => exact inInt64_safe (by omega)
  | sub => exact inInt64_safe (by omega)
  | _ => exact .pure trivial

/-! ## Instructions on the stack -/

theorem opVerify_safe : Safe StackAt opVerify 0 Any 0 := by
  refine (needs_safe 1).seq ?_
  refine stacktop_safe.bind fun vch _ => ?_
  exact .ite (fun _ => popstack_safe) fun _ => .setError

theorem op2Drop_safe : Safe StackAt op2Drop 0 Any 0 := by
  refine (needs_safe 2).seq ?_
  exact popstack_safe.seq popstack_safe

theorem op2Dup_safe : Safe StackAt op2Dup 0 Any 0 := by
  refine (needs_safe 2).seq ?_
  refine stacktop_safe.bind fun vch1 h1 => ?_
  refine stacktop_safe.bind fun vch2 h2 => ?_
  refine (pushStack_safe h1).seq ?_
  exact (pushStack_safe h2).done

theorem op3Dup_safe : Safe StackAt op3Dup 0 Any 0 := by
  refine (needs_safe 3).seq ?_
  refine stacktop_safe.bind fun vch1 h1 => ?_
  refine stacktop_safe.bind fun vch2 h2 => ?_
  refine stacktop_safe.bind fun vch3 h3 => ?_
  refine (pushStack_safe h1).seq ?_
  refine (pushStack_safe h2).seq ?_
  exact (pushStack_safe h3).done

theorem op2Over_safe : Safe StackAt op2Over 0 Any 0 := by
  refine (needs_safe 4).seq ?_
  refine stacktop_safe.bind fun vch1 h1 => ?_
  refine stacktop_safe.bind fun vch2 h2 => ?_
  refine (pushStack_safe h1).seq ?_
  exact (pushStack_safe h2).done

theorem op2Rot_safe : Safe StackAt op2Rot 0 Any 0 := by
  refine (needs_safe 6).seq ?_
  refine stacktop_safe.bind fun vch1 h1 => ?_
  refine stacktop_safe.bind fun vch2 h2 => ?_
  refine (eraseTop_safe 4 le_rfl).seq ?_
  refine (pushStack_safe h1).seq ?_
  exact (pushStack_safe h2).done

theorem op2Swap_safe : Safe StackAt op2Swap 0 Any 0 := by
  refine (needs_safe 4).seq ?_
  refine (swapTop_safe (by decide)).seq ?_
  exact (swapTop_safe (by decide)).done

theorem opIfDup_safe : Safe StackAt opIfDup 0 Any 0 := by
  refine (needs_safe 1).seq ?_
  refine stacktop_safe.bind fun vch h => ?_
  refine .ite (fun _ => (pushStack_safe h).done) fun _ => ?_
  exact (Safe.pure (Q := Any) trivial).done

theorem opDepth_safe : Safe StackAt opDepth 0 Any 0 := by
  refine stackSize_safe.bind fun size _ => ?_
  exact (pushNumber_safe size).done

theorem opDrop_safe : Safe StackAt opDrop 0 Any 0 := (needs_safe 1).seq popstack_safe

theorem opDup_safe : Safe StackAt opDup 0 Any 0 := by
  refine (needs_safe 1).seq ?_
  refine stacktop_safe.bind fun vch h => ?_
  exact (pushStack_safe h).done

theorem opNip_safe : Safe StackAt opNip 0 Any 0 := by
  refine (needs_safe 2).seq ?_
  exact eraseTop_safe 1 le_rfl

theorem opOver_safe : Safe StackAt opOver 0 Any 0 := by
  refine (needs_safe 2).seq ?_
  refine stacktop_safe.bind fun vch h => ?_
  exact (pushStack_safe h).done

/-- The depth that `OP_PICK` and `OP_ROLL` take from the stack is checked against the stack
after the pop. -/
theorem opPick_safe (minimal roll : Bool) : Safe StackAt (opPick minimal roll) 0 Any 0 := by
  refine (needs_safe 2).seq ?_
  refine (scriptNumAt_safe (by decide) (by decide)).bind fun bn _ => ?_
  refine popstack_safe.seq ?_
  refine Ensures.bind (Q := fun size s => s.length = size ∧ StackAt 1 s)
    (fun s hs => ⟨rfl, hs⟩) fun size => ?_
  have hdepth : Ensures (demand (!(getint bn < 0 || (size : Int) ≤ getint bn))
      .invalidStackOperation : StackM Unit) (fun s => s.length = size ∧ StackAt 1 s)
      (fun _ => StackAt ((getint bn).toNat + 1)) fun e _ => e.Benign := by
    refine .require (fun hok s hs => ⟨?_, hs.2.2⟩) fun _ _ _ => trivial
    simp only [not_eq_true', or_eq_false_iff, decide_eq_false_iff_not] at hok
    omega
  refine hdepth.bind fun _ => ?_
  refine (stacktop_safe_of_le (le_add_left 1 _) le_rfl).bind fun vch h => ?_
  refine Safe.seq (.ite (fun _ => eraseTop_safe _ le_rfl) fun _ => ?_) ?_
  · exact (Safe.pure (Q := Any) trivial).done
  exact (pushStack_safe h).done

theorem opRot_safe : Safe StackAt opRot 0 Any 0 := by
  refine (needs_safe 3).seq ?_
  refine (swapTop_safe (by decide)).seq ?_
  exact (swapTop_safe (by decide)).done

theorem opSwap_safe : Safe StackAt opSwap 0 Any 0 := by
  refine (needs_safe 2).seq ?_
  exact (swapTop_safe (by decide)).done

theorem opTuck_safe : Safe StackAt opTuck 0 Any 0 := by
  refine (needs_safe 2).seq ?_
  refine stacktop_safe.bind fun vch h => ?_
  exact insertTop_safe le_rfl h

theorem opSize_safe : Safe StackAt opSize 0 Any 0 := by
  refine (needs_safe 1).seq ?_
  refine stacktop_safe.bind fun vch _ => ?_
  exact (pushNumber_safe vch.length).done

theorem opEqual_safe (fVerify : Bool) : Safe StackAt (opEqual fVerify) 0 Any 0 := by
  refine (needs_safe 2).seq ?_
  refine stacktop_safe.bind fun vch1 _ => ?_
  refine stacktop_safe.bind fun vch2 _ => ?_
  refine popstack_safe.seq ?_
  refine popstack_safe.seq ?_
  refine (pushBool_safe _).seq ?_
  exact finishVerify_safe _ _ _

theorem opUnary_safe (minimal : Bool) (op : UnaryOp) :
    Safe StackAt (opUnary minimal op) 0 Any 0 := by
  refine (needs_safe 1).seq ?_
  refine (scriptNumAt_safe le_rfl le_rfl).bind fun bn hbn => ?_
  refine (applyUnary_safe op hbn).bind fun r _ => ?_
  refine popstack_safe.seq ?_
  exact (pushNumber_safe r).done

theorem finishNumEqual_safe (op : BinaryOp) : Safe StackAt (finishNumEqual op) 1 Any 0 := by
  refine Safe.ite (fun _ => ?_) fun _ => (Safe.pure (Q := Any) trivial).done
  refine stacktop_safe.bind fun vch _ => ?_
  exact finishVerify_safe _ _ _

theorem opBinary_safe (minimal : Bool) (op : BinaryOp) :
    Safe StackAt (opBinary minimal op) 0 Any 0 := by
  refine (needs_safe 2).seq ?_
  refine (scriptNumAt_safe (by decide) le_rfl).bind fun bn1 h1 => ?_
  refine (scriptNumAt_safe le_rfl (by decide)).bind fun bn2 h2 => ?_
  refine (applyBinary_safe op h1 h2).bind fun r _ => ?_
  refine popstack_safe.seq ?_
  refine popstack_safe.seq ?_
  refine (pushNumber_safe r).seq ?_
  exact finishNumEqual_safe op

theorem opWithin_safe (minimal : Bool) : Safe StackAt (opWithin minimal) 0 Any 0 := by
  refine (needs_safe 3).seq ?_
  refine (scriptNumAt_safe (by decide) le_rfl).bind fun bn1 _ => ?_
  refine (scriptNumAt_safe (by decide) (by decide)).bind fun bn2 _ => ?_
  refine (scriptNumAt_safe le_rfl (by decide)).bind fun bn3 _ => ?_
  refine popstack_safe.seq ?_
  refine popstack_safe.seq ?_
  refine popstack_safe.seq ?_
  exact (pushBool_safe _).done

theorem opHash_safe (H : ScriptHashes) (op : HashOp) : Safe StackAt (opHash H op) 0 Any 0 := by
  refine (needs_safe 1).seq ?_
  refine stacktop_safe.bind fun vch _ => ?_
  refine popstack_safe.seq ?_
  have hlen : (H.hash op vch).length ≤ maxScriptElementSize := by
    rw [H.length_hash]
    cases op <;> decide
  exact (pushStack_safe hlen).done

theorem opCheckLockTimeVerify_safe (checker : SignatureChecker) (flags : UInt32) :
    Safe StackAt (opCheckLockTimeVerify checker flags) 0 Any 0 := by
  refine Safe.ite (fun _ => ?_) fun _ => Safe.demand.weaken le_rfl
  refine (needs_safe 1).seq ?_
  refine (scriptNumAt_safe le_rfl le_rfl).bind fun nLockTime _ => ?_
  exact Safe.demand.seq Safe.demand.done

/-! ## Instructions on the machine -/

theorem onStack_safe {c : StackM α} (hc : Safe StackAt c j Q k) :
    Safe MachineAt (onStack c) j Q k := by
  refine .onPart fun m hm => (hc m.stack hm.1).mono ?_ fun _ _ he => he
  exact fun a s hs => ⟨hs.1, hs.2, hm.2⟩

theorem Safe.weakenMachine {c : MachineM α} (hc : Safe MachineAt c j Q k) (hl : l ≤ k) :
    Safe MachineAt c j Any l :=
  hc.mono (fun _ hs => hs) (fun _ _ hs => ⟨trivial, hs.2.1.mono hl, hs.2.2⟩) fun _ _ he => he

/-- A change of anything but the stacks. -/
theorem updateMachine_safe {f : Machine → Machine} (hs : ∀ m, (f m).stack = m.stack)
    (ha : ∀ m, (f m).altstack = m.altstack) : Safe MachineAt (update f) k Any k := by
  refine .update fun m hm => ⟨trivial, ?_⟩
  rw [MachineAt, hs, ha]
  exact hm

theorem popCondition_safe (negated : Bool) : Safe StackAt (popCondition negated) 0 Any 0 := by
  refine Ensures.bind (Q := fun size s => s.length = size ∧ StackAt 0 s)
    (fun s hs => ⟨rfl, hs⟩) fun size => ?_
  have hone : Ensures (demand (1 ≤ size) .unbalancedConditional : StackM Unit)
      (fun s => s.length = size ∧ StackAt 0 s) (fun _ => StackAt 1) fun e _ => e.Benign :=
    .require (fun hok s hs => ⟨hs.1 ▸ of_decide_eq_true hok, hs.2.2⟩) fun _ _ _ => trivial
  refine hone.bind fun _ => ?_
  refine stacktop_safe.bind fun vch _ => ?_
  exact popstack_safe.seq (.pure trivial)

theorem opIf_safe (fExec negated : Bool) : Safe MachineAt (opIf fExec negated) 0 Any 0 := by
  have hcond : Safe MachineAt (branchValue fExec negated) 0 Any 0 :=
    .ite (fun _ => onStack_safe (popCondition_safe negated)) fun _ => .pure trivial
  refine hcond.bind fun fValue _ => ?_
  apply updateMachine_safe <;> exact fun _ => rfl

theorem opElse_safe : Safe MachineAt opElse 0 Any 0 := by
  intro m hm
  rw [opElse]
  cases m.vfExec with
  | nil => exact trivial
  | cons f rest => exact ⟨trivial, hm⟩

theorem opEndIf_safe : Safe MachineAt opEndIf 0 Any 0 := by
  intro m hm
  rw [opEndIf]
  cases m.vfExec with
  | nil => exact trivial
  | cons f rest => exact ⟨trivial, hm⟩

theorem opToAltStack_safe : Safe MachineAt opToAltStack 0 Any 0 := by
  refine (onStack_safe (needs_safe 1)).seq ?_
  refine (onStack_safe stacktop_safe).bind fun vch h => ?_
  have hpush : Safe MachineAt (pushAlt vch) 1 Any 1 := by
    refine .update fun m hm => ⟨trivial, hm.1, ?_⟩
    intro w hw
    rcases mem_cons.mp hw with rfl | hw
    · exact h
    · exact hm.2 w hw
  exact hpush.seq (onStack_safe popstack_safe)

/-- The alternative stack has an element after its own guard. -/
theorem opFromAltStack_safe : Safe MachineAt opFromAltStack 0 Any 0 := by
  rintro m ⟨hm, halt⟩
  rcases ha : m.altstack with _ | ⟨vch, rest⟩
  · simp only [opFromAltStack, onAltstack, onPart, stackSize, bind_apply, ha, length_nil]
    exact trivial
  have hrest : ∀ w ∈ vch :: rest, w.length ≤ maxScriptElementSize := ha ▸ halt
  have hrun : opFromAltStack m =
      (.ok (), { m with stack := vch :: m.stack, altstack := rest }) := by
    simp only [opFromAltStack, onAltstack, onStack, onPart, stackSize, bind_apply, ha,
      length_cons, le_add_left, decide_true, demand, require, if_true,
      stacktop, pushStack, update, popstack]
    rfl
  rw [hrun]
  refine ⟨trivial, ⟨zero_le _, ?_⟩, fun w hw => hrest w (mem_cons_of_mem vch hw)⟩
  intro w hw
  rcases mem_cons.mp hw with rfl | hw
  · exact hrest w mem_cons_self
  · exact hm.2 w hw

section Signatures

variable (checker : SignatureChecker) (flags : UInt32) {isig : Nat}

theorem callCheckSig_safe (vchSig vchPubKey : Bytes) (scriptCode : CScript) :
    Safe MachineAt (callCheckSig checker vchSig vchPubKey scriptCode) k Any k :=
  fun _ hm => ⟨trivial, hm⟩

theorem checkEncodings_safe (vchSig vchPubKey : Bytes) :
    Safe MachineAt (checkEncodings flags vchSig vchPubKey) k Any k :=
  Safe.checked.seq Safe.checked

theorem codeFromSeparator_safe : Safe MachineAt codeFromSeparator k Any k :=
  fun _ hm => ⟨trivial, hm⟩

theorem finishCheckSig_safe (fVerify fSuccess : Bool) :
    Safe StackAt (finishCheckSig fVerify fSuccess) 2 Any 0 := by
  refine popstack_safe.seq ?_
  refine popstack_safe.seq ?_
  refine (pushBool_safe _).seq ?_
  exact finishVerify_safe _ _ _

theorem opCheckSig_safe (fVerify : Bool) :
    Safe MachineAt (opCheckSig checker flags fVerify) 0 Any 0 := by
  refine (onStack_safe (needs_safe 2)).seq ?_
  refine (onStack_safe stacktop_safe).bind fun vchSig _ => ?_
  refine (onStack_safe stacktop_safe).bind fun vchPubKey _ => ?_
  refine codeFromSeparator_safe.bind fun code _ => ?_
  refine (checkEncodings_safe flags vchSig vchPubKey).seq ?_
  refine (callCheckSig_safe checker vchSig vchPubKey _).bind fun fSuccess _ => ?_
  exact onStack_safe (finishCheckSig_safe fVerify fSuccess)

theorem dropSignatures_safe {n : Nat} (code : CScript) (hi : 1 ≤ isig) (hk : isig + n ≤ k + 1) :
    Safe StackAt (dropSignatures n isig code) k Any k := by
  induction n generalizing isig code with
  | zero => exact .pure trivial
  | succ n ih =>
    refine (stacktop_safe_of_le hi (by omega)).bind fun vchSig _ => ?_
    exact ih _ (by omega) (by omega)

/-- The loop of `CHECKMULTISIG` stays within the keys and the signatures, because there are
never more signatures left than keys. -/
theorem multiSigLoop_safe {nKeys ikey nSigs : Nat} (code : CScript) (hsigs : nSigs ≤ nKeys)
    (hi : 1 ≤ isig) (hisig : isig + nSigs ≤ k + 1) (hk : 1 ≤ ikey) (hikey : ikey + nKeys ≤ k + 1) :
    Safe MachineAt (multiSigLoop checker flags code nKeys isig ikey nSigs) k Any k := by
  induction nKeys generalizing isig ikey nSigs with
  | zero =>
    rw [multiSigLoop, if_pos (by omega)]
    exact .pure trivial
  | succ nKeys ih =>
    refine .ite (fun _ => .pure trivial) fun hne => ?_
    refine (onStack_safe (stacktop_safe_of_le hi (by omega))).bind fun vchSig _ => ?_
    refine (onStack_safe (stacktop_safe_of_le hk (by omega))).bind fun vchPubKey _ => ?_
    refine (checkEncodings_safe flags vchSig vchPubKey).seq ?_
    refine (callCheckSig_safe checker vchSig vchPubKey code).bind fun fOk _ => ?_
    refine .ite (fun _ => .pure trivial) fun hle => ?_
    cases fOk with
    | true =>
      simp only [if_true] at hle ⊢
      exact ih (by omega) (by omega) (by omega) (by omega) (by omega)
    | false =>
      simp only [false_eq_true, if_false] at hle ⊢
      exact ih (by omega) (by omega) (by omega) (by omega) (by omega)

theorem popMany_safe (n : Nat) : Safe StackAt (popMany n) (k + n) Any k := by
  induction n with
  | zero => exact .pure trivial
  | succ n ih => exact popstack_safe.seq ih

theorem finishMultiSig_safe (nArgs : Nat) (fVerify fSuccess : Bool) :
    Safe StackAt (finishMultiSig flags nArgs fVerify fSuccess) (1 + nArgs) Any 0 := by
  refine (popMany_safe nArgs).seq ?_
  refine (needs_safe 1).seq ?_
  have hdummy : Safe StackAt (checkDummy flags) 1 Any 1 :=
    stacktop_safe.bind fun vch _ => Safe.demand.weaken le_rfl
  refine hdummy.seq ?_
  refine popstack_safe.seq ?_
  refine (pushBool_safe _).seq ?_
  exact finishVerify_safe _ _ _

theorem countOps_safe (n : Nat) : Safe MachineAt (countOps n) k Any k := by
  have hcount : Safe MachineAt
      (update fun m => { m with nOpCount := m.nOpCount + n } : MachineM Unit) k Any k := by
    apply updateMachine_safe <;> exact fun _ => rfl
  refine hcount.seq ?_
  exact fun m hm => (Safe.demand m hm).mono (fun _ _ h => ⟨trivial, h.2⟩) fun _ _ he => he

theorem readKeysCount_safe : Safe MachineAt (readKeysCount flags) 0 Any 1 := by
  refine (onStack_safe (needs_safe 1)).seq ?_
  refine (onStack_safe (scriptNumAt_safe le_rfl le_rfl)).bind fun bn _ => ?_
  exact Safe.demand.seq (Safe.pure trivial)

theorem readSigsCount_safe (nKeys : Nat) :
    Safe StackAt (readSigsCount flags nKeys) j (· ≤ nKeys) (2 + nKeys) := by
  refine (needs_safe (2 + nKeys)).seq ?_
  refine (scriptNumAt_safe (by omega) le_rfl).bind fun bn _ => ?_
  refine Safe.demand.bind fun _ hok => Safe.pure ?_
  simp only [not_eq_true', or_eq_false_iff, decide_eq_false_iff_not] at hok
  omega

theorem opCheckMultiSig_safe (fVerify : Bool) :
    Safe MachineAt (opCheckMultiSig checker flags fVerify) 0 Any 0 := by
  refine (readKeysCount_safe flags).bind fun nKeys _ => ?_
  refine (countOps_safe nKeys).seq ?_
  refine (onStack_safe (readSigsCount_safe flags nKeys)).bind fun nSigs hsigs => ?_
  refine (onStack_safe (needs_safe (3 + nKeys + nSigs))).seq ?_
  refine codeFromSeparator_safe.bind fun code _ => ?_
  refine (onStack_safe (dropSignatures_safe code (by omega) (by omega))).bind fun scriptCode _ => ?_
  refine (multiSigLoop_safe checker flags scriptCode hsigs (by omega) (by omega) (by omega)
    (by omega)).bind fun fSuccess _ => ?_
  have hfinish := finishMultiSig_safe flags (2 + nKeys + nSigs) fVerify fSuccess
  rw [show 1 + (2 + nKeys + nSigs) = 3 + nKeys + nSigs by omega] at hfinish
  exact onStack_safe hfinish

end Signatures

/-! ## Scripts -/

variable (H : ScriptHashes) (checker : SignatureChecker) (flags : UInt32)

theorem evalOp_safe (fExec : Bool) (op : Op) :
    Safe MachineAt (evalOp H checker flags fExec op) 0 Any 0 := by
  cases op with
  | pushNumber n => exact onStack_safe ((pushNumber_safe n).done)
  | nop => exact .pure trivial
  | checkLockTimeVerify => exact onStack_safe (opCheckLockTimeVerify_safe checker flags)
  | upgradableNop => exact Safe.demand.weakenMachine le_rfl
  | cond negated => exact opIf_safe fExec negated
  | else_ => exact opElse_safe
  | endIf => exact opEndIf_safe
  | verify => exact onStack_safe opVerify_safe
  | return_ => exact .setError
  | toAltStack => exact opToAltStack_safe
  | fromAltStack => exact opFromAltStack_safe
  | drop2 => exact onStack_safe op2Drop_safe
  | dup2 => exact onStack_safe op2Dup_safe
  | dup3 => exact onStack_safe op3Dup_safe
  | over2 => exact onStack_safe op2Over_safe
  | rot2 => exact onStack_safe op2Rot_safe
  | swap2 => exact onStack_safe op2Swap_safe
  | ifDup => exact onStack_safe opIfDup_safe
  | depth => exact onStack_safe opDepth_safe
  | drop => exact onStack_safe opDrop_safe
  | dup => exact onStack_safe opDup_safe
  | nip => exact onStack_safe opNip_safe
  | over_ => exact onStack_safe opOver_safe
  | pick roll => exact onStack_safe (opPick_safe _ roll)
  | rot => exact onStack_safe opRot_safe
  | swap => exact onStack_safe opSwap_safe
  | tuck => exact onStack_safe opTuck_safe
  | size => exact onStack_safe opSize_safe
  | equal fVerify => exact onStack_safe (opEqual_safe fVerify)
  | unary op => exact onStack_safe (opUnary_safe _ op)
  | binary op => exact onStack_safe (opBinary_safe _ op)
  | within => exact onStack_safe (opWithin_safe _)
  | hash op => exact onStack_safe (opHash_safe H op)
  | codeSeparator => apply updateMachine_safe <;> exact fun _ => rfl
  | checkSig fVerify => exact opCheckSig_safe checker flags fVerify
  | checkMultiSig fVerify => exact opCheckMultiSig_safe checker flags fVerify
  | bad => exact .setError

theorem dispatch_safe (fExec : Bool) (opcode : UInt8) {vchPushValue : Bytes}
    (hlen : vchPushValue.length ≤ maxScriptElementSize) :
    Safe MachineAt (dispatch H checker flags fExec opcode vchPushValue) 0 Any 0 := by
  refine .ite (fun _ => ?_) fun _ => ?_
  · refine onStack_safe (Safe.demand.seq ?_)
    exact (pushStack_safe hlen).done
  · exact .ite (fun _ => evalOp_safe H checker flags fExec _) fun _ => .pure trivial

/-- What holds of the machine after an instruction. -/
structure WithinLimits (m : Machine) : Prop where
  size : m.stack.length + m.altstack.length ≤ 1000
  stackFits : StackFits m.stack
  altstackFits : StackFits m.altstack

theorem checkStackSize_safe :
    Ensures checkStackSize (MachineAt 0) (fun _ => WithinLimits) fun e _ => e.Benign := by
  intro m hm
  have h : Ensures (demand (m.stack.length + m.altstack.length ≤ 1000) .stackSize : MachineM Unit)
      (· = m) (fun _ => WithinLimits) fun e _ => e.Benign :=
    .require (fun hok _ hs => hs ▸ ⟨of_decide_eq_true hok, hm.1.2, hm.2⟩)
      fun _ _ _ => trivial
  exact h m rfl

theorem countOpcode_safe (opcode : UInt8) : Safe MachineAt (countOpcode opcode) 0 Any 0 :=
  .ite (fun _ => countOps_safe 1) fun _ => .pure trivial

/-- One instruction, and the limits it leaves behind. -/
theorem evalInstruction_safe (fExec : Bool) (opcode : UInt8) (vchPushValue : Bytes) :
    Ensures (evalInstruction H checker flags fExec opcode vchPushValue) (MachineAt 0)
      (fun _ => WithinLimits) fun e _ => e.Benign := by
  refine Safe.demand.andThen (fun _ _ he => he) fun _ hlen => ?_
  refine (countOpcode_safe opcode).andThen (fun _ _ he => he) fun _ _ => ?_
  refine Safe.demand.andThen (fun _ _ he => he) fun _ _ => ?_
  have hrun := dispatch_safe H checker flags fExec opcode (of_decide_eq_true hlen)
  exact hrun.andThen (fun _ _ he => he) fun _ _ => checkStackSize_safe

theorem evalStep_safe : Ensures (evalStep H checker flags) (MachineAt 0) (fun _ => WithinLimits)
      fun e _ => e.Benign := by
  intro m hm
  rw [evalStep]
  rcases getOp m.pc with _ | ⟨opcode, vchPushValue, rest⟩
  · exact trivial
  · exact evalInstruction_safe H checker flags m.fExec opcode vchPushValue _ hm

/-! ## What an instruction leaves alone -/

section Frame

variable {γ : Type} {f : Machine → γ} (hstack : ∀ m s, f { m with stack := s } = f m)
variable (hops : ∀ m n, f { m with nOpCount := n } = f m)
variable (hcalls : ∀ m n, f { m with checkSigCalls := n } = f m)

theorem checked_keeps (r : Except ScriptError Unit) : Keeps f (checked r : MachineM Unit) := by
  cases r with
  | ok _ => exact .pure ()
  | error e => exact .stop _

theorem checkEncodings_keeps (vchSig vchPubKey : Bytes) :
    Keeps f (checkEncodings flags vchSig vchPubKey) :=
  (checked_keeps _).bind fun _ => checked_keeps _

include hops in
theorem countOps_keeps (n : Nat) : Keeps f (countOps n) :=
  (Keeps.update fun m => hops m _).bind fun _ _ => Keeps.require _

include hstack in
theorem onStack_keeps {α : Type} (c : StackM α) : Keeps f (onStack c) :=
  .onPart fun s m => hstack m s

include hstack hcalls in
theorem opCheckSig_keeps (fVerify : Bool) : Keeps f (opCheckSig checker flags fVerify) := by
  refine (onStack_keeps hstack _).bind fun _ => ?_
  refine (onStack_keeps hstack _).bind fun vchSig => ?_
  refine (onStack_keeps hstack _).bind fun vchPubKey => ?_
  refine .bind (fun _ => rfl) fun code => ?_
  refine (checkEncodings_keeps flags _ _).bind fun _ => ?_
  refine .bind (fun m => hcalls m _) fun fSuccess => ?_
  exact onStack_keeps hstack _

include hstack hcalls in
theorem multiSigLoop_keeps (scriptCode : CScript) (nKeys isig ikey nSigs : Nat) :
    Keeps f (multiSigLoop checker flags scriptCode nKeys isig ikey nSigs) := by
  induction nKeys generalizing isig ikey nSigs with
  | zero => exact .ite (.pure _) (.stop _)
  | succ nKeys ih =>
    refine .ite (.pure _) ?_
    refine (onStack_keeps hstack _).bind fun vchSig => ?_
    refine (onStack_keeps hstack _).bind fun vchPubKey => ?_
    refine (checkEncodings_keeps flags _ _).bind fun _ => ?_
    refine .bind (fun m => hcalls m _) fun fOk => ?_
    exact .ite (.pure _) (ih _ _ _)

include hstack in
theorem readKeysCount_keeps : Keeps f (readKeysCount flags) := by
  refine (onStack_keeps hstack _).bind fun _ => ?_
  refine (onStack_keeps hstack _).bind fun bn => ?_
  exact Keeps.require.bind fun _ => Keeps.pure _

include hstack hops hcalls in
theorem opCheckMultiSig_keeps (fVerify : Bool) :
    Keeps f (opCheckMultiSig checker flags fVerify) := by
  refine (readKeysCount_keeps flags hstack).bind fun nKeys => ?_
  refine (countOps_keeps hops nKeys).bind fun _ => ?_
  refine (onStack_keeps hstack _).bind fun nSigs => ?_
  refine (onStack_keeps hstack _).bind fun _ => ?_
  refine .bind (fun _ => rfl) fun code => ?_
  refine (onStack_keeps hstack _).bind fun scriptCode => ?_
  refine (multiSigLoop_keeps checker flags hstack hcalls _ _ _ _ _).bind fun fSuccess => ?_
  exact onStack_keeps hstack _

end Frame

/-- What is read off a machine without looking at its stacks and conditionals. -/
structure OffStacks {γ : Type} (f : Machine → γ) : Prop where
  stack : ∀ m s, f { m with stack := s } = f m
  altstack : ∀ m s, f { m with altstack := s } = f m
  vfExec : ∀ m v, f { m with vfExec := v } = f m

section OffStacks

variable {γ : Type} {f : Machine → γ} (hf : OffStacks f) (H : ScriptHashes)
variable (checker : SignatureChecker) (flags : UInt32)

include hf

theorem onAltstack_keeps {α : Type} (c : StackM α) : Keeps f (onAltstack c) :=
  .onPart fun s m => hf.altstack m s

theorem opIf_keeps (fExec negated : Bool) : Keeps f (opIf fExec negated) := by
  refine .bind (.ite (onStack_keeps hf.stack _) (.pure _)) fun fValue => ?_
  exact .update fun m => hf.vfExec m _

theorem opElse_keeps : Keeps f opElse := by
  intro m
  rw [opElse]
  cases m.vfExec with
  | nil => rfl
  | cons b rest => exact hf.vfExec m _

theorem opEndIf_keeps : Keeps f opEndIf := by
  intro m
  rw [opEndIf]
  cases m.vfExec with
  | nil => rfl
  | cons b rest => exact hf.vfExec m _

theorem opToAltStack_keeps : Keeps f opToAltStack := by
  refine (onStack_keeps hf.stack _).bind fun _ => ?_
  refine (onStack_keeps hf.stack _).bind fun vch => ?_
  refine .bind (.update fun m => hf.altstack m _) fun _ => ?_
  exact onStack_keeps hf.stack _

theorem opFromAltStack_keeps : Keeps f opFromAltStack := by
  refine (onAltstack_keeps hf _).bind fun size => ?_
  refine Keeps.require.bind fun _ => ?_
  refine (onAltstack_keeps hf _).bind fun vch => ?_
  refine (onStack_keeps hf.stack _).bind fun _ => ?_
  exact onAltstack_keeps hf _

/-- The instructions that have to do with signatures. -/
def Op.signing : Op → Bool
  | .codeSeparator | .checkSig _ | .checkMultiSig _ => true
  | _ => false

theorem evalOp_keeps_of_not_signing (fExec : Bool) {op : Op} (h : op.signing = false) :
    Keeps f (evalOp H checker flags fExec op) := by
  cases op with
  | cond negated => exact opIf_keeps hf fExec negated
  | else_ => exact opElse_keeps hf
  | endIf => exact opEndIf_keeps hf
  | toAltStack => exact opToAltStack_keeps hf
  | fromAltStack => exact opFromAltStack_keeps hf
  | nop => exact .pure ()
  | upgradableNop => exact .require
  | return_ => exact .stop _
  | bad => exact .stop _
  | codeSeparator => cases h
  | checkSig => cases h
  | checkMultiSig => cases h
  | _ => exact onStack_keeps hf.stack _

end OffStacks

theorem offStacks_pc : OffStacks pc := ⟨fun _ _ => rfl, fun _ _ => rfl, fun _ _ => rfl⟩

theorem evalOp_keeps_pc (fExec : Bool) (op : Op) : Keeps pc (evalOp H checker flags fExec op) := by
  cases hop : op.signing with
  | false => exact evalOp_keeps_of_not_signing offStacks_pc H checker flags fExec hop
  | true =>
    cases op with
    | codeSeparator => exact .update fun _ => rfl
    | checkSig fVerify =>
      exact opCheckSig_keeps checker flags offStacks_pc.stack (fun _ _ => rfl) fVerify
    | checkMultiSig fVerify =>
      exact opCheckMultiSig_keeps checker flags offStacks_pc.stack (fun _ _ => rfl)
        (fun _ _ => rfl) fVerify
    | _ => cases hop

theorem evalInstruction_keeps_pc (fExec : Bool) (opcode : UInt8) (vchPushValue : Bytes) :
    Keeps pc (evalInstruction H checker flags fExec opcode vchPushValue) := by
  refine Keeps.require.bind fun _ => ?_
  refine Keeps.bind (Keeps.ite (countOps_keeps (fun _ _ => rfl) 1) (Keeps.pure _)) fun _ => ?_
  refine Keeps.require.bind fun _ => ?_
  refine Keeps.bind (Keeps.ite (onStack_keeps offStacks_pc.stack _) ?_) fun _ => ?_
  · exact .ite (evalOp_keeps_pc H checker flags fExec _) (.pure _)
  · exact fun _ => Keeps.require _

/-- A round moves the program counter to the next instruction. -/
theorem evalStep_pc {opcode : UInt8} {rest : Bytes} (h : getOp m.pc = some (opcode, v, rest)) :
    (evalStep H checker flags m).2.pc = rest := by
  rw [evalStep, h]
  exact evalInstruction_keeps_pc H checker flags m.fExec opcode v _

theorem evalStep_getOp {m' : Machine} (h : evalStep H checker flags m = (.ok (), m')) :
    ∃ opcode v, getOp m.pc = some (opcode, v, m'.pc) := by
  rcases hop : getOp m.pc with _ | ⟨opcode, v, rest⟩
  · rw [evalStep, hop] at h
    cases h
  · have hpc := evalStep_pc H checker flags hop
    rw [h] at hpc
    exact ⟨opcode, v, hpc ▸ rfl⟩

/-! ## Whole scripts -/

/-- The machines that a script passes through, one round after the other. -/
inductive Executed (m0 : Machine) : Machine → Prop
  | start : Executed m0 m0
  | round {m m' : Machine} : Executed m0 m → m.pc ≠ [] → evalStep H checker flags m = (.ok (), m') →
      Executed m0 m'

/-- The limits hold after every instruction of a script. -/
theorem executed_withinLimits {m0 : Machine} (h0 : WithinLimits m0)
    (h : Executed H checker flags m0 m) : WithinLimits m := by
  induction h with
  | start => exact h0
  | round _ _ hround ih =>
    have hsafe := evalStep_safe H checker flags _ ⟨⟨zero_le _, ih.stackFits⟩, ih.altstackFits⟩
    rw [hround] at hsafe
    exact hsafe

/-- The loop runs through such machines only, and it has enough rounds. -/
theorem evalLoop_safe {m0 : Machine} (fuel : Nat) : Ensures (evalLoop H checker flags fuel)
      (fun m => Executed H checker flags m0 m ∧ MachineAt 0 m ∧ m.pc.length ≤ fuel)
      (fun _ m => Executed H checker flags m0 m ∧ MachineAt 0 m ∧ m.pc = [])
      fun e _ => e.Benign := by
  induction fuel with
  | zero =>
    rintro m ⟨hex, hm, hlen⟩
    have hpc : m.pc = [] := length_eq_zero_iff.mp (by omega)
    rw [evalLoop_done H checker flags 0 hpc]
    exact ⟨hex, hm, hpc⟩
  | succ fuel ih =>
    rintro m ⟨hex, hm, hlen⟩
    by_cases hpc : m.pc = []
    · rw [evalLoop_done H checker flags _ hpc]
      exact ⟨hex, hm, hpc⟩
    rw [evalLoop_round H checker flags fuel hpc]
    have hsafe := evalStep_safe H checker flags m hm
    rcases hrun : evalStep H checker flags m with ⟨e | ⟨⟩, m'⟩
    · rw [bind_of_error hrun]
      rw [hrun] at hsafe
      exact hsafe
    · rw [bind_of_ok hrun]
      rw [hrun] at hsafe
      obtain ⟨_, _, hop⟩ := evalStep_getOp H checker flags hrun
      have hlt := getOp_length_lt hop
      refine ih m' ⟨hex.round hpc hrun, ?_, by omega⟩
      exact ⟨⟨zero_le _, hsafe.stackFits⟩, hsafe.altstackFits⟩

theorem checkBalanced_safe : Safe MachineAt checkBalanced 0 Any 0 := by
  intro m hm
  have h : Safe MachineAt (demand m.vfExec.isEmpty .unbalancedConditional) 0
      (fun _ => m.vfExec.isEmpty = true) 0 := .demand
  exact (h m hm).mono (fun _ _ h => ⟨trivial, h.2⟩) fun _ _ he => he

theorem evalBody_safe (script : CScript) (calls : Nat) (hfits : StackFits stack) :
    Result (fun _ m => StackFits m.stack) (fun e _ => e.Benign)
      (evalBody H checker flags script (start script stack calls)) := by
  have hloop := @evalLoop_safe H checker flags (start script stack calls) script.length
  have hend : Ensures checkBalanced
      (fun m => Executed H checker flags (start script stack calls) m ∧ MachineAt 0 m ∧
        m.pc = []) (fun _ m => StackFits m.stack) fun e _ => e.Benign :=
    checkBalanced_safe.mono (fun _ hm => hm.2.1) (fun _ _ hm => hm.2.1.2) fun _ _ he => he
  refine hloop.bind (fun _ => hend) _ ⟨.start, ⟨⟨zero_le _, hfits⟩, ?_⟩, le_rfl⟩
  exact fun _ h => absurd h not_mem_nil

/-- `EvalScript` returns `true` or `false`; nothing escapes it. -/
theorem evalScript_safe (script : CScript) (hfits : StackFits stack) :
    Ensures (evalScript H checker flags stack script) (fun _ => True)
      (fun stack' _ => StackFits stack') fun e _ => ∃ err, e = .error err := by
  intro calls _
  rw [evalScript]
  split_ifs
  · exact ⟨_, rfl⟩
  have hbody := evalBody_safe H checker flags script calls hfits
  rcases hrun : evalBody H checker flags script (start script stack calls) with
    ⟨e | _, m⟩
  · rw [hrun] at hbody
    cases e with
    | error err => exact ⟨err, rfl⟩
    | scriptnumError what => exact ⟨.unknownError, rfl⟩
    | _ => exact hbody.elim
  · rw [hrun] at hbody
    exact hbody

/-! ## Pay to script hash -/

theorem isPayToScriptHash_cons {script : CScript} (h : isPayToScriptHash script = true) :
    ∃ rest, script = 0xa9 :: rest := by
  rcases script with _ | ⟨op, rest⟩
  · cases h
  · simp only [isPayToScriptHash, and_eq_true, getElem?_cons_zero, beq_iff_eq,
      Option.some.injEq] at h
    exact ⟨rest, by rw [h.1.1.2]⟩

/-- `OP_HASH160` does not run on an empty stack. -/
theorem evalScript_hash160_nil (rest : CScript) (calls : Nat) :
    ∃ e, (evalScript H checker flags [] (0xa9 :: rest) calls).1 = .error e := by
  rw [evalScript]
  split_ifs
  · exact ⟨_, rfl⟩
  · exact ⟨_, rfl⟩

theorem checkVerdict_safe (stack : List Bytes) :
    Ensures (checkVerdict stack) (fun _ => True) (fun _ _ => True)
      fun e _ => ∃ err, e = .error err := by
  rcases stack with _ | ⟨back, rest⟩
  · exact .stop fun _ _ => ⟨_, rfl⟩
  · exact .require (fun _ _ _ => trivial) fun _ _ _ => ⟨_, rfl⟩

theorem verifyP2SH_safe (scriptSig : CScript) {stackCopy : List Bytes} (hne : stackCopy ≠ [])
    (hfits : StackFits stackCopy) :
    Ensures (verifyP2SH H checker flags scriptSig stackCopy) (fun _ => True) (fun _ _ => True)
      fun e _ => ∃ err, e = .error err := by
  refine .bind (Q := fun _ _ => True) ?_ fun _ => ?_
  · exact .require (fun _ _ _ => trivial) fun _ _ _ => ⟨_, rfl⟩
  · rcases stackCopy with _ | ⟨pubKeySerialized, rest⟩
    · exact absurd rfl hne
    · have hrest : StackFits rest := fun v hv => hfits v (mem_cons_of_mem _ hv)
      refine .bind (evalScript_safe H checker flags pubKeySerialized hrest) fun stack => ?_
      exact (checkVerdict_safe stack).mono (fun _ _ => trivial) (fun _ _ h => h) fun _ _ h => h

/-- A run that gets past the public key script of a script hash had something to hash. -/
theorem evalScript_scriptPubKey_safe (scriptPubKey : CScript) (stackCopy : List Bytes) :
    Ensures (evalScript H checker flags stackCopy scriptPubKey) (fun _ => StackFits stackCopy)
      (fun _ _ => StackFits stackCopy ∧ (isPayToScriptHash scriptPubKey = true → stackCopy ≠ []))
      fun e _ => ∃ err, e = .error err := by
  intro calls hfits
  have hsafe := evalScript_safe H checker flags scriptPubKey hfits calls trivial
  rcases hrun : evalScript H checker flags stackCopy scriptPubKey calls with ⟨e | stack, n⟩
  · rw [hrun] at hsafe
    exact hsafe
  · refine ⟨hfits, fun hp2sh hnil => ?_⟩
    obtain ⟨rest, rfl⟩ := isPayToScriptHash_cons hp2sh
    obtain ⟨e, he⟩ := evalScript_hash160_nil H checker flags rest calls
    rw [← hnil, hrun] at he
    cases he

/-- `VerifyScript` returns `true` or `false` on all scripts. -/
theorem verifyScript_safe (scriptSig scriptPubKey : CScript) :
    Ensures (verifyScript H checker flags scriptSig scriptPubKey) (fun _ => True)
      (fun _ _ => True) fun e _ => ∃ err, e = .error err := by
  refine .bind (Q := fun _ _ => True) ?_ fun _ => ?_
  · exact .require (fun _ _ _ => trivial) fun _ _ _ => ⟨_, rfl⟩
  have hnil : StackFits [] := fun _ h => absurd h not_mem_nil
  refine .bind (evalScript_safe H checker flags scriptSig hnil) fun stackCopy => ?_
  have hpub := evalScript_scriptPubKey_safe H checker flags scriptPubKey stackCopy
  refine hpub.bind fun stack _ ⟨hfits, hne⟩ => ?_
  -- what is known of the stack copy no longer depends on the state
  have hend : Ensures (if hasFlag flags scriptVerifyP2SH && isPayToScriptHash scriptPubKey then
      verifyP2SH H checker flags scriptSig stackCopy else pure ()) (fun _ => True)
      (fun _ _ => True) fun e _ => ∃ err, e = .error err := by
    refine .ite (fun hcond => ?_) fun _ => .pure fun _ _ => trivial
    exact verifyP2SH_safe H checker flags scriptSig (hne (and_eq_true _ _ ▸ hcond).2) hfits
  exact (checkVerdict_safe stack).bind (fun _ => hend) _ trivial

/-- **`scripts_never_break_the_machine`** — on a stack of elements of at most 520 bytes every
script ends, within the rounds its length allows, and stops only with an error of its own or on a
number that does not decode: no index is out of range, no pop meets an empty stack, no assertion
fails and no `int64_t` overflows. From at most 1000 elements the limits hold after every
instruction. `VerifyScript` never fails its assertion. -/
theorem scripts_never_break_the_machine : (∀ script stack calls, (∀ v ∈ stack, v.length ≤ 520) →
      (∀ e m, evalBody H checker flags script (Machine.start script stack calls) = (.error e, m) →
        (∃ err, e = .error err) ∨ ∃ what, e = .scriptnumError what) ∧
      (stack.length ≤ 1000 → ∀ m, Executed H checker flags (Machine.start script stack calls) m →
          m.stack.length + m.altstack.length ≤ 1000 ∧
          ∀ v ∈ m.stack ++ m.altstack, v.length ≤ 520)) ∧
    ∀ scriptSig scriptPubKey calls,
      (verifyScript H checker flags scriptSig scriptPubKey calls).1 ≠ .error .assertFailed := by
  refine ⟨fun script stack calls hfits => ⟨fun e m hrun => ?_, fun hlen m hex => ?_⟩,
    fun scriptSig scriptPubKey calls hassert => ?_⟩
  · have hbody := evalBody_safe H checker flags script calls hfits
    rw [hrun] at hbody
    cases e with
    | error err => exact .inl ⟨err, rfl⟩
    | scriptnumError what => exact .inr ⟨what, rfl⟩
    | _ => exact hbody.elim
  · have hstart : WithinLimits (start script stack calls) :=
      ⟨hlen, hfits, fun _ h => absurd h not_mem_nil⟩
    have hm := executed_withinLimits H checker flags hstart hex
    refine ⟨hm.size, fun v hv => ?_⟩
    rcases mem_append.mp hv with hv | hv
    · exact hm.stackFits v hv
    · exact hm.altstackFits v hv
  · have hsafe := verifyScript_safe H checker flags scriptSig scriptPubKey calls trivial
    rcases hrun : verifyScript H checker flags scriptSig scriptPubKey calls with ⟨e | _, n⟩
    · rw [hrun] at hsafe hassert
      obtain ⟨err, rfl⟩ := hsafe
      cases hassert
    · rw [hrun] at hassert
      cases hassert

/-- Hashes of the right sizes, for runs on concrete scripts. -/
def zeroHashes : ScriptHashes where
  hash op _ := List.replicate op.size 0
  length_hash _ _ := List.length_replicate

def rejectAll : SignatureChecker where
  checkSig _ _ _ := false
  checkLockTime _ := false

/-- `OP_DROP` on an empty stack ends with an error, `OP_DUP` on one element leaves two. -/
theorem scripts_never_break_the_machine_drop_dup :
    (∃ e m, evalBody zeroHashes rejectAll 0 [0x75] (Machine.start [0x75] [] 0) = (.error e, m) ∧
      ((∃ err, e = .error err) ∨ ∃ what, e = .scriptnumError what)) ∧
    ∃ m, Executed zeroHashes rejectAll 0 (Machine.start [0x76] [[7]] 0) m ∧
      m.stack = [[7], [7]] ∧ m.stack.length + m.altstack.length ≤ 1000 ∧
      ∀ v ∈ m.stack ++ m.altstack, v.length ≤ 520 := by
  have hsafe := (scripts_never_break_the_machine zeroHashes rejectAll 0).1
  have hdup : Executed zeroHashes rejectAll 0 (start [0x76] [[7]] 0)
      { start [] [[7], [7]] 0 with pbegincodehash := [0x76], nOpCount := 1 } :=
    .round .start (by decide) rfl
  refine ⟨⟨_, _, rfl, (hsafe [0x75] [] 0 (by decide)).1 _ _ rfl⟩, _, hdup, rfl, ?_⟩
  exact (hsafe [0x76] [[7]] 0 (by decide)).2 (by decide) _ hdup

end MonetaryUnit
