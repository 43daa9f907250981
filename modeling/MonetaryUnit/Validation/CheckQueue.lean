/-
# MonetaryUnit.Validation.CheckQueue — the script check queue and its threads

`CCheckQueue` spreads the script checks of a block over worker threads. The master adds batches of
checks and then joins the workers in `Wait`. Every thread runs `Loop`: in a critical section it
settles its last batch and takes the next one, waits on a condition variable, or (the master, when
nothing is left) returns; outside of it, it executes its batch.

A step is one critical section of one thread, the execution of one check, a wake-up (by a
notification or for no reason), or a move of the master between its calls. `checkQueue_correct` is
about every state that any interleaving reaches.

Checks are elements of any type with a verdict. What was added and executed in the current round is
recorded beside the state and read by nothing. The 32-bit counters are natural numbers here;
`fQuit` is never set and is left out.
-/

import Mathlib.Data.Fintype.Option
import Mathlib.Tactic.Abel
import MonetaryUnit.Lib.LocalStates

namespace MonetaryUnit

open Lib Function List Option Multiset

/-! ## Threads -/

/-- Where a thread is in `Loop`. -/
inductive LoopPhase (C : Type) where
  /-- Not in the loop: a worker that has not started, the master outside `Wait`. -/
  | out
  /-- In the critical section. -/
  | inside
  /-- Executing a batch of `nNow` checks, of which `vChecks` are left. -/
  | running (vChecks : List C) (nNow : Nat) (fOk : Bool)
  /-- Blocked in `cond.wait`. -/
  | waiting
  /-- Notified, or awake for no reason, and not yet in the critical section again. -/
  | woken

namespace LoopPhase

variable {C : Type}

/-- What a thread that executes a batch holds: the checks left, the size of the batch, and
whether all is well so far. -/
def batch : LoopPhase C → Option (List C × Nat × Bool)
  | running vChecks nNow fOk => some (vChecks, nNow, fOk)
  | _ => none

def nNow (p : LoopPhase C) : Nat := p.batch.elim 0 fun b => b.2.1

/-- The checks that the thread has taken and not yet executed. -/
def checks (p : LoopPhase C) : Multiset C := p.batch.elim 0 fun b => b.1

/-- 1 for a thread that `nIdle` counts. -/
def idle : LoopPhase C → Nat
  | waiting => 1
  | woken => 1
  | _ => 0

/-- 1 for a thread that `nTotal` counts. -/
def joined : LoopPhase C → Nat
  | out => 0
  | _ => 1

/-- What a notification does. -/
def wake : LoopPhase C → LoopPhase C
  | waiting => woken
  | p => p

/-- The thread's own flag is not down. -/
def Fine (p : LoopPhase C) : Prop := ∀ vChecks nNow, p.batch ≠ some (vChecks, nNow, false)

@[simp]
theorem fine_running (vChecks : List C) (nNow : Nat) (fOk : Bool) :
    (running vChecks nNow fOk).Fine ↔ fOk = true := by
  cases fOk <;> simp [Fine, batch]

@[simp]
theorem fine_inside : (inside : LoopPhase C).Fine := fun _ _ => (some_ne_none _).symm

theorem batch_wake (p : LoopPhase C) : p.wake.batch = p.batch := by
  cases p <;> rfl

theorem idle_wake (p : LoopPhase C) : p.wake.idle = p.idle := by
  cases p <;> rfl

theorem joined_wake (p : LoopPhase C) : p.wake.joined = p.joined := by
  cases p <;> rfl

theorem wake_ne_waiting (p : LoopPhase C) : p.wake ≠ waiting := by
  cases p <;> simp [wake]

theorem wake_eq_inside_iff {p : LoopPhase C} : p.wake = inside ↔ p = inside := by
  cases p <;> simp [wake]

theorem wake_eq_out_iff {p : LoopPhase C} : p.wake = out ↔ p = out := by
  cases p <;> simp [wake]

end LoopPhase

/-- Where the master is. -/
inductive MasterCall (C : Type) where
  /-- Between two rounds, with what `Wait` returned last. -/
  | done (fRet : Option Bool)
  /-- In a round, with the batches it has still to add. -/
  | adding (batches : List (List C))
  /-- In `Wait`. -/
  | waiting
  /-- The assertion of `CCheckQueueControl` has failed. -/
  | assertFailed

/-- The queue with its threads: `none` is the master, `some w` a worker. -/
structure CheckQueue (W C : Type) where
  /-- The stack of checks; the head of the list is the back of the vector. -/
  queue : List C
  nIdle : Nat
  nTotal : Nat
  fAllOk : Bool
  nTodo : Nat
  phase : Option W → LoopPhase C
  master : MasterCall C
  /-- The checks added in this round. -/
  added : Multiset C
  /-- The checks executed in this round. -/
  ran : Multiset C

namespace CheckQueue

variable {W C : Type}

section Model

variable [DecidableEq W]

/-! ## The functions of the source -/

/-- A new queue, before any thread runs. -/
def initial : CheckQueue W C where
  queue := []
  nIdle := 0
  nTotal := 0
  fAllOk := true
  nTodo := 0
  phase := fun _ => .out
  master := .done none
  added := 0
  ran := 0

def isIdle (s : CheckQueue W C) : Bool :=
  decide (s.nTotal = s.nIdle) && decide (s.nTodo = 0) && s.fAllOk

/-- How many checks a thread takes. -/
def batchSize (nBatchSize : Nat) (s : CheckQueue W C) : Nat :=
  max 1 (min nBatchSize (s.queue.length / (s.nTotal + s.nIdle + 1)))

/-- The first iteration: the thread is counted. -/
def enter (t : Option W) (s : CheckQueue W C) : CheckQueue W C :=
  { s with nTotal := s.nTotal + 1, phase := Function.update s.phase t .inside }

/-- `condMaster.notify_one()`. -/
def notifyMaster (s : CheckQueue W C) : CheckQueue W C :=
  { s with phase := Function.update s.phase none (s.phase none).wake }

/-- The result of the batch and its size. -/
def settle (t : Option W) (nNow : Nat) (fOk : Bool) (s : CheckQueue W C) : CheckQueue W C :=
  { s with
    fAllOk := s.fAllOk && fOk
    nTodo := s.nTodo - nNow
    phase := Function.update s.phase t .inside }

/-- The clean-up of the previous loop run. -/
def cleanUp (t : Option W) (nNow : Nat) (fOk : Bool) (s : CheckQueue W C) : CheckQueue W C :=
  if (s.settle t nNow fOk).nTodo = 0 ∧ t ≠ none then (s.settle t nNow fOk).notifyMaster
  else s.settle t nNow fOk

/-- The return from `cond.wait`. -/
def resume (t : Option W) (s : CheckQueue W C) : CheckQueue W C :=
  { s with nIdle := s.nIdle - 1, phase := Function.update s.phase t .inside }

/-- A thread takes the last `n` checks of the queue. -/
def take (t : Option W) (n : Nat) (s : CheckQueue W C) : CheckQueue W C := { s with
    queue := s.queue.drop n
    phase := Function.update s.phase t (.running (s.queue.take n) n s.fAllOk) }

/-- The rest of the critical section: return, wait, or take a batch. -/
def loopHead (nBatchSize : Nat) (t : Option W) (s : CheckQueue W C) : CheckQueue W C :=
  if s.queue.isEmpty then
    if t = none ∧ s.nTodo = 0 then
      { s with
        nTotal := s.nTotal - 1
        fAllOk := true
        phase := Function.update s.phase t .out
        master := .done (some s.fAllOk) }
    else
      { s with nIdle := s.nIdle + 1, phase := Function.update s.phase t .waiting }
  else s.take t (s.batchSize nBatchSize)

/-- The work outside of the critical section: a thread executes the next check of its batch,
unless one has failed before. -/
def execute (eval : C → Bool) (t : Option W) (c : C) (vChecks : List C) (nNow : Nat) (fOk : Bool)
    (s : CheckQueue W C) : CheckQueue W C :=
  { s with
    phase := Function.update s.phase t (.running vChecks nNow (fOk && eval c))
    ran := if fOk then c ::ₘ s.ran else s.ran }

/-- `Add`, without its notification. -/
def add (vChecks : List C) (s : CheckQueue W C) : CheckQueue W C := { s with
    queue := vChecks.reverse ++ s.queue
    nTodo := s.nTodo + vChecks.length
    added := s.added + vChecks }

/-- The outcome of the notification in `Add`, for a batch of a given size. -/
inductive Notified : Nat → (Option W → LoopPhase C) → (Option W → LoopPhase C) → Prop
  | empty (phase : Option W → LoopPhase C) : Notified 0 phase phase
  | one {phase : Option W → LoopPhase C} {w : W} (h : phase (some w) = .waiting) :
      Notified 1 phase (Function.update phase (some w) .woken)
  | nobody {phase : Option W → LoopPhase C} (h : ∀ w, phase (some w) ≠ .waiting) :
      Notified 1 phase phase
  | all (n : Nat) (phase : Option W → LoopPhase C) :
      Notified (n + 2) phase fun t => if t = none then phase t else (phase t).wake

/-- One step of one thread. -/
inductive Step (eval : C → Bool) (nBatchSize : Nat) : CheckQueue W C → CheckQueue W C → Prop
  | start {s : CheckQueue W C} {w : W} (h : s.phase (some w) = .out) :
      Step eval nBatchSize s ((s.enter (some w)).loopHead nBatchSize (some w))
  | finish {s : CheckQueue W C} {t : Option W} {nNow : Nat} {fOk : Bool}
      (h : s.phase t = .running [] nNow fOk) :
      Step eval nBatchSize s ((s.cleanUp t nNow fOk).loopHead nBatchSize t)
  | awake {s : CheckQueue W C} {t : Option W} (h : s.phase t = .woken) :
      Step eval nBatchSize s ((s.resume t).loopHead nBatchSize t)
  | spurious {s : CheckQueue W C} {t : Option W} (h : s.phase t = .waiting) :
      Step eval nBatchSize s { s with phase := Function.update s.phase t .woken }
  | check {s : CheckQueue W C} {t : Option W} {c : C} {vChecks : List C} {nNow : Nat} {fOk : Bool}
      (h : s.phase t = .running (c :: vChecks) nNow fOk) :
      Step eval nBatchSize s (s.execute eval t c vChecks nNow fOk)
  | round {s : CheckQueue W C} {fRet : Option Bool} (h : s.master = .done fRet)
      (batches : List (List C)) :
      Step eval nBatchSize s
        (if s.isIdle then { s with master := .adding batches, added := 0, ran := 0 }
        else { s with master := .assertFailed })
  | add {s : CheckQueue W C} {vChecks : List C} {batches : List (List C)}
      {phase : Option W → LoopPhase C} (h : s.master = .adding (vChecks :: batches))
      (hnotified : Notified vChecks.length s.phase phase) :
      Step eval nBatchSize s { s.add vChecks with master := .adding batches, phase := phase }
  | wait {s : CheckQueue W C} (h : s.master = .adding []) :
      Step eval nBatchSize s
        (({ s with master := .waiting } : CheckQueue W C).enter none |>.loopHead nBatchSize none)

end Model

/-! ## The invariant -/

/-- The counters count. -/
structure Counts [Fintype W] (s : CheckQueue W C) : Prop where
  todo : s.nTodo = s.queue.length + localTotal LoopPhase.nNow s.phase
  idle : s.nIdle = localTotal LoopPhase.idle s.phase
  total : s.nTotal = localTotal LoopPhase.joined s.phase
  batch : ∀ t vChecks fOk, (s.phase t).batch ≠ some (vChecks, 0, fOk)

/-- The checks of the round that are still to be executed. -/
def pending [Fintype W] (s : CheckQueue W C) : Multiset C :=
  (s.queue : Multiset C) + localTotal LoopPhase.checks s.phase

/-- No flag is down. -/
def Fine (s : CheckQueue W C) : Prop := s.fAllOk = true ∧ ∀ t, (s.phase t).Fine

/-- Every check of the round is in one place at most. -/
def Kept [Fintype W] (s : CheckQueue W C) : Prop := s.ran + s.pending ≤ s.added

/-- What the flags say about the checks of the round, until `Wait` returns. -/
structure Verdict [Fintype W] (eval : C → Bool) (s : CheckQueue W C) : Prop where
  good : (∀ fRet, s.master ≠ .done fRet) → s.Fine → ∀ c ∈ s.added, eval c = true ∨ c ∈ s.pending
  bad : ¬s.Fine → ∃ c ∈ s.added, eval c = false

/-- Where the master is, and what it has learnt. -/
structure Called (eval : C → Bool) (s : CheckQueue W C) : Prop where
  home : s.phase none = .out ↔ s.master ≠ .waiting
  quiet : ∀ fRet, s.master = .done fRet → s.nTodo = 0 ∧ s.fAllOk = true
  result : ∀ fRet, s.master = .done (some fRet) → (fRet = true ↔ ∀ c ∈ s.added, eval c = true)
  asleep : s.phase none = .waiting → s.nTodo ≠ 0 ∧ s.queue = []
  noFail : s.master ≠ .assertFailed

/-- The parts together. They hold inside a critical section as well. -/
structure Inv [Fintype W] (eval : C → Bool) (s : CheckQueue W C) : Prop where
  counts : s.Counts
  kept : s.Kept
  verdict : s.Verdict eval
  called : s.Called eval

variable {eval : C → Bool} {nBatchSize : Nat} {s s' : CheckQueue W C} {t : Option W}
  {p : LoopPhase C} {vChecks : List C} {batches : List (List C)} {n nNow : Nat} {fOk : Bool}
  {fRet : Option Bool} {phase phase' : Option W → LoopPhase C}

/-- A step in which the master calls nothing and returns nothing. -/
theorem Called.step (h : s.Called eval) (hmaster : s'.master = s.master)
    (hadded : s'.added = s.added) (hhome : s'.phase none = .out ↔ s.phase none = .out)
    (hquiet : ∀ fRet, s.master = .done fRet → s'.nTodo = s.nTodo ∧ s'.fAllOk = s.fAllOk)
    (hasleep : s'.phase none = .waiting → s'.nTodo ≠ 0 ∧ s'.queue = []) : s'.Called eval where
  home := by
    rw [hhome, hmaster]
    exact h.home
  quiet := fun fRet hdone => by
    rw [hmaster] at hdone
    obtain ⟨htodo, hall⟩ := hquiet fRet hdone
    rw [htodo, hall]
    exact h.quiet fRet hdone
  result := by
    rw [hmaster, hadded]
    exact h.result
  asleep := hasleep
  noFail := hmaster ▸ h.noFail

/-- The master is outside its loop and has batches to add. -/
theorem called_adding (hmaster : s.master = .adding batches) (hout : s.phase none = .out) :
    s.Called eval := by
  constructor <;> simp [hmaster, hout]

/-- The master is in its loop only in `Wait`. -/
theorem Called.waiting (h : s.Called eval) (hloop : s.phase none ≠ .out) : s.master = .waiting := by
  by_contra hne
  exact hloop (h.home.mpr hne)

theorem batchSize_le (hq : s.queue ≠ []) : s.batchSize nBatchSize ≤ s.queue.length := by
  have hlen := length_pos_iff.mpr hq
  have hdiv := Nat.div_le_self s.queue.length (s.nTotal + s.nIdle + 1)
  rw [batchSize]
  omega

section Work

variable [Fintype W]

theorem inv_initial : (initial : CheckQueue W C).Inv eval := by
  have hnow : localTotal LoopPhase.nNow (initial : CheckQueue W C).phase = 0 :=
    localTotal_eq_zero fun _ => rfl
  have hchecks : localTotal LoopPhase.checks (initial : CheckQueue W C).phase = 0 :=
    localTotal_eq_zero fun _ => rfl
  exact
    { counts :=
        { todo := by
            rw [hnow]
            rfl
          idle := (localTotal_eq_zero fun _ => rfl).symm
          total := (localTotal_eq_zero fun _ => rfl).symm
          batch := fun _ _ _ h => some_ne_none _ h.symm }
      kept := by
        rw [Kept, pending, hchecks]
        exact le_rfl
      verdict :=
        { good := fun _ _ c hc => absurd hc (notMem_zero c)
          bad := fun h => absurd ⟨rfl, fun _ _ _ => (some_ne_none _).symm⟩ h }
      called :=
        { home := iff_of_true rfl (by simp [initial])
          quiet := fun _ _ => ⟨rfl, rfl⟩
          result := fun fRet h => by simp [initial] at h
          asleep := fun h => by simp [initial] at h
          noFail := by simp [initial] } }

/-! ## What the parts depend on -/

/-- A step that leaves the same checks to be executed and the same flags. -/
theorem Inv.of_work (h : s.Inv eval) (hcounts : s'.Counts) (hcalled : s'.Called eval)
    (hpending : s'.pending = s.pending) (hfine : s'.Fine ↔ s.Fine) (hadded : s'.added = s.added)
    (hran : s'.ran = s.ran)
    (hround : (∀ fRet, s'.master ≠ .done fRet) → ∀ fRet, s.master ≠ .done fRet) : s'.Inv eval where
  counts := hcounts
  kept := by
    rw [Kept, hran, hpending, hadded]
    exact h.kept
  verdict :=
    { good := by
        rw [hpending, hfine, hadded]
        exact fun hdone => h.verdict.good (hround hdone)
      bad := by
        rw [hfine, hadded]
        exact h.verdict.bad }
  called := hcalled

/-- When nothing is left to do, no thread holds a batch. -/
theorem Counts.idle_of_done (h : s.Counts) (hzero : s.nTodo = 0) :
    s.queue = [] ∧ ∀ t, (s.phase t).batch = none := by
  have htodo := h.todo
  refine ⟨length_eq_zero_iff.mp (by omega), fun t => ?_⟩
  have hle : (s.phase t).nNow ≤ localTotal LoopPhase.nNow s.phase := le_localTotal _ s.phase t
  have hnow : (s.phase t).nNow = 0 := by omega
  rcases hb : (s.phase t).batch with _ | ⟨vChecks, nNow, fOk⟩
  · rfl
  · rw [LoopPhase.nNow, hb] at hnow
    have hzero' : nNow = 0 := hnow
    exact absurd (hzero' ▸ hb) (h.batch t vChecks fOk)

/-- Then no check is left, and the flag of the round is the only one. -/
theorem Counts.work_of_done (h : s.Counts) (hzero : s.nTodo = 0) :
    s.pending = 0 ∧ (s.Fine ↔ s.fAllOk = true) := by
  obtain ⟨hq, hbatch⟩ := h.idle_of_done hzero
  refine ⟨?_, by simp [Fine, LoopPhase.Fine, hbatch]⟩
  rw [pending, hq, localTotal_eq_zero fun t => by rw [LoopPhase.checks, hbatch t]; rfl]
  rfl

/-- When nothing is left to do in a round, the flag speaks for all its checks. -/
theorem Inv.fAllOk_iff (h : s.Inv eval) (hdone : ∀ fRet, s.master ≠ .done fRet)
    (hzero : s.nTodo = 0) : s.fAllOk = true ↔ ∀ c ∈ s.added, eval c = true := by
  obtain ⟨hgood, hbad⟩ := h.verdict
  obtain ⟨hpending, hfine⟩ := h.counts.work_of_done hzero
  rw [hpending, hfine] at hgood
  rw [hfine] at hbad
  refine ⟨fun hall c hc => (hgood hdone hall c hc).resolve_right (notMem_zero c), ?_⟩
  intro heval
  by_contra hall
  obtain ⟨c, hc, hfalse⟩ := hbad hall
  exact ne_true_of_eq_false hfalse (heval c hc)

theorem nNow_le (hrun : s.phase t = .running vChecks nNow fOk) :
    nNow ≤ localTotal LoopPhase.nNow s.phase := by
  have hle := le_localTotal LoopPhase.nNow s.phase t
  rwa [hrun] at hle

/-- While a thread executes a batch, the round is not over. -/
theorem Inv.not_done (h : s.Inv eval) (hrun : s.phase t = .running vChecks nNow fOk)
    (fRet : Option Bool) : s.master ≠ .done fRet := by
  intro hdone
  have hle := nNow_le hrun
  have hzero := (h.called.quiet fRet hdone).1
  have htodo := h.counts.todo
  obtain rfl : nNow = 0 := by omega
  exact h.counts.batch t vChecks fOk (by rw [hrun]; rfl)

/-- No thread is in a critical section. -/
def Settled (s : CheckQueue W C) : Prop := ∀ t, s.phase t ≠ .inside

/-- Between two rounds every thread that has started is idle. -/
theorem Inv.isIdle (h : s.Inv eval) (hsettled : s.Settled) (hdone : s.master = .done fRet) :
    s.isIdle = true := by
  obtain ⟨hzero, hall⟩ := h.called.quiet fRet hdone
  have hbatch := (h.counts.idle_of_done hzero).2
  have heq : s.nTotal = s.nIdle := by
    rw [h.counts.total, h.counts.idle]
    refine localTotal_congr fun t => ?_
    have hb := hbatch t
    have hin := hsettled t
    rcases hp : s.phase t with _ | _ | _ | _ | _
    · rfl
    · exact absurd hp hin
    · rw [hp] at hb
      exact absurd hb (some_ne_none _)
    · rfl
    · rfl
  rw [CheckQueue.isIdle, heq, hzero, hall]
  simp

/-- A new round. -/
theorem Inv.round (h : s.Inv eval) (hdone : s.master = .done fRet) (batches : List (List C)) :
    ({ s with master := .adding batches, added := 0, ran := 0 } : CheckQueue W C).Inv eval := by
  obtain ⟨hzero, hall⟩ := h.called.quiet fRet hdone
  obtain ⟨hpending, hfine⟩ := h.counts.work_of_done hzero
  have hout : s.phase none = .out := h.called.home.mpr (by simp [hdone])
  exact
    { counts := { h.counts with }
      kept := le_of_eq ((zero_add _).trans hpending)
      verdict := ⟨fun _ _ c hc => absurd hc (notMem_zero c), fun hdown =>
        absurd (hfine.mpr hall) hdown⟩
      called := called_adding rfl hout }

end Work

/-! ## Moves of one thread -/

variable [DecidableEq W]

/-- Where the master is after a thread has moved on in its loop. -/
theorem master_update (hloop : t = none → s.phase none ≠ .out ∧ p ≠ .out ∧ p ≠ .waiting) :
    (update s.phase t p none = .out ↔ s.phase none = .out) ∧
      (update s.phase t p none = .waiting → t ≠ none ∧ s.phase none = .waiting) := by
  rcases eq_or_ne t none with rfl | hne
  · simp [hloop rfl]
  · simp [update_of_ne hne.symm, hne]

/-- The flags after a move of one thread. -/
theorem fine_of_phase (hphase : s'.phase = update s.phase t p) :
    s'.Fine ↔ s'.fAllOk = true ∧ p.Fine ∧ ∀ t', t' ≠ t → (s.phase t').Fine := by
  rw [Fine, hphase]
  exact and_congr_right' (forall_update_iff s.phase fun _ q => q.Fine)

theorem fine_split (s : CheckQueue W C) (t : Option W) :
    s.Fine ↔ s.fAllOk = true ∧ (s.phase t).Fine ∧ ∀ t', t' ≠ t → (s.phase t').Fine :=
  fine_of_phase (update_eq_self t s.phase).symm

/-- Thread `t` moves to `p`, and the counters follow it. -/
structure Moves (t : Option W) (p : LoopPhase C) (s s' : CheckQueue W C) : Prop where
  phase : s'.phase = Function.update s.phase t p
  todo : s'.nTodo + (s.queue.length + (s.phase t).nNow) = s.nTodo + (s'.queue.length + p.nNow)
  idle : s'.nIdle + (s.phase t).idle = s.nIdle + p.idle
  total : s'.nTotal + (s.phase t).joined = s.nTotal + p.joined
  batch : ∀ vChecks fOk, p.batch ≠ some (vChecks, 0, fOk)

/-- In the move no check is executed or dropped and no flag is lost. -/
structure Passes (t : Option W) (p : LoopPhase C) (s s' : CheckQueue W C) : Prop
    extends Moves t p s s' where
  checks : (s'.queue : Multiset C) + p.checks = s.queue + (s.phase t).checks
  flags : s'.fAllOk = true ∧ p.Fine ↔ s.fAllOk = true ∧ (s.phase t).Fine
  added : s'.added = s.added
  ran : s'.ran = s.ran

theorem Passes.fine (h : Passes t p s s') : s'.Fine ↔ s.Fine := by
  rw [fine_of_phase h.phase, fine_split s t, ← and_assoc, h.flags, and_assoc]

/-- The master goes on in its loop, or another thread moves. -/
theorem Moves.called (h : Moves t p s s') (hc : s.Called eval) (hmaster : s'.master = s.master)
    (hadded : s'.added = s.added) (hloop : t = none → s.phase none ≠ .out ∧ p ≠ .out ∧ p ≠ .waiting)
    (hquiet : ∀ fRet, s.master = .done fRet → s'.nTodo = s.nTodo ∧ s'.fAllOk = s.fAllOk)
    (hleft : t ≠ none → s.phase none = .waiting → s'.nTodo ≠ 0 ∧ s'.queue = []) :
    s'.Called eval := by
  obtain ⟨hhome, hasleep⟩ := master_update hloop
  rw [← h.phase] at hhome hasleep
  exact hc.step hmaster hadded hhome hquiet fun hw => hleft (hasleep hw).1 (hasleep hw).2

theorem Notified.phase_none (h : Notified n phase phase') : phase' none = phase none := by
  cases h with
  | empty => rfl
  | one h => exact update_of_ne (some_ne_none _).symm _ _
  | nobody => rfl
  | all n => rfl

/-- A notification wakes threads up and changes nothing else. -/
theorem Notified.phase_eq (h : Notified n phase phase') (t : Option W) :
    phase' t = phase t ∨ phase' t = (phase t).wake := by
  cases h with
  | empty => exact .inl rfl
  | @one _ w h =>
    by_cases ht : t = some w
    · rw [ht, update_self, h]
      exact .inr rfl
    · exact .inl (update_of_ne ht _ _)
  | nobody => exact .inl rfl
  | all n =>
    by_cases ht : t = none
    · exact .inl (if_pos ht)
    · exact .inr (if_neg ht)

theorem settled_update (h : ∀ t', t' ≠ t → s.phase t' ≠ .inside) (hp : p ≠ .inside)
    (t' : Option W) : update s.phase t p t' ≠ .inside := by
  by_cases ht : t' = t
  · rw [ht, update_self]
    exact hp
  · rw [update_of_ne ht]
    exact h t' ht

/-- The thread that ends its critical section leaves nobody in one. -/
theorem settled_loopHead (h : ∀ t', t' ≠ t → s.phase t' ≠ .inside) :
    (s.loopHead nBatchSize t).Settled := by
  rw [loopHead]
  split_ifs
  · exact settled_update h (by simp)
  · exact settled_update h (by simp)
  · exact settled_update h (by simp)

theorem cleanUp_self : (s.cleanUp t nNow fOk).phase t = .inside := by
  rw [cleanUp]
  split
  case isTrue hlast =>
    show update (update s.phase t .inside) none _ t = .inside
    rw [update_of_ne hlast.2, update_self]
  case isFalse => exact update_self _ _ _

theorem cleanUp_other {t' : Option W} (ht : t' ≠ t) :
    (s.cleanUp t nNow fOk).phase t' = s.phase t' ∨
      (s.cleanUp t nNow fOk).phase t' = (s.phase t').wake := by
  have hsettle : (s.settle t nNow fOk).phase t' = s.phase t' := update_of_ne ht _ _
  rw [cleanUp]
  split
  case isTrue =>
    by_cases hnone : t' = none
    · rw [hnone] at hsettle ⊢
      right
      rw [← hsettle]
      exact update_self none _ (s.settle t nNow fOk).phase
    · left
      exact (update_of_ne hnone _ _).trans hsettle
  case isFalse => exact .inl hsettle

variable [Fintype W]

theorem Moves.localTotal_add {M : Type} [AddCommMonoid M] (h : Moves t p s s')
    (g : LoopPhase C → M) :
    localTotal g s'.phase + g (s.phase t) = localTotal g s.phase + g p :=
  h.phase ▸ localTotal_update g s.phase t p

theorem Moves.counts (h : Moves t p s s') (hc : s.Counts) : s'.Counts where
  todo := by
    have hnow := h.localTotal_add LoopPhase.nNow
    have htodo := h.todo
    have hbefore := hc.todo
    omega
  idle := by
    have hidle := h.localTotal_add LoopPhase.idle
    rw [← hc.idle, ← h.idle] at hidle
    exact (Nat.add_right_cancel hidle).symm
  total := by
    have htotal := h.localTotal_add LoopPhase.joined
    rw [← hc.total, ← h.total] at htotal
    exact (Nat.add_right_cancel htotal).symm
  batch := by
    rw [h.phase]
    exact (forall_update_iff s.phase fun _ q => ∀ vChecks fOk,
      q.batch ≠ some (vChecks, 0, fOk)).mpr ⟨h.batch, fun t' _ => hc.batch t'⟩

theorem Passes.pending (h : Passes t p s s') : s'.pending = s.pending := by
  apply add_right_cancel (b := (s.phase t).checks)
  rw [CheckQueue.pending, add_assoc, h.localTotal_add, add_left_comm, h.checks]
  exact (add_left_comm _ _ _).trans (add_assoc _ _ _).symm

theorem Passes.inv (h : Passes t p s s') (hinv : s.Inv eval) (hcalled : s'.Called eval)
    (hround : (∀ fRet, s'.master ≠ .done fRet) → ∀ fRet, s.master ≠ .done fRet) : s'.Inv eval :=
  hinv.of_work (h.counts hinv.counts) hcalled h.pending h.fine h.added h.ran hround

/-! ## Moves that keep the batch -/

section Batch

variable {q : LoopPhase C} (hphase : s'.phase = update s.phase t p) (hq : s.phase t = q)
  (hbatch : p.batch = q.batch) (hidle : s'.nIdle + q.idle = s.nIdle + p.idle)
  (htotal : s'.nTotal + q.joined = s.nTotal + p.joined)
  (hwork : s'.queue = s.queue ∧ s'.nTodo = s.nTodo ∧ s'.fAllOk = s.fAllOk ∧
    s'.added = s.added ∧ s'.ran = s.ran)

include hphase hq hbatch hidle htotal hwork

/-- A move from `q` to `p` in which the thread takes, executes and settles nothing. -/
theorem passes_of_batch (hc : s.Counts) : Passes t p s s' := by
  subst hq
  obtain ⟨hqueue, htodo, hall, hadded, hran⟩ := hwork
  refine ⟨⟨hphase, ?_, hidle, htotal, ?_⟩, ?_, ?_, hadded, hran⟩
  · rw [htodo, hqueue, LoopPhase.nNow, LoopPhase.nNow, hbatch]
  · rw [hbatch]
    exact hc.batch t
  · rw [hqueue, LoopPhase.checks, LoopPhase.checks, hbatch]
  · rw [hall, LoopPhase.Fine, LoopPhase.Fine, hbatch]

/-- Such a move while the master stays in its call. -/
theorem Inv.move (h : s.Inv eval) (hmaster : s'.master = s.master)
    (hloop : t = none → q ≠ .out ∧ p ≠ .out ∧ p ≠ .waiting) : s'.Inv eval := by
  have hpasses := passes_of_batch hphase hq hbatch hidle htotal hwork h.counts
  obtain ⟨hqueue, htodo, hall, hadded, -⟩ := hwork
  refine hpasses.inv h (hpasses.called h.called hmaster hadded ?_ (fun _ _ => ⟨htodo, hall⟩)
    fun _ hw => ?_) (hmaster ▸ id)
  · rintro rfl
    exact hq ▸ hloop rfl
  · rw [htodo, hqueue]
    exact h.called.asleep hw

end Batch

section Keep

variable (h : s.Inv eval)
include h

/-- A worker starts. -/
theorem Inv.enter {w : W} (hout : s.phase (some w) = .out) : (s.enter (some w)).Inv eval :=
  h.move rfl hout rfl rfl rfl ⟨rfl, rfl, rfl, rfl, rfl⟩ rfl (by simp)

/-- The master calls `Wait`. -/
theorem Inv.wait (hadding : s.master = .adding []) :
    (({ s with master := .waiting } : CheckQueue W C).enter none).Inv eval := by
  have hout : s.phase none = .out := h.called.home.mpr (by simp [hadding])
  have hkeeps : Passes none .inside s
      (({ s with master := .waiting } : CheckQueue W C).enter none) :=
    passes_of_batch rfl hout rfl rfl rfl ⟨rfl, rfl, rfl, rfl, rfl⟩ h.counts
  refine hkeeps.inv h ?_ fun _ fRet => by simp [hadding]
  constructor <;> simp [CheckQueue.enter]

/-- A thread that is awake gets the mutex. -/
theorem Inv.resume (hwoken : s.phase t = .woken) : (s.resume t).Inv eval := by
  have hidle : (s.phase t).idle ≤ s.nIdle := h.counts.idle.symm ▸ le_localTotal _ s.phase t
  rw [hwoken] at hidle
  exact h.move rfl hwoken rfl (Nat.sub_add_cancel hidle) rfl ⟨rfl, rfl, rfl, rfl, rfl⟩ rfl (by simp)

/-- A thread wakes up for no reason. -/
theorem Inv.spurious (hwait : s.phase t = .waiting) :
    ({ s with phase := update s.phase t .woken } : CheckQueue W C).Inv eval :=
  h.move rfl hwait rfl rfl rfl ⟨rfl, rfl, rfl, rfl, rfl⟩ rfl (by simp)

/-- The master returns. -/
theorem Inv.returns (hin : s.phase none = .inside) (hzero : s.nTodo = 0) : ({ s with
      nTotal := s.nTotal - 1
      fAllOk := true
      phase := update s.phase none .out
      master := .done (some s.fAllOk) } : CheckQueue W C).Inv eval := by
  have hjoined : (s.phase none).joined ≤ s.nTotal :=
    h.counts.total.symm ▸ le_localTotal _ s.phase none
  rw [hin] at hjoined
  have hkeeps : Passes none .out s
      { s with nTotal := s.nTotal - 1, phase := update s.phase none .out } :=
    passes_of_batch rfl hin rfl rfl (Nat.sub_add_cancel hjoined) ⟨rfl, rfl, rfl, rfl, rfl⟩ h.counts
  have hcounts := hkeeps.counts h.counts
  have hbatch := (hcounts.idle_of_done hzero).2
  have hmaster := h.called.waiting (by simp [hin])
  exact
    { counts := { hcounts with }
      kept := (congrArg (s.ran + ·) hkeeps.pending).trans_le h.kept
      verdict := ⟨fun hd => absurd rfl (hd _), fun hdown =>
        absurd ⟨rfl, fun t _ _ => by simp [hbatch t]⟩ hdown⟩
      called :=
        { home := iff_of_true (by simp) (by simp)
          quiet := fun _ _ => ⟨hzero, rfl⟩
          result := fun fRet hd => by
            rw [← some.inj (MasterCall.done.inj hd)]
            exact h.fAllOk_iff (by simp [hmaster]) hzero
          asleep := fun hw => by simp at hw
          noFail := by simp } }

/-- A thread waits. -/
theorem Inv.waits (hin : s.phase t = .inside) (hq : s.queue = []) (hleft : t = none → s.nTodo ≠ 0) :
    ({ s with nIdle := s.nIdle + 1, phase := update s.phase t .waiting } :
      CheckQueue W C).Inv eval := by
  by_cases ht : t = none
  · subst ht
    have hmaster := h.called.waiting (by simp [hin])
    have hkeeps : Passes none .waiting s
        { s with nIdle := s.nIdle + 1, phase := update s.phase none .waiting } :=
      passes_of_batch rfl hin rfl rfl rfl ⟨rfl, rfl, rfl, rfl, rfl⟩ h.counts
    refine hkeeps.inv h ?_ id
    constructor <;> simp [hmaster, hleft, hq]
  · exact h.move rfl hin rfl rfl rfl ⟨rfl, rfl, rfl, rfl, rfl⟩ rfl fun he => absurd he ht

end Keep

/-! ## Settling and taking batches -/

section Settle

variable (h : s.Inv eval) (hrun : s.phase t = .running [] nNow fOk)

include h hrun

/-- The flag of the batch becomes part of the flag of the round. -/
theorem Inv.passes_settle : Passes t .inside s (s.settle t nNow fOk) := by
  have hle := nNow_le hrun
  refine ⟨⟨rfl, ?_, by rw [hrun]; rfl, by rw [hrun]; rfl, by simp [LoopPhase.batch]⟩,
    by rw [hrun]; rfl, ?_, rfl, rfl⟩
  · have htodo := h.counts.todo
    rw [hrun]
    show s.nTodo - nNow + (s.queue.length + nNow) = s.nTodo + (s.queue.length + 0)
    omega
  · rw [hrun]
    show (s.fAllOk && fOk) = true ∧ _ ↔ _
    simp

/-- The master is asleep only while something is left to do. -/
theorem Inv.called_settle (hleft : (s.settle t nNow fOk).nTodo ≠ 0 ∨ t = none) :
    (s.settle t nNow fOk).Called eval :=
  (h.passes_settle hrun).called h.called rfl rfl (fun ht => by simp [← ht, hrun])
    (fun fRet hd => absurd hd (h.not_done hrun fRet))
    fun ht hw => ⟨hleft.resolve_right ht, (h.called.asleep hw).2⟩

theorem Inv.called_notify (ht : t ≠ none) : (s.settle t nNow fOk).notifyMaster.Called eval := by
  have hphase : (s.settle t nNow fOk).notifyMaster.phase none = (s.phase none).wake := by
    show update (update s.phase t .inside) none (update s.phase t .inside none).wake none = _
    rw [update_self, update_of_ne (Ne.symm ht)]
  refine h.called.step rfl rfl ?_ (fun fRet hd => absurd hd (h.not_done hrun fRet)) fun hw => ?_
  · rw [hphase, LoopPhase.wake_eq_out_iff]
  · exact absurd (hphase.symm.trans hw) (LoopPhase.wake_ne_waiting _)

/-- A batch is settled; the last one wakes the master. -/
theorem Inv.cleanUp : (s.cleanUp t nNow fOk).Inv eval := by
  have hsettle := h.passes_settle hrun
  have hcounts := hsettle.counts h.counts
  rw [CheckQueue.cleanUp]
  split
  case isTrue hlast =>
    have hbatch := LoopPhase.batch_wake ((s.settle t nNow fOk).phase none)
    have hnotify : Passes none _ (s.settle t nNow fOk) (s.settle t nNow fOk).notifyMaster :=
      passes_of_batch rfl rfl hbatch (by rw [LoopPhase.idle_wake]; rfl)
        (by rw [LoopPhase.joined_wake]; rfl) ⟨rfl, rfl, rfl, rfl, rfl⟩ hcounts
    exact h.of_work (hnotify.counts hcounts) (h.called_notify hrun hlast.2)
      (hnotify.pending.trans hsettle.pending) (hnotify.fine.trans hsettle.fine) rfl rfl id
  case isFalse hlast =>
    have hleft : (s.settle t nNow fOk).nTodo ≠ 0 ∨ t = none := by
      by_cases ht : t = none
      · exact .inr ht
      · exact .inl fun hzero => hlast ⟨hzero, ht⟩
    exact hsettle.inv h (h.called_settle hrun hleft) id

end Settle

/-- The checks go from the queue to the thread. -/
theorem Inv.take (h : s.Inv eval) (hin : s.phase t = .inside) (hn : n ≠ 0)
    (hle : n ≤ s.queue.length) : (s.take t n).Inv eval := by
  have hpasses : Passes t (.running (s.queue.take n) n s.fAllOk) s (s.take t n) := by
    refine ⟨⟨rfl, ?_, by rw [hin]; rfl, by rw [hin]; rfl, by simp [LoopPhase.batch, hn]⟩, ?_, ?_,
      rfl, rfl⟩
    · rw [hin]
      show s.nTodo + (s.queue.length + 0) = s.nTodo + ((s.queue.drop n).length + n)
      rw [length_drop]
      omega
    · rw [hin]
      show (s.queue.drop n : Multiset C) + (s.queue.take n : Multiset C) = s.queue + 0
      rw [add_zero, add_comm, coe_add, take_append_drop]
    · rw [hin]
      show s.fAllOk = true ∧ _ ↔ _
      simp
  refine hpasses.inv h (hpasses.called h.called rfl rfl (fun ht => by simp [← ht, hin])
    (fun _ _ => ⟨rfl, rfl⟩) fun _ hw => ?_) id
  obtain ⟨htodo, hq⟩ := h.called.asleep hw
  exact ⟨htodo, by rw [CheckQueue.take, hq, drop_nil]⟩

theorem Inv.loopHead (h : s.Inv eval) (hin : s.phase t = .inside) :
    (s.loopHead nBatchSize t).Inv eval := by
  rw [CheckQueue.loopHead]
  split_ifs with hq hret
  · obtain ⟨rfl, hzero⟩ := hret
    exact h.returns hin hzero
  · rw [List.isEmpty_iff] at hq
    exact h.waits hin hq fun ht hzero => hret ⟨ht, hzero⟩
  · rw [List.isEmpty_iff] at hq
    have hpos : s.batchSize nBatchSize ≠ 0 := by
      rw [batchSize]
      omega
    exact h.take hin hpos (batchSize_le hq)

/-! ## Checks, rounds and batches -/

section Execute

variable {c : C} (h : s.Inv eval)
  (hrun : s.phase t = .running (c :: vChecks) nNow fOk)

include h hrun

theorem Inv.moves_execute : Moves t (.running vChecks nNow (fOk && eval c)) s
    (s.execute eval t c vChecks nNow fOk) := by
  refine ⟨rfl, by rw [hrun]; rfl, by rw [hrun]; rfl, by rw [hrun]; rfl, fun l ok hb => ?_⟩
  have hsize := h.counts.batch t (c :: vChecks) fOk
  simp_all [LoopPhase.batch]

/-- One check less is left. -/
theorem Inv.pending_execute : (s.execute eval t c vChecks nNow fOk).pending + {c} = s.pending := by
  have hupdate := (h.moves_execute hrun).localTotal_add LoopPhase.checks
  rw [hrun] at hupdate
  have hupdate' : localTotal LoopPhase.checks (s.execute eval t c vChecks nNow fOk).phase +
      ({c} + (vChecks : Multiset C)) =
      localTotal LoopPhase.checks s.phase + (vChecks : Multiset C) := hupdate
  rw [← add_assoc] at hupdate'
  rw [pending, add_assoc, add_right_cancel hupdate']
  rfl

omit [Fintype W] h in
theorem fine_execute : (s.execute eval t c vChecks nNow fOk).Fine ↔ s.Fine ∧ eval c = true := by
  rw [fine_split s t, hrun, fine_of_phase (s := s) (t := t) rfl, LoopPhase.fine_running,
    LoopPhase.fine_running, Bool.and_eq_true]
  show s.fAllOk = true ∧ _ ↔ _
  tauto

theorem Inv.kept_execute : (s.execute eval t c vChecks nNow fOk).Kept := by
  have hran : (s.execute eval t c vChecks nNow fOk).ran ≤ s.ran + {c} := by
    show (if fOk then c ::ₘ s.ran else s.ran) ≤ s.ran + {c}
    split
    · rw [← singleton_add, add_comm]
    · exact le_add_right _ _
  have hkept := h.kept
  rw [Kept, ← h.pending_execute hrun] at hkept
  refine le_trans ?_ hkept
  calc (s.execute eval t c vChecks nNow fOk).ran + (s.execute eval t c vChecks nNow fOk).pending
      ≤ s.ran + {c} + (s.execute eval t c vChecks nNow fOk).pending := by gcongr
    _ = s.ran + ((s.execute eval t c vChecks nNow fOk).pending + {c}) := by abel

theorem Inv.verdict_execute : (s.execute eval t c vChecks nNow fOk).Verdict eval := by
  have hsplit : (s.execute eval t c vChecks nNow fOk).pending + {c} = s.pending :=
    h.pending_execute hrun
  obtain ⟨hgood, hbad⟩ := h.verdict
  rw [← hsplit] at hgood
  refine ⟨fun hdone hfine x hx => ?_, fun hdown => ?_⟩
  · -- no flag is down, so the check was executed and passed
    rw [fine_execute hrun] at hfine
    rcases hgood hdone hfine.1 x hx with heval | hmem
    · exact .inl heval
    · rcases mem_add.mp hmem with hmem | hmem
      · exact .inr hmem
      · exact .inl (Multiset.mem_singleton.mp hmem ▸ hfine.2)
  · rw [fine_execute hrun] at hdown
    by_cases hfine : s.Fine
    · have hmem : c ∈ s.pending := by
        rw [← hsplit]
        simp
      have hle := (le_add_left _ _).trans h.kept
      exact ⟨c, mem_of_le hle hmem, Bool.eq_false_of_not_eq_true fun heval => hdown ⟨hfine, heval⟩⟩
    · exact hbad hfine

theorem Inv.execute : (s.execute eval t c vChecks nNow fOk).Inv eval := by
  have hmoves := h.moves_execute hrun
  exact ⟨hmoves.counts h.counts, h.kept_execute hrun, h.verdict_execute hrun,
    hmoves.called h.called rfl rfl (fun ht => by simp [← ht, hrun]) (fun _ _ => ⟨rfl, rfl⟩)
      fun _ => h.called.asleep⟩

end Execute

/-- A batch is added. -/
theorem Inv.add (h : s.Inv eval) (hadding : s.master = .adding (vChecks :: batches))
    (hnotified : Notified vChecks.length s.phase phase) :
    ({ s.add vChecks with master := .adding batches, phase := phase } : CheckQueue W C).Inv
      eval := by
  have hwake : ∀ {M : Type} {g : LoopPhase C → M}, (∀ p, g p.wake = g p) → ∀ t,
      g (phase t) = g (s.phase t) := fun hg t => by
    rcases hnotified.phase_eq t with he | he
    · rw [he]
    · rw [he, hg]
  have hbatch := hwake LoopPhase.batch_wake
  have hnow : localTotal LoopPhase.nNow phase = localTotal LoopPhase.nNow s.phase :=
    localTotal_congr fun t => by rw [LoopPhase.nNow, hbatch t]; rfl
  have hout : s.phase none = .out := h.called.home.mpr (by simp [hadding])
  have hpending : ({ s.add vChecks with master := .adding batches, phase := phase } :
      CheckQueue W C).pending = s.pending + (vChecks : Multiset C) := by
    have hchecks : localTotal LoopPhase.checks phase = localTotal LoopPhase.checks s.phase :=
      localTotal_congr fun t => by rw [LoopPhase.checks, hbatch t]; rfl
    show ((vChecks.reverse ++ s.queue : List C) : Multiset C) + localTotal _ phase = _
    rw [hchecks, pending, ← coe_add, coe_reverse]
    abel
  have hfine : ({ s.add vChecks with master := .adding batches, phase := phase } :
      CheckQueue W C).Fine ↔ s.Fine := by
    simp [Fine, LoopPhase.Fine, hbatch, CheckQueue.add]
  obtain ⟨hgood, hbad⟩ := h.verdict
  exact
    { counts :=
        { todo := by
            show s.nTodo + vChecks.length = (vChecks.reverse ++ s.queue).length +
              localTotal LoopPhase.nNow phase
            have htodo := h.counts.todo
            rw [length_append, length_reverse]
            omega
          idle := h.counts.idle.trans (localTotal_congr (hwake LoopPhase.idle_wake)).symm
          total := h.counts.total.trans (localTotal_congr (hwake LoopPhase.joined_wake)).symm
          batch := fun t l fOk => by
            rw [hbatch t]
            exact h.counts.batch t l fOk }
      kept := by
        rw [Kept, hpending, ← add_assoc]
        exact add_le_add_left h.kept _
      verdict := by
        refine ⟨fun _ hf c hc => ?_, fun hdown => ?_⟩
        · rw [hpending, mem_add]
          rcases mem_add.mp hc with hc | hc
          · exact (hgood (by simp [hadding]) (hfine.mp hf) c hc).imp_right .inl
          · exact .inr (.inr hc)
        · obtain ⟨c, hc, heval⟩ := hbad fun hf => hdown (hfine.mpr hf)
          exact ⟨c, mem_add.mpr (.inl hc), heval⟩
      called := called_adding rfl (hnotified.phase_none.trans hout) }

/-! ## Runs -/

/-- What every state of a run satisfies. -/
structure RunInv (eval : C → Bool) (s : CheckQueue W C) : Prop where
  inv : s.Inv eval
  settled : s.Settled

theorem RunInv.step (h : s.RunInv eval) (hstep : Step eval nBatchSize s s') : s'.RunInv eval := by
  have hother : ∀ {t t' : Option W} {p : LoopPhase C}, t' ≠ t →
      update s.phase t p t' ≠ .inside := fun ht => by
    rw [update_of_ne ht]
    exact h.settled _
  have hwake : ∀ {p : LoopPhase C} (t : Option W), p = s.phase t ∨ p = (s.phase t).wake →
      p ≠ .inside := by
    rintro p t (rfl | rfl)
    · exact h.settled t
    · exact fun hin => h.settled t (LoopPhase.wake_eq_inside_iff.mp hin)
  cases hstep with
  | @start w hout =>
    exact ⟨(h.inv.enter hout).loopHead (update_self _ _ _), settled_loopHead fun t' ht => hother ht⟩
  | @finish t nNow fOk hrun =>
    exact ⟨(h.inv.cleanUp hrun).loopHead cleanUp_self,
      settled_loopHead fun t' ht => hwake t' (cleanUp_other ht)⟩
  | @awake t hwoken =>
    exact ⟨(h.inv.resume hwoken).loopHead (update_self _ _ _),
      settled_loopHead fun t' ht => hother ht⟩
  | @spurious t hwait =>
    exact ⟨h.inv.spurious hwait, settled_update (fun t' _ => h.settled t') (by simp)⟩
  | @check t c vChecks nNow fOk hrun =>
    exact ⟨h.inv.execute hrun, settled_update (fun t' _ => h.settled t') (by simp)⟩
  | @round fRet hdone batches =>
    rw [if_pos (h.inv.isIdle h.settled hdone)]
    exact ⟨h.inv.round hdone batches, h.settled⟩
  | @add vChecks batches phase hadding hnotified =>
    exact ⟨h.inv.add hadding hnotified, fun t => hwake t (hnotified.phase_eq t)⟩
  | wait hadding =>
    have hin : update s.phase none .inside none = .inside := update_self _ _ _
    exact ⟨(h.inv.wait hadding).loopHead hin, settled_loopHead fun t' ht => hother ht⟩

theorem runInv_of_run
    (hrun : Relation.ReflTransGen (Step eval nBatchSize) (initial : CheckQueue W C) s) :
    s.RunInv eval := by
  induction hrun with
  | refl => exact ⟨inv_initial, fun t hin => by simp [initial] at hin⟩
  | tail _ hstep ih => exact ih.step hstep

/-- A thread executes a batch or has been woken. -/
def Active (s : CheckQueue W C) (t : Option W) : Prop :=
  (s.phase t).batch ≠ none ∨ s.phase t = .woken

omit [DecidableEq W] in
/-- While something is left to do, or the master is in `Wait`, some thread goes on. -/
theorem RunInv.exists_active (h : s.RunInv eval) (hleft : s.nTodo ≠ 0 ∨ s.master = .waiting) :
    (∃ batches, s.master = .adding batches) ∨ ∃ t, s.Active t := by
  rcases hm : s.master with fRet | batches | _ | _
  · rcases hleft with hleft | hleft
    · exact absurd (h.inv.called.quiet fRet hm).1 hleft
    · rw [hm] at hleft
      simp at hleft
  · exact .inl ⟨batches, rfl⟩
  · right
    have hout : s.phase none ≠ .out := fun hout => h.inv.called.home.mp hout hm
    rcases hp : s.phase none with _ | _ | ⟨vChecks, nNow, fOk⟩ | _ | _
    · exact absurd hp hout
    · exact absurd hp (h.settled none)
    · exact ⟨none, .inl (by rw [hp]; exact some_ne_none _)⟩
    · -- the master sleeps, so another thread holds what is left
      obtain ⟨htodo, hq⟩ := h.inv.called.asleep hp
      have hcount := h.inv.counts.todo
      rw [hq] at hcount
      obtain ⟨t, ht⟩ := exists_ne_zero_of_localTotal_ne_zero
        (show localTotal LoopPhase.nNow s.phase ≠ 0 by
          intro hzero
          rw [hzero] at hcount
          exact htodo hcount)
      refine ⟨t, .inl fun hb => ht ?_⟩
      rw [LoopPhase.nNow, hb]
      rfl
    · exact ⟨none, .inr hp⟩
  · exact absurd hm h.inv.called.noFail

/-- **`checkQueue_correct`** — in every state that an interleaving of the threads reaches: `Wait`
has returned only when no check is queued or held by a thread, with `true` exactly when all checks
of the round pass; no check has been executed more often than it was added in the round; the
assertion of `CCheckQueueControl` has not failed; and while checks are left, or the master is in
`Wait`, the master is about to add a batch or some thread executes one or has been woken. -/
theorem checkQueue_correct
    (hrun : Relation.ReflTransGen (Step eval nBatchSize) (initial : CheckQueue W C) s) :
    (∀ fRet, s.master = .done (some fRet) → s.queue = [] ∧ (∀ t, (s.phase t).batch = none) ∧
      (fRet = true ↔ ∀ c ∈ s.added, eval c = true)) ∧
    s.ran + (s.queue : Multiset C) + localTotal LoopPhase.checks s.phase ≤ s.added ∧
    s.master ≠ .assertFailed ∧
    (s.queue ≠ [] ∨ (∃ t, (s.phase t).batch ≠ none) ∨ s.master = .waiting →
      (∃ batches, s.master = .adding batches) ∨ ∃ t, s.Active t) := by
  have h := runInv_of_run hrun
  refine ⟨fun fRet hdone => ?_, (add_assoc _ _ _).trans_le h.inv.kept, h.inv.called.noFail,
    fun hleft => ?_⟩
  · have hzero := (h.inv.called.quiet _ hdone).1
    obtain ⟨hq, hbatch⟩ := h.inv.counts.idle_of_done hzero
    exact ⟨hq, hbatch, h.inv.called.result fRet hdone⟩
  · refine h.exists_active ?_
    rcases hleft with hq | ⟨t, hb⟩ | hwait
    · exact .inl fun hzero => hq (h.inv.counts.idle_of_done hzero).1
    · exact .inl fun hzero => hb ((h.inv.counts.idle_of_done hzero).2 t)
    · exact .inr hwait

/-- One worker, which waits when two checks are added. It is woken and executes the one that fails
while the master executes the other in `Wait`, which returns `false`. -/
theorem checkQueue_failing_worker : ∃ s : CheckQueue Unit Bool,
    Relation.ReflTransGen (Step id 128) initial s ∧ s.master = .done (some false) ∧
      s.queue = [] ∧ ¬∀ c ∈ s.added, c = true := by
  have hstart : Relation.ReflTransGen (Step (W := Unit) (id : Bool → Bool) 128) initial _ :=
    .single (@Step.start _ _ _ _ _ _ () (by rfl))
  have hround := hstart.tail (.round (by rfl) [[true, false]])
  have hadd := hround.tail (@Step.add _ _ _ _ _ _ [true, false] [] _ (by rfl) (.all 0 _))
  have hawake := hadd.tail (@Step.awake _ _ _ _ _ _ (some ()) (by rfl))
  have hwait := hawake.tail (.wait (by rfl))
  have hworker := hwait.tail (@Step.check _ _ _ _ _ _ (some ()) false [] 1 true (by rfl))
  have hmaster := hworker.tail (@Step.check _ _ _ _ _ _ none true [] 1 true (by rfl))
  have hsettled := hmaster.tail (@Step.finish _ _ _ _ _ _ (some ()) 1 false (by rfl))
  have hrun := hsettled.tail (@Step.finish _ _ _ _ _ _ none 1 true (by rfl))
  have hdone := (checkQueue_correct hrun).1 false rfl
  exact ⟨_, hrun, rfl, hdone.1, fun hall => Bool.false_ne_true (hdone.2.2.mpr hall)⟩

end CheckQueue

end MonetaryUnit
