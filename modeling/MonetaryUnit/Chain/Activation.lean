/-
# MonetaryUnit.Chain.Activation — `ActivateBestChain` ends on the best chain

Inside `ActivateBestChain` the tip moves down to a fork and up again, and the candidate set is
pruned at every block connected. What holds throughout is `IndexInv` with a bound: some solid block
from which on no candidate is missing, the old tip or a block connected since that sorts better.

* `findMostWorkChain_spec`: the search returns a best candidate whose path has no mark.
* `connectBlocks_spec`: a walk towards it arrives, or gets ahead of the old tip, or finds a block
  that fails.
* `activateBestChain_spec`: the loop ends, because a walk that does not arrive leaves more work in
  the chain or one block more marked; and it ends on a block that no solid block sorts above.
-/

import Mathlib.Data.Finset.Card
import Mathlib.Order.WellFounded
import MonetaryUnit.Chain.Arrivals

namespace MonetaryUnit

open Lib List ParentTree Nat

namespace IndexState

variable {β : Type} [DecidableEq β] {T : BlockTree β} {s s' : IndexState β}
  {a b bound m x : β} {oldWork : Nat}

/-- Marks were added, and a block newly failed is one that `ConnectBlock` rejects. -/
structure Tried (T : BlockTree β) (s s' : IndexState β) : Prop where
  grow : MarksGrow s s'
  rejected : ∀ x, (s'.entry x).failedValid = true →
    (s.entry x).failedValid = true ∨ T.connectBlock x = false

section

omit [DecidableEq β]

theorem Tried.refl (s : IndexState β) : s.Tried T s := ⟨MarksGrow.refl s, fun _ h => .inl h⟩

theorem Tried.trans {s'' : IndexState β} (h : s.Tried T s') (h' : s'.Tried T s'') : s.Tried T s'' :=
  ⟨h.grow.trans h'.grow, fun x hx => (h'.rejected x hx).elim (h.rejected x) .inr⟩

theorem Solid.of_grow (h : s.Solid T b) (hm : MarksGrow s s')
    (hmarks : ∀ a ∈ T.pathTo b, (s'.entry a).failed = false) : s'.Solid T b :=
  h.of_unmarked hm.data.linked.mpr fun a ha _ => hmarks a ha

/-- The bound is a candidate itself. -/
theorem IndexInv.bound_mem (h : s.IndexInv T [] bound) (hb : s.Solid T bound) :
    bound ∈ s.setBlockIndexCandidates :=
  h.candidates.complete bound hb.linked (hb.unmarked bound (self_mem_pathTo bound)) le_rfl

end

/-! ## The search -/

/-- What the test of a candidate's path finds. -/
theorem testPath_spec (hst : s.Stored T []) (han : s.Anchored T) (hb : s.Linked b)
    (passed : List β) :
    (s.testPath T passed (T.pathTo b) = .valid ∧ ∀ x ∈ T.pathTo b, (s.entry x).failed = false) ∨
      ∃ above t, s.testPath T passed (T.pathTo b) = .invalidAncestor (above ++ passed) t ∧
        t ∈ T.pathTo b ∧ (s.entry t).failed = true ∧ (b = t ∨ b ∈ above) ∧
        ∀ x ∈ above, x ∈ T.pathTo b ∧ t ∈ T.pathTo x ∧ x ∉ T.pathTo s.tip := by
  -- from a block of the active chain downwards everything is in the chain, and unmarked
  have hactive : ∀ b, b ∈ T.pathTo s.tip → ∀ x ∈ T.pathTo b, (s.entry x).failed = false :=
    fun b hb x hx => han.solid.unmarked x (pathTo_trans hx hb)
  induction b using T.induction generalizing passed with
  | hroot =>
    have hroot : T.root ∈ T.pathTo s.tip := root_mem_pathTo s.tip
    refine .inl ⟨?_, hactive _ hroot⟩
    rw [pathTo_root, testPath, contains, if_pos (decide_eq_true hroot)]
  | hstep b p hp ih =>
    rw [pathTo_of_parent hp, testPath, contains]
    by_cases hchain : b ∈ T.pathTo s.tip
    · rw [if_pos (decide_eq_true hchain), ← pathTo_of_parent hp]
      exact .inl ⟨rfl, hactive b hchain⟩
    have hdata : ¬ (s.entry b).haveData = false := by
      rw [hst.linked_data b hb]
      exact Bool.noConfusion
    rw [if_neg (by simpa using hchain), if_neg hdata, if_neg fun hz => hb hz.1]
    rcases hf : (s.entry b).failed with _ | _
    · rcases ih (hst.linked_parent b p hb hp) (b :: passed) with
        ⟨hvalid, hnone⟩ | ⟨above, t, hinv, ht, htf, htop, habove⟩
      · refine .inl ⟨hvalid, fun x hx => ?_⟩
        rcases mem_cons.mp hx with rfl | hx
        · exact hf
        · exact hnone x hx
      refine .inr ⟨above ++ [b], t, ?_, mem_cons_of_mem b ht, htf,
        .inr (mem_append_right _ (mem_singleton_self b)), fun x hx => ?_⟩
      · rw [hinv, append_assoc]
        rfl
      · rcases mem_append.mp hx with hx | hx
        · obtain ⟨hxp, htx, hxc⟩ := habove x hx
          exact ⟨mem_cons_of_mem b hxp, htx, hxc⟩
        · rw [mem_singleton.mp hx]
          exact ⟨mem_cons_self, pathTo_of_parent hp ▸ mem_cons_of_mem b ht, hchain⟩
    · exact .inr ⟨[], b, rfl, mem_cons_self, hf, .inl rfl, fun x hx => absurd hx not_mem_nil⟩

section Drop

variable {above : List β} {t : β}

theorem entry_dropInvalid (x : β) : (s.dropInvalid above t).entry x =
    if x ∈ above then { s.entry x with failedChild := true } else s.entry x :=
  rfl

theorem failed_dropInvalid : ((s.dropInvalid above t).entry x).failed = true ↔
    (s.entry x).failed = true ∨ x ∈ above :=
  failed_edit (P := (· ∈ above)) (f := fun e => { e with failedChild := true }) rfl
    fun _ => Bool.or_true _

theorem failedValid_dropInvalid (x : β) :
    ((s.dropInvalid above t).entry x).failedValid = (s.entry x).failedValid := by
  rw [entry_dropInvalid]
  split <;> rfl

theorem marksGrow_dropInvalid (hst : s.Stored T []) (hlinked : ∀ x ∈ above, s.Linked x) :
    MarksGrow s (s.dropInvalid above t) :=
  marksGrow_edit (P := (· ∈ above)) (f := fun e => { e with failedChild := true })
    entry_dropInvalid (fun _ => ⟨rfl, rfl, rfl, rfl, fun h => h, fun _ => Bool.or_true _⟩)
    (fun x hx => ⟨hst.linked_known (hlinked x hx), fun _ => .inr (.inl (hlinked x hx))⟩)
    ⟨rfl, rfl, rfl, rfl⟩

/-- The descendants of a marked block may be marked and leave the candidate set. -/
theorem indexInv_dropInvalid (h : s.IndexInv T [] bound) (ht : (s.entry t).failed = true)
    (habove : ∀ x ∈ above, s.Linked x ∧ t ∈ T.pathTo x ∧ x ∉ T.pathTo s.tip) :
    (s.dropInvalid above t).IndexInv T [] bound := by
  have hgrow := @marksGrow_dropInvalid β _ T s above t h.stored fun x hx => (habove x hx).1
  refine h.of_marksGrow hgrow (fun x => ?_) rfl (fun x hx hf => ?_) (fun x hx => ?_)
    (fun x hx => mem_of_mem_filter hx) fun x hx hf => ?_
  · rw [entry_dropInvalid]
    split <;> rfl
  · have hxa := (failed_dropInvalid.mp hx).resolve_left fun hx' =>
      ne_true_of_eq_false hf hx'
    exact ((h.marks t ht).of_mem_pathTo (habove x hxa).2.1).mono hgrow.failedValid
  · rw [← Bool.not_eq_true, failed_dropInvalid, not_or, Bool.not_eq_true]
    exact ⟨h.anchored.solid.unmarked x hx, fun hxa => (habove x hxa).2.2 hx⟩
  · rw [← Bool.not_eq_true, failed_dropInvalid, not_or] at hf
    refine mem_filter.mpr ⟨hx, decide_eq_true ⟨hf.2, fun he => hf.1 (he ▸ ht)⟩⟩

end Drop

/-- What `FindMostWorkChain` leaves: a best candidate `m`, on a path without marks. -/
structure Found (T : BlockTree β) (bound : β) (s s1 : IndexState β) (m : β) : Prop where
  grow : MarksGrow s s1
  failedValid : ∀ x, (s1.entry x).failedValid = (s.entry x).failedValid
  tip : s1.tip = s.tip
  inv : s1.IndexInv T [] bound
  solid : s1.Solid T bound
  mem : m ∈ s1.setBlockIndexCandidates
  best : ∀ c ∈ s1.setBlockIndexCandidates, s1.sortKey T c ≤ s1.sortKey T m
  unmarked : ∀ x ∈ T.pathTo m, (s1.entry x).failed = false

/-- The search succeeds, and none of its assertions fails. -/
theorem findMostWorkChain_spec {n : Nat} (hn : s.setBlockIndexCandidates.length < n)
    (h : s.IndexInv T [] bound) (hb : s.Solid T bound) :
    ∃ m s1, findMostWorkChain T n s = some (some m, s1) ∧ Found T bound s s1 m := by
  induction n generalizing s with
  | zero => exact absurd hn (not_lt_zero _)
  | succ n ih =>
    rw [findMostWorkChain]
    rcases hpick : pickBest (s.workLess T) s.setBlockIndexCandidates with _ | m
    · -- the set has the bound
      have hmem := h.bound_mem hb
      rw [pickBest_eq_none hpick] at hmem
      exact absurd hmem not_mem_nil
    obtain ⟨hm, hbest⟩ := pickBest_spec s.workLess_iff hpick
    dsimp only
    rcases testPath_spec h.stored h.anchored (h.candidates.linked m hm) [] with
      ⟨hvalid, hnone⟩ | ⟨above, t, hinv, ht, htf, htop, habove⟩
    · rw [hvalid]
      exact ⟨m, s, rfl, MarksGrow.refl s, fun _ => rfl, rfl, h, hb, hm, hbest, hnone⟩
    rw [hinv, append_nil]
    have hlinked : ∀ x ∈ above, s.Linked x := fun x hx =>
      h.stored.linked_of_mem_pathTo (h.candidates.linked m hm) (habove x hx).1
    have hinv' := @indexInv_dropInvalid β _ T s bound above t h htf fun x hx =>
      ⟨hlinked x hx, (habove x hx).2⟩
    have hgrow := @marksGrow_dropInvalid β _ T s above t h.stored hlinked
    -- no block of the bound's path is above a marked one
    have hsolid : (s.dropInvalid above t).Solid T bound := by
      refine hb.of_grow hgrow fun x hx => ?_
      rw [← Bool.not_eq_true, failed_dropInvalid, not_or, Bool.not_eq_true]
      refine ⟨hb.unmarked x hx, fun hxa => ?_⟩
      have htb := hb.unmarked t (pathTo_trans (habove x hxa).2.1 hx)
      exact ne_true_of_eq_false htb htf
    have hshort : (s.dropInvalid above t).setBlockIndexCandidates.length < n := by
      refine lt_of_lt_of_le ?_ (le_of_lt_succ hn)
      refine length_filter_lt_length_iff_exists.mpr ⟨m, hm, ?_⟩
      rw [decide_eq_true_eq, not_and_or, not_not, not_ne_iff]
      exact htop.symm
    obtain ⟨m', s1, hfind, hfound⟩ := ih hshort hinv' hsolid
    exact ⟨m', s1, hfind, hgrow.trans hfound.grow,
      fun x => (hfound.failedValid x).trans (failedValid_dropInvalid x), hfound.tip,
      hfound.inv, hfound.solid, hfound.mem, hfound.best, hfound.unmarked⟩

/-! ## Pruning -/

/-- The state without the candidates that are worse than the tip. -/
def pruned (T : BlockTree β) (s : IndexState β) : IndexState β :=
  { s with setBlockIndexCandidates :=
      s.setBlockIndexCandidates.filter fun c => !s.workLess T c s.tip }

section

omit [DecidableEq β]

theorem mem_pruned : x ∈ (s.pruned T).setBlockIndexCandidates ↔
    x ∈ s.setBlockIndexCandidates ∧ s.sortKey T s.tip ≤ s.sortKey T x := by
  show x ∈ s.setBlockIndexCandidates.filter _ ↔ _
  rw [mem_filter, Bool.not_eq_true', workLess_eq_false_iff]

theorem marksGrow_of_entry (hentry : s'.entry = s.entry) (hmap : s'.mapBlockIndex = s.mapBlockIndex)
    (hunlinked : s'.mapBlocksUnlinked = s.mapBlocksUnlinked)
    (hcounter : s'.nBlockSequenceId = s.nBlockSequenceId) (haddr : s'.addr = s.addr) :
    MarksGrow s s' where
  data := ⟨fun _ => by rw [hentry], fun _ => by rw [hentry], fun _ => by rw [hentry],
    fun _ => by rw [hentry], haddr⟩
  map := hmap
  unlinked := hunlinked
  counter := hcounter
  unknown := fun _ _ => by rw [hentry]
  failedValid := fun _ hx => by rwa [hentry]
  failed := fun _ hx => by rwa [hentry]
  fresh := fun _ hx => .inl (by rwa [hentry] at hx)

theorem marksGrow_pruned (s : IndexState β) : MarksGrow s (s.pruned T) :=
  marksGrow_of_entry rfl rfl rfl rfl rfl

/-- The assertion of `PruneBlockIndexCandidates` holds when some candidate is as good as the
tip. -/
theorem prune_eq (h : x ∈ s.setBlockIndexCandidates ∧ s.sortKey T s.tip ≤ s.sortKey T x) :
    s.pruneBlockIndexCandidates T = some (s.pruned T) := by
  have hx : x ∈ s.setBlockIndexCandidates.filter fun c => !s.workLess T c s.tip := mem_pruned.mpr h
  rw [pruneBlockIndexCandidates, pruned]
  rcases hcs : s.setBlockIndexCandidates.filter fun c => !s.workLess T c s.tip with _ | ⟨c, cs⟩
  · rw [hcs] at hx
    exact absurd hx not_mem_nil
  · rfl

end

/-! ## Connecting blocks -/

section Connect

section

variable (hf : (s.entry b).failed = false)
include hf

theorem entry_connectTip (x : β) : (s.connectTip b).entry x =
    if x = b then { s.entry x with nValid := max (s.entry x).nValid BLOCK_VALID_SCRIPTS }
    else s.entry x := by
  show (s.modify b fun e => e.raiseValidity BLOCK_VALID_SCRIPTS).entry x = _
  rw [entry_modify]
  split
  case isTrue hx =>
      rw [hx, IndexEntry.raiseValidity, if_neg (Bool.not_eq_true _ ▸ hf)]
      split
      case isTrue hlt => rw [max_eq_right hlt.le]
      case isFalse hlt => rw [max_eq_left (not_lt.mp hlt)]
  case isFalse => rfl

theorem failed_connectTip (x : β) :
    ((s.connectTip b).entry x).failedValid = (s.entry x).failedValid ∧
      ((s.connectTip b).entry x).failed = (s.entry x).failed := by
  rw [entry_connectTip hf]
  split <;> exact ⟨rfl, rfl⟩

theorem marksGrow_connectTip (hknown : b ∈ s.mapBlockIndex) : MarksGrow s (s.connectTip b) :=
  marksGrow_edit (P := (· = b))
    (f := fun e => { e with nValid := max e.nValid BLOCK_VALID_SCRIPTS }) (entry_connectTip hf)
    (fun _ => ⟨rfl, rfl, rfl, rfl, fun h => h, fun h => h⟩)
    (fun _ hx => ⟨hx ▸ hknown, .inl⟩) ⟨rfl, rfl, rfl, rfl⟩

end

variable (h : s.IndexInv T [] bound) (hp : T.parent b = some s.tip) (hb : s.Solid T b)

include h hp hb

theorem scripts_connectTip (ha : a ∈ T.pathTo b) (hroot : a ≠ T.root) :
    BLOCK_VALID_SCRIPTS ≤ ((s.connectTip b).entry a).nValid := by
  have hf := hb.unmarked b (self_mem_pathTo b)
  rw [entry_connectTip hf]
  split
  case isTrue => exact le_max_right _ _
  case isFalse hab =>
      exact h.anchored.scripts a (mem_pathTo_parent hp ha hab) hroot

theorem levels_connectTip : (s.connectTip b).Levels T := by
  have hf := hb.unmarked b (self_mem_pathTo b)
  have hge : ∀ x, (s.entry x).nValid ≤ ((s.connectTip b).entry x).nValid := fun x => by
    rw [entry_connectTip hf]
    split
    · exact le_max_left _ _
    · exact le_rfl
  have hne : ∀ x, x ≠ b → (s.connectTip b).entry x = s.entry x := fun x hx => by
    rw [entry_connectTip hf, if_neg hx]
  refine ⟨fun x hx => (h.levels.tree x hx).trans (hge x), fun x hx => ?_,
    fun x hx hlevel a ha hroot => ?_⟩
  · by_cases hxb : x = b
    · have hdata : ((s.connectTip b).entry b).haveData = true := by
        rw [entry_connectTip hf, if_pos rfl]
        exact h.stored.linked_data b hb.linked
      rw [hxb]
      refine iff_of_true (le_trans (by decide) (scripts_connectTip h hp hb ?_ ?_)) hdata
      · exact self_mem_pathTo b
      · exact ne_root hp
    · rw [hne x hxb]
      exact h.levels.transactions x hx
  · by_cases hxb : x = b
    · exact scripts_connectTip h hp hb (hxb ▸ ha) hroot
    · rw [hne x hxb] at hlevel
      exact (h.levels.scripts x hx hlevel a ha hroot).trans (hge a)

/-- The state after a block is connected and the set pruned, from any bound that sorts above the
old one and above the block. -/
theorem indexInv_connectTip {bound' : β} (hle : s.sortKey T bound ≤ s.sortKey T bound')
    (hle' : s.sortKey T b ≤ s.sortKey T bound') :
    ((s.connectTip b).pruned T).IndexInv T [] bound' := by
  have hf := hb.unmarked b (self_mem_pathTo b)
  have hgrow := marksGrow_connectTip hf (h.stored.linked_known hb.linked)
  have hkey : ∀ x, (s.connectTip b).sortKey T x = s.sortKey T x := fun x => hgrow.data.sortKey x
  have hmem : ∀ c, c ∈ ((s.connectTip b).pruned T).setBlockIndexCandidates ↔
      c ∈ s.setBlockIndexCandidates ∧ s.sortKey T b ≤ s.sortKey T c := fun c => by
    rw [mem_pruned, hkey, hkey]
    rfl
  exact
    { stored := (h.stored.of_marksGrow hgrow).of_marksGrow (marksGrow_pruned _)
      levels := (levels_connectTip h hp hb).congr rfl (fun _ => rfl) fun _ => rfl
      marks := fun x hx => by
        have hx' : (s.entry x).failed = true := (failed_connectTip hf x).2.symm.trans hx
        exact (h.marks x hx').mono fun a ha => (failed_connectTip hf a).1.trans ha
      anchored :=
        { solid := hb.of_unmarked hgrow.data.linked.mpr fun a _ ha =>
            (failed_connectTip hf a).2.trans ha
          scripts := fun a ha hroot => scripts_connectTip h hp hb ha hroot }
      candidates :=
        { linked := fun c hc =>
            hgrow.data.linked.mpr (h.candidates.linked c ((hmem c).mp hc).1)
          above := fun c hc => (hkey b).trans_le (((hmem c).mp hc).2.trans_eq (hkey c).symm)
          complete := fun x hx hxf hxkey => by
            have hxkey' : s.sortKey T bound' ≤ s.sortKey T x :=
              (hkey _).symm.trans_le (hxkey.trans_eq (hkey x))
            refine (hmem x).mpr ⟨h.candidates.complete x (hgrow.data.linked.mp hx)
              ((failed_connectTip hf x).2.symm.trans hxf) (hle.trans hxkey'), hle'.trans hxkey'⟩ } }

end Connect

/-- `activateBestChain` is on its way to the candidate `m`, whose path has no mark. -/
structure Towards (T : BlockTree β) (bound m : β) (s : IndexState β) : Prop where
  inv : s.IndexInv T [] bound
  solid : s.Solid T bound
  mem : m ∈ s.setBlockIndexCandidates
  unmarked : ∀ x ∈ T.pathTo m, (s.entry x).failed = false
  le : s.sortKey T bound ≤ s.sortKey T m

/-- How a walk ends: at its goal, ahead of the old tip, or at a block that fails. -/
inductive WalkEnd (T : BlockTree β) (oldWork : Nat) (m : β) (s s' : IndexState β) : Prop
  | arrived (htip : s'.tip = m)
  | ahead (hwork : oldWork < T.nChainWork s'.tip)
  | failed (b : β) (hknown : b ∈ s.mapBlockIndex) (hnew : (s.entry b).failedValid = false)
      (hold : (s'.entry b).failedValid = true)

theorem connectBlocks_connect {bs : List β} (h : s.Towards T bound m) (hp : T.parent b = some s.tip)
    (hbm : b ∈ T.pathTo m) (hok : T.connectBlock b = true) :
    ∃ s1 bound', connectBlocks T oldWork (b :: bs) s =
        (if oldWork < T.nChainWork b then some s1 else connectBlocks T oldWork bs s1) ∧
      s1.tip = b ∧ s.Tried T s1 ∧
      (∀ x, (s1.entry x).failedValid = (s.entry x).failedValid) ∧ s1.Towards T bound' m := by
  have hlm := h.inv.candidates.linked m h.mem
  have hlb := h.inv.stored.linked_of_mem_pathTo hlm hbm
  have hf := h.unmarked b hbm
  have hb : s.Solid T b :=
    { linked := hlb
      connects := fun a ha => by
        rcases (mem_pathTo_of_parent hp).mp ha with rfl | ha
        · exact hok
        · exact h.inv.anchored.solid.connects a ha
      unmarked := fun a ha => h.unmarked a (pathTo_trans ha hbm) }
  have hgrow := (marksGrow_connectTip hf (h.inv.stored.linked_known hlb)).trans
    (@marksGrow_pruned β T (s.connectTip b))
  have hkey : ∀ x, ((s.connectTip b).pruned T).sortKey T x = s.sortKey T x := fun x =>
    hgrow.data.sortKey x
  have hbkey : s.sortKey T b ≤ s.sortKey T m := sortKey_le_of_mem_pathTo hbm
  have hmem : m ∈ ((s.connectTip b).pruned T).setBlockIndexCandidates := by
    refine mem_pruned.mpr ⟨h.mem, ?_⟩
    exact sortKey_le_of_mem_pathTo hbm
  have hsolid : ∀ x, s.Solid T x → ((s.connectTip b).pruned T).Solid T x := fun x hx =>
    hx.of_unmarked hgrow.data.linked.mpr fun a _ ha => (failed_connectTip hf a).2.trans ha
  -- the bound stays unless the new tip sorts above it
  have hbound : ∃ bound', ((s.connectTip b).pruned T).IndexInv T [] bound' ∧
      s.Solid T bound' ∧ s.sortKey T bound' ≤ s.sortKey T m := by
    rcases le_total (s.sortKey T bound) (s.sortKey T b) with hle | hle
    · exact ⟨b, indexInv_connectTip h.inv hp hb hle le_rfl, hb, hbkey⟩
    · exact ⟨bound, indexInv_connectTip h.inv hp hb le_rfl hle, h.solid, h.le⟩
  obtain ⟨bound', hinv, hsol, hle⟩ := hbound
  refine ⟨(s.connectTip b).pruned T, bound', ?_, rfl, ⟨hgrow, fun x hx => ?_⟩, fun x => ?_,
    hinv, hsolid _ hsol, hmem, fun x hx => ?_, ?_⟩
  · rw [connectBlocks, if_neg (not_not.mpr hp), if_pos hok, prune_eq (mem_pruned.mp hmem)]
    rfl
  · exact .inl ((failed_connectTip hf x).1.symm.trans hx)
  · exact (failed_connectTip hf x).1
  · exact (failed_connectTip hf x).2.trans (h.unmarked x hx)
  · rw [hkey, hkey]
    exact hle

/-- A walk keeps the invariant, and none of its assertions fails. -/
theorem connectBlocks_spec {bs : List β} (h : s.Towards T bound m) (hclimb : T.Climbs s.tip bs m) :
    ∃ s' bound', connectBlocks T oldWork bs s = some s' ∧ s.Tried T s' ∧
      s'.IndexInv T [] bound' ∧ s'.Solid T bound' ∧
      s'.sortKey T bound' ≤ s'.sortKey T m ∧ WalkEnd T oldWork m s s' := by
  induction bs generalizing s bound with
  | nil => exact ⟨s, bound, rfl, Tried.refl s, h.inv, h.solid, h.le, .arrived hclimb⟩
  | cons b bs ih =>
    obtain ⟨hp, hrest⟩ := hclimb
    have hbm : b ∈ T.pathTo m := (climbs_mem_pathTo hrest).1
    rcases hok : T.connectBlock b with _ | _
    · -- the block fails
      have hlb := h.inv.stored.linked_of_mem_pathTo (h.inv.candidates.linked m h.mem) hbm
      have hknown := h.inv.stored.linked_known hlb
      have hnot : ∀ x, s.Solid T x → b ∉ T.pathTo x := fun x hx hbx =>
        ne_true_of_eq_false hok (hx.connects b hbx)
      have hgrow : MarksGrow s (s.invalidBlockFound b) :=
        marksGrow_failValid hknown (.inr (.inl hlb))
      have hinv : (s.invalidBlockFound b).IndexInv T [] bound :=
        indexInv_failValid h.inv hknown (.inl hlb) (hnot _ h.inv.anchored.solid)
          (fun x hx => mem_of_mem_filter hx)
          fun x hx hne => mem_filter.mpr ⟨hx, decide_eq_true hne⟩
      have hentry : ∀ x, (s.invalidBlockFound b).entry x =
          if x = b then { s.entry x with failedValid := true } else s.entry x := fun x => rfl
      have hfv := (failed_eq_false_iff.mp (h.unmarked b hbm)).1
      refine ⟨s.invalidBlockFound b, bound, ?_, ⟨hgrow, fun x hx => ?_⟩, hinv, ?_, ?_,
        .failed b hknown hfv ?_⟩
      · rw [connectBlocks, if_neg (not_not.mpr hp), if_neg (Bool.not_eq_true _ ▸ hok)]
      · by_cases hxb : x = b
        · exact .inr (hxb ▸ hok)
        · rw [hentry, if_neg hxb] at hx
          exact .inl hx
      · refine h.solid.of_grow hgrow fun x hx => ?_
        have hxb : x ≠ b := fun he => hnot _ h.solid (he ▸ hx)
        rw [hentry, if_neg hxb]
        exact h.solid.unmarked x hx
      · rw [hgrow.data.sortKey, hgrow.data.sortKey]
        exact h.le
      · rw [hentry, if_pos rfl]
    · obtain ⟨s1, bound1, heq, htip, htried, hfv, h1⟩ :=
        @connectBlocks_connect β _ T s b bound m oldWork bs h hp hbm hok
      rw [heq]
      split_ifs with hwork
      · exact ⟨s1, bound1, rfl, htried, h1.inv, h1.solid, h1.le, .ahead (htip.symm ▸ hwork)⟩
      · obtain ⟨s', bound', hrun, htried', hinv, hsolid, hle, hend⟩ := ih h1 (htip.symm ▸ hrest)
        refine ⟨s', bound', hrun, htried.trans htried', hinv, hsolid, hle, ?_⟩
        rcases hend with htip' | hwork' | ⟨c, hknown, hnew, hold⟩
        · exact .arrived htip'
        · exact .ahead hwork'
        · exact .failed c (htried.grow.map ▸ hknown) ((hfv c).symm.trans hnew) hold

/-! ## One round -/

omit [DecidableEq β] in
/-- The tip moves down to a fork. -/
theorem indexInv_lower {f : β} (h : s.IndexInv T [] bound) (hf : f ∈ T.pathTo s.tip) :
    ({ s with tip := f } : IndexState β).IndexInv T [] bound := by
  have hsolid := h.anchored.solid.of_mem_pathTo h.stored hf
  exact
    { stored := h.stored.of_marksGrow (marksGrow_of_entry rfl rfl rfl rfl rfl)
      levels := h.levels.congr rfl (fun _ => rfl) fun _ => rfl
      marks := fun x hx => h.marks x hx
      anchored :=
        { solid := { hsolid with }
          scripts := fun a ha hroot => h.anchored.scripts a (pathTo_trans ha hf) hroot }
      candidates :=
        { linked := h.candidates.linked
          above := fun c hc => (sortKey_le_of_mem_pathTo hf).trans (h.candidates.above c hc)
          complete := h.candidates.complete } }

variable {s1 : IndexState β}

/-- A step towards the block that the search found. -/
theorem activateBestChainStep_spec (h : Found T bound s s1 m) :
    ∃ s2 bound', s1.activateBestChainStep T m = some s2 ∧ s1.Tried T s2 ∧
      s2.IndexInv T [] bound' ∧ s2.Solid T bound' ∧ s2.sortKey T bound' ≤ s2.sortKey T m ∧
      WalkEnd T (T.nChainWork s1.tip) m s1 s2 := by
  obtain ⟨f, hmeet, hf, -, hclimb⟩ := climbs_above (root_mem_pathTo s1.tip) m
  have htowards : ({ s1 with tip := f } : IndexState β).Towards T bound m :=
    { inv := indexInv_lower h.inv hf
      solid := { h.solid with }
      mem := h.mem
      unmarked := h.unmarked
      le := h.best bound (h.inv.bound_mem h.solid) }
  obtain ⟨s2, bound', hrun, htried, hinv, hsolid, hle, hend⟩ :=
    @connectBlocks_spec β _ T { s1 with tip := f } bound m (T.nChainWork s1.tip)
      (T.above (T.pathTo s1.tip) m) htowards hclimb
  refine ⟨s2, bound', ?_, ?_, hinv, hsolid, hle, ?_⟩
  · rw [activateBestChainStep, hmeet]
    exact hrun
  · have hlower : MarksGrow s1 { s1 with tip := f } := marksGrow_of_entry rfl rfl rfl rfl rfl
    exact ⟨hlower.trans htried.grow, htried.rejected⟩
  · rcases hend with htip | hwork | ⟨c, hknown, hnew, hold⟩
    · exact .arrived htip
    · exact .ahead hwork
    · exact .failed c hknown hnew hold

/-! ## The loop -/

/-- No linked block without a mark sorts above the tip. -/
def TipBest (T : BlockTree β) (s : IndexState β) : Prop :=
  ∀ b, s.Linked b → (s.entry b).failed = false → s.sortKey T b ≤ s.sortKey T s.tip

section

omit [DecidableEq β]

/-- A solid bound that does not sort above the tip is the tip. -/
theorem IndexInv.bound_eq_tip (h : s.IndexInv T [] bound) (hb : s.Solid T bound)
    (hle : s.sortKey T bound ≤ s.sortKey T s.tip) : bound = s.tip :=
  s.sortKey_injective (le_antisymm hle (h.candidates.above bound (h.bound_mem hb)))

/-- What the search finds is as good as every linked block without a mark. -/
theorem Found.le (h : Found T bound s s1 m) (hb : s1.Linked b)
    (hf : (s1.entry b).failed = false) : s1.sortKey T b ≤ s1.sortKey T m := by
  rcases le_total (s1.sortKey T bound) (s1.sortKey T b) with hle | hle
  · exact h.best b (h.inv.candidates.complete b hb hf hle)
  · exact hle.trans (h.best bound (h.inv.bound_mem h.solid))

/-- The known blocks that have not failed. -/
def unfailed (s : IndexState β) : Nat := s.mapBlockIndex.countP fun x => !(s.entry x).failedValid

/-- The known blocks with more work than the tip. -/
def ahead (T : BlockTree β) (s : IndexState β) : Nat :=
  s.mapBlockIndex.countP fun x => decide (T.nChainWork s.tip < T.nChainWork x)

theorem countP_lt_of_mem {α : Type} {p q : α → Bool} {l : List α} {x : α}
    (hpq : ∀ y, p y = true → q y = true) (hx : x ∈ l) (hp : p x = false) (hq : q x = true) :
    l.countP p < l.countP q := by
  have hsub : l.filter p <+ l.filter q := monotone_filter_right l hpq
  rw [countP_eq_length_filter, countP_eq_length_filter]
  refine lt_of_le_of_ne hsub.length_le fun heq => ?_
  have hmem : x ∈ l.filter p := hsub.eq_of_length heq ▸ mem_filter.mpr ⟨hx, hq⟩
  exact Bool.false_ne_true (hp.symm.trans (mem_filter.mp hmem).2)

theorem MarksGrow.unfailed_imp (h : MarksGrow s s') (x : β)
    (hx : (!(s'.entry x).failedValid) = true) : (!(s.entry x).failedValid) = true := by
  rw [Bool.not_eq_true'] at hx ⊢
  by_contra hf
  rw [h.failedValid x (Bool.not_eq_false _ ▸ hf)] at hx
  exact Bool.noConfusion hx

/-- A round that does not arrive makes progress: one block more has failed, or the chain has more
work than before. -/
theorem WalkEnd.progress {s2 : IndexState β} (hm : MarksGrow s1 s2)
    (hknown : s2.tip ∈ s1.mapBlockIndex) (hne : s2.tip ≠ m)
    (h : WalkEnd T (T.nChainWork s1.tip) m s1 s2) :
    Prod.Lex (· < ·) (· < ·) (s2.unfailed, s2.ahead T) (s1.unfailed, s1.ahead T) := by
  have hle : s2.unfailed ≤ s1.unfailed := by
    rw [unfailed, hm.map]
    exact countP_mono_left fun x _ => hm.unfailed_imp x
  rcases h with htip | hwork | ⟨c, hc, hnew, hold⟩
  · exact absurd htip hne
  · have hlt : s2.ahead T < s1.ahead T := by
      rw [IndexState.ahead, hm.map]
      refine countP_lt_of_mem (fun x hx => ?_) hknown (decide_eq_false (lt_irrefl _))
        (decide_eq_true hwork)
      exact decide_eq_true (hwork.trans (of_decide_eq_true hx))
    rcases hle.lt_or_eq with hless | heq
    · exact Prod.Lex.left _ _ hless
    · rw [heq]
      exact Prod.Lex.right _ hlt
  · apply Prod.Lex.left
    rw [unfailed, hm.map]
    refine countP_lt_of_mem hm.unfailed_imp hc ?_ ?_
    · rw [hold]
      rfl
    · rw [hnew]
      rfl

/-- The search does not change what is counted. -/
theorem Found.measure (h : Found T bound s s1 m) :
    (s1.unfailed, s1.ahead T) = (s.unfailed, s.ahead T) := by
  have hunfailed : s1.unfailed = s.unfailed := by
    rw [unfailed, h.grow.map]
    congr 1
    funext x
    rw [h.failedValid]
  rw [hunfailed, ahead, ahead, h.grow.map, h.tip]

end

/-- What a call of `ActivateBestChain` leaves. -/
structure Ended (T : BlockTree β) (s s' : IndexState β) : Prop where
  tried : s.Tried T s'
  inv : s'.IndexInv T [] s'.tip
  best : s'.TipBest T

theorem activateBestChain_succ {n : Nat} (h : activateBestChain T n s = some s') :
    activateBestChain T (n + 1) s = some s' := by
  induction n generalizing s with
  | zero => exact absurd h.symm (Option.some_ne_none _)
  | succ n ih =>
    rw [activateBestChain] at h ⊢
    rcases hfind : findMostWorkChain T (s.setBlockIndexCandidates.length + 1) s with
      _ | ⟨_ | m, s1⟩
    all_goals rw [hfind] at h
    · exact h
    · exact h
    · dsimp only at h ⊢
      split_ifs at h ⊢ with hm
      · exact h
      · rcases hstep : s1.activateBestChainStep T m with _ | s2
        all_goals rw [hstep] at h
        · exact h
        · dsimp only at h ⊢
          split_ifs at h ⊢ with htip
          · exact h
          · exact ih h

/-- The loop ends, none of its assertions fails, and no block that
could be connected sorts above the tip. -/
theorem activateBestChain_spec (h : s.IndexInv T [] bound) (hb : s.Solid T bound) :
    ∃ n s', activateBestChain T n s = some s' ∧ Ended T s s' := by
  have hwf : WellFounded (Prod.Lex (· < · : Nat → Nat → Prop) (· < · : Nat → Nat → Prop)) :=
    WellFounded.prod_lex wellFounded_lt wellFounded_lt
  induction hμ : (s.unfailed, s.ahead T) using hwf.induction generalizing s bound with
  | _ μ ih =>
    obtain ⟨m, s1, hfind, hfound⟩ := findMostWorkChain_spec (lt_succ_self _) h hb
    have htried1 : s.Tried T s1 :=
      ⟨hfound.grow, fun x hx => .inl ((hfound.failedValid x).symm.trans hx)⟩
    by_cases hm : m = s1.tip
    · -- the best candidate is the tip
      have hbest : s1.TipBest T := fun b hlb hf => hm ▸ hfound.le hlb hf
      have hbound : bound = s1.tip := hfound.inv.bound_eq_tip hfound.solid
        (hm ▸ hfound.best bound (hfound.inv.bound_mem hfound.solid))
      refine ⟨1, s1, ?_, htried1, hbound ▸ hfound.inv, hbest⟩
      rw [activateBestChain, hfind]
      exact if_pos hm
    · obtain ⟨s2, bound', hstep, htried, hinv, hsolid, hle, hend⟩ :=
        activateBestChainStep_spec hfound
      by_cases htip : m = s2.tip
      · -- the step arrived
        have hbest : s2.TipBest T := fun b hlb hf => by
          have hle1 := hfound.le (htried.grow.data.linked.mp hlb) (htried.grow.unmarked hf)
          rw [htried.grow.data.sortKey, htried.grow.data.sortKey, ← htip]
          exact hle1
        have hbound : bound' = s2.tip := hinv.bound_eq_tip hsolid (htip ▸ hle)
        refine ⟨1, s2, ?_, htried1.trans htried, hbound ▸ hinv, hbest⟩
        rw [activateBestChain, hfind]
        dsimp only
        rw [if_neg hm, hstep]
        exact if_pos htip
      · -- another round, with less to do
        have hknown : s2.tip ∈ s1.mapBlockIndex :=
          htried.grow.map ▸ hinv.stored.linked_known hinv.anchored.solid.linked
        have hless := hend.progress htried.grow hknown (Ne.symm htip)
        rw [hfound.measure, hμ] at hless
        obtain ⟨n, s', hrun, hended⟩ := ih _ hless hinv hsolid rfl
        refine ⟨n + 1, s', ?_, (htried1.trans htried).trans hended.tried, hended.inv, hended.best⟩
        rw [activateBestChain, hfind]
        dsimp only
        rw [if_neg hm, hstep]
        exact (if_neg htip).trans hrun

end IndexState

end MonetaryUnit
