/-
# MonetaryUnit.Net.InFlight — blocks that were asked for and have not arrived

The tables of `main.cpp` that track block downloads: for every peer a list of requested blocks with
its length, and globally a map from the block hash to the list entry and a count of the requests
made with a validated header.

A `list<QueuedBlock>::iterator` is the address of a list node; a node gets a new address when it is
inserted. Following an address at which there is no node, or the state of a peer that is not known,
is a failure of the model.

The map, the lists and the lengths agree in every run. The global count does not: `FinalizeNode`
drops a peer's list without taking its requests off the count (`finalizeNode_leaves_count`), so it
is right exactly as long as no peer goes away with a validated request open.
-/

import MonetaryUnit.Chain.BlockIndex
import MonetaryUnit.Lib.AssocList
import MonetaryUnit.Net.Address

namespace MonetaryUnit

open Lib List AList Prod Option Nat

/-! ## Tables -/

abbrev NodeId := Int32

structure QueuedBlock where
  hash : Uint256
  pindex : Option CBlockIndex
  nTime : Int64
  nValidatedQueuedBefore : Int
  fValidatedHeaders : Bool
deriving DecidableEq, Repr

/-- The fields of `CNodeState` that the modelled functions read or write. Each node of
`vBlocksInFlight` comes with its address. -/
structure CNodeState where
  address : CService := ⟨⟨0⟩, 0⟩
  fCurrentlyConnected : Bool := false
  nMisbehavior : Int := 0
  name : String := ""
  fSyncStarted : Bool := false
  nStallingSince : Int64 := 0
  vBlocksInFlight : List (Nat × QueuedBlock) := []
  nBlocksInFlight : Int := 0
  fPreferredDownload : Bool := false
deriving DecidableEq, Repr

/-- The state of every node, and who was asked for which block. -/
structure NodeTables where
  mapNodeState : AList (fun _ : NodeId => CNodeState) := ∅
  mapBlocksInFlight : AList (fun _ : Uint256 => NodeId × Nat) := ∅
  nQueuedValidatedHeaders : Int := 0
  nSyncStarted : Int := 0
  nPreferredDownload : Int := 0
  /-- The calls of `AddressCurrentlyConnected`. -/
  addressesConnected : List CService := []
  /-- No list node has this address or a later one. -/
  nextAddress : Nat := 0

/-! ## Operations -/

namespace NodeTables

/-- `mapNodeState.insert` leaves a state that is already there. -/
def initializeNode (nodeid : NodeId) (addrName : String) (addr : CService) (s : NodeTables) :
    NodeTables :=
  let state := (s.mapNodeState.lookup nodeid).getD {}
  let state := { state with name := addrName, address := addr }
  { s with mapNodeState := s.mapNodeState.insert nodeid state }

def eraseHashes (entries : List (Nat × QueuedBlock))
    (inFlight : AList (fun _ : Uint256 => NodeId × Nat)) :
    AList (fun _ : Uint256 => NodeId × Nat) :=
  entries.foldl (fun m entry => m.erase entry.2.hash) inFlight

/-- A peer goes away: its requests leave the map. -/
def dropNode (s : NodeTables) (nodeid : NodeId) (state : CNodeState) : NodeTables := { s with
    nSyncStarted := s.nSyncStarted - state.fSyncStarted.toInt
    addressesConnected :=
      if state.nMisbehavior = 0 ∧ state.fCurrentlyConnected then
        s.addressesConnected ++ [state.address]
      else s.addressesConnected
    mapBlocksInFlight := eraseHashes state.vBlocksInFlight s.mapBlocksInFlight
    nPreferredDownload := s.nPreferredDownload - state.fPreferredDownload.toInt
    mapNodeState := s.mapNodeState.erase nodeid }

/-- Forget a node and its requests. -/
def finalizeNode (nodeid : NodeId) (s : NodeTables) : Option NodeTables := do
  let state ← s.mapNodeState.lookup nodeid
  some (s.dropNode nodeid state)

/-- Take a list node out. -/
def eraseNode (it : Nat) (l : List (Nat × QueuedBlock)) : List (Nat × QueuedBlock) :=
  l.eraseP fun node => node.1 == it

/-- The request at `it` is answered. -/
def dequeue (s : NodeTables) (nodeid : NodeId) (state : CNodeState) (it : Nat)
    (entry : QueuedBlock) (hash : Uint256) : NodeTables :=
  let state' : CNodeState := { state with
      vBlocksInFlight := eraseNode it state.vBlocksInFlight
      nBlocksInFlight := state.nBlocksInFlight - 1
      nStallingSince := 0 }
  { s with
    nQueuedValidatedHeaders := s.nQueuedValidatedHeaders - entry.fValidatedHeaders.toInt
    mapNodeState := s.mapNodeState.insert nodeid state'
    mapBlocksInFlight := s.mapBlocksInFlight.erase hash }

/-- Clear the request for a block, if there is one. -/
def markBlockAsReceived (hash : Uint256) (s : NodeTables) : Option NodeTables :=
  match s.mapBlocksInFlight.lookup hash with
  | none => some s
  | some (nodeid, it) => do
    let state ← s.mapNodeState.lookup nodeid
    let entry ← state.vBlocksInFlight.lookup it
    some (s.dequeue nodeid state it entry hash)

/-- A new request is appended to the list of a peer. -/
def enqueue (s : NodeTables) (nodeid : NodeId) (state : CNodeState) (newentry : QueuedBlock) :
    NodeTables :=
  let state' : CNodeState := { state with
      vBlocksInFlight := state.vBlocksInFlight ++ [(s.nextAddress, newentry)]
      nBlocksInFlight := state.nBlocksInFlight + 1 }
  { s with
    nQueuedValidatedHeaders := s.nQueuedValidatedHeaders + newentry.fValidatedHeaders.toInt
    mapNodeState := s.mapNodeState.insert nodeid state'
    mapBlocksInFlight := s.mapBlocksInFlight.insert newentry.hash (nodeid, s.nextAddress)
    nextAddress := s.nextAddress + 1 }

/-- The peer has to be known. Its state is read again after `MarkBlockAsReceived`, which may
have changed it: the source holds a reference to it. -/
def markBlockAsInFlight (nodeid : NodeId) (hash : Uint256) (pindex : Option CBlockIndex)
    (nTimeMicros : Int64) (s : NodeTables) : Option NodeTables := do
  let _ ← s.mapNodeState.lookup nodeid
  let s ← s.markBlockAsReceived hash
  let state ← s.mapNodeState.lookup nodeid
  let newentry : QueuedBlock :=
    { hash := hash, pindex := pindex, nTime := nTimeMicros,
      nValidatedQueuedBefore := s.nQueuedValidatedHeaders, fValidatedHeaders := pindex.isSome }
  some (s.enqueue nodeid state newentry)

end NodeTables

inductive NodeOp
  | initializeNode (nodeid : NodeId) (addrName : String) (addr : CService)
  | finalizeNode (nodeid : NodeId)
  | markBlockAsReceived (hash : Uint256)
  | markBlockAsInFlight (nodeid : NodeId) (hash : Uint256) (pindex : Option CBlockIndex)
      (nTimeMicros : Int64)

namespace NodeTables

def step (s : NodeTables) : NodeOp → Option NodeTables
  | .initializeNode nodeid addrName addr => some (s.initializeNode nodeid addrName addr)
  | .finalizeNode nodeid => s.finalizeNode nodeid
  | .markBlockAsReceived hash => s.markBlockAsReceived hash
  | .markBlockAsInFlight nodeid hash pindex nTimeMicros =>
    s.markBlockAsInFlight nodeid hash pindex nTimeMicros

def run (ops : List NodeOp) (s : NodeTables) : Option NodeTables := ops.foldlM step s

/-! ## Agreement of the map and the lists -/

/-- The entry at this address in the list of this peer. -/
def Listed (s : NodeTables) (nodeid : NodeId) (it : Nat) (entry : QueuedBlock) : Prop :=
  ∃ state, s.mapNodeState.lookup nodeid = some state ∧ (it, entry) ∈ state.vBlocksInFlight

/-- The map of hashes is the map of the lists, and the lengths are right. -/
structure Tracked (s : NodeTables) : Prop where
  inFlight : ∀ {hash nodeid it}, s.mapBlocksInFlight.lookup hash = some (nodeid, it) ↔
    ∃ entry, s.Listed nodeid it entry ∧ entry.hash = hash
  length : ∀ {nodeid state}, s.mapNodeState.lookup nodeid = some state →
    state.nBlocksInFlight = state.vBlocksInFlight.length
  nodup : ∀ {nodeid state}, s.mapNodeState.lookup nodeid = some state →
    (state.vBlocksInFlight.map Prod.fst).Nodup
  old : ∀ {nodeid it entry}, s.Listed nodeid it entry → it < s.nextAddress

/-- The requests of one peer that were made with a validated header. -/
def validated (state : CNodeState) : Nat :=
  state.vBlocksInFlight.countP fun node => node.2.fValidatedHeaders

/-- The requests in flight that were made with a validated header, over all peers. -/
def validatedInFlight (s : NodeTables) : Int :=
  mapTotal (fun _ state => (validated state : Int)) s.mapNodeState

/-- What the global count is off by. -/
def drift (s : NodeTables) : Int := s.nQueuedValidatedHeaders - s.validatedInFlight

section Tracked

variable {s s' : NodeTables}

variable {n nodeid : NodeId} {it : Nat} {e : QueuedBlock} {state : CNodeState}
  {l : List (Nat × QueuedBlock)} {e' : QueuedBlock} {it' : Nat}

/-- No hash is in flight at two peers, or twice at one. -/
theorem Tracked.unique (h : s.Tracked) {n' : NodeId} (hl : s.Listed n it e)
    (hl' : s.Listed n' it' e') (heq : e.hash = e'.hash) : n = n' ∧ it = it' := by
  have hm := h.inFlight.mpr ⟨e, hl, rfl⟩
  rw [heq, h.inFlight.mpr ⟨e', hl', rfl⟩, some.injEq, Prod.mk.injEq] at hm
  exact ⟨hm.1.symm, hm.2.symm⟩

/-- An address is that of one entry. -/
theorem Tracked.entry_eq (h : s.Tracked) (hl : s.Listed n it e) (hl' : s.Listed n it e') :
    e = e' := by
  obtain ⟨state, hs, he⟩ := hl
  obtain ⟨state', hs', he'⟩ := hl'
  obtain rfl := some.inj (hs.symm.trans hs')
  exact (Prod.mk.inj (inj_on_of_nodup_map (h.nodup hs) he he' rfl)).2

theorem tracked_empty : Tracked {} where
  inFlight := by simp [Listed]
  length := by simp
  nodup := by simp
  old := by simp [Listed]

theorem mem_of_lookup (h : l.lookup it = some e) : (it, e) ∈ l := by
  obtain ⟨l1, l2, rfl, -⟩ := lookup_eq_some_iff.mp h
  exact mem_append_right l1 mem_cons_self

theorem lookup_of_mem (hnd : (l.map Prod.fst).Nodup) (h : (it, e) ∈ l) : l.lookup it = some e := by
  have hsome : (l.lookup it).isSome := by
    rw [lookup_isSome_iff]
    exact ⟨(it, e), h, by simp⟩
  obtain ⟨e', he'⟩ := isSome_iff_exists.mp hsome
  have heq := inj_on_of_nodup_map hnd h (mem_of_lookup he') rfl
  rw [he', (Prod.mk.inj heq).2]

/-- A list without the node at one address. -/
theorem eraseNode_perm (hnd : (l.map fst).Nodup) (h : (it, e) ∈ l) :
    l.Perm ((it, e) :: eraseNode it l) := by
  obtain ⟨node, l1, l2, hl1, hnode, hl, herase⟩ :=
    exists_of_eraseP (p := fun node : Nat × QueuedBlock => node.1 == it) h (by simp)
  have heq : node = (it, e) := by
    apply inj_on_of_nodup_map hnd _ h
    · simpa using hnode
    · rw [hl]
      simp
  subst heq
  show l.Perm (_ :: l.eraseP _)
  rw [herase]
  nth_rewrite 1 [hl]
  exact perm_middle

/-! ## One step -/

/-- After the state of one peer is set, its list is the new one and the others' are as before. -/
theorem listed_iff_of_insert (hmap : s'.mapNodeState = s.mapNodeState.insert nodeid state) :
    s'.Listed n it e ↔
      (n = nodeid ∧ (it, e) ∈ state.vBlocksInFlight) ∨ (n ≠ nodeid ∧ s.Listed n it e) := by
  unfold Listed
  rw [hmap]
  by_cases hn : n = nodeid
  · subst hn
    simp [lookup_insert]
  · simp [lookup_insert_ne hn, hn]

/-- A step that sets the state of one peer: the map must follow its list. -/
theorem Tracked.of_insert (h : s.Tracked)
    (hmap : s'.mapNodeState = s.mapNodeState.insert nodeid state)
    (hin : ∀ {hash n it}, s'.mapBlocksInFlight.lookup hash = some (n, it) ↔
      ∃ e, s'.Listed n it e ∧ e.hash = hash)
    (hlen : state.nBlocksInFlight = state.vBlocksInFlight.length)
    (hnd : (state.vBlocksInFlight.map fst).Nodup) (hnext : s.nextAddress ≤ s'.nextAddress)
    (hold : ∀ {it e}, (it, e) ∈ state.vBlocksInFlight → it < s'.nextAddress) : s'.Tracked := by
  refine ⟨hin, ?_, ?_, ?_⟩
  · intro n st hst
    rcases lookup_insert_eq_some.mp (hmap ▸ hst) with ⟨rfl, rfl⟩ | ⟨-, hst⟩
    · exact hlen
    · exact h.length hst
  · intro n st hst
    rcases lookup_insert_eq_some.mp (hmap ▸ hst) with ⟨rfl, rfl⟩ | ⟨-, hst⟩
    · exact hnd
    · exact h.nodup hst
  · intro n it e hl
    rcases (listed_iff_of_insert hmap).mp hl with ⟨-, hmem⟩ | ⟨-, hl⟩
    · exact hold hmem
    · exact (h.old hl).trans_le hnext

/-- A step that only changes the state of one peer, and neither its requests nor the global
tables. -/
theorem tracked_of_sameRequests (h : s.Tracked) (nodeid : NodeId)
    (hmap : s'.mapNodeState = s.mapNodeState.insert nodeid state)
    (hin : s'.mapBlocksInFlight = s.mapBlocksInFlight) (hnext : s'.nextAddress = s.nextAddress)
    (hlist : state.vBlocksInFlight = ((s.mapNodeState.lookup nodeid).getD {}).vBlocksInFlight)
    (hlen : state.nBlocksInFlight = state.vBlocksInFlight.length) : s'.Tracked := by
  have hold : ∀ {it e}, (it, e) ∈ state.vBlocksInFlight ↔ s.Listed nodeid it e := by
    intro it e
    rw [hlist, Listed]
    rcases s.mapNodeState.lookup nodeid with _ | st <;> simp
  refine h.of_insert hmap ?_ hlen ?_ hnext.ge fun hmem => hnext ▸ h.old (hold.mp hmem)
  · intro hash n it
    have hlisted : ∀ e, s'.Listed n it e ↔ s.Listed n it e := by
      intro e
      rw [listed_iff_of_insert hmap, hold]
      by_cases hn : n = nodeid
      · subst hn
        simp
      · simp [hn]
    simp only [hlisted, hin]
    exact h.inFlight
  · rw [hlist]
    rcases hlook : s.mapNodeState.lookup nodeid with _ | st
    · simp
    · exact h.nodup hlook

theorem initializeNode_spec (h : s.Tracked) (nodeid : NodeId) (addrName : String)
    (addr : CService) : (s.initializeNode nodeid addrName addr).Tracked ∧
      (s.initializeNode nodeid addrName addr).drift = s.drift := by
  constructor
  · refine tracked_of_sameRequests h nodeid rfl rfl rfl rfl ?_
    rcases hlook : s.mapNodeState.lookup nodeid with _ | st
    · rfl
    · show st.nBlocksInFlight = st.vBlocksInFlight.length
      exact h.length hlook
  · unfold drift validatedInFlight initializeNode
    rcases hlook : s.mapNodeState.lookup nodeid with _ | st
    · rw [mapTotal_insert_new hlook]
      simp [validated]
    · rw [mapTotal_erase hlook]
      rfl

theorem lookup_eraseHashes {m : AList (fun _ : Uint256 => NodeId × Nat)} {hash : Uint256}
    {at_ : NodeId × Nat} : (eraseHashes l m).lookup hash = some at_ ↔
      (∀ node ∈ l, hash ≠ node.2.hash) ∧ m.lookup hash = some at_ := by
  induction l generalizing m with
  | nil => simp [eraseHashes]
  | cons node l ih =>
    show (eraseHashes l (m.erase node.2.hash)).lookup hash = _ ↔ _
    rw [ih, lookup_erase_eq_some, forall_mem_cons]
    tauto

theorem tracked_dropNode (h : s.Tracked) (hs : s.mapNodeState.lookup nodeid = some state) :
    (s.dropNode nodeid state).Tracked := by
  have hlisted : ∀ {n it e}, (s.dropNode nodeid state).Listed n it e ↔
      n ≠ nodeid ∧ s.Listed n it e := by
    simp [Listed, dropNode, lookup_erase_eq_some, and_assoc]
  refine ⟨?_, fun hst => h.length (lookup_erase_eq_some.mp hst).2,
    fun hst => h.nodup (lookup_erase_eq_some.mp hst).2, fun hl => h.old (hlisted.mp hl).2⟩
  intro hash n it
  show (eraseHashes state.vBlocksInFlight s.mapBlocksInFlight).lookup hash = _ ↔ _
  simp only [hlisted, lookup_eraseHashes, h.inFlight]
  constructor
  · rintro ⟨hnot, e, ⟨st, hst, he⟩, rfl⟩
    refine ⟨e, ⟨?_, st, hst, he⟩, rfl⟩
    rintro rfl
    obtain rfl := some.inj (hs.symm.trans hst)
    exact hnot _ he rfl
  · rintro ⟨e, ⟨hn, hl⟩, rfl⟩
    -- else the hash would be in flight at two peers
    exact ⟨fun node hnode heq => hn (h.unique hl ⟨state, hs, hnode⟩ heq).1, e, hl, rfl⟩

/-- The requests of a peer that goes away stay on the global count. -/
theorem drift_dropNode (hs : s.mapNodeState.lookup nodeid = some state) :
    (s.dropNode nodeid state).drift = s.drift + validated state := by
  show s.nQueuedValidatedHeaders - mapTotal _ (s.mapNodeState.erase nodeid) = _
  rw [drift, validatedInFlight, mapTotal_erase hs]
  omega

section Dequeue

theorem mem_eraseNode (hnd : (state.vBlocksInFlight.map fst).Nodup)
    (he : (it, e) ∈ state.vBlocksInFlight) :
    (it', e') ∈ eraseNode it state.vBlocksInFlight ↔
      (it', e') ∈ state.vBlocksInFlight ∧ it' ≠ it := by
  have hperm := eraseNode_perm hnd he
  have hnd' := (hperm.map fst).nodup_iff.mp hnd
  rw [map_cons, nodup_cons] at hnd'
  rw [hperm.mem_iff, mem_cons]
  constructor
  · intro hmem
    refine ⟨.inr hmem, ?_⟩
    rintro rfl
    exact hnd'.1 (mem_map.mpr ⟨_, hmem, rfl⟩)
  · rintro ⟨⟨rfl, -⟩ | hmem, hne⟩
    · exact absurd rfl hne
    · exact hmem

section

variable (h : s.Tracked) (hs : s.mapNodeState.lookup nodeid = some state)
  (he : (it, e) ∈ state.vBlocksInFlight)
include h hs he

theorem tracked_dequeue : (s.dequeue nodeid state it e e.hash).Tracked := by
  have hnd := h.nodup hs
  have hperm := eraseNode_perm hnd he
  have hmap : (s.dequeue nodeid state it e e.hash).mapNodeState = s.mapNodeState.insert nodeid _ :=
    rfl
  have hlisted : ∀ {n it' e'}, (s.dequeue nodeid state it e e.hash).Listed n it' e' ↔
      s.Listed n it' e' ∧ ¬(n = nodeid ∧ it' = it) := by
    intro n it' e'
    rw [listed_iff_of_insert hmap]
    by_cases hn : n = nodeid
    · subst hn
      simp [Listed, hs, mem_eraseNode hnd he]
    · simp [hn]
  refine h.of_insert hmap ?_ ?_ ((eraseP_sublist.map fst).nodup hnd) le_rfl
    fun hmem => h.old ⟨state, hs, ((mem_eraseNode hnd he).mp hmem).1⟩
  · intro hash n it'
    show (s.mapBlocksInFlight.erase e.hash).lookup hash = _ ↔ _
    simp only [hlisted, lookup_erase_eq_some, h.inFlight]
    constructor
    · rintro ⟨hne, e', hl, rfl⟩
      refine ⟨e', ⟨hl, ?_⟩, rfl⟩
      rintro ⟨rfl, rfl⟩
      exact hne (by rw [h.entry_eq hl ⟨state, hs, he⟩])
    · rintro ⟨e', ⟨hl, hother⟩, rfl⟩
      exact ⟨fun heq => hother (h.unique hl ⟨state, hs, he⟩ heq), e', hl, rfl⟩
  · have hlen := hperm.length_eq
    have hold := h.length hs
    show state.nBlocksInFlight - 1 = (eraseNode it state.vBlocksInFlight).length
    rw [length_cons] at hlen
    omega

theorem drift_dequeue (hash : Uint256) : (s.dequeue nodeid state it e hash).drift = s.drift := by
  have hcount := (eraseNode_perm (h.nodup hs) he).countP_eq fun node => node.2.fValidatedHeaders
  rw [countP_cons] at hcount
  show s.nQueuedValidatedHeaders - e.fValidatedHeaders.toInt -
    mapTotal _ (s.mapNodeState.insert nodeid _) = _
  rw [drift, validatedInFlight, mapTotal_insert, mapTotal_erase hs]
  simp only [validated, hcount]
  cases e.fValidatedHeaders
  · simp
  · simp
    omega

end

end Dequeue

/-- A request that is answered leaves its list, the map and the count. -/
theorem markBlockAsReceived_spec (h : s.Tracked) (hash : Uint256) :
    ∃ s', s.markBlockAsReceived hash = some s' ∧ s'.Tracked ∧ s'.drift = s.drift ∧
      s'.mapBlocksInFlight.lookup hash = none ∧
      ∀ n, (s'.mapNodeState.lookup n).isSome = (s.mapNodeState.lookup n).isSome := by
  rcases hlook : s.mapBlocksInFlight.lookup hash with _ | ⟨nodeid, it⟩
  · exact ⟨s, by rw [markBlockAsReceived, hlook], h, rfl, hlook, fun _ => rfl⟩
  obtain ⟨e, ⟨state, hs, he⟩, rfl⟩ := h.inFlight.mp hlook
  refine ⟨s.dequeue nodeid state it e e.hash, ?_, tracked_dequeue h hs he, drift_dequeue h hs he _,
    lookup_erase .., ?_⟩
  · rw [markBlockAsReceived, hlook]
    simp only [hs, bind_eq_bind, bind_some, lookup_of_mem (h.nodup hs) he]
  · intro n
    show ((s.mapNodeState.insert nodeid _).lookup n).isSome = _
    by_cases hn : n = nodeid
    · rw [hn, lookup_insert, hs]
      rfl
    · rw [lookup_insert_ne hn]

theorem tracked_enqueue (h : s.Tracked) (hs : s.mapNodeState.lookup nodeid = some state)
    {newentry : QueuedBlock} (hfree : s.mapBlocksInFlight.lookup newentry.hash = none) :
    (s.enqueue nodeid state newentry).Tracked := by
  have hmap : (s.enqueue nodeid state newentry).mapNodeState = s.mapNodeState.insert nodeid _ := rfl
  have hlisted : ∀ {n it e}, (s.enqueue nodeid state newentry).Listed n it e ↔
      s.Listed n it e ∨ (n = nodeid ∧ it = s.nextAddress ∧ e = newentry) := by
    intro n it e
    rw [listed_iff_of_insert hmap]
    by_cases hn : n = nodeid
    · subst hn
      simp [Listed, hs]
    · simp [hn]
  refine h.of_insert hmap ?_ ?_ ?_ (le_succ _) ?_
  · intro hash n it
    show (s.mapBlocksInFlight.insert newentry.hash (nodeid, s.nextAddress)).lookup hash = _ ↔ _
    simp only [hlisted, lookup_insert_eq_some, h.inFlight, Prod.mk.injEq]
    constructor
    · rintro (⟨rfl, rfl, rfl⟩ | ⟨-, e, hl, rfl⟩)
      · exact ⟨newentry, .inr ⟨rfl, rfl, rfl⟩, rfl⟩
      · exact ⟨e, .inl hl, rfl⟩
    · rintro ⟨e, hl | ⟨rfl, rfl, rfl⟩, rfl⟩
      · refine .inr ⟨fun heq => ?_, e, hl, rfl⟩
        rw [← heq, h.inFlight.mpr ⟨e, hl, rfl⟩] at hfree
        cases hfree
      · exact .inl ⟨rfl, rfl, rfl⟩
  · have hold := h.length hs
    rw [length_append, hold]
    rfl
  · rw [map_append, nodup_append_comm]
    refine nodup_cons.mpr ⟨fun hmem => ?_, h.nodup hs⟩
    obtain ⟨⟨it, e⟩, hmem, heq⟩ := mem_map.mp hmem
    exact (h.old ⟨state, hs, hmem⟩).ne heq
  · intro it e hmem
    rcases mem_append.mp hmem with hmem | hmem
    · exact lt_succ_of_lt (h.old ⟨state, hs, hmem⟩)
    · cases mem_singleton.mp hmem
      exact lt_succ_self _

theorem drift_enqueue (hs : s.mapNodeState.lookup nodeid = some state) (newentry : QueuedBlock) :
    (s.enqueue nodeid state newentry).drift = s.drift := by
  show s.nQueuedValidatedHeaders + newentry.fValidatedHeaders.toInt -
    mapTotal _ (s.mapNodeState.insert nodeid _) = _
  rw [drift, validatedInFlight, mapTotal_insert, mapTotal_erase hs]
  simp only [validated, countP_append, countP_singleton]
  cases newentry.fValidatedHeaders
  · simp
  · simp
    omega

theorem markBlockAsInFlight_spec (h : s.Tracked) (hs : (s.mapNodeState.lookup nodeid).isSome)
    (hash : Uint256) (pindex : Option CBlockIndex) (nTimeMicros : Int64) :
    ∃ s', s.markBlockAsInFlight nodeid hash pindex nTimeMicros = some s' ∧
      s'.Tracked ∧ s'.drift = s.drift := by
  obtain ⟨state, hstate⟩ := isSome_iff_exists.mp hs
  obtain ⟨s1, hrun, h1, hdrift, hfree, hknown⟩ := markBlockAsReceived_spec h hash
  have hs1 := hknown nodeid
  rw [hs] at hs1
  obtain ⟨state1, hstate1⟩ := isSome_iff_exists.mp hs1
  refine ⟨s1.enqueue nodeid state1 ⟨hash, pindex, nTimeMicros, s1.nQueuedValidatedHeaders,
    pindex.isSome⟩, ?_, tracked_enqueue h1 hstate1 hfree, ?_⟩
  · rw [markBlockAsInFlight, hstate]
    simp only [bind_eq_bind, bind_some, hrun, hstate1]
  · rw [drift_enqueue hstate1, hdrift]

end Tracked

/-! ## Runs -/

/-- The operation finds the peer it is about. -/
def Permitted (s : NodeTables) : NodeOp → Prop
  | .finalizeNode nodeid => (s.mapNodeState.lookup nodeid).isSome = true
  | .markBlockAsInFlight nodeid _ _ _ => (s.mapNodeState.lookup nodeid).isSome = true
  | _ => True

/-- What an operation adds to the drift. -/
def lost (s : NodeTables) : NodeOp → Nat
  | .finalizeNode nodeid => ((s.mapNodeState.lookup nodeid).map validated).getD 0
  | _ => 0

variable {s s' : NodeTables} {op : NodeOp}

/-- An operation that finds its peer succeeds; map, lists and lengths agree
again; and the count drifts by the validated requests of a peer that goes away. -/
theorem step_spec (h : s.Tracked) (hop : s.Permitted op) :
    ∃ s', s.step op = some s' ∧ s'.Tracked ∧ s'.drift = s.drift + s.lost op := by
  cases op with
  | initializeNode nodeid addrName addr =>
    obtain ⟨htracked, hdrift⟩ := initializeNode_spec h nodeid addrName addr
    exact ⟨_, rfl, htracked, by simpa [lost] using hdrift⟩
  | finalizeNode nodeid =>
    obtain ⟨state, hs⟩ := isSome_iff_exists.mp hop
    refine ⟨s.dropNode nodeid state, ?_, tracked_dropNode h hs, ?_⟩
    · rw [step, finalizeNode, hs]
      rfl
    · rw [drift_dropNode hs, lost, hs]
      rfl
  | markBlockAsReceived hash =>
    obtain ⟨s', hrun, htracked, hdrift, -⟩ := markBlockAsReceived_spec h hash
    exact ⟨s', hrun, htracked, by simpa [lost] using hdrift⟩
  | markBlockAsInFlight nodeid hash pindex nTimeMicros =>
    obtain ⟨s', hrun, htracked, hdrift⟩ := markBlockAsInFlight_spec h hop hash pindex nTimeMicros
    exact ⟨s', hrun, htracked, by simpa [lost] using hdrift⟩

theorem permitted_of_step (h : s.step op = some s') : s.Permitted op := by
  cases op with
  | initializeNode nodeid addrName addr => trivial
  | markBlockAsReceived hash => trivial
  | finalizeNode nodeid =>
    obtain ⟨state, hs, -⟩ := bind_eq_some_iff.mp h
    exact isSome_iff_exists.mpr ⟨state, hs⟩
  | markBlockAsInFlight nodeid hash pindex nTimeMicros =>
    obtain ⟨state, hs, -⟩ := bind_eq_some_iff.mp h
    exact isSome_iff_exists.mpr ⟨state, hs⟩

theorem Tracked.of_step (h : s.Tracked) (hstep : s.step op = some s') :
    s'.Tracked ∧ s'.drift = s.drift + s.lost op := by
  obtain ⟨s2, hstep', hspec⟩ := step_spec h (permitted_of_step hstep)
  rw [hstep, some.injEq] at hstep'
  exact hstep' ▸ hspec

theorem run_append {pre post : List NodeOp} :
    run (pre ++ post) s = some s' ↔ ∃ s1, run pre s = some s1 ∧ run post s1 = some s' := by
  rw [run, foldlM_append]
  exact bind_eq_some_iff

theorem run_concat {ops : List NodeOp} :
    run (ops ++ [op]) s = some s' ↔ ∃ s1, run ops s = some s1 ∧ s1.step op = some s' := by
  rw [run_append]
  simp [run]

/-- The count is that of the requests in flight, and zero when there are none. -/
structure HeadersCounted (s : NodeTables) : Prop where
  counted : s.nQueuedValidatedHeaders = s.validatedInFlight
  idle : s.mapBlocksInFlight = ∅ → s.nQueuedValidatedHeaders = 0

theorem Tracked.headersCounted_iff (h : s.Tracked) : s.HeadersCounted ↔ s.drift = 0 := by
  constructor
  · intro hc
    rw [drift, hc.counted, sub_self]
  intro hd
  have hcount : s.nQueuedValidatedHeaders = s.validatedInFlight := sub_eq_zero.mp hd
  refine ⟨hcount, fun hempty => ?_⟩
  rw [hcount, validatedInFlight]
  -- a list with an entry would put its hash into the map
  have hnil : ∀ {n state}, s.mapNodeState.lookup n = some state → validated state = 0 := by
    intro n state hs
    rcases hl : state.vBlocksInFlight with _ | ⟨⟨it, e⟩, rest⟩
    · rw [validated, hl]
      rfl
    · have hlook := h.inFlight.mpr ⟨e, ⟨state, hs, by rw [hl]; exact mem_cons_self⟩, rfl⟩
      rw [hempty] at hlook
      cases hlook
  rw [mapTotal_congr (g := fun _ _ => 0) fun hs => by rw [hnil hs]; rfl]
  simp [mapTotal]

/-- **`inFlight_consistent_iff`** — in every run from empty tables, the map, the lists and their
lengths agree, no hash is in flight twice, and every operation that finds its peer succeeds.
The count of validated requests is right in every state of the run exactly when every peer
that goes away during the run has no validated request in flight. -/
theorem inFlight_consistent_iff (ops : List NodeOp) (s : NodeTables) (hrun : run ops {} = some s) :
    s.Tracked ∧ (∀ {n n' it it' e e'}, s.Listed n it e → s.Listed n' it' e' → e.hash = e'.hash →
        n = n' ∧ it = it') ∧
      (∀ op, s.Permitted op → (s.step op).isSome = true) ∧
      ((∀ pre s', pre <+: ops → run pre {} = some s' → s'.HeadersCounted) ↔
        ∀ pre nodeid s' state, pre ++ [.finalizeNode nodeid] <+: ops → run pre {} = some s' →
          s'.mapNodeState.lookup nodeid = some state →
          ∀ node ∈ state.vBlocksInFlight, node.2.fValidatedHeaders = false) := by
  have htracked : ∀ pre s', run pre {} = some s' → s'.Tracked := by
    intro pre
    induction pre using reverseRecOn with
    | nil =>
      rintro s' h
      cases h
      exact tracked_empty
    | append_singleton pre op ih =>
      intro s' h
      obtain ⟨s1, hpre, hstep⟩ := run_concat.mp h
      exact ((ih s1 hpre).of_step hstep).1
  have ht := htracked ops s hrun
  refine ⟨ht, ht.unique, ?_, ?_, ?_⟩
  · intro op hop
    obtain ⟨s', hstep, -⟩ := step_spec ht hop
    rw [hstep]
    rfl
  · intro hcounted pre nodeid s' state hpre hrun' hstate
    obtain ⟨post, hpost⟩ := hpre
    have hops : run ((pre ++ [.finalizeNode nodeid]) ++ post) {} = some s := by
      rw [hpost]
      exact hrun
    obtain ⟨s1, hrun1, -⟩ := run_append.mp hops
    obtain ⟨s0, hrun0, hstep⟩ := run_concat.mp hrun1
    rw [hrun', some.injEq] at hrun0
    subst hrun0
    obtain ⟨ht2, hdrift⟩ := (htracked pre s' hrun').of_step hstep
    -- no drift before the step and none after it
    have hbefore := (htracked pre s' hrun').headersCounted_iff.mp
      (hcounted pre s' ⟨[.finalizeNode nodeid] ++ post, by rw [← hpost, append_assoc]⟩ hrun')
    have hafter := ht2.headersCounted_iff.mp (hcounted _ s1 ⟨post, hpost⟩ hrun1)
    have hzero : validated state = 0 := by
      rw [hbefore, hafter, lost, hstate] at hdrift
      simpa using hdrift.symm
    simpa [validated, countP_eq_zero] using hzero
  · intro hclean pre
    induction pre using reverseRecOn with
    | nil =>
      rintro s' - h
      cases h
      exact tracked_empty.headersCounted_iff.mpr rfl
    | append_singleton pre op ih =>
      intro s' hpre h
      obtain ⟨s1, hrun1, hstep⟩ := run_concat.mp h
      have hpre1 : pre <+: ops := (prefix_append pre [op]).trans hpre
      have hdrift1 := (htracked pre s1 hrun1).headersCounted_iff.mp (ih s1 hpre1 hrun1)
      have hdrift := ((htracked pre s1 hrun1).of_step hstep).2
      rw [(htracked _ s' h).headersCounted_iff, hdrift, hdrift1]
      have hlost : s1.lost op = 0 := by
        cases op with
        | finalizeNode nodeid =>
          rcases hs : s1.mapNodeState.lookup nodeid with _ | state
          · rw [lost, hs]
            rfl
          · have hnone := hclean pre nodeid s1 state hpre hrun1 hs
            rw [lost, hs]
            simpa [validated, countP_eq_zero] using hnone
        | _ => rfl
      rw [hlost]
      rfl

/-! ## A peer that goes away -/

def someIndex : CBlockIndex := .ofHeader ⟨2, 0, 0, 0, 0, 0⟩ 7 1

/-- A block is asked for by its validated header, and the peer disconnects. -/
def disconnectingRun : List NodeOp :=
  [.initializeNode 0 "peer" ⟨⟨1⟩, 29948⟩, .markBlockAsInFlight 0 7 (some someIndex) 5,
    .finalizeNode 0]

theorem finalizeNode_leaves_count :
    ∃ s, run disconnectingRun {} = some s ∧ s.mapBlocksInFlight = ∅ ∧
      s.nQueuedValidatedHeaders = 1 ∧ s.validatedInFlight = 0 :=
  ⟨_, rfl, rfl, rfl, rfl⟩

/-- The block arrives before the peer disconnects. -/
def orderlyRun : List NodeOp :=
  [.initializeNode 0 "peer" ⟨⟨1⟩, 29948⟩, .markBlockAsInFlight 0 7 (some someIndex) 5,
    .markBlockAsReceived 7, .finalizeNode 0]

theorem inFlight_consistent_iff_orderlyRun : ∃ s, run orderlyRun {} = some s ∧ s.Tracked ∧
      ∀ pre s', pre <+: orderlyRun → run pre {} = some s' → s'.HeadersCounted := by
  refine ⟨_, rfl, (inFlight_consistent_iff orderlyRun _ rfl).1,
    (inFlight_consistent_iff orderlyRun _ rfl).2.2.2.mpr ?_⟩
  intro pre nodeid s' state hpre hrun hstate
  obtain ⟨post, hpost⟩ := hpre
  -- the only peer that goes away does so at the end
  rcases pre with _ | ⟨a, _ | ⟨b, _ | ⟨c, _ | ⟨d, pre⟩⟩⟩⟩
  · simp [orderlyRun] at hpost
  · simp [orderlyRun] at hpost
  · simp [orderlyRun] at hpost
  · obtain ⟨rfl, rfl, rfl, ⟨⟩, -⟩ := hpost
    cases hrun
    cases hstate
    simp [eraseNode]
  · simp [orderlyRun] at hpost

end NodeTables

end MonetaryUnit
