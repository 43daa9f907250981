/-
# MonetaryUnit.Net.Alerts — the final alert, and who can take it back

`ProcessAlert` keeps the alerts in effect. The greatest id is reserved for an alert that says the
key is compromised; an alert with that id must have a fixed form, and cancels all others. Only
alerts with that id are held to it: an ordinary alert may name the reserved id among those it
cancels, and cancelling comes before the alert itself is checked against those that are left
(`finalAlert_displaced`). Without such an alert the final one stays (`finalAlert_final`).

The entries of `mapAlerts` are a list; no step depends on their order. Times are only compared.
Notifications are not modelled.
-/

import MonetaryUnit.Primitives.Transaction

namespace MonetaryUnit

open List Relation

def maxInt : Int32 := Int32.maxValue

/-- The fields that `ProcessAlert` reads, and the hash of the signed message `vchMsg`. -/
structure CAlert where
  hash : Uint256
  nExpiration : Int
  nID : Int32
  nCancel : Int32
  setCancel : Finset Int32 := ∅
  nMinVer : Int32 := 0
  nMaxVer : Int32 := maxInt
  setSubVer : Finset String := ∅
  nPriority : Int32 := maxInt
  strStatusBar : String

/-- `CheckSignature` fills in the fields from the signed message, which stays as it is. -/
structure AlertEnv where
  checkSignature : CAlert → Option CAlert

namespace CAlert

def isInEffect (now : Int) (a : CAlert) : Bool := now < a.nExpiration

def cancels (now : Int) (a alert : CAlert) : Bool :=
  a.isInEffect now && (decide (alert.nID ≤ a.nCancel) || decide (alert.nID ∈ a.setCancel))

def urgentText : String := "URGENT: Alert key compromised, upgrade required"

/-- What an alert with the reserved id has to be. -/
def isUrgent (a : CAlert) : Bool :=
  a.nExpiration == maxInt.toInt && a.nCancel == maxInt - 1 && a.nMinVer == 0 &&
    a.nMaxVer == maxInt && decide (a.setSubVer = ∅) && a.nPriority == maxInt &&
    a.strStatusBar == urgentText

end CAlert

abbrev AlertMap := List (Uint256 × CAlert)

/-- The loop that cancels and expires. -/
def cancelPrevious (now : Int) (a : CAlert) (mapAlerts : AlertMap) : AlertMap :=
  mapAlerts.filter fun item => !a.cancels now item.2 && item.2.isInEffect now

/-- `map::insert` leaves an entry that is there. -/
def insertAlert (hash : Uint256) (a : CAlert) (mapAlerts : AlertMap) : AlertMap :=
  if mapAlerts.any (·.1 = hash) then mapAlerts else (hash, a) :: mapAlerts

/-- Check, cancel others, and keep the alert unless it is cancelled. -/
def processAlert (E : AlertEnv) (now : Int) (alert : CAlert) (mapAlerts : AlertMap) :
    Bool × AlertMap :=
  match E.checkSignature alert with
  | none => (false, mapAlerts)
  | some a =>
    if a.isInEffect now = false then (false, mapAlerts)
    else if a.nID = maxInt ∧ a.isUrgent = false then (false, mapAlerts)
    else if (cancelPrevious now a mapAlerts).any fun item => item.2.cancels now a then
      (false, cancelPrevious now a mapAlerts)
    else (true, insertAlert alert.hash a (cancelPrevious now a mapAlerts))

/-! ## What stays -/

/-- Entries with the reserved id have the fixed form. -/
def Guarded (m : AlertMap) : Prop := ∀ item ∈ m, item.2.nID = maxInt → item.2.isUrgent = true

/-- The final alert is there, and nothing else. -/
def Final (m : AlertMap) : Prop := m ≠ [] ∧ ∀ item ∈ m, item.2.nID = maxInt

/-- An ordinary alert leaves the reserved id alone. -/
def CAlert.Spares (a : CAlert) : Prop := a.nID ≠ maxInt → a.nCancel ≠ maxInt ∧ maxInt ∉ a.setCancel

section Steps

variable {E : AlertEnv} {now : Int} {alert a b : CAlert} {m : AlertMap} {item : Uint256 × CAlert}
  {hash : Uint256}

theorem toInt_maxInt : maxInt.toInt = 2 ^ 31 - 1 := by decide

/-- The final alert is in effect and cancels every other. -/
theorem CAlert.cancels_of_urgent (hnow : now < maxInt.toInt) (h : a.isUrgent = true) :
    a.isInEffect now = true ∧ (b.nID ≠ maxInt → a.cancels now b = true) := by
  simp only [isUrgent, Bool.and_eq_true, beq_iff_eq] at h
  have heffect : a.isInEffect now = true := by simpa [isInEffect, h] using hnow
  refine ⟨heffect, fun hb => ?_⟩
  have hle : b.nID ≤ maxInt - 1 := by
    have hlt := b.nID.toInt_lt
    rw [ne_eq, ← Int32.toInt_inj, toInt_maxInt] at hb
    rw [Int32.le_iff_toInt_le, show (maxInt - 1).toInt = 2 ^ 31 - 2 by decide]
    omega
  simp [cancels, heffect, h, hle]

theorem CAlert.Spares.not_cancels (h : a.Spares) (ha : a.nID ≠ maxInt) (hb : b.nID = maxInt) :
    a.cancels now b = false := by
  obtain ⟨hcancel, hset⟩ := h ha
  have hle : ¬ maxInt ≤ a.nCancel := by
    have hlt := a.nCancel.toInt_lt
    rw [ne_eq, ← Int32.toInt_inj, toInt_maxInt] at hcancel
    rw [Int32.le_iff_toInt_le, toInt_maxInt]
    omega
  simp [cancels, hb, hle, hset]

theorem mem_cancelPrevious : item ∈ cancelPrevious now a m ↔
    item ∈ m ∧ a.cancels now item.2 = false ∧ item.2.isInEffect now = true := by
  simp [cancelPrevious]

theorem mem_insertAlert (h : item ∈ insertAlert hash a m) : item ∈ m ∨ item = (hash, a) := by
  unfold insertAlert at h
  split at h
  · exact .inl h
  · exact (mem_cons.mp h).symm

theorem insertAlert_ne_nil : insertAlert hash a m ≠ [] := by
  unfold insertAlert
  split_ifs with h
  · rintro rfl
    cases h
  · exact cons_ne_nil _ _

theorem Guarded.processAlert (h : Guarded m) : Guarded (processAlert E now alert m).2 := by
  unfold MonetaryUnit.processAlert
  split
  · exact h
  split_ifs with _ hform
  · exact h
  · exact h
  · exact fun item hi => h item (mem_cancelPrevious.mp hi).1
  · intro item hi hid
    rcases mem_insertAlert hi with hi | rfl
    · exact h item (mem_cancelPrevious.mp hi).1 hid
    · exact Bool.eq_true_of_not_eq_false fun hno => hform ⟨hid, hno⟩

/-- An alert that spares the reserved id does not displace the final
one. -/
theorem Final.processAlert (hf : Final m) (hg : Guarded m) (hnow : now < maxInt.toInt)
    (hs : ∀ a, E.checkSignature alert = some a → a.Spares) :
    Final (processAlert E now alert m).2 := by
  have hsub : ∀ a, ∀ item ∈ cancelPrevious now a m, item.2.nID = maxInt :=
    fun a item hi => hf.2 item (mem_cancelPrevious.mp hi).1
  unfold MonetaryUnit.processAlert
  rcases hsig : E.checkSignature alert with _ | a
  · exact hf
  dsimp only
  split_ifs with _ _ hcancelled
  · exact hf
  · exact hf
  · obtain ⟨item, hi, -⟩ := any_eq_true.mp hcancelled
    exact ⟨ne_nil_of_mem hi, hsub a⟩
  · -- the final alert is left, and an ordinary alert would not have passed it
    have hid : a.nID = maxInt := by
      by_contra hid
      obtain ⟨item, hi⟩ := exists_mem_of_ne_nil m hf.1
      obtain ⟨heffect, hcancels⟩ :=
        CAlert.cancels_of_urgent (b := a) hnow (hg item hi (hf.2 item hi))
      exact hcancelled (any_eq_true.mpr ⟨item, mem_cancelPrevious.mpr
        ⟨hi, (hs a hsig).not_cancels hid (hf.2 item hi), heffect⟩, hcancels hid⟩)
    refine ⟨insertAlert_ne_nil, fun item hi => ?_⟩
    rcases mem_insertAlert hi with hi | rfl
    · exact hsub a item hi
    · exact hid

/-- The final alert on any map. -/
theorem processAlert_urgent (hnow : now < maxInt.toInt) (hsig : E.checkSignature alert = some a)
    (hid : a.nID = maxInt) (hform : a.isUrgent = true) :
    ((∀ item ∈ m, item.2.nID ≠ maxInt) → (processAlert E now alert m).1 = true) ∧
      ((processAlert E now alert m).1 = true → Final (processAlert E now alert m).2) := by
  have heffect := (CAlert.cancels_of_urgent (b := a) hnow hform).1
  have hleft : ∀ item ∈ cancelPrevious now a m, item.2.nID = maxInt := by
    intro item hi
    by_contra hne
    have hcancels := (CAlert.cancels_of_urgent hnow hform).2 hne
    rw [(mem_cancelPrevious.mp hi).2.1] at hcancels
    cases hcancels
  simp only [processAlert, hsig, heffect, hform, Bool.true_eq_false, if_false, and_false]
  constructor
  · intro hnone
    rw [if_neg]
    intro hany
    obtain ⟨item, hi, -⟩ := any_eq_true.mp hany
    exact hnone item (mem_cancelPrevious.mp hi).1 (hleft item hi)
  · split_ifs
    · intro h
      cases h
    · refine fun _ => ⟨insertAlert_ne_nil, fun item hi => ?_⟩
      rcases mem_insertAlert hi with hi | rfl
      · exact hleft item hi
      · exact hid

end Steps

/-! ## Runs -/

/-- A call, of an alert that `P` allows. -/
def AlertCall (E : AlertEnv) (P : CAlert → Prop) (m m' : AlertMap) : Prop :=
  ∃ now alert, now < maxInt.toInt ∧ (∀ a, E.checkSignature alert = some a → P a) ∧
    m' = (processAlert E now alert m).2

/-- **`finalAlert_final`** — after any calls, the final alert is accepted unless one is there.
Once it is accepted, calls with alerts that spare the reserved id leave a final alert in the map
and nothing else. -/
theorem finalAlert_final {E : AlertEnv} {m : AlertMap} {now : Int} {alert a : CAlert}
    (hrun : ReflTransGen (AlertCall E fun _ => True) [] m) (hnow : now < maxInt.toInt)
    (hsig : E.checkSignature alert = some a) (hid : a.nID = maxInt) (hform : a.isUrgent = true) :
    ((∀ item ∈ m, item.2.nID ≠ maxInt) → (processAlert E now alert m).1 = true) ∧
      ((processAlert E now alert m).1 = true → ∀ m',
        ReflTransGen (AlertCall E CAlert.Spares) (processAlert E now alert m).2 m' →
        (∃ item ∈ m', item.2.nID = maxInt) ∧ ∀ item ∈ m', ¬ item.2.nID < maxInt) := by
  have hguarded : Guarded m := by
    induction hrun with
    | refl => exact fun item hi => absurd hi not_mem_nil
    | tail _ hstep ih =>
      obtain ⟨now, alert, -, -, rfl⟩ := hstep
      exact ih.processAlert
  obtain ⟨haccept, hfinal⟩ := processAlert_urgent (m := m) hnow hsig hid hform
  refine ⟨haccept, fun hok m' hrun' => ?_⟩
  have hboth : Final m' ∧ Guarded m' := by
    induction hrun' with
    | refl => exact ⟨hfinal hok, hguarded.processAlert⟩
    | tail _ hstep ih =>
      obtain ⟨now, alert, hnow, hspares, rfl⟩ := hstep
      exact ⟨ih.1.processAlert ih.2 hnow hspares, ih.2.processAlert⟩
  obtain ⟨item, hi⟩ := exists_mem_of_ne_nil m' hboth.1.1
  refine ⟨⟨item, hi, hboth.1.2 item hi⟩, fun item hi hlt => ?_⟩
  rw [hboth.1.2 item hi] at hlt
  exact absurd hlt (by decide)

/-- Alerts are taken as they are. -/
def openEnv : AlertEnv := ⟨some⟩

def urgentAlert : CAlert where
  hash := 1
  nExpiration := maxInt.toInt
  nID := maxInt
  nCancel := maxInt - 1
  strStatusBar := CAlert.urgentText

/-- An ordinary alert that cancels everything. -/
def reassurance : CAlert where
  hash := 2
  nExpiration := 1
  nID := 1
  nCancel := maxInt
  strStatusBar := ""

/-- An ordinary alert that cancels the ids up to 6. -/
def notice : CAlert where
  hash := 3
  nExpiration := 1
  nID := 7
  nCancel := 6
  strStatusBar := ""

theorem finalAlert_displaced : (processAlert openEnv 0 urgentAlert []).1 = true ∧
      (processAlert openEnv 0 reassurance (processAlert openEnv 0 urgentAlert []).2).1 = true ∧
      (processAlert openEnv 0 reassurance (processAlert openEnv 0 urgentAlert []).2).2 =
        [(2, reassurance)] := by
  exact ⟨rfl, rfl, rfl⟩

/-- The map after these alerts, all at time 0. -/
def afterAlerts (alerts : List CAlert) : AlertMap :=
  alerts.foldl (fun m alert => (processAlert openEnv 0 alert m).2) []

/-- An ordinary alert is there when the final one is accepted, and comes again afterwards. -/
theorem finalAlert_final_notice : afterAlerts [notice] = [(3, notice)] ∧
    (∃ item ∈ afterAlerts [notice, urgentAlert, notice], item.2.nID = maxInt) ∧
      ∀ item ∈ afterAlerts [notice, urgentAlert, notice], ¬ item.2.nID < maxInt := by
  have hbefore : ReflTransGen (AlertCall openEnv fun _ => True) [] (afterAlerts [notice]) :=
    .single ⟨0, notice, by decide, fun _ _ => trivial, rfl⟩
  have hafter : ReflTransGen (AlertCall openEnv CAlert.Spares) (afterAlerts [notice, urgentAlert])
      (afterAlerts [notice, urgentAlert, notice]) := by
    refine .single ⟨0, notice, by decide, fun a ha => ?_, rfl⟩
    cases ha
    exact fun _ => ⟨by decide, by decide⟩
  exact ⟨rfl, (finalAlert_final hbefore (show 0 < _ by decide) (show _ = some urgentAlert from rfl)
    rfl (by decide)).2 (by decide) _ hafter⟩

end MonetaryUnit
