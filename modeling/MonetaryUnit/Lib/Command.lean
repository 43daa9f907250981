/-
# MonetaryUnit.Lib.Command — commands that can stop, and rules for them

A command reads and changes a state and either returns a value or stops. The state survives a
stop: what was done before it is not undone.

Four judgements, with one rule for each way commands are put together:

  * `Ensures c P Q E` — started where `P` holds, `c` returns with `Q` or stops with `E`;
  * `Keeps f c` — `c` does not change what `f` reads, whether it returns or stops;
  * `Grows f c n` — `c` adds at most `n` to the counter `f`, whether it returns or stops;
  * `Within c d` — wherever `c` returns, `d` returns the same value and leaves the same state.
    `d` may return where `c` stops: it is the more permissive of the two.
-/

import Mathlib.Tactic.Common

namespace MonetaryUnit.Lib

open Prod

/-- A command over states `σ` that returns an `α` or stops with an `ε`. -/
def Command (σ ε α : Type) : Type := σ → Except ε α × σ

namespace Command

variable {σ τ ε α β : Type}

instance : Monad (Command σ ε) where
  pure a := fun s => (.ok a, s)
  bind c k := fun s =>
    match c s with
    | (.ok a, s') => k a s'
    | (.error e, s') => (.error e, s')

def stop (e : ε) : Command σ ε α := fun s => (.error e, s)

def update (f : σ → σ) : Command σ ε Unit := fun s => (.ok (), f s)

/-- Go on if the condition holds. -/
def require (ok : Bool) (e : ε) : Command σ ε Unit := if ok then pure () else stop e

/-- Run a command on a part of the state. -/
def onPart (get : τ → σ) (put : σ → τ → τ) (c : Command σ ε α) : Command τ ε α := fun t =>
  match c (get t) with
  | (r, s') => (r, put s' t)

theorem pure_apply (a : α) (s : σ) : (pure a : Command σ ε α) s = (.ok a, s) := rfl

theorem bind_apply (c : Command σ ε α) (k : α → Command σ ε β) (s : σ) : (c >>= k) s =
      match c s with
      | (.ok a, s') => k a s'
      | (.error e, s') => (.error e, s') := rfl

variable {c : Command σ ε α} {k : α → Command σ ε β} {s s' : σ} {ok : Bool} {e : ε}

variable {get : τ → σ} {put : σ → τ → τ} {p : Prop}

theorem bind_of_ok {a : α} (h : c s = (.ok a, s')) : (c >>= k) s = k a s' := by
  rw [bind_apply, h]

theorem bind_of_error (h : c s = (.error e, s')) : (c >>= k) s = (.error e, s') := by
  rw [bind_apply, h]

theorem bind_eq_ok {b : β} (h : (c >>= k) s = (.ok b, s')) :
    ∃ a t, c s = (.ok a, t) ∧ k a t = (.ok b, s') := by
  rw [bind_apply] at h
  rcases hc : c s with ⟨r, t⟩
  rw [hc] at h
  cases r with
  | ok a => exact ⟨a, t, rfl, h⟩
  | error e => cases (mk.inj h).1

theorem require_eq_ok (h : Command.require ok e s = (.ok (), s')) : ok = true ∧ s' = s := by
  cases ok with
  | true => exact ⟨rfl, (mk.inj h).2.symm⟩
  | false => cases (mk.inj h).1

theorem onPart_eq {t t' : τ} {r : Except ε α} (h : onPart get put c t = (r, t')) :
    ∃ s', c (get t) = (r, s') ∧ t' = put s' t := by
  unfold onPart at h
  rcases hc : c (get t) with ⟨r', s'⟩
  rw [hc] at h
  obtain ⟨rfl, rfl⟩ := mk.inj h
  exact ⟨s', rfl, rfl⟩

/-! ## What a command ensures -/

/-- The result of a run satisfies `Q` or `E`. -/
def Result (Q : α → σ → Prop) (E : ε → σ → Prop) : Except ε α × σ → Prop
  | (.ok a, s) => Q a s
  | (.error e, s) => E e s

/-- Every run of `c` from a state in `P` returns with `Q` or stops with `E`. -/
def Ensures (c : Command σ ε α) (P : σ → Prop) (Q : α → σ → Prop) (E : ε → σ → Prop) : Prop :=
  ∀ s, P s → Result Q E (c s)

section Ensures

variable {P P' : σ → Prop} {Q Q' : α → σ → Prop} {R : β → σ → Prop} {E E' : ε → σ → Prop}

variable {x : Except ε α × σ}

theorem Result.mono (h : Result Q E x) (hQ : ∀ a s, Q a s → Q' a s) (hE : ∀ e s, E e s → E' e s) :
    Result Q' E' x := by
  rcases x with ⟨a | e, s⟩
  · exact hE _ s h
  · exact hQ _ s h

/-- A condition on the state alone holds however the run ends. -/
theorem Result.of_state {R : σ → Prop} (h : R x.2) : Result (fun _ => R) (fun _ => R) x := by
  rcases x with ⟨a | e, s⟩ <;> exact h

theorem Result.state {R : σ → Prop} (h : Result (fun _ => R) (fun _ => R) x) : R x.2 := by
  rcases x with ⟨a | e, s⟩ <;> exact h

theorem Ensures.pure {a : α} (h : ∀ s, P s → Q a s) : Ensures (pure a : Command σ ε α) P Q E :=
  fun s hs => h s hs

theorem Ensures.stop (h : ∀ s, P s → E e s) : Ensures (stop e : Command σ ε α) P Q E :=
  fun s hs => h s hs

theorem Ensures.update {f : σ → σ} {Q : Unit → σ → Prop} (h : ∀ s, P s → Q () (f s)) :
    Ensures (update f : Command σ ε Unit) P Q E :=
  fun s hs => h s hs

theorem Ensures.bind (hc : Ensures c P Q E) (hk : ∀ a, Ensures (k a) (Q a) R E) :
    Ensures (c >>= k) P R E := by
  intro s hs
  have h := hc s hs
  rw [bind_apply]
  rcases hrun : c s with ⟨e | a, t⟩ <;> rw [hrun] at h
  · exact h
  · exact hk a t h

theorem Ensures.mono (hc : Ensures c P Q E) (hP : ∀ s, P' s → P s) (hQ : ∀ a s, Q a s → Q' a s)
    (hE : ∀ e s, E e s → E' e s) : Ensures c P' Q' E' :=
  fun s hs => (hc s (hP s hs)).mono hQ hE

theorem Ensures.require {Q : Unit → σ → Prop} (hok : ok = true → ∀ s, P s → Q () s)
    (hno : ok = false → ∀ s, P s → E e s) : Ensures (require ok e) P Q E := by
  cases ok with
  | true => exact .pure (hok rfl)
  | false => exact .stop (hno rfl)

theorem Ensures.ite [Decidable p] {d : Command σ ε α} (hc : p → Ensures c P Q E)
    (hd : ¬p → Ensures d P Q E) : Ensures (if p then c else d) P Q E := by
  split
  · next h => exact hc h
  · next h => exact hd h

theorem Ensures.onPart {P' : τ → Prop} {Q' : α → τ → Prop} {E' : ε → τ → Prop}
    (hc : ∀ t, P' t → Result (fun a s => Q' a (put s t)) (fun e s => E' e (put s t)) (c (get t))) :
    Ensures (onPart get put c) P' Q' E' := by
  intro t ht
  have h := hc t ht
  unfold Command.onPart
  rcases hrun : c (get t) with ⟨e | a, s⟩ <;> rw [hrun] at h <;> exact h

end Ensures

/-! ## What a command leaves alone -/

/-- The part of the state that `f` reads is the same after `c`. -/
def Keeps {γ : Type} (f : σ → γ) (c : Command σ ε α) : Prop := ∀ s, f (c s).2 = f s

section Keeps

variable {γ : Type} {f : σ → γ} {d : Command σ ε α}

theorem Keeps.pure (a : α) : Keeps f (pure a : Command σ ε α) := fun _ => rfl

theorem Keeps.stop (e : ε) : Keeps f (stop e : Command σ ε α) := fun _ => rfl

theorem Keeps.update {g : σ → σ} (h : ∀ s, f (g s) = f s) :
    Keeps f (update g : Command σ ε Unit) := h

theorem Keeps.bind (hc : Keeps f c) (hk : ∀ a, Keeps f (k a)) : Keeps f (c >>= k) := by
  intro s
  have h := hc s
  rw [bind_apply]
  rcases hrun : c s with ⟨e | a, t⟩ <;> rw [hrun] at h
  · exact h
  · exact (hk a t).trans h

theorem Keeps.require : Keeps f (Command.require ok e) := by
  cases ok with
  | true => exact .pure ()
  | false => exact .stop e

theorem Keeps.ite [Decidable p] (hc : Keeps f c) (hd : Keeps f d) :
    Keeps f (if p then c else d) := by
  split
  · exact hc
  · exact hd

theorem Keeps.onPart {g : τ → γ} (h : ∀ s t, g (put s t) = g t) : Keeps g (onPart get put c) := by
  intro t
  exact h _ t

end Keeps

/-! ## What a command adds to a counter -/

/-- `c` raises the counter `f` by at most `n`, whether it returns or stops. -/
def Grows (f : σ → Nat) (c : Command σ ε α) (n : Nat) : Prop := ∀ s, f (c s).2 ≤ f s + n

section Grows

variable {f : σ → Nat} {d : Command σ ε α} {m n : Nat}

theorem Keeps.grows (h : Keeps f c) : Grows f c n := by
  intro s
  rw [h s]
  exact Nat.le_add_right _ n

theorem Grows.mono (h : Grows f c m) (hmn : m ≤ n) : Grows f c n :=
  fun s => Nat.le_trans (h s) (Nat.add_le_add_left hmn _)

theorem Grows.bind (hc : Grows f c m) (hk : ∀ a, Grows f (k a) n) : Grows f (c >>= k) (m + n) := by
  intro s
  have h := hc s
  rw [bind_apply]
  rcases hrun : c s with ⟨e | a, t⟩ <;> rw [hrun] at h
  · exact Nat.le_trans h (by omega)
  · have hrest := hk a t
    dsimp only at h ⊢
    omega

/-- What comes before leaves the counter alone. -/
theorem Keeps.bind_grows (hc : Keeps f c) (hk : ∀ a, Grows f (k a) n) : Grows f (c >>= k) n :=
  (Grows.bind (hc.grows (n := 0)) hk).mono (by omega)

/-- What comes after leaves the counter alone. -/
theorem Grows.bind_keeps (hc : Grows f c n) (hk : ∀ a, Keeps f (k a)) : Grows f (c >>= k) n :=
  .bind hc fun a => (hk a).grows (n := 0)

theorem Grows.ite [Decidable p] (hc : Grows f c n) (hd : Grows f d n) :
    Grows f (if p then c else d) n := by
  split
  · exact hc
  · exact hd

end Grows

/-! ## The more permissive of two commands -/

/-- Where `c` returns, `d` returns the same value in the same state. -/
def Within (c d : Command σ ε α) : Prop := ∀ s a s', c s = (.ok a, s') → d s = (.ok a, s')

section Within

variable {d : Command σ ε α} {l : α → Command σ ε β}

theorem Within.refl (c : Command σ ε α) : Within c c := fun _ _ _ h => h

theorem Within.stop (e : ε) : Within (stop e) d := by
  intro s a s' h
  cases (mk.inj h).1

theorem Within.bind (hcd : Within c d) (hkl : ∀ a, Within (k a) (l a)) :
    Within (c >>= k) (d >>= l) := by
  intro s b s' h
  obtain ⟨a, t, hc, hk⟩ := bind_eq_ok h
  rw [bind_of_ok (hcd s a t hc)]
  exact hkl a t b s' hk

theorem Within.after (hkl : ∀ a, Within (k a) (l a)) : Within (c >>= k) (c >>= l) :=
  (Within.refl c).bind hkl

theorem Within.before (hcd : Within c d) : Within (c >>= k) (d >>= k) :=
  hcd.bind fun _ => .refl _

theorem Within.require {ok' : Bool} {e' : ε} (h : ok = true → ok' = true) :
    Within (require ok e : Command σ ε Unit) (require ok' e') := by
  cases ok with
  | true => rw [h rfl]; exact .refl _
  | false => exact .stop e

/-- A command that changes nothing only filters. -/
theorem Within.of_keeps {c : Command σ ε Unit} (h : Keeps id c) : Within c (pure ()) := by
  rintro s ⟨⟩ s' hrun
  have hs := h s
  rw [hrun] at hs
  rw [pure_apply, show s' = s from hs]

theorem Within.ite [Decidable p] {c' d' : Command σ ε α} (hc : p → Within c c')
    (hd : ¬p → Within d d') : Within (if p then c else d) (if p then c' else d') := by
  split
  · next h => exact hc h
  · next h => exact hd h

theorem Within.onPart (h : Within c d) : Within (onPart get put c) (onPart get put d) := by
  intro t a t' hrun
  unfold Command.onPart at hrun ⊢
  rcases hc : c (get t) with ⟨r, s⟩
  rw [hc] at hrun
  obtain ⟨rfl, rfl⟩ := mk.inj hrun
  rw [h _ _ _ hc]

end Within

end Command

end MonetaryUnit.Lib
