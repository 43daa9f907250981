/-
# MonetaryUnit.Lib.Codec — readers, writers and canonical formats

A reader consumes a prefix of a byte stream or fails. `Canonical read write Fits` says that
the reader and the writer are two sides of one format in the strongest sense:

* what is read was written (`write_read`): the bytes consumed are the encoding of the value
  returned, so no value has a second encoding;
* what is written is read back (`read_write`), in front of any further bytes, for every value
  that `Fits`.

The rules below compose canonical formats along the structure of a reader: sequences and lists of
a given length.
-/

import MonetaryUnit.Lib.LittleEndian

namespace MonetaryUnit.Lib

open List Nat

/-- A reader of a byte stream; the state is what is still to be read. -/
abbrev Reader (α : Type) := StateT Bytes (Except String) α

structure Canonical {α : Type} (read : Reader α) (write : α → Bytes) (Fits : α → Prop) :
    Prop where
  write_read : ∀ {s a rest}, read s = .ok (a, rest) → Fits a ∧ s = write a ++ rest
  read_write : ∀ {a} rest, Fits a → read (write a ++ rest) = .ok (a, rest)

variable {α β : Type}

/-! ## Peeling a reader apart -/

theorem Reader.bind_apply (r : Reader α) (k : α → Reader β) (s : Bytes) : (r >>= k) s =
      match r s with
      | .ok (a, s') => k a s'
      | .error e => .error e := by
  change (r s >>= fun p => k p.1 p.2) = _
  cases r s <;> rfl

theorem Reader.pure_apply (a : α) (s : Bytes) : (pure a : Reader α) s = .ok (a, s) := rfl

variable {r : Reader α} {w : α → Bytes} {F : α → Prop} {k : α → Reader β} {a : α} {b : β}
variable {s rest : Bytes}

theorem Reader.bind_ok (h : (r >>= k) s = .ok (b, rest)) :
    ∃ a s', r s = .ok (a, s') ∧ k a s' = .ok (b, rest) := by
  rw [Reader.bind_apply] at h
  cases hr : r s with
  | error e =>
    rw [hr] at h
    cases h
  | ok p =>
    rw [hr] at h
    exact ⟨p.1, p.2, rfl, h⟩

theorem Reader.bind_of_ok {s' : Bytes} (h : r s = .ok (a, s')) : (r >>= k) s = k a s' := by
  rw [Reader.bind_apply, h]

/-! ## Composition -/

namespace Canonical

/-- No two byte strings are read as the same value. -/
theorem injective {read : Reader α} {write : α → Bytes} {Fits : α → Prop}
    (h : Canonical read write Fits) {s1 s2 : Bytes} (h1 : read s1 = .ok (a, []))
    (h2 : read s2 = .ok (a, [])) : s1 = s2 := by
  rw [(h.write_read h1).2, (h.write_read h2).2]

/-- What is read first was written in front. -/
theorem bind_ok (hr : Canonical r w F) (h : (r >>= k) s = .ok (b, rest)) :
    ∃ a s', F a ∧ s = w a ++ s' ∧ k a s' = .ok (b, rest) := by
  obtain ⟨a, s', hra, hb⟩ := Reader.bind_ok h
  exact ⟨a, s', (hr.write_read hra).1, (hr.write_read hra).2, hb⟩

/-- What is written in front is read first. -/
theorem bind_eq (hr : Canonical r w F) (ha : F a) : (r >>= k) (w a ++ rest) = k a rest :=
  Reader.bind_of_ok (hr.read_write rest ha)

/-- Change the value read through a map `f` that `back` undoes. -/
theorem map (hr : Canonical r w F) (f : α → β) (back : β → α) (hback : ∀ a, F a → back (f a) = a)
    (hf : ∀ b, F (back b) ∧ f (back b) = b) :
    Canonical (f <$> r) (fun b => w (back b)) (fun _ => True) where
  write_read := by
    intro s b rest h
    obtain ⟨a, s', hFa, rfl, hb⟩ := hr.bind_ok (k := fun a => Pure.pure (f a)) h
    cases hb
    exact ⟨trivial, by rw [hback a hFa]⟩
  read_write := by
    intro b rest _
    refine (hr.bind_eq (k := fun a => Pure.pure (f a)) (hf b).1).trans ?_
    rw [(hf b).2]
    rfl

end Canonical

/-! ## Lists of a given length -/

/-- Read `n` values one after the other. -/
def readMany (r : Reader α) : Nat → Reader (List α)
  | 0 => pure []
  | n + 1 => do
    let a ← r
    let as ← readMany r n
    pure (a :: as)

theorem Canonical.readMany (hr : Canonical r w F) (n : Nat) :
    Canonical (readMany r n) (fun as => as.flatMap w)
      (fun as => as.length = n ∧ ∀ a ∈ as, F a) where
  write_read := by
    induction n with
    | zero =>
      intro s as rest h
      cases h
      exact ⟨⟨rfl, by simp⟩, rfl⟩
    | succ n ih =>
      intro s as rest h
      obtain ⟨a, s1, hFa, rfl, h1⟩ := hr.bind_ok h
      obtain ⟨tail, s2, htail, h2⟩ := Reader.bind_ok h1
      cases h2
      obtain ⟨⟨hlen, hall⟩, rfl⟩ := ih htail
      refine ⟨⟨by simp [hlen], ?_⟩, by simp⟩
      simpa using ⟨hFa, hall⟩
  read_write := by
    induction n with
    | zero =>
      rintro as rest ⟨hlen, -⟩
      rw [length_eq_zero_iff] at hlen
      subst hlen
      rfl
    | succ n ih =>
      rintro as rest ⟨hlen, hall⟩
      obtain ⟨a, tail, rfl⟩ := exists_cons_of_length_eq_add_one hlen
      simp only [length_cons, add_right_cancel_iff] at hlen
      simp only [flatMap_cons, append_assoc]
      have hFa : F a := hall a (by simp)
      have htail : ∀ b ∈ tail, F b := fun b hb => hall b (by simp [hb])
      rw [MonetaryUnit.Lib.readMany, hr.bind_eq hFa, Reader.bind_of_ok (ih rest ⟨hlen, htail⟩)]
      rfl

/-- Reading in two batches is reading at once. -/
theorem readMany_add (r : Reader α) (m n : Nat) : readMany r (m + n) = (do
      let as ← readMany r m
      let bs ← readMany r n
      pure (as ++ bs)) := by
  induction m with
  | zero => simp [readMany]
  | succ m ih => simp [succ_add, readMany, ih]

/-! ## Loops that read -/

/-- A counting loop from `n` on, `k` rounds: each round reads and updates the state. -/
def readLoop {σ : Type} (body : Nat → σ → Reader σ) : Nat → Nat → σ → Reader σ
  | 0, _, s => pure s
  | k + 1, n, s => do
    let s ← body n s
    readLoop body k (n + 1) s

/-- A loop on the values it expects, one a round. -/
theorem readLoop_of_writes {σ : Type} {body : Nat → σ → Reader σ} {w : α → Bytes}
    {step : Nat → σ → α → σ} (as : List α)
    (hbody : ∀ n s, ∀ a ∈ as, ∀ rest, body n s (w a ++ rest) = .ok (step n s a, rest))
    (n : Nat) (s : σ) (rest : Bytes) :
    readLoop body as.length n s (as.flatMap w ++ rest) =
      .ok ((as.zipIdx n).foldl (fun s p => step p.2 s p.1) s, rest) := by
  induction as generalizing n s with
  | nil => rfl
  | cons a as ih =>
    rw [flatMap_cons, append_assoc, length_cons, readLoop,
      Reader.bind_of_ok (hbody n s a mem_cons_self _),
      ih fun n s b hb => hbody n s b (mem_cons_of_mem _ hb)]
    rfl

/-! ## Raw bytes -/

/-- Take `n` bytes off the stream, or fail with the stream's message. -/
def readBytes (endOfData : String) (n : Nat) : Reader Bytes := fun s =>
  if n ≤ s.length then .ok (s.take n, s.drop n) else .error endOfData

theorem canonical_readBytes (msg : String) (n : Nat) :
    Canonical (readBytes msg n) (fun bs => bs) (fun bs => bs.length = n) where
  write_read := by
    intro s bs rest h
    unfold readBytes at h
    split at h
    · rename_i hle
      cases h
      exact ⟨by simp [hle], (take_append_drop n s).symm⟩
    · cases h
  read_write := by
    rintro bs rest rfl
    simp [readBytes]

theorem readBytes_add (msg : String) (m n : Nat) : readBytes msg (m + n) = (do
      let a ← readBytes msg m
      let b ← readBytes msg n
      pure (a ++ b)) := by
  funext s
  simp only [Reader.bind_apply, Reader.pure_apply, readBytes]
  by_cases hm : m ≤ s.length
  · by_cases hn : m + n ≤ s.length
    · have hn' : n ≤ s.length - m := by omega
      simp [hm, hn, hn', take_add, drop_drop]
    · have hn' : ¬ n ≤ s.length - m := by omega
      simp [hm, hn, hn']
  · have hn : ¬ m + n ≤ s.length := by omega
    simp [hm, hn]

/-- A number in `n` bytes, least significant byte first. -/
def readLE (msg : String) (n : Nat) : Reader Nat := do
  let bs ← readBytes msg n
  pure (leNat bs)

theorem canonical_readLE (msg : String) (n : Nat) :
    Canonical (readLE msg n) (leBytes n) (fun v => v < 256 ^ n) where
  write_read := by
    intro s v rest h
    obtain ⟨bs, s', hlen, rfl, h1⟩ := (canonical_readBytes msg n).bind_ok h
    cases h1
    refine ⟨hlen ▸ leNat_lt bs, ?_⟩
    rw [← hlen, leBytes_leNat]
  read_write := by
    intro v rest hv
    refine ((canonical_readBytes msg n).bind_eq (leBytes_length n v)).trans ?_
    rw [leNat_leBytes hv]
    rfl

end MonetaryUnit.Lib
