/-
# MonetaryUnit.Serialize.Mutable — the two transaction types

`CMutableTransaction` is meant to be the same transaction as a `CTransaction`, without the cached
hash; signing works on the one and verification on the other. It has no comment, and its
serialization has none either, while `CTransaction` serializes its comment from version 2 on.

`mutableViews_agree_iff` says exactly when the two agree: for a transaction, when it has no comment
on the wire; for a mutable transaction, below version 2; and for a byte string, when it does not
begin with a mutable transaction of version 2 or above.
-/

import MonetaryUnit.Serialize.Identity

namespace MonetaryUnit

open Lib List CTransaction Writes Reader

namespace CMutableTransaction

/-- The hash is computed when it is asked for. -/
def getHash (hash256 : Bytes → Uint256) (m : CMutableTransaction) : Uint256 := hash256 m.bytes

end CMutableTransaction

section Views

variable (hash256 : Bytes → Uint256) (L : Layout)

/-! ## Bytes -/

theorem CTransaction.bytes_ofMutable (m : CMutableTransaction) : (ofMutable hash256 m).bytes =
      m.bytes ++ (serializeComment m.nVersion []).bytes := by
  rw [bytes_eq_mutable]
  rfl

theorem length_serializeBytes_pos (v : Bytes) : 0 < (serializeBytes v).bytes.length := by
  rw [serializeBytes, bytes_append, length_append]
  have hsize : 0 < (writeCompactSize v.length).bytes.length := by
    unfold writeCompactSize
    split_ifs <;> simp [Writes.bytes]
  omega

variable {nVersion : Int32}

/-- From version 2 on there is always a byte for the length of the comment. -/
theorem serializeComment_eq_nil_iff {c : Bytes} :
    (serializeComment nVersion c).bytes = [] ↔ nVersion < 2 := by
  unfold serializeComment
  rw [← Int32.not_le]
  split_ifs with h
  · exact iff_of_false (ne_nil_of_length_pos (length_serializeBytes_pos c)) (not_not.mpr h)
  · exact iff_of_true rfl h

/-- Converting there and back loses the comment. -/
theorem CTransaction.roundTrip_bytes_iff (t : CTransaction) :
    (ofMutable hash256 (.ofTransaction t)).bytes = t.bytes ↔
      t.nVersion < 2 ∨ t.strTxComment = [] := by
  rw [bytes_ofMutable, bytes_eq_mutable t, append_cancel_left_eq]
  show (serializeComment t.nVersion []).bytes =
    (serializeComment t.nVersion t.strTxComment).bytes ↔ _
  unfold serializeComment
  rw [← Int32.not_le]
  split_ifs with h
  · constructor
    · intro heq
      exact .inr (serializeBytes_injective heq).symm
    · rintro (hlt | hnil)
      · exact absurd h hlt
      · rw [hnil]
  · exact iff_of_true rfl (.inl h)

/-! ## Readers -/

/-- The two readers fail on the same bytes, or both succeed, leave the same rest, and read
transactions that the constructors convert into each other. -/
def ReadersAgree (s : Bytes) : Prop :=
  match readMutableTransaction L s, readTransaction hash256 L s with
  | .error _, .error _ => True
  | .ok (m, rest), .ok (t, rest') =>
    rest = rest' ∧ t = CTransaction.ofMutable hash256 m ∧ m = CMutableTransaction.ofTransaction t
  | _, _ => False

theorem readComment_old (h : nVersion < 2) (s : Bytes) :
    readComment nVersion [] s = .ok ([], s) := by
  rw [readComment, if_neg (Int32.not_le.mpr h)]
  rfl

/-- From version 2 on the comment takes at least one byte. -/
theorem readComment_shorter (h : 2 ≤ nVersion) {s rest c : Bytes}
    (hread : readComment nVersion [] s = .ok (c, rest)) : rest ≠ s := by
  rintro rfl
  rw [readComment, if_pos h] at hread
  have hbytes := (canonical_readString.write_read hread).2
  have hlen := congrArg length hbytes
  have hpos := length_serializeBytes_pos c
  rw [length_append] at hlen
  omega

theorem readersAgree_iff (s : Bytes) : ReadersAgree hash256 L s ↔
      ∀ m rest, readMutableTransaction L s = .ok (m, rest) → m.nVersion < 2 := by
  unfold ReadersAgree
  rw [readTransaction_eq, bind_apply]
  cases hm : readMutableTransaction L s with
  | error msg => exact iff_of_true trivial nofun
  | ok result =>
    obtain ⟨m, rest⟩ := result
    dsimp only
    rw [bind_apply]
    by_cases hv : m.nVersion < 2
    · rw [readComment_old hv]
      refine iff_of_true ⟨rfl, rfl, rfl⟩ ?_
      rintro m' rest' ⟨⟩
      exact hv
    · refine iff_of_false ?_ fun h => hv (h m rest rfl)
      cases hc : readComment m.nVersion [] rest with
      | error msg => exact id
      | ok result =>
        obtain ⟨c, rest'⟩ := result
        rintro ⟨heq, -⟩
        exact readComment_shorter (Int32.not_lt.mp hv) hc heq.symm

/-! ## When the two views agree -/

/-- **`mutableViews_agree_iff`** — for every hash function and layout:
* converting a transaction to a mutable one and back keeps its bytes and its hash if and only if
  it has no comment on the wire and its cached hash is current;
* a mutable transaction and the transaction made from it have the same hash and bytes if and
  only if the version is below 2;
* the two readers agree on a byte string if and only if it does not begin with the bytes of a
  mutable transaction of version 2 or above. -/
theorem mutableViews_agree_iff : (∀ t : CTransaction,
      ((CTransaction.ofMutable hash256 (CMutableTransaction.ofTransaction t)).bytes = t.bytes ∧
        (CTransaction.ofMutable hash256 (CMutableTransaction.ofTransaction t)).getHash =
          t.getHash) ↔
      (t.nVersion < 2 ∨ t.strTxComment = []) ∧ t.getHash = t.serializeHash hash256) ∧
    (∀ m : CMutableTransaction, (m.getHash hash256 = (CTransaction.ofMutable hash256 m).getHash ∧
        m.bytes = (CTransaction.ofMutable hash256 m).bytes) ↔ m.nVersion < 2) ∧
    (∀ s : Bytes, ReadersAgree hash256 L s ↔
      ∀ (m : CMutableTransaction) (rest : Bytes), m.Fits → s = m.bytes ++ rest →
        m.nVersion < 2) := by
  have hhash : ∀ m, (ofMutable hash256 m).getHash =
      hash256 (ofMutable hash256 m).bytes := fun m => rfl
  refine ⟨?_, ?_, fun s => (readersAgree_iff hash256 L s).trans ?_⟩
  · intro t
    rw [hhash, roundTrip_bytes_iff]
    refine and_congr_right fun hcomment => ?_
    rw [(roundTrip_bytes_iff hash256 t).mpr hcomment]
    exact eq_comm
  · intro m
    rw [hhash, bytes_ofMutable]
    constructor
    · rintro ⟨-, hbytes⟩
      exact serializeComment_eq_nil_iff.mp (self_eq_append_right.mp hbytes)
    · intro hv
      rw [serializeComment_eq_nil_iff.mpr hv, append_nil]
      exact ⟨rfl, rfl⟩
  · have hcanonical := canonical_readMutableTransaction L
    constructor
    · rintro h m rest hfit rfl
      exact h m rest (hcanonical.read_write rest hfit)
    · intro h m rest hread
      obtain ⟨hfit, hs⟩ := hcanonical.write_read hread
      exact h m rest hfit hs

end Views

/-- Version 2 and nothing else. -/
def mutableVersionTwo : CMutableTransaction where
  nVersion := 2
  vin := []
  vout := []
  nLockTime := 0

/-- The comment is lost on the way through a mutable transaction, a mutable transaction of
version 2 has not the bytes and hash of the transaction made from it, and its bytes are no
transaction. -/
theorem versionTwo_views_differ :
    (∃ t rest, readTransaction numberHash sampleLayout commentedTxBytes = .ok (t, rest) ∧
      (CTransaction.ofMutable numberHash (CMutableTransaction.ofTransaction t)).bytes ≠ t.bytes) ∧
    mutableVersionTwo.getHash numberHash ≠
      (CTransaction.ofMutable numberHash mutableVersionTwo).getHash ∧
    mutableVersionTwo.bytes ≠ (CTransaction.ofMutable numberHash mutableVersionTwo).bytes ∧
    readMutableTransaction sampleLayout mutableVersionTwo.bytes = .ok (mutableVersionTwo, []) ∧
    readTransaction numberHash sampleLayout mutableVersionTwo.bytes = .error endOfData := by
  refine ⟨⟨_, _, rfl, ?_⟩, ?_, ?_, rfl, rfl⟩ <;> decide

end MonetaryUnit
