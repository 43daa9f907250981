/-
# MonetaryUnit.Streams.DataStream — `CDataStream` as a queue of bytes

`CDataStream` of `streams.h` keeps the bytes that were read in front of `nReadPos` until the end is
reached, when the buffer is cleared. The part in front of `nReadPos` is what `Rewind` gives back and
what an insertion at the front may overwrite.

`ByteQueue` is the sequence of bytes on which the operations are meant to act. Two calls act in
another way: `<<` writes the whole buffer of its argument and not only what is unread, although its
comment promises the same as `+=`; and `Rewind` after an insertion at the front finds the inserted
bytes in the place of those that were read. Runs without these behave like the queue
(`dataStream_queue`).
-/

import MonetaryUnit.Lib.LittleEndian

namespace MonetaryUnit

open Lib List Nat

/-! ## Model -/

/-- The bytes, and how many of them are read. -/
structure CDataStream where
  vch : Bytes
  nReadPos : Nat
  le : nReadPos ≤ vch.length

namespace CDataStream

/-- Forget everything, also what could be rewound. -/
def clear : CDataStream := ⟨[], 0, le_rfl⟩

/-- `[begin(), end())`. -/
def contents (s : CDataStream) : Bytes := s.vch.drop s.nReadPos

/-- `write`, and `insert` at the end. -/
def write (s : CDataStream) (b : Bytes) : CDataStream :=
  ⟨s.vch ++ b, s.nReadPos, by simpa using s.le.trans (Nat.le_add_right _ _)⟩

/-- `operator+=`. -/
def append (s b : CDataStream) : CDataStream := s.write b.contents

/-- `operator<<` of a stream: `Serialize` writes the vector. -/
def shift (s b : CDataStream) : CDataStream :=
  if b.vch.isEmpty then s else s.write b.vch

/-- The common part of `read` and `ignore`: `none` where they throw. -/
def advance (s : CDataStream) (nSize : Nat) : Option CDataStream :=
  let nReadPosNext := (s.nReadPos + nSize) % 2 ^ 32
  if h : s.vch.length ≤ nReadPosNext then
    if s.vch.length < nReadPosNext then none else some clear
  else some ⟨s.vch, nReadPosNext, by omega⟩

/-- Hand out the next bytes; `none` is the exception at the end of data. -/
def read (s : CDataStream) (nSize : Nat) : Option (Bytes × CDataStream) :=
  (s.advance nSize).map fun s' => (s.contents.take nSize, s')

/-- `insert` of a range at `begin()`: into the bytes already read if there is room. -/
def insert (s : CDataStream) (b : Bytes) : CDataStream :=
  if h : b.length ≤ s.nReadPos then
    ⟨s.vch.take (s.nReadPos - b.length) ++ (b ++ s.contents), s.nReadPos - b.length,
      by have := s.le; simp; omega⟩
  else ⟨s.vch.take s.nReadPos ++ (b ++ s.contents), s.nReadPos, by have := s.le; simp; omega⟩

/-- `insert` of copies of a character at `begin()`. -/
def insertCopies (s : CDataStream) (n : Nat) (x : UInt8) : CDataStream :=
  ⟨s.vch.take s.nReadPos ++ (List.replicate n x ++ s.contents), s.nReadPos,
    by have := s.le; simp; omega⟩

/-- `erase(begin())`. -/
def erase (s : CDataStream) : CDataStream :=
  if h : s.vch.length ≤ s.nReadPos + 1 then clear else ⟨s.vch, s.nReadPos + 1, by omega⟩

/-- `erase(begin(), begin() + n)`, with an end inside the stream. -/
def eraseRange (s : CDataStream) (n : Nat) : CDataStream :=
  if h : s.vch.length ≤ s.nReadPos + n then clear else ⟨s.vch, s.nReadPos + n, by omega⟩

/-- Drop what is read. -/
def compact (s : CDataStream) : CDataStream := ⟨s.contents, 0, Nat.zero_le _⟩

/-- `Rewind`; `none` where it returns false. -/
def rewind (s : CDataStream) (n : Nat) : Option CDataStream :=
  if s.nReadPos < n then none else some ⟨s.vch, s.nReadPos - n, by have := s.le; omega⟩

end CDataStream

/-- A call, with the streams, bytes and sizes it is given. -/
inductive StreamOp
  | write (b : Bytes)
  | append (b : CDataStream)
  | shift (b : CDataStream)
  | read (nSize : Nat)
  | ignore (nSize : Nat)
  | insert (b : Bytes)
  | insertCopies (n : Nat) (x : UInt8)
  | erase
  | eraseRange (n : Nat)
  | compact
  | rewind (n : Nat)

/-- The bytes that are delivered, `none` where the call throws or returns false, and the stream
afterwards. -/
def CDataStream.step (s : CDataStream) : StreamOp → Option Bytes × CDataStream
  | .write b => (some [], s.write b)
  | .append b => (some [], s.append b)
  | .shift b => (some [], s.shift b)
  | .read nSize => (s.read nSize).elim (none, s) fun r => (some r.1, r.2)
  | .ignore nSize => (s.advance nSize).elim (none, s) fun s' => (some [], s')
  | .insert b => (some [], s.insert b)
  | .insertCopies n x => (some [], s.insertCopies n x)
  | .erase => (some [], s.erase)
  | .eraseRange n => (some [], s.eraseRange n)
  | .compact => (some [], s.compact)
  | .rewind n => (s.rewind n).elim (none, s) fun s' => (some [], s')

/-- What a run shows: the outcome of every call and the contents after it. -/
def CDataStream.trace (s : CDataStream) : List StreamOp → List (Option Bytes × Bytes)
  | [] => []
  | op :: ops => ((s.step op).1, (s.step op).2.contents) :: (s.step op).2.trace ops

/-! ## The queue -/

/-- A sequence of bytes, and the bytes taken from it that can be put back. -/
structure ByteQueue where
  past : Bytes
  contents : Bytes

namespace ByteQueue

/-- Bytes leave the front; when none are left, those taken before are forgotten. -/
def consume (q : ByteQueue) (n : Nat) : ByteQueue :=
  if q.contents.length ≤ n then ⟨[], []⟩
  else ⟨q.past ++ q.contents.take n, q.contents.drop n⟩

def step (q : ByteQueue) : StreamOp → Option Bytes × ByteQueue
  | .write b => (some [], { q with contents := q.contents ++ b })
  | .append b => (some [], { q with contents := q.contents ++ b.contents })
  | .shift b => (some [], { q with contents := q.contents ++ b.contents })
  | .read n => if q.contents.length < n then (none, q) else (some (q.contents.take n), q.consume n)
  | .ignore n => if q.contents.length < n then (none, q) else (some [], q.consume n)
  | .insert b => (some [], { q with contents := b ++ q.contents })
  | .insertCopies n x => (some [], { q with contents := List.replicate n x ++ q.contents })
  | .erase => (some [], q.consume 1)
  | .eraseRange n => (some [], q.consume n)
  | .compact => (some [], { q with past := [] })
  | .rewind n =>
    if q.past.length < n then (none, q)
    else (some [], ⟨q.past.take (q.past.length - n), q.past.drop (q.past.length - n) ++ q.contents⟩)

def trace (q : ByteQueue) : List StreamOp → List (Option Bytes × Bytes)
  | [] => []
  | op :: ops => ((q.step op).1, (q.step op).2.contents) :: (q.step op).2.trace ops

end ByteQueue

/-! ## Refinement -/

namespace CDataStream

/-- The queue that a stream stands for. -/
def queue (s : CDataStream) : ByteQueue := ⟨s.vch.take s.nReadPos, s.contents⟩

/-- The calls of a run keep to sizes below `2^31`, write no stream that was read from with `<<`, and
rewind only while the bytes in front of the cursor are all that were taken: no insertion at the
front has been put in their place since the buffer was last cleared or compacted. -/
def Meets (s : CDataStream) (q : ByteQueue) : List StreamOp → Prop
  | [] => True
  | op :: ops => s.vch.length < 2 ^ 31 ∧ (∀ n, op = .read n ∨ op = .ignore n → n < 2 ^ 31) ∧
      (∀ b, op = .shift b → b.nReadPos = 0) ∧ (∀ n, op = .rewind n → s.nReadPos = q.past.length) ∧
      (s.step op).2.Meets (q.step op).2 ops

/-- The contents are the queue's. An insertion at the front may have overwritten bytes that were
taken; as long as none has, those are the queue's too. -/
structure Shows (s : CDataStream) (q : ByteQueue) : Prop where
  contents : s.contents = q.contents
  le : s.nReadPos ≤ q.past.length
  past : s.nReadPos = q.past.length → s.vch.take s.nReadPos = q.past

theorem shows_queue (s : CDataStream) : s.Shows s.queue :=
  ⟨rfl, by simp [queue, s.le], fun _ => rfl⟩

theorem length_contents (s : CDataStream) : s.contents.length = s.vch.length - s.nReadPos := by
  simp [contents]

namespace Shows

variable {s : CDataStream} {q : ByteQueue} (h : s.Shows q) {s' : CDataStream}

include h

theorem length_eq : q.contents.length = s.vch.length - s.nReadPos := by
  rw [← h.contents, length_contents]

/-- Behind the cursor anything can change. -/
theorem behind {c : Bytes} (hv : s'.vch = s.vch.take s.nReadPos ++ c)
    (hp : s'.nReadPos = s.nReadPos) : s'.Shows { q with contents := c } := by
  have hlen : (s.vch.take s.nReadPos).length = s.nReadPos := by simp [s.le]
  refine ⟨?_, hp ▸ h.le, ?_⟩
  · rw [CDataStream.contents, hv, hp]
    exact drop_left' hlen
  · rw [hv, hp, take_left' hlen]
    exact h.past

theorem write (b : Bytes) : (s.write b).Shows { q with contents := q.contents ++ b } := by
  refine h.behind ?_ rfl
  rw [← h.contents, CDataStream.contents, ← append_assoc, take_append_drop]
  rfl

theorem eraseRange (n : Nat) : (s.eraseRange n).Shows (q.consume n) := by
  have hlen := h.length_eq
  rw [CDataStream.eraseRange, ByteQueue.consume]
  split_ifs with hn hq hq
  · exact ⟨rfl, le_rfl, fun _ => rfl⟩
  · omega
  · omega
  · refine ⟨?_, ?_, fun hp => ?_⟩
    · simp [← h.contents, CDataStream.contents]
    · have := h.le
      simp
      omega
    · have hpast : s.nReadPos = q.past.length := by
        simp at hp
        omega
      simp [← h.past hpast, ← h.contents, CDataStream.contents, take_add]

theorem insert (b : Bytes) : (s.insert b).Shows { q with contents := b ++ q.contents } := by
  have hle := h.le
  have hs := s.le
  rw [← h.contents, CDataStream.insert]
  split_ifs with hb
  · -- The cursor moves back over the bytes that are overwritten.
    have hlen : (s.vch.take (s.nReadPos - b.length)).length = s.nReadPos - b.length := by
      simp
      omega
    refine ⟨?_, ?_, fun hp => ?_⟩
    · exact drop_left' hlen
    · exact (sub_le _ _).trans hle
    · have hnil : b = [] := eq_nil_of_length_eq_zero (by simp at hp; omega)
      subst hnil
      simpa [CDataStream.contents] using h.past (by simpa using hp)
  · exact h.behind rfl rfl

/-- Back over the last bytes that were taken. -/
theorem rewind {n : Nat} (hp : s.nReadPos = q.past.length) (hn : n ≤ s.nReadPos)
    (hs : s.rewind n = some s') :
    s'.Shows ⟨q.past.take (q.past.length - n), q.past.drop (q.past.length - n) ++ q.contents⟩ := by
  have hle := s.le
  rw [CDataStream.rewind, if_neg (by omega), Option.some_inj] at hs
  subst hs
  rw [← hp, ← h.past hp, ← h.contents]
  refine ⟨?_, by simp; omega, fun _ => by simp [take_take]⟩
  have hcut := take_append_drop s.nReadPos s.vch
  simp only [CDataStream.contents]
  conv_lhs => rw [← hcut]
  exact drop_append_of_le_length (by simp; omega)

theorem compact : s.compact.Shows { q with past := [] } := ⟨h.contents, zero_le _, fun _ => rfl⟩

end Shows

theorem advance_eq (s : CDataStream) {n : Nat} (hs : s.vch.length < 2 ^ 31) (hn : n < 2 ^ 31) :
    s.advance n = if s.contents.length < n then none else some (s.eraseRange n) := by
  have hle := s.le
  have hlen := s.length_contents
  have hmod : (s.nReadPos + n) % 2 ^ 32 = s.nReadPos + n := mod_eq_of_lt (by omega)
  simp only [advance, hmod, eraseRange]
  split_ifs <;> first | rfl | omega

variable {ops : List StreamOp} {q : ByteQueue} {s : CDataStream}

/-- One call: the outcome is the queue's, and the stream shows the queue after it. -/
theorem Shows.step (h : s.Shows q) {op : StreamOp} (hm : s.Meets q (op :: ops)) :
    (s.step op).1 = (q.step op).1 ∧ (s.step op).2.Shows (q.step op).2 := by
  obtain ⟨hs, hn, hshift, hrewind, -⟩ := hm
  cases op with
  | write b => exact ⟨rfl, h.write b⟩
  | append b => exact ⟨rfl, h.write b.contents⟩
  | shift b =>
    have hb : b.contents = b.vch := by simp [CDataStream.contents, hshift b rfl]
    refine ⟨rfl, ?_⟩
    simp only [CDataStream.step, ByteQueue.step, shift, hb]
    split_ifs with he
    · simpa [isEmpty_iff.mp he] using h
    · exact h.write b.vch
  | read n =>
    simp only [CDataStream.step, ByteQueue.step, read, s.advance_eq hs (hn n (.inl rfl)),
      ← h.contents]
    split_ifs
    · exact ⟨rfl, h⟩
    · exact ⟨rfl, h.eraseRange n⟩
  | ignore n =>
    simp only [CDataStream.step, ByteQueue.step, s.advance_eq hs (hn n (.inr rfl)), ← h.contents]
    split_ifs
    · exact ⟨rfl, h⟩
    · exact ⟨rfl, h.eraseRange n⟩
  | insert b => exact ⟨rfl, h.insert b⟩
  | insertCopies n x => exact ⟨rfl, h.behind (by rw [← h.contents]; rfl) rfl⟩
  | erase => exact ⟨rfl, h.eraseRange 1⟩
  | eraseRange n => exact ⟨rfl, h.eraseRange n⟩
  | compact => exact ⟨rfl, h.compact⟩
  | rewind n =>
    have hp := hrewind n rfl
    by_cases hlt : s.nReadPos < n
    · simp [CDataStream.step, ByteQueue.step, CDataStream.rewind, ← hp, hlt, h]
    · have hr : s.rewind n = some _ := if_neg hlt
      have hstep := h.rewind hp (not_lt.mp hlt) hr
      simpa [CDataStream.step, ByteQueue.step, hr, ← hp, hlt] using hstep

theorem shift_contents_iff (s b : CDataStream) :
    (s.shift b).contents = s.contents ++ b.contents ↔ b.nReadPos = 0 := by
  have hs := s.le
  have hb := b.le
  have hshift : (s.shift b).contents = s.contents ++ b.vch := by
    rw [shift]
    split_ifs with he
    · simp [isEmpty_iff.mp he]
    · exact drop_append_of_le_length hs
  rw [hshift, append_cancel_left_eq]
  refine ⟨fun h => ?_, fun h => by rw [contents, h, drop_zero]⟩
  have hlen := congrArg length h
  rw [length_contents] at hlen
  omega

/-- The run, from any queue that the stream shows. -/
theorem Shows.trace (h : s.Shows q) (hm : s.Meets q ops) : s.trace ops = q.trace ops := by
  induction ops generalizing s q with
  | nil => rfl
  | cons op ops ih =>
    obtain ⟨hout, hshows⟩ := h.step hm
    rw [CDataStream.trace, ByteQueue.trace, hout, hshows.contents, ih hshows hm.2.2.2.2]

/-- **`dataStream_queue`** — a single `<<` appends the unread contents of its argument exactly when
nothing was read from the argument; and every run that meets the condition shows, call by call, the
outcomes and the contents of the queue. -/
theorem dataStream_queue (s : CDataStream) :
    (∀ b : CDataStream, (s.shift b).contents = s.contents ++ b.contents ↔ b.nReadPos = 0) ∧
    ∀ ops : List StreamOp, s.Meets s.queue ops → s.trace ops = s.queue.trace ops :=
  ⟨s.shift_contents_iff, fun _ hm => s.shows_queue.trace hm⟩

/-- Three bytes are read two at a time, with a step back between. -/
theorem dataStream_queue_rewound :
    (⟨[1, 2, 3], 0, by decide⟩ : CDataStream).trace [.read 2, .rewind 1, .write [4], .read 2] =
      ByteQueue.trace ⟨[], [1, 2, 3]⟩ [.read 2, .rewind 1, .write [4], .read 2] := by
  refine (dataStream_queue ⟨[1, 2, 3], 0, by decide⟩).2 _ ?_
  refine ⟨by decide, ?_, ?_, ?_, by decide, ?_, ?_, ?_, by decide, ?_, ?_, ?_, by decide, ?_, ?_, ?_,
    trivial⟩ <;> simp
  -- one byte in front of the cursor, one in the past
  rfl

/-- Of `b` holding 1 and 2 the 1 was read. Written with `<<` it arrives with the 1, with `+=`
without it; and a byte inserted at the front of what is left takes the place of the 1, which
`Rewind` then does not give back. -/
theorem dataStream_shift_consumed :
    let b : CDataStream := ⟨[1, 2], 1, by decide⟩
    CDataStream.clear.trace [.append b] = [(some [], [2])] ∧
    CDataStream.clear.trace [.shift b] = [(some [], [1, 2])] ∧
    CDataStream.clear.queue.trace [.shift b] = [(some [], [2])] ∧
    b.trace [.insert [9], .rewind 1] = [(some [], [9, 2]), (none, [9, 2])] ∧
    b.queue.trace [.insert [9], .rewind 1] = [(some [], [9, 2]), (some [], [1, 9, 2])] := by
  decide

end CDataStream

end MonetaryUnit
