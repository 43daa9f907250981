/-
# MonetaryUnit.Streams.BufferedFile — the ring buffer of `CBufferedFile`

`CBufferedFile` of `streams.h` reads a file through a ring buffer: `nSrcPos` bytes were fetched,
`nReadPos` is where the reader is, and the byte at position `i` is kept at `i` modulo the size of
the buffer. Positions are 64-bit integers, places in the buffer and amounts to fetch 32-bit ones,
and the model wraps them around as the code does. `fread` gives as many bytes as it likes.

`Good` says that the buffer holds the last bytes fetched. Every call keeps it, as long as the buffer
is smaller than 4 GiB and sizes and positions are below `2^63`; then what is read is the file
(`bufferedFile_reads_file`). How far the reader can go back is measured from `nSrcPos`, so that the
promised rewind fails after reading ahead (`setPos_rewinds_iff`).
-/

import MonetaryUnit.Lib.LittleEndian

namespace MonetaryUnit

open Lib List Option Nat

/-- A file, and how many bytes each call of `fread` is ready to give. Offsets in a file are signed
64-bit integers. -/
structure SourceFile where
  data : Bytes
  fread : Nat → Nat
  fits : data.length < 2 ^ 63

/-- The exceptions of `read` and `Fill`. -/
inductive FileStop
  | pastLimit
  | largerThanBuffer
  | endOfFile
  | freadFailed
  deriving DecidableEq

/-- The ring buffer over a file and the positions in it. -/
structure CBufferedFile where
  nSrcPos : Nat
  nReadPos : Nat
  nReadLimit : Nat
  nRewind : Nat
  /-- `vchBuf.size()`. -/
  size : Nat
  /-- The memory from `&vchBuf[0]` on; the first `size` bytes are the buffer. -/
  vchBuf : Nat → UInt8
  /-- How often `fread` was called. -/
  nCalls : Nat

namespace CBufferedFile

/-! ## Model -/

/-- Wraps, as `uint64_t` does. -/
def add64 (a b : Nat) : Nat := (a + b) % 2 ^ 64

def sub64 (a b : Nat) : Nat := (a + 2 ^ 64 - b) % 2 ^ 64

def uint32 (a : Nat) : Nat := a % 2 ^ 32

/-- The constructor. -/
def start (nBufSize nRewindIn : Nat) : CBufferedFile where
  nSrcPos := 0
  nReadPos := 0
  nReadLimit := 2 ^ 64 - 1
  nRewind := nRewindIn
  size := nBufSize
  vchBuf := fun _ => 0
  nCalls := 0

/-- Bytes written to memory. -/
def store (mem : Nat → UInt8) (pos : Nat) (b : Bytes) (i : Nat) : UInt8 :=
  if pos ≤ i then b[i - pos]?.getD (mem i) else mem i

/-- `readNow` of `Fill`. -/
def readNow (s : CBufferedFile) : Nat := min (uint32 (s.size - uint32 (s.nSrcPos % s.size)))
    (uint32 (sub64 (sub64 s.size (sub64 s.nSrcPos s.nReadPos)) s.nRewind))

/-- Read from the file into the part of the ring that is free. -/
def fill (f : SourceFile) (s : CBufferedFile) : Option FileStop × CBufferedFile :=
  let read := min (min (f.fread s.nCalls) s.readNow) (f.data.length - s.nSrcPos)
  if s.readNow = 0 then (none, s)
  else if read = 0 then
    (some (if s.nSrcPos = f.data.length then .endOfFile else .freadFailed),
      { s with nCalls := s.nCalls + 1 })
  else (none, { s with
    nSrcPos := add64 s.nSrcPos read
    vchBuf := store s.vchBuf (uint32 (s.nSrcPos % s.size)) ((f.data.drop s.nSrcPos).take read)
    nCalls := s.nCalls + 1 })

/-- Fetch more once all that was fetched is read. -/
def refill (f : SourceFile) (s : CBufferedFile) : Option FileStop × CBufferedFile :=
  if s.nReadPos = s.nSrcPos then s.fill f else (none, s)

/-- `nNow` of `read`: up to the end of the buffer and of what was fetched. -/
def nNow (s : CBufferedFile) (nSize : Nat) : Nat :=
  let pos := uint32 (s.nReadPos % s.size)
  let nNow := if s.size < add64 nSize pos then s.size - pos else nSize
  if s.nSrcPos < add64 nNow s.nReadPos then sub64 s.nSrcPos s.nReadPos else nNow

/-- What `memcpy` takes from the buffer. -/
def copied (s : CBufferedFile) (n : Nat) : Bytes :=
  (List.range n).map fun i => s.vchBuf (uint32 (s.nReadPos % s.size) + i)

/-- The loop of `read`, for at most `fuel` rounds: the bytes delivered, the exception if one is
thrown, and the state. -/
def readLoop (f : SourceFile) :
    Nat → Nat → CBufferedFile → Option (Bytes × Option FileStop × CBufferedFile)
  | _, 0, s => some ([], none, s)
  | 0, _ + 1, _ => none
  | fuel + 1, nSize + 1, s =>
    match s.refill f with
    | (some e, s) => some ([], some e, s)
    | (none, s) =>
      let n := s.nNow (nSize + 1)
      (readLoop f fuel (sub64 (nSize + 1) n) { s with nReadPos := add64 s.nReadPos n }).map
        fun r => (s.copied n ++ r.1, r.2)

/-- Read `nSize` bytes, inside the limit and what the ring can keep. -/
def read (f : SourceFile) (fuel nSize : Nat) (s : CBufferedFile) :
    Option (Bytes × Option FileStop × CBufferedFile) :=
  if s.nReadLimit < add64 nSize s.nReadPos then some ([], some .pastLimit, s)
  else if s.size < add64 nSize s.nRewind then some ([], some .largerThanBuffer, s)
  else readLoop f fuel nSize s

/-- Rewind; a position that is not kept is moved to the nearest that is. -/
def setPos (nPos : Nat) (s : CBufferedFile) : Bool × CBufferedFile :=
  if add64 nPos s.nRewind < s.nSrcPos then
    (false, { s with nReadPos := sub64 s.nSrcPos s.nRewind })
  else if s.nSrcPos < nPos then (false, { s with nReadPos := s.nSrcPos })
  else (true, { s with nReadPos := nPos })

/-- Set how far may be read. -/
def setLimit (nPos : Nat) (s : CBufferedFile) : Bool × CBufferedFile :=
  if nPos < s.nReadPos then (false, s) else (true, { s with nReadLimit := nPos })

/-- `FindByte`, for at most `fuel` rounds. -/
def findByte (f : SourceFile) (ch : UInt8) :
    Nat → CBufferedFile → Option (Option FileStop × CBufferedFile)
  | 0, _ => none
  | fuel + 1, s =>
    match s.refill f with
    | (some e, s) => some (some e, s)
    | (none, s) =>
      if s.vchBuf (s.nReadPos % s.size) = ch then some (none, s)
      else findByte f ch fuel { s with nReadPos := add64 s.nReadPos 1 }

end CBufferedFile

/-- The calls on the file. -/
inductive FileOp
  | read (nSize : Nat)
  | findByte (ch : UInt8)
  | setPos (nPos : Nat)
  | setLimit (nPos : Nat)

/-- The sizes and positions asked for are below `2^63`. -/
def FileOp.Small : FileOp → Prop
  | .read nSize => nSize < 2 ^ 63
  | .setPos nPos => nPos < 2 ^ 63
  | _ => True

namespace CBufferedFile

/-- The state after a call that returns or throws. A round of `read` is to deliver a byte, and one
of `FindByte` to pass one, so these are rounds enough. -/
def step (f : SourceFile) (s : CBufferedFile) : FileOp → Option CBufferedFile
  | .read nSize => (s.read f nSize nSize).map (·.2.2)
  | .findByte ch => (s.findByte f ch (f.data.length + 1)).map (·.2)
  | .setPos nPos => some (s.setPos nPos).2
  | .setLimit nPos => some (s.setLimit nPos).2

/-- The states of a file that was opened with a buffer of size `B` that is to rewind `R` bytes. -/
inductive Reached (f : SourceFile) (B R : Nat) : CBufferedFile → Prop
  | start : Reached f B R (start B R)
  | step {s s' : CBufferedFile} {op : FileOp} (h : Reached f B R s) (hop : op.Small)
      (hs : s.step f op = some s') : Reached f B R s'

/-! ## The ring -/

/-- The buffer holds the last bytes fetched, and the reader is among them. -/
structure Good (f : SourceFile) (R : Nat) (s : CBufferedFile) : Prop where
  promised : s.nRewind = R
  rewind : s.nRewind < s.size
  size : s.size < 2 ^ 32
  ahead : s.nReadPos ≤ s.nSrcPos
  near : s.nSrcPos ≤ s.nReadPos + s.size
  fetched : s.nSrcPos ≤ f.data.length
  window : ∀ i < s.nSrcPos, s.nSrcPos ≤ i + s.size → f.data[i]? = some (s.vchBuf (i % s.size))

variable {a R : Nat} {f : SourceFile} {s : CBufferedFile}

theorem uint32_of_lt (h : a < 2 ^ 32) : uint32 a = a := mod_eq_of_lt h

theorem add64_of_lt {b : Nat} (h : a + b < 2 ^ 64) : add64 a b = a + b := mod_eq_of_lt h

theorem sub64_of_le {b : Nat} (hb : b ≤ a) (ha : a < 2 ^ 64) : sub64 a b = a - b := by
  rw [sub64]
  omega

theorem Good.place_lt (h : Good f R s) (i : Nat) : i % s.size < s.size :=
  mod_lt i (zero_lt_of_lt h.rewind)

theorem Good.uint32_place (h : Good f R s) (i : Nat) : uint32 (i % s.size) = i % s.size :=
  uint32_of_lt ((h.place_lt i).trans h.size)

/-- Up to the end of the ring, places follow positions. -/
theorem ring_forward {d B : Nat} (h : a % B + d < B) : (a + d) % B = a % B + d := by
  rw [add_mod, mod_eq_of_lt (show d < B by omega), mod_eq_of_lt h]

/-- The places of the `B - c` positions before `a` are not among the `c` places from `a` on. -/
theorem ring_apart {i c B : Nat} (hi : i < a) (hic : a + c ≤ i + B) :
    i % B < a % B ∨ a % B + c ≤ i % B := by
  obtain ⟨d, rfl⟩ : ∃ d, a = i + d := ⟨a - i, by omega⟩
  have hlt : i % B < B := mod_lt i (by omega)
  rcases lt_or_ge (i % B + d) B with hd | hd
  · rw [ring_forward hd]
    omega
  · right
    rw [← mod_add_mod, mod_eq_sub_mod hd, mod_eq_of_lt (by omega)]
    omega

section Fill

variable {s' : CBufferedFile}

/-- `Fill` throws when the reader has come to the end of the file, or `fread` gives nothing. -/
def Ended (f : SourceFile) (s : CBufferedFile) (e : FileStop) : Prop :=
  s.nReadPos = s.nSrcPos ∧ (e = .endOfFile ∧ s.nReadPos = f.data.length ∨
    e = .freadFailed ∧ f.fread (s.nCalls - 1) = 0)

section

variable (h : Good f R s) {nPos : Nat}
include h

theorem Good.setReadPos (hle : nPos ≤ s.nSrcPos) (hnear : s.nSrcPos ≤ nPos + s.size) :
    Good f R { s with nReadPos := nPos } :=
  { h with ahead := hle, near := hnear }

theorem Good.readNow_eq (hpos : s.nReadPos = s.nSrcPos) :
    s.readNow = min (s.size - s.nSrcPos % s.size) (s.size - s.nRewind) := by
  have hsize := h.size
  have hrewind := h.rewind
  have hsrc : s.nSrcPos < 2 ^ 64 := by have := h.fetched; have := f.fits; omega
  rw [readNow, h.uint32_place, hpos, sub64_of_le le_rfl hsrc, Nat.sub_self,
    sub64_of_le (Nat.zero_le _) (by omega), Nat.sub_zero, sub64_of_le hrewind.le (by omega),
    uint32_of_lt (by omega), uint32_of_lt (by omega)]

/-- Fetched bytes take the places of those that are furthest behind. -/
theorem Good.fetch (hpos : s.nReadPos = s.nSrcPos) {read : Nat} (hread : read ≤ s.readNow)
    (hleft : read ≤ f.data.length - s.nSrcPos) :
    Good f R { s with
      nSrcPos := s.nSrcPos + read
      vchBuf := store s.vchBuf (s.nSrcPos % s.size) ((f.data.drop s.nSrcPos).take read)
      nCalls := s.nCalls + 1 } := by
  have hfetched := h.fetched
  rw [h.readNow_eq hpos] at hread
  refine ⟨h.promised, h.rewind, h.size, by simp; omega, by simp; omega, by simp; omega,
    fun i hi hnear => ?_⟩
  simp only [store] at hi hnear ⊢
  rcases lt_or_ge i s.nSrcPos with hlt | hge
  · rw [h.window i hlt (by omega)]
    rcases ring_apart hlt hnear with hbefore | hafter
    · rw [if_neg (by omega)]
    · rw [if_pos (by omega), getElem?_eq_none (by simp; omega), getD_none]
  · obtain ⟨d, rfl⟩ : ∃ d, i = s.nSrcPos + d := ⟨i - s.nSrcPos, by omega⟩
    rw [ring_forward (by omega), if_pos (by omega), Nat.add_sub_cancel_left,
      getElem?_take_of_lt (by omega), getElem?_drop,
      getElem?_eq_getElem (by omega), getD_some]

theorem Good.refill_spec {e : Option FileStop} (hr : s.refill f = (e, s')) :
    Good f R s' ∧ s'.nReadPos = s.nReadPos ∧ (e = none → s'.nReadPos < s'.nSrcPos) ∧
      ∀ x, e = some x → Ended f s' x := by
  have hfits := f.fits
  have hahead := h.ahead
  have hplace := h.place_lt s.nSrcPos
  have hrewind := h.rewind
  rw [refill] at hr
  split_ifs at hr with hpos
  · have hnow := h.readNow_eq hpos
    rw [fill, if_neg (by omega)] at hr
    by_cases hread : min (min (f.fread s.nCalls) s.readNow) (f.data.length - s.nSrcPos) = 0
    · rw [if_pos hread] at hr
      obtain ⟨rfl, rfl⟩ := Prod.mk.inj hr
      refine ⟨⟨h.promised, hrewind, h.size, hahead, h.near, h.fetched, h.window⟩, rfl, by simp,
        fun x hx => ?_⟩
      have hfetched := h.fetched
      split_ifs at hx with hend <;> cases hx
      · exact ⟨hpos, .inl ⟨rfl, hpos.trans hend⟩⟩
      · exact ⟨hpos, .inr ⟨rfl, show f.fread s.nCalls = 0 by omega⟩⟩
    · rw [if_neg hread, h.uint32_place, add64_of_lt (by omega)] at hr
      obtain ⟨rfl, rfl⟩ := Prod.mk.inj hr
      refine ⟨h.fetch hpos (by omega) (by omega), rfl, fun _ => ?_, by simp⟩
      show s.nReadPos < s.nSrcPos + _
      omega
  · obtain ⟨rfl, rfl⟩ := Prod.mk.inj hr
    exact ⟨h, rfl, fun _ => by omega, by simp⟩

/-! ## Reading -/

variable {nSize fuel : Nat}

/-- The amount copied in one round, and the bytes. -/
theorem Good.copied_eq (hlt : s.nReadPos < s.nSrcPos) (hn : 0 < nSize) (hsize : nSize < 2 ^ 63) :
    0 < s.nNow nSize ∧ s.nNow nSize ≤ nSize ∧ s.nReadPos + s.nNow nSize ≤ s.nSrcPos ∧
      s.copied (s.nNow nSize) = (f.data.drop s.nReadPos).take (s.nNow nSize) := by
  have hfits := f.fits
  have hfetched := h.fetched
  have hplace := h.place_lt s.nReadPos
  have hB := h.size
  obtain ⟨n, hnow⟩ : ∃ n, s.nNow nSize = n := ⟨_, rfl⟩
  have hbounds : 0 < n ∧ n ≤ nSize ∧ s.nReadPos + n ≤ s.nSrcPos ∧
      s.nReadPos % s.size + n ≤ s.size := by
    have hadd := add64_of_lt (show nSize + s.nReadPos % s.size < 2 ^ 64 by omega)
    simp only [nNow, h.uint32_place, hadd] at hnow
    split_ifs at hnow with hend hsrc hsrc <;> rw [add64_of_lt (by omega)] at hsrc <;>
      try rw [sub64_of_le hlt.le (by omega)] at hnow
    all_goals omega
  obtain ⟨hpos, hle, hsrc, hend⟩ := hbounds
  refine ⟨by omega, by omega, by omega, ?_⟩
  rw [hnow, copied, h.uint32_place]
  refine ext_getElem? fun i => ?_
  rcases lt_or_ge i n with hi | hi
  · have hnear := h.near
    rw [getElem?_take_of_lt hi, getElem?_drop,
      h.window (s.nReadPos + i) (by omega) (by omega), ring_forward (by omega)]
    simp [hi]
  · rw [getElem?_eq_none (by simpa using hi), getElem?_eq_none (by simp; omega)]

/-- What `read` gives: bytes of the file from the reading position on, all of them fetched; as many
as were asked for, unless it throws. -/
structure Delivers (f : SourceFile) (s : CBufferedFile) (nSize : Nat) (out : Bytes)
    (e : Option FileStop) (s' : CBufferedFile) : Prop where
  bytes : out = (f.data.drop s.nReadPos).take out.length
  length : out.length ≤ nSize
  pos : s'.nReadPos = s.nReadPos + out.length
  fetched : s'.nReadPos ≤ s'.nSrcPos
  all : e = none → out.length = nSize

theorem Good.readLoop_spec (hfuel : nSize ≤ fuel) (hsize : nSize < 2 ^ 63) :
    ∃ out e s', readLoop f fuel nSize s = some (out, e, s') ∧ Delivers f s nSize out e s' ∧
      Good f R s' ∧ ∀ x, e = some x → Ended f s' x := by
  induction fuel generalizing nSize s with
  | zero =>
    obtain rfl : nSize = 0 := by omega
    exact ⟨[], none, s, rfl, ⟨by simp, by simp, rfl, h.ahead, by simp⟩, h, by simp⟩
  | succ fuel ih =>
    rcases nSize with _ | nSize
    · exact ⟨[], none, s, rfl, ⟨by simp, by simp, rfl, h.ahead, by simp⟩, h, by simp⟩
    rcases hr : s.refill f with ⟨e, s1⟩
    obtain ⟨h1, hpos, hlt, hended⟩ := h.refill_spec hr
    rw [readLoop, hr]
    rcases e with _ | e
    · obtain ⟨hn, hle, hsrc, hcopied⟩ := h1.copied_eq (hlt rfl) (by omega) hsize
      obtain ⟨n, hnow⟩ : ∃ n, s1.nNow (nSize + 1) = n := ⟨_, rfl⟩
      have hfits := f.fits
      have hfetched := h1.fetched
      have hnear := h1.near
      rw [hnow] at hn hle hsrc hcopied
      have h2 := h1.setReadPos hsrc (by omega)
      obtain ⟨out, e, s', hrun, hd, hg, he⟩ :=
        ih h2 (show nSize + 1 - n ≤ fuel by omega) (by omega)
      have hlen : ((f.data.drop s1.nReadPos).take n).length = n := by simp; omega
      have hbytes := hd.bytes
      have hd1 := hd.length
      have hd2 := hd.pos
      have hd3 := hd.all
      refine ⟨(f.data.drop s1.nReadPos).take n ++ out, e, s', ?_, ⟨?_, ?_, ?_, hd.fetched, ?_⟩, hg,
        he⟩
      · simp [hnow, sub64_of_le hle (show nSize + 1 < 2 ^ 64 by omega),
          add64_of_lt (show s1.nReadPos + n < 2 ^ 64 by omega), hcopied, hrun]
      · rw [length_append, hlen, take_add, drop_drop, ← hpos, ← hbytes]
      · rw [length_append, hlen]
        omega
      · rw [length_append, hlen, hd2, ← hpos]
        exact add_assoc _ _ _
      · intro hnone
        rw [length_append, hlen, hd3 hnone]
        omega
    · exact ⟨[], some e, s1, rfl, ⟨by simp, by simp, hpos, h1.ahead, by simp⟩, h1, hended⟩

/-- The reasons for which `read` throws. -/
def Stops (f : SourceFile) (s : CBufferedFile) (nSize : Nat) (s' : CBufferedFile) (e : FileStop) :
    Prop :=
  e = .pastLimit ∧ s.nReadLimit < s.nReadPos + nSize ∨
    e = .largerThanBuffer ∧ s.size < nSize + s.nRewind ∨ Ended f s' e

theorem Good.read_spec (hfuel : nSize ≤ fuel) (hsize : nSize < 2 ^ 63) :
    ∃ out e s', s.read f fuel nSize = some (out, e, s') ∧ Delivers f s nSize out e s' ∧
      (out ≠ [] → s.nReadPos + out.length ≤ s.nReadLimit) ∧
      (∀ x, e = some x → Stops f s nSize s' x) ∧ Good f R s' := by
  have hfits := f.fits
  have hfetched := h.fetched
  have hahead := h.ahead
  have hrewind := h.rewind
  have hB := h.size
  have hnone : Delivers f s nSize [] (some .pastLimit) s ∧
      Delivers f s nSize [] (some .largerThanBuffer) s :=
    ⟨⟨by simp, by simp, rfl, hahead, by simp⟩, ⟨by simp, by simp, rfl, hahead, by simp⟩⟩
  rw [read, add64_of_lt (by omega), add64_of_lt (by omega)]
  split_ifs with hlimit hlarge
  · refine ⟨[], _, s, rfl, hnone.1, by simp, fun x hx => ?_, h⟩
    cases hx
    exact .inl ⟨rfl, by omega⟩
  · refine ⟨[], _, s, rfl, hnone.2, by simp, fun x hx => ?_, h⟩
    cases hx
    exact .inr (.inl ⟨rfl, hlarge⟩)
  · obtain ⟨out, e, s', hrun, hd, hg, hended⟩ := h.readLoop_spec hfuel hsize
    have hlen := hd.length
    exact ⟨out, e, s', hrun, hd, fun _ => by omega, fun x hx => .inr (.inr (hended x hx)), hg⟩

/-! ## Searching -/

/-- `FindByte` stops at the first occurrence; if it throws, there is none in what was fetched. -/
structure Finds (f : SourceFile) (ch : UInt8) (s : CBufferedFile) (e : Option FileStop)
    (s' : CBufferedFile) : Prop where
  le : s.nReadPos ≤ s'.nReadPos
  none_before : ∀ i, s.nReadPos ≤ i → i < s'.nReadPos → f.data[i]? ≠ some ch
  found : e = none → f.data[s'.nReadPos]? = some ch
  stopped : ∀ x, e = some x → Ended f s' x

theorem Good.findByte_spec (ch : UInt8) (hfuel : f.data.length < s.nReadPos + fuel) :
    ∃ e s', s.findByte f ch fuel = some (e, s') ∧ Finds f ch s e s' ∧ Good f R s' := by
  induction fuel generalizing s with
  | zero =>
    have := h.ahead
    have := h.fetched
    omega
  | succ fuel ih =>
    rcases hr : s.refill f with ⟨e, s1⟩
    obtain ⟨h1, hpos, hlt, hended⟩ := h.refill_spec hr
    rw [findByte, hr]
    rcases e with _ | e
    · have hlt := hlt rfl
      have hfits := f.fits
      have hfetched := h1.fetched
      have hnear := h1.near
      have hbyte := h1.window s1.nReadPos hlt hnear
      dsimp only
      split_ifs with hch
      · refine ⟨none, s1, rfl, ⟨hpos.ge, fun i hi hi' => by omega, fun _ => ?_, by simp⟩, h1⟩
        rw [hbyte, hch]
      rw [add64_of_lt (by omega)]
      obtain ⟨e, s', hrun, hf, hg⟩ := ih (h1.setReadPos hlt (by omega))
        (show _ < s1.nReadPos + 1 + fuel by omega)
      have hle : s1.nReadPos + 1 ≤ s'.nReadPos := hf.le
      refine ⟨e, s', hrun, ⟨by omega, fun i hi hi' => ?_, hf.found, hf.stopped⟩, hg⟩
      rcases eq_or_lt_of_le (hpos ▸ hi) with rfl | hi
      · rw [hbyte]
        exact fun heq => hch (some.inj heq)
      · exact hf.none_before i hi hi'
    · exact ⟨some e, s1, rfl, ⟨hpos.ge, fun i hi hi' => by omega, by simp, hended⟩, h1⟩

/-! ## Runs -/

theorem Good.setPos (hpos : nPos < 2 ^ 63) : Good f R (s.setPos nPos).2 := by
  have hB := h.size
  have hrewind := h.rewind
  have hfits := f.fits
  have hfetched := h.fetched
  rw [CBufferedFile.setPos, add64_of_lt (by omega)]
  split_ifs with hback hover
  · rw [sub64_of_le (by omega) (by omega)]
    exact h.setReadPos (by omega) (by omega)
  · exact h.setReadPos le_rfl (by omega)
  · exact h.setReadPos (by omega) (by omega)

theorem Good.setLimit (nPos : Nat) : Good f R (s.setLimit nPos).2 := by
  rw [CBufferedFile.setLimit]
  split_ifs
  · exact h
  · exact { h with }

end

variable {B : Nat}

theorem Reached.good (hR : R < B) (hB : B < 2 ^ 32) (h : Reached f B R s) : Good f R s := by
  induction h with
  | start => exact ⟨rfl, hR, hB, le_rfl, zero_le _, zero_le _, by simp [CBufferedFile.start]⟩
  | @step s s' op _ hop hs hg =>
    cases op with
    | read nSize =>
      obtain ⟨out, e, s1, hrun, -, -, -, hg1⟩ := hg.read_spec le_rfl (show nSize < 2 ^ 63 from hop)
      simp only [CBufferedFile.step, hrun, map_some, some_inj] at hs
      exact hs ▸ hg1
    | findByte ch =>
      obtain ⟨e, s1, hrun, -, hg1⟩ := hg.findByte_spec ch
        (show f.data.length < s.nReadPos + (f.data.length + 1) by omega)
      simp only [CBufferedFile.step, hrun, map_some, some_inj] at hs
      exact hs ▸ hg1
    | setPos nPos => exact some.inj hs ▸ hg.setPos hop
    | setLimit nPos => exact some.inj hs ▸ hg.setLimit nPos

/-- **`bufferedFile_reads_file`** — in every state that calls with small arguments reach, with a
buffer below 4 GiB: `read` ends within as many rounds as bytes are asked for; what it delivers are
the bytes of the file from the reading position on, below the limit and fetched, all that were asked
for unless it throws, and it throws only for the limit, for a size above the buffer's, at the end of
the file, or when `fread` fails. `FindByte` ends at the first occurrence of the byte, or throws
after the last byte that could be fetched. -/
theorem bufferedFile_reads_file (hR : R < B) (hB : B < 2 ^ 32) (h : Reached f B R s) :
    (∀ nSize fuel, nSize < 2 ^ 63 → nSize ≤ fuel → ∃ out e s',
      s.read f fuel nSize = some (out, e, s') ∧ Delivers f s nSize out e s' ∧
        (out ≠ [] → s.nReadPos + out.length ≤ s.nReadLimit) ∧
        ∀ x, e = some x → Stops f s nSize s' x) ∧
    ∀ ch fuel, f.data.length < fuel → ∃ e s',
      s.findByte f ch fuel = some (e, s') ∧ Finds f ch s e s' := by
  have hg := h.good hR hB
  refine ⟨fun nSize fuel hsize hfuel => ?_, fun ch fuel hfuel => ?_⟩
  · obtain ⟨out, e, s', hrun, hd, hlimit, hstops, -⟩ := hg.read_spec hfuel hsize
    exact ⟨out, e, s', hrun, hd, hlimit, hstops⟩
  · obtain ⟨e, s', hrun, hf, -⟩ := hg.findByte_spec ch (Nat.lt_add_left _ hfuel)
    exact ⟨e, s', hrun, hf⟩

/-- **`setPos_rewinds_iff`** — going back at most `R` bytes works, and the bytes read from there are
those of the file, exactly when at most `R` bytes from the position on were fetched. -/
theorem setPos_rewinds_iff (hR : R < B) (hB : B < 2 ^ 32) (h : Reached f B R s) {nPos : Nat}
    (hback : s.nReadPos ≤ nPos + R) (hle : nPos ≤ s.nReadPos) :
    ((s.setPos nPos).1 = true ∧ ∀ nSize < 2 ^ 63, ∃ out e s',
      (s.setPos nPos).2.read f nSize nSize = some (out, e, s') ∧
        out = (f.data.drop nPos).take out.length ∧ (e = none → out.length = nSize)) ↔
    s.nSrcPos ≤ nPos + R := by
  have hg := h.good hR hB
  obtain rfl := hg.promised
  have hahead := hg.ahead
  have hfetched := hg.fetched
  have hrewind := hg.rewind
  have hfits := f.fits
  rw [CBufferedFile.setPos, add64_of_lt (by omega)]
  split_ifs with hbehind hover
  · exact iff_of_false (by simp) (by omega)
  · omega
  · refine iff_of_true ⟨rfl, fun nSize hsize => ?_⟩ (by omega)
    obtain ⟨out, e, s', hrun, hd, -⟩ :=
      (hg.setReadPos (show nPos ≤ s.nSrcPos by omega) (by omega)).read_spec le_rfl hsize
    exact ⟨out, e, s', hrun, hd.bytes, hd.all⟩

end Fill

/-- The bytes 0 to 19, which `fread` gives without stopping. -/
def twentyBytes : SourceFile := ⟨(List.range 20).map UInt8.ofNat, fun _ => 20, by decide⟩

/-- A buffer of ten bytes that promises to rewind two: reading one byte fetches eight, and going
back to the start is refused. -/
theorem setPos_refused_after_fill : ((start 10 2).step twentyBytes (.read 1)).map
      (fun s => (s.nReadPos, (s.setPos 0).1, (s.setPos 0).2.nReadPos)) = some (1, false, 6) := by
  decide +kernel

/-- The state after the calls, of a file that was opened with a buffer of ten bytes. -/
def afterCalls (ops : List FileOp) : Option CBufferedFile :=
  ops.foldlM (step twentyBytes) (start 10 2)

theorem reached_afterCalls {ops : List FileOp} {s : CBufferedFile} (hops : ∀ op ∈ ops, op.Small)
    (hs : afterCalls ops = some s) : Reached twentyBytes 10 2 s := by
  have hrun : ∀ {s0}, Reached twentyBytes 10 2 s0 → ops.foldlM (step twentyBytes) s0 = some s →
      Reached twentyBytes 10 2 s := by
    clear hs
    induction ops with
    | nil =>
      rintro s0 h ⟨⟩
      exact h
    | cons op ops ih =>
      intro s0 h hs
      rw [forall_mem_cons] at hops
      obtain ⟨s1, hstep, hrest⟩ := bind_eq_some_iff.mp hs
      exact ih hops.2 (h.step hops.1 hstep) hrest
  exact hrun .start hs

/-- After eight bytes were read, exactly the last two can be read again. -/
theorem setPos_rewinds_after_read : ∃ s, afterCalls [.read 8] = some s ∧ s.nReadPos = 8 ∧
    (s.setPos 6).1 = true ∧ ∃ out e s', (s.setPos 6).2.read twentyBytes 4 4 = some (out, e, s') ∧
      out = (twentyBytes.data.drop 6).take out.length := by
  obtain ⟨s, hs⟩ : ∃ s, afterCalls [.read 8] = some s := ⟨_, rfl⟩
  have hpos : (afterCalls [.read 8]).map (fun s => (s.nReadPos, s.nSrcPos)) = some (8, 8) := by
    decide +kernel
  rw [hs, map_some, some_inj, Prod.mk.injEq] at hpos
  have hreached := reached_afterCalls (by simp [FileOp.Small]) hs
  obtain ⟨hok, hread⟩ := (setPos_rewinds_iff (by decide) (by decide) hreached
    (show s.nReadPos ≤ 6 + 2 by omega) (by omega)).mpr (by omega)
  obtain ⟨out, e, s', hrun, hout, -⟩ := hread 4 (by decide)
  exact ⟨s, hs, hpos.1, hok, out, e, s', hrun, hout⟩

/-- From a file of one byte, with a rewind of five: the position `2^64 - 5` plus the rewind wraps
around to 0, the reader is put four bytes before 0, and reading one byte delivers five that are not
in the file. -/
theorem read_after_wrapped_setPos : ((start 10 5).step ⟨[7], fun _ => 1, by decide⟩ (.read 1)).bind
      (fun s => ((s.setPos (2 ^ 64 - 5)).2.read ⟨[7], fun _ => 1, by decide⟩ 2 1).map (·.1)) =
      some [0, 0, 0, 0, 0] := by
  decide +kernel

/-- Eight bytes are read, two of them once more, and the reading goes on past the end of the ring:
the next byte has number 14 and is kept at place four. -/
theorem bufferedFile_reads_wrapped : ∃ s, afterCalls [.read 8, .setPos 6, .read 8] = some s ∧
    s.nReadPos = 14 ∧ ∃ out e s', s.read twentyBytes 3 3 = some (out, e, s') ∧
      Delivers twentyBytes s 3 out e s' := by
  obtain ⟨s, hs⟩ : ∃ s, afterCalls [.read 8, .setPos 6, .read 8] = some s := ⟨_, rfl⟩
  have hpos : (afterCalls [.read 8, .setPos 6, .read 8]).map nReadPos = some 14 := by decide +kernel
  rw [hs, map_some, some_inj] at hpos
  have hreached := reached_afterCalls (by simp [FileOp.Small]) hs
  obtain ⟨out, e, s', hrun, hd, -⟩ :=
    (bufferedFile_reads_file (by decide) (by decide) hreached).1 3 3 (by decide) le_rfl
  exact ⟨s, hs, hpos, out, e, s', hrun, hd⟩

end CBufferedFile

end MonetaryUnit
