/-
# MonetaryUnit.Crypto.StreamingHash — a message hashed piece by piece

`CSHA256`, `CSHA512`, `CSHA1` and `CRIPEMD160` have one `Write`, `Finalize` and `Reset` in four
copies: a buffer for an incomplete block, full blocks taken from the source, a padding that is
computed modulo the size of a block. `Engine` has what the copies differ in, and `Transform` is a
parameter.

`memcpy` into the buffer is checked, so `none` is an overrun. `Absorbed` says what a hasher
remembers of the message: its complete blocks are in the state, the rest is in the buffer.
Writing keeps it (`Absorbed.write`), whichever way the pieces are cut.
-/

import MonetaryUnit.Lib.Blocks
import MonetaryUnit.Lib.LittleEndian

namespace MonetaryUnit

open Lib

def writeLE32 (x : UInt32) : Bytes := leBytes 4 x.toNat

def writeBE32 (x : UInt32) : Bytes := (leBytes 4 x.toNat).reverse

def writeLE64 (x : Nat) : Bytes := leBytes 8 x

def writeBE64 (x : Nat) : Bytes := (leBytes 8 x).reverse

theorem leBytes_zero (n : Nat) : leBytes n 0 = List.replicate n 0 := by
  induction n with
  | zero => rfl
  | succ n ih => rw [leBytes, Nat.zero_div, ih, List.replicate_succ]; rfl

/-- The high half of a number that fits the low half. -/
theorem leBytes_add {m : Nat} (n : Nat) {v : Nat} (h : v < 256 ^ m) :
    leBytes (m + n) v = leBytes m v ++ List.replicate n 0 := by
  induction m generalizing v with
  | zero =>
    obtain rfl : v = 0 := by simpa using h
    rw [Nat.zero_add, leBytes_zero]
    rfl
  | succ m ih =>
    have hdiv : v / 256 < 256 ^ m := by
      rw [Nat.div_lt_iff_lt_mul (by decide)]
      rwa [pow_succ] at h
    rw [show m + 1 + n = m + n + 1 by omega, leBytes, ih hdiv]
    rfl

/-- The constants of a hasher. `sizedesc` is the length in bits as the code writes it and
`lengthField` as the standard does. -/
structure Engine (σ : Type) where
  block : Nat
  padBase : Nat
  sizeLength : Nat
  sizedesc : Nat → Bytes
  lengthField : Nat → Bytes
  initial : σ
  transform : σ → Bytes → σ
  output : σ → Bytes
  block_le : block ≤ 128
  sizeLength_lt : sizeLength < block
  pad_total : padBase + 1 + sizeLength = 2 * block
  length_sizedesc : ∀ n, (sizedesc n).length = sizeLength
  sizedesc_eq : ∀ n < 2 ^ 64, sizedesc n = lengthField n

/-- The hashers on words of 32 bits. -/
def engine32 {k : Nat} (initial : Vector UInt32 k) (writeWord : UInt32 → Bytes)
    (writeSize : Nat → Bytes) (hsize : ∀ n, (writeSize n).length = 8)
    (transform : Vector UInt32 k → Bytes → Vector UInt32 k) : Engine (Vector UInt32 k) where
  block := 64
  padBase := 119
  sizeLength := 8
  sizedesc := writeSize
  lengthField := writeSize
  initial := initial
  transform := transform
  output s := s.toList.flatMap writeWord
  block_le := by decide
  sizeLength_lt := by decide
  pad_total := rfl
  length_sizedesc := hsize
  sizedesc_eq _ _ := rfl

def sha256 : (Vector UInt32 8 → Bytes → Vector UInt32 8) → Engine (Vector UInt32 8) :=
  engine32 #v[0x6a09e667, 0xbb67ae85, 0x3c6ef372, 0xa54ff53a, 0x510e527f, 0x9b05688c, 0x1f83d9ab,
    0x5be0cd19] writeBE32 writeBE64 (by simp [writeBE64])

def sha1 : (Vector UInt32 5 → Bytes → Vector UInt32 5) → Engine (Vector UInt32 5) :=
  engine32 #v[0x67452301, 0xEFCDAB89, 0x98BADCFE, 0x10325476, 0xC3D2E1F0] writeBE32 writeBE64
    (by simp [writeBE64])

def ripemd160 : (Vector UInt32 5 → Bytes → Vector UInt32 5) → Engine (Vector UInt32 5) :=
  engine32 #v[0x67452301, 0xEFCDAB89, 0x98BADCFE, 0x10325476, 0xC3D2E1F0] writeLE32 writeLE64
    (by simp [writeLE64])

/-- The length has 16 bytes, of which the code writes the last eight. -/
def sha512 (transform : Vector UInt64 8 → Bytes → Vector UInt64 8) : Engine (Vector UInt64 8) where
  block := 128
  padBase := 239
  sizeLength := 16
  sizedesc n := List.replicate 8 0 ++ writeBE64 n
  lengthField n := (leBytes 16 n).reverse
  initial := #v[0x6a09e667f3bcc908, 0xbb67ae8584caa73b, 0x3c6ef372fe94f82b, 0xa54ff53a5f1d36f1,
    0x510e527fade682d1, 0x9b05688c2b3e6c1f, 0x1f83d9abfb41bd6b, 0x5be0cd19137e2179]
  transform := transform
  output s := s.toList.flatMap fun x => writeBE64 x.toNat
  block_le := by decide
  sizeLength_lt := by decide
  pad_total := rfl
  length_sizedesc n := by simp [writeBE64]
  sizedesc_eq n hn := by
    rw [leBytes_add 8 (show n < 256 ^ 8 from hn), List.reverse_append,
      List.reverse_replicate, writeBE64]

/-! ## The code -/

/-- The state, the block that is being filled and the bytes so far. -/
structure Hasher (σ : Type) where
  s : σ
  buf : Bytes
  bytes : Nat

/-- `none` writes past the end of the buffer. -/
def memcpy (buf : Bytes) (start : Nat) (data : Bytes) : Option Bytes :=
  if start + data.length ≤ buf.length then
    some (buf.take start ++ data ++ buf.drop (start + data.length))
  else none

namespace Engine

open List

variable {σ : Type} (E : Engine σ)

/-- The constructor leaves `buf` as it is. -/
def construct (buf : Bytes) : Hasher σ := ⟨E.initial, buf, 0⟩

def reset (h : Hasher σ) : Hasher σ := { h with s := E.initial, bytes := 0 }

/-- The buffer is filled, and processed, if there is something in it and the data is enough. Also
the data that is left, and `bufsize`. -/
def fillBuffer (h : Hasher σ) (data : Bytes) : Option (Hasher σ × Bytes × Nat) :=
  let bufsize := h.bytes % E.block
  if bufsize ≠ 0 ∧ E.block ≤ bufsize + data.length then
    (memcpy h.buf bufsize (data.take (E.block - bufsize))).map fun buf =>
      (⟨E.transform h.s buf, buf, (h.bytes + (E.block - bufsize)) % 2 ^ 64⟩,
        data.drop (E.block - bufsize), 0)
  else some (h, data, bufsize)

/-- Full chunks directly from the source. -/
def chunks (s : σ) (bytes : Nat) (data : Bytes) : σ × Nat × Bytes :=
  if E.block ≤ data.length then
    chunks (E.transform s (data.take E.block)) ((bytes + E.block) % 2 ^ 64) (data.drop E.block)
  else (s, bytes, data)
termination_by data.length
decreasing_by
  have := E.sizeLength_lt
  simp only [length_drop]
  omega

/-- Chunks, and what remains into the buffer. -/
def takeData (h : Hasher σ) (data : Bytes) (bufsize : Nat) : Option (Hasher σ) :=
  let c := E.chunks h.s h.bytes data
  if c.2.2 ≠ [] then
    (memcpy h.buf bufsize c.2.2).map fun buf => ⟨c.1, buf, (c.2.1 + c.2.2.length) % 2 ^ 64⟩
  else some ⟨c.1, h.buf, c.2.1⟩

/-- Complete the buffered block, then take whole blocks, keep the rest. -/
def write (h : Hasher σ) (data : Bytes) : Option (Hasher σ) :=
  (E.fillBuffer h data).bind fun r => E.takeData r.1 r.2.1 r.2.2

/-- The static array. -/
def pad : Bytes := 0x80 :: replicate (E.block - 1) 0

/-- Pad to a whole block that ends in the length. -/
def finalize (h : Hasher σ) : Option (Bytes × Hasher σ) :=
  (E.write h (E.pad.take (1 + (E.padBase - h.bytes % E.block) % E.block))).bind fun h1 =>
    (E.write h1 (E.sizedesc (h.bytes * 8 % 2 ^ 64))).map fun h2 => (E.output h2.s, h2)

/-! ## What a hasher remembers -/

variable {E} {h h' : Hasher σ} {s : σ} {n n' : Nat} {msg data r : Bytes}

theorem block_pos (E : Engine σ) : 0 < E.block := Nat.zero_lt_of_lt E.sizeLength_lt

/-- `h` has read `msg`, starting from `s`: the complete blocks are in the state and the rest is in
the buffer. -/
structure Absorbed (E : Engine σ) (s : σ) (msg : Bytes) (n : Nat) (h : Hasher σ) : Prop where
  size : h.buf.length = E.block
  state : h.s = (cut E.block msg).1.foldl E.transform s
  pending : h.buf.take (cut E.block msg).2.length = (cut E.block msg).2
  count : h.bytes = n

theorem Absorbed.append (ha : Absorbed E s msg n h)
    (hd : Absorbed E h.s ((cut E.block msg).2 ++ data) n' h') :
    Absorbed E s (msg ++ data) n' h' := by
  refine ⟨hd.size, ?_, ?_, hd.count⟩
  · rw [cut_append E.block_pos, hd.state, ha.state, foldl_append]
  · rw [cut_append E.block_pos]
    exact hd.pending

theorem chunks_eq (hfit : n + data.length < 2 ^ 64) :
    E.chunks s n data = ((cut E.block data).1.foldl E.transform s,
      n + data.length - (cut E.block data).2.length, (cut E.block data).2) := by
  fun_induction Engine.chunks E s n data with
  | case1 s n data h ih =>
    rw [Nat.mod_eq_of_lt (show n + E.block < 2 ^ 64 by omega)] at ih ⊢
    rw [length_drop, show n + E.block + (data.length - E.block) = n + data.length by omega] at ih
    rw [ih hfit, cut_of_le E.block_pos h]
    rfl
  | case2 s n data h =>
    rw [cut_of_lt (by omega), Nat.add_sub_cancel]
    rfl

theorem memcpy_eq {buf d : Bytes} (hr : buf.take r.length = r)
    (hfit : r.length + d.length ≤ buf.length) : ∃ buf', memcpy buf r.length d = some buf' ∧
      buf'.length = buf.length ∧ buf'.take (r ++ d).length = r ++ d := by
  refine ⟨_, if_pos hfit, ?_, ?_⟩
  · simp only [length_append, length_take, length_drop]
    omega
  · rw [hr, take_left]

/-- The rest `r` of what came before is in the buffer, and the chunks of the data do not need
it. -/
theorem takeData_spec (hsize : h.buf.length = E.block) (hr : h.buf.take r.length = r)
    (hfit : h.bytes + data.length < 2 ^ 64)
    (hcut : cut E.block (r ++ data) = ((cut E.block data).1, r ++ (cut E.block data).2)) :
    ∃ h', E.takeData h data r.length = some h' ∧
      Absorbed E h.s (r ++ data) (h.bytes + data.length) h' := by
  have hlen := length_cut E.block_pos data
  have hlt : (cut E.block (r ++ data)).2.length < E.block := by
    rw [length_cut E.block_pos]
    exact Nat.mod_lt _ E.block_pos
  have hle : data.length % E.block ≤ data.length := Nat.mod_le _ _
  rw [hcut, length_append] at hlt
  rw [takeData, chunks_eq hfit]
  split_ifs with hrest
  · obtain ⟨buf', hcopy, hbuf, htake⟩ := memcpy_eq hr (hlt.le.trans hsize.ge)
    rw [hcopy, Nat.sub_add_cancel (by omega), Nat.mod_eq_of_lt hfit]
    exact ⟨_, rfl, hbuf.trans hsize, by rw [hcut], by rw [hcut]; exact htake, rfl⟩
  · rw [not_not.mp hrest] at hcut ⊢
    exact ⟨_, rfl, hsize, by rw [hcut], by rw [hcut, append_nil]; exact hr, rfl⟩

/-- Whatever is pending and however long the piece is, the message grows
by the piece. -/
theorem Absorbed.write (ha : Absorbed E s msg msg.length h) (hfit : (msg ++ data).length < 2 ^ 64) :
    ∃ h', E.write h data = some h' ∧ Absorbed E s (msg ++ data) (msg ++ data).length h' := by
  have hlen := length_cut E.block_pos msg
  have hlt := Nat.mod_lt msg.length E.block_pos
  have happend {h' : Hasher σ} (hd : Absorbed E h.s ((cut E.block msg).2 ++ data)
    (msg ++ data).length h') := ha.append hd
  have hr := ha.pending
  generalize (cut E.block msg).2 = r at hlen hr happend
  rw [← hlen] at hlt
  rw [length_append] at hfit happend ⊢
  rw [Engine.write, fillBuffer, ha.count, ← hlen]
  split_ifs with hfull
  · -- the buffer is completed to a block
    have htake : (data.take (E.block - r.length)).length = E.block - r.length := by
      rw [length_take]
      omega
    obtain ⟨buf, hcopy, hbuf, hwhole⟩ := memcpy_eq (d := data.take (E.block - r.length)) hr
      (by rw [htake, ha.size]; omega)
    rw [take_of_length_le (by rw [length_append, htake, hbuf, ha.size]; omega)] at hwhole
    have hcut := cut_of_le E.block_pos (show E.block ≤ (r ++ data).length from
      length_append ▸ hfull.2)
    rw [take_append, take_of_length_le hlt.le, drop_append, drop_eq_nil_of_le hlt.le,
      ← hwhole] at hcut
    have hfit' : msg.length + (E.block - r.length) < 2 ^ 64 := by omega
    obtain ⟨h', heq, hd⟩ := @takeData_spec σ E
      ⟨E.transform h.s buf, buf, msg.length + (E.block - r.length)⟩
      (data.drop (E.block - r.length)) [] (hbuf.trans ha.size) rfl
      (by rw [length_drop]; dsimp only; omega) rfl
    rw [hcopy, Nat.mod_eq_of_lt hfit']
    refine ⟨h', heq, happend ⟨hd.size, ?_, ?_, ?_⟩⟩
    · rw [hcut]
      exact hd.state
    · rw [hcut]
      exact hd.pending
    · rw [hd.count, length_drop]
      dsimp only
      omega
  · have hcut : cut E.block (r ++ data) = ((cut E.block data).1, r ++ (cut E.block data).2) := by
      rcases eq_or_ne r [] with rfl | hne
      · rfl
      · have hpos := length_pos_iff.mpr hne
        rw [cut_of_lt (by rw [length_append]; omega), cut_of_lt (by omega)]
    obtain ⟨h', heq, hd⟩ := takeData_spec ha.size hr (ha.count ▸ hfit) hcut
    rw [ha.count] at hd
    exact ⟨h', heq, happend hd⟩

theorem Absorbed.writes {pieces : List Bytes} (ha : Absorbed E s msg msg.length h)
    (hfit : (msg ++ pieces.flatten).length < 2 ^ 64) :
    ∃ h', pieces.foldlM E.write h = some h' ∧
      Absorbed E s (msg ++ pieces.flatten) (msg ++ pieces.flatten).length h' := by
  induction pieces generalizing msg h with
  | nil => exact ⟨h, rfl, by simpa using ha⟩
  | cons data pieces ih =>
    rw [flatten_cons, ← append_assoc] at hfit ⊢
    have hfit1 : (msg ++ data).length < 2 ^ 64 := by
      rw [length_append] at hfit
      omega
    obtain ⟨h1, hwrite, h1a⟩ := ha.write hfit1
    rw [foldlM_cons, hwrite]
    exact ih h1a hfit

/-! ## The padded message -/

/-- The message as the standard pads it, with a number of zeros. -/
def padded (E : Engine σ) (msg : Bytes) (zeros : Nat) : Bytes :=
  msg ++ 0x80 :: replicate zeros 0 ++ E.lengthField (8 * msg.length)

/-- Pieces in any number and of any length, from any contents of the buffer: the buffer is not
overrun, and the hash is that of the padded message. The number of zeros is the one that makes
whole blocks. -/
def Streams (E : Engine σ) : Prop :=
  ∀ (buf : Bytes) (pieces : List Bytes), buf.length = E.block → pieces.flatten.length < 2 ^ 61 →
    ∃ h zeros h', pieces.foldlM E.write (E.construct buf) = some h ∧ h.buf.length = E.block ∧
      zeros < E.block ∧ (E.padded pieces.flatten zeros).length % E.block = 0 ∧
      E.finalize h = some (E.output ((cut E.block (E.padded pieces.flatten zeros)).1.foldl
        E.transform E.initial), h') ∧ h'.buf.length = E.block

theorem streams (E : Engine σ) : E.Streams := by
  intro buf pieces hbuf hlen
  have hstart : Absorbed E E.initial [] ([] : Bytes).length (E.construct buf) := by
    have hnil : cut E.block ([] : Bytes) = ([], []) := cut_of_lt E.block_pos
    refine ⟨hbuf, ?_, ?_, rfl⟩ <;> rw [hnil] <;> rfl
  obtain ⟨h, hwrites, ha⟩ := hstart.writes
    (show pieces.flatten.length < 2 ^ 64 from hlen.trans (by decide))
  rw [nil_append] at ha
  generalize pieces.flatten = msg at ha hlen ⊢
  have hpad := E.pad_total
  have hsize := E.sizeLength_lt
  have hblock := E.block_le
  have hmod := Nat.mod_lt msg.length E.block_pos
  have hfield : E.sizedesc (msg.length * 8 % 2 ^ 64) = E.lengthField (8 * msg.length) := by
    rw [Nat.mod_eq_of_lt (by omega), E.sizedesc_eq _ (by omega), Nat.mul_comm]
  have hdesc := E.length_sizedesc (msg.length * 8 % 2 ^ 64)
  generalize hz : (E.padBase - msg.length % E.block) % E.block = zeros
  have hzeros : zeros < E.block := hz ▸ Nat.mod_lt _ E.block_pos
  have hpadding : E.pad.take (1 + zeros) = 0x80 :: replicate zeros 0 := by
    rw [pad, Nat.add_comm, take_succ_cons, take_replicate, Nat.min_eq_left (by omega)]
  have htotal : (E.padded msg zeros).length = msg.length + (1 + zeros) + E.sizeLength := by
    rw [padded, ← hfield, length_append, length_append, length_cons, length_replicate]
    omega
  have hfit1 : (msg ++ 0x80 :: replicate zeros 0).length < 2 ^ 64 := by
    rw [length_append, length_cons, length_replicate]
    omega
  obtain ⟨h1, hwrite1, ha1⟩ := ha.write hfit1
  obtain ⟨h2, hwrite2, ha2⟩ := ha1.write (show (E.padded msg zeros).length < 2 ^ 64 by omega)
  refine ⟨h, zeros, h2, hwrites, ha.size, hzeros, ?_, ?_, ha2.size⟩
  · -- the message, the padding and the length are a multiple of the block
    have hdiv := Nat.div_add_mod msg.length E.block
    have hdiv' := Nat.div_add_mod (E.padBase - msg.length % E.block) E.block
    rw [htotal, show msg.length + (1 + zeros) + E.sizeLength = E.block * (msg.length / E.block) +
      E.block * 2 - E.block * ((E.padBase - msg.length % E.block) / E.block) by omega,
      ← Nat.mul_add, ← Nat.mul_sub]
    exact Nat.mul_mod_right _ _
  · rw [finalize, ha.count, hz, hpadding, hwrite1, Option.bind_some, hfield, hwrite2, padded,
      ← ha2.state]
    rfl

end Engine

/-- **`streaming_hash`** — whatever `Transform` is, the four hashers hash a message of less than
`2 ^ 61` bytes as the standard prescribes, however it is cut into pieces, and a hasher that is
reset is a new one. -/
theorem streaming_hash (t256 : Vector UInt32 8 → Bytes → Vector UInt32 8)
    (t512 : Vector UInt64 8 → Bytes → Vector UInt64 8)
    (t1 t160 : Vector UInt32 5 → Bytes → Vector UInt32 5) :
    ((sha256 t256).Streams ∧ (sha512 t512).Streams ∧ (sha1 t1).Streams ∧ (ripemd160 t160).Streams) ∧
    ∀ {σ : Type} (E : Engine σ) (h : Hasher σ), E.reset h = E.construct h.buf :=
  ⟨⟨Engine.streams _, Engine.streams _, Engine.streams _, Engine.streams _⟩, fun _ _ => rfl⟩

end MonetaryUnit
