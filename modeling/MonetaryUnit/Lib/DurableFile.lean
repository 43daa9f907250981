/-
# MonetaryUnit.Lib.DurableFile — files that lose what was not committed

A file has a written content, which the running program reads and changes, and a durable
content, which is what a crash leaves. Only a commit makes the two equal.

`Holds f pos b` says that the bytes `b` stand at position `pos`. It depends on the bytes up to
the end of `b` only (`Holds.of_take`), so a write, a truncation or an allocation behind that
end keeps it.

`Keeps f f' size` is the rule for programs that append: what `f` holds in its first `size`
bytes, `f'` still holds, and so it does in the durable content.
-/

import MonetaryUnit.Lib.LittleEndian

namespace MonetaryUnit.Lib

open List

/-! ## Contents -/

/-- Overwrite from position `pos` on; a gap before it is filled with zeros. -/
def writeAt (f : Bytes) (pos : Nat) (b : Bytes) : Bytes :=
  f.take pos ++ (List.replicate (pos - f.length) 0 ++ b ++ f.drop (pos + b.length))

/-- `ftruncate`: cut off, or fill up with zeros. -/
def truncateAt (f : Bytes) (n : Nat) : Bytes := f.take n ++ List.replicate (n - f.length) 0

/-- `posix_fallocate`: make the file at least `n` bytes long. -/
def allocateTo (f : Bytes) (n : Nat) : Bytes := f ++ List.replicate (n - f.length) 0

def Holds (f : Bytes) (pos : Nat) (b : Bytes) : Prop := b <+: f.drop pos

section Holds

variable {f g b : Bytes} {pos n : Nat}

theorem holds_iff : Holds f pos b ↔ (f.take (pos + b.length)).drop pos = b := by
  rw [Holds, prefix_iff_eq_take, drop_take, Nat.add_sub_cancel_left, eq_comm]

theorem Holds.of_take (h : Holds f pos b)
    (heq : g.take (pos + b.length) = f.take (pos + b.length)) : Holds g pos b := by
  rw [holds_iff] at h ⊢
  rwa [heq]

theorem Holds.length_le (h : Holds f pos b) (hb : b ≠ []) : pos + b.length ≤ f.length := by
  have hlen := List.IsPrefix.length_le h
  have hpos := length_pos_iff.mpr hb
  rw [length_drop] at hlen
  omega

theorem Holds.drop_eq (h : Holds f pos b) : ∃ rest, f.drop pos = b ++ rest := by
  obtain ⟨rest, hrest⟩ := h
  exact ⟨rest, hrest.symm⟩

theorem holds_nil : Holds f pos [] := nil_prefix

theorem Holds.of_append {c : Bytes} (h : Holds f pos (b ++ c)) : Holds f (pos + b.length) c := by
  obtain ⟨rest, hrest⟩ := h
  refine ⟨rest, ?_⟩
  rw [← drop_drop, ← hrest, append_assoc, drop_left]

section

variable (h : Holds f pos b)
include h

/-- A file that begins like `f` holds what `f` holds. -/
theorem Holds.of_prefix (hn : pos + b.length ≤ n) {rest : Bytes} (hg : g = f.take n ++ rest) :
    Holds g pos b := by
  by_cases hb : b = []
  · subst hb
    exact holds_nil
  · apply h.of_take
    have hlen := h.length_le hb
    rw [hg, take_append_of_le_length (by rw [length_take]; omega), take_take, Nat.min_eq_left hn]

theorem Holds.writeAt {p : Nat} (hp : pos + b.length ≤ p) (src : Bytes) :
    Holds (writeAt f p src) pos b :=
  h.of_prefix hp rfl

theorem Holds.truncateAt (hn : pos + b.length ≤ n) : Holds (truncateAt f n) pos b :=
  h.of_prefix hn rfl

theorem Holds.allocateTo (n : Nat) : Holds (allocateTo f n) pos b := by
  obtain ⟨rest, hrest⟩ := h
  by_cases hpos : pos ≤ f.length
  · exact ⟨rest ++ replicate (n - f.length) 0, by
      rw [Lib.allocateTo, drop_append_of_le_length hpos, ← hrest, append_assoc]⟩
  · rw [drop_of_length_le (by omega)] at hrest
    rw [(append_eq_nil_iff.mp hrest).1]
    exact holds_nil

end

theorem holds_writeAt (f : Bytes) (pos : Nat) (b : Bytes) : Holds (writeAt f pos b) pos b := by
  have hlen : (f.take pos ++ replicate (pos - f.length) (0 : UInt8)).length = pos := by
    rw [length_append, length_take, length_replicate]
    omega
  refine ⟨f.drop (pos + b.length), ?_⟩
  have hsplit : writeAt f pos b = (f.take pos ++ replicate (pos - f.length) 0) ++
      (b ++ f.drop (pos + b.length)) := by
    simp only [writeAt, append_assoc]
  rw [hsplit]
  exact (drop_left' hlen).symm

end Holds

/-! ## Files -/

structure DurableFile where
  written : Bytes
  durable : Bytes
deriving DecidableEq, Repr

namespace DurableFile

/-- A file that was there before, and whose content is on the disk. -/
def existing (content : Bytes) : DurableFile := ⟨content, content⟩

def write (f : DurableFile) (pos : Nat) (b : Bytes) : DurableFile :=
  { f with written := writeAt f.written pos b }

def truncate (f : DurableFile) (n : Nat) : DurableFile :=
  { f with written := truncateAt f.written n }

def allocate (f : DurableFile) (n : Nat) : DurableFile :=
  { f with written := allocateTo f.written n }

def commit (f : DurableFile) : DurableFile := { f with durable := f.written }

/-- Nothing would be lost. -/
def Committed (f : DurableFile) : Prop := f.durable = f.written

theorem committed_commit (f : DurableFile) : f.commit.Committed := rfl

/-! ## What an appending program keeps -/

structure Keeps (f f' : DurableFile) (size : Nat) : Prop where
  written : ∀ {pos b}, pos + b.length ≤ size → Holds f.written pos b → Holds f'.written pos b
  durable : ∀ {pos b}, pos + b.length ≤ size → Holds f.written pos b → Holds f.durable pos b →
    Holds f'.durable pos b

variable {f g h : DurableFile} {size size' : Nat}

theorem Keeps.refl (f : DurableFile) (size : Nat) : Keeps f f size :=
  ⟨fun _ hw => hw, fun _ _ hd => hd⟩

theorem Keeps.trans (hfg : Keeps f g size) (hgh : Keeps g h size') (hle : size ≤ size') :
    Keeps f h size where
  written := fun hend hw => hgh.written (hend.trans hle) (hfg.written hend hw)
  durable := fun hend hw hd =>
    hgh.durable (hend.trans hle) (hfg.written hend hw) (hfg.durable hend hw hd)

theorem keeps_write {pos : Nat} (hsize : size ≤ pos) (b : Bytes) : Keeps f (f.write pos b) size :=
  ⟨fun hend hw => hw.writeAt (hend.trans hsize) b, fun _ _ hd => hd⟩

theorem keeps_truncate {n : Nat} (hsize : size ≤ n) : Keeps f (f.truncate n) size :=
  ⟨fun hend hw => hw.truncateAt (hend.trans hsize), fun _ _ hd => hd⟩

theorem keeps_allocate (n : Nat) : Keeps f (f.allocate n) size :=
  ⟨fun _ hw => hw.allocateTo n, fun _ _ hd => hd⟩

theorem keeps_commit : Keeps f f.commit size := ⟨fun _ hw => hw, fun _ hw _ => hw⟩

end DurableFile

end MonetaryUnit.Lib
