import Llbt.Lib.Bytes
import Llbt.Crc32c

/-!
# The commit journal on disk

Embedding of `commit_journal_format.hpp` and of the byte-level parts of `commit_journal.cpp`
and `commit_recovery.cpp`:

* `writeBytes` / `readBytes` — the journal is sixteen blobs of 4 MiB; both functions walk the
  chunk list piece by piece.  `journal chunks file` is the flat image the pieces make up, and
  `readBytes_eq` / `journal_writeBytes` say that the two loops read and write that image.
* `Commit` — what a commit hands to `prepare_append`.
* `requiredSize` — the space a record takes.
-/

set_option autoImplicit false

namespace Llbt.Journal

open ByteImage

/-! ## Constants and fields -/

def headerMagic : Nat := 0x35324a4354424c4c
def footerMagic : Nat := 0x524554464a43544c
def recordVersion : Nat := 1
def fixedHeaderSize : Nat := 64
def entrySize : Nat := 16
def footerSize : Nat := 24

def chunkSize : Nat := 4 * 1024 * 1024
def chunkCount : Nat := 16
def capacity : Nat := chunkSize * chunkCount

def nodeHeaderSize : Nat := 8

/-- `size_t(-1)`; also the value `UINT64_MAX` that stands for it in a record. -/
def npos : Nat := 2 ^ 64 - 1

def aligned (value : Nat) : Nat := (value + 7) / 8 * 8

def putU32 (v : Nat) : List UInt8 := putLE 4 v
def putU64 (v : Nat) : List UInt8 := putLE 8 v
def getU32 (buf : List UInt8) (i : Nat) : Nat := leVal ((buf.drop i).take 4)
def getU64 (buf : List UInt8) (i : Nat) : Nat := leVal ((buf.drop i).take 8)

def requiredSize (arrayCount : Nat) : Nat :=
  aligned (fixedHeaderSize + arrayCount * entrySize + footerSize)

theorem requiredSize_eq (n : Nat) : requiredSize n = 88 + 16 * n := by
  simp only [requiredSize, aligned, fixedHeaderSize, entrySize, footerSize]; omega

/-- An array a commit wrote: where, how many bytes, and the checksum in its first word. -/
structure WrittenArray where
  ref : Nat
  size : Nat
  checksum : Nat
  deriving DecidableEq, Repr

/-- Positions handed out by the allocator are multiples of 8 below `2 ^ 64`; sizes and
checksums are 32-bit. -/
structure WrittenArray.WF (a : WrittenArray) : Prop where
  ref_lt : a.ref < 2 ^ 64
  ref_aligned : a.ref % 8 = 0
  size_lt : a.size < 2 ^ 32
  checksum_lt : a.checksum < 2 ^ 32

/-- What a commit hands to `prepare_append`. -/
structure Commit where
  version : Nat
  topRef : Nat
  logicalSize : Nat
  arrays : List WrittenArray
  version_lt : version < 2 ^ 64
  topRef_lt : topRef < 2 ^ 64
  topRef_aligned : topRef % 8 = 0
  logicalSize_lt : logicalSize < 2 ^ 64
  arrays_wf : ∀ a ∈ arrays, a.WF

/-- Total size of the arrays a commit wrote (`cow_bytes`). -/
def cowBytes (arrays : List WrittenArray) : Nat := (arrays.map (·.size)).sum

/-! ## The chunk list -/

/-- The chunk list of a journal: sixteen nodes that do not overlap. -/
structure ChunksWF (chunks : List Nat) : Prop where
  length_eq : chunks.length = chunkCount
  apart : ∀ i j, i < chunkCount → j < chunkCount → i ≠ j →
    chunks.getD i 0 + nodeHeaderSize + chunkSize ≤ chunks.getD j 0 ∨
      chunks.getD j 0 + nodeHeaderSize + chunkSize ≤ chunks.getD i 0

/-- File position of journal offset `o`. -/
def position (chunks : List Nat) (o : Nat) : Nat :=
  chunks.getD (o / chunkSize) 0 + nodeHeaderSize + o % chunkSize

/-- The journal as one flat image, zero beyond its capacity. -/
def journal (chunks : List Nat) (file : Image) : Image := fun o =>
  if o < capacity then file (position chunks o) else 0

def writeBytes (chunks : List Nat) (file : Image) (offset : Nat) (data : List UInt8) : Image :=
  if data.length = 0 then file else
  let inChunk := offset % chunkSize
  let count := min data.length (chunkSize - inChunk)
  let target := chunks.getD (offset / chunkSize) 0 + nodeHeaderSize + inChunk
  writeBytes chunks (write file target (data.take count)) (offset + count) (data.drop count)
termination_by data.length
decreasing_by
  have : offset % chunkSize < chunkSize := Nat.mod_lt _ (by decide)
  simp only [List.length_drop]; omega

def readBytes (chunks : List Nat) (file : Image) (offset size : Nat) : List UInt8 :=
  if size = 0 then [] else
  let inChunk := offset % chunkSize
  let count := min size (chunkSize - inChunk)
  let source := chunks.getD (offset / chunkSize) 0 + nodeHeaderSize + inChunk
  slice file source count ++ readBytes chunks file (offset + count) (size - count)
termination_by size
decreasing_by
  have : offset % chunkSize < chunkSize := Nat.mod_lt _ (by decide)
  omega

theorem position_add (chunks : List Nat) {o i : Nat} (h : o % chunkSize + i < chunkSize) :
    position chunks (o + i) = position chunks o + i := by
  have hdiv : (o + i) / chunkSize = o / chunkSize := by simp only [chunkSize] at h ⊢; omega
  have hmod : (o + i) % chunkSize = o % chunkSize + i := by simp only [chunkSize] at h ⊢; omega
  simp only [position, hdiv, hmod]; omega

/-- **The read loop returns a slice of the flat image.** -/
theorem readBytes_eq (chunks : List Nat) (file : Image) :
    ∀ (size offset : Nat), offset + size ≤ capacity →
      readBytes chunks file offset size = slice (journal chunks file) offset size := by
  intro size
  induction size using Nat.strongRecOn with
  | _ size ih =>
    intro offset h
    unfold readBytes
    split
    · rename_i h0; subst h0; rfl
    rename_i h0
    dsimp only
    have hlt : offset % chunkSize < chunkSize := Nat.mod_lt _ (by decide)
    generalize hc : min size (chunkSize - offset % chunkSize) = count
    have hle : count ≤ size := by omega
    have hpos : 0 < count := by omega
    have hfirst : slice file (chunks.getD (offset / chunkSize) 0 + nodeHeaderSize +
        offset % chunkSize) count = slice (journal chunks file) offset count := by
      apply List.map_congr_left
      intro i hi
      simp only [List.mem_range] at hi
      show file (position chunks offset + i) = journal chunks file (offset + i)
      rw [journal, if_pos (by omega), position_add _ (by omega)]
    rw [hfirst, ih (size - count) (by omega) (offset + count) (by omega), ← slice_append, Nat.add_sub_cancel' hle]

theorem position_injective {chunks : List Nat} (hwf : ChunksWF chunks) {o o' : Nat}
    (ho : o < capacity) (ho' : o' < capacity) (h : position chunks o = position chunks o') :
    o = o' := by
  have hc : 0 < chunkSize := by decide
  have hi : o / chunkSize < chunkCount := Nat.div_lt_of_lt_mul ho
  have hi' : o' / chunkSize < chunkCount := Nat.div_lt_of_lt_mul ho'
  have hm := Nat.mod_lt o hc
  have hm' := Nat.mod_lt o' hc
  have hd := Nat.div_add_mod o chunkSize
  have hd' := Nat.div_add_mod o' chunkSize
  simp only [position] at h
  by_cases hij : o / chunkSize = o' / chunkSize
  · rw [hij] at h hd; omega
  · have := hwf.apart _ _ hi hi' hij
    omega

theorem journal_write {chunks : List Nat} (hwf : ChunksWF chunks) (file : Image) {o : Nat}
    {bs : List UInt8} (h : o + bs.length ≤ capacity) (hc : o % chunkSize + bs.length ≤ chunkSize) :
    journal chunks (write file (position chunks o) bs) = write (journal chunks file) o bs := by
  funext x
  by_cases hx : x < capacity
  · simp only [journal, if_pos hx]
    by_cases hin : o ≤ x ∧ x < o + bs.length
    · have hp : position chunks x = position chunks o + (x - o) := by
        have := position_add chunks (o := o) (i := x - o) (by omega)
        rwa [Nat.add_sub_cancel' hin.1] at this
      rw [write_inside _ hin.1 hin.2, hp, write_inside _ (by omega) (by omega)]
      congr 1; omega
    · rw [write_outside (o := o) _ (by omega), journal, if_pos hx]
      apply write_outside
      -- a position inside the written range would be the position of an offset in `[o, o + n)`
      refine Classical.byContradiction fun hcon => hin ?_
      have hq := position_add chunks (o := o)
        (i := position chunks x - position chunks o) (by omega)
      have : x = o + (position chunks x - position chunks o) :=
        position_injective hwf hx (by omega) (by omega)
      omega
  · have : journal chunks (write file (position chunks o) bs) x = 0 := if_neg hx
    rw [this, write_outside _ (by omega)]
    exact (if_neg hx).symm

theorem journal_writeBytes {chunks : List Nat} (hwf : ChunksWF chunks) :
    ∀ (n : Nat) (file : Image) (offset : Nat) (data : List UInt8), data.length = n →
      offset + data.length ≤ capacity →
      journal chunks (writeBytes chunks file offset data) =
        write (journal chunks file) offset data := by
  intro n
  induction n using Nat.strongRecOn with
  | _ n ih =>
    intro file offset data hn h
    unfold writeBytes
    split
    · rename_i h0
      rw [List.eq_nil_of_length_eq_zero h0, write_nil]
    rename_i h0
    dsimp only
    have hlt : offset % chunkSize < chunkSize := Nat.mod_lt _ (by decide)
    generalize hc : min data.length (chunkSize - offset % chunkSize) = count
    have htake : (data.take count).length = count := by simp; omega
    rw [ih (data.drop count).length (by simp; omega) _ _ _ rfl (by simp; omega)]
    have hw := @journal_write _ hwf file offset (data.take count) (by omega) (by omega)
    rw [position] at hw
    rw [hw]
    have := write_append (journal chunks file) offset (data.take count) (data.drop count)
    rw [List.take_append_drop, htake] at this
    exact this.symm

theorem writeBytes_frame {chunks : List Nat} {x : Nat} :
    ∀ (n : Nat) (file : Image) (offset : Nat) (data : List UInt8), data.length = n →
      (∀ o, offset ≤ o → o < offset + data.length → position chunks o ≠ x) →
      writeBytes chunks file offset data x = file x := by
  intro n
  induction n using Nat.strongRecOn with
  | _ n ih =>
    intro file offset data hn hx
    unfold writeBytes
    split
    · rfl
    rename_i h0
    dsimp only
    have hlt : offset % chunkSize < chunkSize := Nat.mod_lt _ (by decide)
    generalize hc : min data.length (chunkSize - offset % chunkSize) = count
    have htake : (data.take count).length = count := by simp; omega
    rw [ih (data.drop count).length (by simp; omega) _ _ _ rfl fun o h₁ h₂ => hx o (by omega) (by simp at h₂; omega)]
    apply write_outside
    refine Classical.byContradiction fun hcon => ?_
    have hp := position_add chunks (o := offset) (i := x - position chunks offset)
      (by simp only [position]; omega)
    refine hx (offset + (x - position chunks offset)) (by omega) (by simp only [position]; omega) ?_
    rw [hp]; simp only [position]; omega

theorem writeBytes_outside {chunks : List Nat} {x : Nat} (n : Nat) (file : Image) (offset : Nat) (data : List UInt8)
    (hn : data.length = n)
    (h : offset + data.length ≤ capacity) (hx : ∀ o, o < capacity → position chunks o ≠ x) :
    writeBytes chunks file offset data x = file x :=
  writeBytes_frame n file offset data hn fun o _ ho => hx o (by omega)

end Llbt.Journal
