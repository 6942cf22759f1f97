import Llbt.Journal.Format

/-!
# Journal records

`encodeRecord` is the record `CommitJournal::prepare_append` builds, `parseRecord` the checks
`CommitRecovery::scan` makes on one record before it compares sequence numbers and arrays.

* `parseRecord_of_recordAt` — a record that stands whole in the journal is parsed back to
  exactly the values it was built from.
* `not_headerAt_inside` — no 8-aligned position *inside* a record looks like the header of
  another one.  This is what keeps the remains of old records harmless, and it rests on the
  ranges of the fields: refs are aligned, sizes are bounded by the checkpoint policy.
-/

set_option autoImplicit false

namespace Llbt.Journal

open ByteImage

/-! ## Encoding -/

def encodeEntry (a : WrittenArray) : List UInt8 := putU64 a.ref ++ putU32 a.size ++ putU32 a.checksum

/-- Everything of a record but its checksum; `sequence` and `previous` come from the journal's
own fields.  The gap before the footer is what alignment adds. -/
def recordBody (sequence previous : Nat) (c : Commit) : List UInt8 :=
  let recordSize := requiredSize c.arrays.length
  putU64 headerMagic ++ putU32 recordVersion ++ putU32 fixedHeaderSize ++ putU64 sequence ++
    putU64 c.version ++ putU64 (if previous = npos then npos else previous) ++ putU64 c.topRef ++
    putU64 c.logicalSize ++ putU32 c.arrays.length ++ putU32 recordSize ++
    c.arrays.flatMap encodeEntry ++
    List.replicate (recordSize - footerSize - (fixedHeaderSize + c.arrays.length * entrySize)) 0 ++
    putU64 footerMagic ++ putU64 sequence ++ putU32 recordSize

/-- The bytes `prepare_append` writes. -/
def encodeRecord (sequence previous : Nat) (c : Commit) : List UInt8 :=
  recordBody sequence previous c ++ putU32 (Crc32c.compute (recordBody sequence previous c))

def recordWords (sequence previous : Nat) (c : Commit) : List Nat :=
  [headerMagic, recordVersion + fixedHeaderSize * 2 ^ 32, sequence, c.version, previous, c.topRef,
    c.logicalSize, c.arrays.length + requiredSize c.arrays.length * 2 ^ 32] ++
  c.arrays.flatMap (fun a => [a.ref, a.size + a.checksum * 2 ^ 32]) ++
  [footerMagic, sequence, requiredSize c.arrays.length +
    Crc32c.compute (recordBody sequence previous c) * 2 ^ 32]

theorem putU32_append {a : Nat} (h : a < 2 ^ 32) (b : Nat) :
    putU32 a ++ putU32 b = putU64 (a + b * 2 ^ 32) :=
  putLE_append 4 4 a b (by simpa using h)

theorem requiredSize_lt {n : Nat} (h : requiredSize n ≤ capacity) : requiredSize n < 2 ^ 32 :=
  Nat.lt_of_le_of_lt h (by decide)

theorem arrays_length_lt {n : Nat} (h : requiredSize n ≤ capacity) : n < 2 ^ 32 := by
  have := requiredSize_lt h
  rw [requiredSize_eq] at this; omega

theorem flatMap_encodeEntry (as : List WrittenArray) (h : ∀ a ∈ as, a.WF) :
    as.flatMap encodeEntry =
      (as.flatMap (fun a => [a.ref, a.size + a.checksum * 2 ^ 32])).flatMap putU64 := by
  induction as with
  | nil => rfl
  | cons a as ih =>
    have ha := h a List.mem_cons_self
    simp only [List.flatMap_cons, List.flatMap_append, List.flatMap_nil, List.append_nil,
      ih (fun b hb => h b (List.mem_cons_of_mem _ hb)), encodeEntry, List.append_assoc,
      putU32_append ha.size_lt]

theorem encodeRecord_eq {sequence previous : Nat} {c : Commit}
    (h : requiredSize c.arrays.length ≤ capacity) :
    encodeRecord sequence previous c = (recordWords sequence previous c).flatMap putU64 := by
  have hgap : requiredSize c.arrays.length - footerSize -
      (fixedHeaderSize + c.arrays.length * entrySize) = 0 := by
    rw [requiredSize_eq]; simp only [footerSize, fixedHeaderSize, entrySize]; omega
  have hprev : (if previous = npos then npos else previous) = previous := by
    split <;> simp_all
  have h1 : putU32 recordVersion ++ putU32 fixedHeaderSize =
      putU64 (recordVersion + fixedHeaderSize * 2 ^ 32) := putU32_append (by decide) _
  have h2 := putU32_append (arrays_length_lt h) (requiredSize c.arrays.length)
  have h3 := putU32_append (requiredSize_lt h)
    (Crc32c.compute (recordBody sequence previous c))
  have hbody : recordBody sequence previous c = putU64 headerMagic ++
      ((putU32 recordVersion ++ putU32 fixedHeaderSize) ++ (putU64 sequence ++ (putU64 c.version ++
      (putU64 previous ++ (putU64 c.topRef ++ (putU64 c.logicalSize ++ ((putU32 c.arrays.length ++
      putU32 (requiredSize c.arrays.length)) ++ (c.arrays.flatMap encodeEntry ++
      (putU64 footerMagic ++ (putU64 sequence ++ putU32 (requiredSize c.arrays.length)))))))))))  := by
    simp only [recordBody, hgap, hprev, List.replicate_zero, List.append_nil, List.append_assoc]
  rw [encodeRecord, recordWords]
  generalize Crc32c.compute (recordBody sequence previous c) = crc at h3 ⊢
  rw [hbody, h1, h2, flatMap_encodeEntry _ c.arrays_wf]
  simp only [List.append_assoc, h3, List.flatMap_append, List.flatMap_cons, List.flatMap_nil,
    List.append_nil]

theorem flatMap_putU64_length (ws : List Nat) : (ws.flatMap putU64).length = 8 * ws.length := by
  induction ws with
  | nil => rfl
  | cons w ws ih => simp [ih, putU64]; omega

theorem recordWords_length (sequence previous : Nat) (c : Commit) :
    (recordWords sequence previous c).length = 11 + 2 * c.arrays.length := by
  simp [recordWords]; omega

theorem encodeRecord_length {sequence previous : Nat} {c : Commit}
    (h : requiredSize c.arrays.length ≤ capacity) :
    (encodeRecord sequence previous c).length = requiredSize c.arrays.length := by
  rw [encodeRecord_eq h, flatMap_putU64_length, recordWords_length, requiredSize_eq]; omega

/-! ## Reading fields out of an image -/

theorem getU64_slice (m : Image) {o n i : Nat} (h : i + 8 ≤ n) :
    getU64 (slice m o n) i = word m (o + i) := by
  rw [getU64, slice_drop_take _ _ _ _ _ h, word]

theorem getU32_slice (m : Image) {o n i : Nat} (h : i + 4 ≤ n) :
    getU32 (slice m o n) i = leVal (slice m (o + i) 4) := by
  rw [getU32, slice_drop_take _ _ _ _ _ h]

/-! ## Parsing -/

/-- The values `scan` takes from a complete record. -/
structure Record where
  sequence : Nat
  version : Nat
  previous : Nat
  newTop : Nat
  logicalSize : Nat
  recordSize : Nat
  arrays : List WrittenArray
  deriving DecidableEq, Repr

/-- Outcome of looking at one offset: the loop breaks, throws, or has a complete record. -/
inductive Parsed where
  | stop
  | badHeader
  | record (r : Record)
  deriving DecidableEq, Repr

/-- Entry `i` of the array table of a record. -/
def getEntry (record : List UInt8) (i : Nat) : WrittenArray :=
  let cursor := fixedHeaderSize + i * entrySize
  ⟨getU64 record cursor, getU32 record (cursor + 8), getU32 record (cursor + 12)⟩

/-- The loop body of `CommitRecovery::scan` up to the checksum comparison; `read offset size`
stands for `read_bytes`. -/
def parseRecord (read : Nat → Nat → List UInt8) (offset : Nat) : Parsed :=
  let fixed := read offset fixedHeaderSize
  if getU64 fixed 0 ≠ headerMagic then .stop
  else if getU32 fixed 8 ≠ recordVersion ∨ getU32 fixed 12 ≠ fixedHeaderSize then .badHeader
  else
    let nextSequence := getU64 fixed 16
    let arrays := getU32 fixed 56
    let recordSize := getU32 fixed 60
    let minimum := fixedHeaderSize + arrays * entrySize + footerSize
    if recordSize < minimum ∨ recordSize % 8 ≠ 0 ∨ offset + recordSize > capacity then .stop
    else
      let record := read offset recordSize
      let footer := recordSize - footerSize
      if getU64 record footer ≠ footerMagic ∨ getU64 record (footer + 8) ≠ nextSequence ∨
          getU32 record (footer + 16) ≠ recordSize then .stop
      else if getU32 record (footer + 20) ≠ Crc32c.compute (record.take (footer + 20)) then .stop
      else .record ⟨nextSequence, getU64 fixed 24, getU64 fixed 32, getU64 fixed 40,
        getU64 fixed 48, recordSize, (List.range arrays).map (getEntry record)⟩

/-- What `scan` gets back from the record of commit `c`. -/
def Commit.toRecord (c : Commit) (sequence previous : Nat) : Record :=
  ⟨sequence, c.version, previous, c.topRef, c.logicalSize, requiredSize c.arrays.length, c.arrays⟩

/-- A read function that returns slices of the flat image `J`. -/
def Reads (read : Nat → Nat → List UInt8) (J : Image) : Prop :=
  ∀ offset size, offset + size ≤ capacity → read offset size = slice J offset size

theorem reads_journal (chunks : List Nat) (file : Image) :
    Reads (readBytes chunks file) (journal chunks file) :=
  fun offset size h => readBytes_eq chunks file size offset h

/-- The record of commit `c` stands whole at offset `o` of the journal. -/
structure RecordAt (J : Image) (o sequence previous : Nat) (c : Commit) : Prop where
  fits : o + requiredSize c.arrays.length ≤ capacity
  bytes : slice J o (requiredSize c.arrays.length) = encodeRecord sequence previous c
  sequence_lt : sequence < 2 ^ 64
  previous_lt : previous < 2 ^ 64

theorem getElem?_flatMap_pair {α β : Type} (f g : α → β) :
    ∀ {as : List α} {i : Nat} {a : α}, as[i]? = some a →
      (as.flatMap fun x => [f x, g x])[2 * i]? = some (f a) ∧
        (as.flatMap fun x => [f x, g x])[2 * i + 1]? = some (g a)
  | [], _, _, h => by simp at h
  | b :: as, 0, a, h => by
    obtain rfl : b = a := by simpa using h
    exact ⟨rfl, rfl⟩
  | b :: as, i + 1, a, h => by
    have := @getElem?_flatMap_pair _ _ f g as i a (by simpa using h)
    simpa [show 2 * (i + 1) = 2 * i + 1 + 1 by omega] using this

namespace RecordAt

variable {J : Image} {o s p : Nat} {c : Commit}

theorem size_le (h : RecordAt J o s p c) : requiredSize c.arrays.length ≤ capacity := by
  have := h.fits; omega

theorem word_eq (h : RecordAt J o s p c) {i v : Nat} (hi : (recordWords s p c)[i]? = some v)
    (hv : v < 2 ^ 64) : word J (o + 8 * i) = v := by
  have hb := h.bytes
  rw [encodeRecord_eq h.size_le, requiredSize_eq,
    show 88 + 16 * c.arrays.length = 8 * (recordWords s p c).length by
      rw [recordWords_length]; omega] at hb
  rw [word_of_slice hb hi, Nat.mod_eq_of_lt hv]

theorem halves_eq (h : RecordAt J o s p c) {i a b : Nat}
    (hi : (recordWords s p c)[i]? = some (a + b * 2 ^ 32)) (ha : a < 2 ^ 32) (hb : b < 2 ^ 32) :
    leVal (slice J (o + 8 * i) 4) = a ∧ leVal (slice J (o + 8 * i + 4) 4) = b := by
  have hw := h.word_eq hi (by omega)
  rw [word_halves] at hw
  have h1 := half_lt J (o + 8 * i)
  have h2 := half_lt J (o + 8 * i + 4)
  omega

theorem footer_word {j v : Nat} (hj : ([footerMagic, s, requiredSize c.arrays.length +
      Crc32c.compute (recordBody s p c) * 2 ^ 32] : List Nat)[j]? = some v) :
    (recordWords s p c)[8 + 2 * c.arrays.length + j]? = some v := by
  rw [recordWords, List.getElem?_append_right (by simp; omega), ← hj]
  congr 1
  simp; omega

theorem entry_words {i : Nat} {a : WrittenArray} (hi : c.arrays[i]? = some a) :
    (recordWords s p c)[8 + 2 * i]? = some a.ref ∧
      (recordWords s p c)[8 + 2 * i + 1]? = some (a.size + a.checksum * 2 ^ 32) := by
  have hlt : i < c.arrays.length := by
    obtain ⟨h, -⟩ := List.getElem?_eq_some_iff.mp hi; exact h
  obtain ⟨h1, h2⟩ := getElem?_flatMap_pair (fun a : WrittenArray => a.ref)
    (fun a => a.size + a.checksum * 2 ^ 32) hi
  constructor
  · rw [recordWords, List.getElem?_append_left (by simp; omega),
      List.getElem?_append_right (by simp)]
    simpa using h1
  · rw [recordWords, List.getElem?_append_left (by simp; omega),
      List.getElem?_append_right (by simp; omega)]
    simpa [show 8 + 2 * i + 1 - 8 = 2 * i + 1 by omega] using h2

theorem entry_eq (h : RecordAt J o s p c) {i : Nat} {a : WrittenArray}
    (hi : c.arrays[i]? = some a) :
    getEntry (slice J o (requiredSize c.arrays.length)) i = a := by
  have hlt : i < c.arrays.length := (List.getElem?_eq_some_iff.mp hi).1
  have hsize := requiredSize_eq c.arrays.length
  have hwf := c.arrays_wf a (List.mem_of_getElem? hi)
  obtain ⟨h1, h2⟩ := entry_words (s := s) (p := p) hi
  have hr := h.word_eq h1 hwf.ref_lt
  obtain ⟨hs, hc⟩ := h.halves_eq h2 hwf.size_lt hwf.checksum_lt
  simp only [getEntry, fixedHeaderSize, entrySize]
  rw [getU64_slice _ (by omega), getU32_slice _ (by omega), getU32_slice _ (by omega),
    show o + (64 + i * 16) = o + 8 * (8 + 2 * i) by omega,
    show o + (64 + i * 16 + 8) = o + 8 * (8 + 2 * i + 1) by omega,
    show o + (64 + i * 16 + 12) = o + 8 * (8 + 2 * i + 1) + 4 by omega, hr, hs, hc]

theorem entries_eq (h : RecordAt J o s p c) :
    (List.range c.arrays.length).map (getEntry (slice J o (requiredSize c.arrays.length))) =
      c.arrays := by
  apply List.ext_getElem (by simp)
  intro i h1 h2
  simp only [List.getElem_map, List.getElem_range]
  exact h.entry_eq (List.getElem?_eq_getElem h2)

end RecordAt

/-- **A record that stands whole in the journal is parsed back to its values.** -/
theorem parseRecord_of_recordAt {read : Nat → Nat → List UInt8} {J : Image} (hread : Reads read J)
    {o s p : Nat} {c : Commit} (h : RecordAt J o s p c) :
    parseRecord read o = .record (c.toRecord s p) := by
  have hfits := h.fits
  have hsize := requiredSize_eq c.arrays.length
  have hsize_lt := requiredSize_lt h.size_le
  have hlen_lt := arrays_length_lt h.size_le
  have hfixed : read o fixedHeaderSize = slice J o 64 := hread o 64 (by omega)
  have hrecord := hread o (requiredSize c.arrays.length) hfits
  -- the fixed header, field by field
  have w0 : getU64 (slice J o 64) 0 = headerMagic :=
    (getU64_slice J (by omega)).trans (h.word_eq (i := 0) rfl (by decide))
  have w2 : getU64 (slice J o 64) 16 = s :=
    (getU64_slice J (by omega)).trans (h.word_eq (i := 2) rfl h.sequence_lt)
  have w3 : getU64 (slice J o 64) 24 = c.version :=
    (getU64_slice J (by omega)).trans (h.word_eq (i := 3) rfl c.version_lt)
  have w4 : getU64 (slice J o 64) 32 = p :=
    (getU64_slice J (by omega)).trans (h.word_eq (i := 4) rfl h.previous_lt)
  have w5 : getU64 (slice J o 64) 40 = c.topRef :=
    (getU64_slice J (by omega)).trans (h.word_eq (i := 5) rfl c.topRef_lt)
  have w6 : getU64 (slice J o 64) 48 = c.logicalSize :=
    (getU64_slice J (by omega)).trans (h.word_eq (i := 6) rfl c.logicalSize_lt)
  have h1 := h.halves_eq (i := 1) (a := recordVersion) (b := fixedHeaderSize) rfl
    (by decide) (by decide)
  have h7 := h.halves_eq (i := 7) (a := c.arrays.length) (b := requiredSize c.arrays.length) rfl
    hlen_lt hsize_lt
  have w1 : getU32 (slice J o 64) 8 = recordVersion := (getU32_slice J (by omega)).trans h1.1
  have w1' : getU32 (slice J o 64) 12 = fixedHeaderSize := (getU32_slice J (by omega)).trans h1.2
  have w7 : getU32 (slice J o 64) 56 = c.arrays.length := (getU32_slice J (by omega)).trans h7.1
  have w7' : getU32 (slice J o 64) 60 = requiredSize c.arrays.length :=
    (getU32_slice J (by omega)).trans h7.2
  -- the footer
  have hf : requiredSize c.arrays.length - footerSize = 64 + 16 * c.arrays.length := by
    simp only [footerSize]; omega
  have f0 := h.word_eq (RecordAt.footer_word (j := 0) rfl) (by decide)
  have f1 := h.word_eq (RecordAt.footer_word (j := 1) rfl) h.sequence_lt
  have f2 := h.halves_eq (RecordAt.footer_word (j := 2) rfl) hsize_lt (Crc32c.compute_lt _)
  have hbody : (slice J o (requiredSize c.arrays.length)).take
      (64 + 16 * c.arrays.length + 20) = recordBody s p c := by
    have hl := congrArg List.length h.bytes
    rw [h.bytes, encodeRecord]
    rw [encodeRecord, List.length_append, slice_length] at hl
    simp only [putU32, putLE_length] at hl
    exact List.take_left' (by omega)
  have hmin : fixedHeaderSize + c.arrays.length * entrySize + footerSize =
      requiredSize c.arrays.length := by
    simp only [fixedHeaderSize, entrySize, footerSize]; omega
  unfold parseRecord
  simp only [hfixed, hrecord, w0, w1, w1', w2, w3, w4, w5, w6, w7, w7', hmin, hf, hbody,
    h.entries_eq, ne_eq, not_true_eq_false, or_self, if_false]
  rw [if_neg (by omega), getU64_slice _ (by omega), getU64_slice _ (by omega),
    getU32_slice _ (by omega), getU32_slice _ (by omega),
    show o + (64 + 16 * c.arrays.length) = o + 8 * (8 + 2 * c.arrays.length + 0) by omega,
    show o + (64 + 16 * c.arrays.length + 8) = o + 8 * (8 + 2 * c.arrays.length + 1) by omega,
    show o + (64 + 16 * c.arrays.length + 16) = o + 8 * (8 + 2 * c.arrays.length + 2) by omega,
    show o + (64 + 16 * c.arrays.length + 20) = o + 8 * (8 + 2 * c.arrays.length + 2) + 4 by omega,
    f0, f1, f2.1, f2.2]
  simp [Commit.toRecord]

theorem parseRecord_of_word_ne {read : Nat → Nat → List UInt8} {J : Image} (hread : Reads read J)
    {o : Nat} (ho : o + 64 ≤ capacity) (h : word J o ≠ headerMagic) :
    parseRecord read o = .stop := by
  have hfixed : read o fixedHeaderSize = slice J o 64 := hread o 64 ho
  have h0 : getU64 (slice J o 64) 0 = word J o := getU64_slice J (by omega)
  unfold parseRecord
  simp only [hfixed, h0]
  exact if_pos h

/-! ## No stray headers -/

/-- The first two words of a record header stand at `o`. -/
def HeaderAt (J : Image) (o : Nat) : Prop :=
  word J o = headerMagic ∧ word J (o + 8) = recordVersion + fixedHeaderSize * 2 ^ 32

theorem headerAt_iff {J : Image} {o : Nat} : HeaderAt J o ↔ word J o = headerMagic ∧
    leVal (slice J (o + 8) 4) = recordVersion ∧ leVal (slice J (o + 12) 4) = fixedHeaderSize := by
  refine and_congr_right fun _ => ?_
  have h1 := half_lt J (o + 8)
  have h2 := half_lt J (o + 12)
  rw [word_halves, show o + 8 + 4 = o + 12 by omega]
  simp only [recordVersion, fixedHeaderSize]
  omega

theorem header_fields {read : Nat → Nat → List UInt8} {J : Image} (hread : Reads read J) {o : Nat}
    (ho : o + 64 ≤ capacity) : getU64 (read o fixedHeaderSize) 0 = word J o ∧
      getU32 (read o fixedHeaderSize) 8 = leVal (slice J (o + 8) 4) ∧
      getU32 (read o fixedHeaderSize) 12 = leVal (slice J (o + 12) 4) ∧
      getU32 (read o fixedHeaderSize) 60 = leVal (slice J (o + 60) 4) := by
  rw [show read o fixedHeaderSize = slice J o 64 from hread o 64 ho]
  exact ⟨getU64_slice J (by omega), getU32_slice J (by omega), getU32_slice J (by omega), getU32_slice J (by omega)⟩

theorem parseRecord_record {read : Nat → Nat → List UInt8} {J : Image} (hread : Reads read J)
    {o : Nat} {r : Record} (ho : o + 64 ≤ capacity) (h : parseRecord read o = .record r) :
    HeaderAt J o ∧ r.recordSize = leVal (slice J (o + 60) 4) := by
  obtain ⟨h0, h1, h2, h3⟩ := header_fields hread ho
  unfold parseRecord at h
  simp only [h0, h1, h2, h3] at h
  split at h
  · cases h
  rename_i hmagic
  split at h
  · cases h
  rename_i hversion
  split at h
  · cases h
  split at h
  · cases h
  split at h
  · cases h
  obtain rfl := Parsed.record.inj h
  rw [headerAt_iff]
  exact ⟨⟨by simpa using hmagic, by simpa using hversion⟩, rfl⟩

theorem parseRecord_badHeader {read : Nat → Nat → List UInt8} {J : Image} (hread : Reads read J)
    {o : Nat} (ho : o + 64 ≤ capacity) :
    parseRecord read o = .badHeader ↔ word J o = headerMagic ∧ ¬ HeaderAt J o := by
  obtain ⟨h0, h1, h2, -⟩ := header_fields hread ho
  rw [headerAt_iff]
  unfold parseRecord
  simp only [h0, h1, h2]
  by_cases hmagic : word J o = headerMagic
  · by_cases hversion : leVal (slice J (o + 8) 4) = recordVersion ∧
        leVal (slice J (o + 12) 4) = fixedHeaderSize
    · simp only [hmagic, hversion.1, hversion.2, ne_eq, not_true_eq_false, or_self, if_false,
        and_self, and_false, iff_false]
      split
      · simp
      split
      · simp
      split
      · simp
      · simp
    · rw [if_neg (by simpa using hmagic), if_pos (not_and_or.mp hversion)]
      simp [hmagic, hversion]
  · rw [if_pos hmagic]
    simp [hmagic]

/-- Ranges the journal keeps for the records it writes: sequence numbers are counted from the
start of the journal, links point back into it, and the checkpoint policy bounds the arrays. -/
structure InRange (o sequence previous : Nat) (c : Commit) : Prop where
  offset_aligned : o % 8 = 0
  sequence_le : 88 * sequence ≤ o + 88
  previous_range : previous = npos ∨ previous < o
  size_le : ∀ a ∈ c.arrays, a.size ≤ 64 * 1024 * 1024

theorem RecordAt.not_headerAt_entry {J : Image} {o s p i : Nat} {c : Commit}
    (h : RecordAt J o s p c) (hr : InRange o s p c) (hi : i < 2 * c.arrays.length) :
    ¬ HeaderAt J (o + 8 * (8 + i)) := by
  rintro ⟨hm, -⟩
  have hlt : i / 2 < c.arrays.length := by omega
  have hget := List.getElem?_eq_getElem hlt
  have hmem := List.mem_of_getElem? hget
  have hwf := c.arrays_wf _ hmem
  have hle := hr.size_le _ hmem
  generalize c.arrays[i / 2] = a at hget hwf hle
  obtain ⟨h1, h2⟩ := RecordAt.entry_words (s := s) (p := p) hget
  have hcs := hwf.checksum_lt
  rcases Nat.mod_two_eq_zero_or_one i with hpar | hpar
  · -- a ref is a multiple of 8, the magic word is not
    have hw := h.word_eq h1 hwf.ref_lt
    have hal := hwf.ref_aligned
    rw [show 2 * (i / 2) = i by omega] at hw
    rw [hm] at hw
    rw [← hw] at hal
    exact absurd hal (by decide)
  · have hw := h.word_eq h2 (by omega)
    rw [show 8 + 2 * (i / 2) + 1 = 8 + i by omega, hm] at hw
    simp only [headerMagic] at hw
    omega

/-- **No header inside a record.** -/
theorem RecordAt.not_headerAt_inside {J : Image} {o s p : Nat} {c : Commit}
    (h : RecordAt J o s p c) (hr : InRange o s p c) {q : Nat} (hq : q % 8 = 0) (hlo : o < q)
    (hhi : q < o + requiredSize c.arrays.length) : ¬ HeaderAt J q := by
  have hsize := requiredSize_eq c.arrays.length
  have hfits := h.fits
  have hcap : capacity = 67108864 := rfl
  have hseq := hr.sequence_le
  have hal := hr.offset_aligned
  obtain ⟨i, rfl⟩ : ∃ i, q = o + 8 * i := ⟨(q - o) / 8, by omega⟩
  by_cases hi8 : i < 8
  · rintro ⟨hm, hv⟩
    simp only [headerMagic] at hm
    simp only [recordVersion, fixedHeaderSize] at hv
    have h7 := h.word_eq (i := 7) (v := c.arrays.length + requiredSize c.arrays.length * 2 ^ 32)
      rfl (by omega)
    obtain rfl | rfl | rfl | rfl | rfl | rfl | rfl :
        i = 1 ∨ i = 2 ∨ i = 3 ∨ i = 4 ∨ i = 5 ∨ i = 6 ∨ i = 7 := by omega
    · have := h.word_eq (i := 1) rfl (by decide)
      rw [hm] at this
      exact absurd this (by decide)
    · have := h.word_eq (i := 2) rfl h.sequence_lt
      omega
    · -- the version may be any number, but a link follows it
      have := h.word_eq (i := 4) rfl h.previous_lt
      rw [show o + 8 * 4 = o + 8 * 3 + 8 by omega, hv] at this
      rcases hr.previous_range with hp | hp
      · rw [hp] at this; exact absurd this (by decide)
      · omega
    · have := h.word_eq (i := 4) rfl h.previous_lt
      rw [hm] at this
      rcases hr.previous_range with hp | hp
      · rw [hp] at this; exact absurd this (by decide)
      · omega
    · have := h.word_eq (i := 5) rfl c.topRef_lt
      have := c.topRef_aligned
      omega
    · rw [show o + 8 * 7 = o + 8 * 6 + 8 by omega, hv] at h7
      omega
    · omega
  by_cases hie : i < 8 + 2 * c.arrays.length
  · have := h.not_headerAt_entry hr (i := i - 8) (by omega)
    rwa [show 8 + (i - 8) = i by omega] at this
  · rintro ⟨hm, -⟩
    simp only [headerMagic] at hm
    have f0 := h.word_eq (RecordAt.footer_word (j := 0) rfl) (by decide)
    have f1 := h.word_eq (RecordAt.footer_word (j := 1) rfl) h.sequence_lt
    have f2 := h.word_eq (RecordAt.footer_word (j := 2) rfl)
      (by have := Crc32c.compute_lt (recordBody s p c); omega)
    obtain hi | hi | hi : i = 8 + 2 * c.arrays.length + 0 ∨ i = 8 + 2 * c.arrays.length + 1 ∨
        i = 8 + 2 * c.arrays.length + 2 := by omega
    · rw [← hi, hm] at f0
      exact absurd f0 (by decide)
    · rw [← hi] at f1
      omega
    · rw [← hi] at f2
      omega

end Llbt.Journal
