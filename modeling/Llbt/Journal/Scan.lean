import Llbt.Journal.Record

/-!
# Recovery scan

`CommitRecovery::scan` walks the journal from offset 0.  A `Path` is a chain of whole records
linked as the scan demands (sequence numbers counting up, each record naming the offset of the
one before it), so the scan follows it record by record:

* `scanLoop_path` — the scan runs along a path whose arrays are intact;
* `scan_stops` — it returns at a position without a header;
* `scan_chain_error` — it throws at a whole record with another link;
* `Path.exists_split` — a header found in the range of a path is one of its records;
* `Path.isPrefix` — the chain of records at a cursor is unique.
-/

set_option autoImplicit false

namespace Llbt.Journal

open ByteImage

/-! ## The scan -/

/-- What recovery reads from a top array: its ref, version and logical file size. -/
structure TopInfo where
  ref : Nat
  version : Nat
  logicalSize : Nat
  deriving DecidableEq, Repr

def Commit.info (c : Commit) : TopInfo := ⟨c.topRef, c.version, c.logicalSize⟩

structure File where
  bytes : Image
  size : Nat

/-- `CommitRecovery::Result`.  During the loop `tail`, `previousOffset`, `sequence` and `commits`
hold the locals `offset`, `previous`, `sequence` and `relevant_commits`. -/
structure Result where
  topRef : Nat := 0
  version : Nat := 0
  logicalSize : Nat := 0
  tail : Nat := 0
  previousOffset : Nat := npos
  sequence : Nat := 0
  commits : Nat := 0
  cowBytes : Nat := 0
  deriving DecidableEq, Repr

/-- Sequence numbers are `uint64_t`. -/
def nextSequence (sequence : Nat) : Nat := (sequence + 1) % 2 ^ 64

/-- The check of one listed array against the file. -/
def arrayValid (file : File) (a : WrittenArray) : Bool :=
  if a.size < nodeHeaderSize ∨ (a.ref + a.size) % 2 ^ 64 > file.size then false
  else
    let stored := leVal (slice file.bytes a.ref 4)
    !(stored ≠ a.checksum ∨
      Crc32c.compute (slice file.bytes (a.ref + 4) (a.size - 4)) ≠ a.checksum)

/-- The loop over the listed arrays: whether all are valid, and `cow_bytes` as it stands when
the loop ends. -/
def checkArrays (file : File) : List WrittenArray → Nat → Bool × Nat
  | [], cowBytes => (true, cowBytes)
  | a :: as, cowBytes =>
    if arrayValid file a then checkArrays file as (cowBytes + a.size) else (false, cowBytes)

/-- The result after a record has been accepted. -/
def Result.accept (result : Result) (checkpointVersion : Nat) (r : Record) (cowBytes : Nat) :
    Result :=
  let top := decide (r.version > result.version)
  { topRef := if top then r.newTop else result.topRef
    version := if top then r.version else result.version
    logicalSize := if top then r.logicalSize else result.logicalSize
    tail := result.tail + r.recordSize
    previousOffset := result.tail
    sequence := r.sequence
    commits := if r.version > checkpointVersion then result.commits + 1 else result.commits
    cowBytes := cowBytes }

theorem parseRecord_size {read : Nat → Nat → List UInt8} {offset : Nat} {r : Record}
    (h : parseRecord read offset = .record r) :
    88 ≤ r.recordSize ∧ offset + r.recordSize ≤ capacity := by
  unfold parseRecord at h
  dsimp only at h
  split at h
  · cases h
  split at h
  · cases h
  split at h
  · cases h
  rename_i hsize
  split at h
  · cases h
  split at h
  · cases h
  obtain rfl := Parsed.record.inj h
  simp only [fixedHeaderSize, footerSize] at hsize ⊢
  omega

/-- The loop of `CommitRecovery::scan`. -/
def scanLoop (chunks : List Nat) (file : File) (checkpointVersion : Nat) (result : Result) :
    Except String Result :=
  if result.tail + fixedHeaderSize + footerSize ≤ capacity then
    match _hp : parseRecord (readBytes chunks file.bytes) result.tail with
    | .stop => .ok result
    | .badHeader => .error "bad commit journal record header"
    | .record r =>
      if r.sequence ≠ nextSequence result.sequence ∨
          r.previous ≠ (if result.previousOffset = npos then npos else result.previousOffset) then
        .error "bad commit journal record chain"
      else
        let checked := if r.version > checkpointVersion then
          checkArrays file r.arrays result.cowBytes else (true, result.cowBytes)
        if checked.1 then
          scanLoop chunks file checkpointVersion (result.accept checkpointVersion r checked.2)
        else if result.tail + r.recordSize + 8 ≤ capacity ∧
            getU64 (readBytes chunks file.bytes (result.tail + r.recordSize) 8) 0 = headerMagic then
          .error "corruption inside commit journal chain"
        else .ok { result with cowBytes := checked.2 }
  else .ok result
termination_by capacity - result.tail
decreasing_by
  have := parseRecord_size _hp
  simp only [Result.accept]
  omega

/-- `CommitRecovery::scan` with the top the file header selects. -/
def scan (chunks : List Nat) (file : File) (checkpointTop : TopInfo) : Except String Result :=
  scanLoop chunks file checkpointTop.version
    { topRef := checkpointTop.ref, version := checkpointTop.version,
      logicalSize := checkpointTop.logicalSize }

/-! ## Chains of records -/

/-- Where the next record is expected and how it has to be linked. -/
structure Cursor where
  offset : Nat
  previous : Nat
  sequence : Nat
  deriving DecidableEq, Repr

def Cursor.start : Cursor := ⟨0, npos, 0⟩

def Cursor.next (k : Cursor) (c : Commit) : Cursor :=
  ⟨k.offset + requiredSize c.arrays.length, k.offset, k.sequence + 1⟩

/-- The record of `c` stands at the cursor, linked to it. -/
structure LinkedAt (J : Image) (k : Cursor) (c : Commit) : Prop where
  record : RecordAt J k.offset (k.sequence + 1) k.previous c
  range : InRange k.offset (k.sequence + 1) k.previous c

/-- A chain of records from one cursor to another. -/
inductive Path (J : Image) : Cursor → List Commit → Cursor → Prop
  | nil (k : Cursor) : Path J k [] k
  | cons {k k' : Cursor} {c : Commit} {cs : List Commit} (h : LinkedAt J k c)
      (rest : Path J (k.next c) cs k') : Path J k (c :: cs) k'

/-- The scan returns at this cursor: the journal is exhausted or no header follows. -/
def Stops (J : Image) (k : Cursor) : Prop :=
  k.offset + 88 ≤ capacity → word J k.offset ≠ headerMagic

/-- The arrays of `c` are whole on disk, as far as the scan looks at them. -/
def Intact (file : File) (checkpointVersion : Nat) (c : Commit) : Prop :=
  checkpointVersion < c.version → ∀ a ∈ c.arrays, arrayValid file a = true

def Result.cursor (r : Result) : Cursor := ⟨r.tail, r.previousOffset, r.sequence⟩

def Result.top (r : Result) : TopInfo := ⟨r.topRef, r.version, r.logicalSize⟩

/-- The newer of the top found so far and the one a record names. -/
def newer (t : TopInfo) (c : Commit) : TopInfo := if c.version > t.version then c.info else t

theorem Result.accept_top (r : Result) (cv : Nat) (c : Commit) (s p cow : Nat) :
    (r.accept cv (c.toRecord s p) cow).top = newer r.top c := by
  simp only [Result.top, Result.accept, newer, Commit.toRecord, Commit.info]
  by_cases hv : c.version > r.version
  · simp [hv]
  · simp [hv]

theorem InRange.nextSequence_eq {o s p : Nat} {c : Commit} (h : InRange o (s + 1) p c)
    (ho : o ≤ capacity) : nextSequence s = s + 1 := by
  have := h.sequence_le
  have hcap : capacity = 67108864 := rfl
  exact Nat.mod_eq_of_lt (by omega)

/-! ## Running the scan -/

theorem valid_of_checkArrays {file : File} : ∀ {as : List WrittenArray} {cow : Nat},
    (checkArrays file as cow).1 = true → ∀ a ∈ as, arrayValid file a = true
  | [], _, _ => by simp
  | a :: as, cow, h => by
    unfold checkArrays at h
    split at h
    · rename_i ha
      exact List.forall_mem_cons.mpr ⟨ha, valid_of_checkArrays h⟩
    · cases h

theorem checkArrays_of_valid {file : File} : ∀ {as : List WrittenArray} {cow : Nat},
    (∀ a ∈ as, arrayValid file a = true) → checkArrays file as cow = (true, cow + cowBytes as)
  | [], _, _ => rfl
  | a :: as, cow, h => by
    rw [checkArrays, if_pos (h a List.mem_cons_self),
      checkArrays_of_valid (fun b hb => h b (List.mem_cons_of_mem _ hb))]
    simp [cowBytes, Nat.add_assoc]

section Run

variable {chunks : List Nat} {file : File} {cv : Nat} {k k' : Cursor} {c : Commit}

theorem scanLoop_of_stop {r : Result} (h : r.tail + 88 ≤ capacity →
    parseRecord (readBytes chunks file.bytes) r.tail = .stop) :
    scanLoop chunks file cv r = .ok r := by
  unfold scanLoop
  split
  · rename_i hroom
    rw [h hroom]
  · rfl

theorem scanLoop_header_error {r : Result} (hroom : r.tail + 88 ≤ capacity)
    (hm : word (journal chunks file.bytes) r.tail = headerMagic)
    (hbad : ¬ HeaderAt (journal chunks file.bytes) r.tail) :
    scanLoop chunks file cv r = .error "bad commit journal record header" := by
  unfold scanLoop
  rw [if_pos (show r.tail + fixedHeaderSize + footerSize ≤ capacity from hroom),
    (parseRecord_badHeader (reads_journal chunks file.bytes) (by omega)).mpr
    ⟨hm, hbad⟩]

theorem scanLoop_stops {r : Result} (h : Stops (journal chunks file.bytes) r.cursor) :
    scanLoop chunks file cv r = .ok r :=
  scanLoop_of_stop fun hroom => parseRecord_of_word_ne (reads_journal chunks file.bytes)
    (by omega) (h hroom)

theorem scanLoop_recordAt {r : Result} {s p : Nat}
    (h : RecordAt (journal chunks file.bytes) r.tail s p c) (hs : s = nextSequence r.sequence)
    (hp : p = r.previousOffset) :
    scanLoop chunks file cv r =
      let checked := if c.version > cv then checkArrays file c.arrays r.cowBytes
        else (true, r.cowBytes)
      if checked.1 then scanLoop chunks file cv (r.accept cv (c.toRecord s p) checked.2)
      else if r.tail + requiredSize c.arrays.length + 8 ≤ capacity ∧
          word (journal chunks file.bytes) (r.tail + requiredSize c.arrays.length) = headerMagic then
        .error "corruption inside commit journal chain"
      else .ok { r with cowBytes := checked.2 } := by
  have hfits := h.fits
  have hsize := requiredSize_eq c.arrays.length
  have hlink : ¬ ((c.toRecord s p).sequence ≠ nextSequence r.sequence ∨ (c.toRecord s p).previous ≠
      (if r.previousOffset = npos then npos else r.previousOffset)) := by
    simp only [Commit.toRecord]
    split <;> simp_all
  have hpeek : (r.tail + (c.toRecord s p).recordSize + 8 ≤ capacity ∧
      getU64 (readBytes chunks file.bytes (r.tail + (c.toRecord s p).recordSize) 8) 0 =
        headerMagic) ↔ (r.tail + requiredSize c.arrays.length + 8 ≤ capacity ∧
      word (journal chunks file.bytes) (r.tail + requiredSize c.arrays.length) = headerMagic) := by
    refine and_congr_right fun hroom => ?_
    rw [readBytes_eq _ _ _ _ hroom, getU64_slice _ (by omega)]
    rfl
  conv => lhs; unfold scanLoop
  rw [if_pos (by simp only [fixedHeaderSize, footerSize]; omega),
    parseRecord_of_recordAt (reads_journal chunks file.bytes) h]
  dsimp only
  rw [if_neg hlink]
  simp only [hpeek]
  rfl

theorem LinkedAt.nextSequence_eq {J : Image} (h : LinkedAt J k c) : nextSequence k.sequence = k.sequence + 1 :=
  h.range.nextSequence_eq (Nat.le_of_add_right_le h.record.fits)

theorem scanLoop_linked {r : Result}
    (h : LinkedAt (journal chunks file.bytes) r.cursor c) (hi : Intact file cv c) :
    scanLoop chunks file cv r = scanLoop chunks file cv (r.accept cv (c.toRecord (r.sequence + 1) r.previousOffset)
      (if c.version > cv then r.cowBytes + cowBytes c.arrays else r.cowBytes)) := by
  have hchecked : (if c.version > cv then checkArrays file c.arrays r.cowBytes else (true, r.cowBytes)) =
      (true, if c.version > cv then r.cowBytes + cowBytes c.arrays else r.cowBytes) := by
    split
    · rename_i hv
      exact checkArrays_of_valid (hi hv)
    · rfl
  rw [scanLoop_recordAt h.record h.nextSequence_eq.symm rfl, hchecked]
  rfl

theorem scanLoop_invalid {r : Result} (h : LinkedAt (journal chunks file.bytes) r.cursor c)
    (hi : ¬ Intact file cv c) :
    scanLoop chunks file cv r = .error "corruption inside commit journal chain" ∨
      ∃ cow, scanLoop chunks file cv r = .ok { r with cowBytes := cow } := by
  have hchecked : ¬ (if c.version > cv then checkArrays file c.arrays r.cowBytes
      else (true, r.cowBytes)).1 = true := by
    intro hv
    refine hi fun hlt => ?_
    rw [if_pos hlt] at hv
    exact valid_of_checkArrays hv
  rw [scanLoop_recordAt h.record h.nextSequence_eq.symm rfl]
  dsimp only
  rw [if_neg hchecked]
  split
  · exact .inl rfl
  · exact .inr ⟨_, rfl⟩

theorem scanLoop_chain_error {r : Result} {s p : Nat}
    (h : RecordAt (journal chunks file.bytes) r.tail s p c)
    (hlink : s ≠ nextSequence r.sequence ∨ p ≠ r.previousOffset) :
    scanLoop chunks file cv r = .error "bad commit journal record chain" := by
  have hfits := h.fits
  have hsize := requiredSize_eq c.arrays.length
  unfold scanLoop
  rw [if_pos (by simp only [fixedHeaderSize, footerSize]; omega),
    parseRecord_of_recordAt (reads_journal chunks file.bytes) h]
  dsimp only
  rw [if_pos]
  simp only [Commit.toRecord]
  split <;> simp_all

/-- **The scan runs along a path.** -/
theorem scanLoop_path (cv : Nat) {cs : List Commit} (hp : Path (journal chunks file.bytes) k cs k') :
    ∀ r : Result, r.cursor = k → (∀ c ∈ cs, Intact file cv c) →
      ∃ r' : Result, r'.cursor = k' ∧ r'.top = cs.foldl newer r.top ∧
        scanLoop chunks file cv r = scanLoop chunks file cv r' := by
  induction hp with
  | nil k => exact fun r hr _ => ⟨r, hr, rfl, rfl⟩
  | @cons k k' c cs h rest ih =>
    intro r hr hi
    subst hr
    have hstep := scanLoop_linked h (hi c List.mem_cons_self)
    obtain ⟨r', hcur, htop, hrun⟩ := ih
      (r.accept cv (c.toRecord (r.sequence + 1) r.previousOffset) _) rfl
      (fun d hd => hi d (List.mem_cons_of_mem _ hd))
    refine ⟨r', hcur, ?_, hstep.trans hrun⟩
    rw [htop, List.foldl_cons, Result.accept_top]

theorem scan_chain_error {header : TopInfo} {cs : List Commit} {s p : Nat}
    (hp : Path (journal chunks file.bytes) .start cs k)
    (hi : ∀ c ∈ cs, Intact file header.version c)
    (h : RecordAt (journal chunks file.bytes) k.offset s p c)
    (hlink : s ≠ nextSequence k.sequence ∨ p ≠ k.previous) :
    scan chunks file header = .error "bad commit journal record chain" := by
  obtain ⟨r, rfl, -, hrun⟩ := scanLoop_path header.version hp
    { topRef := header.ref, version := header.version, logicalSize := header.logicalSize } rfl hi
  exact hrun.trans (scanLoop_chain_error h hlink)

theorem scan_stops {header : TopInfo} {cs : List Commit}
    (hp : Path (journal chunks file.bytes) .start cs k)
    (hi : ∀ c ∈ cs, Intact file header.version c) (h : Stops (journal chunks file.bytes) k) :
    ∃ r, scan chunks file header = .ok r ∧ r.top = cs.foldl newer header ∧ r.cursor = k := by
  obtain ⟨r, rfl, htop, hrun⟩ := scanLoop_path header.version hp
    { topRef := header.ref, version := header.version, logicalSize := header.logicalSize } rfl hi
  exact ⟨r, hrun.trans (scanLoop_stops h), htop, rfl⟩

end Run

/-! ## Frames, uniqueness, splitting -/

variable {J J' : Image} {k k' : Cursor}

theorem RecordAt.congr {o s p : Nat} {c : Commit} (h : RecordAt J o s p c)
    (hJ : ∀ x, o ≤ x → x < o + requiredSize c.arrays.length → J x = J' x) :
    RecordAt J' o s p c :=
  ⟨h.fits, (slice_congr hJ).symm.trans h.bytes, h.sequence_lt, h.previous_lt⟩

theorem RecordAt.unique {o s p s' p' : Nat} {c c' : Commit} (h : RecordAt J o s p c)
    (h' : RecordAt J o s' p' c') : s = s' ∧ p = p' ∧ c = c' := by
  have hread : Reads (slice J) J := fun _ _ _ => rfl
  have heq := (parseRecord_of_recordAt hread h).symm.trans (parseRecord_of_recordAt hread h')
  simp only [Commit.toRecord, Parsed.record.injEq, Record.mk.injEq] at heq
  obtain ⟨hs, hv, hp, ht, hl, -, ha⟩ := heq
  refine ⟨hs, hp, ?_⟩
  cases c
  cases c'
  simp only at hv ht hl ha
  subst hv ht hl ha
  rfl

theorem RecordAt.headerAt {o s p : Nat} {c : Commit} (h : RecordAt J o s p c) : HeaderAt J o :=
  ⟨h.word_eq (i := 0) rfl (by decide), h.word_eq (i := 1) rfl (by decide)⟩

theorem Stops.not_linkedAt (h : Stops J k) (c : Commit) : ¬ LinkedAt J k c := by
  intro hl
  have hsize := requiredSize_eq c.arrays.length
  have hfits := hl.record.fits
  exact h (by omega) hl.record.headerAt.1

theorem not_linkedAt_of_not_headerAt (h : ¬ HeaderAt J k.offset) (c : Commit) :
    ¬ LinkedAt J k c := fun hl => h hl.record.headerAt

theorem HeaderAt.congr {o : Nat} (h : HeaderAt J o) (hJ : ∀ x, o ≤ x → x < o + 16 → J x = J' x) :
    HeaderAt J' o :=
  ⟨(word_congr fun x h₁ h₂ => hJ x h₁ (by omega)).symm.trans h.1,
    (word_congr fun x h₁ h₂ => hJ x (by omega) (by omega)).symm.trans h.2⟩

namespace Path

theorem offset_le {cs : List Commit} (hp : Path J k cs k') : k.offset ≤ k'.offset := by
  induction hp with
  | nil k => exact Nat.le_refl _
  | cons h rest ih => exact Nat.le_trans (Nat.le_add_right _ _) ih

theorem congr {cs : List Commit} (hp : Path J k cs k')
    (hJ : ∀ x, k.offset ≤ x → x < k'.offset → J x = J' x) : Path J' k cs k' := by
  induction hp with
  | nil k => exact .nil k
  | cons h rest ih =>
    have hle := rest.offset_le
    simp only [Cursor.next] at hle
    refine .cons ⟨h.record.congr fun x h₁ h₂ => hJ x h₁ (by omega), h.range⟩ (ih fun x h₁ h₂ => ?_)
    simp only [Cursor.next] at h₁
    exact hJ x (by omega) h₂

theorem append {k'' : Cursor} {cs ds : List Commit} (hp : Path J k cs k')
    (hq : Path J k' ds k'') : Path J k (cs ++ ds) k'' := by
  induction hp with
  | nil k => exact hq
  | cons h rest ih => exact .cons h (ih hq)

/-- **The chain at a cursor is unique**: a chain that ends where no linked record follows
contains every other one as a prefix. -/
theorem isPrefix {k'' : Cursor} {cs ds : List Commit} (hp : Path J k cs k')
    (hend : ∀ c, ¬ LinkedAt J k' c) (hq : Path J k ds k'') : ds <+: cs := by
  induction hp generalizing ds with
  | nil k =>
    cases hq with
    | nil => exact List.prefix_rfl
    | cons h rest => exact absurd h (hend _)
  | cons h rest ih =>
    cases hq with
    | nil => exact List.nil_prefix
    | cons h' rest' =>
      obtain rfl := (h.record.unique h'.record).2.2
      exact List.cons_prefix_cons.mpr ⟨rfl, ih hend rest'⟩

theorem of_append {as bs : List Commit} (hp : Path J k (as ++ bs) k') :
    ∀ {km}, Path J k as km → Path J km bs k' := by
  induction as generalizing k with
  | nil =>
    rintro km ⟨⟩
    exact hp
  | cons a as ih =>
    rintro km (_ | ⟨h, rest⟩)
    cases hp with
    | cons _ hrest => exact ih hrest rest

theorem exists_of_append {as bs : List Commit} (hp : Path J k (as ++ bs) k') :
    ∃ km, Path J k as km ∧ Path J km bs k' := by
  induction as generalizing k with
  | nil => exact ⟨k, .nil k, hp⟩
  | cons a as ih =>
    cases hp with
    | cons h rest =>
      obtain ⟨km, hpre, hrest⟩ := ih rest
      exact ⟨km, .cons h hpre, hrest⟩

theorem exists_split {cs : List Commit} (hp : Path J k cs k') {q : Nat} (hq : q % 8 = 0)
    (hlo : k.offset ≤ q) (hhi : q < k'.offset) (hh : HeaderAt J q) :
    ∃ as c bs kq, cs = as ++ c :: bs ∧ kq.offset = q ∧ Path J k as kq ∧ LinkedAt J kq c ∧
      Path J (kq.next c) bs k' := by
  induction hp with
  | nil k => omega
  | @cons k k' c cs h rest ih =>
    by_cases heq : k.offset = q
    · exact ⟨[], c, cs, k, rfl, heq, .nil k, h, rest⟩
    · have hnext : k.offset + requiredSize c.arrays.length ≤ q := by
        refine Nat.le_of_not_lt fun hlt => ?_
        exact h.record.not_headerAt_inside h.range hq (by omega) hlt hh
      obtain ⟨as, d, bs, kq, hcs, hoff, hpre, hd, hpost⟩ := ih hnext hhi
      exact ⟨c :: as, d, bs, kq, by rw [hcs]; rfl, hoff, .cons h hpre, hd, hpost⟩

end Path

end Llbt.Journal
