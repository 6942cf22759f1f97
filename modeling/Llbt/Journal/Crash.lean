import Llbt.Journal.Run

/-!
# Crashes during a journaled commit

A crash leaves a torn file: every byte of the new record and of the arrays it lists is either the
old one or the new one.  Recovery should return the previous commit or, if all of it arrived, the
new one.

* `Torn` — the torn file; `RecordArrived` / `ArraysArrived` — what reached the disk;
* `Distinct` — the checksum assumption: a torn record or array does not pass for a whole one;
* `scan_torn_iff` — recovery is atomic exactly under `CleanCrash`;
* `scan_rejects_torn_header` — without it, eight bytes of the record are enough to make recovery
  throw.
-/

set_option autoImplicit false

namespace Llbt.Journal

open ByteImage Relation

/-! ## The torn file -/

/-- A journaled commit in progress: `written` is the file with all arrays of `c`, `bytes` the same
with the journal record. -/
structure Interrupted (chunks : List Nat) (w : World) (h : Nat) (j : CommitJournal) (c : Commit)
    (written : File) (bytes : Image) : Prop where
  handle : w.handles h = some j
  version : w.newest.version < c.version
  policy : j.needsCheckpoint (requiredSize c.arrays.length) (cowBytes c.arrays) = false
  prepared : ∃ pending, j.prepareAppend written.bytes c = .ok (bytes, pending)
  apart : ∀ a ∈ c.arrays, ∀ o, o < capacity →
    position chunks o < a.ref ∨ a.ref + a.size ≤ position chunks o
  only_arrays : ∀ x, (∀ a ∈ c.arrays, x < a.ref ∨ a.ref + a.size ≤ x) →
    written.bytes x = w.file.bytes x
  valid : ∀ a ∈ c.arrays, arrayValid written a = true
  size_le : w.file.size ≤ written.size

/-- Each byte is the old or the new one; the file has been extended before. -/
structure Torn (old : Image) (written : File) (new : Image) (torn : File) : Prop where
  bytes : ∀ x, torn.bytes x = old x ∨ torn.bytes x = new x
  size : torn.size = written.size

/-- All bytes of the record arrived. -/
def RecordArrived (chunks : List Nat) (j : CommitJournal) (c : Commit) (torn : File) : Prop :=
  slice (journal chunks torn.bytes) j.tail (requiredSize c.arrays.length) =
    encodeRecord (nextSequence j.sequence) j.previousOffset c

/-- All bytes of the listed arrays arrived. -/
def ArraysArrived (c : Commit) (written torn : File) : Prop :=
  ∀ a ∈ c.arrays, slice torn.bytes a.ref a.size = slice written.bytes a.ref a.size

/-- Checksums tell byte strings apart: what passes the record check is the old or the new content
of that place, and an array with the checksum of the new content has the new content. -/
structure Distinct (chunks : List Nat) (old new : Image) (c : Commit) (written torn : File) :
    Prop where
  record : ∀ o r, o % 8 = 0 → parseRecord (readBytes chunks torn.bytes) o = .record r →
    slice (journal chunks torn.bytes) o r.recordSize = slice (journal chunks old) o r.recordSize ∨
      slice (journal chunks torn.bytes) o r.recordSize = slice (journal chunks new) o r.recordSize
  arrays : ∀ a ∈ c.arrays, Crc32c.compute (slice torn.bytes (a.ref + 4) (a.size - 4)) =
      Crc32c.compute (slice written.bytes (a.ref + 4) (a.size - 4)) →
    slice torn.bytes (a.ref + 4) (a.size - 4) = slice written.bytes (a.ref + 4) (a.size - 4)

/-- Neither the new arrays nor the journal overlap arrays the scan will check. -/
def SparesChain (chunks : List Nat) (w : World) (c : Commit) : Prop :=
  ∀ cs k, Path (journal chunks w.file.bytes) .start cs k → ∀ d ∈ cs,
    w.header.version < d.version → ∀ b ∈ d.arrays,
    (∀ a ∈ c.arrays, a.ref + a.size ≤ b.ref ∨ b.ref + b.size ≤ a.ref) ∧
      ∀ o, o < capacity → position chunks o < b.ref ∨ b.ref + b.size ≤ position chunks o

/-- The crashes recovery survives.  `headers`: where the chain of the torn journal comes to in the
range of the new record, the magic word does not stand without the word behind it.  `behind`: if the
record arrived and a header stands behind it, its arrays arrived and that header continues the
chain. -/
structure CleanCrash (chunks : List Nat) (w : World) (j : CommitJournal) (c : Commit)
    (written torn : File) : Prop where
  headers : ∀ k, OnChain (journal chunks torn.bytes) k → j.tail ≤ k.offset →
    k.offset < j.tail + requiredSize c.arrays.length →
    word (journal chunks torn.bytes) k.offset = headerMagic →
    HeaderAt (journal chunks torn.bytes) k.offset
  behind : RecordArrived chunks j c torn →
    j.tail + requiredSize c.arrays.length + 8 ≤ capacity →
    word (journal chunks w.file.bytes) (j.tail + requiredSize c.arrays.length) = headerMagic →
    ArraysArrived c written torn ∧
      EndClean (journal chunks w.file.bytes) j.cursor c.arrays.length

/-! ## What is left of arrays and records -/

theorem arrayValid_iff {f : File} {a : WrittenArray} : arrayValid f a = true ↔
    nodeHeaderSize ≤ a.size ∧ (a.ref + a.size) % 2 ^ 64 ≤ f.size ∧
      leVal (slice f.bytes a.ref 4) = a.checksum ∧
      Crc32c.compute (slice f.bytes (a.ref + 4) (a.size - 4)) = a.checksum := by
  unfold arrayValid
  split
  · rename_i h
    simp only [Bool.false_eq_true, false_iff]
    omega
  · rename_i h
    have h1 : nodeHeaderSize ≤ a.size := by omega
    have h2 : (a.ref + a.size) % 2 ^ 64 ≤ f.size := by omega
    simp only [h1, h2, true_and, Bool.not_eq_true', decide_eq_false_iff_not, not_or, ne_eq, not_not]

theorem arrayValid_congr {f f' : File} {a : WrittenArray} (hsize : f.size ≤ f'.size)
    (hbytes : ∀ x, a.ref ≤ x → x < a.ref + a.size → f'.bytes x = f.bytes x)
    (h : arrayValid f a = true) : arrayValid f' a = true := by
  rw [arrayValid_iff] at h ⊢
  obtain ⟨h1, h2, h3, h4⟩ := h
  have h1' : 8 ≤ a.size := h1
  refine ⟨h1, by omega, ?_, ?_⟩
  · rw [slice_congr fun x hx hx' => hbytes x hx (by omega)]
    exact h3
  · rw [slice_congr fun x hx hx' => hbytes x (by omega) (by omega)]
    exact h4

theorem RecordAt.of_parse {J J' : Image} {o s p : Nat} {d : Commit} {r : Record}
    {read : Nat → Nat → List UInt8} (hread : Reads read J') (hd : RecordAt J o s p d)
    (hparse : parseRecord read o = .record r)
    (heq : slice J' o r.recordSize = slice J o r.recordSize) : RecordAt J' o s p d := by
  obtain ⟨hmin, hmax⟩ := parseRecord_size hparse
  obtain ⟨-, hsize⟩ := parseRecord_record hread (by omega) hparse
  have hbytes : ∀ x, o ≤ x → x < o + r.recordSize → J' x = J x := fun x => eq_of_slice_eq heq
  have h7 := hd.halves_eq (i := 7) (a := d.arrays.length) (b := requiredSize d.arrays.length) rfl
    (arrays_length_lt hd.size_le) (requiredSize_lt hd.size_le)
  have hreq : r.recordSize = requiredSize d.arrays.length := by
    rw [hsize, slice_congr fun x hx hx' => hbytes x (by omega) (by omega)]
    exact h7.2
  exact hd.congr fun x hx hx' => (hbytes x hx (by omega)).symm

section Crash

variable {chunks : List Nat} {w : World} {h : Nat} {j : CommitJournal} {c : Commit}
  {written torn : File} {bytes : Image}

theorem Interrupted.bytes_outside (hi : Interrupted chunks w h j c written bytes)
    (hj : j.chunks = chunks) {x : Nat} (hx : ∀ o, o < capacity → position chunks o ≠ x) :
    bytes x = written.bytes x := by
  obtain ⟨pending, hprep⟩ := hi.prepared
  obtain ⟨hroom, rfl, -⟩ := CommitJournal.prepareAppend_ok hprep
  subst hj
  exact writeBytes_outside _ _ _ _ rfl (by rw [encodeRecord_length (by omega)]; exact hroom) hx

theorem Interrupted.journal_written (hi : Interrupted chunks w h j c written bytes) :
    journal chunks written.bytes = journal chunks w.file.bytes := by
  funext o
  unfold journal
  split
  · rename_i ho
    exact hi.only_arrays _ fun a ha => hi.apart a ha o ho
  · rfl

theorem Interrupted.intact_torn (hi : Interrupted chunks w h j c written bytes)
    (hj : j.chunks = chunks) (ht : Torn w.file.bytes written bytes torn)
    (hs : SparesChain chunks w c) (hintact : w.Intact chunks)
    {cs : List Commit} {k : Cursor} (hp : Path (journal chunks w.file.bytes) .start cs k)
    {d : Commit} (hd : d ∈ cs) : Intact torn w.header.version d := by
  intro hv b hb
  obtain ⟨hapart, hchunks⟩ := hs cs k hp d hd hv b hb
  refine arrayValid_congr (by rw [ht.size]; exact hi.size_le) (fun x hx hx' => ?_)
    (hintact cs k hp d hd hv b hb)
  rcases ht.bytes x with h | h
  · exact h
  · rw [h, hi.bytes_outside hj fun o ho => by have := hchunks o ho; omega]
    exact hi.only_arrays x fun a ha => by have := hapart a ha; omega

theorem Interrupted.arrays_arrived (hi : Interrupted chunks w h j c written bytes)
    (hd : Distinct chunks w.file.bytes bytes c written torn)
    (hvalid : ∀ a ∈ c.arrays, arrayValid torn a = true) : ArraysArrived c written torn := by
  intro a ha
  obtain ⟨h1, -, h3, h4⟩ := arrayValid_iff.mp (hvalid a ha)
  obtain ⟨-, -, h3', h4'⟩ := arrayValid_iff.mp (hi.valid a ha)
  have h1' : 8 ≤ a.size := h1
  rw [show a.size = 4 + (a.size - 4) by omega, slice_append, slice_append,
    hd.arrays a ha (h4.trans h4'.symm)]
  congr 1
  exact leVal_injective (by simp) (h3.trans h3'.symm)

theorem Interrupted.valid_of_arrived (hi : Interrupted chunks w h j c written bytes)
    (ht : Torn w.file.bytes written bytes torn) (harr : ArraysArrived c written torn) :
    ∀ a ∈ c.arrays, arrayValid torn a = true := fun a ha =>
  arrayValid_congr (Nat.le_of_eq ht.size.symm) (fun _ hx hx' => eq_of_slice_eq (harr a ha) hx hx')
    (hi.valid a ha)

end Crash

/-! ## The end of a path -/

section PathEnd

variable {chunks : List Nat} {file : File} {header : TopInfo} {cs : List Commit} {c : Commit}
  {k k' k'' : Cursor} {J : Image}

theorem Path.exists_rest {as : List Commit} (hp : Path J k as k') : Path J k cs k'' →
    k'.offset ≤ k''.offset → ∃ bs, cs = as ++ bs ∧ Path J k' bs k'' := by
  induction hp generalizing cs with
  | nil k => exact fun hq _ => ⟨cs, rfl, hq⟩
  | @cons k k' d as hd rest ih =>
    intro hq hle
    cases hq with
    | nil =>
      have := rest.offset_le
      have := requiredSize_eq d.arrays.length
      simp only [Cursor.next] at *
      omega
    | cons hd' rest' =>
      obtain rfl := (hd.record.unique hd'.record).2.2
      obtain ⟨bs, rfl, hbs⟩ := ih rest' hle
      exact ⟨bs, rfl, hbs⟩

theorem scan_header_error (hp : Path (journal chunks file.bytes) .start cs k)
    (hi : ∀ d ∈ cs, Intact file header.version d) (hroom : k.offset + 88 ≤ capacity)
    (hm : word (journal chunks file.bytes) k.offset = headerMagic)
    (hbad : ¬ HeaderAt (journal chunks file.bytes) k.offset) :
    scan chunks file header = .error "bad commit journal record header" := by
  obtain ⟨r, rfl, -, hrun⟩ := scanLoop_path header.version hp
    { topRef := header.ref, version := header.version, logicalSize := header.logicalSize } rfl hi
  exact hrun.trans (scanLoop_header_error hroom hm hbad)

theorem scan_invalid_error (hp : Path (journal chunks file.bytes) .start cs k)
    (hi : ∀ d ∈ cs, Intact file header.version d) (hc : LinkedAt (journal chunks file.bytes) k c)
    (hbad : ¬ Intact file header.version c) (hroom : k.offset + requiredSize c.arrays.length + 8 ≤ capacity)
    (hm : word (journal chunks file.bytes) (k.offset + requiredSize c.arrays.length) = headerMagic) :
    scan chunks file header = .error "corruption inside commit journal chain" := by
  obtain ⟨r, rfl, -, hrun⟩ := scanLoop_path header.version hp
    { topRef := header.ref, version := header.version, logicalSize := header.logicalSize } rfl hi
  refine hrun.trans ?_
  rw [scanLoop_recordAt hc.record hc.nextSequence_eq.symm rfl]
  dsimp only
  rw [if_neg, if_pos ⟨hroom, hm⟩]
  intro hv
  refine hbad fun hlt => ?_
  rw [if_pos hlt] at hv
  exact valid_of_checkArrays hv

end PathEnd

/-! ## The torn journal -/

/-- `J'`, which `read` reads, is the journal `J` with parts of the record of `c` written at `k`. -/
structure TornLog (read : Nat → Nat → List UInt8) (J J' : Image) (k : Cursor) (c : Commit) :
    Prop where
  reads : Reads read J'
  outside : ∀ o, o < k.offset ∨ k.offset + requiredSize c.arrays.length ≤ o → J' o = J o
  record : ∀ o r, o % 8 = 0 → parseRecord read o = .record r →
    slice J' o r.recordSize = slice J o r.recordSize ∨
      slice J' o r.recordSize = slice (appended J k c) o r.recordSize

section TornLog

variable {J J' : Image} {header newest : TopInfo} {k q : Cursor} {c : Commit}

theorem LogInv.linkedAt_of_headerAt (hlog : LogInv J header newest) (hq : OnChain J q)
    (hroom : q.offset + 88 ≤ capacity) (hh : HeaderAt J q.offset) : ∃ d, LinkedAt J q d := by
  obtain ⟨cs, ⟨k', hp, hstop⟩, -⟩ := hlog.settles hq
  cases hp with
  | nil => exact absurd hh.1 (hstop hroom)
  | cons hd rest => exact ⟨_, hd⟩

/-- **What passes the record check on a torn journal**: the old record of that place, or the new
record whole. -/
theorem TornLog.parse_record {read : Nat → Nat → List UInt8} (ht : TornLog read J J' k c)
    (hlog : LogInv J header newest) (hnew : LinkedAt (appended J k c) k c)
    (hq : OnChain J q) (hle : k.offset ≤ q.offset) (hroom : q.offset + 88 ≤ capacity) {r : Record}
    (hparse : parseRecord read q.offset = .record r) :
    (∃ d, LinkedAt J q d ∧ LinkedAt J' q d) ∨
      (q.offset = k.offset ∧ RecordAt J' k.offset (k.sequence + 1) k.previous c) := by
  have hread := ht.reads
  obtain ⟨hmin, -⟩ := parseRecord_size hparse
  obtain ⟨hh, -⟩ := parseRecord_record hread (by omega) hparse
  -- the bytes are those of the old image
  have hold : slice J' q.offset r.recordSize = slice J q.offset r.recordSize →
      ∃ d, LinkedAt J q d ∧ LinkedAt J' q d := by
    intro heq
    obtain ⟨d, hd⟩ := hlog.linkedAt_of_headerAt hq hroom
      (hh.congr fun x hx hx' => eq_of_slice_eq heq hx (by omega))
    exact ⟨d, hd, hd.record.of_parse hread hparse heq, hd.range⟩
  rcases ht.record q.offset r hq.wf.offset_aligned hparse with heq | heq
  · exact .inl (hold heq)
  by_cases hin : q.offset < k.offset + requiredSize c.arrays.length
  · have hoff : q.offset = k.offset := by
      refine Nat.le_antisymm (Nat.le_of_not_lt fun hgt => ?_) hle
      exact hnew.record.not_headerAt_inside hnew.range hq.wf.offset_aligned hgt hin
        (hh.congr fun x hx hx' => eq_of_slice_eq heq hx (by omega))
    refine .inr ⟨hoff, ?_⟩
    rw [hoff] at hparse heq
    exact hnew.record.of_parse hread hparse heq
  · refine .inl (hold (heq.trans (slice_congr fun x hx _ => ?_)))
    exact appended_outside hnew.record.fits (.inr (by omega))

theorem TornLog.path {read : Nat → Nat → List UInt8} (ht : TornLog read J J' k c) {as : List Commit}
    (has : Path J .start as k) : Path J' .start as k :=
  has.congr fun x _ hx => (ht.outside x (.inl hx)).symm

theorem TornLog.onChain {read : Nat → Nat → List UInt8} (ht : TornLog read J J' k c)
    (hk : OnChain J k) : OnChain J' k :=
  let ⟨_, has⟩ := hk; ⟨_, ht.path has⟩

/-- Where the chain of the torn journal comes to, no magic word stands without a header. -/
def WholeHeaders (J' : Image) (k : Cursor) (c : Commit) : Prop :=
  ∀ q, OnChain J' q → k.offset ≤ q.offset → q.offset < k.offset + requiredSize c.arrays.length →
    word J' q.offset = headerMagic → HeaderAt J' q.offset

theorem TornLog.parse {read : Nat → Nat → List UInt8} (ht : TornLog read J J' k c)
    (hwhole : WholeHeaders J' k c) (hlog : LogInv J header newest)
    (hnew : LinkedAt (appended J k c) k c) (hq : OnChain J q) (hq' : OnChain J' q)
    (hle : k.offset ≤ q.offset) (hroom : q.offset + 88 ≤ capacity) :
    parseRecord read q.offset = .stop ∨ (∃ d, LinkedAt J q d ∧ LinkedAt J' q d) ∨
      (q.offset = k.offset ∧ RecordAt J' k.offset (k.sequence + 1) k.previous c) := by
  cases hparse : parseRecord read q.offset with
  | stop => exact .inl rfl
  | badHeader =>
    obtain ⟨hmagic, hbad⟩ := (parseRecord_badHeader ht.reads (by omega)).mp hparse
    refine absurd ?_ hbad
    by_cases hin : q.offset < k.offset + requiredSize c.arrays.length
    · exact hwhole q hq' hle hin hmagic
    · have hJ : ∀ x, q.offset ≤ x → J' x = J x := fun x hx => ht.outside x (.inr (by omega))
      rw [word_congr fun x hx _ => hJ x hx] at hmagic
      obtain ⟨cs, ⟨k', hp, hstop⟩, -⟩ := hlog.settles hq
      cases hp with
      | nil => exact absurd hmagic (hstop hroom)
      | cons hd rest => exact hd.record.headerAt.congr fun x hx _ => (hJ x hx).symm
  | record r => exact .inr (ht.parse_record hlog hnew hq hle hroom hparse)

/-- A path that ends in the range of the new record is one of the old journal. -/
theorem TornLog.path_old {read : Nat → Nat → List UInt8} (ht : TornLog read J J' k c)
    (hlog : LogInv J header newest) (hnew : LinkedAt (appended J k c) k c) {q' : Cursor}
    {cs : List Commit} (hp : Path J' q cs q') : OnChain J q → k.offset ≤ q.offset →
      q'.offset < k.offset + requiredSize c.arrays.length → Path J q cs q' := by
  induction hp with
  | nil q => exact fun _ _ _ => .nil q
  | @cons q q' d cs hd rest ih =>
    intro hq hle hlt
    have hroom : q.offset + 88 ≤ capacity := by
      have h1 := hd.record.fits
      have h2 := requiredSize_eq d.arrays.length
      omega
    rcases ht.parse_record hlog hnew hq hle hroom (parseRecord_of_recordAt ht.reads hd.record) with
      ⟨d', hold, hlink⟩ | ⟨hoff, hrec⟩
    · obtain rfl := (hlink.record.unique hd.record).2.2
      exact .cons hold (ih (hq.next hold) (Nat.le_trans hle (Nat.le_add_right _ _)) hlt)
    · rw [← hoff] at hrec
      obtain rfl := (hrec.unique hd.record).2.2
      have := rest.offset_le
      simp only [Cursor.next] at this
      omega

theorem TornLog.walk {chunks : List Nat} {torn : File} {cv : Nat}
    (ht : TornLog (readBytes chunks torn.bytes) J (journal chunks torn.bytes) k c)
    (hwhole : WholeHeaders (journal chunks torn.bytes) k c) (hlog : LogInv J header newest)
    (hnew : LinkedAt (appended J k c) k c) {kend : Cursor} {cs : List Commit}
    (hp : Path J q cs kend) (hstop : Stops J kend) :
    OnChain J q → OnChain (journal chunks torn.bytes) q → k.offset < q.offset →
      (∀ d ∈ cs, Intact torn cv d) →
      ∀ r : Result, r.cursor = q → ∃ ds r', ds <+: cs ∧ scanLoop chunks torn cv r = .ok r' ∧
        r'.top = ds.foldl newer r.top := by
  induction hp with
  | nil q =>
    intro hq hq' hlt _ r hr
    subst hr
    refine ⟨[], r, List.nil_prefix, scanLoop_of_stop fun hroom => ?_, rfl⟩
    rcases ht.parse hwhole hlog hnew hq hq' (Nat.le_of_lt hlt) hroom with
      h | ⟨d, hd, -⟩ | ⟨hoff, -⟩
    · exact h
    · exact absurd hd (hstop.not_linkedAt d)
    · omega
  | @cons q kend d cs hd rest ih =>
    intro hq hq' hlt hi r hr
    subst hr
    have hroom : r.cursor.offset + 88 ≤ capacity := by
      have h1 := hd.record.fits
      have h2 := requiredSize_eq d.arrays.length
      omega
    rcases ht.parse hwhole hlog hnew hq hq' (Nat.le_of_lt hlt) hroom with
      h | ⟨d', hd', hlink⟩ | ⟨hoff, -⟩
    · exact ⟨[], r, List.nil_prefix, scanLoop_of_stop fun _ => h, rfl⟩
    · obtain rfl := (hd.record.unique hd'.record).2.2
      have hstep := scanLoop_linked hlink (hi d List.mem_cons_self)
      obtain ⟨ds, r', hpre, hrun, htop⟩ := ih hstop (hq.next hd) (hq'.next hlink)
        (Nat.lt_of_lt_of_le hlt (Nat.le_add_right _ _))
        (fun e he => hi e (List.mem_cons_of_mem _ he))
        (r.accept cv (d.toRecord (r.sequence + 1) r.previousOffset) _) rfl
      refine ⟨d :: ds, r', List.cons_prefix_cons.mpr ⟨rfl, hpre⟩, hstep.trans hrun, ?_⟩
      rw [htop, List.foldl_cons, Result.accept_top]
    · omega

end TornLog

/-! ## Recovery from a crash -/

section Recovery

variable {chunks : List Nat} {w : World} {h : Nat} {j : CommitJournal} {c : Commit}
  {written torn : File} {bytes : Image}

theorem Interrupted.size_bounds (hi : Interrupted chunks w h j c written bytes) :
    (∀ a ∈ c.arrays, a.size ≤ 64 * 1024 * 1024) ∧
      j.tail + requiredSize c.arrays.length ≤ capacity :=
  let ⟨_, hprep⟩ := hi.prepared
  ⟨CommitJournal.size_le_of_needsCheckpoint hi.policy, (CommitJournal.prepareAppend_ok hprep).1⟩

theorem Interrupted.tornLog (hchunks : ChunksWF chunks)
    (hi : Interrupted chunks w h j c written bytes) (hj : j.chunks = chunks) (hk : j.cursor.WF)
    (ht : Torn w.file.bytes written bytes torn)
    (hd : Distinct chunks w.file.bytes bytes c written torn) :
    TornLog (readBytes chunks torn.bytes) (journal chunks w.file.bytes)
      (journal chunks torn.bytes) j.cursor c := by
  obtain ⟨-, hfits⟩ := hi.size_bounds
  obtain ⟨pending, hprep⟩ := hi.prepared
  have hnew : journal chunks bytes = appended (journal chunks w.file.bytes) j.cursor c := by
    rw [← hi.journal_written]
    exact (journal_prepareAppend hchunks hj hk hprep).1
  refine ⟨reads_journal chunks torn.bytes, fun o ho => ?_, ?_⟩
  · have hout := appended_outside (J := journal chunks w.file.bytes) hfits ho
    rw [← hnew] at hout
    unfold journal at hout ⊢
    split
    · rename_i hcap
      rw [if_pos hcap, if_pos hcap] at hout
      rcases ht.bytes (position chunks o) with hx | hx
      · exact hx
      · exact hx.trans hout
    · rfl
  · rw [← hnew]
    exact hd.record

theorem Interrupted.above_header (hi : Interrupted chunks w h j c written bytes) (hinv : w.Inv chunks) :
    w.header.version < c.version :=
  Nat.lt_of_le_of_lt hinv.log.header_upTo.1 hi.version

section AtFront

variable (hchunks : ChunksWF chunks) (hinv : w.Inv chunks) (hi : Interrupted chunks w h j c written bytes)
  (ht : Torn w.file.bytes written bytes torn) (hd : Distinct chunks w.file.bytes bytes c written torn)
  (hfront : Front (journal chunks w.file.bytes) w.header w.newest j.cursor)

include hi hfront

theorem linkedAt_front : LinkedAt (appended (journal chunks w.file.bytes) j.cursor c) j.cursor c :=
  let ⟨hsize, hfits⟩ := hi.size_bounds
  linkedAt_appended hfront.reaches.onChain.wf hsize hfits

theorem recordArrived_iff : RecordArrived chunks j c torn ↔
    RecordAt (journal chunks torn.bytes) j.tail (j.sequence + 1) j.previousOffset c := by
  have hlink := linkedAt_front hi hfront
  rw [RecordArrived, show nextSequence j.sequence = j.sequence + 1 from hlink.nextSequence_eq]
  exact ⟨fun h => ⟨hi.size_bounds.2, h, hlink.record.sequence_lt, hlink.record.previous_lt⟩, fun h => h.bytes⟩

include hchunks hinv ht hd

theorem tornLog_front : TornLog (readBytes chunks torn.bytes) (journal chunks w.file.bytes)
    (journal chunks torn.bytes) j.cursor c :=
  hi.tornLog hchunks (hinv.chunks_eq h j hi.handle) hfront.reaches.onChain.wf ht hd

theorem journal_behind {x : Nat} (hx : j.tail + requiredSize c.arrays.length ≤ x) :
    journal chunks torn.bytes x = journal chunks w.file.bytes x :=
  (tornLog_front hchunks hinv hi ht hd hfront).outside x (.inr hx)

theorem scanLoop_arrived (hc : CleanCrash chunks w j c written torn) {r : Result}
    (hr : r.cursor = j.cursor) (htop : r.top = w.newest)
    (hrec : RecordAt (journal chunks torn.bytes) j.tail (j.sequence + 1) j.previousOffset c) :
    ∃ r', scanLoop chunks torn w.header.version r = .ok r' ∧
      (r'.top = w.newest ∨ r'.top = c.info ∧ RecordArrived chunks j c torn ∧
        ArraysArrived c written torn) := by
  have hon := hfront.reaches.onChain
  have hfits := hi.size_bounds.2
  have hlt : w.newest.version < c.info.version := hi.version
  have harrived := (recordArrived_iff hi hfront).mpr hrec
  obtain ⟨h1, h2, h3⟩ : r.tail = j.tail ∧ r.previousOffset = j.previousOffset ∧
      r.sequence = j.sequence := by simpa [Result.cursor, CommitJournal.cursor] using hr
  have hbehind := fun x => journal_behind hchunks hinv hi ht hd hfront (x := x)
  rw [← h1] at hrec
  rw [scanLoop_recordAt hrec (by rw [h3]; exact (linkedAt_front hi hfront).nextSequence_eq.symm) h2.symm]
  dsimp only
  rw [if_pos (hi.above_header hinv), h1]
  split
  · -- the arrays are valid, so everything arrived, and what follows is the old chain
    rename_i hchecked
    have harrays := hi.arrays_arrived hd (valid_of_checkArrays hchecked)
    have hend : EndClean (journal chunks w.file.bytes) j.cursor c.arrays.length := fun hroom hm =>
      (hc.behind harrived (by simp only [CommitJournal.cursor] at hroom; omega) hm).2 hroom hm
    obtain ⟨cs, hcs⟩ := hinv.log.settles_end hon.wf.offset_aligned hend
    have hstale : ∀ d ∈ cs, Intact torn w.header.version d := by
      obtain ⟨⟨kend, hp, -⟩, -⟩ := hcs
      exact fun d hd hv => absurd hv (Nat.not_lt.mpr (hfront.version_le hp
        (hon.wf.next hfits) (Nat.le_add_right _ _) d hd))
    obtain ⟨⟨kend, hp, hstop⟩, hup⟩ := (hcs.congr fun x hx => (hbehind x hx).symm).mono hlt
    obtain ⟨r', hcur, htop', hrun⟩ := scanLoop_path w.header.version hp
      (r.accept w.header.version (c.toRecord (j.sequence + 1) j.previousOffset)
        (checkArrays torn c.arrays r.cowBytes).2)
      (by simp [Result.cursor, Result.accept, Cursor.next, CommitJournal.cursor, Commit.toRecord, h1])
      hstale
    refine ⟨r', hrun.trans (scanLoop_stops (by rw [hcur]; exact hstop)), .inr ⟨?_, harrived,
      harrays⟩⟩
    rw [htop', Result.accept_top, newer, if_pos (by rw [htop]; exact hlt)]
    exact foldl_newer_eq (.refl _) hup (.inl rfl)
  · rename_i hchecked
    rw [if_neg]
    · exact ⟨_, rfl, .inl htop⟩
    · rintro ⟨hroom, hm⟩
      rw [word_congr fun x hx _ => hbehind x hx] at hm
      exact hchecked (congrArg Prod.fst (checkArrays_of_valid
        (hi.valid_of_arrived ht (hc.behind harrived hroom hm).1)))

/-- When the scan has passed the new record without an error, the header behind it continues the chain. -/
theorem endClean_of_scan {cs : List Commit} {found : Result}
    (hp : Path (journal chunks torn.bytes) .start cs (j.cursor.next c))
    (hall : ∀ d ∈ cs, Intact torn w.header.version d)
    (hok : scan chunks torn w.header = .ok found) :
    EndClean (journal chunks w.file.bytes) j.cursor c.arrays.length := by
  intro hroom hm
  have hwf := hfront.reaches.onChain.wf
  have hbehind := fun x => journal_behind hchunks hinv hi ht hd hfront (x := x)
  have hh : HeaderAt (journal chunks torn.bytes) (j.cursor.next c).offset := by
    by_contra hbad
    rw [scan_header_error hp hall hroom ((word_congr fun x hx _ => hbehind x hx).trans hm) hbad] at hok
    cases hok
  have hhold := hh.congr fun x hx _ => hbehind x hx
  obtain ⟨kq, d, ds, hoff, ⟨⟨k', hpath, -⟩, -⟩⟩ :=
    hinv.log.headers _ (hwf.next hi.size_bounds.2).offset_aligned hhold
  cases hpath with
  | cons hd rest =>
    have hstale : RecordAt (journal chunks torn.bytes) (j.cursor.next c).offset (kq.sequence + 1)
        kq.previous d := by
      have hat := hd.record
      rw [hoff] at hat
      exact hat.congr fun x hx _ => (hbehind x hx).symm
    -- a record with another link is an error
    have hlinks : kq.sequence + 1 = nextSequence (j.sequence + 1) ∧ kq.previous = j.tail := by
      by_contra hother
      rw [not_and_or] at hother
      rw [scan_chain_error hp hall hstale hother] at hok
      cases hok
    have hseq : nextSequence (j.sequence + 1) = j.sequence + 2 := by
      have := (hwf.next hi.size_bounds.2).sequence_le
      simp only [Cursor.next, CommitJournal.cursor] at this hroom
      unfold nextSequence
      have : capacity < 2 ^ 62 := by decide
      omega
    have w2 : word (journal chunks w.file.bytes) (kq.offset + 16) = kq.sequence + 1 :=
      hd.record.word_eq (i := 2) rfl hd.record.sequence_lt
    have w4 : word (journal chunks w.file.bytes) (kq.offset + 32) = kq.previous :=
      hd.record.word_eq (i := 4) rfl hd.record.previous_lt
    rw [hoff] at w2 w4
    exact ⟨hhold.2, w2.trans (hlinks.1.trans hseq), w4.trans hlinks.2⟩

variable (hintact : w.Intact chunks) (hs : SparesChain chunks w c)

include hintact hs

theorem scanLoop_torn (hc : CleanCrash chunks w j c written torn) {r : Result}
    (hr : r.cursor = j.cursor) (htop : r.top = w.newest) :
    ∃ r', scanLoop chunks torn w.header.version r = .ok r' ∧
      (r'.top = w.newest ∨ r'.top = c.info ∧ RecordArrived chunks j c torn ∧
        ArraysArrived c written torn) := by
  obtain ⟨as, has⟩ := hfront.reaches.onChain
  have hon : OnChain (journal chunks w.file.bytes) j.cursor := ⟨as, has⟩
  have hlink := linkedAt_front hi hfront
  have htl := tornLog_front hchunks hinv hi ht hd hfront
  have hon' := htl.onChain hon
  have htail : r.tail = j.cursor.offset := congrArg Cursor.offset hr
  by_cases hroom : r.tail + 88 ≤ capacity
  case neg => exact ⟨r, scanLoop_of_stop fun hr => absurd hr hroom, .inl htop⟩
  rcases htl.parse hc.headers hinv.log hlink hon hon' (Nat.le_refl _) (by omega) with hstop | ⟨d, hold, hnew⟩ |
    ⟨-, hrec⟩
  · rw [← htail] at hstop
    exact ⟨r, scanLoop_of_stop fun _ => hstop, .inl htop⟩
  · -- the old record of that place is still there: the scan goes on along the old chain
    obtain ⟨cs, ⟨kend, hp, hstop⟩, hup⟩ := hinv.log.settles hon
    cases hp with
    | nil => exact absurd hold (hstop.not_linkedAt d)
    | @cons _ _ d' cs hd' rest =>
      obtain rfl := (hd'.record.unique hold.record).2.2
      have hin : ∀ e ∈ d' :: cs, Intact torn w.header.version e := fun e he =>
        hi.intact_torn (hinv.chunks_eq h j hi.handle) ht hs hintact (has.append (.cons hd' rest))
          (List.mem_append_right _ he)
      have hnext := hon'.next hnew
      rw [← hr] at hnew
      have hstep := scanLoop_linked hnew (hin d' List.mem_cons_self)
      obtain ⟨ds, r', hpre, hrun, htop'⟩ := htl.walk hc.headers hinv.log hlink rest hstop (hon.next hold) hnext
        (by simp only [Cursor.next]; have := requiredSize_eq d'.arrays.length; omega)
        (fun e he => hin e (List.mem_cons_of_mem _ he))
        (r.accept w.header.version (d'.toRecord (r.sequence + 1) r.previousOffset) _)
        (by rw [← hr]; rfl)
      refine ⟨r', hstep.trans hrun, .inl ?_⟩
      rw [htop', Result.accept_top, htop, ← List.foldl_cons]
      refine foldl_newer_eq (.refl _) (fun e he => hup e ?_) (.inl rfl)
      exact (List.cons_prefix_cons.mpr ⟨rfl, hpre⟩).subset he
  · exact scanLoop_arrived hchunks hinv hi ht hd hfront hc hr htop hrec

/-- Unless the crash is clean, recovery runs into an error. -/
theorem clean_of_scan {found : Result} (hok : scan chunks torn w.header = .ok found) :
    CleanCrash chunks w j c written torn := by
  have hj := hinv.chunks_eq h j hi.handle
  obtain ⟨as, has⟩ := hfront.reaches.onChain
  have hlink := linkedAt_front hi hfront
  have htl := tornLog_front hchunks hinv hi ht hd hfront
  have has' := htl.path has
  have hold : ∀ d ∈ as, Intact torn w.header.version d := fun d hd =>
    hi.intact_torn hj ht hs hintact has hd
  have hquarter : j.tail + requiredSize c.arrays.length + 88 ≤ capacity := by
    have := of_decide_eq_false hi.policy
    have : capacity * 3 / 4 + 88 ≤ capacity := by decide
    omega
  refine ⟨fun q hq hle hlt hm => ?_, fun harrived hroom hm => ?_⟩
  · -- the scan comes to the place along records of the old chain
    by_contra hbad
    obtain ⟨cs, hp⟩ := hq
    obtain ⟨bs, rfl, hbs⟩ := has'.exists_rest hp hle
    have hpath := has.append (htl.path_old hinv.log hlink hbs ⟨as, has⟩ (Nat.le_refl _) hlt)
    rw [scan_header_error hp (fun d hd => hi.intact_torn hj ht hs hintact hpath hd) (by omega) hm hbad]
      at hok
    cases hok
  · have hnew : LinkedAt (journal chunks torn.bytes) j.cursor c :=
      ⟨(recordArrived_iff hi hfront).mp harrived, hlink.range⟩
    have hc : Intact torn w.header.version c := by
      by_contra hbad
      rw [← word_congr fun x hx _ => journal_behind hchunks hinv hi ht hd hfront hx] at hm
      rw [scan_invalid_error has' hold hnew hbad hroom hm] at hok
      cases hok
    exact ⟨hi.arrays_arrived hd (hc (hi.above_header hinv)), endClean_of_scan hchunks hinv hi ht hd hfront
      (has'.append (.cons hnew (.nil _)))
      (List.forall_mem_append.mpr ⟨hold, List.forall_mem_singleton.mpr hc⟩) hok⟩

end AtFront

/-- **A crash during a journaled commit is atomic** exactly if it is clean: recovery returns the
previous newest commit, or the new one, of which every byte has arrived then. -/
theorem scan_torn_iff {w₀ : World} (hchunks : ChunksWF chunks) (hinit : w₀.Initial chunks)
    (run : ReflTransGen (OneHandleStep chunks h) w₀ w)
    (hi : Interrupted chunks w h j c written bytes) (ht : Torn w.file.bytes written bytes torn)
    (hd : Distinct chunks w.file.bytes bytes c written torn) (hs : SparesChain chunks w c) :
    (∃ r, scan chunks torn w.header = .ok r ∧
      (r.top = w.newest ∨ r.top = c.info ∧ RecordArrived chunks j c torn ∧
        ArraysArrived c written torn)) ↔ CleanCrash chunks w j c written torn := by
  obtain ⟨hinv, hon, hintact⟩ := oneHandle_run hchunks hinit run
  have hfront := hon.handle j hi.handle
  refine ⟨fun ⟨r, hok, _⟩ => clean_of_scan hchunks hinv hi ht hd hfront hintact hs hok, fun hc => ?_⟩
  obtain ⟨as, has, hmem⟩ := hfront.reaches
  have hj := hinv.chunks_eq h j hi.handle
  have htl := tornLog_front hchunks hinv hi ht hd hfront
  obtain ⟨r, hcur, htop, hrun⟩ := scanLoop_path w.header.version (htl.path has)
    { topRef := w.header.ref, version := w.header.version, logicalSize := w.header.logicalSize } rfl
    fun d hd => hi.intact_torn hj ht hs hintact has hd
  have hnewest : r.top = w.newest :=
    htop.trans (foldl_newer_eq hinv.log.header_upTo (hinv.log.upTo_path has) hmem)
  obtain ⟨r', hrun', hres⟩ := scanLoop_torn hchunks hinv hi ht hd hfront hintact hs hc hcur hnewest
  exact ⟨r', hrun.trans hrun', hres⟩

end Recovery

namespace Small

theorem interrupted {w : World} {J : Image} (hs : Session w J fresh []) (hn : w.newest.version = 0) :
    Interrupted chunkRefs w 0 fresh (commit 1 5) w.file
      (writeBytes chunkRefs w.file.bytes 0 (encodeRecord 1 npos (commit 1 5))) where
  handle := hs.handle
  version := by rw [hn]; decide
  policy := by decide
  prepared := ⟨_, rfl⟩
  apart := by
    intro a ha o ho
    obtain ⟨i, hi, rfl⟩ := List.mem_map.mp ha
    have h1 := List.mem_range.mp hi
    have h2 := le_position ho
    have h3 : ((5 : Fin 8) : Nat) = 5 := rfl
    have h4 : ((1 : Fin 32) : Nat) = 1 := rfl
    dsimp only
    omega
  only_arrays := fun _ _ => rfl
  valid := by
    intro a ha
    obtain ⟨i, hi, rfl⟩ := List.mem_map.mp ha
    have h1 := List.mem_range.mp hi
    exact hs.state.page.arrayValid (by omega) (by omega)
  size_le := Nat.le_refl _

theorem journal_record {w : World} (hs : State w fun _ => 0) :
    journal chunkRefs (writeBytes chunkRefs w.file.bytes 0 (encodeRecord 1 npos (commit 1 5))) =
      appended (fun _ => 0) .start (commit 1 5) := by
  rw [journal_writeBytes chunkRefs_wf _ _ _ _ rfl (by rw [encodeRecord_length (by decide)]; decide),
    hs.journal_eq]
  rfl

theorem torn_write {w : World} (hs : State w fun _ => 0) {o : Nat} {bs : List UInt8}
    (hfits : o + bs.length ≤ capacity)
    (hbytes : ∀ x, write (fun _ => 0) o bs x = 0 ∨
      write (fun _ => 0) o bs x = appended (fun _ => 0) .start (commit 1 5) x) :
    Torn w.file.bytes w.file (writeBytes chunkRefs w.file.bytes 0 (encodeRecord 1 npos (commit 1 5)))
      ⟨writeBytes chunkRefs w.file.bytes o bs, w.file.size⟩ := by
  refine ⟨fun x => ?_, rfl⟩
  by_cases hx : ∃ q, q < capacity ∧ position chunkRefs q = x
  · obtain ⟨q, hq, rfl⟩ := hx
    have at_q : ∀ f : Image, journal chunkRefs f q = f (position chunkRefs q) := fun f => if_pos hq
    dsimp only
    rw [← at_q w.file.bytes, ← at_q (writeBytes _ _ o bs), ← at_q (writeBytes _ _ _ (encodeRecord _ _ _)),
      journal_writeBytes chunkRefs_wf _ _ _ _ rfl hfits, journal_record hs, hs.journal_eq]
    exact hbytes q
  · exact .inl (writeBytes_outside _ _ _ _ rfl hfits fun q hq hpos => hx ⟨q, hq, hpos⟩)

theorem distinct_write {w : World} {J : Image} (hs : Session w J fresh []) (hn : w.newest.version = 0)
    (hzero : J = fun _ => 0) {o : Nat} {bs : List UInt8} (hfits : o + bs.length ≤ capacity)
    (hnone : ∀ q, q % 8 = 0 → ¬ HeaderAt (write (fun _ => 0) o bs) q) :
    Distinct chunkRefs w.file.bytes (writeBytes chunkRefs w.file.bytes 0 (encodeRecord 1 npos (commit 1 5)))
      (commit 1 5) w.file ⟨writeBytes chunkRefs w.file.bytes o bs, w.file.size⟩ := by
  refine ⟨fun q r hal hparse => ?_, fun a ha _ => ?_⟩
  · obtain ⟨hmin, hmax⟩ := parseRecord_size hparse
    have hh := (parseRecord_record (reads_journal _ _) (by omega) hparse).1
    rw [journal_writeBytes chunkRefs_wf _ _ _ _ rfl hfits, hs.state.journal_eq, hzero] at hh
    exact absurd hh (hnone q hal)
  · refine slice_congr fun x hx hx' => writeBytes_outside _ _ _ _ rfl hfits fun q hq hpos => ?_
    have := (interrupted hs hn).apart a ha q hq
    omega

/-- The record without its first eight bytes. -/
def withoutMagic (c : Commit) : List UInt8 := (encodeRecord 1 npos c).drop 8

theorem length_withoutMagic : (withoutMagic (commit 1 5)).length = 160 := by
  rw [withoutMagic, List.length_drop, encodeRecord_length (by decide)]
  rfl

theorem withoutMagic_eq {x : Nat} (hx : 8 ≤ x) :
    write (fun _ => 0) 8 (withoutMagic (commit 1 5)) x = appended (fun _ => 0) .start (commit 1 5) x := by
  have hlen : (encodeRecord 1 npos (commit 1 5)).length = 168 := encodeRecord_length (by decide)
  by_cases hin : x < 168
  · have hnew : write (fun _ => 0) 0 (encodeRecord 1 npos (commit 1 5)) x =
        (encodeRecord 1 npos (commit 1 5)).getD x 0 := by simp [write, hlen, hin]
    have hold : write (fun _ => 0) 8 (withoutMagic (commit 1 5)) x = (withoutMagic (commit 1 5)).getD (x - 8) 0 := by
      have := length_withoutMagic
      rw [write, if_pos ⟨hx, by omega⟩]
    refine hold.trans (Eq.trans ?_ hnew.symm)
    rw [withoutMagic, List.getD_eq_getElem?_getD, List.getD_eq_getElem?_getD, List.getElem?_drop,
      Nat.add_sub_cancel' hx]
  · rw [write_outside _ (.inr (by rw [length_withoutMagic]; omega))]
    have hnew : write (fun _ => 0) 0 (encodeRecord 1 npos (commit 1 5)) x = 0 :=
      write_outside _ (.inr (by omega))
    exact hnew.symm

theorem word_withoutMagic : word (write (fun _ => 0) 8 (withoutMagic (commit 1 5))) 0 = 0 :=
  word_eq_zero fun _ _ hx => write_outside _ (.inl (by omega))

theorem not_headerAt_withoutMagic {q : Nat} (hal : q % 8 = 0) :
    ¬ HeaderAt (write (fun _ => 0) 8 (withoutMagic (commit 1 5))) q := by
  intro hh
  by_cases hstart : q = 0
  · subst hstart
    exact absurd (word_withoutMagic.symm.trans hh.1) (by decide)
  · have hnew := linkedAt_appended (J := fun _ => 0) .start (size_le 1 5) (by decide)
    have hh' := hh.congr fun x hx _ => withoutMagic_eq (by omega)
    by_cases hin : q < 168
    · exact hnew.record.not_headerAt_inside hnew.range hal (Nat.pos_of_ne_zero hstart) hin hh'
    · exact not_headerAt_zero q (hh'.congr fun x hx _ => appended_outside hnew.record.fits (.inr (by
        show 0 + 168 ≤ x
        omega)))

end Small

/-- A crash after which everything has arrived but the first eight bytes of the record. -/
theorem scan_torn_iff_small :
    ∃ w torn bytes, ReflTransGen (OneHandleStep Small.chunkRefs 0) Small.world w ∧
      Interrupted Small.chunkRefs w 0 Small.fresh (Small.commit 1 5) w.file bytes ∧
      Torn w.file.bytes w.file bytes torn ∧
      slice (journal Small.chunkRefs torn.bytes) 8 160 = Small.withoutMagic (Small.commit 1 5) ∧
      ¬ RecordArrived Small.chunkRefs Small.fresh (Small.commit 1 5) torn ∧
      ∃ r, scan Small.chunkRefs torn w.header = .ok r ∧
        (r.top = w.newest ∨ r.top = (Small.commit 1 5).info ∧
          RecordArrived Small.chunkRefs Small.fresh (Small.commit 1 5) torn ∧
          ArraysArrived (Small.commit 1 5) w.file torn) := by
  obtain ⟨w, m, n, s⟩ := Small.session_open
  have hi := Small.interrupted s n
  have run : ReflTransGen (OneHandleStep Small.chunkRefs 0) Small.world w :=
    .single ⟨_, m.1, rfl, trivial, m.2⟩
  have hfits : 8 + (Small.withoutMagic (Small.commit 1 5)).length ≤ capacity := by
    rw [Small.length_withoutMagic]
    decide
  have hJ : journal Small.chunkRefs
      (writeBytes Small.chunkRefs w.file.bytes 8 (Small.withoutMagic (Small.commit 1 5))) =
      write (fun _ => 0) 8 (Small.withoutMagic (Small.commit 1 5)) := by
    rw [journal_writeBytes Small.chunkRefs_wf _ _ _ _ rfl hfits, s.state.journal_eq]
  have ht := Small.torn_write s.state hfits fun x => by
    by_cases hx : 8 ≤ x
    · exact .inr (Small.withoutMagic_eq hx)
    · exact .inl (write_outside _ (.inl (by omega)))
  have hd := Small.distinct_write s n rfl hfits fun q => Small.not_headerAt_withoutMagic
  have hmissing : ¬ RecordArrived Small.chunkRefs Small.fresh (Small.commit 1 5)
      ⟨writeBytes Small.chunkRefs w.file.bytes 8 (Small.withoutMagic (Small.commit 1 5)), w.file.size⟩ := by
    intro harrived
    have hrec : RecordAt (journal Small.chunkRefs _) 0 1 npos (Small.commit 1 5) :=
      ⟨by decide, harrived, by decide, by decide⟩
    have hmagic := hrec.headerAt.1
    rw [hJ, Small.word_withoutMagic] at hmagic
    exact absurd hmagic (by decide)
  refine ⟨w, _, _, run, hi, ht, ?_, hmissing,
    (scan_torn_iff Small.chunkRefs_wf Small.world_initial run hi ht hd ?_).mpr
      ⟨fun k hk hle hlt hm => ?_, fun harrived => absurd harrived hmissing⟩⟩
  · rw [hJ, ← Small.length_withoutMagic, slice_write_self]
  · intro cs k hp d hd
    rw [s.state.journal_eq] at hp
    cases hp with
    | nil => cases hd
    | cons h rest => exact absurd h.record.headerAt (Small.not_headerAt_zero _)
  · obtain ⟨cs, hp⟩ := hk
    rw [hJ] at hp hm
    cases hp with
    | nil => exact absurd (Small.word_withoutMagic.symm.trans hm) (by decide)
    | cons h rest => exact absurd h.record.headerAt (Small.not_headerAt_withoutMagic rfl)

/-- **Eight bytes are enough.**  On an empty journal the first commit is interrupted when the first
eight bytes of its record and all its arrays have reached the disk: recovery finds a magic word
without a header and throws. -/
theorem scan_rejects_torn_header :
    ∃ w torn bytes, ReflTransGen (OneHandleStep Small.chunkRefs 0) Small.world w ∧
      Interrupted Small.chunkRefs w 0 Small.fresh (Small.commit 1 5) w.file bytes ∧
      Torn w.file.bytes w.file bytes torn ∧
      Distinct Small.chunkRefs w.file.bytes bytes (Small.commit 1 5) w.file torn ∧
      scan Small.chunkRefs torn w.header = .error "bad commit journal record header" := by
  obtain ⟨w, m, n, s⟩ := Small.session_open
  have hi := Small.interrupted s n
  have hJ : journal Small.chunkRefs (writeBytes Small.chunkRefs w.file.bytes 0 (putU64 headerMagic)) =
      write (fun _ => 0) 0 (putU64 headerMagic) := by
    rw [journal_writeBytes Small.chunkRefs_wf _ _ _ _ rfl (by decide), s.state.journal_eq]
  have hmagic : word (write (fun _ => 0) 0 (putU64 headerMagic)) 0 = headerMagic := by
    rw [word, show (8 : Nat) = (putU64 headerMagic).length from rfl, slice_write_self]
    decide
  have hzero : ∀ o, word (write (fun _ => 0) 0 (putU64 headerMagic)) (o + 8) = 0 := by
    intro o
    exact word_eq_zero fun x hx _ => write_outside _ (.inr (by show 0 + 8 ≤ x; omega))
  have hnone : ∀ o, ¬ HeaderAt (write (fun _ => 0) 0 (putU64 headerMagic)) o := fun o hh =>
    absurd ((hzero o).symm.trans hh.2) (by decide)
  have hfits : 0 + (putU64 headerMagic).length ≤ capacity := by decide
  refine ⟨w, ⟨writeBytes Small.chunkRefs w.file.bytes 0 (putU64 headerMagic), w.file.size⟩, _,
    .single ⟨_, m.1, rfl, trivial, m.2⟩, hi, Small.torn_write s.state hfits fun x => ?_,
    Small.distinct_write s n rfl hfits fun q _ => hnone q, ?_⟩
  · by_cases hlt : x < 8
    · refine .inr (eq_of_slice_eq (o := 0) (n := 8) ?_ (Nat.zero_le _) hlt)
      have hnew := (linkedAt_appended (J := fun _ => 0) .start (Small.size_le 1 5)
        (by decide)).record.headerAt.1
      exact leVal_injective (by simp) (hmagic.trans hnew.symm)
    · exact .inl (write_outside _ (.inr (by show 0 + 8 ≤ x; omega)))
  · refine scanLoop_header_error (show 0 + 88 ≤ capacity by decide) ?_ ?_
    · rw [hJ]
      exact hmagic
    · rw [hJ]
      exact hnone 0

end Llbt.Journal
