import Llbt.Journal.Crash

/-!
# Damage inside the chain

A journal whose records and arrays are whole is damaged in one record that is not the last, or in the
arrays that record lists.  `scan` looks for a following record only where it finds an array that is not
valid; where the record itself is damaged it takes the place for the end of the journal, unless the
magic word is whole and the word behind it is not.

* `Damaged` — what may have changed, and that the checksums notice it;
* `scan_throws_iff` — exactly when recovery throws;
* `scan_passes_over_damaged_magic` — one byte of a magic word, and two committed versions are gone.
-/

set_option autoImplicit false

namespace Llbt.Journal

open ByteImage Relation

/-- A journal with a whole chain: `before`, then `c` at the cursor `k`, then `after`, and nothing
behind.  The arrays of all its records are whole. -/
structure WholeChain (chunks : List Nat) (file : File) (header : TopInfo) (before : List Commit) (k : Cursor)
    (c : Commit) (after : List Commit) : Prop where
  path : Path (journal chunks file.bytes) .start before k
  here : LinkedAt (journal chunks file.bytes) k c
  rest : ∃ k', Path (journal chunks file.bytes) (k.next c) after k' ∧ Stops (journal chunks file.bytes) k'
  intact : ∀ d ∈ before ++ c :: after, Intact file header.version d

/-- Some byte of the record of `c` is another one. -/
def RecordChanged (J J' : Image) (k : Cursor) (c : Commit) : Prop :=
  ∃ x, k.offset ≤ x ∧ x < k.offset + requiredSize c.arrays.length ∧ J' x ≠ J x

/-- Some byte of the array `a` is another one. -/
def ArrayChanged (file file' : File) (a : WrittenArray) : Prop :=
  ∃ x, a.ref ≤ x ∧ x < a.ref + a.size ∧ file'.bytes x ≠ file.bytes x

/-- `file` is damaged into `file'`: only bytes of the record of `c` and of its arrays have changed, and
no byte of an array of another record that recovery looks at. -/
structure Damaged (chunks : List Nat) (header : TopInfo) (others : List Commit) (k : Cursor) (c : Commit)
    (file file' : File) : Prop where
  size_eq : file'.size = file.size
  in_record : ∀ x, journal chunks file'.bytes x ≠ journal chunks file.bytes x →
    k.offset ≤ x ∧ x < k.offset + requiredSize c.arrays.length
  in_arrays : ∀ x, file'.bytes x ≠ file.bytes x →
    (∃ o, o < capacity ∧ x = position chunks o) ∨ ∃ a ∈ c.arrays, a.ref ≤ x ∧ x < a.ref + a.size
  apart : ∀ d ∈ others, header.version < d.version → ∀ a ∈ d.arrays, ¬ ArrayChanged file file' a
  changed : RecordChanged (journal chunks file.bytes) (journal chunks file'.bytes) k c ∨
    ∃ a ∈ c.arrays, ArrayChanged file file' a
  /-- A damaged record does not carry the checksum of the bytes its size field makes it span. -/
  record_crc : RecordChanged (journal chunks file.bytes) (journal chunks file'.bytes) k c →
    ∀ n, n = leVal (slice (journal chunks file'.bytes) (k.offset + 60) 4) → 24 ≤ n →
      leVal (slice (journal chunks file'.bytes) (k.offset + (n - 4)) 4) ≠
        Crc32c.compute (slice (journal chunks file'.bytes) k.offset (n - 4))
  /-- Damage to the checksummed part of an array changes its checksum. -/
  array_crc : ∀ a ∈ c.arrays, slice file'.bytes (a.ref + 4) (a.size - 4) ≠
      slice file.bytes (a.ref + 4) (a.size - 4) →
    Crc32c.compute (slice file'.bytes (a.ref + 4) (a.size - 4)) ≠
      Crc32c.compute (slice file.bytes (a.ref + 4) (a.size - 4))

/-! ## What the parser makes of it -/

theorem parseRecord_crc {read : Nat → Nat → List UInt8} {J : Image} (hread : Reads read J) {o : Nat}
    {r : Record} (h : parseRecord read o = .record r) :
    leVal (slice J (o + (r.recordSize - 4)) 4) = Crc32c.compute (slice J o (r.recordSize - 4)) := by
  obtain ⟨hmin, hmax⟩ := parseRecord_size h
  unfold parseRecord at h
  dsimp only at h
  split at h
  · cases h
  split at h
  · cases h
  split at h
  · cases h
  split at h
  · cases h
  split at h
  · cases h
  rename_i hcrc
  obtain rfl := Parsed.record.inj h
  dsimp only at hmin hmax ⊢
  rw [hread _ _ hmax] at hcrc
  generalize getU32 (read o fixedHeaderSize) 60 = n at hcrc hmin hmax ⊢
  have hfoot : n - footerSize + 20 = n - 4 := by
    simp only [footerSize]
    omega
  rw [hfoot, getU32_slice _ (by omega), slice_take _ _ _ _ (by omega)] at hcrc
  exact not_not.mp hcrc

section Damage

variable {chunks : List Nat} {file file' : File} {header : TopInfo} {before after : List Commit} {k : Cursor}
  {c : Commit}

theorem Damaged.path_before (hw : WholeChain chunks file header before k c after)
    (hd : Damaged chunks header (before ++ after) k c file file') :
    Path (journal chunks file'.bytes) .start before k := by
  refine hw.path.congr fun x _ hx => ?_
  by_contra hne
  exact absurd (hd.in_record x (Ne.symm hne)).1 (Nat.not_le.mpr hx)

theorem Damaged.intact_others (hw : WholeChain chunks file header before k c after)
    (hd : Damaged chunks header (before ++ after) k c file file') :
    ∀ d ∈ before ++ after, Intact file' header.version d := by
  intro d hd' hv a ha
  have hmem : d ∈ before ++ c :: after := by
    rcases List.mem_append.mp hd' with h | h
    · exact List.mem_append_left _ h
    · exact List.mem_append_right _ (List.mem_cons_of_mem _ h)
  refine arrayValid_congr hd.size_eq.ge (fun x hx hx' => ?_) (hw.intact d hmem hv a ha)
  by_contra hne
  exact hd.apart d hd' hv a ha ⟨x, hx, hx', hne⟩

theorem Damaged.arrayValid_false (hw : WholeChain chunks file header before k c after)
    (hd : Damaged chunks header (before ++ after) k c file file') (hv : header.version < c.version)
    {a : WrittenArray} (ha : a ∈ c.arrays) (hchanged : ArrayChanged file file' a) :
    ¬ arrayValid file' a = true := by
  have hvalid := hw.intact c (List.mem_append_right _ List.mem_cons_self) hv a ha
  obtain ⟨x, hx, hx', hne⟩ := hchanged
  rw [arrayValid_iff] at hvalid ⊢
  rintro ⟨-, -, hstored, hcrc⟩
  by_cases hlow : x < a.ref + 4
  · -- the stored checksum is another one
    have heq : slice file'.bytes a.ref 4 = slice file.bytes a.ref 4 :=
      leVal_injective (by simp) (hstored.trans hvalid.2.2.1.symm)
    exact hne (eq_of_slice_eq heq hx hlow)
  · refine hd.array_crc a ha (fun heq => hne ?_) (hcrc.trans hvalid.2.2.2.symm)
    exact eq_of_slice_eq heq (by omega) (by omega)

theorem Damaged.scanLoop_record (hw : WholeChain chunks file header before k c after)
    (hd : Damaged chunks header (before ++ after) k c file file')
    (hrec : RecordChanged (journal chunks file.bytes) (journal chunks file'.bytes) k c) {r : Result}
    (hr : r.cursor = k) :
    (∃ e, scanLoop chunks file' header.version r = .error e) ↔
      word (journal chunks file'.bytes) k.offset = headerMagic ∧
        ¬ HeaderAt (journal chunks file'.bytes) k.offset := by
  have hfits := hw.here.record.fits
  have hsize := requiredSize_eq c.arrays.length
  have htail : r.tail = k.offset := congrArg Cursor.offset hr
  have hread := reads_journal chunks file'.bytes
  constructor
  · rintro ⟨e, he⟩
    by_contra hbad
    have hstop : parseRecord (readBytes chunks file'.bytes) k.offset = .stop := by
      cases hp : parseRecord (readBytes chunks file'.bytes) k.offset with
      | stop => rfl
      | badHeader => exact absurd ((parseRecord_badHeader hread (by omega)).mp hp) hbad
      | record q =>
        obtain ⟨hmin, -⟩ := parseRecord_size hp
        have hq := (parseRecord_record hread (by omega) hp).2
        exact absurd (parseRecord_crc hread hp) (hd.record_crc hrec _ hq (by omega))
    rw [scanLoop_of_stop fun _ => htail ▸ hstop] at he
    cases he
  · intro hbad
    rw [← htail] at hbad
    exact ⟨_, scanLoop_header_error (by omega) hbad.1 hbad.2⟩

theorem Damaged.next_magic (hw : WholeChain chunks file header before k c after) (hne : after ≠ [])
    (hd : Damaged chunks header (before ++ after) k c file file') :
    k.offset + requiredSize c.arrays.length + 8 ≤ capacity ∧
      word (journal chunks file'.bytes) (k.offset + requiredSize c.arrays.length) = headerMagic := by
  obtain ⟨k', hpath, -⟩ := hw.rest
  cases hpath with
  | nil => exact absurd rfl hne
  | @cons _ _ d ds h rest =>
    have hfits := h.record.fits
    have hsize := requiredSize_eq d.arrays.length
    have hoff : (k.next c).offset = k.offset + requiredSize c.arrays.length := rfl
    refine ⟨by omega, ?_⟩
    rw [← h.record.headerAt.1, hoff]
    unfold word
    rw [slice_congr fun x hx _ => ?_]
    by_contra hne'
    have hin := hd.in_record x hne'
    omega

theorem Damaged.scanLoop_arrays (hw : WholeChain chunks file header before k c after) (hne : after ≠ [])
    (hd : Damaged chunks header (before ++ after) k c file file') (hv : header.version < c.version)
    (hlinked : LinkedAt (journal chunks file'.bytes) k c)
    (hinvalid : ¬ ∀ a ∈ c.arrays, arrayValid file' a = true) {r : Result} (hr : r.cursor = k) :
    scanLoop chunks file' header.version r = .error "corruption inside commit journal chain" := by
  subst hr
  have hchecked : ¬ (checkArrays file' c.arrays r.cowBytes).1 = true := fun h =>
    hinvalid (valid_of_checkArrays h)
  rw [scanLoop_recordAt hlinked.record hlinked.nextSequence_eq.symm rfl]
  dsimp only
  rw [if_pos hv, if_neg hchecked]
  exact if_pos (hd.next_magic hw hne)

/-- **Exactly when damage is noticed.**  Where the damage leaves the record as it was, recovery throws
if and only if the record is newer than the checkpoint; where it does not, if and only if the magic word
of the record is whole and the version and header size behind it are not. -/
theorem scan_throws_iff (hw : WholeChain chunks file header before k c after) (hne : after ≠ [])
    (hd : Damaged chunks header (before ++ after) k c file file') :
    (∃ e, scan chunks file' header = .error e) ↔
      (¬ RecordChanged (journal chunks file.bytes) (journal chunks file'.bytes) k c ∧
        header.version < c.version) ∨
      (word (journal chunks file'.bytes) k.offset = headerMagic ∧
        word (journal chunks file'.bytes) (k.offset + 8) ≠ recordVersion + fixedHeaderSize * 2 ^ 32) := by
  have hothers := hd.intact_others hw
  have hpath := hd.path_before hw
  obtain ⟨r, hr, -, hrun⟩ := scanLoop_path header.version hpath
    { topRef := header.ref, version := header.version, logicalSize := header.logicalSize } rfl
    fun d hd' => hothers d (List.mem_append_left _ hd')
  have hscan : scan chunks file' header = scanLoop chunks file' header.version r := hrun
  rw [hscan]
  by_cases hrec : RecordChanged (journal chunks file.bytes) (journal chunks file'.bytes) k c
  · rw [hd.scanLoop_record hw hrec hr, or_iff_right fun h => h.1 hrec]
    refine and_congr_right fun hmagic => not_congr ?_
    exact ⟨And.right, fun h => ⟨hmagic, h⟩⟩
  · -- the record is as it was, so one of its arrays is damaged
    have hsame : ∀ x, k.offset ≤ x → x < k.offset + requiredSize c.arrays.length →
        journal chunks file.bytes x = journal chunks file'.bytes x := by
      intro x hx hx'
      by_contra hx''
      exact hrec ⟨x, hx, hx', Ne.symm hx''⟩
    have hrecord := hw.here.record.congr hsame
    have hlinked : LinkedAt (journal chunks file'.bytes) k c := ⟨hrecord, hw.here.range⟩
    have hheader := hrecord.headerAt
    rw [or_iff_left fun h => h.2 hheader.2]
    by_cases hv : header.version < c.version
    · obtain ⟨a, ha, hchanged⟩ := hd.changed.resolve_left hrec
      have hthrow := hd.scanLoop_arrays hw hne hv hlinked
        (fun h => hd.arrayValid_false hw hv ha hchanged (h a ha)) hr
      exact iff_of_true ⟨_, hthrow⟩ ⟨hrec, hv⟩
    · -- recovery does not look at the arrays, and the chain is whole
      obtain ⟨k', hrest, hstops⟩ := hw.rest
      have hall : ∀ x, journal chunks file'.bytes x = journal chunks file.bytes x := by
        intro x
        by_contra hx
        obtain ⟨hx₁, hx₂⟩ := hd.in_record x hx
        exact hx (hsame x hx₁ hx₂).symm
      rw [← funext hall] at hrest hstops
      obtain ⟨r', hr', -, hrun'⟩ := scanLoop_path header.version (Path.cons hlinked hrest) r hr
        fun d hd' => by
          rcases List.mem_cons.mp hd' with rfl | hd'
          · exact fun h => absurd h hv
          · exact hothers d (List.mem_append_right _ hd')
      refine iff_of_false (fun ⟨e, he⟩ => ?_) fun h => hv h.2
      subst hr'
      rw [hrun', scanLoop_stops hstops] at he
      cases he

end Damage

/-! ## A small store -/

namespace Small

/-- The checkpoint of the small store. -/
def checkpoint : TopInfo := ⟨0, 0, 2 ^ 27⟩

/-- The journal of two commits with one array each. -/
def twoRecords : Image := appended (appended (fun _ => 0) .start (commit 1 1)) ⟨104, 0, 1⟩ (commit 2 1)

theorem twoRecords_end (x : Nat) (hx : 208 ≤ x) : twoRecords x = 0 := by
  unfold twoRecords
  rw [appended_outside (by decide) (.inr (Nat.le_trans (by decide) hx)),
    appended_outside (by decide) (.inr (Nat.le_trans (by decide) hx))]

theorem exists_twoRecords : ∃ f : File, Page f ∧ journal chunkRefs f.bytes = twoRecords ∧
    WholeChain chunkRefs f checkpoint [] .start (commit 1 1) [commit 2 1] := by
  obtain ⟨w1, -, n1, s1⟩ := session_open
  obtain ⟨w2, -, n2, s2⟩ := s1.append 1 1 (by rw [n1]; decide) (by decide) rfl
    (not_linkedAt_appended (by decide) (not_headerAt_zero _))
  obtain ⟨w3, -, -, s3⟩ := s2.append 2 1 (by rw [n2]; decide) (by decide) rfl
    (not_linkedAt_appended (by decide) (not_headerAt_appended (by decide) (by decide)
      (not_headerAt_zero _)))
  have hJ : journal chunkRefs w3.file.bytes = twoRecords := s3.state.journal_eq
  have hpath := s3.path
  rw [← s3.state.journal_eq] at hpath
  refine ⟨w3.file, s3.state.page, hJ, ?_⟩
  obtain _ | ⟨h1, hrest⟩ := hpath
  refine ⟨.nil _, h1, ⟨_, hrest, fun _ => ?_⟩, fun d hd => ?_⟩
  · have hzero : word twoRecords 208 = 0 := word_eq_zero fun x hx _ => twoRecords_end x hx
    rw [hJ]
    exact fun hmagic => absurd (hzero.symm.trans hmagic) (by decide)
  · obtain ⟨v, n, rfl⟩ := s3.small d hd
    exact s3.state.page.intact _ v n

theorem arrays_below {v : Fin 32} {n : Fin 8} {a : WrittenArray} (ha : a ∈ (commit v n).arrays) :
    a.ref + a.size ≤ 4096 := by
  obtain ⟨i, hi, rfl⟩ := List.mem_map.mp ha
  have := List.mem_range.mp hi
  dsimp only
  omega

end Small

/-- A byte of an array of the first record: recovery throws. -/
theorem scan_throws_iff_array :
    ∃ file file' : File, WholeChain Small.chunkRefs file Small.checkpoint [] .start (Small.commit 1 1)
        [Small.commit 2 1] ∧
      Damaged Small.chunkRefs Small.checkpoint ([] ++ [Small.commit 2 1]) .start (Small.commit 1 1) file file' ∧
      ∃ e, scan Small.chunkRefs file' Small.checkpoint = .error e := by
  obtain ⟨f, hpage, -, hw⟩ := Small.exists_twoRecords
  have hout : ∀ x, x ≠ 68 → write f.bytes 68 [1] x = f.bytes x := fun x hx =>
    write_outside _ (by simp only [List.length_singleton]; omega)
  have hjournal : journal Small.chunkRefs (write f.bytes 68 [1]) = journal Small.chunkRefs f.bytes := by
    funext x
    unfold journal
    split
    · rename_i hx
      have := Small.le_position hx
      exact hout _ (by omega)
    · rfl
  have hsame : ∀ k c, ¬ RecordChanged (journal Small.chunkRefs f.bytes)
      (journal Small.chunkRefs (write f.bytes 68 [1])) k c := by
    rintro k c ⟨x, -, -, hne⟩
    exact hne (by rw [hjournal])
  have hzero : slice f.bytes 68 4 = [0, 0, 0, 0] := by
    have hbelow : slice f.bytes 68 4 = slice Small.file.bytes 68 4 :=
      slice_congr fun x _ hx => hpage.below x (by omega)
    rw [hbelow]
    decide +kernel
  have hone : slice (write f.bytes 68 [1]) 68 4 = [1, 0, 0, 0] := by
    have htail : slice (write f.bytes 68 [1]) 69 3 = slice f.bytes 69 3 :=
      slice_congr fun x hx _ => hout x (by omega)
    have hsplit : slice f.bytes 68 1 ++ slice f.bytes 69 3 = [0] ++ [0, 0, 0] :=
      (slice_append f.bytes 68 1 3).symm.trans hzero
    rw [show (4 : Nat) = 1 + 3 from rfl, slice_append, htail,
      (List.append_inj hsplit (by simp)).2, show (1 : Nat) = [(1 : UInt8)].length from rfl,
      slice_write_self]
    rfl
  have hd : Damaged Small.chunkRefs Small.checkpoint ([] ++ [Small.commit 2 1]) .start (Small.commit 1 1) f
      ⟨write f.bytes 68 [1], f.size⟩ := by
    refine ⟨rfl, fun x hx => absurd (congrFun hjournal x) hx, fun x hx => .inr ?_, ?_, .inr ?_,
      fun h => absurd h (hsame _ _), fun a ha hne => ?_⟩
    · have hx68 : x = 68 := not_not.mp fun hne => hx (hout x hne)
      exact ⟨⟨64, 8, Small.checksum⟩, List.mem_singleton.mpr rfl, by subst hx68; decide⟩
    · rintro d hd' - a ha ⟨x, hx, -, hne⟩
      obtain rfl := List.mem_singleton.mp hd'
      obtain rfl : a = ⟨128, 8, Small.checksum⟩ := List.mem_singleton.mp ha
      exact hne (hout x (by dsimp only at hx; omega))
    · refine ⟨⟨64, 8, Small.checksum⟩, List.mem_singleton.mpr rfl, 68, by decide, by decide, fun heq => ?_⟩
      have hhead : slice (write f.bytes 68 [1]) 68 4 = slice f.bytes 68 4 := by
        refine slice_congr fun x _ _ => ?_
        by_cases hx : x = 68
        · rw [hx]
          exact heq
        · exact hout x hx
      rw [hone, hzero] at hhead
      exact absurd hhead (by decide)
    · obtain rfl : a = ⟨64, 8, Small.checksum⟩ := List.mem_singleton.mp ha
      dsimp only
      rw [hone, hzero]
      decide +kernel
  exact ⟨f, _, hw, hd, (scan_throws_iff hw (by simp) hd).mpr (.inl ⟨hsame _ _, by decide⟩)⟩

/-- **One byte of a magic word.**  Two versions were committed since the checkpoint and the first byte of
the first record is cleared: recovery returns the checkpoint, without an error. -/
theorem scan_passes_over_damaged_magic :
    ∃ file file' : File, WholeChain Small.chunkRefs file Small.checkpoint [] .start (Small.commit 1 1)
        [Small.commit 2 1] ∧
      Damaged Small.chunkRefs Small.checkpoint ([] ++ [Small.commit 2 1]) .start (Small.commit 1 1) file file' ∧
      ∃ r, scan Small.chunkRefs file' Small.checkpoint = .ok r ∧ r.version = 0 := by
  obtain ⟨f, hpage, hJ, hw⟩ := Small.exists_twoRecords
  have hjournal : journal Small.chunkRefs (writeBytes Small.chunkRefs f.bytes 0 [0]) =
      write Small.twoRecords 0 [0] := by
    rw [journal_writeBytes Small.chunkRefs_wf _ _ _ _ rfl (by decide), hJ]
  have hpage' : Small.Page ⟨writeBytes Small.chunkRefs f.bytes 0 [0], f.size⟩ := hpage.writeBytes (by decide)
  have hbelow : ∀ x, x < 4096 → writeBytes Small.chunkRefs f.bytes 0 [0] x = f.bytes x := fun x hx =>
    (hpage'.below x hx).trans (hpage.below x hx).symm
  have hsize : leVal (slice (write Small.twoRecords 0 [0]) (0 + 60) 4) = 104 := by decide +kernel
  have hd : Damaged Small.chunkRefs Small.checkpoint ([] ++ [Small.commit 2 1]) .start (Small.commit 1 1) f
      ⟨writeBytes Small.chunkRefs f.bytes 0 [0], f.size⟩ := by
    refine ⟨rfl, fun x hx => ?_, fun x hx => .inl ?_, ?_, .inl ⟨0, by decide, by decide, ?_⟩,
      fun _ n hn _ => ?_, fun a ha hne => absurd (slice_congr fun x _ hx => hbelow x ?_) hne⟩
    · rw [hjournal, hJ] at hx
      have hzero : x = 0 := by
        by_contra hne
        exact hx (write_outside _ (.inr (by simp only [List.length_singleton]; omega)))
      subst hzero
      decide
    · by_contra hnot
      exact hx (writeBytes_outside _ _ _ _ rfl (by decide) fun o ho hpos => hnot ⟨o, ho, hpos.symm⟩)
    · rintro d hd' - a ha ⟨x, -, hx, hne⟩
      obtain rfl := List.mem_singleton.mp hd'
      have := Small.arrays_below ha
      exact hne (hbelow x (by omega))
    · rw [hjournal, hJ]
      decide +kernel
    · rw [hjournal] at hn ⊢
      obtain rfl : n = 104 := hn.trans hsize
      decide +kernel
    · have := Small.arrays_below ha
      omega
  refine ⟨f, _, hw, hd, _, scanLoop_stops fun _ => ?_, rfl⟩
  rw [hjournal]
  decide +kernel

end Llbt.Journal
