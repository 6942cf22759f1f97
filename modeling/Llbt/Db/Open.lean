import Llbt.Db.Store

/-!
# Opening a store

Embedding of the loop of `DB::open` for the first handle of a session: each pass validates the top
that the file header selects, recovers the newest top from the journal, and lets
`align_filesize_for_mmap` change the size of the file; a changed file is attached again.

The size is chosen from the recovered top, but it is the header's top that the next pass validates,
and the arrays of all records since the header that it looks for.

* `openLoop_ends` — the loop ends;
* `reopen_newest_iff` — reopening yields the newest version exactly when the pages of its logical
  size hold all of the header's version and of the recorded arrays;
* `reopen_fails` — an evacuation that ends between two checkpoints makes them too few.
-/

set_option autoImplicit false

namespace Llbt.Db

open Blocks FreeSpace
open Journal (File TopInfo WrittenArray CommitJournal)

/-! ## One pass -/

inductive OpenError where
  | fileTooSmall (size : Nat)
  | invalidSize (size : Nat)
  | topRefNotAligned (topRef : Nat)
  | topRefOutside (size topRef : Nat)
  | invalidLogicalSize (logicalSize fileSize : Nat)
  | journal (message : String)
  deriving DecidableEq, Repr

def validateHeader (size : Nat) (top : TopInfo) : Except OpenError Unit :=
  if size < 24 then .error (.fileTooSmall size)
  else if size % 8 ≠ 0 then .error (.invalidSize size)
  else if top.ref % 8 ≠ 0 then .error (.topRefNotAligned top.ref)
  else if top.ref ≥ size then .error (.topRefOutside size top.ref)
  else .ok ()

/-- `Group::validate_top_array`; the baseline of a file just attached is its size. -/
def validateTopArray (baseline : Nat) (top : TopInfo) : Except OpenError Unit :=
  if top.logicalSize > baseline then .error (.invalidLogicalSize top.logicalSize baseline)
  else .ok ()

/-- `SlabAlloc::align_filesize_for_mmap` for the session initiator: the new size of the file, if it
changes. -/
def alignFilesizeForMmap (cfg : Config) (top : TopInfo) (size : Nat) : Option Nat :=
  let expected := roundUpToPageSize cfg top.logicalSize
  if expected < size then some expected
  else if size ≠ roundUpToPageSize cfg size then some (roundUpToPageSize cfg size)
  else none

def resize (f : File) (size : Nat) : File :=
  ⟨fun x => if x < f.size ∧ x < size then f.bytes x else 0, size⟩

/-- One pass over the attached file: the recovered top, and the file to attach next if there is
another pass.  `chunks` are the chunks that the registry of the header's top refers to. -/
def openPass (cfg : Config) (chunks : List Nat) (header : TopInfo) (f : File) :
    Except OpenError (TopInfo × Option File) := do
  validateHeader f.size header
  validateTopArray f.size header
  match Journal.scan chunks f header with
  | .error message => throw (.journal message)
  | .ok found => return (found.top, (alignFilesizeForMmap cfg found.top f.size).map (resize f))

/-- The loop of `DB::open`; `none` when the passes do not suffice. -/
def openLoop (cfg : Config) (chunks : List Nat) (header : TopInfo) :
    Nat → File → Option (Except OpenError (TopInfo × File))
  | 0, _ => none
  | passes + 1, f =>
    match openPass cfg chunks header f with
    | .error e => some (.error e)
    | .ok (top, none) => some (.ok (top, f))
    | .ok (_, some f') => openLoop cfg chunks header passes f'

/-! ## The loop ends -/

section Loop

variable {cfg : Config} {chunks : List Nat} {header : TopInfo}

theorem openPass_ok {f : File} {top : TopInfo} {next : Option File}
    (h : openPass cfg chunks header f = .ok (top, next)) :
    header.logicalSize ≤ f.size ∧ (∃ found, Journal.scan chunks f header = .ok found ∧
      found.top = top) ∧ next = (alignFilesizeForMmap cfg top f.size).map (resize f) := by
  unfold openPass at h
  cases hh : validateHeader f.size header with
  | error e =>
    rw [hh] at h
    cases h
  | ok u =>
    cases ht : validateTopArray f.size header with
    | error e =>
      rw [hh, ht] at h
      cases h
    | ok u' =>
      have hle : header.logicalSize ≤ f.size := by
        unfold validateTopArray at ht
        split at ht
        · cases ht
        · omega
      cases hscan : Journal.scan chunks f header with
      | error e =>
        rw [hh, ht, hscan] at h
        cases h
      | ok found =>
        rw [hh, ht, hscan] at h
        obtain ⟨rfl, rfl⟩ := Prod.mk.inj (Except.ok.inj h)
        exact ⟨hle, ⟨found, rfl, rfl⟩, rfl⟩

theorem roundUpToPageSize_of_dvd {n : Nat} (h : cfg.page ∣ n) : roundUpToPageSize cfg n = n :=
  Nat.le_antisymm (roundUpToPageSize_le cfg (Nat.le_refl n) h) (le_roundUpToPageSize cfg n)

theorem alignFilesizeForMmap_spec {top : TopInfo} {size size' : Nat}
    (h : alignFilesizeForMmap cfg top size = some size') :
    cfg.page ∣ size' ∧ (cfg.page ∣ size → size' < size) := by
  unfold alignFilesizeForMmap at h
  dsimp only at h
  split at h
  · rename_i hlt
    cases h
    exact ⟨dvd_roundUpToPageSize cfg _, fun _ => hlt⟩
  · split at h
    · rename_i hne
      cases h
      exact ⟨dvd_roundUpToPageSize cfg _, fun hdvd => absurd (roundUpToPageSize_of_dvd hdvd).symm hne⟩
    · cases h

theorem openLoop_succ (cfg : Config) (chunks : List Nat) (header : TopInfo) (f : File) (n : Nat) :
    (∃ e, openLoop cfg chunks header (n + 1) f = some (.error e)) ∨
      (∃ top, openPass cfg chunks header f = .ok (top, none) ∧
        openLoop cfg chunks header (n + 1) f = some (.ok (top, f))) ∨
      ∃ top size, openPass cfg chunks header f = .ok (top, some (resize f size)) ∧
        alignFilesizeForMmap cfg top f.size = some size ∧
        openLoop cfg chunks header (n + 1) f = openLoop cfg chunks header n (resize f size) := by
  cases hp : openPass cfg chunks header f with
  | error e => exact .inl ⟨e, by rw [openLoop, hp]⟩
  | ok p =>
    obtain ⟨top, next⟩ := p
    obtain ⟨-, -, hnext⟩ := openPass_ok hp
    cases ha : alignFilesizeForMmap cfg top f.size with
    | none =>
      rw [ha, Option.map_none] at hnext
      subst hnext
      exact .inr (.inl ⟨top, rfl, by rw [openLoop, hp]⟩)
    | some size =>
      rw [ha, Option.map_some] at hnext
      subst hnext
      exact .inr (.inr ⟨top, size, rfl, ha, by rw [openLoop, hp]⟩)

theorem openPass_too_short {f : File} (hheader : validateHeader f.size header = .ok ())
    (h : f.size < header.logicalSize) :
    openPass cfg chunks header f = .error (.invalidLogicalSize header.logicalSize f.size) := by
  have htop : validateTopArray f.size header =
      .error (.invalidLogicalSize header.logicalSize f.size) := if_pos h
  unfold openPass
  rw [hheader, htop]
  rfl

theorem openLoop_too_short {f : File} (h : f.size < header.logicalSize) (n : Nat)
    (r : TopInfo × File) : openLoop cfg chunks header n f ≠ some (.ok r) := by
  intro hok
  cases n with
  | zero => cases hok
  | succ n =>
    rcases openLoop_succ cfg chunks header f n with ⟨e, he⟩ | ⟨top, hp, -⟩ | ⟨top, size, hp, -, -⟩
    · rw [he] at hok
      cases hok
    · have := (openPass_ok hp).1
      omega
    · have := (openPass_ok hp).1
      omega

/-- **The loop of `DB::open` ends**, whatever is in the file. -/
theorem openLoop_ends (f : File) : ∃ n, (openLoop cfg chunks header n f).isSome := by
  -- once the file has whole pages, each further pass shortens it
  have haligned : ∀ (n : Nat) (f : File), f.size = n → cfg.page ∣ f.size →
      ∃ m, (openLoop cfg chunks header m f).isSome := by
    intro n
    induction n using Nat.strongRecOn with
    | _ n ih =>
      intro f hf hdvd
      rcases openLoop_succ cfg chunks header f 0 with ⟨e, h⟩ | ⟨top, -, h⟩ | ⟨top, size, hp, ha, -⟩
      · exact ⟨1, by rw [h]; rfl⟩
      · exact ⟨1, by rw [h]; rfl⟩
      · obtain ⟨hpage, hlt⟩ := alignFilesizeForMmap_spec ha
        obtain ⟨m, hm⟩ := ih size (hf ▸ hlt hdvd) (resize f size) rfl hpage
        exact ⟨m + 1, by rw [openLoop, hp]; exact hm⟩
  rcases openLoop_succ cfg chunks header f 0 with ⟨e, h⟩ | ⟨top, -, h⟩ | ⟨top, size, hp, ha, -⟩
  · exact ⟨1, by rw [h]; rfl⟩
  · exact ⟨1, by rw [h]; rfl⟩
  · obtain ⟨m, hm⟩ := haligned size (resize f size) rfl (alignFilesizeForMmap_spec ha).1
    exact ⟨m + 1, by rw [openLoop, hp]; exact hm⟩

end Loop

/-! ## What survives a change of the file size -/

section Reopen

variable {cfg : Config} {chunks : List Nat} {s : Store} {newest : Version}
  {log : List Journal.Commit} {f : File}

theorem finish_le_logicalSize {v : Version} (h : v.WF cfg) {b : Block} (hb : b ∈ v.used) :
    b.finish ≤ v.logicalSize := by
  have hpos := (h.used_aligned b hb).size_pos
  refine Nat.le_of_not_lt fun hlt => ?_
  simp only [Block.finish] at hlt
  have hzero := h.unused_beyond (x := b.ref + b.size - 1) (by omega)
  exact cover_eq_zero_iff.mp hzero b hb ⟨by omega, by omega⟩

theorem topInfo_within {v : Version} (h : v.WF cfg) :
    24 ≤ v.logicalSize ∧ (topInfo v).ref % 8 = 0 ∧ (topInfo v).ref < v.logicalSize := by
  have hheader : 24 ≤ v.logicalSize :=
    finish_le_logicalSize (b := fileHeader) h (by simp [Version.used, Version.reachable])
  refine ⟨hheader, ?_⟩
  unfold topInfo
  cases ha : v.arrays.getLast? with
  | none => exact ⟨rfl, by show 0 < v.logicalSize; omega⟩
  | some b =>
    have hmem : b ∈ v.used := by
      simp [Version.used, Version.reachable, List.mem_of_getLast? ha]
    have hle := finish_le_logicalSize h hmem
    obtain ⟨hpos, hmod, -⟩ := h.used_aligned b hmem
    simp only [Block.finish] at hle
    exact ⟨hmod, by show b.ref < v.logicalSize; omega⟩

/-- `f` holds the bytes of the store's file, as far as both reach. -/
def Store.HasPrefix (s : Store) (f : File) : Prop :=
  ∀ x, x < f.size → x < s.file.size → f.bytes x = s.file.bytes x

theorem Store.HasPrefix.resize (h : s.HasPrefix f) {n : Nat} (hn : n ≤ f.size ∨ s.file.size ≤ f.size) :
    s.HasPrefix (resize f n) := by
  intro x hx hs
  have hx' : x < n := hx
  show (if x < f.size ∧ x < n then f.bytes x else 0) = s.file.bytes x
  rw [if_pos (by omega)]
  exact h x (by omega) hs

theorem Store.Inv.header_wf (h : s.Inv cfg chunks newest log) : s.db.header.WF cfg := by
  obtain ⟨j, hj, -⟩ := h.fields
  rw [← h.kept.checkpoint j hj]
  exact h.db.space.wf _ (h.db.checkpoint_mem_live hj)

theorem Store.Inv.image_eq (h : s.Inv cfg chunks newest log) (hchunks : Journal.ChunksWF chunks)
    (hf : s.HasPrefix f) (hle : s.db.header.logicalSize ≤ f.size) :
    Journal.journal chunks f.bytes = s.image chunks := by
  refine journal_congr hchunks fun x hx => ?_
  obtain ⟨b, hb, hbx⟩ := hx
  have hused : b ∈ s.db.header.used := by
    simp [Version.used, Version.reachable, h.chunks_header b hb]
  have hin := finish_le_logicalSize h.header_wf hused
  have hwithin := h.header_within
  have := hbx.2
  simp only [Block.finish] at hin
  exact hf x (by omega) (by omega)

/-- The pages of the newest version hold the version the header selects and all recorded arrays. -/
def Store.Fits (cfg : Config) (s : Store) (newest : Version) : Prop :=
  s.db.header.logicalSize ≤ roundUpToPageSize cfg newest.logicalSize ∧
    ∀ rec ∈ s.db.records, ∀ a ∈ rec.arrays,
      a.finish ≤ roundUpToPageSize cfg newest.logicalSize

/-- **A pass over a file that holds the header's version and the recorded arrays recovers the newest
version.** -/
theorem Store.Inv.openPass_eq (h : s.Inv cfg chunks newest log) (hchunks : Journal.ChunksWF chunks)
    (hf : s.HasPrefix f) (hmod : f.size % 8 = 0) (hle : s.db.header.logicalSize ≤ f.size)
    (hfits : ∀ c ∈ log, ∀ a ∈ c.arrays, a.ref + a.size ≤ f.size) :
    openPass cfg chunks (topInfo s.db.header) f = .ok (topInfo newest,
      (alignFilesizeForMmap cfg (topInfo newest) f.size).map (resize f)) := by
  obtain ⟨h24, hrefmod, hreflt⟩ := topInfo_within h.header_wf
  have hheader : validateHeader f.size (topInfo s.db.header) = .ok () := by
    unfold validateHeader
    rw [if_neg (by omega), if_neg (by omega), if_neg (by omega), if_neg (by omega)]
  have htop : validateTopArray f.size (topInfo s.db.header) = .ok () :=
    if_neg (show ¬ s.db.header.logicalSize > f.size by omega)
  have hvalid : ∀ c ∈ log, ∀ a ∈ c.arrays, Journal.arrayValid f a = true := by
    intro c hc a ha
    have hend := hfits c hc a ha
    have hin := (h.ends c hc a ha).1
    obtain ⟨h1, -, h3, h4⟩ := Journal.arrayValid_iff.mp (h.valid c hc a ha)
    have h8 : 8 ≤ a.size := h1
    refine Journal.arrayValid_iff.mpr ⟨h1, Nat.le_trans (Nat.mod_le _ _) hend, ?_, ?_⟩
    · rw [ByteImage.slice_congr fun x hx hx' => hf x (by omega) (by omega)]
      exact h3
    · rw [ByteImage.slice_congr fun x hx hx' => hf x (by omega) (by omega)]
      exact h4
  obtain ⟨found, hscan, hfound⟩ := h.scan_eq (h.image_eq hchunks hf hle) hvalid
  unfold openPass
  rw [hheader, htop, hscan, ← hfound]
  rfl

theorem Store.Inv.openLoop_short (h : s.Inv cfg chunks newest log) (hchunks : Journal.ChunksWF chunks)
    {c : Journal.Commit} (hc : c ∈ log) {a : WrittenArray} (ha : a ∈ c.arrays) :
    ∀ (n : Nat) (f : File), s.HasPrefix f → cfg.page ∣ f.size → f.size < a.ref + a.size →
      ∀ f', openLoop cfg chunks (topInfo s.db.header) n f ≠ some (.ok (topInfo newest, f')) := by
  intro n
  induction n with
  | zero => exact fun f _ _ _ f' => nofun
  | succ n ih =>
    intro f hf hpage hshort f' heq
    have holds : ∀ {top next}, openPass cfg chunks (topInfo s.db.header) f = .ok (top, next) →
        top ≠ topInfo newest := by
      intro top next hp htop
      obtain ⟨hle, ⟨found, hscan, rfl⟩, -⟩ := openPass_ok hp
      have hlt := h.scan_short (h.image_eq hchunks hf hle) ⟨c, hc, a, ha, hshort⟩ hscan
      exact absurd (congrArg TopInfo.version htop) (Nat.ne_of_lt hlt)
    rcases openLoop_succ cfg chunks (topInfo s.db.header) f n with
      ⟨e, he⟩ | ⟨top, hp, hok⟩ | ⟨top, size, hp, halign, hnext⟩
    · rw [he] at heq
      cases heq
    · rw [hok] at heq
      exact holds hp (congrArg Prod.fst (Except.ok.inj (Option.some.inj heq)))
    · obtain ⟨hdvd, hlt⟩ := alignFilesizeForMmap_spec halign
      have hsize := hlt hpage
      rw [hnext] at heq
      exact ih (resize f size) (hf.resize (.inl (Nat.le_of_lt hsize))) hdvd
        (Nat.lt_trans hsize hshort) f' heq

theorem Store.HasPrefix.refl (s : Store) : s.HasPrefix s.file := fun _ _ _ => rfl

theorem alignFilesizeForMmap_self {top : TopInfo} :
    alignFilesizeForMmap cfg top (roundUpToPageSize cfg top.logicalSize) = none := by
  unfold alignFilesizeForMmap
  dsimp only
  rw [if_neg (Nat.lt_irrefl _), roundUpToPageSize_of_dvd (dvd_roundUpToPageSize cfg _),
    if_neg (not_not.mpr rfl)]

theorem Store.Inv.fits_iff (h : s.Inv cfg chunks newest log) : s.Fits cfg newest ↔
    s.db.header.logicalSize ≤ roundUpToPageSize cfg newest.logicalSize ∧
      ∀ c ∈ log, ∀ a ∈ c.arrays, a.ref + a.size ≤ roundUpToPageSize cfg newest.logicalSize := by
  unfold Store.Fits
  rw [h.records_eq]
  simp only [List.forall_mem_map, recordOf, Block.finish, blockOf]

theorem Store.Inv.openLoop_resized (h : s.Inv cfg chunks newest log)
    (hchunks : Journal.ChunksWF chunks) (hfits : s.Fits cfg newest)
    (hpass : alignFilesizeForMmap cfg (topInfo newest) s.file.size =
      some (roundUpToPageSize cfg newest.logicalSize)) :
    ∃ n f, openLoop cfg chunks (topInfo s.db.header) n s.file = some (.ok (topInfo newest, f)) := by
  obtain ⟨hheader, harrays⟩ := h.fits_iff.mp hfits
  have hfirst := h.openPass_eq hchunks (.refl s) h.size_mod h.header_within
    fun c hc a ha => (h.ends c hc a ha).1
  rw [hpass, Option.map_some] at hfirst
  generalize hf : resize s.file (roundUpToPageSize cfg newest.logicalSize) = f at hfirst
  have hsize : f.size = roundUpToPageSize cfg newest.logicalSize := by rw [← hf]; rfl
  have hprefix : s.HasPrefix f := hf ▸ (Store.HasPrefix.refl s).resize (.inr (Nat.le_refl _))
  have hsecond := h.openPass_eq hchunks hprefix (by rw [hsize]; exact roundUpToPageSize_mod cfg _)
    (by rw [hsize]; exact hheader) (by rw [hsize]; exact harrays)
  have hdone : alignFilesizeForMmap cfg (topInfo newest) f.size = none := by
    rw [hsize]
    exact alignFilesizeForMmap_self
  rw [hdone, Option.map_none] at hsecond
  exact ⟨2, f, by rw [openLoop, hfirst]; dsimp only; rw [openLoop, hsecond]⟩

theorem Store.Inv.fits_of_cut (h : s.Inv cfg chunks newest log) (hchunks : Journal.ChunksWF chunks)
    (hlt : roundUpToPageSize cfg newest.logicalSize < s.file.size) {n : Nat}
    (hok : openLoop cfg chunks (topInfo s.db.header) n
      (resize s.file (roundUpToPageSize cfg newest.logicalSize)) = some (.ok (topInfo newest, f))) :
    s.Fits cfg newest := by
  have hprefix := (Store.HasPrefix.refl s).resize (.inl (Nat.le_of_lt hlt))
  refine h.fits_iff.mpr ⟨?_, fun c hc a ha => Nat.le_of_not_lt fun hshort => ?_⟩
  · exact Nat.le_of_not_lt fun hlt => openLoop_too_short hlt n _ hok
  · exact h.openLoop_short hchunks hc ha n _ hprefix (dvd_roundUpToPageSize cfg _) hshort f hok

/-- **When reopening yields the newest version.**  After every run of commits of one handle, each of
which keeps the journal readable, reopening the file yields the newest version exactly when the pages
of its logical size hold the version the header selects and all arrays recorded since; the loop ends
in any case. -/
theorem reopen_newest_iff (hrun : s.Reachable cfg chunks)
    (hnewest : s.db.active.getLast? = some newest) :
    ((∃ n f, openLoop cfg chunks (topInfo s.db.header) n s.file = some (.ok (topInfo newest, f))) ↔
        s.Fits cfg newest) ∧
      ∃ n, (openLoop cfg chunks (topInfo s.db.header) n s.file).isSome := by
  refine ⟨?_, openLoop_ends s.file⟩
  obtain ⟨hchunks, newest', log, h⟩ := hrun.inv
  obtain rfl := Option.some.inj (h.newest_eq.symm.trans hnewest)
  have hfirst := h.openPass_eq hchunks (.refl s) h.size_mod h.header_within
    fun c hc a ha => (h.ends c hc a ha).1
  have hwithin := h.newest_within
  by_cases hlt : roundUpToPageSize cfg newest'.logicalSize < s.file.size
  · have halign : alignFilesizeForMmap cfg (topInfo newest') s.file.size =
        some (roundUpToPageSize cfg newest'.logicalSize) := if_pos hlt
    refine ⟨?_, fun hfits => h.openLoop_resized hchunks hfits halign⟩
    rintro ⟨n, f, hok⟩
    rw [halign, Option.map_some] at hfirst
    cases n with
    | zero => cases hok
    | succ n =>
      rw [openLoop, hfirst] at hok
      exact h.fits_of_cut hchunks hlt hok
  · -- the file holds the newest version without a page to spare
    have hfits : s.Fits cfg newest' := h.fits_iff.mpr ⟨by have := h.header_within; omega,
      fun c hc a ha => by have := (h.ends c hc a ha).1; omega⟩
    refine ⟨fun _ => hfits, fun _ => ?_⟩
    by_cases hpage : s.file.size = roundUpToPageSize cfg s.file.size
    · have halign : alignFilesizeForMmap cfg (topInfo newest') s.file.size = none := by
        unfold alignFilesizeForMmap
        dsimp only
        rw [topInfo_logicalSize, if_neg hlt, if_neg (not_not.mpr hpage)]
      rw [halign, Option.map_none] at hfirst
      exact ⟨1, s.file, by rw [openLoop, hfirst]⟩
    · have hround : roundUpToPageSize cfg s.file.size = roundUpToPageSize cfg newest'.logicalSize :=
        Nat.le_antisymm
          (roundUpToPageSize_le cfg (by omega) (dvd_roundUpToPageSize cfg _))
          (roundUpToPageSize_le cfg (Nat.le_trans hwithin (le_roundUpToPageSize cfg _))
            (dvd_roundUpToPageSize cfg _))
      refine h.openLoop_resized hchunks hfits ?_
      unfold alignFilesizeForMmap
      dsimp only
      rw [topInfo_logicalSize, if_neg hlt, if_pos hpage, hround]

end Reopen

/-! ## A small store on disk -/

namespace Small

/-- The chunks `Store::open` has written. -/
def chunks : List Nat := ((created.written.drop 2).take 16).map Block.ref

def blank : File := ⟨fun _ => 0, 79704064⟩

def store : Store := ⟨opened, blank, CommitJournal.openAtCheckpoint chunks (topInfo created.version)⟩

/-- The checksum of an array of the given size that is zero behind its checksum. -/
def checksum (size : Nat) : Nat := Crc32c.compute (List.replicate (size - 4) 0)

/-- What the commit of version 3 hands to the journal. -/
def thirdRecord : Journal.Commit where
  version := 3
  topRef := (topInfo third.version).ref
  logicalSize := third.version.logicalSize
  arrays := (allocated third).map fun b => ⟨b.ref, b.size, checksum b.size⟩
  version_lt := by decide
  topRef_lt := by decide +kernel
  topRef_aligned := by decide +kernel
  logicalSize_lt := by decide +kernel
  arrays_wf := by
    have h : ∀ b ∈ allocated third, b.ref < 2 ^ 64 ∧ b.ref % 8 = 0 ∧ b.size < 2 ^ 32 := by
      decide +kernel
    intro a ha
    obtain ⟨b, hb, rfl⟩ := List.mem_map.mp ha
    obtain ⟨h1, h2, h3⟩ := h b hb
    exact ⟨h1, h2, h3, Crc32c.compute_lt _⟩

/-- The file with the arrays of version 3. -/
def thirdFile : File where
  bytes x :=
    match (allocated third).find? fun b => b.ref ≤ x && x < b.ref + 4 with
    | some b => (Journal.putU32 (checksum b.size)).getD (x - b.ref) 0
    | none => 0
  size := 79704064

theorem chunks_wf : Journal.ChunksWF chunks := by
  have h : ∀ i < 16, ∀ j < 16, i ≠ j →
      chunks.getD i 0 + Journal.nodeHeaderSize + Journal.chunkSize ≤ chunks.getD j 0 ∨
        chunks.getD j 0 + Journal.nodeHeaderSize + Journal.chunkSize ≤ chunks.getD i 0 := by
    decide +kernel
  exact ⟨by decide +kernel, fun i j hi hj => h i hi j hj⟩

theorem store_image (x : Nat) : store.image chunks x = 0 := by
  show Journal.journal chunks (fun _ => 0) x = 0
  unfold Journal.journal
  split <;> rfl

theorem store_initial : store.Initial FreeSpace.Small.cfg chunks where
  run := opened_reachable ⟨⟨rfl, rfl⟩, fun h => absurd h (by decide)⟩ ⟨trivial, trivial⟩
  newest := rfl
  journal := rfl
  records := rfl
  chunks_wf := chunks_wf
  chunks_mem := by decide +kernel
  zeroed := store_image
  opened := ⟨_, open_zeroed store_image⟩
  within := by decide +kernel
  size_mod := by decide

def thirdRequest : Request := ⟨(· == 2), update 3 [⟨112, 24⟩] false, thirdRecord⟩

theorem third_writes : Writes third thirdRecord blank thirdFile where
  info_eq := by decide +kernel
  blocks_eq := by decide +kernel
  outside x hx := by
    show thirdFile.bytes x = 0
    unfold thirdFile
    dsimp only
    split
    · rename_i b hb
      have hsize : ∀ b ∈ allocated third, 4 ≤ b.size := by decide +kernel
      have hmem := List.mem_of_find?_eq_some hb
      have hin := List.find?_some hb
      simp only [Bool.and_eq_true, decide_eq_true_eq] at hin
      have := hsize b hmem
      exact absurd ⟨hin.1, by omega⟩ (cover_eq_zero_iff.mp hx b hmem)
    · rfl
  size_eq := by decide +kernel
  size_lt := by decide
  valid := by decide +kernel

theorem third_meets : thirdRequest.Meets chunks store where
  keeps := by decide +kernel
  spares h := absurd h (by decide)
  clean _ _ hm := by
    rw [ByteImage.word_eq_zero fun x _ _ => store_image x] at hm
    exact absurd hm (by decide)

/-- The store after the commit of version 3 has been appended to the journal. -/
def storeOne : Store where
  db := opened.finish (· == 2) third true false
  file := ⟨Journal.writeBytes chunks thirdFile.bytes 0
    (Journal.encodeRecord 1 Journal.npos thirdRecord), 79704064⟩
  journal := store.journal.commitAppend
    ⟨Journal.requiredSize thirdRecord.arrays.length, 0, 1, 3, Journal.cowBytes thirdRecord.arrays⟩

theorem storeOne_reachable : storeOne.Reachable FreeSpace.Small.cfg chunks := by
  have hprepare : store.journal.prepareAppend thirdFile.bytes thirdRecord =
      .ok (storeOne.file.bytes, ⟨Journal.requiredSize thirdRecord.arrays.length, 0, 1, 3,
        Journal.cowBytes thirdRecord.arrays⟩) := by
    unfold CommitJournal.prepareAppend
    dsimp only
    rw [if_neg (by decide +kernel), show store.journal.tail = 0 from rfl, Nat.zero_add]
    rfl
  exact .step (.initial store_initial) third_meets
    (.append (q := thirdRequest) third_commits rfl third_writes (by decide +kernel) hprepare)

end Small

theorem reopen_newest_iff_one :
    Small.storeOne.db.records = [⟨3, allocated Small.third⟩] ∧
      ((∃ n f, openLoop FreeSpace.Small.cfg Small.chunks (topInfo Small.storeOne.db.header) n
          Small.storeOne.file = some (.ok (topInfo Small.third.version, f))) ↔
        Small.storeOne.Fits FreeSpace.Small.cfg Small.third.version) ∧
      ∃ n, (openLoop FreeSpace.Small.cfg Small.chunks (topInfo Small.storeOne.db.header) n
        Small.storeOne.file).isSome :=
  ⟨by decide +kernel, reopen_newest_iff Small.storeOne_reachable rfl⟩

/-! ## A store that shrinks -/

namespace Shrink

/-- A commit that replaces the registry and writes `n` arrays of 15 MiB. -/
def commit (version : Nat) (kept freed : List Block) (n fileSize : Nat) : Commit :=
  { Small.commit version kept freed (List.replicate n 1966079 ++ [2]) false fileSize
      (n * 15728640 + 24) with
    evacSize := 16
    evacSize_ok := by decide }

/-- The commit of `c` on top of `replaced`, the only version that is locked. -/
def result (db : State) (replaced : Version) (c : Commit)
    (h : (writeGroup FreeSpace.Small.cfg (db.topRefs (· == replaced.version)) replaced c).isSome) :
    Committed :=
  (writeGroup FreeSpace.Small.cfg (db.topRefs (· == replaced.version)) replaced c).get h

/-- Version 3 has 360 MiB of data; it is published as a checkpoint. -/
def commit3 : Commit := commit 3 Small.base [⟨112, 24⟩] 24 79704064
def third : Committed := result Small.opened Small.created.version commit3 (by decide +kernel)
def three : State := Small.opened.finish (· == Small.created.version.version) third true false

/-- Version 4 deletes the data. -/
def commit4 : Commit := commit 4 Small.base third.written 0 third.writer.fileSize
def fourth : Committed := result three third.version commit4 (by decide +kernel)
def four : State := three.finish (· == third.version.version) fourth true false

/-- Version 5 has 75 MiB, placed behind the space of version 3; the next checkpoint. -/
def commit5 : Commit := commit 5 Small.base fourth.written 5 fourth.writer.fileSize
def fifth : Committed := result four fourth.version commit5 (by decide +kernel)
def five : State := four.finish (· == fourth.version.version) fifth true false

/-- Version 6 deletes them; most of the file is free now and the evacuation starts. -/
def commit6 : Commit := commit 6 Small.base fifth.written 0 fifth.writer.fileSize
def sixth : Committed := result five fifth.version commit6 (by decide +kernel)
def six : State := five.finish (· == fifth.version.version) sixth true false

/-- Version 7 finds no node above the limit. -/
def commit7 : Commit := commit 7 Small.base sixth.written 0 sixth.writer.fileSize
def seventh : Committed := result six sixth.version commit7 (by decide +kernel)
def seven : State := six.finish (· == sixth.version.version) seventh true false

/-- Version 8 has 75 MiB, placed below the limit; the next checkpoint. -/
def commit8 : Commit := commit 8 Small.base seventh.written 5 seventh.writer.fileSize
def eighth : Committed := result seven seventh.version commit8 (by decide +kernel)
def eight : State := seven.finish (· == seventh.version.version) eighth true false

/-- Version 9 ends the evacuation and cuts the logical size; it is appended to the journal. -/
def commit9 : Commit :=
  commit 9 (Small.base ++ eighth.written.take 5) (eighth.written.drop 5) 0 eighth.writer.fileSize
def ninth : Committed := result eight eighth.version commit9 (by decide +kernel)
def nine : State := eight.finish (· == eighth.version.version) ninth true false

theorem reachable_commit (db : State) (replaced : Version) (c : Commit)
    (hsome : (writeGroup FreeSpace.Small.cfg (db.topRefs (· == replaced.version)) replaced c).isSome)
    (h : db.active.getLast? = some replaced ∧ replaced.nodes.Perm (c.kept ++ c.freed ++ c.lost) ∧
      c.version = replaced.version + 1 ∧ c.anyNewUnreachables = false ∧
      (purgeVersions db.active (· == replaced.version)).2 = false)
    (hrun : Reachable FreeSpace.Small.cfg (fun db a => a.Durable ∧ db.SparesRecords a) db) :
    Reachable FreeSpace.Small.cfg (fun db a => a.Durable ∧ db.SparesRecords a)
      (db.finish (· == replaced.version) (result db replaced c hsome) true false) := by
  obtain ⟨hnewest, hnodes, hversion, hflag, hpurge⟩ := h
  exact .step (a := .commit _ c true false) hrun
    ⟨⟨rfl, rfl⟩, fun h => absurd (hflag.symm.trans h) nofun⟩
    (.commit ⟨hnewest, beq_self_eq_true _, hnodes, hversion, hflag.trans hpurge.symm,
      (Option.some_get _).symm⟩)

theorem nine_reachable :
    Reachable FreeSpace.Small.cfg (fun db a => a.Durable ∧ db.SparesRecords a) nine := by
  refine reachable_commit eight eighth.version commit9 _ (by decide +kernel) ?_
  refine reachable_commit seven seventh.version commit8 _ (by decide +kernel) ?_
  refine reachable_commit six sixth.version commit7 _ (by decide +kernel) ?_
  refine reachable_commit five fifth.version commit6 _ (by decide +kernel) ?_
  refine reachable_commit four fourth.version commit5 _ (by decide +kernel) ?_
  refine reachable_commit three third.version commit4 _ (by decide +kernel) ?_
  refine reachable_commit Small.opened Small.created.version commit3 _ (by decide +kernel) ?_
  exact Small.opened_reachable ⟨⟨rfl, rfl⟩, fun h => absurd h (by decide)⟩ ⟨trivial, trivial⟩

end Shrink

/-- **An evacuation that ends between two checkpoints makes the store unusable.**  The header selects
version 8 with a logical size of 681336832 bytes; version 9 was appended to the journal and has one
of 218632192.  Whatever the bytes in the file, reopening does not yield version 9: where recovery
finds it, the file is cut to the size of version 9, and the next pass rejects the top of version 8. -/
theorem reopen_fails :
    Reachable FreeSpace.Small.cfg (fun db a => a.Durable ∧ db.SparesRecords a) Shrink.nine ∧
      Shrink.nine.active.getLast? = some Shrink.ninth.version ∧
      ∀ chunks bytes,
        (∀ n f, openLoop FreeSpace.Small.cfg chunks (topInfo Shrink.nine.header) n
            ⟨bytes, Shrink.ninth.writer.fileSize⟩ ≠ some (.ok (topInfo Shrink.ninth.version, f))) ∧
        ∀ found, Journal.scan chunks ⟨bytes, Shrink.ninth.writer.fileSize⟩
            (topInfo Shrink.nine.header) = .ok found →
          found.top = topInfo Shrink.ninth.version →
          openLoop FreeSpace.Small.cfg chunks (topInfo Shrink.nine.header) 2
              ⟨bytes, Shrink.ninth.writer.fileSize⟩ =
            some (.error (.invalidLogicalSize 681336832 218632192)) := by
  have hfile : Shrink.ninth.writer.fileSize = 681336832 := by decide +kernel
  have hheader : topInfo Shrink.nine.header = ⟨1632, 8, 681336832⟩ := by decide +kernel
  have hninth : topInfo Shrink.ninth.version = ⟨352, 9, 218632192⟩ := by decide +kernel
  refine ⟨Shrink.nine_reachable, by decide +kernel, ?_⟩
  rw [hfile, hheader, hninth]
  intro chunks bytes
  refine ⟨fun n f hok => ?_, fun found hscan htop => ?_⟩
  · cases n with
    | zero => cases hok
    | succ n =>
      rcases openLoop_succ FreeSpace.Small.cfg chunks ⟨1632, 8, 681336832⟩ ⟨bytes, 681336832⟩ n with
        ⟨e, he⟩ | ⟨top, hp, hdone⟩ | ⟨top, size, -, ha, hnext⟩
      · rw [he] at hok
        cases hok
      · -- a pass that recovers version 9 cuts the file
        rw [hdone] at hok
        obtain rfl : top = ⟨352, 9, 218632192⟩ :=
          congrArg Prod.fst (Except.ok.inj (Option.some.inj hok))
        cases (openPass_ok hp).2.2
      · have hlt := (alignFilesizeForMmap_spec ha).2 (show 4096 ∣ 681336832 by decide)
        rw [hnext] at hok
        exact openLoop_too_short hlt n _ hok
  · have hfirst : openPass FreeSpace.Small.cfg chunks ⟨1632, 8, 681336832⟩ ⟨bytes, 681336832⟩ =
        .ok (⟨352, 9, 218632192⟩, some (resize ⟨bytes, 681336832⟩ 218632192)) := by
      unfold openPass
      rw [hscan]
      dsimp only
      rw [htop]
      rfl
    have hsecond : openPass FreeSpace.Small.cfg chunks ⟨1632, 8, 681336832⟩
        (resize ⟨bytes, 681336832⟩ 218632192) =
          .error (.invalidLogicalSize 681336832 218632192) :=
      openPass_too_short (show validateHeader 218632192 ⟨1632, 8, 681336832⟩ = .ok () by decide)
        (show 218632192 < 681336832 by decide)
    rw [openLoop, hfirst]
    dsimp only
    rw [openLoop, hsecond]

end Llbt.Db
