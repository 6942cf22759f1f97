import Llbt.Journal.Scan

/-!
# Appending to the journal

The state of `CommitJournal` and its operations, and the invariant that ties the journal bytes
to the newest commit.

A checkpoint clears the first eight bytes of the journal only, so whole records of earlier
cycles stay behind the new tail.  `LogInv` says what they look like: every header anywhere in the
journal starts a whole record from which the scan would run to a clean stop.  `LogInv.append`
needs one fact about the position where the new record ends (`EndClean`): what stands there is
no header, or a record that continues the chain.
-/

set_option autoImplicit false

namespace Llbt.Journal

open ByteImage

/-! ## The journal object -/

/-- The fields of `CommitJournal`. -/
structure CommitJournal where
  chunks : List Nat
  tail : Nat := 0
  previousOffset : Nat := npos
  sequence : Nat := 0
  commitsSinceCheckpoint : Nat := 0
  cowBytesSinceCheckpoint : Nat := 0
  checkpointTopRef : Nat := 0
  checkpointVersion : Nat := 0
  checkpointLogicalSize : Nat := 0
  deriving DecidableEq, Repr

structure PendingAppend where
  nextOffset : Nat
  recordOffset : Nat
  sequence : Nat
  version : Nat
  cowBytes : Nat
  deriving DecidableEq, Repr

namespace CommitJournal

/-- `open_at_checkpoint`, once the chunk refs have been read from the registry. -/
def openAtCheckpoint (chunks : List Nat) (top : TopInfo) : CommitJournal :=
  { chunks, checkpointTopRef := top.ref, checkpointVersion := top.version,
    checkpointLogicalSize := top.logicalSize }

def «open» (chunks : List Nat) (file : File) (top : TopInfo) :
    Except String (CommitJournal × Result) := do
  let found ← scan chunks file top
  return ({ openAtCheckpoint chunks top with
    tail := found.tail
    previousOffset := found.previousOffset
    sequence := found.sequence
    commitsSinceCheckpoint := found.commits
    cowBytesSinceCheckpoint := found.cowBytes }, found)

def prepareAppend (j : CommitJournal) (file : Image) (c : Commit) :
    Except String (Image × PendingAppend) :=
  let recordSize := requiredSize c.arrays.length
  if recordSize > capacity ∨ j.tail + recordSize > capacity then
    .error "commit journal is full; checkpoint required"
  else
    let sequence := nextSequence j.sequence
    .ok (writeBytes j.chunks file j.tail (encodeRecord sequence j.previousOffset c),
      ⟨j.tail + recordSize, j.tail, sequence, c.version, Journal.cowBytes c.arrays⟩)

def commitAppend (j : CommitJournal) (pending : PendingAppend) : CommitJournal :=
  { j with
    tail := pending.nextOffset
    previousOffset := pending.recordOffset
    sequence := pending.sequence
    commitsSinceCheckpoint := j.commitsSinceCheckpoint + 1
    cowBytesSinceCheckpoint := j.cowBytesSinceCheckpoint + pending.cowBytes }

def maxRetainedCowBytes : Nat := 64 * 1024 * 1024

def needsCheckpoint (j : CommitJournal) (nextRecordSize nextCowBytes : Nat) : Bool :=
  decide (j.commitsSinceCheckpoint ≥ 4096 ∨ j.tail + nextRecordSize > capacity * 3 / 4 ∨
    j.cowBytesSinceCheckpoint + nextCowBytes > maxRetainedCowBytes)

/-- `clear_after_compaction`, which is also what `reset_after_checkpoint` runs. -/
def clearAfterCompaction (j : CommitJournal) (file : Image) (top : TopInfo) :
    Image × CommitJournal :=
  (writeBytes j.chunks file 0 (putU64 0), openAtCheckpoint j.chunks top)

/-- Where the journal object will put its next record. -/
def cursor (j : CommitJournal) : Cursor := ⟨j.tail, j.previousOffset, j.sequence⟩

theorem prepareAppend_ok {j : CommitJournal} {file bytes : Image} {c : Commit}
    {pending : PendingAppend} (h : j.prepareAppend file c = .ok (bytes, pending)) :
    j.tail + requiredSize c.arrays.length ≤ capacity ∧
      bytes = writeBytes j.chunks file j.tail
        (encodeRecord (nextSequence j.sequence) j.previousOffset c) ∧
      pending = ⟨j.tail + requiredSize c.arrays.length, j.tail, nextSequence j.sequence,
        c.version, Journal.cowBytes c.arrays⟩ := by
  unfold prepareAppend at h
  dsimp only at h
  split at h
  · cases h
  · rename_i hroom
    obtain ⟨rfl, rfl⟩ := Prod.mk.inj (Except.ok.inj h)
    exact ⟨by omega, rfl, rfl⟩

theorem size_le_of_needsCheckpoint {j : CommitJournal} {size : Nat} {as : List WrittenArray}
    (h : j.needsCheckpoint size (Journal.cowBytes as) = false) :
    ∀ a ∈ as, a.size ≤ 64 * 1024 * 1024 := by
  intro a ha
  have hle : a.size ≤ Journal.cowBytes as := List.single_le_sum (by simp) _ (List.mem_map_of_mem ha)
  have hpolicy := of_decide_eq_false h
  simp only [maxRetainedCowBytes] at hpolicy
  omega

theorem open_ok {chunks : List Nat} {file : File} {top : TopInfo} {j : CommitJournal}
    {r : Result} (h : CommitJournal.open chunks file top = .ok (j, r)) :
    scan chunks file top = .ok r ∧ j.chunks = chunks ∧ j.cursor = r.cursor := by
  unfold CommitJournal.open at h
  cases hs : scan chunks file top with
  | error e => rw [hs] at h; cases h
  | ok found =>
    rw [hs] at h
    obtain ⟨rfl, rfl⟩ := Prod.mk.inj (Except.ok.inj h)
    exact ⟨rfl, rfl, rfl⟩

end CommitJournal

/-! ## The log invariant -/

/-- `t` is not newer than `newest`, and is `newest` if it has its version. -/
def UpTo (newest t : TopInfo) : Prop :=
  t.version ≤ newest.version ∧ (t.version = newest.version → t = newest)

theorem UpTo.refl (t : TopInfo) : UpTo t t := ⟨Nat.le_refl _, fun _ => rfl⟩

theorem UpTo.of_lt {newest newest' t : TopInfo} (h : UpTo newest t)
    (hlt : newest.version < newest'.version) : UpTo newest' t :=
  ⟨by have := h.1; omega, fun heq => by have := h.1; omega⟩

/-- The scan runs from `k` along `cs` and then stops. -/
structure Settles (J : Image) (newest : TopInfo) (k : Cursor) (cs : List Commit) : Prop where
  path : ∃ k', Path J k cs k' ∧ Stops J k'
  upTo : ∀ c ∈ cs, UpTo newest c.info

/-- The journal bytes `J` lead from the header-selected top to the newest commit. -/
structure LogInv (J : Image) (header newest : TopInfo) : Prop where
  header_upTo : UpTo newest header
  chain : ∃ cs, Settles J newest .start cs ∧ (header = newest ∨ ∃ c ∈ cs, c.info = newest)
  headers : ∀ o, o % 8 = 0 → HeaderAt J o →
    ∃ k c cs, k.offset = o ∧ Settles J newest k (c :: cs)

/-- Nothing stands where a record of `n` arrays written at `k` will end, or a record that
continues the chain does. -/
def EndClean (J : Image) (k : Cursor) (n : Nat) : Prop :=
  let e := k.offset + requiredSize n
  e + 88 ≤ capacity → word J e = headerMagic →
    word J (e + 8) = recordVersion + fixedHeaderSize * 2 ^ 32 ∧
      word J (e + 16) = k.sequence + 2 ∧ word J (e + 32) = k.offset

instance (J : Image) (k : Cursor) (n : Nat) : Decidable (EndClean J k n) :=
  inferInstanceAs (Decidable (_ → _ → _))

theorem foldl_newer_upTo {newest : TopInfo} : ∀ {cs : List Commit} {t : TopInfo}, UpTo newest t →
    (∀ c ∈ cs, UpTo newest c.info) → UpTo newest (cs.foldl newer t)
  | [], _, ht, _ => ht
  | c :: cs, t, ht, h => by
    rw [List.foldl_cons]
    refine foldl_newer_upTo ?_ fun d hd => h d (List.mem_cons_of_mem _ hd)
    unfold newer
    split
    · exact h c List.mem_cons_self
    · exact ht

theorem version_le_foldl_newer : ∀ (cs : List Commit) (t : TopInfo),
    t.version ≤ (cs.foldl newer t).version
  | [], _ => Nat.le_refl _
  | c :: cs, t => by
    refine Nat.le_trans ?_ (version_le_foldl_newer cs (newer t c))
    unfold newer
    split
    · rename_i h; exact Nat.le_of_lt h
    · exact Nat.le_refl _

theorem version_le_foldl_of_mem : ∀ {cs : List Commit} {t : TopInfo} {c : Commit}, c ∈ cs →
    c.version ≤ (cs.foldl newer t).version
  | d :: cs, t, c, h => by
    rcases List.mem_cons.mp h with rfl | h
    · refine Nat.le_trans ?_ (version_le_foldl_newer cs (newer t c))
      unfold newer
      split
      · exact Nat.le_refl _
      · omega
    · rw [List.foldl_cons]
      exact version_le_foldl_of_mem h

theorem foldl_newer_eq {header newest : TopInfo} {cs : List Commit} (hh : UpTo newest header)
    (hcs : ∀ c ∈ cs, UpTo newest c.info) (hmem : header = newest ∨ ∃ c ∈ cs, c.info = newest) :
    cs.foldl newer header = newest := by
  have hup := foldl_newer_upTo hh hcs
  refine hup.2 (Nat.le_antisymm hup.1 ?_)
  rcases hmem with rfl | ⟨c, hc, rfl⟩
  · exact version_le_foldl_newer cs header
  · exact version_le_foldl_of_mem hc

theorem Settles.mono {J : Image} {newest newest' : TopInfo} {k : Cursor} {cs : List Commit}
    (h : Settles J newest k cs) (hlt : newest.version < newest'.version) :
    Settles J newest' k cs :=
  ⟨h.path, fun c hc => (h.upTo c hc).of_lt hlt⟩

theorem Settles.prepend {J : Image} {newest : TopInfo} {k k' : Cursor} {as cs : List Commit}
    (h : Settles J newest k' cs) (hp : Path J k as k') (hup : ∀ c ∈ as, UpTo newest c.info) :
    Settles J newest k (as ++ cs) := by
  obtain ⟨⟨k'', hq, hs⟩, hcs⟩ := h
  refine ⟨⟨k'', hp.append hq, hs⟩, fun c hc => ?_⟩
  rcases List.mem_append.mp hc with hc | hc
  · exact hup c hc
  · exact hcs c hc

theorem Settles.congr {J J' : Image} {newest : TopInfo} {k : Cursor} {cs : List Commit}
    (h : Settles J newest k cs) (hJ : ∀ x, k.offset ≤ x → J x = J' x) :
    Settles J' newest k cs := by
  obtain ⟨⟨k', hp, hs⟩, hup⟩ := h
  have hle := hp.offset_le
  refine ⟨⟨k', hp.congr fun x h₁ _ => hJ x h₁, fun hroom => ?_⟩, hup⟩
  rw [← word_congr fun x h₁ _ => hJ x (by omega)]
  exact hs hroom

/-! ## Cursors on the chain -/

/-- Ranges of a cursor the scan reaches from the start of the journal. -/
structure Cursor.WF (k : Cursor) : Prop where
  offset_aligned : k.offset % 8 = 0
  offset_le : k.offset ≤ capacity
  sequence_le : 88 * k.sequence ≤ k.offset
  previous_range : k.previous = npos ∨ k.previous < k.offset

theorem Cursor.WF.start : Cursor.start.WF :=
  ⟨rfl, Nat.zero_le _, Nat.le_refl _, .inl rfl⟩

theorem Cursor.WF.next {k : Cursor} (h : k.WF) {c : Commit}
    (hfits : k.offset + requiredSize c.arrays.length ≤ capacity) : (k.next c).WF := by
  have hsize := requiredSize_eq c.arrays.length
  have h1 := h.offset_aligned
  have h2 := h.sequence_le
  refine ⟨?_, hfits, ?_, .inr ?_⟩ <;> simp only [Cursor.next] <;> omega

theorem Path.cursor_wf {J : Image} {k k' : Cursor} {cs : List Commit} (hp : Path J k cs k')
    (hk : k.WF) : k'.WF := by
  induction hp with
  | nil k => exact hk
  | cons h rest ih => exact ih (hk.next h.record.fits)

/-- The scan, run from the start, passes through `k`. -/
def OnChain (J : Image) (k : Cursor) : Prop := ∃ cs, Path J .start cs k

theorem OnChain.wf {J : Image} {k : Cursor} (h : OnChain J k) : k.WF :=
  let ⟨_, hp⟩ := h; hp.cursor_wf .start

theorem OnChain.start (J : Image) : OnChain J .start := ⟨[], .nil _⟩

theorem OnChain.next {J : Image} {k : Cursor} {c : Commit} (h : OnChain J k)
    (hc : LinkedAt J k c) : OnChain J (k.next c) :=
  let ⟨_, hp⟩ := h; ⟨_, hp.append (.cons hc (.nil _))⟩

/-- The scan passes through `k` and has found the newest commit by then. -/
def Reaches (J : Image) (header newest : TopInfo) (k : Cursor) : Prop :=
  ∃ cs, Path J .start cs k ∧ (header = newest ∨ ∃ c ∈ cs, c.info = newest)

theorem Reaches.onChain {J : Image} {header newest : TopInfo} {k : Cursor}
    (h : Reaches J header newest k) : OnChain J k :=
  let ⟨cs, hp, _⟩ := h; ⟨cs, hp⟩

theorem LogInv.settles {J : Image} {header newest : TopInfo} (h : LogInv J header newest)
    {k : Cursor} (hk : OnChain J k) : ∃ cs, Settles J newest k cs := by
  obtain ⟨as, has⟩ := hk
  obtain ⟨ds, ⟨⟨k', hds, hstop⟩, hup⟩, -⟩ := h.chain
  obtain ⟨bs, rfl⟩ := hds.isPrefix hstop.not_linkedAt has
  exact ⟨bs, ⟨k', hds.of_append has, hstop⟩, fun c hc => hup c (List.mem_append_right _ hc)⟩

theorem LogInv.upTo_path {J : Image} {header newest : TopInfo} (h : LogInv J header newest)
    {as : List Commit} {k : Cursor} (has : Path J .start as k) : ∀ d ∈ as, UpTo newest d.info := by
  obtain ⟨ds, ⟨⟨k', hds, hstop⟩, hup⟩, -⟩ := h.chain
  exact fun d hd => hup d ((hds.isPrefix hstop.not_linkedAt has).subset hd)

theorem Cursor.WF.inRange {k : Cursor} (h : k.WF) {c : Commit}
    (hsize : ∀ a ∈ c.arrays, a.size ≤ 64 * 1024 * 1024) :
    InRange k.offset (k.sequence + 1) k.previous c :=
  ⟨h.offset_aligned, by have := h.sequence_le; omega, h.previous_range, hsize⟩

/-! ## Preservation -/

/-- The bytes of the journal after `c` has been appended at `k`. -/
def appended (J : Image) (k : Cursor) (c : Commit) : Image :=
  write J k.offset (encodeRecord (k.sequence + 1) k.previous c)

section Append

variable {J : Image} {k : Cursor} {c : Commit}

theorem appended_outside (hfits : k.offset + requiredSize c.arrays.length ≤ capacity) {x : Nat}
    (hx : x < k.offset ∨ k.offset + requiredSize c.arrays.length ≤ x) :
    appended J k c x = J x :=
  write_outside J (by rw [encodeRecord_length (by omega)]; exact hx)

theorem linkedAt_appended (hk : k.WF) (hsize : ∀ a ∈ c.arrays, a.size ≤ 64 * 1024 * 1024)
    (hfits : k.offset + requiredSize c.arrays.length ≤ capacity) :
    LinkedAt (appended J k c) k c := by
  have hlen : (encodeRecord (k.sequence + 1) k.previous c).length =
      requiredSize c.arrays.length := encodeRecord_length (by omega)
  have hcap : capacity = 67108864 := rfl
  have h1 := hk.offset_le
  have h2 := hk.sequence_le
  refine ⟨⟨hfits, ?_, by omega, ?_⟩, hk.inRange hsize⟩
  · rw [← hlen]
    exact slice_write_self J k.offset _
  · rcases hk.previous_range with h | h
    · rw [h]; decide
    · omega

theorem Path.appended {as : List Commit} (hp : Path J .start as k)
    (hsize : ∀ a ∈ c.arrays, a.size ≤ 64 * 1024 * 1024)
    (hfits : k.offset + requiredSize c.arrays.length ≤ capacity) :
    Path (Journal.appended J k c) .start as k ∧
      Path (Journal.appended J k c) .start (as ++ [c]) (k.next c) := by
  have hpre : Path (Journal.appended J k c) .start as k :=
    hp.congr fun x _ hx => (appended_outside hfits (.inl hx)).symm
  exact ⟨hpre, hpre.append
    (.cons (linkedAt_appended (hp.cursor_wf .start) hsize hfits) (.nil _))⟩

theorem journal_prepareAppend {chunks : List Nat} (hchunks : ChunksWF chunks) {file bytes : Image}
    {j : CommitJournal} {pending : PendingAppend} (hj : j.chunks = chunks) (hk : j.cursor.WF)
    (h : j.prepareAppend file c = .ok (bytes, pending)) :
    journal chunks bytes = appended (journal chunks file) j.cursor c ∧
      (j.commitAppend pending).cursor = j.cursor.next c := by
  obtain ⟨hroom, rfl, rfl⟩ := CommitJournal.prepareAppend_ok h
  have hseq : nextSequence j.sequence = j.sequence + 1 := by
    have h1 : 88 * j.sequence ≤ j.tail := hk.sequence_le
    have h2 : j.tail ≤ capacity := hk.offset_le
    have hcap : capacity = 67108864 := rfl
    exact Nat.mod_eq_of_lt (by omega)
  subst hj
  rw [hseq]
  refine ⟨?_, rfl⟩
  exact journal_writeBytes hchunks _ file j.tail _ rfl
    (by rw [encodeRecord_length (by omega)]; exact hroom)

theorem LogInv.settles_end {header newest : TopInfo} (h : LogInv J header newest)
    (hal : k.offset % 8 = 0) (hend : EndClean J k c.arrays.length) :
    ∃ cs, Settles J newest (k.next c) cs := by
  have hsize := requiredSize_eq c.arrays.length
  by_cases hstop : Stops J (k.next c)
  · exact ⟨[], ⟨_, .nil _, hstop⟩, by simp⟩
  · simp only [Stops, Cursor.next, Classical.not_imp, Decidable.not_not] at hstop
    obtain ⟨hv, hs, hp⟩ := hend hstop.1 hstop.2
    obtain ⟨kq, d, cs, hoff, hset⟩ := h.headers (k.offset + requiredSize c.arrays.length)
      (by omega) ⟨hstop.2, hv⟩
    refine ⟨d :: cs, ?_⟩
    -- the stale record names its own link: it is the one the chain needs
    have hkq : kq = k.next c := by
      obtain ⟨⟨k', hpath, -⟩, -⟩ := hset
      cases hpath with
      | cons hd rest =>
        have w2 : word J (kq.offset + 16) = kq.sequence + 1 :=
          hd.record.word_eq (i := 2) rfl hd.record.sequence_lt
        have w4 : word J (kq.offset + 32) = kq.previous :=
          hd.record.word_eq (i := 4) rfl hd.record.previous_lt
        rw [hoff] at w2 w4
        cases kq
        simp only [Cursor.next, Cursor.mk.injEq] at *
        exact ⟨hoff, by omega, by omega⟩
    rw [← hkq]
    exact hset

theorem LogInv.append {header newest : TopInfo} (h : LogInv J header newest) (hk : OnChain J k)
    (hsize : ∀ a ∈ c.arrays, a.size ≤ 64 * 1024 * 1024)
    (hfits : k.offset + requiredSize c.arrays.length ≤ capacity)
    (hnew : newest.version < c.version) (hend : EndClean J k c.arrays.length) :
    LogInv (appended J k c) header c.info ∧ Reaches (appended J k c) header c.info (k.next c) := by
  obtain ⟨as, has⟩ := hk
  have hwf : k.WF := has.cursor_wf .start
  have hreq := requiredSize_eq c.arrays.length
  have hold : ∀ x, x < k.offset ∨ k.offset + requiredSize c.arrays.length ≤ x →
      appended J k c x = J x := fun x hx => appended_outside hfits hx
  have hnewlt : newest.version < c.info.version := hnew
  -- the chain: the old one up to `k`, the new record, and what follows it
  obtain ⟨hpre, hsnoc⟩ := has.appended hsize hfits
  have hlink := linkedAt_appended (J := J) hwf hsize hfits
  obtain ⟨cs, hcs⟩ := h.settles_end hwf.offset_aligned hend
  have hpost : Settles (appended J k c) c.info (k.next c) cs :=
    (hcs.congr fun x hx => (hold x (.inr hx)).symm).mono hnewlt
  have hrun : Settles (appended J k c) c.info k (c :: cs) := by
    obtain ⟨⟨k', hpath, hstop⟩, hup⟩ := hpost
    refine ⟨⟨k', .cons hlink hpath, hstop⟩, fun d hd => ?_⟩
    rcases List.mem_cons.mp hd with rfl | hd
    · exact .refl _
    · exact hup d hd
  have hupAs : ∀ d ∈ as, UpTo c.info d.info := fun d hd => (h.upTo_path has d hd).of_lt hnewlt
  refine ⟨⟨h.header_upTo.of_lt hnewlt, ⟨as ++ c :: cs, ?_, .inr ⟨c, by simp, rfl⟩⟩, ?_⟩,
    as ++ [c], hsnoc, .inr ⟨c, by simp, rfl⟩⟩
  · exact hrun.prepend hpre hupAs
  · intro o ho hh
    rcases Nat.lt_or_ge o k.offset with hlt | hge
    · -- a header before the new record starts a record of the chain
      obtain ⟨as₁, d, as₂, kq, hsplit, hoff, -, hd, hrest⟩ :=
        hpre.exists_split ho (Nat.zero_le _) hlt hh
      refine ⟨kq, d, as₂ ++ c :: cs, hoff, ?_⟩
      refine hrun.prepend (.cons hd hrest) fun e he => hupAs e ?_
      rw [hsplit]
      exact List.mem_append_right _ he
    · by_cases hin : o < k.offset + requiredSize c.arrays.length
      · obtain rfl : o = k.offset := by
          refine Nat.le_antisymm (Nat.le_of_not_lt fun hgt => ?_) hge
          exact hlink.record.not_headerAt_inside hlink.range ho hgt hin hh
        exact ⟨k, c, cs, rfl, hrun⟩
      · -- a header behind it was there before
        obtain ⟨kq, d, ds, hoff, hset⟩ := h.headers o ho (hh.congr fun x h₁ _ =>
          hold x (.inr (by omega)))
        exact ⟨kq, d, ds, hoff, (hset.congr fun x hx =>
          (hold x (.inr (by omega))).symm).mono hnewlt⟩

end Append

/-- **A checkpoint keeps the log invariant**, whatever the journal held. -/
theorem LogInv.checkpoint {J : Image} {header newest top : TopInfo} (h : LogInv J header newest)
    (hnew : newest.version < top.version) : LogInv (write J 0 (putU64 0)) top top := by
  have hlen : (putU64 0).length = 8 := putLE_length 8 0
  have hold : ∀ x, 8 ≤ x → write J 0 (putU64 0) x = J x := fun x hx =>
    write_outside J (by rw [hlen]; omega)
  have hzero : word (write J 0 (putU64 0)) 0 = 0 := by
    have := slice_write_self J 0 (putU64 0)
    rw [hlen] at this
    rw [word, this]
    rfl
  refine ⟨.refl _, ⟨[], ⟨⟨_, .nil _, fun _ => ?_⟩, by simp⟩, .inl rfl⟩, fun o ho hh => ?_⟩
  · rw [Cursor.start, hzero]
    decide
  · have hpos : 8 ≤ o := by
      refine Nat.le_of_not_lt fun hlt => ?_
      obtain rfl : o = 0 := by omega
      exact absurd (hzero.symm.trans hh.1) (by decide)
    obtain ⟨kq, d, ds, hoff, hset⟩ := h.headers o ho (hh.congr fun x h₁ _ => hold x (by omega))
    exact ⟨kq, d, ds, hoff, (hset.congr fun x hx => (hold x (by omega)).symm).mono hnew⟩

theorem LogInv.zero {J : Image} (hJ : ∀ x, J x = 0) (top : TopInfo) : LogInv J top top := by
  have hzero : ∀ o, word J o = 0 := fun o => word_eq_zero fun x _ _ => hJ x
  refine ⟨.refl _, ⟨[], ⟨⟨_, .nil _, fun _ => ?_⟩, by simp⟩, .inl rfl⟩, fun o _ hh => ?_⟩
  · rw [hzero]
    decide
  · exact absurd ((hzero o).symm.trans hh.1) (by decide)

/-- The newest commit is found before `k`, and no record behind `k` is newer than the checkpoint:
what stands there was left by an earlier cycle. -/
structure Front (J : Image) (header newest : TopInfo) (k : Cursor) : Prop where
  reaches : Reaches J header newest k
  behind : ∀ q s p d, q % 8 = 0 → RecordAt J q s p d → header.version < d.version → q < k.offset

theorem Front.version_le {J : Image} {header newest : TopInfo} {k q q' : Cursor}
    (hf : Front J header newest k) {cs : List Commit} (hp : Path J q cs q') (hq : q.WF)
    (hle : k.offset ≤ q.offset) : ∀ d ∈ cs, d.version ≤ header.version := by
  induction hp with
  | nil => simp
  | cons h rest ih =>
    refine List.forall_mem_cons.mpr ⟨Nat.le_of_not_lt fun hv => ?_,
      ih (hq.next h.record.fits) (Nat.le_trans hle (Nat.le_add_right _ _))⟩
    have := hf.behind _ _ _ _ hq.offset_aligned h.record hv
    omega

theorem Front.append {J : Image} {k : Cursor} {c : Commit} {header newest : TopInfo}
    (hf : Front J header newest k) (h : LogInv J header newest)
    (hsize : ∀ a ∈ c.arrays, a.size ≤ 64 * 1024 * 1024)
    (hfits : k.offset + requiredSize c.arrays.length ≤ capacity)
    (hnew : newest.version < c.version) (hend : EndClean J k c.arrays.length) :
    Front (appended J k c) header c.info (k.next c) := by
  refine ⟨(h.append hf.reaches.onChain hsize hfits hnew hend).2, fun q s p d hq hd hv => ?_⟩
  refine Nat.lt_of_not_le fun hge => ?_
  simp only [Cursor.next] at hge
  have hold := hf.behind q s p d hq
    (hd.congr fun x hx _ => appended_outside hfits (.inr (by omega))) hv
  omega

theorem Front.checkpoint {J : Image} {header newest top : TopInfo} (h : LogInv J header newest)
    (hnew : newest.version < top.version) : Front (write J 0 (putU64 0)) top top .start := by
  refine ⟨⟨[], .nil _, .inl rfl⟩, fun q s p d hq hd hv => ?_⟩
  obtain ⟨k, c, cs, rfl, ⟨⟨k', hp, -⟩, hup⟩⟩ := (h.checkpoint hnew).headers q hq hd.headerAt
  cases hp with
  | cons hc rest =>
    obtain rfl := (hd.unique hc.record).2.2
    have : d.version ≤ top.version := (hup d List.mem_cons_self).1
    omega

theorem Front.zero {J : Image} (hJ : ∀ x, J x = 0) (top : TopInfo) : Front J top top .start := by
  refine ⟨⟨[], .nil _, .inl rfl⟩, fun q s p d _ hd _ => ?_⟩
  have hw := hd.headerAt.1
  rw [word_eq_zero fun x _ _ => hJ x] at hw
  exact absurd hw (by decide)

/-- **What the scan returns.** -/
theorem LogInv.scan_eq {chunks : List Nat} {file : File} {header newest : TopInfo}
    (h : LogInv (journal chunks file.bytes) header newest)
    (hi : ∀ cs k, Path (journal chunks file.bytes) .start cs k →
      ∀ c ∈ cs, Intact file header.version c) :
    ∃ r, scan chunks file header = .ok r ∧ r.top = newest ∧
      Reaches (journal chunks file.bytes) header newest r.cursor ∧
      ∀ k, OnChain (journal chunks file.bytes) k → k.offset ≤ r.cursor.offset := by
  obtain ⟨cs, ⟨⟨k', hp, hstop⟩, hup⟩, hmem⟩ := h.chain
  obtain ⟨r, hscan, htop, rfl⟩ := scan_stops hp (hi cs k' hp) hstop
  refine ⟨r, hscan, htop.trans (foldl_newer_eq h.header_upTo hup hmem), ⟨cs, hp, hmem⟩, ?_⟩
  rintro k ⟨as, has⟩
  obtain ⟨bs, rfl⟩ := hp.isPrefix hstop.not_linkedAt has
  exact (hp.of_append has).offset_le

end Llbt.Journal
