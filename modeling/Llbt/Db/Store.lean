import Llbt.Db.Protection
import Llbt.Journal.Crash

/-!
# The handle and its file

Joint model of one handle and of the bytes it writes.  `State` has the versions with their free
space, `Journal.File` the bytes; a commit of a `Store` writes its arrays where `write_group` has
placed them and then its record into the chunks of the journal, or clears the journal when it
publishes a header.

The journal of a reachable store holds a `log`: the commits since the header, each with its arrays
whole.  Three conditions keep it so, each of them about one commit (`Action.Meets`): the record ends
cleanly, no recorded space is backdated, and the chunks of the journal stay where they are.

* `Store.Inv.append`, `Store.Inv.checkpoint` — what one commit keeps;
* `Store.Reachable.inv` — in every run;
* `Store.Inv.scan_eq` — recovery finds the newest commit in every file that still has the log;
* `Store.Inv.scan_short` — and in no file that is too short for it.
-/

set_option autoImplicit false

namespace Llbt.Db

open Blocks FreeSpace
open Journal (File TopInfo WrittenArray CommitJournal Path Front LogInv Cursor ChunksWF LinkedAt)

/-! ## Blocks, arrays and tops -/

/-- What `DB::open` reads from the top array of a version; the top is the last of its arrays. -/
def topInfo (v : Version) : TopInfo :=
  ⟨(v.arrays.getLast?.map Block.ref).getD 0, v.version, v.logicalSize⟩

@[simp] theorem topInfo_logicalSize (v : Version) : (topInfo v).logicalSize = v.logicalSize := rfl

def blockOf (a : WrittenArray) : Block := ⟨a.ref, a.size⟩

/-- The nodes that hold the journal. -/
def chunkBlocks (chunks : List Nat) : List Block :=
  chunks.map fun ref => ⟨ref, Journal.nodeHeaderSize + Journal.chunkSize⟩

/-- The record of a commit, without its checksums. -/
def recordOf (c : Journal.Commit) : Record := ⟨c.version, c.arrays.map blockOf⟩

/-! ## Steps -/

/-- One handle: its versions, the file, and the journal object. -/
structure Store where
  db : State
  file : File
  journal : CommitJournal

/-- The journal as one image. -/
def Store.image (chunks : List Nat) (s : Store) : ByteImage.Image :=
  Journal.journal chunks s.file.bytes

/-- What `write_group` does to the file: it writes the arrays with their checksums, and nothing
else.  File sizes are `size_t`. -/
structure Writes (r : Committed) (jc : Journal.Commit) (before after : File) : Prop where
  info_eq : jc.info = topInfo r.version
  blocks_eq : jc.arrays.map blockOf = allocated r
  outside : ∀ x, cover (allocated r) x = 0 → after.bytes x = before.bytes x
  size_eq : after.size = r.writer.fileSize
  size_lt : after.size < 2 ^ 64
  valid : ∀ a ∈ jc.arrays, Journal.arrayValid after a = true

/-- A commit to disk: which versions are locked, what `write_group` gets, and what is handed to the
journal. -/
structure Request where
  locked : Nat → Bool
  commit : Commit
  record : Journal.Commit

/-- `needs_checkpoint` for the commit. -/
def Store.needsCheckpoint (s : Store) (q : Request) : Bool :=
  s.journal.needsCheckpoint (Journal.requiredSize q.record.arrays.length)
    (Journal.cowBytes q.record.arrays)

inductive Store.Step (cfg : Config) : Store → Request → Store → Prop where
  | append {s : Store} {q : Request} {replaced : Version} {r : Committed} {file : File}
      {bytes : ByteImage.Image} {pending : Journal.PendingAppend}
      (hcommit : Commits cfg s.db q.locked replaced q.commit r)
      (hsize : q.commit.fileSize = s.file.size) (hwrites : Writes r q.record s.file file)
      (hpolicy : s.needsCheckpoint q = false)
      (hprepare : s.journal.prepareAppend file.bytes q.record = .ok (bytes, pending)) :
      Step cfg s q
        ⟨s.db.finish q.locked r true false, ⟨bytes, file.size⟩, s.journal.commitAppend pending⟩
  | checkpoint {s : Store} {q : Request} {replaced : Version} {r : Committed} {file : File}
      (hcommit : Commits cfg s.db q.locked replaced q.commit r)
      (hsize : q.commit.fileSize = s.file.size) (hwrites : Writes r q.record s.file file)
      (hpolicy : s.needsCheckpoint q = true) :
      Step cfg s q
        ⟨s.db.finish q.locked r true false,
          ⟨(s.journal.clearAfterCompaction file.bytes q.record.info).1, file.size⟩,
          (s.journal.clearAfterCompaction file.bytes q.record.info).2⟩

/-- What keeps the journal readable: the chunks are not moved, no recorded space is backdated, and a
new record ends where no header stands or one that continues its chain. -/
structure Request.Meets (chunks : List Nat) (s : Store) (q : Request) : Prop where
  keeps : ∀ b ∈ chunkBlocks chunks, b ∈ q.commit.kept
  spares : s.db.SparesRecords (.commit q.locked q.commit true false)
  clean : s.needsCheckpoint q = false →
    Journal.EndClean (s.image chunks) s.journal.cursor q.record.arrays.length

/-- The store that `Store::open` leaves: the chunks are there and zero, the header selects the newest
version, and the journal has been opened. -/
structure Store.Initial (cfg : Config) (chunks : List Nat) (s : Store) : Prop where
  run : Reachable cfg (fun db a => a.Durable ∧ db.SparesRecords a) s.db
  newest : s.db.active.getLast? = some s.db.header
  journal : s.db.journal = some (.atCheckpoint s.db.header)
  records : s.db.records = []
  chunks_wf : ChunksWF chunks
  chunks_mem : ∀ b ∈ chunkBlocks chunks, b ∈ s.db.header.nodes
  zeroed : ∀ x, s.image chunks x = 0
  opened : ∃ found, CommitJournal.open chunks s.file (topInfo s.db.header) = .ok (s.journal, found)
  within : s.db.header.logicalSize ≤ s.file.size
  size_mod : s.file.size % 8 = 0

/-- The stores of all runs whose commits meet the conditions. -/
inductive Store.Reachable (cfg : Config) (chunks : List Nat) : Store → Prop where
  | initial {s : Store} : s.Initial cfg chunks → Reachable cfg chunks s
  | step {s s' : Store} {q : Request} : Reachable cfg chunks s → q.Meets chunks s →
      Store.Step cfg s q s' → Reachable cfg chunks s'

/-! ## The invariant -/

/-- The journal object carries what the session model knows of it. -/
structure Agrees (f : JournalFields) (j : CommitJournal) : Prop where
  tail_eq : f.tail = j.tail
  commits_eq : f.commits = j.commitsSinceCheckpoint
  cowBytes_eq : f.cowBytes = j.cowBytesSinceCheckpoint

/-- What holds of every reachable store: `newest` is its newest version, `log` the commits recorded
since the header. -/
structure Store.Inv (cfg : Config) (chunks : List Nat) (s : Store) (newest : Version)
    (log : List Journal.Commit) : Prop where
  db : s.db.Inv cfg
  kept : s.db.RecordsKept
  newest_eq : s.db.active.getLast? = some newest
  fields : ∃ f, s.db.journal = some f ∧ Agrees f s.journal
  chunks_eq : s.journal.chunks = chunks
  logInv : LogInv (s.image chunks) (topInfo s.db.header) (topInfo newest)
  path : Path (s.image chunks) .start log s.journal.cursor
  front : Front (s.image chunks) (topInfo s.db.header) (topInfo newest) s.journal.cursor
  records_eq : s.db.records = log.map recordOf
  ascending : log.Pairwise fun c d => c.version < d.version
  newer : ∀ c ∈ log, s.db.header.version < c.version
  valid : ∀ c ∈ log, ∀ a ∈ c.arrays, Journal.arrayValid s.file a = true
  apart : ∀ c ∈ log, ∀ a ∈ c.arrays, ∀ b ∈ chunkBlocks chunks, (blockOf a).Apart b
  ends : ∀ c ∈ log, ∀ a ∈ c.arrays, a.ref + a.size ≤ s.file.size ∧ a.ref + a.size < 2 ^ 64
  chunks_header : ∀ b ∈ chunkBlocks chunks, b ∈ s.db.header.nodes
  chunks_newest : ∀ b ∈ chunkBlocks chunks, b ∈ newest.nodes
  header_within : s.db.header.logicalSize ≤ s.file.size
  newest_within : newest.logicalSize ≤ s.file.size
  size_mod : s.file.size % 8 = 0

/-! ## Chunks and arrays -/

theorem position_has {chunks : List Nat} (h : ChunksWF chunks) {o : Nat} (ho : o < Journal.capacity) :
    ∃ b ∈ chunkBlocks chunks, b.Has (Journal.position chunks o) := by
  have hi : o / Journal.chunkSize < chunks.length := by
    rw [h.length_eq]
    exact Nat.div_lt_of_lt_mul ho
  have hmod : o % Journal.chunkSize < Journal.chunkSize := Nat.mod_lt _ (by decide)
  refine ⟨_, List.mem_map_of_mem (List.getElem_mem hi), ?_⟩
  rw [Journal.position, List.getD_eq_getElem _ _ hi]
  constructor <;> dsimp only <;> omega

theorem journal_congr {chunks : List Nat} (h : ChunksWF chunks) {f f' : ByteImage.Image}
    (heq : ∀ x, (∃ b ∈ chunkBlocks chunks, b.Has x) → f' x = f x) :
    Journal.journal chunks f' = Journal.journal chunks f := by
  funext o
  unfold Journal.journal
  split
  · exact heq _ (position_has h ‹_›)
  · rfl

theorem not_has_of_apart {a b : Block} (h : a.Apart b) {x : Nat} (hx : b.Has x) : ¬ a.Has x := by
  simp only [Block.Apart, Block.finish, Block.Has] at h hx ⊢
  omega

theorem mem_of_front {J : ByteImage.Image} {header newest : TopInfo} {k k' : Cursor}
    {log cs : List Journal.Commit} (hlog : LogInv J header newest) (hf : Front J header newest k)
    (hp : Path J .start log k) (hq : Path J .start cs k') {d : Journal.Commit} (hd : d ∈ cs)
    (hv : header.version < d.version) : d ∈ log := by
  obtain ⟨ds, ⟨⟨k'', hds, hstop⟩, -⟩, -⟩ := hlog.chain
  obtain ⟨bs, rfl⟩ := hds.isPrefix hstop.not_linkedAt hp
  rcases List.mem_append.mp ((hds.isPrefix hstop.not_linkedAt hq).subset hd) with h | h
  · exact h
  · have := hf.version_le (hds.of_append hp) (hp.cursor_wf .start) (Nat.le_refl _) d h
    omega

section Commit

variable {cfg : Config} {chunks : List Nat} {s : Store} {q : Request} {newest : Version}
  {log : List Journal.Commit} {r : Committed} {file : File}

theorem Agrees.needsCheckpoint {f : JournalFields} (h : Agrees f s.journal)
    (hw : Writes r q.record s.file file) :
    f.needsCheckpoint (allocated r) = s.needsCheckpoint q := by
  unfold JournalFields.needsCheckpoint Store.needsCheckpoint CommitJournal.needsCheckpoint
  rw [← hw.blocks_eq, List.length_map, List.map_map, h.tail_eq, h.commits_eq, h.cowBytes_eq]
  rfl

theorem mem_allocated (hw : Writes r q.record s.file file) {a : WrittenArray}
    (ha : a ∈ q.record.arrays) : blockOf a ∈ allocated r :=
  hw.blocks_eq ▸ List.mem_map_of_mem ha

theorem Store.Inv.allocated_apart_chunks (h : s.Inv cfg chunks newest log)
    (hc : Commits cfg s.db q.locked newest q.commit r) :
    ∀ b ∈ allocated r, ∀ chunk ∈ chunkBlocks chunks, b.Apart chunk := by
  obtain ⟨hsub, hasc, hlast⟩ := h.db.topRefs hc.newest hc.newest_locked
  intro b hb chunk hchunk
  refine (hc.effect h.db).apart (h.db.space.snapshots.mono hsub hasc) hlast
    (fun w hw => h.db.space.wf w (hsub w hw)) b hb newest (List.mem_of_getLast? hlast) chunk ?_
  simp [Version.reachable, h.chunks_newest chunk hchunk]

theorem Store.Inv.journal_written (h : s.Inv cfg chunks newest log) (hchunks : ChunksWF chunks)
    (hc : Commits cfg s.db q.locked newest q.commit r) (hw : Writes r q.record s.file file) :
    Journal.journal chunks file.bytes = s.image chunks := by
  refine journal_congr hchunks fun x hx => hw.outside x ?_
  obtain ⟨chunk, hchunk, hx⟩ := hx
  rw [cover_eq_zero_iff]
  exact fun b hb => not_has_of_apart (h.allocated_apart_chunks hc b hb chunk hchunk) hx

theorem Store.Inv.valid_written (h : s.Inv cfg chunks newest log)
    (hc : Commits cfg s.db q.locked newest q.commit r) (hsize : q.commit.fileSize = s.file.size)
    (hw : Writes r q.record s.file file) :
    s.file.size ≤ file.size ∧
      ∀ c ∈ log, ∀ a ∈ c.arrays, Journal.arrayValid file a = true := by
  have hle : s.file.size ≤ file.size := by
    rw [hw.size_eq, ← hsize]
    exact (hc.effect h.db).file.size_le
  refine ⟨hle, fun c hcl a ha => Journal.arrayValid_congr hle (fun x hx hx' => ?_) (h.valid c hcl a ha)⟩
  have hrec : recordOf c ∈ s.db.records := h.records_eq ▸ List.mem_map_of_mem hcl
  refine hw.outside x (cover_eq_zero_iff.mpr fun b hb => ?_)
  exact not_has_of_apart (h.kept.apart h.db hc b hb (recordOf c) hrec (h.newer c hcl) (blockOf a)
    (List.mem_map_of_mem ha)) ⟨hx, hx'⟩

theorem arrayValid_writeBytes {a : WrittenArray} (hchunks : ChunksWF chunks) {offset : Nat}
    {data : List UInt8} (hroom : offset + data.length ≤ Journal.capacity)
    (hapart : ∀ b ∈ chunkBlocks chunks, (blockOf a).Apart b)
    (h : Journal.arrayValid file a = true) :
    Journal.arrayValid ⟨Journal.writeBytes chunks file.bytes offset data, file.size⟩ a = true := by
  refine Journal.arrayValid_congr (f := file) (Nat.le_refl _) (fun x hx hx' => ?_) h
  refine Journal.writeBytes_outside _ _ _ _ rfl hroom fun o ho hpos => ?_
  obtain ⟨b, hb, hbx⟩ := position_has hchunks ho
  rw [hpos] at hbx
  exact not_has_of_apart (hapart b hb) hbx ⟨hx, hx'⟩

/-! ## One commit -/

theorem Store.Inv.written (h : s.Inv cfg chunks newest log)
    (hc : Commits cfg s.db q.locked newest q.commit r) (hsize : q.commit.fileSize = s.file.size)
    (hkeeps : ∀ b ∈ chunkBlocks chunks, b ∈ q.commit.kept) (hw : Writes r q.record s.file file) :
    (∀ b ∈ chunkBlocks chunks, b ∈ r.version.nodes) ∧ r.version.logicalSize ≤ file.size ∧
      file.size % 8 = 0 ∧
      ∀ a ∈ q.record.arrays, a.ref + a.size ≤ file.size ∧ a.ref + a.size < 2 ^ 64 := by
  have heffect := hc.effect h.db
  obtain ⟨hlogical, hblocks⟩ := heffect.file.within (hsize ▸ h.newest_within)
  rw [hw.size_eq]
  refine ⟨fun b hb => heffect.kept b (hkeeps b hb), hlogical,
    heffect.file.size_mod (hsize ▸ h.size_mod), fun a ha => ?_⟩
  have hmem := mem_allocated hw ha
  have hpos := heffect.size_pos _ hmem
  have hlast := hblocks (a.ref + a.size - 1) (cover_pos_iff.mpr ⟨blockOf a, hmem,
    ⟨by simp only [blockOf] at hpos ⊢; omega, by simp only [blockOf] at hpos ⊢; omega⟩⟩)
  have hlt := hw.size_lt
  rw [hw.size_eq] at hlt
  omega

theorem Store.Inv.append (h : s.Inv cfg chunks newest log) (hchunks : ChunksWF chunks)
    (hmeets : q.Meets chunks s) {bytes : ByteImage.Image} {pending : Journal.PendingAppend}
    (hc : Commits cfg s.db q.locked newest q.commit r) (hsize : q.commit.fileSize = s.file.size)
    (hw : Writes r q.record s.file file) (hpolicy : s.needsCheckpoint q = false)
    (hprepare : s.journal.prepareAppend file.bytes q.record = .ok (bytes, pending)) :
    Store.Inv cfg chunks
      ⟨s.db.finish q.locked r true false, ⟨bytes, file.size⟩, s.journal.commitAppend pending⟩
      r.version (log ++ [q.record]) := by
  obtain ⟨f, hf, hagree⟩ := h.fields
  have hneeds : f.needsCheckpoint (allocated r) = false := (hagree.needsCheckpoint hw).trans hpolicy
  have hfinish : s.db.finish q.locked r true false =
      { s.db with
        active := s.db.activeAfter q.locked r
        journal := some (f.append (allocated r))
        records := s.db.records ++ [⟨r.version.version, allocated r⟩] } := by
    unfold State.finish
    rw [hf]
    dsimp only
    rw [if_neg (by rw [hneeds]; exact Bool.false_ne_true)]
  have hstep : Db.Step cfg s.db (.commit q.locked q.commit true false)
      (s.db.finish q.locked r true false) := .commit hc
  have hdb := hstep.inv h.db
  have hkept := hstep.recordsKept h.db h.kept ⟨rfl, rfl⟩ hmeets.spares
  obtain ⟨hver, hhead, -, -⟩ := hc.newer h.db
  have hversion : q.record.version = r.version.version := congrArg TopInfo.version hw.info_eq
  -- the journal
  have hwf := h.path.cursor_wf .start
  have hJ : Journal.journal chunks bytes =
      Journal.appended (s.image chunks) s.journal.cursor q.record := by
    rw [(Journal.journal_prepareAppend hchunks h.chunks_eq hwf hprepare).1,
      h.journal_written hchunks hc hw]
  have hcursor := (Journal.journal_prepareAppend hchunks h.chunks_eq hwf hprepare).2
  obtain ⟨hroom, hbytes, hpending⟩ := CommitJournal.prepareAppend_ok hprepare
  have hsizes := CommitJournal.size_le_of_needsCheckpoint hpolicy
  have hnew : (topInfo newest).version < q.record.version := by
    rw [hversion, hver]
    exact Nat.lt_succ_self _
  have hend := hmeets.clean hpolicy
  -- the file
  obtain ⟨hle, hvalid⟩ := h.valid_written hc hsize hw
  obtain ⟨hnodes, hlogical, hmod, hends⟩ := h.written hc hsize hmeets.keeps hw
  have hapart := h.allocated_apart_chunks hc
  have hdata : s.journal.tail + (Journal.encodeRecord (Journal.nextSequence s.journal.sequence)
      s.journal.previousOffset q.record).length ≤ Journal.capacity := by
    rw [Journal.encodeRecord_length (by omega)]
    exact hroom
  have hsurvives : ∀ a : WrittenArray, (∀ b ∈ chunkBlocks chunks, (blockOf a).Apart b) →
      Journal.arrayValid file a = true → Journal.arrayValid ⟨bytes, file.size⟩ a = true := by
    intro a ha hv
    rw [hbytes, h.chunks_eq]
    exact arrayValid_writeBytes hchunks hdata ha hv
  have hmem : ∀ {P : Journal.Commit → Prop}, (∀ c ∈ log, P c) → P q.record →
      ∀ c ∈ log ++ [q.record], P c := by
    intro P hlog hlast
    exact List.forall_mem_append.mpr ⟨hlog, by simpa using hlast⟩
  rw [hfinish] at hdb hkept ⊢
  refine
    { db := hdb, kept := hkept, newest_eq := by simp [State.activeAfter]
      fields := ⟨_, rfl, ?_⟩, chunks_eq := h.chunks_eq, logInv := ?_, path := ?_, front := ?_
      records_eq := ?_, ascending := ?_, newer := ?_
      valid := hmem (fun c hcl a ha => hsurvives a (h.apart c hcl a ha) (hvalid c hcl a ha))
        fun a ha => hsurvives a (hapart _ (mem_allocated hw ha)) (hw.valid a ha)
      apart := hmem h.apart fun a ha => hapart _ (mem_allocated hw ha)
      ends := hmem (fun c hcl a ha => ⟨Nat.le_trans (h.ends c hcl a ha).1 hle,
        (h.ends c hcl a ha).2⟩) hends
      chunks_header := h.chunks_header, chunks_newest := hnodes
      header_within := Nat.le_trans h.header_within hle, newest_within := hlogical
      size_mod := hmod }
  · rw [hpending]
    refine ⟨?_, ?_, ?_⟩
    · simp only [JournalFields.append, CommitJournal.commitAppend, hagree.tail_eq, ← hw.blocks_eq,
        List.length_map]
    · simp only [JournalFields.append, CommitJournal.commitAppend, hagree.commits_eq]
    · simp only [JournalFields.append, CommitJournal.commitAppend, hagree.cowBytes_eq,
        ← hw.blocks_eq, List.map_map]
      rfl
  · rw [← hw.info_eq]
    show LogInv (Journal.journal chunks bytes) _ _
    rw [hJ]
    exact (h.logInv.append ⟨_, h.path⟩ hsizes hroom hnew hend).1
  · show Path (Journal.journal chunks bytes) _ _ _
    rw [hJ, hcursor]
    exact (h.path.appended hsizes hroom).2
  · rw [← hw.info_eq]
    show Front (Journal.journal chunks bytes) _ _ _
    rw [hJ, hcursor]
    exact h.front.append h.logInv hsizes hroom hnew hend
  · simp [h.records_eq, recordOf, hversion, hw.blocks_eq]
  · refine List.pairwise_append.mpr ⟨h.ascending, List.pairwise_singleton _ _, fun c hcl d hd => ?_⟩
    rw [List.mem_singleton.mp hd]
    have hup := (h.logInv.upTo_path h.path c hcl).1
    exact Nat.lt_of_le_of_lt hup hnew
  · exact hmem h.newer (by show s.db.header.version < q.record.version; omega)

theorem Store.Inv.checkpoint (h : s.Inv cfg chunks newest log) (hchunks : ChunksWF chunks)
    (hmeets : q.Meets chunks s) (hc : Commits cfg s.db q.locked newest q.commit r)
    (hsize : q.commit.fileSize = s.file.size) (hw : Writes r q.record s.file file)
    (hpolicy : s.needsCheckpoint q = true) :
    Store.Inv cfg chunks
      ⟨s.db.finish q.locked r true false,
        ⟨(s.journal.clearAfterCompaction file.bytes q.record.info).1, file.size⟩,
        (s.journal.clearAfterCompaction file.bytes q.record.info).2⟩ r.version [] := by
  obtain ⟨f, hf, hagree⟩ := h.fields
  have hneeds : f.needsCheckpoint (allocated r) = true := (hagree.needsCheckpoint hw).trans hpolicy
  have hfinish : s.db.finish q.locked r true false =
      ⟨s.db.activeAfter q.locked r, r.version, some (.atCheckpoint r.version), []⟩ := by
    unfold State.finish
    rw [hf]
    dsimp only
    rw [if_pos hneeds, if_neg Bool.false_ne_true]
  have hstep : Db.Step cfg s.db (.commit q.locked q.commit true false)
      (s.db.finish q.locked r true false) := .commit hc
  have hdb := hstep.inv h.db
  have hkept := hstep.recordsKept h.db h.kept ⟨rfl, rfl⟩ hmeets.spares
  obtain ⟨hver, -, -, -⟩ := hc.newer h.db
  obtain ⟨hnodes, hlogical, hmod, -⟩ := h.written hc hsize hmeets.keeps hw
  have hnew : (topInfo newest).version < q.record.info.version := by
    rw [hw.info_eq]
    exact Nat.lt_of_lt_of_eq (Nat.lt_succ_self _) hver.symm
  have hJ : Journal.journal chunks (s.journal.clearAfterCompaction file.bytes q.record.info).1 =
      ByteImage.write (s.image chunks) 0 (Journal.putU64 0) := by
    rw [← h.journal_written hchunks hc hw, CommitJournal.clearAfterCompaction, h.chunks_eq]
    exact Journal.journal_writeBytes hchunks _ _ _ _ rfl (by decide)
  rw [hfinish] at hdb hkept ⊢
  refine
    { db := hdb, kept := hkept, newest_eq := by simp [State.activeAfter]
      fields := ⟨_, rfl, ⟨rfl, rfl, rfl⟩⟩, chunks_eq := h.chunks_eq, logInv := ?_, path := .nil _
      front := ?_, records_eq := rfl, ascending := .nil, newer := by simp, valid := by simp
      apart := by simp, ends := by simp, chunks_header := hnodes, chunks_newest := hnodes
      header_within := hlogical, newest_within := hlogical, size_mod := hmod }
  · rw [← hw.info_eq]
    show LogInv (Journal.journal chunks _) _ _
    rw [hJ]
    exact h.logInv.checkpoint hnew
  · rw [← hw.info_eq]
    show Front (Journal.journal chunks _) _ _ _
    rw [hJ]
    exact .checkpoint h.logInv hnew

end Commit

/-! ## Whole runs -/

theorem open_zeroed {chunks : List Nat} {file : File} {top : TopInfo}
    (h : ∀ x, Journal.journal chunks file.bytes x = 0) :
    CommitJournal.open chunks file top = .ok (CommitJournal.openAtCheckpoint chunks top,
      { topRef := top.ref, version := top.version, logicalSize := top.logicalSize }) := by
  have hstop : Journal.Stops (Journal.journal chunks file.bytes) .start := fun _ => by
    rw [ByteImage.word_eq_zero fun x _ _ => h x]
    decide
  unfold CommitJournal.open Journal.scan
  rw [Journal.scanLoop_stops hstop]
  rfl

theorem Store.Initial.inv {cfg : Config} {chunks : List Nat} {s : Store}
    (h : s.Initial cfg chunks) : s.Inv cfg chunks s.db.header [] := by
  obtain ⟨found, hopen⟩ := h.opened
  rw [open_zeroed h.zeroed] at hopen
  have hj : CommitJournal.openAtCheckpoint chunks (topInfo s.db.header) = s.journal :=
    congrArg Prod.fst (Except.ok.inj hopen)
  have hcursor : s.journal.cursor = .start := hj ▸ rfl
  exact
    { db := h.run.inv, kept := h.run.recordsKept, newest_eq := h.newest
      fields := ⟨_, h.journal, hj ▸ ⟨rfl, rfl, rfl⟩⟩, chunks_eq := hj ▸ rfl
      logInv := .zero h.zeroed _, path := hcursor ▸ .nil _, front := hcursor ▸ .zero h.zeroed _
      records_eq := h.records, ascending := .nil, newer := by simp, valid := by simp
      apart := by simp, ends := by simp, chunks_header := h.chunks_mem
      chunks_newest := h.chunks_mem, header_within := h.within, newest_within := h.within
      size_mod := h.size_mod }

theorem Store.Reachable.inv {cfg : Config} {chunks : List Nat} {s : Store}
    (h : s.Reachable cfg chunks) :
    ChunksWF chunks ∧ ∃ newest log, s.Inv cfg chunks newest log := by
  induction h with
  | initial h => exact ⟨h.chunks_wf, _, _, h.inv⟩
  | step _ hmeets hstep ih =>
    obtain ⟨hchunks, newest, log, hinv⟩ := ih
    refine ⟨hchunks, ?_⟩
    cases hstep with
    | append hc hsize hw hpolicy hprepare =>
      obtain rfl := Option.some.inj (hinv.newest_eq.symm.trans hc.newest)
      exact ⟨_, _, hinv.append hchunks hmeets hc hsize hw hpolicy hprepare⟩
    | checkpoint hc hsize hw hpolicy =>
      obtain rfl := Option.some.inj (hinv.newest_eq.symm.trans hc.newest)
      exact ⟨_, _, hinv.checkpoint hchunks hmeets hc hsize hw hpolicy⟩

/-! ## Recovery -/

section Recovery

variable {cfg : Config} {chunks : List Nat} {s : Store} {newest : Version}
  {log : List Journal.Commit} {f : File}

/-- **Recovery finds the newest commit in every file that still has the log.** -/
theorem Store.Inv.scan_eq (h : s.Inv cfg chunks newest log)
    (hJ : Journal.journal chunks f.bytes = s.image chunks)
    (hvalid : ∀ c ∈ log, ∀ a ∈ c.arrays, Journal.arrayValid f a = true) :
    ∃ r, Journal.scan chunks f (topInfo s.db.header) = .ok r ∧ r.top = topInfo newest := by
  have hlog := h.logInv
  rw [← hJ] at hlog
  obtain ⟨r, hscan, htop, -, -⟩ := hlog.scan_eq fun cs k hp c hc hv =>
    hvalid c (mem_of_front h.logInv h.front h.path (hJ ▸ hp) hc hv)
  exact ⟨r, hscan, htop⟩

theorem foldl_newer_lt {n : Nat} : ∀ {cs : List Journal.Commit} {t : TopInfo}, t.version < n →
    (∀ c ∈ cs, c.version < n) → (cs.foldl Journal.newer t).version < n
  | [], _, ht, _ => ht
  | c :: cs, t, ht, h => by
    obtain ⟨hc, hcs⟩ := List.forall_mem_cons.mp h
    rw [List.foldl_cons]
    refine foldl_newer_lt ?_ hcs
    unfold Journal.newer
    split
    · exact hc
    · exact ht

/-- **In a file that is too short for the log, recovery does not get to the newest commit.** -/
theorem Store.Inv.scan_short (h : s.Inv cfg chunks newest log)
    (hJ : Journal.journal chunks f.bytes = s.image chunks)
    (hshort : ∃ c ∈ log, ∃ a ∈ c.arrays, f.size < a.ref + a.size) {r : Journal.Result}
    (hscan : Journal.scan chunks f (topInfo s.db.header) = .ok r) :
    r.version < newest.version := by
  -- the first record with an array that does not fit
  obtain ⟨c, hfind⟩ : ∃ c, log.find? (fun c => !(c.arrays.all (Journal.arrayValid f))) = some c := by
    rw [← Option.isSome_iff_exists, List.find?_isSome]
    obtain ⟨c, hc, a, ha, hlt⟩ := hshort
    refine ⟨c, hc, ?_⟩
    rw [Bool.not_eq_true', List.all_eq_false]
    refine ⟨a, ha, fun hv => ?_⟩
    have hfits := (Journal.arrayValid_iff.mp hv).2.1
    rw [Nat.mod_eq_of_lt (h.ends c hc a ha).2] at hfits
    omega
  obtain ⟨hbad, as, bs, rfl, hgood⟩ := List.find?_eq_some_iff_append.mp hfind
  have hmem : c ∈ as ++ c :: bs := by simp
  have hnewer : s.db.header.version < c.version := h.newer c hmem
  have hle : c.version ≤ newest.version := (h.logInv.upTo_path h.path c hmem).1
  have hintact : ∀ d ∈ as, Journal.Intact f s.db.header.version d := by
    intro d hd _ a ha
    have := hgood d hd
    rw [Bool.not_not, List.all_eq_true] at this
    exact this a ha
  have hnot : ¬ Journal.Intact f s.db.header.version c := by
    intro hi
    rw [Bool.not_eq_true', List.all_eq_false] at hbad
    obtain ⟨a, ha, hv⟩ := hbad
    exact hv (hi hnewer a ha)
  -- the scan runs up to that record and no further
  obtain ⟨k, hpre, hrest⟩ := h.path.exists_of_append
  rw [← hJ] at hpre hrest
  cases hrest with
  | cons hlink _ =>
    obtain ⟨r', rfl, htop, hrun⟩ := Journal.scanLoop_path s.db.header.version hpre
      { topRef := (topInfo s.db.header).ref, version := (topInfo s.db.header).version,
        logicalSize := (topInfo s.db.header).logicalSize } rfl hintact
    have hlt : r'.version < newest.version := by
      have hversion := congrArg TopInfo.version htop
      refine Nat.lt_of_lt_of_le ?_ hle
      refine Nat.lt_of_le_of_lt (Nat.le_of_eq hversion) (foldl_newer_lt hnewer fun d hd => ?_)
      exact (List.pairwise_append.mp h.ascending).2.2 d hd c (by simp)
    rcases Journal.scanLoop_invalid hlink hnot with herr | ⟨cow, hok⟩
    · cases hscan.symm.trans (hrun.trans herr)
    · obtain rfl := Except.ok.inj (hscan.symm.trans (hrun.trans hok))
      exact hlt

end Recovery

end Llbt.Db
