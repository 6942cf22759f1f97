import Llbt.Journal.Append

/-!
# Runs of store handles over one journal

Any number of handles share the file: each has its own `CommitJournal` fields, while the journal
bytes and the header are common.  A `World` is that state, a `Step` one action of one handle:
opening the journal, closing, a journaled commit, a checkpoint commit.

* `World.Inv.step` — what one action preserves;
* `scan_newest_of_one_handle` — over every run of one handle, recovery finds the newest commit,
  provided each new record ends cleanly;
* `scan_newest_of_handles` — the same over every interleaving of several handles, provided each
  append is made by a handle whose cursor the shared chain passes through.

Both provisos are needed: the two sections on lost commits give runs that violate one of them and
end in a journal that recovery rejects, or reads without its newest commit.
-/

set_option autoImplicit false

namespace Llbt.Journal

open ByteImage Relation

/-! ## Worlds and steps -/

/-- The shared file with the top its header selects, the newest commit of any handle, and each
handle's journal object. -/
structure World where
  file : File
  header : TopInfo
  newest : TopInfo
  handles : Nat → Option CommitJournal

/-- One action of handle `h`.  The file of a commit is the store file after `GroupWriter` has
written the commit's arrays and before the journal is touched. -/
inductive Action where
  | openHandle (h : Nat)
  | closeHandle (h : Nat)
  | append (h : Nat) (c : Commit) (file : File)
  | checkpoint (h : Nat) (c : Commit) (file : File)

def Action.handle : Action → Nat
  | .openHandle h => h
  | .closeHandle h => h
  | .append h _ _ => h
  | .checkpoint h _ _ => h

def World.setHandle (w : World) (h : Nat) (j : Option CommitJournal) : World :=
  { w with handles := Function.update w.handles h j }

/-- The steps, for a journal in the chunks `chunks`.  `GroupWriter` does not write into them. -/
inductive Step (chunks : List Nat) : World → Action → World → Prop
  | openHandle {w : World} {h : Nat} {j : CommitJournal} {r : Result}
      (hopen : CommitJournal.open chunks w.file w.header = .ok (j, r)) :
      Step chunks w (.openHandle h) (w.setHandle h (some j))
  | closeHandle {w : World} {h : Nat} : Step chunks w (.closeHandle h) (w.setHandle h none)
  | append {w : World} {h : Nat} {c : Commit} {file : File} {j : CommitJournal} {bytes : Image}
      {pending : PendingAppend} (hj : w.handles h = some j)
      (hversion : w.newest.version < c.version)
      (hfile : journal chunks file.bytes = journal chunks w.file.bytes)
      (hpolicy : j.needsCheckpoint (requiredSize c.arrays.length) (cowBytes c.arrays) = false)
      (hprepare : j.prepareAppend file.bytes c = .ok (bytes, pending)) :
      Step chunks w (.append h c file)
        ({ w with file := ⟨bytes, file.size⟩, newest := c.info }.setHandle h
          (some (j.commitAppend pending)))
  | checkpoint {w : World} {h : Nat} {c : Commit} {file : File} {j : CommitJournal}
      (hj : w.handles h = some j) (hversion : w.newest.version < c.version)
      (hfile : journal chunks file.bytes = journal chunks w.file.bytes) :
      Step chunks w (.checkpoint h c file)
        ({ w with file := ⟨(j.clearAfterCompaction file.bytes c.info).1, file.size⟩,
                  header := c.info, newest := c.info }.setHandle h
          (some (j.clearAfterCompaction file.bytes c.info).2))

section Conditions

variable (chunks : List Nat)

/-- The state `CommitJournal::ensure` leaves: zeroed chunks, no record, no handle yet. -/
structure World.Initial (w : World) : Prop where
  zeroed : ∀ x, journal chunks w.file.bytes x = 0
  header_eq : w.header = w.newest
  closed : ∀ h, w.handles h = none

/-- The arrays listed by the records of the chain newer than the checkpoint are whole. -/
def World.Intact (w : World) : Prop :=
  ∀ cs k, Path (journal chunks w.file.bytes) .start cs k →
    ∀ c ∈ cs, Journal.Intact w.file w.header.version c

/-- A journaled commit ends where no header stands, or one that continues its chain. -/
def Action.Clean (w : World) : Action → Prop
  | .append h c _ => ∀ j, w.handles h = some j →
      EndClean (journal chunks w.file.bytes) j.cursor c.arrays.length
  | _ => True

/-- A journaled commit is made by a handle whose cursor the shared chain passes through. -/
def Action.Tracks (w : World) : Action → Prop
  | .append h _ _ => ∀ j, w.handles h = some j → OnChain (journal chunks w.file.bytes) j.cursor
  | _ => True

structure World.Inv (w : World) : Prop where
  log : LogInv (journal chunks w.file.bytes) w.header w.newest
  chunks_eq : ∀ h j, w.handles h = some j → j.chunks = chunks

end Conditions

variable {chunks : List Nat}

@[simp] theorem World.setHandle_file (w : World) (h : Nat) (j : Option CommitJournal) :
    (w.setHandle h j).file = w.file := rfl
@[simp] theorem World.setHandle_same (w : World) (h : Nat) (j : Option CommitJournal) :
    (w.setHandle h j).handles h = j := Function.update_self ..

theorem World.setHandle_ne (w : World) {h h' : Nat} (hne : h' ≠ h) (j : Option CommitJournal) :
    (w.setHandle h j).handles h' = w.handles h' := Function.update_of_ne hne ..

theorem World.forall_setHandle {P : CommitJournal → Prop} {w : World} {h : Nat}
    {j : Option CommitJournal} (hw : ∀ h' j', w.handles h' = some j' → P j')
    (hj : ∀ j', j = some j' → P j') :
    ∀ h' j', (w.setHandle h j).handles h' = some j' → P j' := by
  intro h' j' hget
  by_cases heq : h' = h
  · subst heq
    rw [World.setHandle_same] at hget
    exact hj j' hget
  · rw [World.setHandle_ne w heq] at hget
    exact hw h' j' hget

/-! ## One step -/

section Step

variable {w w' : World} {a : Action}

/-- **One step keeps the invariant** when an append tracks the chain and ends cleanly. -/
theorem World.Inv.step (hchunks : ChunksWF chunks) (hw : w.Inv chunks) (hstep : Step chunks w a w')
    (htracks : a.Tracks chunks w) (hclean : a.Clean chunks w) : w'.Inv chunks := by
  cases hstep with
  | @openHandle h j r hopen =>
    refine ⟨hw.log, World.forall_setHandle hw.chunks_eq ?_⟩
    rintro j' ⟨⟩
    exact (CommitJournal.open_ok hopen).2.1
  | closeHandle => exact ⟨hw.log, World.forall_setHandle hw.chunks_eq (by rintro j' ⟨⟩)⟩
  | @append h c file j bytes pending hj hversion hfile hpolicy hprepare =>
    have hon := htracks j hj
    obtain ⟨hJ, -⟩ := journal_prepareAppend hchunks (hw.chunks_eq h j hj) hon.wf hprepare
    refine ⟨?_, World.forall_setHandle hw.chunks_eq ?_⟩
    · rw [World.setHandle_file, hJ, hfile]
      exact (hw.log.append hon (CommitJournal.size_le_of_needsCheckpoint hpolicy)
        (CommitJournal.prepareAppend_ok hprepare).1 hversion (hclean j hj)).1
    · rintro j' ⟨⟩
      exact hw.chunks_eq h j hj
  | @checkpoint h c file j hj hversion hfile =>
    obtain rfl := hw.chunks_eq h j hj
    refine ⟨?_, World.forall_setHandle hw.chunks_eq ?_⟩
    · have hJ := journal_writeBytes hchunks _ file.bytes 0 (putU64 0) rfl (by decide)
      rw [World.setHandle_file]
      show LogInv (journal _ (writeBytes _ _ _ _)) _ _
      rw [hJ, hfile]
      exact hw.log.checkpoint hversion
    · rintro j' ⟨⟩
      rfl

/-- The chain has a front, and handle `h` puts its next record there. -/
structure World.TracksHandle (w : World) (chunks : List Nat) (h : Nat) : Prop where
  front : ∃ k, Front (journal chunks w.file.bytes) w.header w.newest k
  handle : ∀ j, w.handles h = some j → Front (journal chunks w.file.bytes) w.header w.newest j.cursor

/-- **A handle that is alone stays on the chain.** -/
theorem World.Inv.step_tracksHandle {h : Nat} (hchunks : ChunksWF chunks) (hw : w.Inv chunks)
    (hon : w.TracksHandle chunks h) (hintact : w.Intact chunks) (hstep : Step chunks w a w')
    (ha : a.handle = h) (hclean : a.Clean chunks w) : w'.TracksHandle chunks h := by
  cases hstep with
  | @openHandle h' j r hopen =>
    obtain rfl : h' = h := ha
    refine ⟨hon.front, fun j' hj' => ?_⟩
    rw [World.setHandle_same] at hj'
    obtain rfl := Option.some.inj hj'
    obtain ⟨hscan, -, hcur⟩ := CommitJournal.open_ok hopen
    obtain ⟨r', hscan', -, hreach, hlast⟩ := hw.log.scan_eq hintact
    obtain rfl := Except.ok.inj (hscan.symm.trans hscan')
    obtain ⟨k, hk⟩ := hon.front
    rw [hcur]
    refine ⟨hreach, fun q s p d hq hd hv => ?_⟩
    exact Nat.lt_of_lt_of_le (hk.behind q s p d hq hd hv) (hlast k hk.reaches.onChain)
  | @closeHandle h' =>
    obtain rfl : h' = h := ha
    refine ⟨hon.front, fun j' hj' => ?_⟩
    rw [World.setHandle_same] at hj'
    cases hj'
  | @append h' c file j bytes pending hj hversion hfile hpolicy hprepare =>
    obtain rfl : h' = h := ha
    have hk := hon.handle j hj
    obtain ⟨hJ, hcur⟩ := journal_prepareAppend hchunks (hw.chunks_eq h' j hj) hk.reaches.onChain.wf
      hprepare
    have hnext := hk.append hw.log (CommitJournal.size_le_of_needsCheckpoint hpolicy)
      (CommitJournal.prepareAppend_ok hprepare).1 hversion (hclean j hj)
    rw [← hfile, ← hJ] at hnext
    refine ⟨⟨_, hnext⟩, fun j' hj' => ?_⟩
    rw [World.setHandle_same] at hj'
    obtain rfl := Option.some.inj hj'
    rw [hcur]
    exact hnext
  | @checkpoint h' c file j hj hversion hfile =>
    obtain rfl : h' = h := ha
    obtain rfl := hw.chunks_eq h' j hj
    have hJ := journal_writeBytes hchunks _ file.bytes 0 (putU64 0) rfl (by decide)
    have hstart : Front _ c.info c.info _ := Front.checkpoint hw.log hversion
    rw [← hfile, ← hJ] at hstart
    refine ⟨⟨_, hstart⟩, fun j' hj' => ?_⟩
    rw [World.setHandle_same] at hj'
    obtain rfl := Option.some.inj hj'
    exact hstart

theorem World.Initial.inv (h : w.Initial chunks) : w.Inv chunks := by
  refine ⟨?_, fun h' j hj => ?_⟩
  · rw [h.header_eq]
    exact LogInv.zero h.zeroed w.newest
  · rw [h.closed h'] at hj
    cases hj

theorem World.Initial.intact (h : w.Initial chunks) : w.Intact chunks := by
  intro cs k hp c hc
  obtain ⟨ds, ⟨⟨k', hds, hstop⟩, -⟩, -⟩ := (LogInv.zero h.zeroed w.newest).chain
  cases hp with
  | nil => cases hc
  | cons hlink rest =>
    have hw := hlink.record.headerAt.1
    rw [word_eq_zero fun x _ _ => h.zeroed x] at hw
    exact absurd hw (by decide)

end Step

/-! ## Whole runs -/

/-- One step of a run of handle `h` alone. -/
def OneHandleStep (chunks : List Nat) (h : Nat) (w w' : World) : Prop :=
  ∃ a, Step chunks w a w' ∧ a.handle = h ∧ a.Clean chunks w ∧ w'.Intact chunks

/-- One step of an interleaving of any handles. -/
def HandlesStep (chunks : List Nat) (w w' : World) : Prop :=
  ∃ a, Step chunks w a w' ∧ a.Tracks chunks w ∧ a.Clean chunks w ∧ w'.Intact chunks

theorem oneHandle_run {h : Nat} {w₀ w : World} (hchunks : ChunksWF chunks)
    (hinit : w₀.Initial chunks) (run : ReflTransGen (OneHandleStep chunks h) w₀ w) :
    w.Inv chunks ∧ w.TracksHandle chunks h ∧ w.Intact chunks := by
  induction run with
  | refl =>
    have hfront := Front.zero hinit.zeroed w₀.newest
    nth_rewrite 1 [← hinit.header_eq] at hfront
    refine ⟨hinit.inv, ⟨⟨_, hfront⟩, fun j hj => ?_⟩, hinit.intact⟩
    rw [hinit.closed h] at hj
    cases hj
  | @tail w w' _ step ih =>
    obtain ⟨hinv, hon, hintact⟩ := ih
    obtain ⟨a, hstep, ha, hclean, hintact'⟩ := step
    have htracks : a.Tracks chunks w := by
      cases a with
      | append h' c file =>
        obtain rfl : h' = h := ha
        exact fun j hj => (hon.handle j hj).reaches.onChain
      | _ => trivial
    exact ⟨hinv.step hchunks hstep htracks hclean,
      hinv.step_tracksHandle hchunks hon hintact hstep ha hclean, hintact'⟩

theorem handles_run {w₀ w : World} (hchunks : ChunksWF chunks)
    (hinit : w₀.Initial chunks) (run : ReflTransGen (HandlesStep chunks) w₀ w) :
    w.Inv chunks ∧ w.Intact chunks := by
  induction run with
  | refl => exact ⟨hinit.inv, hinit.intact⟩
  | tail _ step ih =>
    obtain ⟨a, hstep, htracks, hclean, hintact⟩ := step
    exact ⟨ih.1.step hchunks hstep htracks hclean, hintact⟩

/-! ## A small store

Concrete runs below use one store: its arrays are 8-byte nodes in the first page of the file, each
holding the checksum of four zero bytes, and its journal chunks follow that page. -/

namespace Small

def chunkRefs : List Nat := (List.range chunkCount).map fun i => 4096 + i * (chunkSize + 8)

def checksum : Nat := Crc32c.compute [0, 0, 0, 0]

def file : File :=
  ⟨fun x => if x < 4096 then (putU32 checksum ++ [0, 0, 0, 0]).getD (x % 8) 0 else 0, 2 ^ 27⟩

/-- Version `v` writes `n` nodes of its own, the first of them its top. -/
def commit (v : Fin 32) (n : Fin 8) : Commit where
  version := v
  topRef := 64 * v
  logicalSize := 2 ^ 27
  arrays := (List.range n).map fun i => ⟨64 * v + 8 * i, 8, checksum⟩
  version_lt := by omega
  topRef_lt := by omega
  topRef_aligned := by omega
  logicalSize_lt := by decide
  arrays_wf := by
    intro a ha
    obtain ⟨i, hi, rfl⟩ := List.mem_map.mp ha
    have := List.mem_range.mp hi
    have := Crc32c.compute_lt [0, 0, 0, 0]
    exact ⟨by dsimp only; omega, by dsimp only; omega, by dsimp only; decide, this⟩

/-- Version `v` writes one large node: too much for the journal to retain. -/
def bulkCommit (v : Fin 32) : Commit where
  version := v
  topRef := 64 * v
  logicalSize := 2 ^ 27
  arrays := [⟨64 * v, 2 ^ 26 + 8, 0⟩]
  version_lt := by omega
  topRef_lt := by omega
  topRef_aligned := by omega
  logicalSize_lt := by decide
  arrays_wf := by
    intro a ha
    obtain rfl := List.mem_singleton.mp ha
    exact ⟨by dsimp only; omega, by dsimp only; omega, by dsimp only; decide, by dsimp only; decide⟩

def world : World := ⟨file, ⟨0, 0, 2 ^ 27⟩, ⟨0, 0, 2 ^ 27⟩, fun _ => none⟩

theorem chunkRefs_getD {i : Nat} (h : i < chunkCount) :
    chunkRefs.getD i 0 = 4096 + i * (chunkSize + 8) := by
  rw [chunkRefs, List.getD_eq_getElem?_getD, List.getElem?_map, List.getElem?_range h,
    Option.map_some, Option.getD_some]

theorem chunkRefs_wf : ChunksWF chunkRefs := by
  refine ⟨by simp [chunkRefs], fun i j hi hj hne => ?_⟩
  rw [chunkRefs_getD hi, chunkRefs_getD hj]
  simp only [nodeHeaderSize, chunkSize]
  omega

theorem le_position {o : Nat} (ho : o < capacity) : 4096 ≤ position chunkRefs o := by
  have hi : o / chunkSize < chunkCount := Nat.div_lt_of_lt_mul ho
  rw [position, chunkRefs_getD hi]
  omega

theorem world_initial : world.Initial chunkRefs := by
  refine ⟨fun x => ?_, rfl, fun _ => rfl⟩
  unfold journal
  split
  · rename_i hx
    exact if_neg (by have := le_position hx; omega)
  · rfl

/-- A file that still has the first page of the small store. -/
structure Page (f : File) : Prop where
  below : ∀ x, x < 4096 → f.bytes x = file.bytes x
  size : f.size = 2 ^ 27

theorem Page.writeBytes {f : File} (hf : Page f) {o : Nat} {data : List UInt8}
    (h : o + data.length ≤ capacity) : Page ⟨Journal.writeBytes chunkRefs f.bytes o data, f.size⟩ := by
  refine ⟨fun x hx => ?_, hf.size⟩
  refine (writeBytes_outside _ _ _ _ rfl h fun o ho hpos => ?_).trans (hf.below x hx)
  have := le_position ho
  omega

theorem Page.arrayValid {f : File} (hf : Page f) {ref : Nat} (hal : ref % 8 = 0)
    (hlt : ref + 8 ≤ 4096) : arrayValid f ⟨ref, 8, checksum⟩ = true := by
  have hbyte : ∀ i, i < 8 → f.bytes (ref + i) = (putU32 checksum ++ [0, 0, 0, 0]).getD i 0 := by
    intro i hi
    rw [hf.below _ (by omega)]
    show (if ref + i < 4096 then _ else _) = _
    rw [if_pos (by omega), show (ref + i) % 8 = i by omega]
  have hnode : slice f.bytes ref (4 + 4) = putU32 checksum ++ [0, 0, 0, 0] := by
    apply List.ext_getElem (by simp [putU32])
    intro i h1 h2
    have hi : i < 8 := by simpa using h1
    have := hbyte i hi
    rw [List.getD_eq_getElem _ _ h2] at this
    rw [← this]
    simp [slice]
  rw [slice_append] at hnode
  obtain ⟨h1, h2⟩ := List.append_inj hnode (by simp [putU32])
  have hstored : leVal (slice f.bytes ref 4) = checksum := by
    rw [h1, putU32, leVal_putLE_of_lt (Crc32c.compute_lt [0, 0, 0, 0])]
  unfold Journal.arrayValid
  rw [if_neg (by simp only [nodeHeaderSize, hf.size]; omega)]
  simp [hstored, h2, checksum]

theorem Page.intact {f : File} (hf : Page f) (cv : Nat) (v : Fin 32) (n : Fin 8) :
    Intact f cv (commit v n) := by
  intro _ a ha
  obtain ⟨i, hi, rfl⟩ := List.mem_map.mp ha
  have := List.mem_range.mp hi
  exact hf.arrayValid (by omega) (by omega)

/-- A state of the small store: its journal bytes and its first page. -/
structure State (w : World) (J : Image) : Prop where
  journal_eq : journal chunkRefs w.file.bytes = J
  page : Page w.file

theorem world_state : State world fun _ => 0 :=
  ⟨funext world_initial.zeroed, fun _ _ => rfl, rfl⟩

theorem State.intact {w : World} {J : Image} (hs : State w J) {cs : List Commit} {k : Cursor}
    (hp : Path J .start cs k) (hend : ∀ c, ¬ LinkedAt J k c)
    (hcs : ∀ c ∈ cs, ∃ v n, c = commit v n) : w.Intact chunkRefs := by
  intro ds k' hq d hd
  rw [hs.journal_eq] at hq
  obtain ⟨v, n, rfl⟩ := hcs d ((hp.isPrefix hend hq).subset hd)
  exact hs.page.intact _ v n

/-- The journal object after a journaled commit. -/
def advance (j : CommitJournal) (c : Commit) : CommitJournal :=
  j.commitAppend ⟨j.tail + requiredSize c.arrays.length, j.tail, nextSequence j.sequence, c.version,
    cowBytes c.arrays⟩

theorem State.openHandle {w : World} {J : Image} (hs : State w J) (h : Nat)
    (hzero : word J 0 ≠ headerMagic) :
    Step chunkRefs w (.openHandle h)
      (w.setHandle h (some (CommitJournal.openAtCheckpoint chunkRefs w.header))) := by
  have hscan : scanLoop chunkRefs w.file w.header.version
      ⟨w.header.ref, w.header.version, w.header.logicalSize, 0, npos, 0, 0, 0⟩ = .ok _ :=
    scanLoop_stops (by rw [hs.journal_eq]; exact fun _ => hzero)
  refine .openHandle (r := ⟨w.header.ref, w.header.version, w.header.logicalSize, 0, npos, 0, 0, 0⟩) ?_
  unfold CommitJournal.open scan
  rw [hscan]
  rfl

theorem State.append {w : World} {J : Image} (hs : State w J) {h : Nat} {j : CommitJournal}
    {c : Commit} (hj : w.handles h = some j) (hchunks : j.chunks = chunkRefs) (hk : j.cursor.WF)
    (hversion : w.newest.version < c.version)
    (hpolicy : j.needsCheckpoint (requiredSize c.arrays.length) (cowBytes c.arrays) = false) :
    ∃ w', Step chunkRefs w (.append h c w.file) w' ∧ State w' (appended J j.cursor c) ∧
      w'.header = w.header ∧ w'.newest = c.info ∧
      w'.handles = Function.update w.handles h (some (advance j c)) := by
  have hroom : j.tail + requiredSize c.arrays.length ≤ capacity := by
    have := of_decide_eq_false hpolicy
    have hcap : capacity = 67108864 := rfl
    omega
  have hprepare : j.prepareAppend w.file.bytes c = .ok (_, _) := if_neg (by omega)
  refine ⟨_, Step.append hj hversion rfl hpolicy hprepare, ⟨?_, ?_⟩, rfl, rfl, rfl⟩
  · rw [← hs.journal_eq]
    exact (journal_prepareAppend chunkRefs_wf hchunks hk hprepare).1
  · rw [World.setHandle_file, hchunks]
    exact hs.page.writeBytes (by rw [encodeRecord_length (by omega)]; exact hroom)

theorem State.checkpoint {w : World} {J : Image} (hs : State w J) {h : Nat} {j : CommitJournal}
    {c : Commit} (hj : w.handles h = some j) (hchunks : j.chunks = chunkRefs)
    (hversion : w.newest.version < c.version) :
    ∃ w', Step chunkRefs w (.checkpoint h c w.file) w' ∧ State w' (write J 0 (putU64 0)) ∧
      w'.header = c.info ∧ w'.newest = c.info ∧ w'.handles = Function.update w.handles h
        (some (CommitJournal.openAtCheckpoint chunkRefs c.info)) := by
  refine ⟨_, Step.checkpoint hj hversion rfl, ⟨?_, ?_⟩, rfl, rfl, ?_⟩
  · rw [← hs.journal_eq, World.setHandle_file, CommitJournal.clearAfterCompaction, hchunks]
    exact journal_writeBytes chunkRefs_wf _ w.file.bytes 0 (putU64 0) rfl (by decide)
  · rw [World.setHandle_file, CommitJournal.clearAfterCompaction, hchunks]
    exact hs.page.writeBytes (by decide)
  · rw [← hchunks]
    rfl

end Small

/-- **One handle.**  Whatever appends, checkpoints and reopenings a single handle makes, if each
new record ends where no header stands or one that continues its chain, recovery finds the newest
commit. -/
theorem scan_newest_of_one_handle {h : Nat} {w₀ w : World} (hchunks : ChunksWF chunks)
    (hinit : w₀.Initial chunks) (run : ReflTransGen (OneHandleStep chunks h) w₀ w) :
    ∃ r, scan chunks w.file w.header = .ok r ∧ r.topRef = w.newest.ref ∧
      r.version = w.newest.version ∧ r.logicalSize = w.newest.logicalSize := by
  obtain ⟨hinv, -, hintact⟩ := oneHandle_run hchunks hinit run
  obtain ⟨r, hscan, htop, -, -⟩ := hinv.log.scan_eq hintact
  exact ⟨r, hscan, by rw [← htop]; rfl, by rw [← htop]; rfl, by rw [← htop]; rfl⟩

namespace Small

theorem size_le (v : Fin 32) (n : Fin 8) : ∀ a ∈ (commit v n).arrays, a.size ≤ 64 * 1024 * 1024 := by
  intro a ha
  obtain ⟨i, -, rfl⟩ := List.mem_map.mp ha
  dsimp only
  decide

theorem not_headerAt_zero (o : Nat) : ¬ HeaderAt (fun _ => 0) o := by
  intro h
  have hw := h.1
  rw [word_eq_zero fun _ _ _ => rfl] at hw
  exact absurd hw (by decide)

theorem not_headerAt_cleared {J : Image} : ¬ HeaderAt (write J 0 (putU64 0)) 0 := by
  intro h
  have hw := h.1
  rw [word, show (8 : Nat) = (putU64 0).length from rfl, slice_write_self] at hw
  exact absurd hw (by decide)

theorem not_headerAt_appended {J : Image} {k : Cursor} {c : Commit} {o : Nat}
    (hfits : k.offset + requiredSize c.arrays.length ≤ capacity)
    (ho : k.offset + requiredSize c.arrays.length ≤ o) (h : ¬ HeaderAt J o) :
    ¬ HeaderAt (appended J k c) o :=
  fun hh => h (hh.congr fun x h₁ _ => appended_outside hfits (.inr (by omega)))

theorem not_linkedAt_appended {J : Image} {k : Cursor} {c : Commit}
    (hfits : k.offset + requiredSize c.arrays.length ≤ capacity)
    (h : ¬ HeaderAt J (k.next c).offset) (d : Commit) : ¬ LinkedAt (appended J k c) (k.next c) d :=
  not_linkedAt_of_not_headerAt (not_headerAt_appended hfits (Nat.le_refl _) h) d

/-- Handle 0 is open and its cursor ends the chain `cs` of small commits. -/
structure Session (w : World) (J : Image) (j : CommitJournal) (cs : List Commit) : Prop where
  state : State w J
  handle : w.handles 0 = some j
  chunks : j.chunks = chunkRefs
  path : Path J .start cs j.cursor
  small : ∀ c ∈ cs, ∃ v n, c = commit v n

theorem session_open : ∃ w, (Step chunkRefs world (.openHandle 0) w ∧ w.Intact chunkRefs) ∧
    w.newest.version = 0 ∧
    Session w (fun _ => 0) (CommitJournal.openAtCheckpoint chunkRefs ⟨0, 0, 2 ^ 27⟩) [] := by
  have hs : State (world.setHandle 0 (some (CommitJournal.openAtCheckpoint chunkRefs
      ⟨0, 0, 2 ^ 27⟩))) (fun _ => 0) := ⟨world_state.journal_eq, world_state.page⟩
  refine ⟨_, ⟨world_state.openHandle 0 (by decide), ?_⟩, rfl,
    ⟨hs, World.setHandle_same .., rfl, .nil _, by simp⟩⟩
  exact hs.intact (.nil _) (not_linkedAt_of_not_headerAt (not_headerAt_zero _)) (by simp)

theorem Session.append {w : World} {J : Image} {j : CommitJournal} {cs : List Commit}
    (hs : Session w J j cs) (v : Fin 32) (n : Fin 8) (hversion : w.newest.version < v)
    (hpolicy : j.needsCheckpoint (requiredSize n) (8 * n) = false)
    (hnext : (advance j (commit v n)).cursor = j.cursor.next (commit v n))
    (hend : ∀ d, ¬ LinkedAt (appended J j.cursor (commit v n)) (j.cursor.next (commit v n)) d) :
    ∃ w', (Step chunkRefs w (.append 0 (commit v n) w.file) w' ∧ w'.Intact chunkRefs) ∧
      w'.newest.version = v ∧ Session w' (appended J j.cursor (commit v n))
        (advance j (commit v n)) (cs ++ [commit v n]) := by
  have hlen : (commit v n).arrays.length = n := by simp [commit]
  have hcow : cowBytes (commit v n).arrays = 8 * n := by
    simp [cowBytes, commit, Function.comp_def, Nat.mul_comm]
  obtain ⟨w', hstep, hst, -, hnew, hj⟩ := hs.state.append hs.handle hs.chunks
    (hs.path.cursor_wf .start) hversion (by rw [hlen, hcow]; exact hpolicy)
  have hfits : j.tail + requiredSize (commit v n).arrays.length ≤ capacity := by
    have := of_decide_eq_false hpolicy
    have hcap : capacity = 67108864 := rfl
    rw [hlen]
    omega
  obtain ⟨-, hpath⟩ := hs.path.appended (size_le v n) hfits
  have hsmall : ∀ c ∈ cs ++ [commit v n], ∃ v n, c = commit v n := by
    intro c hc
    rcases List.mem_append.mp hc with hc | hc
    · exact hs.small c hc
    · exact ⟨v, n, List.mem_singleton.mp hc⟩
  refine ⟨w', ⟨hstep, hst.intact hpath hend hsmall⟩, by rw [hnew]; rfl,
    ⟨hst, by rw [hj, Function.update_self], hs.chunks, ?_, hsmall⟩⟩
  rw [hnext]
  exact hpath

theorem Session.checkpoint {w : World} {J : Image} {j : CommitJournal} {cs : List Commit}
    (hs : Session w J j cs) (v : Fin 32) (hversion : w.newest.version < v) :
    ∃ w', (Step chunkRefs w (.checkpoint 0 (bulkCommit v) w.file) w' ∧ w'.Intact chunkRefs) ∧
      w'.newest.version = v ∧ Session w' (write J 0 (putU64 0))
        (CommitJournal.openAtCheckpoint chunkRefs (bulkCommit v).info) [] := by
  obtain ⟨w', hstep, hst, -, hnew, hj⟩ := hs.state.checkpoint (c := bulkCommit v) hs.handle
    hs.chunks hversion
  exact ⟨w', ⟨hstep, hst.intact (.nil _) (not_linkedAt_of_not_headerAt not_headerAt_cleared)
    (by simp)⟩,
    by rw [hnew]; rfl, ⟨hst, by rw [hj, Function.update_self], rfl, .nil _, by simp⟩⟩

theorem Session.clean {w : World} {J : Image} {j : CommitJournal} {cs : List Commit}
    (hs : Session w J j cs) {c : Commit} {f : File}
    (h : word J (j.tail + requiredSize c.arrays.length) ≠ headerMagic) :
    Action.Clean chunkRefs w (.append 0 c f) := by
  intro j' hj'
  obtain rfl := Option.some.inj (hs.handle.symm.trans hj')
  rw [hs.state.journal_eq]
  exact fun _ hm => absurd hm h

theorem word_ne_after_cycle {o : Nat} (ho : 168 ≤ o) :
    word (write (appended (fun _ => 0) Cursor.start (commit 1 5)) 0 (putU64 0)) o ≠
      headerMagic := by
  rw [word_eq_zero]
  · decide
  · intro x hx _
    rw [write_outside _ (.inr (Nat.le_trans (by decide) (Nat.le_trans ho hx))),
      appended_outside (by decide) (.inr (Nat.le_trans (by decide) (Nat.le_trans ho hx)))]

end Small

/-- A run with a checkpoint between two commits. -/
theorem scan_newest_of_one_handle_small :
    ∃ w, ReflTransGen (OneHandleStep Small.chunkRefs 0) Small.world w ∧ w.newest.version = 3 ∧
      ∃ r, scan Small.chunkRefs w.file w.header = .ok r ∧ r.topRef = w.newest.ref ∧
        r.version = w.newest.version ∧ r.logicalSize = w.newest.logicalSize := by
  obtain ⟨w1, m1, n1, s1⟩ := Small.session_open
  obtain ⟨w2, m2, n2, s2⟩ := s1.append 1 5 (by rw [n1]; decide) (by decide) rfl
    (Small.not_linkedAt_appended (by decide) (Small.not_headerAt_zero _))
  obtain ⟨w3, m3, n3, s3⟩ := s2.checkpoint 2 (by rw [n2]; decide)
  obtain ⟨w4, m4, n4, s4⟩ := s3.append 3 5 (by rw [n3]; decide) (by decide) rfl
    (Small.not_linkedAt_appended (by decide) fun hh => Small.word_ne_after_cycle (by decide) hh.1)
  have run : ReflTransGen (OneHandleStep Small.chunkRefs 0) Small.world w4 :=
    .tail (.tail (.tail (.single ⟨_, m1.1, rfl, trivial, m1.2⟩)
      ⟨_, m2.1, rfl, s1.clean (by decide), m2.2⟩) ⟨_, m3.1, rfl, trivial, m3.2⟩)
      ⟨_, m4.1, rfl, s3.clean (Small.word_ne_after_cycle (by decide)), m4.2⟩
  exact ⟨w4, run, n4, scan_newest_of_one_handle Small.chunkRefs_wf Small.world_initial run⟩

/-- **A checkpoint can leave a journal that recovery rejects.**  One handle commits three versions
with 6, 5 and 5 arrays, checkpoints the fourth (a commit of more than 64 MiB), and commits two more
with 5 and 6 arrays: their records end together where the third record still stands, linked to
another offset.  Nothing crashed and every array is intact. -/
theorem scan_rejects_after_checkpoint :
    ChunksWF Small.chunkRefs ∧ Small.world.Initial Small.chunkRefs ∧
    ∃ w, ReflTransGen (fun w w' => ∃ a, Step Small.chunkRefs w a w' ∧ a.handle = 0 ∧
        w'.Intact Small.chunkRefs) Small.world w ∧
      scan Small.chunkRefs w.file w.header = .error "bad commit journal record chain" := by
  refine ⟨Small.chunkRefs_wf, Small.world_initial, ?_⟩
  -- first cycle: records at 0, 184 and 352
  obtain ⟨w1, m1, n1, s1⟩ := Small.session_open
  obtain ⟨w2, m2, n2, s2⟩ := s1.append 1 6 (by rw [n1]; decide) (by decide) rfl
    (Small.not_linkedAt_appended (by decide) (Small.not_headerAt_zero _))
  obtain ⟨w3, m3, n3, s3⟩ := s2.append 2 5 (by rw [n2]; decide) (by decide) rfl
    (Small.not_linkedAt_appended (by decide) (Small.not_headerAt_appended (by decide) (by decide)
      (Small.not_headerAt_zero _)))
  obtain ⟨w4, m4, n4, s4⟩ := s3.append 3 5 (by rw [n3]; decide) (by decide) rfl
    (Small.not_linkedAt_appended (by decide) (Small.not_headerAt_appended (by decide) (by decide)
      (Small.not_headerAt_appended (by decide) (by decide) (Small.not_headerAt_zero _))))
  obtain _ | ⟨l1, _ | ⟨l2, _ | ⟨l3, -⟩⟩⟩ := s4.path
  -- the checkpoint clears eight bytes
  obtain ⟨w5, m5, n5, s5⟩ := s4.checkpoint 4 (by rw [n4]; decide)
  have hclear : ∀ (J : Image) (x : Nat), 8 ≤ x → write J 0 (putU64 0) x = J x := fun J x hx =>
    write_outside J (.inr hx)
  -- second cycle: records at 0 and 168, the second one ending at 352
  obtain ⟨w6, m6, n6, s6⟩ := s5.append 5 5 (by rw [n5]; decide) (by decide) rfl
    (Small.not_linkedAt_appended (by decide) fun hh => l1.record.not_headerAt_inside l1.range (q := 168) (by decide)
      (by decide) (by decide) (hh.congr fun x hx _ => hclear _ x (Nat.le_trans (by decide) hx)))
  have third : RecordAt _ 352 3 184 (Small.commit 3 5) := l3.record
  have stale := ((third.congr fun x hx _ => (hclear _ x (by omega)).symm).congr fun x hx _ =>
    (appended_outside (k := .start) (c := Small.commit 5 5) (by decide)
      (.inr (Nat.le_trans (by decide) hx))).symm).congr fun x hx _ =>
    (appended_outside (k := ⟨168, 0, 1⟩) (c := Small.commit 6 6) (by decide) (.inr hx)).symm
  obtain ⟨w7, m7, n7, s7⟩ := s6.append 6 6 (by rw [n6]; decide) (by decide) rfl
    fun d hd => absurd (stale.unique hd.record).2.1 (by decide)
  refine ⟨w7, .tail (.tail (.tail (.tail (.tail (.tail (.single ⟨_, m1.1, rfl, m1.2⟩)
    ⟨_, m2.1, rfl, m2.2⟩) ⟨_, m3.1, rfl, m3.2⟩) ⟨_, m4.1, rfl, m4.2⟩) ⟨_, m5.1, rfl, m5.2⟩)
    ⟨_, m6.1, rfl, m6.2⟩) ⟨_, m7.1, rfl, m7.2⟩, ?_⟩
  have hJ := s7.state.journal_eq
  refine scan_chain_error (hJ ▸ s7.path) ?_ (hJ ▸ stale) (.inr (by decide))
  intro c hc
  obtain ⟨v, n, rfl⟩ := s7.small c hc
  exact s7.state.page.intact _ v n

/-- **Any number of handles.** -/
theorem scan_newest_of_handles {w₀ w : World} (hchunks : ChunksWF chunks)
    (hinit : w₀.Initial chunks) (run : ReflTransGen (HandlesStep chunks) w₀ w) :
    ∃ r, scan chunks w.file w.header = .ok r ∧ r.topRef = w.newest.ref ∧
      r.version = w.newest.version := by
  obtain ⟨hinv, hintact⟩ := handles_run hchunks hinit run
  obtain ⟨r, hscan, htop, -, -⟩ := hinv.log.scan_eq hintact
  exact ⟨r, hscan, by rw [← htop]; rfl, by rw [← htop]; rfl⟩

namespace Small

/-- The journal object of a handle that opened the empty journal. -/
def fresh : CommitJournal := CommitJournal.openAtCheckpoint chunkRefs ⟨0, 0, 2 ^ 27⟩

theorem pair_open : ∃ w₁ w₂, Step chunkRefs world (.openHandle 0) w₁ ∧ w₁.Intact chunkRefs ∧
    Step chunkRefs w₁ (.openHandle 1) w₂ ∧ w₂.Intact chunkRefs ∧ State w₂ (fun _ => 0) ∧
    w₂.header = ⟨0, 0, 2 ^ 27⟩ ∧ w₂.newest = ⟨0, 0, 2 ^ 27⟩ ∧ w₂.handles 0 = some fresh ∧
      w₂.handles 1 = some fresh := by
  obtain ⟨w₁, ⟨m₁, i₁⟩, -, s₁⟩ := session_open
  have hw₁ : w₁.header = ⟨0, 0, 2 ^ 27⟩ ∧ w₁.newest = ⟨0, 0, 2 ^ 27⟩ := by
    cases m₁
    exact ⟨rfl, rfl⟩
  have hs : State (w₁.setHandle 1 (some fresh)) (fun _ => 0) :=
    ⟨s₁.state.journal_eq, s₁.state.page⟩
  have m₂ := s₁.state.openHandle 1 (by decide)
  rw [hw₁.1] at m₂
  refine ⟨w₁, _, m₁, i₁, m₂, ?_, hs, hw₁.1, hw₁.2, ?_, World.setHandle_same ..⟩
  · exact hs.intact (.nil _) (not_linkedAt_of_not_headerAt (not_headerAt_zero _)) (by simp)
  · rw [World.setHandle_ne _ (by decide)]
    exact s₁.handle

end Small

/-- Handle 0 commits and checkpoints, then handle 1, which had opened the empty journal, commits at
its start. -/
theorem scan_newest_of_handles_small :
    ∃ w, ReflTransGen (HandlesStep Small.chunkRefs) Small.world w ∧ w.newest.version = 3 ∧
      ∃ r, scan Small.chunkRefs w.file w.header = .ok r ∧ r.topRef = w.newest.ref ∧
        r.version = w.newest.version := by
  obtain ⟨w1, w2, m1, i1, m2, i2, s2, -, n2, h0, h1⟩ := Small.pair_open
  obtain ⟨w3, m3, s3, -, n3, hj3⟩ := s2.append (c := Small.commit 1 5) h0 rfl .start
    (by rw [n2]; decide) (by decide)
  obtain ⟨-, p3⟩ := (Path.nil (J := fun _ => 0) Cursor.start).appended (Small.size_le 1 5) (by decide)
  have i3 := s3.intact p3 (Small.not_linkedAt_appended (by decide) (Small.not_headerAt_zero _))
    fun c hc => ⟨1, 5, List.mem_singleton.mp hc⟩
  have c3 : Action.Clean Small.chunkRefs w2 (.append 0 (Small.commit 1 5) w2.file) := by
    rintro j hj
    obtain rfl := Option.some.inj (h0.symm.trans hj)
    rw [s2.journal_eq]
    exact fun _ hm => absurd hm (by decide)
  obtain ⟨w4, m4, s4, -, n4, hj4⟩ := s3.checkpoint (h := 0) (c := Small.bulkCommit 2)
    (by rw [hj3, Function.update_self]) rfl (by rw [n3]; decide)
  have i4 := s4.intact (.nil _) (not_linkedAt_of_not_headerAt Small.not_headerAt_cleared) (by simp)
  -- handle 1 still has the fields of the empty journal
  have h4 : w4.handles 1 = some Small.fresh := by
    rw [hj4, Function.update_of_ne (by decide), hj3, Function.update_of_ne (by decide)]
    exact h1
  obtain ⟨w5, m5, s5, -, n5, -⟩ := s4.append (c := Small.commit 3 5) h4 rfl .start
    (by rw [n4]; decide) (by decide)
  obtain ⟨-, p5⟩ := (Path.nil (J := write (appended (fun _ => 0) Cursor.start (Small.commit 1 5)) 0
    (putU64 0)) Cursor.start).appended (Small.size_le 3 5) (by decide)
  have i5 := s5.intact p5 (Small.not_linkedAt_appended (by decide)
    fun hh => Small.word_ne_after_cycle (by decide) hh.1)
    fun c hc => ⟨3, 5, List.mem_singleton.mp hc⟩
  have c5 : Action.Clean Small.chunkRefs w4 (.append 1 (Small.commit 3 5) w4.file) := by
    rintro j hj
    obtain rfl := Option.some.inj (h4.symm.trans hj)
    rw [s4.journal_eq]
    exact fun _ hm => absurd hm (Small.word_ne_after_cycle (by decide))
  have t : ∀ {w : World} {h : Nat} {c : Commit} {f : File}, w.handles h = some Small.fresh →
      Action.Tracks Small.chunkRefs w (.append h c f) := by
    intro w h c f hh j hj
    obtain rfl := Option.some.inj (hh.symm.trans hj)
    exact OnChain.start _
  have run : ReflTransGen (HandlesStep Small.chunkRefs) Small.world w5 :=
    .tail (.tail (.tail (.tail (.single ⟨_, m1, trivial, trivial, i1⟩)
      ⟨_, m2, trivial, trivial, i2⟩) ⟨_, m3, t h0, c3, i3⟩) ⟨_, m4, trivial, trivial, i4⟩)
      ⟨_, m5, t h4, c5, i5⟩
  exact ⟨w5, run, by rw [n5]; rfl,
    scan_newest_of_handles Small.chunkRefs_wf Small.world_initial run⟩

/-- **A second handle can lose a commit.**  Handles 0 and 1 open the empty journal; handle 0 commits
version 1, handle 1 commits version 2 over the same record, and handle 0 commits version 3 behind a
record that is no longer there.  Recovery ends at version 2. -/
theorem scan_loses_commit_of_second_handle :
    ∃ w, ReflTransGen (fun w w' => ∃ a, Step Small.chunkRefs w a w' ∧ w'.Intact Small.chunkRefs)
        Small.world w ∧ w.newest.version = 3 ∧
      ∃ r, scan Small.chunkRefs w.file w.header = .ok r ∧ r.version = 2 := by
  obtain ⟨w1, w2, m1, i1, m2, i2, s2, hh2, n2, h0, h1⟩ := Small.pair_open
  have small : ∀ {v n}, ∀ c ∈ [] ++ [Small.commit v n], ∃ v n, c = Small.commit v n :=
    fun c hc => ⟨_, _, List.mem_singleton.mp hc⟩
  -- version 1 by handle 0: six arrays, the record covers [0, 184)
  obtain ⟨w3, m3, s3, hh3, n3, hj3⟩ := s2.append (c := Small.commit 1 6) h0 rfl .start
    (by rw [n2]; decide) (by decide)
  obtain ⟨-, p3⟩ := (Path.nil (J := fun _ => 0) Cursor.start).appended (Small.size_le 1 6) (by decide)
  have i3 := s3.intact p3 (Small.not_linkedAt_appended (by decide) (Small.not_headerAt_zero _)) small
  obtain _ | ⟨l1, -⟩ := p3
  -- version 2 by handle 1: five arrays, [0, 168)
  obtain ⟨w4, m4, s4, hh4, n4, hj4⟩ := s3.append (h := 1) (j := Small.fresh) (c := Small.commit 2 5)
    (by rw [hj3, Function.update_of_ne (by decide)]; exact h1) rfl .start
    (by rw [n3]; decide) (by decide)
  obtain ⟨-, p4⟩ := (Path.nil (J := appended (fun _ => 0) Cursor.start (Small.commit 1 6))
    Cursor.start).appended (Small.size_le 2 5) (by decide)
  have i4 := s4.intact p4 (Small.not_linkedAt_appended (by decide) fun hh =>
    l1.record.not_headerAt_inside l1.range (q := 168) (by decide) (by decide) (by decide) hh) small
  -- version 3 by handle 0, at 184
  obtain ⟨w5, m5, s5, hh5, n5, -⟩ := s4.append (h := 0) (j := Small.advance Small.fresh
    (Small.commit 1 6)) (c := Small.commit 3 5)
    (by rw [hj4, Function.update_of_ne (by decide), hj3, Function.update_self]) rfl
    ⟨by decide, by decide, by decide, .inr (by decide)⟩ (by rw [n4]; decide) (by decide)
  have p5 := p4.congr fun x _ hx => (appended_outside (k := ⟨184, 0, 1⟩) (c := Small.commit 3 5)
    (by decide) (.inl (Nat.lt_trans hx (by decide)))).symm
  have hseq : word (appended (appended (appended (fun _ => 0) Cursor.start (Small.commit 1 6))
      Cursor.start (Small.commit 2 5)) ⟨184, 0, 1⟩ (Small.commit 3 5)) 168 = 1 := by
    have hw := l1.record.word_eq (i := 21) (RecordAt.footer_word (j := 1) rfl) (by decide)
    rw [word_congr fun x _ hx => appended_outside (by decide) (.inl (Nat.lt_of_lt_of_le hx (by decide))),
      word_congr fun x hx _ => appended_outside (by decide) (.inr (Nat.le_trans (by decide) hx))]
    exact hw
  have hstop : Stops (appended (appended (appended (fun _ => 0) Cursor.start (Small.commit 1 6))
      Cursor.start (Small.commit 2 5)) ⟨184, 0, 1⟩ (Small.commit 3 5))
      (Cursor.start.next (Small.commit 2 5)) := fun _ hm => absurd (hseq.symm.trans hm) (by decide)
  have i5 := s5.intact p5 hstop.not_linkedAt small
  refine ⟨w5, .tail (.tail (.tail (.tail (.single ⟨_, m1, i1⟩) ⟨_, m2, i2⟩) ⟨_, m3, i3⟩)
    ⟨_, m4, i4⟩) ⟨_, m5, i5⟩, by rw [n5]; rfl, ?_⟩
  have hJ := s5.journal_eq
  obtain ⟨r, hscan, htop, -⟩ := @scan_stops _ _ _ w5.header _ (hJ ▸ p5)
    (fun c hc => by obtain ⟨v, n, rfl⟩ := small c hc; exact s5.page.intact _ v n) (hJ ▸ hstop)
  refine ⟨r, hscan, ?_⟩
  have hv : r.version = r.top.version := rfl
  rw [hv, htop, hh5, hh4, hh3, hh2]
  decide

end Llbt.Journal
