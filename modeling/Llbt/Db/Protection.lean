import Llbt.Db.Session

/-!
# What a commit must not overwrite

Until the header moves, a crash takes the store back to the version the header selects and to the
journal records behind it.  Two things have to stay on disk for that:

* the nodes of the version the header selects.  `low_level_commit` passes the journal's checkpoint to
  `GroupWriter` for this purpose, but the journal learns of a new header on one of three paths only;
* the arrays listed by the records behind the header, which recovery checks one by one.  They belong
  to versions that may have become unreachable, and `backdate` does not know about the journal.

Results:

* `header_protected` — the header's version is passed to `GroupWriter` in every run in which a commit
  goes to the journal only while the journal's checkpoint is that version;
* `header_dropped` — it is lost two commits after `complete_async_commit`;
* `records_kept` — recorded arrays stay untouched as long as none of them is backdated;
* `record_overwritten` — a reader on an old version is enough to have one backdated.
-/

set_option autoImplicit false

namespace Llbt.Db

open Blocks FreeSpace

/-! ## A small store -/

namespace Small

/-- A commit in a file of the given size. -/
def commit (version : Nat) (kept freed : List Block) (words : List Nat) (unreachables : Bool)
    (fileSize commitSize : Nat) : Commit :=
  { FreeSpace.Small.commit version kept freed words with
    anyNewUnreachables := unreachables
    fileSize
    commitSize }

/-- `Store::open` on a new file: table names, tables, the sixteen chunks of the journal, their
descriptor and the registry. -/
def setup : Commit :=
  commit 2 [] [] ([0, 0] ++ List.replicate 16 524288 ++ [8, 2]) false 4096 67109112

def created : Committed :=
  (writeGroup FreeSpace.Small.cfg [emptyFile 1] (emptyFile 1) setup).get (by decide +kernel)

/-- All nodes but the registry. -/
def base : List Block := created.version.nodes.take 19

def opened : State :=
  { (emptyStore 1).finish (fun _ => true) created true false with
    journal := some (.atCheckpoint created.version) }

/-- A commit that replaces the registry `registry`, and the node behind it if there is one. -/
def update (version : Nat) (registry : List Block) (unreachables : Bool) : Commit :=
  commit version base registry [7, 2] unreachables 79704064 88

theorem created_commits : Commits FreeSpace.Small.cfg (emptyStore 1) (fun _ => true) (emptyFile 1)
    setup created :=
  ⟨rfl, rfl, .refl _, rfl, by decide, (Option.some_get _).symm⟩

theorem opened_reachable {P : State → Action → Prop}
    (hsetup : P (emptyStore 1) (.commit (fun _ => true) setup true false))
    (hopen : P ((emptyStore 1).finish (fun _ => true) created true false) .openJournal) :
    Reachable FreeSpace.Small.cfg P opened :=
  .step (.step (.empty 1) hsetup (.commit created_commits)) hopen (.openJournal rfl rfl)

/-- The commit of version 3, from the version the header selects. -/
def third : Committed :=
  (writeGroup FreeSpace.Small.cfg [created.version] created.version
    (update 3 [⟨112, 24⟩] false)).get (by decide +kernel)

/-- The commit of version 4; version 2 is the checkpoint. -/
def fourth : Committed :=
  (writeGroup FreeSpace.Small.cfg [created.version, third.version] third.version
    (update 4 third.written false)).get (by decide +kernel)

theorem third_commits : Commits FreeSpace.Small.cfg opened (· == 2) created.version
    (update 3 [⟨112, 24⟩] false) third :=
  ⟨rfl, rfl, by decide +kernel, rfl, by decide +kernel, (Option.some_get _).symm⟩

end Small

/-! ## The version the header selects -/

/-- The journal's checkpoint is the version the header selects, or that version is still locked. -/
def State.HeaderKept (db : State) (locked : Nat → Bool) : Prop :=
  (∃ j, db.journal = some j ∧ j.checkpoint = db.header) ∨
    (db.header ∈ db.active ∧ locked db.header.version = true)

theorem State.Inv.header_mem_topRefs_iff {cfg : Config} {db : State} (h : db.Inv cfg)
    (locked : Nat → Bool) : db.header ∈ db.topRefs locked ↔ db.HeaderKept locked := by
  constructor
  · intro hmem
    rcases State.mem_topRefs hmem with ⟨j, hj, heq⟩ | hmem
    · exact .inl ⟨j, hj, heq.symm⟩
    · exact .inr hmem
  · unfold State.topRefs State.withCheckpoint
    rintro (⟨j, hj, heq⟩ | hmem)
    · rw [hj, ← heq]
      exact self_mem_emplaceVersion fun w hw =>
        h.checkpoint_eq j hj w (List.mem_of_mem_filter hw)
    · have hfilter : db.header ∈ db.active.filter fun v => locked v.version :=
        List.mem_filter.mpr hmem
      split
      · exact hfilter
      · exact mem_emplaceVersion_of_mem hfilter

/-! ## Sessions -/

/-- A handle and the version that its transaction keeps locked for the commits that are not on disk yet,
`m_oldest_version_not_persisted`. -/
structure Session where
  db : State
  notPersisted : Option Version

/-- The version kept is locked when a commit purges the version list. -/
def Session.Keeps (s : Session) (locked : Nat → Bool) : Prop :=
  ∀ v, s.notPersisted = some v → locked v.version = true

/-- `commit_and_continue_as_read`: a commit that stays off the disk keeps the version it replaces, unless
an older one is kept already; a commit to disk and `complete_async_commit` release it. -/
def Session.keptAfter (s : Session) : Action → Option Version
  | .openJournal => s.notPersisted
  | .commit _ _ true _ => none
  | .commit _ _ false _ => s.notPersisted <|> s.db.active.getLast?
  | .completeAsync => none

/-- The sessions of all runs whose steps meet `P`. -/
inductive Session.Runs (cfg : Config) (P : State → Action → Prop) : Session → Prop where
  | empty (version : Nat) : Runs cfg P ⟨emptyStore version, none⟩
  | step {s : Session} {db' : State} {a : Action} (hrun : Runs cfg P s)
      (hkeeps : ∀ locked c toDisk resetFails, a = .commit locked c toDisk resetFails → s.Keeps locked)
      (hP : P s.db a) (hstep : Step cfg s.db a db') : Runs cfg P ⟨db', s.keptAfter a⟩

/-- The changed arrays alone make the journal ask for a checkpoint. -/
def JournalFields.Due (j : JournalFields) (c : Commit) : Prop :=
  j.needsCheckpoint (c.writes.map (Block.mk 0)) = true

/-- A commit goes to the journal only while the journal's checkpoint is the version the header selects. -/
def State.Tracks (db : State) : Action → Prop
  | .commit _ c true _ => ∀ j, db.journal = some j → j.checkpoint = db.header ∨ j.Due c
  | _ => True

/-- Why the version the header selects survives the next purge: it is the checkpoint, it is the newest, or
the session keeps it. -/
def Session.Protected (s : Session) : Prop :=
  (∃ j, s.db.journal = some j ∧ j.checkpoint = s.db.header) ∨
    (s.db.active.getLast? = some s.db.header ∧ s.notPersisted = none) ∨
    (s.notPersisted = some s.db.header ∧ s.db.header ∈ s.db.active)

section Sessions

variable {cfg : Config} {P : State → Action → Prop} {s : Session} {locked : Nat → Bool}
  {replaced : Version} {c : Commit} {r : Committed}

theorem Session.Runs.reachable (h : s.Runs cfg P) : Reachable cfg P s.db := by
  induction h with
  | empty version => exact .empty version
  | step _ _ hP hstep ih => exact .step ih hP hstep

theorem sizes_writeArrays {commitSize fuel : Nat} : ∀ {sizes : List Nat} {w w' : Writer} {bs : List Block},
    writeArrays cfg commitSize fuel sizes w = some (w', bs) → bs.map Block.size = sizes
  | [], w, _, _, h => by
    cases h
    rfl
  | size :: sizes, w, w', bs, h => by
    unfold writeArrays at h
    split at h
    · cases h
    rename_i w₁ b hfree
    split at h
    · cases h
    rename_i w₂ bs' hrest
    cases h
    unfold getFreeSpace at hfree
    split at hfree
    · cases hfree
    cases hfree
    rw [List.map_cons, sizes_writeArrays hrest]

theorem JournalFields.Due.needsCheckpoint {j : JournalFields} {live : List Version} (hdue : j.Due c)
    (h : writeGroup cfg live replaced c = some r) : j.needsCheckpoint (allocated r) = true := by
  obtain ⟨w₁, tree, w₂, evac, point, freed, w₃, reserve, h₁, -, -, -, hwritten, -⟩ := writeGroup_cases h
  have hsizes := sizes_writeArrays h₁
  have hlength : tree.length = c.writes.length := by rw [← hsizes, List.length_map]
  have hmap : (c.writes.map (Block.mk 0)).map Block.size = c.writes := by
    rw [List.map_map]
    exact List.map_id _
  unfold JournalFields.Due at hdue
  simp only [JournalFields.needsCheckpoint, Journal.CommitJournal.needsCheckpoint, decide_eq_true_eq, hmap,
    List.length_map, Journal.requiredSize_eq] at hdue ⊢
  simp only [allocated, hwritten, List.map_append, List.sum_append, List.length_append, hsizes, hlength]
  omega

theorem Session.Protected.kept (hs : s.Protected) (hkeeps : s.Keeps locked)
    (h : Commits cfg s.db locked replaced c r) : s.db.HeaderKept locked := by
  rcases hs with hcheck | ⟨hlast, -⟩ | ⟨hkept, hmem⟩
  · exact .inl hcheck
  · obtain rfl := Option.some.inj (hlast.symm.trans h.newest)
    exact .inr ⟨List.mem_of_getLast? hlast, h.newest_locked⟩
  · exact .inr ⟨hmem, hkeeps _ hkept⟩

theorem State.mem_activeAfter {db : State} {v : Version} (hmem : v ∈ db.active) (hlocked : locked v.version = true) :
    v ∈ db.activeAfter locked r :=
  List.mem_append_left _ (List.mem_filter.mpr ⟨hmem, hlocked⟩)

theorem Session.Protected.async {resetFails : Bool} (hs : s.Protected) (hkeeps : s.Keeps locked)
    (h : Commits cfg s.db locked replaced c r) :
    Session.Protected ⟨s.db.finish locked r false resetFails, s.keptAfter (.commit locked c false resetFails)⟩ := by
  rcases hs with hcheck | ⟨hlast, hnone⟩ | ⟨hkept, hmem⟩
  · exact .inl hcheck
  · obtain rfl := Option.some.inj (hlast.symm.trans h.newest)
    refine .inr (.inr ⟨?_, State.mem_activeAfter (List.mem_of_getLast? hlast) h.newest_locked⟩)
    simp [Session.keptAfter, hnone, hlast, State.finish]
  · refine .inr (.inr ⟨?_, State.mem_activeAfter hmem (hkeeps _ hkept)⟩)
    simp [Session.keptAfter, hkept, State.finish]

/-- A commit to disk: it is appended behind the checkpoint that the header selects, or the header moves to
it. -/
theorem Session.Protected.toDisk {resetFails : Bool} (hs : s.db.Tracks (.commit locked c true resetFails))
    (h : Commits cfg s.db locked replaced c r) :
    Session.Protected ⟨s.db.finish locked r true resetFails, none⟩ := by
  have hnewest : (s.db.activeAfter locked r).getLast? = some r.version := by simp [State.activeAfter]
  unfold State.finish
  cases hj : s.db.journal with
  | none => exact .inr (.inl ⟨hnewest, rfl⟩)
  | some j =>
    dsimp only
    split
    · split
      · exact .inr (.inl ⟨hnewest, rfl⟩)
      · exact .inl ⟨_, rfl, rfl⟩
    · rename_i happend
      rcases hs j hj with hcheck | hdue
      · exact .inl ⟨_, rfl, hcheck⟩
      · exact absurd (hdue.needsCheckpoint h.result) happend

theorem Session.Runs.protected (h : s.Runs cfg State.Tracks) : s.Protected := by
  induction h with
  | empty version => exact .inr (.inl ⟨rfl, rfl⟩)
  | step _ hkeeps htracks hstep ih =>
    cases hstep with
    | openJournal => exact .inl ⟨_, rfl, rfl⟩
    | completeAsync hlast => exact .inr (.inl ⟨hlast, rfl⟩)
    | @commit locked replaced c r toDisk resetFails h =>
      cases toDisk with
      | false => exact ih.async (hkeeps _ _ _ _ rfl) h
      | true => exact .toDisk htracks h

/-- **The version the header selects is protected.**  In every run that mixes journaled commits, checkpoints
whose journal reset may fail and asynchronous commits, and in which a commit goes to the journal only while
the journal's checkpoint is the version the header selects: at every commit that version is passed to
`GroupWriter`, and the commit writes over none of its nodes. -/
theorem header_protected (hrun : s.Runs cfg State.Tracks) (hkeeps : s.Keeps locked)
    (h : Commits cfg s.db locked replaced c r) :
    s.db.header ∈ s.db.topRefs locked ∧
      ∀ b ∈ allocated r, ∀ node ∈ s.db.header.reachable, b.Apart node := by
  have hinv := hrun.reachable.inv
  have hmem := (hinv.header_mem_topRefs_iff locked).mpr (hrun.protected.kept hkeeps h)
  obtain ⟨hsub, hasc, hlast⟩ := hinv.topRefs h.newest h.newest_locked
  exact ⟨hmem, fun b hb node hnode => (h.effect hinv).apart (hinv.space.snapshots.mono hsub hasc) hlast
    (fun w hw => hinv.space.wf w (hsub w hw)) b hb s.db.header hmem node hnode⟩

end Sessions

namespace Small

/-- Version 3 was left to `complete_async_commit`, which has published it. -/
def published : State :=
  { opened.finish (· == 2) third false false with header := third.version }

theorem published_runs {P : State → Action → Prop}
    (hsetup : P (emptyStore 1) (.commit (fun _ => true) setup true false))
    (hopen : P ((emptyStore 1).finish (fun _ => true) created true false) .openJournal)
    (hthird : P opened (.commit (· == 2) (update 3 [⟨112, 24⟩] false) false false))
    (hcomplete : P (opened.finish (· == 2) third false false) .completeAsync) :
    Session.Runs FreeSpace.Small.cfg P ⟨published, none⟩ := by
  have hcreated : Session.Runs FreeSpace.Small.cfg P
      ⟨(emptyStore 1).finish (fun _ => true) created true false, none⟩ :=
    .step (.empty 1) (fun _ _ _ _ _ v hv => by cases hv) hsetup (.commit created_commits)
  have hopened : Session.Runs FreeSpace.Small.cfg P ⟨opened, none⟩ :=
    .step hcreated (fun _ _ _ _ h => by cases h) hopen (.openJournal rfl rfl)
  have hasync := Session.Runs.step hopened (fun _ _ _ _ _ v hv => by cases hv) hthird (.commit third_commits)
  exact .step hasync (fun _ _ _ _ h => by cases h) hcomplete (.completeAsync rfl)

theorem fourth_published : Commits FreeSpace.Small.cfg published (· == 3) third.version
    (update 4 third.written false) fourth :=
  ⟨rfl, rfl, by decide +kernel, rfl, by decide +kernel, (Option.some_get _).symm⟩

/-- Version 4 stays off the disk as well. -/
def pending : State := published.finish (· == 3) fourth false false

/-- The commit of version 5 while version 3 is kept. -/
def fifthKept : Committed :=
  (writeGroup FreeSpace.Small.cfg [created.version, third.version, fourth.version] fourth.version
    (update 5 fourth.written false)).get (by decide +kernel)

/-- Then version 4 was appended to the journal. -/
def behind : State := published.finish (· == 3) fourth true false

/-- The commit of version 5, when nothing locks version 3 any more. -/
def fifthAsync : Committed :=
  (writeGroup FreeSpace.Small.cfg [created.version, fourth.version] fourth.version
    (update 5 fourth.written false)).get (by decide +kernel)

end Small

/-- The journal's checkpoint is version 2, the header selects version 3, and version 4 is not on disk. -/
theorem header_protected_pending : Small.pending.header = Small.third.version ∧
    Small.pending.header ∈ Small.pending.topRefs (fun v => v == 3 || v == 4) ∧
      ∀ b ∈ allocated Small.fifthKept, ∀ node ∈ Small.pending.header.reachable, b.Apart node := by
  have hrun := Small.published_runs (P := State.Tracks) (fun j hj => by cases hj) trivial trivial trivial
  have hpending := Session.Runs.step hrun (fun _ _ _ _ _ v hv => by cases hv)
    (a := .commit (· == 3) (Small.update 4 Small.third.written false) false false) trivial
    (.commit Small.fourth_published)
  refine ⟨rfl, header_protected hpending (fun v hv => ?_)
    ⟨rfl, rfl, by decide +kernel, rfl, by decide +kernel, (Option.some_get _).symm⟩⟩
  obtain rfl : Small.third.version = v := Option.some.inj hv
  rfl

/-- **Two commits after `complete_async_commit` the header's version is dropped**: the journal's
checkpoint is still version 2, the header selects version 3, and `GroupWriter` is told to keep
versions 2 and 4. -/
theorem header_dropped :
    Session.Runs FreeSpace.Small.cfg (fun _ _ => True) ⟨Small.behind, none⟩ ∧
      Commits FreeSpace.Small.cfg Small.behind (· == 4) Small.fourth.version
        (Small.update 5 Small.fourth.written false) Small.fifthAsync ∧
      Small.behind.header ∉ Small.behind.topRefs (· == 4) := by
  have hrun := Small.published_runs (P := fun _ _ => True) trivial trivial trivial trivial
  have hbehind := Session.Runs.step hrun (fun _ _ _ _ _ v hv => by cases hv)
    (a := .commit (· == 3) (Small.update 4 Small.third.written false) true false) trivial
    (.commit Small.fourth_published)
  refine ⟨hbehind, ⟨rfl, rfl, ?_, rfl, ?_, (Option.some_get _).symm⟩, ?_⟩
  · decide +kernel
  · decide +kernel
  · decide +kernel

/-! ## The arrays behind the header -/

/-- The address lies in an array that a record newer than the header lists. -/
def State.Recorded (db : State) (x : Nat) : Prop :=
  ∃ rec ∈ db.records, db.header.version < rec.version ∧ ∃ a ∈ rec.arrays, a.Has x

/-- Journaled commits and checkpoints of a run in which nothing fails. -/
def Action.Durable : Action → Prop
  | .openJournal => True
  | .commit _ _ toDisk resetFails => toDisk = true ∧ resetFails = false
  | .completeAsync => False

/-- When the commit backdates, no locked free block with a recorded address is covered by the free
list of the youngest reachable version older than the block's stamp. -/
def State.SparesRecords (db : State) : Action → Prop
  | .commit locked c _ _ => c.anyNewUnreachables = true →
      ∀ newest, db.active.getLast? = some newest → ∀ e ∈ newest.free,
        oldestReachable (db.topRefs locked) < e.releasedAt →
        (∃ x, e.block.Has x ∧ db.Recorded x) →
        ∀ earlier, getEarlier (db.topRefs locked) e.releasedAt = some earlier →
          findCover e earlier = none
  | _ => True

/-- Recorded addresses are in use in the newest version, or locked by a stamp behind the header. -/
structure State.RecordsKept (db : State) : Prop where
  checkpoint : ∀ j, db.journal = some j → j.checkpoint = db.header
  no_journal : db.journal = none → db.active.getLast? = some db.header ∧ db.records = []
  size_pos : ∀ rec ∈ db.records, ∀ a ∈ rec.arrays, 0 < a.size
  kept : ∀ newest, db.active.getLast? = some newest → ∀ x, db.Recorded x →
    0 < cover newest.used x ∨ ∃ e ∈ newest.free, e.block.Has x ∧ db.header.version < e.releasedAt

theorem backdateSingleEntry_eq {live : List Version} {oldest current : Nat} {e : Entry}
    (h : ∀ earlier, getEarlier live e.releasedAt = some earlier → findCover e earlier = none) :
    backdateSingleEntry live oldest current e = e := by
  unfold backdateSingleEntry
  split
  · rfl
  cases live.length with
  | zero => rfl
  | succ fuel =>
    unfold backdateLoop
    split
    · rfl
    split
    · rfl
    split
    · rfl
    · rename_i earlier hearlier
      rw [h earlier hearlier]

theorem eq_of_has : ∀ {es : List Entry}, Ordered es → ∀ {a b : Entry} {x : Nat}, a ∈ es → b ∈ es →
    a.block.Has x → b.block.Has x → a = b
  | e :: es, h, a, b, x, ha, hb, hax, hbx => by
    obtain ⟨he, hes⟩ := List.pairwise_cons.mp h
    have hlt := hax.2
    have hlt' := hbx.2
    have hge := hax.1
    have hge' := hbx.1
    simp only [Entry.block] at hlt hlt' hge hge'
    rcases List.mem_cons.mp ha with ha | ha <;> rcases List.mem_cons.mp hb with hb | hb
    · rw [ha, hb]
    · have := he b hb
      rw [← ha] at this
      omega
    · have := he a ha
      rw [← hb] at this
      omega
    · exact eq_of_has hes ha hb hax hbx

section Records

variable {cfg : Config} {db : State} {locked : Nat → Bool} {replaced : Version} {c : Commit}
  {r : Committed}

theorem State.RecordsKept.oldest_le (hk : db.RecordsKept) (hinv : db.Inv cfg)
    (h : Commits cfg db locked replaced c r) :
    oldestReachable (db.topRefs locked) ≤ db.header.version := by
  obtain ⟨-, hasc, -⟩ := hinv.topRefs h.newest h.newest_locked
  refine oldestReachable_le hasc db.header ((hinv.header_mem_topRefs_iff locked).mpr ?_)
  cases hj : db.journal with
  | some j => exact .inl ⟨j, hj, hk.checkpoint j hj⟩
  | none =>
    have hlast := (hk.no_journal hj).1
    obtain rfl := Option.some.inj (hlast.symm.trans h.newest)
    exact .inr ⟨List.mem_of_getLast? hlast, h.newest_locked⟩

/-- **One commit keeps recorded addresses in use or locked**, those it records itself included. -/
theorem State.RecordsKept.commit {toDisk resetFails : Bool} (hk : db.RecordsKept)
    (hinv : db.Inv cfg) (h : Commits cfg db locked replaced c r)
    (hspare : db.SparesRecords (.commit locked c toDisk resetFails)) {x : Nat}
    (hx : db.Recorded x ∨ 0 < cover (allocated r) x) :
    0 < cover r.version.used x ∨
      ∃ e ∈ r.version.free, e.block.Has x ∧ db.header.version < e.releasedAt := by
  have heffect := h.effect hinv
  obtain ⟨-, hhead, -, -⟩ := h.newer hinv
  have hversion := h.version_eq
  have hreleased : 0 < cover replaced.used x + cover (allocated r) x →
      0 < cover r.version.used x ∨
        ∃ e ∈ r.version.free, e.block.Has x ∧ db.header.version < e.releasedAt := by
    intro hpos
    refine (heffect.released x hpos).imp id ?_
    rintro ⟨e, he, hex, hstamp⟩
    exact ⟨e, he, hex, by omega⟩
  rcases hx with hrec | hnew
  · rcases hk.kept replaced h.newest x hrec with hused | ⟨e, he, hex, hstamp⟩
    · exact hreleased (by omega)
    · have hold := hk.oldest_le hinv h
      refine .inr ⟨e, heffect.locked e he (by omega) (by omega) ?_, hex, hstamp⟩
      cases hany : c.anyNewUnreachables with
      | false => exact .inl rfl
      | true => exact .inr (backdateSingleEntry_eq
          (hspare hany replaced h.newest e he (by omega) ⟨x, hex, hrec⟩))
  · exact hreleased (by omega)

theorem Step.recordsKept {db' : State} {a : Action} (h : Step cfg db a db') (hinv : db.Inv cfg)
    (hk : db.RecordsKept) (hdur : a.Durable) (hspare : db.SparesRecords a) : db'.RecordsKept := by
  cases h with
  | openJournal hnone hheader =>
    obtain ⟨hlast, hrecords⟩ := hk.no_journal hnone
    refine ⟨?_, fun h => (by cases h), hk.size_pos, hk.kept⟩
    rintro j ⟨⟩
    rfl
  | @commit locked replaced c r toDisk resetFails h =>
    obtain ⟨rfl, rfl⟩ := hdur
    unfold State.finish
    cases hj : db.journal with
    | none =>
      obtain ⟨hlast, hrecords⟩ := hk.no_journal hj
      dsimp only
      refine ⟨fun j h => (by cases h), fun _ => ⟨by simp [State.activeAfter], hrecords⟩,
        hk.size_pos, ?_⟩
      · rintro newest - x ⟨rec, hrec, -⟩
        rw [show db.records = [] from hrecords] at hrec
        cases hrec
    | some j =>
      dsimp only
      split
      · rw [if_neg Bool.false_ne_true]
        refine ⟨?_, fun h => (by cases h), by simp, ?_⟩
        · rintro j' ⟨⟩
          rfl
        · rintro newest - x ⟨rec, hrec, -⟩
          cases hrec
      · refine ⟨?_, fun h => (by cases h), ?_, ?_⟩
        · rintro j' ⟨⟩
          exact hk.checkpoint j hj
        · intro rec hrec
          rcases List.mem_append.mp hrec with hrec | hrec
          · exact hk.size_pos rec hrec
          · rw [List.mem_singleton.mp hrec]
            exact (h.effect hinv).size_pos
        · intro newest hnewest x hx
          obtain rfl : r.version = newest := by simpa [State.activeAfter] using hnewest
          refine hk.commit hinv h hspare ?_
          obtain ⟨rec, hrec, hlt, a, ha, hax⟩ := hx
          rcases List.mem_append.mp hrec with hrec | hrec
          · exact .inl ⟨rec, hrec, hlt, a, ha, hax⟩
          · rw [List.mem_singleton.mp hrec] at ha
            exact .inr (cover_pos_iff.mpr ⟨a, ha, hax⟩)
  | completeAsync h => exact absurd hdur id

theorem Reachable.recordsKept
    (h : Reachable cfg (fun db a => a.Durable ∧ db.SparesRecords a) db) : db.RecordsKept := by
  induction h with
  | empty version =>
    refine ⟨fun j h => (by cases h), fun _ => ⟨rfl, rfl⟩, by simp [emptyStore], ?_⟩
    rintro newest - x ⟨rec, hrec, -⟩
    cases hrec
  | step hrun hP hstep ih => exact hstep.recordsKept hrun.inv ih hP.1 hP.2

theorem State.RecordsKept.apart (hk : db.RecordsKept) (hinv : db.Inv cfg)
    (h : Commits cfg db locked replaced c r) :
    ∀ b ∈ allocated r, ∀ rec ∈ db.records, db.header.version < rec.version →
      ∀ a ∈ rec.arrays, b.Apart a := by
  have heffect := h.effect hinv
  have hwf := hinv.space.wf replaced (State.mem_live_of_active (List.mem_of_getLast? h.newest))
  have hold := hk.oldest_le hinv h
  intro b hb rec hrec hlt a ha
  rw [Block.apart_iff (heffect.size_pos b hb) (hk.size_pos rec hrec a ha)]
  rintro x ⟨hbx, hax⟩
  have hfresh := heffect.fresh x (cover_pos_iff.mpr ⟨b, hb, hbx⟩)
  rcases hk.kept replaced h.newest x ⟨rec, hrec, hlt, a, ha, hax⟩ with hused | ⟨e, he, hex, hstamp⟩
  · rcases hfresh with ⟨f, hf, -, hfx⟩ | hbeyond
    · have := hwf.unused hf hfx
      omega
    · have := hwf.unused_beyond hbeyond
      omega
  · rcases hfresh with ⟨f, hf, hle, hfx⟩ | hbeyond
    · obtain rfl := eq_of_has hwf.ordered hf he hfx hex
      omega
    · have htiles := hwf.tiles x
      have hpos := cover_pos_iff.mpr ⟨_, List.mem_map_of_mem (f := Entry.block) he, hex⟩
      rw [cover_append, if_neg (by omega)] at htiles
      omega

/-- **Recorded arrays stay untouched as long as none of them is backdated.**  In every run of
journaled commits and checkpoints in which no commit backdates recorded space, no commit writes over
an array that a record newer than the header lists. -/
theorem records_kept (hrun : Reachable cfg (fun db a => a.Durable ∧ db.SparesRecords a) db)
    (h : Commits cfg db locked replaced c r) :
    ∀ b ∈ allocated r, ∀ rec ∈ db.records, db.header.version < rec.version →
      ∀ a ∈ rec.arrays, b.Apart a :=
  hrun.recordsKept.apart hrun.inv h

end Records

namespace Small

/-- Version 3 was appended to the journal while a reader holds version 2. -/
def one : State := opened.finish (· == 2) third true false

/-- Version 4 was appended; version 3 is still locked by the transaction. -/
def two : State := one.finish (fun v => v == 2 || v == 3) fourth true false

/-- The commit of version 5 finds version 3 unlocked and backdates. -/
def fifth : Committed :=
  (writeGroup FreeSpace.Small.cfg [created.version, fourth.version] fourth.version
    (update 5 fourth.written true)).get (by decide +kernel)

def three : State := two.finish (fun v => v == 2 || v == 4) fifth true false

def sixth : Committed :=
  (writeGroup FreeSpace.Small.cfg [created.version, fifth.version] fifth.version
    (update 6 fifth.written true)).get (by decide +kernel)

theorem fourth_commits : Commits FreeSpace.Small.cfg one (fun v => v == 2 || v == 3) third.version
    (update 4 third.written false) fourth :=
  ⟨rfl, rfl, by decide +kernel, rfl, by decide +kernel, (Option.some_get _).symm⟩

theorem fifth_commits : Commits FreeSpace.Small.cfg two (fun v => v == 2 || v == 4) fourth.version
    (update 5 fourth.written true) fifth :=
  ⟨rfl, rfl, by decide +kernel, rfl, by decide +kernel, (Option.some_get _).symm⟩

end Small

namespace Small

/-- Version 3 is the checkpoint, and a reader holds version 2. -/
def late : State :=
  { ((emptyStore 1).finish (fun _ => true) created true false).finish (· == 2) third true false with
    journal := some (.atCheckpoint third.version) }

def lateOne : State := late.finish (fun v => v == 2 || v == 3) fourth true false

/-- The commit of version 5 finds version 3 unlocked; the checkpoint keeps it. -/
def lateFifth : Committed :=
  (writeGroup FreeSpace.Small.cfg [created.version, third.version, fourth.version] fourth.version
    (update 5 fourth.written true)).get (by decide +kernel)

def lateTwo : State := lateOne.finish (fun v => v == 2 || v == 4) lateFifth true false

def lateSixth : Committed :=
  (writeGroup FreeSpace.Small.cfg [created.version, third.version, lateFifth.version] lateFifth.version
    (update 6 lateFifth.written true)).get (by decide +kernel)

/-- The one record lists arrays of version 4, none of them free in it. -/
theorem lateOne_spares {c : Commit} :
    lateOne.SparesRecords (.commit (fun v => v == 2 || v == 4) c true false) := by
  rintro - newest hnewest e he - ⟨x, hex, rec, hrec, -, a, ha, hax⟩
  obtain rfl : fourth.version = newest := Option.some.inj hnewest
  obtain rfl := List.mem_singleton.mp (show rec ∈ [⟨4, allocated fourth⟩] from hrec)
  have hapart : ∀ e ∈ fourth.version.free, ∀ a ∈ allocated fourth, e.block.Apart a := by decide +kernel
  have := hapart e he a ha
  simp only [Block.Apart, Block.finish, Block.Has] at this hex hax
  omega

theorem lateTwo_reachable :
    Reachable FreeSpace.Small.cfg (fun db a => a.Durable ∧ db.SparesRecords a) lateTwo := by
  have hthird : Commits FreeSpace.Small.cfg ((emptyStore 1).finish (fun _ => true) created true false) (· == 2)
      created.version (update 3 [⟨112, 24⟩] false) third :=
    ⟨rfl, rfl, by decide +kernel, rfl, by decide +kernel, (Option.some_get _).symm⟩
  have hfourth : Commits FreeSpace.Small.cfg late (fun v => v == 2 || v == 3) third.version
      (update 4 third.written false) fourth :=
    ⟨rfl, rfl, by decide +kernel, rfl, by decide +kernel, (Option.some_get _).symm⟩
  have hfifth : Commits FreeSpace.Small.cfg lateOne (fun v => v == 2 || v == 4) fourth.version
      (update 5 fourth.written true) lateFifth :=
    ⟨rfl, rfl, by decide +kernel, rfl, by decide +kernel, (Option.some_get _).symm⟩
  have hrun : Reachable FreeSpace.Small.cfg (fun db a => a.Durable ∧ db.SparesRecords a) _ :=
    .step (a := .commit _ _ true false) (.step (a := .commit _ _ true false) (.empty 1)
      ⟨⟨rfl, rfl⟩, fun h => absurd h (by decide)⟩ (.commit created_commits))
    ⟨⟨rfl, rfl⟩, fun h => absurd h (by decide)⟩ (.commit hthird)
  have hlate : Reachable FreeSpace.Small.cfg _ late :=
    hrun.step (a := .openJournal) ⟨trivial, trivial⟩ (.openJournal rfl rfl)
  have hone : Reachable FreeSpace.Small.cfg _ lateOne :=
    .step (a := .commit _ _ true false) hlate ⟨⟨rfl, rfl⟩, fun h => absurd h (by decide)⟩ (.commit hfourth)
  exact .step (a := .commit _ _ true false) hone ⟨⟨rfl, rfl⟩, lateOne_spares⟩ (.commit hfifth)

end Small

/-- The commit of version 5 backdates, and that of version 6 spares the records of versions 4 and 5. -/
theorem records_kept_late :
    Small.lateTwo.records = [⟨4, allocated Small.fourth⟩, ⟨5, allocated Small.lateFifth⟩] ∧
      ∀ b ∈ allocated Small.lateSixth, ∀ rec ∈ Small.lateTwo.records,
        Small.lateTwo.header.version < rec.version → ∀ a ∈ rec.arrays, b.Apart a := by
  have hsixth : Commits FreeSpace.Small.cfg Small.lateTwo (fun v => v == 2 || v == 5) Small.lateFifth.version
      (Small.update 6 Small.lateFifth.written true) Small.lateSixth :=
    ⟨rfl, rfl, by decide +kernel, rfl, by decide +kernel, (Option.some_get _).symm⟩
  exact ⟨by decide +kernel, records_kept Small.lateTwo_reachable hsixth⟩

/-- **A reader on an old version is enough to have recorded space overwritten.**  With version 2 as
checkpoint and locked by a reader, the arrays of version 3 are freed in version 4, backdated in
version 5, because the free list of version 2 covers them, and written over in version 6; the record
of version 3 is still in the journal. -/
theorem record_overwritten :
    Reachable FreeSpace.Small.cfg (fun _ a => a.Durable) Small.three ∧
      Commits FreeSpace.Small.cfg Small.three (fun v => v == 2 || v == 5) Small.fifth.version
        (Small.update 6 Small.fifth.written true) Small.sixth ∧
      ∃ b ∈ allocated Small.sixth, ∃ rec ∈ Small.three.records,
        Small.three.header.version < rec.version ∧ ∃ a ∈ rec.arrays, ¬ b.Apart a := by
  have hone : Reachable FreeSpace.Small.cfg (fun _ a => a.Durable) Small.one :=
    .step (a := .commit _ _ true false) (Small.opened_reachable ⟨rfl, rfl⟩ trivial) ⟨rfl, rfl⟩
      (.commit Small.third_commits)
  have htwo : Reachable FreeSpace.Small.cfg (fun _ a => a.Durable) Small.two :=
    .step (a := .commit _ _ true false) hone ⟨rfl, rfl⟩ (.commit Small.fourth_commits)
  have hthree : Reachable FreeSpace.Small.cfg (fun _ a => a.Durable) Small.three :=
    .step (a := .commit _ _ true false) htwo ⟨rfl, rfl⟩ (.commit Small.fifth_commits)
  refine ⟨hthree, ⟨rfl, rfl, ?_, rfl, ?_, (Option.some_get _).symm⟩, ?_⟩
  · decide +kernel
  · decide +kernel
  · decide +kernel

end Llbt.Db
