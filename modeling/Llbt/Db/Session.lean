import Llbt.FreeSpace.History
import Llbt.Journal.Append

/-!
# Commits of one handle

Embedding of `DB::low_level_commit` and of what it works on: the version list with its readers, the
top that the file header selects, the fields of `CommitJournal` and the records in the journal.

A commit purges the version list, adds the journal's checkpoint to the versions `GroupWriter` must
not overwrite, and ends in one of four ways: it is appended to the journal, it publishes a new header
and resets the journal, it publishes a header because there is no journal, or it is left to
`complete_async_commit`.  A reset that fails is swallowed.

* `Commits.effect`, `Step.inv` — the free space invariant holds through all of these;
* `Reachable.inv` — in every run.
-/

set_option autoImplicit false

namespace Llbt.Db

open Blocks FreeSpace

/-! ## The version list -/

/-- `VersionList::purge_versions`: the versions still locked, and whether one that becomes
unreachable is younger than the oldest of them.  `locked` are the versions with a live or frozen
reader, and all from the oldest fully locked one on. -/
def purgeVersions (active : List Version) (locked : Nat → Bool) : List Version × Bool :=
  let topRefs := active.filter fun v => locked v.version
  (topRefs, active.any fun v => !locked v.version && decide (v.version > oldestReachable topRefs))

/-- `top_refs.emplace`, in the map ordered by version. -/
def emplaceVersion (v : Version) : List Version → List Version
  | [] => [v]
  | w :: ws =>
    if v.version < w.version then v :: w :: ws
    else if v.version = w.version then w :: ws
    else w :: emplaceVersion v ws

/-! ## The state of a store -/

/-- The fields of `CommitJournal` that a commit reads.  `checkpoint` stands for the checkpoint's top
ref, version and logical size. -/
structure JournalFields where
  checkpoint : Version
  tail : Nat
  commits : Nat
  cowBytes : Nat
  deriving DecidableEq, Repr

/-- A record in the journal: the version it belongs to and the arrays it lists. -/
structure Record where
  version : Nat
  arrays : List Block
  deriving DecidableEq, Repr

/-- `active` is the version list, `header` the version whose top the file header selects. -/
structure State where
  active : List Version
  header : Version
  journal : Option JournalFields
  records : List Record
  deriving DecidableEq, Repr

/-- `CommitJournal::open_at_checkpoint` on a journal without records. -/
def JournalFields.atCheckpoint (v : Version) : JournalFields := ⟨v, 0, 0, 0⟩

/-- `CommitJournal::needs_checkpoint` for a commit that wrote the given arrays. -/
def JournalFields.needsCheckpoint (j : JournalFields) (arrays : List Block) : Bool :=
  Journal.CommitJournal.needsCheckpoint
    { chunks := [], tail := j.tail, commitsSinceCheckpoint := j.commits,
      cowBytesSinceCheckpoint := j.cowBytes }
    (Journal.requiredSize arrays.length) (arrays.map Block.size).sum

def JournalFields.append (j : JournalFields) (arrays : List Block) : JournalFields :=
  { j with
    tail := j.tail + Journal.requiredSize arrays.length
    commits := j.commits + 1
    cowBytes := j.cowBytes + (arrays.map Block.size).sum }

/-- The checkpoint joins the given versions. -/
def State.withCheckpoint (db : State) (versions : List Version) : List Version :=
  match db.journal with
  | none => versions
  | some j => emplaceVersion j.checkpoint versions

/-- `top_refs` as it is passed to `GroupWriter`. -/
def State.topRefs (db : State) (locked : Nat → Bool) : List Version :=
  db.withCheckpoint (purgeVersions db.active locked).1

/-- All versions that a later commit may still have to keep. -/
def State.live (db : State) : List Version := db.withCheckpoint db.active

/-- The arrays a commit lists in its journal record. -/
def allocated (r : Committed) : List Block := r.written ++ r.version.arrays

/-- The part of `low_level_commit` up to the end of `write_group`.  The replaced version is locked by
the write transaction itself. -/
structure Commits (cfg : Config) (db : State) (locked : Nat → Bool) (replaced : Version) (c : Commit)
    (r : Committed) : Prop where
  newest : db.active.getLast? = some replaced
  newest_locked : locked replaced.version = true
  nodes : replaced.nodes.Perm (c.kept ++ c.freed ++ c.lost)
  version_eq : c.version = replaced.version + 1
  unreachables : c.anyNewUnreachables = (purgeVersions db.active locked).2
  result : writeGroup cfg (db.topRefs locked) replaced c = some r

/-- A step of the handle.  A commit may be left to `complete_async_commit` (`toDisk` false), and the
journal reset that follows a checkpoint may fail. -/
inductive Action where
  | openJournal
  | commit (locked : Nat → Bool) (c : Commit) (toDisk resetFails : Bool)
  | completeAsync

/-- The version list after a commit. -/
def State.activeAfter (db : State) (locked : Nat → Bool) (r : Committed) : List Version :=
  (purgeVersions db.active locked).1 ++ [r.version]

/-- The end of `low_level_commit`.  The journal reset after a checkpoint swallows exceptions, and then
nothing tells the journal that the header has moved. -/
def State.finish (db : State) (locked : Nat → Bool) (r : Committed) (toDisk resetFails : Bool) :
    State :=
  let active := db.activeAfter locked r
  match toDisk, db.journal with
  | false, _ => { db with active }
  | true, none => { db with active, header := r.version }
  | true, some j =>
    if j.needsCheckpoint (allocated r) then
      if resetFails then { db with active, header := r.version }
      else ⟨active, r.version, some (.atCheckpoint r.version), []⟩
    else
      { db with
        active
        journal := some (j.append (allocated r))
        records := db.records ++ [⟨r.version.version, allocated r⟩] }

inductive Step (cfg : Config) : State → Action → State → Prop where
  /-- `refresh_commit_journal`, when the header selects the newest version. -/
  | openJournal {db : State} (hnone : db.journal = none)
      (hheader : db.active.getLast? = some db.header) :
      Step cfg db .openJournal { db with journal := some (.atCheckpoint db.header) }
  | commit {db : State} {locked : Nat → Bool} {replaced : Version} {c : Commit} {r : Committed}
      {toDisk resetFails : Bool} (h : Commits cfg db locked replaced c r) :
      Step cfg db (.commit locked c toDisk resetFails) (db.finish locked r toDisk resetFails)
  /-- `complete_async_commit` publishes the newest version; the journal is not told. -/
  | completeAsync {db : State} {newest : Version} (h : db.active.getLast? = some newest) :
      Step cfg db .completeAsync { db with header := newest }

/-- An empty store. -/
def emptyStore (version : Nat) : State := ⟨[emptyFile version], emptyFile version, none, []⟩

/-- The states of all runs whose steps meet `P`. -/
inductive Reachable (cfg : Config) (P : State → Action → Prop) : State → Prop where
  | empty (version : Nat) : Reachable cfg P (emptyStore version)
  | step {db db' : State} {a : Action} :
      Reachable cfg P db → P db a → Step cfg db a db' → Reachable cfg P db'

/-! ## The version map -/

section Emplace

variable {v w : Version} {l : List Version}

theorem mem_of_mem_emplaceVersion {x : Version} : ∀ {l : List Version},
    x ∈ emplaceVersion v l → x = v ∨ x ∈ l
  | [], h => .inl (List.mem_singleton.mp h)
  | w :: ws, h => by
    unfold emplaceVersion at h
    split at h
    · exact List.mem_cons.mp h
    split at h
    · exact .inr h
    rcases List.mem_cons.mp h with rfl | h
    · exact .inr (List.mem_cons_self ..)
    · exact (mem_of_mem_emplaceVersion h).imp id (List.mem_cons_of_mem _)

theorem mem_emplaceVersion_of_mem {x : Version} : ∀ {l : List Version},
    x ∈ l → x ∈ emplaceVersion v l
  | w :: ws, h => by
    unfold emplaceVersion
    split
    · exact List.mem_cons_of_mem _ h
    split
    · exact h
    rcases List.mem_cons.mp h with rfl | h
    · exact List.mem_cons_self ..
    · exact List.mem_cons_of_mem _ (mem_emplaceVersion_of_mem h)

theorem self_mem_emplaceVersion : ∀ {l : List Version},
    (∀ w ∈ l, w.version = v.version → w = v) → v ∈ emplaceVersion v l
  | [], _ => List.mem_singleton.mpr rfl
  | w :: ws, h => by
    obtain ⟨hw, hws⟩ := List.forall_mem_cons.mp h
    unfold emplaceVersion
    split
    · exact List.mem_cons_self ..
    split
    · rename_i heq
      rw [hw heq.symm]
      exact List.mem_cons_self ..
    · exact List.mem_cons_of_mem _ (self_mem_emplaceVersion hws)

theorem emplaceVersion_ascending : ∀ {l : List Version},
    l.Pairwise (fun v w => v.version < w.version) →
    (emplaceVersion v l).Pairwise fun v w => v.version < w.version
  | [], _ => List.pairwise_singleton _ _
  | w :: ws, h => by
    obtain ⟨hw, hws⟩ := List.pairwise_cons.mp h
    unfold emplaceVersion
    split
    · rename_i hlt
      refine List.pairwise_cons.mpr ⟨fun x hx => ?_, h⟩
      rcases List.mem_cons.mp hx with rfl | hx
      · exact hlt
      · exact Nat.lt_trans hlt (hw x hx)
    split
    · exact h
    · refine List.pairwise_cons.mpr ⟨fun x hx => ?_, emplaceVersion_ascending hws⟩
      rcases mem_of_mem_emplaceVersion hx with rfl | hx
      · omega
      · exact hw x hx

theorem emplaceVersion_append : ∀ {l : List Version}, v.version < w.version →
    emplaceVersion v (l ++ [w]) = emplaceVersion v l ++ [w]
  | [], h => by simp [emplaceVersion, h]
  | x :: xs, h => by
    simp only [List.cons_append, emplaceVersion]
    split
    · rfl
    split
    · rfl
    · rw [emplaceVersion_append h, List.cons_append]

theorem emplaceVersion_last : ∀ {l : List Version}, (∀ x ∈ l, x.version < w.version) →
    v.version = w.version → emplaceVersion v (l ++ [w]) = l ++ [w]
  | [], _, heq => by simp [emplaceVersion, heq]
  | x :: xs, h, heq => by
    obtain ⟨hx, hxs⟩ := List.forall_mem_cons.mp h
    simp only [List.cons_append, emplaceVersion]
    rw [if_neg (by omega), if_neg (by omega), emplaceVersion_last hxs heq]

theorem emplaceVersion_getLast? (hl : l.Pairwise fun v w => v.version < w.version)
    (hlast : l.getLast? = some w) (hle : v.version ≤ w.version) :
    (emplaceVersion v l).getLast? = some w := by
  obtain ⟨init, rfl⟩ := List.getLast?_eq_some_iff.mp hlast
  rcases Nat.lt_or_eq_of_le hle with hlt | heq
  · rw [emplaceVersion_append hlt]
    simp
  · rw [emplaceVersion_last (fun x hx => (List.pairwise_append.mp hl).2.2 x hx w (by simp)) heq]
    simp

theorem eq_of_version_eq : ∀ {l : List Version}, l.Pairwise (fun v w => v.version < w.version) →
    v ∈ l → w ∈ l → v.version = w.version → v = w
  | x :: xs, h, hv, hw, heq => by
    obtain ⟨hx, hxs⟩ := List.pairwise_cons.mp h
    rcases List.mem_cons.mp hv with hv | hv <;> rcases List.mem_cons.mp hw with hw | hw
    · rw [hv, hw]
    · have := hx w hw
      rw [← hv] at this
      omega
    · have := hx v hv
      rw [← hw] at this
      omega
    · exact eq_of_version_eq hxs hv hw heq

end Emplace

/-! ## The invariant -/

/-- What holds in every state.  The checkpoint and the header select versions the store has
committed. -/
structure State.Inv (cfg : Config) (db : State) : Prop where
  space : FreeSpace.Inv cfg db.live
  newest : ∃ newest, db.active.getLast? = some newest ∧ db.header.version ≤ newest.version ∧
    ∀ j, db.journal = some j → j.checkpoint.version ≤ newest.version
  checkpoint_eq : ∀ j, db.journal = some j →
    ∀ v ∈ db.active, v.version = j.checkpoint.version → v = j.checkpoint
  header_eq : ∀ v ∈ db.live, v.version = db.header.version → v = db.header

section Inv

variable {cfg : Config} {db : State} {locked : Nat → Bool} {replaced : Version} {c : Commit}
  {r : Committed}

theorem State.mem_live_of_active {v : Version} (h : v ∈ db.active) : v ∈ db.live := by
  unfold State.live State.withCheckpoint
  split
  · exact h
  · exact mem_emplaceVersion_of_mem h

theorem State.Inv.active_ascending (h : db.Inv cfg) :
    db.active.Pairwise fun v w => v.version < w.version := by
  have hlive := h.space.snapshots.ascending
  unfold State.live State.withCheckpoint at hlive
  split at hlive
  · exact hlive
  · rename_i j hj
    refine hlive.sublist ?_
    generalize db.active = l
    induction l with
    | nil => exact List.nil_sublist _
    | cons w ws ih =>
      unfold emplaceVersion
      split
      · exact List.sublist_cons_self _ _
      split
      · exact .refl _
      · exact ih.cons_cons w

theorem State.Inv.checkpoint_mem_live (h : db.Inv cfg) {j : JournalFields}
    (hj : db.journal = some j) : j.checkpoint ∈ db.live := by
  rw [State.live, State.withCheckpoint, hj]
  exact self_mem_emplaceVersion (h.checkpoint_eq j hj)

theorem State.mem_topRefs {v : Version} (h : v ∈ db.topRefs locked) :
    (∃ j, db.journal = some j ∧ v = j.checkpoint) ∨ (v ∈ db.active ∧ locked v.version = true) := by
  unfold State.topRefs State.withCheckpoint at h
  split at h
  · exact .inr (List.mem_filter.mp h)
  · rename_i j hj
    rcases mem_of_mem_emplaceVersion h with rfl | h
    · exact .inl ⟨j, hj, rfl⟩
    · exact .inr (List.mem_filter.mp h)

theorem State.Inv.topRefs (h : db.Inv cfg) (hnewest : db.active.getLast? = some replaced)
    (hlocked : locked replaced.version = true) :
    (∀ v ∈ db.topRefs locked, v ∈ db.live) ∧
      (db.topRefs locked).Pairwise (fun v w => v.version < w.version) ∧
      (db.topRefs locked).getLast? = some replaced := by
  have hasc := h.active_ascending
  obtain ⟨newest, hn, -, hle⟩ := h.newest
  obtain rfl : newest = replaced := Option.some.inj (hn.symm.trans hnewest)
  have hfilter : (db.active.filter fun v => locked v.version).getLast? = some newest := by
    obtain ⟨init, hinit⟩ := List.getLast?_eq_some_iff.mp hnewest
    rw [hinit, List.filter_append]
    simp [hlocked]
  refine ⟨fun v hv => ?_, ?_, ?_⟩
  · rcases State.mem_topRefs hv with ⟨j, hj, rfl⟩ | ⟨hv, -⟩
    · exact h.checkpoint_mem_live hj
    · exact State.mem_live_of_active hv
  · unfold State.topRefs State.withCheckpoint
    split
    · exact hasc.filter _
    · exact emplaceVersion_ascending (hasc.filter _)
  · unfold State.topRefs State.withCheckpoint
    split
    · exact hfilter
    · rename_i j hj
      exact emplaceVersion_getLast? (hasc.filter _) hfilter (hle j hj)

theorem Commits.effect (h : Commits cfg db locked replaced c r) (hinv : db.Inv cfg) :
    Effect cfg (db.topRefs locked) replaced c r := by
  obtain ⟨hsub, hasc, hlast⟩ := hinv.topRefs h.newest h.newest_locked
  exact writeGroup_spec (hinv.space.snapshots.mono hsub hasc)
    (hinv.space.wf replaced (State.mem_live_of_active (List.mem_of_getLast? h.newest))) h.nodes
    (by rw [h.version_eq]; omega) h.result

theorem Commits.space (h : Commits cfg db locked replaced c r) (hinv : db.Inv cfg) :
    FreeSpace.Inv cfg (db.topRefs locked ++ [r.version]) := by
  obtain ⟨hsub, hasc, hlast⟩ := hinv.topRefs h.newest h.newest_locked
  refine ⟨(h.effect hinv).snapshots (hinv.space.snapshots.mono hsub hasc) hlast
    (by rw [h.version_eq]; omega), List.forall_mem_append.mpr ⟨fun v hv => ?_, ?_⟩⟩
  · exact hinv.space.wf v (hsub v hv)
  · simpa using (h.effect hinv).wf

theorem Commits.newer (h : Commits cfg db locked replaced c r) (hinv : db.Inv cfg) :
    r.version.version = replaced.version + 1 ∧ db.header.version ≤ replaced.version ∧
      (∀ v ∈ db.live, v.version ≤ replaced.version) ∧
      ∀ j, db.journal = some j → j.checkpoint.version ≤ replaced.version := by
  obtain ⟨newest, hn, hheader, hle⟩ := hinv.newest
  obtain rfl : newest = replaced := Option.some.inj (hn.symm.trans h.newest)
  refine ⟨(h.effect hinv).version_eq.trans h.version_eq, hheader, fun v hv => ?_, hle⟩
  have hactive := le_newest hinv.active_ascending hn
  unfold State.live State.withCheckpoint at hv
  split at hv
  · exact hactive v hv
  · rename_i j hj
    rcases mem_of_mem_emplaceVersion hv with rfl | hv
    · exact hle j hj
    · exact hactive v hv

theorem Commits.live_eq (h : Commits cfg db locked replaced c r) (hinv : db.Inv cfg) {db' : State}
    (hactive : db'.active = db.activeAfter locked r)
    (hjournal : db'.journal.map JournalFields.checkpoint = db.journal.map JournalFields.checkpoint) :
    db'.live = db.topRefs locked ++ [r.version] := by
  obtain ⟨hver, -, -, hcheck⟩ := h.newer hinv
  unfold State.live State.topRefs State.withCheckpoint
  rw [hactive]
  cases hj : db.journal with
  | none =>
    rw [hj, Option.map_none, Option.map_eq_none_iff] at hjournal
    rw [hjournal]
    rfl
  | some j =>
    rw [hj, Option.map_some, Option.map_eq_some_iff] at hjournal
    obtain ⟨j', hj', heq⟩ := hjournal
    have := hcheck j hj
    rw [hj']
    dsimp only
    rw [heq]
    exact emplaceVersion_append (by omega)

theorem Commits.inv_of_same (h : Commits cfg db locked replaced c r) (hinv : db.Inv cfg)
    {db' : State} (hactive : db'.active = db.activeAfter locked r)
    (hjournal : db'.journal.map JournalFields.checkpoint = db.journal.map JournalFields.checkpoint)
    (hheader : db'.header = db.header ∨ db'.header = r.version) : db'.Inv cfg := by
  have hlive := h.live_eq hinv hactive hjournal
  obtain ⟨hver, hhead, hle, hcheck⟩ := h.newer hinv
  obtain ⟨hsub, -, -⟩ := hinv.topRefs h.newest h.newest_locked
  have hold : ∀ {j'}, db'.journal = some j' → ∃ j, db.journal = some j ∧
      j'.checkpoint = j.checkpoint := by
    intro j' hj'
    rw [hj', Option.map_some, eq_comm, Option.map_eq_some_iff] at hjournal
    obtain ⟨j, hj, heq⟩ := hjournal
    exact ⟨j, hj, heq.symm⟩
  refine ⟨hlive ▸ h.space hinv, ⟨r.version, by simp [hactive, State.activeAfter], ?_, ?_⟩, ?_, ?_⟩
  · rcases hheader with hh | hh
    · rw [hh]
      omega
    · rw [hh]
  · intro j' hj'
    obtain ⟨j, hj, heq⟩ := hold hj'
    have := hcheck j hj
    rw [heq]
    omega
  · intro j' hj' v hv hversion
    obtain ⟨j, hj, heq⟩ := hold hj'
    rw [heq] at hversion ⊢
    rw [hactive] at hv
    rcases List.mem_append.mp hv with hv | hv
    · exact hinv.checkpoint_eq j hj v (List.mem_of_mem_filter hv) hversion
    · have := hcheck j hj
      rw [List.mem_singleton.mp hv] at hversion
      omega
  · intro v hv hversion
    rw [hlive] at hv
    rcases hheader with hh | hh <;> rw [hh] at hversion ⊢ <;>
      rcases List.mem_append.mp hv with hv | hv
    · exact hinv.header_eq v (hsub v hv) hversion
    · rw [List.mem_singleton.mp hv] at hversion
      omega
    · have := hle v (hsub v hv)
      omega
    · exact List.mem_singleton.mp hv

theorem Commits.inv_of_checkpoint (h : Commits cfg db locked replaced c r) (hinv : db.Inv cfg)
    (records : List Record) :
    State.Inv cfg
      ⟨db.activeAfter locked r, r.version, some (.atCheckpoint r.version), records⟩ := by
  obtain ⟨hver, -, hle, -⟩ := h.newer hinv
  have hpurged : ∀ v ∈ (purgeVersions db.active locked).1, v.version < r.version.version := by
    intro v hv
    have := hle v (State.mem_live_of_active (List.mem_of_mem_filter hv))
    omega
  have hlive : State.live ⟨db.activeAfter locked r, r.version, some (.atCheckpoint r.version),
      records⟩ = (purgeVersions db.active locked).1 ++ [r.version] :=
    emplaceVersion_last hpurged rfl
  have hasc : ((purgeVersions db.active locked).1 ++ [r.version]).Pairwise
      fun v w => v.version < w.version :=
    List.pairwise_append.mpr ⟨hinv.active_ascending.filter _, List.pairwise_singleton _ _,
      fun v hv w hw => by rw [List.mem_singleton.mp hw]; exact hpurged v hv⟩
  have hsub : ∀ v ∈ (purgeVersions db.active locked).1 ++ [r.version],
      v ∈ db.topRefs locked ++ [r.version] := by
    intro v hv
    rcases List.mem_append.mp hv with hv | hv
    · refine List.mem_append_left _ ?_
      unfold State.topRefs State.withCheckpoint
      split
      · exact hv
      · exact mem_emplaceVersion_of_mem hv
    · exact List.mem_append_right _ hv
  have hspace := h.space hinv
  have huniq : ∀ v ∈ (purgeVersions db.active locked).1 ++ [r.version],
      v.version = r.version.version → v = r.version := by
    intro v hv hversion
    rcases List.mem_append.mp hv with hv | hv
    · have := hpurged v hv
      omega
    · exact List.mem_singleton.mp hv
  refine ⟨?_, ⟨r.version, by simp [State.activeAfter], Nat.le_refl _, ?_⟩, ?_, ?_⟩
  · rw [hlive]
    exact ⟨hspace.snapshots.mono hsub hasc, fun v hv => hspace.wf v (hsub v hv)⟩
  · rintro j ⟨⟩
    exact Nat.le_refl _
  · rintro j ⟨⟩
    exact huniq
  · rw [hlive]
    exact huniq

theorem Step.inv {db' : State} {a : Action} (h : Step cfg db a db') (hinv : db.Inv cfg) :
    db'.Inv cfg := by
  cases h with
  | openJournal hnone hheader =>
    have hlive : db.live = db.active := by
      unfold State.live State.withCheckpoint
      rw [hnone]
    have hmem := List.mem_of_getLast? hheader
    have hle := le_newest hinv.active_ascending hheader
    obtain ⟨init, hinit⟩ := List.getLast?_eq_some_iff.mp hheader
    have hasc := hinv.active_ascending
    have hlive' : State.live { db with journal := some (.atCheckpoint db.header) } = db.active := by
      show emplaceVersion db.header db.active = db.active
      rw [hinit] at hasc ⊢
      exact emplaceVersion_last (fun x hx => (List.pairwise_append.mp hasc).2.2 x hx _ (by simp)) rfl
    have hspace := hinv.space
    rw [hlive, ← hlive'] at hspace
    refine ⟨hspace, ⟨db.header, hheader, Nat.le_refl _, ?_⟩, ?_, ?_⟩
    · rintro j ⟨⟩
      exact Nat.le_refl _
    · rintro j ⟨⟩ v hv
      exact hinv.header_eq v (hlive ▸ hv)
    · rw [hlive', ← hlive]
      exact hinv.header_eq
  | @commit locked replaced c r toDisk resetFails h =>
    unfold State.finish
    dsimp only
    split
    · exact h.inv_of_same hinv rfl rfl (.inl rfl)
    · exact h.inv_of_same hinv rfl rfl (.inr rfl)
    · rename_i j hj
      split
      · split
        · exact h.inv_of_same hinv rfl rfl (.inr rfl)
        · exact h.inv_of_checkpoint hinv []
      · exact h.inv_of_same hinv rfl (by rw [hj]; rfl) (.inl rfl)
  | @completeAsync newest hlast =>
    have hmem := List.mem_of_getLast? hlast
    obtain ⟨n, hn, -, hle⟩ := hinv.newest
    obtain rfl : n = newest := Option.some.inj (hn.symm.trans hlast)
    refine ⟨hinv.space, ⟨n, hlast, Nat.le_refl _, hle⟩, hinv.checkpoint_eq, ?_⟩
    intro v hv hversion
    -- versions of the invariant have distinct numbers
    have hasc := hinv.space.snapshots.ascending
    exact eq_of_version_eq hasc hv (State.mem_live_of_active hmem) hversion

end Inv

theorem emptyStore_inv (cfg : Config) (version : Nat) : (emptyStore version).Inv cfg := by
  refine ⟨emptyFile_inv cfg version, ⟨_, rfl, Nat.le_refl _, ?_⟩, ?_, ?_⟩
  · rintro j ⟨⟩
  · rintro j ⟨⟩
  · intro v hv _
    exact List.mem_singleton.mp hv

theorem Reachable.inv {cfg : Config} {P : State → Action → Prop} {db : State}
    (h : Reachable cfg P db) : db.Inv cfg := by
  induction h with
  | empty version => exact emptyStore_inv cfg version
  | step _ _ hstep ih => exact hstep.inv ih

end Llbt.Db
