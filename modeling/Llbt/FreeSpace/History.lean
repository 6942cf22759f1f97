import Llbt.FreeSpace.Commit

/-!
# Histories of commits

Runs of `write_group` from an empty file.  Before each commit the readers may let go of any live
versions but the newest; the versions they keep are the `m_top_ref_map` of the commit.

The invariant has two halves: every live version accounts for its own file (`Version.WF`), and the
free lists of the live versions agree with what older live versions use (`Snapshots`).

* `Effect.snapshots` — a commit keeps the agreement between versions;
* `inv_of_reachable` — both halves hold in every history;
* `allocated_apart` — no commit writes over a node of a version that is still reachable;
* `free_list_tiles` — the free list of a commit is in order and accounts for every byte.
-/

set_option autoImplicit false

namespace Llbt.FreeSpace

open Blocks

/-! ## Histories -/

/-- A file that holds its header only. -/
def emptyFile (version : Nat) : Version := ⟨version, 24, [], [], [], [], .none⟩

/-- One commit of a store with the live versions `live`, of which `held` are still in use.  The
transaction keeps, frees or loses each node of the replaced version. -/
structure Commits (cfg : Config) (live held : List Version) (replaced : Version) (c : Commit)
    (r : Committed) : Prop where
  held_sub : held.Sublist live
  newest : live.getLast? = some replaced
  held_newest : held.getLast? = some replaced
  nodes : replaced.nodes.Perm (c.kept ++ c.freed ++ c.lost)
  version_lt : replaced.version < c.version
  result : writeGroup cfg held replaced c = some r

/-- The live versions after any number of commits, all of the kind `P`. -/
inductive Reachable (cfg : Config) (P : Commit → Prop) : List Version → Prop where
  | empty (version : Nat) : Reachable cfg P [emptyFile version]
  | commit {live held : List Version} {replaced : Version} {c : Commit} {r : Committed} :
      Reachable cfg P live → P c → Commits cfg live held replaced c r →
      Reachable cfg P (held ++ [r.version])

/-- The invariant of the live versions. -/
structure Inv (cfg : Config) (live : List Version) : Prop where
  snapshots : Snapshots live
  wf : ∀ v ∈ live, v.WF cfg

/-! ## One commit -/

theorem le_newest {live : List Version} {replaced : Version}
    (h : live.Pairwise fun v w => v.version < w.version) (hlast : live.getLast? = some replaced) :
    ∀ w ∈ live, w.version ≤ replaced.version := by
  obtain ⟨init, rfl⟩ := List.getLast?_eq_some_iff.mp hlast
  intro w hw
  rcases List.mem_append.mp hw with hw | hw
  · exact Nat.le_of_lt ((List.pairwise_append.mp h).2.2 w hw replaced (by simp))
  · rw [List.mem_singleton.mp hw]

theorem oldestReachable_le {live : List Version}
    (h : live.Pairwise fun v w => v.version < w.version) :
    ∀ w ∈ live, oldestReachable live ≤ w.version := by
  cases live with
  | nil => simp
  | cons v vs =>
    intro w hw
    rcases List.mem_cons.mp hw with rfl | hw
    · exact Nat.le_refl _
    · exact Nat.le_of_lt ((List.pairwise_cons.mp h).1 w hw)

theorem Fresh.unused {live : List Version} {replaced : Version} (hs : Snapshots live)
    (hlast : live.getLast? = some replaced) {x : Nat} (h : Fresh live replaced x) :
    ∀ w ∈ live, cover w.used x = 0 := by
  intro w hw
  have hmem := List.mem_of_getLast? hlast
  have hle := le_newest hs.ascending hlast w hw
  rcases h with ⟨e, he, hstamp, hx⟩ | hx
  · have := oldestReachable_le hs.ascending w hw
    exact hs.vacant replaced hmem e he w hw (by omega) hle x hx
  · exact hs.beyond replaced hmem w hw hle x hx

theorem Version.WF.unused {cfg : Config} {v : Version} (h : v.WF cfg) {e : Entry} (he : e ∈ v.free)
    {x : Nat} (hx : e.block.Has x) : cover v.used x = 0 := by
  have htiles := h.tiles x
  have hle := ind_le_cover (List.mem_map_of_mem (f := Entry.block) he) x
  have hpos := ind_pos_iff.mpr hx
  rw [cover_append] at htiles
  split at htiles <;> omega

theorem Version.WF.unused_beyond {cfg : Config} {v : Version} (h : v.WF cfg) {x : Nat}
    (hx : v.logicalSize ≤ x) : cover v.used x = 0 := by
  have htiles := h.tiles x
  rw [cover_append, if_neg (by omega)] at htiles
  omega

theorem Effect.size_pos {cfg : Config} {live : List Version} {replaced : Version} {c : Commit}
    {r : Committed} (h : Effect cfg live replaced c r) :
    ∀ b ∈ r.written ++ r.version.arrays, 0 < b.size := by
  intro b hb
  rcases List.mem_append.mp hb with hb | hb
  · exact (h.written_aligned b hb).size_pos
  · exact (h.wf.used_aligned b (by simp [Version.used, Version.reachable, hb])).size_pos

/-- **A commit keeps the agreement between the live versions.** -/
theorem Effect.snapshots {cfg : Config} {live : List Version} {replaced : Version} {c : Commit}
    {r : Committed} (h : Effect cfg live replaced c r) (hs : Snapshots live)
    (hlast : live.getLast? = some replaced) (hlt : replaced.version < c.version) :
    Snapshots (live ++ [r.version]) := by
  have hle := le_newest hs.ascending hlast
  have hmem := List.mem_of_getLast? hlast
  have hver := h.version_eq
  refine ⟨?_, fun v hv e he => ?_, fun v hv e he w hw hlo hhi x hx => ?_,
    fun v hv w hw hvw x hx => ?_⟩
  · refine List.pairwise_append.mpr ⟨hs.ascending, List.pairwise_singleton _ _, ?_⟩
    intro v hv w hw
    have := hle v hv
    rw [List.mem_singleton.mp hw]
    omega
  · rcases List.mem_append.mp hv with hv | hv
    · exact hs.stamp_le v hv e he
    · rw [List.mem_singleton.mp hv] at he ⊢
      rcases h.entries e he with ⟨h0, -⟩ | ⟨f, hf, hb⟩ | hcur
      · omega
      · have := hs.stamp_le replaced hmem f hf
        have := hb.stamp_le
        omega
      · omega
  · rcases List.mem_append.mp hv with hv | hv <;> rcases List.mem_append.mp hw with hw | hw
    · exact hs.vacant v hv e he w hw hlo hhi x hx
    · -- the new version is younger than every old one
      have := hle v hv
      rw [List.mem_singleton.mp hw] at hhi
      omega
    · rw [List.mem_singleton.mp hv] at he
      rcases h.entries e he with ⟨-, hfresh⟩ | ⟨f, hf, hb⟩ | hcur
      · exact (hfresh x hx).unused hs hlast w hw
      · exact hb.vacant (hs.vacant replaced hmem f hf) w hw hlo (hle w hw) x hx
      · have := hle w hw
        omega
    · rw [List.mem_singleton.mp hv] at he
      rw [List.mem_singleton.mp hw]
      exact h.wf.unused he hx
  · rcases List.mem_append.mp hv with hv | hv <;> rcases List.mem_append.mp hw with hw | hw
    · exact hs.beyond v hv w hw hvw x hx
    · have := hle v hv
      rw [List.mem_singleton.mp hw] at hvw
      omega
    · rw [List.mem_singleton.mp hv] at hx
      exact (h.beyond x hx).unused hs hlast w hw
    · rw [List.mem_singleton.mp hv] at hx
      rw [List.mem_singleton.mp hw]
      exact h.wf.unused_beyond hx

theorem Effect.apart {cfg : Config} {live : List Version} {replaced : Version} {c : Commit}
    {r : Committed} (h : Effect cfg live replaced c r) (hs : Snapshots live)
    (hlast : live.getLast? = some replaced) (hwf : ∀ w ∈ live, w.WF cfg) :
    ∀ b ∈ r.written ++ r.version.arrays, ∀ w ∈ live, ∀ node ∈ w.reachable, b.Apart node := by
  intro b hb w hw node hnode
  have hnodePos := ((hwf w hw).used_aligned node (List.mem_append_left _ hnode)).size_pos
  rw [Block.apart_iff (h.size_pos b hb) hnodePos]
  rintro x ⟨hbx, hnx⟩
  have hzero := (h.fresh x (cover_pos_iff.mpr ⟨b, hb, hbx⟩)).unused hs hlast w hw
  exact cover_eq_zero_iff.mp hzero node (List.mem_append_left _ hnode) hnx

theorem Commits.effect {cfg : Config} {live held : List Version} {replaced : Version} {c : Commit}
    {r : Committed} (h : Commits cfg live held replaced c r) (hinv : Inv cfg live) :
    Effect cfg held replaced c r :=
  writeGroup_spec (hinv.snapshots.sublist h.held_sub)
    (hinv.wf replaced (List.mem_of_getLast? h.newest)) h.nodes
    (Nat.lt_of_le_of_lt (Nat.zero_le _) h.version_lt) h.result

theorem Commits.inv {cfg : Config} {live held : List Version} {replaced : Version} {c : Commit}
    {r : Committed} (h : Commits cfg live held replaced c r) (hinv : Inv cfg live) :
    Inv cfg (held ++ [r.version]) where
  snapshots := (h.effect hinv).snapshots (hinv.snapshots.sublist h.held_sub) h.held_newest
    h.version_lt
  wf := List.forall_mem_append.mpr ⟨fun v hv => hinv.wf v (h.held_sub.mem hv),
    by simpa using (h.effect hinv).wf⟩

/-! ## All histories -/

theorem emptyFile_inv (cfg : Config) (version : Nat) : Inv cfg [emptyFile version] := by
  have htiles : Tiles ((emptyFile version).used ++ (emptyFile version).free.map Entry.block)
      (emptyFile version).logicalSize := by
    intro x
    show fileHeader.ind x + 0 = if x < 24 then 1 else 0
    unfold Block.ind fileHeader
    dsimp only
    split <;> split <;> omega
  have hbeyond : ∀ x, 24 ≤ x → cover (emptyFile version).used x = 0 := by
    intro x hx
    have := htiles x
    rw [cover_append, if_neg (by simp only [emptyFile]; omega)] at this
    omega
  refine ⟨⟨List.pairwise_singleton _ _, ?_, ?_, ?_⟩, ?_⟩
  · simp [emptyFile]
  · simp [emptyFile]
  · intro v hv w hw _ x hx
    rw [List.mem_singleton.mp hv] at hx
    rw [List.mem_singleton.mp hw]
    exact hbeyond x hx
  · intro v hv
    rw [List.mem_singleton.mp hv]
    refine ⟨htiles, .nil, by simp [emptyFile], ?_, .inl ⟨by simp [emptyFile], rfl⟩, rfl⟩
    intro b hb
    rw [show (emptyFile version).used = [fileHeader] from rfl, List.mem_singleton] at hb
    rw [hb]
    exact ⟨by decide, rfl, rfl⟩

theorem inv_of_reachable {cfg : Config} {P : Commit → Prop} {live : List Version}
    (h : Reachable cfg P live) : Inv cfg live := by
  induction h with
  | empty version => exact emptyFile_inv cfg version
  | commit _ _ hcommit ih => exact hcommit.inv ih

theorem lost_eq_nil {cfg : Config} {live : List Version}
    (h : Reachable cfg (fun c => c.lost = []) live) : ∀ v ∈ live, v.lost = [] := by
  induction h with
  | empty version => simp [emptyFile]
  | @commit live held replaced c r hrun hlost hcommit ih =>
    refine List.forall_mem_append.mpr ⟨fun v hv => ih v (hcommit.held_sub.mem hv), ?_⟩
    have hold := ih replaced (List.mem_of_getLast? hcommit.newest)
    simp [(hcommit.effect (inv_of_reachable hrun)).lost_eq, hold, hlost]

/-! ## A small file -/

namespace Small

def cfg : Config := ⟨4096, by decide, by decide, by decide⟩

/-- A commit that writes arrays of `n + 1` words for each `n` in `words`. -/
def commit (version : Nat) (kept freed : List Block) (words : List Nat) : Commit where
  version
  kept
  freed
  lost := []
  writes := words.map fun n => 8 * (n + 1)
  evacSize := 24
  progress := []
  fileSize := 4096
  commitSize := 0
  topSize := 12
  topBytes := 56
  anyNewUnreachables := true
  fuel := 4
  writes_ok := by
    intro s hs
    obtain ⟨n, -, rfl⟩ := List.mem_map.mp hs
    omega
  evacSize_ok := by decide
  topBytes_ok := by decide

/-- The first commit writes two nodes. -/
def first : Committed where
  version := {
    version := 2
    logicalSize := 4096
    nodes := [⟨24, 64⟩, ⟨88, 128⟩]
    arrays := [⟨216, 16⟩, ⟨232, 16⟩, ⟨248, 8⟩, ⟨256, 56⟩]
    lost := []
    free := [⟨312, 3784, 0⟩]
    evac := .none }
  written := [⟨24, 64⟩, ⟨88, 128⟩]
  writer := ⟨[⟨216, 3880⟩], [], [], 4096, 4096, 0, 0⟩

/-- The second replaces one of them, with a reader on each older version. -/
def second : Committed where
  version := {
    version := 3
    logicalSize := 4096
    nodes := [⟨88, 128⟩, ⟨312, 64⟩]
    arrays := [⟨376, 16⟩, ⟨392, 16⟩, ⟨408, 16⟩, ⟨424, 56⟩]
    lost := []
    free := [⟨24, 64, 3⟩, ⟨216, 96, 3⟩, ⟨480, 3616, 0⟩]
    evac := .none }
  written := [⟨312, 64⟩]
  writer := ⟨[⟨376, 3720⟩], [], [], 4096, 4096, 0, 0⟩

theorem first_commits : Commits cfg [emptyFile 1] [emptyFile 1] (emptyFile 1)
    (commit 2 [] [] [7, 15]) first :=
  ⟨.refl _, rfl, rfl, .refl _, by decide, by decide +kernel⟩

theorem second_commits : Commits cfg [emptyFile 1, first.version] [emptyFile 1, first.version]
    first.version (commit 3 [⟨88, 128⟩] [⟨24, 64⟩] [7]) second :=
  ⟨.refl _, rfl, rfl, .swap .., by decide, by decide +kernel⟩

theorem first_reachable :
    Reachable cfg (fun c => c.lost = []) [emptyFile 1, first.version] :=
  Reachable.commit (P := fun c => c.lost = []) (.empty 1) rfl first_commits

end Small

/-! ## Safety and conservation -/

/-- **No commit writes over a node of a version that is still reachable**: the arrays a commit
writes, its free list and its top lie apart from every node of every version in its
`m_top_ref_map`, the replaced version included. -/
theorem allocated_apart {cfg : Config} {P : Commit → Prop} {live held : List Version}
    {replaced : Version} {c : Commit} {r : Committed} (hrun : Reachable cfg P live)
    (h : Commits cfg live held replaced c r) :
    ∀ b ∈ r.written ++ r.version.arrays, ∀ w ∈ held, ∀ node ∈ w.reachable, b.Apart node := by
  have hinv := inv_of_reachable hrun
  exact (h.effect hinv).apart (hinv.snapshots.sublist h.held_sub) h.held_newest
    fun w hw => hinv.wf w (h.held_sub.mem hw)

theorem allocated_apart_small :
    ⟨88, 128⟩ ∈ Small.first.version.reachable ∧
      ∀ b ∈ Small.second.written ++ Small.second.version.arrays,
        ∀ w ∈ [emptyFile 1, Small.first.version], ∀ node ∈ w.reachable, b.Apart node :=
  ⟨by decide, allocated_apart Small.first_reachable Small.second_commits⟩

/-- **The free list of a commit is in order and accounts for every byte.**  Where each transaction
frees exactly the nodes it stops referencing, the entries are sorted, non-empty, made of whole words
and disjoint, and with the file header and the nodes reachable from the new top they tile the file up
to its logical size. -/
theorem free_list_tiles {cfg : Config} {live held : List Version} {replaced : Version} {c : Commit}
    {r : Committed} (hrun : Reachable cfg (fun c => c.lost = []) live) (hlost : c.lost = [])
    (h : Commits cfg live held replaced c r) :
    r.version.free.Pairwise (fun a b => a.ref < b.ref) ∧
      (∀ e ∈ r.version.free, 0 < e.size ∧ e.ref % 8 = 0 ∧ e.size % 8 = 0) ∧
      r.version.free.Pairwise (fun a b => a.block.Apart b.block) ∧
      Tiles (r.version.reachable ++ r.version.free.map Entry.block) r.version.logicalSize := by
  have heffect := h.effect (inv_of_reachable hrun)
  have hnone : r.version.lost = [] := by
    rw [heffect.lost_eq, lost_eq_nil hrun replaced (List.mem_of_getLast? h.newest), hlost]
    rfl
  have hpos := fun e he => (heffect.wf.free_aligned e he).size_pos
  refine ⟨?_, fun e he => ?_, ?_, ?_⟩
  · refine heffect.wf.ordered.imp_of_mem fun {a b} ha _ hab => ?_
    have := hpos a ha
    simp only [Entry.block] at this
    omega
  · obtain ⟨h1, h2, h3⟩ := heffect.wf.free_aligned e he
    exact ⟨h1, h2, h3⟩
  · exact heffect.wf.ordered.imp fun hab => .inl hab
  · have htiles := heffect.wf.tiles
    rwa [Version.used, hnone, List.append_nil] at htiles

theorem free_list_tiles_small :
    Small.second.version.free.Pairwise (fun a b => a.ref < b.ref) ∧
      (∀ e ∈ Small.second.version.free, 0 < e.size ∧ e.ref % 8 = 0 ∧ e.size % 8 = 0) ∧
      Small.second.version.free.Pairwise (fun a b => a.block.Apart b.block) ∧
      Tiles (Small.second.version.reachable ++ Small.second.version.free.map Entry.block)
        Small.second.version.logicalSize :=
  free_list_tiles Small.first_reachable rfl Small.second_commits

end Llbt.FreeSpace
