import Llbt.FreeSpace.Writer

/-!
# Versions and backdating

A `Version` is what a top array describes: the nodes reachable from it, its free list with release
stamps, and its logical file size.  `backdate` lowers the stamps of locked free blocks by looking
them up in the free lists of older live versions.

`Snapshots live` is what holds between the live versions of a store: a free block of version `v` is
not in use from its stamp up to `v`, and nothing up to `v` is in use beyond the end of `v`.

* `findCover_vacant` — a cover found in an older free list proves the block unused there;
* `backdate_spec` — backdating lowers stamps and every new stamp is justified.
-/

set_option autoImplicit false

namespace Llbt.FreeSpace

open Blocks

/-! ## Versions -/

/-- `sizeof(SlabAlloc::Header)`. -/
def fileHeader : Block := ⟨0, 24⟩

/-- The element of the top that records the state of evacuation: nothing, a limit to start with, or
an array with the limit, the number of commits to wait and the progress of the tree walk. -/
inductive EvacPoint where
  | none
  | start (limit : Nat)
  | record (limit backoff : Nat) (progress : List Nat)
  deriving DecidableEq, Repr

def EvacPoint.limit : EvacPoint → Nat
  | .none => 0
  | .start limit => limit
  | .record limit _ _ => limit

/-- What one top array describes.  `arrays` are the free list arrays and the top itself; `lost` are
nodes that some transaction stopped referencing without freeing them. -/
structure Version where
  version : Nat
  logicalSize : Nat
  nodes : List Block
  arrays : List Block
  lost : List Block
  free : List Entry
  evac : EvacPoint
  deriving DecidableEq, Repr

/-- The file header and all that is reachable from the top. -/
def Version.reachable (v : Version) : List Block := fileHeader :: (v.nodes ++ v.arrays)

/-- Everything that is not free. -/
def Version.used (v : Version) : List Block := v.reachable ++ v.lost

/-- No version numbered from `lo` to `hi` uses an address of the block. -/
def Vacant (live : List Version) (lo hi : Nat) (b : Block) : Prop :=
  ∀ w ∈ live, lo ≤ w.version → w.version ≤ hi → ∀ x, b.Has x → cover w.used x = 0

/-- What holds between the live versions of a store. -/
structure Snapshots (live : List Version) : Prop where
  ascending : live.Pairwise fun v w => v.version < w.version
  stamp_le : ∀ v ∈ live, ∀ e ∈ v.free, e.releasedAt ≤ v.version
  vacant : ∀ v ∈ live, ∀ e ∈ v.free, Vacant live e.releasedAt v.version e.block
  beyond : ∀ v ∈ live, ∀ w ∈ live, w.version ≤ v.version → ∀ x, v.logicalSize ≤ x →
    cover w.used x = 0

theorem Snapshots.mono {live live' : List Version} (h : Snapshots live)
    (hsub : ∀ v ∈ live', v ∈ live) (hasc : live'.Pairwise fun v w => v.version < w.version) :
    Snapshots live' where
  ascending := hasc
  stamp_le v hv := h.stamp_le v (hsub v hv)
  vacant v hv e he w hw := h.vacant v (hsub v hv) e he w (hsub w hw)
  beyond v hv w hw := h.beyond v (hsub v hv) w (hsub w hw)

theorem Snapshots.sublist {live live' : List Version} (h : Snapshots live)
    (hs : live'.Sublist live) : Snapshots live' :=
  h.mono (fun _ hv => hs.mem hv) (h.ascending.sublist hs)

/-! ## Backdating -/

/-- `get_earlier`: the youngest version older than the given one. -/
def getEarlier (live : List Version) (version : Nat) : Option Version :=
  (live.takeWhile fun v => v.version < version).getLast?

/-- The loop of `find_cover_for` that runs over the entries following the first one without a gap. -/
def coalesce (entryEnd : Nat) : Nat → Nat → List Entry → Nat × Nat
  | endPos, found, [] => (endPos, found)
  | endPos, found, f :: fs =>
    if f.ref = endPos ∧ endPos < entryEnd then
      coalesce entryEnd (endPos + f.size) (max found f.releasedAt) fs
    else (endPos, found)

/-- `find_cover_for`: the youngest stamp among the entries of an older free list that cover the
entry, as far as it lies inside the older file. -/
def findCover (entry : Entry) (freeList : Version) : Option Nat :=
  let entryEnd := min (entry.ref + entry.size) freeList.logicalSize
  if entry.ref ≥ entryEnd then some 0
  else
    -- the entry at `upper_bound_int(ref) - 1`
    match (freeList.free.takeWhile fun f => f.ref ≤ entry.ref).getLast? with
    | none => none
    | some first =>
      if first.ref + first.size ≤ entry.ref then none
      else
        let r := coalesce entryEnd (first.ref + first.size) first.releasedAt
          (freeList.free.dropWhile fun f => f.ref ≤ entry.ref)
        if r.1 < entryEnd then none else some r.2

/-- The loop of `backdate_single_entry`.  Every round moves to an older version. -/
def backdateLoop (live : List Version) (oldest : Nat) : Nat → Entry → Entry
  | 0, e => e
  | fuel + 1, e =>
    if e.releasedAt = 0 then e
    else if e.releasedAt ≤ oldest then e
    else
      match getEarlier live e.releasedAt with
      | none => e
      | some earlier =>
        match findCover e earlier with
        | some covering => backdateLoop live oldest fuel { e with releasedAt := covering }
        | none => e

def backdateSingleEntry (live : List Version) (oldest current : Nat) (e : Entry) : Entry :=
  if e.releasedAt = current then e else backdateLoop live oldest live.length e

/-- `GroupWriter::backdate` on the locked entries. -/
def backdate (live : List Version) (oldest current : Nat) (locked : List Entry) : List Entry :=
  locked.map (backdateSingleEntry live oldest current)

/-! ## Why a cover justifies a stamp -/

theorem getEarlier_spec {live : List Version} {version : Nat} {v : Version}
    (h : live.Pairwise fun v w => v.version < w.version)
    (hv : getEarlier live version = some v) :
    v ∈ live ∧ v.version < version ∧
      ∀ w ∈ live, w.version < version → w.version ≤ v.version := by
  obtain ⟨pre, hpre⟩ := List.getLast?_eq_some_iff.mp hv
  have hmem : v ∈ live.takeWhile fun v => v.version < version := by simp [hpre]
  refine ⟨(List.takeWhile_sublist _).mem hmem, by simpa using List.mem_takeWhile_imp hmem, ?_⟩
  intro w hw hlt
  have hsplit := List.takeWhile_append_dropWhile (p := fun v => v.version < version) (l := live)
  rw [← hsplit] at hw h
  rcases List.mem_append.mp hw with hw | hw
  · rw [hpre] at hw
    rcases List.mem_append.mp hw with hw | hw
    · have := (List.pairwise_append.mp (hpre ▸ (List.pairwise_append.mp h).1)).2.2 w hw v (by simp)
      omega
    · exact Nat.le_of_eq (congrArg Version.version (List.mem_singleton.mp hw))
  · -- a version that `takeWhile` has passed is not below the given one
    exfalso
    cases hd : live.dropWhile fun v => v.version < version with
    | nil => simp [hd] at hw
    | cons d ds =>
      have hhead : ¬ d.version < version := by
        have := List.head_dropWhile_not (fun v : Version => decide (v.version < version))
          (l := live) (by simp [hd])
        simpa [hd] using this
      rw [hd] at hw h
      rcases List.mem_cons.mp hw with rfl | hw
      · exact hhead hlt
      · have := (List.pairwise_cons.mp (List.pairwise_append.mp h).2.1).1 w hw
        omega

theorem coalesce_spec {entryEnd : Nat} : ∀ {fs : List Entry} {endPos found : Nat},
    found ≤ (coalesce entryEnd endPos found fs).2 ∧
      (∀ hi, found ≤ hi → (∀ f ∈ fs, f.releasedAt ≤ hi) →
        (coalesce entryEnd endPos found fs).2 ≤ hi) ∧
      ∀ x, endPos ≤ x → x < (coalesce entryEnd endPos found fs).1 →
        ∃ f ∈ fs, f.block.Has x ∧ f.releasedAt ≤ (coalesce entryEnd endPos found fs).2
  | [], endPos, found => by
    refine ⟨Nat.le_refl _, fun hi h _ => h, fun x h1 h2 => ?_⟩
    simp only [coalesce] at h2
    omega
  | f :: fs, endPos, found => by
    unfold coalesce
    split
    · rename_i hadj
      obtain ⟨h1, h2, h3⟩ := @coalesce_spec entryEnd fs (endPos + f.size) (max found f.releasedAt)
      refine ⟨by omega, fun hi hf hfs => ?_, fun x hx hx' => ?_⟩
      · obtain ⟨hf', hfs⟩ := List.forall_mem_cons.mp hfs
        exact h2 hi (by omega) hfs
      · by_cases hin : x < endPos + f.size
        · refine ⟨f, by simp, ?_, by omega⟩
          simp only [Block.Has, Entry.block]
          omega
        · obtain ⟨g, hg, hgx⟩ := h3 x (by omega) hx'
          exact ⟨g, List.mem_cons_of_mem _ hg, hgx⟩
    · refine ⟨Nat.le_refl _, fun hi h _ => h, fun x h1 h2 => ?_⟩
      dsimp only at h2
      omega

/-- Every address of a covered entry that lies inside the older file lies in one of the older
file's free blocks, under a stamp that the cover does not exceed. -/
theorem findCover_free {e : Entry} {v : Version} {covering : Nat}
    (h : findCover e v = some covering) {x : Nat} (hx : e.block.Has x) (hlog : x < v.logicalSize) :
    ∃ f ∈ v.free, f.block.Has x ∧ f.releasedAt ≤ covering := by
  simp only [Block.Has, Entry.block] at hx
  unfold findCover at h
  dsimp only at h
  split at h
  · omega
  split at h
  · cases h
  rename_i first hfirst
  obtain ⟨pre, hpre⟩ := List.getLast?_eq_some_iff.mp hfirst
  have hmem : first ∈ v.free.takeWhile fun f => f.ref ≤ e.ref := by simp [hpre]
  have hle : first.ref ≤ e.ref := by simpa using List.mem_takeWhile_imp hmem
  split at h
  · cases h
  split at h
  · cases h
  rename_i hend hcov
  cases h
  obtain ⟨h1, -, h3⟩ := @coalesce_spec (min (e.ref + e.size) v.logicalSize)
    (v.free.dropWhile fun f => f.ref ≤ e.ref) (first.ref + first.size) first.releasedAt
  by_cases hin : x < first.ref + first.size
  · refine ⟨first, (List.takeWhile_sublist _).mem hmem, ?_, h1⟩
    simp only [Block.Has, Entry.block]
    omega
  · obtain ⟨f, hf, hfx⟩ := h3 x (by omega) (by omega)
    exact ⟨f, (List.dropWhile_sublist _).mem hf, hfx⟩

theorem findCover_le {e : Entry} {v : Version} {covering : Nat}
    (hv : ∀ f ∈ v.free, f.releasedAt ≤ v.version) (h : findCover e v = some covering) :
    covering ≤ v.version := by
  unfold findCover at h
  dsimp only at h
  split at h
  · cases h
    exact Nat.zero_le _
  split at h
  · cases h
  rename_i first hfirst
  have hmem := (List.takeWhile_sublist _).mem (List.mem_of_getLast? hfirst)
  split at h
  · cases h
  split at h
  · cases h
  cases h
  exact (@coalesce_spec _ _ _ _).2.1 v.version (hv first hmem)
    fun f hf => hv f ((List.dropWhile_sublist _).mem hf)

/-- **A cover found in an older free list proves the entry unused from the cover's stamp up to that
version**: inside the older file by its free blocks, beyond its end because nothing was there. -/
theorem findCover_vacant {live : List Version} (hs : Snapshots live) {e : Entry} {v : Version}
    {covering : Nat} (hv : v ∈ live) (h : findCover e v = some covering) :
    Vacant live covering v.version e.block := by
  intro w hw hlo hhi x hx
  by_cases hlog : x < v.logicalSize
  · obtain ⟨f, hf, hfx, hle⟩ := findCover_free h hx hlog
    exact hs.vacant v hv f hf w hw (by omega) hhi x hfx
  · exact hs.beyond v hv w hw hhi x (by omega)

/-- Entries of one block, the second with a stamp that is lower but justified. -/
structure Backdated (live : List Version) (hi : Nat) (e e' : Entry) : Prop where
  block_eq : e'.block = e.block
  stamp_le : e'.releasedAt ≤ e.releasedAt
  vacant : Vacant live e.releasedAt hi e.block → Vacant live e'.releasedAt hi e'.block

theorem Backdated.refl (live : List Version) (hi : Nat) (e : Entry) : Backdated live hi e e :=
  ⟨rfl, Nat.le_refl _, id⟩

theorem backdateLoop_spec {live : List Version} (hs : Snapshots live) (oldest hi : Nat) :
    ∀ (fuel : Nat) (e : Entry), Backdated live hi e (backdateLoop live oldest fuel e)
  | 0, e => .refl live hi e
  | fuel + 1, e => by
    unfold backdateLoop
    split
    · exact .refl live hi e
    split
    · exact .refl live hi e
    split
    · exact .refl live hi e
    rename_i earlier hearlier
    obtain ⟨hmem, hlt, hyoungest⟩ := getEarlier_spec hs.ascending hearlier
    split
    · rename_i covering hcover
      have hle := findCover_le (hs.stamp_le earlier hmem) hcover
      obtain ⟨h1, h2, h3⟩ := backdateLoop_spec hs oldest hi fuel { e with releasedAt := covering }
      refine ⟨h1, by dsimp only at h2; omega, fun hvac => h3 ?_⟩
      intro w hw hlo hhi
      -- no live version lies between the one looked at and the old stamp
      by_cases hw' : w.version < e.releasedAt
      · exact findCover_vacant hs hmem hcover w hw hlo (hyoungest w hw hw')
      · exact hvac w hw (by omega) hhi
    · exact .refl live hi e

theorem backdateSingleEntry_spec {live : List Version} (hs : Snapshots live)
    (oldest current hi : Nat) (e : Entry) :
    Backdated live hi e (backdateSingleEntry live oldest current e) := by
  unfold backdateSingleEntry
  split
  · exact .refl live hi e
  · exact backdateLoop_spec hs oldest hi _ e

/-- **Backdating changes stamps only, never raises one, and each new stamp is justified.** -/
theorem backdate_spec {live : List Version} (hs : Snapshots live) (oldest current hi : Nat)
    (locked : List Entry) :
    (backdate live oldest current locked).map Entry.block = locked.map Entry.block ∧
      ∀ e' ∈ backdate live oldest current locked, ∃ e ∈ locked, Backdated live hi e e' := by
  have hspec := backdateSingleEntry_spec hs oldest current hi
  constructor
  · rw [backdate, List.map_map]
    exact List.map_congr_left fun e _ => (hspec e).block_eq
  · intro e' he'
    obtain ⟨e, he, rfl⟩ := List.mem_map.mp he'
    exact ⟨e, he, hspec e⟩

end Llbt.FreeSpace
