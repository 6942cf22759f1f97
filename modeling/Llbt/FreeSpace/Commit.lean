import Llbt.FreeSpace.Backdate
import Llbt.FreeSpace.ReadOnly

/-!
# Writing a version

Embedding of `GroupWriter::write_group`: the changed arrays are written into free space, locked
entries are backdated, room for the free list and the top is reserved in one piece, the logical file
size may shrink after an evacuation, and the new free list is written into the space it describes.

`Commit` holds what the function takes from outside: the nodes the transaction keeps, frees and
writes, the state of evacuation, the size of the file.  A failed assertion ends the commit.

* `finishCommit_spec` — the new free list and the arrays it is written in hold the same space;
* `writeGroup_spec` — what one commit does to the space of the replaced version.
-/

set_option autoImplicit false

namespace Llbt.FreeSpace

open Blocks

/-! ## Array sizes -/

/-- `Array::bit_width` for the values of a free list. -/
def bitWidth (v : Nat) : Nat :=
  if v = 0 then 0 else if v = 1 then 1 else if v ≤ 3 then 2 else if v ≤ 15 then 4
  else if v < 2 ^ 7 then 8 else if v < 2 ^ 15 then 16 else if v < 2 ^ 31 then 32 else 64

/-- `NodeHeader::calc_byte_size` with `wtype_Bits`. -/
def calcByteSize (size width : Nat) : Nat := ((size * width + 7) / 8 + 7) / 8 * 8 + 8

def getMaxByteSize (size : Nat) : Nat := 8 + 8 * size

def sizePerFreeListEntry (logicalSize : Nat) : Nat :=
  (if logicalSize < 0x8000000 then 8 else 16) + 8

def maximum (values : List Nat) : Nat := values.foldr max 0

/-- Blocks of the given sizes, one behind the other. -/
def stack : Nat → List Nat → List Block
  | _, [] => []
  | start, size :: sizes => ⟨start, size⟩ :: stack (start + size) sizes

/-! ## The new free list -/

/-- The check of `recreate_freelist` on the sorted entries. -/
def checkOrder : Nat → List Entry → Bool
  | _, [] => true
  | prevEnd, e :: es => decide (prevEnd ≤ e.ref) && checkOrder (e.ref + e.size) es

/-- What `recreate_freelist` collects. -/
def collect (w : Writer) (freed : List Block) (current : Nat) : List Entry :=
  w.sizeMap.map (fun b => ⟨b.ref, b.size, 0⟩) ++ w.notFree ++
    freed.map (fun b => ⟨b.ref, b.size, current⟩) ++
    w.underEvac.map (fun e => ⟨e.ref, e.size, 0⟩)

/-- `recreate_freelist`; `none` is the failed check for overlaps. -/
def recreateFreelist (w : Writer) (freed : List Block) (current : Nat) : Option (List Entry) :=
  let es := (collect w freed current).insertionSort fun a b => a.ref ≤ b.ref
  if checkOrder 0 es then some es else none

/-- The final change to the free list: the entry at the reserved position gives up the space used.
Positions differ, so there is one such entry; `none` is `reserve_ndx == npos`. -/
def deduct (reservePos endRef rest : Nat) : List Entry → Option (List Entry)
  | [] => none
  | e :: es =>
    if e.ref = reservePos then some (⟨endRef, rest, e.releasedAt⟩ :: es)
    else (deduct reservePos endRef rest es).map (e :: ·)

/-- The width of the positions array after `ensure_minimum_width`. -/
def positionsWidth (reservePos maxNeeded : Nat) (es : List Entry) : Nat :=
  bitWidth (max (maximum (es.map Entry.ref)) (reservePos + maxNeeded))

/-- Byte sizes of the positions, the lengths, the versions and the top array. -/
def arraySizes (reservePos maxNeeded topBytes : Nat) (es : List Entry) : List Nat :=
  [calcByteSize es.length (positionsWidth reservePos maxNeeded es),
    calcByteSize es.length (bitWidth (maximum (es.map Entry.size))),
    calcByteSize es.length (bitWidth (maximum (es.map Entry.releasedAt))), topBytes]

/-! ## The commit -/

/-- What `write_group` takes from the transaction and from the file.  The nodes of the replaced
version are kept, freed, or neither (`lost`); `writes` are the sizes of the changed arrays,
`evacSize` that of the evacuation array, `progress` where the walk of `cow_outliers` ended, `topSize` and `topBytes` the
number of elements of the top and its final size in bytes; `fuel` bounds the file extensions of one reservation. -/
structure Commit where
  version : Nat
  kept : List Block
  freed : List Block
  lost : List Block
  writes : List Nat
  evacSize : Nat
  progress : List Nat
  fileSize : Nat
  commitSize : Nat
  topSize : Nat
  topBytes : Nat
  anyNewUnreachables : Bool
  fuel : Nat
  writes_ok : ∀ s ∈ writes, 0 < s ∧ s % 8 = 0
  evacSize_ok : 0 < evacSize ∧ evacSize % 8 = 0
  topBytes_ok : 0 < topBytes ∧ topBytes % 8 = 0

/-- A completed commit: the new version, the arrays written on the way, the writer as it ended. -/
structure Committed where
  version : Version
  written : List Block
  writer : Writer
  deriving DecidableEq, Repr

def oldestReachable (live : List Version) : Nat := (live.map Version.version).headD 0

/-- `prepare_evacuation`: the limit, the number of commits to wait, and the progress so far.
Evacuation is given up when the free lists were allocated above the limit. -/
def prepareEvacuation (replaced : Version) : Nat × Nat × List Nat :=
  match replaced.evac with
  | .none => (0, 0, [])
  | .start limit => (limit, 0, [])
  | .record limit backoff progress =>
    let progress := if backoff > 0 then [] else progress
    if limit > 0 ∧ ((replaced.arrays.map Block.ref).headD 0) > limit then (0, 10, progress)
    else (limit, backoff - 1, progress)

/-- The shrinking of the logical file size: one block is left under evacuation, and it reaches the
end of the file. -/
def shrink (cfg : Config) (w : Writer) : Option Writer :=
  match w.underEvac with
  | [elem] =>
    if elem.ref + elem.size = w.logicalSize then
      let logical := roundUpToPageSize cfg elem.ref
      let size := logical - elem.ref
      some { w with
        logicalSize := logical
        underEvac := if size = 0 then [] else [{ elem with size }]
        evacLimit := 0 }
    else none
  | _ => none

def minimalCompactionSize : Nat := 0x100000
def minimalEvacLimit : Nat := 0x10000

/-- The decision to start an evacuation, taken when two thirds of the file are free.  `es` is the
free list before the reserved block gives up the space used. -/
def startEvacuation (cfg : Config) (w : Writer) (es : List Entry) (freed : List Block)
    (maxNeeded : Nat) (reserve : Block) (point : EvacPoint) : EvacPoint :=
  if w.logicalSize ≥ minimalCompactionSize ∧ w.evacLimit = 0 ∧ w.backoff = 0 then
    let others := ((es.filter fun e => e.ref ≠ reserve.ref).map Entry.size).sum
    let locked := (w.notFree.map Entry.size).sum + (freed.map Block.size).sum
    let freeSpace := others + reserve.size - maxNeeded - locked
    let usedSpace := w.logicalSize - freeSpace
    if freeSpace > 2 * usedSpace then
      .start (max minimalEvacLimit (roundUpToPageSize cfg (usedSpace + usedSpace / 2)))
    else point
  else point

/-- The end of `write_group`: the free list in its final form, written at the reserved position.
The two conditions are the assertions on the remainder and on the width of the positions. -/
def finishCommit (cfg : Config) (replaced : Version) (c : Commit) (w : Writer)
    (freed nodes : List Block) (point : EvacPoint) (maxNeeded : Nat) (reserve : Block) :
    Option Version :=
  match recreateFreelist w freed c.version with
  | none => none
  | some es =>
    let sizes := arraySizes reserve.ref maxNeeded c.topBytes es
    let endRef := reserve.ref + sizes.sum
    if endRef < reserve.ref + reserve.size ∧
        bitWidth endRef ≤ positionsWidth reserve.ref maxNeeded es then
      match deduct reserve.ref endRef (reserve.ref + reserve.size - endRef) es with
      | none => none
      | some free => some {
          version := c.version
          logicalSize := w.logicalSize
          nodes := nodes
          arrays := stack reserve.ref sizes
          lost := replaced.lost ++ c.lost
          free := free
          evac := startEvacuation cfg w es freed maxNeeded reserve point }
    else none

/-- The array that records the state of evacuation, written while there is a limit or a backoff.  A
finished walk waits for the versions that still hold nodes above the limit. -/
def writeEvacuation (cfg : Config) (c : Commit) (w : Writer) :
    Option (Writer × List Block × EvacPoint) :=
  if w.evacLimit ≠ 0 ∨ w.backoff ≠ 0 then
    let backoff := if w.backoff = 0 ∧ c.progress = [] then 1000 else w.backoff
    match writeArrays cfg c.commitSize c.fuel [c.evacSize] { w with backoff } with
    | none => none
    | some (w', evac) => some (w', evac, .record w.evacLimit backoff c.progress)
  else some (w, [], .none)

def maxFreeSpaceNeeded (c : Commit) (w : Writer) (freed : List Block) : Nat :=
  getMaxByteSize c.topSize + sizePerFreeListEntry w.logicalSize *
    (w.sizeMap.length + freed.length + w.notFree.length + w.underEvac.length + 10)

/-- The locked entries after `if (m_any_new_unreachables) backdate()`. -/
def backdateLocked (live : List Version) (c : Commit) (locked : List Entry) : List Entry :=
  if c.anyNewUnreachables then backdate live (oldestReachable live) c.version locked else locked

/-- The writer after `prepare_evacuation` and `read_in_freelist`. -/
def startWriter (live : List Version) (replaced : Version) (c : Commit) : Writer :=
  readInFreelist (oldestReachable live) replaced.free replaced.logicalSize c.fileSize
    (prepareEvacuation replaced).1 (prepareEvacuation replaced).2.1

/-- `GroupWriter::write_group` with the given `m_top_ref_map`.  The free list arrays and the top of
the replaced version are freed along with the nodes the transaction frees. -/
def writeGroup (cfg : Config) (live : List Version) (replaced : Version) (c : Commit) :
    Option Committed :=
  match writeArrays cfg c.commitSize c.fuel c.writes (startWriter live replaced c) with
  | none => none
  | some (w, tree) =>
    match writeEvacuation cfg c w with
    | none => none
    | some (w, evac, point) =>
      let w := { w with notFree := backdateLocked live c w.notFree }
      match freeAll (replaced.arrays ++ c.freed) [] with
      | none => none
      | some freed =>
        let maxNeeded := maxFreeSpaceNeeded c w freed
        match reserveFreeSpace cfg c.commitSize c.fuel (maxNeeded + 8) w with
        | none => none
        | some (w, reserve) =>
          match shrink cfg w with
          | none =>
            match finishCommit cfg replaced c w freed (c.kept ++ tree ++ evac) point maxNeeded
                reserve with
            | none => none
            | some v => some ⟨v, tree ++ evac, w⟩
          | some w =>
            match freeAll evac freed with
            | none => none
            | some freed =>
              match finishCommit cfg replaced c w freed (c.kept ++ tree) .none maxNeeded
                  reserve with
              | none => none
              | some v => some ⟨v, tree ++ evac, w⟩

/-! ## Arrays in a row -/

theorem cover_stack (x : Nat) : ∀ (start : Nat) (sizes : List Nat),
    cover (stack start sizes) x = (Block.mk start sizes.sum).ind x
  | start, [] => (ind_eq_zero_of_size rfl x).symm
  | start, size :: sizes => by
    rw [stack, cover_cons, cover_stack x (start + size) sizes, List.sum_cons]
    exact (ind_join (a := ⟨start, size⟩) (b := ⟨start + size, sizes.sum⟩) rfl x).symm

theorem stack_aligned : ∀ {start : Nat} {sizes : List Nat}, start % 8 = 0 →
    (∀ s ∈ sizes, 0 < s ∧ s % 8 = 0) → ∀ b ∈ stack start sizes, Aligned b
  | _, [], _, _ => by simp [stack]
  | start, size :: sizes, h8, hs => by
    obtain ⟨⟨hpos, hmod⟩, hsizes⟩ := List.forall_mem_cons.mp hs
    exact List.forall_mem_cons.mpr ⟨⟨hpos, h8, hmod⟩, stack_aligned (by omega) hsizes⟩

theorem calcByteSize_ok (size width : Nat) :
    0 < calcByteSize size width ∧ calcByteSize size width % 8 = 0 := by
  unfold calcByteSize
  omega

theorem arraySizes_ok (reservePos maxNeeded : Nat) (es : List Entry) {topBytes : Nat}
    (htop : 0 < topBytes ∧ topBytes % 8 = 0) :
    ∀ s ∈ arraySizes reservePos maxNeeded topBytes es, 0 < s ∧ s % 8 = 0 := by
  intro s hs
  simp only [arraySizes, List.mem_cons, List.not_mem_nil, or_false] at hs
  rcases hs with rfl | rfl | rfl | rfl
  · exact calcByteSize_ok _ _
  · exact calcByteSize_ok _ _
  · exact calcByteSize_ok _ _
  · exact htop

theorem sum_mod_eight : ∀ {sizes : List Nat}, (∀ s ∈ sizes, 0 < s ∧ s % 8 = 0) →
    sizes.sum % 8 = 0
  | [], _ => rfl
  | s :: sizes, h => by
    obtain ⟨⟨-, h8⟩, hsizes⟩ := List.forall_mem_cons.mp h
    have := sum_mod_eight hsizes
    rw [List.sum_cons]
    omega

/-! ## The free list in its final form -/

/-- Entries in order of position, none overlapping the next. -/
def Ordered (es : List Entry) : Prop := es.Pairwise fun a b => a.ref + a.size ≤ b.ref

theorem checkOrder_iff : ∀ {es : List Entry} {prevEnd : Nat},
    checkOrder prevEnd es = true ↔ Ordered es ∧ ∀ e ∈ es, prevEnd ≤ e.ref
  | [], prevEnd => by simp [checkOrder, Ordered]
  | e :: es, prevEnd => by
    have hcons : Ordered (e :: es) ↔ (∀ f ∈ es, e.ref + e.size ≤ f.ref) ∧ Ordered es :=
      List.pairwise_cons
    rw [checkOrder, Bool.and_eq_true, decide_eq_true_eq, checkOrder_iff, hcons,
      List.forall_mem_cons]
    constructor
    · rintro ⟨h1, h2, h3⟩
      exact ⟨⟨h3, h2⟩, h1, fun f hf => by have := h3 f hf; omega⟩
    · rintro ⟨⟨h1, h2⟩, h3, -⟩
      exact ⟨h3, h2, h1⟩

theorem coverE_collect (w : Writer) (freed : List Block) (current x : Nat) :
    coverE (collect w freed current) x =
      cover w.usable x + coverE w.notFree x + cover freed x := by
  have hblocks : ∀ (bs : List Block) (stamp : Nat),
      coverE (bs.map fun b => ⟨b.ref, b.size, stamp⟩) x = cover bs x := by
    intro bs stamp
    rw [coverE, List.map_map]
    exact congrArg (cover · x) (List.map_id bs)
  have hentries : coverE (w.underEvac.map fun e => ⟨e.ref, e.size, 0⟩) x = coverE w.underEvac x := by
    rw [coverE, List.map_map]
    rfl
  simp only [collect, coverE_append, hblocks, hentries, Writer.cover_usable]
  omega

theorem mem_collect {w : Writer} {freed : List Block} {current : Nat} {e : Entry}
    (h : e ∈ collect w freed current) :
    (e.releasedAt = 0 ∧ e.block ∈ w.usable) ∨ e ∈ w.notFree ∨
      (e.releasedAt = current ∧ e.block ∈ freed) := by
  simp only [collect, List.mem_append, List.mem_map] at h
  rcases h with ((⟨b, hb, rfl⟩ | h) | ⟨b, hb, rfl⟩) | ⟨f, hf, rfl⟩
  · exact .inl ⟨rfl, List.mem_append_left _ hb⟩
  · exact .inr (.inl h)
  · exact .inr (.inr ⟨rfl, hb⟩)
  · exact .inl ⟨rfl, List.mem_append_right _ (List.mem_map.mpr ⟨f, hf, rfl⟩)⟩

theorem recreateFreelist_spec {w : Writer} {freed : List Block} {current : Nat} {es : List Entry}
    (h : recreateFreelist w freed current = some es) :
    es.Perm (collect w freed current) ∧ Ordered es := by
  unfold recreateFreelist at h
  dsimp only at h
  split at h
  · rename_i hcheck
    cases h
    exact ⟨List.perm_insertionSort _ _, (checkOrder_iff.mp hcheck).1⟩
  · cases h

theorem deduct_spec {reservePos endRef rest : Nat} : ∀ {es es' : List Entry},
    deduct reservePos endRef rest es = some es' →
    ∃ pre e post, es = pre ++ e :: post ∧ e.ref = reservePos ∧
      es' = pre ++ ⟨endRef, rest, e.releasedAt⟩ :: post
  | [], _, h => by cases h
  | e :: es, es', h => by
    unfold deduct at h
    split at h
    · rename_i href
      cases h
      exact ⟨[], e, es, rfl, href, rfl⟩
    · obtain ⟨tail, htail, rfl⟩ := Option.map_eq_some_iff.mp h
      obtain ⟨pre, f, post, rfl, href, rfl⟩ := deduct_spec htail
      exact ⟨e :: pre, f, post, rfl, href, rfl⟩

theorem Ordered.eq_of_ref_eq : ∀ {es : List Entry}, Ordered es → (∀ e ∈ es, 0 < e.size) →
    ∀ {a b : Entry}, a ∈ es → b ∈ es → a.ref = b.ref → a = b
  | e :: es, h, hpos, a, b, ha, hb, hab => by
    obtain ⟨he, hes⟩ := List.pairwise_cons.mp h
    have hsize := hpos e (by simp)
    rcases List.mem_cons.mp ha with hae | hae <;> rcases List.mem_cons.mp hb with hbe | hbe
    · rw [hae, hbe]
    · have := he b hbe
      rw [hae] at hab
      omega
    · have := he a hae
      rw [hbe] at hab
      omega
    · exact Ordered.eq_of_ref_eq hes (fun f hf => hpos f (by simp [hf])) hae hbe hab

/-- **The new free list and the arrays it is written in hold exactly the space of the writer, of the
locked entries and of the freed nodes.** -/
structure Finished (replaced : Version) (c : Commit) (w : Writer) (freed nodes : List Block)
    (v : Version) : Prop where
  version_eq : v.version = c.version
  logical_eq : v.logicalSize = w.logicalSize
  nodes_eq : v.nodes = nodes
  lost_eq : v.lost = replaced.lost ++ c.lost
  ordered : Ordered v.free
  free_aligned : ∀ e ∈ v.free, Aligned e.block
  arrays_aligned : ∀ b ∈ v.arrays, Aligned b
  cover_eq : ∀ x, coverE v.free x + cover v.arrays x =
    cover w.usable x + coverE w.notFree x + cover freed x
  arrays_usable : ∀ x, 0 < cover v.arrays x → 0 < cover w.usable x
  entries : ∀ e ∈ v.free, (e.releasedAt = 0 ∧ ∀ x, e.block.Has x → 0 < cover w.usable x) ∨
    e ∈ w.notFree ∨ e.releasedAt = c.version
  keeps : ∀ e ∈ collect w freed c.version, e.releasedAt ≠ 0 → e ∈ v.free
  limit_mod : v.evac.limit % 8 = 0

theorem startEvacuation_mod {cfg : Config} {w : Writer} {es : List Entry} {freed : List Block}
    {maxNeeded : Nat} {reserve : Block} {point : EvacPoint} (h : point.limit % 8 = 0) :
    (startEvacuation cfg w es freed maxNeeded reserve point).limit % 8 = 0 := by
  unfold startEvacuation
  split
  · dsimp only
    split
    · have := roundUpToPageSize_mod cfg
      simp only [EvacPoint.limit, minimalEvacLimit]
      rcases Nat.le_total 0x10000 (roundUpToPageSize cfg _) with hle | hle
      · rw [Nat.max_eq_right hle]
        exact this _
      · rw [Nat.max_eq_left hle]
    · exact h
  · exact h

theorem finishCommit_spec {cfg : Config} {replaced : Version} {c : Commit} {w : Writer}
    {freed nodes : List Block} {point : EvacPoint} {maxNeeded : Nat} {reserve : Block} {v : Version}
    (hmem : reserve ∈ w.sizeMap) (hw : ∀ b ∈ w.usable, Aligned b)
    (hlocked : ∀ e ∈ w.notFree, Aligned e.block) (hfreed : ∀ b ∈ freed, Aligned b)
    (hpoint : point.limit % 8 = 0)
    (h : finishCommit cfg replaced c w freed nodes point maxNeeded reserve = some v) :
    Finished replaced c w freed nodes v := by
  unfold finishCommit at h
  split at h
  · cases h
  rename_i es hes
  obtain ⟨hperm, hord⟩ := recreateFreelist_spec hes
  dsimp only at h
  split at h
  case isFalse => cases h
  rename_i hend
  obtain ⟨hend, -⟩ := hend
  split at h
  · cases h
  rename_i free hfree
  have hsizes := arraySizes_ok reserve.ref maxNeeded es c.topBytes_ok
  generalize arraySizes reserve.ref maxNeeded c.topBytes es = sizes at h hend hfree hsizes
  obtain ⟨hrpos, hr8, hrs8⟩ := hw reserve (List.mem_append_left _ hmem)
  have haligned : ∀ e ∈ es, Aligned e.block := by
    intro e he
    rcases mem_collect (hperm.mem_iff.mp he) with ⟨-, h⟩ | h | ⟨-, h⟩
    · exact hw _ h
    · exact hlocked e h
    · exact hfreed _ h
  -- the entry at the reserved position is the reserved block
  have hentry : Entry.mk reserve.ref reserve.size 0 ∈ es := by
    rw [hperm.mem_iff]
    simp only [collect, List.mem_append, List.mem_map]
    exact .inl (.inl (.inl ⟨reserve, hmem, rfl⟩))
  obtain ⟨pre, e, post, rfl, href, rfl⟩ := deduct_spec hfree
  have he : e = ⟨reserve.ref, reserve.size, 0⟩ :=
    hord.eq_of_ref_eq (fun f hf => (haligned f hf).size_pos) (by simp) hentry href
  subst he
  have hmod := sum_mod_eight hsizes
  have hsplit : ∀ x, (Block.mk reserve.ref reserve.size).ind x =
      (Block.mk reserve.ref sizes.sum).ind x +
        (Block.mk (reserve.ref + sizes.sum) (reserve.size - sizes.sum)).ind x :=
    fun x => ind_split reserve (by omega) x
  have hrest : reserve.ref + reserve.size - (reserve.ref + sizes.sum) = reserve.size - sizes.sum := by
    omega
  have husable : ∀ x, (Block.mk reserve.ref reserve.size).ind x ≤ cover w.usable x :=
    fun x => ind_le_cover (List.mem_append_left _ hmem) x
  rw [hrest] at h
  cases h
  refine ⟨rfl, rfl, rfl, rfl, ?_, ?_, stack_aligned hr8 hsizes, fun x => ?_, fun x => ?_, ?_, ?_,
    startEvacuation_mod hpoint⟩
  · -- the entry shrinks from the front
    obtain ⟨h1, h2, h3⟩ := List.pairwise_append.mp hord
    obtain ⟨h4, h5⟩ := List.pairwise_cons.mp h2
    refine List.pairwise_append.mpr ⟨h1, List.pairwise_cons.mpr ⟨fun f hf => ?_, h5⟩, ?_⟩
    · have := h4 f hf
      dsimp only at this ⊢
      omega
    · intro a ha b hb
      rcases List.mem_cons.mp hb with rfl | hb
      · have := h3 a ha _ (List.mem_cons_self ..)
        dsimp only at this ⊢
        omega
      · exact h3 a ha b (List.mem_cons_of_mem _ hb)
  · intro f hf
    rcases List.mem_append.mp hf with hf | hf
    · exact haligned f (by simp [hf])
    · rcases List.mem_cons.mp hf with rfl | hf
      · refine ⟨?_, ?_, ?_⟩ <;> simp only [Entry.block] <;> omega
      · exact haligned f (by simp [hf])
  · have hcollect := coverE_collect w freed c.version x
    have hes := cover_perm (hperm.map Entry.block) x
    change coverE _ x = coverE _ x at hes
    rw [← hes] at hcollect
    simp only [coverE_append, coverE_cons, Entry.block] at hcollect ⊢
    rw [cover_stack]
    have := hsplit x
    omega
  · dsimp only
    rw [cover_stack]
    have := hsplit x
    have := husable x
    omega
  · intro f hf
    have hold : ∀ g ∈ pre ++ Entry.mk reserve.ref reserve.size 0 :: post,
        (g.releasedAt = 0 ∧ ∀ x, g.block.Has x → 0 < cover w.usable x) ∨
          g ∈ w.notFree ∨ g.releasedAt = c.version := by
      intro g hg
      rcases mem_collect (hperm.mem_iff.mp hg) with ⟨h0, h⟩ | h | ⟨h, -⟩
      · exact .inl ⟨h0, fun x hx => cover_pos_iff.mpr ⟨_, h, hx⟩⟩
      · exact .inr (.inl h)
      · exact .inr (.inr h)
    rcases List.mem_append.mp hf with hf | hf
    · exact hold f (by simp [hf])
    · rcases List.mem_cons.mp hf with rfl | hf
      · refine .inl ⟨rfl, fun x hx => ?_⟩
        have := hsplit x
        have := husable x
        have := ind_pos_iff.mpr hx
        simp only [Entry.block] at this
        omega
      · exact hold f (by simp [hf])
  · intro f hf hne
    rcases List.mem_append.mp (hperm.mem_iff.mpr hf) with hf | hf
    · exact List.mem_append_left _ hf
    · rcases List.mem_cons.mp hf with rfl | hf
      · exact absurd rfl hne
      · exact List.mem_append_right _ (List.mem_cons_of_mem _ hf)

/-! ## What a commit does to the space -/

/-- What a version says about its own file.  A file in streaming form may end anywhere, but has no free
space. -/
structure Version.WF (cfg : Config) (v : Version) : Prop where
  tiles : Tiles (v.used ++ v.free.map Entry.block) v.logicalSize
  ordered : Ordered v.free
  free_aligned : ∀ e ∈ v.free, Aligned e.block
  used_aligned : ∀ b ∈ v.used, Aligned b
  logical : (v.logicalSize % 8 = 0 ∧ v.free = []) ∨ cfg.page ∣ v.logicalSize
  limit_mod : v.evac.limit % 8 = 0

/-- An address a commit may hand out: free since the oldest reachable version, or beyond the end of
the replaced version. -/
def Fresh (live : List Version) (replaced : Version) (x : Nat) : Prop :=
  (∃ e ∈ replaced.free, e.releasedAt ≤ oldestReachable live ∧ e.block.Has x) ∨
    replaced.logicalSize ≤ x

/-- The file has not shrunk, and where it held the replaced version it holds all that the commit
wrote. -/
structure OnFile (replaced : Version) (c : Commit) (r : Committed) : Prop where
  size_le : c.fileSize ≤ r.writer.fileSize
  size_mod : c.fileSize % 8 = 0 → r.writer.fileSize % 8 = 0
  within : replaced.logicalSize ≤ c.fileSize → r.version.logicalSize ≤ r.writer.fileSize ∧
    ∀ x, 0 < cover (r.written ++ r.version.arrays) x → x < r.writer.fileSize

/-- The effect of a commit on the space of the replaced version. -/
structure Effect (cfg : Config) (live : List Version) (replaced : Version) (c : Commit)
    (r : Committed) : Prop where
  version_eq : r.version.version = c.version
  lost_eq : r.version.lost = replaced.lost ++ c.lost
  kept : ∀ b ∈ c.kept, b ∈ r.version.nodes
  written_aligned : ∀ b ∈ r.written, Aligned b
  wf : r.version.WF cfg
  file : OnFile replaced c r
  fresh : ∀ x, 0 < cover (r.written ++ r.version.arrays) x → Fresh live replaced x
  entries : ∀ e ∈ r.version.free,
    (e.releasedAt = 0 ∧ ∀ x, e.block.Has x → Fresh live replaced x) ∨
      (∃ f ∈ replaced.free, Backdated live replaced.version f e) ∨ e.releasedAt = c.version
  beyond : ∀ x, r.version.logicalSize ≤ x → Fresh live replaced x
  locked : ∀ e ∈ replaced.free, e.releasedAt > oldestReachable live → 0 < e.releasedAt →
    c.anyNewUnreachables = false ∨
      backdateSingleEntry live (oldestReachable live) c.version e = e → e ∈ r.version.free
  released : ∀ x, 0 < cover replaced.used x + cover (r.written ++ r.version.arrays) x →
    0 < cover r.version.used x ∨ ∃ e ∈ r.version.free, e.block.Has x ∧ e.releasedAt = c.version

theorem writeGroup_cases {cfg : Config} {live : List Version} {replaced : Version} {c : Commit}
    {r : Committed} (h : writeGroup cfg live replaced c = some r) :
    ∃ w₁ tree w₂ evac point freed w₃ reserve,
      writeArrays cfg c.commitSize c.fuel c.writes (startWriter live replaced c) =
        some (w₁, tree) ∧
      writeEvacuation cfg c w₁ = some (w₂, evac, point) ∧
      freeAll (replaced.arrays ++ c.freed) [] = some freed ∧
      reserveFreeSpace cfg c.commitSize c.fuel
        (maxFreeSpaceNeeded c { w₂ with notFree := backdateLocked live c w₂.notFree } freed + 8)
        { w₂ with notFree := backdateLocked live c w₂.notFree } = some (w₃, reserve) ∧
      r.written = tree ++ evac ∧ ∃ maxNeeded,
      ((shrink cfg w₃ = none ∧ r.writer = w₃ ∧
          finishCommit cfg replaced c w₃ freed (c.kept ++ tree ++ evac) point maxNeeded reserve =
            some r.version) ∨
        ∃ w₄ freed', shrink cfg w₃ = some w₄ ∧ r.writer = w₄ ∧ freeAll evac freed = some freed' ∧
          finishCommit cfg replaced c w₄ freed' (c.kept ++ tree) .none maxNeeded reserve =
            some r.version) := by
  unfold writeGroup at h
  dsimp only at h
  split at h
  · cases h
  rename_i w₁ tree h₁
  split at h
  · cases h
  rename_i w₂ evac point h₂
  split at h
  · cases h
  rename_i freed hfreed
  split at h
  · cases h
  rename_i w₃ reserve h₃
  refine ⟨w₁, tree, w₂, evac, point, freed, w₃, reserve, h₁, h₂, hfreed, h₃, ?_⟩
  split at h
  · rename_i hshrink
    split at h
    · cases h
    rename_i v hv
    cases h
    exact ⟨rfl, _, .inl ⟨hshrink, rfl, hv⟩⟩
  · rename_i w₄ hshrink
    split at h
    · cases h
    rename_i freed' hfreed'
    split at h
    · cases h
    rename_i v hv
    cases h
    exact ⟨rfl, _, .inr ⟨w₄, freed', hshrink, rfl, hfreed', hv⟩⟩

theorem shrink_spec {cfg : Config} {w w' : Writer} (hok : w.Ok) (hpage : cfg.page ∣ w.logicalSize)
    (h : shrink cfg w = some w') :
    w'.sizeMap = w.sizeMap ∧ w'.notFree = w.notFree ∧ w'.fileSize = w.fileSize ∧
      w'.logicalSize ≤ w.logicalSize ∧ cfg.page ∣ w'.logicalSize ∧ (∀ b ∈ w'.usable, Aligned b) ∧
      ∀ x, cover w'.usable x +
        (Block.mk w'.logicalSize (w.logicalSize - w'.logicalSize)).ind x = cover w.usable x := by
  unfold shrink at h
  split at h
  · rename_i elem helem
    split at h
    · rename_i hend
      have h1 := le_roundUpToPageSize cfg elem.ref
      have h2 := roundUpToPageSize_le cfg (show elem.ref ≤ w.logicalSize by omega) hpage
      have h3 := roundUpToPageSize_mod cfg elem.ref
      obtain ⟨ha1, ha2, ha3⟩ := hok.aligned elem.block
        (List.mem_append_right _ (by simp [helem]))
      simp only [Entry.block] at ha1 ha2 ha3
      cases h
      refine ⟨rfl, rfl, rfl, h2, dvd_roundUpToPageSize cfg _, fun b hb => ?_, fun x => ?_⟩
      · rcases List.mem_append.mp hb with hb | hb
        · exact hok.sizeMap_aligned b hb
        · dsimp only at hb
          split at hb
          · simp at hb
          · simp only [List.map_cons, List.map_nil, List.mem_singleton, Entry.block] at hb
            subst hb
            refine ⟨?_, ?_, ?_⟩ <;> dsimp only <;> omega
      · have hsplit := ind_split (Block.mk elem.ref elem.size)
          (k := roundUpToPageSize cfg elem.ref - elem.ref) (by dsimp only; omega) x
        dsimp only at hsplit
        rw [Nat.add_sub_cancel' h1, show elem.size - (roundUpToPageSize cfg elem.ref - elem.ref) =
          w.logicalSize - roundUpToPageSize cfg elem.ref by omega] at hsplit
        rw [Writer.cover_usable, Writer.cover_usable, helem]
        dsimp only
        split
        · rename_i hzero
          have := ind_eq_zero_of_size
            (b := ⟨elem.ref, roundUpToPageSize cfg elem.ref - elem.ref⟩) hzero x
          simp only [coverE_cons, coverE_nil, Entry.block]
          omega
        · simp only [coverE_cons, coverE_nil, Entry.block]
          omega
    · cases h
  · cases h

theorem prepareEvacuation_mod {v : Version} (h : v.evac.limit % 8 = 0) :
    (prepareEvacuation v).1 % 8 = 0 := by
  unfold prepareEvacuation
  split
  · rfl
  · rename_i limit hv
    rwa [hv] at h
  · rename_i limit backoff progress hv
    dsimp only
    split
    · rfl
    · rwa [hv] at h

theorem writeEvacuation_spec {cfg : Config} {c : Commit} {w w' : Writer} {evac : List Block}
    {point : EvacPoint} (hok : w.Ok) (h : writeEvacuation cfg c w = some (w', evac, point)) :
    Grows cfg w w' evac ∧ (∀ b ∈ evac, Aligned b) ∧ point.limit % 8 = 0 := by
  unfold writeEvacuation at h
  split at h
  · dsimp only at h
    split at h
    · cases h
    rename_i w₁ evac₁ hwrite
    cases h
    have hsize : ∀ s ∈ [c.evacSize], 0 < s ∧ s % 8 = 0 := by simpa using c.evacSize_ok
    -- the backoff takes no part in allocation
    have hok' : ∀ n, Writer.Ok { w with backoff := n } :=
      fun n => ⟨hok.aligned, hok.logical_mod, hok.limit_mod⟩
    obtain ⟨hg, hevac⟩ := writeArrays_spec hsize (hok' _) hwrite
    exact ⟨⟨hg.notFree, hg.logical_le, hg.cover_eq, hg.ok, hg.page, hg.file_le, hg.file_mod, hg.within⟩,
      hevac, hok.limit_mod⟩
  · cases h
    exact ⟨.refl hok, by simp, rfl⟩

theorem coverE_filter (es : List Entry) (oldest x : Nat) :
    coverE es x = coverE (es.filter fun e => e.releasedAt ≤ oldest) x +
      coverE (es.filter fun e => e.releasedAt > oldest) x := by
  induction es with
  | nil => rfl
  | cons e es ih =>
    by_cases he : e.releasedAt ≤ oldest
    · rw [List.filter_cons_of_pos (by simpa using he), List.filter_cons_of_neg (by simpa using he)]
      simp only [coverE_cons]
      omega
    · rw [List.filter_cons_of_neg (by simpa using he), List.filter_cons_of_pos (by simpa using he)]
      simp only [coverE_cons]
      omega

theorem backdateLocked_spec {live : List Version} (hs : Snapshots live) (c : Commit) (hi : Nat)
    (locked : List Entry) :
    (backdateLocked live c locked).map Entry.block = locked.map Entry.block ∧
      ∀ e' ∈ backdateLocked live c locked, ∃ e ∈ locked, Backdated live hi e e' := by
  unfold backdateLocked
  split
  · exact backdate_spec hs _ _ hi locked
  · exact ⟨rfl, fun e he => ⟨e, he, .refl live hi e⟩⟩

section Effect

variable {cfg : Config} {live : List Version} {replaced : Version} {c : Commit}

/-- The state of the writer when the room for the free list has been reserved. -/
structure AtReserve (cfg : Config) (live : List Version) (replaced : Version) (c : Commit)
    (w : Writer) (reserve : Block) (written : List Block) : Prop where
  ok : w.Ok
  mem : reserve ∈ w.sizeMap
  logical_le : replaced.logicalSize ≤ w.logicalSize
  page : cfg.page ∣ w.logicalSize
  file_le : c.fileSize ≤ w.fileSize
  file_mod : c.fileSize % 8 = 0 → w.fileSize % 8 = 0
  within : replaced.logicalSize ≤ c.fileSize → w.logicalSize ≤ w.fileSize
  notFree : w.notFree = backdateLocked live c
    (replaced.free.filter fun e => e.releasedAt > oldestReachable live)
  written_aligned : ∀ b ∈ written, Aligned b
  cover_eq : ∀ x, cover w.usable x + cover written x =
    coverE (replaced.free.filter fun e => e.releasedAt ≤ oldestReachable live) x +
      (Block.mk replaced.logicalSize (w.logicalSize - replaced.logicalSize)).ind x

theorem Version.WF.logical_mod {v : Version} (h : v.WF cfg) : v.logicalSize % 8 = 0 := by
  rcases h.logical with ⟨h, -⟩ | h
  · exact h
  · exact cfg.mod_of_dvd h

theorem atReserve {w₁ w₂ w₃ : Writer} {tree evac : List Block} {point : EvacPoint}
    {reserve : Block} {size : Nat} (hwf : replaced.WF cfg)
    (h₁ : writeArrays cfg c.commitSize c.fuel c.writes (startWriter live replaced c) =
      some (w₁, tree))
    (h₂ : writeEvacuation cfg c w₁ = some (w₂, evac, point))
    (h₃ : reserveFreeSpace cfg c.commitSize c.fuel (size + 8)
      { w₂ with notFree := backdateLocked live c w₂.notFree } = some (w₃, reserve)) :
    AtReserve cfg live replaced c w₃ reserve (tree ++ evac) ∧ point.limit % 8 = 0 := by
  obtain ⟨hlocked, hcover⟩ := readInFreelist_spec (oldestReachable live) replaced.free
    replaced.logicalSize c.fileSize (prepareEvacuation replaced).1 (prepareEvacuation replaced).2.1
  rw [← startWriter] at hlocked hcover
  have hok : (startWriter live replaced c).Ok := readInFreelist_ok hwf.free_aligned
    (prepareEvacuation_mod hwf.limit_mod) hwf.logical_mod
  have hlogical : (startWriter live replaced c).logicalSize = replaced.logicalSize := rfl
  have hfile : (startWriter live replaced c).fileSize = c.fileSize := rfl
  generalize startWriter live replaced c = w₀ at h₁ hlocked hcover hok hlogical hfile
  obtain ⟨hg₁, htree⟩ := writeArrays_spec c.writes_ok hok h₁
  obtain ⟨hg₂, hevac, hpoint⟩ := writeEvacuation_spec hg₁.ok h₂
  have hg := hg₁.trans hg₂
  have hok₂ : Writer.Ok { w₂ with notFree := backdateLocked live c w₂.notFree } :=
    ⟨hg₂.ok.aligned, hg₂.ok.logical_mod, hg₂.ok.limit_mod⟩
  obtain ⟨hg₃, hmem, -, -⟩ := reserveFreeSpace_spec (by omega) hok₂ h₃
  have hle := hg.logical_le
  have hle₃ : w₂.logicalSize ≤ w₃.logicalSize := hg₃.logical_le
  have hsum : ∀ x, cover w₃.usable x + cover (tree ++ evac) x =
      coverE (replaced.free.filter fun e => e.releasedAt ≤ oldestReachable live) x +
        (Block.mk replaced.logicalSize (w₃.logicalSize - replaced.logicalSize)).ind x := by
    intro x
    have hx := hg.cover_eq x
    have hx₃ := hg₃.cover_eq x
    have hjoin := ind_join (a := ⟨w₀.logicalSize, w₂.logicalSize - w₀.logicalSize⟩)
      (b := ⟨w₂.logicalSize, w₃.logicalSize - w₂.logicalSize⟩) (by dsimp only; omega) x
    dsimp only at hjoin
    rw [show w₂.logicalSize - w₀.logicalSize + (w₃.logicalSize - w₂.logicalSize) =
      w₃.logicalSize - w₀.logicalSize by omega] at hjoin
    change cover w₃.usable x + cover [] x = cover w₂.usable x +
      (Block.mk w₂.logicalSize (w₃.logicalSize - w₂.logicalSize)).ind x at hx₃
    rw [← hlogical, ← hcover x]
    simp only [cover_nil] at hx₃
    omega
  refine ⟨⟨hg₃.ok, hmem, by omega, ?_, hfile ▸ Nat.le_trans hg.file_le hg₃.file_le,
    fun h => hg₃.file_mod (hg.file_mod (hfile ▸ h)),
    fun h => hg₃.within (hg.within (hlogical ▸ hfile ▸ h)), ?_,
    List.forall_mem_append.mpr ⟨htree, hevac⟩, hsum⟩, hpoint⟩
  · rcases hg₃.page with h | h
    · change w₃.logicalSize = w₂.logicalSize at h
      rcases hg.page with h' | h'
      · -- the file has not grown, so the reserved block was free in the replaced version
        rw [h, h', hlogical]
        refine hwf.logical.resolve_left ?_
        rintro ⟨-, hnil⟩
        have hx := hsum reserve.ref
        have hpos := ind_le_cover (List.mem_append_left (w₃.underEvac.map Entry.block) hmem)
          reserve.ref
        have hhas : reserve.Has reserve.ref :=
          ⟨Nat.le_refl _, by have := (hg₃.ok.sizeMap_aligned reserve hmem).size_pos; omega⟩
        rw [hnil, List.filter_nil, coverE_nil, h, h', hlogical, Nat.sub_self,
          ind_eq_zero_of_size (b := ⟨replaced.logicalSize, 0⟩) rfl] at hx
        have := ind_pos_iff.mpr hhas
        rw [Writer.usable] at hx
        omega
      · rw [h]
        exact h'
    · exact h
  · have := hg₃.notFree
    rw [this]
    dsimp only
    rw [hg.notFree, hlocked]

/-- What is left after the logical file size was cut, if it was: the writer, the freed blocks and the
part of the evacuation array still in use. -/
structure Trimmed (cfg : Config) (w w' : Writer) (freed freed' evac evac' : List Block) : Prop where
  sizeMap : w'.sizeMap = w.sizeMap
  notFree : w'.notFree = w.notFree
  file_eq : w'.fileSize = w.fileSize
  logical_le : w'.logicalSize ≤ w.logicalSize
  page : cfg.page ∣ w'.logicalSize
  aligned : ∀ b ∈ w'.usable, Aligned b
  cover_eq : ∀ x, cover w'.usable x +
    (Block.mk w'.logicalSize (w.logicalSize - w'.logicalSize)).ind x = cover w.usable x
  freed_eq : ∀ x, cover freed' x + cover evac' x = cover freed x + cover evac x
  freed_aligned : ∀ b ∈ freed', Aligned b
  evac_sub : ∀ b ∈ evac', b ∈ evac

theorem writeGroup_stages {r : Committed} (hs : Snapshots live) (hwf : replaced.WF cfg)
    (hfreed : ∀ b ∈ c.freed, Aligned b) (h : writeGroup cfg live replaced c = some r) :
    ∃ w reserve tree evac freed w' freed' evac',
      AtReserve cfg live replaced c w reserve (tree ++ evac) ∧ r.written = tree ++ evac ∧
      r.writer = w' ∧ (∀ x, cover freed x = cover replaced.arrays x + cover c.freed x) ∧
      Trimmed cfg w w' freed freed' evac evac' ∧
      Finished replaced c w' freed' (c.kept ++ tree ++ evac') r.version := by
  obtain ⟨w₁, tree, w₂, evac, point, freed, w₃, reserve, h₁, h₂, hf, h₃, hwritten, maxNeeded,
    hend⟩ := writeGroup_cases h
  obtain ⟨hres, hpoint⟩ := atReserve hwf h₁ h₂ h₃
  have harrays : ∀ b ∈ replaced.arrays ++ c.freed, Aligned b := by
    refine List.forall_mem_append.mpr ⟨fun b hb => hwf.used_aligned b ?_, hfreed⟩
    simp [Version.used, Version.reachable, hb]
  obtain ⟨hfcover, hfaligned⟩ := freeAll_spec hf harrays (by simp)
  have hlocked : ∀ e ∈ w₃.notFree, Aligned e.block := by
    rw [hres.notFree]
    intro e he
    obtain ⟨f, hf, hb⟩ := (backdateLocked_spec hs c replaced.version _).2 e he
    rw [hb.block_eq]
    exact hwf.free_aligned f (List.mem_of_mem_filter hf)
  refine ⟨w₃, reserve, tree, evac, freed, ?_⟩
  rcases hend with ⟨-, hwriter, hfin⟩ | ⟨w₄, freed', hshrink, hwriter, hfreed', hfin⟩
  · refine ⟨w₃, freed, evac, hres, hwritten, hwriter, fun x => ?_, ⟨rfl, rfl, rfl, Nat.le_refl _, hres.page,
      hres.ok.aligned, fun x => ?_, fun x => rfl, hfaligned, fun b hb => hb⟩,
      finishCommit_spec hres.mem hres.ok.aligned hlocked hfaligned hpoint hfin⟩
    · rw [hfcover, cover_append, cover_nil, Nat.zero_add]
    · rw [Nat.sub_self, ind_eq_zero_of_size rfl, Nat.add_zero]
  · obtain ⟨hmap, hnot, hfile, hle, hpage, haligned, hcut⟩ := shrink_spec hres.ok hres.page hshrink
    obtain ⟨hfcover', hfaligned'⟩ := freeAll_spec hfreed'
      (fun b hb => hres.written_aligned b (List.mem_append_right _ hb)) hfaligned
    refine ⟨w₄, freed', [], hres, hwritten, hwriter, fun x => ?_, ⟨hmap, hnot, hfile, hle, hpage,
      haligned, hcut, fun x => ?_, hfaligned', by simp⟩, ?_⟩
    · rw [hfcover, cover_append, cover_nil, Nat.zero_add]
    · rw [hfcover', cover_nil, Nat.add_zero]
    · rw [List.append_nil]
      exact finishCommit_spec (hmap ▸ hres.mem) haligned (hnot ▸ hlocked) hfaligned' rfl hfin

theorem writeGroup_spec {r : Committed} (hs : Snapshots live) (hwf : replaced.WF cfg)
    (hnodes : replaced.nodes.Perm (c.kept ++ c.freed ++ c.lost)) (hversion : 0 < c.version)
    (h : writeGroup cfg live replaced c = some r) : Effect cfg live replaced c r := by
  have hused : ∀ b ∈ replaced.nodes, Aligned b := fun b hb =>
    hwf.used_aligned b (by simp [Version.used, Version.reachable, hb])
  have hpart : ∀ b ∈ c.kept ++ c.freed ++ c.lost, Aligned b :=
    fun b hb => hused b (hnodes.mem_iff.mpr hb)
  obtain ⟨w, reserve, tree, evac, freed, w', freed', evac', hres, hwritten, hwriter, hfreed, htrim,
    hfin⟩ := writeGroup_stages hs hwf (fun b hb => hpart b (by simp [hb])) h
  have hlocked := backdateLocked_spec hs c replaced.version
    (replaced.free.filter fun e => e.releasedAt > oldestReachable live)
  -- what the writer may still hand out, and what it has handed out, was fresh
  have hfresh : ∀ x, 0 < cover w.usable x + cover (tree ++ evac) x → Fresh live replaced x := by
    intro x hx
    rw [hres.cover_eq] at hx
    by_cases hfree : 0 < coverE
        (replaced.free.filter fun e => e.releasedAt ≤ oldestReachable live) x
    · obtain ⟨b, hb, hbx⟩ := cover_pos_iff.mp hfree
      obtain ⟨e, he, rfl⟩ := List.mem_map.mp hb
      obtain ⟨he, hle⟩ := List.mem_filter.mp he
      exact .inl ⟨e, he, by simpa using hle, hbx⟩
    · have hind : 0 < (Block.mk replaced.logicalSize (w.logicalSize - replaced.logicalSize)).ind x := by
        omega
      exact .inr (ind_pos_iff.mp hind).1
  have husable : ∀ x, 0 < cover w'.usable x → Fresh live replaced x := fun x hx =>
    hfresh x (by have := htrim.cover_eq x; omega)
  refine ⟨hfin.version_eq, hfin.lost_eq, fun b hb => by simp [hfin.nodes_eq, hb],
    hwritten ▸ hres.written_aligned,
    ⟨fun x => ?_, hfin.ordered, hfin.free_aligned, fun b hb => ?_, .inr ?_, hfin.limit_mod⟩,
    ⟨?_, fun hmod => ?_, fun hle => ⟨?_, fun x hx => ?_⟩⟩, fun x hx => ?_, fun e he => ?_, fun x hx => ?_,
    fun e he hold hpos hback => hfin.keeps e ?_ (by omega), fun x hx => ?_⟩
  · -- the balance of the commit at one address
    have htiles := hwf.tiles x
    have hfilter := coverE_filter replaced.free (oldestReachable live) x
    have hcollect := hfin.cover_eq x
    have hkept := cover_perm hnodes x
    have hcut := htrim.cover_eq x
    have hgrow := hres.cover_eq x
    have hfreed' := htrim.freed_eq x
    have hnot : coverE w'.notFree x =
        coverE (replaced.free.filter fun e => e.releasedAt > oldestReachable live) x := by
      rw [htrim.notFree, hres.notFree, coverE, hlocked.1, coverE]
    have hind : (Block.mk w'.logicalSize (w.logicalSize - w'.logicalSize)).ind x +
        (if x < w'.logicalSize then 1 else 0) =
        (Block.mk replaced.logicalSize (w.logicalSize - replaced.logicalSize)).ind x +
        (if x < replaced.logicalSize then 1 else 0) := by
      have := hres.logical_le
      have := htrim.logical_le
      unfold Block.ind
      dsimp only
      split <;> split <;> split <;> split <;> omega
    rw [hfin.logical_eq]
    simp only [Version.used, Version.reachable, cover_append, cover_cons, hfin.nodes_eq,
      hfin.lost_eq] at htiles ⊢ hkept hgrow
    simp only [coverE] at hfilter hcollect hnot hgrow
    have := hfreed x
    omega
  · simp only [Version.used, Version.reachable, hfin.nodes_eq, hfin.lost_eq, List.mem_append,
      List.mem_cons] at hb
    rcases hb with (rfl | (((hb | hb) | hb) | hb)) | hb | hb
    · exact ⟨by decide, rfl, rfl⟩
    · exact hpart b (by simp [hb])
    · exact hres.written_aligned b (by simp [hb])
    · exact hres.written_aligned b (by simp [htrim.evac_sub b hb])
    · exact hfin.arrays_aligned b hb
    · exact hwf.used_aligned b (by simp [Version.used, hb])
    · exact hpart b (by simp [hb])
  · rw [hfin.logical_eq]
    exact htrim.page
  · rw [hwriter, htrim.file_eq]
    exact hres.file_le
  · rw [hwriter, htrim.file_eq]
    exact hres.file_mod hmod
  · rw [hwriter, htrim.file_eq, hfin.logical_eq]
    exact Nat.le_trans htrim.logical_le (hres.within hle)
  · -- an address beyond the end of the file is neither free in the replaced version nor new
    rw [hwriter, htrim.file_eq]
    refine Nat.lt_of_lt_of_le (Nat.lt_of_not_le fun hge => ?_) (hres.within hle)
    have hused : 0 < cover w.usable x + cover (tree ++ evac) x := by
      rw [hwritten, cover_append] at hx
      have := htrim.cover_eq x
      have := hfin.arrays_usable x
      omega
    have hind : (Block.mk replaced.logicalSize (w.logicalSize - replaced.logicalSize)).ind x = 0 :=
      ind_eq_zero_iff.mpr fun hhas => by
        have := hres.logical_le
        have := hhas.2
        dsimp only at this
        omega
    have htiles := hwf.tiles x
    have hfilter := coverE_filter replaced.free (oldestReachable live) x
    rw [hres.cover_eq, hind] at hused
    rw [cover_append, if_neg (by have := hres.logical_le; omega)] at htiles
    rw [coverE] at hfilter
    omega
  · rw [hwritten, cover_append] at hx
    by_cases harr : 0 < cover r.version.arrays x
    · exact husable x (hfin.arrays_usable x harr)
    · exact hfresh x (by omega)
  · rcases hfin.entries e he with ⟨h0, hx⟩ | hmem | hcur
    · exact .inl ⟨h0, fun x hb => husable x (hx x hb)⟩
    · rw [htrim.notFree, hres.notFree] at hmem
      obtain ⟨f, hf, hb⟩ := hlocked.2 e hmem
      exact .inr (.inl ⟨f, List.mem_of_mem_filter hf, hb⟩)
    · exact .inr (.inr hcur)
  · rw [hfin.logical_eq] at hx
    by_cases hin : x < w.logicalSize
    · refine hfresh x ?_
      have hind : 0 < (Block.mk w'.logicalSize (w.logicalSize - w'.logicalSize)).ind x :=
        ind_pos_iff.mpr ⟨hx, by dsimp only; omega⟩
      have := htrim.cover_eq x
      omega
    · exact .inr (by have := hres.logical_le; omega)
  · refine List.mem_append_left _ (List.mem_append_left _ (List.mem_append_right _ ?_))
    have hmem : e ∈ replaced.free.filter fun e => e.releasedAt > oldestReachable live :=
      List.mem_filter.mpr ⟨he, by simpa using hold⟩
    rw [htrim.notFree, hres.notFree, backdateLocked]
    split
    · rename_i hany
      rcases hback with hback | hback
      · rw [hback] at hany
        exact absurd hany (by decide)
      · exact List.mem_map.mpr ⟨e, hmem, hback⟩
    · exact hmem
  · -- what was in use or has been written is in use or has been freed
    by_cases hfreed' : 0 < cover freed' x
    · obtain ⟨b, hb, hbx⟩ := cover_pos_iff.mp hfreed'
      refine .inr ⟨⟨b.ref, b.size, c.version⟩, hfin.keeps _ ?_ (Nat.ne_of_gt hversion), hbx, rfl⟩
      exact List.mem_append_left _ (List.mem_append_right _ (List.mem_map.mpr ⟨b, hb, rfl⟩))
    · left
      have hbalance := htrim.freed_eq x
      have hkept := cover_perm hnodes x
      have := hfreed x
      rw [hwritten] at hx
      simp only [Version.used, Version.reachable, cover_append, cover_cons, hfin.nodes_eq,
        hfin.lost_eq] at hx hkept ⊢
      omega

end Effect

end Llbt.FreeSpace
