import Llbt.Lib.Blocks

/-!
# The free space of a commit

Embedding of the part of `GroupWriter` that hands out file space: `read_in_freelist` splits the
free list of the replaced version, `reserve_free_space` finds or makes room, `get_free_space` takes
it.  `m_size_map` is a multimap from sizes to positions, here a list of blocks sorted by size.

Space is accounted for with `cover`: `Grows w w'` says that between two states of the writer the
usable space has gained the extension of the file and nothing else.

* `readInFreelist_spec` — the free list is distributed without loss;
* `reserveFreeSpace_spec` — reserving only extends the file;
* `getFreeSpace_spec` — what is handed out is what leaves the usable space.
-/

set_option autoImplicit false

namespace Llbt.FreeSpace

open Blocks

/-! ## Data -/

/-- `FreeSpaceEntry`: a free block with the version that released it. -/
structure Entry where
  ref : Nat
  size : Nat
  releasedAt : Nat
  deriving DecidableEq, Repr

def Entry.block (e : Entry) : Block := ⟨e.ref, e.size⟩

/-- The page size of the system; sections are 64 MiB. -/
structure Config where
  page : Nat
  page_pos : 0 < page
  page_aligned : page % 8 = 0
  page_dvd : page ∣ 2 ^ 26

/-- The fields of `GroupWriter` that allocation reads and writes, and the size of the file. -/
structure Writer where
  sizeMap : List Block
  notFree : List Entry
  underEvac : List Entry
  logicalSize : Nat
  fileSize : Nat
  evacLimit : Nat
  backoff : Nat
  deriving DecidableEq, Repr

/-! ## Sections and pages -/

def sectionSize : Nat := 2 ^ 26

def upperSectionBoundary (pos : Nat) : Nat := (pos / sectionSize + 1) * sectionSize

def alignSizeToSectionBoundary (size : Nat) : Nat :=
  if size % sectionSize = 0 then size else upperSectionBoundary size

def roundUpToPageSize (cfg : Config) (size : Nat) : Nat := (size + cfg.page - 1) / cfg.page * cfg.page

/-- The loop of `find_section_in_range`; each round moves to the next section. -/
def findSectionLoop (endOfBlock requestSize : Nat) : Nat → Nat → Nat
  | 0, _ => 0
  | fuel + 1, allocPos =>
    if allocPos + requestSize ≤ endOfBlock then
      if allocPos + requestSize ≤ upperSectionBoundary allocPos then allocPos
      else findSectionLoop endOfBlock requestSize fuel (upperSectionBoundary allocPos)
    else 0

/-- `SlabAlloc::find_section_in_range`: a place in the block that does not cross a section
boundary, 0 if there is none.  A block of `n` bytes meets at most `n / 64 MiB + 2` sections. -/
def findSectionInRange (startPos freeChunkSize requestSize : Nat) : Nat :=
  findSectionLoop (startPos + freeChunkSize) requestSize (freeChunkSize / sectionSize + 2) startPos

/-! ## Reading the free list -/

/-- The loop of `read_in_freelist`: entries for merging and allocation, locked entries, entries
under evacuation.  A limit of 0 is no limit. -/
def readEntries (oldest evacLimit : Nat) : List Entry → List Entry × List Entry × List Entry
  | [] => ([], [], [])
  | e :: es =>
    let r := readEntries oldest evacLimit es
    if e.releasedAt > oldest then (r.1, e :: r.2.1, r.2.2)
    else if evacLimit ≠ 0 ∧ e.ref + e.size > evacLimit then
      if e.ref < evacLimit then
        let stillFreeSize := evacLimit - e.ref
        (⟨e.ref, stillFreeSize, 0⟩ :: r.1, r.2.1, ⟨evacLimit, e.size - stillFreeSize, 0⟩ :: r.2.2)
      else (r.1, r.2.1, ⟨e.ref, e.size, 0⟩ :: r.2.2)
    else (⟨e.ref, e.size, 0⟩ :: r.1, r.2.1, r.2.2)

/-- The loop of `merge_adjacent_entries_in_freelist`: `prev` grows over the entries that follow it
directly, which keep their place with size 0. -/
def mergeLoop (prev : Entry) (merged : List Entry) : List Entry → List Entry
  | [] => prev :: merged
  | it :: rest =>
    if prev.ref + prev.size = it.ref then
      mergeLoop { prev with size := prev.size + it.size } (merged ++ [{ it with size := 0 }]) rest
    else (prev :: merged) ++ mergeLoop it [] rest

def mergeAdjacent : List Entry → List Entry
  | [] => []
  | e :: es => mergeLoop e [] es

/-- `m_size_map.emplace`: behind the entries of the same size. -/
def emplace (b : Block) : List Block → List Block
  | [] => [b]
  | c :: cs => if c.size ≤ b.size then c :: emplace b cs else b :: c :: cs

def moveToSizeMap (list : List Entry) (sizeMap : List Block) : List Block :=
  list.foldl (fun m e => if e.size ≠ 0 then emplace e.block m else m) sizeMap

/-- `read_in_freelist` on the free list `free` of the replaced version. -/
def readInFreelist (oldest : Nat) (free : List Entry) (logicalSize fileSize evacLimit backoff : Nat) :
    Writer :=
  let r := readEntries oldest evacLimit free
  { sizeMap := moveToSizeMap (mergeAdjacent r.1) []
    notFree := r.2.1
    underEvac := (mergeAdjacent r.2.2).filter (fun e => e.size ≠ 0)
    logicalSize, fileSize, evacLimit, backoff }

/-! ## Finding room -/

def splitChunk (m : List Block) (b : Block) (allocPos : Nat) : List Block × Block :=
  let sizeFirst := allocPos - b.ref
  let second : Block := ⟨allocPos, b.size - sizeFirst⟩
  (emplace second (emplace ⟨b.ref, sizeFirst⟩ (m.erase b)), second)

def searchElement (m : List Block) (b : Block) (size : Nat) : Option (List Block × Block) :=
  let allocPos := findSectionInRange b.ref b.size size
  if allocPos = 0 then none
  else if allocPos ≠ b.ref then some (splitChunk m b allocPos)
  else some (m, b)

/-- The loop of `search_free_space_in_part_of_freelist` over the entries from `lower_bound(size)`
on.  The entries between `size` and `2 * size` that it leaves out one by one are those the source
jumps over with `lower_bound(2 * size)`. -/
def searchPartLoop (m : List Block) (size : Nat) : List Block → Option (List Block × Block)
  | [] => none
  | it :: rest =>
    if it.size = size ∨ it.size ≥ 2 * size then
      match searchElement m it size with
      | some found => some found
      | none => searchPartLoop m size rest
    else searchPartLoop m size rest

def searchPart (m : List Block) (size : Nat) : Option (List Block × Block) :=
  searchPartLoop m size (m.dropWhile fun b => b.size < size)

def growthBoundary : Nat := 1024 * 1024

/-- The size `extend_free_space` grows the file to, before alignment. -/
def minimalNewSize (commitSize requestedSize : Nat) (w : Writer) : Nat :=
  let logical := w.logicalSize
  let minimal := if logical < growthBoundary then logical * 2
    else logical + max growthBoundary (commitSize + commitSize / 8)
  let minimal := max minimal w.fileSize
  let required := logical + requestedSize
  if required > minimal then required else minimal

/-- `extend_free_space`: the file grows to a page boundary and the new space becomes one entry.
`none` is `MaximumFileSizeExceeded`. -/
def extendFreeSpace (cfg : Config) (commitSize requestedSize : Nat) (w : Writer) :
    Option (Writer × Block) :=
  let minimal := minimalNewSize commitSize requestedSize w
  if minimal > (2 ^ 64 - 1) / 4 * 3 then none
  else
    let nextBoundary := alignSizeToSectionBoundary minimal
    let newFileSize := roundUpToPageSize cfg minimal
    let newFileSize := if newFileSize > nextBoundary then nextBoundary else newFileSize
    let chunk : Block := ⟨w.logicalSize, newFileSize - w.logicalSize⟩
    some ({ w with
      sizeMap := emplace chunk w.sizeMap
      logicalSize := newFileSize
      fileSize := max w.fileSize newFileSize }, chunk)

/-- What `reserve_free_space` does when it gives up evacuation: the kept back entries become
usable. -/
def giveUpEvacuation (w : Writer) : Writer :=
  { w with
    sizeMap := w.underEvac.foldl (fun m e => emplace e.block m) w.sizeMap
    underEvac := []
    evacLimit := 0
    backoff := 10 }

/-- The loop of `reserve_free_space`, entered without a chunk. -/
def reserveLoop (cfg : Config) (commitSize size : Nat) : Nat → Writer → Option (Writer × Block)
  | 0, _ => none
  | fuel + 1, w =>
    if w.underEvac ≠ [] then
      let w := giveUpEvacuation w
      match searchPart w.sizeMap size with
      | some (m, b) => some ({ w with sizeMap := m }, b)
      | none => reserveLoop cfg commitSize size fuel w
    else
      match extendFreeSpace cfg commitSize size w with
      | none => none
      | some (w, newChunk) =>
        match searchElement w.sizeMap newChunk size with
        | some (m, b) => some ({ w with sizeMap := m }, b)
        | none => reserveLoop cfg commitSize size fuel w

/-- `reserve_free_space`; `fuel` bounds the number of file extensions. -/
def reserveFreeSpace (cfg : Config) (commitSize fuel size : Nat) (w : Writer) :
    Option (Writer × Block) :=
  match searchPart w.sizeMap size with
  | some (m, b) => some ({ w with sizeMap := m }, b)
  | none => reserveLoop cfg commitSize size fuel w

/-- `get_free_space`: the block handed out. -/
def getFreeSpace (cfg : Config) (commitSize fuel size : Nat) (w : Writer) :
    Option (Writer × Block) :=
  match reserveFreeSpace cfg commitSize fuel size w with
  | none => none
  | some (w, p) =>
    let rest := p.size - size
    let m := w.sizeMap.erase p
    some ({ w with sizeMap := if rest > 0 then emplace ⟨p.ref + size, rest⟩ m else m }, ⟨p.ref, size⟩)

/-- The positions of the arrays of the given sizes, written one after the other. -/
def writeArrays (cfg : Config) (commitSize fuel : Nat) : List Nat → Writer → Option (Writer × List Block)
  | [], w => some (w, [])
  | size :: sizes, w =>
    match getFreeSpace cfg commitSize fuel size w with
    | none => none
    | some (w, b) =>
      match writeArrays cfg commitSize fuel sizes w with
      | none => none
      | some (w, bs) => some (w, b :: bs)

/-! ## Alignment and reordering -/

/-- A non-empty block of whole words. -/
structure Aligned (b : Block) : Prop where
  size_pos : 0 < b.size
  ref_mod : b.ref % 8 = 0
  size_mod : b.size % 8 = 0

/-- The space of a list of entries at one address. -/
def coverE (es : List Entry) (x : Nat) : Nat := cover (es.map Entry.block) x

@[simp] theorem coverE_nil (x : Nat) : coverE [] x = 0 := rfl

@[simp] theorem coverE_cons (e : Entry) (es : List Entry) (x : Nat) :
    coverE (e :: es) x = e.block.ind x + coverE es x := rfl

@[simp] theorem coverE_append (as bs : List Entry) (x : Nat) :
    coverE (as ++ bs) x = coverE as x + coverE bs x := by
  simp [coverE]

theorem emplace_perm (b : Block) : ∀ m : List Block, (emplace b m).Perm (b :: m)
  | [] => .refl _
  | c :: cs => by
    unfold emplace
    split
    · exact ((emplace_perm b cs).cons c).trans (.swap b c cs)
    · exact .refl _

@[simp] theorem cover_emplace (b : Block) (m : List Block) (x : Nat) :
    cover (emplace b m) x = b.ind x + cover m x := by
  rw [cover_perm (emplace_perm b m), cover_cons]

theorem mem_emplace {b c : Block} {m : List Block} : c ∈ emplace b m ↔ c = b ∨ c ∈ m := by
  rw [(emplace_perm b m).mem_iff, List.mem_cons]

/-! ## What reading the free list does -/

theorem readEntries_locked (oldest evacLimit : Nat) : ∀ es : List Entry,
    (readEntries oldest evacLimit es).2.1 = es.filter fun e => e.releasedAt > oldest
  | [] => rfl
  | e :: es => by
    have ih := readEntries_locked oldest evacLimit es
    unfold readEntries
    dsimp only
    split
    · rename_i h
      simp [ih, h]
    · rename_i h
      split
      · split
        · simp [ih, h]
        · simp [ih, h]
      · simp [ih, h]

theorem readEntries_cover (oldest evacLimit : Nat) (x : Nat) : ∀ es : List Entry,
    coverE (readEntries oldest evacLimit es).1 x + coverE (readEntries oldest evacLimit es).2.2 x =
      coverE (es.filter fun e => e.releasedAt ≤ oldest) x
  | [] => rfl
  | e :: es => by
    have ih := readEntries_cover oldest evacLimit x es
    unfold readEntries
    dsimp only
    split
    · rename_i h
      rw [List.filter_cons_of_neg (by simpa using h)]
      exact ih
    · rename_i h
      rw [List.filter_cons_of_pos (by simpa using h), coverE_cons]
      split
      · split
        · rename_i hlim hlt
          have hsplit := ind_split e.block (k := evacLimit - e.ref)
            (by simp only [Entry.block]; omega) x
          simp only [Entry.block, show e.ref + (evacLimit - e.ref) = evacLimit by omega] at hsplit
          simp only [coverE_cons, Entry.block]
          omega
        · simp only [coverE_cons, Entry.block]
          omega
      · simp only [coverE_cons, Entry.block]
        omega

theorem readEntries_aligned (oldest : Nat) {evacLimit : Nat} (hlim : evacLimit % 8 = 0) :
    ∀ {es : List Entry}, (∀ e ∈ es, Aligned e.block) →
      (∀ e ∈ (readEntries oldest evacLimit es).1, Aligned e.block) ∧
        ∀ e ∈ (readEntries oldest evacLimit es).2.2, Aligned e.block
  | [], _ => by simp [readEntries]
  | e :: es, h => by
    obtain ⟨he, hes⟩ := List.forall_mem_cons.mp h
    obtain ⟨ih₁, ih₂⟩ := readEntries_aligned oldest hlim hes
    obtain ⟨h1, h2, h3⟩ := he
    simp only [Entry.block] at h1 h2 h3
    unfold readEntries
    dsimp only
    split
    · exact ⟨ih₁, ih₂⟩
    · split
      · split
        · rename_i hover hlt
          refine ⟨List.forall_mem_cons.mpr ⟨⟨?_, ?_, ?_⟩, ih₁⟩,
            List.forall_mem_cons.mpr ⟨⟨?_, ?_, ?_⟩, ih₂⟩⟩ <;> simp only [Entry.block] <;> omega
        · exact ⟨ih₁, List.forall_mem_cons.mpr ⟨⟨h1, h2, h3⟩, ih₂⟩⟩
      · exact ⟨List.forall_mem_cons.mpr ⟨⟨h1, h2, h3⟩, ih₁⟩, ih₂⟩

theorem mergeLoop_cover (x : Nat) : ∀ (rest : List Entry) (prev : Entry) (merged : List Entry),
    coverE (mergeLoop prev merged rest) x =
      prev.block.ind x + coverE merged x + coverE rest x
  | [], prev, merged => by simp [mergeLoop]
  | it :: rest, prev, merged => by
    unfold mergeLoop
    split
    · rename_i hadj
      rw [mergeLoop_cover x rest]
      have hjoin := ind_join (a := prev.block) (b := it.block) hadj x
      have hzero := ind_eq_zero_of_size (b := Block.mk it.ref 0) rfl x
      simp only [Entry.block] at hjoin
      simp only [coverE_append, coverE_cons, coverE_nil, Entry.block]
      omega
    · rw [coverE_append, coverE_cons, mergeLoop_cover x rest, coverE_cons, coverE_nil]
      omega

theorem mergeAdjacent_cover (es : List Entry) (x : Nat) :
    coverE (mergeAdjacent es) x = coverE es x := by
  cases es with
  | nil => rfl
  | cons e es =>
    rw [mergeAdjacent, mergeLoop_cover, coverE_cons, coverE_nil]
    omega

theorem mergeLoop_aligned : ∀ {rest : List Entry} {prev : Entry} {merged : List Entry},
    Aligned prev.block → (∀ e ∈ merged, e.size = 0) → (∀ e ∈ rest, Aligned e.block) →
    ∀ e ∈ mergeLoop prev merged rest, e.size ≠ 0 → Aligned e.block
  | [], prev, merged, hp, hm, _ => by
    intro e he hne
    rcases List.mem_cons.mp he with rfl | he
    · exact hp
    · exact absurd (hm e he) hne
  | it :: rest, prev, merged, hp, hm, hr => by
    obtain ⟨hit, hrest⟩ := List.forall_mem_cons.mp hr
    unfold mergeLoop
    split
    · refine mergeLoop_aligned ?_ ?_ hrest
      · obtain ⟨h1, h2, h3⟩ := hp
        obtain ⟨h4, -, h6⟩ := hit
        simp only [Entry.block] at h1 h2 h3 h4 h6
        refine ⟨?_, ?_, ?_⟩ <;> simp only [Entry.block] <;> omega
      · intro e he
        rcases List.mem_append.mp he with he | he
        · exact hm e he
        · rw [List.mem_singleton.mp he]
    · intro e he hne
      rcases List.mem_append.mp he with he | he
      · rcases List.mem_cons.mp he with rfl | he
        · exact hp
        · exact absurd (hm e he) hne
      · exact mergeLoop_aligned hit (by simp) hrest e he hne

theorem mergeAdjacent_aligned {es : List Entry} (h : ∀ e ∈ es, Aligned e.block) :
    ∀ e ∈ mergeAdjacent es, e.size ≠ 0 → Aligned e.block := by
  cases es with
  | nil => simp [mergeAdjacent]
  | cons e es =>
    obtain ⟨he, hes⟩ := List.forall_mem_cons.mp h
    exact mergeLoop_aligned he (by simp) hes

theorem moveToSizeMap_cover (x : Nat) : ∀ (list : List Entry) (m : List Block),
    cover (moveToSizeMap list m) x = coverE list x + cover m x
  | [], m => by simp [moveToSizeMap]
  | e :: es, m => by
    rw [moveToSizeMap, List.foldl_cons, ← moveToSizeMap, moveToSizeMap_cover x es, coverE_cons]
    split
    · rw [cover_emplace]
      omega
    · rename_i h
      have := ind_eq_zero_of_size (b := e.block) (not_not.mp h) x
      omega

theorem moveToSizeMap_aligned : ∀ {list : List Entry} {m : List Block},
    (∀ e ∈ list, e.size ≠ 0 → Aligned e.block) → (∀ b ∈ m, Aligned b) →
    ∀ b ∈ moveToSizeMap list m, Aligned b
  | [], m, _, hm => hm
  | e :: es, m, h, hm => by
    obtain ⟨he, hes⟩ := List.forall_mem_cons.mp h
    rw [moveToSizeMap, List.foldl_cons, ← moveToSizeMap]
    refine moveToSizeMap_aligned hes ?_
    split
    · rename_i hne
      intro b hb
      rcases mem_emplace.mp hb with rfl | hb
      · exact he hne
      · exact hm b hb
    · exact hm

/-! ## The space a writer may hand out -/

/-- Entries ready for allocation, and those kept back while the file is evacuated. -/
def Writer.usable (w : Writer) : List Block := w.sizeMap ++ w.underEvac.map Entry.block

theorem Writer.cover_usable (w : Writer) (x : Nat) :
    cover w.usable x = cover w.sizeMap x + coverE w.underEvac x := by
  simp [Writer.usable, coverE]

/-- All usable space consists of whole words, and so does the space below the limit. -/
structure Writer.Ok (w : Writer) : Prop where
  aligned : ∀ b ∈ w.usable, Aligned b
  logical_mod : w.logicalSize % 8 = 0
  limit_mod : w.evacLimit % 8 = 0

/-- **The free list is distributed without loss**: entries released after the oldest reachable
version stay locked, all others are usable. -/
theorem readInFreelist_spec (oldest : Nat) (free : List Entry) (logical physical limit backoff : Nat) :
    (readInFreelist oldest free logical physical limit backoff).notFree =
        free.filter (fun e => e.releasedAt > oldest) ∧
      ∀ x, cover (readInFreelist oldest free logical physical limit backoff).usable x =
        coverE (free.filter fun e => e.releasedAt ≤ oldest) x := by
  refine ⟨readEntries_locked oldest limit free, fun x => ?_⟩
  rw [Writer.cover_usable, readInFreelist]
  dsimp only
  have hfilter : ∀ es : List Entry, coverE (es.filter fun e => e.size ≠ 0) x = coverE es x := by
    intro es
    induction es with
    | nil => rfl
    | cons e es ih =>
      by_cases he : e.size = 0
      · have := ind_eq_zero_of_size (b := e.block) he x
        rw [List.filter_cons_of_neg (by simpa using he), ih, coverE_cons]
        omega
      · rw [List.filter_cons_of_pos (by simpa using he), coverE_cons, coverE_cons, ih]
  rw [moveToSizeMap_cover, hfilter, mergeAdjacent_cover, mergeAdjacent_cover, cover_nil,
    ← readEntries_cover oldest limit x free]
  omega

theorem readInFreelist_ok {oldest : Nat} {free : List Entry} {logical physical limit backoff : Nat}
    (hfree : ∀ e ∈ free, Aligned e.block) (hlim : limit % 8 = 0) (hlog : logical % 8 = 0) :
    (readInFreelist oldest free logical physical limit backoff).Ok := by
  obtain ⟨h₁, h₂⟩ := readEntries_aligned oldest hlim hfree
  refine ⟨fun b hb => ?_, hlog, hlim⟩
  rcases List.mem_append.mp hb with hb | hb
  · exact moveToSizeMap_aligned (mergeAdjacent_aligned h₁) (by simp) b hb
  · obtain ⟨e, he, rfl⟩ := List.mem_map.mp hb
    obtain ⟨he, hne⟩ := List.mem_filter.mp he
    exact mergeAdjacent_aligned h₂ e he (by simpa using hne)

/-- From `w` to `w'` the blocks `out` have left the usable space, and what the file has grown by
has joined it. -/
structure Grows (cfg : Config) (w w' : Writer) (out : List Block) : Prop where
  notFree : w'.notFree = w.notFree
  logical_le : w.logicalSize ≤ w'.logicalSize
  cover_eq : ∀ x, cover w'.usable x + cover out x =
    cover w.usable x + (Block.mk w.logicalSize (w'.logicalSize - w.logicalSize)).ind x
  ok : w'.Ok
  page : w'.logicalSize = w.logicalSize ∨ cfg.page ∣ w'.logicalSize
  file_le : w.fileSize ≤ w'.fileSize
  file_mod : w.fileSize % 8 = 0 → w'.fileSize % 8 = 0
  within : w.logicalSize ≤ w.fileSize → w'.logicalSize ≤ w'.fileSize

theorem Grows.refl {cfg : Config} {w : Writer} (h : w.Ok) : Grows cfg w w [] :=
  ⟨rfl, Nat.le_refl _, fun x => by simp [ind_eq_zero_of_size], h, .inl rfl, Nat.le_refl _, id, id⟩

theorem Grows.trans {cfg : Config} {w w' w'' : Writer} {out out' : List Block}
    (h : Grows cfg w w' out) (h' : Grows cfg w' w'' out') : Grows cfg w w'' (out ++ out') where
  notFree := h'.notFree.trans h.notFree
  logical_le := Nat.le_trans h.logical_le h'.logical_le
  cover_eq x := by
    have h1 := h.cover_eq x
    have h2 := h'.cover_eq x
    have hle := h.logical_le
    have hle' := h'.logical_le
    have hsplit := ind_split (Block.mk w.logicalSize (w''.logicalSize - w.logicalSize))
      (k := w'.logicalSize - w.logicalSize) (by dsimp only; omega) x
    dsimp only at hsplit
    rw [Nat.add_sub_cancel' hle, show w''.logicalSize - w.logicalSize -
      (w'.logicalSize - w.logicalSize) = w''.logicalSize - w'.logicalSize by omega] at hsplit
    rw [cover_append]
    omega
  ok := h'.ok
  page := by
    rcases h'.page with h2 | h2
    · rw [h2]
      exact h.page
    · exact .inr h2
  file_le := Nat.le_trans h.file_le h'.file_le
  file_mod hmod := h'.file_mod (h.file_mod hmod)
  within hle := h'.within (h.within hle)

theorem Grows.of_cover_eq {cfg : Config} {w w' : Writer} (hn : w'.notFree = w.notFree)
    (hl : w'.logicalSize = w.logicalSize) (hf : w'.fileSize = w.fileSize) (hok : w'.Ok)
    (hc : ∀ x, cover w'.usable x = cover w.usable x) : Grows cfg w w' [] :=
  ⟨hn, Nat.le_of_eq hl.symm, fun x => by rw [hc, hl]; simp [ind_eq_zero_of_size], hok, .inl hl,
    Nat.le_of_eq hf.symm, fun h => hf ▸ h, fun h => by rw [hl, hf]; exact h⟩

/-! ## Finding a place in one entry -/

theorem findSectionLoop_spec {endOfBlock size : Nat} : ∀ {fuel start pos : Nat}, start % 8 = 0 →
    findSectionLoop endOfBlock size fuel start = pos → pos ≠ 0 →
    start ≤ pos ∧ pos + size ≤ endOfBlock ∧ pos % 8 = 0 ∧ pos + size ≤ upperSectionBoundary pos
  | 0, _, _, _, h, hne => absurd h.symm hne
  | fuel + 1, start, pos, h8, h, hne => by
    unfold findSectionLoop at h
    split at h
    · rename_i hend
      split at h
      · rename_i hbound
        subst h
        exact ⟨Nat.le_refl _, hend, h8, hbound⟩
      · have hup : start < upperSectionBoundary start ∧ upperSectionBoundary start % 8 = 0 := by
          simp only [upperSectionBoundary, sectionSize]
          omega
        obtain ⟨h1, h2⟩ := findSectionLoop_spec hup.2 h hne
        exact ⟨by omega, h2⟩
    · exact absurd h.symm hne

theorem findSectionInRange_spec {start chunk size pos : Nat} (h8 : start % 8 = 0)
    (h : findSectionInRange start chunk size = pos) (hne : pos ≠ 0) :
    start ≤ pos ∧ pos + size ≤ start + chunk ∧ pos % 8 = 0 ∧
      pos + size ≤ upperSectionBoundary pos :=
  findSectionLoop_spec h8 h hne

/-- The result of a search: the entries hold the same space, and the one found begins with room for
the request that does not cross a section boundary. -/
structure Found (m : List Block) (size : Nat) (m' : List Block) (b : Block) : Prop where
  cover_eq : ∀ x, cover m' x = cover m x
  aligned : ∀ c ∈ m', Aligned c
  mem : b ∈ m'
  size_le : size ≤ b.size
  section_le : b.ref + size ≤ upperSectionBoundary b.ref

theorem splitChunk_found {m : List Block} {b : Block} {size pos : Nat} (hm : ∀ c ∈ m, Aligned c)
    (hb : b ∈ m) (hsize : 0 < size) (hlt : b.ref < pos) (hend : pos + size ≤ b.ref + b.size)
    (hpos : pos % 8 = 0) (hsec : pos + size ≤ upperSectionBoundary pos) :
    Found m size (splitChunk m b pos).1 (splitChunk m b pos).2 := by
  obtain ⟨-, hr, hs⟩ := hm b hb
  unfold splitChunk
  dsimp only
  refine ⟨fun x => ?_, fun c hc => ?_, mem_emplace.mpr (.inl rfl), by dsimp only; omega, hsec⟩
  · have hsplit := ind_split b (k := pos - b.ref) (by omega) x
    rw [Nat.add_sub_cancel' (Nat.le_of_lt hlt)] at hsplit
    rw [cover_emplace, cover_emplace, cover_erase hb]
    omega
  · rcases mem_emplace.mp hc with rfl | hc
    · refine ⟨?_, ?_, ?_⟩ <;> dsimp only <;> omega
    · rcases mem_emplace.mp hc with rfl | hc
      · refine ⟨?_, ?_, ?_⟩ <;> dsimp only <;> omega
      · exact hm c (List.mem_of_mem_erase hc)

theorem searchElement_found {m m' : List Block} {b b' : Block} {size : Nat}
    (hm : ∀ c ∈ m, Aligned c) (hb : b ∈ m) (hsize : 0 < size)
    (h : searchElement m b size = some (m', b')) : Found m size m' b' := by
  obtain ⟨-, hr, -⟩ := hm b hb
  unfold searchElement at h
  dsimp only at h
  split at h
  · cases h
  · rename_i hne
    obtain ⟨h1, h2, h3, h4⟩ := findSectionInRange_spec hr rfl hne
    split at h
    · rename_i hmoved
      cases h
      exact splitChunk_found hm hb hsize (Nat.lt_of_le_of_ne h1 (Ne.symm hmoved)) h2 h3 h4
    · rename_i hsame
      rw [not_not.mp hsame] at h2 h4
      cases h
      exact ⟨fun _ => rfl, hm, hb, by omega, h4⟩

theorem searchPart_found {m m' : List Block} {b : Block} {size : Nat} (hm : ∀ c ∈ m, Aligned c)
    (hsize : 0 < size) (h : searchPart m size = some (m', b)) : Found m size m' b := by
  have hloop : ∀ l : List Block, (∀ c ∈ l, c ∈ m) →
      searchPartLoop m size l = some (m', b) → Found m size m' b := by
    intro l
    induction l with
    | nil =>
      intro _ h
      cases h
    | cons it rest ih =>
      intro hl h
      obtain ⟨hit, hrest⟩ := List.forall_mem_cons.mp hl
      unfold searchPartLoop at h
      split at h
      · split at h
        · rename_i found hfound
          cases h
          exact searchElement_found hm hit hsize hfound
        · exact ih hrest h
      · exact ih hrest h
  exact hloop _ (fun c hc => (List.dropWhile_sublist _).mem hc) h

/-! ## Extending the file, reserving and taking -/

theorem le_roundUpToPageSize (cfg : Config) (n : Nat) : n ≤ roundUpToPageSize cfg n := by
  have h := Nat.div_add_mod (n + cfg.page - 1) cfg.page
  have hlt := Nat.mod_lt (n + cfg.page - 1) cfg.page_pos
  have hpos := cfg.page_pos
  rw [roundUpToPageSize, Nat.mul_comm]
  omega

theorem dvd_roundUpToPageSize (cfg : Config) (n : Nat) : cfg.page ∣ roundUpToPageSize cfg n :=
  Nat.dvd_mul_left _ _

theorem Config.mod_of_dvd (cfg : Config) {n : Nat} (h : cfg.page ∣ n) : n % 8 = 0 :=
  Nat.mod_eq_zero_of_dvd (Nat.dvd_trans (Nat.dvd_of_mod_eq_zero cfg.page_aligned) h)

theorem roundUpToPageSize_mod (cfg : Config) (n : Nat) : roundUpToPageSize cfg n % 8 = 0 :=
  cfg.mod_of_dvd (dvd_roundUpToPageSize cfg n)

theorem roundUpToPageSize_le (cfg : Config) {n m : Nat} (h : n ≤ m) (hm : cfg.page ∣ m) :
    roundUpToPageSize cfg n ≤ m := by
  obtain ⟨k, rfl⟩ := hm
  have hpos := cfg.page_pos
  rw [roundUpToPageSize, Nat.mul_comm cfg.page k]
  refine Nat.mul_le_mul_right _ (Nat.lt_succ_iff.mp ((Nat.div_lt_iff_lt_mul hpos).mpr ?_))
  rw [Nat.succ_mul, Nat.mul_comm k]
  omega

theorem dvd_alignSizeToSectionBoundary (cfg : Config) (n : Nat) :
    cfg.page ∣ alignSizeToSectionBoundary n := by
  refine Nat.dvd_trans cfg.page_dvd ?_
  unfold alignSizeToSectionBoundary
  split
  · exact Nat.dvd_of_mod_eq_zero ‹_›
  · exact Nat.dvd_mul_left _ _

theorem le_alignSizeToSectionBoundary (n : Nat) : n ≤ alignSizeToSectionBoundary n := by
  unfold alignSizeToSectionBoundary
  split
  · exact Nat.le_refl n
  · simp only [upperSectionBoundary, sectionSize]
    omega

theorem lt_minimalNewSize (commitSize : Nat) {size : Nat} (hsize : 0 < size) (w : Writer) :
    w.logicalSize < minimalNewSize commitSize size w := by
  unfold minimalNewSize
  dsimp only
  split <;> split <;> omega

theorem extendFreeSpace_spec {cfg : Config} {commitSize size : Nat} {w w' : Writer} {chunk : Block}
    (hsize : 0 < size) (h : extendFreeSpace cfg commitSize size w = some (w', chunk)) :
    w.logicalSize < w'.logicalSize ∧ cfg.page ∣ w'.logicalSize ∧
      chunk = ⟨w.logicalSize, w'.logicalSize - w.logicalSize⟩ ∧
      w'.sizeMap = emplace chunk w.sizeMap ∧ w'.notFree = w.notFree ∧
      w'.underEvac = w.underEvac ∧ w'.evacLimit = w.evacLimit ∧
      w'.fileSize = max w.fileSize w'.logicalSize := by
  unfold extendFreeSpace at h
  dsimp only at h
  split at h
  · cases h
  have hlt := lt_minimalNewSize commitSize hsize w
  have h1 := le_roundUpToPageSize cfg (minimalNewSize commitSize size w)
  have h2 := le_alignSizeToSectionBoundary (minimalNewSize commitSize size w)
  cases h
  refine ⟨?_, ?_, rfl, rfl, rfl, rfl, rfl, rfl⟩
  · dsimp only
    split <;> omega
  · dsimp only
    split
    · exact dvd_alignSizeToSectionBoundary cfg _
    · exact dvd_roundUpToPageSize cfg _

theorem extendFreeSpace_grows {cfg : Config} {commitSize size : Nat} {w w' : Writer} {chunk : Block}
    (hsize : 0 < size) (hok : w.Ok) (h : extendFreeSpace cfg commitSize size w = some (w', chunk)) :
    Grows cfg w w' [] ∧ chunk ∈ w'.sizeMap := by
  obtain ⟨hlt, hpage, rfl, hmap, hnot, hevac, hlim, hfile⟩ := extendFreeSpace_spec hsize h
  have hmod := cfg.mod_of_dvd hpage
  refine ⟨⟨hnot, Nat.le_of_lt hlt, fun x => ?_, ⟨fun b hb => ?_, hmod, hlim ▸ hok.limit_mod⟩,
    .inr hpage, by omega, fun _ => by omega, fun _ => by omega⟩, ?_⟩
  · rw [Writer.cover_usable, Writer.cover_usable, hmap, hevac, cover_emplace, cover_nil]
    omega
  · rw [Writer.usable, hmap, hevac] at hb
    rcases List.mem_append.mp hb with hb | hb
    · rcases mem_emplace.mp hb with rfl | hb
      · have := hok.logical_mod
        refine ⟨?_, ?_, ?_⟩ <;> dsimp only <;> omega
      · exact hok.aligned b (List.mem_append_left _ hb)
    · exact hok.aligned b (List.mem_append_right _ hb)
  · rw [hmap]
    exact mem_emplace.mpr (.inl rfl)

theorem Found.grows {cfg : Config} {w : Writer} {size : Nat} {m' : List Block} {b : Block}
    (hok : w.Ok) (h : Found w.sizeMap size m' b) : Grows cfg w { w with sizeMap := m' } [] := by
  refine .of_cover_eq rfl rfl rfl ⟨fun c hc => ?_, hok.logical_mod, hok.limit_mod⟩ fun x => ?_
  · rcases List.mem_append.mp hc with hc | hc
    · exact h.aligned c hc
    · exact hok.aligned c (List.mem_append_right _ hc)
  · rw [Writer.cover_usable, Writer.cover_usable, h.cover_eq]

theorem Writer.Ok.sizeMap_aligned {w : Writer} (h : w.Ok) : ∀ b ∈ w.sizeMap, Aligned b :=
  fun b hb => h.aligned b (List.mem_append_left _ hb)

theorem foldl_emplace_perm (m : List Block) : ∀ es : List Entry,
    (es.foldl (fun m e => emplace e.block m) m).Perm (m ++ es.map Entry.block) := by
  intro es
  induction es generalizing m with
  | nil => simp
  | cons e es ih =>
    rw [List.foldl_cons, List.map_cons]
    exact (ih _).trans ((emplace_perm e.block m).append_right _ |>.trans List.perm_middle.symm)

theorem giveUpEvacuation_grows (cfg : Config) {w : Writer} (hok : w.Ok) :
    Grows cfg w (giveUpEvacuation w) [] := by
  have hperm : (giveUpEvacuation w).usable.Perm w.usable := by
    simpa [Writer.usable, giveUpEvacuation] using foldl_emplace_perm w.sizeMap w.underEvac
  exact .of_cover_eq rfl rfl rfl
    ⟨fun b hb => hok.aligned b (hperm.mem_iff.mp hb), hok.logical_mod, rfl⟩
    fun x => cover_perm hperm x

/-- What a reservation gives: the usable space has only gained the extension of the file, and the
block lies in the size map. -/
structure Reserved (cfg : Config) (size : Nat) (w w' : Writer) (b : Block) : Prop where
  grows : Grows cfg w w' []
  mem : b ∈ w'.sizeMap
  size_le : size ≤ b.size
  section_le : b.ref + size ≤ upperSectionBoundary b.ref

theorem Reserved.of_found {cfg : Config} {size : Nat} {w w' : Writer} {m' : List Block} {b : Block}
    (hg : Grows cfg w w' []) (h : Found w'.sizeMap size m' b) :
    Reserved cfg size w { w' with sizeMap := m' } b :=
  ⟨hg.trans (h.grows hg.ok), h.mem, h.size_le, h.section_le⟩

theorem Reserved.of_grows {cfg : Config} {size : Nat} {w w₁ w' : Writer} {b : Block}
    (hg : Grows cfg w w₁ []) (h : Reserved cfg size w₁ w' b) : Reserved cfg size w w' b :=
  ⟨hg.trans h.grows, h.mem, h.size_le, h.section_le⟩

theorem reserveLoop_spec {cfg : Config} {commitSize size : Nat} (hsize : 0 < size) :
    ∀ {fuel : Nat} {w w' : Writer} {b : Block}, w.Ok →
      reserveLoop cfg commitSize size fuel w = some (w', b) → Reserved cfg size w w' b
  | 0, _, _, _, _, h => by cases h
  | fuel + 1, w, w', b, hok, h => by
    unfold reserveLoop at h
    split at h
    · have hg := giveUpEvacuation_grows cfg hok
      dsimp only at h
      split at h
      · rename_i m b' hfound
        cases h
        exact .of_found hg (searchPart_found hg.ok.sizeMap_aligned hsize hfound)
      · exact .of_grows hg (reserveLoop_spec hsize hg.ok h)
    · split at h
      · cases h
      · rename_i w₁ chunk hext
        obtain ⟨hg, hmem⟩ := extendFreeSpace_grows hsize hok hext
        split at h
        · rename_i m b' hfound
          cases h
          exact .of_found hg (searchElement_found hg.ok.sizeMap_aligned hmem hsize hfound)
        · exact .of_grows hg (reserveLoop_spec hsize hg.ok h)

theorem reserveFreeSpace_spec {cfg : Config} {commitSize fuel size : Nat} {w w' : Writer} {b : Block}
    (hsize : 0 < size) (hok : w.Ok)
    (h : reserveFreeSpace cfg commitSize fuel size w = some (w', b)) : Reserved cfg size w w' b := by
  unfold reserveFreeSpace at h
  split at h
  · rename_i m b' hfound
    cases h
    exact .of_found (.refl hok) (searchPart_found hok.sizeMap_aligned hsize hfound)
  · exact reserveLoop_spec hsize hok h

/-- **What is handed out is what leaves the usable space.** -/
theorem getFreeSpace_spec {cfg : Config} {commitSize fuel size : Nat} {w w' : Writer} {b : Block}
    (hsize : 0 < size) (h8 : size % 8 = 0) (hok : w.Ok)
    (h : getFreeSpace cfg commitSize fuel size w = some (w', b)) :
    Grows cfg w w' [b] ∧ Aligned b := by
  unfold getFreeSpace at h
  split at h
  · cases h
  rename_i w₁ p hres
  obtain ⟨hg, hmem, hle, -⟩ := reserveFreeSpace_spec hsize hok hres
  obtain ⟨-, hr, hs⟩ := hg.ok.sizeMap_aligned p hmem
  cases h
  refine ⟨hg.trans ⟨rfl, Nat.le_refl _, fun x => ?_,
    ⟨fun c hc => ?_, hg.ok.logical_mod, hg.ok.limit_mod⟩, .inl rfl, Nat.le_refl _, id, id⟩,
    ⟨hsize, hr, h8⟩⟩
  · have hsplit := ind_split p hle x
    have hzero := ind_eq_zero_of_size (b := ⟨w₁.logicalSize, w₁.logicalSize - w₁.logicalSize⟩)
      (Nat.sub_self _) x
    rw [Writer.cover_usable, Writer.cover_usable, cover_erase hmem, cover_cons, cover_nil, hzero]
    dsimp only
    split
    · rw [cover_emplace]
      omega
    · have := ind_eq_zero_of_size (b := ⟨p.ref + size, p.size - size⟩) (by dsimp only; omega) x
      omega
  · rcases List.mem_append.mp hc with hc | hc
    · dsimp only at hc
      split at hc
      · rcases mem_emplace.mp hc with rfl | hc
        · refine ⟨?_, ?_, ?_⟩ <;> dsimp only <;> omega
        · exact hg.ok.sizeMap_aligned c (List.mem_of_mem_erase hc)
      · exact hg.ok.sizeMap_aligned c (List.mem_of_mem_erase hc)
    · exact hg.ok.aligned c (List.mem_append_right _ hc)

theorem writeArrays_spec {cfg : Config} {commitSize fuel : Nat} :
    ∀ {sizes : List Nat} {w w' : Writer} {bs : List Block}, (∀ s ∈ sizes, 0 < s ∧ s % 8 = 0) →
      w.Ok → writeArrays cfg commitSize fuel sizes w = some (w', bs) →
      Grows cfg w w' bs ∧ ∀ b ∈ bs, Aligned b
  | [], w, w', bs, _, hok, h => by
    cases h
    exact ⟨.refl hok, by simp⟩
  | size :: sizes, w, w', bs, hs, hok, h => by
    obtain ⟨⟨hpos, h8⟩, hsizes⟩ := List.forall_mem_cons.mp hs
    unfold writeArrays at h
    split at h
    · cases h
    rename_i w₁ b hget
    obtain ⟨hg, hb⟩ := getFreeSpace_spec hpos h8 hok hget
    split at h
    · cases h
    rename_i w₂ bs' hrest
    obtain ⟨hg', hbs⟩ := writeArrays_spec hsizes hg.ok hrest
    cases h
    exact ⟨hg.trans hg', List.forall_mem_cons.mpr ⟨hb, hbs⟩⟩

end Llbt.FreeSpace
