import Llbt.FreeSpace.Entries

/-!
# Commits of an in-memory store

The file of an in-memory store is a list of buffers of one section each.  `resize_file` adds a buffer
when the file grows beyond them, and `InMemoryWriter` translates the position of every array it writes
to an address in the buffer of that section.

What a commit asks of the buffers is a list of events, in the order in which `write_group` produces
them, also when the commit fails on its way.

* `sized_commitEvents` — every array is written below the size of the file at that moment;
* `reserveRequest_le` — how much room `write_group` asks for the free lists, from what it starts with;
* `buffers_cover` — the buffers cover the file, and every position is inside them, in every history of
  commits that grow the file by a section at most (`FitsSection`);
* `large_commit_outgrows_buffers` — one call of `resize_file` adds one buffer, however large it is.
-/

set_option autoImplicit false

namespace Llbt.FreeSpace

open Blocks

/-! ## The buffers -/

structure MemBuffer where
  startRef : Nat
  size : Nat
  deriving DecidableEq, Repr

/-- The sum that `resize_file` forms. -/
def currentSize (buffers : List MemBuffer) : Nat := (buffers.map MemBuffer.size).sum

/-- `SlabAlloc::resize_file` of an in-memory store. -/
def resizeFile (newFileSize : Nat) (buffers : List MemBuffer) : List MemBuffer :=
  if newFileSize > currentSize buffers then buffers ++ [⟨currentSize buffers, 64 * 1024 * 1024⟩] else buffers

/-- `SlabAlloc::translate_memory_pos`: the index of the buffer and the offset in it. -/
def translateMemoryPos (buffers : List MemBuffer) (ref : Nat) : Option (Nat × Nat) :=
  let idx := ref / sectionSize
  buffers[idx]?.map fun buf => (idx, ref - buf.startRef)

/-- What a commit does with the buffers. -/
inductive Event where
  | resize (newFileSize : Nat)
  | translate (pos : Nat)
  deriving DecidableEq, Repr

/-- The buffers after the events. -/
def replay : List MemBuffer → List Event → List MemBuffer
  | buffers, [] => buffers
  | buffers, .resize n :: es => replay (resizeFile n buffers) es
  | buffers, .translate _ :: es => replay buffers es

/-- `m_virtual_file_size` after the events. -/
def endSize : Nat → List Event → Nat
  | size, [] => size
  | _, .resize n :: es => endSize n es
  | size, .translate _ :: es => endSize size es

/-- After every extension the buffers cover the file, and every position is inside the buffers. -/
def Covered : List MemBuffer → List Event → Prop
  | _, [] => True
  | buffers, .resize n :: es => n ≤ currentSize (resizeFile n buffers) ∧ Covered (resizeFile n buffers) es
  | buffers, .translate pos :: es => (translateMemoryPos buffers pos).isSome ∧ Covered buffers es

theorem isSome_translateMemoryPos {buffers : List MemBuffer} {ref : Nat} :
    (translateMemoryPos buffers ref).isSome ↔ ref / sectionSize < buffers.length := by
  simp [translateMemoryPos]

/-! ## The events of a commit -/

/-- The extensions in the loop of `reserve_free_space`. -/
def reserveLoopEvents (cfg : Config) (commitSize size : Nat) : Nat → Writer → List Event
  | 0, _ => []
  | fuel + 1, w =>
    if w.underEvac ≠ [] then
      match searchPart (giveUpEvacuation w).sizeMap size with
      | some _ => []
      | none => reserveLoopEvents cfg commitSize size fuel (giveUpEvacuation w)
    else
      match extendFreeSpace cfg commitSize size w with
      | none => []
      | some (w, newChunk) =>
        .resize w.logicalSize ::
          match searchElement w.sizeMap newChunk size with
          | some _ => []
          | none => reserveLoopEvents cfg commitSize size fuel w

/-- The extensions of `reserve_free_space`. -/
def reserveEvents (cfg : Config) (commitSize fuel size : Nat) (w : Writer) : List Event :=
  match searchPart w.sizeMap size with
  | some _ => []
  | none => reserveLoopEvents cfg commitSize size fuel w

/-- `InMemoryWriter::write_array` for arrays of the given sizes. -/
def arrayEvents (cfg : Config) (commitSize fuel : Nat) : List Nat → Writer → List Event
  | [], _ => []
  | size :: sizes, w =>
    reserveEvents cfg commitSize fuel size w ++
      match getFreeSpace cfg commitSize fuel size w with
      | none => []
      | some (w, b) => .translate b.ref :: arrayEvents cfg commitSize fuel sizes w

/-- The events for the array that records the state of evacuation. -/
def evacuationEvents (cfg : Config) (c : Commit) (w : Writer) : List Event :=
  if w.evacLimit ≠ 0 ∨ w.backoff ≠ 0 then
    arrayEvents cfg c.commitSize c.fuel [c.evacSize]
      { w with backoff := if w.backoff = 0 ∧ c.progress = [] then 1000 else w.backoff }
  else []

/-- The room that `write_group` reserves for the free lists and the top. -/
def reserveRequest (live : List Version) (c : Commit) (w : Writer) (freed : List Block) : Nat :=
  maxFreeSpaceNeeded c { w with notFree := backdateLocked live c w.notFree } freed + 8

/-- The end of the commit: room is reserved, and the free lists and the top are written into it. -/
def finishEvents (cfg : Config) (live : List Version) (replaced : Version) (c : Commit) (w : Writer) :
    List Event :=
  match freeAll (replaced.arrays ++ c.freed) [] with
  | none => []
  | some freed =>
    reserveEvents cfg c.commitSize c.fuel (reserveRequest live c w freed)
        { w with notFree := backdateLocked live c w.notFree } ++
      match writeGroup cfg live replaced c with
      | none => []
      | some r => r.version.arrays.map fun b => .translate b.ref

/-- The events of `write_group`. -/
def commitEvents (cfg : Config) (live : List Version) (replaced : Version) (c : Commit) : List Event :=
  arrayEvents cfg c.commitSize c.fuel c.writes (startWriter live replaced c) ++
    match writeArrays cfg c.commitSize c.fuel c.writes (startWriter live replaced c) with
    | none => []
    | some (w, _) =>
      evacuationEvents cfg c w ++
        match writeEvacuation cfg c w with
        | none => []
        | some (w, _, _) => finishEvents cfg live replaced c w

/-! ## The size of the file at every event -/

/-- Positions lie below the size of the file, and `R` relates the sizes before and after each
extension. -/
def Sized (R : Nat → Nat → Prop) : Nat → List Event → Prop
  | _, [] => True
  | size, .resize n :: es => R size n ∧ Sized R n es
  | size, .translate pos :: es => pos < size ∧ Sized R size es

@[simp]
theorem endSize_append (size : Nat) (es fs : List Event) :
    endSize size (es ++ fs) = endSize (endSize size es) fs := by
  induction es generalizing size with
  | nil => rfl
  | cons e es ih =>
    cases e with
    | resize n => exact ih n
    | translate pos => exact ih size

theorem sized_append {R : Nat → Nat → Prop} {size : Nat} {es fs : List Event} :
    Sized R size (es ++ fs) ↔ Sized R size es ∧ Sized R (endSize size es) fs := by
  induction es generalizing size with
  | nil => simp [Sized, endSize]
  | cons e es ih =>
    cases e with
    | resize n => simp only [List.cons_append, Sized, endSize, ih, and_assoc]
    | translate pos => simp only [List.cons_append, Sized, endSize, ih, and_assoc]

theorem sized_translate {R : Nat → Nat → Prop} {size : Nat} :
    ∀ {bs : List Block}, (∀ b ∈ bs, b.ref < size) → Sized R size (bs.map fun b => Event.translate b.ref)
  | [], _ => trivial
  | b :: _, h =>
    ⟨h b List.mem_cons_self, sized_translate fun c hc => h c (List.mem_cons_of_mem b hc)⟩

theorem endSize_translate {size : Nat} (bs : List Block) :
    endSize size (bs.map fun b => Event.translate b.ref) = size := by
  induction bs with
  | nil => rfl
  | cons b bs ih => exact ih

/-- The usable space lies in the file. -/
structure Writer.Below (w : Writer) : Prop where
  ok : w.Ok
  logical_le : w.logicalSize ≤ w.fileSize
  usable_lt : ∀ x, 0 < cover w.usable x → x < w.logicalSize

theorem Grows.lt_logicalSize {cfg : Config} {w w' : Writer} {out : List Block} (h : Grows cfg w w' out)
    (hw : w.Below) {x : Nat} (hx : 0 < cover w'.usable x + cover out x) : x < w'.logicalSize := by
  have hle := h.logical_le
  rw [h.cover_eq x] at hx
  by_cases hold : 0 < cover w.usable x
  · have hlt := hw.usable_lt x hold
    omega
  · have hnew : 0 < (Block.mk w.logicalSize (w'.logicalSize - w.logicalSize)).ind x := by omega
    have hhas := ind_pos_iff.mp hnew
    simp only [Block.Has] at hhas
    omega

theorem Grows.below {cfg : Config} {w w' : Writer} {out : List Block} (h : Grows cfg w w' out)
    (hw : w.Below) : w'.Below :=
  ⟨h.ok, h.within hw.logical_le, fun _ hx => h.lt_logicalSize hw (Nat.add_pos_left hx _)⟩

/-- The sizes between which a file is extended for a request that satisfies `Req`. -/
def Extends (cfg : Config) (commitSize : Nat) (Req : Nat → Prop) (R : Nat → Nat → Prop) : Prop :=
  ∀ (size : Nat) (w w' : Writer) (chunk : Block), 0 < size → Req size → w.logicalSize ≤ w.fileSize →
    extendFreeSpace cfg commitSize size w = some (w', chunk) → R w.fileSize w'.logicalSize

theorem fileSize_extendFreeSpace {cfg : Config} {commitSize size : Nat} {w w' : Writer} {chunk : Block}
    (hsize : 0 < size) (h : extendFreeSpace cfg commitSize size w = some (w', chunk)) :
    w.fileSize ≤ w'.logicalSize ∧ w'.fileSize = w'.logicalSize := by
  obtain ⟨-, -, -, -, -, -, -, hfile⟩ := extendFreeSpace_spec hsize h
  have hle : w.fileSize ≤ w'.logicalSize := by
    have hmin : w.fileSize ≤ minimalNewSize commitSize size w := by
      unfold minimalNewSize
      dsimp only
      split <;> split <;> omega
    have h1 := le_roundUpToPageSize cfg (minimalNewSize commitSize size w)
    have h2 := le_alignSizeToSectionBoundary (minimalNewSize commitSize size w)
    unfold extendFreeSpace at h
    dsimp only at h
    split at h
    · cases h
    cases h
    dsimp only
    split <;> omega
  exact ⟨hle, by omega⟩

section Sizes

variable {cfg : Config} {commitSize fuel size : Nat} {Req : Nat → Prop} {R : Nat → Nat → Prop} {w w' : Writer}
  {b : Block}

theorem sized_reserveLoopEvents (hR : Extends cfg commitSize Req R) (hsize : 0 < size) (hreq : Req size) :
    ∀ (fuel : Nat) {w : Writer}, w.Below →
      Sized R w.fileSize (reserveLoopEvents cfg commitSize size fuel w) ∧
      ∀ {w' : Writer} {b : Block}, reserveLoop cfg commitSize size fuel w = some (w', b) →
        endSize w.fileSize (reserveLoopEvents cfg commitSize size fuel w) = w'.fileSize
  | 0, _, _ => ⟨trivial, fun h => by cases h⟩
  | fuel + 1, w, hw => by
    unfold reserveLoopEvents reserveLoop
    by_cases hevac : w.underEvac ≠ []
    · have hgive := (giveUpEvacuation_grows cfg hw.ok).below hw
      simp only [if_pos hevac]
      cases hfound : searchPart (giveUpEvacuation w).sizeMap size with
      | some found =>
        refine ⟨trivial, fun h => ?_⟩
        cases h
        rfl
      | none => exact sized_reserveLoopEvents hR hsize hreq fuel hgive
    · simp only [if_neg hevac]
      cases hext : extendFreeSpace cfg commitSize size w with
      | none => exact ⟨trivial, fun h => by cases h⟩
      | some r =>
        obtain ⟨w₁, chunk⟩ := r
        have hbelow := (extendFreeSpace_grows hsize hw.ok hext).1.below hw
        have hfile := (fileSize_extendFreeSpace hsize hext).2
        have hgrow := hR size w w₁ chunk hsize hreq hw.logical_le hext
        dsimp only
        cases hfound : searchElement w₁.sizeMap chunk size with
        | some found =>
          refine ⟨⟨hgrow, trivial⟩, fun h => ?_⟩
          cases h
          exact hfile.symm
        | none =>
          obtain ⟨hsized, hend⟩ := sized_reserveLoopEvents hR hsize hreq fuel hbelow
          rw [hfile] at hsized hend
          exact ⟨⟨hgrow, hsized⟩, hend⟩

theorem sized_reserveEvents (hR : Extends cfg commitSize Req R) (hsize : 0 < size) (hreq : Req size)
    (hw : w.Below) : Sized R w.fileSize (reserveEvents cfg commitSize fuel size w) := by
  unfold reserveEvents
  split
  · exact trivial
  · exact (sized_reserveLoopEvents hR hsize hreq fuel hw).1

theorem endSize_reserveEvents (hsize : 0 < size) (hw : w.Below)
    (h : reserveFreeSpace cfg commitSize fuel size w = some (w', b)) :
    endSize w.fileSize (reserveEvents cfg commitSize fuel size w) = w'.fileSize := by
  unfold reserveFreeSpace at h
  unfold reserveEvents
  split
  · rename_i found hfound
    rw [hfound] at h
    cases h
    rfl
  · rename_i hnone
    rw [hnone] at h
    have hR : Extends cfg commitSize (fun _ => True) fun _ _ => True := fun _ _ _ _ _ _ _ _ => trivial
    exact (sized_reserveLoopEvents hR hsize trivial fuel hw).2 h

theorem endSize_getFreeSpace (hsize : 0 < size) (hw : w.Below)
    (h : getFreeSpace cfg commitSize fuel size w = some (w', b)) :
    endSize w.fileSize (reserveEvents cfg commitSize fuel size w) = w'.fileSize := by
  unfold getFreeSpace at h
  split at h
  · cases h
  rename_i w₁ p hres
  have hend := endSize_reserveEvents hsize hw hres
  cases h
  exact hend

/-- **Arrays are written inside the file.** -/
theorem sized_arrayEvents (hR : Extends cfg commitSize Req R) (fuel : Nat) : ∀ {sizes : List Nat} {w : Writer},
    (∀ s ∈ sizes, 0 < s ∧ s % 8 = 0) → (∀ s ∈ sizes, Req s) → w.Below →
      Sized R w.fileSize (arrayEvents cfg commitSize fuel sizes w) ∧
      ∀ {w' : Writer} {bs : List Block}, writeArrays cfg commitSize fuel sizes w = some (w', bs) →
        endSize w.fileSize (arrayEvents cfg commitSize fuel sizes w) = w'.fileSize
  | [], _, _, _, _ => ⟨trivial, fun h => by cases h; rfl⟩
  | size :: sizes, w, hs, hreq, hw => by
    obtain ⟨⟨hpos, h8⟩, hsizes⟩ := List.forall_mem_cons.mp hs
    obtain ⟨hreq₁, hreqs⟩ := List.forall_mem_cons.mp hreq
    have hres : Sized R w.fileSize (reserveEvents cfg commitSize fuel size w) :=
      sized_reserveEvents hR hpos hreq₁ hw
    unfold arrayEvents writeArrays
    cases hget : getFreeSpace cfg commitSize fuel size w with
    | none =>
      dsimp only
      rw [List.append_nil]
      exact ⟨hres, fun h => by cases h⟩
    | some r =>
      obtain ⟨w₁, b⟩ := r
      obtain ⟨hg, hb⟩ := getFreeSpace_spec hpos h8 hw.ok hget
      have hw₁ := hg.below hw
      have hend := endSize_getFreeSpace hpos hw hget
      have hlt : b.ref < w₁.fileSize := by
        have hhas : 0 < cover [b] b.ref := by
          refine cover_pos_iff.mpr ⟨b, List.mem_singleton_self b, ?_⟩
          have hbpos := hb.size_pos
          simp only [Block.Has]
          omega
        exact Nat.lt_of_lt_of_le (hg.lt_logicalSize hw (Nat.add_pos_right _ hhas)) hw₁.logical_le
      obtain ⟨hrest, hends⟩ := sized_arrayEvents hR fuel hsizes hreqs hw₁
      dsimp only
      rw [sized_append, endSize_append, hend]
      refine ⟨⟨hres, hlt, hrest⟩, fun h => ?_⟩
      split at h
      · cases h
      rename_i w₂ bs' hwrite
      cases h
      exact hends hwrite

end Sizes

section Commits

variable {cfg : Config} {live : List Version} {replaced : Version} {c : Commit} {Req : Nat → Prop}
  {R : Nat → Nat → Prop}

theorem below_startWriter (hwf : replaced.WF cfg) (hfile : replaced.logicalSize ≤ c.fileSize) :
    (startWriter live replaced c).Below :=
  ⟨readInFreelist_ok hwf.free_aligned (prepareEvacuation_mod hwf.limit_mod) hwf.logical_mod, hfile,
    fun _ hx => (startWriter_within hwf hx).2⟩

theorem Writer.Below.congr {w w' : Writer} (h : w.Below) (husable : w'.usable = w.usable)
    (hlogical : w'.logicalSize = w.logicalSize) (hfile : w'.fileSize = w.fileSize)
    (hlimit : w'.evacLimit = w.evacLimit) : w'.Below := by
  refine ⟨⟨?_, ?_, ?_⟩, ?_, ?_⟩
  · rw [husable]
    exact h.ok.aligned
  · rw [hlogical]
    exact h.ok.logical_mod
  · rw [hlimit]
    exact h.ok.limit_mod
  · rw [hlogical, hfile]
    exact h.logical_le
  · rw [husable, hlogical]
    exact h.usable_lt

/-- The arrays that record the state of evacuation: one, while there is something to record. -/
def evacuationSizes (c : Commit) (w : Writer) : List Nat :=
  if w.evacLimit ≠ 0 ∨ w.backoff ≠ 0 then [c.evacSize] else []

theorem sized_evacuationEvents (hR : Extends cfg c.commitSize Req R) {w : Writer}
    (hreq : ∀ s ∈ evacuationSizes c w, Req s) (hw : w.Below) :
    Sized R w.fileSize (evacuationEvents cfg c w) ∧
      ∀ {w' : Writer} {evac : List Block} {point : EvacPoint}, writeEvacuation cfg c w = some (w', evac, point) →
        endSize w.fileSize (evacuationEvents cfg c w) = w'.fileSize := by
  unfold evacuationEvents writeEvacuation
  unfold evacuationSizes at hreq
  by_cases hevac : w.evacLimit ≠ 0 ∨ w.backoff ≠ 0
  · rw [if_pos hevac] at hreq
    simp only [if_pos hevac]
    have hsize : ∀ s ∈ [c.evacSize], 0 < s ∧ s % 8 = 0 := by simpa using c.evacSize_ok
    obtain ⟨hsized, hend⟩ := sized_arrayEvents
      (w := { w with backoff := if w.backoff = 0 ∧ c.progress = [] then 1000 else w.backoff }) hR c.fuel hsize hreq
      (hw.congr rfl rfl rfl rfl)
    refine ⟨hsized, fun h => ?_⟩
    split at h
    · cases h
    rename_i w₁ evac₁ hwrite
    cases h
    exact hend hwrite
  · simp only [if_neg hevac]
    refine ⟨trivial, fun h => ?_⟩
    cases h
    rfl

/-- What `write_group` asks room for, one after the other. -/
def requests (cfg : Config) (live : List Version) (replaced : Version) (c : Commit) : List Nat :=
  c.writes ++
    match writeArrays cfg c.commitSize c.fuel c.writes (startWriter live replaced c) with
    | none => []
    | some (w, _) =>
      evacuationSizes c w ++
        match writeEvacuation cfg c w with
        | none => []
        | some (w, _, _) =>
          match freeAll (replaced.arrays ++ c.freed) [] with
          | none => []
          | some freed => [reserveRequest live c w freed]

/-- **The free lists and the top are written inside the file.** -/
theorem sized_finishEvents (hR : Extends cfg c.commitSize Req R) {w₁ w₂ : Writer} {tree evac : List Block}
    {point : EvacPoint} (h₁ : writeArrays cfg c.commitSize c.fuel c.writes (startWriter live replaced c) =
    some (w₁, tree))
    (h₂ : writeEvacuation cfg c w₁ = some (w₂, evac, point))
    (hreq : ∀ freed, freeAll (replaced.arrays ++ c.freed) [] = some freed → Req (reserveRequest live c w₂ freed))
    (hwf : replaced.WF cfg) (hw : w₂.Below) (hfile : replaced.logicalSize ≤ c.fileSize)
    (heffect : ∀ r, writeGroup cfg live replaced c = some r → Effect cfg live replaced c r) :
    Sized R w₂.fileSize (finishEvents cfg live replaced c w₂) ∧
      ∀ r, writeGroup cfg live replaced c = some r →
        endSize w₂.fileSize (finishEvents cfg live replaced c w₂) = r.writer.fileSize := by
  unfold finishEvents
  cases hfreed : freeAll (replaced.arrays ++ c.freed) [] with
  | none =>
    refine ⟨trivial, fun r hgroup => ?_⟩
    obtain ⟨-, -, -, -, -, freed, -, -, -, -, hfreed', -⟩ := writeGroup_cases hgroup
    cases hfreed.symm.trans hfreed'
  | some freed =>
    have hbelow : Writer.Below { w₂ with notFree := backdateLocked live c w₂.notFree } := hw.congr rfl rfl rfl rfl
    have hpos : 0 < reserveRequest live c w₂ freed := Nat.succ_pos _
    have hres : Sized R w₂.fileSize (reserveEvents cfg c.commitSize c.fuel (reserveRequest live c w₂ freed)
        { w₂ with notFree := backdateLocked live c w₂.notFree }) :=
      sized_reserveEvents hR hpos (hreq freed hfreed) hbelow
    cases hgroup : writeGroup cfg live replaced c with
    | none =>
      refine ⟨sized_append.mpr ⟨hres, trivial⟩, fun r hr => ?_⟩
      cases hr
    | some r =>
      obtain ⟨w₁', tree', w₂', evac', point', freed', w₃, reserve, h₁', h₂', hfreed', h₃, -, maxNeeded, hcase⟩ :=
        writeGroup_cases hgroup
      cases h₁.symm.trans h₁'
      cases h₂.symm.trans h₂'
      cases hfreed.symm.trans hfreed'
      have hend : endSize w₂.fileSize (reserveEvents cfg c.commitSize c.fuel (reserveRequest live c w₂ freed)
          { w₂ with notFree := backdateLocked live c w₂.notFree }) = w₃.fileSize :=
        endSize_reserveEvents hpos hbelow h₃
      have hwriter : r.writer.fileSize = w₃.fileSize := by
        rcases hcase with ⟨-, hwriter, -⟩ | ⟨w₄, -, hshrink, hwriter, -⟩
        · rw [hwriter]
        · obtain ⟨hres, -⟩ := atReserve hwf h₁ h₂ h₃
          rw [hwriter, (shrink_spec hres.ok hres.page hshrink).2.2.1]
      have heff := heffect r hgroup
      refine ⟨sized_append.mpr ⟨hres, ?_⟩, fun r' hr' => ?_⟩
      · rw [hend, ← hwriter]
        refine sized_translate fun b hb => (heff.file.within hfile).2 b.ref (cover_pos_iff.mpr ⟨b, ?_, ?_⟩)
        · exact List.mem_append_right _ hb
        · have hbpos := heff.size_pos b (List.mem_append_right _ hb)
          simp only [Block.Has]
          omega
      · cases hr'
        rw [endSize_append, hend, endSize_translate, hwriter]

/-- **A commit writes inside the file**, at the size that the file has at each moment. -/
theorem sized_commitEvents (hR : Extends cfg c.commitSize Req R)
    (hreq : ∀ s ∈ requests cfg live replaced c, Req s) (hwf : replaced.WF cfg)
    (hfile : replaced.logicalSize ≤ c.fileSize)
    (heffect : ∀ r, writeGroup cfg live replaced c = some r → Effect cfg live replaced c r) :
    Sized R c.fileSize (commitEvents cfg live replaced c) ∧
      ∀ r, writeGroup cfg live replaced c = some r →
        endSize c.fileSize (commitEvents cfg live replaced c) = r.writer.fileSize := by
  have hstart : (startWriter live replaced c).Below := below_startWriter hwf hfile
  unfold requests at hreq
  obtain ⟨hwrites, hrest⟩ := List.forall_mem_append.mp hreq
  obtain ⟨hsized, hend⟩ := sized_arrayEvents hR c.fuel c.writes_ok hwrites hstart
  unfold commitEvents
  cases h₁ : writeArrays cfg c.commitSize c.fuel c.writes (startWriter live replaced c) with
  | none =>
    refine ⟨sized_append.mpr ⟨hsized, trivial⟩, fun r hgroup => ?_⟩
    obtain ⟨w₁, tree, -, -, -, -, -, -, h₁', -⟩ := writeGroup_cases hgroup
    cases h₁.symm.trans h₁'
  | some r =>
    obtain ⟨w₁, tree⟩ := r
    rw [h₁] at hrest
    obtain ⟨hevac, hrest⟩ := List.forall_mem_append.mp hrest
    have hw₁ := (writeArrays_spec c.writes_ok hstart.ok h₁).1.below hstart
    obtain ⟨hsized₁, hend₁⟩ := sized_evacuationEvents hR hevac hw₁
    have hfile₁ : endSize c.fileSize (arrayEvents cfg c.commitSize c.fuel c.writes (startWriter live replaced c)) =
        w₁.fileSize := hend h₁
    simp only [sized_append, endSize_append, hfile₁]
    cases h₂ : writeEvacuation cfg c w₁ with
    | none =>
      refine ⟨⟨hsized, hsized₁, trivial⟩, fun r hgroup => ?_⟩
      obtain ⟨w₁', tree', w₂, evac, point, -, -, -, h₁', h₂', -⟩ := writeGroup_cases hgroup
      cases h₁.symm.trans h₁'
      cases h₂.symm.trans h₂'
    | some r =>
      obtain ⟨w₂, evac, point⟩ := r
      rw [h₂] at hrest
      have hw₂ := (writeEvacuation_spec hw₁.ok h₂).1.below hw₁
      have hreserve : ∀ freed, freeAll (replaced.arrays ++ c.freed) [] = some freed →
          Req (reserveRequest live c w₂ freed) := fun freed hfreed => by
        rw [hfreed] at hrest
        exact hrest _ (List.mem_singleton_self _)
      obtain ⟨hsized₂, hend₂⟩ := sized_finishEvents hR h₁ h₂ hreserve hwf hw₂ hfile heffect
      simp only [hend₁ h₂]
      exact ⟨⟨hsized, hsized₁, hsized₂⟩, hend₂⟩

end Commits

/-! ## How much room is asked for -/

/-- A commit that grows the file by at most a section at a time: neither the growth for its size, nor an array, nor the
room for the free lists, counted from the entries of the replaced version, takes more. -/
structure FitsSection (replaced : Version) (c : Commit) : Prop where
  growth : c.commitSize + c.commitSize / 8 ≤ sectionSize
  arrays : ∀ s ∈ c.writes, s ≤ sectionSize / 2
  evacuation : c.evacSize ≤ sectionSize / 2
  entries : getMaxByteSize c.topSize + 24 * (2 * replaced.free.length + replaced.arrays.length + c.freed.length +
    3 * c.writes.length + 13) + 8 ≤ sectionSize

section Requests

variable {cfg : Config} {live : List Version} {replaced : Version} {c : Commit}

theorem length_readEntries (oldest limit : Nat) : ∀ es : List Entry,
    (readEntries oldest limit es).1.length + (readEntries oldest limit es).2.1.length +
      (readEntries oldest limit es).2.2.length ≤ 2 * es.length
  | [] => Nat.le_refl _
  | e :: es => by
    have ih := length_readEntries oldest limit es
    unfold readEntries
    dsimp only
    split
    · simp only [List.length_cons]
      omega
    · split
      · split <;> simp only [List.length_cons] <;> omega
      · simp only [List.length_cons]
        omega

theorem length_mergeLoop : ∀ (es merged : List Entry) (prev : Entry),
    (mergeLoop prev merged es).length = merged.length + es.length + 1
  | [], merged, prev => by simp [mergeLoop]
  | it :: rest, merged, prev => by
    unfold mergeLoop
    split
    · rw [length_mergeLoop]
      simp only [List.length_append, List.length_cons, List.length_nil]
      omega
    · rw [List.length_append, length_mergeLoop]
      simp only [List.length_cons, List.length_nil]
      omega

theorem length_mergeAdjacent (es : List Entry) : (mergeAdjacent es).length = es.length := by
  cases es with
  | nil => rfl
  | cons e es =>
    show (mergeLoop e [] es).length = _
    rw [length_mergeLoop, List.length_nil, List.length_cons]
    omega

theorem length_moveToSizeMap : ∀ (es : List Entry) (m : List Block),
    (moveToSizeMap es m).length ≤ es.length + m.length
  | [], m => by simp [moveToSizeMap]
  | e :: es, m => by
    rw [moveToSizeMap, List.foldl_cons, ← moveToSizeMap]
    refine (length_moveToSizeMap es _).trans ?_
    split
    · rw [length_emplace, List.length_cons]
      omega
    · rw [List.length_cons]
      omega

theorem count_startWriter (live : List Version) (replaced : Version) (c : Commit) :
    (startWriter live replaced c).count + (startWriter live replaced c).notFree.length ≤ 2 * replaced.free.length := by
  have hread := length_readEntries (oldestReachable live) (prepareEvacuation replaced).1 replaced.free
  have hmap := length_moveToSizeMap
    (mergeAdjacent (readEntries (oldestReachable live) (prepareEvacuation replaced).1 replaced.free).1) []
  have hevac := List.length_filter_le (fun e : Entry => decide (e.size ≠ 0))
    (mergeAdjacent (readEntries (oldestReachable live) (prepareEvacuation replaced).1 replaced.free).2.2)
  rw [length_mergeAdjacent] at hmap hevac
  rw [List.length_nil] at hmap
  unfold startWriter readInFreelist Writer.count
  dsimp only
  omega

theorem count_writeEvacuation {w w' : Writer} {evac : List Block} {point : EvacPoint} (hok : w.Ok)
    (hpos : 0 < w.logicalSize) (hevac : c.evacSize ≤ sectionSize / 2)
    (h : writeEvacuation cfg c w = some (w', evac, point)) : w'.count ≤ w.count + 3 := by
  unfold writeEvacuation at h
  split at h
  · dsimp only at h
    split at h
    · cases h
    rename_i w₁ bs hbs
    cases h
    have hokb : ∀ n, Writer.Ok { w with backoff := n } := fun n => ⟨hok.aligned, hok.logical_mod, hok.limit_mod⟩
    have hwords : ∀ s ∈ [c.evacSize], 0 < s ∧ s % 8 = 0 := List.forall_mem_singleton.mpr c.evacSize_ok
    have hcount := writeArrays_count hwords (List.forall_mem_singleton.mpr hevac) (hokb _) (by exact hpos) hbs
    exact hcount
  · cases h
    exact Nat.le_add_right _ _

/-- **How much room `write_group` asks for the free lists**, from what it starts with. -/
theorem reserveRequest_le {w₁ w₂ : Writer} {tree evac freed : List Block} {point : EvacPoint} (hs : Snapshots live)
    (hwf : replaced.WF cfg) (hfits : FitsSection replaced c)
    (h₁ : writeArrays cfg c.commitSize c.fuel c.writes (startWriter live replaced c) = some (w₁, tree))
    (h₂ : writeEvacuation cfg c w₁ = some (w₂, evac, point))
    (hfreed : freeAll (replaced.arrays ++ c.freed) [] = some freed) : reserveRequest live c w₂ freed ≤ sectionSize := by
  have hok : (startWriter live replaced c).Ok := readInFreelist_ok hwf.free_aligned
    (prepareEvacuation_mod hwf.limit_mod) hwf.logical_mod
  obtain ⟨hg₁, -⟩ := writeArrays_spec c.writes_ok hok h₁
  obtain ⟨hg₂, -, -⟩ := writeEvacuation_spec hg₁.ok h₂
  have hpos : 0 < (startWriter live replaced c).logicalSize := hwf.logical_pos
  have hstart := count_startWriter live replaced c
  have hcount₁ := writeArrays_count c.writes_ok hfits.arrays hok hpos h₁
  have hcount₂ := count_writeEvacuation hg₁.ok (Nat.lt_of_lt_of_le hpos hg₁.logical_le) hfits.evacuation h₂
  have hlen := length_freeAll hfreed
  have hlocked : (backdateLocked live c w₂.notFree).length = (startWriter live replaced c).notFree.length := by
    have hmap := congrArg List.length (backdateLocked_spec hs c 0 w₂.notFree).1
    rw [List.length_map, List.length_map] at hmap
    rw [hmap, hg₂.notFree, hg₁.notFree]
  have hentries := hfits.entries
  rw [List.length_append, List.length_nil] at hlen
  unfold Writer.count at hstart hcount₁ hcount₂
  have hper : sizePerFreeListEntry w₂.logicalSize ≤ 24 := by
    unfold sizePerFreeListEntry
    split <;> decide
  have hbytes := Nat.mul_le_mul_right (w₂.sizeMap.length + freed.length + (backdateLocked live c w₂.notFree).length +
    w₂.underEvac.length + 10) hper
  unfold reserveRequest maxFreeSpaceNeeded
  dsimp only
  omega

theorem requests_le (hs : Snapshots live) (hwf : replaced.WF cfg) (hfits : FitsSection replaced c) :
    ∀ s ∈ requests cfg live replaced c, s ≤ sectionSize := by
  have hhalf : sectionSize / 2 ≤ sectionSize := Nat.div_le_self _ _
  unfold requests
  refine List.forall_mem_append.mpr ⟨fun s hs => (hfits.arrays s hs).trans hhalf, ?_⟩
  split
  · exact List.forall_mem_nil _
  rename_i w₁ tree h₁
  refine List.forall_mem_append.mpr ⟨?_, ?_⟩
  · unfold evacuationSizes
    split
    · exact List.forall_mem_singleton.mpr (hfits.evacuation.trans hhalf)
    · exact List.forall_mem_nil _
  split
  · exact List.forall_mem_nil _
  rename_i w₂ evac point h₂
  split
  · exact List.forall_mem_nil _
  rename_i freed hfreed
  exact List.forall_mem_singleton.mpr (reserveRequest_le hs hwf hfits h₁ h₂ hfreed)

end Requests

theorem section_dvd_align (size : Nat) : sectionSize ∣ alignSizeToSectionBoundary size := by
  unfold alignSizeToSectionBoundary
  split
  · rename_i hzero
    exact Nat.dvd_of_mod_eq_zero hzero
  · exact Nat.dvd_mul_left _ _

theorem alignSizeToSectionBoundary_le {size n : Nat} (h : size ≤ n) (hn : sectionSize ∣ n) :
    alignSizeToSectionBoundary size ≤ n := by
  unfold alignSizeToSectionBoundary
  split
  · exact h
  · rename_i hne
    obtain ⟨k, rfl⟩ := hn
    have hlt : size / sectionSize < k := by
      by_contra hge
      have hmul : sectionSize * k ≤ sectionSize * (size / sectionSize) := Nat.mul_le_mul_left _ (by omega)
      have hdiv := Nat.div_add_mod size sectionSize
      omega
    unfold upperSectionBoundary
    rw [Nat.mul_comm]
    exact Nat.mul_le_mul_left _ hlt

/-! ## Histories -/

/-- An in-memory store: the live versions and `m_virtual_file_size`; the buffers are those that the events
of its history have made. -/
structure MemStore where
  live : List Version
  fileSize : Nat

def initialBuffers : List MemBuffer := [⟨0, 64 * 1024 * 1024⟩]

def MemStore.init (version : Nat) : MemStore := ⟨[emptyFile version], 24⟩

/-- One commit, of which the versions `held` are still in use; the file has the size that the allocator
keeps. -/
structure Attempts (S : MemStore) (held : List Version) (replaced : Version) (c : Commit) : Prop where
  held_sub : held.Sublist S.live
  newest : S.live.getLast? = some replaced
  held_newest : held.getLast? = some replaced
  nodes : replaced.nodes.Perm (c.kept ++ c.freed ++ c.lost)
  version_lt : replaced.version < c.version
  fileSize : c.fileSize = S.fileSize

/-- The store after a commit, which may have failed. -/
def MemStore.commit (cfg : Config) (S : MemStore) (held : List Version) (replaced : Version) (c : Commit) :
    MemStore where
  live :=
    match writeGroup cfg held replaced c with
    | none => held
    | some r => held ++ [r.version]
  fileSize := endSize S.fileSize (commitEvents cfg held replaced c)

/-- The stores that commits which satisfy `Ok` lead to, with all events on the way. -/
inductive MemRun (cfg : Config) (Ok : List Version → Version → Commit → Prop) : MemStore → List Event → Prop where
  | init (version : Nat) : MemRun cfg Ok (.init version) []
  | commit {S : MemStore} {events : List Event} {held : List Version} {replaced : Version} {c : Commit}
      (h : MemRun cfg Ok S events) (hattempt : Attempts S held replaced c) (hok : Ok held replaced c) :
      MemRun cfg Ok (S.commit cfg held replaced c) (events ++ commitEvents cfg held replaced c)

/-- What holds between commits: the live versions lie in the file. -/
structure MemInv (cfg : Config) (S : MemStore) : Prop where
  inv : Inv cfg S.live
  logical_le : ∀ v ∈ S.live, v.logicalSize ≤ S.fileSize

section Histories

variable {cfg : Config} {S : MemStore} {held : List Version} {replaced : Version} {c : Commit}
  {Ok : List Version → Version → Commit → Prop} {events : List Event} {R : Nat → Nat → Prop} {Req : Nat → Prop}

theorem Attempts.mem_live (h : Attempts S held replaced c) : replaced ∈ S.live := List.mem_of_getLast? h.newest

theorem Attempts.effect (h : Attempts S held replaced c) (hinv : Inv cfg S.live) (r : Committed)
    (hr : writeGroup cfg held replaced c = some r) : Effect cfg held replaced c r :=
  Commits.effect ⟨h.held_sub, h.newest, h.held_newest, h.nodes, h.version_lt, hr⟩ hinv

theorem Attempts.sized (h : Attempts S held replaced c) (hinv : MemInv cfg S) (hR : Extends cfg c.commitSize Req R)
    (hreq : ∀ s ∈ requests cfg held replaced c, Req s) :
    Sized R S.fileSize (commitEvents cfg held replaced c) ∧
      ∀ r, writeGroup cfg held replaced c = some r →
        endSize S.fileSize (commitEvents cfg held replaced c) = r.writer.fileSize := by
  have hfile : replaced.logicalSize ≤ c.fileSize := by
    rw [h.fileSize]
    exact hinv.logical_le replaced h.mem_live
  rw [← h.fileSize]
  exact sized_commitEvents hR hreq (hinv.inv.wf replaced h.mem_live) hfile (h.effect hinv.inv)

theorem Attempts.requests_le (h : Attempts S held replaced c) (hinv : Inv cfg S.live) (hfits : FitsSection replaced c) :
    ∀ s ∈ requests cfg held replaced c, s ≤ sectionSize :=
  FreeSpace.requests_le (hinv.snapshots.sublist h.held_sub) (hinv.wf replaced h.mem_live) hfits

theorem extends_le (cfg : Config) (commitSize : Nat) : Extends cfg commitSize (fun _ => True) (· ≤ ·) :=
  fun _ _ _ _ hsize _ _ h => (fileSize_extendFreeSpace hsize h).1

theorem Sized.le_endSize : ∀ {es : List Event} {size : Nat}, Sized (· ≤ ·) size es → size ≤ endSize size es
  | [], _, _ => Nat.le_refl _
  | .resize _ :: _, _, h => Nat.le_trans h.1 h.2.le_endSize
  | .translate _ :: _, _, h => h.2.le_endSize

/-- **A commit keeps the live versions in the file**, whether it succeeds or not. -/
theorem MemInv.commit (hinv : MemInv cfg S) (h : Attempts S held replaced c) :
    MemInv cfg (S.commit cfg held replaced c) := by
  obtain ⟨hsized, hend⟩ := h.sized hinv (extends_le cfg c.commitSize) fun _ _ => trivial
  have hgrow := hsized.le_endSize
  have hheld : ∀ v ∈ held, v.logicalSize ≤ endSize S.fileSize (commitEvents cfg held replaced c) := fun v hv =>
    Nat.le_trans (hinv.logical_le v (h.held_sub.mem hv)) hgrow
  unfold MemStore.commit
  cases hr : writeGroup cfg held replaced c with
  | none => exact ⟨⟨hinv.inv.snapshots.sublist h.held_sub, fun v hv => hinv.inv.wf v (h.held_sub.mem hv)⟩, hheld⟩
  | some r =>
    have hcommits : Commits cfg S.live held replaced c r :=
      ⟨h.held_sub, h.newest, h.held_newest, h.nodes, h.version_lt, hr⟩
    have hfile : replaced.logicalSize ≤ c.fileSize := by
      rw [h.fileSize]
      exact hinv.logical_le replaced h.mem_live
    refine ⟨hcommits.inv hinv.inv, List.forall_mem_append.mpr ⟨hheld, fun v hv => ?_⟩⟩
    rw [List.mem_singleton.mp hv, hend r hr]
    exact ((h.effect hinv.inv r hr).file.within hfile).1

theorem memInv_init (cfg : Config) (version : Nat) : MemInv cfg (.init version) :=
  ⟨emptyFile_inv cfg version, fun v hv => by rw [List.mem_singleton.mp hv]; exact Nat.le_refl 24⟩

theorem memInv_of_run (h : MemRun cfg Ok S events) : MemInv cfg S := by
  induction h with
  | init version => exact memInv_init cfg version
  | commit _ hattempt _ ih => exact ih.commit hattempt

theorem fileSize_of_run (h : MemRun cfg Ok S events) : S.fileSize = endSize 24 events := by
  induction h with
  | init version => rfl
  | commit _ hattempt _ ih => rw [endSize_append, ← ih]; rfl

/-! ## Buffers and sizes -/

/-- The buffers are sections in a row. -/
def Regular (buffers : List MemBuffer) : Prop := currentSize buffers = buffers.length * sectionSize

theorem currentSize_resizeFile (n : Nat) (buffers : List MemBuffer) :
    currentSize (resizeFile n buffers) =
      if n > currentSize buffers then currentSize buffers + sectionSize else currentSize buffers := by
  unfold resizeFile
  split
  · simp [currentSize, sectionSize]
  · rfl

theorem Regular.resizeFile {buffers : List MemBuffer} (h : Regular buffers) (n : Nat) :
    Regular (resizeFile n buffers) := by
  unfold Regular at h ⊢
  rw [currentSize_resizeFile]
  unfold FreeSpace.resizeFile
  split
  · rw [List.length_append, List.length_singleton, Nat.add_mul, Nat.one_mul, h]
  · exact h

/-- The sizes of the file before and after an extension of at most a section. -/
def WithinSection (size n : Nat) : Prop := size ≤ n ∧ n ≤ alignSizeToSectionBoundary size + sectionSize

/-- **The buffers cover the file** if every extension adds at most a section: they end on a section boundary. -/
theorem covered_of_sized : ∀ {es : List Event} {buffers : List MemBuffer} {size : Nat}, Regular buffers →
    size ≤ currentSize buffers → Sized WithinSection size es → Covered buffers es
  | [], _, _, _, _, _ => trivial
  | .resize n :: es, buffers, size, hreg, hsize, hsized => by
    have halign : alignSizeToSectionBoundary size ≤ currentSize buffers :=
      alignSizeToSectionBoundary_le hsize (hreg ▸ Nat.dvd_mul_left _ _)
    have hcover : n ≤ currentSize (resizeFile n buffers) := by
      have hle := hsized.1.2
      rw [currentSize_resizeFile]
      split <;> omega
    exact ⟨hcover, covered_of_sized (hreg.resizeFile n) hcover hsized.2⟩
  | .translate pos :: es, buffers, size, hreg, hsize, hsized => by
    refine ⟨?_, covered_of_sized hreg hsize hsized.2⟩
    have hlt : pos < buffers.length * sectionSize := by
      rw [← hreg]
      exact Nat.lt_of_lt_of_le hsized.1 hsize
    exact isSome_translateMemoryPos.mpr ((Nat.div_lt_iff_lt_mul (by decide)).mpr hlt)

/-- **An extension for a request of at most a section adds at most a section**, to the boundary behind it. -/
theorem extends_section {commitSize : Nat} (hgrowth : commitSize + commitSize / 8 ≤ sectionSize) :
    Extends cfg commitSize (· ≤ sectionSize) WithinSection := by
  intro size w w' chunk hpos hsize hlogical h
  refine ⟨(fileSize_extendFreeSpace hpos h).1, ?_⟩
  have hmin : minimalNewSize commitSize size w ≤ w.fileSize + sectionSize := by
    unfold minimalNewSize growthBoundary
    unfold sectionSize at hgrowth hsize ⊢
    dsimp only
    split <;> split <;> omega
  have hfile := le_alignSizeToSectionBoundary w.fileSize
  have hdvd : sectionSize ∣ alignSizeToSectionBoundary w.fileSize + sectionSize :=
    Nat.dvd_add (section_dvd_align w.fileSize) (Nat.dvd_refl _)
  have halign := alignSizeToSectionBoundary_le (hmin.trans (Nat.add_le_add_right hfile _)) hdvd
  have hround := le_roundUpToPageSize cfg (minimalNewSize commitSize size w)
  unfold extendFreeSpace at h
  dsimp only at h
  split at h
  · cases h
  cases h
  dsimp only
  split <;> omega

theorem regular_initialBuffers : Regular initialBuffers := rfl

theorem sized_of_run (h : MemRun cfg (fun _ replaced c => FitsSection replaced c) S events) :
    Sized WithinSection 24 events := by
  induction h with
  | init version => exact trivial
  | commit hrun hattempt hfits ih =>
    refine sized_append.mpr ⟨ih, ?_⟩
    rw [← fileSize_of_run hrun]
    have hinv := memInv_of_run hrun
    exact (hattempt.sized hinv (extends_section hfits.growth) (hattempt.requests_le hinv.inv hfits)).1

/-- **The buffers cover the file, and every position is inside them**, in every history of commits that ask for at most
a section at a time. -/
theorem buffers_cover (h : MemRun cfg (fun _ replaced c => FitsSection replaced c) S events) :
    Covered initialBuffers events :=
  covered_of_sized regular_initialBuffers (by decide) (sized_of_run h)

end Histories

/-- The first commit of a store, with arrays of the given sizes. -/
def firstCommit (writes : List Nat) (hwrites : ∀ s ∈ writes, 0 < s ∧ s % 8 = 0) : Commit :=
  { Small.commit 2 [] [] [] with
    writes
    fileSize := 24
    commitSize := writes.sum
    writes_ok := hwrites }

theorem firstCommit_attempts (writes : List Nat) (hwrites : ∀ s ∈ writes, 0 < s ∧ s % 8 = 0) :
    Attempts (.init 1) [emptyFile 1] (emptyFile 1) (firstCommit writes hwrites) :=
  ⟨.refl _, rfl, rfl, .refl _, Nat.lt_succ_self 1, rfl⟩

def threeBlobs : Commit := firstCommit (List.replicate 3 0xFFFFF8) (by decide +kernel)

def nineBlobs : Commit := firstCommit (List.replicate 9 0xFFFFF8) (by decide +kernel)

/-- A commit of three blobs of 16 MiB grows the file into its second section, for which a buffer is added. -/
theorem buffers_cover_three : ∃ S events,
    MemRun Small.cfg (fun _ replaced c => FitsSection replaced c) S events ∧
      .resize 73404416 ∈ events ∧ Covered initialBuffers events := by
  have hfits : FitsSection (emptyFile 1) threeBlobs := ⟨by decide, by decide, by decide, by decide⟩
  have hrun : MemRun Small.cfg (fun _ replaced c => FitsSection replaced c) _ _ :=
    (MemRun.init 1).commit (c := threeBlobs) (firstCommit_attempts _ _) hfits
  exact ⟨_, _, hrun, by decide +kernel, buffers_cover hrun⟩

/-- **A commit of nine blobs of 16 MiB outgrows the buffers**: the second extension takes the file to 178
MiB, one buffer is added to the first one, and the eighth blob is written behind both. -/
theorem large_commit_outgrows_buffers : ¬ ∀ (S : MemStore) (events : List Event),
    MemRun Small.cfg (fun _ _ _ => True) S events → ∀ pre pos post, events = pre ++ .translate pos :: post →
      (translateMemoryPos (replay initialBuffers pre) pos).isSome := by
  intro hall
  have hrun : MemRun Small.cfg (fun _ _ _ => True) _ _ :=
    (MemRun.init 1).commit (c := nineBlobs) (firstCommit_attempts _ _) trivial
  have hevents : commitEvents Small.cfg [emptyFile 1] (emptyFile 1) nineBlobs =
      [.resize 16781312, .translate 24, .resize 186650624, .translate 16781312, .translate 33558520,
        .translate 67108864, .translate 83886072, .translate 100663280, .translate 117440488] ++
      .translate 134217728 :: [.translate 150994936, .translate 16777232, .translate 16777256,
        .translate 16777280, .translate 16777288] := by decide +kernel
  have hpos := hall _ _ hrun _ _ _ ((List.nil_append _).trans hevents)
  exact absurd hpos (by decide +kernel)

end Llbt.FreeSpace
